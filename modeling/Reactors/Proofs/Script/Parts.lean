import Reactors.Script.Module

/-! # Texts and their parts

    Classes, lines and statements are data first and text in the end.  Here is what the text of each
    of them looks like, and where it stands: the properties of a class and the lines of a
    constructor one behind the other, the classes in the text of the module, and the statements at
    its end.
-/

namespace Reactors.Script

/-- A text is put together from blocks, with a line feed between two of them, and this is one. -/
def StandsIn (block text : String) : Prop :=
  ∃ before after, text = "\n".intercalate (before ++ block :: after)

theorem standsIn_of_mem {blocks : List String} {block : String} (h : block ∈ blocks) :
    StandsIn block ("\n".intercalate blocks) := by
  obtain ⟨before, after, rfl⟩ := List.append_of_mem h
  exact ⟨before, after, rfl⟩

/-! ## Properties -/

section properties
variable {o : Options} {name : String} {names : List String}

/-- A method of a name, marked as a property, that returns the field of the name.  A comment may
    stand at its end. -/
def IsProperty (o : Options) (name block : String) : Prop :=
  ∃ mark, (mark = "" ∨ mark = " # pylint: disable=no-member") ∧
    block = "@property\ndef " ++ name ++ "(self):\n" ++ o.margin 1 ++
      "return self._" ++ name ++ mark ++ "\n"

theorem isProperty_propertyText (o : Options) (name : String) :
    IsProperty o name (propertyText o name) := by
  refine ⟨if o.lintMarkers then " # pylint: disable=no-member" else "", ?_, ?_⟩
  · split
    · exact .inr rfl
    · exact .inl rfl
  · have hfield : "return self._" = "return self." ++ "_" := by simp
    unfold propertyText fieldName
    simp only [hfield, String.append_assoc]

theorem standsIn_propertiesText (h : name ∈ names) :
    StandsIn (propertyText o name) (propertiesText o names) :=
  standsIn_of_mem (List.mem_map_of_mem h)

theorem propertiesText_ne_empty (h : names ≠ []) : propertiesText o names ≠ "" := by
  obtain ⟨name, rest, rfl⟩ := List.exists_cons_of_ne_nil h
  obtain ⟨mark, _, hblock⟩ := isProperty_propertyText o name
  simp only [String.append_assoc] at hblock
  rw [propertiesText, List.map_cons, hblock, String.intercalate_cons_append]
  simp

end properties

/-! ## Fields -/

/-- A line sets the field of a name to a value, with a type between them or without one. -/
def SetsField (name value line : String) : Prop :=
  ∃ type, (type = "" ∨ ∃ t, type = ":" ++ t) ∧
    line = "self._" ++ name ++ type ++ " = " ++ value

theorem setsField_text (id : ParamId) (name : String) (type : Option String) (terms : List Expr)
    (value : String) : SetsField name value (Line.assign id name type terms value).text := by
  have hfield : "self._" = "self." ++ "_" := rfl
  cases type with
  | none =>
    refine ⟨"", .inl rfl, ?_⟩
    simp only [Line.text, fieldName, hfield, String.append_assoc, String.empty_append]
  | some type =>
    refine ⟨":" ++ type, .inr ⟨type, rfl⟩, ?_⟩
    simp only [Line.text, fieldName, hfield, String.append_assoc]

theorem standsIn_skeletonText {lines : List Line} {l : Line} (h : l ∈ lines) :
    StandsIn l.text (skeletonText lines) :=
  standsIn_of_mem (List.mem_map_of_mem h)

/-! ## Modules -/

namespace Module

/-- The text of a module has the texts of its classes and of its statements. -/
structure Written (o : Options) (m : Module) : Prop where
  /-- The classes stand one behind the other, -/
  classes : ∃ before after,
    m.text o = before ++ String.join (m.classes.map (ClassBlock.text o)) ++ after
  /-- and the statements at the end, each with a line feed behind. -/
  statements : ∀ ss, m.construction = some ss →
    ∃ before, m.text o = before ++ String.join (ss.map fun s => s.text ++ "\n")

theorem written (o : Options) (m : Module) : m.Written o where
  classes := ⟨headerText m.header, _, rfl⟩
  statements := by
    intro ss hss
    refine ⟨headerText m.header ++ String.join (m.classes.map (ClassBlock.text o)) ++
      "# Instantiate reactors\n", ?_⟩
    simp only [text, hss, String.append_assoc]

/-- Each class is a part of the module. -/
theorem part_of_mem {o : Options} {m : Module} {b : ClassBlock} (hb : b ∈ m.classes) :
    ∃ before after, m.text o = before ++ b.text o ++ after := by
  obtain ⟨us, vs, hsplit⟩ := List.append_of_mem hb
  obtain ⟨before, after, htext⟩ := (m.written o).classes
  refine ⟨before ++ String.join (us.map (ClassBlock.text o)),
    String.join (vs.map (ClassBlock.text o)) ++ after, ?_⟩
  rw [htext, hsplit, List.map_append, List.map_cons, String.join_append, String.join_cons]
  simp only [String.append_assoc]

end Module

end Reactors.Script
