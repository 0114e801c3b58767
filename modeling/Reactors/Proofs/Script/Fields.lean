import Reactors.Proofs.Program.Built
import Reactors.Proofs.Script.Indentation
import Reactors.Proofs.Script.Scopes
import Reactors.Proofs.Script.Skeleton

/-! # Fields, properties and warnings about names

    Several visible parameters of a reactor may have one name.  The constructor assigns a field for
    each of them, the class has one property for each name, and validation warns of every parameter
    that is not the first of its name.  So each property reads a field that is assigned, and there are
    as many warnings as there are parameters more than properties.
-/

namespace Reactors

/-! ## Names, each once -/

namespace Script

/-- Kept are the names that have not been seen, without later repetitions. -/
theorem firstOccurrences_eq (seen ns : List String) :
    firstOccurrences seen ns = (ns.filter fun n => n ∉ seen).eraseDups := by
  induction ns generalizing seen with
  | nil => rfl
  | cons n ns ih =>
    unfold firstOccurrences
    by_cases hn : n ∈ seen
    · rw [if_pos hn, ih, List.filter_cons_of_neg (by simpa using hn)]
    · rw [if_neg hn, ih, List.filter_cons_of_pos (by simpa using hn), List.eraseDups_cons,
        List.filter_filter]
      congr 3
      funext m
      by_cases hm : m = n <;> simp [hm]

theorem nodup_firstOccurrences (seen ns : List String) : (firstOccurrences seen ns).Nodup := by
  induction ns generalizing seen with
  | nil => exact List.nodup_nil
  | cons n ns ih =>
    unfold firstOccurrences
    split
    · exact ih seen
    · refine List.nodup_cons.mpr ⟨?_, ih (n :: seen)⟩
      rw [mem_firstOccurrences]
      simp

/-- The parameter and the name of the field that a line assigns. -/
def Line.field? : Line → Option (ParamId × String)
  | .assign param name _ _ _ => some (param, name)
  | _ => none

/-- The property of a name returns the field that a line assigns. -/
structure Line.ReadBy (o : Options) (l : Line) (name : String) : Prop where
  assigns : l.assigns? = some name
  /-- The text of the line sets the field, -/
  line : ∃ value, SetsField name value l.text
  /-- and the property returns it. -/
  property : IsProperty o name (propertyText o name)

theorem readBy_of_assigns {l : Line} {name : String} (h : l.assigns? = some name) (o : Options) :
    l.ReadBy o name := by
  cases l with
  | comment text => cases h
  | mergeKeywords => cases h
  | assign param n type terms value =>
    cases h
    exact ⟨rfl, ⟨value, setsField_text _ _ _ _ _⟩, isProperty_propertyText o _⟩

end Script

/-! ## Repetitions -/

namespace Catalog

/-- Each parameter of a list that has an earlier one of its name, behind the first of these. -/
def repeatedIn (qs : List Parameter) : List (Parameter × Parameter) :=
  qs.zipIdx.filterMap fun (q, k) =>
    ((qs.take k).find? fun w => w.name == q.name).map fun first => (first, q)

/-- If `firsts` has the first parameter of every name in `seen`, the repetitions behind `seen` are
    found. -/
theorem repetitionsFrom_eq {firsts seen : List Parameter}
    (h : ∀ name, (firsts.find? fun w => w.name == name) = seen.find? fun w => w.name == name)
    (qs : List Parameter) :
    repetitionsFrom firsts qs = qs.zipIdx.filterMap fun (q, k) =>
      ((seen ++ qs.take k).find? fun w => w.name == q.name).map fun first => (first, q) := by
  induction qs generalizing firsts seen with
  | nil => rfl
  | cons q qs ih =>
    -- every later parameter has `q` before it as well
    have hlater : (qs.zipIdx 1).filterMap (fun (w, k) =>
          ((seen ++ (q :: qs).take k).find? fun x => x.name == w.name).map fun first =>
            (first, w)) =
        qs.zipIdx.filterMap fun (w, k) =>
          (((seen ++ [q]) ++ qs.take k).find? fun x => x.name == w.name).map fun first =>
            (first, w) := by
      rw [List.zipIdx_succ, List.filterMap_map]
      exact List.filterMap_congr fun x _ => by simp
    unfold repetitionsFrom
    rw [List.zipIdx_cons, List.filterMap_cons, Nat.zero_add, hlater]
    simp only [List.take_zero, List.append_nil, ← h]
    cases hfind : firsts.find? fun w => w.name == q.name with
    | some first =>
      refine congrArg ((first, q) :: ·) (ih fun name => ?_)
      rw [List.find?_append, ← h]
      by_cases hname : q.name = name
      · rw [← hname, hfind, Option.some_or]
      · simp [hname]
    | none =>
      refine ih fun name => ?_
      rw [List.find?_append, List.find?_append, h]

theorem repetitionsFrom_nil (qs : List Parameter) : repetitionsFrom [] qs = repeatedIn qs :=
  @repetitionsFrom_eq [] [] (fun _ => rfl) qs

theorem length_repetitionsFrom {firsts : List Parameter} {seen : List String}
    (h : ∀ name, name ∈ seen ↔ ∃ q ∈ firsts, q.name = name) (qs : List Parameter) :
    (repetitionsFrom firsts qs).length +
      (Script.firstOccurrences seen (qs.map (·.name))).length = qs.length := by
  induction qs generalizing firsts seen with
  | nil => rfl
  | cons q qs ih =>
    unfold repetitionsFrom
    rw [List.map_cons, Script.firstOccurrences]
    cases hfind : firsts.find? fun w => w.name == q.name with
    | some first =>
      have hseen : q.name ∈ seen :=
        (h q.name).mpr ⟨first, List.mem_of_find?_eq_some hfind, by simpa using List.find?_some hfind⟩
      have hrest := ih h
      simp only [if_pos hseen, List.length_cons]
      omega
    | none =>
      have hseen : q.name ∉ seen := by
        intro hmem
        obtain ⟨w, hw, hname⟩ := (h q.name).mp hmem
        exact List.find?_eq_none.mp hfind w hw (by simpa using hname)
      have hnext : ∀ name, name ∈ q.name :: seen ↔ ∃ w ∈ firsts ++ [q], w.name = name := by
        intro name
        simp [h name, or_and_right, exists_or, eq_comm, or_comm]
      have hrest := ih hnext
      simp only [if_neg hseen, List.length_cons]
      omega

end Catalog

namespace Program

open Script

variable {p : Program}

/-! ## Warnings about names -/

/-- What validation says of an assignment is no warning about a name. -/
theorem code_of_mem_assignmentProblems {n : Assembly.Node} {scope : Option NodeId} {x : Assignment}
    {ds : List Diagnostic} (h : p.assignmentProblems? n scope x = some ds) :
    ∀ d ∈ ds, d.code ≠ some .ambiguousName := by
  obtain ⟨q, _, h⟩ := Option.bind_eq_some_iff.mp h
  split at h
  · cases h
    intro d hd
    obtain rfl := List.mem_singleton.mp hd
    show some Diagnostic.Code.emptyInitializer ≠ some .ambiguousName
    decide
  · split at h
    · cases h
      simp
    · cases h
      intro d hd
      obtain rfl := List.mem_singleton.mp hd
      show some Diagnostic.Code.unboundScope ≠ some .ambiguousName
      decide
    · split at h
      · cases h
        simp
      · obtain ⟨m, _, h⟩ := Option.bind_eq_some_iff.mp h
        intro d hd
        rw [code_of_mem_foreignForwards h d hd]
        decide

/-- Nor is what it says of the instances. -/
theorem coded_assemblyProblems {ds : List Diagnostic} (h : p.assemblyProblems? = some ds) :
    coded .ambiguousName ds = [] := by
  unfold assemblyProblems? at h
  split at h
  · cases h
    rfl
  · obtain ⟨nodes, _, h⟩ := Option.bind_eq_some_iff.mp h
    obtain ⟨problems, hproblems, h⟩ := Option.bind_eq_some_iff.mp h
    cases h
    apply coded_eq_nil
    intro d hd
    obtain ⟨es, hes, hd⟩ := List.mem_flatten.mp hd
    obtain ⟨n, _, hn⟩ := Lookup.mem_of_mapM hproblems hes
    obtain ⟨scope, _, hn⟩ := Option.bind_eq_some_iff.mp hn
    obtain ⟨settings, hsettings, hn⟩ := Option.bind_eq_some_iff.mp hn
    cases hn
    obtain ⟨fs, hfs, hd⟩ := List.mem_flatten.mp hd
    obtain ⟨x, _, hx⟩ := Lookup.mem_of_mapM hsettings hfs
    exact code_of_mem_assignmentProblems hx d hd

/-- Of a reactor validation repeats each parameter that is not the first of its name. -/
theorem coded_reactorProblems {d : Catalog.Reactor} {qs : List Catalog.Parameter}
    (hqs : p.catalog.visible? d.id = some qs) {block : List Diagnostic}
    (h : p.reactorProblems? d = some block) :
    coded .ambiguousName block = (Catalog.repeatedIn qs).map (ambiguity d) := by
  obtain ⟨repeated, hrepeated, h⟩ := Option.bind_eq_some_iff.mp h
  obtain ⟨own, _, h⟩ := Option.bind_eq_some_iff.mp h
  cases h
  have hpairs : repeated = Catalog.repeatedIn qs := by
    rw [← Catalog.repetitionsFrom_nil]
    simpa [Catalog.repetitions?, hqs, eq_comm] using hrepeated
  have hhollow : coded .ambiguousName
      ((own.filter fun q => q.default.isEmpty).map fun q =>
        (ParameterFault.emptyInitializer q.name .default q.span).toDiagnostic) = [] := by
    apply coded_eq_nil
    intro e he
    obtain ⟨q, _, rfl⟩ := List.mem_map.mp he
    show some Diagnostic.Code.emptyInitializer ≠ some .ambiguousName
    decide
  rw [coded_append, hhollow, List.append_nil, hpairs]
  apply coded_eq_self
  intro e he
  obtain ⟨pair, _, rfl⟩ := List.mem_map.mp he
  rfl

/-! ## Fields -/

/-- A constructor that can be written assigns the field of each visible parameter. -/
theorem filterMap_field_skeleton (hp : p.Closed) {d : Catalog.Reactor}
    (hd : p.catalog.reactor? d.id = some d) {lines : List Line}
    (h : (p.skeleton d.id).run = some (.ok lines)) :
    lines.filterMap Line.field? = (p.visibleOf d.id).map fun q => (q.id, q.name) := by
  obtain rfl := (blockOf_mem_classes hp hd h []).2
  have hfields : ((p.visibleOf d.id).map p.fieldOf).filterMap Line.field? =
      (p.visibleOf d.id).map fun q => (q.id, q.name) := by
    rw [List.filterMap_map]
    exact congrFun (List.filterMap_eq_map (f := fun q : Catalog.Parameter => (q.id, q.name))) _
  have hmerge : (mergeLines p.options.style).filterMap Line.field? = [] := by
    cases p.options.style <;> rfl
  rw [blockOf, List.filterMap_append, List.filterMap_cons_none rfl, hfields, hmerge,
    List.append_nil]

theorem mem_assigns_iff {lines : List Line} {name : String} :
    (∃ l ∈ lines, l.assigns? = some name) ↔ name ∈ (lines.filterMap Line.field?).map (·.2) := by
  have hassigns : ∀ l : Line, l.assigns? = l.field?.map (·.2) := by
    intro l
    cases l <;> rfl
  simp only [hassigns, List.mem_map, List.mem_filterMap, Option.map_eq_some_iff]
  constructor
  · intro ⟨l, hl, field, hfield, hname⟩
    exact ⟨field, ⟨l, hl, hfield⟩, hname⟩
  · intro ⟨field, ⟨l, hl, hfield⟩, hname⟩
    exact ⟨l, hl, field, hfield, hname⟩

/-- A module has the class of the reactor `d`, with the `lines` of its constructor and with the
    properties of the names. -/
structure ClassIn (p : Program) (d : Catalog.Reactor) (lines : List Line) (names : List String)
    (module : Module) (b : ClassBlock) : Prop where
  mem : b ∈ module.classes
  reactor : b.reactor = d.id
  skeleton : b.skeleton = lines
  properties : b.properties = names
  /-- The text of the class stands in that of the module, -/
  part : ∃ before after, module.text p.options = before ++ b.text p.options ++ after
  /-- the properties stand at its end, -/
  last : ∃ constructor, b.text p.options = constructor ++ b.accessors p.options ++ "\n"
  /-- all of them as they are, but for the margin. -/
  accessors : names ≠ [] → b.accessors p.options = "\n" ++ indented (p.options.margin 1)
    (Text.trimEnd (propertiesText p.options names).toList)

/-- What is said of the visible parameters `qs` of the reactor `d`, by the properties of its class,
    which have the names `names`, by its constructor, and by validation. -/
structure Named (p : Program) (d : Catalog.Reactor) (qs : List Catalog.Parameter)
    (names : List String) : Prop where
  visible : p.catalog.visible? d.id = some qs
  /-- The properties have the names of the parameters, without later repetitions. -/
  properties : p.properties? d.id = some names
  distinct : names = (qs.map (·.name)).eraseDups
  /-- They are written in this order, with an empty line between two of them, -/
  text : propertiesText p.options names = "\n".intercalate (names.map (propertyText p.options))
  /-- each of them as a method of the name. -/
  methods : ∀ name ∈ names, IsProperty p.options name (propertyText p.options name)
  /-- If the constructor can be written, every module has the class with these properties. -/
  emitted : ∀ lines, (p.skeleton d.id).run = some (.ok lines) → ∀ header, ∃ module reports b,
    (p.emit header).run = some (module, reports) ∧ p.ClassIn d lines names module b
  /-- The constructor can be written unless a parameter has no value. -/
  written : (∃ lines, (p.skeleton d.id).run = some (.ok lines)) ∨
    ∃ q ∈ qs, q.default = [] ∧
      (p.skeleton d.id).run = some (.error (.emptyInitializer q.name .default q.span))
  /-- It assigns one field for each parameter, in order, and its lines are written in order. -/
  fields : ∀ lines, (p.skeleton d.id).run = some (.ok lines) →
    lines.filterMap Line.field? = qs.map (fun q => (q.id, q.name)) ∧
      skeletonText lines = "\n".intercalate (lines.map Line.text)
  /-- Every property reads a field that the constructor assigns. -/
  read : ∀ lines, (p.skeleton d.id).run = some (.ok lines) →
    ∀ name ∈ names, ∃ l ∈ lines, l.ReadBy p.options name
  /-- Every field that is assigned has one property. -/
  once : ∀ lines, (p.skeleton d.id).run = some (.ok lines) →
    ∀ l ∈ lines, ∀ name, l.assigns? = some name → l.ReadBy p.options name ∧ names.count name = 1
  /-- Each parameter that has an earlier one of its name is paired with the first of these. -/
  repetitions : p.catalog.repetitions? d.id = some (Catalog.repeatedIn qs)
  /-- Of names validation warns at the reactors alone: at `d` for each of these pairs, and as often
      as there are parameters more than properties. -/
  warnings : ∃ blocks rest block, p.catalog.reactors.toList.mapM p.reactorProblems? = some blocks ∧
    p.validate? = some (blocks.flatten ++ rest) ∧ coded .ambiguousName rest = [] ∧
    p.reactorProblems? d = some block ∧
    coded .ambiguousName block = (Catalog.repeatedIn qs).map (ambiguity d) ∧
    (coded .ambiguousName block).length + names.length = qs.length

/-- A class whose constructor can be written is in every module. -/
theorem exists_classIn (hp : p.Closed) {d : Catalog.Reactor}
    (hd : p.catalog.reactor? d.id = some d) {lines : List Line}
    (hlines : (p.skeleton d.id).run = some (.ok lines)) (header : List String) :
    ∃ module reports b, (p.emit header).run = some (module, reports) ∧
      p.ClassIn d lines (p.blockOf d).properties module b := by
  obtain ⟨hmem, hskeleton⟩ := blockOf_mem_classes hp hd hlines header
  refine ⟨_, _, p.blockOf d, emit_run hp header,
    { mem := hmem
      reactor := rfl
      skeleton := hskeleton
      properties := rfl
      part := Module.part_of_mem hmem
      last := ⟨_, ClassBlock.text_eq _ _⟩
      accessors := ?_ }⟩
  intro hne
  have hempty : (propertiesText p.options (p.blockOf d).properties).toList.isEmpty = false := by
    simpa using propertiesText_ne_empty hne
  simp [ClassBlock.accessors, hempty]

/-- Whatever the reactors extend: fields, properties and warnings about the names of a reactor
    agree. -/
theorem fields_named (hmade : p.Made) (hrange : p.InRange) {r : ReactorId} {d : Catalog.Reactor}
    (hd : p.catalog.reactor? r = some d) : d.id = r ∧ ∃ qs names, p.Named d qs names := by
  have hp := hmade.closed hrange
  have hid : d.id = r := hp.catalog.reactor_id hd
  have hd : p.catalog.reactor? d.id = some d := by rw [hid, hd]
  have hqs := hp.visible? (Catalog.hasReactor_of_some hd)
  have hproperties : p.properties? d.id =
      some (firstOccurrences [] ((p.visibleOf d.id).map (·.name))) := by
    simp [properties?, hqs]
  have hassigned : ∀ lines, (p.skeleton d.id).run = some (.ok lines) → ∀ name,
      (∃ l ∈ lines, l.assigns? = some name) ↔
        name ∈ firstOccurrences [] ((p.visibleOf d.id).map (·.name)) := by
    intro lines hlines name
    rw [mem_assigns_iff, filterMap_field_skeleton hp hd hlines, mem_firstOccurrences]
    simp
  refine ⟨hid, p.visibleOf d.id, firstOccurrences [] ((p.visibleOf d.id).map (·.name)),
    { visible := hqs
      properties := hproperties
      distinct := by simp [firstOccurrences_eq]
      text := rfl
      methods := fun name _ => isProperty_propertyText p.options name
      emitted := ?_
      written := ?_
      fields := fun lines hlines => ⟨filterMap_field_skeleton hp hd hlines, rfl⟩
      read := ?_
      once := ?_
      repetitions := by simp [Catalog.repetitions?, hqs, Catalog.repetitionsFrom_nil]
      warnings := ?_ }⟩
  · exact fun lines hlines header => exists_classIn hp hd hlines header
  · cases hhollow : p.hollow? d.id with
    | none => exact .inl ⟨_, skeleton_gives hp hd hhollow⟩
    | some q =>
      refine .inr ⟨q, List.mem_of_find?_eq_some hhollow, ?_, skeleton_fails hp hd hhollow⟩
      simpa using List.find?_some hhollow
  · intro lines hlines name hname
    obtain ⟨l, hl, hassigns⟩ := (hassigned lines hlines name).mpr hname
    exact ⟨l, hl, readBy_of_assigns hassigns p.options⟩
  · intro lines hlines l hl name hassigns
    have hname := (hassigned lines hlines name).mp ⟨l, hl, hassigns⟩
    exact ⟨readBy_of_assigns hassigns p.options,
      List.count_eq_one_of_mem (nodup_firstOccurrences _ _) hname⟩
  · obtain ⟨cs, hcs, _⟩ := exists_catalogProblems hp
    obtain ⟨rest, hrest, _⟩ := exists_assemblyProblems hp
    obtain ⟨block, hblock, _⟩ := exists_reactorProblems hp hd
    obtain ⟨blocks, hblocks, hflat⟩ := Option.bind_eq_some_iff.mp hcs
    cases hflat
    have hcoded := coded_reactorProblems hqs hblock
    refine ⟨blocks, rest, block, hblocks, by simp [validate?, hcs, hrest],
      coded_assemblyProblems hrest, hblock, hcoded, ?_⟩
    have hlength := @Catalog.length_repetitionsFrom [] [] (by simp) (p.visibleOf d.id)
    rw [hcoded, List.length_map, ← Catalog.repetitionsFrom_nil]
    exact hlength

/-- A history of two reactors that extend each other and declare one name three times. -/
def twinsHistory : List Edit :=
  [.declare "A" .nowhere,
   .addParameter ⟨0⟩ "x" none [.constant (.int 1)] .nowhere,
   .declare "B" .nowhere,
   .extend ⟨1⟩ ⟨0⟩,
   .extend ⟨0⟩ ⟨1⟩,
   .addParameter ⟨1⟩ "x" none [.constant (.int 2)] .nowhere,
   .addParameter ⟨1⟩ "y" none [.constant (.int 3)] .nowhere,
   .addParameter ⟨1⟩ "x" none [.constant (.int 4)] .nowhere]

/-- The program that it builds. -/
def twinsProgram : Program := (edits? {} twinsHistory).getD {}

theorem built_twins : Built twinsHistory twinsProgram := built_getD (by decide)

/-- The class of `B` has four fields and two properties, and there are two warnings about it. -/
theorem fields_named_twins :
    twinsProgram.Made ∧ twinsProgram.InRange ∧ ∃ d, twinsProgram.catalog.reactor? ⟨1⟩ = some d ∧
      d.id = ⟨1⟩ ∧ ∃ qs names, twinsProgram.Named d qs names ∧ names = ["x", "y"] ∧
        (Catalog.repeatedIn qs).map (fun pair => (pair.1.id, pair.2.id)) =
          [(⟨0⟩, ⟨1⟩), (⟨0⟩, ⟨3⟩)] := by
  have hmade := built_twins.made
  have hrange := built_twins.closed.inRange
  obtain ⟨d, hd⟩ : ∃ d, twinsProgram.catalog.reactor? ⟨1⟩ = some d := ⟨_, rfl⟩
  obtain ⟨hid, qs, names, h⟩ := fields_named hmade hrange hd
  refine ⟨hmade, hrange, d, hd, hid, qs, names, h, ?_, ?_⟩
  · have hproperties := h.properties
    rw [hid, show twinsProgram.properties? ⟨1⟩ = some ["x", "y"] by decide] at hproperties
    exact (Option.some.inj hproperties).symm
  · have hvisible := h.visible
    rw [hid] at hvisible
    have hpairs : (twinsProgram.catalog.visible? ⟨1⟩).map (fun ws =>
        (Catalog.repeatedIn ws).map fun pair => (pair.1.id, pair.2.id)) =
        some [(⟨0⟩, ⟨1⟩), (⟨0⟩, ⟨3⟩)] := by decide
    rw [hvisible] at hpairs
    exact Option.some.inj hpairs

end Program

end Reactors
