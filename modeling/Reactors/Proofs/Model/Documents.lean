import Reactors.Model.Elaborate
import Reactors.Proofs.Json.Documents
import Reactors.Proofs.Json.Records

/-! # The documents of a model

    How a model may be written down: its records as objects with their fields in any order, each
    field that holds its default written or left out, its terms under their tags, and all of it in
    any text that spells this.  Whichever of these documents is read, it is the model that comes
    back, so that the choices made in writing it down do not matter.
-/

namespace Reactors

open Json (Form FieldForm IsRecord Restores Reads pick pick_eq pick_required)

/-! ## Options -/

namespace Options

/-- The fields of options, each with its default. -/
def parts (o : Options) : List FieldForm :=
  [.of "indent" Form.natural o.indent (some 4),
   .of "separator" Form.string o.separator (some ", "),
   .of "override_style" (Form.choice [("targeted", .targeted), ("bulk-merge", .bulkMerge)]) o.style
     (some .targeted),
   .of "pylint_markers" Form.bool o.lintMarkers (some true),
   .of "provenance_header" Form.bool o.provenanceHeader (some true)]

/-- What stands for options. -/
def form : Form Options := fun o => IsRecord o.parts

/-- Whether the indentation fits into 64 bits. -/
def InRange (o : Options) : Prop := o.indent < 2 ^ 64

/-- The options as far as they are given. -/
def progress (o : Options) (given : List String) : Options :=
  { indent := pick given "indent" o.indent 4
    separator := pick given "separator" o.separator ", "
    style := pick given "override_style" o.style .targeted
    lintMarkers := pick given "pylint_markers" o.lintMarkers true
    provenanceHeader := pick given "provenance_header" o.provenanceHeader true }

theorem restores {o : Options} (h : o.InRange) (room : Nat) : Restores room decoder o o.form := by
  have hstyle : ∃ tag, (tag, o.style) ∈
      [("targeted", Style.targeted), ("bulk-merge", .bulkMerge)] := by
    cases o.style <;> simp
  refine Restores.mono (Restores.record o.progress ?_ ?_ rfl ?_) (Nat.le_succ room)
  · exact .cons (Reads.make (.natural _ h) rfl (by simp [progress]))
      (.cons (Reads.make (.string _) rfl (by simp [progress]))
      (.cons (Reads.make (.choice (by decide) hstyle) rfl (by simp [progress]))
      (.cons (Reads.make (.bool _) rfl (by simp [progress]))
      (.cons (Reads.make (.bool _) rfl (by simp [progress])) .nil))))
  · simp [parts, FieldForm.of]
  · intro given hgiven
    simp only [parts, FieldForm.of, List.forall_mem_cons, Option.some.injEq] at hgiven
    obtain ⟨hindent, hseparator, hstyle, hmarkers, hheader, _⟩ := hgiven
    simp only [progress, pick_eq hindent, pick_eq hseparator, pick_eq hstyle, pick_eq hmarkers,
      pick_eq hheader]

end Options

namespace Model

/-! ## Spans and time values -/

/-- What stands for a span: an array of its two offsets. -/
def spanForm : Form Span := fun s r =>
  r = .array (.ofList [.number (.int s.start), .number (.int s.stop)])

/-- Whether the offsets of a span fit into 64 bits. -/
def SpanInRange (s : Span) : Prop := s.start < 2 ^ 64 ∧ s.stop < 2 ^ 64

theorem span_restores {s : Span} (h : SpanInRange s) (room : Nat) :
    Restores room span s (spanForm s) where
  written := by
    have hstart := Json.spellable_int (n := s.start) (by omega) (by have := h.1; omega)
    have hstop := Json.spellable_int (n := s.stop) (by omega) (by have := h.2; omega)
    exact ⟨_, rfl, Json.spellable_array (by simpa using ⟨hstart, hstop⟩)⟩
  decode := by
    rintro r rfl _
    have hstart := (Restores.natural "usize" h.1).decode _ rfl le_rfl
    have hstop := (Restores.natural "usize" h.2).decode _ rfl le_rfl
    simp only [span, Json.Decoder.pair, Json.Items.ofList, hstart, hstop]
    rfl

/-- An optional string: no string is `null`. -/
theorem optional_restores (o : Option String) (room : Nat) :
    Restores room (Json.Decoder.option Json.Decoder.string) o (Form.option Form.string o) :=
  .option o (fun _ h => by cases h) fun s _ => .string s

namespace Duration

/-- The fields of a time value. -/
def parts (d : Duration) : List FieldForm :=
  [.of "value" Form.natural d.value none,
   .of "unit" (Form.option Form.string) d.unit (some none)]

/-- What stands for a time value. -/
def form : Form Duration := fun d => IsRecord d.parts

/-- Whether the magnitude fits into 64 bits. -/
def InRange (d : Duration) : Prop := d.value < 2 ^ 64

/-- The time value as far as it is given. -/
def progress (d : Duration) (given : List String) : Duration :=
  { value := pick given "value" d.value 0
    unit := pick given "unit" d.unit none }

theorem restores {d : Duration} (h : d.InRange) (room : Nat) :
    Restores room duration d d.form := by
  refine Restores.mono (Restores.record d.progress ?_ ?_ rfl ?_) (Nat.le_succ room)
  · exact .cons (Reads.make (.natural _ h) rfl (by simp [progress]))
      (.cons (Reads.make (optional_restores _ _) rfl (by simp [progress])) .nil)
  · simp [parts, FieldForm.of]
  · intro given hgiven
    simp only [parts, FieldForm.of, List.forall_mem_cons, Option.some.injEq] at hgiven
    obtain ⟨hvalue, hunit, _⟩ := hgiven
    simp only [progress, pick_required hvalue, pick_eq hunit]

end Duration

/-! ## Terms -/

namespace Reference

/-- The fields of a qualified reference. -/
def parts (name reactor : String) : List FieldForm :=
  [.of "name" Form.string name none, .of "of" Form.string reactor none]

/-- What stands for a reference. -/
def form : Form Reference
  | .plain name => Form.string name
  | .qualified name reactor => IsRecord (parts name reactor)

theorem restores (ref : Reference) (room : Nat) : Restores room reference ref ref.form := by
  cases ref with
  | plain name => exact ⟨⟨_, rfl, Json.spellable_string name⟩, by rintro r rfl _; rfl⟩
  | qualified name reactor =>
    have hnames : ((parts name reactor).map FieldForm.name).Nodup := by simp [parts, FieldForm.of]
    refine ⟨Json.exists_isRecord hnames ?_, ?_⟩
    · intro p hp
      rcases List.mem_pair.mp hp with rfl | rfl
      · exact ⟨_, rfl, Json.spellable_string name⟩
      · exact ⟨_, rfl, Json.spellable_string reactor⟩
    · rintro r ⟨entries, rfl, hnodup, hheld, homitted⟩ _
      obtain ⟨_, (hname : ("name", _) ∈ entries), rfl⟩ := Json.exists_entry hnames hheld homitted
        (p := .of "name" Form.string name none) (by simp [parts]) nofun
      obtain ⟨_, (hof : ("of", _) ∈ entries), rfl⟩ := Json.exists_entry hnames hheld homitted
        (p := .of "of" Form.string reactor none) (by simp [parts]) nofun
      -- all members are strings, so that nothing in the object is broken
      have hintact : (Json.Reading.object (.ofList entries)).isIntact = true := by
        refine Json.Members.isIntact_ofList.mpr fun e he => ?_
        obtain ⟨p, hp, _, hholds⟩ := hheld e he
        rcases List.mem_pair.mp hp with rfl | rfl <;> rw [hholds] <;> rfl
      rw [reference, if_pos hintact]
      simp only [qualified?, Json.Members.valuesOf_ofList hnodup hname,
        Json.Members.valuesOf_ofList hnodup hof]

end Reference

namespace Term

/-- What stands for a term: an object whose only key tells the kind of the term. -/
def form : Form Term
  | .int n => Form.tagged "int" Form.integer n
  | .float v => Form.tagged "float" Form.float v
  | .bool b => Form.tagged "bool" Form.bool b
  | .string s => Form.tagged "string" Form.string s
  | .code text => Form.tagged "code" Form.string text
  | .time d => Form.tagged "time" Duration.form d
  | .param ref => Form.tagged "param" Reference.form ref

/-- Whether the numbers of a term fit into 64 bits and are finite. -/
def InRange : Term → Prop
  | .int n => -2 ^ 63 ≤ n ∧ n < 2 ^ 63
  | .float v => v.isFinite = true
  | .time d => d.InRange
  | _ => True

theorem restores {t : Term} (h : t.InRange) (room : Nat) : Restores room term t t.form := by
  cases t with
  | int n => exact .tagged (f := Term.int) rfl (.integer h.1 h.2)
  | float v => exact .tagged (f := Term.float) rfl (.float h)
  | bool b => exact .tagged (f := Term.bool) rfl (.bool b)
  | string s => exact .tagged (f := Term.string) rfl (.string s)
  | code text => exact .tagged (f := Term.code) rfl (.string text)
  | time d => exact .tagged (f := Term.time) rfl (Duration.restores h room)
  | param ref => exact .tagged (f := Term.param) rfl (ref.restores room)

end Term

/-! ## Reactors -/

namespace Parameter

/-- The fields of a parameter. -/
def parts (p : Parameter) : List FieldForm :=
  [.of "name" Form.string p.name none,
   .of "type" (Form.option Form.string) p.typeText (some none),
   .of "default" (Form.list Term.form) p.default none,
   .of "span" spanForm p.span (some ⟨0, 0⟩)]

/-- What stands for a parameter. -/
def form : Form Parameter := fun p => IsRecord p.parts

/-- Whether all numbers of a parameter are in range. -/
structure InRange (p : Parameter) : Prop where
  default : ∀ t ∈ p.default, t.InRange
  span : SpanInRange p.span

/-- The parameter as far as it is given. -/
def progress (p : Parameter) (given : List String) : Parameter :=
  { name := pick given "name" p.name ""
    typeText := pick given "type" p.typeText none
    default := pick given "default" p.default []
    span := pick given "span" p.span ⟨0, 0⟩ }

theorem restores {p : Parameter} (h : p.InRange) (room : Nat) :
    Restores room parameter p p.form := by
  have hterms : Restores room (Json.Decoder.list term) p.default _ :=
    .list fun t ht => Term.restores (h.default t ht) room
  refine Restores.mono (Restores.record p.progress ?_ ?_ rfl ?_) (Nat.le_succ room)
  · exact .cons (Reads.make (.string _) rfl (by simp [progress]))
      (.cons (Reads.make (optional_restores _ _) rfl (by simp [progress]))
      (.cons (Reads.make hterms rfl (by simp [progress]))
      (.cons (Reads.make (span_restores h.span _) rfl (by simp [progress])) .nil)))
  · simp [parts, FieldForm.of]
  · intro given hgiven
    simp only [parts, FieldForm.of, List.forall_mem_cons, Option.some.injEq] at hgiven
    obtain ⟨hname, htype, hdefault, hspan, _⟩ := hgiven
    simp only [progress, pick_required hname, pick_eq htype, pick_required hdefault,
      pick_eq hspan]

end Parameter

namespace Reactor

/-- The fields of a reactor. -/
def parts (r : Reactor) : List FieldForm :=
  [.of "name" Form.string r.name none,
   .of "extends" (Form.list Form.string) r.supers (some []),
   .of "parameters" (Form.list Parameter.form) r.parameters (some []),
   .of "span" spanForm r.span (some ⟨0, 0⟩)]

/-- What stands for a reactor. -/
def form : Form Reactor := fun r => IsRecord r.parts

/-- Whether all numbers of a reactor are in range. -/
structure InRange (r : Reactor) : Prop where
  parameters : ∀ p ∈ r.parameters, p.InRange
  span : SpanInRange r.span

/-- The reactor as far as it is given. -/
def progress (r : Reactor) (given : List String) : Reactor :=
  { name := pick given "name" r.name ""
    supers := pick given "extends" r.supers []
    parameters := pick given "parameters" r.parameters []
    span := pick given "span" r.span ⟨0, 0⟩ }

theorem restores {r : Reactor} (h : r.InRange) (room : Nat) : Restores room reactor r r.form := by
  have hsupers : Restores room (Json.Decoder.list Json.Decoder.string) r.supers _ :=
    .list fun s _ => .string s
  have hlist : Restores room (Json.Decoder.list parameter) r.parameters _ :=
    .list fun p hp => Parameter.restores (h.parameters p hp) room
  refine Restores.mono (Restores.record r.progress ?_ ?_ rfl ?_) (Nat.le_succ room)
  · exact .cons (Reads.make (.string _) rfl (by simp [progress]))
      (.cons (Reads.make hsupers rfl (by simp [progress]))
      (.cons (Reads.make hlist rfl (by simp [progress]))
      (.cons (Reads.make (span_restores h.span _) rfl (by simp [progress])) .nil)))
  · simp [parts, FieldForm.of]
  · intro given hgiven
    simp only [parts, FieldForm.of, List.forall_mem_cons, Option.some.injEq] at hgiven
    obtain ⟨hname, hextends, hparameters, hspan, _⟩ := hgiven
    simp only [progress, pick_required hname, pick_eq hextends, pick_eq hparameters,
      pick_eq hspan]

end Reactor

/-! ## Instances -/

namespace Assignment

/-- The fields of an assignment. -/
def parts (a : Assignment) : List FieldForm :=
  [.of "lhs" Form.string a.target none,
   .of "rhs" (Form.list Term.form) a.terms none,
   .of "span" spanForm a.span (some ⟨0, 0⟩)]

/-- What stands for an assignment. -/
def form : Form Assignment := fun a => IsRecord a.parts

/-- Whether all numbers of an assignment are in range. -/
structure InRange (a : Assignment) : Prop where
  terms : ∀ t ∈ a.terms, t.InRange
  span : SpanInRange a.span

/-- The assignment as far as it is given. -/
def progress (a : Assignment) (given : List String) : Assignment :=
  { target := pick given "lhs" a.target ""
    terms := pick given "rhs" a.terms []
    span := pick given "span" a.span ⟨0, 0⟩ }

theorem restores {a : Assignment} (h : a.InRange) (room : Nat) :
    Restores room assignment a a.form := by
  have hlist : Restores room (Json.Decoder.list term) a.terms _ :=
    .list fun t ht => Term.restores (h.terms t ht) room
  refine Restores.mono (Restores.record a.progress ?_ ?_ rfl ?_) (Nat.le_succ room)
  · exact .cons (Reads.make (.string _) rfl (by simp [progress]))
      (.cons (Reads.make hlist rfl (by simp [progress]))
      (.cons (Reads.make (span_restores h.span _) rfl (by simp [progress])) .nil))
  · simp [parts, FieldForm.of]
  · intro given hgiven
    simp only [parts, FieldForm.of, List.forall_mem_cons, Option.some.injEq] at hgiven
    obtain ⟨htarget, hterms, hspan, _⟩ := hgiven
    simp only [progress, pick_required htarget, pick_required hterms, pick_eq hspan]

end Assignment

namespace Instance

/-- The fields of an instance, given the one with the instances inside it. -/
def partsWith (children : FieldForm) (i : Instance) : List FieldForm :=
  [.of "name" Form.string i.name none,
   .of "reactor" Form.string i.reactor none,
   .of "assignments" (Form.list Assignment.form) i.assignments (some []),
   children,
   .of "span" spanForm i.span (some ⟨0, 0⟩)]

mutual

/-- What stands for an instance. -/
def form : Instance → Json.Reading → Prop
  | ⟨name, reactor, assignments, children, span⟩ => IsRecord <|
      partsWith
        { name := "children"
          omissible := some [] = some children
          holds := fun r => ∃ rs, r = .array (.ofList rs) ∧ forms children rs }
        ⟨name, reactor, assignments, children, span⟩

/-- What stands for each of several instances. -/
def forms : List Instance → List Json.Reading → Prop
  | [], rs => rs = []
  | i :: is, rs => ∃ r rest, rs = r :: rest ∧ i.form r ∧ forms is rest

end

/-- The fields of an instance. -/
def parts (i : Instance) : List FieldForm :=
  partsWith (.of "children" (Form.list form) i.children (some [])) i

theorem forms_iff {is : List Instance} {rs : List Json.Reading} :
    forms is rs ↔ List.Forall₂ form is rs := by
  induction is generalizing rs with
  | nil => simp [forms]
  | cons i is ih =>
    simp only [forms, List.forall₂_cons_left_iff, ih]
    constructor
    · rintro ⟨r, rest, rfl, hr, hrest⟩
      exact ⟨r, rest, hr, hrest, rfl⟩
    · rintro ⟨r, rest, hr, hrest, rfl⟩
      exact ⟨r, rest, rfl, hr, hrest⟩

/-- The instances inside an instance are a list like any other. -/
theorem form_eq (i : Instance) : i.form = IsRecord i.parts := by
  obtain ⟨name, reactor, assignments, children, span⟩ := i
  simp only [form, parts, forms_iff]
  rfl

/-- Whether all numbers of an instance and of those inside it are in range. -/
inductive InRange : Instance → Prop
  | intro {i : Instance} (assignments : ∀ a ∈ i.assignments, a.InRange)
      (span : SpanInRange i.span) (children : ∀ j ∈ i.children, InRange j) : InRange i

/-- The instance as far as it is given. -/
def progress (i : Instance) (given : List String) : Instance :=
  { name := pick given "name" i.name ""
    reactor := pick given "reactor" i.reactor ""
    assignments := pick given "assignments" i.assignments []
    children := pick given "children" i.children []
    span := pick given "span" i.span ⟨0, 0⟩ }

/-- An instance has brackets around it for each one that it is inside of. -/
theorem restores {i : Instance} (h : i.InRange) (depth : Nat) :
    Restores depth (instanceWithin depth) i i.form := by
  induction h generalizing depth with
  | @intro i hassignments hspan _ ih =>
    rw [form_eq]
    have hrecord : ∀ depth, Restores (depth + 1) (instanceWithin (depth + 1)) i
        (IsRecord i.parts) := by
      intro depth
      have hlist : Restores depth (Json.Decoder.list assignment) i.assignments _ :=
        .list fun a ha => Assignment.restores (hassignments a ha) depth
      have hchildren : Restores depth (Json.Decoder.list (instanceWithin depth)) i.children _ :=
        .list fun j hj => ih j hj depth
      refine Restores.record i.progress ?_ ?_ rfl ?_
      · exact .cons (Reads.make (.string _) rfl (by simp [progress]))
          (.cons (Reads.make (.string _) rfl (by simp [progress]))
          (.cons (Reads.make hlist rfl (by simp [progress]))
          (.cons (Reads.make hchildren rfl (by simp [progress]))
          (.cons (Reads.make (span_restores hspan _) rfl (by simp [progress])) .nil))))
      · simp [parts, partsWith, FieldForm.of]
      · intro given hgiven
        simp only [parts, partsWith, FieldForm.of, List.forall_mem_cons, Option.some.injEq]
          at hgiven
        obtain ⟨hname, hreactor, hassignments, hchildren, hspan, _⟩ := hgiven
        simp only [progress, pick_required hname, pick_required hreactor,
          pick_eq hassignments, pick_eq hchildren, pick_eq hspan]
        cases i
        rfl
    cases depth with
    | zero =>
      -- there is no room for the brackets of an object
      refine ⟨(hrecord 0).written, fun r hr hdepth => ?_⟩
      obtain ⟨entries, rfl, _⟩ := hr
      exact absurd hdepth (Nat.not_succ_le_zero _)
    | succ depth => exact hrecord depth

end Instance

end Model

/-! ## Models -/

namespace Model

/-- The fields of a model. -/
def parts (m : Model) : List FieldForm :=
  [.of "options" Options.form m.options (some ⟨4, ", ", .targeted, true, true⟩),
   .of "reactors" (Form.list Reactor.form) m.reactors none,
   .of "main" Instance.form m.main none]

/-- What stands for a model. -/
def form : Form Model := fun m => IsRecord m.parts

/-- Whether all integers of a model fit into 64 bits and all its floating-point numbers are
    finite. -/
structure InRange (m : Model) : Prop where
  options : m.options.InRange
  reactors : ∀ r ∈ m.reactors, r.InRange
  main : m.main.InRange

/-- The model as far as it is given. -/
def progress (m : Model) (given : List String) : Model :=
  { options := pick given "options" m.options ⟨4, ", ", .targeted, true, true⟩
    reactors := pick given "reactors" m.reactors []
    main := pick given "main" m.main ⟨"", "", [], [], ⟨0, 0⟩⟩ }

theorem restores {m : Model} (h : m.InRange) : Restores Json.maxDepth decoder m m.form := by
  have hreactors : Restores 126 (Json.Decoder.list reactor) m.reactors _ :=
    .list fun r hr => Reactor.restores (h.reactors r hr) _
  have hmain : Restores 126 (instanceWithin (Json.maxDepth + 1)) m.main _ :=
    (Instance.restores h.main (Json.maxDepth + 1)).mono (by decide)
  -- the brackets of the model itself take one off the room
  show Restores (126 + 1) decoder m m.form
  refine Restores.record m.progress ?_ ?_ rfl ?_
  · exact .cons (Reads.make (Options.restores h.options _) rfl (by simp [progress]))
      (.cons (Reads.make hreactors rfl (by simp [progress]))
      (.cons (Reads.make hmain rfl (by simp [progress])) .nil))
  · simp [parts, FieldForm.of]
  · intro given hgiven
    simp only [parts, FieldForm.of, List.forall_mem_cons, Option.some.injEq] at hgiven
    obtain ⟨hoptions, hreactors, hmain, _⟩ := hgiven
    simp only [progress, pick_eq hoptions, pick_required hreactors, pick_required hmain]

/-- Every model has documents, and whichever of them is read, if it is not too deep, it is the model
    that comes back and the program that the model describes. -/
theorem document_lossless {m : Model} (h : m.InRange) :
    (∃ r text, m.form r ∧ Json.Document r text) ∧
      ∀ r text, m.form r → Json.Document r text → r.depth ≤ Json.maxDepth →
        read text = .ok m ∧ Program.load text = m.elaborate := by
  have hrestores := restores h
  constructor
  · obtain ⟨r, hr, hspell⟩ := hrestores.written
    obtain ⟨text, htext⟩ := hspell.exists_document
    exact ⟨r, text, hr, htext⟩
  · intro r text hr htext hdepth
    have hread : read text = .ok m :=
      Json.decode_document htext hdepth (hrestores.decode r hr hdepth)
    refine ⟨hread, ?_⟩
    rw [Program.load, hread]

/-- A parameter whose default is a negative number. -/
def reorderedParameter : Parameter := ⟨"p", none, [.int (-5)], ⟨3, 9⟩⟩

/-- A reactor with this parameter. -/
def reorderedReactor : Reactor := ⟨"R", [], [reorderedParameter], .nowhere⟩

/-- A model with this reactor. -/
def reordered : Model := ⟨.standard, [reorderedReactor], ⟨"m", "R", [], [], .nowhere⟩⟩

/-- The members of the parameter, the last one first, without those that hold their defaults. -/
def parameterEntries : List (String × Json.Reading) :=
  [("span", .array (.ofList [.number (.int 3), .number (.int 9)])),
   ("default", .array (.ofList [.object (.ofList [("int", .number (.int (-5)))])])),
   ("name", .string "p")]

/-- The members of the reactor, likewise. -/
def reactorEntries : List (String × Json.Reading) :=
  [("parameters", .array (.ofList [.object (.ofList parameterEntries)])), ("name", .string "R")]

/-- The members of the instance, likewise. -/
def mainEntries : List (String × Json.Reading) := [("reactor", .string "R"), ("name", .string "m")]

/-- The members of the model, likewise. -/
def modelEntries : List (String × Json.Reading) :=
  [("main", .object (.ofList mainEntries)),
   ("reactors", .array (.ofList [.object (.ofList reactorEntries)]))]

/-- The text of the model without blanks. -/
def reorderedText : String :=
  "\x7b\"main\":\x7b\"reactor\":\"R\",\"name\":\"m\"\x7d,\"reactors\":[\x7b" ++
    "\"parameters\":[\x7b\"span\":[3,9],\"default\":[\x7b\"int\":-5\x7d],\"name\":\"p\"\x7d]," ++
    "\"name\":\"R\"\x7d]\x7d"

theorem document_reordered : Json.Document (.object (.ofList modelEntries)) reorderedText := by
  have name : ∀ s : String, (∀ c ∈ s.toList, c ≠ '"' ∧ c ≠ '\\' ∧ 0x20 ≤ c.toNat) →
      Json.StringText s ('"' :: (s.toList ++ ['"'])) := fun _ => Json.stringText_plain
  have members : Json.SpellsMembers false (.ofList []) ['\x7d'] :=
    @Json.SpellsMembers.closed false [] Json.blank_nil
  have items : Json.SpellsItems false (.ofList []) [']'] :=
    @Json.SpellsItems.closed false [] Json.blank_nil
  have main := Json.SpellsMembers.compact true (name "reactor" (by simp))
    (.string (name "R" (by simp)))
    (.compact false (name "name" (by simp)) (.string (name "m" (by simp))) members)
  have span := Json.SpellsItems.compact true (Json.spells_int (n := 3) (by decide) (by decide))
    (.compact false (Json.spells_int (n := 9) (by decide) (by decide)) items)
  have term := Json.SpellsMembers.compact true (name "int" (by simp))
    (Json.spells_int (n := -5) (by decide) (by decide)) members
  have parameter := Json.SpellsMembers.compact true (name "span" (by simp)) (.array span)
    (.compact false (name "default" (by simp)) (.array (.compact true (.object term) items))
    (.compact false (name "name" (by simp)) (.string (name "p" (by simp))) members))
  have reactor := Json.SpellsMembers.compact true (name "parameters" (by simp))
    (.array (.compact true (.object parameter) items))
    (.compact false (name "name" (by simp)) (.string (name "R" (by simp))) members)
  have model := Json.SpellsMembers.compact true (name "main" (by simp)) (.object main)
    (.compact false (name "reactors" (by simp))
      (.array (.compact true (.object reactor) items)) members)
  exact ⟨[], _, [], Json.blank_nil, .object model, Json.blank_nil, by decide +kernel⟩

theorem form_reordered : reordered.form (.object (.ofList modelEntries)) := by
  have parameter : reorderedParameter.form (.object (.ofList parameterEntries)) := by
    apply Json.isRecord_ofList [.of "span" spanForm ⟨3, 9⟩ (some ⟨0, 0⟩),
      .of "default" (Form.list Term.form) [.int (-5)] none, .of "name" Form.string "p" none]
    · exact .cons ⟨rfl, rfl⟩ (.cons ⟨rfl, _, rfl, .cons ⟨_, rfl, rfl⟩ .nil⟩
        (.cons ⟨rfl, rfl⟩ .nil))
    · simp [reorderedParameter, Parameter.parts]
    · decide
    · simp [reorderedParameter, parameterEntries, Parameter.parts, FieldForm.of, Json.keys]
  have reactor : reorderedReactor.form (.object (.ofList reactorEntries)) := by
    apply Json.isRecord_ofList [.of "parameters" (Form.list Parameter.form) _ (some []),
      .of "name" Form.string _ none]
    · exact .cons ⟨rfl, _, rfl, .cons parameter .nil⟩ (.cons ⟨rfl, rfl⟩ .nil)
    · simp [reorderedReactor, Reactor.parts]
    · decide
    · simp [reorderedReactor, reactorEntries, Reactor.parts, FieldForm.of, Json.keys, Span.nowhere]
  have main : reordered.main.form (.object (.ofList mainEntries)) := by
    rw [Instance.form_eq]
    apply Json.isRecord_ofList [.of "reactor" Form.string _ none,
      .of "name" Form.string _ none]
    · exact .cons ⟨rfl, rfl⟩ (.cons ⟨rfl, rfl⟩ .nil)
    · simp [reordered, Instance.parts, Instance.partsWith]
    · decide
    · simp [reordered, mainEntries, Instance.parts, Instance.partsWith, FieldForm.of, Json.keys,
        Span.nowhere]
  apply Json.isRecord_ofList [.of "main" Instance.form reordered.main none,
    .of "reactors" (Form.list Reactor.form) _ none]
  · exact .cons ⟨rfl, main⟩ (.cons ⟨rfl, _, rfl, .cons reactor .nil⟩ .nil)
  · simp [reordered, parts]
  · decide
  · simp [reordered, modelEntries, parts, FieldForm.of, Json.keys, Options.standard]

/-- A document with the fields of the model back to front. -/
theorem lossless_reordered :
    reordered.InRange ∧ reordered.form (.object (.ofList modelEntries)) ∧
      Json.Document (.object (.ofList modelEntries)) reorderedText ∧
      read reorderedText = .ok reordered := by
  have hspan : SpanInRange ⟨3, 9⟩ := ⟨by norm_num, by norm_num⟩
  have hnowhere : SpanInRange .nowhere := ⟨by decide, by decide⟩
  have hparameter : reorderedParameter.InRange :=
    ⟨by simp [reorderedParameter, Term.InRange], hspan⟩
  have hreactor : reorderedReactor.InRange :=
    ⟨by simpa [reorderedReactor] using hparameter, hnowhere⟩
  have hrange : reordered.InRange :=
    { options := by simp [reordered, Options.InRange, Options.standard]
      reactors := by simpa [reordered] using hreactor
      main := .intro (by simp [reordered]) hnowhere (by simp [reordered]) }
  exact ⟨hrange, form_reordered, document_reordered,
    ((document_lossless hrange).2 _ _ form_reordered document_reordered (by decide)).1⟩

end Model

end Reactors
