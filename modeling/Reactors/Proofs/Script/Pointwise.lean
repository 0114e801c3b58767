import Reactors.Proofs.Program.Arena
import Reactors.Proofs.Script.Duplicates

/-! # The values of instances, slot by slot

    The values of an instance and of everything inside it are collected in one walk that goes on
    behind every fault.  What is collected is what each slot gives when it is asked on its own: one
    entry, or one report of its fault.  So a fault keeps its own slot out, and no other.
-/

namespace Reactors.Program

open Script

variable {p : Program}

/-! ## Answers -/

/-- The source of a slot: the last assignment of the instance that sets the parameter, or else the
    default of the parameter. -/
inductive Source (p : Program) (s : Slot) : Origin → List Value → Prop
  | setting {x : Assignment} (h : p.assembly.settingOf? s = some (some x)) :
    Source p s .override x.values
  | default {q : Catalog.Parameter} (hnone : p.assembly.settingOf? s = some none)
      (hq : p.catalog.parameter? s.param = some q) : Source p s .default q.default

/-- What is collected for a slot, beside the text that the slot gives on its own. -/
inductive Answer (p : Program) (s : Slot) : Except ParameterFault Entry → Prop
  /-- The slot has a text.  Its entry has this text, the parameter and its name, and says which the
      source is and whether that refers to parameters. -/
  | entry {e : Entry} {q : Catalog.Parameter} {values : List Value}
      (text : (p.initializerText s).run = some (.ok e.text)) (param : e.param = s.param)
      (found : p.catalog.parameter? s.param = some q) (name : e.name = q.name)
      (source : p.Source s e.origin values)
      (reads : e.readsParameters = true ↔ ∃ v ∈ values, v.reference? ≠ none) :
    Answer p s (.ok e)
  /-- The slot has a fault. -/
  | fault {f : ParameterFault} (text : (p.initializerText s).run = some (.error f)) :
    Answer p s (.error f)

/-- The fault of an answer. -/
def faultOf? : Except ParameterFault Entry → Option ParameterFault
  | .ok _ => none
  | .error f => some f

/-- The maps `maps` and the reports `ds` of the instances `nodes` are what their slots give. -/
structure Pointwise (p : Program) (nodes : List Assembly.Node) (slots : List (List Slot))
    (answers : List (List (Except ParameterFault Entry))) (maps : List Overrides)
    (ds : List Diagnostic) : Prop where
  /-- Every instance has one slot for each visible parameter of its reactor, in their order. -/
  asked : nodes.mapM (fun n => p.slots? n.id) = some slots
  /-- Every slot has one answer. -/
  answered : List.Forall₂ (List.Forall₂ p.Answer) slots answers
  /-- Every instance has one map, in the order of the walk. -/
  mapped : maps.map (·.node) = nodes.map (·.id)
  paths : nodes.mapM (fun n => p.assembly.path? n.id) = some (maps.map (·.path))
  /-- The entries of a map are those among the answers of its instance, in order. -/
  entries : maps.map (·.entries) = answers.map (·.filterMap Except.toOption)
  /-- Reported are the faults among the answers, in order. -/
  reports : ds = answers.flatMap fun as => (as.filterMap faultOf?).map (·.toDiagnostic)
  /-- Every slot is counted once. -/
  count : (maps.flatMap (·.entries)).length + ds.length = slots.flatten.length

/-! ## One slot -/

variable (p) in
/-- The answer of the slot of `q` on the instance `n`. -/
def answerAt (n : Assembly.Node) (q : Catalog.Parameter) : Except ParameterFault Entry :=
  match slotFault? n q with
  | some f => .error f
  | none => .ok (p.entryAt n q)

theorem toOption_answerAt (n : Assembly.Node) (q : Catalog.Parameter) :
    (p.answerAt n q).toOption = p.slotEntry? n q := by
  unfold answerAt slotEntry?
  cases slotFault? n q <;> rfl

theorem faultOf?_answerAt (n : Assembly.Node) (q : Catalog.Parameter) :
    faultOf? (p.answerAt n q) = slotFault? n q := by
  unfold answerAt
  cases slotFault? n q <;> rfl

section slot
variable (hp : p.Closed) {n : Assembly.Node} (hn : p.assembly.node? n.id = some n)
  {q : Catalog.Parameter} (hq : p.catalog.parameter? q.id = some q)
include hp hn hq

/-- The text of a slot on its own is that of its entry, unless something is wrong with the slot. -/
theorem initializerText_gives :
    Gives (p.initializerText ⟨q.id, n.id⟩) (match slotFault? n q with
      | some f => .error f
      | none => .ok (p.entryAt n q).text) := by
  have hresolve := resolve_gives hp hn hq
  unfold initializerText
  cases hf : slotFault? n q with
  | some f =>
    rw [hf] at hresolve
    exact hresolve.bind_error
  | none =>
    rw [hf] at hresolve
    apply hresolve.bind
    -- a value with which nothing is wrong has terms, so the fallback is never taken
    rw [tuple?_eq_some (resolutionAt_terms_ne_nil hf)]
    exact .pure _

omit hp in
/-- An entry says what the source of its slot is, and whether that refers to parameters. -/
theorem source_entryAt :
    ∃ values, p.Source ⟨q.id, n.id⟩ (p.entryAt n q).origin values ∧
      ((p.entryAt n q).readsParameters = true ↔ ∃ v ∈ values, v.reference? ≠ none) := by
  have hsetting : p.assembly.settingOf? ⟨q.id, n.id⟩ =
      some (Assembly.lastSetting? q.id n.assignments) := by
    simp [Assembly.settingOf?, hn]
  unfold entryAt resolutionAt Entry.readsParameters
  cases hx : Assembly.lastSetting? q.id n.assignments with
  | some x =>
    rw [hx] at hsetting
    exact ⟨x.values, .setting hsetting, by simp [isRead_outerExpr]⟩
  | none =>
    rw [hx] at hsetting
    exact ⟨q.default, .default hsetting hq, by simp [isRead_ownExpr]⟩

theorem answer_answerAt : p.Answer ⟨q.id, n.id⟩ (p.answerAt n q) := by
  have htext := initializerText_gives hp hn hq
  unfold answerAt
  cases hf : slotFault? n q with
  | some f =>
    rw [hf] at htext
    exact .fault htext
  | none =>
    rw [hf] at htext
    obtain ⟨values, hsource, hreads⟩ := source_entryAt hn hq
    exact .entry htext rfl hq rfl hsource hreads

end slot

/-! ## All slots -/

/-- An answer is an entry or a fault, and never both. -/
theorem length_answers (as : List (Except ParameterFault Entry)) :
    (as.filterMap Except.toOption).length + (as.filterMap faultOf?).length = as.length := by
  induction as with
  | nil => rfl
  | cons a as ih =>
    cases a with
    | ok e =>
      show (e :: as.filterMap Except.toOption).length + (as.filterMap faultOf?).length = _
      simp only [List.length_cons]
      omega
    | error f =>
      show (as.filterMap Except.toOption).length + (f :: as.filterMap faultOf?).length = _
      simp only [List.length_cons]
      omega

/-- The reports of an instance are the faults among its answers. -/
theorem flatMap_slotReports (n : Assembly.Node) (qs : List Catalog.Parameter) :
    qs.flatMap (slotReports n) =
      ((qs.map (p.answerAt n)).filterMap faultOf?).map (·.toDiagnostic) := by
  induction qs with
  | nil => rfl
  | cons q qs ih =>
    rw [List.flatMap_cons, List.map_cons, List.filterMap_cons, faultOf?_answerAt, ih]
    unfold slotReports
    cases slotFault? n q <;> rfl

/-- The entries and the reports of some instances are as many as their answers. -/
theorem count_answers (answers : List (List (Except ParameterFault Entry))) :
    (answers.flatMap (·.filterMap Except.toOption)).length +
        (answers.flatMap fun as => (as.filterMap faultOf?).map (·.toDiagnostic)).length =
      answers.flatten.length := by
  induction answers with
  | nil => rfl
  | cons as answers ih =>
    have hfirst := length_answers as
    simp only [List.flatMap_cons, List.flatten_cons, List.length_append, List.length_map] at ih ⊢
    omega

theorem pointwise_of_found (hp : p.Closed) {nodes : List Assembly.Node}
    (hfound : ∀ n ∈ nodes, p.assembly.node? n.id = some n) :
    p.Pointwise nodes
      (nodes.map fun n => (p.visibleOf n.reactor).map fun q => ⟨q.id, n.id⟩)
      (nodes.map fun n => (p.visibleOf n.reactor).map (p.answerAt n))
      (nodes.map p.overridesOf)
      (nodes.flatMap fun n => (p.visibleOf n.reactor).flatMap (slotReports n)) := by
  have hvisible : ∀ n ∈ nodes, p.catalog.visible? n.reactor = some (p.visibleOf n.reactor) :=
    fun n hn => hp.visible? (hp.reactor (hfound n hn))
  have hentries : (nodes.map p.overridesOf).map (·.entries) =
      (nodes.map fun n => (p.visibleOf n.reactor).map (p.answerAt n)).map
        (·.filterMap Except.toOption) := by
    simp [overridesOf, Function.comp_def, toOption_answerAt]
  have hreports : (nodes.flatMap fun n => (p.visibleOf n.reactor).flatMap (slotReports n)) =
      (nodes.map fun n => (p.visibleOf n.reactor).map (p.answerAt n)).flatMap
        fun as => (as.filterMap faultOf?).map (·.toDiagnostic) := by
    rw [List.flatMap_map]
    exact congrArg nodes.flatMap (funext fun n => flatMap_slotReports n _)
  refine
    { asked := Lookup.mapM_eq_map fun n hn => slots?_of_visible hp (hfound n hn) (hvisible n hn)
      answered := ?_
      mapped := by simp [overridesOf]
      paths := ?_
      entries := hentries
      reports := hreports
      count := ?_ }
  · rw [List.forall₂_map_left_iff, List.forall₂_map_right_iff, List.forall₂_same]
    intro n hn
    rw [List.forall₂_map_left_iff, List.forall₂_map_right_iff, List.forall₂_same]
    intro q hq
    exact answer_answerAt hp (hfound n hn) (hp.catalog.parameter?_of_visible (hvisible n hn) hq)
  · have hpaths : nodes.mapM (fun n => p.assembly.path? n.id) =
        some (nodes.map fun n => p.pathOf n.id) :=
      Lookup.mapM_eq_map fun n hn => hp.path? (Assembly.hasNode_of_some (hfound n hn))
    simpa [overridesOf, Function.comp_def] using hpaths
  · have hcount := count_answers
      (nodes.map fun n => (p.visibleOf n.reactor).map (p.answerAt n))
    rw [← hreports] at hcount
    simpa [overridesOf, Function.comp_def, toOption_answerAt] using hcount

/-! ## Programs -/

/-- The values of an instance and of everything inside it, whatever the options of the program:
    there is one map for each instance of the walk, and what the maps and the reports hold is what
    each slot gives on its own.  (A node that was added as its own parent has no walk that ends.) -/
theorem overrides_pointwise (hmade : p.Made) (hrange : p.InRange)
    (hself : ∀ {i n}, p.assembly.node? i = some n → n.parent ≠ some i) {start : NodeId}
    (hstart : p.assembly.HasNode start) :
    ∃ nodes slots answers maps ds, p.assembly.preorder? start = some nodes ∧
      (p.overridesBelow start).run = some (maps, ds) ∧
      p.Pointwise nodes slots answers maps ds := by
  have hp := hmade.closed hrange
  obtain ⟨nodes, hnodes, hfound⟩ := hmade.exists_preorder hself hstart
  exact ⟨nodes, _, _, _, _, hnodes, overridesBelow_of_preorder hp hnodes hfound,
    pointwise_of_found hp hfound⟩

/-- A history that sets a parameter of the root to another one, with nothing around to read it from,
    and the same parameter of an instance inside; and whose second parameter has no value. -/
def patchyHistory : List Edit :=
  [.declare "A" .nowhere,
   .addParameter ⟨0⟩ "x" none [.constant (.int 1)] .nowhere,
   .addParameter ⟨0⟩ "hollow" none [] .nowhere,
   .addParameter ⟨0⟩ "y" none [.param ⟨0⟩] .nowhere,
   .addRoot "main" ⟨0⟩ .nowhere,
   .assign ⟨0⟩ ⟨⟨0⟩, [.param ⟨2⟩], .nowhere⟩,
   .addChild ⟨0⟩ "a" ⟨0⟩ [⟨⟨0⟩, [.param ⟨2⟩], .nowhere⟩] .nowhere]

/-- The program that it builds. -/
def patchyProgram : Program := (edits? {} patchyHistory).getD {}

theorem built_patchy : Built patchyHistory patchyProgram := built_getD (by decide)

/-- The root has one entry and two reports, the instance inside two entries and one report. -/
theorem overrides_pointwise_patchy :
    patchyProgram.Made ∧ patchyProgram.InRange ∧
      (∀ {i n}, patchyProgram.assembly.node? i = some n → n.parent ≠ some i) ∧
      patchyProgram.assembly.HasNode ⟨0⟩ ∧
      ∃ nodes slots answers maps ds, patchyProgram.assembly.preorder? ⟨0⟩ = some nodes ∧
        (patchyProgram.overridesBelow ⟨0⟩).run = some (maps, ds) ∧
        patchyProgram.Pointwise nodes slots answers maps ds ∧
        maps.map (·.entries.length) = [1, 2] ∧ ds.length = 3 := by
  have hmade := built_patchy.made
  have hclosed := built_patchy.closed
  have hself : ∀ {i n}, patchyProgram.assembly.node? i = some n → n.parent ≠ some i :=
    fun hn hpar => Nat.lt_irrefl _ (built_patchy.ordered.1.older hn hpar)
  have hthere : patchyProgram.assembly.HasNode ⟨0⟩ :=
    show 0 < patchyProgram.assembly.nodes.size by decide
  obtain ⟨nodes, slots, answers, maps, ds, hnodes, hrun, hpoints⟩ :=
    overrides_pointwise hmade hclosed.inRange hself hthere
  refine ⟨hmade, hclosed.inRange, hself, hthere, nodes, slots, answers, maps, ds, hnodes, hrun,
    hpoints, ?_⟩
  obtain ⟨nodes', hnodes', hfound⟩ := hmade.exists_preorder hself hthere
  rw [overridesBelow_of_preorder hclosed hnodes' hfound] at hrun
  -- the walk from the root is the whole arena, so the maps can be evaluated
  have hwalk : patchyProgram.assembly.preorder? ⟨0⟩ =
    some patchyProgram.assembly.nodes.toList := by decide
  rw [hwalk] at hnodes'
  cases hnodes'
  cases hrun
  decide

end Reactors.Program
