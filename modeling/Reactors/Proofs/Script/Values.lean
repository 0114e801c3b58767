import Reactors.Proofs.Collect
import Reactors.Proofs.Program.Closed
import Reactors.Proofs.Script.Resolving
import Reactors.Script.Overrides

/-! # The values of instances

    In a closed program every look-up ends, so what resolution gives can be said without look-ups:
    the expressions of a list of values, the resolution of a slot and its entry, each as a function
    of the instance and the parameter.
-/

namespace Reactors.Program

open Script

variable (p : Program)

/-! ## Expressions -/

/-- The variable of an instance that is there. -/
def pathOf (i : NodeId) : String := (p.assembly.path? i).getD ""

/-- The name of a parameter that is there. -/
def nameOf (q : ParamId) : String := ((p.catalog.parameter? q).map (·.name)).getD ""

/-- The expression of a value of a default in a class. -/
def classExpr : Value → Expr
  | .constant k => .constant (literal k)
  | .param q => .field (p.nameOf q)

/-- The expression of a value of a default on an instance. -/
def ownExpr (i : NodeId) : Value → Expr
  | .constant k => .constant (literal k)
  | .param q => .own ⟨i, p.pathOf i, p.nameOf q⟩

/-- The expression of a value of an assignment, which reads the instance `outer`. -/
def outerExpr (outer : NodeId) : Value → Expr
  | .constant k => .constant (literal k)
  | .param q => .forwarded ⟨outer, p.pathOf outer, p.nameOf q⟩

/-- The text of a list of terms, where there are some. -/
def tupleText (terms : List Expr) : String :=
  (tuple? p.options.separator (terms.map Expr.text)).getD ""

variable {p}

theorem tuple?_eq_some {terms : List Expr} (h : terms ≠ []) :
    tuple? p.options.separator (terms.map Expr.text) = some (p.tupleText terms) := by
  unfold tupleText
  match terms, h with
  | [t], _ => rfl
  | t :: u :: ts, _ => rfl

/-- References are read, wherever they are read from. -/
theorem isRead_ownExpr {i : NodeId} {v : Value} :
    (p.ownExpr i v).isRead = true ↔ v.reference? ≠ none := by
  cases v <;> simp [ownExpr, Expr.isRead, Value.reference?]

theorem isRead_outerExpr {i : NodeId} {v : Value} :
    (p.outerExpr i v).isRead = true ↔ v.reference? ≠ none := by
  cases v <;> simp [outerExpr, Expr.isRead, Value.reference?]

section expressions
variable (hp : p.Closed)
include hp

theorem Closed.path? {i : NodeId} (hi : p.assembly.HasNode i) :
    p.assembly.path? i = some (p.pathOf i) := by
  obtain ⟨names, hnames⟩ := Assembly.exists_names hp.assembly hi
  simp [pathOf, Assembly.path?, hnames]

omit hp in
theorem nameOf_eq {q : ParamId} {x : Catalog.Parameter} (h : p.catalog.parameter? q = some x) :
    p.nameOf q = x.name := by
  simp [nameOf, h]

omit hp in
theorem express?_inClass {v : Value} (hv : p.catalog.Knows v) :
    express? p .inClass v = some (p.classExpr v) := by
  cases v with
  | constant k => rfl
  | param q =>
    obtain ⟨x, hx⟩ := Catalog.hasParameter_iff.mp (hv q rfl)
    simp [express?, classExpr, hx, nameOf_eq hx]

theorem express?_atInstance {i : NodeId} (hi : p.assembly.HasNode i) {v : Value}
    (hv : p.catalog.Knows v) : express? p (.atInstance i) v = some (p.ownExpr i v) := by
  cases v with
  | constant k => rfl
  | param q =>
    obtain ⟨x, hx⟩ := Catalog.hasParameter_iff.mp (hv q rfl)
    simp [express?, ownExpr, hx, nameOf_eq hx, hp.path? hi]

end expressions

/-! ## Slots -/

/-- What is wrong with an assignment that sets `q` on the instance `n`: it has no values, or it
    refers to parameters and there is no instance around to read them from. -/
def settingFault? (n : Assembly.Node) (q : Catalog.Parameter) (x : Assignment) :
    Option ParameterFault :=
  if x.values = [] then some (.emptyInitializer q.name .override x.span)
  else if n.parent = none ∧ ∃ v ∈ x.values, v.reference? ≠ none then
    some (.unboundScope q.name n.name x.span)
  else none

/-- What is wrong with the slot of `q` on the instance `n`. -/
def slotFault? (n : Assembly.Node) (q : Catalog.Parameter) : Option ParameterFault :=
  match Assembly.lastSetting? q.id n.assignments with
  | some x => settingFault? n q x
  | none => if q.default = [] then some (.emptyInitializer q.name .default q.span) else none

variable (p)

/-- What the slot of `q` on the instance `n` is resolved to if nothing is wrong with it. -/
def resolutionAt (n : Assembly.Node) (q : Catalog.Parameter) : Resolution :=
  match Assembly.lastSetting? q.id n.assignments with
  | some x => ⟨x.values.map (p.outerExpr (n.parent.getD n.id)), .override⟩
  | none => ⟨q.default.map (p.ownExpr n.id), .default⟩

variable {p}

theorem settingFault?_eq_none_iff {n : Assembly.Node} {q : Catalog.Parameter} {x : Assignment} :
    settingFault? n q x = none ↔
      x.values ≠ [] ∧ (n.parent = none → ∀ v ∈ x.values, v.reference? = none) := by
  unfold settingFault?
  by_cases hnil : x.values = []
  · simp [hnil]
  · rw [if_neg hnil]
    by_cases hpar : n.parent = none
    · simp [hnil, hpar]
    · simp [hnil, hpar]

/-- A slot with which nothing is wrong has terms. -/
theorem resolutionAt_terms_ne_nil {n : Assembly.Node} {q : Catalog.Parameter}
    (h : slotFault? n q = none) : (p.resolutionAt n q).terms ≠ [] := by
  unfold slotFault? at h
  unfold resolutionAt
  cases hx : Assembly.lastSetting? q.id n.assignments with
  | some x =>
    rw [hx] at h
    simpa using (settingFault?_eq_none_iff.mp h).1
  | none =>
    rw [hx] at h
    by_cases hnil : q.default = []
    · simp [hnil] at h
    · simpa using hnil

section slots
variable (hp : p.Closed)
include hp

theorem forward_gives {n : Assembly.Node} (hn : p.assembly.node? n.id = some n)
    (q : Catalog.Parameter) (span : Span) {v : Value} (hv : p.catalog.Knows v) :
    Gives (p.forward q n.id span v)
      (if n.parent = none ∧ v.reference? ≠ none then .error (.unboundScope q.name n.name span)
       else .ok (p.outerExpr (n.parent.getD n.id) v)) := by
  cases v with
  | constant k =>
    simp only [Value.reference?, ne_eq, not_true_eq_false, and_false, if_false]
    exact .pure _
  | param id =>
    obtain ⟨x, hx⟩ := Catalog.hasParameter_iff.mp (hv id rfl)
    have hscope : p.forwardScope? n.id = some n.parent := Assembly.ancestor?_one hn
    unfold forward
    apply (Gives.lift hscope).bind
    cases hpar : n.parent with
    | none =>
      -- the root: there is no instance around to read from
      simp only [Value.reference?, ne_eq, reduceCtorEq, not_false_eq_true, and_self, if_true]
      exact (Gives.lift hn).bind (.throw _)
    | some outer =>
      obtain ⟨m, hm, _⟩ := hp.assembly.parent hn hpar
      have hpath := hp.path? (Assembly.hasNode_of_some hm)
      simp only [reduceCtorEq, false_and, if_false, Option.getD_some, outerExpr, nameOf_eq hx]
      exact (Gives.lift hpath).bind ((Gives.lift hx).bind (.pure _))

theorem resolveOverride_gives {n : Assembly.Node} (hn : p.assembly.node? n.id = some n)
    (q : Catalog.Parameter) {x : Assignment} (hx : x ∈ n.assignments) :
    Gives (p.resolveOverride q n.id x) (match settingFault? n q x with
      | some f => .error f
      | none => .ok ⟨x.values.map (p.outerExpr (n.parent.getD n.id)), .override⟩) := by
  unfold resolveOverride settingFault?
  by_cases hnil : x.values = []
  · simp only [hnil, List.isEmpty_nil, if_true]
    exact (Gives.throw _).bind_error
  · have hempty : x.values.isEmpty = false := by simpa using hnil
    simp only [hempty, Bool.false_eq_true, if_false, if_neg hnil]
    have hall := Gives.mapM_find fun v hv => forward_gives hp hn q x.span (hp.values hn x hx v hv)
    by_cases hbad : n.parent = none ∧ ∃ v ∈ x.values, v.reference? ≠ none
    · -- the first reference is the fault
      rw [if_pos hbad]
      obtain ⟨hpar, v, hv, href⟩ := hbad
      obtain ⟨w, hw⟩ : ∃ w, x.values.find?
          (fun v => decide (n.parent = none ∧ v.reference? ≠ none)) = some w := by
        rw [← Option.isSome_iff_exists, List.find?_isSome]
        exact ⟨v, hv, by simp [hpar, href]⟩
      rw [hw] at hall
      exact hall.bind_error
    · rw [if_neg hbad]
      have hnone : x.values.find?
          (fun v => decide (n.parent = none ∧ v.reference? ≠ none)) = none := by
        rw [List.find?_eq_none]
        intro v hv h
        obtain ⟨hpar, href⟩ := of_decide_eq_true h
        exact hbad ⟨hpar, v, hv, href⟩
      rw [hnone] at hall
      exact hall.bind (.pure _)

theorem resolveDefault_gives {n : Assembly.Node} (hn : p.assembly.node? n.id = some n)
    {q : Catalog.Parameter} (hq : p.catalog.parameter? q.id = some q) :
    Gives (p.resolveDefault q n.id)
      (if q.default = [] then .error (.emptyInitializer q.name .default q.span)
       else .ok ⟨q.default.map (p.ownExpr n.id), .default⟩) := by
  unfold resolveDefault
  by_cases hnil : q.default = []
  · simp only [hnil, List.isEmpty_nil, if_true]
    exact (Gives.throw _).bind_error
  · have hempty : q.default.isEmpty = false := by simpa using hnil
    simp only [hempty, Bool.false_eq_true, if_false, if_neg hnil]
    refine (Gives.mapM fun v hv => Gives.lift ?_).bind (.pure _)
    exact express?_atInstance hp (Assembly.hasNode_of_some hn) (hp.catalog.default hq v hv)

/-- A slot is resolved, or it has a fault. -/
theorem resolve_gives {n : Assembly.Node} (hn : p.assembly.node? n.id = some n)
    {q : Catalog.Parameter} (hq : p.catalog.parameter? q.id = some q) :
    Gives (p.resolve ⟨q.id, n.id⟩) (match slotFault? n q with
      | some f => .error f
      | none => .ok (p.resolutionAt n q)) := by
  have hsetting : p.assembly.settingOf? ⟨q.id, n.id⟩ =
      some (Assembly.lastSetting? q.id n.assignments) := by
    simp [Assembly.settingOf?, hn]
  unfold resolve
  refine (Gives.lift hsetting).bind ((Gives.lift hq).bind ?_)
  unfold slotFault? resolutionAt
  cases hx : Assembly.lastSetting? q.id n.assignments with
  | some x =>
    have hmem : x ∈ n.assignments := List.mem_reverse.mp (List.mem_of_find?_eq_some hx)
    exact resolveOverride_gives hp hn q hmem
  | none =>
    have hgives := resolveDefault_gives hp hn hq
    by_cases hnil : q.default = []
    · simpa [hnil] using hgives
    · simpa [hnil] using hgives

end slots

/-! ## Entries -/

variable (p)

/-- The entry of the slot of `q` on the instance `n` if nothing is wrong with it. -/
def entryAt (n : Assembly.Node) (q : Catalog.Parameter) : Entry :=
  { param := q.id
    name := q.name
    terms := (p.resolutionAt n q).terms
    origin := (p.resolutionAt n q).origin
    text := p.tupleText (p.resolutionAt n q).terms }

/-- The entry of the slot of `q` on the instance `n`, unless something is wrong with it. -/
def slotEntry? (n : Assembly.Node) (q : Catalog.Parameter) : Option Entry :=
  match slotFault? n q with
  | some _ => none
  | none => some (p.entryAt n q)

variable {p}

/-- What is reported about the slot of `q` on the instance `n`. -/
def slotReports (n : Assembly.Node) (q : Catalog.Parameter) : List Diagnostic :=
  (slotFault? n q).toList.map (·.toDiagnostic)

/-- A slot about which nothing is reported has its entry. -/
theorem slotEntry?_of_nil {n : Assembly.Node} {q : Catalog.Parameter} (h : slotReports n q = []) :
    p.slotEntry? n q = some (p.entryAt n q) := by
  unfold slotReports at h
  unfold slotEntry?
  cases hf : slotFault? n q with
  | some f => simp [hf] at h
  | none => rfl

/-- An entry is that of its slot, about which nothing is reported. -/
theorem slotEntry?_eq_some {n : Assembly.Node} {q : Catalog.Parameter} {e : Entry}
    (h : p.slotEntry? n q = some e) : e = p.entryAt n q ∧ slotReports n q = [] := by
  unfold slotEntry? at h
  unfold slotReports
  cases hf : slotFault? n q with
  | some f => simp [hf] at h
  | none => simpa [hf, eq_comm] using h

section entries
variable (hp : p.Closed) {n : Assembly.Node} (hn : p.assembly.node? n.id = some n)
include hp hn

/-- A slot has its entry, or its fault is reported. -/
theorem entry_run {q : Catalog.Parameter} (hq : p.catalog.parameter? q.id = some q) :
    (p.entry ⟨q.id, n.id⟩).run = some (p.slotEntry? n q, slotReports n q) := by
  have hresolve := resolve_gives hp hn hq
  unfold entry slotReports slotEntry?
  cases hf : slotFault? n q with
  | some f =>
    rw [hf] at hresolve
    have hgives : Gives (p.initializer ⟨q.id, n.id⟩) (.error f) := hresolve.bind_error
    rw [Collect.lookup_bind hgives]
    rfl
  | none =>
    rw [hf] at hresolve
    have hgives : Gives (p.initializer ⟨q.id, n.id⟩)
        (.ok (p.resolutionAt n q, p.tupleText (p.resolutionAt n q).terms)) := by
      apply hresolve.bind
      rw [tuple?_eq_some (resolutionAt_terms_ne_nil hf)]
      exact .pure _
    rw [Collect.lookup_bind hgives]
    show (Collect.lookup (p.catalog.parameter? q.id) >>= _).run = _
    rw [Collect.lookup_bind hq]
    rfl

/-- The slots of an instance are those of the visible parameters of its reactor. -/
theorem slots?_of_visible {qs : List Catalog.Parameter}
    (hqs : p.catalog.visible? n.reactor = some qs) :
    p.slots? n.id = some (qs.map fun q => ⟨q.id, n.id⟩) := by
  simp [slots?, hn, hp.catalog.visibleIds?_of_visible hqs]

/-- The values of an instance: the entries of its visible parameters that have one, and the reports
    of the others. -/
theorem overridesAt_run {qs : List Catalog.Parameter}
    (hqs : p.catalog.visible? n.reactor = some qs) :
    (p.overridesAt n).run = some
      (⟨n.id, p.pathOf n.id, qs.filterMap (p.slotEntry? n)⟩, qs.flatMap (slotReports n)) := by
  have hslots := slots?_of_visible hp hn hqs
  -- slot by slot
  have hall : List.Forall₂ (fun s r => (p.entry s).run = some r) (qs.map fun q => ⟨q.id, n.id⟩)
      (qs.map fun q => (p.slotEntry? n q, slotReports n q)) := by
    rw [List.forall₂_map_left_iff, List.forall₂_map_right_iff, List.forall₂_same]
    intro q hq
    exact entry_run hp hn (hp.catalog.parameter?_of_visible hqs hq)
  unfold overridesAt
  rw [Collect.lookup_bind hslots, Collect.run_bind, Collect.run_mapM hall, Option.bind_some,
    Collect.lookup_bind (hp.path? (Assembly.hasNode_of_some hn))]
  simp only [Collect.run_pure, Option.map_some, List.append_nil, List.map_map, List.flatMap_def,
    List.filterMap_map]
  rfl

end entries

end Reactors.Program
