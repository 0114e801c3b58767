import Reactors.Proofs.Script.Accessors
import Reactors.Proofs.Script.Coverage

/-! # Names and warnings have the same scopes

    A name alone in an assignment is bound on the reactor of the instance around, and validation
    asks this very reactor what it has.  So a name alone is never warned about, and the root, which
    has nothing around it, has no names alone.  What is warned about is each reference that is
    qualified with a reactor which the one around neither is nor extends.
-/

namespace Reactors

namespace Model

/-- A term of the assignment refers to a parameter by its name and that of a reactor. -/
def Assignment.Qualified (a : Assignment) : Prop :=
  ∃ name reactor, .param (.qualified name reactor) ∈ a.terms

/-- Only the instance that contains all others has nothing around it. -/
theorem inst_of_parent_eq_none {m : Model} {x : Place} (hx : x ∈ m.places)
    (hparent : x.parent = none) : x.inst = m.main ∧ x.outer = none := by
  obtain ⟨options, reactors, name, reactor, assignments, children, span⟩ := m
  rw [places, Instance.places] at hx
  rcases List.mem_cons.mp hx with rfl | hx
  · exact ⟨rfl, rfl⟩
  · rcases outer_placesAll _ _ _ _ children x hx with ⟨h, _⟩ | ⟨y, _, h, _⟩
    · rw [hparent] at h
      cases h
    · rw [hparent] at h
      cases h

end Model

namespace Program

open Model (Faithful Term)

variable {m : Model} {p : Program}

/-! ## Codes -/

/-- Of some diagnostics those of one kind. -/
def coded (code : Diagnostic.Code) (ds : List Diagnostic) : List Diagnostic :=
  ds.filter fun d => d.code = some code

theorem mem_coded {code : Diagnostic.Code} {ds : List Diagnostic} {d : Diagnostic} :
    d ∈ coded code ds ↔ d ∈ ds ∧ d.code = some code := by
  simp [coded]

theorem coded_append (code : Diagnostic.Code) (ds es : List Diagnostic) :
    coded code (ds ++ es) = coded code ds ++ coded code es :=
  List.filter_append _ _

theorem coded_eq_nil {code : Diagnostic.Code} {ds : List Diagnostic}
    (h : ∀ d ∈ ds, d.code ≠ some code) : coded code ds = [] := by
  rw [coded, List.filter_eq_nil_iff]
  intro d hd
  simpa using h d hd

theorem coded_eq_self {code : Diagnostic.Code} {ds : List Diagnostic}
    (h : ∀ d ∈ ds, d.code = some code) : coded code ds = ds := by
  rw [coded, List.filter_eq_self]
  intro d hd
  simpa using h d hd

/-- What is wrong with the reactors has codes of its own. -/
theorem code_of_mem_catalogProblems {cs : List Diagnostic} (h : p.catalogProblems? = some cs)
    {d : Diagnostic} (hd : d ∈ cs) :
    d.code = some .ambiguousName ∨ d.code = some .emptyInitializer := by
  obtain ⟨problems, hproblems, h⟩ := Option.bind_eq_some_iff.mp h
  cases h
  obtain ⟨ds, hds, hd⟩ := List.mem_flatten.mp hd
  obtain ⟨r, _, hr⟩ := Lookup.mem_of_mapM hproblems hds
  obtain ⟨repeated, _, hr⟩ := Option.bind_eq_some_iff.mp hr
  obtain ⟨own, _, hr⟩ := Option.bind_eq_some_iff.mp hr
  cases hr
  rcases List.mem_append.mp hd with hd | hd
  · obtain ⟨pair, _, rfl⟩ := List.mem_map.mp hd
    exact .inl rfl
  · obtain ⟨q, _, rfl⟩ := List.mem_map.mp hd
    exact .inr rfl

/-! ## Warnings about terms -/

/-- The warnings about the terms of an assignment of `n` at `span`, where names alone are those of
    the reactor of the name `scope` and values are read from an instance of `reader`: one for each
    reference to a parameter of a reactor that `reader` neither is nor extends, in order. -/
inductive Warned (p : Program) (n : Assembly.Node) (span : Span) (scope : Option String)
    (reader : ReactorId) : List Term → List Diagnostic → Prop where
  | nil : Warned p n span scope reader [] []
  | constant {t : Term} {k : Constant} {ts : List Term} {ds : List Diagnostic}
      (ht : t.Denotes p.catalog scope (.constant k)) (h : Warned p n span scope reader ts ds) :
      Warned p n span scope reader (t :: ts) ds
  | inherited {t : Term} {id : ParamId} {q : Catalog.Parameter} {ts : List Term}
      {ds : List Diagnostic} (ht : t.Denotes p.catalog scope (.param id))
      (hq : p.catalog.parameter? id = some q) (hreaches : p.catalog.Reaches reader q.owner)
      (h : Warned p n span scope reader ts ds) : Warned p n span scope reader (t :: ts) ds
  | foreign {t : Term} {id : ParamId} {q : Catalog.Parameter} {d : Diagnostic} {ts : List Term}
      {ds : List Diagnostic} (ht : t.Denotes p.catalog scope (.param id))
      (hq : p.catalog.parameter? id = some q) (hreaches : ¬ p.catalog.Reaches reader q.owner)
      (hd : p.foreignForward? n span reader id = some d)
      (h : Warned p n span scope reader ts ds) : Warned p n span scope reader (t :: ts) (d :: ds)

/-- A warning about a reference has its code, and stands where the assignment does. -/
theorem foreignForward?_eq_some {n : Assembly.Node} {span : Span} {reader : ReactorId}
    {id : ParamId} {d : Diagnostic} (h : p.foreignForward? n span reader id = some d) :
    d.code = some .foreignForward ∧ d.span = span := by
  obtain ⟨q, _, h⟩ := Option.bind_eq_some_iff.mp h
  obtain ⟨owner, _, h⟩ := Option.bind_eq_some_iff.mp h
  obtain ⟨outer, _, h⟩ := Option.bind_eq_some_iff.mp h
  cases h
  exact ⟨rfl, rfl⟩

section warned
variable {n : Assembly.Node} {span : Span} {scope : Option String} {reader : ReactorId}

/-- Every warning stands where the assignment does, and is about one of the terms. -/
theorem Warned.exists_foreign {ts : List Term} {ds : List Diagnostic}
    (h : p.Warned n span scope reader ts ds) {d : Diagnostic} (hd : d ∈ ds) :
    d.code = some .foreignForward ∧ d.span = span ∧ ∃ t ∈ ts, ∃ id q,
      t.Denotes p.catalog scope (.param id) ∧ p.catalog.parameter? id = some q ∧
      ¬ p.catalog.Reaches reader q.owner := by
  induction h with
  | nil => simp at hd
  | constant _ _ ih | inherited _ _ _ _ ih =>
    obtain ⟨hcode, hspan, t, ht, h⟩ := ih hd
    exact ⟨hcode, hspan, t, List.mem_cons_of_mem _ ht, h⟩
  | foreign ht hq hreaches hforward _ ih =>
    rcases List.mem_cons.mp hd with rfl | hd
    · obtain ⟨hcode, hspan⟩ := foreignForward?_eq_some hforward
      exact ⟨hcode, hspan, _, List.mem_cons_self, _, _, ht, hq, hreaches⟩
    · obtain ⟨hcode, hspan, t, ht, h⟩ := ih hd
      exact ⟨hcode, hspan, t, List.mem_cons_of_mem _ ht, h⟩

variable {rs : List Model.Reactor} (hc : Model.Catalogued rs p.catalog)
  (hreader : p.catalog.HasReactor reader)
include hc hreader

/-- A parameter is visible on a reactor exactly if its owner is the reactor or one it extends. -/
theorem mem_visibleIds_iff_reaches {ids : List ParamId}
    (hids : p.catalog.visibleIds? reader = some ids) {id : ParamId} {q : Catalog.Parameter}
    (hq : p.catalog.parameter? id = some q) : id ∈ ids ↔ p.catalog.Reaches reader q.owner := by
  rw [hc.closed.mem_visibleIds_iff hreader hids]
  constructor
  · intro ⟨s, hs, hown⟩
    obtain ⟨_, _, _, _, _, q', hq', howner, _⟩ := hc.exists_declared hown
    rw [hq] at hq'
    cases hq'
    exact howner ▸ hs
  · intro h
    exact ⟨q.owner, h, hc.mem_own hq⟩

/-- The warnings about the references of an assignment are those about its terms. -/
theorem foreignForwards?_warned {ts : List Term} {values : List Value}
    (hterms : List.Forall₂ (Term.Denotes p.catalog scope) ts values)
    (hknown : ∀ id, .param id ∈ values → p.catalog.HasParameter id) {ds : List Diagnostic}
    (h : p.foreignForwards? n span reader (values.filterMap Value.reference?) = some ds) :
    p.Warned n span scope reader ts ds := by
  induction hterms generalizing ds with
  | nil =>
    cases h
    exact .nil
  | @cons t v ts values ht _ ih =>
    have hknown' : ∀ id, .param id ∈ values → p.catalog.HasParameter id :=
      fun id hid => hknown id (List.mem_cons_of_mem _ hid)
    cases v with
    | constant k => exact .constant ht (ih hknown' h)
    | param id =>
      obtain ⟨q, hq⟩ := Catalog.hasParameter_iff.mp (hknown id List.mem_cons_self)
      obtain ⟨visible, hvisible, h⟩ := Option.bind_eq_some_iff.mp h
      obtain ⟨rest, hrest, h⟩ := Option.bind_eq_some_iff.mp h
      have hiff := mem_visibleIds_iff_reaches hc hreader hvisible hq
      by_cases hmem : id ∈ visible
      · rw [if_pos hmem] at h
        cases h
        exact .inherited ht hq (hiff.mp hmem) (ih hknown' hrest)
      · rw [if_neg hmem] at h
        obtain ⟨d, hd, h⟩ := Option.bind_eq_some_iff.mp h
        cases h
        exact .foreign ht hq (mt hiff.mpr hmem) hd (ih hknown' hrest)

end warned

/-! ## What is said of one assignment -/

/-- What validation says of an assignment of the root: something about references only where there
    are some, and then that they are read from nowhere. -/
theorem problemsOf_root {n : Assembly.Node} (hparent : n.parent = none) {y : Assignment}
    {d : Diagnostic} (hd : d ∈ p.problemsOf n y) :
    d.code = some .emptyInitializer ∨
      d.code = some .unboundScope ∧ d.span = y.span ∧ ∃ id, .param id ∈ y.values := by
  unfold problemsOf assignmentProblems? at hd
  cases htarget : p.catalog.parameter? y.target with
  | none => simp [htarget] at hd
  | some target =>
    simp only [htarget, hparent, Option.bind_eq_bind, Option.bind_some] at hd
    by_cases hempty : y.values.isEmpty = true
    · rw [if_pos hempty] at hd
      obtain rfl := List.mem_singleton.mp hd
      exact .inl rfl
    · rw [if_neg hempty] at hd
      cases hids : y.values.filterMap Value.reference? with
      | nil => simp [hids] at hd
      | cons id ids =>
        rw [hids] at hd
        obtain rfl := List.mem_singleton.mp hd
        have hmem : id ∈ y.values.filterMap Value.reference? := hids ▸ List.mem_cons_self
        obtain ⟨v, hv, hvid⟩ := List.mem_filterMap.mp hmem
        cases v with
        | constant k => cases hvid
        | param id' => exact .inr ⟨rfl, rfl, id', hv⟩

/-- The root is not warned about. -/
theorem coded_foreign_root {n : Assembly.Node} (hparent : n.parent = none) {y : Assignment} :
    coded .foreignForward (p.problemsOf n y) = [] := by
  apply coded_eq_nil
  intro d hd
  rcases problemsOf_root hparent hd with h | ⟨h, _⟩
  · rw [h]
    decide
  · rw [h]
    decide

theorem code_of_mem_foreignForwards {n : Assembly.Node} {span : Span} {reader : ReactorId}
    {ids : List ParamId} {ds : List Diagnostic}
    (h : p.foreignForwards? n span reader ids = some ds) :
    ∀ d ∈ ds, d.code = some .foreignForward := by
  induction ids generalizing ds with
  | nil =>
    cases h
    simp
  | cons id ids ih =>
    obtain ⟨visible, _, h⟩ := Option.bind_eq_some_iff.mp h
    obtain ⟨rest, hrest, h⟩ := Option.bind_eq_some_iff.mp h
    split at h
    · cases h
      exact ih hrest
    · obtain ⟨d, hd, h⟩ := Option.bind_eq_some_iff.mp h
      cases h
      rw [List.forall_mem_cons]
      exact ⟨(foreignForward?_eq_some hd).1, ih hrest⟩

/-- What validation says of an assignment of an instance inside `o`: it is about the references
    alone, save that the assignment may be empty. -/
theorem problemsOf_inner (hp : p.Closed) {n : Assembly.Node} (hn : n ∈ p.nodesOf)
    {outer : NodeId} (hparent : n.parent = some outer) {o : Assembly.Node}
    (ho : p.assembly.node? outer = some o) {y : Assignment} (hy : y ∈ n.assignments) :
    coded .unboundScope (p.problemsOf n y) = [] ∧
      p.foreignForwards? n y.span o.reactor (y.values.filterMap Value.reference?) =
        some (coded .foreignForward (p.problemsOf n y)) := by
  have hproblems := assignmentProblems?_eq hp hn hy
  generalize p.problemsOf n y = problems at hproblems
  obtain ⟨target, _, hproblems⟩ := Option.bind_eq_some_iff.mp hproblems
  simp only [hparent, ho, Option.bind_eq_bind, Option.bind_some] at hproblems
  split at hproblems
  · next hempty =>
    cases hproblems
    rw [List.isEmpty_iff.mp hempty]
    exact ⟨rfl, rfl⟩
  · split at hproblems
    · next hempty =>
      cases hproblems
      rw [List.isEmpty_iff.mp hempty]
      exact ⟨rfl, rfl⟩
    · have hcode := code_of_mem_foreignForwards hproblems
      rw [coded_eq_self hcode]
      refine ⟨coded_eq_nil fun d hd => ?_, hproblems⟩
      rw [hcode d hd]
      decide

/-! ## Accepted models -/

/-- The warnings about the assignments of the instance of a place: of the root there are none, and
    of any other instance those about the terms, which are read from the instance around. -/
def WarnedAt (p : Program) (x : Model.Place) (group : List (List Diagnostic)) : Prop :=
  List.Forall₂ (fun a ds => (x.parent = none → ds = []) ∧
      ∀ outer, x.parent = some outer → ∃ n o, p.assembly.node? x.id = some n ∧
        p.assembly.node? outer = some o ∧ p.Warned n a.span x.outer o.reactor a.terms ds)
    x.inst.assignments group

/-- A program of a model, and what validation says of it, that have the same scopes. -/
structure Scoped (p : Program) (m : Model) (vs : List Diagnostic) : Prop where
  /-- Only a qualified reference in an assignment of the instance that contains all others is read
      from nowhere. -/
  unbound : ∀ d ∈ coded .unboundScope vs, ∃ a ∈ m.main.assignments, a.Qualified ∧ d.span = a.span
  /-- Only a qualified reference in an assignment of another instance is warned about. -/
  foreign : ∀ d ∈ coded .foreignForward vs, ∃ x ∈ m.places, x.parent ≠ none ∧
    ∃ a ∈ x.inst.assignments, a.Qualified ∧ d.span = a.span
  /-- A name alone is bound to a parameter that is visible on the reactor of the instance around. -/
  plain : ∀ x ∈ m.places, ∀ outer, x.parent = some outer → ∃ n o ids,
    p.assembly.node? x.id = some n ∧ p.assembly.node? outer = some o ∧
    p.catalog.visibleIds? o.reactor = some ids ∧
    List.Forall₂ (fun a y => List.Forall₂ (fun t v => ∀ name, t = .param (.plain name) →
      ∃ id ∈ ids, v = .param id ∧ p.catalog.ParameterNamed name id) a.terms y.values)
      x.inst.assignments n.assignments
  /-- There is one warning for each reference of an instance to a parameter of a reactor that the
      one around neither is nor extends, in order, and no other. -/
  warnings : ∃ groups, List.Forall₂ p.WarnedAt m.places groups ∧
    coded .foreignForward vs = groups.flatten.flatten

section instances
variable (hm : Faithful m p) (hloaded : Model.Loaded p)
include hm hloaded

/-- What a name alone stands for is visible on the reactor of the instance around. -/
theorem visible_of_plain {x : Model.Place} (hx : x ∈ m.places) {outer : NodeId}
    (hparent : x.parent = some outer) {o : Assembly.Node} (ho : p.assembly.node? outer = some o)
    {name : String} {v : Value} (ht : Term.Denotes p.catalog x.outer (.param (.plain name)) v) :
    ∃ ids id, p.catalog.visibleIds? o.reactor = some ids ∧ id ∈ ids ∧ v = .param id ∧
      p.catalog.ParameterNamed name id := by
  obtain ⟨reactor, houter, hnamed⟩ := outer_named hm hloaded hx hparent ho
  cases ht with
  | plain hscope hstands =>
    rw [hscope] at houter
    cases houter
    have hname := hstands.named
    obtain ⟨r, hr, before, after, hids, _⟩ := hstands
    rw [hr.eq hloaded.catalog hloaded.distinct hnamed] at hids
    exact ⟨_, _, hids, by simp, rfl, hname⟩

omit hm in
/-- The node around that of a place. -/
theorem exists_outer {x : Model.Place} {n : Assembly.Node} (hn : n ∈ p.nodesOf)
    (hxn : x.Denotes p.catalog n) {outer : NodeId} (hparent : x.parent = some outer) :
    p.assembly.node? x.id = some n ∧ n.parent = some outer ∧
      ∃ o, p.assembly.node? outer = some o := by
  have hp := closed_of_loaded hloaded
  have hfound := hp.found hn
  have hnparent := hxn.parent.trans hparent
  obtain ⟨o, ho, _⟩ := hp.assembly.parent hfound hnparent
  exact ⟨hxn.id ▸ hfound, hnparent, o, ho⟩

/-- What is warned about in an assignment of an instance inside another one is about its terms. -/
theorem warned_problemsOf {x : Model.Place} {n : Assembly.Node} (hn : n ∈ p.nodesOf)
    (hxn : x.Denotes p.catalog n) {outer : NodeId} (hparent : x.parent = some outer)
    {a : Model.Assignment} {y : Assignment} (hy : y ∈ n.assignments)
    (hay : a.Denotes p.catalog x.inst.reactor x.outer y) :
    ∃ o, p.assembly.node? outer = some o ∧ p.Warned n a.span x.outer o.reactor a.terms
      (coded .foreignForward (p.problemsOf n y)) := by
  have hp := closed_of_loaded hloaded
  obtain ⟨_, hnparent, o, ho⟩ := exists_outer hloaded hn hxn hparent
  have hknown : ∀ id, .param id ∈ y.values → p.catalog.HasParameter id :=
    fun id hid => hp.values (hp.found hn) y hy _ hid id rfl
  have hproblems := (problemsOf_inner hp hn hnparent ho hy).2
  exact ⟨o, ho, hay.span ▸ foreignForwards?_warned hm.catalog (hp.reactor ho) hay.values hknown
    hproblems⟩

/-- What validation warns about at the node of a place. -/
theorem warnedAt_place {x : Model.Place} {n : Assembly.Node} (hn : n ∈ p.nodesOf)
    (hxn : x.Denotes p.catalog n) :
    p.WarnedAt x (n.assignments.map fun y => coded .foreignForward (p.problemsOf n y)) := by
  unfold WarnedAt
  rw [List.forall₂_map_right_iff]
  apply (Lookup.forall₂_mem hxn.assignments).imp
  intro a y ⟨_, hy, hay⟩
  constructor
  · intro hparent
    exact coded_foreign_root (hxn.parent.trans hparent)
  · intro outer hparent
    obtain ⟨o, ho, hwarned⟩ := warned_problemsOf hm hloaded hn hxn hparent hy hay
    exact ⟨n, o, (exists_outer hloaded hn hxn hparent).1, ho, hwarned⟩

/-- Validation says of references what it says of each assignment. -/
theorem coded_validate {code : Diagnostic.Code} (hambiguous : code ≠ .ambiguousName)
    (hempty : code ≠ .emptyInitializer) {vs : List Diagnostic} (hvs : p.validate? = some vs) :
    coded code vs =
      p.nodesOf.flatMap fun n => n.assignments.flatMap fun y => coded code (p.problemsOf n y) := by
  obtain ⟨cs, hcs, hvalidate⟩ := validate?_eq (closed_of_loaded hloaded) hm.root
  rw [hvs] at hvalidate
  cases hvalidate
  have hnil : coded code cs = [] := by
    apply coded_eq_nil
    intro d hd
    rcases code_of_mem_catalogProblems hcs hd with h | h
    · rw [h]
      exact fun heq => hambiguous (Option.some.inj heq).symm
    · rw [h]
      exact fun heq => hempty (Option.some.inj heq).symm
  rw [coded_append, hnil, List.nil_append]
  simp only [coded, List.filter_flatMap]

/-- Where validation says something about references. -/
theorem exists_assignment_of_coded {code : Diagnostic.Code} (hambiguous : code ≠ .ambiguousName)
    (hempty : code ≠ .emptyInitializer) {vs : List Diagnostic} (hvs : p.validate? = some vs)
    {d : Diagnostic} (hd : d ∈ coded code vs) :
    ∃ x ∈ m.places, ∃ n ∈ p.nodesOf, x.Denotes p.catalog n ∧ ∃ a ∈ x.inst.assignments,
      ∃ y ∈ n.assignments, a.Denotes p.catalog x.inst.reactor x.outer y ∧
        d ∈ coded code (p.problemsOf n y) := by
  rw [coded_validate hm hloaded hambiguous hempty hvs] at hd
  obtain ⟨n, hn, hd⟩ := List.mem_flatMap.mp hd
  obtain ⟨y, hy, hd⟩ := List.mem_flatMap.mp hd
  obtain ⟨x, _, hx, _, hxn⟩ := Lookup.exists_mem_of_forall₂ (forall₂_nodesOf hm).flip hn
  obtain ⟨a, ha, hay⟩ := Lookup.exists_mem_of_forall₂ hxn.assignments.flip hy
  exact ⟨x, hx, n, hn, hxn, a, ha, y, hy, hay, hd⟩

/-- What is read from nowhere is a qualified reference of the instance that contains all others. -/
theorem qualified_of_unbound {vs : List Diagnostic} (hvs : p.validate? = some vs) {d : Diagnostic}
    (hd : d ∈ coded .unboundScope vs) :
    ∃ a ∈ m.main.assignments, a.Qualified ∧ d.span = a.span := by
  obtain ⟨x, hx, n, hn, hxn, a, ha, y, hy, hay, hd⟩ :=
    exists_assignment_of_coded hm hloaded (by decide) (by decide) hvs hd
  cases hparent : x.parent with
  | some outer =>
    obtain ⟨_, hnparent, o, ho⟩ := exists_outer hloaded hn hxn hparent
    rw [(problemsOf_inner (closed_of_loaded hloaded) hn hnparent ho hy).1] at hd
    simp at hd
  | none =>
    obtain ⟨hmain, houter⟩ := Model.inst_of_parent_eq_none hx hparent
    obtain ⟨hd, hcode⟩ := mem_coded.mp hd
    rcases problemsOf_root (hxn.parent.trans hparent) hd with h | ⟨_, hspan, id, hid⟩
    · rw [hcode] at h
      exact absurd h (by decide)
    · refine ⟨a, hmain ▸ ha, ?_, hspan.trans hay.span⟩
      obtain ⟨t, ht, hden⟩ := Lookup.exists_mem_of_forall₂ hay.values.flip hid
      -- there is no scope that a name alone could be bound in
      rw [houter] at hden
      cases hden with
      | plain hscope _ => cases hscope
      | qualified _ => exact ⟨_, _, ht⟩

/-- What is warned about is a qualified reference of an instance inside another one. -/
theorem qualified_of_foreign {vs : List Diagnostic} (hvs : p.validate? = some vs) {d : Diagnostic}
    (hd : d ∈ coded .foreignForward vs) :
    ∃ x ∈ m.places, x.parent ≠ none ∧ ∃ a ∈ x.inst.assignments, a.Qualified ∧ d.span = a.span := by
  obtain ⟨x, hx, n, hn, hxn, a, ha, y, hy, hay, hd⟩ :=
    exists_assignment_of_coded hm hloaded (by decide) (by decide) hvs hd
  cases hparent : x.parent with
  | none =>
    rw [coded_foreign_root (hxn.parent.trans hparent)] at hd
    simp at hd
  | some outer =>
    obtain ⟨o, ho, hwarned⟩ := warned_problemsOf hm hloaded hn hxn hparent hy hay
    have hreader := hloaded.assembly.reactor ho
    obtain ⟨_, hspan, t, ht, id, q, hden, hq, hnot⟩ := hwarned.exists_foreign hd
    refine ⟨x, hx, by rw [hparent]; exact Option.some_ne_none _, a, ha, ?_, hspan⟩
    cases t with
    | param r =>
      cases r with
      | plain name =>
        -- what a name alone stands for is visible around, so nothing is said about it
        obtain ⟨ids, i, hids, hi, heq, _⟩ := visible_of_plain hm hloaded hx hparent ho hden
        cases heq
        exact absurd ((mem_visibleIds_iff_reaches hm.catalog hreader hids hq).mp hi) hnot
      | qualified name reactor => exact ⟨name, reactor, ht⟩
    | int _ => cases hden
    | float _ => cases hden
    | bool _ => cases hden
    | string _ => cases hden
    | code _ => cases hden
    | time _ => cases hden

end instances

/-- The scope in which the names of an accepted model are bound is the one that validation reads
    them in. -/
theorem elaborate_scoped (h : m.elaborate = some (.ok p)) :
    ∃ vs, p.validate? = some vs ∧ p.Scoped m vs := by
  have hm := Model.faithful_of_quiet (Model.bindAll_quiet h)
  have hloaded := (Model.loaded_of_elaborate h).1
  have hp := closed_of_loaded hloaded
  obtain ⟨vs, hvs, _⟩ := validate_covers_reports hp
  refine ⟨vs, hvs, fun d hd => qualified_of_unbound hm hloaded hvs hd,
    fun d hd => qualified_of_foreign hm hloaded hvs hd, ?_, ?_⟩
  · intro x hx outer hparent
    obtain ⟨n, _, _, hn, hxn⟩ := Lookup.exists_mem_of_forall₂ (forall₂_nodesOf hm) hx
    obtain ⟨hfound, _, o, ho⟩ := exists_outer hloaded hn hxn hparent
    have hids := hp.catalog.visibleIds?_eq (hp.reactor ho)
    refine ⟨n, o, _, hfound, ho, hids, hxn.assignments.imp fun a y hay => hay.values.imp ?_⟩
    rintro t v ht name rfl
    obtain ⟨ids, id, hids', hid, hv, hname⟩ := visible_of_plain hm hloaded hx hparent ho ht
    rw [hids] at hids'
    cases hids'
    exact ⟨id, hid, hv, hname⟩
  · refine ⟨p.nodesOf.map fun n => n.assignments.map fun y =>
      coded .foreignForward (p.problemsOf n y), ?_, ?_⟩
    · rw [List.forall₂_map_right_iff]
      exact (forall₂_nodesOf hm).imp fun x n ⟨_, hn, hxn⟩ => warnedAt_place hm hloaded hn hxn
    · rw [coded_validate hm hloaded (by decide) (by decide) hvs]
      simp [List.flatMap_def, List.flatten_flatten, Function.comp_def]

/-- The root and an instance inside it are both given a parameter of a reactor that nothing extends,
    and the instance one of the root besides. -/
def borrowing : Model where
  options := .standard
  reactors :=
    [⟨"A", [], [⟨"x", none, [.int 1], .nowhere⟩], .nowhere⟩,
      ⟨"B", [], [⟨"y", none, [.int 2], .nowhere⟩], .nowhere⟩]
  main := ⟨"main", "A", [⟨"x", [.param (.qualified "y" "B")], .nowhere⟩],
    [⟨"b", "B", [⟨"y", [.param (.plain "x"), .param (.qualified "y" "B")], .nowhere⟩], [],
      .nowhere⟩], .nowhere⟩

/-- The program of `borrowing`. -/
def borrowingProgram : Program where
  catalog :=
    { reactors := #[⟨⟨0⟩, "A", [], [⟨0⟩], .nowhere⟩, ⟨⟨1⟩, "B", [], [⟨1⟩], .nowhere⟩]
      parameters :=
        #[⟨⟨0⟩, ⟨0⟩, "x", none, [.constant (.int 1)], .nowhere⟩,
          ⟨⟨1⟩, ⟨1⟩, "y", none, [.constant (.int 2)], .nowhere⟩] }
  assembly :=
    { nodes := #[⟨⟨0⟩, "main", ⟨0⟩, none, [⟨1⟩], [⟨⟨0⟩, [.param ⟨1⟩], .nowhere⟩], .nowhere⟩,
        ⟨⟨1⟩, "b", ⟨1⟩, some ⟨0⟩, [], [⟨⟨1⟩, [.param ⟨0⟩, .param ⟨1⟩], .nowhere⟩], .nowhere⟩] }

/-- One report for the root, and one for the reference of the instance that names its reactor. -/
theorem scoped_borrowing :
    borrowing.elaborate = some (.ok borrowingProgram) ∧
      ∃ vs, borrowingProgram.validate? = some vs ∧ borrowingProgram.Scoped borrowing vs ∧
        vs.map (·.code) = [some .unboundScope, some .foreignForward] := by
  have hload : borrowing.elaborate = some (.ok borrowingProgram) := rfl
  obtain ⟨vs, hvs, hscoped⟩ := elaborate_scoped hload
  have hcodes : borrowingProgram.validate?.map (List.map (·.code)) =
      some [some .unboundScope, some .foreignForward] := rfl
  rw [hvs] at hcodes
  exact ⟨hload, vs, hvs, hscoped, Option.some.inj hcodes⟩

end Program

end Reactors
