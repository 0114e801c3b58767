import Reactors.Proofs.Model.Acceptance

/-! # Closed programs

    A program is made by edits, or loaded from a model and edited further.  Whatever edits there
    were, elements are at the places of their identities and nodes are linked.  If besides all
    identities that are stored are in range the program is closed: every look-up that starts from it
    ends.  A loaded program is closed without further ado.
-/

namespace Reactors.Program

variable {p p' : Program}

/-! ## Closed programs -/

/-- All stored identities have their elements, elements are at their places, and nodes are
    linked. -/
structure Closed (p : Program) : Prop where
  catalog : p.catalog.Closed
  assembly : p.assembly.Linked
  /-- Instances are of reactors that are there. -/
  reactor : ∀ {i n}, p.assembly.node? i = some n → p.catalog.HasReactor n.reactor
  /-- Assignments set parameters that are there. -/
  target : ∀ {i n}, p.assembly.node? i = some n → ∀ x ∈ n.assignments,
    p.catalog.HasParameter x.target
  /-- They refer to parameters that are there. -/
  values : ∀ {i n}, p.assembly.node? i = some n → ∀ x ∈ n.assignments, ∀ v ∈ x.values,
    p.catalog.Knows v

theorem closed_of_loaded (h : Model.Loaded p) : p.Closed where
  catalog := h.catalog
  assembly := h.assembly.toLinked
  reactor := h.assembly.reactor
  target := by
    intro i n hn x hx
    obtain ⟨q, hq, _⟩ := (h.assembly.assignments hn x hx).target
    exact Catalog.hasParameter_of_some hq
  values := fun hn x hx => (h.assembly.assignments hn x hx).values

/-- Options have no part in it. -/
theorem Closed.withOptions (h : p.Closed) (o : Options) : { p with options := o }.Closed :=
  ⟨h.catalog, h.assembly, h.reactor, h.target, h.values⟩

/-! ## Made programs -/

/-- A program as it may come about: from nothing or from a model, by any edits. -/
inductive Made : Program → Prop where
  | empty : Made {}
  | load {m : Model} {p : Program} (h : m.elaborate = some (.ok p)) : Made p
  | edit {p p' : Program} (hp : Made p) (e : Edit) (h : p.edit? e = some p') : Made p'
  | options {p : Program} (hp : Made p) (o : Options) : Made { p with options := o }

/-- All identities that a program stores are in range, save the links between nodes. -/
structure InRange (p : Program) : Prop where
  super : ∀ {r d}, p.catalog.reactor? r = some d → ∀ s ∈ d.supers, p.catalog.HasReactor s
  param : ∀ {r d}, p.catalog.reactor? r = some d → ∀ q ∈ d.params, p.catalog.HasParameter q
  owner : ∀ {q x}, p.catalog.parameter? q = some x → p.catalog.HasReactor x.owner
  default : ∀ {q x}, p.catalog.parameter? q = some x → ∀ v ∈ x.default, p.catalog.Knows v
  reactor : ∀ {i n}, p.assembly.node? i = some n → p.catalog.HasReactor n.reactor
  target : ∀ {i n}, p.assembly.node? i = some n → ∀ x ∈ n.assignments,
    p.catalog.HasParameter x.target
  values : ∀ {i n}, p.assembly.node? i = some n → ∀ x ∈ n.assignments, ∀ v ∈ x.values,
    p.catalog.Knows v

/-- No edit, in range or not, moves an element from its place or leaves nodes that do not agree. -/
theorem placed_edit (hc : p.catalog.Placed) (ha : p.assembly.Linked) {e : Edit}
    (h : p.edit? e = some p') : p'.catalog.Placed ∧ p'.assembly.Linked := by
  cases e with
  | declare name span =>
    cases h
    exact ⟨hc.declare name span, ha⟩
  | extend r super =>
    obtain ⟨c, hc', h⟩ := Option.bind_eq_some_iff.mp h
    cases h
    exact ⟨hc.extend hc', ha⟩
  | addParameter r name typeText default span =>
    obtain ⟨c, hc', h⟩ := Option.bind_eq_some_iff.mp h
    cases h
    exact ⟨hc.addParameter hc', ha⟩
  | setDefault q default =>
    obtain ⟨c, hc', h⟩ := Option.bind_eq_some_iff.mp h
    cases h
    exact ⟨hc.setDefault hc', ha⟩
  | addRoot name r span =>
    cases h
    exact ⟨hc, ha.push name r [] span⟩
  | addChild parent name r assignments span =>
    obtain ⟨a, ha', h⟩ := Option.bind_eq_some_iff.mp h
    cases h
    exact ⟨hc, ha.addChild ha'⟩
  | assign i x =>
    obtain ⟨a, ha', h⟩ := Option.bind_eq_some_iff.mp h
    cases h
    exact ⟨hc, ha.assign ha'⟩

theorem Made.placed (h : p.Made) : p.catalog.Placed ∧ p.assembly.Linked := by
  -- on how the program was made
  induction h with
  | empty => exact ⟨Catalog.placed_empty, Assembly.linked_empty⟩
  | load h =>
    obtain ⟨hp, _⟩ := Model.loaded_of_elaborate h
    exact ⟨hp.catalog.toPlaced, hp.assembly.toLinked⟩
  | edit _ e h ih => exact placed_edit ih.1 ih.2 h
  | options _ _ ih => exact ih

/-- However a program was made, it is closed if the identities in it are in range. -/
theorem Made.closed (h : p.Made) (hr : p.InRange) : p.Closed where
  catalog :=
    { toPlaced := h.placed.1, super := hr.super, param := hr.param, owner := hr.owner,
      default := hr.default }
  assembly := h.placed.2
  reactor := hr.reactor
  target := hr.target
  values := hr.values

theorem Closed.inRange (h : p.Closed) : p.InRange where
  super := h.catalog.super
  param := h.catalog.param
  owner := h.catalog.owner
  default := h.catalog.default
  reactor := h.reactor
  target := h.target
  values := h.values

end Reactors.Program
