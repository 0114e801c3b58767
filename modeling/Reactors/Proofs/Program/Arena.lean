import Mathlib.Data.List.Count
import Reactors.Proofs.Assembly.Ordered
import Reactors.Proofs.Program.Built

/-! # What built programs agree on

    A program stores many things twice.  A node knows its parent, which lists it as a child; a
    parameter knows its owner, which lists it as its own; an identity is stored in the element and
    is its place; and a name leads to a reactor that stores it.  The edits change these one by one,
    and each of them leaves all of them in agreement.

    New elements stand behind all others.  So parents are older than their children, and what a node
    or a reactor lists stands in order of creation.
-/

namespace Reactors

/-! ## Parameters of their reactors -/

namespace Catalog

variable {c c' : Catalog}

/-- A catalog in which a reactor lists exactly the parameters that it owns, in order of creation. -/
structure Owned (c : Catalog) : Prop extends Placed c where
  /-- The owner of a parameter is there and lists it. -/
  listed : ∀ {q x}, c.parameter? q = some x → c.HasReactor x.owner ∧ q ∈ c.own x.owner
  /-- What a reactor lists is its own. -/
  owner : ∀ {r q}, q ∈ c.own r → ∃ x, c.parameter? q = some x ∧ x.owner = r
  ascending : ∀ r, (c.own r).Pairwise fun q s => q.index < s.index

theorem owned_empty : ({} : Catalog).Owned where
  toPlaced := placed_empty
  listed h := by simp [parameter?] at h
  owner h := by simp [own, reactor?] at h
  ascending r := by simp [own, reactor?]

/-- Where no reactor lists others than it did and the parameters are owned by the same reactors,
    nothing has changed. -/
theorem Owned.congr (hc : c.Owned) (hplaced : c'.Placed)
    (hsize : c.reactors.size ≤ c'.reactors.size) (hown : ∀ r, c'.own r = c.own r)
    (howner : ∀ q, (c'.parameter? q).map (·.owner) = (c.parameter? q).map (·.owner)) :
    c'.Owned where
  toPlaced := hplaced
  listed := by
    intro q x' hx'
    have h := howner q
    rw [hx'] at h
    obtain ⟨x, hx, (hxo : x.owner = x'.owner)⟩ := Option.map_eq_some_iff.mp h.symm
    obtain ⟨hr, hmem⟩ := hc.listed hx
    rw [← hxo, hown]
    exact ⟨hr.mono hsize, hmem⟩
  owner := by
    intro r q hq
    obtain ⟨x, hx, hxo⟩ := hc.owner (hown r ▸ hq)
    have h := howner q
    rw [hx] at h
    obtain ⟨x', hx', hxo'⟩ := Option.map_eq_some_iff.mp h
    exact ⟨x', hx', hxo'.trans hxo⟩
  ascending := by
    intro r
    rw [hown]
    exact hc.ascending r

theorem Owned.declare (hc : c.Owned) (name : String) (span : Span) :
    (c.declare name span).Owned := by
  refine hc.congr (hc.toPlaced.declare name span) (by simp) ?_ fun _ => rfl
  intro r
  rw [own_declare]
  split
  · -- an identity that had no reactor declared nothing
    next hr =>
    have hnone : c.reactor? r = none := by
      subst hr
      exact Array.getElem?_eq_none (Nat.le_refl _)
    simp [own, hnone]
  · rfl

theorem Owned.extend (hc : c.Owned) {r s : ReactorId} (h : c.extend? r s = some c') :
    c'.Owned := by
  refine hc.congr (hc.toPlaced.extend h) (Nat.le_of_eq (size_extend h).symm) (own_extend h) ?_
  intro q
  rw [parameter?, parameters_extend h, parameter?]

theorem Owned.setDefault (hc : c.Owned) {q : ParamId} {default : List Value}
    (h : c.setDefault? q default = some c') : c'.Owned := by
  have hsize := Nat.le_of_eq (congrArg Array.size (reactors_setDefault h).symm)
  refine hc.congr (hc.toPlaced.setDefault h) hsize (own_setDefault h) ?_
  intro x
  rw [parameter?_setDefault h]
  split
  · simp [Option.map_map, Function.comp_def]
  · rfl

/-- The new parameter stands behind all others, in the list of its owner as well. -/
theorem Owned.addParameter (hc : c.Owned) {r : ReactorId} {name : String}
    {typeText : Option String} {default : List Value} {span : Span}
    (h : c.addParameter? r name typeText default span = some c') : c'.Owned := by
  have hsize := Nat.le_of_eq (size_addParameter h).symm
  have hne : ∀ {q}, c.HasParameter q → q ≠ c.nextParameter := by
    rintro q hq rfl
    exact Nat.lt_irrefl _ hq
  have hlisted : ∀ {q s}, q ∈ c.own s → c.HasParameter q := by
    intro q s hq
    obtain ⟨x, hx, _⟩ := hc.owner hq
    exact hasParameter_of_some hx
  have hmem : ∀ {q s}, q ∈ c'.own s ↔ q ∈ c.own s ∨ (s = r ∧ q = c.nextParameter) := by
    intro q s
    rw [own_addParameter h]
    by_cases hs : s = r <;> simp [hs]
  refine ⟨hc.toPlaced.addParameter h, ?_, ?_, ?_⟩
  · intro q x hx
    rw [parameter?_addParameter h] at hx
    split at hx
    · next hq =>
      cases hx
      exact ⟨(hasReactor_of_addParameter h).mono hsize, hmem.mpr (.inr ⟨rfl, hq⟩)⟩
    · obtain ⟨hr, hq⟩ := hc.listed hx
      exact ⟨hr.mono hsize, hmem.mpr (.inl hq)⟩
  · intro s q hq
    rw [parameter?_addParameter h]
    rcases hmem.mp hq with hq | ⟨rfl, rfl⟩
    · rw [if_neg (hne (hlisted hq))]
      exact hc.owner hq
    · exact ⟨_, if_pos rfl, rfl⟩
  · intro s
    have hasc := hc.ascending s
    rw [own_addParameter h]
    split
    · simp only [List.pairwise_append, List.pairwise_singleton, true_and, List.mem_singleton]
      refine ⟨hasc, ?_⟩
      rintro q hq _ rfl
      exact hlisted hq
    · exact hasc

theorem Owned.mem_own_iff (hc : c.Owned) {r : ReactorId} {q : ParamId} :
    q ∈ c.own r ↔ ∃ x, c.parameter? q = some x ∧ x.owner = r := by
  constructor
  · exact hc.owner
  · rintro ⟨x, hx, rfl⟩
    exact (hc.listed hx).2

theorem Owned.nodup_own (hc : c.Owned) (r : ReactorId) : (c.own r).Nodup := by
  apply (hc.ascending r).imp
  rintro q _ hlt rfl
  exact Nat.lt_irrefl _ hlt

/-- A reactor lists a parameter once if it owns it, and not at all otherwise. -/
theorem Owned.count_own (hc : c.Owned) (r : ReactorId) (q : ParamId) :
    (c.own r).count q = if (c.parameter? q).map (·.owner) = some r then 1 else 0 := by
  by_cases hq : (c.parameter? q).map (·.owner) = some r
  · rw [if_pos hq]
    obtain ⟨x, hx, rfl⟩ := Option.map_eq_some_iff.mp hq
    exact List.count_eq_one_of_mem (hc.nodup_own x.owner) (hc.listed hx).2
  · rw [if_neg hq]
    apply List.count_eq_zero_of_not_mem
    intro hmem
    obtain ⟨x, hx, hxo⟩ := hc.owner hmem
    exact hq (by rw [hx, Option.map_some, hxo])

/-! ## Names -/

/-- The place `k` is the last one of `a` in a list. -/
def LastAt (xs : List String) (a : String) (k : Nat) : Prop :=
  xs[k]? = some a ∧ ∀ j, k < j → xs[j]? ≠ some a

theorem lastAt_concat {xs : List String} {a b : String} {k : Nat} :
    LastAt (xs ++ [b]) a k ↔ if b = a then k = xs.length else LastAt xs a k := by
  unfold LastAt
  grind

/-- Where each reactor has its place as its identity, the one that is found by name from behind is
    at the last place of the name. -/
theorem find?_reverse_iff {ds : List Reactor}
    (hid : ∀ (k : Nat) (d : Reactor), ds[k]? = some d → d.id = ⟨k⟩) {a : String} {r : ReactorId} :
    (ds.reverse.find? fun d => d.name == a).map (·.id) = some r ↔
      LastAt (ds.map (·.name)) a r.index := by
  -- on the reactors from the last one on
  induction ds using List.reverseRecOn with
  | nil => simp [LastAt]
  | append_singleton ds d ih =>
    have hd : d.id = ⟨ds.length⟩ := hid ds.length d (by simp)
    have hrest := ih fun k e he => hid k e (by
      rw [List.getElem?_append_left (List.getElem?_eq_some_iff.mp he).1, he])
    rw [List.reverse_append, List.map_append, List.map_singleton, lastAt_concat]
    by_cases h : d.name = a
    · have hplace : (⟨ds.length⟩ : ReactorId) = r ↔ r.index = ds.length := by
        cases r
        simp [eq_comm]
      simp [h, hd, hplace]
    · simpa [h] using hrest

/-- A name leads to the reactor at its last place. -/
theorem Placed.named?_iff (hc : c.Placed) {a : String} {r : ReactorId} :
    (c.named? a).map (·.id) = some r ↔ LastAt c.names a r.index := by
  apply find?_reverse_iff
  intro k d hd
  rw [Array.getElem?_toList] at hd
  exact hc.reactor_id (show c.reactor? ⟨k⟩ = some d from hd)

end Catalog

/-! ## Histories -/

namespace Program

variable {p p' : Program} {e : Edit} {es : List Edit}

/-- The name that an edit declares a reactor under. -/
def Edit.declared? : Edit → Option String
  | .declare name _ => some name
  | _ => none

/-- The names that a history declares reactors under, in order. -/
def declared (es : List Edit) : List String := es.filterMap Edit.declared?

/-- Everything that is stored twice in a program built by a history agrees. -/
structure Arena (es : List Edit) (p : Program) : Prop where
  /-- The identity of a node is its place. -/
  node_id : ∀ {i n}, p.assembly.node? i = some n → n.id = i
  /-- A parent has a smaller identity than its children. -/
  older : ∀ {i n j}, p.assembly.node? i = some n → n.parent = some j → j.index < i.index
  /-- A node lists another once if it is its parent, and not at all otherwise. -/
  children : ∀ {i n}, p.assembly.node? i = some n → ∀ j,
    n.children.count j = if (p.assembly.node? j).bind (·.parent) = some i then 1 else 0
  /-- Lists of children are strictly increasing. -/
  children_ascending : ∀ {i n}, p.assembly.node? i = some n →
    n.children.Pairwise fun j k => j.index < k.index
  /-- The identity of a reactor is its place. -/
  reactor_id : ∀ {r d}, p.catalog.reactor? r = some d → d.id = r
  /-- The identity of a parameter is its place. -/
  parameter_id : ∀ {q x}, p.catalog.parameter? q = some x → x.id = q
  /-- The owner of a parameter is there. -/
  owner : ∀ {q x}, p.catalog.parameter? q = some x → ∃ d, p.catalog.reactor? x.owner = some d
  /-- A reactor lists a parameter once if it owns it, and not at all otherwise. -/
  params : ∀ {r d}, p.catalog.reactor? r = some d → ∀ q,
    d.params.count q = if (p.catalog.parameter? q).map (·.owner) = some r then 1 else 0
  /-- Lists of parameters are strictly increasing. -/
  params_ascending : ∀ {r d}, p.catalog.reactor? r = some d →
    d.params.Pairwise fun q s => q.index < s.index
  /-- The reactors have the names that were declared, in that order. -/
  names : p.catalog.names = declared es
  /-- A name leads to the reactor that was declared last under it. -/
  named : ∀ a r, (p.catalog.named? a).map (·.id) = some r ↔
    Catalog.LastAt (declared es) a r.index

/-- An edit leaves the nodes in order and the parameters with their reactors. -/
theorem ordered_edit (ha : p.assembly.Ordered) (hc : p.catalog.Owned) (hr : e.InRange p)
    (h : p.edit? e = some p') : p'.assembly.Ordered ∧ p'.catalog.Owned := by
  cases step_of_edit h with
  | declare name span => exact ⟨ha, hc.declare name span⟩
  | extend hc' => exact ⟨ha, hc.extend hc'⟩
  | addParameter hc' => exact ⟨ha, hc.addParameter hc'⟩
  | setDefault hc' => exact ⟨ha, hc.setDefault hc'⟩
  | addRoot name r span => exact ⟨ha.push name r [] span, hc⟩
  | addChild ha' => exact ⟨ha.addChild hr.1 ha', hc⟩
  | assign ha' => exact ⟨ha.assign ha', hc⟩

/-- An edit that declares a reactor adds its name, and the others leave the names as they are. -/
theorem names_edit (h : p.edit? e = some p') :
    p'.catalog.names = p.catalog.names ++ e.declared?.toList := by
  cases step_of_edit h with
  | declare name span => exact Catalog.names_declare name span
  | extend hc => simpa [Edit.declared?] using Catalog.names_extend hc
  | addParameter hc => simpa [Edit.declared?] using Catalog.names_addParameter hc
  | setDefault hc => simpa [Edit.declared?] using Catalog.names_setDefault hc
  | addRoot name r span => simp [Edit.declared?]
  | addChild ha => simp [Edit.declared?]
  | assign ha => simp [Edit.declared?]

theorem Built.ordered (h : Built es p) : p.assembly.Ordered ∧ p.catalog.Owned := by
  -- on the history
  induction h with
  | nothing => exact ⟨Assembly.ordered_empty, Catalog.owned_empty⟩
  | edit _ hr h ih => exact ordered_edit ih.1 ih.2 hr h

theorem declared_concat (es : List Edit) (e : Edit) :
    declared (es ++ [e]) = declared es ++ e.declared?.toList := by
  cases h : e.declared? <;> simp [declared, h]

theorem Built.names (h : Built es p) : p.catalog.names = declared es := by
  induction h with
  | nothing => rfl
  | edit _ _ h ih => rw [names_edit h, ih, declared_concat]

/-- A built program agrees with itself and with its history. -/
theorem Built.arena (h : Built es p) : p.Arena es := by
  obtain ⟨ha, hc⟩ := h.ordered
  refine
    { node_id := ha.id
      older := ha.older
      children := fun hn j => ha.count_children hn j
      children_ascending := ha.ascending
      reactor_id := hc.reactor_id
      parameter_id := hc.parameter_id
      owner := fun hx => Catalog.hasReactor_iff.mp (hc.listed hx).1
      params := ?_
      params_ascending := ?_
      names := h.names
      named := fun a r => h.names ▸ hc.named?_iff }
  · intro r d hd q
    rw [← Catalog.own_of_some hd]
    exact hc.count_own r q
  · intro r d hd
    rw [← Catalog.own_of_some hd]
    exact hc.ascending r

end Program

end Reactors
