import Mathlib.Data.List.Count
import Reactors.Proofs.Assembly.Linked

/-! # Nodes in order of creation

    A new node stands behind all others, and in the list of its parent too.  So where nodes are added
    one by one, each inside a node that is there, parents are older than their children and children
    are listed in order of creation.
-/

namespace Reactors.Assembly

variable {a a' : Assembly}

/-! ## Nodes in order -/

/-- Linked nodes of which no parent is younger than its children, and whose children are listed in
    order of creation. -/
structure Ordered (a : Assembly) : Prop extends Linked a where
  older : ∀ {i n p}, a.node? i = some n → n.parent = some p → p.index < i.index
  ascending : ∀ {i n}, a.node? i = some n → n.children.Pairwise fun j k => j.index < k.index

theorem Ordered.layered (ha : a.Ordered) : a.Layered := ⟨ha.toLinked, ha.older⟩

theorem ordered_empty : ({} : Assembly).Ordered where
  toLinked := linked_empty
  older h := by simp [node?] at h
  ascending h := by simp [node?] at h

theorem Ordered.push (ha : a.Ordered) (name : String) (reactor : ReactorId)
    (assignments : List Assignment) (span : Span) :
    (a.push name reactor none assignments span).Ordered := by
  have hcases : ∀ {i n}, (a.push name reactor none assignments span).node? i = some n →
      (n.parent = none ∧ n.children = []) ∨ a.node? i = some n := by
    intro i n h
    rw [node?_push] at h
    split at h
    · cases h
      exact .inl ⟨rfl, rfl⟩
    · exact .inr h
  refine ⟨ha.toLinked.push name reactor assignments span, ?_, ?_⟩
  · intro i n p h hp
    rcases hcases h with ⟨hnone, _⟩ | h
    · simp [hnone] at hp
    · exact ha.older h hp
  · intro i n h
    rcases hcases h with ⟨_, hnil⟩ | h
    · simp [hnil]
    · exact ha.ascending h

section addChild
variable {parent : NodeId} {name : String} {reactor : ReactorId} {assignments : List Assignment}
  {span : Span}

/-- The new child is younger than its parent and than all children there are. -/
theorem Ordered.addChild (ha : a.Ordered) (hparent : a.HasNode parent)
    (h : a.addChild? parent name reactor assignments span = some a') : a'.Ordered := by
  refine ⟨ha.toLinked.addChild h, ?_, ?_⟩
  · intro i n' p hn' hp
    rcases addChild_cases h hn' with ⟨rfl, rfl⟩ | ⟨n, hn, rfl⟩
    · cases hp
      exact hparent
    · exact ha.older hn hp
  · intro i n' hn'
    rcases addChild_cases h hn' with ⟨rfl, rfl⟩ | ⟨n, hn, rfl⟩
    · by_cases hp : a.nextNode = parent <;> simp [hp]
    · have hasc := ha.ascending hn
      by_cases hp : i = parent
      · simp only [hp, if_true, List.pairwise_append, List.pairwise_singleton, true_and,
          List.mem_singleton]
        refine ⟨hasc, ?_⟩
        rintro j hj _ rfl
        obtain ⟨m, hm, _⟩ := ha.child hn hj
        exact hasNode_of_some hm
      · simpa [hp] using hasc

end addChild

theorem Ordered.assign (ha : a.Ordered) {i : NodeId} {x : Assignment}
    (h : a.assign? i x = some a') : a'.Ordered := by
  have hcases : ∀ {j n'}, a'.node? j = some n' → ∃ n, a.node? j = some n ∧
      n'.parent = n.parent ∧ n'.children = n.children := by
    intro j n' hn'
    rw [node?_modifyNode h] at hn'
    split at hn'
    · obtain ⟨n, hn, rfl⟩ := Option.map_eq_some_iff.mp hn'
      exact ⟨n, hn, rfl, rfl⟩
    · exact ⟨n', hn', rfl, rfl⟩
  refine ⟨ha.toLinked.assign h, ?_, ?_⟩
  · intro j n' p hn' hp
    obtain ⟨n, hn, hpar, _⟩ := hcases hn'
    exact ha.older hn (hpar ▸ hp)
  · intro j n' hn'
    obtain ⟨n, hn, _, hch⟩ := hcases hn'
    exact hch ▸ ha.ascending hn

/-- A node lists another once if it is the parent of that, and not at all otherwise. -/
theorem Linked.count_children (ha : a.Linked) {i : NodeId} {n : Node} (hn : a.node? i = some n)
    (j : NodeId) :
    n.children.count j = if (a.node? j).bind (·.parent) = some i then 1 else 0 := by
  by_cases hj : (a.node? j).bind (·.parent) = some i
  · rw [if_pos hj]
    obtain ⟨m, hm, hpar⟩ := Option.bind_eq_some_iff.mp hj
    obtain ⟨n', hn', hmem⟩ := ha.parent hm hpar
    rw [hn] at hn'
    cases hn'
    exact List.count_eq_one_of_mem (ha.nodup hn) hmem
  · rw [if_neg hj]
    apply List.count_eq_zero_of_not_mem
    intro hmem
    obtain ⟨m, hm, hpar⟩ := ha.child hn hmem
    exact hj (Option.bind_eq_some_iff.mpr ⟨m, hm, hpar⟩)

/-! ## Assemblies built node by node -/

/-- An assembly that is built from nothing, one node after the other, each a root or inside a node
    that is there.  Nodes may be given assignments in between. -/
inductive Planted : Assembly → Prop
  | nothing : Planted {}
  | root {a : Assembly} (ha : Planted a) (name : String) (reactor : ReactorId) (span : Span) :
    Planted (a.addRoot name reactor span)
  | child {a a' : Assembly} (ha : Planted a) {parent : NodeId} (hparent : a.HasNode parent)
      {name : String} {reactor : ReactorId} {assignments : List Assignment} {span : Span}
      (h : a.addChild? parent name reactor assignments span = some a') : Planted a'
  | assign {a a' : Assembly} (ha : Planted a) {i : NodeId} {x : Assignment}
      (h : a.assign? i x = some a') : Planted a'

theorem Planted.ordered (ha : a.Planted) : a.Ordered := by
  -- on how the assembly was built
  induction ha with
  | nothing => exact ordered_empty
  | root _ name reactor span ih => exact ih.push name reactor [] span
  | child _ hparent h ih => exact ih.addChild hparent h
  | assign _ h ih => exact ih.assign h

end Reactors.Assembly
