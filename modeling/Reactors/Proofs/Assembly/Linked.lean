import Mathlib.Data.List.Nodup
import Reactors.Assembly.Basic

/-! # Linked nodes

    In an assembly that was built step by step, parents and children agree: a node has its parent
    listed as the one that contains it, and every node that lists a child is the parent of that
    child.  So a node is contained in one node at most, and in none of its own inside.
-/

namespace Reactors.Assembly

variable {a a' : Assembly}

/-! ## Nodes -/

/-- There is a node with this identity. -/
def HasNode (a : Assembly) (i : NodeId) : Prop := i.index < a.nodes.size

theorem hasNode_iff {i : NodeId} : a.HasNode i ↔ ∃ n, a.node? i = some n := by
  constructor
  · intro h
    exact ⟨_, Array.getElem?_eq_getElem h⟩
  · intro ⟨_, h⟩
    exact (Array.getElem?_eq_some_iff.mp h).1

theorem hasNode_of_some {i : NodeId} {n : Node} (h : a.node? i = some n) : a.HasNode i :=
  hasNode_iff.mpr ⟨n, h⟩

theorem HasNode.mono (h : a.nodes.size ≤ a'.nodes.size) {i : NodeId} (hi : a.HasNode i) :
    a'.HasNode i :=
  Nat.lt_of_lt_of_le hi h

theorem not_hasNode_nextNode : ¬ a.HasNode a.nextNode := Nat.lt_irrefl _

theorem ne_nextNode {i : NodeId} (hi : a.HasNode i) : i ≠ a.nextNode := by
  intro hi
  subst hi
  exact not_hasNode_nextNode hi

/-! ## Edits -/

section modify
variable {i : NodeId} {f : Node → Node}

theorem exists_modifyNode (h : a.HasNode i) : ∃ a', a.modifyNode? i f = some a' := by
  unfold HasNode at h
  simp [modifyNode?, h]

theorem size_modifyNode (h : a.modifyNode? i f = some a') : a'.nodes.size = a.nodes.size := by
  unfold modifyNode? at h
  split at h
  · cases h
    simp
  · contradiction

theorem hasNode_of_modifyNode (h : a.modifyNode? i f = some a') : a.HasNode i := by
  unfold modifyNode? at h
  split at h
  · assumption
  · contradiction

theorem node?_modifyNode (h : a.modifyNode? i f = some a') (j : NodeId) :
    a'.node? j = if j = i then (a.node? j).map f else a.node? j := by
  unfold modifyNode? at h
  split at h
  · cases h
    unfold node?
    rw [Array.getElem?_modify]
    by_cases hj : j = i
    · simp [hj]
    · have hne : i.index ≠ j.index := fun e => hj (by cases i; cases j; simp_all)
      simp [hj, hne]
  · contradiction

end modify

section push
variable (a) (name : String) (reactor : ReactorId) (parent : Option NodeId)
  (assignments : List Assignment) (span : Span)

@[simp] theorem size_push :
    (a.push name reactor parent assignments span).nodes.size = a.nodes.size + 1 := by
  simp [push]

theorem node?_push (i : NodeId) :
    (a.push name reactor parent assignments span).node? i =
      if i = a.nextNode then
        some { id := a.nextNode, name, reactor, parent, children := [], assignments, span }
      else a.node? i := by
  unfold node? push
  rw [Array.getElem?_push]
  by_cases h : i = a.nextNode
  · simp [h, nextNode]
  · have hne : i.index ≠ a.nodes.size := fun e => h (by cases i; simp_all [nextNode])
    simp [h, hne]

end push

section addChild
variable {parent : NodeId} {name : String} {reactor : ReactorId}
  {assignments : List Assignment} {span : Span}

theorem exists_addChild (h : a.HasNode parent) :
    ∃ a', a.addChild? parent name reactor assignments span = some a' :=
  exists_modifyNode (h.mono (by rw [size_push]; exact Nat.le_succ _))

theorem size_addChild (h : a.addChild? parent name reactor assignments span = some a') :
    a'.nodes.size = a.nodes.size + 1 := by
  rw [size_modifyNode h, size_push]

/-- Adding a child gives a new node, and lists it in its parent. -/
theorem node?_addChild (h : a.addChild? parent name reactor assignments span = some a')
    (i : NodeId) :
    a'.node? i = (if i = a.nextNode then
        some { id := a.nextNode, name, reactor, parent := some parent, children := [],
               assignments, span }
      else a.node? i).map fun n =>
        if i = parent then { n with children := n.children ++ [a.nextNode] } else n := by
  rw [node?_modifyNode h, node?_push]
  by_cases hi : i = parent
  · simp only [hi, if_true]
  · simp [hi]

end addChild

/-! ## Linked nodes -/

/-- Every node has its place as its identity, and parents and children agree. -/
structure Linked (a : Assembly) : Prop where
  /-- The identity of a node is its place. -/
  id : ∀ {i n}, a.node? i = some n → n.id = i
  /-- A parent lists the node as a child. -/
  parent : ∀ {i n p}, a.node? i = some n → n.parent = some p →
    ∃ m, a.node? p = some m ∧ i ∈ m.children
  /-- A child has the node as its parent. -/
  child : ∀ {i n j}, a.node? i = some n → j ∈ n.children →
    ∃ m, a.node? j = some m ∧ m.parent = some i
  /-- No child is listed twice. -/
  nodup : ∀ {i n}, a.node? i = some n → n.children.Nodup

/-- A node is found by its identity. -/
theorem Linked.node?_of_mem (ha : a.Linked) {n : Node} (hn : n ∈ a.nodes.toList) :
    a.node? n.id = some n := by
  obtain ⟨k, hk, rfl⟩ := Array.mem_iff_getElem.mp (Array.mem_toList_iff.mp hn)
  have hat : a.node? ⟨k⟩ = some a.nodes[k] := Array.getElem?_eq_getElem hk
  rw [ha.id hat, hat]

theorem linked_empty : ({} : Assembly).Linked where
  id h := by simp [node?] at h
  parent h := by simp [node?] at h
  child h := by simp [node?] at h
  nodup h := by simp [node?] at h

theorem Linked.push (ha : a.Linked) (name : String) (reactor : ReactorId)
    (assignments : List Assignment) (span : Span) :
    (a.push name reactor none assignments span).Linked := by
  -- the new node is not linked to any other
  have hcases : ∀ {i n}, (a.push name reactor none assignments span).node? i = some n →
      (n.id = i ∧ n.parent = none ∧ n.children = []) ∨ a.node? i = some n := by
    intro i n h
    rw [node?_push] at h
    split at h
    · next hi => cases h; exact .inl ⟨hi.symm, rfl, rfl⟩
    · exact .inr h
  have hold : ∀ {i n}, a.node? i = some n →
      (a.push name reactor none assignments span).node? i = some n := by
    intro i n h
    rw [node?_push, if_neg (ne_nextNode (hasNode_of_some h)), h]
  constructor
  · intro i n h
    rcases hcases h with ⟨hid, _, _⟩ | h
    · exact hid
    · exact ha.id h
  · intro i n p h hp
    rcases hcases h with ⟨_, hnone, _⟩ | h
    · simp [hnone] at hp
    · obtain ⟨m, hm, hi⟩ := ha.parent h hp
      exact ⟨m, hold hm, hi⟩
  · intro i n j h hj
    rcases hcases h with ⟨_, _, hnil⟩ | h
    · simp [hnil] at hj
    · obtain ⟨m, hm, hmp⟩ := ha.child h hj
      exact ⟨m, hold hm, hmp⟩
  · intro i n h
    rcases hcases h with ⟨_, _, hnil⟩ | h
    · simp [hnil]
    · exact ha.nodup h

/-- What an added child changes: the new node is there, and the old ones keep everything but that
    the parent lists the new one. -/
theorem addChild_cases {parent : NodeId} {name : String} {reactor : ReactorId}
    {assignments : List Assignment} {span : Span}
    (h : a.addChild? parent name reactor assignments span = some a') {i : NodeId} {n' : Node}
    (hn' : a'.node? i = some n') :
    (i = a.nextNode ∧ n' =
        { id := a.nextNode, name, reactor, parent := some parent,
          children := if a.nextNode = parent then [a.nextNode] else [], assignments, span }) ∨
      ∃ n, a.node? i = some n ∧ n' =
        { n with children := if i = parent then n.children ++ [a.nextNode] else n.children } := by
  rw [node?_addChild h] at hn'
  obtain ⟨n, hn, rfl⟩ := Option.map_eq_some_iff.mp hn'
  by_cases hi : i = a.nextNode
  · rw [if_pos hi] at hn
    cases hn
    refine .inl ⟨hi, ?_⟩
    subst hi
    by_cases hp : a.nextNode = parent <;> simp [hp]
  · rw [if_neg hi] at hn
    refine .inr ⟨n, hn, ?_⟩
    by_cases hp : i = parent <;> simp [hp]

section addChild
variable {parent : NodeId} {name : String} {reactor : ReactorId} {assignments : List Assignment}
  {span : Span} (h : a.addChild? parent name reactor assignments span = some a')
include h

theorem exists_addedChild : ∃ n, a'.node? a.nextNode = some n ∧ n.parent = some parent := by
  rw [node?_addChild h]
  by_cases hp : a.nextNode = parent <;> simp [hp]

/-- An old node keeps its parent and its children. -/
theorem kept_addChild {i : NodeId} {n : Node} (hn : a.node? i = some n) :
    ∃ n', a'.node? i = some n' ∧ n'.parent = n.parent ∧ n.children ⊆ n'.children := by
  rw [node?_addChild h, if_neg (ne_nextNode (hasNode_of_some hn)), hn]
  by_cases hp : i = parent <;> simp [hp]

theorem listed_addChild : ∃ m, a'.node? parent = some m ∧ a.nextNode ∈ m.children := by
  have hsize : a'.nodes.size = (a.push name reactor (some parent) assignments span).nodes.size :=
    size_modifyNode h
  obtain ⟨m, hm⟩ := hasNode_iff.mp ((hasNode_of_modifyNode h).mono (Nat.le_of_eq hsize.symm))
  refine ⟨m, hm, ?_⟩
  rcases addChild_cases h hm with ⟨hp, rfl⟩ | ⟨n, _, rfl⟩
  · simp [hp]
  · simp

/-- A child is the added one, or was there. -/
theorem mem_children_addChild {i j : NodeId} {n' : Node} (hn' : a'.node? i = some n')
    (hj : j ∈ n'.children) :
    (i = parent ∧ j = a.nextNode) ∨ ∃ n, a.node? i = some n ∧ j ∈ n.children := by
  rcases addChild_cases h hn' with ⟨hi, rfl⟩ | ⟨n, hn, rfl⟩
  · by_cases hp : a.nextNode = parent
    · exact .inl ⟨hi.trans hp, by simpa [hp] using hj⟩
    · simp [hp] at hj
  · by_cases hp : i = parent
    · simp only [hp, if_true] at hj
      rcases List.mem_append.mp hj with hj | hj
      · exact .inr ⟨n, hn, hj⟩
      · exact .inl ⟨hp, List.mem_singleton.mp hj⟩
    · simp only [hp, if_false] at hj
      exact .inr ⟨n, hn, hj⟩

theorem nodup_children_addChild (ha : a.Linked) {i : NodeId} {n' : Node}
    (hn' : a'.node? i = some n') : n'.children.Nodup := by
  rcases addChild_cases h hn' with ⟨_, rfl⟩ | ⟨n, hn, rfl⟩
  · by_cases hp : a.nextNode = parent <;> simp [hp]
  · have hnd := ha.nodup hn
    by_cases hp : i = parent
    · simp only [hp, if_true]
      -- the added child was not there, so it was not listed
      have hfree : a.nextNode ∉ n.children := by
        intro hmem
        obtain ⟨m, hm, _⟩ := ha.child hn hmem
        exact not_hasNode_nextNode (hasNode_of_some hm)
      rw [List.nodup_append_comm]
      exact List.nodup_cons.mpr ⟨hfree, hnd⟩
    · simpa [hp] using hnd

theorem Linked.addChild (ha : a.Linked) : a'.Linked := by
  constructor
  · intro i n' hn'
    rcases addChild_cases h hn' with ⟨rfl, rfl⟩ | ⟨n, hn, rfl⟩
    · rfl
    · have hid := ha.id hn
      exact hid
  · intro i n' p hn' hp
    rcases addChild_cases h hn' with ⟨rfl, rfl⟩ | ⟨n, hn, rfl⟩
    · cases hp
      exact listed_addChild h
    · obtain ⟨m, hm, hi⟩ := ha.parent hn hp
      obtain ⟨m', hm', _, hsub⟩ := kept_addChild h hm
      exact ⟨m', hm', hsub hi⟩
  · intro i n' j hn' hj
    rcases mem_children_addChild h hn' hj with ⟨rfl, rfl⟩ | ⟨n, hn, hj⟩
    · exact exists_addedChild h
    · obtain ⟨m, hm, hmp⟩ := ha.child hn hj
      obtain ⟨m', hm', hmp', _⟩ := kept_addChild h hm
      exact ⟨m', hm', hmp'.trans hmp⟩
  · intro i n' hn'
    exact nodup_children_addChild h ha hn'

end addChild

/-- An edit of the assignments of a node leaves the links as they are. -/
theorem Linked.assign (ha : a.Linked) {i : NodeId} {x : Assignment}
    (h : a.assign? i x = some a') : a'.Linked := by
  -- every node was there, with the same links
  have hcases : ∀ {j n'}, a'.node? j = some n' → ∃ n, a.node? j = some n ∧ n'.id = n.id ∧
      n'.parent = n.parent ∧ n'.children = n.children := by
    intro j n' hn'
    rw [node?_modifyNode h] at hn'
    split at hn'
    · obtain ⟨n, hn, rfl⟩ := Option.map_eq_some_iff.mp hn'
      exact ⟨n, hn, rfl, rfl, rfl⟩
    · exact ⟨n', hn', rfl, rfl, rfl⟩
  have hold : ∀ {j n}, a.node? j = some n → ∃ n', a'.node? j = some n' ∧ n'.parent = n.parent ∧
      n'.children = n.children := by
    intro j n hn
    rw [node?_modifyNode h, hn]
    by_cases hj : j = i <;> simp [hj]
  constructor
  · intro j n' hn'
    obtain ⟨n, hn, hid, _⟩ := hcases hn'
    rw [hid, ha.id hn]
  · intro j n' p hn' hp
    obtain ⟨n, hn, _, hpar, _⟩ := hcases hn'
    obtain ⟨m, hm, hj⟩ := ha.parent hn (hpar ▸ hp)
    obtain ⟨m', hm', _, hch⟩ := hold hm
    exact ⟨m', hm', hch ▸ hj⟩
  · intro j n' k hn' hk
    obtain ⟨n, hn, _, _, hch⟩ := hcases hn'
    obtain ⟨m, hm, hmp⟩ := ha.child hn (hch ▸ hk)
    obtain ⟨m', hm', hpar, _⟩ := hold hm
    exact ⟨m', hm', hpar.trans hmp⟩
  · intro j n' hn'
    obtain ⟨n, hn, _, _, hch⟩ := hcases hn'
    rw [hch]
    exact ha.nodup hn

/-! ## Layers -/

/-- Linked nodes of which every parent is older than its children. -/
structure Layered (a : Assembly) : Prop extends Linked a where
  older : ∀ {i n p}, a.node? i = some n → n.parent = some p → p.index < i.index

/-! ## Trees below one root -/

/-- An assembly with one root alone, below which all nodes are: parents are older than children. -/
structure Rooted (a : Assembly) : Prop extends Linked a where
  /-- Only the first node is a root. -/
  alone : ∀ {i n}, a.node? i = some n → n.parent = none → i = ⟨0⟩
  /-- A parent is older than its children. -/
  older : ∀ {i n p}, a.node? i = some n → n.parent = some p → p.index < i.index

theorem Rooted.layered (ha : a.Rooted) : a.Layered := ⟨ha.toLinked, ha.older⟩

theorem rooted_first (name : String) (reactor : ReactorId) (assignments : List Assignment)
    (span : Span) : (({} : Assembly).push name reactor none assignments span).Rooted := by
  have hcases : ∀ {i n}, (({} : Assembly).push name reactor none assignments span).node? i = some n →
      i = ⟨0⟩ ∧ n.parent = none := by
    intro i n h
    rw [node?_push] at h
    split at h
    · next hi => cases h; exact ⟨hi, rfl⟩
    · simp [node?] at h
  refine ⟨linked_empty.push name reactor assignments span, ?_, ?_⟩
  · intro i n h _
    exact (hcases h).1
  · intro i n p h hp
    simp [(hcases h).2] at hp

section grow
variable {parent : NodeId} {name : String} {reactor : ReactorId} {assignments : List Assignment}
  {span : Span}

theorem Rooted.addChild (ha : a.Rooted) (hparent : a.HasNode parent)
    (h : a.addChild? parent name reactor assignments span = some a') : a'.Rooted := by
  refine ⟨ha.toLinked.addChild h, ?_, ?_⟩
  · intro i n' hn' hnone
    rcases addChild_cases h hn' with ⟨rfl, rfl⟩ | ⟨n, hn, rfl⟩
    · simp at hnone
    · exact ha.alone hn hnone
  · intro i n' p hn' hp
    rcases addChild_cases h hn' with ⟨rfl, rfl⟩ | ⟨n, hn, rfl⟩
    · cases hp
      exact hparent
    · exact ha.older hn hp

/-! ## Growing assemblies -/

/-- More nodes inside the node `k`, of which only the list of children has changed among the nodes
    that were there. -/
structure Extended (a a' : Assembly) (k : NodeId) : Prop where
  size : a.nodes.size ≤ a'.nodes.size
  others : ∀ {i}, a.HasNode i → i ≠ k → a'.node? i = a.node? i
  node : ∀ {n}, a.node? k = some n →
    ∃ n', a'.node? k = some n' ∧ n'.name = n.name ∧ n'.reactor = n.reactor

namespace Extended

variable {a'' : Assembly} {i k : NodeId}

theorem refl (a : Assembly) (k : NodeId) : Extended a a k :=
  ⟨Nat.le_refl _, fun _ _ => rfl, fun hn => ⟨_, hn, rfl, rfl⟩⟩

theorem trans (h : Extended a a' k) (h' : Extended a' a'' k) : Extended a a'' k where
  size := Nat.le_trans h.size h'.size
  others hi hne := (h'.others (hi.mono h.size) hne).trans (h.others hi hne)
  node := by
    intro n hn
    obtain ⟨n', hn', hname, hreactor⟩ := h.node hn
    obtain ⟨n'', hn'', hname', hreactor'⟩ := h'.node hn'
    exact ⟨n'', hn'', hname'.trans hname, hreactor'.trans hreactor⟩

/-- What grows inside a new node does not show in the old ones. -/
theorem trans_inner (h : Extended a a' k) (hi : ¬ a.HasNode i) (h' : Extended a' a'' i) :
    Extended a a'' k where
  size := Nat.le_trans h.size h'.size
  others := by
    intro j hj hne
    have hji : j ≠ i := fun e => hi (e ▸ hj)
    rw [h'.others (hj.mono h.size) hji, h.others hj hne]
  node := by
    intro n hn
    have hki : k ≠ i := fun e => hi (e ▸ hasNode_of_some hn)
    obtain ⟨n', hn', hname, hreactor⟩ := h.node hn
    exact ⟨n', by rw [h'.others (hasNode_of_some hn') hki, hn'], hname, hreactor⟩

theorem nodeName (h : Extended a a' k) (hi : a.HasNode i) :
    (a'.node? i).map (·.name) = (a.node? i).map (·.name) := by
  by_cases hik : i = k
  · obtain ⟨n, hn⟩ := hasNode_iff.mp hi
    obtain ⟨n', hn', hname, _⟩ := h.node (hik ▸ hn)
    rw [hn, hik, hn', Option.map_some, Option.map_some, hname]
  · rw [h.others hi hik]

theorem addChild (hparent : a.HasNode parent)
    (h : a.addChild? parent name reactor assignments span = some a') :
    Extended a a' parent := by
  refine ⟨Nat.le_of_lt (size_addChild h ▸ Nat.lt_succ_self _), ?_, ?_⟩
  · intro i hi hne
    rw [node?_addChild h, if_neg (ne_nextNode hi)]
    simp [hne]
  · intro n hn
    rw [node?_addChild h, if_neg (ne_nextNode hparent), hn]
    simp

end Extended

/-! ## Names of children -/

/-- The children of a node; an identity without a node has none. -/
def inside (a : Assembly) (i : NodeId) : List NodeId :=
  match a.node? i with
  | some n => n.children
  | none => []

/-- The names of the children of a node. -/
def childNames (a : Assembly) (i : NodeId) : List String :=
  (a.inside i).filterMap fun j => (a.node? j).map (·.name)

theorem Linked.hasNode_inside (ha : a.Linked) {i j : NodeId} (h : j ∈ a.inside i) :
    a.HasNode j := by
  unfold inside at h
  split at h
  · next n hn =>
    obtain ⟨m, hm, _⟩ := ha.child hn h
    exact hasNode_of_some hm
  · simp at h

/-- Where the same children are listed, they have the same names. -/
theorem Extended.childNames_eq {i k : NodeId} (h : Extended a a' k) (ha : a.Linked)
    (hinside : a'.inside i = a.inside i) : a'.childNames i = a.childNames i := by
  unfold childNames
  rw [hinside]
  apply List.filterMap_congr
  intro j hj
  exact h.nodeName (ha.hasNode_inside hj)

theorem Extended.childNames_of_ne {i k : NodeId} (h : Extended a a' k) (ha : a.Linked)
    (hi : a.HasNode i) (hne : i ≠ k) : a'.childNames i = a.childNames i := by
  apply h.childNames_eq ha
  unfold inside
  rw [h.others hi hne]

/-- The name of an added child stands behind those of the other children, and the child has none
    of its own. -/
theorem childNames_addChild (ha : a.Linked) (hparent : a.HasNode parent)
    (h : a.addChild? parent name reactor assignments span = some a') :
    a'.childNames parent = a.childNames parent ++ [name] ∧ a'.childNames a.nextNode = [] := by
  have hne : a.nextNode ≠ parent := (ne_nextNode hparent).symm
  obtain ⟨n, hn⟩ := hasNode_iff.mp hparent
  have hnew : (a'.node? a.nextNode).map (·.name) = some name := by
    rw [node?_addChild h]
    simp [hne]
  have hinside : a'.inside parent = a.inside parent ++ [a.nextNode] := by
    unfold inside
    rw [node?_addChild h, if_neg (ne_nextNode hparent), hn]
    simp
  constructor
  · unfold childNames
    rw [hinside, List.filterMap_append]
    congr 1
    · apply List.filterMap_congr
      intro j hj
      exact (Extended.addChild hparent h).nodeName (ha.hasNode_inside hj)
    · simp [hnew]
  · unfold childNames inside
    rw [node?_addChild h]
    simp [hne]

end grow

end Reactors.Assembly
