import Reactors.Assembly.Walk
import Reactors.Proofs.Assembly.Linked
import Reactors.Proofs.Lookup

/-! # Walks end

    Upwards, a walk ends since it does not follow a parent that is not older.  Downwards from a
    root, a walk through linked nodes meets no node twice, since a node is listed by its parent
    alone and the root by none; so it makes no more visits than there are nodes.
-/

namespace Reactors.Assembly

variable {a : Assembly}

/-! ## Upwards -/

theorem exists_lineUp (ha : a.Linked) {i : NodeId} (hi : a.HasNode i) :
    ∃ ns, a.lineUp? i = some ns := by
  obtain ⟨k, hk⟩ : ∃ k, i.index = k := ⟨_, rfl⟩
  -- on the place of the node: the walk goes on at a smaller one only
  induction k using Nat.strongRecOn generalizing i with
  | ind k ih =>
    obtain ⟨n, hn⟩ := hasNode_iff.mp hi
    rw [lineUp?, hn]
    cases hp : n.parent with
    | none => exact ⟨[n], by simp [hp]⟩
    | some p =>
      by_cases hlt : p.index < i.index
      · obtain ⟨m, hm, _⟩ := ha.parent hn hp
        obtain ⟨ns, hns⟩ := ih p.index (hk ▸ hlt) (hasNode_of_some hm) rfl
        exact ⟨n :: ns, by simp [hp, hlt, hns]⟩
      · exact ⟨[n], by simp [hp, hlt]⟩

theorem exists_names (ha : a.Linked) {i : NodeId} (hi : a.HasNode i) :
    ∃ names, a.names? i = some names := by
  obtain ⟨ns, hns⟩ := exists_lineUp ha hi
  exact ⟨(ns.map (·.name)).reverse, by simp [names?, hns]⟩

/-- The names down to a root are its own one. -/
theorem names?_root {i : NodeId} {n : Node} (hn : a.node? i = some n) (hp : n.parent = none) :
    a.names? i = some [n.name] := by
  unfold names? lineUp?
  rw [hn]
  simp [hp]

/-- The names down to a node are those down to its parent, and its own one. -/
theorem names?_child {i p : NodeId} {n : Node} (hn : a.node? i = some n) (hp : n.parent = some p)
    (holder : p.index < i.index) :
    a.names? i = (a.names? p).map (· ++ [n.name]) := by
  unfold names?
  rw [lineUp?, hn]
  cases h : a.lineUp? p <;> simp [hp, holder, h]

/-- One step up leads to the parent. -/
theorem ancestor?_one {i : NodeId} {n : Node} (h : a.node? i = some n) :
    a.ancestor? i 1 = some n.parent := by
  rw [ancestor?, h]
  cases hp : n.parent <;> simp [hp, ancestor?]

/-! ## Downwards -/

/-- A walk down from `root` that has visited the nodes `visited` and has the nodes `stack` before
    it. -/
structure Walk (a : Assembly) (root : NodeId) (visited stack : List NodeId) : Prop where
  /-- No node is met twice. -/
  nodup : (visited ++ stack).Nodup
  /-- The root is met. -/
  first : root ∈ visited ++ stack
  /-- Every other node has a parent, another node that was visited. -/
  placed : ∀ i ∈ visited ++ stack, ∃ n, a.node? i = some n ∧
    ((i = root ∧ n.parent = none) ∨ ∃ p ∈ visited, n.parent = some p ∧ p ≠ i)
  /-- What is inside the visited nodes is met. -/
  closed : ∀ i ∈ visited, ∀ n, a.node? i = some n → ∀ j ∈ n.children, j ∈ visited ++ stack

namespace Walk

variable {root : NodeId} {visited stack : List NodeId}

theorem start {n : Node} (hn : a.node? root = some n) (hroot : n.parent = none) :
    a.Walk root [] [root] where
  nodup := by simp
  first := by simp
  placed := by
    intro i hi
    obtain rfl : i = root := by simpa using hi
    exact ⟨n, hn, .inl ⟨rfl, hroot⟩⟩
  closed := by simp

/-- A child of the node that is next has been met by nobody: it is no root, and its parent was not
    visited before. -/
theorem fresh (ha : a.Linked) {i : NodeId} (h : a.Walk root visited (i :: stack)) {n : Node}
    (hn : a.node? i = some n) {j : NodeId} (hj : j ∈ n.children) : j ∉ visited ++ i :: stack := by
  intro hmem
  have hi : i ∉ visited := by
    intro hi
    exact (List.nodup_append.mp h.nodup).2.2 i hi i (by simp) rfl
  obtain ⟨m, hm, hmp⟩ := ha.child hn hj
  obtain ⟨m', hm', hplace⟩ := h.placed j hmem
  rw [hm] at hm'
  cases hm'
  rcases hplace with ⟨_, hnone⟩ | ⟨p, hp, hpar, _⟩
  · simp [hmp] at hnone
  · rw [hmp] at hpar
    cases hpar
    exact hi hp

/-- A visit adds the children to what was met. -/
theorem visit_perm (visited stack children : List NodeId) (i : NodeId) :
    (i :: visited ++ (children ++ stack)).Perm (children ++ (visited ++ i :: stack)) :=
  calc i :: visited ++ (children ++ stack)
      = i :: visited ++ children ++ stack := by rw [List.append_assoc]
    List.Perm _ (children ++ (i :: visited) ++ stack) :=
      List.perm_append_comm.append_right stack
    _ = children ++ (i :: (visited ++ stack)) := by rw [List.append_assoc, List.cons_append]
    List.Perm _ (children ++ (visited ++ i :: stack)) :=
      List.Perm.append_left children List.perm_middle.symm

/-- The visit of a node puts its children before what is waiting. -/
theorem visit (ha : a.Linked) {i : NodeId} (h : a.Walk root visited (i :: stack)) {n : Node}
    (hn : a.node? i = some n) : a.Walk root (i :: visited) (n.children ++ stack) := by
  have hperm := visit_perm visited stack n.children i
  constructor
  · rw [hperm.nodup_iff, List.nodup_append]
    refine ⟨ha.nodup hn, h.nodup, ?_⟩
    intro j hj x hmem hx
    exact h.fresh ha hn hj (hx ▸ hmem)
  · rw [hperm.mem_iff]
    exact List.mem_append_right _ h.first
  · intro j hj
    rcases List.mem_append.mp (hperm.mem_iff.mp hj) with hj | hj
    · obtain ⟨m, hm, hmp⟩ := ha.child hn hj
      have hne : i ≠ j := fun e => h.fresh ha hn hj (by simp [e])
      exact ⟨m, hm, .inr ⟨i, by simp, hmp, hne⟩⟩
    · obtain ⟨m, hm, hplace⟩ := h.placed j hj
      refine ⟨m, hm, hplace.imp_right ?_⟩
      intro ⟨p, hp, hpar, hne⟩
      exact ⟨p, by simp [hp], hpar, hne⟩
  · intro j hj m hm k hk
    rw [hperm.mem_iff]
    rcases List.mem_cons.mp hj with rfl | hj
    · rw [hn] at hm
      cases hm
      exact List.mem_append_left _ hk
    · exact List.mem_append_right _ (h.closed j hj m hm k hk)

/-- A walk has met no more nodes than there are. -/
theorem length_le (h : a.Walk root visited stack) :
    (visited ++ stack).length ≤ a.nodes.size := by
  have hinj : Function.Injective NodeId.index := fun i j e => by cases i; cases j; simp_all
  apply Lookup.length_le_of_lt hinj h.nodup
  intro i hi
  obtain ⟨n, hn, _⟩ := h.placed i hi
  exact hasNode_of_some hn

end Walk

/-- A walk with fuel for the nodes that were not visited yet visits everything before it. -/
theorem visit_walks (ha : a.Linked) {root : NodeId} (fuel : Nat) (visited stack : List NodeId)
    (h : a.Walk root visited stack) (hfuel : a.nodes.size ≤ fuel + visited.length) :
    ∃ ns, a.visit? fuel stack = some ns ∧ (∀ n ∈ ns, a.node? n.id = some n) ∧
      a.Walk root ((ns.map (·.id)).reverse ++ visited) [] := by
  induction fuel generalizing visited stack with
  | zero =>
    cases stack with
    | nil => exact ⟨[], rfl, by simp, by simpa using h⟩
    | cons i stack =>
      -- without fuel all nodes were visited, so none can be waiting
      have hle := h.length_le
      simp only [List.length_append, List.length_cons] at hle
      omega
  | succ fuel ih =>
    cases stack with
    | nil => exact ⟨[], rfl, by simp, by simpa using h⟩
    | cons i stack =>
      obtain ⟨n, hn, _⟩ := h.placed i (by simp)
      obtain ⟨ns, hns, hfound, hwalk⟩ := ih (i :: visited) (n.children ++ stack) (h.visit ha hn)
        (by simp only [List.length_cons]; omega)
      refine ⟨n :: ns, by simp [visit?, hn, hns], ?_, ?_⟩
      · intro m hm
        rcases List.mem_cons.mp hm with rfl | hm
        · rw [ha.id hn, hn]
        · exact hfound m hm
      · simpa [ha.id hn] using hwalk

/-- The nodes that a walk down from `root` meets, each found by its identity. -/
structure Preorder (a : Assembly) (root : NodeId) (ns : List Node) : Prop where
  found : ∀ n ∈ ns, a.node? n.id = some n
  /-- No node is met twice. -/
  nodup : (ns.map (·.id)).Nodup
  /-- The root is met. -/
  first : root ∈ ns.map (·.id)
  /-- Every other node has a parent, another node that is met. -/
  parent : ∀ n ∈ ns, (n.id = root ∧ n.parent = none) ∨
    ∃ m ∈ ns, n.parent = some m.id ∧ m.id ≠ n.id
  /-- What is inside a node that is met is met. -/
  closed : ∀ n ∈ ns, ∀ j ∈ n.children, j ∈ ns.map (·.id)

/-- The walk down from a root ends. -/
theorem Linked.exists_preorder (ha : a.Linked) {root : NodeId} {n : Node}
    (hn : a.node? root = some n) (hroot : n.parent = none) :
    ∃ ns, a.preorder? root = some ns ∧ a.Preorder root ns := by
  obtain ⟨ns, hns, hfound, hwalk⟩ := visit_walks ha a.nodes.size [] [root] (.start hn hroot)
    (by simp)
  simp only [List.append_nil] at hwalk
  refine ⟨ns, hns, hfound, ?_, ?_, ?_, ?_⟩
  · simpa using hwalk.nodup
  · simpa using hwalk.first
  · intro m hm
    obtain ⟨m', hm', hplace⟩ := hwalk.placed m.id (by simpa using ⟨m, hm, rfl⟩)
    rw [hfound m hm] at hm'
    cases hm'
    apply hplace.imp_right
    intro ⟨p, hp, hpar, hne⟩
    obtain ⟨q, hq, rfl⟩ := List.mem_map.mp (List.mem_reverse.mp hp)
    exact ⟨q, hq, hpar, hne⟩
  · intro m hm j hj
    have := hwalk.closed m.id (by simpa using ⟨m, hm, rfl⟩) m (hfound m hm) j hj
    simpa using this

/-! ## The root -/

theorem root?_eq_some (ha : a.Linked) {root : NodeId} (h : a.root? = some root) :
    ∃ n, a.node? root = some n ∧ n.parent = none := by
  obtain ⟨n, hn, rfl⟩ := Option.map_eq_some_iff.mp h
  have hnone := List.find?_some hn
  have hmem := List.mem_of_find?_eq_some hn
  rw [Array.mem_toList_iff] at hmem
  obtain ⟨k, hk, rfl⟩ := Array.mem_iff_getElem.mp hmem
  have hnode : a.node? ⟨k⟩ = some a.nodes[k] := Array.getElem?_eq_getElem hk
  refine ⟨a.nodes[k], by rw [ha.id hnode, hnode], ?_⟩
  simpa using hnone

theorem Rooted.exists_root (ha : a.Rooted) {i : NodeId} (hi : a.HasNode i) :
    ∃ n, a.node? ⟨0⟩ = some n ∧ n.parent = none ∧ a.root? = some ⟨0⟩ := by
  have hpos : 0 < a.nodes.size := Nat.lt_of_le_of_lt (Nat.zero_le _) hi
  obtain ⟨n, hn⟩ := hasNode_iff.mp (show a.HasNode ⟨0⟩ from hpos)
  have hnone : n.parent = none := by
    cases hp : n.parent with
    | none => rfl
    | some p => exact absurd (ha.older hn hp) (Nat.not_lt_zero _)
  refine ⟨n, hn, hnone, ?_⟩
  obtain ⟨nodes⟩ := a
  obtain ⟨_ | ⟨m, ms⟩⟩ := nodes
  · simp at hpos
  · have hm : m = n := by simpa [node?] using hn
    have hid : m.id = ⟨0⟩ := ha.id (show Assembly.node? ⟨⟨m :: ms⟩⟩ ⟨0⟩ = some m by simp [node?])
    simp [root?, hm ▸ hnone, hid]

/-- Where parents are older than their children, a node is below a root, and met from there. -/
theorem Layered.exists_top (ha : a.Layered) {i : NodeId} {n : Node} (hn : a.node? i = some n) :
    ∃ top m, a.node? top = some m ∧ m.parent = none ∧ ∀ ns, a.Preorder top ns → n ∈ ns := by
  obtain ⟨k, hk⟩ : ∃ k, i.index = k := ⟨_, rfl⟩
  -- the root above the parent is the root above the node
  induction k using Nat.strongRecOn generalizing i n with
  | ind k ih =>
    have hmet : ∀ {ns top}, a.Preorder top ns → i ∈ ns.map (·.id) → n ∈ ns := by
      intro ns top hpre hi
      obtain ⟨m, hm, rfl⟩ := List.mem_map.mp hi
      have hfound := hpre.found m hm
      rw [hn] at hfound
      exact Option.some.inj hfound ▸ hm
    cases hp : n.parent with
    | none => exact ⟨i, n, hn, hp, fun ns hpre => hmet hpre hpre.first⟩
    | some j =>
      obtain ⟨m, hm, hi⟩ := ha.parent hn hp
      obtain ⟨top, t, ht, hnone, hall⟩ := ih j.index (hk ▸ ha.older hn hp) hm rfl
      exact ⟨top, t, ht, hnone, fun ns hpre => hmet hpre (hpre.closed m (hall ns hpre) i hi)⟩

/-- In a tree below one root the walk from the root meets all nodes. -/
theorem Rooted.mem_preorder (ha : a.Rooted) {ns : List Node} (h : a.Preorder ⟨0⟩ ns) {i : NodeId}
    {n : Node} (hn : a.node? i = some n) : n ∈ ns := by
  obtain ⟨top, t, ht, hnone, hmet⟩ := ha.layered.exists_top hn
  exact hmet ns (ha.alone ht hnone ▸ h)

/-! ## Below any node

    A walk from a node that is no root is a part of the walk from the root: what is on the stack
    below the node is not touched before everything below the node was visited. -/

/-- With `stack` before it a walk meets the nodes `ids`, in this order, and ends.  Nothing limits the
    number of visits. -/
inductive Visits (a : Assembly) : (stack ids : List NodeId) → Prop
  | done : Visits a [] []
  | next {i : NodeId} {n : Node} {stack ids : List NodeId} (hn : a.node? i = some n)
      (h : Visits a (n.children ++ stack) ids) : Visits a (i :: stack) (i :: ids)

/-- A walk needs fuel for each node that it meets, and no more. -/
theorem visit?_eq_some_iff {fuel : Nat} {stack : List NodeId} {ns : List Node} :
    a.visit? fuel stack = some ns ↔
      ∃ ids, a.Visits stack ids ∧ ids.mapM a.node? = some ns ∧ ids.length ≤ fuel := by
  constructor
  · intro h
    induction fuel generalizing stack ns with
    | zero =>
      cases stack with
      | nil =>
        cases h
        exact ⟨[], .done, rfl, Nat.le_refl _⟩
      | cons i stack => cases h
    | succ fuel ih =>
      cases stack with
      | nil =>
        cases h
        exact ⟨[], .done, rfl, Nat.zero_le _⟩
      | cons i stack =>
        obtain ⟨n, hn, h⟩ := Option.bind_eq_some_iff.mp h
        obtain ⟨later, hlater, h⟩ := Option.bind_eq_some_iff.mp h
        obtain ⟨ids, hids, hmap, hle⟩ := ih hlater
        refine ⟨i :: ids, .next hn hids, ?_, Nat.succ_le_succ hle⟩
        simp [hn, hmap, ← Option.some.inj h]
  · intro ⟨ids, h, hmap, hle⟩
    induction h generalizing fuel ns with
    | done =>
      cases hmap
      cases fuel <;> rfl
    | next hn _ ih =>
      obtain ⟨m, later, hm, hlater, rfl⟩ :=
        List.forall₂_cons_left_iff.mp (Lookup.mapM_eq_some_iff.mp hmap)
      rw [hn] at hm
      cases hm
      cases fuel with
      | zero => simp at hle
      | succ fuel =>
        rw [visit?, hn]
        simp [ih (Lookup.mapM_eq_some_iff.mpr hlater) (Nat.le_of_succ_le_succ hle)]

namespace Visits

variable {stack ids : List NodeId}

/-- A walk ends in one way at most. -/
theorem unique (h : a.Visits stack ids) {ids' : List NodeId} (h' : a.Visits stack ids') :
    ids = ids' := by
  induction h generalizing ids' with
  | done =>
    cases h'
    rfl
  | next hn _ ih =>
    cases h' with
    | next hn' h' =>
      rw [hn] at hn'
      cases hn'
      rw [ih h']

/-- The nodes that a walk meets are there. -/
theorem hasNode (h : a.Visits stack ids) : ∀ i ∈ ids, a.HasNode i := by
  induction h with
  | done => simp
  | next hn _ ih => exact List.forall_mem_cons.mpr ⟨hasNode_of_some hn, ih⟩

theorem exists_nodes (h : a.Visits stack ids) : ∃ ns, ids.mapM a.node? = some ns :=
  Lookup.exists_mapM fun i hi => hasNode_iff.mp (h.hasNode i hi)

theorem append (h : a.Visits stack ids) {stack' ids' : List NodeId}
    (h' : a.Visits stack' ids') : a.Visits (stack ++ stack') (ids ++ ids') := by
  induction h with
  | done => exact h'
  | @next i n stack ids hn _ ih =>
    have hrest : a.Visits (n.children ++ (stack ++ stack')) (ids ++ ids') := by
      rw [← List.append_assoc]
      exact ih
    exact .next hn hrest

/-- What is on top of the stack is visited before the rest. -/
theorem of_append {top rest : List NodeId} (h : a.Visits (top ++ rest) ids) :
    ∃ ids₁ ids₂, a.Visits top ids₁ ∧ a.Visits rest ids₂ ∧ ids = ids₁ ++ ids₂ := by
  generalize hstack : top ++ rest = stack at h
  -- on the visits: the children of the first node are on top as well
  induction h generalizing top with
  | done =>
    obtain ⟨rfl, rfl⟩ := List.append_eq_nil_iff.mp hstack
    exact ⟨[], [], .done, .done, rfl⟩
  | @next i n stack ids hn h ih =>
    cases top with
    | nil =>
      subst hstack
      exact ⟨[], i :: ids, .done, .next hn h, rfl⟩
    | cons j top =>
      obtain ⟨rfl, rfl⟩ := List.cons.inj hstack
      obtain ⟨ids₁, ids₂, h₁, h₂, rfl⟩ := ih (List.append_assoc n.children top rest)
      exact ⟨j :: ids₁, ids₂, .next hn h₁, h₂, rfl⟩

/-- The walk from a node that is met is a part of the walk. -/
theorem through (h : a.Visits stack ids) {i : NodeId} (hi : i ∈ ids) :
    ∃ before block after, a.Visits [i] block ∧ ids = before ++ block ++ after := by
  induction h with
  | done => simp at hi
  | @next j n stack ids hn h ih =>
    by_cases hij : i = j
    · subst hij
      obtain ⟨inner, after, hinner, _, rfl⟩ := h.of_append
      exact ⟨[], i :: inner, after, .next hn (by simpa using hinner), rfl⟩
    · obtain ⟨before, block, after, hblock, rfl⟩ := ih (List.mem_of_ne_of_mem hij hi)
      exact ⟨j :: before, block, after, hblock, rfl⟩

end Visits

/-- The nodes that are found by some identities have these identities. -/
theorem Linked.ids_of_mapM (ha : a.Linked) {ids : List NodeId} {ns : List Node}
    (h : ids.mapM a.node? = some ns) : ns.map (·.id) = ids := by
  have heq : ids.map (fun j => j) = ns.map (·.id) :=
    Lookup.map_eq_of_mapM h fun j m hm => (ha.id hm).symm
  simpa using heq.symm

/-- Where parents are older than their children, the walk down from any node ends, and meets no node
    twice. -/
theorem Layered.exists_visits (ha : a.Layered) {i : NodeId} (hi : a.HasNode i) :
    ∃ ids, a.Visits [i] ids ∧ ids.Nodup ∧ ids.length ≤ a.nodes.size := by
  obtain ⟨n, hn⟩ := hasNode_iff.mp hi
  obtain ⟨top, t, ht, hnone, hmet⟩ := ha.exists_top hn
  obtain ⟨all, hall, hpre⟩ := ha.exists_preorder ht hnone
  obtain ⟨ids, hids, hmap, hle⟩ := visit?_eq_some_iff.mp hall
  have hmem : i ∈ ids := ha.ids_of_mapM hmap ▸ List.mem_map.mpr ⟨n, hmet all hpre, ha.id hn⟩
  have hnodup : ids.Nodup := ha.ids_of_mapM hmap ▸ hpre.nodup
  obtain ⟨before, block, after, hblock, rfl⟩ := hids.through hmem
  refine ⟨block, hblock, ?_, ?_⟩
  · exact hnodup.sublist (List.infix_append before block after).sublist
  · simp only [List.length_append] at hle
    omega

/-- What a walk down from a node meets is its pre-order: there is fuel enough. -/
theorem Layered.preorder?_of_visits (ha : a.Layered) {i : NodeId} {ids : List NodeId}
    (h : a.Visits [i] ids) :
    ∃ ns, a.preorder? i = some ns ∧ ids.mapM a.node? = some ns := by
  have hi : a.HasNode i := by
    cases h with
    | next hn _ => exact hasNode_of_some hn
  obtain ⟨ids', hids', _, hle⟩ := ha.exists_visits hi
  obtain ⟨ns, hns⟩ := h.exists_nodes
  exact ⟨ns, visit?_eq_some_iff.mpr ⟨ids, h, hns, h.unique hids' ▸ hle⟩, hns⟩

/-- The nodes of a pre-order are found by their identities. -/
theorem Linked.found_of_preorder (ha : a.Linked) {i : NodeId} {ns : List Node}
    (h : a.preorder? i = some ns) : ∀ n ∈ ns, a.node? n.id = some n := by
  obtain ⟨ids, _, hns, _⟩ := visit?_eq_some_iff.mp h
  intro n hn
  obtain ⟨j, _, hj⟩ := Lookup.mem_of_mapM hns hn
  rw [ha.id hj, hj]

/-- Where parents are older than their children, the walk down from any node ends. -/
theorem Layered.exists_preorder_below (ha : a.Layered) {i : NodeId} (hi : a.HasNode i) :
    ∃ ns, a.preorder? i = some ns ∧ ∀ n ∈ ns, a.node? n.id = some n := by
  obtain ⟨ids, hids, _⟩ := ha.exists_visits hi
  obtain ⟨ns, hpre, _⟩ := ha.preorder?_of_visits hids
  exact ⟨ns, hpre, ha.found_of_preorder hpre⟩

end Reactors.Assembly
