import Mathlib.Data.List.Induction
import Reactors.Proofs.Assembly.Ascent

/-! # The outline of a tree

    A walk down lists the nodes of a tree, and each of them has a depth.  Where the depth grows from
    one node to the next, it grows by one step, to a child of the node.  Where it does not, the walk
    goes on at a node that was waiting: behind the child that was met last of a node above.  So the
    parent of a node is the last one before it that is a step less deep, and the depths alone tell
    the shape of the tree.
-/

namespace Reactors.Assembly

variable {a : Assembly}

/-! ## Depths -/

/-- The depth of a node that is there. -/
def depthOf (a : Assembly) (i : NodeId) : Nat := (a.depth? i).getD 0

theorem Layered.depth?_eq (ha : a.Layered) {i : NodeId} (hi : a.HasNode i) :
    a.depth? i = some (a.depthOf i) := by
  obtain ⟨ns, hns⟩ := exists_lineUp ha.toLinked hi
  simp [depthOf, depth?, hns]

theorem depthOf_root {i : NodeId} {n : Node} (hn : a.node? i = some n) (hp : n.parent = none) :
    a.depthOf i = 0 := by
  unfold depthOf depth? lineUp?
  rw [hn]
  simp [hp]

/-- A child is one step deeper than its parent. -/
theorem Layered.depthOf_child (ha : a.Layered) {i p : NodeId} {n : Node} (hn : a.node? i = some n)
    (hp : n.parent = some p) : a.depthOf i = a.depthOf p + 1 := by
  obtain ⟨m, hm, _⟩ := ha.parent hn hp
  obtain ⟨chain, hchain⟩ := ha.exists_rise (hasNode_of_some hm)
  obtain ⟨top, above, _, rfl⟩ := hchain.exists_cons
  have hchild : a.Rise i (n :: top :: above) := .up hn hp hchain
  rw [depthOf, depthOf, (ha.ascent hchild).depth, (ha.ascent hchain).depth]
  rfl

theorem Layered.depthOf_inside (ha : a.Layered) {i j : NodeId} {n : Node}
    (hn : a.node? i = some n) (hj : j ∈ n.children) : a.depthOf j = a.depthOf i + 1 := by
  obtain ⟨m, hm, hp⟩ := ha.child hn hj
  exact ha.depthOf_child hm hp

/-! ## Entries -/

/-- The entry of a node in an outline: the node with its depth. -/
def entry (a : Assembly) (n : Node) : Node × Nat := (n, a.depthOf n.id)

/-- The parent of an entry is the last of the `earlier` entries that is one step less deep: those
    behind it are as deep as the entry or deeper. -/
def HangsOn (earlier : List (Node × Nat)) (x : Node × Nat) : Prop :=
  ∃ before m between, earlier = before ++ m :: between ∧ x.1.parent = some m.1.id ∧ x.2 = m.2 + 1 ∧
    ∀ y ∈ between, x.2 ≤ y.2

theorem HangsOn.concat {earlier : List (Node × Nat)} {x y : Node × Nat} (h : HangsOn earlier x)
    (hy : x.2 ≤ y.2) : HangsOn (earlier ++ [y]) x := by
  obtain ⟨before, m, between, rfl, hparent, hdepth, hbetween⟩ := h
  refine ⟨before, m, between ++ [y], by simp, hparent, hdepth, ?_⟩
  exact List.forall_mem_append.mpr ⟨hbetween, List.forall_mem_singleton.mpr hy⟩

/-- The node that was met last has its children behind it. -/
theorem hangsOn_last (earlier : List (Node × Nat)) {m x : Node × Nat}
    (hparent : x.1.parent = some m.1.id) (hdepth : x.2 = m.2 + 1) : HangsOn (earlier ++ [m]) x :=
  ⟨earlier, m, [], rfl, hparent, hdepth, by simp⟩

/-! ## Walks -/

/-- The nodes of a stack, when the entries `visited` have been met: they hang on these, and none of
    them is deeper than one that is on the stack before it. -/
structure Pending (a : Assembly) (visited : List (Node × Nat)) (stack : List NodeId) : Prop where
  hangs : ∀ i ∈ stack, ∀ n, a.node? i = some n → HangsOn visited (a.entry n)
  falling : stack.Pairwise fun i j => a.depthOf j ≤ a.depthOf i

theorem Pending.append {visited : List (Node × Nat)} {stack stack' : List NodeId}
    (h : a.Pending visited stack) (h' : a.Pending visited stack')
    (hfall : ∀ i ∈ stack, ∀ j ∈ stack', a.depthOf j ≤ a.depthOf i) :
    a.Pending visited (stack ++ stack') where
  hangs := by
    intro i hi
    rcases List.mem_append.mp hi with hi | hi
    · exact h.hangs i hi
    · exact h'.hangs i hi
  falling := List.pairwise_append.mpr ⟨h.falling, h'.falling, hfall⟩

/-- The children of the node that was met last are pending. -/
theorem Layered.pending_children (ha : a.Layered) {i : NodeId} {n : Node}
    (hn : a.node? i = some n) (visited : List (Node × Nat)) :
    a.Pending (visited ++ [a.entry n]) n.children where
  hangs := by
    intro j hj m hm
    obtain ⟨m', hm', hp⟩ := ha.child hn hj
    rw [hm] at hm'
    cases hm'
    have hchild := ha.depthOf_child hm hp
    rw [← ha.id hn] at hp hchild
    rw [← ha.id hm] at hchild
    exact hangsOn_last visited hp hchild
  falling := by
    refine List.pairwise_of_forall_mem_list fun j hj k hk => Nat.le_of_eq ?_
    rw [ha.depthOf_inside hn hj, ha.depthOf_inside hn hk]

/-- The visit of a node puts its children before what is waiting. -/
theorem Pending.visit (ha : a.Layered) {visited : List (Node × Nat)} {i : NodeId}
    {stack : List NodeId} (h : a.Pending visited (i :: stack)) {n : Node}
    (hn : a.node? i = some n) : a.Pending (visited ++ [a.entry n]) (n.children ++ stack) := by
  obtain ⟨hdeepest, hfalling⟩ := List.pairwise_cons.mp h.falling
  refine (ha.pending_children hn visited).append ⟨?_, hfalling⟩ ?_
  · intro j hj m hm
    refine (h.hangs j (List.mem_cons_of_mem _ hj) m hm).concat ?_
    rw [entry, entry, ha.id hn, ha.id hm]
    exact hdeepest j hj
  · intro j hj k hk
    rw [ha.depthOf_inside hn hj]
    exact Nat.le_succ_of_le (hdeepest k hk)

/-- Every node that a walk goes on to meet hangs on those that were met before. -/
theorem Visits.hangs (ha : a.Layered) {stack ids : List NodeId} (h : a.Visits stack ids)
    {visited : List (Node × Nat)} (hpending : a.Pending visited stack) {ns : List Node}
    (hns : ids.mapM a.node? = some ns) {earlier later : List (Node × Nat)} {x : Node × Nat}
    (hsplit : ns.map a.entry = earlier ++ x :: later) : HangsOn (visited ++ earlier) x := by
  induction h generalizing visited ns earlier with
  | done =>
    cases hns
    simp at hsplit
  | @next i n stack ids hn _ ih =>
    obtain ⟨n', rest, hn', hrest, rfl⟩ :=
      List.forall₂_cons_left_iff.mp (Lookup.mapM_eq_some_iff.mp hns)
    rw [hn] at hn'
    cases hn'
    rw [List.map_cons] at hsplit
    cases earlier with
    | nil =>
      obtain ⟨rfl, -⟩ := List.cons.inj hsplit
      rw [List.append_nil]
      exact hpending.hangs _ List.mem_cons_self n hn
    | cons y earlier =>
      obtain ⟨rfl, hlater⟩ := List.cons.inj hsplit
      have hx := ih (hpending.visit ha hn) (Lookup.mapM_eq_some_iff.mpr hrest) hlater
      rwa [List.append_assoc] at hx

/-! ## Reading depths -/

/-- The last place before `k` at which the depth is one less than at `k`. -/
def above? (depths : List Nat) (k : Nat) : Option Nat := do
  let d ← depths[k]?
  let e ← (depths.take k).zipIdx.reverse.find? fun e => e.1 + 1 = d
  return e.2

/-- The places that have the place `k` above them, in order. -/
def below (depths : List Nat) (k : Nat) : List Nat :=
  (List.range depths.length).filter fun j => above? depths j = some k

theorem above?_zero (depths : List Nat) : above? depths 0 = none := by
  cases h : depths[0]? <;> simp [above?, h]

/-- Behind the place above there are no depths that are less. -/
theorem above?_eq {before between after : List Nat} {d : Nat} (h : ∀ e ∈ between, d + 1 ≤ e) :
    above? (before ++ d :: between ++ (d + 1) :: after) (before ++ d :: between).length =
      some before.length := by
  have hat : (before ++ d :: between ++ (d + 1) :: after)[(before ++ d :: between).length]? =
      some (d + 1) := by simp
  have hnone : ∀ start, (between.zipIdx start).reverse.find? (fun e => e.1 + 1 = d + 1) = none := by
    intro start
    rw [List.find?_eq_none]
    rintro ⟨e, j⟩ he
    have hle := h e (List.fst_mem_of_mem_zipIdx (List.mem_reverse.mp he))
    simp
    omega
  rw [above?, hat, Option.bind_eq_bind, Option.bind_some, List.take_left, List.zipIdx_append,
    List.zipIdx_cons, List.reverse_append, List.reverse_cons, List.append_assoc, List.find?_append,
    hnone]
  simp

/-! ## Places of nodes -/

/-- The places that pass a test, and what stands there. -/
theorem filterMap_filter_range {α β : Type} {xs : List α} {test : Nat → Bool} {good : α → Bool}
    (h : ∀ k x, xs[k]? = some x → test k = good x) (f : α → β) :
    ((List.range xs.length).filter test).filterMap (fun k => xs[k]?.map f) =
      (xs.filter good).map f := by
  induction xs using List.reverseRecOn with
  | nil => rfl
  | append_singleton xs x ih =>
    have hlast : test xs.length = good x := h _ _ (by simp)
    have hbefore := ih fun k y hy => h k y (by
      rw [List.getElem?_append_left (List.getElem?_eq_some_iff.mp hy).1, hy])
    rw [List.length_append, List.length_singleton, List.range_succ, List.filter_append,
      List.filterMap_append, List.filter_append, List.map_append, ← hbefore]
    congr 1
    · apply List.filterMap_congr
      intro k hk
      have hlt := List.mem_range.mp (List.mem_of_mem_filter hk)
      rw [List.getElem?_append_left hlt]
    · by_cases hx : good x = true <;> simp [hlast, hx]

/-- A part of a list without repetitions, in the same order, is what it has of the list. -/
theorem filter_mem_of_sublist {α : Type} [DecidableEq α] {xs ys : List α} (h : xs.Sublist ys)
    (hnodup : ys.Nodup) : ys.filter (· ∈ xs) = xs := by
  induction h with
  | slnil => rfl
  | @cons xs ys y h ih =>
    obtain ⟨hy, hnodup⟩ := List.nodup_cons.mp hnodup
    rw [List.filter_cons_of_neg (by simpa using fun hx => hy (h.subset hx)), ih hnodup]
  | @cons_cons xs ys y h ih =>
    obtain ⟨hy, hnodup⟩ := List.nodup_cons.mp hnodup
    have hrest : ys.filter (· ∈ y :: xs) = ys.filter (· ∈ xs) := by
      apply List.filter_congr
      intro x hx
      have hne : x ≠ y := fun h => hy (h ▸ hx)
      simp [hne]
    rw [List.filter_cons_of_pos (by simp), hrest, ih hnodup]

/-- What is on the stack is met in this order. -/
theorem Visits.sublist {stack ids : List NodeId} (h : a.Visits stack ids) : stack.Sublist ids := by
  induction h with
  | done => exact .slnil
  | next _ _ ih => exact ((List.sublist_append_right _ _).trans ih).cons_cons _

/-! ## Outlines -/

/-- The entries `xs` list the nodes below `root`, which can be put together from their depths. -/
structure Outline (a : Assembly) (root : NodeId) (xs : List (Node × Nat)) : Prop where
  /-- The nodes are those that the walk down meets, in order. -/
  walk : a.preorder? root = some (xs.map (·.1))
  depth : ∀ x ∈ xs, a.depth? x.1.id = some x.2
  /-- The first entry is that of the root, and no other one has the depth 0. -/
  first : ∃ x rest, xs = x :: rest ∧ x.1.id = root ∧ x.2 = 0 ∧ ∀ y ∈ rest, 0 < y.2
  /-- From one entry to the next the depth grows by one at most. -/
  step : ∀ before x y after, xs = before ++ x :: y :: after → y.2 ≤ x.2 + 1
  /-- The parent of every other entry is the last one before it that is one step less deep. -/
  hangs : ∀ earlier x later, xs = earlier ++ x :: later → earlier ≠ [] → HangsOn earlier x
  /-- The depths alone tell where the parent of an entry stands, -/
  parent : ∀ k x, xs[k]? = some x →
    x.1.parent = ((above? (xs.map (·.2)) k).bind (xs[·]?)).map (·.1.id)
  /-- and where its children stand, in order. -/
  children : ∀ k x, xs[k]? = some x →
    x.1.children = (below (xs.map (·.2)) k).filterMap fun j => xs[j]?.map (·.1.id)

section outline
variable {xs : List (Node × Nat)}

theorem HangsOn.le_last {before : List (Node × Nat)} {x y : Node × Nat}
    (h : HangsOn (before ++ [x]) y) : y.2 ≤ x.2 + 1 := by
  obtain ⟨earlier, m, between, heq, _, hdepth, hbetween⟩ := h
  rcases List.eq_nil_or_concat between with rfl | ⟨between, z, rfl⟩
  · obtain ⟨-, hx⟩ := List.append_inj' heq rfl
    cases hx
    exact Nat.le_of_eq hdepth
  · have hsplit : before ++ [x] = (earlier ++ m :: between) ++ [z] := by simp [heq]
    obtain ⟨-, hx⟩ := List.append_inj' hsplit rfl
    cases hx
    exact Nat.le_succ_of_le (hbetween x (by simp))

/-- What stands at a place has as many elements before it. -/
theorem exists_split_at {α : Type} {xs : List α} {k : Nat} {x : α} (h : xs[k]? = some x) :
    ∃ earlier later, xs = earlier ++ x :: later ∧ earlier.length = k := by
  have hdrop : xs.drop k = x :: xs.drop (k + 1) := by
    rw [List.drop_eq_getElem?_toList_append, h]
    rfl
  refine ⟨xs.take k, xs.drop (k + 1), by rw [← hdrop, List.take_append_drop], ?_⟩
  exact List.length_take_of_le (Nat.le_of_lt (List.getElem?_eq_some_iff.mp h).1)

/-- Where entries hang on those before them, the depths tell where the parent of an entry stands. -/
theorem parent_of_hangs (hroot : ∀ x, xs[0]? = some x → x.1.parent = none)
    (hangs : ∀ earlier x later, xs = earlier ++ x :: later → earlier ≠ [] → HangsOn earlier x)
    {k : Nat} {x : Node × Nat} (hx : xs[k]? = some x) :
    x.1.parent = ((above? (xs.map (·.2)) k).bind (xs[·]?)).map (·.1.id) := by
  obtain ⟨earlier, later, hsplit, rfl⟩ := exists_split_at hx
  by_cases hfirst : earlier = []
  · subst hfirst
    simp [above?_zero, hroot x hx]
  · obtain ⟨before, ⟨m, d⟩, between, rfl, hparent, hdepth, hbetween⟩ :=
      hangs earlier x later hsplit hfirst
    obtain ⟨n, e⟩ := x
    obtain rfl : e = d + 1 := hdepth
    have habove : above? (xs.map (·.2)) (before ++ (m, d) :: between).length =
        some before.length := by
      have hle : ∀ e ∈ between.map (·.2), d + 1 ≤ e := by
        intro e he
        obtain ⟨y, hy, rfl⟩ := List.mem_map.mp he
        exact hbetween y hy
      have h : above? (before.map (·.2) ++ d :: between.map (·.2) ++ (d + 1) :: later.map (·.2))
          (before.map (·.2) ++ d :: between.map (·.2)).length = some (before.map (·.2)).length :=
        above?_eq hle
      simpa [hsplit] using h
    have hat : xs[before.length]? = some (m, d) := by simp [hsplit]
    rw [hparent, habove, Option.bind_some, hat, Option.map_some]

/-- Where the depths tell the parents, the place above tells whether a node is the parent. -/
theorem above?_iff_parent (hnodup : (xs.map (·.1.id)).Nodup)
    (hparent : ∀ k x, xs[k]? = some x →
      x.1.parent = ((above? (xs.map (·.2)) k).bind (xs[·]?)).map (·.1.id))
    {j k : Nat} {x y : Node × Nat} (hx : xs[k]? = some x) (hy : xs[j]? = some y) :
    above? (xs.map (·.2)) j = some k ↔ y.1.parent = some x.1.id := by
  rw [hparent j y hy]
  constructor
  · intro h
    rw [h, Option.bind_some, hx, Option.map_some]
  · intro h
    obtain ⟨z, hz, hid⟩ := Option.map_eq_some_iff.mp h
    obtain ⟨l, hl, hz⟩ := Option.bind_eq_some_iff.mp hz
    have hlt : l < (xs.map (·.1.id)).length := by
      rw [List.length_map]
      exact (List.getElem?_eq_some_iff.mp hz).1
    have hsame : (xs.map (·.1.id))[l]? = (xs.map (·.1.id))[k]? := by
      rw [List.getElem?_map, List.getElem?_map, hz, hx, Option.map_some, Option.map_some, hid]
    rw [hl, (List.getElem?_inj hlt hnodup).mp hsame]

/-- The children of an entry are the entries that have it as their parent, if all of them are
    there in order. -/
theorem children_eq_filter (ha : a.Linked) (hnodup : (xs.map (·.1.id)).Nodup)
    (hfound : ∀ x ∈ xs, a.node? x.1.id = some x.1) {x : Node × Nat} (hx : x ∈ xs)
    (hsub : x.1.children.Sublist (xs.map (·.1.id))) :
    x.1.children = (xs.filter fun y => y.1.parent = some x.1.id).map (·.1.id) := by
  have hinside : ∀ y ∈ xs, y.1.id ∈ x.1.children ↔ y.1.parent = some x.1.id := by
    intro y hy
    constructor
    · intro hchild
      obtain ⟨m, hm, hp⟩ := ha.child (hfound x hx) hchild
      rw [hfound y hy] at hm
      cases hm
      exact hp
    · intro hp
      obtain ⟨m, hm, hchild⟩ := ha.parent (hfound y hy) hp
      rw [hfound x hx] at hm
      cases hm
      exact hchild
  calc x.1.children = (xs.map (·.1.id)).filter (· ∈ x.1.children) :=
        (filter_mem_of_sublist hsub hnodup).symm
    _ = (xs.filter fun y => y.1.id ∈ x.1.children).map (·.1.id) := List.filter_map
    _ = (xs.filter fun y => y.1.parent = some x.1.id).map (·.1.id) := by
        rw [List.filter_congr fun y hy => decide_eq_decide.mpr (hinside y hy)]

/-- Where the depths tell the parents, they tell the children too. -/
theorem children_of_parent (ha : a.Linked) (hnodup : (xs.map (·.1.id)).Nodup)
    (hfound : ∀ x ∈ xs, a.node? x.1.id = some x.1)
    (hparent : ∀ k x, xs[k]? = some x →
      x.1.parent = ((above? (xs.map (·.2)) k).bind (xs[·]?)).map (·.1.id))
    {k : Nat} {x : Node × Nat} (hx : xs[k]? = some x)
    (hsub : x.1.children.Sublist (xs.map (·.1.id))) :
    x.1.children = (below (xs.map (·.2)) k).filterMap fun j => xs[j]?.map (·.1.id) := by
  have hplaces : ∀ j y, xs[j]? = some y →
      decide (above? (xs.map (·.2)) j = some k) = decide (y.1.parent = some x.1.id) :=
    fun j y hy => decide_eq_decide.mpr (above?_iff_parent hnodup hparent hx hy)
  rw [children_eq_filter ha hnodup hfound (List.mem_of_getElem? hx) hsub, below, List.length_map,
    filterMap_filter_range hplaces]

end outline

/-- The children of every node that is met are met in order. -/
theorem Visits.sublist_children {stack ids : List NodeId} (h : a.Visits stack ids) {i : NodeId}
    (hi : i ∈ ids) {n : Node} (hn : a.node? i = some n) : n.children.Sublist ids := by
  obtain ⟨before, block, after, hblock, rfl⟩ := h.through hi
  cases hblock with
  | next hn' hinner =>
    rw [hn] at hn'
    cases hn'
    rw [List.append_nil] at hinner
    have hblock := hinner.sublist.trans (List.sublist_cons_self i _)
    exact hblock.trans (List.infix_append before _ after).sublist

/-- The walk down meets the node that it starts at first, and all others hang on those before. -/
theorem Layered.hangs_of_visits (ha : a.Layered) {root : NodeId} {n : Node}
    (hn : a.node? root = some n) {ids : List NodeId} (hids : a.Visits [root] ids) {ns : List Node}
    (hns : ids.mapM a.node? = some ns) : ∃ rest, ns = n :: rest ∧ ∀ earlier x later,
      ns.map a.entry = earlier ++ x :: later → earlier ≠ [] → HangsOn earlier x := by
  cases hids with
  | @next _ m _ later hm h =>
    rw [hn] at hm
    cases hm
    obtain ⟨n', rest, hn', hrest, rfl⟩ :=
      List.forall₂_cons_left_iff.mp (Lookup.mapM_eq_some_iff.mp hns)
    rw [hn] at hn'
    cases hn'
    rw [List.append_nil] at h
    refine ⟨rest, rfl, fun earlier x later hsplit hne => ?_⟩
    obtain ⟨y, earlier, rfl⟩ := List.exists_cons_of_ne_nil hne
    obtain ⟨rfl, hlater⟩ := List.cons.inj hsplit
    exact h.hangs ha (ha.pending_children hn []) (Lookup.mapM_eq_some_iff.mpr hrest) hlater

theorem Layered.exists_outline (ha : a.Layered) {root : NodeId} {n : Node}
    (hn : a.node? root = some n) (hroot : n.parent = none) : ∃ xs, a.Outline root xs := by
  obtain ⟨ids, hids, hnodup, _⟩ := ha.exists_visits (hasNode_of_some hn)
  obtain ⟨ns, hpre, hns⟩ := ha.preorder?_of_visits hids
  have hfound : ∀ x ∈ ns.map a.entry, a.node? x.1.id = some x.1 := by
    intro x hx
    obtain ⟨m, hm, rfl⟩ := List.mem_map.mp hx
    exact ha.found_of_preorder hpre m hm
  have hentries : (ns.map a.entry).map (·.1.id) = ids := by
    rw [List.map_map, ← ha.ids_of_mapM hns]
    rfl
  obtain ⟨rest, rfl, hhangs⟩ := ha.hangs_of_visits hn hids hns
  have hparent : ∀ k x, ((n :: rest).map a.entry)[k]? = some x → x.1.parent =
      ((above? (((n :: rest).map a.entry).map (·.2)) k).bind
        (((n :: rest).map a.entry)[·]?)).map (·.1.id) :=
    fun k x => parent_of_hangs (by simpa [entry] using hroot) hhangs
  refine ⟨(n :: rest).map a.entry,
    { walk := ?_
      depth := ?_
      first := ⟨a.entry n, rest.map a.entry, rfl, ha.id hn, ?_, ?_⟩
      step := ?_
      hangs := hhangs
      parent := hparent
      children := ?_ }⟩
  · rw [hpre, List.map_map]
    exact congrArg some (List.map_id _).symm
  · intro x hx
    have hdepth := ha.depth?_eq (hasNode_of_some (hfound x hx))
    obtain ⟨m, hm, rfl⟩ := List.mem_map.mp hx
    exact hdepth
  · rw [entry, ha.id hn, depthOf_root hn hroot]
  · intro y hy
    obtain ⟨earlier, later, hsplit⟩ := List.append_of_mem hy
    obtain ⟨_, m, _, _, _, hdepth, _⟩ := hhangs (a.entry n :: earlier) y later
      (by rw [List.map_cons, hsplit, List.cons_append]) (List.cons_ne_nil _ _)
    omega
  · intro before x y after hsplit
    have hlast : HangsOn (before ++ [x]) y :=
      hhangs (before ++ [x]) y after (by simp [hsplit]) (by simp)
    exact hlast.le_last
  · intro k x hx
    have hmem := List.mem_of_getElem? hx
    have hsub := hids.sublist_children (hentries ▸ List.mem_map_of_mem hmem) (hfound x hmem)
    exact children_of_parent ha.toLinked (hentries ▸ hnodup) hfound hparent hx (hentries ▸ hsub)

end Reactors.Assembly
