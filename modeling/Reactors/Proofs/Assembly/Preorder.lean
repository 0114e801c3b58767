import Reactors.Proofs.Assembly.Ordered
import Reactors.Proofs.Assembly.Walk

/-! # The walk down is the pre-order

    The walk down from a node keeps a stack of the nodes that it has yet to visit.  What it meets is
    the node and then the walks of the children, one behind the other; these are the nodes from which
    parents lead up to the node, each of them once.

    A new node inside `parent` is met by the walks that meet `parent`, right behind all that was below
    `parent` before.  No other walk changes.
-/

namespace Reactors.Assembly

variable {a a' : Assembly}

/-- The identities of the nodes that the walk down from a node meets, in order. -/
def walk? (a : Assembly) (i : NodeId) : Lookup (List NodeId) := do
  let ns ← a.preorder? i
  return ns.map (·.id)

/-- Some number of steps up leads from the node `j` to the node `i`. -/
def Under (a : Assembly) (j i : NodeId) : Prop := ∃ steps, a.ancestor? j steps = some (some i)

/-! ## Above a node -/

theorem Under.refl (i : NodeId) : a.Under i i := ⟨0, rfl⟩

theorem Under.step {j p i : NodeId} {n : Node} (hn : a.node? j = some n) (hp : n.parent = some p)
    (h : a.Under p i) : a.Under j i := by
  obtain ⟨steps, h⟩ := h
  exact ⟨steps + 1, by simp [ancestor?, hn, hp, h]⟩

/-- A node that is under another is that node, or its parent is under it. -/
theorem Under.cases_up {j i : NodeId} (h : a.Under j i) :
    j = i ∨ ∃ n p, a.node? j = some n ∧ n.parent = some p ∧ a.Under p i := by
  obtain ⟨_ | steps, h⟩ := h
  · cases h
    exact .inl rfl
  · rw [ancestor?] at h
    cases hn : a.node? j with
    | none => simp [hn] at h
    | some n =>
      cases hp : n.parent with
      | none => simp [hn, hp] at h
      | some p => exact .inr ⟨n, p, rfl, hp, steps, by simpa [hn, hp] using h⟩

theorem Under.trans {j k i : NodeId} (h : a.Under j k) (h' : a.Under k i) : a.Under j i := by
  obtain ⟨steps, h⟩ := h
  -- on the steps from `j` up to `k`
  induction steps generalizing j with
  | zero =>
    cases h
    exact h'
  | succ steps ih =>
    rcases Under.cases_up ⟨steps + 1, h⟩ with rfl | ⟨n, p, hn, hp, _⟩
    · exact h'
    · exact .step hn hp (ih (by simpa [ancestor?, hn, hp] using h))

/-- A node that is under another is that node, or it is under a child of it. -/
theorem Linked.cases_down (ha : a.Linked) {j i : NodeId} (h : a.Under j i) :
    j = i ∨ ∃ n, a.node? i = some n ∧ ∃ k ∈ n.children, a.Under j k := by
  obtain ⟨steps, h⟩ := h
  induction steps generalizing j with
  | zero =>
    cases h
    exact .inl rfl
  | succ steps ih =>
    rcases Under.cases_up ⟨steps + 1, h⟩ with rfl | ⟨n, p, hn, hp, _⟩
    · exact .inl rfl
    · rcases ih (by simpa [ancestor?, hn, hp] using h) with rfl | ⟨m, hm, k, hk, hunder⟩
      · obtain ⟨m, hm, hj⟩ := ha.parent hn hp
        exact .inr ⟨m, hm, j, hj, .refl j⟩
      · exact .inr ⟨m, hm, k, hk, .step hn hp hunder⟩

/-- What a node is under is there if the node is. -/
theorem Linked.hasNode_of_under (ha : a.Linked) {j i : NodeId} (h : a.Under j i)
    (hj : a.HasNode j) : a.HasNode i := by
  rcases ha.cases_down h with rfl | ⟨n, hn, _⟩
  · exact hj
  · exact hasNode_of_some hn

/-! ## What a walk meets -/

namespace Visits

variable {stack ids : List NodeId}

/-- A walk meets what is under the nodes on its stack. -/
theorem mem_iff (ha : a.Linked) (h : a.Visits stack ids) (j : NodeId) :
    j ∈ ids ↔ ∃ i ∈ stack, a.Under j i := by
  -- on the visits: what is under a node is the node itself or under a child
  induction h with
  | done => simp
  | @next i n stack ids hn _ ih =>
    have hinside : a.Under j i ↔ j = i ∨ ∃ k ∈ n.children, a.Under j k := by
      constructor
      · intro hunder
        rcases ha.cases_down hunder with rfl | ⟨m, hm, hk⟩
        · exact .inl rfl
        · rw [hn] at hm
          cases hm
          exact .inr hk
      · rintro (rfl | ⟨k, hk, hunder⟩)
        · exact .refl j
        · obtain ⟨m, hm, hpar⟩ := ha.child hn hk
          exact hunder.trans (.step hm hpar (.refl i))
    simp only [List.mem_cons, ih, List.mem_append, or_and_right, exists_or, exists_eq_left, hinside,
      or_assoc]

/-- A walk that starts with several nodes meets what the walks from each of them meet. -/
theorem blocks (h : a.Visits stack ids) :
    ∃ blocks, List.Forall₂ (fun i block => a.Visits [i] block) stack blocks ∧
      ids = blocks.flatten := by
  induction stack generalizing ids with
  | nil =>
    cases h
    exact ⟨[], .nil, rfl⟩
  | cons i stack ih =>
    have hparts : a.Visits ([i] ++ stack) ids := h
    obtain ⟨block, rest, hblock, hrest, rfl⟩ := of_append hparts
    obtain ⟨blocks, hblocks, rfl⟩ := ih hrest
    exact ⟨block :: blocks, .cons hblock hblocks, rfl⟩

end Visits

/-! ## Parts of a pre-order -/

namespace Layered

variable (ha : a.Layered)
include ha

theorem walk?_of_visits {i : NodeId} {ids : List NodeId} (h : a.Visits [i] ids) :
    a.walk? i = some ids := by
  obtain ⟨ns, hpre, hns⟩ := ha.preorder?_of_visits h
  simp [walk?, hpre, ha.ids_of_mapM hns]

/-- A node is followed by what is met from its children. -/
theorem exists_inner {i : NodeId} {n : Node} (hn : a.node? i = some n) :
    ∃ blocks, a.Visits [i] (i :: blocks.flatten) ∧
      List.Forall₂ (fun j block => a.Visits [j] block) n.children blocks := by
  obtain ⟨ids, hids, _⟩ := ha.exists_visits (hasNode_of_some hn)
  cases hids with
  | next hm h =>
    rw [hn] at hm
    cases hm
    rw [List.append_nil] at h
    obtain ⟨blocks, hblocks, rfl⟩ := h.blocks
    exact ⟨blocks, .next hn (by simpa using h), hblocks⟩

/-- The pre-orders from several nodes are the nodes that the walks from each of them meet. -/
theorem preorders_of_visits {js : List NodeId} {blocks : List (List NodeId)}
    (h : List.Forall₂ (fun j block => a.Visits [j] block) js blocks) :
    ∃ parts, js.mapM a.preorder? = some parts ∧
      blocks.flatten.mapM a.node? = some parts.flatten := by
  simp only [Lookup.mapM_eq_some_iff]
  induction h with
  | nil => exact ⟨[], .nil, .nil⟩
  | cons hblock _ ih =>
    obtain ⟨part, hpart, hfound⟩ := ha.preorder?_of_visits hblock
    obtain ⟨parts, hparts, hall⟩ := ih
    exact ⟨part :: parts, .cons hpart hparts,
      List.rel_append (Lookup.mapM_eq_some_iff.mp hfound) hall⟩

/-- The pre-order of a node is the node, and then the pre-orders of its children. -/
theorem preorder?_children {i : NodeId} {n : Node} (hn : a.node? i = some n) :
    ∃ parts, a.preorder? i = some (n :: parts.flatten) ∧
      n.children.mapM a.preorder? = some parts := by
  obtain ⟨blocks, hids, hblocks⟩ := ha.exists_inner hn
  obtain ⟨parts, hparts, hflat⟩ := ha.preorders_of_visits hblocks
  obtain ⟨ns, hpre, hns⟩ := ha.preorder?_of_visits hids
  rw [List.mapM_cons, hn, hflat] at hns
  refine ⟨parts, ?_, hparts⟩
  rw [hpre, ← hns]
  rfl

/-- The pre-order of a node is a part of the pre-order of every node that it is under. -/
theorem preorder?_under {j i : NodeId} (h : a.Under j i) (hi : a.HasNode i) :
    ∃ before part after, a.preorder? j = some part ∧
      a.preorder? i = some (before ++ part ++ after) := by
  obtain ⟨ids, hids, _⟩ := ha.exists_visits hi
  have hmem : j ∈ ids := (hids.mem_iff ha.toLinked j).mpr ⟨i, by simp, h⟩
  obtain ⟨before, block, after, hblock, rfl⟩ := hids.through hmem
  obtain ⟨ns, hpre, hns⟩ := ha.preorder?_of_visits hids
  obtain ⟨part, hpart, hfound⟩ := ha.preorder?_of_visits hblock
  rw [Lookup.mapM_eq_some_iff, List.append_assoc] at hns
  obtain ⟨us, rest, rfl, _, hrest⟩ := Lookup.forall₂_append_left hns
  obtain ⟨vs, ws, rfl, hvs, _⟩ := Lookup.forall₂_append_left hrest
  have heq : vs = part := by
    rw [← Lookup.mapM_eq_some_iff, hfound] at hvs
    exact (Option.some.inj hvs).symm
  exact ⟨us, part, ws, hpart, by rw [hpre, heq, List.append_assoc]⟩

end Layered

/-! ## The walk from a node -/

/-- The walk down from the node `n` at `i` meets the nodes `ids`, of which those below each child are
    one of the `blocks`. -/
structure Descent (a : Assembly) (i : NodeId) (n : Node) (ids : List NodeId)
    (blocks : List (List NodeId)) : Prop where
  walk : a.walk? i = some ids
  inner : n.children.mapM a.walk? = some blocks
  /-- The node is followed by the walks of its children, in order. -/
  preorder : ids = i :: blocks.flatten
  /-- No node is met twice. -/
  nodup : ids.Nodup
  /-- A node is met if and only if parents lead from it up to the first one. -/
  mem : ∀ j, j ∈ ids ↔ a.Under j i
  /-- The walk ends after one visit for each node that it meets, and not earlier. -/
  ends : ∀ fuel, (∃ ns, a.visit? fuel [i] = some ns) ↔ ids.length ≤ fuel

theorem Layered.exists_descent (ha : a.Layered) {i : NodeId} {n : Node}
    (hn : a.node? i = some n) : ∃ ids blocks, a.Descent i n ids blocks := by
  obtain ⟨blocks, hids, hblocks⟩ := ha.exists_inner hn
  obtain ⟨ids', hids', hnodup, _⟩ := ha.exists_visits (hasNode_of_some hn)
  obtain ⟨ns, hns⟩ := hids.exists_nodes
  refine ⟨i :: blocks.flatten, blocks,
    { walk := ha.walk?_of_visits hids
      inner := Lookup.mapM_eq_some_iff.mpr (hblocks.imp fun _ _ h => ha.walk?_of_visits h)
      preorder := rfl
      nodup := hids.unique hids' ▸ hnodup
      mem := fun j => by simpa using hids.mem_iff ha.toLinked j
      ends := fun fuel => ?_ }⟩
  constructor
  · intro ⟨ms, hms⟩
    obtain ⟨ids'', hids'', _, hle⟩ := visit?_eq_some_iff.mp hms
    exact hids.unique hids'' ▸ hle
  · intro hle
    exact ⟨ns, visit?_eq_some_iff.mpr ⟨_, hids, hns, hle⟩⟩

/-! ## A new node -/

section addChild
variable {parent : NodeId} {name : String} {reactor : ReactorId} {assignments : List Assignment}
  {span : Span} (h : a.addChild? parent name reactor assignments span = some a')
include h

/-- A node that is not the parent of the new one is as it was. -/
theorem node?_addChild_of_ne {i : NodeId} (hi : a.HasNode i) (hne : i ≠ parent) :
    a'.node? i = a.node? i := by
  rw [node?_addChild h, if_neg (ne_nextNode hi)]
  simp [hne]

/-- A walk that does not meet the parent is as it was. -/
theorem Visits.addChild_of_not_mem {stack ids : List NodeId} (hids : a.Visits stack ids)
    (hfree : parent ∉ ids) : a'.Visits stack ids := by
  induction hids with
  | done => exact .done
  | @next i n stack ids hn _ ih =>
    have hne : i ≠ parent := fun e => hfree (by simp [e])
    refine .next ?_ (ih fun hmem => hfree (by simp [hmem]))
    rw [node?_addChild_of_ne h (hasNode_of_some hn) hne, hn]

variable (hparent : a.HasNode parent)
include hparent

theorem Visits.addChild_new : a'.Visits [a.nextNode] [a.nextNode] := by
  have hne : a.nextNode ≠ parent := (ne_nextNode hparent).symm
  refine .next (n := ⟨a.nextNode, name, reactor, some parent, [], assignments, span⟩) ?_ .done
  rw [node?_addChild h]
  simp [hne]

/-- A walk that meets the parent meets the new node behind all that was below the parent. -/
theorem Visits.addChild_of_mem {stack ids : List NodeId} (hids : a.Visits stack ids)
    (hnodup : ids.Nodup) (hmem : parent ∈ ids) :
    ∃ before block after, a.Visits [parent] block ∧ ids = before ++ block ++ after ∧
      a'.Visits stack (before ++ block ++ a.nextNode :: after) := by
  -- on the visits, up to that of the parent
  induction hids with
  | done => simp at hmem
  | @next i n stack ids hn hrest ih =>
    obtain ⟨hfree, hnodup⟩ := List.nodup_cons.mp hnodup
    by_cases hi : i = parent
    · subst hi
      obtain ⟨inner, after, hinner, hafter, rfl⟩ := hrest.of_append
      obtain ⟨hfree_inner, hfree_after⟩ := not_or.mp (List.mem_append.not.mp hfree)
      have hn' : a'.node? i = some { n with children := n.children ++ [a.nextNode] } := by
        rw [node?_addChild h, if_neg (ne_nextNode hparent), hn]
        simp
      have hnew := addChild_new h hparent
      refine ⟨[], i :: inner, after, .next hn (by simpa using hinner), rfl, .next hn' ?_⟩
      simpa using ((hinner.addChild_of_not_mem h hfree_inner).append hnew).append
        (hafter.addChild_of_not_mem h hfree_after)
    · obtain ⟨before, block, after, hblock, rfl, hids'⟩ :=
        ih hnodup (List.mem_of_ne_of_mem (Ne.symm hi) hmem)
      refine ⟨i :: before, block, after, hblock, rfl, .next ?_ hids'⟩
      rw [node?_addChild_of_ne h (hasNode_of_some hn) hi, hn]

end addChild

/-- How the walks of `a` have changed in `a'`, which has a new node inside `parent`. -/
structure Inserted (a a' : Assembly) (parent : NodeId) : Prop where
  new : a'.walk? a.nextNode = some [a.nextNode]
  /-- From the parent and all that it is under, the new node is met behind all that was below the
      parent. -/
  above : ∀ i, a.Under parent i → ∃ before block after, a.walk? parent = some block ∧
    a.walk? i = some (before ++ block ++ after) ∧
    a'.walk? i = some (before ++ block ++ a.nextNode :: after)
  /-- From all other nodes, the walk is what it was. -/
  others : ∀ i, a.HasNode i → ¬ a.Under parent i → a'.walk? i = a.walk? i

theorem Ordered.inserted (hord : a.Ordered) {parent : NodeId} (hparent : a.HasNode parent)
    {name : String} {reactor : ReactorId} {assignments : List Assignment} {span : Span}
    (h : a.addChild? parent name reactor assignments span = some a') : Inserted a a' parent := by
  have ha := hord.layered
  have ha' := (hord.addChild hparent h).layered
  refine ⟨ha'.walk?_of_visits (.addChild_new h hparent), ?_, ?_⟩
  · intro i hi
    have hthere := ha.hasNode_of_under hi hparent
    obtain ⟨ids, hids, hnodup, _⟩ := ha.exists_visits hthere
    have hmem : parent ∈ ids := (hids.mem_iff ha.toLinked parent).mpr ⟨i, by simp, hi⟩
    obtain ⟨before, block, after, hblock, rfl, hids'⟩ :=
      hids.addChild_of_mem h hparent hnodup hmem
    exact ⟨before, block, after, ha.walk?_of_visits hblock, ha.walk?_of_visits hids,
      ha'.walk?_of_visits hids'⟩
  · intro i hthere hi
    obtain ⟨ids, hids, _, _⟩ := ha.exists_visits hthere
    have hfree : parent ∉ ids := by
      intro hmem
      obtain ⟨j, hj, hunder⟩ := (hids.mem_iff ha.toLinked parent).mp hmem
      exact hi (List.mem_singleton.mp hj ▸ hunder)
    rw [ha.walk?_of_visits hids, ha'.walk?_of_visits (hids.addChild_of_not_mem h hfree)]

/-! ## Walks of planted assemblies -/

/-- In an assembly that is built node by node the walk down from every node is the pre-order, and a
    new node is inserted into the walks from its parent and from all above. -/
theorem Planted.walks (ha : a.Planted) :
    (∀ i n, a.node? i = some n → ∃ ids blocks, a.Descent i n ids blocks) ∧
    ∀ parent name reactor assignments span, a.HasNode parent →
      ∃ a', a.addChild? parent name reactor assignments span = some a' ∧ Inserted a a' parent := by
  constructor
  · intro i n hn
    exact ha.ordered.layered.exists_descent hn
  · intro parent name reactor assignments span hparent
    obtain ⟨a', h⟩ := exists_addChild hparent
    exact ⟨a', h, ha.ordered.inserted hparent h⟩

/-- The assembly of a root `main`, in which there are `a`, with another node inside, and `b`. -/
def branching? : Lookup Assembly := do
  let a ← (({} : Assembly).addRoot "main" ⟨0⟩ .nowhere).addChild? ⟨0⟩ "a" ⟨0⟩ [] .nowhere
  let a ← a.addChild? ⟨1⟩ "inner" ⟨0⟩ [] .nowhere
  a.addChild? ⟨0⟩ "b" ⟨0⟩ [] .nowhere

def branching : Assembly := branching?.getD {}

theorem planted_branching : branching.Planted := by
  have hroot := Planted.root .nothing "main" ⟨0⟩ .nowhere
  refine .child (.child (.child hroot (?_ : HasNode _ ⟨0⟩) rfl) (?_ : HasNode _ ⟨1⟩) rfl)
    (?_ : HasNode _ ⟨0⟩) rfl
  all_goals unfold HasNode; decide

/-- A new node inside `a` is met behind the one that was there, and before `b`. -/
theorem walks_branching :
    branching.Planted ∧
      (∃ n ids blocks, branching.node? ⟨0⟩ = some n ∧ branching.Descent ⟨0⟩ n ids blocks ∧
        ids = [⟨0⟩, ⟨1⟩, ⟨2⟩, ⟨3⟩] ∧ blocks = [[⟨1⟩, ⟨2⟩], [⟨3⟩]]) ∧
      branching.HasNode ⟨1⟩ ∧
      ∃ a', branching.addChild? ⟨1⟩ "new" ⟨0⟩ [] .nowhere = some a' ∧ Inserted branching a' ⟨1⟩ ∧
        a'.walk? ⟨0⟩ = some [⟨0⟩, ⟨1⟩, ⟨2⟩, ⟨4⟩, ⟨3⟩] := by
  have hthere : branching.HasNode ⟨1⟩ := by unfold HasNode; decide
  obtain ⟨hdescent, hinsert⟩ := planted_branching.walks
  obtain ⟨ids, blocks, h⟩ := hdescent ⟨0⟩ ⟨⟨0⟩, "main", ⟨0⟩, none, [⟨1⟩, ⟨3⟩], [], .nowhere⟩ rfl
  obtain ⟨a', ha', hinserted⟩ := hinsert ⟨1⟩ "new" ⟨0⟩ [] .nowhere hthere
  have hids : some ids = some [⟨0⟩, ⟨1⟩, ⟨2⟩, ⟨3⟩] := h.walk.symm.trans (by decide)
  have hblocks : some blocks = some [[⟨1⟩, ⟨2⟩], [⟨3⟩]] := h.inner.symm.trans (by decide)
  refine ⟨planted_branching, ⟨_, ids, blocks, rfl, h, Option.some.inj hids, Option.some.inj hblocks⟩,
    hthere, a', ha', hinserted, ?_⟩
  obtain rfl : (branching.addChild? ⟨1⟩ "new" ⟨0⟩ [] .nowhere).getD {} = a' := by rw [ha']; rfl
  decide

end Reactors.Assembly
