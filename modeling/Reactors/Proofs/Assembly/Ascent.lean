import Reactors.Proofs.Assembly.Preorder
import Reactors.Script.Expr

/-! # Walks up agree

    Three walks follow the parents of a node.  One goes a number of steps and may come to an end
    before, one counts the steps to the root, and one collects the names on the way.  They meet the
    same nodes: those of the rise of the node, which ends since a parent is older than its children.
-/

namespace Reactors.Assembly

variable {a : Assembly}

/-! ## The rise of a node -/

/-- The nodes from a node up to its root, each of them followed by its parent.  Nothing limits the
    number of steps. -/
inductive Rise (a : Assembly) : NodeId → List Node → Prop
  | root {i : NodeId} {n : Node} (hn : a.node? i = some n) (hp : n.parent = none) : Rise a i [n]
  | up {i p : NodeId} {n : Node} {chain : List Node} (hn : a.node? i = some n)
      (hp : n.parent = some p) (h : Rise a p chain) : Rise a i (n :: chain)

namespace Rise

variable {i : NodeId} {chain : List Node}

/-- A node has one rise at most. -/
theorem unique (h : a.Rise i chain) {chain' : List Node} (h' : a.Rise i chain') :
    chain = chain' := by
  induction h generalizing chain' with
  | root hn hp =>
    cases h' with
    | root hn' hp' =>
      rw [hn] at hn'
      cases hn'
      rfl
    | up hn' hp' h' =>
      rw [hn] at hn'
      cases hn'
      simp [hp] at hp'
  | up hn hp _ ih =>
    cases h' with
    | root hn' hp' =>
      rw [hn] at hn'
      cases hn'
      simp [hp] at hp'
    | up hn' hp' h' =>
      rw [hn] at hn'
      cases hn'
      rw [hp] at hp'
      cases hp'
      rw [ih h']

/-- A rise starts with the node. -/
theorem exists_cons (h : a.Rise i chain) : ∃ n above, a.node? i = some n ∧ chain = n :: above := by
  cases h with
  | root hn _ => exact ⟨_, [], hn, rfl⟩
  | up hn _ _ => exact ⟨_, _, hn, rfl⟩

theorem found (ha : a.Linked) (h : a.Rise i chain) : ∀ n ∈ chain, a.node? n.id = some n := by
  induction h with
  | root hn _ => simpa [ha.id hn] using hn
  | up hn _ _ ih => exact List.forall_mem_cons.mpr ⟨by rw [ha.id hn, hn], ih⟩

/-- A rise ends with a root. -/
theorem exists_last (h : a.Rise i chain) : ∃ n, chain[chain.length - 1]? = some n ∧
    n.parent = none := by
  induction h with
  | root hn hp => exact ⟨_, rfl, hp⟩
  | @up i p n chain hn _ h ih =>
    obtain ⟨m, above, _, rfl⟩ := h.exists_cons
    obtain ⟨n, hlast, hnone⟩ := ih
    exact ⟨n, by simpa using hlast, hnone⟩

/-- Some steps up lead to the node at that place of the rise, and none beyond its end. -/
theorem ancestor?_eq (ha : a.Linked) (h : a.Rise i chain) (steps : Nat) :
    a.ancestor? i steps = some (chain[steps]?.map (·.id)) := by
  induction h generalizing steps with
  | root hn hp =>
    cases steps with
    | zero => simp [ancestor?, ha.id hn]
    | succ steps => simp [ancestor?, hn, hp]
  | up hn hp _ ih =>
    cases steps with
    | zero => simp [ancestor?, ha.id hn]
    | succ steps => simp [ancestor?, hn, hp, ih]

/-- Where parents are older, the walk that counts and the one that collects follow the rise. -/
theorem lineUp?_eq (ha : a.Layered) (h : a.Rise i chain) : a.lineUp? i = some chain := by
  induction h with
  | root hn hp =>
    rw [lineUp?, hn]
    simp [hp]
  | up hn hp _ ih =>
    rw [lineUp?, hn]
    simp [hp, ha.older hn hp, ih]

end Rise

/-- Where parents are older than their children, every node has its rise. -/
theorem Layered.exists_rise (ha : a.Layered) {i : NodeId} (hi : a.HasNode i) :
    ∃ chain, a.Rise i chain := by
  obtain ⟨k, hk⟩ : ∃ k, i.index = k := ⟨_, rfl⟩
  -- on the place of the node: that of its parent is smaller
  induction k using Nat.strongRecOn generalizing i with
  | ind k ih =>
    obtain ⟨n, hn⟩ := hasNode_iff.mp hi
    cases hp : n.parent with
    | none => exact ⟨[n], .root hn hp⟩
    | some p =>
      obtain ⟨m, hm, _⟩ := ha.parent hn hp
      obtain ⟨chain, hchain⟩ := ih p.index (hk ▸ ha.older hn hp) (hasNode_of_some hm) rfl
      exact ⟨n :: chain, .up hn hp hchain⟩

/-! ## Loops over parents -/

section loop
variable {σ : Type} {visit : σ → Node → σ}

/-- A loop goes from a node to its parent as long as there is one, and changes its state by the
    parent.  It starts with the state `s` and ends with the state `t`. -/
inductive Loop (a : Assembly) (visit : σ → Node → σ) : NodeId → (s t : σ) → Prop
  | stop {i : NodeId} {n : Node} {s : σ} (hn : a.node? i = some n) (hp : n.parent = none) :
      Loop a visit i s s
  | next {i p : NodeId} {n m : Node} {s t : σ} (hn : a.node? i = some n)
      (hp : n.parent = some p) (hm : a.node? p = some m) (h : Loop a visit p (visit s m) t) :
      Loop a visit i s t

/-- A loop ends exactly if there is a rise, with the state that the nodes above leave. -/
theorem loop_iff {i : NodeId} {s t : σ} :
    a.Loop visit i s t ↔ ∃ n above, a.Rise i (n :: above) ∧ t = above.foldl visit s := by
  constructor
  · intro h
    induction h with
    | stop hn hp => exact ⟨_, [], .root hn hp, rfl⟩
    | next hn hp hm _ ih =>
      obtain ⟨m', above, hrise, rfl⟩ := ih
      obtain ⟨m'', _, hm'', heq⟩ := hrise.exists_cons
      rw [hm] at hm''
      cases hm''
      cases heq
      exact ⟨_, _, .up hn hp hrise, rfl⟩
  · rintro ⟨n, above, hrise, rfl⟩
    generalize hchain : n :: above = chain at hrise
    induction hrise generalizing n above s with
    | root hn hp =>
      cases hchain
      exact .stop hn hp
    | up hn hp h ih =>
      cases hchain
      obtain ⟨m, rest, hm, rfl⟩ := h.exists_cons
      exact .next hn hp hm (ih m rest rfl)

/-- Where a node has a rise, a loop ends in one way. -/
theorem loop_iff_of_rise {i : NodeId} {n : Node} {above : List Node}
    (hrise : a.Rise i (n :: above)) {s t : σ} :
    a.Loop visit i s t ↔ t = above.foldl visit s := by
  rw [loop_iff]
  constructor
  · rintro ⟨m, rest, hrest, rfl⟩
    cases hrise.unique hrest
    rfl
  · exact fun h => ⟨n, above, hrise, h⟩

end loop

/-- The loop that counts. -/
def count (k : Nat) (_ : Node) : Nat := k + 1

/-- The loop that collects names. -/
def collect (names : List String) (n : Node) : List String := names ++ [n.name]

theorem foldl_count (ns : List Node) (k : Nat) : ns.foldl count k = k + ns.length := by
  induction ns generalizing k with
  | nil => rfl
  | cons n ns ih =>
    rw [List.foldl_cons, ih, count, List.length_cons]
    omega

theorem foldl_collect (ns : List Node) (names : List String) :
    ns.foldl collect names = names ++ ns.map (·.name) := by
  induction ns generalizing names with
  | nil => simp
  | cons n ns ih => simp [ih, collect]

/-! ## Steps -/

/-- Steps up and further steps up are that many steps together. -/
theorem ancestor?_add (i : NodeId) (j k : Nat) :
    a.ancestor? i (j + k) = (a.ancestor? i j).bind fun
      | none => some none
      | some above => a.ancestor? above k := by
  induction j generalizing i with
  | zero => simp [ancestor?]
  | succ j ih =>
    rw [Nat.succ_add, ancestor?, ancestor?]
    cases a.node? i with
    | none => rfl
    | some n =>
      dsimp only
      cases n.parent with
      | none => rfl
      | some p => exact ih p

/-! ## The walks together -/

/-- What the walks up from the node `n` at `i` meet: its root is `height` steps away, and the names
    `trail` lead down to it. -/
structure Ascent (a : Assembly) (i : NodeId) (n : Node) (height : Nat) (trail : List String) :
    Prop where
  /-- The loop that counts steps ends, with the depth. -/
  counted : ∀ k, a.Loop count i 0 k ↔ k = height
  depth : a.depth? i = some height
  /-- The loop that collects names ends, with the names from the node up. -/
  collected : ∀ found, a.Loop collect i [n.name] found ↔ found.reverse = trail
  names : a.names? i = some trail
  /-- There is a node so many steps up exactly if the root is not nearer. -/
  ancestor : ∀ k, ∃ up, a.ancestor? i k = some up ∧ (up.isSome ↔ k ≤ height)
  /-- So many steps up as the depth there is a root. -/
  root : ∃ r top, a.ancestor? i height = some (some r) ∧ a.node? r = some top ∧ top.parent = none
  /-- Steps can be taken in two parts. -/
  steps : ∀ j k, a.ancestor? i (j + k) = (a.ancestor? i j).bind fun
    | none => some none
    | some above => a.ancestor? above k
  length : trail.length = height + 1
  /-- The name of the node some steps up stands so many places before the last one. -/
  name : ∀ k ≤ height, ∃ j m, a.ancestor? i k = some (some j) ∧ a.node? j = some m ∧
    trail[height - k]? = some m.name
  /-- The names down to the parent and the own one are the names, and they make the variable. -/
  inner : ∀ p, n.parent = some p → ∃ outer, a.names? p = some outer ∧ trail = outer ++ [n.name] ∧
    a.path? p = some ("_".intercalate outer ++ "_lf") ∧
    a.path? i = some ("_".intercalate outer ++ "_" ++ n.name ++ "_lf")

theorem path?_eq {i : NodeId} {trail : List String} (h : a.names? i = some trail) :
    a.path? i = some ("_".intercalate trail ++ "_lf") := by
  simp [path?, h]

theorem Rise.length_pos {i : NodeId} {chain : List Node} (h : a.Rise i chain) :
    0 < chain.length := by
  obtain ⟨n, above, _, rfl⟩ := h.exists_cons
  exact Nat.succ_pos _

/-- The names on the rise of the parent, and the own one. -/
theorem Layered.names?_inner (ha : a.Layered) {i p : NodeId} {n : Node} (hn : a.node? i = some n)
    (hp : n.parent = some p) : ∃ outer, outer ≠ [] ∧ a.names? p = some outer ∧
      a.names? i = some (outer ++ [n.name]) := by
  obtain ⟨m, hm, _⟩ := ha.parent hn hp
  obtain ⟨chain, hchain⟩ := ha.exists_rise (hasNode_of_some hm)
  have hnames : a.names? p = some (chain.map (·.name)).reverse := by
    simp [names?, hchain.lineUp?_eq ha]
  refine ⟨_, ?_, hnames, ?_⟩
  · simpa using List.ne_nil_of_length_pos hchain.length_pos
  · rw [names?_child hn hp (ha.older hn hp), hnames]
    rfl

theorem Layered.ascent (ha : a.Layered) {i : NodeId} {n : Node} {above : List Node}
    (h : a.Rise i (n :: above)) :
    a.Ascent i n above.length ((n :: above).map (·.name)).reverse := by
  have hn : a.node? i = some n := by
    obtain ⟨m, _, hm, heq⟩ := h.exists_cons
    cases heq
    exact hm
  have hline := h.lineUp?_eq ha
  have hancestor := h.ancestor?_eq ha.toLinked
  have hfound := h.found ha.toLinked
  have hnames : a.names? i = some ((n :: above).map (·.name)).reverse := by
    simp [names?, hline]
  refine
    { counted := fun k => by rw [loop_iff_of_rise h, foldl_count, Nat.zero_add]
      depth := by simp [depth?, hline]
      collected := ?_
      names := hnames
      ancestor := fun k => ⟨_, hancestor k, ?_⟩
      root := ?_
      steps := ancestor?_add i
      length := by simp
      name := ?_
      inner := ?_ }
  · intro found
    rw [loop_iff_of_rise h, foldl_collect, List.reverse_eq_iff, List.reverse_reverse]
    rfl
  · rw [Option.isSome_map, isSome_getElem?, List.length_cons, Nat.lt_succ_iff]
  · obtain ⟨top, hlast, hnone⟩ := h.exists_last
    refine ⟨top.id, top, ?_, hfound top (List.mem_of_getElem? hlast), hnone⟩
    rw [hancestor]
    exact congrArg (fun m => some (Option.map (·.id) m)) hlast
  · intro k hk
    have hlt : k < (n :: above).length := Nat.lt_succ_of_le hk
    refine ⟨_, (n :: above)[k], by rw [hancestor, List.getElem?_eq_getElem hlt]; rfl,
      hfound _ (List.getElem_mem hlt), ?_⟩
    have hplace : above.length - k < ((n :: above).map (·.name)).length := by
      rw [List.length_map, List.length_cons]
      omega
    have hback : above.length + 1 - 1 - (above.length - k) = k := by omega
    rw [List.getElem?_reverse hplace, List.length_map, List.getElem?_map, List.length_cons, hback,
      List.getElem?_eq_getElem hlt]
    rfl
  · intro p hp
    obtain ⟨outer, hne, houter, hinner⟩ := ha.names?_inner hn hp
    have htrail := Option.some.inj (hnames.symm.trans hinner)
    refine ⟨outer, houter, htrail, path?_eq houter, ?_⟩
    rw [path?_eq hinner, String.intercalate_append_of_ne_nil hne (List.cons_ne_nil _ _),
      String.intercalate_singleton]

/-- In an assembly that is built node by node the walks up from every node end, and they agree. -/
theorem Planted.ascends (ha : a.Planted) {i : NodeId} {n : Node} (hn : a.node? i = some n) :
    ∃ height trail, a.Ascent i n height trail := by
  have hlayered := ha.ordered.layered
  obtain ⟨chain, hchain⟩ := hlayered.exists_rise (hasNode_of_some hn)
  obtain ⟨m, above, hm, rfl⟩ := hchain.exists_cons
  rw [hn] at hm
  cases hm
  exact ⟨_, _, hlayered.ascent hchain⟩

/-- The node inside `a` is two steps below the root. -/
theorem ascends_branching :
    branching.Planted ∧ ∃ n height trail, branching.node? ⟨2⟩ = some n ∧
      branching.Ascent ⟨2⟩ n height trail ∧ height = 2 ∧ trail = ["main", "a", "inner"] ∧
      branching.path? ⟨1⟩ = some "main_a_lf" ∧ branching.path? ⟨2⟩ = some "main_a_inner_lf" := by
  have hn : branching.node? ⟨2⟩ = some ⟨⟨2⟩, "inner", ⟨0⟩, some ⟨1⟩, [], [], .nowhere⟩ := rfl
  obtain ⟨height, trail, h⟩ := planted_branching.ascends hn
  have hheight : 2 = height :=
    (h.counted 2).mp (.next hn rfl rfl (.next rfl rfl rfl (.stop rfl rfl)))
  have htrail : ["main", "a", "inner"] = trail :=
    (h.collected ["inner", "a", "main"]).mp (.next hn rfl rfl (.next rfl rfl rfl (.stop rfl rfl)))
  obtain ⟨outer, _, houter, hpath, hpath'⟩ := h.inner ⟨1⟩ rfl
  obtain rfl : outer = ["main", "a"] := by
    have heq : ["main", "a"] ++ ["inner"] = outer ++ ["inner"] := htrail.trans houter
    exact (List.append_cancel_right heq).symm
  exact ⟨planted_branching, _, height, trail, hn, h, hheight.symm, htrail.symm, hpath, hpath'⟩

end Reactors.Assembly
