import Reactors.Proofs.Assembly.Outline
import Reactors.Proofs.Program.Arena
import Reactors.Proofs.Valid

/-! # Listings of closed programs

    The tree of instances can be listed for every closed program, whether it is valid or not.  Each
    instance is indented by its depth, so the margins of the listing are an outline of the tree.
-/

namespace Reactors.Program

variable {p : Program}

theorem exists_listedAssignment (hp : p.Closed) {n : Assembly.Node}
    (hn : p.assembly.node? n.id = some n) {x : Assignment} (hx : x ∈ n.assignments) :
    ∃ text, p.listedAssignment? x = some text := by
  obtain ⟨target, htarget⟩ := Catalog.hasParameter_iff.mp (hp.target hn x hx)
  have hlisted : ∀ v ∈ x.values, ∃ text, p.listedValue? v = some text := by
    intro v hv
    cases v with
    | constant k => exact ⟨_, rfl⟩
    | param q =>
      obtain ⟨z, hz⟩ := Catalog.hasParameter_iff.mp (hp.values hn x hx _ hv q rfl)
      exact ⟨_, by simp [listedValue?, hz]; rfl⟩
  obtain ⟨values, hvalues⟩ := Lookup.exists_mapM hlisted
  exact ⟨_, by simp [listedAssignment?, hvalues, htarget]; rfl⟩

/-- The lines of a listing for an entry of an outline: the instance is indented by two spaces for
    each step of its depth, and its assignments by two more. -/
def ListedAs (p : Program) (x : Assembly.Node × Nat) (lines : List String) : Prop :=
  ∃ d assignments, p.catalog.reactor? x.1.reactor = some d ∧
    x.1.assignments.mapM p.listedAssignment? = some assignments ∧
    lines = (String.ofList (List.replicate (2 * x.2) ' ') ++ x.1.name ++ " : " ++ d.name) ::
      assignments.map fun l => String.ofList (List.replicate (2 * x.2) ' ') ++ "  " ++ l

theorem exists_listedAs (hp : p.Closed) {x : Assembly.Node × Nat}
    (hx : p.assembly.node? x.1.id = some x.1) (hdepth : p.assembly.depth? x.1.id = some x.2) :
    ∃ lines, p.listedNode? x.1 = some lines ∧ p.ListedAs x lines := by
  obtain ⟨d, hd⟩ := Catalog.hasReactor_iff.mp (hp.reactor hx)
  obtain ⟨assignments, hassignments⟩ :=
    Lookup.exists_mapM fun y hy => exists_listedAssignment hp hx hy
  refine ⟨(treeMargin x.2 ++ x.1.name ++ " : " ++ d.name) ::
    assignments.map fun l => treeMargin x.2 ++ "  " ++ l, ?_, d, assignments, hd, hassignments, rfl⟩
  simp [listedNode?, hdepth, hd, hassignments]

theorem exists_listedNode (hp : p.Closed) {n : Assembly.Node}
    (hn : p.assembly.node? n.id = some n) : ∃ lines, p.listedNode? n = some lines := by
  obtain ⟨ns, hns⟩ := Assembly.exists_lineUp hp.assembly (Assembly.hasNode_of_some hn)
  have hdepth : p.assembly.depth? n.id = some (ns.length - 1) := by
    simp [Assembly.depth?, hns]
  exact (exists_listedAs hp (x := (n, ns.length - 1)) hn hdepth).imp fun _ h => h.1

/-- The tree of a closed program can be listed. -/
theorem exists_tree (hp : p.Closed) : ∃ text, p.tree? = some text := by
  unfold tree?
  cases h : p.assembly.root? with
  | none => exact ⟨_, rfl⟩
  | some root =>
    obtain ⟨lines, hlines⟩ := Lookup.exists_mapM fun n hn => exists_listedNode hp (hp.found hn)
    exact ⟨_, by simp [(hp.preorder h).1, hlines]; rfl⟩

/-! ## Margins -/

/-- The listing of a built program has the lines of the entries of an outline, one behind the other.
    So the margins tell what contains what, and in which order. -/
theorem listing_outlined {es : List Edit} (h : Built es p) {root : NodeId}
    (hroot : p.assembly.root? = some root) :
    ∃ xs blocks, p.assembly.Outline root xs ∧ List.Forall₂ p.ListedAs xs blocks ∧
      p.tree? = some (String.join (blocks.flatten.map (· ++ "\n"))) := by
  have hp := h.closed
  have ha := h.ordered.1.layered
  obtain ⟨n, hn, hnone⟩ := Assembly.root?_eq_some hp.assembly hroot
  obtain ⟨xs, hxs⟩ := ha.exists_outline hn hnone
  have hfound := hp.assembly.found_of_preorder hxs.walk
  have hlines : ∀ x ∈ xs, ∃ lines, p.listedNode? x.1 = some lines ∧ p.ListedAs x lines :=
    fun x hx => exists_listedAs hp (hfound x.1 (List.mem_map_of_mem hx)) (hxs.depth x hx)
  obtain ⟨blocks, hblocks⟩ := Lookup.exists_mapM fun x hx => (hlines x hx).imp fun _ h => h.1
  have hlisted : List.Forall₂ p.ListedAs xs blocks := by
    apply (Lookup.forall₂_mem (Lookup.mapM_eq_some_iff.mp hblocks)).imp
    intro x lines ⟨hx, _, hsome⟩
    obtain ⟨lines', hsome', hlisted⟩ := hlines x hx
    rw [hsome] at hsome'
    cases hsome'
    exact hlisted
  refine ⟨xs, blocks, hxs, hlisted, ?_⟩
  have hnodes : (xs.map (·.1)).mapM p.listedNode? = some blocks := by
    rw [List.mapM_map]
    exact hblocks
  simp [tree?, hroot, hxs.walk, hnodes]

/-- A history of a root `main`, in which there are `a`, with another instance inside, and `b`. -/
def deepHistory : List Edit :=
  [.declare "A" .nowhere,
   .addParameter ⟨0⟩ "x" none [.constant (.int 1)] .nowhere,
   .addRoot "main" ⟨0⟩ .nowhere,
   .addChild ⟨0⟩ "a" ⟨0⟩ [] .nowhere,
   .addChild ⟨1⟩ "inner" ⟨0⟩ [⟨⟨0⟩, [.param ⟨0⟩], .nowhere⟩] .nowhere,
   .addChild ⟨0⟩ "b" ⟨0⟩ [] .nowhere]

/-- The program that it builds. -/
def deepProgram : Program := (edits? {} deepHistory).getD {}

theorem built_deep : Built deepHistory deepProgram := built_getD (by decide)

/-- From the depths it can be told that `a` and `b` are inside the root. -/
theorem listing_outlined_deep :
    Built deepHistory deepProgram ∧ deepProgram.assembly.root? = some ⟨0⟩ ∧
      ∃ xs blocks, deepProgram.assembly.Outline ⟨0⟩ xs ∧
        List.Forall₂ deepProgram.ListedAs xs blocks ∧
        deepProgram.tree? = some (String.join (blocks.flatten.map (· ++ "\n"))) ∧
        xs.map (·.2) = [0, 1, 2, 1] ∧
        Assembly.above? [0, 1, 2, 1] 3 = some 0 ∧ Assembly.below [0, 1, 2, 1] 0 = [1, 3] := by
  have hroot : deepProgram.assembly.root? = some ⟨0⟩ := by decide
  obtain ⟨xs, blocks, h, hblocks, htext⟩ := listing_outlined built_deep hroot
  refine ⟨built_deep, hroot, xs, blocks, h, hblocks, htext, ?_, by decide, by decide⟩
  have ha := built_deep.ordered.1.layered
  -- the depths of the entries are those of the nodes in the arena
  have hdepths : xs.map (·.2) = (xs.map (·.1)).map (deepProgram.assembly.depthOf ·.id) := by
    rw [List.map_map]
    apply List.map_congr_left
    intro x hx
    have hsome := h.depth x hx
    simp [Assembly.depthOf, hsome]
  have hnodes : some (xs.map (·.1)) = some deepProgram.assembly.nodes.toList :=
    h.walk.symm.trans (by decide)
  have hfirst : deepProgram.assembly.depthOf ⟨0⟩ = 0 := Assembly.depthOf_root rfl rfl
  have houter : deepProgram.assembly.depthOf ⟨1⟩ = 1 := by
    rw [ha.depthOf_child (p := ⟨0⟩) rfl rfl, hfirst]
  have hinner : deepProgram.assembly.depthOf ⟨2⟩ = 2 := by
    rw [ha.depthOf_child (p := ⟨1⟩) rfl rfl, houter]
  have hlast : deepProgram.assembly.depthOf ⟨3⟩ = 1 := by
    rw [ha.depthOf_child (p := ⟨0⟩) rfl rfl, hfirst]
  rw [hdepths, Option.some.inj hnodes]
  show [deepProgram.assembly.depthOf ⟨0⟩, deepProgram.assembly.depthOf ⟨1⟩,
    deepProgram.assembly.depthOf ⟨2⟩, deepProgram.assembly.depthOf ⟨3⟩] = [0, 1, 2, 1]
  rw [hfirst, houter, hinner, hlast]

end Reactors.Program
