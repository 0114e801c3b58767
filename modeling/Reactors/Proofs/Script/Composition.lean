import Reactors.Proofs.Assembly.Preorder
import Reactors.Proofs.Script.Pointwise

/-! # Values are put together from parts

    What is collected for an instance and everything inside it is what the instance gives itself, and
    then what is collected from each of its children.  The part of a child does not depend on where
    the collection started, though its names reach up to the root and its values to the instance
    around it.  So the parts can be collected on their own and in any order.
-/

namespace Reactors.Program

open Script

/-! ## Parts -/

/-- Maps and reports, those of each part behind those of the part before. -/
def joined (parts : List (List Overrides × List Diagnostic)) :
    List Overrides × List Diagnostic :=
  (parts.flatMap (·.1), parts.flatMap (·.2))

/-- What is collected for the instance `n` at `r` and everything inside it: its own `map` and
    `reports`, and the `parts` of its children. -/
structure Composed (p : Program) (r : NodeId) (n : Assembly.Node) (map : Overrides)
    (reports : List Diagnostic) (parts : List (List Overrides × List Diagnostic)) : Prop where
  own : (p.overridesAt n).run = some (map, reports)
  node : map.node = r
  children : n.children.mapM (fun c => (p.overridesBelow c).run) = some parts
  whole : (p.overridesBelow r).run = some (joined (([map], reports) :: parts))
  /-- In whatever order the parts are collected, each child has its part among them. -/
  order : ∀ cs : List NodeId, cs.Perm n.children → ∃ pieces,
    cs.mapM (fun c => (p.overridesBelow c).run.map (c, ·)) = some pieces ∧
    n.children.filterMap (pieces.lookup ·) = parts
  /-- What is collected from an instance deeper inside is a part as well. -/
  inner : ∀ s, p.assembly.Under s r → ∃ before part after,
    (p.overridesBelow s).run = some part ∧
    (p.overridesBelow r).run = some (joined [before, part, after])

/-- What is listed under `x` is found there. -/
theorem lookup_of_mapM {α β : Type} [DecidableEq α] {f : α → Option β} {xs : List α}
    {pieces : List (α × β)} (h : xs.mapM (fun x => (f x).map (x, ·)) = some pieces) {x : α}
    (hx : x ∈ xs) : pieces.lookup x = f x := by
  rw [Lookup.mapM_eq_some_iff] at h
  induction h with
  | nil => simp at hx
  | @cons y piece xs pieces hy _ ih =>
    obtain ⟨b, hb, rfl⟩ := Option.map_eq_some_iff.mp hy
    by_cases hxy : x = y
    · subst hxy
      rw [List.lookup_cons_self, hb]
    · have hne : (x == y) = false := beq_eq_false_iff_ne.mpr hxy
      rw [List.lookup_cons, hne]
      exact ih (List.mem_of_ne_of_mem hxy hx)

/-! ## Nodes -/

variable (p : Program)

/-- What is collected for some instances. -/
def valuesOf (ns : List Assembly.Node) : List Overrides × List Diagnostic :=
  (ns.map p.overridesOf, ns.flatMap fun n => (p.visibleOf n.reactor).flatMap (slotReports n))

theorem valuesOf_append (ns ms : List Assembly.Node) :
    p.valuesOf (ns ++ ms) = joined [p.valuesOf ns, p.valuesOf ms] := by
  simp [valuesOf, joined]

theorem valuesOf_flatten (nss : List (List Assembly.Node)) :
    p.valuesOf nss.flatten = joined (nss.map p.valuesOf) := by
  induction nss with
  | nil => rfl
  | cons ns nss ih => rw [List.flatten_cons, valuesOf_append, ih]; simp [joined]

variable {p}

theorem overridesBelow_values (hp : p.Closed) {i : NodeId} {ns : List Assembly.Node}
    (h : p.assembly.preorder? i = some ns) : (p.overridesBelow i).run = some (p.valuesOf ns) :=
  overridesBelow_of_preorder hp h (hp.assembly.found_of_preorder h)

/-! ## Programs -/

theorem Closed.composed (hp : p.Closed) (ha : p.assembly.Layered) {r : NodeId} {n : Assembly.Node}
    (hn : p.assembly.node? r = some n) :
    ∃ map reports parts, p.Composed r n map reports parts := by
  obtain ⟨nss, hwhole, hparts⟩ := ha.preorder?_children hn
  have hfound : p.assembly.node? n.id = some n := by rw [ha.id hn, hn]
  have hown : (p.overridesAt n).run = some (p.overridesOf n, _) :=
    overridesAt_run hp hfound (hp.visible? (hp.reactor hn))
  have hchildren : n.children.mapM (fun c => (p.overridesBelow c).run) =
      some (nss.map p.valuesOf) := by
    rw [Lookup.mapM_eq_some_iff, List.forall₂_map_right_iff]
    exact (Lookup.mapM_eq_some_iff.mp hparts).imp fun _ _ h => overridesBelow_values hp h
  refine ⟨_, _, _,
    { own := hown
      node := ha.id hn
      children := hchildren
      whole := ?_
      order := ?_
      inner := ?_ }⟩
  · rw [overridesBelow_values hp hwhole, ← List.singleton_append, valuesOf_append,
      valuesOf_flatten]
    simp [valuesOf, joined]
  · intro cs hperm
    have hends : ∀ c ∈ cs, ∃ piece, (p.overridesBelow c).run.map (c, ·) = some piece := by
      intro c hc
      obtain ⟨part, _, hpart⟩ := Lookup.exists_mem_of_mapM hchildren (hperm.subset hc)
      exact ⟨(c, part), by rw [hpart]; rfl⟩
    obtain ⟨pieces, hpieces⟩ := Lookup.exists_mapM hends
    refine ⟨pieces, hpieces, Lookup.filterMap_eq_of_forall₂
      (Lookup.forall₂_mem (Lookup.mapM_eq_some_iff.mp hchildren)) ?_⟩
    intro c part ⟨hc, _, hpart⟩
    rw [lookup_of_mapM hpieces (hperm.symm.subset hc), hpart]
  · intro s hs
    obtain ⟨before, part, after, hpart, hall⟩ :=
      ha.preorder?_under hs (Assembly.hasNode_of_some hn)
    refine ⟨p.valuesOf before, p.valuesOf part, p.valuesOf after, overridesBelow_values hp hpart, ?_⟩
    rw [overridesBelow_values hp hall, List.append_assoc, valuesOf_append, valuesOf_append]
    simp [joined]

/-- Whatever the options of a program are: the values of an instance and of everything inside it are
    put together from its own and from the parts of its children, and these can be collected in any
    order.  (A node that was added as its own parent has no walk that ends.) -/
theorem overrides_composed (hmade : p.Made) (hrange : p.InRange)
    (hself : ∀ {i n}, p.assembly.node? i = some n → n.parent ≠ some i) (o : Options) {r : NodeId}
    {n : Assembly.Node} (hn : p.assembly.node? r = some n) :
    ∃ map reports parts, ({ p with options := o } : Program).Composed r n map reports parts := by
  have hp := (hmade.closed hrange).withOptions o
  exact hp.composed (hmade.layered hself) hn

/-- The history of the instances with reports, and another instance inside. -/
def patchyPairHistory : List Edit := patchyHistory ++ [.addChild ⟨0⟩ "b" ⟨0⟩ [] .nowhere]

/-- The program that it builds. -/
def patchyPair : Program := (edits? {} patchyPairHistory).getD {}

theorem built_patchyPair : Built patchyPairHistory patchyPair := built_getD (by decide)

/-- Its root. -/
def patchyRoot : Assembly.Node :=
  ⟨⟨0⟩, "main", ⟨0⟩, none, [⟨1⟩, ⟨2⟩], [⟨⟨0⟩, [.param ⟨2⟩], .nowhere⟩], .nowhere⟩

/-- The root has two reports, and each of the instances inside has one. -/
theorem overrides_composed_patchyPair :
    patchyPair.Made ∧ patchyPair.InRange ∧
      (∀ {i n}, patchyPair.assembly.node? i = some n → n.parent ≠ some i) ∧
      patchyPair.assembly.node? ⟨0⟩ = some patchyRoot ∧
      ∃ map reports parts,
        ({ patchyPair with options := .standard } : Program).Composed ⟨0⟩ patchyRoot map reports
          parts ∧
        reports.length = 2 ∧ parts.map (fun part => (part.1.length, part.2.length)) =
          [(1, 1), (1, 1)] := by
  have hmade := built_patchyPair.made
  have hclosed := built_patchyPair.closed
  have hself : ∀ {i n}, patchyPair.assembly.node? i = some n → n.parent ≠ some i :=
    fun hn hpar => Nat.lt_irrefl _ (built_patchyPair.ordered.1.older hn hpar)
  have hroot : patchyPair.assembly.node? ⟨0⟩ = some patchyRoot := by decide
  obtain ⟨map, reports, parts, h⟩ :=
    overrides_composed hmade hclosed.inRange hself .standard hroot
  have hp := hclosed.withOptions .standard
  refine ⟨hmade, hclosed.inRange, hself, hroot, map, reports, parts, h, ?_, ?_⟩
  · have hown := overridesAt_run hp hroot (hp.visible? (hp.reactor hroot))
    rw [h.own] at hown
    cases hown
    decide
  · have hfirst : patchyPair.assembly.preorder? ⟨1⟩ =
        some ((patchyPair.assembly.nodes.toList.drop 1).take 1) := by decide
    have hsecond : patchyPair.assembly.preorder? ⟨2⟩ =
        some (patchyPair.assembly.nodes.toList.drop 2) := by decide
    have hchildren := Lookup.mapM_eq_some_iff.mp h.children
    simp only [patchyRoot] at hchildren
    obtain _ | ⟨hpart, _ | ⟨hpart', _ | _⟩⟩ := hchildren
    rw [overridesBelow_values hp hfirst] at hpart
    rw [overridesBelow_values hp hsecond] at hpart'
    cases hpart
    cases hpart'
    decide

end Reactors.Program
