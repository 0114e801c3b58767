import Reactors.Proofs.Catalog.Order
import Reactors.Proofs.Model.Faithful
import Reactors.Proofs.Model.History
import Reactors.Proofs.Program.Arena

/-! # Inheritance of any shape

    Reactors may extend one another in any way, in diamonds, more than once, or in circles.  The
    collection of the parameters visible on a reactor ends all the same, and comes to one block for
    each reactor that is reached: the parameters that this reactor owns, in order of declaration.
    And the search for a circle through a reactor finds one exactly if there is one.

    Both searches have fuel in their definitions.  It covers them: more of it changes nothing.
-/

namespace Reactors

open Relation (TransGen)

/-! ## Made programs -/

namespace Program

variable {p : Program}

/-- No edit, in range or not, leaves a reactor with a list that is not what it owns. -/
theorem owned_edit {p' : Program} {e : Edit} (hc : p.catalog.Owned) (h : p.edit? e = some p') :
    p'.catalog.Owned := by
  cases step_of_edit h with
  | declare name span => exact hc.declare name span
  | extend hc' => exact hc.extend hc'
  | addParameter hc' => exact hc.addParameter hc'
  | setDefault hc' => exact hc.setDefault hc'
  | addRoot name r span => exact hc
  | addChild ha => exact hc
  | assign ha => exact hc

theorem Made.owned (h : p.Made) : p.catalog.Owned := by
  -- on how the program was made
  induction h with
  | empty => exact Catalog.owned_empty
  | @load m p h =>
    obtain ⟨history, hbuilt⟩ := Model.bindAll_built m p [] (Model.bindAll_quiet h)
    exact hbuilt.ordered.2
  | edit _ e h ih => exact owned_edit ih h
  | options _ _ ih => exact ih

end Program

/-! ## Blocks of parameters -/

namespace Catalog

variable {c : Catalog} {d : ReactorId}

/-- The reactor itself is left last. -/
theorem exists_lineage_concat (c : Catalog) (d : ReactorId) :
    ∃ rest, c.lineage d = rest ++ [d] :=
  ⟨_, rfl⟩

/-- Blocks of different reactors share no parameter, for it has one owner. -/
theorem Owned.nodup_flatMap_own (hc : c.Owned) {rs : List ReactorId} (hrs : rs.Nodup) :
    (rs.flatMap c.own).Nodup := by
  rw [List.nodup_flatMap]
  refine ⟨fun r _ => hc.nodup_own r, hrs.imp fun {r s} hne q hr hs => hne ?_⟩
  obtain ⟨x, hx, hxr⟩ := hc.mem_own_iff.mp hr
  obtain ⟨y, hy, hys⟩ := hc.mem_own_iff.mp hs
  rw [hx] at hy
  cases hy
  exact hxr.symm.trans hys

/-- What the collection of the parameters visible on `d` comes to: the parameters `qs`, in blocks of
    which there is one for each of the reactors `rs`. -/
structure Collects (c : Catalog) (d : ReactorId) (rs : List ReactorId) (qs : List ParamId) :
    Prop where
  /-- The search through the superclasses ends: more fuel changes nothing. -/
  ends : ∀ fuel, c.reactors.size < fuel → (c.search fuel ⟨[], []⟩ d).left = rs
  /-- No parameter is collected twice. -/
  nodup : qs.Nodup
  /-- Collected is what `d` owns or what a reactor owns that is reached from `d`. -/
  mem : ∀ q, q ∈ qs ↔ ∃ x, c.parameter? q = some x ∧ c.Reaches d x.owner
  /-- The blocks stand one behind the other, with nothing between them. -/
  blocks : qs = rs.flatMap c.own
  /-- Each reached reactor has one block. -/
  once : rs.Nodup
  reached : ∀ r, r ∈ rs ↔ c.Reaches d r
  /-- The block of a reactor is what it owns, in order of declaration. -/
  own : ∀ r q, q ∈ c.own r ↔ ∃ x, c.parameter? q = some x ∧ x.owner = r
  ascending : ∀ r, (c.own r).Pairwise fun q s => q.index < s.index
  /-- The block of `d` is the last one. -/
  last : ∃ rest, rs = rest ++ [d]
  /-- If no circle is reached, then the block of a reactor stands behind those of all reactors that
      it extends, directly or by way of others. -/
  sorted : (∀ r, c.Reaches d r → ¬ c.Circular r) →
    ∀ before r after, rs = before ++ r :: after → ∀ s, TransGen c.Extends r s → s ∈ before

end Catalog

/-! ## The collection -/

namespace Program

variable {p : Program}

/-- The parameters visible on a reactor are collected, whatever extends what. -/
theorem visible_collected (hmade : p.Made) (hc : p.catalog.Closed) {d : ReactorId}
    (hd : p.catalog.HasReactor d) :
    ∃ rs qs, p.catalog.visibleIds? d = some qs ∧ p.catalog.Collects d rs qs := by
  have howned := hmade.owned
  have hvisible := hc.visibleIds?_eq hd
  have hnodup := hc.nodup_lineage hd
  refine ⟨p.catalog.lineage d, (p.catalog.lineage d).flatMap p.catalog.own, hvisible, ?_⟩
  refine
    { ends := fun fuel hfuel => hc.search_eq_lineage hd hfuel
      nodup := howned.nodup_flatMap_own hnodup
      mem := ?_
      blocks := rfl
      once := hnodup
      reached := fun r => hc.mem_lineage_iff hd
      own := fun r q => howned.mem_own_iff
      ascending := howned.ascending
      last := Catalog.exists_lineage_concat p.catalog d
      sorted := ?_ }
  · intro q
    rw [hc.mem_visibleIds_iff hd hvisible]
    -- the list of a reactor has a parameter exactly if the reactor is its owner
    constructor
    · intro ⟨r, hr, hq⟩
      obtain ⟨x, hx, rfl⟩ := howned.mem_own_iff.mp hq
      exact ⟨x, hx, hr⟩
    · intro ⟨x, hx, hr⟩
      exact ⟨x.owner, hr, howned.mem_own_iff.mpr ⟨x, hx, rfl⟩⟩
  · intro hacyclic before r after hsplit s hs
    exact (Catalog.lineage_supersFirst hc hd hacyclic).mem_before hsplit hs

/-- A history in which `Bottom` extends `Base` by way of `Left` twice and of `Right`, and `Odd` and
    `Even` extend each other and `Even` extends `Bottom`.  `Base` gets its second parameter when all
    others have theirs. -/
def diamondHistory : List Edit :=
  [.declare "Base" .nowhere, .declare "Left" .nowhere, .declare "Right" .nowhere,
   .declare "Bottom" .nowhere, .declare "Odd" .nowhere, .declare "Even" .nowhere,
   .extend ⟨1⟩ ⟨0⟩, .extend ⟨2⟩ ⟨0⟩,
   .extend ⟨3⟩ ⟨1⟩, .extend ⟨3⟩ ⟨2⟩, .extend ⟨3⟩ ⟨1⟩,
   .extend ⟨4⟩ ⟨5⟩, .extend ⟨5⟩ ⟨3⟩, .extend ⟨5⟩ ⟨4⟩,
   .addParameter ⟨0⟩ "b" none [.constant (.int 0)] .nowhere,
   .addParameter ⟨1⟩ "l" none [.param ⟨0⟩] .nowhere,
   .addParameter ⟨3⟩ "d" none [.constant (.int 3)] .nowhere,
   .addParameter ⟨4⟩ "o" none [.constant (.int 4)] .nowhere,
   .addParameter ⟨0⟩ "z" none [.param ⟨0⟩] .nowhere]

/-- The program that it builds. -/
def diamondProgram : Program := (edits? {} diamondHistory).getD {}

theorem built_diamond : Built diamondHistory diamondProgram := built_getD (by decide)

theorem visible_collected_diamond :
    diamondProgram.catalog.HasReactor ⟨4⟩ ∧ ∃ rs qs,
      diamondProgram.catalog.visibleIds? ⟨4⟩ = some qs ∧ diamondProgram.catalog.Collects ⟨4⟩ rs qs :=
  have hthere : diamondProgram.catalog.HasReactor ⟨4⟩ :=
    show 4 < diamondProgram.catalog.reactors.size by decide
  ⟨hthere, visible_collected built_diamond.made built_diamond.closed.catalog hthere⟩

/-- The blocks of `Base` and `Left` stand before that of `Bottom`, once each, and `Right` has none. -/
example : diamondProgram.catalog.visibleIds? ⟨4⟩ = some [⟨0⟩, ⟨4⟩, ⟨1⟩, ⟨2⟩, ⟨3⟩] := by decide

end Program

/-! ## The search for a circle -/

namespace Catalog

variable {c : Catalog}

/-- The search for a circle through a reactor ends, and finds one exactly if the reactor extends
    itself.  What it finds starts with the reactor and leads back to it, through nothing twice. -/
theorem circle_search_exact (hc : c.Closed) {d : ReactorId} (hd : c.HasReactor d) :
    ∃ o, c.cycle? d = some o ∧
      (∀ fuel, c.reactors.size < fuel → (c.searchCycle d fuel [] d).path.map (d :: ·) = o) ∧
      (o.isSome ↔ TransGen c.Extends d d) ∧
      ∀ cycle, o = some cycle →
        cycle.head? = some d ∧ cycle.Nodup ∧ (cycle ++ [d]).IsChain c.Extends := by
  obtain ⟨o, ho, hnone, hcircle⟩ := hc.cycle?_spec hd
  refine ⟨o, ho, ?_, ?_, ?_⟩
  · intro fuel hfuel
    rw [hc.searchCycle_eq d hfuel]
    obtain ⟨_, _, hpath⟩ := Option.bind_eq_some_iff.mp ho
    exact Option.some.inj hpath
  · -- a circle through `d` is what extends `d` from `d`, by definition
    rw [← Option.ne_none_iff_isSome, ne_eq, hnone, not_not]
    exact Iff.rfl
  · rintro cycle rfl
    obtain ⟨path, rfl, hback⟩ := hcircle cycle rfl
    exact ⟨rfl, nodup_cycle? ho, hback⟩

theorem circle_search_exact_diamond :
    Program.diamondProgram.catalog.HasReactor ⟨4⟩ ∧
      ∃ o, Program.diamondProgram.catalog.cycle? ⟨4⟩ = some o ∧
        (o.isSome ↔ TransGen Program.diamondProgram.catalog.Extends ⟨4⟩ ⟨4⟩) ∧
        ∀ cycle, o = some cycle → cycle.head? = some ⟨4⟩ ∧ cycle.Nodup ∧
          List.IsChain Program.diamondProgram.catalog.Extends (cycle ++ [⟨4⟩]) :=
  have hthere : Program.diamondProgram.catalog.HasReactor ⟨4⟩ :=
    show 4 < Program.diamondProgram.catalog.reactors.size by decide
  have ⟨o, ho, _, hexact⟩ := circle_search_exact Program.built_diamond.closed.catalog hthere
  ⟨hthere, o, ho, hexact⟩

/-- `Odd` and `Even` are the circle through `Odd`; `Even` is not left out for extending `Bottom`
    first. -/
example : Program.diamondProgram.catalog.cycle? ⟨4⟩ = some (some [⟨4⟩, ⟨5⟩]) := by decide

end Catalog

end Reactors
