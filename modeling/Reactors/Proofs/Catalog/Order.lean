import Reactors.Proofs.Catalog.Cycle

/-! # The order of a lineage

    From where no circle is reached, the search lists everything that a reactor extends before the
    reactor: what it extends was entered when the reactor is left, and what was entered and not left
    leads to the reactor.
-/

namespace Reactors.Catalog

open Relation (TransGen)

variable {c : Catalog}

/-- In a list of reactors each one stands behind everything that it extends. -/
def SupersFirst (c : Catalog) (rs : List ReactorId) : Prop :=
  ∀ before r after, rs = before ++ r :: after → ∀ super ∈ c.supers r, super ∈ before

theorem supersFirst_nil : c.SupersFirst [] := by
  intro before r after h
  simp at h

theorem SupersFirst.concat {rs : List ReactorId} (h : c.SupersFirst rs) {r : ReactorId}
    (hr : ∀ super ∈ c.supers r, super ∈ rs) : c.SupersFirst (rs ++ [r]) := by
  intro before x after heq super hsuper
  rcases List.append_eq_append_iff.mp heq with ⟨mid, rfl, hmid⟩ | ⟨mid, hmid, hafter⟩
  · cases mid with
    | nil =>
      obtain ⟨rfl, _⟩ := List.cons.inj hmid
      rw [List.append_nil]
      exact hr super hsuper
    | cons y mid => simp at hmid
  · cases mid with
    | nil =>
      obtain ⟨rfl, _⟩ := List.cons.inj hafter
      rw [List.append_nil] at hmid
      exact hmid ▸ hr super hsuper
    | cons y mid =>
      obtain ⟨rfl, _⟩ := List.cons.inj hafter
      exact h before x mid hmid super hsuper

/-- What a reactor extends directly or by way of others stands before it. -/
theorem SupersFirst.mem_before {rs : List ReactorId} (h : c.SupersFirst rs)
    {before after : List ReactorId} {r s : ReactorId} (heq : rs = before ++ r :: after)
    (hrs : TransGen c.Extends r s) : s ∈ before := by
  induction hrs using TransGen.head_induction_on generalizing before after with
  | single hext => exact h before _ after heq s hext
  | head hext _ ih =>
    obtain ⟨first, rest, rfl⟩ := List.append_of_mem (h before _ after heq _ hext)
    rw [List.append_assoc, List.cons_append] at heq
    exact List.mem_append_left _ (ih heq)

/-! ## The search -/

/-- Of what the search has entered, what it has not left leads to `r`. -/
def Underway (c : Catalog) (s : Search) (r : ReactorId) : Prop :=
  ∀ x ∈ s.entered, x ∈ s.left ∨ c.Reaches x r

/-- A part of a search leaves what it explores, so that it leaves the way to `r` as it is. -/
theorem Underway.explored {s t : Search} {new : List ReactorId} {r : ReactorId}
    (h : c.Underway s r) (he : c.Explores s t new) : c.Underway t r := by
  intro x hx
  rw [he.left, List.mem_append]
  rcases he.mem_entered.mp hx with hx | hx
  · exact .inl (.inr hx)
  · rcases h x hx with hx | hx
    · exact .inl (.inl hx)
    · exact .inr hx

/-- A search lists what a reactor extends before it, and `r` is listed. -/
structure Sorts (c : Catalog) (s : Search) (r : ReactorId) : Prop where
  first : c.SupersFirst s.left
  mem : r ∈ s.left

section search
variable (hc : c.Closed)
include hc

/-- The superclasses of `r` one after the other, where the search of a single one is understood. -/
theorem foldl_sorts {fuel : Nat} {r : ReactorId} (hr : c.HasReactor r)
    (ih : ∀ s super, c.Ready fuel s.entered → c.Extends r super → c.Underway s r →
      c.SupersFirst s.left → c.Sorts (c.search fuel s super) super)
    (supers : List ReactorId) (hext : ∀ x ∈ supers, c.Extends r x) (s : Search)
    (hs : c.Ready fuel s.entered) (hunder : c.Underway s r) (hfirst : c.SupersFirst s.left) :
    (∀ x ∈ supers, x ∈ (supers.foldl (search c fuel) s).left) ∧
      c.SupersFirst (supers.foldl (search c fuel) s).left := by
  induction supers generalizing s with
  | nil => exact ⟨by simp, hfirst⟩
  | cons super supers ih' =>
    rw [List.forall_mem_cons] at hext
    have hsuper := hc.hasReactor_super hext.1
    obtain ⟨new, hnew, _, hreach⟩ := search_discovers hc fuel s super hs hsuper
    have hsorts := ih s super hs hext.1 hunder hfirst
    have hs' : c.Ready fuel (c.search fuel s super).entered :=
      hs.explored hnew fun x hx => hc.hasReactor_of_reaches hsuper (hreach x hx)
    obtain ⟨hmem, hfirst'⟩ :=
      ih' hext.2 (c.search fuel s super) hs' (hunder.explored hnew) hsorts.first
    obtain ⟨more, hmore, _⟩ := foldl_explores hc
      (fun s r hs hr => search_discovers hc fuel s r hs hr) hr supers hext.2 _ hs'
    rw [List.foldl_cons, List.forall_mem_cons]
    refine ⟨⟨?_, hmem⟩, hfirst'⟩
    -- what is listed once stays listed
    rw [hmore.left]
    exact List.mem_append_left _ hsorts.mem

/-- A search from `r` lists `r`, unless it is under way from `r` already.  Circles beside what `r`
    reaches do no harm. -/
theorem search_sorts (fuel : Nat) (s : Search) (r : ReactorId) (hs : c.Ready fuel s.entered)
    (hr : c.HasReactor r) (hacyclic : ∀ x, c.Reaches r x → ¬ c.Circular x)
    (hunder : ∀ x ∈ s.entered, x ∈ s.left ∨ TransGen c.Extends x r)
    (hfirst : c.SupersFirst s.left) : c.Sorts (c.search fuel s r) r := by
  -- on the fuel, as the search itself
  induction fuel generalizing s r with
  | zero => exact absurd hs not_ready_zero
  | succ fuel ih =>
    rw [search]
    by_cases hmem : r ∈ s.entered
    · rw [if_pos hmem]
      exact ⟨hfirst, (hunder r hmem).resolve_right (hacyclic r .refl)⟩
    · rw [if_neg hmem]
      have hstep : ∀ t super, c.Ready fuel t.entered → c.Extends r super → c.Underway t r →
          c.SupersFirst t.left → c.Sorts (c.search fuel t super) super := by
        intro t super ht hext hway hfirst'
        refine ih t super ht (hc.hasReactor_super hext)
          (fun x hx => hacyclic x (.head hext hx)) (fun x hx => ?_) hfirst'
        exact (hway x hx).imp_right fun hreach => .tail' hreach hext
      have hway : c.Underway { s with entered := r :: s.entered } r := by
        intro x hx
        rcases List.mem_cons.mp hx with rfl | hx
        · exact .inr .refl
        · exact (hunder x hx).imp_right fun htrans => htrans.to_reflTransGen
      obtain ⟨hall, hfirst'⟩ := foldl_sorts hc hr hstep (c.supers r) (fun x hx => hx)
        { s with entered := r :: s.entered } (hs.mark hr hmem) hway hfirst
      exact ⟨hfirst'.concat hall, by simp⟩

/-- The lineage of a reactor that reaches no circle lists everything that one of its reactors
    extends before it. -/
theorem lineage_supersFirst {r : ReactorId} (hr : c.HasReactor r)
    (hacyclic : ∀ x, c.Reaches r x → ¬ c.Circular x) : c.SupersFirst (c.lineage r) :=
  (search_sorts hc _ ⟨[], []⟩ r ready_start hr hacyclic (by simp) supersFirst_nil).first

end search

end Reactors.Catalog
