import Mathlib.Data.List.Chain
import Mathlib.Data.Nat.Find
import Reactors.Catalog.Cycle
import Reactors.Proofs.Catalog.Lineage

/-! # When the search for a circle finds one

    The search from a reactor finds a way back to it exactly if there is one, although it never goes
    twice to what it has seen: where it has looked in vain, everything ahead has been seen too, and
    nothing of it leads back.
-/

namespace Reactors.Catalog

variable {c : Catalog} {start : ReactorId}

/-! ## One superclass after the other -/

/-- The search goes on with the next superclass, unless it has ended. -/
def cycleStep (c : Catalog) (start : ReactorId) (fuel : Nat) (s : CycleSearch)
    (super : ReactorId) : CycleSearch :=
  match s.path with
  | some _ => s
  | none =>
    if super = start then ⟨s.seen, some []⟩
    else if super ∈ s.seen then s
    else
      let t := searchCycle c start fuel (super :: s.seen) super
      ⟨t.seen, t.path.map (super :: ·)⟩

theorem searchCycle_succ (fuel : Nat) (seen : List ReactorId) (current : ReactorId) :
    c.searchCycle start (fuel + 1) seen current =
      (c.supers current).foldl (c.cycleStep start fuel) ⟨seen, none⟩ := rfl

/-- Nothing that a reactor extends leads back, as far as the search has seen. -/
def Barren (c : Catalog) (start : ReactorId) (seen : List ReactorId) (r : ReactorId) : Prop :=
  ∀ super ∈ c.supers r, super ≠ start ∧ super ∈ seen

/-- What a part of the search does that goes from `s` to `t`. -/
structure Sweeps (c : Catalog) (start : ReactorId) (s t : CycleSearch) : Prop where
  /-- It has no reactor twice. -/
  nodup : t.seen.Nodup
  /-- The reactors it has seen are there. -/
  there : ∀ r ∈ t.seen, c.HasReactor r
  /-- It forgets nothing. -/
  subset : s.seen ⊆ t.seen
  length : s.seen.length ≤ t.seen.length
  /-- If it ends in vain, then so it does for everything it has newly seen. -/
  barren : t.path = none → s.path = none ∧ ∀ r ∈ t.seen, r ∉ s.seen → c.Barren start t.seen r

theorem Sweeps.refl {s : CycleSearch} (hn : s.seen.Nodup) (hs : ∀ r ∈ s.seen, c.HasReactor r) :
    c.Sweeps start s s where
  nodup := hn
  there := hs
  subset := fun _ h => h
  length := Nat.le_refl _
  barren := fun h => ⟨h, fun _ hr hnr => absurd hr hnr⟩

theorem Barren.mono {seen seen' : List ReactorId} (h : seen ⊆ seen') {r : ReactorId}
    (hb : c.Barren start seen r) : c.Barren start seen' r :=
  fun super hsuper => ⟨(hb super hsuper).1, h (hb super hsuper).2⟩

theorem Sweeps.trans {s t u : CycleSearch} (h : c.Sweeps start s t) (h' : c.Sweeps start t u) :
    c.Sweeps start s u where
  nodup := h'.nodup
  there := h'.there
  subset := fun _ hr => h'.subset (h.subset hr)
  length := Nat.le_trans h.length h'.length
  barren := by
    intro hu
    obtain ⟨ht, hnew⟩ := h'.barren hu
    obtain ⟨hs, hold⟩ := h.barren ht
    refine ⟨hs, fun r hr hnr => ?_⟩
    by_cases hrt : r ∈ t.seen
    · exact (hold r hrt hnr).mono h'.subset
    · exact hnew r hr hrt

/-! ## The search -/

/-- A way from `r` back to `start`, without its ends. -/
def LeadsBack (c : Catalog) (start r : ReactorId) (path : List ReactorId) : Prop :=
  (r :: path ++ [start]).IsChain c.Extends

/-- What a search that goes from `s` to `t` has found out about these superclasses of `current`. -/
structure Examines (c : Catalog) (start current : ReactorId) (s t : CycleSearch)
    (supers : List ReactorId) : Prop where
  sweeps : c.Sweeps start s t
  /-- If it ends in vain, none of them is the start, and all were seen. -/
  vain : t.path = none → ∀ super ∈ supers, super ≠ start ∧ super ∈ t.seen
  /-- A way that it has found leads back from the current reactor. -/
  found : ∀ path, t.path = some path → c.LeadsBack start current path

theorem Ready.swept {fuel : Nat} {s t : CycleSearch} (h : c.Ready fuel s.seen)
    (hsweep : c.Sweeps start s t) : c.Ready fuel t.seen where
  nodup := hsweep.nodup
  there := hsweep.there
  enough := by
    have hlt := h.enough
    have hle := hsweep.length
    omega

section search
variable {fuel : Nat} {current super : ReactorId} {s t u : CycleSearch}

theorem Examines.trans {supers : List ReactorId} (h : c.Examines start current s t [super])
    (h' : c.Examines start current t u supers) :
    c.Examines start current s u (super :: supers) where
  sweeps := h.sweeps.trans h'.sweeps
  vain := by
    intro hu x hx
    rcases List.mem_cons.mp hx with rfl | hx
    · obtain ⟨hne, hseen⟩ := h.vain (h'.sweeps.barren hu).1 x (by simp)
      exact ⟨hne, h'.sweeps.subset hseen⟩
    · exact h'.vain hu x hx
  found := h'.found

/-- One superclass, where a nested search is understood. -/
theorem cycleStep_examines (hc : c.Closed)
    (ih : ∀ seen r, c.Ready fuel seen →
      c.Examines start r ⟨seen, none⟩ (c.searchCycle start fuel seen r) (c.supers r))
    (hext : c.Extends current super) (hs : c.Ready (fuel + 1) s.seen)
    (hpath : ∀ path, s.path = some path → c.LeadsBack start current path) :
    c.Examines start current s (c.cycleStep start fuel s super) [super] := by
  have hrefl : c.Sweeps start s s := Sweeps.refl hs.nodup hs.there
  unfold cycleStep
  split
  · -- a way was found before
    next path hp => exact ⟨hrefl, fun h => by simp [hp] at h, hpath⟩
  next hnone =>
  split
  · next heq =>
    refine ⟨⟨hs.nodup, hs.there, fun _ h => h, Nat.le_refl _, by simp⟩, by simp, ?_⟩
    intro path hpath
    cases hpath
    exact .cons_cons (heq ▸ hext) (.singleton _)
  next hne =>
  split
  · next hmem => exact ⟨hrefl, fun _ => by simpa using ⟨hne, hmem⟩, hpath⟩
  next hmem =>
  -- a reactor that was not seen: the nested search starts with it among the seen
  have hnested := ih (super :: s.seen) super (hs.mark (hc.hasReactor_super hext) hmem)
  have hsweep := hnested.sweeps
  have hin : super ∈ (c.searchCycle start fuel (super :: s.seen) super).seen :=
    hsweep.subset (by simp)
  refine ⟨⟨hsweep.nodup, hsweep.there, fun r hr => hsweep.subset (by simp [hr]), ?_, ?_⟩,
    fun _ => by simpa using ⟨hne, hin⟩, ?_⟩
  · have hle := hsweep.length
    simp only [List.length_cons] at hle
    show s.seen.length ≤ (c.searchCycle start fuel (super :: s.seen) super).seen.length
    omega
  · intro h
    rw [Option.map_eq_none_iff] at h
    refine ⟨hnone, fun r hr hnr => ?_⟩
    by_cases hrs : r = super
    · exact hrs ▸ hnested.vain h
    · exact (hsweep.barren h).2 r hr (by simp [hrs, hnr])
  · intro path h
    obtain ⟨rest, hrest, rfl⟩ := Option.map_eq_some_iff.mp h
    exact .cons_cons hext (hnested.found rest hrest)

/-- The superclasses one after the other, where a nested search is understood. -/
theorem foldl_examines (hc : c.Closed)
    (ih : ∀ seen r, c.Ready fuel seen →
      c.Examines start r ⟨seen, none⟩ (c.searchCycle start fuel seen r) (c.supers r))
    (supers : List ReactorId) (hext : ∀ r ∈ supers, c.Extends current r)
    (s : CycleSearch) (hs : c.Ready (fuel + 1) s.seen)
    (hpath : ∀ path, s.path = some path → c.LeadsBack start current path) :
    c.Examines start current s (supers.foldl (c.cycleStep start fuel) s) supers := by
  induction supers generalizing s with
  | nil => exact ⟨Sweeps.refl hs.nodup hs.there, by simp, hpath⟩
  | cons super supers ih' =>
    have hstep := cycleStep_examines hc ih (hext super (by simp)) hs hpath
    have hrest := ih' (fun r hr => hext r (by simp [hr])) (c.cycleStep start fuel s super)
      (hs.swept hstep.sweeps) hstep.found
    exact hstep.trans hrest

/-- A search from `current` with enough fuel either finds a way back or ends in vain. -/
theorem searchCycle_examines (hc : c.Closed) (start : ReactorId) (fuel : Nat)
    (seen : List ReactorId) (current : ReactorId) (hs : c.Ready fuel seen) :
    c.Examines start current ⟨seen, none⟩ (c.searchCycle start fuel seen current)
      (c.supers current) := by
  -- on the fuel: a nested search has one unit less and one more reactor seen
  induction fuel generalizing seen current with
  | zero => exact absurd hs not_ready_zero
  | succ fuel ih =>
    rw [searchCycle_succ]
    exact foldl_examines hc ih (c.supers current) (fun r hr => hr) ⟨seen, none⟩ hs (by simp)

end search

/-! ## Fuel -/

section fuel
variable (hc : c.Closed)
include hc

/-- The superclasses one after the other, where more fuel changes no nested search. -/
theorem foldl_cycleStep_succ {fuel : Nat} {current : ReactorId}
    (ih : ∀ seen r, c.Ready fuel seen →
      c.searchCycle start (fuel + 1) seen r = c.searchCycle start fuel seen r)
    (supers : List ReactorId) (hext : ∀ r ∈ supers, c.Extends current r) (s : CycleSearch)
    (hs : c.Ready (fuel + 1) s.seen)
    (hpath : ∀ path, s.path = some path → c.LeadsBack start current path) :
    supers.foldl (c.cycleStep start (fuel + 1)) s = supers.foldl (c.cycleStep start fuel) s := by
  induction supers generalizing s with
  | nil => rfl
  | cons super supers ih' =>
    rw [List.forall_mem_cons] at hext
    have hstep := cycleStep_examines hc (searchCycle_examines hc start fuel) hext.1 hs hpath
    have hsame : c.cycleStep start (fuel + 1) s super = c.cycleStep start fuel s super := by
      unfold cycleStep
      by_cases hmem : super ∈ s.seen
      · simp only [if_pos hmem]
      · simp only [if_neg hmem, ih _ super (hs.mark (hc.hasReactor_super hext.1) hmem)]
    rw [List.foldl_cons, List.foldl_cons, hsame]
    exact ih' hext.2 _ (hs.swept hstep.sweeps) hstep.found

/-- More fuel than enough changes nothing. -/
theorem searchCycle_more (fuel : Nat) (seen : List ReactorId) (current : ReactorId)
    (hs : c.Ready fuel seen) :
    c.searchCycle start (fuel + 1) seen current = c.searchCycle start fuel seen current := by
  induction fuel generalizing seen current with
  | zero => exact absurd hs not_ready_zero
  | succ fuel ih =>
    rw [searchCycle_succ, searchCycle_succ]
    exact foldl_cycleStep_succ hc ih (c.supers current) (fun r hr => hr) ⟨seen, none⟩ hs (by simp)

/-- The search for a circle ends: it is the same with all fuel beyond one unit for each reactor. -/
theorem Closed.searchCycle_eq (r : ReactorId) {fuel : Nat} (h : c.reactors.size < fuel) :
    c.searchCycle r fuel [] r = c.searchCycle r (c.reactors.size + 1) [] r := by
  induction h with
  | refl => rfl
  | @step fuel hle ih =>
    have hready : c.Ready fuel [] := ⟨List.nodup_nil, by simp, hle⟩
    rw [searchCycle_more hc fuel [] r hready, ih]

end fuel

/-! ## Circles -/

/-- A circle through a reactor: from it on, each reactor extends the next and the last one the
    first. -/
def IsCircle (c : Catalog) (r : ReactorId) (cycle : List ReactorId) : Prop :=
  ∃ path, cycle = r :: path ∧ c.LeadsBack r r path

/-- A reactor extends itself, directly or by way of others. -/
def Circular (c : Catalog) (r : ReactorId) : Prop := Relation.TransGen c.Extends r r

/-- A circle leads from its first reactor to each of the others and back. -/
theorem IsCircle.around {r : ReactorId} {cycle : List ReactorId} (h : c.IsCircle r cycle)
    {x : ReactorId} (hx : x ∈ cycle) : c.Reaches r x ∧ Relation.TransGen c.Extends x r := by
  obtain ⟨path, rfl, hpath⟩ := h
  have htrans : ((r :: path) ++ [r]).Pairwise (Relation.TransGen c.Extends) :=
    List.isChain_iff_pairwise.mp (hpath.imp fun _ _ h => .single h)
  have hto : Relation.TransGen c.Extends x r :=
    (List.pairwise_append.mp htrans).2.2 x hx r (by simp)
  rcases List.mem_cons.mp hx with rfl | hx
  · exact ⟨.refl, hto⟩
  · have hfrom : Relation.TransGen c.Extends r x :=
      (List.pairwise_cons.mp htrans).1 x (by simp [hx])
    exact ⟨hfrom.to_reflTransGen, hto⟩

/-- Every reactor on a circle extends itself. -/
theorem IsCircle.circular {r : ReactorId} {cycle : List ReactorId} (h : c.IsCircle r cycle)
    {x : ReactorId} (hx : x ∈ cycle) : c.Circular x := by
  obtain ⟨hfrom, hto⟩ := h.around hx
  exact hto.trans_left hfrom

/-- The search for a circle ends, and finds one exactly if the reactor extends itself. -/
theorem Closed.cycle?_spec (hc : c.Closed) {r : ReactorId} (hr : c.HasReactor r) :
    ∃ o, c.cycle? r = some o ∧ (o = none ↔ ¬ c.Circular r) ∧
      ∀ cycle, o = some cycle → c.IsCircle r cycle := by
  obtain ⟨hsweep, hbarren, hfound⟩ :=
    searchCycle_examines hc r (c.reactors.size + 1) [] r ready_start
  generalize hs : c.searchCycle r (c.reactors.size + 1) [] r = s at hsweep hbarren hfound
  have hthere : ∀ x ∈ r :: s.seen, ∃ d, c.reactor? x = some d := by
    intro x hx
    rcases List.mem_cons.mp hx with rfl | hx
    · exact hasReactor_iff.mp hr
    · exact hasReactor_iff.mp (hsweep.there x hx)
  obtain ⟨ds, hds⟩ := Lookup.exists_mapM hthere
  have hcircle : ∀ cycle, s.path.map (r :: ·) = some cycle → c.IsCircle r cycle := by
    intro cycle h
    obtain ⟨path, hpath, rfl⟩ := Option.map_eq_some_iff.mp h
    exact ⟨path, rfl, hfound path hpath⟩
  refine ⟨s.path.map (r :: ·), by simp [cycle?, hs, hds], ?_, hcircle⟩
  constructor
  · intro h hcirc
    rw [Option.map_eq_none_iff] at h
    -- all that can be reached from `r` was seen in vain, so it is not `r`
    have hall : ∀ x, Relation.TransGen c.Extends r x → x ≠ r ∧ x ∈ s.seen := by
      intro x hx
      induction hx with
      | single hext => exact hbarren h _ hext
      | tail _ hext ih => exact (hsweep.barren h).2 _ ih.2 (by simp) _ hext
    exact (hall r hcirc).1 rfl
  · intro hcirc
    cases hp : s.path with
    | none => rfl
    | some path =>
      have hcircle' := hcircle (r :: path) (by rw [hp]; rfl)
      exact absurd (hcircle'.circular (by simp)) hcirc

/-! ## Simple circles -/

/-- What a search that had seen `seen` leaves: it has seen no less, and a way that it has found leads
    through nothing twice, and neither through the start nor through what had been seen. -/
structure Forward (start : ReactorId) (seen : List ReactorId) (s : CycleSearch) : Prop where
  subset : seen ⊆ s.seen
  nodup : ∀ path, s.path = some path → path.Nodup
  fresh : ∀ path, s.path = some path → ∀ r ∈ path, r ≠ start ∧ r ∉ seen

theorem Forward.none (seen : List ReactorId) : Forward start seen ⟨seen, none⟩ :=
  ⟨fun _ h => h, by simp, by simp⟩

section simple
variable {fuel : Nat} {seen : List ReactorId} {s : CycleSearch}

/-- One superclass, where nested searches are understood. -/
theorem Forward.cycleStep (ih : ∀ seen r, Forward start seen (c.searchCycle start fuel seen r))
    (h : Forward start seen s) (super : ReactorId) :
    Forward start seen (c.cycleStep start fuel s super) := by
  unfold Catalog.cycleStep
  split
  · exact h
  split
  · exact ⟨h.subset, by simp, by simp⟩
  next hne =>
  split
  · exact h
  next hnew =>
  -- a way from here on keeps clear of this superclass, which was just marked
  have hnested := ih (super :: s.seen) super
  refine ⟨fun r hr => hnested.subset (by simp [h.subset hr]), ?_, ?_⟩
  · intro path hpath
    obtain ⟨rest, hrest, rfl⟩ := Option.map_eq_some_iff.mp hpath
    refine List.nodup_cons.mpr ⟨fun hmem => ?_, hnested.nodup rest hrest⟩
    exact (hnested.fresh rest hrest super hmem).2 (by simp)
  · intro path hpath r hr
    obtain ⟨rest, hrest, rfl⟩ := Option.map_eq_some_iff.mp hpath
    rcases List.mem_cons.mp hr with rfl | hr
    · exact ⟨hne, fun hmem => hnew (h.subset hmem)⟩
    · obtain ⟨hne', hnot⟩ := hnested.fresh rest hrest r hr
      exact ⟨hne', fun hmem => hnot (by simp [h.subset hmem])⟩

theorem forward_searchCycle (fuel : Nat) (seen : List ReactorId) (current : ReactorId) :
    Forward start seen (c.searchCycle start fuel seen current) := by
  induction fuel generalizing seen current with
  | zero => exact .none seen
  | succ fuel ih =>
    rw [searchCycle_succ]
    generalize c.supers current = supers
    generalize hs : CycleSearch.mk seen none = s
    have hforward : Forward start seen s := hs ▸ .none seen
    clear hs
    induction supers generalizing s with
    | nil => exact hforward
    | cons super supers ih' => exact ih' _ (hforward.cycleStep ih super)

end simple

/-- No circle that is found leads through a reactor twice. -/
theorem nodup_cycle? {r : ReactorId} {cycle : List ReactorId}
    (h : c.cycle? r = some (some cycle)) : cycle.Nodup := by
  unfold cycle? at h
  obtain ⟨_, _, h⟩ := Option.bind_eq_some_iff.mp h
  obtain ⟨path, hpath, rfl⟩ := Option.map_eq_some_iff.mp (Option.some.inj h)
  have hsearch : Forward r [] (c.searchCycle r (c.reactors.size + 1) [] r) :=
    forward_searchCycle _ _ _
  refine List.nodup_cons.mpr ⟨fun hmem => ?_, hsearch.nodup path hpath⟩
  exact (hsearch.fresh path hpath r hmem).1 rfl

/-! ## Components -/

/-- The reactors that extend a reactor and are extended by it, each directly, by way of others or as
    the reactor itself. -/
def component (c : Catalog) (r : ReactorId) : Set ReactorId :=
  {s | c.Reaches r s ∧ c.Reaches s r}

/-- A circle stays within one component. -/
theorem IsCircle.mem_component {r : ReactorId} {cycle : List ReactorId} (h : c.IsCircle r cycle)
    {x : ReactorId} (hx : x ∈ cycle) : x ∈ c.component r := by
  obtain ⟨hfrom, hto⟩ := h.around hx
  exact ⟨hfrom, hto.to_reflTransGen⟩

/-- In the component of a reactor that extends itself, all do. -/
theorem Circular.of_mem_component {r s : ReactorId} (hr : c.Circular r)
    (hs : s ∈ c.component r) : c.Circular s :=
  (Relation.TransGen.trans_right hs.2 hr).trans_left hs.1

/-- Where a reactor extends itself, a reactor of its component is the one created first. -/
theorem exists_first_of_component (r : ReactorId) :
    ∃ s ∈ c.component r, ∀ t ∈ c.component r, s.index ≤ t.index := by
  classical
  have hex : ∃ i, ∃ s ∈ c.component r, s.index = i := ⟨r.index, r, ⟨.refl, .refl⟩, rfl⟩
  obtain ⟨s, hs, hindex⟩ := Nat.find_spec hex
  refine ⟨s, hs, fun t ht => ?_⟩
  rw [hindex]
  exact Nat.find_min' hex ⟨t, ht, rfl⟩

/-- Two reactors of one component have the same component. -/
theorem component_eq {r s : ReactorId} (hs : s ∈ c.component r) : c.component s = c.component r := by
  ext t
  exact ⟨fun ht => ⟨hs.1.trans ht.1, ht.2.trans hs.2⟩, fun ht => ⟨hs.2.trans ht.1, ht.2.trans hs.1⟩⟩

/-! ## Leading circles

    Of the reactors on a circle the one that was created first leads.  A search from each reactor
    finds one circle through it at most, and that one need not be led by it.  Still, the first of a
    whole component leads whatever circle is found through it, so in every component that has a
    circle one is found by its leader. -/

/-- A circle that is led by a reactor: it starts there, goes through nothing twice, and no reactor
    on it was created before. -/
structure Leads (c : Catalog) (r : ReactorId) (cycle : List ReactorId) : Prop where
  circle : c.IsCircle r cycle
  nodup : cycle.Nodup
  first : ∀ x ∈ cycle, r.index ≤ x.index

theorem Leads.head? {r : ReactorId} {cycle : List ReactorId} (h : c.Leads r cycle) :
    cycle.head? = some r := by
  obtain ⟨path, rfl, _⟩ := h.circle
  rfl

/-- The circles `cycles` are what the reactors `rs`, one after the other, find and lead. -/
structure Led (c : Catalog) (rs : List ReactorId) (cycles : List (List ReactorId)) : Prop where
  leads : ∀ cycle ∈ cycles, ∃ r, c.Leads r cycle
  /-- Each reactor leads one of them at most. -/
  once : (cycles.map List.head?).Sublist (rs.map some)
  /-- The first of a component with a circle leads one. -/
  found : ∀ r ∈ rs, c.Circular r → (∀ s ∈ c.component r, r.index ≤ s.index) →
    ∃ cycle ∈ cycles, cycle.head? = some r

theorem Led.append {rs ss : List ReactorId} {cycles cycles' : List (List ReactorId)}
    (h : c.Led rs cycles) (h' : c.Led ss cycles') : c.Led (rs ++ ss) (cycles ++ cycles') where
  leads := by
    intro cycle hcycle
    rcases List.mem_append.mp hcycle with hcycle | hcycle
    · exact h.leads cycle hcycle
    · exact h'.leads cycle hcycle
  once := by
    rw [List.map_append, List.map_append]
    exact h.once.append h'.once
  found := by
    intro r hr hcirc hfirst
    rcases List.mem_append.mp hr with hr | hr
    · obtain ⟨cycle, hcycle, hhead⟩ := h.found r hr hcirc hfirst
      exact ⟨cycle, List.mem_append_left _ hcycle, hhead⟩
    · obtain ⟨cycle, hcycle, hhead⟩ := h'.found r hr hcirc hfirst
      exact ⟨cycle, List.mem_append_right _ hcycle, hhead⟩

/-- Which circles are led depends on nothing but what extends what. -/
theorem Led.congr {c' : Catalog} (hext : c'.Extends = c.Extends) {rs : List ReactorId}
    {cycles : List (List ReactorId)} (h : c.Led rs cycles) : c'.Led rs cycles := by
  have hcircle : ∀ r cycle, c.IsCircle r cycle → c'.IsCircle r cycle := by
    intro r cycle hcycle
    unfold IsCircle LeadsBack
    rw [hext]
    exact hcycle
  have hcomponent : ∀ r, c'.component r = c.component r := by
    intro r
    unfold component Reaches
    rw [hext]
  refine ⟨?_, h.once, ?_⟩
  · intro cycle hcycle
    obtain ⟨r, hr⟩ := h.leads cycle hcycle
    exact ⟨r, hcircle r cycle hr.circle, hr.nodup, hr.first⟩
  · intro r hr hcirc hfirst
    unfold Circular at hcirc
    rw [hext] at hcirc
    exact h.found r hr hcirc fun s hs => hfirst s (hcomponent r ▸ hs)

/-- Where every reactor has its turn, each component that has a circle has one of those that are
    led, and that circle stays within it. -/
theorem Led.exists_of_circular {rs : List ReactorId} {cycles : List (List ReactorId)}
    (h : c.Led rs cycles) (hrs : ∀ r, c.HasReactor r → r ∈ rs) {r : ReactorId}
    (hr : c.Circular r) : ∃ cycle ∈ cycles, ∀ x ∈ cycle, x ∈ c.component r := by
  obtain ⟨s, hs, hmin⟩ := exists_first_of_component (c := c) r
  have hcirc := hr.of_mem_component hs
  have hcomponent := component_eq hs
  obtain ⟨t, hext, _⟩ := Relation.TransGen.head'_iff.mp hcirc
  obtain ⟨cycle, hcycle, hhead⟩ := h.found s (hrs s (hasReactor_of_extends hext)) hcirc
    fun t ht => hmin t (hcomponent ▸ ht)
  obtain ⟨q, hleads⟩ := h.leads cycle hcycle
  have hqs : q = s := Option.some.inj (hleads.head?.symm.trans hhead)
  refine ⟨cycle, hcycle, fun x hx => ?_⟩
  rw [← hcomponent, ← hqs]
  exact hleads.circle.mem_component hx

/-- So none is led exactly if there is none. -/
theorem Led.eq_nil_iff {rs : List ReactorId} {cycles : List (List ReactorId)}
    (h : c.Led rs cycles) (hrs : ∀ r, c.HasReactor r → r ∈ rs) :
    cycles = [] ↔ ∀ r, ¬ c.Circular r := by
  constructor
  · intro hnil r hr
    obtain ⟨cycle, hcycle, _⟩ := h.exists_of_circular hrs hr
    simp [hnil] at hcycle
  · intro hno
    rw [List.eq_nil_iff_forall_not_mem]
    intro cycle hcycle
    obtain ⟨r, hleads⟩ := h.leads cycle hcycle
    obtain ⟨path, rfl, _⟩ := hleads.circle
    exact hno r (hleads.circle.circular (by simp))

end Reactors.Catalog
