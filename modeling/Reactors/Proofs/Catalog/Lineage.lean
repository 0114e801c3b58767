import Mathlib.Data.List.Nodup
import Mathlib.Logic.Relation
import Reactors.Proofs.Catalog.Closed
import Reactors.Proofs.Lookup

/-! # What a lineage holds

    The depth-first search for a lineage enters exactly the reactors that can be reached along
    superclasses, whatever circles there are, and lists each of them once.  So the parameters
    visible on a reactor are those declared by the reactors it reaches.
-/

namespace Reactors.Catalog

variable {c : Catalog}

/-! ## Reaching -/

/-- A reactor names another one among those it extends. -/
def Extends (c : Catalog) (r s : ReactorId) : Prop := s ∈ c.supers r

/-- A reactor extends another one, directly or by way of others, or is the same. -/
def Reaches (c : Catalog) : ReactorId → ReactorId → Prop := Relation.ReflTransGen c.Extends

theorem extends_congr {c' : Catalog} (h : ∀ r, c'.supers r = c.supers r) :
    c'.Extends = c.Extends := by
  funext r s
  rw [Extends, h]
  rfl

/-- Only a reactor that is there extends something. -/
theorem hasReactor_of_extends {r s : ReactorId} (h : c.Extends r s) : c.HasReactor r := by
  unfold Extends supers at h
  split at h
  · next d hd => exact hasReactor_of_some hd
  · simp at h

theorem Closed.hasReactor_of_reaches (hc : c.Closed) {r s : ReactorId} (hr : c.HasReactor r)
    (h : c.Reaches r s) : c.HasReactor s := by
  induction h with
  | refl => exact hr
  | tail _ hext _ => exact hc.hasReactor_super hext

/-- Reactors that are all there and all different are no more than there are. -/
theorem length_le_size {rs : List ReactorId} (hn : rs.Nodup) (h : ∀ r ∈ rs, c.HasReactor r) :
    rs.length ≤ c.reactors.size := by
  have hinj : Function.Injective ReactorId.index := fun r s e => by cases r; cases s; simp_all
  exact Lookup.length_le_of_lt hinj hn h

/-! ## The search -/

/-- A search that has marked these reactors can go on with this much fuel: it covers the reactors
    that are not marked yet. -/
structure Ready (c : Catalog) (fuel : Nat) (marked : List ReactorId) : Prop where
  nodup : marked.Nodup
  there : ∀ r ∈ marked, c.HasReactor r
  enough : c.reactors.size < fuel + marked.length

theorem not_ready_zero {marked : List ReactorId} : ¬ c.Ready 0 marked := by
  intro h
  have hle := length_le_size h.nodup h.there
  have hlt := h.enough
  omega

theorem ready_start : c.Ready (c.reactors.size + 1) [] where
  nodup := List.nodup_nil
  there := by simp
  enough := by
    show c.reactors.size < c.reactors.size + 1 + 0
    omega

/-- Marking a further reactor takes one unit of fuel. -/
theorem Ready.mark {fuel : Nat} {marked : List ReactorId} (h : c.Ready (fuel + 1) marked)
    {r : ReactorId} (hr : c.HasReactor r) (hnew : r ∉ marked) : c.Ready fuel (r :: marked) where
  nodup := List.nodup_cons.mpr ⟨hnew, h.nodup⟩
  there := by
    intro x hx
    rcases List.mem_cons.mp hx with rfl | hx
    · exact hr
    · exact h.there x hx
  enough := by
    have hlt := h.enough
    simp only [List.length_cons]
    omega

/-- What a part of a search does that goes from `s` to `t`: it leaves the reactors `new`. -/
structure Explores (c : Catalog) (s t : Search) (new : List ReactorId) : Prop where
  /-- The new reactors are listed behind the others. -/
  left : t.left = s.left ++ new
  /-- They are the ones that were entered. -/
  entered : t.entered.Perm (new ++ s.entered)
  /-- No reactor was entered twice. -/
  nodup : t.entered.Nodup
  /-- What the new reactors extend was entered. -/
  closed : ∀ r ∈ new, ∀ super ∈ c.supers r, super ∈ t.entered

theorem Explores.refl {s : Search} (hn : s.entered.Nodup) : c.Explores s s [] where
  left := by simp
  entered := by simp
  nodup := hn
  closed := by simp

theorem Explores.mem_entered {s t : Search} {new : List ReactorId} (h : c.Explores s t new)
    {r : ReactorId} : r ∈ t.entered ↔ r ∈ new ∨ r ∈ s.entered := by
  rw [h.entered.mem_iff, List.mem_append]

theorem Explores.length_le {s t : Search} {new : List ReactorId} (h : c.Explores s t new) :
    s.entered.length ≤ t.entered.length := by
  rw [h.entered.length_eq, List.length_append]
  omega

theorem Explores.trans {s t u : Search} {new more : List ReactorId} (h : c.Explores s t new)
    (h' : c.Explores t u more) : c.Explores s u (new ++ more) where
  left := by rw [h'.left, h.left, List.append_assoc]
  entered := by
    have hperm : (more ++ t.entered).Perm (new ++ more ++ s.entered) :=
      calc (more ++ t.entered).Perm (more ++ (new ++ s.entered)) := h.entered.append_left more
        _ = (more ++ new) ++ s.entered := by rw [List.append_assoc]
        List.Perm _ (new ++ more ++ s.entered) := List.perm_append_comm.append_right _
    exact h'.entered.trans hperm
  nodup := h'.nodup
  closed := by
    intro r hr super hsuper
    rcases List.mem_append.mp hr with hr | hr
    · exact h'.mem_entered.mpr (.inr (h.closed r hr super hsuper))
    · exact h'.closed r hr super hsuper

theorem Ready.explored {fuel : Nat} {s t : Search} {new : List ReactorId}
    (h : c.Ready fuel s.entered) (he : c.Explores s t new) (hnew : ∀ x ∈ new, c.HasReactor x) :
    c.Ready fuel t.entered where
  nodup := he.nodup
  there := by
    intro x hx
    rcases he.mem_entered.mp hx with hx | hx
    · exact hnew x hx
    · exact h.there x hx
  enough := by
    have hlt := h.enough
    have hle := he.length_le
    omega

/-- What a search from `r` comes to: it enters `r`, and explores what can be reached from `r`. -/
def Discovers (c : Catalog) (s t : Search) (r : ReactorId) : Prop :=
  ∃ new, c.Explores s t new ∧ r ∈ t.entered ∧ ∀ x ∈ new, c.Reaches r x

/-- The superclasses of `r` one after the other, where the search of a single one is understood. -/
theorem foldl_explores (hc : c.Closed) {fuel : Nat}
    (ih : ∀ s r, c.Ready fuel s.entered → c.HasReactor r → c.Discovers s (c.search fuel s r) r)
    {r : ReactorId} (hr : c.HasReactor r) (supers : List ReactorId)
    (hext : ∀ x ∈ supers, c.Extends r x) (t : Search) (ht : c.Ready fuel t.entered) :
    ∃ new, c.Explores t (supers.foldl (search c fuel) t) new ∧
      (∀ x ∈ supers, x ∈ (supers.foldl (search c fuel) t).entered) ∧
      ∀ x ∈ new, c.Reaches r x := by
  induction supers generalizing t with
  | nil => exact ⟨[], Explores.refl ht.nodup, by simp, by simp⟩
  | cons super supers ih' =>
    have hsuper := hext super (by simp)
    obtain ⟨new, hnew, hin, hreach⟩ := ih t super ht (hc.hasReactor_super hsuper)
    have hreach' : ∀ x ∈ new, c.Reaches r x := fun x hx => .head hsuper (hreach x hx)
    have ht' : c.Ready fuel (c.search fuel t super).entered :=
      ht.explored hnew fun x hx => hc.hasReactor_of_reaches hr (hreach' x hx)
    obtain ⟨more, hmore, hin', hreach''⟩ :=
      ih' (fun x hx => hext x (by simp [hx])) (c.search fuel t super) ht'
    refine ⟨new ++ more, hnew.trans hmore, ?_, ?_⟩
    · intro x hx
      rcases List.mem_cons.mp hx with rfl | hx
      · exact hmore.mem_entered.mpr (.inr hin)
      · exact hin' x hx
    · intro x hx
      rcases List.mem_append.mp hx with hx | hx
      · exact hreach' x hx
      · exact hreach'' x hx

/-- A search from `r` with enough fuel enters `r`, and what it explores can be reached from `r`. -/
theorem search_discovers (hc : c.Closed) (fuel : Nat) (s : Search) (r : ReactorId)
    (hs : c.Ready fuel s.entered) (hr : c.HasReactor r) :
    c.Discovers s (c.search fuel s r) r := by
  -- on the fuel: a nested search has one unit less and one more reactor entered
  induction fuel generalizing s r with
  | zero => exact absurd hs not_ready_zero
  | succ fuel ih =>
    rw [search]
    by_cases hmem : r ∈ s.entered
    · rw [if_pos hmem]
      exact ⟨[], Explores.refl hs.nodup, hmem, by simp⟩
    · rw [if_neg hmem]
      obtain ⟨new, hnew, hin, hreach⟩ :=
        foldl_explores hc ih hr (c.supers r) (fun x hx => hx)
          { s with entered := r :: s.entered } (hs.mark hr hmem)
      refine ⟨new ++ [r], ⟨?_, ?_, hnew.nodup, ?_⟩, hnew.mem_entered.mpr (.inr (by simp)), ?_⟩
      · simp [hnew.left]
      · exact hnew.entered.trans (by simp)
      · intro x hx super hsuper
        rcases List.mem_append.mp hx with hx | hx
        · exact hnew.closed x hx super hsuper
        · rw [List.mem_singleton] at hx
          exact hin super (hx ▸ hsuper)
      · intro x hx
        rcases List.mem_append.mp hx with hx | hx
        · exact hreach x hx
        · rw [List.mem_singleton] at hx
          exact hx ▸ .refl

/-! ## Fuel -/

section fuel
variable (hc : c.Closed)
include hc

/-- The superclasses one after the other, where more fuel changes no search of a single one. -/
theorem foldl_search_succ {fuel : Nat}
    (ih : ∀ s r, c.Ready fuel s.entered → c.HasReactor r →
      c.search (fuel + 1) s r = c.search fuel s r)
    (supers : List ReactorId) (hthere : ∀ x ∈ supers, c.HasReactor x) (s : Search)
    (hs : c.Ready fuel s.entered) :
    supers.foldl (search c (fuel + 1)) s = supers.foldl (search c fuel) s := by
  induction supers generalizing s with
  | nil => rfl
  | cons super supers ih' =>
    rw [List.forall_mem_cons] at hthere
    obtain ⟨new, hnew, _, hreach⟩ := search_discovers hc fuel s super hs hthere.1
    -- the search of the first one leaves fuel enough for the others
    have hnext : c.Ready fuel (c.search fuel s super).entered :=
      hs.explored hnew fun x hx => hc.hasReactor_of_reaches hthere.1 (hreach x hx)
    rw [List.foldl_cons, List.foldl_cons, ih s super hs hthere.1, ih' hthere.2 _ hnext]

/-- More fuel than enough changes nothing. -/
theorem search_succ (fuel : Nat) (s : Search) (r : ReactorId) (hs : c.Ready fuel s.entered)
    (hr : c.HasReactor r) : c.search (fuel + 1) s r = c.search fuel s r := by
  induction fuel generalizing s r with
  | zero => exact absurd hs not_ready_zero
  | succ fuel ih =>
    rw [search, search]
    by_cases hmem : r ∈ s.entered
    · rw [if_pos hmem, if_pos hmem]
    · rw [if_neg hmem, if_neg hmem]
      have hfold := foldl_search_succ hc ih (c.supers r) (fun x hx => hc.hasReactor_super hx)
        { s with entered := r :: s.entered } (hs.mark hr hmem)
      rw [hfold]

/-- The search for a lineage ends: it is the same with all fuel beyond one unit for each reactor. -/
theorem Closed.search_eq_lineage {r : ReactorId} (hr : c.HasReactor r) {fuel : Nat}
    (h : c.reactors.size < fuel) : (c.search fuel ⟨[], []⟩ r).left = c.lineage r := by
  induction h with
  | refl => rfl
  | @step fuel hle ih =>
    have hready : c.Ready fuel [] := ⟨List.nodup_nil, by simp, hle⟩
    rw [search_succ hc fuel ⟨[], []⟩ r hready hr, ih]

end fuel

/-! ## The lineage -/

/-- The lineage as a whole: the start, all that can be reached from it, nothing twice. -/
theorem Closed.lineage_spec (hc : c.Closed) {r : ReactorId} (hr : c.HasReactor r) :
    (c.lineage r).Nodup ∧ ∀ x, x ∈ c.lineage r ↔ c.Reaches r x := by
  obtain ⟨new, hnew, hin, hreach⟩ :=
    search_discovers hc (c.reactors.size + 1) ⟨[], []⟩ r ready_start hr
  have hleft : c.lineage r = new := hnew.left
  have hmem : ∀ x, x ∈ (c.search (c.reactors.size + 1) ⟨[], []⟩ r).entered ↔ x ∈ new := by
    intro x
    rw [hnew.mem_entered]
    simp
  rw [hleft]
  constructor
  · have := hnew.entered.nodup_iff.mp hnew.nodup
    simpa using this
  · intro x
    refine ⟨hreach x, fun h => ?_⟩
    -- the explored reactors are closed under extension, and the start is one of them
    induction h with
    | refl => exact (hmem r).mp hin
    | tail _ hext ih => exact (hmem _).mp (hnew.closed _ ih _ hext)

theorem Closed.mem_lineage_iff (hc : c.Closed) {r : ReactorId} (hr : c.HasReactor r)
    {x : ReactorId} : x ∈ c.lineage r ↔ c.Reaches r x :=
  (hc.lineage_spec hr).2 x

theorem Closed.nodup_lineage (hc : c.Closed) {r : ReactorId} (hr : c.HasReactor r) :
    (c.lineage r).Nodup :=
  (hc.lineage_spec hr).1

/-! ## Visible parameters -/

/-- The visible parameters are the own parameters of the lineage, in its order. -/
theorem Closed.visibleIds?_eq (hc : c.Closed) {r : ReactorId} (hr : c.HasReactor r) :
    c.visibleIds? r = some ((c.lineage r).flatMap c.own) := by
  have hfound : ∀ x ∈ c.lineage r, ∃ d, c.reactor? x = some d := fun x hx =>
    hasReactor_iff.mp (hc.hasReactor_of_reaches hr ((hc.mem_lineage_iff hr).mp hx))
  obtain ⟨ds, hds⟩ := Lookup.exists_mapM hfound
  have hown : (c.lineage r).map c.own = ds.map (·.params) :=
    Lookup.map_eq_of_mapM hds fun _ _ hd => own_of_some hd
  simp [visibleIds?, hds, List.flatMap_def, hown]

theorem Closed.mem_visibleIds_iff (hc : c.Closed) {r : ReactorId} (hr : c.HasReactor r)
    {qs : List ParamId} (h : c.visibleIds? r = some qs) {q : ParamId} :
    q ∈ qs ↔ ∃ x, c.Reaches r x ∧ q ∈ c.own x := by
  rw [hc.visibleIds?_eq hr] at h
  cases h
  simp [List.mem_flatMap, hc.mem_lineage_iff hr]

/-- The parameters visible on a reactor that is there are found. -/
theorem Closed.exists_visible (hc : c.Closed) {r : ReactorId} (hr : c.HasReactor r) :
    ∃ qs, c.visible? r = some qs := by
  have hids := hc.visibleIds?_eq hr
  have hfound : ∀ q ∈ (c.lineage r).flatMap c.own, ∃ x, c.parameter? q = some x := by
    intro q hq
    obtain ⟨x, _, hq⟩ := List.mem_flatMap.mp hq
    exact hasParameter_iff.mp (hc.hasParameter_own hq)
  obtain ⟨qs, hqs⟩ := Lookup.exists_mapM hfound
  exact ⟨qs, by simp [visible?, hids, hqs]⟩

/-- Looking up the visible parameters keeps their identities. -/
theorem Closed.visibleIds?_of_visible (hc : c.Closed) {r : ReactorId} {qs : List Parameter}
    (h : c.visible? r = some qs) : c.visibleIds? r = some (qs.map (·.id)) := by
  obtain ⟨ids, hids, h⟩ := Option.bind_eq_some_iff.mp h
  have hmap : ids.map id = qs.map (·.id) :=
    Lookup.map_eq_of_mapM h fun _ _ hx => (hc.parameter_id hx).symm
  rw [hids, ← hmap, List.map_id]

/-- A visible parameter is found by its identity. -/
theorem Closed.parameter?_of_visible (hc : c.Closed) {r : ReactorId} {qs : List Parameter}
    (h : c.visible? r = some qs) {q : Parameter} (hq : q ∈ qs) : c.parameter? q.id = some q := by
  obtain ⟨ids, _, h⟩ := Option.bind_eq_some_iff.mp h
  obtain ⟨i, _, hi⟩ := Lookup.mem_of_mapM h hq
  rwa [hc.parameter_id hi]

theorem Closed.mem_visible_iff (hc : c.Closed) {r : ReactorId} (hr : c.HasReactor r)
    {qs : List Parameter} (h : c.visible? r = some qs) {q : Parameter} :
    q ∈ qs ↔ ∃ x, c.Reaches r x ∧ ∃ i ∈ c.own x, c.parameter? i = some q := by
  have hids := hc.visibleIds?_of_visible h
  constructor
  · intro hq
    obtain ⟨x, hx, hown⟩ := (hc.mem_visibleIds_iff hr hids).mp (List.mem_map_of_mem hq)
    exact ⟨x, hx, q.id, hown, hc.parameter?_of_visible h hq⟩
  · intro ⟨x, hx, i, hown, hi⟩
    obtain ⟨q', hq', hid⟩ := List.mem_map.mp ((hc.mem_visibleIds_iff hr hids).mpr ⟨x, hx, hown⟩)
    have hq'' := hc.parameter?_of_visible h hq'
    rw [hid, hi] at hq''
    cases hq''
    exact hq'

/-! ## Names of parameters -/

/-- A reactor has a parameter with this name, its own or an inherited one. -/
def HasName (c : Catalog) (r : ReactorId) (name : String) : Prop :=
  ∃ x, c.Reaches r x ∧ ∃ i ∈ c.own x, ∃ q, c.parameter? i = some q ∧ q.name = name

theorem lastNamed?_eq_some {qs : List Parameter} {name : String} {q : Parameter}
    (h : lastNamed? qs name = some q) : q ∈ qs ∧ q.name = name := by
  have hmem := List.mem_of_find?_eq_some h
  have hname := List.find?_some h
  exact ⟨List.mem_reverse.mp hmem, by simpa using hname⟩

theorem lastNamed?_eq_none_iff {qs : List Parameter} {name : String} :
    lastNamed? qs name = none ↔ ∀ q ∈ qs, q.name ≠ name := by
  simp [lastNamed?]

/-- The search by name ends, and finds a parameter exactly if there is one of the name. -/
theorem Closed.findParameter?_spec (hc : c.Closed) {r : ReactorId} (hr : c.HasReactor r)
    (name : String) :
    ∃ o, c.findParameter? r name = some o ∧ (o = none ↔ ¬ c.HasName r name) ∧
      ∀ q, o = some q → q.name = name ∧ c.parameter? q.id = some q := by
  obtain ⟨qs, hqs⟩ := hc.exists_visible hr
  refine ⟨lastNamed? qs name, by simp [findParameter?, hqs], ?_, ?_⟩
  · rw [lastNamed?_eq_none_iff, HasName]
    constructor
    · intro h ⟨x, hx, i, hi, q, hq, hname⟩
      exact h q ((hc.mem_visible_iff hr hqs).mpr ⟨x, hx, i, hi, hq⟩) hname
    · intro h q hq hname
      obtain ⟨x, hx, i, hi, hq⟩ := (hc.mem_visible_iff hr hqs).mp hq
      exact h ⟨x, hx, i, hi, q, hq, hname⟩
  · intro q hq
    obtain ⟨hmem, hname⟩ := lastNamed?_eq_some hq
    exact ⟨hname, hc.parameter?_of_visible hqs hmem⟩

end Reactors.Catalog
