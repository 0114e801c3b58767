import Reactors.Proofs.Model.Meaning
import Reactors.Proofs.Model.Parameters

/-! # The catalog of an accepted model

    Where the reactors of a model are bound without a report, the catalog has exactly these
    reactors, in order, each with what it extends and with its parameters in order; the parameters
    have consecutive identities, and their defaults are what the terms of the model denote.
-/

namespace Reactors.Model

open Collect (quiet_bind_iff quiet_pure_iff quiet_lookup_bind_iff)

/-! ## Faithful catalogs -/

/-- A parameter of a catalog is the given one of the reactor of a name. -/
structure Parameter.Denotes (c : Catalog) (reactor : String) (p : Parameter)
    (x : Catalog.Parameter) : Prop where
  name : x.name = p.name
  typeText : x.typeText = p.typeText
  /-- Each term denotes a value of the default, names alone being those of the reactor. -/
  default : List.Forall₂ (Term.Denotes c (some reactor)) p.default x.default
  span : x.span = p.span

/-- A reactor of a catalog is the given one. -/
structure Reactor.Denotes (c : Catalog) (r : Reactor) (d : Catalog.Reactor) : Prop where
  name : d.name = r.name
  /-- It extends the reactors of the given names, in order. -/
  supers : List.Forall₂ c.ReactorNamed r.supers d.supers
  /-- It declares the given parameters, in order, and is the one that declares them. -/
  parameters : List.Forall₂
    (fun p q => ∃ x, c.parameter? q = some x ∧ x.owner = d.id ∧ p.Denotes c r.name x)
    r.parameters d.params
  span : d.span = r.span

/-- A catalog of the given reactors and their parameters, and of nothing else. -/
structure Catalogued (rs : List Reactor) (c : Catalog) : Prop where
  closed : c.Closed
  distinct : c.names.Nodup
  /-- The reactors are the given ones, in order. -/
  reactors : List.Forall₂ (Reactor.Denotes c) rs c.reactors.toList
  /-- Every parameter is declared once, one reactor after the other. -/
  parameters : c.reactors.toList.flatMap (·.params) =
    (List.range c.parameters.size).map ParamId.mk

variable {c c' c'' : Catalog}

/-! ## Parameters that are added -/

/-- An added parameter, which has no default yet. -/
def Added.record (y : Added) : Catalog.Parameter :=
  ⟨y.2.1, y.2.2, y.1.name, y.1.typeText, [], y.1.span⟩

/-- A catalog with parameters added to another one under the next identities. -/
structure Grown (c c' : Catalog) (added : List Added) : Prop where
  heads : headOf? c' = headOf? c
  /-- The old parameters are untouched. -/
  kept : ∀ {q x}, c.parameter? q = some x → c'.parameter? q = some x
  found : ∀ y ∈ added, c'.parameter? y.2.1 = some y.record
  ids : added.map (·.2.1) = (List.range' c.parameters.size added.length).map ParamId.mk
  size : c'.parameters.size = c.parameters.size + added.length

namespace Grown

variable {added more : List Added}

theorem refl (c : Catalog) : Grown c c [] := ⟨rfl, fun h => h, by simp, rfl, rfl⟩

theorem trans (h : Grown c c' added) (h' : Grown c' c'' more) : Grown c c'' (added ++ more) where
  heads := h'.heads.trans h.heads
  kept hx := h'.kept (h.kept hx)
  found := by
    intro y hy
    rcases List.mem_append.mp hy with hy | hy
    · exact h'.kept (h.found y hy)
    · exact h'.found y hy
  ids := by
    rw [List.map_append, List.length_append, h.ids, h'.ids, h.size, ← List.map_append,
      List.range'_append_1]
  size := by rw [h'.size, h.size, List.length_append, Nat.add_assoc]

theorem single {id : ReactorId} {p : Parameter}
    (h : c.addParameter? id p.name p.typeText [] p.span = some c') :
    Grown c c' [(p, c.nextParameter, id)] where
  heads := headOf?_modify (Catalog.reactor?_addParameter h) fun _ => rfl
  kept := by
    intro q x hx
    have hne : q ≠ c.nextParameter := by
      intro hq
      subst hq
      exact Nat.lt_irrefl _ (Catalog.hasParameter_of_some hx)
    rw [Catalog.parameter?_addParameter h, if_neg hne, hx]
  found := by
    intro y hy
    rw [List.mem_singleton] at hy
    subst hy
    rw [Catalog.parameter?_addParameter h, if_pos rfl]
    rfl
  ids := rfl
  size := Catalog.parameters_size_addParameter h

end Grown

theorem addParameters_grown (id : ReactorId) (ps : List Parameter) :
    (addParameters id c ps).Ensures fun out _ => Grown c out.1 out.2 := by
  induction ps generalizing c with
  | nil => exact .pure (.refl c)
  | cons p ps ih =>
    refine .lookup_bind fun next hnext => ih.bind fun out _ hrest => .pure ?_
    exact (Grown.single hnext).trans hrest

theorem addAllParameters_grown (ds : List (Reactor × ReactorId)) :
    (addAllParameters c ds).Ensures fun out _ => Grown c out.1 out.2 := by
  induction ds generalizing c with
  | nil => exact .pure (.refl c)
  | cons x ds ih =>
    refine (addParameters_grown x.2 x.1.parameters).bind fun out _ hadded => ?_
    exact ih.bind fun more _ hmore => .pure (hadded.trans hmore)

/-- Declared reactors and what was added to them. -/
abbrev Grouped (ds : List (Reactor × ReactorId)) (added : List Added) : Prop :=
  added.map (fun y => (y.2.2, y.1)) =
    ds.flatMap fun x => x.1.parameters.map fun p => (x.2, p)

section grouped
variable {ds : List (Reactor × ReactorId)} {added : List Added}

/-- What was added to the first reactor stands in front. -/
theorem Grouped.cons {x : Reactor × ReactorId} (h : Grouped (x :: ds) added) :
    ∃ first rest, added = first ++ rest ∧ (∀ y ∈ first, y.2.2 = x.2) ∧
      first.map (·.1) = x.1.parameters ∧ Grouped ds rest := by
  unfold Grouped at h
  rw [List.flatMap_cons] at h
  obtain ⟨first, rest, rfl, hfirst, hrest⟩ := List.map_eq_append_iff.mp h
  refine ⟨first, rest, rfl, ?_, ?_, hrest⟩
  · intro y hy
    have hmem : (y.2.2, y.1) ∈ first.map fun y => (y.2.2, y.1) := List.mem_map.mpr ⟨y, hy, rfl⟩
    rw [hfirst] at hmem
    obtain ⟨p, _, hp⟩ := List.mem_map.mp hmem
    exact (congrArg Prod.fst hp).symm
  · have hsnd := congrArg (List.map Prod.snd) hfirst
    simpa [List.map_map, Function.comp_def] using hsnd

/-- What was added was added to one of the reactors. -/
theorem Grouped.owner (h : Grouped ds added) {y : Added} (hy : y ∈ added) :
    y.2.2 ∈ ds.map (·.2) := by
  have hmem : (y.2.2, y.1) ∈ added.map fun y => (y.2.2, y.1) := List.mem_map.mpr ⟨y, hy, rfl⟩
  rw [h] at hmem
  obtain ⟨x, hx, hmem⟩ := List.mem_flatMap.mp hmem
  obtain ⟨p, _, hp⟩ := List.mem_map.mp hmem
  exact List.mem_map.mpr ⟨x, hx, congrArg Prod.fst hp⟩

/-- What was added, reactor by reactor: to each one its parameters, and nothing else. -/
theorem Grouped.filters (h : Grouped ds added) (hnd : (ds.map (·.2)).Nodup) :
    (∀ x ∈ ds, (added.filter fun y => y.2.2 = x.2).map (·.1) = x.1.parameters) ∧
      (ds.flatMap fun x => added.filter fun y => y.2.2 = x.2) = added := by
  induction ds generalizing added with
  | nil =>
    have hnil : added = [] := List.map_eq_nil_iff.mp h
    simp [hnil]
  | cons x ds ih =>
    obtain ⟨first, rest, rfl, hfirst, hparams, hrest⟩ := h.cons
    rw [List.map_cons, List.nodup_cons] at hnd
    obtain ⟨heach, hall⟩ := ih hrest hnd.2
    -- the two parts were added to different reactors
    have hself : (first ++ rest).filter (fun y => y.2.2 = x.2) = first := by
      have hnone : rest.filter (fun y => y.2.2 = x.2) = [] := by
        rw [List.filter_eq_nil_iff]
        intro y hy hyx
        exact hnd.1 (of_decide_eq_true hyx ▸ hrest.owner hy)
      rw [List.filter_append, hnone, List.append_nil, List.filter_eq_self]
      intro y hy
      exact decide_eq_true (hfirst y hy)
    have hother : ∀ z ∈ ds, (first ++ rest).filter (fun y => y.2.2 = z.2) =
        rest.filter fun y => y.2.2 = z.2 := by
      intro z hz
      have hnone : first.filter (fun y => y.2.2 = z.2) = [] := by
        rw [List.filter_eq_nil_iff]
        intro y hy hyz
        exact hnd.1 ((hfirst y hy) ▸ of_decide_eq_true hyz ▸ List.mem_map_of_mem hz)
      rw [List.filter_append, hnone, List.nil_append]
    constructor
    · intro z hz
      rcases List.mem_cons.mp hz with rfl | hz
      · rw [hself, hparams]
      · rw [hother z hz, heach z hz]
    · rw [List.flatMap_cons, hself, List.flatMap_congr hother, hall]

end grouped

/-! ## Defaults -/

theorem reactors_bindDefaults (added : List Added) :
    (bindDefaults c added).Ensures fun c' _ => c'.reactors = c.reactors := by
  induction added generalizing c with
  | nil => exact .pure rfl
  | cons y ys ih =>
    have hterms : (bindTerms c (.ok y.2.2) y.1.span y.1.default).Ensures fun _ _ => True :=
      fun _ _ _ => trivial
    refine hterms.bind fun values _ _ => .lookup_bind fun c₁ h₁ => ?_
    exact ih.mono fun _ _ h => h.trans (Catalog.reactors_setDefault h₁)

/-- A catalog some of whose defaults are set. -/
structure Defaulting (c c' : Catalog) : Prop where
  closed : c'.Closed
  sameNames : c.SameNames c'
  reactors : c'.reactors = c.reactors

namespace Defaulting

theorem refl (hc : c.Closed) : Defaulting c c := ⟨hc, .refl c, rfl⟩

theorem trans (h : Defaulting c c') (h' : Defaulting c' c'') : Defaulting c c'' where
  closed := h'.closed
  sameNames := h.sameNames.trans h'.sameNames
  reactors := h'.reactors.trans h.reactors

theorem setDefault (hc : c.Closed) {q : ParamId} {default : List Value}
    (hknown : ∀ v ∈ default, c.Knows v) (h : c.setDefault? q default = some c') :
    Defaulting c c' where
  closed := hc.setDefault hknown h
  sameNames := sameNames_setDefault h
  reactors := Catalog.reactors_setDefault h

/-- The reactor that declares a parameter gives its terms the same scope. -/
theorem scopeOf (h : Defaulting c c') {r : ReactorId} (hr : c.HasReactor r) :
    ScopeOf c' (.ok r) (nameOf? c r) := by
  obtain ⟨d, hd⟩ := Catalog.hasReactor_iff.mp hr
  refine ⟨d, ?_, by simp [nameOf?, hd]⟩
  unfold Catalog.reactor? at hd ⊢
  rwa [h.reactors]

/-- Terms denote the same as before. -/
theorem denotes (h : Defaulting c c') (hc : c.Closed) {scope : Option String} {t : Term}
    {v : Value} (ht : t.Denotes c' scope v) : t.Denotes c scope v :=
  ht.congr h.sameNames.symm h.closed hc

end Defaulting

/-- Every added parameter gets what its terms are bound to, and keeps everything else.  Defaults that
    were set before make no difference to it. -/
theorem bindDefaults_each (hc : c.Closed) (hn : c.names.Nodup) {added : List Added}
    (hadded : ∀ y ∈ added, c.HasReactor y.2.2 ∧ c.HasParameter y.2.1)
    (hnd : (added.map (·.2.1)).Nodup) :
    (bindDefaults c added).Ensures fun c' es =>
      (∀ q, q ∉ added.map (·.2.1) → c'.parameter? q = c.parameter? q) ∧
      ∃ outs : List (List Value × List LoadFault), es = (outs.map (·.2)).flatten ∧
        List.Forall₂ (fun y out =>
          c'.parameter? y.2.1 = (c.parameter? y.2.1).map (fun x => { x with default := out.1 }) ∧
          ∃ c₁, Defaulting c c₁ ∧
            (bindTerms c₁ (.ok y.2.2) y.1.span y.1.default).run = some out) added outs := by
  induction added generalizing c with
  | nil => exact .pure ⟨fun _ _ => rfl, [], rfl, .nil⟩
  | cons y ys ih =>
    obtain ⟨p, id, owner⟩ := y
    have hscope := (Defaulting.refl hc).scopeOf (hadded _ List.mem_cons_self).1
    refine (bindTerms_ends p.span hc hn hscope p.default).and_run.ensures.bind ?_
    intro values es ⟨⟨_, hknown⟩, hrun⟩
    refine .lookup_bind fun c₁ h₁ => ?_
    have hstep := Defaulting.setDefault hc hknown h₁
    have hadded₁ : ∀ y ∈ ys, c₁.HasReactor y.2.2 ∧ c₁.HasParameter y.2.1 := fun y hy =>
      have h := hadded y (by simp [hy])
      ⟨h.1.mono (Nat.le_of_eq (congrArg Array.size hstep.reactors).symm),
        hstep.sameNames.hasParameter_iff.mpr h.2⟩
    rw [List.map_cons, List.nodup_cons] at hnd
    refine (ih hstep.closed (hstep.sameNames.names ▸ hn) hadded₁ hnd.2).mono ?_
    intro c' fs ⟨hothers, outs, hfs, hall⟩
    refine ⟨?_, (values, es) :: outs, by simp [hfs], .cons ⟨?_, c, .refl hc, hrun⟩ ?_⟩
    · intro q hq
      rw [List.map_cons, List.mem_cons, not_or] at hq
      rw [hothers q hq.2, Catalog.parameter?_setDefault h₁, if_neg hq.1]
    · -- no other parameter is this one, so what is set now stays
      rw [hothers id hnd.1, Catalog.parameter?_setDefault h₁, if_pos rfl]
    · refine (Lookup.forall₂_mem hall).imp ?_
      intro z out ⟨hz, _, hset, c₂, h₂, hterms⟩
      have hne : z.2.1 ≠ id := fun e => hnd.1 (List.mem_map.mpr ⟨z, hz, e⟩)
      rw [Catalog.parameter?_setDefault h₁, if_neg hne] at hset
      exact ⟨hset, c₂, hstep.trans h₂, hterms⟩

/-- Where nothing is reported, every added parameter gets the default that its terms denote. -/
theorem bindDefaults_quiet (hc : c.Closed) (hn : c.names.Nodup) {added : List Added}
    (hadded : ∀ y ∈ added, c.HasReactor y.2.2 ∧ c.HasParameter y.2.1)
    (hnd : (added.map (·.2.1)).Nodup) (h : (bindDefaults c added).Quiet c') :
    ∀ y ∈ added, ∃ default, c'.parameter? y.2.1 =
        (c.parameter? y.2.1).map (fun x => { x with default }) ∧
      List.Forall₂ (Term.Denotes c (nameOf? c y.2.2)) y.1.default default := by
  obtain ⟨_, outs, hnil, hall⟩ := bindDefaults_each hc hn hadded hnd _ _ h
  intro y hy
  obtain ⟨out, hout, hset, c₁, h₁, hrun⟩ := Lookup.exists_mem_of_forall₂ hall hy
  have hquiet : out.2 = [] :=
    List.flatten_eq_nil_iff.mp hnil.symm _ (List.mem_map_of_mem hout)
  have hterms : (bindTerms c₁ (.ok y.2.2) y.1.span y.1.default).Quiet out.1 := by
    rw [Collect.Quiet, hrun, ← hquiet]
  exact ⟨out.1, hset, (bindTerms_quiet h₁.closed (h₁.scopeOf (hadded y hy).1) hterms).imp
    fun _ _ ht => h₁.denotes hc ht⟩

/-! ## All passes -/

/-- The reactors of a catalog under their identities. -/
theorem forall₂_reactors (c : Catalog) :
    List.Forall₂ (fun r d => c.reactor? r = some d)
      ((List.range c.reactors.size).map ReactorId.mk) c.reactors.toList := by
  rw [List.forall₂_map_left_iff, List.forall₂_iff_get]
  refine ⟨by simp, ?_⟩
  intro i hi hi'
  simp [Catalog.reactor?]

/-- The parameters of a catalog under their identities. -/
theorem forall₂_parameters (c : Catalog) :
    List.Forall₂ (fun q x => c.parameter? q = some x)
      ((List.range c.parameters.size).map ParamId.mk) c.parameters.toList := by
  rw [List.forall₂_map_left_iff, List.forall₂_iff_get]
  refine ⟨by simp, ?_⟩
  intro i hi hi'
  simp [Catalog.parameter?]

/-- The declared reactors and those of the catalog, side by side. -/
theorem Declared.found {ds : List (Reactor × ReactorId)} (h : Declared c ds) :
    List.Forall₂ (fun x d => x ∈ ds ∧ c.reactor? x.2 = some d) ds c.reactors.toList := by
  have hall := forall₂_reactors c
  rw [← h.ids, List.forall₂_map_left_iff] at hall
  exact (Lookup.forall₂_mem hall).imp fun _ _ ⟨hx, _, hd⟩ => ⟨hx, hd⟩

/-- What there is once the parameters are added, with their defaults or without. -/
structure Laid (rs : List Reactor) (ds : List (Reactor × ReactorId)) (added : List Added)
    (c : Catalog) : Prop where
  closed : c.Closed
  distinct : c.names.Nodup
  /-- The declared reactors are the given ones. -/
  given : ds.map (·.1) = rs
  declared : Declared c ds
  heads : ∀ x ∈ ds, headOf? c x.2 = some (x.1.name, x.1.span)
  supers : ∀ x ∈ ds, List.Forall₂ c.ReactorNamed x.1.supers (c.supers x.2)
  /-- All parameters of the catalog were added. -/
  ids : added.map (·.2.1) = (List.range c.parameters.size).map ParamId.mk
  grouped : Grouped ds added
  own : ∀ r, c.own r = (added.filter fun y => y.2.2 = r).map (·.2.1)

/-- What the passes come to where nothing is reported. -/
structure Passed (rs : List Reactor) (ds : List (Reactor × ReactorId)) (added : List Added)
    (c : Catalog) : Prop extends Laid rs ds added c where
  /-- The parameters have the defaults that their terms denote. -/
  parameter : ∀ y ∈ added, ∀ reactor, c.ReactorNamed reactor y.2.2 →
    ∃ x, c.parameter? y.2.1 = some x ∧ x.owner = y.2.2 ∧ y.1.Denotes c reactor x

namespace Passed

variable {rs : List Reactor} {ds : List (Reactor × ReactorId)} {added : List Added}

theorem denotes (h : Passed rs ds added c) {x : Reactor × ReactorId} (hx : x ∈ ds)
    {d : Catalog.Reactor} (hd : c.reactor? x.2 = some d) : x.1.Denotes c d := by
  have hhead := h.heads x hx
  rw [headOf?, hd, Option.map_some, Option.some.injEq, Prod.mk.injEq] at hhead
  have hsupers := h.supers x hx
  rw [Catalog.supers, hd] at hsupers
  obtain ⟨hparams, _⟩ := h.grouped.filters h.declared.nodup
  refine ⟨hhead.1, hsupers, ?_, hhead.2⟩
  rw [← Catalog.own_of_some hd, h.own, ← hparams x hx, List.forall₂_map_left_iff,
    List.forall₂_map_right_iff, List.forall₂_same, h.closed.reactor_id hd]
  intro y hy
  obtain ⟨hy, hyx⟩ := List.mem_filter.mp hy
  have hyx : y.2.2 = x.2 := of_decide_eq_true hyx
  rw [← hyx]
  exact h.parameter y hy x.1.name ⟨d, hyx ▸ hd, hhead.1⟩

theorem catalogued (h : Passed rs ds added c) : Catalogued rs c where
  closed := h.closed
  distinct := h.distinct
  reactors := by
    rw [← h.given, List.forall₂_map_left_iff]
    exact h.declared.found.imp fun _ _ ⟨hx, hd⟩ => h.denotes hx hd
  parameters := by
    obtain ⟨_, hall⟩ := h.grouped.filters h.declared.nodup
    have hmap : ds.map (fun x => (added.filter fun y => y.2.2 = x.2).map (·.2.1)) =
        c.reactors.toList.map (·.params) := by
      apply Lookup.map_eq_of_forall₂ h.declared.found
      intro x d ⟨_, hd⟩
      rw [← h.own, Catalog.own_of_some hd]
    rw [List.flatMap_def, ← hmap, ← List.flatMap_def, ← List.map_flatMap, hall, h.ids]

end Passed

/-- The names that the reactors extend, once all of them are declared. -/
theorem supers_named {c₁ : Catalog} (hc₁ : c₁.Closed) (hn₁ : c₁.names.Nodup) (hc : c.Closed)
    (hnames : c.names = c₁.names) {names : List String} (hnamed : ∀ a ∈ names, a ∈ c₁.names) :
    List.Forall₂ c.ReactorNamed names (names.filterMap (idOf? c₁)) := by
  apply Lookup.forall₂_filterMap
  intro a ha
  obtain ⟨d, hd⟩ := Catalog.named?_isSome_iff.mpr (hnames ▸ hnamed a ha)
  have hid : idOf? c₁ a = some d.id := by
    rw [← idOf?_congr hc₁ hc hn₁ hnames, idOf?, hd, Option.map_some]
  exact ⟨d.id, hid, reactorNamed_of_named hc hd⟩

/-- The declared reactors keep their names and places. -/
theorem Passes.heads {rs : List Reactor} {es : List LoadFault} (h : Passes rs c es) :
    ∀ x ∈ h.ds, headOf? h.grown x.2 = some (x.1.name, x.1.span) := by
  intro x hx
  obtain ⟨_, hheads, _⟩ := headOf?_declareAll rs _ _ h.declare
  rw [(addAllParameters_grown h.ds _ _ h.add).heads, headOf?_bindAllSupers h.ds _ _ h.bind]
  exact hheads x hx

/-- All parameters of the catalog were added, in order. -/
theorem Passes.ids {rs : List Reactor} {es : List LoadFault} (h : Passes rs c es) :
    h.added.map (·.2.1) = (List.range h.grown.parameters.size).map ParamId.mk := by
  have hgrown := addAllParameters_grown h.ds _ _ h.add
  have hnone : h.bound.parameters.size = 0 := by
    obtain ⟨_, _, hempty⟩ := headOf?_declareAll rs _ _ h.declare
    rw [h.same.parameters, hempty]
    rfl
  rw [hgrown.ids, hgrown.size, hnone, Nat.zero_add, List.range_eq_range']

/-- What the passes before the defaults come to, where nothing is reported. -/
theorem Passes.laid {rs : List Reactor} (h : Passes rs c []) :
    Laid rs h.ds h.added h.grown ∧
      ∀ y ∈ h.added, h.grown.parameter? y.2.1 = some y.record := by
  obtain ⟨hduplicates, hunknown, _, _⟩ := h.reports_eq_nil_iff.mp rfl
  have hknown := h.known.mp hunknown
  refine ⟨⟨h.adds.closed, h.nodup_grown, h.given hduplicates, h.found_grown, h.heads, ?_, h.ids,
    h.grouped, h.own_grown⟩, (addAllParameters_grown h.ds _ _ h.add).found⟩
  intro x hx
  rw [h.supers_grown hx]
  exact supers_named h.closed h.nodup h.adds.closed h.names_grown (hknown x hx)

namespace Laid

variable {rs : List Reactor} {ds : List (Reactor × ReactorId)} {added : List Added}

theorem nodup_ids (h : Laid rs ds added c) : (added.map (·.2.1)).Nodup := by
  rw [h.ids]
  exact List.nodup_range.map fun i j hij => by simpa using hij

theorem hasReactor (h : Laid rs ds added c) {y : Added} (hy : y ∈ added) :
    c.HasReactor y.2.2 := by
  obtain ⟨x, hx, howner⟩ := List.mem_map.mp (h.grouped.owner hy)
  exact howner ▸ h.declared.hasReactor hx

/-- What setting the defaults comes to. -/
theorem passed (h : Laid rs ds added c)
    (hrecord : ∀ y ∈ added, c.parameter? y.2.1 = some y.record)
    (hdefaults : (bindDefaults c added).Quiet c') : Passed rs ds added c' := by
  have hthere : ∀ y ∈ added, c.HasReactor y.2.2 ∧ c.HasParameter y.2.1 := fun y hy =>
    ⟨h.hasReactor hy, Catalog.hasParameter_iff.mpr ⟨_, hrecord y hy⟩⟩
  obtain ⟨hc', hsame, _⟩ := hdefaults.post (bindDefaults_ends h.closed h.distinct added hthere)
  have hset := bindDefaults_quiet h.closed h.distinct hthere h.nodup_ids hdefaults
  have hreactors := reactors_bindDefaults added _ _ hdefaults
  have hheads : headOf? c' = headOf? c := headOf?_of_reactors hreactors
  refine ⟨⟨hc', hsame.names ▸ h.distinct, h.given,
    h.declared.mono hsame.names (congrArg Array.size hreactors), hheads ▸ h.heads, ?_,
    hsame.size_parameters ▸ h.ids, h.grouped, fun r => (hsame.own r).trans (h.own r)⟩, ?_⟩
  · intro x hx
    rw [hsame.supers]
    exact (h.supers x hx).imp fun _ _ hs => hsame.reactorNamed_iff.mpr hs
  · intro y hy reactor hreactor
    obtain ⟨default, hx, hdenotes⟩ := hset y hy
    rw [hrecord y hy] at hx
    have hname : nameOf? c y.2.2 = some reactor :=
      Option.map_eq_some_iff.mpr (hsame.reactorNamed_iff.mp hreactor)
    rw [hname] at hdenotes
    exact ⟨_, hx, rfl, rfl, rfl, hdenotes.imp fun _ _ ht => ht.congr hsame h.closed hc', rfl⟩

end Laid

/-- Binding the reactors of a model without a report makes a catalog of them. -/
theorem bindReactors_quiet {rs : List Reactor} {c : Catalog} (h : (bindReactors rs).Quiet c) :
    Catalogued rs c := by
  obtain ⟨hpasses⟩ := h.post (bindReactors_passes rs)
  obtain ⟨hlaid, hrecord⟩ := hpasses.laid
  obtain ⟨_, _, _, hunbound⟩ := hpasses.reports_eq_nil_iff.mp rfl
  have hdefaults : (bindDefaults hpasses.grown hpasses.added).Quiet c :=
    hpasses.setDefaults.trans (by rw [hunbound])
  exact (hlaid.passed hrecord hdefaults).catalogued

/-! ## What a catalog of a model has -/

theorem reactorNamed_of_idOf (hc : c.Closed) {a : String} {r : ReactorId}
    (h : idOf? c a = some r) : c.ReactorNamed a r := by
  obtain ⟨d, hd, rfl⟩ := Option.map_eq_some_iff.mp h
  exact reactorNamed_of_named hc hd

theorem idOf?_of_named (hc : c.Closed) (hn : c.names.Nodup) {a : String} {r : ReactorId}
    (h : c.ReactorNamed a r) : idOf? c a = some r := by
  obtain ⟨d, hd, rfl⟩ := h
  simp [idOf?, Catalog.named?_of_nodup hn hd, hc.reactor_id hd]

namespace Catalogued

variable {rs : List Reactor}

/-- Every reactor of the catalog is a given one. -/
theorem exists_given (h : Catalogued rs c) {r : ReactorId} {d : Catalog.Reactor}
    (hd : c.reactor? r = some d) : ∃ x ∈ rs, x.Denotes c d :=
  Lookup.exists_mem_of_forall₂ h.reactors.flip (Catalog.mem_reactors hd)

/-- The reactor of the name of a given one. -/
theorem exists_reactor (h : Catalogued rs c) {x : Reactor} (hx : x ∈ rs) {r : ReactorId}
    (hr : c.ReactorNamed x.name r) : ∃ d, c.reactor? r = some d ∧ x.Denotes c d := by
  obtain ⟨d, hd, hden⟩ := Lookup.exists_mem_of_forall₂ h.reactors hx
  have hfound := h.closed.reactor?_of_mem hd
  have hid : r = d.id := hr.eq h.closed h.distinct ⟨d, hfound, hden.name⟩
  exact ⟨d, hid ▸ hfound, hden⟩

/-- An own parameter of a reactor is the given one at its place. -/
theorem exists_declared (h : Catalogued rs c) {r : ReactorId} {q : ParamId} (hq : q ∈ c.own r) :
    ∃ x ∈ rs, c.ReactorNamed x.name r ∧ ∃ y, (y, q) ∈ x.parameters.zip (c.own r) ∧
      ∃ z, c.parameter? q = some z ∧ z.owner = r ∧ y.Denotes c x.name z := by
  unfold Catalog.own at hq
  split at hq
  · next d hd =>
    obtain ⟨x, hx, hden⟩ := h.exists_given hd
    obtain ⟨y, _, hyq, z, hz, howner, hy⟩ :=
      Lookup.exists_mem_of_forall₂ (Lookup.forall₂_zip hden.parameters).flip hq
    rw [h.closed.reactor_id hd] at howner
    exact ⟨x, hx, ⟨d, hd, hden.name⟩, y, Catalog.own_of_some hd ▸ hyq, z, hz, howner, hy⟩
  · simp at hq

/-- A parameter is an own one of the reactor that declares it. -/
theorem mem_own (h : Catalogued rs c) {q : ParamId} {z : Catalog.Parameter}
    (hz : c.parameter? q = some z) : q ∈ c.own z.owner := by
  have hmem : q ∈ c.reactors.toList.flatMap (·.params) := by
    rw [h.parameters]
    exact List.mem_map.mpr ⟨q.index, List.mem_range.mpr (Catalog.hasParameter_of_some hz), rfl⟩
  obtain ⟨d, hd, hq⟩ := List.mem_flatMap.mp hmem
  have hown := Catalog.own_of_some (h.closed.reactor?_of_mem hd)
  obtain ⟨_, _, _, _, _, z', hz', howner, _⟩ := h.exists_declared (hown ▸ hq)
  rw [hz] at hz'
  cases hz'
  rw [howner, hown]
  exact hq

/-- A parameter is an own one of a single reactor. -/
theorem own_disjoint (h : Catalogued rs c) {r s : ReactorId} (hne : r ≠ s) :
    List.Disjoint (c.own r) (c.own s) := by
  intro q hr hs
  obtain ⟨_, _, _, _, _, z, hz, howner, _⟩ := h.exists_declared hr
  obtain ⟨_, _, _, _, _, z', hz', howner', _⟩ := h.exists_declared hs
  rw [hz] at hz'
  cases hz'
  exact hne (howner.symm.trans howner')

theorem nodup_own (h : Catalogued rs c) (r : ReactorId) : (c.own r).Nodup := by
  have hall : (c.reactors.toList.flatMap (·.params)).Nodup := by
    rw [h.parameters]
    exact List.nodup_range.map fun i j hij => by simpa using hij
  unfold Catalog.own
  split
  · next d hd => exact (List.nodup_flatMap.mp hall).1 d (Catalog.mem_reactors hd)
  · exact List.nodup_nil

/-- No parameter is visible twice on a reactor. -/
theorem nodup_visibleIds (h : Catalogued rs c) {r : ReactorId} (hr : c.HasReactor r)
    {qs : List ParamId} (hqs : c.visibleIds? r = some qs) : qs.Nodup := by
  rw [h.closed.visibleIds?_eq hr] at hqs
  cases hqs
  exact List.nodup_flatMap.mpr
    ⟨fun s _ => h.nodup_own s, (h.closed.nodup_lineage hr).imp fun hne => h.own_disjoint hne⟩

theorem represents (h : Catalogued rs c) : Represents c rs where
  closed := h.closed
  distinct := h.distinct
  names := (Lookup.map_eq_of_forall₂ h.reactors fun _ _ hx => hx.name.symm).symm
  supers := by
    intro x hx r hr
    obtain ⟨d, hd, hden⟩ := h.exists_reactor hx (reactorNamed_of_idOf h.closed hr)
    rw [Catalog.supers, hd]
    exact (Lookup.filterMap_eq_of_forall₂ hden.supers
      fun _ _ hs => idOf?_of_named h.closed h.distinct hs).symm
  declared := by
    intro x hx super hsuper
    obtain ⟨d, _, hden⟩ := Lookup.exists_mem_of_forall₂ h.reactors hx
    obtain ⟨s, _, e, he, rfl⟩ := Lookup.exists_mem_of_forall₂ hden.supers hsuper
    exact List.mem_map_of_mem (Catalog.mem_reactors he)
  own := by
    intro x hx r hr name
    obtain ⟨d, hd, hden⟩ := h.exists_reactor hx (reactorNamed_of_idOf h.closed hr)
    rw [Catalog.own_of_some hd]
    constructor
    · rintro ⟨q, hq, z, hz, hname⟩
      obtain ⟨y, hy, z', hz', _, hyz⟩ := Lookup.exists_mem_of_forall₂ hden.parameters.flip hq
      rw [hz] at hz'
      cases hz'
      exact ⟨y, hy, hyz.name.symm.trans hname⟩
    · rintro ⟨y, hy, hname⟩
      obtain ⟨q, hq, z, hz, _, hyz⟩ := Lookup.exists_mem_of_forall₂ hden.parameters hy
      exact ⟨q, hq, z, hz, hyz.name.trans hname⟩

/-- A name stands for a parameter exactly if the given reactors have one of the name there. -/
theorem exists_standsFor_iff (h : Catalogued rs c) {reactor name : String} :
    (∃ q, c.StandsFor reactor name q) ↔ (namesOf rs).parameter reactor name := by
  rw [← h.represents.nameTable_eq]
  constructor
  · intro ⟨q, r, hr, hlast⟩
    obtain ⟨d, hd, rfl⟩ := id hr
    rw [Catalog.parameter_nameTable_iff h.closed h.distinct hd]
    exact hlast.hasName h.closed hr.hasReactor
  · intro ⟨d, hd, hname⟩
    have hr := reactorNamed_of_named h.closed hd
    obtain ⟨o, ho, hnone, _⟩ := h.closed.findParameter?_spec hr.hasReactor name
    obtain ⟨z, rfl⟩ : ∃ z, o = some z := Option.ne_none_iff_exists'.mp fun hn => hnone.mp hn hname
    exact ⟨z.id, (h.closed.lastNamed_of_find ho).standsFor hr⟩

end Catalogued

end Reactors.Model
