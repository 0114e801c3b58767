import Reactors.Proofs.Model.Acceptance
import Reactors.Proofs.Model.Catalogued
import Reactors.Proofs.Model.Faults

/-! # The circles that are reported

    Whatever else is wrong with a model, the circles among its reactors are reported: at least one
    in every component that has one, each led by the reactor on it that was declared first, and no
    two led by one reactor.  The graph is that of the declared reactors, where names that lead
    nowhere are left out.
-/

namespace Reactors.Model

open Collect (Ends)

variable {c : Catalog}

/-! ## The declared reactors -/

/-- The reactors that are declared where several have one name: the first of each name, in
    order. -/
def firstOfEachName : List Reactor → List Reactor
  | [] => []
  | r :: rs => r :: (firstOfEachName rs).filter fun s => s.name ≠ r.name

/-- Declared are the first ones of the names that were free. -/
theorem declareAll_given (rs : List Reactor) :
    (declareAll c rs).Ensures fun out _ =>
      out.2.map (·.1) = (firstOfEachName rs).filter fun r => r.name ∉ c.names := by
  induction rs generalizing c with
  | nil => exact .pure rfl
  | cons r rs ih =>
    unfold declareAll firstOfEachName
    cases hd : c.named? r.name with
    | some first =>
      -- what has the name of this one has a name that is taken
      have htaken : r.name ∈ c.names := Catalog.named?_isSome_iff.mp ⟨first, hd⟩
      refine .report_bind (ih.mono fun out _ h => h.trans ?_)
      rw [List.filter_cons_of_neg (by simpa using htaken), List.filter_filter]
      apply List.filter_congr
      intro s _
      by_cases hs : s.name = r.name <;> simp [hs, htaken]
    | none =>
      have hfree : r.name ∉ c.names := Catalog.named?_eq_none_iff.mp hd
      refine ih.bind fun out _ h => .pure ?_
      rw [List.filter_cons_of_pos (by simpa using hfree), List.map_cons, h, List.filter_filter]
      refine congrArg (r :: ·) (List.filter_congr fun s _ => ?_)
      simp

/-- A reactor of a catalog is declared as it is written: under its name, in its place, extending
    those of the reactors it names that there are, in order. -/
structure Reactor.DeclaredAs (c : Catalog) (x : Reactor) (d : Catalog.Reactor) : Prop where
  name : d.name = x.name
  supers : d.supers = x.supers.filterMap (idOf? c)
  span : d.span = x.span

/-- The reactors of a catalog, one by one, as they are declared. -/
theorem forall₂_declaredAs {ds : List (Reactor × ReactorId)} (h : Declared c ds)
    (hheads : ∀ x ∈ ds, headOf? c x.2 = some (x.1.name, x.1.span))
    (hsupers : ∀ x ∈ ds, c.supers x.2 = x.1.supers.filterMap (idOf? c)) :
    List.Forall₂ (Reactor.DeclaredAs c) (ds.map (·.1)) c.reactors.toList := by
  rw [List.forall₂_map_left_iff]
  apply h.found.imp
  intro x d ⟨hx, hd⟩
  have hhead := hheads x hx
  have hsuper := hsupers x hx
  rw [headOf?, hd, Option.map_some, Option.some.injEq, Prod.mk.injEq] at hhead
  rw [Catalog.supers, hd] at hsuper
  exact ⟨hhead.1, hsuper, hhead.2⟩

/-! ## The reports -/

theorem filter_isCircle_of_plain {es : List LoadFault} (h : ∀ f ∈ es, f.Plain) :
    es.filter LoadFault.isCircle = [] :=
  List.filter_eq_nil_iff.mpr fun f hf => by simp [(h f hf).noCircle]

/-- The circles that are led among the reactors of a catalog, and the reports about them among all
    that is reported. -/
structure CirclesReported (c : Catalog) (es : List LoadFault)
    (cycles : List (List ReactorId)) : Prop where
  /-- The reports are about these circles, in order. -/
  reports : List.Forall₂ (CircleReport c) cycles (es.filter LoadFault.isCircle)
  led : c.Led ((List.range c.reactors.size).map ReactorId.mk) cycles

/-- Reports about something else take no part in it. -/
theorem CirclesReported.surround {es : List LoadFault} {cycles : List (List ReactorId)}
    (h : CirclesReported c es cycles) {before after : List LoadFault}
    (hbefore : ∀ f ∈ before, f.Plain) (hafter : ∀ f ∈ after, f.Plain) :
    CirclesReported c (before ++ (es ++ after)) cycles where
  reports := by
    rw [List.filter_append, List.filter_append, filter_isCircle_of_plain hbefore,
      filter_isCircle_of_plain hafter, List.nil_append, List.append_nil]
    exact h.reports
  led := h.led

/-- The search for circles reports those of the final catalog: what comes after it leaves names,
    places and superclasses as they are. -/
theorem Passes.exists_led {rs : List Reactor} {es : List LoadFault} (h : Passes rs c es) :
    ∃ cycles, List.Forall₂ (CircleReport c) cycles h.circles ∧
      c.Led ((List.range c.reactors.size).map ReactorId.mk) cycles := by
  obtain ⟨cycles, hcycles, hled⟩ := (reportCycles_ends h.same.closed h.ds fun _ hx =>
    h.found_bound.hasReactor hx).ensures _ _ h.search
  have hlast := reactors_bindDefaults h.added _ _ h.setDefaults
  have hheads : headOf? c = headOf? h.bound :=
    (headOf?_of_reactors hlast).trans (addAllParameters_grown h.ds _ _ h.add).heads
  have hsize : c.reactors.size = h.bound.reactors.size := by rw [hlast, h.adds.size]
  refine ⟨cycles, ?_, ?_⟩
  · unfold CircleReport
    rw [hheads]
    exact hcycles
  · rw [hsize, ← h.found_bound.ids]
    exact hled.congr (Catalog.extends_congr fun r =>
      (h.sameNames.supers r).trans (h.adds.supers r))

/-- Binding the reactors reports the circles among those that are declared. -/
theorem bindReactors_circles (rs : List Reactor) :
    (bindReactors rs).Ends fun c es =>
      List.Forall₂ (Reactor.DeclaredAs c) (firstOfEachName rs) c.reactors.toList ∧
      ∃ cycles, CirclesReported c es cycles := by
  apply (bindReactors_passes rs).mono
  intro c es ⟨h⟩
  have hlast := reactors_bindDefaults h.added _ _ h.setDefaults
  have hheads : headOf? c = headOf? h.grown := headOf?_of_reactors hlast
  have hsupers : ∀ r, c.supers r = h.grown.supers r := h.sameNames.supers
  refine ⟨?_, ?_⟩
  · have hgiven : h.ds.map (·.1) = firstOfEachName rs := by
      rw [declareAll_given rs _ _ h.declare]
      exact List.filter_eq_self.mpr (by simp [Catalog.names])
    have hnames : c.names = h.declared.names := h.sameNames.names.trans h.names_grown
    have hid : idOf? c = idOf? h.declared := idOf?_congr h.closed h.closed_last h.nodup hnames
    rw [← hgiven]
    apply forall₂_declaredAs (h.found_grown.mono h.sameNames.names (congrArg Array.size hlast))
    · intro x hx
      rw [hheads, h.heads x hx]
    · intro x hx
      rw [hsupers, h.supers_grown hx, hid]
  · obtain ⟨cycles, hcycles, hled⟩ := h.exists_led
    have hcircles := List.filter_eq_self.mpr (reportCycles_reports h.ds _ _ h.search)
    have hreports : CirclesReported c h.circles cycles := ⟨by rwa [hcircles], hled⟩
    have hbefore : ∀ f ∈ h.duplicates ++ h.unknown, f.Plain :=
      List.forall_mem_append.mpr ⟨declareAll_reports rs _ _ h.declare,
        bindAllSupers_reports h.ds _ _ h.bind⟩
    have hafter := bindDefaults_reports h.added _ _ h.setDefaults
    exact ⟨cycles, by simpa [h.reports] using hreports.surround hbefore hafter⟩

/-- Circles are reported completely, truthfully and without repetition, whatever the reactors of a
    model extend and whatever else is wrong with it. -/
theorem circles_reported (m : Model) :
    ∃ p es, (bindAll m).run = some (p, es) ∧
      m.elaborate = some (if es = [] then .ok p else .error es) ∧
      -- the graph: who extends whom among the declared reactors
      List.Forall₂ (Reactor.DeclaredAs p.catalog) (firstOfEachName m.reactors)
        p.catalog.reactors.toList ∧
      ∃ cycles, List.Forall₂ (CircleReport p.catalog) cycles (es.filter LoadFault.isCircle) ∧
        (∀ r, p.catalog.Circular r →
          ∃ cycle ∈ cycles, ∀ x ∈ cycle, x ∈ p.catalog.component r) ∧
        (∀ cycle ∈ cycles, ∃ r, p.catalog.Leads r cycle) ∧
        (cycles.map List.head?).Nodup ∧
        (es.filter LoadFault.isCircle = [] ↔ ∀ r, ¬ p.catalog.Circular r) := by
  have hbind : (bindAll m).Ends fun p es =>
      List.Forall₂ (Reactor.DeclaredAs p.catalog) (firstOfEachName m.reactors)
        p.catalog.reactors.toList ∧
      ∃ cycles, CirclesReported p.catalog es cycles := by
    unfold bindAll
    apply ((checkOptions_ends m.options).and (checkOptions_reports m.options)).bind
    intro _ before ⟨_, hbefore⟩
    apply ((bindReactors_ends m.reactors).and (bindReactors_circles m.reactors).ensures).bind
    intro c es ⟨⟨hc, hn, _⟩, hgraph, cycles, hcycles⟩
    apply ((placeMain_ends hc hn m.main).and (placeMain_reports m.main)).bind
    intro a after ⟨_, hafter⟩
    exact .pure ⟨hgraph, cycles, by simpa using hcycles.surround hbefore hafter⟩
  obtain ⟨p, es, hrun, hgraph, cycles, hreports, hled⟩ := hbind
  have hall : ∀ r, p.catalog.HasReactor r →
      r ∈ (List.range p.catalog.reactors.size).map ReactorId.mk := fun r hr =>
    List.mem_map.mpr ⟨r.index, List.mem_range.mpr hr, rfl⟩
  refine ⟨p, es, hrun, elaborate_of_run hrun, hgraph, cycles, hreports, ?_, hled.leads, ?_, ?_⟩
  · exact fun r hr => hled.exists_of_circular hall hr
  · have hids : ((List.range p.catalog.reactors.size).map ReactorId.mk).Nodup :=
      List.nodup_range.map fun i j hij => by simpa using hij
    exact hled.once.nodup (hids.map fun r s hrs => Option.some.inj hrs)
  · rw [← hled.eq_nil_iff hall, ← List.length_eq_zero_iff, ← List.length_eq_zero_iff,
      hreports.length_eq]

end Reactors.Model
