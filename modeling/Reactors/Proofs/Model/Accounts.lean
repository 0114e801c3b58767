import Reactors.Proofs.Model.Circles
import Reactors.Proofs.Model.Losses

/-! # Every loss is reported once

    A model is accounted for as a whole: each element of it that is processed is in the program, or
    it is lost and there is one report about it, and there are no other reports.
-/

namespace Reactors.Model

open Collect (Accounts)

variable {c : Catalog}

/-! ## Catalogs -/

/-- A parameter of a reactor is kept: as it is written, with those terms of its default that are
    bound, names alone being those of the reactor that declares it. -/
structure Parameter.Kept (c : Catalog) (r : ReactorId) (x : Parameter) (z : Catalog.Parameter)
    (inner : List Subject) : Prop where
  owner : z.owner = r
  name : z.name = x.name
  typeText : z.typeText = x.typeText
  default : BoundTerms c (nameOf? c r) x.span x.default z.default inner
  span : z.span = x.span

/-- An account of the reactors of a model: what there is of them in a catalog, and what is lost. -/
structure CatalogAccount (rs : List Reactor) (c : Catalog) where
  /-- The declared reactors, under their identities. -/
  declared : List (Reactor × ReactorId)
  /-- The circles that are reported. -/
  cycles : List (List ReactorId)
  ofReactors : List Subject
  ofSupers : List Subject
  ofCircles : List Subject
  ofDefaults : List Subject
  found : Declared c declared
  /-- Each reactor is declared or lost. -/
  reactors : Sifted (fun r x inner => x.1 = r ∧ inner = []) (fun r s => s = .reactor r) rs declared
    ofReactors
  /-- Each name that a declared reactor extends is one of what it extends in the catalog, or lost. -/
  supers : AllKept (fun x d inner => c.reactor? x.2 = some d ∧
    BoundSupers c x.1 x.1.supers d.supers inner) declared c.reactors.toList ofSupers
  circles : List.Forall₂ (fun cycle s => ∃ heads, cycle.mapM (headOf? c) = some heads ∧
    s = .circle heads) cycles ofCircles
  led : c.Led ((List.range c.reactors.size).map ReactorId.mk) cycles
  /-- Each parameter of a declared reactor is there, with those terms that are not lost. -/
  defaults : AllKept (fun x z inner => x.2.Kept c x.1 z inner)
    (declared.flatMap fun x => x.1.parameters.map fun q => (x.2, q)) c.parameters.toList ofDefaults

/-- All that is lost of the reactors, in the order of the reports. -/
def CatalogAccount.subjects {rs : List Reactor} (acc : CatalogAccount rs c) : List Subject :=
  acc.ofReactors ++ (acc.ofSupers ++ (acc.ofCircles ++ acc.ofDefaults))

/-- The circles that reports are about. -/
theorem exists_circles {cycles : List (List ReactorId)} {es : List LoadFault}
    (h : List.Forall₂ (CircleReport c) cycles es) :
    ∃ ss, List.Forall₂ About ss es ∧ List.Forall₂ (fun cycle s =>
      ∃ heads, cycle.mapM (headOf? c) = some heads ∧ s = .circle heads) cycles ss := by
  induction h with
  | nil => exact ⟨[], .nil, .nil⟩
  | cons hreport _ ih =>
    obtain ⟨first, rest, hheads, rfl⟩ := hreport
    obtain ⟨ss, hss, hcycles⟩ := ih
    exact ⟨_ :: ss, .cons (.circle first rest) hss, .cons ⟨_, hheads, rfl⟩ hcycles⟩

namespace Passes

variable {rs : List Reactor} {es : List LoadFault} (h : Passes rs c es)

include h

theorem found_last : Declared c h.ds :=
  h.found_grown.mono h.sameNames.names
    (congrArg Array.size (reactors_bindDefaults h.added _ _ h.setDefaults))

/-- What the catalog has of the names that the reactors extend. -/
theorem exists_supers : ∃ ss, List.Forall₂ About ss h.unknown ∧
    AllKept (fun x d inner => c.reactor? x.2 = some d ∧
      BoundSupers c x.1 x.1.supers d.supers inner) h.ds c.reactors.toList ss := by
  obtain ⟨ss, hss, hkept⟩ := bindAllSupers_accounts h.closed h.nodup h.ds
    (fun _ hx => h.found.hasReactor hx) _ _ h.bind
  have hid : idOf? c = idOf? h.declared :=
    idOf?_congr h.closed h.closed_last h.nodup (h.sameNames.names.trans h.names_grown)
  refine ⟨ss, hss, hkept.transfer h.found_last.found ?_⟩
  intro x supers d inner ⟨hsupers, hbound⟩ ⟨hx, hd⟩
  have hstored : d.supers = supers := by
    have hlast := (h.sameNames.supers x.2).trans (h.supers_grown hx)
    rw [Catalog.supers, hd] at hlast
    rw [hsupers]
    exact hlast
  rw [BoundSupers, ← hid] at hbound
  exact ⟨hd, hstored ▸ hbound⟩

/-- What the catalog has of the defaults. -/
theorem exists_defaults : ∃ ss, List.Forall₂ About ss h.unbound ∧
    AllKept (fun x z inner => x.2.Kept c x.1 z inner)
      (h.ds.flatMap fun x => x.1.parameters.map fun q => (x.2, q)) c.parameters.toList ss := by
  have hnd : (h.added.map (·.2.1)).Nodup := by
    rw [h.ids]
    exact List.nodup_range.map fun i j hij => by simpa using hij
  obtain ⟨ss, hss, defaults, hkept⟩ :=
    bindDefaults_accounts h.adds.closed h.nodup_grown h.there hnd _ _ h.setDefaults
  have hrecord := (addAllParameters_grown h.ds _ _ h.add).found
  have hfound : List.Forall₂ (fun y z => y ∈ h.added ∧ c.parameter? y.2.1 = some z) h.added
      c.parameters.toList := by
    have hall := forall₂_parameters c
    rw [h.sameNames.size_parameters, ← h.ids, List.forall₂_map_left_iff] at hall
    refine (Lookup.forall₂_mem hall).imp fun y z hyz => ?_
    obtain ⟨hy, _, hz⟩ := hyz
    exact ⟨hy, hz⟩
  have hname : ∀ r, nameOf? c r = nameOf? h.grown r := fun r => by
    simp [nameOf?, Catalog.reactor?, reactors_bindDefaults h.added _ _ h.setDefaults]
  have hall : AllKept (fun y z inner => y.1.Kept c y.2.2 z inner) h.added c.parameters.toList
      ss := by
    refine hkept.transfer hfound fun y default z inner hdefault hyz => ?_
    obtain ⟨hset, hterms⟩ := hdefault
    obtain ⟨hy, hz⟩ := hyz
    rw [hz, hrecord y hy] at hset
    cases hset
    refine ⟨rfl, rfl, rfl, ?_, rfl⟩
    rw [hname]
    refine hterms.imp fun t _ v inner hbound => ?_
    exact ⟨hbound.1.congr h.sameNames h.adds.closed h.closed_last, hbound.2⟩
  rw [← h.grouped]
  exact ⟨ss, hss, hall.map _ fun _ _ _ hy => hy⟩

end Passes

/-- Binding reactors accounts for all of them. -/
theorem bindReactors_accounts (rs : List Reactor) :
    (bindReactors rs).Accounts About fun c ss =>
      ∃ acc : CatalogAccount rs c, acc.subjects = ss := by
  refine Collect.Ensures.mono (bindReactors_passes rs).ensures fun c es ⟨h⟩ => ?_
  obtain ⟨ofReactors, hreactors, hdeclared⟩ := declareAll_accounts rs _ _ h.declare
  obtain ⟨ofSupers, hsupers, hbound⟩ := h.exists_supers
  obtain ⟨cycles, hcycles, hled⟩ := h.exists_led
  obtain ⟨ofCircles, hcircles, hheads⟩ := exists_circles hcycles
  obtain ⟨ofDefaults, hdefaults, hkept⟩ := h.exists_defaults
  have hes : List.Forall₂ About (ofReactors ++ (ofSupers ++ (ofCircles ++ ofDefaults))) es := by
    rw [h.reports]
    exact List.rel_append hreactors (List.rel_append hsupers (List.rel_append hcircles hdefaults))
  exact ⟨_, hes, ⟨h.ds, cycles, ofReactors, ofSupers, ofCircles, ofDefaults, h.found_last,
    hdeclared, hbound, hheads, hled, hkept⟩, rfl⟩

/-! ## Models -/

/-- An account of a model: what there is of it in a program, and what is lost. -/
structure Account (m : Model) (p : Program) extends CatalogAccount m.reactors p.catalog where
  ofOptions : List Subject
  ofInstances : List Subject
  options : ofOptions = m.options.complaint?.toList.map fun _ => .options m.options
  /-- The instance that contains all others is the root, or lost. -/
  instances : PlacedAll p.catalog p.assembly [m.main] p.assembly.root?.toList ofInstances

/-- All that is lost of a model, in the order of the reports. -/
def Account.all {m : Model} {p : Program} (acc : Account m p) : List Subject :=
  acc.ofOptions ++ (acc.subjects ++ acc.ofInstances)

theorem checkOptions_accounts (o : Options) :
    (checkOptions o).Accounts About fun _ ss =>
      ss = o.complaint?.toList.map fun _ => .options o := by
  unfold checkOptions
  cases h : o.complaint? with
  | none => exact .pure rfl
  | some message => exact Collect.Ensures.report ⟨_, .cons (.options h) .nil, rfl⟩

/-- Binding a model accounts for all of it. -/
theorem bindAll_accounts (m : Model) :
    (bindAll m).Accounts About fun p ss => ∃ acc : Account m p, acc.all = ss := by
  unfold bindAll
  refine (checkOptions_accounts m.options).bind fun _ before hbefore => ?_
  refine ((bindReactors_accounts m.reactors).and (bindReactors_ends m.reactors).ensures).bind ?_
  intro c ss ⟨⟨acc, hacc⟩, _, hc, hn, _⟩
  refine (placeMain_accounts hc hn m.main).bind fun a after hafter => .pure ?_
  exact ⟨⟨acc, before, after, hbefore, hafter⟩, by simp [Account.all, hacc]⟩

/-- The faults of a model are accounted for one by one: they are about what is lost of it, each loss
    once, in order.  What is lost is of seven kinds, and so the faults are counted.  Wherever terms
    are bound, those that are kept and the faults are together as many as were given. -/
theorem faults_accounted (m : Model) :
    (∃ p es, (bindAll m).run = some (p, es) ∧
      m.elaborate = some (if es = [] then .ok p else .error es) ∧
      ∃ acc : Account m p, List.Forall₂ About acc.all es ∧
        es.length = Subject.count .options acc.all + Subject.count .reactor acc.all +
          Subject.count .super acc.all + Subject.count .circle acc.all +
          Subject.count .term acc.all + Subject.count .assignment acc.all +
          Subject.count .inst acc.all) ∧
    ∀ c scope span ts, (bindTerms c scope span ts).Ensures fun vs es =>
      vs.length + es.length = ts.length := by
  obtain ⟨p, es, hrun, _⟩ := bindAll_ends m
  obtain ⟨_, hes, acc, rfl⟩ := bindAll_accounts m p es hrun
  refine ⟨⟨p, es, hrun, elaborate_of_run hrun, acc, hes, ?_⟩, fun _ _ _ ts => bindTerms_length ts⟩
  rw [← hes.length_eq, ← length_eq_counts]

/-- A reactor is declared again, and extends something unknown there. -/
def redeclared : Model where
  options := .standard
  reactors := [⟨"A", [], [], .nowhere⟩, ⟨"A", ["B"], [], .nowhere⟩]
  main := ⟨"main", "A", [], [], .nowhere⟩

/-- What stands inside of something lost is lost without a report: there is one about the reactor,
    and none about what it extends. -/
theorem redeclared_silent :
    ∃ p es, (bindAll redeclared).run = some (p, es) ∧
      es = [.duplicateReactor "A" .nowhere .nowhere] ∧
      -- one reactor is not declared, and one name that a reactor extends is not added
      es.length < (redeclared.reactors.length - p.catalog.reactors.size) +
        ((redeclared.reactors.flatMap (·.supers)).length -
          (p.catalog.reactors.toList.flatMap (·.supers)).length) :=
  ⟨_, _, rfl, rfl, by decide⟩

end Reactors.Model
