import Reactors.Proofs.Script.Variables

/-! # Which value counts

    An assignment is bound by the name it gives, the value of a parameter is found by the identity
    of the parameter, and the values of an instance are asked for by name again.  All three mean the
    same parameter, the last one of the name.  So the value under a name is that of the last
    assignment of the name, read from the instance around, or else that of the default of the last
    parameter of the name, read from the instance itself.
-/

namespace Reactors

open Diagnostic (hasErrors)

namespace Model

open Script

/-! ## The text of terms -/

/-- The name of the parameter that is named. -/
def Reference.name : Reference → String
  | .plain name => name
  | .qualified name _ => name

/-- The text of a term whose references read the instance with the variable `path`. -/
def Term.text (path : String) : Term → String
  | .int n => literal (.int n)
  | .float v => literal (.float v)
  | .bool b => literal (.bool b)
  | .string s => literal (.string s)
  | .code text => literal (.code text)
  | .time d => literal (.time d.time)
  | .param r => path ++ "." ++ r.name

/-- What a reference refers to has the name that it gives. -/
theorem Term.Denotes.named {c : Catalog} {scope : Option String} {r : Reference} {v : Value}
    (h : Term.Denotes c scope (.param r) v) : ∃ q, v = .param q ∧ c.ParameterNamed r.name q := by
  cases h with
  | plain _ hq => exact ⟨_, rfl, hq.named⟩
  | qualified hq => exact ⟨_, rfl, hq.named⟩

end Model

namespace Script

/-- Overrides that are all kept are the overrides that are kept. -/
theorem overriding_lastOfEachName {es : List Entry} (hnd : (overriding es).Nodup)
    (hkept : ∀ e ∈ overriding es, e ∈ lastOfEachName es) :
    overriding (lastOfEachName es) = overriding es := by
  apply ((lastOfEachName_sublist es).filter _).eq_of_length_le
  apply (List.subperm_of_subset hnd _).length_le
  intro e he
  exact List.mem_filter.mpr ⟨hkept e he, (List.mem_filter.mp he).2⟩

end Script

/-- The last assignment that sets a parameter. -/
theorem Assembly.lastSetting?_append {q : ParamId} {before after : List Assignment}
    {y : Assignment} (hy : y.target = q) (hafter : ∀ z ∈ after, z.target ≠ q) :
    Assembly.lastSetting? q (before ++ y :: after) = some y := by
  unfold Assembly.lastSetting?
  rw [List.find?_eq_some_iff_append]
  refine ⟨decide_eq_true hy, after.reverse, before.reverse, by simp, ?_⟩
  intro z hz
  simpa using hafter z (List.mem_reverse.mp hz)

namespace Program

open Script
open Model (Faithful Term namesOf)

variable {m : Model} {p : Program}

/-! ## Values -/

theorem text_ownExpr {scope : Option String} {t : Term} {v : Value}
    (h : t.Denotes p.catalog scope v) (i : NodeId) :
    (p.ownExpr i v).text = t.text (p.pathOf i) := by
  cases t with
  | param r =>
    obtain ⟨q, rfl, x, hx, hname⟩ := h.named
    simp [ownExpr, Expr.text, Access.text, Term.text, nameOf_eq hx, hname]
  | time d =>
    cases h with
    | time ht =>
      rw [ht.eq]
      rfl
  | _ =>
    cases h
    rfl

theorem text_outerExpr {scope : Option String} {t : Term} {v : Value}
    (h : t.Denotes p.catalog scope v) (i : NodeId) :
    (p.outerExpr i v).text = t.text (p.pathOf i) := by
  rw [← text_ownExpr h]
  cases v <;> rfl

/-- What a name stands for is the last of the visible parameters of the name. -/
theorem lastNamed?_of_standsFor (hm : Faithful m p) {reactor name : String} {r : ReactorId}
    (hr : p.catalog.ReactorNamed reactor r) {q : ParamId}
    (h : p.catalog.StandsFor reactor name q) :
    ∃ w, Catalog.lastNamed? (p.visibleOf r) name = some w ∧ w.id = q := by
  obtain ⟨s, hs, hlast⟩ := h
  rw [hs.eq hm.catalog.closed hm.catalog.distinct hr] at hlast
  obtain ⟨w, hfind, hw⟩ := hlast.find hm.catalog.closed hr.hasReactor
  obtain ⟨qs, hqs⟩ := hm.catalog.closed.exists_visible hr.hasReactor
  have hvisible : p.visibleOf r = qs := by simp [visibleOf, hqs]
  rw [Catalog.findParameter?, hqs] at hfind
  exact ⟨w, hvisible ▸ Option.some.inj hfind, hw⟩

/-- A parameter that is set resolves to the terms of its last setting, read from the instance
    around. -/
theorem text_resolutionAt_of_setting {n : Assembly.Node} {q : Catalog.Parameter}
    {a : Model.Assignment} {y : Assignment} {reactor : String} {outer : Option String}
    (hset : Assembly.lastSetting? q.id n.assignments = some y)
    (h : a.Denotes p.catalog reactor outer y) :
    (p.resolutionAt n q).terms.map Expr.text =
      a.terms.map (Term.text (p.pathOf (n.parent.getD n.id))) := by
  unfold resolutionAt
  rw [hset, List.map_map]
  symm
  apply Lookup.map_eq_of_forall₂ h.values
  intro t v ht
  exact (text_outerExpr ht _).symm

/-- A parameter that is not set resolves to the terms of its default, read from the instance. -/
theorem text_resolutionAt_of_default {n : Assembly.Node} {q : Catalog.Parameter}
    {d : Model.Parameter} {reactor : String} (hset : ¬ n.Sets q)
    (h : d.Denotes p.catalog reactor q) :
    (p.resolutionAt n q).terms.map Expr.text = d.default.map (Term.text (p.pathOf n.id)) := by
  unfold resolutionAt
  rw [lastSetting?_eq_none_iff.mpr hset, List.map_map]
  symm
  apply Lookup.map_eq_of_forall₂ h.default
  intro t v ht
  exact (text_ownExpr ht _).symm

/-- The value under a name is the text of what the last parameter of the name resolves to. -/
theorem get?_of_lastNamed {n : Assembly.Node}
    (hnone : ∀ q ∈ p.visibleOf n.reactor, slotReports n q = []) {name : String}
    {w : Catalog.Parameter} (hw : Catalog.lastNamed? (p.visibleOf n.reactor) name = some w) :
    ∃ text, tuple? p.options.separator ((p.resolutionAt n w).terms.map Expr.text) = some text ∧
      (p.overridesOf n).get? name = some text := by
  have hfault : slotFault? n w = none := by
    simpa [slotReports] using hnone w (Catalog.lastNamed?_eq_some hw).1
  refine ⟨_, tuple?_eq_some (resolutionAt_terms_ne_nil hfault), ?_⟩
  unfold Overrides.get?
  rw [find?_entries (entries_of_nil hnone) hw]
  rfl

/-- The overrides of an instance. -/
theorem overriding_overridesOf {n : Assembly.Node}
    (hnone : ∀ q ∈ p.visibleOf n.reactor, slotReports n q = []) :
    overriding (p.overridesOf n).entries =
      ((p.visibleOf n.reactor).filter fun q => (p.entryAt n q).origin = .override).map
        (p.entryAt n) := by
  rw [entries_of_nil hnone, overriding, List.filter_map]
  rfl

/-- They are the values of the parameters that the instance sets. -/
theorem mem_overriding_iff {n : Assembly.Node}
    (hnone : ∀ q ∈ p.visibleOf n.reactor, slotReports n q = []) {e : Entry} :
    e ∈ overriding (p.overridesOf n).entries ↔
      ∃ q ∈ p.visibleOf n.reactor, n.Sets q ∧ p.entryAt n q = e := by
  simp only [overriding_overridesOf hnone, List.mem_map, List.mem_filter, decide_eq_true_iff,
    origin_entryAt, and_assoc]

/-! ## Instances -/

/-- The values of the instance of a place, by name. -/
structure Precedence (rs : List Model.Reactor) (p : Program) (x : Model.Place) (o : Overrides) :
    Prop where
  node : o.node = x.id
  path : p.assembly.path? x.id = some o.path
  /-- The last assignment of a name counts.  Its references read the instance around, and there are
      none in it where no instance is around. -/
  assigned : ∀ before a after, x.inst.assignments = before ++ a :: after →
    (∀ b ∈ after, b.target ≠ a.target) →
    ∃ outer text, (∀ i, x.parent = some i → p.assembly.path? i = some outer) ∧
      (x.parent = none → ∀ r, .param r ∉ a.terms) ∧
      tuple? p.options.separator (a.terms.map (Term.text outer)) = some text ∧
      o.get? a.target = some text
  /-- Where no assignment has a name, the default of the last visible parameter of the name counts.
      Its references read the instance itself. -/
  unassigned : ∀ name, (∀ a ∈ x.inst.assignments, a.target ≠ name) →
    (namesOf rs).parameter x.inst.reactor name →
    ∃ q owner, p.catalog.StandsFor x.inst.reactor name q ∧
      ∃ r ∈ rs, p.catalog.ReactorNamed r.name owner ∧
      ∃ d text, (d, q) ∈ r.parameters.zip (p.catalog.own owner) ∧ d.name = name ∧
        tuple? p.options.separator (d.default.map (Term.text o.path)) = some text ∧
        o.get? name = some text
  /-- The overrides are one for each name that is assigned. -/
  overrides : ((overriding o.entries).map (·.name)).Nodup ∧
    ∀ name, name ∈ (overriding o.entries).map (·.name) ↔
      ∃ a ∈ x.inst.assignments, a.target = name
  /-- They all remain where only the last entry of each name does. -/
  kept : overriding o.distinct = overriding o.entries

section instances
variable (hm : Faithful m p) (hloaded : Model.Loaded p) {x : Model.Place} {n : Assembly.Node}
  (hn : n ∈ p.nodesOf) (hxn : Model.Place.Denotes p.catalog x n)
include hm hloaded hn hxn

/-- An assigned name is that of the last parameter of the name, and of no other one that is set. -/
theorem sets_iff {q : Catalog.Parameter} (hq : q ∈ p.visibleOf n.reactor) :
    n.Sets q ↔ (∃ a ∈ x.inst.assignments, a.target = q.name) ∧
      Catalog.lastNamed? (p.visibleOf n.reactor) q.name = some q := by
  have hp := closed_of_loaded hloaded
  have hfound := hp.found hn
  have hq' := hp.parameter?_of_visibleOf (hp.reactor hfound) hq
  constructor
  · intro hset
    obtain ⟨y, hy, hyq⟩ := id hset
    obtain ⟨a, ha, hay⟩ := Lookup.exists_mem_of_forall₂ hxn.assignments.flip hy
    have hname : a.target = q.name := hay.target.named.name_eq ⟨q, hyq ▸ hq', rfl⟩
    obtain ⟨w, hw, hwy⟩ := lastNamed?_of_standsFor hm hxn.reactor hay.target
    rw [hname] at hw
    exact ⟨⟨a, ha, hname⟩, eq_of_sets hloaded hfound hw hq rfl hset ▸ hw⟩
  · intro ⟨⟨a, ha, hname⟩, hlast⟩
    obtain ⟨y, hy, hay⟩ := Lookup.exists_mem_of_forall₂ hxn.assignments ha
    obtain ⟨w, hw, hwy⟩ := lastNamed?_of_standsFor hm hxn.reactor hay.target
    rw [hname, hlast] at hw
    exact ⟨y, hy, hwy.symm.trans (congrArg _ (Option.some.inj hw).symm)⟩

omit hloaded hn in
/-- The last assignment of a name is the last setting of the parameter of the name. -/
theorem exists_lastSetting {before after : List Model.Assignment} {a : Model.Assignment}
    (hsplit : x.inst.assignments = before ++ a :: after)
    (hlast : ∀ b ∈ after, b.target ≠ a.target) :
    ∃ y w, a.Denotes p.catalog x.inst.reactor x.outer y ∧
      Catalog.lastNamed? (p.visibleOf n.reactor) a.target = some w ∧
      Assembly.lastSetting? w.id n.assignments = some y := by
  obtain ⟨ys, zs, hyz, _, hzs⟩ := Lookup.forall₂_append_left (hsplit ▸ hxn.assignments)
  obtain ⟨y, after', hay, hafter, rfl⟩ := List.forall₂_cons_left_iff.mp hzs
  obtain ⟨w, hw, hwy⟩ := lastNamed?_of_standsFor hm hxn.reactor hay.target
  refine ⟨y, w, hay, hw, ?_⟩
  rw [hyz]
  apply Assembly.lastSetting?_append hwy.symm
  intro z hz hzw
  -- an assignment behind it that sets the parameter would have its name
  obtain ⟨b, hb, hbz⟩ := Lookup.exists_mem_of_forall₂ hafter.flip hz
  apply hlast b hb
  exact hbz.target.named.name_eq (hzw.trans hwy ▸ hay.target.named)

variable (hnone : ∀ q ∈ p.visibleOf n.reactor, slotReports n q = [])
include hnone

/-- The last assignment of a name gives the value under the name. -/
theorem get?_of_assigned {before after : List Model.Assignment} {a : Model.Assignment}
    (hsplit : x.inst.assignments = before ++ a :: after)
    (hlast : ∀ b ∈ after, b.target ≠ a.target) :
    ∃ outer text, (∀ i, x.parent = some i → p.assembly.path? i = some outer) ∧
      (x.parent = none → ∀ r, .param r ∉ a.terms) ∧
      tuple? p.options.separator (a.terms.map (Term.text outer)) = some text ∧
      (p.overridesOf n).get? a.target = some text := by
  have hp := closed_of_loaded hloaded
  obtain ⟨y, w, hay, hw, hsetting⟩ := exists_lastSetting hm hxn hsplit hlast
  obtain ⟨text, htext, hget⟩ := get?_of_lastNamed hnone hw
  rw [text_resolutionAt_of_setting hsetting hay] at htext
  refine ⟨_, text, ?_, ?_, htext, hget⟩
  · intro i hi
    rw [← hxn.parent] at hi
    obtain ⟨outer, houter, _⟩ := hp.assembly.parent (hp.found hn) hi
    rw [hi]
    exact hp.path? (Assembly.hasNode_of_some houter)
  · intro hparent r hr
    have hfault : settingFault? n w y = none := by
      simpa [slotReports, slotFault?, hsetting] using hnone w (Catalog.lastNamed?_eq_some hw).1
    obtain ⟨_, hroot⟩ := settingFault?_eq_none_iff.mp hfault
    obtain ⟨v, hv, hrv⟩ := Lookup.exists_mem_of_forall₂ hay.values hr
    obtain ⟨q, rfl, _⟩ := hrv.named
    have hfree := hroot (hxn.parent.trans hparent) _ hv
    simp [Value.reference?] at hfree

/-- The default of the last parameter of a name gives the value under the name, if no assignment
    has the name. -/
theorem get?_of_unassigned {name : String}
    (hfree : ∀ a ∈ x.inst.assignments, a.target ≠ name)
    (hname : (namesOf m.reactors).parameter x.inst.reactor name) :
    ∃ q owner, p.catalog.StandsFor x.inst.reactor name q ∧
      ∃ r ∈ m.reactors, p.catalog.ReactorNamed r.name owner ∧
      ∃ d text, (d, q) ∈ r.parameters.zip (p.catalog.own owner) ∧ d.name = name ∧
        tuple? p.options.separator (d.default.map (Term.text (p.pathOf n.id))) = some text ∧
        (p.overridesOf n).get? name = some text := by
  have hp := closed_of_loaded hloaded
  have hr := hp.reactor (hp.found hn)
  obtain ⟨q, hq⟩ := hm.catalog.exists_standsFor_iff.mpr hname
  obtain ⟨w, hw, hwq⟩ := lastNamed?_of_standsFor hm hxn.reactor hq
  obtain ⟨hwmem, hwname⟩ := Catalog.lastNamed?_eq_some hw
  -- the parameter is declared by a reactor of the model
  obtain ⟨owner, _, i, hi, hiw⟩ := (hp.catalog.mem_visible_iff hr (hp.visible? hr)).mp hwmem
  obtain ⟨r, hrs, hrowner, d, hdq, z, hz, _, hdz⟩ := hm.catalog.exists_declared hi
  rw [hiw] at hz
  cases hz
  have hiq : i = q := (hp.catalog.parameter_id hiw).symm.trans hwq
  subst hiq
  have hset : ¬ n.Sets w := by
    intro hset
    obtain ⟨⟨a, ha, haw⟩, _⟩ := (sets_iff hm hloaded hn hxn hwmem).mp hset
    exact hfree a ha (haw.trans hwname)
  obtain ⟨text, htext, hget⟩ := get?_of_lastNamed hnone hw
  rw [text_resolutionAt_of_default hset hdz] at htext
  exact ⟨i, owner, hq, r, hrs, hrowner, d, text, hdq, hdz.name.symm.trans hwname, htext, hget⟩

/-- No two overrides have one name. -/
theorem nodup_overriding : ((overriding (p.overridesOf n).entries).map (·.name)).Nodup := by
  have hp := closed_of_loaded hloaded
  have hr := hp.reactor (hp.found hn)
  have hids := hm.catalog.nodup_visibleIds hr
    (hp.catalog.visibleIds?_of_visible (hp.visible? hr))
  have hlast : ∀ q ∈ (p.visibleOf n.reactor).filter fun q => (p.entryAt n q).origin = .override,
      Catalog.lastNamed? (p.visibleOf n.reactor) q.name = some q := by
    intro q hq
    obtain ⟨hq, hset⟩ := List.mem_filter.mp hq
    exact ((sets_iff hm hloaded hn hxn hq).mp (origin_entryAt.mp (of_decide_eq_true hset))).2
  rw [overriding_overridesOf hnone, List.map_map]
  apply ((List.Nodup.of_map _ hids).filter _).map_on
  intro q hq q' hq' hname
  have hname : q.name = q'.name := hname
  exact Option.some.inj ((hlast q hq).symm.trans (hname ▸ hlast q' hq'))

/-- The names of the overrides are those that are assigned. -/
theorem mem_names_overriding_iff {name : String} :
    name ∈ (overriding (p.overridesOf n).entries).map (·.name) ↔
      ∃ a ∈ x.inst.assignments, a.target = name := by
  rw [List.mem_map]
  constructor
  · rintro ⟨e, he, hname⟩
    obtain ⟨q, hq, hset, rfl⟩ := (mem_overriding_iff hnone).mp he
    obtain ⟨⟨a, ha, haq⟩, _⟩ := (sets_iff hm hloaded hn hxn hq).mp hset
    exact ⟨a, ha, haq.trans hname⟩
  · rintro ⟨a, ha, hname⟩
    obtain ⟨y, hy, hay⟩ := Lookup.exists_mem_of_forall₂ hxn.assignments ha
    obtain ⟨w, hw, hwy⟩ := lastNamed?_of_standsFor hm hxn.reactor hay.target
    obtain ⟨hwmem, hwname⟩ := Catalog.lastNamed?_eq_some hw
    exact ⟨p.entryAt n w, (mem_overriding_iff hnone).mpr ⟨w, hwmem, ⟨y, hy, hwy.symm⟩, rfl⟩,
      hwname.trans hname⟩

/-- An override is the last entry of its name. -/
theorem overriding_distinct :
    overriding (p.overridesOf n).distinct = overriding (p.overridesOf n).entries := by
  rw [Overrides.distinct_eq]
  apply overriding_lastOfEachName
  · exact List.Nodup.of_map _ (nodup_overriding hm hloaded hn hxn hnone)
  · intro e he
    obtain ⟨q, hq, hset, rfl⟩ := (mem_overriding_iff hnone).mp he
    exact mem_lastOfEachName
      (find?_entries (entries_of_nil hnone) ((sets_iff hm hloaded hn hxn hq).mp hset).2)

theorem precedence_overridesOf (hx : x ∈ m.places) :
    Precedence m.reactors p x (p.overridesOf n) where
  node := hxn.id
  path := by
    have hpath : (p.overridesOf n).path = variableOf x.trail := by
      rw [← pathOf_place hm hx, ← hxn.id]
      rfl
    rw [hpath, path?_place hm hx]
  assigned _ _ _ hsplit hlast := get?_of_assigned hm hloaded hn hxn hnone hsplit hlast
  unassigned _ hfree hname := get?_of_unassigned hm hloaded hn hxn hnone hfree hname
  overrides :=
    ⟨nodup_overriding hm hloaded hn hxn hnone,
      fun _ => mem_names_overriding_iff hm hloaded hn hxn hnone⟩
  kept := overriding_distinct hm hloaded hn hxn hnone

end instances

/-- In an accepted model without an error, whatever options it is emitted with, the last assignment
    of a name gives the value that an instance has under the name, or else the default of the last
    parameter of the name does. -/
theorem last_assignment_counts (h : m.elaborate = some (.ok p)) {vs : List Diagnostic}
    (hvs : p.validate? = some vs) (hno : hasErrors vs = false) (o : Options) :
    p.assembly.root? = some ⟨0⟩ ∧
      ∃ maps, (({ p with options := o } : Program).overridesBelow ⟨0⟩).run = some (maps, []) ∧
        List.Forall₂ (Precedence m.reactors { p with options := o }) m.places maps := by
  have hm := (Model.faithful_of_quiet (Model.bindAll_quiet h)).withOptions o
  have hloaded := (Model.loaded_of_elaborate h).1.withOptions o
  have hp := closed_of_loaded hloaded
  have hvs' := (validate?_withOptions o).trans hvs
  have hmaps := overridesBelow_run hp hm.root
  rw [(reports_eq_nil hp hvs' hno).2] at hmaps
  refine ⟨hm.root, _, hmaps, ?_⟩
  rw [List.forall₂_map_right_iff]
  apply (forall₂_nodesOf hm).imp
  intro x n ⟨hx, hn, hxn⟩
  exact precedence_overridesOf hm hloaded hn hxn (slotReports_of_valid hp hvs' hno hn) hx

open Model (nesting nestingProgram)

theorem last_assignment_nesting :
    nesting.elaborate = some (.ok nestingProgram) ∧
      (∃ vs, nestingProgram.validate? = some vs ∧ hasErrors vs = false) ∧
      ∃ main b, (nestingProgram.overridesBelow ⟨0⟩).run = some ([main, b], []) ∧
        b.get? "x" = some "main_lf.x" ∧ b.get? "y" = some "(main_b_lf.x, 2)" := by
  have hload := Model.elaborate_nesting
  obtain ⟨vs, hvs, hno⟩ : ∃ vs, nestingProgram.validate? = some vs ∧ hasErrors vs = false :=
    ⟨_, rfl, rfl⟩
  obtain ⟨_, maps, hmaps, hall⟩ := last_assignment_counts hload hvs hno .standard
  have hm := Model.faithful_of_quiet (Model.bindAll_quiet hload)
  have hpath := fun x hx => path?_place (x := x) hm hx
  rw [Model.places_nesting] at hall hpath
  obtain ⟨main, rest, _, hrest, rfl⟩ := List.forall₂_cons_left_iff.mp hall
  obtain ⟨b, others, hb, hothers, rfl⟩ := List.forall₂_cons_left_iff.mp hrest
  obtain rfl := List.forall₂_nil_left_iff.mp hothers
  refine ⟨hload, ⟨vs, hvs, hno⟩, main, b, hmaps, ?_, ?_⟩
  · obtain ⟨outer, text, houter, _, htext, hget⟩ := hb.assigned [] _ [] rfl (by simp)
    have hmain := (houter ⟨0⟩ rfl).symm.trans (hpath _ List.mem_cons_self)
    rw [Option.some.inj hmain] at htext
    rw [hget, ← htext]
    rfl
  · obtain ⟨q, owner, _, r, hr, _, d, text, hdq, hname, htext, hget⟩ :=
      hb.unassigned "y" (by simp)
        ⟨_, List.mem_cons_self, .refl, _, List.mem_cons_self, rfl⟩
    have hd : d = ⟨"y", none, [.param (.plain "x"), .int 2], .nowhere⟩ := by
      have hmem := (List.of_mem_zip hdq).1
      rcases (by simpa [nesting] using hr : _ ∨ _) with rfl | rfl
      · simpa using hmem
      · simp only [List.mem_singleton] at hmem
        subst hmem
        exact absurd hname (by decide)
    have hself := hb.path.symm.trans (hpath _ (List.mem_cons_of_mem _ List.mem_cons_self))
    rw [hd, Option.some.inj hself] at htext
    rw [hget, ← htext]
    rfl

end Program

end Reactors
