import Reactors.Proofs.Model.Terms
import Reactors.Proofs.Quiet

/-! # What the names of a model stand for

    The name of a parameter stands, on a reactor, for the last of the visible parameters that have
    it.  A term denotes a value where the names in it stand for what the value refers to.  Binding
    that reports nothing gives every term the value that it denotes, and leaves none out.
-/

namespace Reactors

namespace Catalog

variable {c c' : Catalog}

/-! ## Names -/

/-- The reactor with an identity has a name. -/
def ReactorNamed (c : Catalog) (name : String) (r : ReactorId) : Prop :=
  ∃ d, c.reactor? r = some d ∧ d.name = name

/-- The parameter with an identity has a name. -/
def ParameterNamed (c : Catalog) (name : String) (q : ParamId) : Prop :=
  ∃ x, c.parameter? q = some x ∧ x.name = name

/-- The parameter is the last one of a name among those visible on a reactor. -/
def LastNamed (c : Catalog) (r : ReactorId) (name : String) (q : ParamId) : Prop :=
  ∃ before after, c.visibleIds? r = some (before ++ q :: after) ∧ c.ParameterNamed name q ∧
    ∀ x ∈ after, ¬ c.ParameterNamed name x

/-- What the name of a parameter stands for on the reactor of a name. -/
def StandsFor (c : Catalog) (reactor name : String) (q : ParamId) : Prop :=
  ∃ r, c.ReactorNamed reactor r ∧ c.LastNamed r name q

theorem ReactorNamed.hasReactor {name : String} {r : ReactorId} (h : c.ReactorNamed name r) :
    c.HasReactor r := by
  obtain ⟨d, hd, _⟩ := h
  exact hasReactor_of_some hd

/-- No reactor has two names. -/
theorem ReactorNamed.name_eq {a b : String} {r : ReactorId} (ha : c.ReactorNamed a r)
    (hb : c.ReactorNamed b r) : a = b := by
  obtain ⟨d, hd, rfl⟩ := ha
  obtain ⟨e, he, rfl⟩ := hb
  rw [hd] at he
  rw [Option.some.inj he]

/-- No parameter has two names. -/
theorem ParameterNamed.name_eq {a b : String} {q : ParamId} (ha : c.ParameterNamed a q)
    (hb : c.ParameterNamed b q) : a = b := by
  obtain ⟨x, hx, rfl⟩ := ha
  obtain ⟨y, hy, rfl⟩ := hb
  rw [hx] at hy
  rw [Option.some.inj hy]

/-- Where no name occurs twice, a name is that of one reactor. -/
theorem ReactorNamed.eq (hc : c.Closed) (hn : c.names.Nodup) {name : String} {r s : ReactorId}
    (hr : c.ReactorNamed name r) (hs : c.ReactorNamed name s) : r = s := by
  obtain ⟨d, hd, hdname⟩ := hr
  obtain ⟨e, he, hename⟩ := hs
  have hnamed := named?_of_nodup hn hd
  rw [hdname, ← hename, named?_of_nodup hn he] at hnamed
  rw [← hc.reactor_id hd, ← hc.reactor_id he, Option.some.inj hnamed]

/-- A list has one last element that satisfies a condition. -/
theorem eq_of_last {α : Type} {cond : α → Prop} {before after before' after' : List α} {x y : α}
    (h : before ++ x :: after = before' ++ y :: after') (hx : cond x) (hy : cond y)
    (hafter : ∀ z ∈ after, ¬ cond z) (hafter' : ∀ z ∈ after', ¬ cond z) : x = y := by
  rcases List.append_eq_append_iff.mp h with ⟨mid, _, h⟩ | ⟨mid, _, h⟩
  · cases mid with
    | nil => exact (List.cons.inj h).1
    | cons z mid =>
      -- `y` stands behind `x` then
      have hmem : y ∈ after := by simp [(List.cons.inj h).2]
      exact absurd hy (hafter y hmem)
  · cases mid with
    | nil => exact (List.cons.inj h).1.symm
    | cons z mid =>
      have hmem : x ∈ after' := by simp [(List.cons.inj h).2]
      exact absurd hx (hafter' x hmem)

theorem LastNamed.eq {r : ReactorId} {name : String} {q q' : ParamId} (h : c.LastNamed r name q)
    (h' : c.LastNamed r name q') : q = q' := by
  obtain ⟨before, after, hids, hq, hafter⟩ := h
  obtain ⟨before', after', hids', hq', hafter'⟩ := h'
  rw [hids] at hids'
  exact eq_of_last (Option.some.inj hids') hq hq' hafter hafter'

/-- A name stands for one parameter. -/
theorem StandsFor.eq (hc : c.Closed) (hn : c.names.Nodup) {reactor name : String} {q q' : ParamId}
    (h : c.StandsFor reactor name q) (h' : c.StandsFor reactor name q') : q = q' := by
  obtain ⟨r, hr, hlast⟩ := h
  obtain ⟨s, hs, hlast'⟩ := h'
  rw [hr.eq hc hn hs] at hlast
  exact hlast.eq hlast'

/-- What a name stands for has the name. -/
theorem StandsFor.named {reactor name : String} {q : ParamId} (h : c.StandsFor reactor name q) :
    c.ParameterNamed name q := by
  obtain ⟨_, _, _, _, _, hq, _⟩ := h
  exact hq

theorem LastNamed.standsFor {r : ReactorId} {reactor name : String} {q : ParamId}
    (h : c.LastNamed r name q) (hr : c.ReactorNamed reactor r) : c.StandsFor reactor name q :=
  ⟨r, hr, h⟩

/-- The last of the visible parameters of a name, found by it, is the last one of the name. -/
theorem Closed.lastNamed_of_find (hc : c.Closed) {r : ReactorId} {name : String}
    {x : Parameter} (h : c.findParameter? r name = some (some x)) : c.LastNamed r name x.id := by
  obtain ⟨ps, hps, h⟩ := Option.bind_eq_some_iff.mp h
  have hlast : (ps.reverse.find? fun p => p.name == name) = some x := Option.some.inj h
  obtain ⟨hname, later, earlier, hsplit, hlater⟩ := List.find?_eq_some_iff_append.mp hlast
  have hps' : ps = earlier.reverse ++ x :: later.reverse := by
    simpa using congrArg List.reverse hsplit
  refine ⟨earlier.reverse.map (·.id), later.reverse.map (·.id), ?_, ?_, ?_⟩
  · rw [hc.visibleIds?_of_visible hps, hps']
    simp
  · exact ⟨x, hc.parameter?_of_visible hps (by simp [hps']), by simpa using hname⟩
  · intro q hq ⟨y, hy, hyname⟩
    obtain ⟨z, hz, rfl⟩ := List.mem_map.mp hq
    rw [List.mem_reverse] at hz
    rw [hc.parameter?_of_visible hps (by simp [hps', hz])] at hy
    cases hy
    simpa [hyname] using hlater _ hz

theorem LastNamed.hasName (hc : c.Closed) {r : ReactorId} (hr : c.HasReactor r) {name : String}
    {q : ParamId} (h : c.LastNamed r name q) : c.HasName r name := by
  obtain ⟨before, after, hids, ⟨x, hx, hname⟩, _⟩ := h
  obtain ⟨s, hs, hq⟩ := (hc.mem_visibleIds_iff hr hids (q := q)).mp (by simp)
  exact ⟨s, hs, q, hq, x, hx, hname⟩

/-- The last one of a name is found by it. -/
theorem LastNamed.find (hc : c.Closed) {r : ReactorId} (hr : c.HasReactor r) {name : String}
    {q : ParamId} (h : c.LastNamed r name q) :
    ∃ x, c.findParameter? r name = some (some x) ∧ x.id = q := by
  have hname := h.hasName hc hr
  obtain ⟨o, ho, hnone, _⟩ := hc.findParameter?_spec hr name
  obtain ⟨y, rfl⟩ : ∃ y, o = some y := Option.ne_none_iff_exists'.mp fun hn => hnone.mp hn hname
  exact ⟨y, ho, (hc.lastNamed_of_find ho).eq h⟩

/-! ### Catalogs with the same names -/

theorem SameNames.symm (h : c.SameNames c') : c'.SameNames c where
  names := h.names.symm
  supers r := (h.supers r).symm
  own r := (h.own r).symm
  parameter q := (h.parameter q).symm

theorem SameNames.reactorNamed_iff (h : c.SameNames c') {name : String} {r : ReactorId} :
    c'.ReactorNamed name r ↔ c.ReactorNamed name r := by
  unfold ReactorNamed
  rw [← Option.map_eq_some_iff, ← Option.map_eq_some_iff, ← getElem?_names r.index,
    ← getElem?_names r.index, h.names]

theorem SameNames.parameterNamed_iff (h : c.SameNames c') {name : String} {q : ParamId} :
    c'.ParameterNamed name q ↔ c.ParameterNamed name q := by
  unfold ParameterNamed
  rw [← Option.map_eq_some_iff, ← Option.map_eq_some_iff, h.parameter]

/-- The same parameters are visible, in the same order. -/
theorem SameNames.visibleIds? (h : c.SameNames c') (hc : c.Closed) (hc' : c'.Closed)
    {r : ReactorId} (hr : c.HasReactor r) : c'.visibleIds? r = c.visibleIds? r := by
  have hsize := size_of_names h.names
  have hr' : c'.HasReactor r := hr.mono (Nat.le_of_eq hsize.symm)
  have hsupers : c'.supers = c.supers := funext h.supers
  have hsearch : ∀ fuel s x, c'.search fuel s x = c.search fuel s x := by
    intro fuel
    induction fuel with
    | zero => intro s x; rfl
    | succ fuel ih =>
      intro s x
      rw [search, search, hsupers, funext fun s => funext (ih s)]
  have hlineage : c'.lineage r = c.lineage r := by
    unfold lineage
    rw [hsize, hsearch]
  rw [hc'.visibleIds?_eq hr', hc.visibleIds?_eq hr, hlineage, funext h.own]

theorem SameNames.standsFor_iff (h : c.SameNames c') (hc : c.Closed) (hc' : c'.Closed)
    {reactor name : String} {q : ParamId} :
    c'.StandsFor reactor name q ↔ c.StandsFor reactor name q := by
  unfold StandsFor
  constructor
  · intro ⟨r, hr, hlast⟩
    rw [h.reactorNamed_iff] at hr
    refine ⟨r, hr, ?_⟩
    unfold LastNamed at hlast ⊢
    simpa only [h.visibleIds? hc hc' hr.hasReactor, h.parameterNamed_iff] using hlast
  · intro ⟨r, hr, hlast⟩
    refine ⟨r, h.reactorNamed_iff.mpr hr, ?_⟩
    unfold LastNamed at hlast ⊢
    simpa only [h.visibleIds? hc hc' hr.hasReactor, h.parameterNamed_iff] using hlast

end Catalog

namespace Model

open Collect (quiet_bind_iff quiet_pure_iff quiet_lookup_bind_iff not_quiet_report_bind)

/-! ## Terms -/

/-- The time that a time value denotes. -/
inductive Duration.Denotes : Duration → Time → Prop where
  | unit {value : Nat} {text : String} {u : Time.Unit} (h : text ∈ u.spellings) :
      Denotes ⟨value, some text⟩ ⟨value, some u⟩
  /-- Only zero goes without a unit. -/
  | zero : Denotes ⟨0, none⟩ ⟨0, none⟩

/-- The value that a term denotes where names alone are those of the reactor `scope`. -/
inductive Term.Denotes (c : Catalog) (scope : Option String) : Term → Value → Prop where
  | int (n : Int) : Denotes c scope (.int n) (.constant (.int n))
  | float (v : Binary64) : Denotes c scope (.float v) (.constant (.float v))
  | bool (b : Bool) : Denotes c scope (.bool b) (.constant (.bool b))
  | string (s : String) : Denotes c scope (.string s) (.constant (.string s))
  | code (text : String) : Denotes c scope (.code text) (.constant (.code text))
  | time {d : Duration} {t : Time} (h : d.Denotes t) :
      Denotes c scope (.time d) (.constant (.time t))
  | plain {reactor name : String} {q : ParamId} (hscope : scope = some reactor)
      (h : c.StandsFor reactor name q) : Denotes c scope (.param (.plain name)) (.param q)
  | qualified {reactor name : String} {q : ParamId} (h : c.StandsFor reactor name q) :
      Denotes c scope (.param (.qualified name reactor)) (.param q)

/-- An assignment of an instance of `reactor` sets what its target stands for there, to what its
    terms denote, names alone being those of the reactor `scope`. -/
structure Assignment.Denotes (c : Catalog) (reactor : String) (scope : Option String)
    (x : Assignment) (y : Reactors.Assignment) : Prop where
  target : c.StandsFor reactor x.target y.target
  values : List.Forall₂ (Term.Denotes c scope) x.terms y.values
  span : y.span = x.span

variable {c c' : Catalog} {scope : Option String}

/-- A term denotes the same where the same names stand for the same. -/
theorem Term.Denotes.congr (h : c.SameNames c') (hc : c.Closed) (hc' : c'.Closed) {t : Term}
    {v : Value} (ht : t.Denotes c scope v) : t.Denotes c' scope v := by
  cases ht with
  | plain hscope hq => exact .plain hscope ((h.standsFor_iff hc hc').mpr hq)
  | qualified hq => exact .qualified ((h.standsFor_iff hc hc').mpr hq)
  | time ht => exact .time ht
  | int n => exact .int n
  | float v => exact .float v
  | bool b => exact .bool b
  | string s => exact .string s
  | code text => exact .code text

/-- A text that spells a unit is read as this unit. -/
theorem ofText?_of_mem {u : Time.Unit} {text : String} (h : text ∈ u.spellings) :
    Time.Unit.ofText? text = some u := by
  have hall : ∀ u : Time.Unit, ∀ s ∈ u.spellings, Time.Unit.ofText? s = some u := by
    intro u
    cases u <;> decide
  exact hall u text h

/-- The time of a time value. -/
def Duration.time (d : Duration) : Time := ⟨d.value, d.unit.bind Time.Unit.ofText?⟩

/-- A time value denotes its time alone. -/
theorem Duration.Denotes.eq {d : Duration} {t : Time} (h : d.Denotes t) : t = d.time := by
  cases h with
  | zero => rfl
  | unit h => simp [Duration.time, ofText?_of_mem h]

/-- A term denotes one value. -/
theorem Term.Denotes.eq (hc : c.Closed) (hn : c.names.Nodup) {t : Term} {v v' : Value}
    (h : t.Denotes c scope v) (h' : t.Denotes c scope v') : v = v' := by
  cases h with
  | plain hscope hq =>
    cases h' with
    | plain hscope' hq' =>
      rw [hscope] at hscope'
      cases hscope'
      rw [hq.eq hc hn hq']
  | qualified hq =>
    cases h' with
    | qualified hq' => rw [hq.eq hc hn hq']
  | time ht =>
    cases h' with
    | time ht' => rw [ht.eq, ht'.eq]
  | int n => cases h'; rfl
  | float v => cases h'; rfl
  | bool b => cases h'; rfl
  | string s => cases h'; rfl
  | code text => cases h'; rfl

/-- Terms denote one list of values. -/
theorem eq_of_denotes (hc : c.Closed) (hn : c.names.Nodup) {ts : List Term} {vs vs' : List Value}
    (h : List.Forall₂ (Term.Denotes c scope) ts vs)
    (h' : List.Forall₂ (Term.Denotes c scope) ts vs') : vs = vs' :=
  List.right_unique_forall₂' (fun _ _ _ ht ht' => ht.eq hc hn ht') h h'

/-- An assignment denotes one assignment. -/
theorem Assignment.Denotes.eq (hc : c.Closed) (hn : c.names.Nodup) {reactor : String}
    {x : Assignment} {y y' : Reactors.Assignment} (h : x.Denotes c reactor scope y)
    (h' : x.Denotes c reactor scope y') : y = y' := by
  have htarget := h.target.eq hc hn h'.target
  have hvalues := eq_of_denotes hc hn h.values h'.values
  have hspan := h.span.trans h'.span.symm
  cases y
  cases y'
  simp_all

/-! ## Binding that reports nothing -/

theorem findReactor_quiet {name : String} {span : Span} {o : Option Catalog.Reactor}
    (h : (findReactor c name span).Quiet o) : ∃ d, o = some d ∧ c.named? name = some d := by
  unfold findReactor at h
  cases hd : c.named? name with
  | none =>
    rw [hd] at h
    exact absurd h not_quiet_report_bind
  | some d =>
    rw [hd] at h
    exact ⟨d, quiet_pure_iff.mp h, rfl⟩

theorem reactorNamed_of_named (hc : c.Closed) {name : String} {d : Catalog.Reactor}
    (h : c.named? name = some d) : c.ReactorNamed name d.id :=
  ⟨d, hc.reactor?_of_named h, (Catalog.named?_eq_some h).1⟩

theorem bindName_quiet (hc : c.Closed) {span : Span} {r : ReactorId} {name : String}
    {o : Option ParamId} (h : (bindName c span r name).Quiet o) :
    ∃ q, o = some q ∧ c.LastNamed r name q := by
  unfold bindName at h
  obtain ⟨found, hfound, h⟩ := quiet_lookup_bind_iff.mp h
  cases found with
  | none =>
    obtain ⟨d, _, h⟩ := quiet_lookup_bind_iff.mp h
    exact absurd h not_quiet_report_bind
  | some x => exact ⟨x.id, quiet_pure_iff.mp h, hc.lastNamed_of_find hfound⟩

theorem bindDuration_quiet {span : Span} {d : Duration} {o : Option Time}
    (h : (bindDuration span d).Quiet o) : ∃ t, o = some t ∧ d.Denotes t := by
  obtain ⟨value, unit⟩ := d
  cases unit with
  | some text =>
    simp only [bindDuration] at h
    cases hu : Time.Unit.ofText? text with
    | none =>
      rw [hu] at h
      exact absurd h not_quiet_report_bind
    | some u =>
      rw [hu] at h
      have hspelled : text ∈ u.spellings := by simpa using List.find?_some hu
      exact ⟨⟨value, some u⟩, quiet_pure_iff.mp h, .unit hspelled⟩
  | none =>
    simp only [bindDuration] at h
    split at h
    · next hzero =>
      subst hzero
      exact ⟨⟨0, none⟩, quiet_pure_iff.mp h, .zero⟩
    · exact absurd h not_quiet_report_bind

section terms
variable (hc : c.Closed) {bound : Scope} (hscope : ScopeOf c bound scope) {span : Span}
include hc hscope

theorem bindReference_quiet {r : Reference} {o : Option ParamId}
    (h : (bindReference c bound span r).Quiet o) :
    ∃ q, o = some q ∧ Term.Denotes c scope (.param r) (.param q) := by
  cases r with
  | plain name =>
    unfold bindReference at h
    cases bound with
    | error fault => exact absurd h not_quiet_report_bind
    | ok r =>
      obtain ⟨d, hd, houter⟩ := hscope
      obtain ⟨q, hq, hlast⟩ := bindName_quiet hc h
      exact ⟨q, hq, .plain houter ⟨r, ⟨d, hd, rfl⟩, hlast⟩⟩
  | qualified name reactor =>
    unfold bindReference at h
    obtain ⟨found, hfound, h⟩ := quiet_bind_iff.mp h
    obtain ⟨d, rfl, hd⟩ := findReactor_quiet hfound
    obtain ⟨q, hq, hlast⟩ := bindName_quiet hc h
    exact ⟨q, hq, .qualified ⟨d.id, reactorNamed_of_named hc hd, hlast⟩⟩

theorem bindTerm_quiet {t : Term} {o : Option Value} (h : (bindTerm c bound span t).Quiet o) :
    ∃ v, o = some v ∧ t.Denotes c scope v := by
  cases t with
  | int n => exact ⟨_, quiet_pure_iff.mp h, .int n⟩
  | float v => exact ⟨_, quiet_pure_iff.mp h, .float v⟩
  | bool b => exact ⟨_, quiet_pure_iff.mp h, .bool b⟩
  | string s => exact ⟨_, quiet_pure_iff.mp h, .string s⟩
  | code text => exact ⟨_, quiet_pure_iff.mp h, .code text⟩
  | time d =>
    obtain ⟨found, hfound, h⟩ := quiet_bind_iff.mp h
    obtain ⟨t, rfl, ht⟩ := bindDuration_quiet hfound
    exact ⟨_, quiet_pure_iff.mp h, .time ht⟩
  | param r =>
    obtain ⟨found, hfound, h⟩ := quiet_bind_iff.mp h
    obtain ⟨q, rfl, hq⟩ := bindReference_quiet hc hscope hfound
    exact ⟨_, quiet_pure_iff.mp h, hq⟩

/-- Every term is bound to what it denotes, one after the other. -/
theorem bindTerms_quiet {ts : List Term} {vs : List Value}
    (h : (bindTerms c bound span ts).Quiet vs) :
    List.Forall₂ (Term.Denotes c scope) ts vs := by
  induction ts generalizing vs with
  | nil =>
    rw [quiet_pure_iff.mp h]
    exact .nil
  | cons t ts ih =>
    obtain ⟨o, ho, h⟩ := quiet_bind_iff.mp h
    obtain ⟨v, rfl, hv⟩ := bindTerm_quiet hc hscope ho
    obtain ⟨rest, hrest, h⟩ := quiet_bind_iff.mp h
    rw [quiet_pure_iff.mp h]
    exact .cons hv (ih hrest)

end terms

end Model

end Reactors
