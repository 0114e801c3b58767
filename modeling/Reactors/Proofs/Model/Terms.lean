import Reactors.Model.Elaborate
import Reactors.Proofs.Catalog.Lineage
import Reactors.Proofs.Collect
import Reactors.Proofs.Model.WellFormed

/-! # Binding terms

    A term is bound without a report exactly if what it names is there, in a closed catalog whose
    reactors have different names.  Whether or not there is a report, binding ends, and the values
    it gives refer only to what is there.
-/

namespace Reactors

/-! ## The names of a catalog -/

namespace Catalog

variable {c c' : Catalog}

/-- The names that a catalog gives. -/
def nameTable (c : Catalog) : Model.Names where
  reactor := fun name => name ∈ c.names
  parameter := fun reactor name => ∃ d, c.named? reactor = some d ∧ c.HasName d.id name

theorem parameter_nameTable_iff (hc : c.Closed) (hn : c.names.Nodup) {r : ReactorId} {d : Reactor}
    (h : c.reactor? r = some d) {name : String} :
    c.nameTable.parameter d.name name ↔ c.HasName r name := by
  have hnamed := named?_of_nodup hn h
  have hid := hc.reactor_id h
  constructor
  · intro ⟨e, he, hname⟩
    rw [hnamed] at he
    cases he
    rwa [hid] at hname
  · intro hname
    exact ⟨d, hnamed, by rwa [hid]⟩

/-- The catalogs give the same names and have the same parameters in the same places. -/
structure SameNames (c c' : Catalog) : Prop where
  names : c'.names = c.names
  supers : ∀ r, c'.supers r = c.supers r
  own : ∀ r, c'.own r = c.own r
  parameter : ∀ q, (c'.parameter? q).map (·.name) = (c.parameter? q).map (·.name)

theorem SameNames.refl (c : Catalog) : c.SameNames c := ⟨rfl, fun _ => rfl, fun _ => rfl, fun _ => rfl⟩

theorem SameNames.trans {c'' : Catalog} (h : c.SameNames c') (h' : c'.SameNames c'') :
    c.SameNames c'' where
  names := h'.names.trans h.names
  supers r := (h'.supers r).trans (h.supers r)
  own r := (h'.own r).trans (h.own r)
  parameter q := (h'.parameter q).trans (h.parameter q)

theorem SameNames.reaches (h : c.SameNames c') : c'.Reaches = c.Reaches := by
  unfold Reaches
  rw [extends_congr h.supers]

theorem SameNames.hasName_iff (h : c.SameNames c') {r : ReactorId} {name : String} :
    c'.HasName r name ↔ c.HasName r name := by
  have hq : ∀ i, (∃ q, c'.parameter? i = some q ∧ q.name = name) ↔
      ∃ q, c.parameter? i = some q ∧ q.name = name := by
    intro i
    rw [← Option.map_eq_some_iff, ← Option.map_eq_some_iff, h.parameter]
  unfold HasName
  simp only [h.reaches, h.own, hq]

theorem SameNames.hasParameter_iff (h : c.SameNames c') {q : ParamId} :
    c'.HasParameter q ↔ c.HasParameter q := by
  have := congrArg Option.isSome (h.parameter q)
  rw [Option.isSome_map, Option.isSome_map] at this
  rw [Catalog.hasParameter_iff, Catalog.hasParameter_iff, ← Option.isSome_iff_exists,
    ← Option.isSome_iff_exists, this]

theorem SameNames.size_parameters (h : c.SameNames c') :
    c'.parameters.size = c.parameters.size := by
  have hiff : ∀ k, k < c'.parameters.size ↔ k < c.parameters.size := fun k =>
    h.hasParameter_iff (q := ⟨k⟩)
  have hold := hiff c.parameters.size
  have hnew := hiff c'.parameters.size
  omega

/-- A name leads to the same identity. -/
theorem SameNames.named (h : c.SameNames c') (hc : c.Closed) (hc' : c'.Closed)
    (hn : c.names.Nodup) (a : String) :
    (c'.named? a).map (·.id) = (c.named? a).map (·.id) := by
  cases hd : c'.named? a with
  | none =>
    rw [named?_eq_none_iff, h.names, ← named?_eq_none_iff] at hd
    rw [hd]
  | some d =>
    obtain ⟨hname, -⟩ := named?_eq_some hd
    have hd' := hc'.reactor?_of_named hd
    have hat : (c.reactor? d.id).map (·.name) = some a := by
      rw [← getElem?_names, ← h.names, getElem?_names, hd', Option.map_some, hname]
    obtain ⟨e, he, hename⟩ := Option.map_eq_some_iff.mp hat
    rw [← hename, named?_of_nodup hn he, Option.map_some, Option.map_some, hc.reactor_id he]

theorem SameNames.nameTable (h : c.SameNames c') (hc : c.Closed) (hc' : c'.Closed)
    (hn : c.names.Nodup) : c'.nameTable = c.nameTable := by
  have hparam : ∀ a name, c'.nameTable.parameter a name ↔ c.nameTable.parameter a name := by
    intro a name
    -- only the identity that the name leads to counts, not the reactor itself
    have hex : ∀ k : Catalog, k.nameTable.parameter a name ↔
        ∃ r, (k.named? a).map (·.id) = some r ∧ k.HasName r name := by
      intro k
      simp only [Catalog.nameTable, Option.map_eq_some_iff]
      constructor
      · intro ⟨d, hd, hname⟩
        exact ⟨d.id, ⟨d, hd, rfl⟩, hname⟩
      · intro ⟨_, ⟨d, hd, hr⟩, hname⟩
        subst hr
        exact ⟨d, hd, hname⟩
    rw [hex, hex]
    simp only [h.named hc hc' hn, h.hasName_iff]
  have heq : c'.nameTable.parameter = c.nameTable.parameter := by
    funext a name
    exact propext (hparam a name)
  have hreactor : c'.nameTable.reactor = c.nameTable.reactor := by
    funext a
    show (a ∈ c'.names) = (a ∈ c.names)
    rw [h.names]
  show Model.Names.mk c'.nameTable.reactor c'.nameTable.parameter = c.nameTable
  rw [heq, hreactor]

end Catalog

/-! ## Binding -/

namespace Model

open Collect (Ends)

variable {c : Catalog}

theorem findReactor_ends (c : Catalog) (name : String) (span : Span) :
    (findReactor c name span).Ends fun o es =>
      o = c.named? name ∧ (es = [] ↔ c.nameTable.reactor name) := by
  unfold findReactor
  split
  · next d hd =>
    exact .pure ⟨hd.symm, iff_of_true rfl (Catalog.named?_isSome_iff.mp ⟨d, hd⟩)⟩
  · next hd =>
    exact .report_bind (.pure ⟨hd.symm, iff_of_false (by simp) (Catalog.named?_eq_none_iff.mp hd)⟩)

/-- A name is bound on a reactor to the parameter that it stands for there. -/
theorem bindName_ends (hc : c.Closed) (span : Span) {r : ReactorId} (hr : c.HasReactor r)
    (name : String) :
    (bindName c span r name).Ends fun o es =>
      (es = [] ↔ c.HasName r name) ∧ (es = [] ↔ o ≠ none) ∧
        ∀ q, o = some q → ∃ x, c.findParameter? r name = some (some x) ∧
          c.parameter? q = some x ∧ x.name = name := by
  obtain ⟨o, ho, hnone, hsome⟩ := hc.findParameter?_spec hr name
  obtain ⟨d, hd⟩ := Catalog.hasReactor_iff.mp hr
  unfold bindName
  rw [Collect.lookup_bind ho]
  cases o with
  | some x =>
    have hname : c.HasName r name := by
      by_contra h
      exact absurd (hnone.mpr h) (by simp)
    refine .pure ⟨by simpa using hname, by simp, ?_⟩
    intro q hq
    cases hq
    exact ⟨x, ho, (hsome x rfl).2, (hsome x rfl).1⟩
  | none =>
    have hname := hnone.mp rfl
    rw [Collect.lookup_bind hd]
    exact .report_bind (.pure ⟨by simpa using hname, by simp, by simp⟩)

theorem bindDuration_ends (span : Span) (d : Duration) :
    (bindDuration span d).Ends fun _ es => es = [] ↔ d.Sound := by
  have hunit : ∀ text, (∃ unit, Time.Unit.ofText? text = some unit) ↔
      ∃ unit : Time.Unit, text ∈ unit.spellings := by
    intro text
    rw [← Option.isSome_iff_exists, Time.Unit.ofText?, List.find?_isSome]
    constructor
    · intro ⟨unit, _, h⟩
      exact ⟨unit, by simpa using h⟩
    · intro ⟨unit, h⟩
      exact ⟨unit, by cases unit <;> simp [Time.Unit.all], by simpa using h⟩
  obtain ⟨value, unit⟩ := d
  cases unit with
  | some text =>
    simp only [bindDuration]
    split
    · next unit h => exact .pure (iff_of_true rfl ((hunit text).mp ⟨unit, h⟩))
    · next h =>
      have hnone : ¬ ∃ unit, Time.Unit.ofText? text = some unit := by simp [h]
      exact .report_bind (.pure (iff_of_false (by simp) fun hs => hnone ((hunit text).mpr hs)))
  | none =>
    simp only [bindDuration]
    split
    · next h => exact .pure (iff_of_true rfl h)
    · next h => exact .report_bind (.pure (iff_of_false (by simp) h))

/-- The scope in which names alone are bound is the reactor of the given name, or nowhere. -/
def ScopeOf (c : Catalog) (scope : Scope) (outer : Option String) : Prop :=
  match scope with
  | .ok r => ∃ d, c.reactor? r = some d ∧ outer = some d.name
  | .error _ => outer = none

variable {scope : Scope} {outer : Option String} (span : Span)

theorem bindReference_ends (hc : c.Closed) (hn : c.names.Nodup) (hscope : ScopeOf c scope outer)
    (r : Reference) :
    (bindReference c scope span r).Ends fun o es =>
      (es = [] ↔ r.Bound c.nameTable outer) ∧ ∀ q, o = some q → c.HasParameter q := by
  cases r with
  | plain name =>
    unfold bindReference
    cases scope with
    | error fault =>
      -- nowhere to look for a name alone
      refine .report_bind (.pure ⟨?_, by simp⟩)
      simp [Reference.Bound, show outer = none from hscope]
    | ok r =>
      obtain ⟨d, hd, rfl⟩ := hscope
      apply (bindName_ends hc span (Catalog.hasReactor_of_some hd) name).mono
      intro o es ⟨hes, _, hq⟩
      refine ⟨?_, ?_⟩
      · rw [hes, ← Catalog.parameter_nameTable_iff hc hn hd]
        simp [Reference.Bound]
      · intro q ho
        obtain ⟨x, _, hx, _⟩ := hq q ho
        exact Catalog.hasParameter_of_some hx
  | qualified name reactor =>
    unfold bindReference
    apply (findReactor_ends c reactor span).bind
    intro o es ⟨ho, hes⟩
    subst ho
    cases hd : c.named? reactor with
    | none =>
      refine .pure ⟨?_, by simp⟩
      have := Catalog.named?_eq_none_iff.mp hd
      rw [List.append_nil, hes]
      exact ⟨fun h => absurd h this, fun h => h.1⟩
    | some d =>
      have hd' := hc.reactor?_of_named hd
      obtain ⟨hname, -⟩ := Catalog.named?_eq_some hd
      apply (bindName_ends hc span (Catalog.hasReactor_of_some hd') name).mono
      intro o fs ⟨hfs, _, hq⟩
      refine ⟨?_, ?_⟩
      · rw [List.append_eq_nil_iff, hes, hfs, ← Catalog.parameter_nameTable_iff hc hn hd', hname]
        rfl
      · intro q ho
        obtain ⟨x, _, hx, _⟩ := hq q ho
        exact Catalog.hasParameter_of_some hx

theorem bindTerm_ends (hc : c.Closed) (hn : c.names.Nodup) (hscope : ScopeOf c scope outer)
    (t : Term) :
    (bindTerm c scope span t).Ends fun o es =>
      (es = [] ↔ t.Bound c.nameTable outer) ∧ ∀ v, o = some v → c.Knows v := by
  cases t with
  | time d =>
    unfold bindTerm
    refine (bindDuration_ends span d).bind fun o es hes => .pure ⟨?_, ?_⟩
    · rw [List.append_nil, hes]
      rfl
    · intro v hv
      obtain ⟨t, _, rfl⟩ := Option.map_eq_some_iff.mp hv
      exact Catalog.knows_constant _
  | param r =>
    unfold bindTerm
    refine (bindReference_ends span hc hn hscope r).bind fun o es hes => .pure ⟨?_, ?_⟩
    · rw [List.append_nil, hes.1]
      rfl
    · intro v hv
      obtain ⟨q, hq, rfl⟩ := Option.map_eq_some_iff.mp hv
      exact Catalog.knows_param (hes.2 q hq)
  | _ =>
    refine .pure ⟨by simp [Term.Bound], ?_⟩
    intro v hv
    cases hv
    exact Catalog.knows_constant _

/-- Binding a list of terms reports nothing exactly if each of them is bound. -/
theorem bindTerms_ends (hc : c.Closed) (hn : c.names.Nodup) (hscope : ScopeOf c scope outer)
    (ts : List Term) :
    (bindTerms c scope span ts).Ends fun vs es =>
      (es = [] ↔ ∀ t ∈ ts, t.Bound c.nameTable outer) ∧ ∀ v ∈ vs, c.Knows v := by
  induction ts with
  | nil => exact .pure ⟨by simp, by simp⟩
  | cons t ts ih =>
    unfold bindTerms
    refine (bindTerm_ends span hc hn hscope t).bind fun o es ho => ?_
    refine ih.bind fun vs fs hvs => .pure ⟨?_, ?_⟩
    · rw [List.append_nil, List.append_eq_nil_iff, ho.1, hvs.1]
      simp
    · intro v hv
      rcases List.mem_append.mp hv with hv | hv
      · exact ho.2 v (Option.mem_toList.mp hv)
      · exact hvs.2 v hv

end Model

end Reactors
