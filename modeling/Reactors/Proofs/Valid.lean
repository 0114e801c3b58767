import Reactors.Proofs.Validation

/-! # Emission of valid programs

    Everything that emission reports is an error, and validation has reported it before.  So where
    validation finds no error, emission reports nothing and leaves nothing out.
-/

namespace Reactors.Program

open Diagnostic (hasErrors)
open Script

variable {p : Program}

/-! ## Reports of emission -/

theorem isError_classReports {d : Catalog.Reactor} {e : Diagnostic} (he : e ∈ p.classReports d) :
    e.isError = true := by
  obtain ⟨q, _, rfl⟩ := List.mem_map.mp he
  rfl

theorem isError_settingFault {n : Assembly.Node} {q : Catalog.Parameter} {x : Assignment}
    {f : ParameterFault} (h : settingFault? n q x = some f) : f.toDiagnostic.isError = true := by
  unfold settingFault? at h
  split at h
  · cases h
    rfl
  · split at h
    · cases h
      rfl
    · cases h

theorem isError_slotsReports {e : Diagnostic} (he : e ∈ p.slotsReports) : e.isError = true := by
  obtain ⟨n, _, he⟩ := List.mem_flatMap.mp he
  obtain ⟨q, _, he⟩ := List.mem_flatMap.mp he
  obtain ⟨f, hf, rfl⟩ := List.mem_map.mp he
  rcases slotFault?_cases (Option.mem_toList.mp hf) with ⟨_, rfl⟩ | ⟨x, _, _, hf⟩
  · rfl
  · exact isError_settingFault hf

theorem mem_validate_of_mem_emit {vs : List Diagnostic}
    (hclasses : ∀ d ∈ p.catalog.reactors.toList, ∀ e ∈ p.classReports d, e ∈ vs)
    (hslots : ∀ e ∈ p.slotsReports, e ∈ vs) {e : Diagnostic}
    (he : e ∈ p.catalog.reactors.toList.flatMap p.classReports ++ p.slotsReports) :
    e ∈ vs ∧ e.isError = true := by
  rcases List.mem_append.mp he with he | he
  · obtain ⟨d, hd, he⟩ := List.mem_flatMap.mp he
    exact ⟨hclasses d hd e he, isError_classReports he⟩
  · exact ⟨hslots e he, isError_slotsReports he⟩

/-- Where validation finds no error, emission has nothing to report. -/
theorem reports_eq_nil (hp : p.Closed) {vs : List Diagnostic} (hvs : p.validate? = some vs)
    (hno : hasErrors vs = false) :
    (∀ d ∈ p.catalog.reactors.toList, p.classReports d = []) ∧ p.slotsReports = [] := by
  obtain ⟨vs', hvs', hclasses, hslots⟩ := validate_covers_reports hp
  rw [hvs] at hvs'
  cases hvs'
  -- every report is an error, and there is none among those of validation
  have hnil : p.catalog.reactors.toList.flatMap p.classReports ++ p.slotsReports = [] := by
    rw [List.eq_nil_iff_forall_not_mem]
    intro e he
    obtain ⟨hmem, herror⟩ := mem_validate_of_mem_emit hclasses hslots he
    exact List.any_eq_false.mp hno e hmem herror
  obtain ⟨hclass, hslot⟩ := List.append_eq_nil_iff.mp hnil
  exact ⟨List.flatMap_eq_nil_iff.mp hclass, hslot⟩

/-- Where validation finds no error, the whole module is written. -/
theorem emit_of_valid (hp : p.Closed) {vs : List Diagnostic} (hvs : p.validate? = some vs)
    (hno : hasErrors vs = false) (header : List String) :
    (p.emit header).run = some (p.moduleOf header, []) := by
  obtain ⟨hclasses, hslots⟩ := reports_eq_nil hp hvs hno
  rw [emit_run hp, hslots, List.append_nil, List.flatMap_eq_nil_iff.mpr hclasses]

/-! ## What is written where nothing is reported -/

/-- A reactor about whose class nothing is reported has its class. -/
theorem writtenClass_of_nil {d : Catalog.Reactor} (h : p.classReports d = []) :
    p.writtenClass d = some (p.blockOf d) := by
  unfold classReports at h
  unfold writtenClass
  cases hhollow : p.hollow? d.id with
  | none => rfl
  | some q => simp [hhollow] at h

/-- Where nothing is reported about classes, the module has the class of every reactor. -/
theorem moduleOf_classes (h : ∀ d ∈ p.catalog.reactors.toList, p.classReports d = [])
    (header : List String) :
    (p.moduleOf header).classes = p.catalog.reactors.toList.map p.blockOf := by
  unfold moduleOf
  rw [← List.filterMap_eq_map]
  apply List.filterMap_congr
  intro d hd
  exact writtenClass_of_nil (h d hd)

/-- Where nothing is reported about the slots of an instance, every visible parameter has its
    entry. -/
theorem entries_of_nil {n : Assembly.Node}
    (h : ∀ q ∈ p.visibleOf n.reactor, slotReports n q = []) :
    (p.overridesOf n).entries = (p.visibleOf n.reactor).map (p.entryAt n) := by
  unfold overridesOf
  rw [← List.filterMap_eq_map]
  apply List.filterMap_congr
  intro q hq
  exact slotEntry?_of_nil (h q hq)

theorem slotReports_eq_nil (h : p.slotsReports = []) {n : Assembly.Node} (hn : n ∈ p.nodesOf)
    {q : Catalog.Parameter} (hq : q ∈ p.visibleOf n.reactor) : slotReports n q = [] := by
  rw [slotsReports, List.flatMap_eq_nil_iff] at h
  exact List.flatMap_eq_nil_iff.mp (h n hn) q hq

section valid
variable (hp : p.Closed) {vs : List Diagnostic} (hvs : p.validate? = some vs)
  (hno : hasErrors vs = false)
include hp hvs hno

/-- An empty default would be reported at the class. -/
theorem hollow?_of_valid {r : ReactorId} (hr : p.catalog.HasReactor r) : p.hollow? r = none := by
  obtain ⟨d, hd⟩ := Catalog.hasReactor_iff.mp hr
  obtain rfl : d.id = r := hp.catalog.reactor_id hd
  simpa [classReports] using (reports_eq_nil hp hvs hno).1 d (Catalog.mem_reactors hd)

theorem default_ne_nil_of_valid {r : ReactorId} (hr : p.catalog.HasReactor r)
    {q : Catalog.Parameter} (hq : q ∈ p.visibleOf r) : q.default ≠ [] := by
  simpa using List.find?_eq_none.mp (hollow?_of_valid hp hvs hno hr) q hq

theorem skeleton_of_valid {d : Catalog.Reactor} (hd : p.catalog.reactor? d.id = some d) :
    (p.skeleton d.id).run = some (.ok (p.blockOf d).skeleton) :=
  skeleton_gives hp hd (hollow?_of_valid hp hvs hno (Catalog.hasReactor_of_some hd))

variable {n : Assembly.Node} (hn : n ∈ p.nodesOf)
include hn

theorem slotReports_of_valid : ∀ q ∈ p.visibleOf n.reactor, slotReports n q = [] := by
  intro q hq
  exact slotReports_eq_nil (reports_eq_nil hp hvs hno).2 hn hq

theorem overridesAt_of_valid : (p.overridesAt n).run = some (p.overridesOf n, []) := by
  have hfound := hp.found hn
  have hrun := overridesAt_run hp hfound (hp.visible? (hp.reactor hfound))
  rwa [List.flatMap_eq_nil_iff.mpr (slotReports_of_valid hp hvs hno hn)] at hrun

theorem entry_of_valid {q : Catalog.Parameter} (hq : q ∈ p.visibleOf n.reactor) :
    (p.entry ⟨q.id, n.id⟩).run = some (some (p.entryAt n q), []) := by
  have hfound := hp.found hn
  have hnil := slotReports_of_valid hp hvs hno hn q hq
  rw [entry_run hp hfound (hp.parameter?_of_visibleOf (hp.reactor hfound) hq), hnil,
    slotEntry?_of_nil hnil]

end valid

/-- The text of all values of a closed program. -/
theorem overridesJson_eq (hp : p.Closed) :
    p.overridesJson.run = some (Json.writeTables ((p.nodesOf.map p.overridesOf).map overridesTable),
      p.slotsReports) := by
  unfold overridesJson
  cases h : p.assembly.root? with
  | none => simp [slotsReports, nodesOf, h]
  | some root =>
    rw [Collect.run_bind, overridesBelow_run hp h]
    simp

theorem overridesJson_run (hp : p.Closed) :
    ∃ json, p.overridesJson.run = some (json, p.slotsReports) :=
  ⟨_, overridesJson_eq hp⟩

/-- Where validation finds no error, there are values of all instances, and nothing to report about
    them. -/
theorem overridesJson_of_valid (hp : p.Closed) {vs : List Diagnostic}
    (hvs : p.validate? = some vs) (hno : hasErrors vs = false) :
    ∃ json, p.overridesJson.run = some (json, []) := by
  obtain ⟨json, hjson⟩ := overridesJson_run hp
  exact ⟨json, (reports_eq_nil hp hvs hno).2 ▸ hjson⟩

end Reactors.Program
