import Reactors.Proofs.Listing
import Reactors.Proofs.Renaming.Matching
import Reactors.Proofs.Renaming.Script
import Reactors.Proofs.Renaming.Validation

/-! # The order of the reactors

    Nothing that is said of a model, and nothing that a model is emitted as, depends on the order in
    which its reactors are declared, save the order of what is said or written of one reactor after
    the other.
-/

namespace Reactors

namespace Model

/-! ## Acceptance -/

section perm
variable {rs rs' : List Reactor} (hperm : rs.Perm rs')
include hperm

theorem extends_perm : Extends rs = Extends rs' := by
  funext name super
  simp only [Extends, hperm.mem_iff]

theorem namesOf_perm : namesOf rs = namesOf rs' := by
  simp only [namesOf, extends_perm hperm, hperm.mem_iff]

end perm

theorem WellFormed.perm {m : Model} (h : m.WellFormed) {rs : List Reactor}
    (hperm : m.reactors.Perm rs) : ({ m with reactors := rs } : Model).WellFormed where
  separator := h.separator
  distinct := (hperm.map _).nodup_iff.mp h.distinct
  supers := by
    intro r hr
    rw [← namesOf_perm hperm]
    exact h.supers r (hperm.mem_iff.mpr hr)
  acyclic := by
    rw [← extends_perm hperm]
    exact h.acyclic
  defaults := by
    intro r hr
    rw [← namesOf_perm hperm]
    exact h.defaults r (hperm.mem_iff.mpr hr)
  main := by
    rw [← namesOf_perm hperm]
    exact h.main

theorem exists_program_perm {m : Model} {rs : List Reactor} (hperm : m.reactors.Perm rs)
    (h : ∃ p, m.elaborate = some (.ok p)) :
    ∃ p', ({ m with reactors := rs } : Model).elaborate = some (.ok p') := by
  obtain ⟨p, hp⟩ := h
  exact ((wellFormed_of_quiet (bindAll_quiet hp)).perm hperm).exists_program

end Model

namespace Program

open Script

variable {p p' : Program}

/-! ## Programs that differ in identities -/

/-- Two programs that come to the same, save for the order of what there is for each reactor. -/
structure Alike (p p' : Program) : Prop where
  root : p.assembly.root? = some ⟨0⟩ ∧ p'.assembly.root? = some ⟨0⟩
  /-- The values are the same text, with the same reports. -/
  values : ∃ json ds, p.overridesJson.run = some (json, ds) ∧ p'.overridesJson.run = some (json, ds)
  tree : ∃ text, p.tree? = some text ∧ p'.tree? = some text
  /-- Every instance is constructed by the same text. -/
  constructions : ∃ maps maps' ds texts,
    (p.overridesBelow ⟨0⟩).run = some (maps, ds) ∧ (p'.overridesBelow ⟨0⟩).run = some (maps', ds) ∧
      maps.map (·.node) = maps'.map (·.node) ∧
      maps.mapM (fun o => (p.construction? o).map constructionText) = some texts ∧
      maps'.mapM (fun o => (p'.construction? o).map constructionText) = some texts
  /-- The classes have the same texts, in some order. -/
  classes : ∀ header, ∃ module module' ds ds',
    (p.emit header).run = some (module, ds) ∧ (p'.emit header).run = some (module', ds') ∧
      (module.classes.map (ClassBlock.text p.options)).Perm
        (module'.classes.map (ClassBlock.text p'.options)) ∧ ds.Perm ds'
  /-- Validation reports the same, in some order. -/
  reports : ∃ vs vs', p.validate? = some vs ∧ p'.validate? = some vs' ∧ vs.Perm vs'

/-- Programs that differ in identities only come to the same. -/
theorem Renames.alike {ρ : Renaming} (h : Renames ρ p p') (hp : p.Closed) (hp' : p'.Closed)
    (hroot : p.assembly.root? = some ⟨0⟩) (hroot' : p'.assembly.root? = some ⟨0⟩) :
    p.Alike p' where
  root := ⟨hroot, hroot'⟩
  values := by
    have htables : (p'.nodesOf.map p'.overridesOf).map overridesTable =
        (p.nodesOf.map p.overridesOf).map overridesTable := by
      rw [h.maps, List.map_map]
      exact List.map_congr_left fun o _ => overridesTable_rename ρ o
    have hjson' := overridesJson_eq hp'
    rw [htables, h.slotsReports] at hjson'
    exact ⟨_, _, overridesJson_eq hp, hjson'⟩
  tree := by
    obtain ⟨text, htext⟩ := exists_tree hp
    exact ⟨text, htext, h.tree?.trans htext⟩
  constructions := by
    have htexts : (p.nodesOf.map p.overridesOf).mapM
        (fun o => (p.construction? o).map constructionText) =
          some (p.nodesOf.map fun n => constructionText (p.statementsOf n)) := by
      rw [List.mapM_map]
      apply Lookup.mapM_eq_map
      intro n hn
      simp [construction?_eq hp (hp.found hn)]
    have hmaps' := overridesBelow_run hp' hroot'
    rw [h.slotsReports, h.maps] at hmaps'
    refine ⟨_, _, _, _, overridesBelow_run hp hroot, hmaps', ?_, htexts, ?_⟩
    · rw [List.map_map (f := Overrides.rename ρ)]
      rfl
    · rw [← htexts]
      exact Lookup.mapM_map_eq fun o _ => h.construction?_text o
  classes := by
    intro header
    refine ⟨_, _, _, _, emit_run hp header, emit_run hp' header, ?_, ?_⟩
    · rw [h.options]
      exact h.classes p.options
    · rw [h.slotsReports]
      exact h.classesReports.append_right _
  reports := by
    obtain ⟨vs, hvs, _⟩ := validate_covers_reports hp
    obtain ⟨vs', hvs', hperm⟩ := h.validate? hvs
    exact ⟨vs, vs', hvs, hvs', hperm⟩

/-- A model is accepted in every order of its reactors or in none, and its programs come to the
    same. -/
theorem order_irrelevant (m : Model) {rs : List Model.Reactor} (hperm : m.reactors.Perm rs) :
    ((∃ p, m.elaborate = some (.ok p)) ↔
      ∃ p', ({ m with reactors := rs } : Model).elaborate = some (.ok p')) ∧
    ∀ p p', m.elaborate = some (.ok p) →
      ({ m with reactors := rs } : Model).elaborate = some (.ok p') → p.Alike p' := by
  refine ⟨⟨Model.exists_program_perm hperm, Model.exists_program_perm hperm.symm⟩, ?_⟩
  intro p p' h h'
  have hm := Model.faithful_of_quiet (Model.bindAll_quiet h)
  have hm' := Model.faithful_of_quiet (Model.bindAll_quiet h')
  obtain ⟨ρ, hρ⟩ := Model.exists_renames hperm hm hm'
  exact hρ.alike (closed_of_loaded (Model.loaded_of_elaborate h).1)
    (closed_of_loaded (Model.loaded_of_elaborate h').1) hm.root hm'.root

open Model (nesting nestingProgram)

theorem order_irrelevant_nesting :
    nesting.reactors.Perm nesting.reactors.reverse ∧
      nesting.elaborate = some (.ok nestingProgram) ∧
      ∃ p', ({ nesting with reactors := nesting.reactors.reverse } : Model).elaborate =
        some (.ok p') ∧ p'.catalog.names ≠ nestingProgram.catalog.names ∧
          nestingProgram.Alike p' := by
  have hperm : nesting.reactors.Perm nesting.reactors.reverse := (List.reverse_perm _).symm
  have hload := Model.elaborate_nesting
  obtain ⟨hiff, hall⟩ := order_irrelevant nesting hperm
  obtain ⟨p', hp'⟩ := hiff.mp ⟨_, hload⟩
  have hm' := Model.faithful_of_quiet (Model.bindAll_quiet hp')
  refine ⟨hperm, hload, p', hp', ?_, hall _ _ hload hp'⟩
  rw [hm'.catalog.represents.names]
  decide

end Program

end Reactors
