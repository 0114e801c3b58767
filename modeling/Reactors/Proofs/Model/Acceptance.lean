import Reactors.Proofs.Model.Instances
import Reactors.Proofs.Model.Parameters

/-! # Acceptance

    A model is accepted exactly if it is well-formed.  Whatever is wrong with a model, binding goes
    on to its end and reports it, and what is accepted holds only identities of what is there.
-/

namespace Reactors

open Collect (Ends)

namespace Model

theorem checkOptions_ends (o : Options) :
    (checkOptions o).Ends fun _ es => es = [] ↔ Text.trim o.separator.toList = [','] := by
  have hiff : o.separates = true ↔ Text.trim o.separator.toList = [','] := by
    simp [Options.separates]
  unfold checkOptions Options.complaint?
  rw [← hiff]
  by_cases h : o.separates = true
  · simp only [h, if_true]
    exact .pure (by simp)
  · simp only [h]
    exact .report (by simp)

/-- A program with a closed catalog without repeated names of reactors, and instances that fit it. -/
structure Loaded (p : Program) : Prop where
  catalog : p.catalog.Closed
  distinct : p.catalog.names.Nodup
  assembly : Populates p.catalog p.assembly

/-- Options have no part in it. -/
theorem Loaded.withOptions {p : Program} (h : Loaded p) (o : Options) :
    Loaded { p with options := o } :=
  ⟨h.catalog, h.distinct, h.assembly⟩

/-- Binding a model ends.  It reports nothing exactly if the model is well-formed. -/
theorem bindAll_ends (m : Model) :
    (bindAll m).Ends fun p es => Loaded p ∧ p.options = m.options ∧ (es = [] ↔ m.WellFormed) := by
  unfold bindAll
  refine (checkOptions_ends m.options).bind fun _ es₁ hes₁ => ?_
  apply (bindReactors_ends m.reactors).bind
  intro c es₂ ⟨hc, hn, hrep, hes₂⟩
  apply (placeMain_ends hc hn m.main).bind
  intro a es₃ ⟨ha, hes₃⟩
  refine .pure ⟨⟨hc, hn, ha⟩, rfl, ?_⟩
  simp only [List.append_eq_nil_iff, List.append_nil]
  constructor
  · intro ⟨h₁, h₂, h₃⟩
    obtain ⟨hdistinct, hsupers, hacyclic, hdefaults⟩ := hes₂.mp h₂
    have htable := (hrep h₂).nameTable_eq
    exact ⟨hes₁.mp h₁, hdistinct, hsupers, hacyclic, hdefaults, htable ▸ hes₃.mp h₃⟩
  · intro ⟨hsep, hdistinct, hsupers, hacyclic, hdefaults, hmain⟩
    have h₂ := hes₂.mpr ⟨hdistinct, hsupers, hacyclic, hdefaults⟩
    have htable := (hrep h₂).nameTable_eq
    exact ⟨hes₁.mpr hsep, h₂, hes₃.mpr (htable ▸ hmain)⟩

/-- A well-formed model describes a program. -/
theorem WellFormed.exists_program {m : Model} (h : m.WellFormed) :
    ∃ p, m.elaborate = some (.ok p) := by
  obtain ⟨p, es, hrun, _, _, hes⟩ := bindAll_ends m
  rw [hes.mpr h] at hrun
  exact ⟨p, by simp [elaborate, hrun]⟩

/-- A model is accepted if its binding reported nothing, and refused for all that it reported
    otherwise. -/
theorem elaborate_of_run {m : Model} {p : Program} {es : List LoadFault}
    (h : (bindAll m).run = some (p, es)) :
    m.elaborate = some (if es = [] then .ok p else .error es) := by
  unfold elaborate
  rw [h]
  cases es with
  | nil => rfl
  | cons f fs => simp

/-- Every model is accepted or refused. -/
theorem exists_elaborate (m : Model) : ∃ r, m.elaborate = some r := by
  obtain ⟨q, es, hrun, _⟩ := bindAll_ends m
  unfold elaborate
  rw [hrun]
  cases es with
  | nil => exact ⟨_, rfl⟩
  | cons f fs => exact ⟨_, rfl⟩

/-- What is accepted is a program. -/
theorem loaded_of_elaborate {m : Model} {p : Program} (h : m.elaborate = some (.ok p)) :
    Loaded p ∧ p.options = m.options := by
  obtain ⟨q, es, hrun, hq, ho, _⟩ := bindAll_ends m
  unfold elaborate at h
  rw [hrun] at h
  cases es with
  | nil =>
    cases h
    exact ⟨hq, ho⟩
  | cons f fs => cases h

/-- A model is accepted exactly if it is well-formed, and is refused otherwise, for at least one
    fault. -/
theorem elaborate_accepts_iff (m : Model) :
    ((∃ p, m.elaborate = some (.ok p)) ↔ m.WellFormed) ∧
      (¬ m.WellFormed → ∃ f fs, m.elaborate = some (.error (f :: fs))) := by
  obtain ⟨q, es, hrun, _, _, hes⟩ := bindAll_ends m
  unfold elaborate
  rw [hrun]
  cases es with
  | nil =>
    have hwf := hes.mp rfl
    exact ⟨⟨fun _ => hwf, fun _ => ⟨q, rfl⟩⟩, fun h => absurd hwf h⟩
  | cons f fs =>
    have hwf : ¬ m.WellFormed := fun h => by simpa using hes.mpr h
    refine ⟨⟨?_, fun h => absurd h hwf⟩, fun _ => ⟨f, fs, rfl⟩⟩
    intro ⟨p, hp⟩
    cases hp

end Model

end Reactors
