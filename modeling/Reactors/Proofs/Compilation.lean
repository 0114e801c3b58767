import Reactors.Compilation
import Reactors.Proofs.Model.Faults
import Reactors.Proofs.Valid

/-! # How a compilation goes

    A compilation ends in one of five ways: the model is refused, or it is loaded and nothing else
    was asked for, or validation finds an error, or it finds none and was the last stage, or the code
    is generated.  What a compilation has reported is in agreement with how it went, since each stage
    that ends keeps it so.
-/

namespace Reactors

open Diagnostic (hasErrors)

/-- The stages up to one of them, in order. -/
def Stage.upTo : Stage → List Stage
  | load => [load]
  | validate => [load, validate]
  | emit => [load, validate, emit]

namespace Compilation

open Program (closed_of_loaded emit_of_valid validate_covers_reports)

/-! ## Ending a stage -/

/-- What a compilation has reported in these stages is in agreement: only the last of them may have
    failed. -/
structure Tallied (c : Compilation) (stages : List Stage) : Prop where
  stages : c.batches.map (·.stage) = stages
  diagnostics : c.diagnostics = c.batches.flatMap (·.diagnostics)
  /-- The stage that failed is the last one, and the first that found an error. -/
  failedAt : ∀ s, c.failedAt = some s ↔ ∃ earlier ds, c.batches = earlier ++ [⟨s, ds⟩] ∧
    hasErrors ds = true ∧ ∀ b ∈ earlier, hasErrors b.diagnostics = false
  hasError : c.hasError = true ↔ ∃ s, c.failedAt = some s
  errors : c.hasError = hasErrors c.diagnostics

theorem tallied_start (source : String) : (start source).Tallied [] := by
  refine ⟨rfl, rfl, ?_, by simp [start], rfl⟩
  intro s
  simp [start]

namespace Tallied

variable {c : Compilation} {stages : List Stage}

/-- What has been made has no part in it. -/
theorem making (h : c.Tallied stages) (program : Option Program) (generated : Option String) :
    { c with program, generated }.Tallied stages :=
  ⟨h.stages, h.diagnostics, h.failedAt, h.hasError, h.errors⟩

/-- Where there was no error, no batch has one. -/
theorem quiet (h : c.Tallied stages) (hno : c.hasError = false) {b : Batch} (hb : b ∈ c.batches) :
    hasErrors b.diagnostics = false := by
  rw [h.errors, h.diagnostics] at hno
  refine List.any_eq_false.mpr fun d hd => List.any_eq_false.mp hno d ?_
  exact List.mem_flatMap.mpr ⟨b, hb, hd⟩

/-- A stage that ends keeps the agreement, if no stage before it failed. -/
theorem finish (h : c.Tallied stages) (hno : c.hasError = false) (stage : Stage)
    (ds : List Diagnostic) : (c.finish stage ds).Tallied (stages ++ [stage]) := by
  have hfailed : c.failedAt = none := by
    rw [Option.eq_none_iff_forall_ne_some]
    intro s hs
    rw [h.hasError.mpr ⟨s, hs⟩] at hno
    cases hno
  refine ⟨?_, ?_, ?_, ?_, ?_⟩
  · simp [Compilation.finish, h.stages]
  · simp [Compilation.finish, h.diagnostics]
  · intro s
    unfold Compilation.finish
    dsimp only
    constructor
    · intro hs
      by_cases herror : hasErrors ds = true
      · rw [if_pos herror] at hs
        cases hs
        exact ⟨c.batches, ds, rfl, herror, fun b hb => h.quiet hno hb⟩
      · rw [if_neg herror, hfailed] at hs
        cases hs
    · rintro ⟨earlier, ds', hbatches, herror, _⟩
      -- the last batch is the one of this stage
      obtain ⟨_, hlast⟩ := List.append_inj' hbatches rfl
      obtain ⟨rfl, rfl⟩ : stage = s ∧ ds = ds' := by simpa using hlast
      rw [if_pos herror]
  · unfold Compilation.finish
    by_cases herror : hasErrors ds = true <;> simp [herror, hno, hfailed]
  · have herrors := h.errors
    unfold Compilation.finish hasErrors at *
    rw [List.any_append, herrors]

end Tallied

/-! ## Runs -/

/-- A compilation with its program loaded, and nothing else done. -/
def loaded (source : String) (p : Program) : Compilation :=
  { start source with program := some p }.finish .load []

/-- The program with its code generated, behind a validation that reported `vs`. -/
def emitted (source : String) (p : Program) (vs : List Diagnostic) : Compilation :=
  let c := (loaded source p).finish .validate vs
  { c with generated := some ((p.moduleOf (c.header p.options)).text p.options) }.finish .emit []

/-- The ways in which a compilation of a text up to a stage can go. -/
inductive Goes (source : String) (patch : Options.Patch) : Stage → Compilation → Prop where
  /-- The model is refused. -/
  | refused {last : Stage} {faults : List LoadFault}
      (load : Program.load source = some (.error faults)) (any : faults ≠ [])
      (errors : ∀ f ∈ faults, f.toDiagnostic.isError = true) :
      Goes source patch last ((start source).finish .load (faults.map LoadFault.toDiagnostic))
  /-- Nothing but the program was asked for. -/
  | loaded {p : Program} (load : Program.load source = some (.ok p)) :
      Goes source patch .load (loaded source { p with options := p.options.patch patch })
  /-- Validation finds an error. -/
  | invalid {last : Stage} {p : Program} {vs : List Diagnostic}
      (load : Program.load source = some (.ok p)) (further : last ≠ .load)
      (validate : p.validate? = some vs) (errors : hasErrors vs = true) :
      Goes source patch last
        ((Compilation.loaded source { p with options := p.options.patch patch }).finish .validate vs)
  /-- Validation finds none and was the last stage. -/
  | validated {p : Program} {vs : List Diagnostic} (load : Program.load source = some (.ok p))
      (validate : p.validate? = some vs) (errors : hasErrors vs = false) :
      Goes source patch .validate
        ((Compilation.loaded source { p with options := p.options.patch patch }).finish .validate vs)
  /-- The code is generated. -/
  | emitted {p : Program} {vs : List Diagnostic} (load : Program.load source = some (.ok p))
      (validate : p.validate? = some vs) (errors : hasErrors vs = false) :
      Goes source patch .emit
        (emitted source { p with options := p.options.patch patch } vs)

/-- A model that is refused is refused for faults, all of which are errors. -/
theorem faults_of_load {source : String} {faults : List LoadFault}
    (h : Program.load source = some (.error faults)) :
    faults ≠ [] ∧ ∀ f ∈ faults, f.toDiagnostic.isError = true := by
  unfold Program.load at h
  split at h
  · cases h
    exact ⟨by simp, by simp [LoadFault.toDiagnostic, LoadFault.plainError, Diagnostic.isError]⟩
  · next m _ =>
    obtain ⟨p, es, hrun, _⟩ := Model.bindAll_ends m
    rw [Model.elaborate_of_run hrun] at h
    by_cases hnil : es = []
    · rw [if_pos hnil] at h
      cases h
    · rw [if_neg hnil] at h
      cases h
      exact ⟨hnil, Model.bindAll_reports m p _ hrun⟩

theorem exists_load (source : String) :
    ∃ r, Program.load source = some r ∧ ∀ p, r = .ok p → p.Closed := by
  unfold Program.load
  cases hread : Model.read source with
  | error e => exact ⟨_, rfl, by simp⟩
  | ok m =>
    obtain ⟨r, hr⟩ := Model.exists_elaborate m
    refine ⟨r, hr, fun p hp => ?_⟩
    obtain ⟨hloaded, _⟩ := Model.loaded_of_elaborate (hp ▸ hr)
    exact closed_of_loaded hloaded

/-- What is loaded is closed. -/
theorem closed_of_load {source : String} {p : Program} (h : Program.load source = some (.ok p)) :
    p.Closed := by
  obtain ⟨r, hr, hclosed⟩ := exists_load source
  rw [h] at hr
  cases hr
  exact hclosed p rfl

/-- What is done with a program that was loaded. -/
theorem run?_of_load {source : String} {p : Program} (h : Program.load source = some (.ok p))
    (last : Stage) (patch : Options.Patch) {p' : Program}
    (hp' : p' = { p with options := p.options.patch patch }) :
    run? source last patch =
      if last = .load then some (loaded source p')
      else ((loaded source p').validate? p').bind fun c =>
        if (c.hasError || decide (last = .validate)) = true then some c else c.emit? p' := by
  have hload : (start source).load? source patch = some (loaded source p') := by
    unfold load?
    rw [h, hp']
    rfl
  have hgo : (loaded source p').hasError = false := rfl
  unfold run?
  rw [hload]
  show (if ((loaded source p').hasError || decide (last = .load)) = true then _ else _) = _
  rw [hgo, Bool.false_or]
  by_cases hlast : last = .load
  · simp [hlast]
  · simp [hlast]

/-- Every compilation ends, in one of the ways. -/
theorem exists_goes (source : String) (last : Stage) (patch : Options.Patch) :
    ∃ c, run? source last patch = some c ∧ Goes source patch last c := by
  obtain ⟨r, hr, hclosed⟩ := exists_load source
  cases r with
  | error faults =>
    obtain ⟨hany, herrors⟩ := faults_of_load hr
    refine ⟨_, ?_, .refused hr hany herrors⟩
    unfold run? load?
    rw [hr]
    rfl
  | ok p =>
    generalize hp' : ({ p with options := p.options.patch patch } : Program) = p'
    have hclosed' : p'.Closed := hp' ▸ (hclosed p rfl).withOptions _
    obtain ⟨vs, hvs, _⟩ := validate_covers_reports (hclosed p rfl)
    -- the options have no part in validation
    have hvs' : p'.validate? = some vs := by
      rw [← hp', Program.validate?_withOptions, hvs]
    have hvalidate : ∀ c : Compilation, c.validate? p' = some (c.finish .validate vs) := by
      intro c
      simp [Compilation.validate?, hvs']
    rw [run?_of_load hr last patch hp'.symm, hvalidate, Option.bind_some]
    have herror : ((loaded source p').finish .validate vs).hasError = hasErrors vs := rfl
    rw [herror]
    by_cases hload : last = .load
    · subst hload
      exact ⟨_, rfl, hp' ▸ .loaded hr⟩
    rw [if_neg hload]
    by_cases herrors : hasErrors vs = true
    · rw [herrors, Bool.true_or, if_pos rfl]
      exact ⟨_, rfl, hp' ▸ .invalid hr hload hvs herrors⟩
    have hno : hasErrors vs = false := by simpa using herrors
    rw [hno, Bool.false_or]
    by_cases hvalidated : last = .validate
    · subst hvalidated
      rw [if_pos (by decide)]
      exact ⟨_, rfl, hp' ▸ .validated hr hvs hno⟩
    · have hemit : last = .emit := by cases last <;> simp_all
      rw [if_neg (by simpa using hvalidated)]
      refine ⟨emitted source p' vs, ?_, hemit ▸ hp' ▸ .emitted hr hvs hno⟩
      unfold emit? emitted
      rw [emit_of_valid hclosed' hvs' hno]
      rfl

/-! ## Agreement -/

/-- What a compilation up to a stage has reported is in agreement with how it went. -/
structure Consistent (last : Stage) (c : Compilation) : Prop where
  /-- The stages that were run come in order and do not go past the last one. -/
  stages : c.batches.map (·.stage) <+: last.upTo
  diagnostics : c.diagnostics = c.batches.flatMap (·.diagnostics)
  /-- The stage that failed is the last one that was run, and the first that found an error. -/
  failedAt : ∀ s, c.failedAt = some s ↔ ∃ earlier ds, c.batches = earlier ++ [⟨s, ds⟩] ∧
    hasErrors ds = true ∧ ∀ b ∈ earlier, hasErrors b.diagnostics = false
  hasError : c.hasError = true ↔ ∃ s, c.failedAt = some s
  errors : c.hasError = hasErrors c.diagnostics
  /-- If none failed, all were run. -/
  complete : c.failedAt = none → c.batches.map (·.stage) = last.upTo

theorem Tallied.consistent {c : Compilation} {stages : List Stage} (h : c.Tallied stages)
    {last : Stage} (hupTo : stages <+: last.upTo)
    (hall : c.failedAt = none → stages = last.upTo) : c.Consistent last where
  stages := h.stages ▸ hupTo
  diagnostics := h.diagnostics
  failedAt := h.failedAt
  hasError := h.hasError
  errors := h.errors
  complete hnone := h.stages ▸ hall hnone

theorem tallied_loaded (source : String) (p : Program) : (loaded source p).Tallied [.load] :=
  ((tallied_start source).making (some p) none).finish rfl .load []

theorem tallied_validated (source : String) (p : Program) (vs : List Diagnostic) :
    ((loaded source p).finish .validate vs).Tallied [.load, .validate] :=
  (tallied_loaded source p).finish rfl .validate vs

theorem tallied_emitted (source : String) (p : Program) {vs : List Diagnostic}
    (hno : hasErrors vs = false) : (emitted source p vs).Tallied [.load, .validate, .emit] :=
  ((tallied_validated source p vs).making (some p) _).finish hno .emit []

/-- A stage that finds an error fails. -/
theorem failedAt_of_errors {c : Compilation} {stage : Stage} {ds : List Diagnostic}
    (h : hasErrors ds = true) : (c.finish stage ds).failedAt = some stage := if_pos h

/-- Loading fails where the model is refused, for every fault is an error. -/
theorem failedAt_refused {faults : List LoadFault} (hany : faults ≠ [])
    (herrors : ∀ f ∈ faults, f.toDiagnostic.isError = true) (source : String) :
    ((start source).finish .load (faults.map LoadFault.toDiagnostic)).failedAt = some .load := by
  obtain ⟨f, hf⟩ := List.exists_mem_of_ne_nil faults hany
  apply failedAt_of_errors
  exact List.any_eq_true.mpr ⟨_, List.mem_map_of_mem hf, herrors f hf⟩

theorem hasError_refused {faults : List LoadFault} (hany : faults ≠ [])
    (herrors : ∀ f ∈ faults, f.toDiagnostic.isError = true) (source : String) :
    ((start source).finish .load (faults.map LoadFault.toDiagnostic)).hasError = true := by
  have htallied := (tallied_start source).finish rfl .load (faults.map LoadFault.toDiagnostic)
  exact htallied.hasError.mpr ⟨_, failedAt_refused hany herrors source⟩

theorem hasError_emitted (source : String) (p : Program) (vs : List Diagnostic) :
    (emitted source p vs).hasError = hasErrors vs := Bool.or_false _

theorem Goes.consistent {source : String} {patch : Options.Patch} {last : Stage}
    {c : Compilation} (h : Goes source patch last c) : c.Consistent last := by
  cases h with
  | refused load any errors =>
    refine ((tallied_start source).finish rfl .load _).consistent ?_ fun hnone => ?_
    · cases last <;> simp [Stage.upTo]
    · rw [failedAt_refused any errors] at hnone
      cases hnone
  | loaded load => exact (tallied_loaded _ _).consistent (List.prefix_refl _) fun _ => rfl
  | invalid load further validate errors =>
    refine (tallied_validated _ _ _).consistent ?_ fun hnone => ?_
    · cases last with
      | load => exact absurd rfl further
      | _ => simp [Stage.upTo]
    · rw [failedAt_of_errors errors] at hnone
      cases hnone
  | validated load validate errors =>
    exact (tallied_validated _ _ _).consistent (List.prefix_refl _) fun _ => rfl
  | emitted load validate errors =>
    exact (tallied_emitted _ _ errors).consistent (List.prefix_refl _) fun _ => rfl

/-- A compilation of a text is consistent.  If it succeeds, the program is there with the patch laid
    over its options, and the code exactly if it was asked for.  If the model is refused, loading
    fails with a batch of nothing but errors, and nothing is made. -/
theorem compilation_consistent (source : String) (last : Stage) (patch : Options.Patch) :
    ∃ c r, run? source last patch = some c ∧ Program.load source = some r ∧
      c.Consistent last ∧
      (c.failedAt = none → ∃ p, r = .ok p ∧
        c.program = some { p with options := p.options.patch patch } ∧
        (c.generated.isSome = true ↔ last = .emit)) ∧
      (∀ faults, r = .error faults → c.failedAt = some .load ∧
        c.batches = [⟨.load, faults.map LoadFault.toDiagnostic⟩] ∧ faults ≠ [] ∧
        (∀ f ∈ faults, f.toDiagnostic.isError = true) ∧ c.program = none ∧
        c.generated = none) := by
  obtain ⟨c, hc, hgoes⟩ := exists_goes source last patch
  have hconsistent := hgoes.consistent
  cases hgoes with
  | refused load any errors =>
    have hfailed := failedAt_refused any errors source
    refine ⟨_, _, hc, load, hconsistent, fun hnone => ?_, fun faults hfaults => ?_⟩
    · rw [hfailed] at hnone
      cases hnone
    · cases hfaults
      exact ⟨hfailed, rfl, any, errors, rfl, rfl⟩
  | loaded load =>
    refine ⟨_, _, hc, load, hconsistent, fun _ => ⟨_, rfl, rfl, ?_⟩, fun _ h => by cases h⟩
    simp [loaded, finish, start]
  | invalid load further validate errors =>
    refine ⟨_, _, hc, load, hconsistent, fun hnone => ?_, fun _ h => by cases h⟩
    rw [failedAt_of_errors errors] at hnone
    cases hnone
  | validated load validate errors =>
    refine ⟨_, _, hc, load, hconsistent, fun _ => ⟨_, rfl, rfl, ?_⟩, fun _ h => by cases h⟩
    simp [loaded, finish, start]
  | emitted load validate errors =>
    refine ⟨_, _, hc, load, hconsistent, fun _ => ⟨_, rfl, rfl, ?_⟩, fun _ h => by cases h⟩
    simp [emitted, finish]

end Compilation

end Reactors
