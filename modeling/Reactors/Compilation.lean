import Reactors.Model.Elaborate
import Reactors.Provenance
import Reactors.Script.Module
import Reactors.Validation

/-! # Compiling a model

    A compilation runs three stages over the text of a model: loading, validation and emission.  It
    ends after the stage that was asked for, or after the first stage that finds an error.  A stage
    reports everything it finds in one batch.
-/

namespace Reactors

open Diagnostic (hasErrors)

/-- The stages of a compilation. -/
inductive Stage where
  /-- Reads the text and binds its names. -/
  | load
  /-- Checks the program. -/
  | validate
  /-- Generates the code. -/
  | emit
  deriving DecidableEq

/-- The word for a stage. -/
def Stage.text : Stage → String
  | load => "load"
  | validate => "validate"
  | emit => "emit"

/-- What a stage reports. -/
structure Batch where
  /-- The stage. -/
  stage : Stage
  /-- Everything it found, in order. -/
  diagnostics : List Diagnostic
  deriving DecidableEq

/-- How far a compilation is, and what it has made. -/
structure Compilation where
  /-- What is compiled. -/
  provenance : Provenance
  /-- The program, once it is loaded. -/
  program : Option Program := none
  /-- The code, once it is generated. -/
  generated : Option String := none
  /-- What the stages have reported, in order. -/
  batches : List Batch := []
  /-- All that was reported. -/
  diagnostics : List Diagnostic := []
  /-- Whether there was an error. -/
  hasError : Bool := false
  /-- The stage that found an error. -/
  failedAt : Option Stage := none
  deriving DecidableEq

namespace Compilation

/-- A compilation before its first stage. -/
def start (source : String) : Compilation := { provenance := .ofSource source }

/-- Ends a stage with what it reports. -/
def finish (c : Compilation) (stage : Stage) (ds : List Diagnostic) : Compilation :=
  { c with
    batches := c.batches ++ [⟨stage, ds⟩]
    diagnostics := c.diagnostics ++ ds
    hasError := c.hasError || hasErrors ds
    failedAt := if hasErrors ds then some stage else c.failedAt }

/-! ## Stages -/

/-- Loads the program and lays the patch over its options. -/
def load? (c : Compilation) (source : String) (patch : Options.Patch) : Lookup Compilation := do
  match ← Program.load source with
  | .ok p =>
    -- the options of the model were checked as they stand in it, without the patch
    let p := { p with options := p.options.patch patch }
    return { c with program := some p }.finish .load []
  | .error faults => return c.finish .load (faults.map LoadFault.toDiagnostic)

/-- Validates the program. -/
def validate? (c : Compilation) (p : Program) : Lookup Compilation := do
  let ds ← p.validate?
  return c.finish .validate ds

/-- The comments that the options ask for at the top of the module. -/
def header (c : Compilation) (o : Options) : List String :=
  if o.provenanceHeader then c.provenance.header else []

/-- Generates the code. -/
def emit? (c : Compilation) (p : Program) : Lookup Compilation := do
  let (module, ds) ← (p.emit (c.header p.options)).run
  return { c with generated := some (module.text p.options) }.finish .emit ds

/-! ## Runs -/

/-- Compiles a text up to the stage `last`. -/
def run? (source : String) (last : Stage) (patch : Options.Patch) : Lookup Compilation := do
  let c ← (start source).load? source patch
  match c.program with
  | none => return c
  | some p =>
    if c.hasError || last = .load then return c
    else
      let c ← c.validate? p
      if c.hasError || last = .validate then return c
      else c.emit? p

end Compilation

end Reactors
