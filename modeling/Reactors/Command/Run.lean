import Reactors.Command.Arguments
import Reactors.Compilation
import Reactors.Listing

/-! # Running the command

    A run reads the model, makes the product that was asked for, and writes it.  The exit code is 0
    if it did, 1 if the model has errors, and 2 if a file or the arguments are at fault.
-/

namespace Reactors.Command

open Diagnostic (hasErrors)

/-! ## Making the product -/

/-- What is made of a model. -/
structure Result where
  /-- What is reported. -/
  diagnostics : List Diagnostic
  /-- The text of the product; `none` if the model has errors. -/
  text : Option String

/-- The result of a compilation whose product is `text`. -/
def resultOf (c : Compilation) (text : String) : Result :=
  { diagnostics := c.diagnostics
    text := if c.hasError then none else some text }

/-- The values of all instances, behind what the compilation reported. -/
def overridesResult? (c : Compilation) (p : Program) : Lookup Result := do
  let (json, ds) ← p.overridesJson.run
  return {
    diagnostics := c.diagnostics ++ ds
    text := if hasErrors ds then none else some (json ++ "\n") }

/-- Makes the product of an invocation from the text of the model. -/
def make? (i : Invocation) (source : String) : Lookup Result :=
  match i.product with
  | .buildInfo => some ⟨[], some (Provenance.ofSource source).json⟩
  | .python => do
    let c ← Compilation.run? source .emit i.patch
    return resultOf c (c.generated.getD "")
  | .tree => do
    let c ← Compilation.run? source .load i.patch
    match c.hasError, c.program with
    | false, some p => return resultOf c (← p.tree?)
    | _, _ => return resultOf c ""
  | .overrides => do
    let c ← Compilation.run? source .validate i.patch
    match c.hasError, c.program with
    | false, some p => overridesResult? c p
    | _, _ => return resultOf c ""

/-! ## Writing it -/

/-- What a run leaves behind besides files. -/
structure Outcome where
  /-- The exit code. -/
  code : Nat
  /-- The standard output. -/
  stdout : String
  /-- The standard error output. -/
  stderr : String
  deriving DecidableEq

/-- The line about a file at fault. -/
def faultLine (path : String) (fault : FileFault) : String :=
  commandName ++ ": error: " ++ path ++ ": " ++ fault.text ++ "\n"

/-- The lines about diagnostics. -/
def report (ds : List Diagnostic) : String :=
  String.join (ds.map fun d => commandName ++ ": " ++ d.text ++ "\n")

section

variable {m : Type → Type} [Monad m] [FileSystem m]

/-- Writes a text to where an invocation wants it. -/
def deliver (i : Invocation) (stderr text : String) : m Outcome := do
  match i.output with
  | none => return { code := 0, stdout := text, stderr }
  | some path =>
    match ← FileSystem.writeText path text with
    | .ok () => return { code := 0, stdout := "", stderr }
    | .error fault => return { code := 2, stdout := "", stderr := stderr ++ faultLine path fault }

/-- Runs an invocation.  Should the program have an identity that leads nowhere, which no loaded
    program has, the code is 101. -/
def execute (i : Invocation) : m Outcome := do
  match ← FileSystem.readText i.source with
  | .error fault => return { code := 2, stdout := "", stderr := faultLine i.source fault }
  | .ok source =>
    match make? i source with
    | none => return { code := 101, stdout := "", stderr := "" }
    | some result =>
      let stderr := report result.diagnostics
      match result.text with
      | none => return { code := 1, stdout := "", stderr }
      | some text => deliver i stderr text

end

/-! ## Usage -/

/-- How to call the command. -/
def usage : String := "\n".intercalate
  ["Usage: " ++ commandName ++ " [OPTIONS] <SOURCE>",
   "",
   "  <SOURCE>                  Program model (JSON)",
   "  -o, --output <PATH>       Output file path (stdout when omitted)",
   "      --emit <WHAT>         python, overrides, tree or build-info",
   "      --override-style <S>  targeted or bulk-merge",
   "      --indent <N>          Spaces per indentation level",
   "      --no-header           Omit the provenance comment at the top of modules",
   "      --verbose             Log stage progress to stderr",
   "  -h, --help                Print help",
   "  -V, --version             Print version",
   ""]

/-- Runs the command with its arguments. -/
def respond {m : Type → Type} [Monad m] [FileSystem m] (args : List String) : m Outcome := do
  match parse args with
  | .usageError => return { code := 2, stdout := "", stderr := usage }
  | .version => return { code := 0, stdout := commandName ++ " " ++ version ++ "\n", stderr := "" }
  | .help => return { code := 0, stdout := usage, stderr := "" }
  | .run i => execute i

end Reactors.Command
