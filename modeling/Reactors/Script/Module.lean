import Reactors.Script.Construction

/-! # Modules of generated code

    A module has comments at the top, then the classes of all reactors, then the construction of the
    instances below the root, every instance before those inside it.  A reactor whose class cannot
    be written, or a value that cannot, is left out and reported.
-/

namespace Reactors

namespace Script

/-- A generated module. -/
structure Module where
  /-- The comments at the top. -/
  header : List String
  /-- The classes. -/
  classes : List ClassBlock
  /-- The statements that construct the instances; `none` if there is no root. -/
  construction : Option (List Statement)
  deriving DecidableEq

/-- The comments at the top and an empty line; nothing if there are no comments. -/
def headerText (header : List String) : String :=
  String.join (header.map fun l => "# " ++ l ++ "\n") ++ (if header.isEmpty then "" else "\n")

/-- The text of a module. -/
def Module.text (o : Options) (m : Module) : String :=
  headerText m.header ++
    String.join (m.classes.map (ClassBlock.text o)) ++
    match m.construction with
    | none => ""
    | some ss =>
      "# Instantiate reactors\n" ++ String.join (ss.map fun s => s.text ++ "\n")

end Script

namespace Program

open Script
open Collect (report lookup)

variable (p : Program)

/-- The class of a reactor; a fault of a parameter is reported, and there is no class then. -/
def emitClass (r : ReactorId) : Collect Diagnostic (Option ClassBlock) := do
  match ← lookup (p.classBlock r).run with
  | .ok block => return some block
  | .error fault =>
    report fault.toDiagnostic
    return none

/-- The construction of everything below the root. -/
def emitConstruction : Collect Diagnostic (Option (List Statement)) := do
  match p.assembly.root? with
  | none => return none
  | some root =>
    let maps ← p.overridesBelow root
    let statements ← lookup (maps.mapM p.construction?)
    return some statements.flatten

/-- The module of a program, with the given comments at the top. -/
def emit (header : List String) : Collect Diagnostic Module := do
  let classes ← (p.catalog.reactors.toList.map (·.id)).mapM p.emitClass
  let construction ← p.emitConstruction
  return { header, classes := classes.filterMap id, construction }

end Program

end Reactors
