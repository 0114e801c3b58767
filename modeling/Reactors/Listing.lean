import Reactors.Json.Writer
import Reactors.Script.Overrides

/-! # Listings

    Two views of a program for its reader: the tree of instances with their assignments, indented by
    depth, and the values of all instances as a JSON object.
-/

namespace Reactors.Program

open Script
open Collect (lookup)

variable (p : Program)

/-! ## The tree -/

/-- How a value is listed: a reference by the name of its parameter, a constant as in the code. -/
def listedValue? : Value → Lookup String
  | .constant k => some (literal k)
  | .param id => do
    let q ← p.catalog.parameter? id
    return "<" ++ q.name ++ ">"

/-- How an assignment is listed. -/
def listedAssignment? (x : Assignment) : Lookup String := do
  let values ← x.values.mapM p.listedValue?
  let target ← p.catalog.parameter? x.target
  return "." ++ target.name ++ " = " ++ ", ".intercalate values

/-- The spaces in front of a line of an instance at a depth. -/
def treeMargin (depth : Nat) : String := String.ofList (List.replicate (2 * depth) ' ')

/-- The lines of an instance: its name and reactor, and its assignments one step further in. -/
def listedNode? (n : Assembly.Node) : Lookup (List String) := do
  let depth ← p.assembly.depth? n.id
  let d ← p.catalog.reactor? n.reactor
  let assignments ← n.assignments.mapM p.listedAssignment?
  return (treeMargin depth ++ n.name ++ " : " ++ d.name) ::
    assignments.map fun l => treeMargin depth ++ "  " ++ l

/-- The listing of the instances below the root. -/
def tree? : Lookup String :=
  match p.assembly.root? with
  | none => some ""
  | some root => do
    let nodes ← p.assembly.preorder? root
    let lines ← nodes.mapM p.listedNode?
    return String.join (lines.flatten.map (· ++ "\n"))

/-! ## The values -/

/-- The values of an instance under its path, by the names of the parameters. -/
def overridesTable (o : Overrides) : String × List (String × String) :=
  (o.path, o.distinct.map fun e => (e.name, e.text))

/-- The values of all instances as a JSON object. -/
def overridesJson : Collect Diagnostic String :=
  match p.assembly.root? with
  | none => return Json.writeTables []
  | some root => do
    let maps ← p.overridesBelow root
    return Json.writeTables (maps.map overridesTable)

end Reactors.Program
