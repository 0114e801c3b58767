import Reactors.Collect
import Reactors.Script.Resolution

/-! # The values of an instance

    The overrides of an instance are the values of its slots, one entry for each visible parameter
    that has one.  Two parameters of one name are two entries; the later one counts.
-/

namespace Reactors

namespace Script

/-- The value of one slot. -/
structure Entry where
  /-- The parameter. -/
  param : ParamId
  /-- Its name. -/
  name : String
  /-- The expressions of the value. -/
  terms : List Expr
  /-- Where the value comes from. -/
  origin : Origin
  /-- The value as one expression. -/
  text : String
  deriving DecidableEq

namespace Entry

/-- Whether the value depends on other parameters. -/
def readsParameters (e : Entry) : Bool := e.terms.any Expr.isRead

/-- Whether the class does not give the instance this value: it is an override, or a default that
    comes out differently for each instance. -/
def needsInjection (e : Entry) : Bool := e.origin = .override || e.readsParameters

end Entry

/-- The values of one instance. -/
structure Overrides where
  /-- The instance. -/
  node : NodeId
  /-- Its variable. -/
  path : String
  /-- Its values, in the order of the visible parameters. -/
  entries : List Entry
  deriving DecidableEq

/-- The entries of new names: a name is new if it is not in `seen` and no entry before has it. -/
def newlyNamed (seen : List String) : List Entry → List Entry
  | [] => []
  | e :: es =>
    if e.name ∈ seen then newlyNamed seen es else e :: newlyNamed (e.name :: seen) es

namespace Overrides

/-- The value under a name: that of the last entry of the name. -/
def get? (o : Overrides) (name : String) : Option String :=
  (o.entries.reverse.find? fun e => e.name == name).map (·.text)

/-- The entries that count: from the back, those of new names, put back in order. -/
def distinct (o : Overrides) : List Entry := (newlyNamed [] o.entries.reverse).reverse

end Overrides

end Script

namespace Program

open Script
open Collect (report lookup)

variable (p : Program)

/-- The entry of a slot; a fault of its parameter is reported, and there is no entry then. -/
def entry (s : Slot) : Collect Diagnostic (Option Entry) := do
  match ← lookup (p.initializer s).run with
  | .ok (r, text) =>
    let q ← lookup (p.catalog.parameter? s.param)
    return some { param := s.param, name := q.name, terms := r.terms, origin := r.origin, text }
  | .error fault =>
    report fault.toDiagnostic
    return none

/-- The values of one instance. -/
def overridesAt (n : Assembly.Node) : Collect Diagnostic Overrides := do
  let slots ← lookup (p.slots? n.id)
  let entries ← slots.mapM p.entry
  let path ← lookup (p.assembly.path? n.id)
  return { node := n.id, path, entries := entries.filterMap id }

/-- The values of an instance and of everything inside it. -/
def overridesBelow (i : NodeId) : Collect Diagnostic (List Overrides) := do
  let nodes ← lookup (p.assembly.preorder? i)
  nodes.mapM p.overridesAt

end Program

end Reactors
