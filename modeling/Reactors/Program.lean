import Reactors.Assembly.Walk
import Reactors.Catalog.Cycle
import Reactors.Options

/-! # Programs

    A program is a catalog of reactors, a tree of their instances, and the options it is emitted
    with.  It is built by edits, each of which adds one thing.  The new elements of an edit get the
    next free identities.
-/

namespace Reactors

/-- A program. -/
structure Program where
  /-- The reactors and their parameters. -/
  catalog : Catalog := {}
  /-- The instances. -/
  assembly : Assembly := {}
  /-- How to emit it. -/
  options : Options := .standard
  deriving DecidableEq

/-- One step of building a program. -/
inductive Program.Edit where
  /-- Declares a reactor. -/
  | declare (name : String) (span : Span)
  /-- Lets a reactor extend another. -/
  | extend (reactor super : ReactorId)
  /-- Adds a parameter to a reactor. -/
  | addParameter (reactor : ReactorId) (name : String) (typeText : Option String)
      (default : List Value) (span : Span)
  /-- Replaces the default of a parameter. -/
  | setDefault (param : ParamId) (default : List Value)
  /-- Adds a root instance. -/
  | addRoot (name : String) (reactor : ReactorId) (span : Span)
  /-- Adds an instance inside another. -/
  | addChild (parent : NodeId) (name : String) (reactor : ReactorId)
      (assignments : List Assignment) (span : Span)
  /-- Adds an assignment to an instance. -/
  | assign (node : NodeId) (assignment : Assignment)

namespace Program

instance : Inhabited Program := ⟨{}⟩

/-- The program after an edit; `none` if the edit changes an element that is not there. -/
def edit? (p : Program) : Edit → Lookup Program
  | .declare name span => some { p with catalog := p.catalog.declare name span }
  | .extend r super => do
    let catalog ← p.catalog.extend? r super
    return { p with catalog }
  | .addParameter r name typeText default span => do
    let catalog ← p.catalog.addParameter? r name typeText default span
    return { p with catalog }
  | .setDefault q default => do
    let catalog ← p.catalog.setDefault? q default
    return { p with catalog }
  | .addRoot name r span => some { p with assembly := p.assembly.addRoot name r span }
  | .addChild parent name r assignments span => do
    let assembly ← p.assembly.addChild? parent name r assignments span
    return { p with assembly }
  | .assign i x => do
    let assembly ← p.assembly.assign? i x
    return { p with assembly }

/-- The slots of an instance: one for each parameter visible on its reactor. -/
def slots? (p : Program) (host : NodeId) : Lookup (List Slot) := do
  let n ← p.assembly.node? host
  let ps ← p.catalog.visibleIds? n.reactor
  return ps.map fun q => ⟨q, host⟩

end Program

end Reactors
