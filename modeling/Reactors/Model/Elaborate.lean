import Reactors.Collect
import Reactors.Fault
import Reactors.Model.Read
import Reactors.Program

/-! # Binding the names of a model

    A model becomes a program by following its names to identities.  A name that leads nowhere is
    reported and what it stands in is left out; binding goes on behind it, so that one run reports
    everything that is wrong with a model.

    The order is: the options, the names of all reactors, what they extend, circles among them,
    their parameters, the defaults of these, and last the instances.  Defaults come after all
    parameters because they may refer to parameters declared later.
-/

namespace Reactors.Model

open Collect (report lookup)

/-! ## Reactors -/

/-- The declared reactor of a name. -/
def findReactor (c : Catalog) (name : String) (span : Span) :
    Collect LoadFault (Option Catalog.Reactor) := do
  match c.named? name with
  | some d => return some d
  | none =>
    report (.unknownReactor name span)
    return none

/-- Declares the reactors in order.  Those whose name is taken are reported; the others are given
    with their identities. -/
def declareAll (c : Catalog) : List Reactor →
    Collect LoadFault (Catalog × List (Reactor × ReactorId))
  | [] => return (c, [])
  | r :: rs => do
    match c.named? r.name with
    | some first =>
      report (.duplicateReactor r.name r.span first.span)
      declareAll c rs
    | none =>
      let (final, declared) ← declareAll (c.declare r.name r.span) rs
      return (final, (r, c.nextReactor) :: declared)

/-- Binds the names of the reactors that a reactor extends. -/
def bindSupers (span : Span) (id : ReactorId) (c : Catalog) : List String →
    Collect LoadFault Catalog
  | [] => return c
  | name :: names => do
    match ← findReactor c name span with
    | some super =>
      let c ← lookup (c.extend? id super.id)
      bindSupers span id c names
    | none => bindSupers span id c names

/-- Binds what the declared reactors extend. -/
def bindAllSupers (c : Catalog) : List (Reactor × ReactorId) → Collect LoadFault Catalog
  | [] => return c
  | (r, id) :: rs => do
    let c ← bindSupers r.span id c r.supers
    bindAllSupers c rs

/-- Reports a circle through a reactor, unless it has a reactor that was declared earlier, whose
    turn it is to report it. -/
def reportCycle (c : Catalog) (id : ReactorId) : Collect LoadFault Unit := do
  match ← lookup (c.cycle? id) with
  | none => return
  | some cycle =>
    if cycle.all fun r => id.index ≤ r.index then
      let members ← lookup (cycle.mapM c.reactor?)
      let first ← lookup (c.reactor? id)
      report (.cyclicExtends (members.map (·.name) ++ [first.name]) first.span)

/-- Reports the circles among the declared reactors. -/
def reportCycles (c : Catalog) : List (Reactor × ReactorId) → Collect LoadFault Unit
  | [] => return
  | (_, id) :: rs => do
    reportCycle c id
    reportCycles c rs

/-! ## Terms -/

/-- Where a name alone is bound: on a reactor, or nowhere with a reason. -/
abbrev Scope : Type := Except ParameterFault ReactorId

/-- The parameter that a name stands for on a reactor. -/
def bindName (c : Catalog) (span : Span) (r : ReactorId) (name : String) :
    Collect LoadFault (Option ParamId) := do
  match ← lookup (c.findParameter? r name) with
  | some p => return some p.id
  | none =>
    let d ← lookup (c.reactor? r)
    report (.unknownParameter d.name name span)
    return none

/-- The parameter that a reference names. -/
def bindReference (c : Catalog) (scope : Scope) (span : Span) :
    Reference → Collect LoadFault (Option ParamId)
  | .plain name => do
    match scope with
    | .ok r => bindName c span r name
    | .error fault =>
      report (.parameter fault)
      return none
  | .qualified name reactor => do
    match ← findReactor c reactor span with
    | some d => bindName c span d.id name
    | none => return none

/-- The time of a time term: its unit must be known, and only zero may go without. -/
def bindDuration (span : Span) (d : Duration) : Collect LoadFault (Option Time) := do
  match d.unit with
  | some text =>
    match Time.Unit.ofText? text with
    | some unit => return some ⟨d.value, some unit⟩
    | none =>
      report (.unknownTimeUnit text span)
      return none
  | none =>
    if d.value = 0 then return some ⟨0, none⟩
    else
      report (.malformed ("time value " ++ toString d.value ++ " needs a unit") span)
      return none

/-- The value of a term, if its names can be bound. -/
def bindTerm (c : Catalog) (scope : Scope) (span : Span) :
    Term → Collect LoadFault (Option Value)
  | .int n => return some (.constant (.int n))
  | .float v => return some (.constant (.float v))
  | .bool b => return some (.constant (.bool b))
  | .string s => return some (.constant (.string s))
  | .code text => return some (.constant (.code text))
  | .time d => return (← bindDuration span d).map fun t => .constant (.time t)
  | .param r => return (← bindReference c scope span r).map .param

/-- The values of the terms whose names can be bound. -/
def bindTerms (c : Catalog) (scope : Scope) (span : Span) :
    List Term → Collect LoadFault (List Value)
  | [] => return []
  | t :: ts => do
    let v ← bindTerm c scope span t
    let vs ← bindTerms c scope span ts
    return v.toList ++ vs

/-! ## Parameters -/

/-- Adds the parameters of a reactor, as yet without defaults; gives them with their identities. -/
def addParameters (id : ReactorId) (c : Catalog) : List Parameter →
    Collect LoadFault (Catalog × List (Parameter × ParamId × ReactorId))
  | [] => return (c, [])
  | p :: ps => do
    let next ← lookup (c.addParameter? id p.name p.typeText [] p.span)
    let (final, added) ← addParameters id next ps
    return (final, (p, c.nextParameter, id) :: added)

/-- Adds the parameters of all declared reactors. -/
def addAllParameters (c : Catalog) : List (Reactor × ReactorId) →
    Collect LoadFault (Catalog × List (Parameter × ParamId × ReactorId))
  | [] => return (c, [])
  | (r, id) :: rs => do
    let (next, added) ← addParameters id c r.parameters
    let (final, more) ← addAllParameters next rs
    return (final, added ++ more)

/-- Binds the defaults, each in the scope of the reactor that declares the parameter. -/
def bindDefaults (c : Catalog) : List (Parameter × ParamId × ReactorId) →
    Collect LoadFault Catalog
  | [] => return c
  | (p, id, owner) :: rest => do
    -- an inherited parameter keeps the scope of the reactor that declares it
    let values ← bindTerms c (.ok owner) p.span p.default
    let c ← lookup (c.setDefault? id values)
    bindDefaults c rest

/-- Binds everything about the reactors. -/
def bindReactors (reactors : List Reactor) : Collect LoadFault Catalog := do
  let (c, declared) ← declareAll {} reactors
  let c ← bindAllSupers c declared
  reportCycles c declared
  let (c, parameters) ← addAllParameters c declared
  bindDefaults c parameters

/-! ## Instances -/

/-- The scope of an assignment: the reactor of the enclosing instance, which places the instance.
    The root has none. -/
def assignmentScope (enclosing : Option ReactorId) (inst : String) (a : Assignment) : Scope :=
  match enclosing with
  | some r => .ok r
  | none => .error (.unboundScope a.target inst a.span)

/-- Binds the assignments of an instance of the reactor `r`. -/
def bindAssignments (c : Catalog) (r : ReactorId) (enclosing : Option ReactorId) (inst : String) :
    List Assignment → Collect LoadFault (List Reactors.Assignment)
  | [] => return []
  | a :: as => do
    match ← bindName c a.span r a.target with
    | none => bindAssignments c r enclosing inst as
    | some target =>
      let values ← bindTerms c (assignmentScope enclosing inst a) a.span a.terms
      let rest ← bindAssignments c r enclosing inst as
      return ⟨target, values, a.span⟩ :: rest

/-- The child of a node with a name. -/
def childNamed? (a : Assembly) (parent : Assembly.Node) (name : String) :
    Lookup (Option Assembly.Node) := do
  let children ← parent.children.mapM a.node?
  return children.find? fun n => n.name == name

mutual

/-- Places an instance, with everything inside it, in the node `parent`.  An instance with the name
    of a sibling or of an unknown reactor is left out together with its inside. -/
def place (c : Catalog) (parent : NodeId) (a : Assembly) : Instance →
    Collect LoadFault Assembly
  | ⟨name, reactor, assignments, children, span⟩ => do
    let outer ← lookup (a.node? parent)
    match ← lookup (childNamed? a outer name) with
    | some first =>
      report (.duplicateInstance name outer.name span first.span)
      return a
    | none =>
      match ← findReactor c reactor span with
      | none => return a
      | some d =>
        let bound ← bindAssignments c d.id (some outer.reactor) name assignments
        let placed ← lookup (a.addChild? parent name d.id bound span)
        -- what is inside gets identities behind the instance itself
        placeAll c a.nextNode placed children

/-- Places instances one after the other in the node `parent`. -/
def placeAll (c : Catalog) (parent : NodeId) (a : Assembly) : List Instance →
    Collect LoadFault Assembly
  | [] => return a
  | i :: is => do
    let a ← place c parent a i
    placeAll c parent a is

end

/-- Places the instance that contains all others as the root. -/
def placeMain (c : Catalog) (main : Instance) : Collect LoadFault Assembly := do
  match ← findReactor c main.reactor main.span with
  | none => return {}
  | some d =>
    let empty : Assembly := {}
    let bound ← bindAssignments c d.id none main.name main.assignments
    let a := empty.push main.name d.id none bound main.span
    placeAll c empty.nextNode a main.children

/-! ## Models -/

/-- Reports options that would not make sense. -/
def checkOptions (o : Options) : Collect LoadFault Unit :=
  match o.complaint? with
  | some message => report (.malformed message .nowhere)
  | none => return

/-- The program that a model describes, as far as its names can be bound, and all faults. -/
def bindAll (m : Model) : Collect LoadFault Program := do
  checkOptions m.options
  let catalog ← bindReactors m.reactors
  let assembly ← placeMain catalog m.main
  return { catalog, assembly, options := m.options }

/-- The program that a model describes, or everything that is wrong with the model. -/
def elaborate (m : Model) : Lookup (Except (List LoadFault) Program) :=
  match (bindAll m).run with
  | none => none
  | some (p, []) => some (.ok p)
  | some (_, fault :: faults) => some (.error (fault :: faults))

end Reactors.Model

namespace Reactors.Program

/-- Reads a program from the text of a model. -/
def load (text : String) : Lookup (Except (List LoadFault) Program) :=
  match Model.read text with
  | .error e => some (.error [.badDocument e])
  | .ok m => m.elaborate

/-- Reads a program from a file. -/
def loadFile {m : Type → Type} [Monad m] [FileSystem m] (path : String) :
    m (Lookup (Except (List LoadFault) Program)) := do
  match ← FileSystem.readText path with
  | .error fault => return some (.error [.unreadable path fault])
  | .ok text => return load text

end Reactors.Program
