import Reactors.Span
import Reactors.Value

/-! # The catalog of reactors

    A catalog holds the declared reactors and their parameters, each kind in order of creation.  A
    reactor lists the reactors it extends and its own parameters; a parameter knows the reactor it
    belongs to.  Names need not be unique: a reactor is found by name as the one declared last.
-/

namespace Reactors

/-- A slot of a reactor that every instance of the reactor fills. -/
structure Catalog.Parameter where
  /-- Its identity. -/
  id : ParamId
  /-- The reactor that declares it. -/
  owner : ReactorId
  /-- Its name. -/
  name : String
  /-- Its type as written, if one was. -/
  typeText : Option String
  /-- What it is set to where an instance says nothing else. -/
  default : List Value
  /-- Where it is declared. -/
  span : Span
  deriving DecidableEq

/-- A template of instances. -/
structure Catalog.Reactor where
  /-- Its identity. -/
  id : ReactorId
  /-- Its name. -/
  name : String
  /-- The reactors it extends, in the order written. -/
  supers : List ReactorId
  /-- The parameters it declares itself, in order. -/
  params : List ParamId
  /-- Where it is declared. -/
  span : Span
  deriving DecidableEq

/-- The declared reactors and all their parameters. -/
structure Catalog where
  reactors : Array Catalog.Reactor := #[]
  parameters : Array Catalog.Parameter := #[]
  deriving DecidableEq

namespace Catalog

instance : Inhabited Catalog := ⟨{}⟩

/-! ## Finding elements -/

/-- The reactor with an identity. -/
def reactor? (c : Catalog) (r : ReactorId) : Lookup Reactor := c.reactors[r.index]?

/-- The parameter with an identity. -/
def parameter? (c : Catalog) (p : ParamId) : Lookup Parameter := c.parameters[p.index]?

/-- The reactor that was declared last under a name. -/
def named? (c : Catalog) (name : String) : Option Reactor :=
  c.reactors.toList.reverse.find? fun r => r.name == name

/-- The identity of the next reactor. -/
def nextReactor (c : Catalog) : ReactorId := ⟨c.reactors.size⟩

/-- The identity of the next parameter. -/
def nextParameter (c : Catalog) : ParamId := ⟨c.parameters.size⟩

/-! ## Adding elements -/

/-- Declares a reactor that extends nothing and has no parameters; its identity is `nextReactor`. -/
def declare (c : Catalog) (name : String) (span : Span) : Catalog :=
  { c with
    reactors := c.reactors.push { id := c.nextReactor, name, supers := [], params := [], span } }

/-- Changes the reactor with an identity. -/
def modifyReactor? (c : Catalog) (r : ReactorId) (f : Reactor → Reactor) : Lookup Catalog :=
  if r.index < c.reactors.size then
    some { c with reactors := c.reactors.modify r.index f }
  else none

/-- Lets a reactor extend a further one. -/
def extend? (c : Catalog) (r super : ReactorId) : Lookup Catalog :=
  c.modifyReactor? r fun d => { d with supers := d.supers ++ [super] }

/-- Adds a parameter to a reactor; its identity is `nextParameter`. -/
def addParameter? (c : Catalog) (r : ReactorId) (name : String) (typeText : Option String)
    (default : List Value) (span : Span) : Lookup Catalog := do
  let p : Parameter := { id := c.nextParameter, owner := r, name, typeText, default, span }
  let c ← c.modifyReactor? r fun d => { d with params := d.params ++ [p.id] }
  return { c with parameters := c.parameters.push p }

/-- Replaces the default of a parameter. -/
def setDefault? (c : Catalog) (p : ParamId) (default : List Value) : Lookup Catalog :=
  if p.index < c.parameters.size then
    some { c with parameters := c.parameters.modify p.index fun q => { q with default } }
  else none

end Catalog

end Reactors
