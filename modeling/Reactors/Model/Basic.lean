import Reactors.Binary64
import Reactors.Options
import Reactors.Span

/-! # Program models

    A model is a program as it is written down: everything refers to everything by name, and the
    instances are nested in one another.  Binding a model's names makes a `Program` of it.
-/

namespace Reactors.Model

/-- A parameter named by a term. -/
inductive Reference where
  /-- By its name alone, in the scope where the term stands. -/
  | plain (name : String)
  /-- By its name on the named reactor. -/
  | qualified (name reactor : String)
  deriving DecidableEq

/-- A time value as written. -/
structure Duration where
  value : Nat
  unit : Option String
  deriving DecidableEq

/-- A term of an initializer as written. -/
inductive Term where
  | int (n : Int)
  | float (v : Binary64)
  | bool (b : Bool)
  | string (s : String)
  | code (text : String)
  | time (t : Duration)
  | param (r : Reference)
  deriving DecidableEq

/-- A parameter of a reactor. -/
structure Parameter where
  name : String
  typeText : Option String
  default : List Term
  span : Span
  deriving DecidableEq

/-- A reactor. -/
structure Reactor where
  name : String
  /-- The names of the reactors it extends. -/
  supers : List String
  parameters : List Parameter
  span : Span
  deriving DecidableEq

/-- An assignment of an instance. -/
structure Assignment where
  /-- The name of the parameter that is set. -/
  target : String
  terms : List Term
  span : Span
  deriving DecidableEq

/-- An instance with the instances inside it. -/
structure Instance where
  name : String
  /-- The name of its reactor. -/
  reactor : String
  assignments : List Assignment
  children : List Instance
  span : Span

end Reactors.Model

namespace Reactors

/-- A program model. -/
structure Model where
  options : Options
  reactors : List Model.Reactor
  /-- The instance that contains all others. -/
  main : Model.Instance

end Reactors
