import Reactors.Binary64
import Reactors.Id
import Reactors.Time

/-! # Initializer values

    The initializer of a parameter is a list of values.  A value that refers to a parameter holds
    its identity, not a copy of what it is set to.
-/

namespace Reactors

/-- A value that is the same wherever it stands. -/
inductive Constant where
  | int (n : Int)
  | float (v : Binary64)
  | bool (b : Bool)
  | string (s : String)
  /-- Code of the target language, taken as it stands. -/
  | code (text : String)
  | time (t : Time)
  deriving DecidableEq

/-- One value of an initializer. -/
inductive Value where
  /-- A constant. -/
  | constant (k : Constant)
  /-- What the parameter with this identity is set to. -/
  | param (id : ParamId)
  deriving DecidableEq

namespace Value

/-- The parameter that a value refers to. -/
def reference? : Value → Option ParamId
  | param id => some id
  | _ => none

end Value

end Reactors
