import Reactors.Binary64

/-! # JSON documents, as far as they can be read

    A `Reading` is the tree of a JSON text up to its first fault.  Where the text stops being JSON
    the tree has the leaf `broken`, and nothing follows it.  So a decoder that goes through a
    reading from the front meets a wrong type or an unknown field before the fault if it stands
    before the fault in the text.
-/

namespace Reactors.Json

/-- A number of a document. -/
inductive Number where
  /-- A numeral without point or exponent, from `-2^63` to `2^64 - 1`; zero has no minus sign. -/
  | int (n : Int)
  /-- Any other numeral. -/
  | float (v : Binary64)
  deriving DecidableEq

mutual

/-- A value of a document. -/
inductive Reading where
  | null
  | bool (b : Bool)
  | number (n : Number)
  | string (s : String)
  | array (items : Items)
  | object (members : Members)
  /-- The text is not JSON from here on. -/
  | broken

/-- The rest of an array. -/
inductive Items where
  /-- The closing bracket. -/
  | closed
  /-- Neither a further item nor the closing bracket. -/
  | broken
  | cons (head : Reading) (tail : Items)

/-- The rest of an object. -/
inductive Members where
  /-- The closing brace. -/
  | closed
  /-- Neither a further member nor the closing brace. -/
  | broken
  | cons (key : String) (value : Reading) (tail : Members)

end

/-! ## Undamaged readings -/

mutual

/-- Whether a reading has no fault in it. -/
def Reading.isIntact : Reading → Bool
  | .array items => items.isIntact
  | .object members => members.isIntact
  | .broken => false
  | _ => true

/-- Whether the rest of an array has no fault in it. -/
def Items.isIntact : Items → Bool
  | .closed => true
  | .broken => false
  | .cons head tail => head.isIntact && tail.isIntact

/-- Whether the rest of an object has no fault in it. -/
def Members.isIntact : Members → Bool
  | .closed => true
  | .broken => false
  | .cons _ value tail => value.isIntact && tail.isIntact

end

/-- The values under a key, in order. -/
def Members.valuesOf (key : String) : Members → List Reading
  | .cons k value tail => if k = key then value :: tail.valuesOf key else tail.valuesOf key
  | _ => []

end Reactors.Json
