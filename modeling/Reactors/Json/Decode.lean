import Reactors.Decimal.Layout
import Reactors.Json.Reader
import Reactors.Text.Quoted

/-! # Decoding JSON readings

    A decoder turns a reading into a value or into the first error in document order.  The decoders
    here are those of the basic types; `Json.Record` and `Json.Variant` build decoders of records
    and of tagged values from them.
-/

namespace Reactors.Json

/-! ## Errors -/

/-- What a document holds where something else was expected. -/
inductive Found where
  | null
  | bool (b : Bool)
  | int (n : Int)
  | float (v : Binary64)
  | string (s : String)
  | sequence
  | map
  /-- The bare name of a variant that carries a value. -/
  | bareVariant
  deriving DecidableEq

/-- How a message names what was found. -/
def Found.text : Found → String
  | .null => "null"
  | .bool b => "boolean `" ++ (if b then "true" else "false") ++ "`"
  | .int n => "integer `" ++ toString n ++ "`"
  | .float v => "floating point `" ++ Layout.message.text v ++ "`"
  | .string s => "string " ++ Text.quoted s
  | .sequence => "sequence"
  | .map => "map"
  | .bareVariant => "unit variant"

/-- Why a document could not be decoded. -/
inductive ReadError where
  /-- The text is not JSON, or not a document of the expected outline. -/
  | malformed
  /-- A value of the wrong type. -/
  | wrongType (found : Found) (expected : String)
  /-- An integer that the expected type cannot hold. -/
  | outOfRange (n : Int) (expected : String)
  /-- An array that ends too early. -/
  | tooShort (present : Nat) (expected : String)
  /-- A field that the record does not have. -/
  | unknownField (name : String) (known : List String)
  /-- A field that is given twice. -/
  | duplicateField (name : String)
  /-- A field that has to be given and is not. -/
  | missingField (name : String)
  /-- A variant that the type does not have. -/
  | unknownVariant (name : String) (known : List String)
  /-- A value that fits none of the forms of a type. -/
  | noForm (typeName : String)
  deriving DecidableEq

/-- A name between backticks. -/
def ticked (name : String) : String := "`" ++ name ++ "`"

/-- How a message lists the names that would have been right. -/
def expectedNames : List String → String
  | [a] => "expected " ++ ticked a
  | [a, b] => "expected " ++ ticked a ++ " or " ++ ticked b
  | names => "expected one of " ++ ", ".intercalate (names.map ticked)

/-- The wording of an error. -/
def ReadError.message : ReadError → String
  | .malformed => "invalid JSON"
  | .wrongType found expected => "invalid type: " ++ found.text ++ ", expected " ++ expected
  | .outOfRange n expected =>
    "invalid value: " ++ (Found.int n).text ++ ", expected " ++ expected
  | .tooShort present expected =>
    "invalid length " ++ toString present ++ ", expected " ++ expected
  | .unknownField name known => "unknown field " ++ ticked name ++ ", " ++ expectedNames known
  | .duplicateField name => "duplicate field " ++ ticked name
  | .missingField name => "missing field " ++ ticked name
  | .unknownVariant name known => "unknown variant " ++ ticked name ++ ", " ++ expectedNames known
  | .noForm typeName => "data did not match any variant of untagged enum " ++ typeName

/-- What a reading holds, if it is not broken at once. -/
def Reading.found? : Reading → Option Found
  | .null => some .null
  | .bool b => some (.bool b)
  | .number (.int n) => some (.int n)
  | .number (.float v) => some (.float v)
  | .string s => some (.string s)
  | .array _ => some .sequence
  | .object _ => some .map
  | .broken => none

/-- The error of a reading that is not of the expected type. -/
def Reading.mismatch (r : Reading) (expected : String) : ReadError :=
  match r.found? with
  | some found => .wrongType found expected
  | none => .malformed

/-! ## Basic types -/

/-- A function from readings to values. -/
abbrev Decoder (α : Type) : Type := Reading → Except ReadError α

namespace Decoder

/-- A string. -/
def string : Decoder String
  | .string s => .ok s
  | r => .error (r.mismatch "a string")

/-- A truth value. -/
def bool : Decoder Bool
  | .bool b => .ok b
  | r => .error (r.mismatch "a boolean")

/-- A natural number below `2^64`, of a type with the given name. -/
def natural (typeName : String) : Decoder Nat
  | .number (.int n) => if n < 0 then .error (.outOfRange n typeName) else .ok n.toNat
  | r => .error (r.mismatch typeName)

/-- An integer of 64 bits with sign. -/
def integer : Decoder Int
  | .number (.int n) => if Int.pow 2 63 ≤ n then .error (.outOfRange n "i64") else .ok n
  | r => .error (r.mismatch "i64")

/-- A floating-point number; an integer is taken as the nearest one. -/
def float : Decoder Binary64
  | .number (.int n) => .ok (.ofInt n)
  | .number (.float v) => .ok v
  | r => .error (r.mismatch "f64")

/-- A value or `null`. -/
def option {α : Type} (decode : Decoder α) : Decoder (Option α)
  | .null => .ok none
  | r => some <$> decode r

/-- The items of the rest of an array, up to its closing bracket. -/
def items {α : Type} (decode : Decoder α) : Items → Except ReadError (List α)
  | .closed => .ok []
  | .broken => .error .malformed
  | .cons head tail => do
    let a ← decode head
    let as ← items decode tail
    return a :: as

/-- An array of values of one type. -/
def list {α : Type} (decode : Decoder α) : Decoder (List α)
  | .array is => items decode is
  | r => .error (r.mismatch "a sequence")

/-- An array of exactly two values of one type. -/
def pair {α : Type} (decode : Decoder α) : Decoder (α × α)
  | .array is =>
    match is with
    | .closed => .error (.tooShort 0 "a tuple of size 2")
    | .broken => .error .malformed
    | .cons first is => do
      let a ← decode first
      match is with
      | .closed => .error (.tooShort 1 "a tuple of size 2")
      | .broken => .error .malformed
      | .cons second is => do
        let b ← decode second
        match is with
        | .closed => return (a, b)
        | _ => .error .malformed
  | r => .error (r.mismatch "a tuple of size 2")

end Decoder

/-! ## Documents -/

/-- Decodes a whole text, behind whose value nothing but blanks may stand. -/
def decode {α : Type} (decoder : Decoder α) (text : String) : Except ReadError α := do
  let (reading, rest) := read text
  let a ← decoder reading
  match rest.map skipBlanks with
  | some [] => return a
  | _ => .error .malformed

end Reactors.Json
