import Reactors.Json.Decode

/-! # Tagged values in documents

    A value with a tag is written as an object whose only key is the tag.  A choice among bare tags
    is written as the tag itself, or as such an object with the value `null`.
-/

namespace Reactors.Json

/-- One case of a tagged value. -/
structure Case (α : Type) where
  /-- The tag. -/
  name : String
  /-- Decodes the value that goes with the tag. -/
  decode : Decoder α

namespace Variant

variable {α : Type}

/-- Finds the case with a tag. -/
def select (cases : List (Case α)) (tag : String) : Except ReadError (Case α) :=
  match cases.find? fun c => c.name == tag with
  | some c => .ok c
  | none => .error (.unknownVariant tag (cases.map (·.name)))

/-- Decodes an object with exactly one key, a tag. -/
def tagged (cases : List (Case α)) : Members → Except ReadError α
  | .cons tag value tail => do
    let c ← select cases tag
    let a ← c.decode value
    match tail with
    | .closed => return a
    | _ => .error .malformed
  | _ => .error .malformed

/-- The decoder of a tagged value all of whose cases carry a value. -/
def decoder (cases : List (Case α)) : Decoder α
  | .object ms => tagged cases ms
  | .string tag => do
    let _ ← select cases tag
    .error (.wrongType .bareVariant "newtype variant")
  | _ => .error .malformed

/-- The case of a tag that carries nothing. -/
def bare (name : String) (a : α) : Case α :=
  { name
    decode := fun
      | .null => .ok a
      | r => .error (r.mismatch "unit") }

/-- The decoder of a choice among bare tags. -/
def choice (tags : List (String × α)) : Decoder α
  | .object ms => tagged (tags.map fun t => bare t.1 t.2) ms
  | .string tag => do
    let c ← select (tags.map fun t => bare t.1 t.2) tag
    c.decode .null
  | _ => .error .malformed

end Variant

end Reactors.Json
