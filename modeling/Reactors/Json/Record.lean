import Reactors.Json.Decode

/-! # Records in documents

    A record is written as an object with its fields in any order, or as an array of its fields in
    the order of their declaration.  Fields with a default may be left out: any of them in an
    object, the last ones in an array.
-/

namespace Reactors.Json

/-- One field of a record of type `σ`. -/
structure FieldOf (σ : Type) where
  /-- The key of the field. -/
  name : String
  /-- Whether the field has to be given. -/
  required : Bool
  /-- Decodes the value of the field and puts it into the record. -/
  decode : Reading → σ → Except ReadError σ

namespace FieldOf

/-- The field `name` with a decoder of its value and a function that puts it into the record. -/
def make {σ α : Type} (name : String) (required : Bool) (decoder : Decoder α)
    (put : α → σ → σ) : FieldOf σ :=
  { name, required, decode := fun r s => (put · s) <$> decoder r }

end FieldOf

namespace Record

variable {σ : Type}

/-- Decodes the members of an object into `draft`.  `given` are the keys met so far: a key must
    belong to a field, must not come twice, and at the closing brace no required field may be
    missing. -/
def members (fields : List (FieldOf σ)) : (given : List String) → (draft : σ) → Members →
    Except ReadError σ
  | given, draft, .closed =>
    match fields.find? fun f => f.required && !given.contains f.name with
    | some f => .error (.missingField f.name)
    | none => .ok draft
  | _, _, .broken => .error .malformed
  | given, draft, .cons key value tail =>
    match fields.find? fun f => f.name == key with
    | none => .error (.unknownField key (fields.map (·.name)))
    | some f =>
      if given.contains key then .error (.duplicateField key)
      else do
        let draft ← f.decode value draft
        members fields (key :: given) draft tail

/-- Decodes the items of an array into `draft`, one for each field that is left.  `short` is the
    error of an array that ends after a number of items and leaves a required field open. -/
def items (short : Nat → ReadError) : (present : Nat) → List (FieldOf σ) → (draft : σ) → Items →
    Except ReadError σ
  | _, [], draft, .closed => .ok draft
  | _, [], _, _ => .error .malformed
  | _, _ :: _, _, .broken => .error .malformed
  | present, f :: fs, draft, .closed =>
    -- the array has ended, and the fields that are left take their defaults
    if f.required then .error (short present) else items short (present + 1) fs draft .closed
  | present, f :: fs, draft, .cons value tail => do
    let draft ← f.decode value draft
    items short (present + 1) fs draft tail

/-- How messages describe a record type with a number of fields, for an array that is too short. -/
def arrayText (typeName : String) (count : Nat) : String :=
  typeName ++ " with " ++ toString count ++ " element" ++ (if count = 1 then "" else "s")

/-- The decoder of a record with the given fields, which starts from `draft`. -/
def decoder (typeName : String) (fields : List (FieldOf σ)) (draft : σ) : Decoder σ
  | .object ms => members fields [] draft ms
  | .array is => items (fun n => .tooShort n (arrayText typeName fields.length)) 0 fields draft is
  | r => .error (r.mismatch typeName)

end Record

end Reactors.Json
