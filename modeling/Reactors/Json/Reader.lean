import Reactors.Decimal.Numeral
import Reactors.Json.Reading

/-! # Reading JSON text

    The reader takes strict JSON: the four ASCII blanks, no leading zeros, no comments, no trailing
    commas, no raw control characters in strings, surrogate escapes only in pairs, and no numeral
    beyond the finite numbers.  Brackets may be nested `maxDepth` deep; the inside of a deeper
    bracket counts as broken.

    Every step gives what it read and the text behind it, which is `none` after a fault.
-/

namespace Reactors.Json

open Reactors.Decimal (isDigit natOfDigits assemble)

/-- How deep arrays and objects may be nested. -/
def maxDepth : Nat := 127

/-! ## Blanks and words -/

/-- Whether `c` may stand between the tokens of a document. -/
def isBlank (c : Char) : Bool := c = ' ' || c = '\t' || c = '\n' || c = '\r'

/-- The text behind the blanks it starts with. -/
def skipBlanks (cs : List Char) : List Char := cs.dropWhile isBlank

/-- The text behind a word it must start with. -/
def afterWord? : List Char → List Char → Option (List Char)
  | [], cs => some cs
  | w :: ws, c :: cs => if w = c then afterWord? ws cs else none
  | _ :: _, [] => none

/-! ## Numerals -/

/-- The number of a numeral of digits alone. -/
def Number.ofDigits (negative : Bool) (ds : List Char) : Number :=
  let n := natOfDigits ds
  if negative then
    if 0 < n ∧ n ≤ Nat.pow 2 63 then .int (-(n : Int)) else .float (.ofDecimal true n 0)
  else if n < Nat.pow 2 64 then .int n
  else .float (.ofDecimal false n 0)

/-- The fraction of a numeral: nothing, or a point and at least one digit. -/
def fraction? : List Char → Option (Option (List Char) × List Char)
  | '.' :: cs =>
    let ds := cs.takeWhile isDigit
    if ds.isEmpty then none else some (some ds, cs.dropWhile isDigit)
  | cs => some (none, cs)

/-- The exponent of a numeral: nothing, or an `e`, an optional sign and at least one digit. -/
def exponent? : List Char → Option (Option Int × List Char)
  | [] => some (none, [])
  | c :: cs =>
    if c = 'e' ∨ c = 'E' then
      let (negative, rest) := Decimal.splitSign cs
      let ds := rest.takeWhile isDigit
      if ds.isEmpty then none
      else some (some (if negative then -(natOfDigits ds : Int) else natOfDigits ds),
        rest.dropWhile isDigit)
    else some (none, c :: cs)

/-- Whether a number is within the range of the finite ones. -/
def Number.isFinite : Number → Bool
  | .int _ => true
  | .float v => v.isFinite

/-- The numeral that a text starts with, its sign taken off already. -/
def numeral? (negative : Bool) (cs : List Char) : Option (Number × List Char) := do
  let whole := cs.takeWhile isDigit
  guard (!whole.isEmpty && (whole.length = 1 || whole.head? != some '0'))
  let (fraction, rest) ← fraction? (cs.dropWhile isDigit)
  let (exponent, rest) ← exponent? rest
  let number :=
    if fraction.isNone && exponent.isNone then Number.ofDigits negative whole
    else .float (assemble negative whole (fraction.getD []) (exponent.getD 0))
  guard number.isFinite
  some (number, rest)

/-! ## Strings -/

/-- The value of a hexadecimal digit. -/
def hexValue? (c : Char) : Option Nat :=
  if '0' ≤ c ∧ c ≤ '9' then some (c.toNat - '0'.toNat)
  else if 'a' ≤ c ∧ c ≤ 'f' then some (c.toNat - 'a'.toNat + 10)
  else if 'A' ≤ c ∧ c ≤ 'F' then some (c.toNat - 'A'.toNat + 10)
  else none

/-- The number of four hexadecimal digits. -/
def hexUnit? (a b c d : Char) : Option Nat := do
  let a ← hexValue? a
  let b ← hexValue? b
  let c ← hexValue? c
  let d ← hexValue? d
  some (((a * 16 + b) * 16 + c) * 16 + d)

/-- The character that a letter behind a backslash stands for. -/
def letterEscape? : Char → Option Char
  | '"' => some '"'
  | '\\' => some '\\'
  | '/' => some '/'
  | 'b' => some '\x08'
  | 'f' => some '\x0c'
  | 'n' => some '\n'
  | 'r' => some '\r'
  | 't' => some '\t'
  | _ => none

/-- The character of a code unit that is no surrogate. -/
def unitChar? (n : Nat) : Option Char :=
  if 0xD800 ≤ n ∧ n < 0xE000 then none else some (Char.ofNat n)

/-- The character of a leading and a trailing surrogate. -/
def pairChar? (lead trail : Nat) : Option Char :=
  if 0xD800 ≤ lead ∧ lead < 0xDC00 ∧ 0xDC00 ≤ trail ∧ trail < 0xE000 then
    some (Char.ofNat (0x10000 + (lead - 0xD800) * 0x400 + (trail - 0xDC00)))
  else none

/-- The characters of a string up to its closing quote, and the text behind that quote. -/
def stringBody? : List Char → Option (List Char × List Char)
  | '"' :: cs => some ([], cs)
  | '\\' :: 'u' :: a :: b :: c :: d :: cs =>
    match hexUnit? a b c d with
    | none => none
    | some n =>
      match unitChar? n with
      | some ch => (stringBody? cs).map fun p => (ch :: p.1, p.2)
      | none =>
        -- a leading surrogate must have a trailing one right behind it
        match cs with
        | '\\' :: 'u' :: e :: f :: g :: h :: cs =>
          match (hexUnit? e f g h).bind (pairChar? n) with
          | none => none
          | some ch => (stringBody? cs).map fun p => (ch :: p.1, p.2)
        | _ => none
  | '\\' :: c :: cs =>
    match letterEscape? c with
    | none => none
    | some ch => (stringBody? cs).map fun p => (ch :: p.1, p.2)
  | c :: cs =>
    if c = '\\' ∨ c.toNat < 0x20 then none
    else (stringBody? cs).map fun p => (c :: p.1, p.2)
  | [] => none

/-! ## Values -/

/-- A value that starts with none of `[`, `\x7b` and `"`. -/
def readScalar (cs : List Char) : Reading × Option (List Char) :=
  let word (w : List Char) (r : Reading) : Reading × Option (List Char) :=
    match afterWord? w cs with
    | some rest => (r, some rest)
    | none => (.broken, none)
  let numeral (negative : Bool) (ds : List Char) : Reading × Option (List Char) :=
    match numeral? negative ds with
    | some (n, rest) => (.number n, some rest)
    | none => (.broken, none)
  match cs with
  | 'n' :: _ => word ['n', 'u', 'l', 'l'] .null
  | 't' :: _ => word ['t', 'r', 'u', 'e'] (.bool true)
  | 'f' :: _ => word ['f', 'a', 'l', 's', 'e'] (.bool false)
  | '-' :: ds => numeral true ds
  | ds => numeral false ds

/-- The text behind the separator in front of a further item: the first one has none, every later
    one a comma. -/
def afterSeparator? (first : Bool) (cs : List Char) : Option (List Char) :=
  if first then some cs
  else match cs with
    | ',' :: rest => some rest
    | _ => none

mutual

/-- Reads a value.  `room` is how many brackets may still be opened, and `fuel` bounds the number of
    nested calls. -/
def readValue : (fuel room : Nat) → List Char → Reading × Option (List Char)
  | 0, _, _ => (.broken, none)
  | fuel + 1, room, cs =>
    match skipBlanks cs with
    | '[' :: rest =>
      match room with
      | 0 => (.array .broken, none)
      | room + 1 =>
        let (items, after) := readItems fuel room true rest
        (.array items, after)
    | '\x7b' :: rest =>
      match room with
      | 0 => (.object .broken, none)
      | room + 1 =>
        let (members, after) := readMembers fuel room true rest
        (.object members, after)
    | '"' :: rest =>
      match stringBody? rest with
      | some (s, after) => (.string (String.ofList s), some after)
      | none => (.broken, none)
    | rest => readScalar rest

/-- Reads the items of an array, from behind the opening bracket or behind an item. -/
def readItems : (fuel room : Nat) → Bool → List Char → Items × Option (List Char)
  | 0, _, _, _ => (.broken, none)
  | fuel + 1, room, first, cs =>
    match skipBlanks cs with
    | ']' :: rest => (.closed, some rest)
    | cs =>
      match afterSeparator? first cs with
      | none => (.broken, none)
      | some cs =>
        match readValue fuel room cs with
        | (head, none) => (.cons head .broken, none)
        | (head, some rest) =>
          let (tail, after) := readItems fuel room false rest
          (.cons head tail, after)

/-- Reads the members of an object, from behind the opening brace or behind a member. -/
def readMembers : (fuel room : Nat) → Bool → List Char → Members × Option (List Char)
  | 0, _, _, _ => (.broken, none)
  | fuel + 1, room, first, cs =>
    match skipBlanks cs with
    | '\x7d' :: rest => (.closed, some rest)
    | cs =>
      match afterSeparator? first cs with
      | none => (.broken, none)
      | some cs =>
        match skipBlanks cs with
        | '"' :: rest =>
          match stringBody? rest with
          | none => (.broken, none)
          | some (key, rest) =>
            match skipBlanks rest with
            | ':' :: rest =>
              match readValue fuel room rest with
              | (value, none) => (.cons (String.ofList key) value .broken, none)
              | (value, some rest) =>
                let (tail, after) := readMembers fuel room false rest
                (.cons (String.ofList key) value tail, after)
            | _ => (.cons (String.ofList key) .broken .broken, none)
        | _ => (.broken, none)

end

/-- The reading of a text, and what stands behind the value that it starts with. -/
def read (text : String) : Reading × Option (List Char) :=
  let cs := text.toList
  readValue (2 * cs.length + 2) maxDepth cs

end Reactors.Json
