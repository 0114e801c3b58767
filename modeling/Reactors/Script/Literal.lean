import Reactors.Decimal.Layout
import Reactors.Value

/-! # Python literals

    How constants are written in the generated code.
-/

namespace Reactors.Script

/-! ## Strings -/

/-- How a character is written inside a string literal: the backslash and the double quote behind a
    backslash, the characters below U+0020 as escapes, every other one as itself. -/
def literalChar (c : Char) : List Char :=
  match c with
  | '\\' => ['\\', '\\']
  | '"' => ['\\', '"']
  | '\n' => ['\\', 'n']
  | '\r' => ['\\', 'r']
  | '\t' => ['\\', 't']
  | c =>
    if c.toNat < 0x20 then
      ['\\', 'x', Nat.digitChar (c.toNat / 16), Nat.digitChar (c.toNat % 16)]
    else [c]

/-- A string literal on one line. -/
def stringLiteral (s : String) : String :=
  String.ofList (['"'] ++ s.toList.flatMap literalChar ++ ['"'])

/-! ## Numbers -/

/-- A call of `float` on a name. -/
def floatCall (name : String) : String := "float(\"" ++ name ++ "\")"

/-- A floating-point number; those that are not finite have no literal and are made by a call. -/
def floatLiteral : Binary64 → String
  | .nan => floatCall "nan"
  | .infinity false => floatCall "inf"
  | .infinity true => floatCall "-inf"
  | v => Layout.plain.text v

/-- A truth value. -/
def boolLiteral (b : Bool) : String := if b then "True" else "False"

/-! ## Constants -/

/-- The text of a constant.  Time is written in nanoseconds. -/
def literal : Constant → String
  | .int n => toString n
  | .float v => floatLiteral v
  | .bool b => boolLiteral b
  | .string s => stringLiteral s
  | .code text => text
  | .time t => toString t.nanoseconds

end Reactors.Script
