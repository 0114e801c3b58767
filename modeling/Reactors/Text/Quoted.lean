import Reactors.Text.Unseen

/-! # Quoted texts in messages

    A message that shows a text puts it between double quotes and escapes what could not be told
    apart on a screen: the double quote, the backslash, the usual control characters by a letter,
    and every other character without a picture of its own by its code point.  A single quote
    stays as it is.
-/

namespace Reactors.Text

/-- The digits of `n` in base 16, in lower case, without leading zeros. -/
def hexDigits (n : Nat) : List Char :=
  Nat.toDigits 16 n

/-- The escape by code point: a backslash, `u`, and the hexadecimal digits in braces. -/
def codePointEscape (c : Char) : List Char :=
  ['\\', 'u', '\x7b'] ++ hexDigits c.toNat ++ ['\x7d']

/-- How a single character is shown inside a quoted text. -/
def quotedChar (c : Char) : List Char :=
  match c with
  | '"' => ['\\', '"']
  | '\\' => ['\\', '\\']
  | '\n' => ['\\', 'n']
  | '\r' => ['\\', 'r']
  | '\t' => ['\\', 't']
  | '\x00' => ['\\', '0']
  | c => if isUnseen c then codePointEscape c else [c]

/-- The text `s` between double quotes, with the escapes of `quotedChar`. -/
def quoted (s : String) : String :=
  String.ofList (['"'] ++ s.toList.flatMap quotedChar ++ ['"'])

end Reactors.Text
