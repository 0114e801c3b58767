/-! # Writing JSON text

    The documents written are objects of objects and strings.  Objects have their keys in ascending
    order of code points, each key once; every member stands on a line of its own, indented by two
    spaces a level.
-/

namespace Reactors.Json

/-! ## Objects with sorted keys -/

/-- Puts a value under a key of an object whose keys ascend, in place of the value that the key may
    have had. -/
def insertSorted {α : Type} (key : String) (value : α) : List (String × α) → List (String × α)
  | [] => [(key, value)]
  | (k, v) :: rest =>
    if key < k then (key, value) :: (k, v) :: rest
    else if key = k then (key, value) :: rest
    else (k, v) :: insertSorted key value rest

/-- The members in ascending order of their keys; of several values of a key the last one stays. -/
def sortedMembers {α : Type} (members : List (String × α)) : List (String × α) :=
  members.foldl (fun acc m => insertSorted m.1 m.2 acc) []

/-! ## Strings -/

/-- How a character is written inside a string: the quote, the backslash and the characters below
    U+0020 as escapes, every other one as itself. -/
def stringChar (c : Char) : List Char :=
  match c with
  | '"' => ['\\', '"']
  | '\\' => ['\\', '\\']
  | '\x08' => ['\\', 'b']
  | '\x0c' => ['\\', 'f']
  | '\n' => ['\\', 'n']
  | '\r' => ['\\', 'r']
  | '\t' => ['\\', 't']
  | c =>
    if c.toNat < 0x20 then
      ['\\', 'u', '0', '0', Nat.digitChar (c.toNat / 16), Nat.digitChar (c.toNat % 16)]
    else [c]

/-- A string in quotes. -/
def stringText (s : String) : List Char :=
  ['"'] ++ s.toList.flatMap stringChar ++ ['"']

/-! ## Objects -/

/-- Two spaces for every level. -/
def margin (level : Nat) : List Char := List.replicate (2 * level) ' '

/-- An object with these members, whose braces stand at `level`, the values written by `value`. -/
def objectText {α : Type} (level : Nat) (value : α → List Char) (members : List (String × α)) :
    List Char :=
  match members with
  | [] => ['\x7b', '\x7d']
  | m :: ms =>
    let line (m : String × α) : List Char :=
      ['\n'] ++ margin (level + 1) ++ stringText m.1 ++ [':', ' '] ++ value m.2
    ['\x7b'] ++ line m ++ ms.flatMap (fun m => ',' :: line m) ++ ['\n'] ++ margin level ++ ['\x7d']

/-- The text of an object of strings, whatever the order of its members and with repeated keys. -/
def writeStrings (members : List (String × String)) : String :=
  String.ofList (objectText 0 stringText (sortedMembers members))

/-- The text of an object of objects of strings. -/
def writeTables (members : List (String × List (String × String))) : String :=
  String.ofList
    (objectText 0 (fun ms => objectText 1 stringText (sortedMembers ms)) (sortedMembers members))

end Reactors.Json
