import Reactors.Json.Reading
import Reactors.Proofs.Binary64

/-! # The grammar of JSON documents

    What may be written for a reading, told without a reader: tokens with blanks between them,
    numerals and what they denote, strings with their escapes, and the brackets of arrays and
    objects.  Broken readings cannot be written.  A number may have many numerals, a string many
    spellings, and the blanks are free.
-/

namespace Reactors.Json

/-- An array with the given items. -/
def Items.ofList : List Reading → Items
  | [] => .closed
  | r :: rs => .cons r (.ofList rs)

/-- An object with the given members. -/
def Members.ofList : List (String × Reading) → Members
  | [] => .closed
  | m :: ms => .cons m.1 m.2 (.ofList ms)

/-- Text that may stand between two tokens. -/
def Blank (cs : List Char) : Prop := ∀ c ∈ cs, c ∈ [' ', '\t', '\n', '\r']

theorem blank_nil : Blank [] := by simp [Blank]

/-! ## Numerals -/

/-- A run of digits. -/
structure Digits where
  chars : List Char
  nonempty : chars ≠ []
  digits : ∀ c ∈ chars, c.isDigit = true

namespace Digits

/-- The number that the digits spell. -/
def value (ds : Digits) : Nat := Nat.ofDigitChars 10 ds.chars 0

end Digits

/-- The exponent of a numeral. -/
structure Power where
  letter : Char
  letter_eq : letter = 'e' ∨ letter = 'E'
  /-- Nothing, a plus or a minus. -/
  sign : List Char
  sign_eq : sign = [] ∨ sign = ['+'] ∨ sign = ['-']
  digits : Digits

namespace Power

/-- The exponent as it is written. -/
def text (p : Power) : List Char := p.letter :: (p.sign ++ p.digits.chars)

/-- The power of ten that it stands for. -/
def value (p : Power) : Int := if p.sign = ['-'] then -p.digits.value else p.digits.value

end Power

/-- A numeral. -/
structure Numeral where
  negative : Bool
  whole : Digits
  /-- No zero stands in front of another digit. -/
  leading : whole.chars.length = 1 ∨ whole.chars.head? ≠ some '0'
  fraction : Option Digits
  power : Option Power

namespace Numeral

/-- The fraction as it is written, with its point. -/
def fractionText (x : Numeral) : List Char := x.fraction.elim [] fun ds => '.' :: ds.chars

/-- The exponent as it is written. -/
def powerText (x : Numeral) : List Char := x.power.elim [] Power.text

/-- The numeral without its sign. -/
def unsignedText (x : Numeral) : List Char := x.whole.chars ++ (x.fractionText ++ x.powerText)

/-- The numeral as it is written. -/
def text (x : Numeral) : List Char :=
  if x.negative then '-' :: x.unsignedText else x.unsignedText

/-- The number that the numeral spells, its sign apart. -/
def magnitude (x : Numeral) : ℚ :=
  (x.whole.value + x.fraction.elim 0 fun ds => (ds.value : ℚ) / 10 ^ ds.chars.length) *
    10 ^ x.power.elim 0 Power.value

/-- Whether the numeral is that of an integer which 64 bits can hold, with or without a sign: it has
    no point and no exponent, and zero has no minus. -/
def IsInteger (x : Numeral) (n : Int) : Prop :=
  x.fraction = none ∧ x.power = none ∧ -2 ^ 63 ≤ n ∧ n < 2 ^ 64 ∧
    (if x.negative then n ≠ 0 ∧ n = -x.whole.value else n = x.whole.value)

/-- What a numeral denotes: an integer, or else the nearest floating-point number. -/
inductive Denotes (x : Numeral) : Number → Prop
  | integer {n : Int} : x.IsInteger n → Denotes x (.int n)
  | nearest {rank : Nat} (finite : rank < Binary64.rankLimit) :
      (∀ n, ¬ x.IsInteger n) → Binary64.Rounds x.magnitude rank →
      Denotes x (.float (.finite x.negative ⟨rank, finite⟩))

end Numeral

/-! ## Strings -/

/-- The letters that may stand behind a backslash, with the characters that they stand for. -/
def shortEscapes : List (Char × Char) :=
  [('"', '"'), ('\\', '\\'), ('/', '/'), ('b', '\x08'), ('f', '\x0c'), ('n', '\n'), ('r', '\r'),
    ('t', '\t')]

/-- `v` is the value of a hexadecimal digit, which may be in either case. -/
def HexDigit (c : Char) (v : Nat) : Prop :=
  v < 16 ∧ (c = Nat.digitChar v ∨ c = (Nat.digitChar v).toUpper)

/-- `n` is the number of four hexadecimal digits. -/
def HexUnit (a b c d : Char) (n : Nat) : Prop :=
  ∃ i j k l, HexDigit a i ∧ HexDigit b j ∧ HexDigit c k ∧ HexDigit d l ∧
    n = ((i * 16 + j) * 16 + k) * 16 + l

/-- `Escaped s t`: the characters `s` may be written as `t` between the quotes of a string. -/
inductive Escaped : List Char → List Char → Prop
  | nil : Escaped [] []
  | plain {c : Char} {s t : List Char} :
      c ≠ '"' → c ≠ '\\' → 0x20 ≤ c.toNat → Escaped s t → Escaped (c :: s) (c :: t)
  | letter {l c : Char} {s t : List Char} :
      (l, c) ∈ shortEscapes → Escaped s t → Escaped (c :: s) ('\\' :: l :: t)
  /-- The four digits of a character's code. -/
  | unit {ch a b c d : Char} {s t : List Char} :
      HexUnit a b c d ch.toNat → Escaped s t →
      Escaped (ch :: s) ('\\' :: 'u' :: a :: b :: c :: d :: t)
  /-- The two surrogates of a character whose code has more than four digits. -/
  | pair {ch a b c d e f g h : Char} {lead trail : Nat} {s t : List Char} :
      HexUnit a b c d lead → HexUnit e f g h trail →
      0xD800 ≤ lead → lead < 0xDC00 → 0xDC00 ≤ trail → trail < 0xE000 →
      ch.toNat = 0x10000 + (lead - 0xD800) * 0x400 + (trail - 0xDC00) → Escaped s t →
      Escaped (ch :: s)
        ('\\' :: 'u' :: a :: b :: c :: d :: '\\' :: 'u' :: e :: f :: g :: h :: t)

/-- The text of a string, with its quotes. -/
def StringText (s : String) (cs : List Char) : Prop :=
  ∃ body, Escaped s.toList body ∧ cs = '"' :: (body ++ ['"'])

/-! ## Values -/

/-- What stands in front of an item: blanks, and for all but the first a comma among them. -/
inductive Gap : (first : Bool) → List Char → Prop
  | first {before : List Char} : Blank before → Gap true before
  | further {before after : List Char} :
      Blank before → Blank after → Gap false (before ++ ',' :: after)

mutual

/-- `Spells r cs`: the text `cs` is a value, and `r` is what it says. -/
inductive Spells : Reading → List Char → Prop
  | null : Spells .null ['n', 'u', 'l', 'l']
  | yes : Spells (.bool true) ['t', 'r', 'u', 'e']
  | no : Spells (.bool false) ['f', 'a', 'l', 's', 'e']
  | number {x : Numeral} {n : Number} : x.Denotes n → Spells (.number n) x.text
  | string {s : String} {cs : List Char} : StringText s cs → Spells (.string s) cs
  | array {items : Items} {cs : List Char} :
      SpellsItems true items cs → Spells (.array items) ('[' :: cs)
  | object {members : Members} {cs : List Char} :
      SpellsMembers true members cs → Spells (.object members) ('\x7b' :: cs)

/-- The text of an array behind its opening bracket or behind an item. -/
inductive SpellsItems : (first : Bool) → Items → List Char → Prop
  | closed {first : Bool} {blanks : List Char} :
      Blank blanks → SpellsItems first .closed (blanks ++ [']'])
  | cons {first : Bool} {gap cs rest : List Char} {head : Reading} {tail : Items} :
      Gap first gap → Spells head cs → SpellsItems false tail rest →
      SpellsItems first (.cons head tail) (gap ++ (cs ++ rest))

/-- The text of an object behind its opening brace or behind a member. -/
inductive SpellsMembers : (first : Bool) → Members → List Char → Prop
  | closed {first : Bool} {blanks : List Char} :
      Blank blanks → SpellsMembers first .closed (blanks ++ ['\x7d'])
  | cons {first : Bool} {gap name before after cs rest : List Char} {key : String}
      {value : Reading} {tail : Members} :
      Gap first gap → StringText key name → Blank before → Blank after → Spells value cs →
      SpellsMembers false tail rest →
      SpellsMembers first (.cons key value tail)
        (gap ++ (name ++ (before ++ ':' :: (after ++ (cs ++ rest)))))

end

/-- A text that is one value. -/
def Document (r : Reading) (text : String) : Prop :=
  ∃ before cs after, Blank before ∧ Spells r cs ∧ Blank after ∧
    text.toList = before ++ (cs ++ after)

/-! ## Nesting -/

mutual

/-- How many brackets there are around the innermost value. -/
def Reading.depth : Reading → Nat
  | .array items => items.depth + 1
  | .object members => members.depth + 1
  | _ => 0

/-- The depth of the deepest item. -/
def Items.depth : Items → Nat
  | .cons head tail => max head.depth tail.depth
  | _ => 0

/-- The depth of the deepest member. -/
def Members.depth : Members → Nat
  | .cons _ value tail => max value.depth tail.depth
  | _ => 0

end

end Reactors.Json
