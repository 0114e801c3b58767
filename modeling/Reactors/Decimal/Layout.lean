import Reactors.Decimal.Shortest

/-! # Laying out a floating-point number as text

    A finite number is written with the fewest digits that read back, either positionally, with at
    least one digit on either side of the point, or with an exponent.  A `Layout` fixes the choices
    that formats make differently.
-/

namespace Reactors

/-- The choices of one text format for floating-point numbers. -/
structure Layout where
  /-- Which of two equally near shortest decimals is taken. -/
  tie : Decimal.Tie
  /-- The least decade that is written positionally. -/
  positionalFrom : Int
  /-- The least decade above those written positionally. -/
  positionalTo : Int
  /-- Whether a positive exponent has a plus sign. -/
  plusSign : Bool

namespace Layout

/-- The decimal digits of `n`. -/
def digitChars (n : Nat) : List Char := Nat.toDigits 10 n

/-- Digits with the decimal point behind the first `point` of them, padded with zeros so that there
    is a digit on either side. -/
def positional (digits : List Char) (point : Int) : List Char :=
  if point ≤ 0 then
    ['0', '.'] ++ List.replicate (-point).toNat '0' ++ digits
  else if digits.length ≤ point.toNat then
    digits ++ List.replicate (point.toNat - digits.length) '0' ++ ['.', '0']
  else
    digits.take point.toNat ++ ['.'] ++ digits.drop point.toNat

/-- Digits with a point behind the first of them, if there are more, and an exponent. -/
def scientific (plusSign : Bool) (digits : List Char) (decade : Int) : List Char :=
  let mantissa :=
    match digits with
    | d :: e :: ds => d :: '.' :: e :: ds
    | ds => ds
  let sign := if decade < 0 then ['-'] else if plusSign then ['+'] else []
  mantissa ++ ['e'] ++ sign ++ digitChars decade.natAbs

/-- The text of the magnitude with this rank. -/
def magnitude (l : Layout) (rank : Nat) : List Char :=
  if rank = 0 then ['0', '.', '0']
  else
    let d := Decimal.shortest l.tie rank
    let digits := digitChars d.digits
    let decade := d.exponent + digits.length - 1
    if l.positionalFrom ≤ decade ∧ decade < l.positionalTo then positional digits (decade + 1)
    else scientific l.plusSign digits decade

/-- The text of a number. -/
def text (l : Layout) : Binary64 → String
  | .nan => "NaN"
  | .infinity negative => if negative then "-inf" else "inf"
  | .finite negative rank =>
    String.ofList ((if negative then ['-'] else []) ++ l.magnitude rank)

/-- The format of generated code and of listings: positional from `0.0001` up to below `10 ^ 16`, no
    plus sign, and a tie between two shortest decimals goes up. -/
def plain : Layout := ⟨.up, -4, 16, false⟩

/-- The format of numbers in messages about a document: positional from `0.00001` up to below
    `10 ^ 16`, a plus sign at positive exponents, and a tie goes to the even digit. -/
def message : Layout := ⟨.toEven, -5, 16, true⟩

end Layout

end Reactors
