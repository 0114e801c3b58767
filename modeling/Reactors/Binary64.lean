/-! # Binary floating-point numbers

    A double-precision number, held in a form one can calculate with: the finite numbers of one
    sign are counted upwards from zero.  The number with count `rank` is

        significand rank * 2 ^ exponent rank

    and larger ranks are larger numbers, so that rounding is finding a rank.  All arithmetic here
    is exact arithmetic on natural numbers.  Powers are written `Nat.pow`, which means the same
    whatever other instances of `^` a reader of these definitions imports.
-/

namespace Reactors

/-- The number of finite magnitudes: 2047 binades (the lowest shared with the subnormal numbers) of
    `2 ^ 52` magnitudes each. -/
def Binary64.rankLimit : Nat := 2047 * Nat.pow 2 52

/-- A double-precision number.  There is one value for "not a number"; zero has two signs. -/
inductive Binary64 where
  /-- Not a number. -/
  | nan
  /-- The infinity of a sign. -/
  | infinity (negative : Bool)
  /-- The finite number of a sign whose magnitude is the `rank`-th from zero. -/
  | finite (negative : Bool) (rank : Fin Binary64.rankLimit)
  deriving DecidableEq

namespace Binary64

instance : Inhabited Binary64 := ⟨.nan⟩

/-! ## From a rank to its value -/

/-- The integer factor of the magnitude with this rank. -/
def significand (rank : Nat) : Nat :=
  if rank < Nat.pow 2 52 then rank else Nat.pow 2 52 + rank % Nat.pow 2 52

/-- The power of two that goes with `significand rank`. -/
def exponent (rank : Nat) : Int :=
  if rank < Nat.pow 2 52 then -1074 else (rank / Nat.pow 2 52 : Nat) - 1075

/-! ## From a ratio to the nearest rank -/

/-- The integer nearest to `num / den`; a half goes to the even neighbour. -/
def roundHalfEven (num den : Nat) : Nat :=
  let q := num / den
  let r := num % den
  if 2 * r < den then q
  else if den < 2 * r then q + 1
  else q + q % 2

/-- The numerator of `num / (den * 2 ^ e)`, written without a negative power. -/
def scaledNum (num : Nat) (e : Int) : Nat := num * Nat.pow 2 (-e).toNat

/-- The denominator of `num / (den * 2 ^ e)`, written without a negative power. -/
def scaledDen (den : Nat) (e : Int) : Nat := den * Nat.pow 2 e.toNat

/-- The power of two in units of which `num / den` is rounded: the one that leaves 53 binary digits
    before the point, but none below the unit of the subnormal numbers. -/
def unitExponent (num den : Nat) : Int :=
  let e : Int := (num.log2 : Int) - den.log2 - 53
  -- the lengths of the two leave 53 or 54 digits; 54 are one too many
  let e := if Nat.pow 2 53 ≤ scaledNum num e / scaledDen den e then e + 1 else e
  max e (-1074)

/-- The rank nearest to the positive ratio `num / den`, a tie going to the even one.  A ratio beyond
    the finite numbers gets a rank that is not below `rankLimit`. -/
def nearestRank (num den : Nat) : Nat :=
  let e := unitExponent num den
  (e + 1074).toNat * Nat.pow 2 52 + roundHalfEven (scaledNum num e) (scaledDen den e)

/-- The number with a sign and a rank; ranks past the finite ones stand for infinity. -/
def ofRank (negative : Bool) (rank : Nat) : Binary64 :=
  if h : rank < rankLimit then .finite negative ⟨rank, h⟩ else .infinity negative

/-- The number nearest to `num / den` with the given sign. -/
def ofRatio (negative : Bool) (num den : Nat) : Binary64 :=
  if num = 0 then ofRank negative 0 else ofRank negative (nearestRank num den)

/-! ## From decimal digits and from integers -/

/-- How many decimal digits `n` has; zero has one. -/
def decimalLength (n : Nat) : Nat := (Nat.toDigits 10 n).length

/-- The number nearest to `digits * 10 ^ exponent` with the given sign.  A magnitude of
    `10 ^ 400` or more is past the finite numbers, and one below `10 ^ -400` is nearest to zero, so
    that no power beyond those is ever worked out. -/
def ofDecimal (negative : Bool) (digits : Nat) (exponent : Int) : Binary64 :=
  let top := exponent + decimalLength digits
  if digits = 0 ∨ top < -400 then ofRank negative 0
  else if 400 < top then .infinity negative
  else ofRatio negative (digits * Nat.pow 10 exponent.toNat) (Nat.pow 10 (-exponent).toNat)

/-- The number nearest to an integer. -/
def ofInt (n : Int) : Binary64 :=
  ofRatio (n < 0) n.natAbs 1

/-- Whether the number is finite. -/
def isFinite : Binary64 → Bool
  | .finite .. => true
  | _ => false

end Binary64

end Reactors
