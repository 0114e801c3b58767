import Reactors.Binary64

/-! # The fewest digits that read back

    Every finite number is the nearest one to a whole interval of reals.  The shortest decimal of a
    number is, among the decimals in its interval, one with as few digits as possible, and of those
    the one nearest to the number.

    With `n` digits only two decimals come into question, the neighbours of the number on the grid
    of `n`-digit decimals; so the first grid that has a neighbour in the interval settles it.
-/

namespace Reactors

/-- The decimal `digits * 10 ^ exponent`. -/
structure Decimal where
  /-- The digits, read as one natural number. -/
  digits : Nat
  /-- The power of ten. -/
  exponent : Int
  deriving DecidableEq, Inhabited

namespace Decimal

/-! ## The interval of a number -/

/-- The reals nearest to a magnitude, in quarters of its last binary place `2 ^ exponent`. -/
structure Interval where
  /-- The lower end. -/
  low : Nat
  /-- The magnitude itself. -/
  mid : Nat
  /-- The upper end. -/
  high : Nat
  /-- Whether the ends belong to the interval: a tie is read as the even neighbour. -/
  closed : Bool

/-- The interval of the magnitude with this rank.  Right above a power of two the numbers below lie
    twice as dense, so the lower end is nearer. -/
def interval (rank : Nat) : Interval :=
  let m := Binary64.significand rank
  let dense := m = Nat.pow 2 52 ∧ Binary64.exponent rank ≠ -1074
  { low := if dense then 4 * m - 1 else 4 * m - 2
    mid := 4 * m
    high := 4 * m + 2
    closed := m % 2 = 0 }

/-! ## Decimal grids -/

/-- The factor on a number of quarters when it is compared with multiples of `10 ^ k`. -/
def quarterScale (rank : Nat) (k : Int) : Nat :=
  Nat.pow 2 (Binary64.exponent rank - 2).toNat * Nat.pow 10 (-k).toNat

/-- The factor on a multiple of `10 ^ k` when it is compared with a number of quarters. -/
def gridScale (rank : Nat) (k : Int) : Nat :=
  Nat.pow 2 (2 - Binary64.exponent rank).toNat * Nat.pow 10 k.toNat

/-- The exponent `p` with `10 ^ p ≤ num / den < 10 ^ (p + 1)`, for a positive ratio. -/
def decade (num den : Nat) : Int :=
  if den ≤ num then
    (Binary64.decimalLength (num / den) : Int) - 1
  else
    let p := Binary64.decimalLength (den / num) - 1
    if den ≤ num * Nat.pow 10 p then -(p : Int) else -(p + 1 : Int)

/-- The decade of the magnitude with this rank. -/
def decadeOfRank (rank : Nat) : Int :=
  decade ((interval rank).mid * quarterScale rank 0) (gridScale rank 0)

/-- Which of two equally near neighbours is taken. -/
inductive Tie where
  /-- The one whose last digit is even. -/
  | toEven
  /-- The larger one. -/
  | up
  deriving DecidableEq

/-- The multiple of `10 ^ k` in the interval of this rank that is nearest to the magnitude, given as
    its factor, if there is one. -/
def nearestOnGrid? (tie : Tie) (rank : Nat) (k : Int) : Option Nat :=
  let i := interval rank
  let a := quarterScale rank k
  let b := gridScale rank k
  let below := i.mid * a / b
  let lowFits := if i.closed then i.low * a ≤ below * b else i.low * a < below * b
  let highFits :=
    if i.closed then (below + 1) * b ≤ i.high * a else (below + 1) * b < i.high * a
  if lowFits then
    if highFits then
      -- both neighbours read back, so the nearer one is taken
      if 2 * (i.mid * a) < (2 * below + 1) * b then some below
      else if (2 * below + 1) * b < 2 * (i.mid * a) then some (below + 1)
      else match tie with
        | .toEven => some (below + below % 2)
        | .up => some (below + 1)
    else some below
  else if highFits then some (below + 1)
  else none

/-- Takes a zero off the end of the digits as long as there is one, at most `fuel` times. -/
def stripZeros : Nat → Decimal → Decimal
  | 0, d => d
  | fuel + 1, d =>
    if d.digits % 10 = 0 then stripZeros fuel ⟨d.digits / 10, d.exponent + 1⟩ else d

/-- The shortest decimal of the magnitude with this positive rank.  Seventeen digits always tell two
    numbers apart. -/
def shortest (tie : Tie) (rank : Nat) : Decimal :=
  let p := decadeOfRank rank
  let hit := (List.range 17).findSome? fun (n : Nat) =>
    -- a grid on which the number has `n + 1` digits
    let k := p - n
    (nearestOnGrid? tie rank k).map fun d => stripZeros 17 ⟨d, k⟩
  hit.getD ⟨0, 0⟩

end Decimal

end Reactors
