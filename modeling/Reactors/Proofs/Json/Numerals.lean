import Mathlib.Algebra.Order.Field.Rat
import Mathlib.Data.Nat.Cast.Order.Field
import Reactors.Json.Reader
import Reactors.Proofs.Json.Grammar

/-! # Numerals are read as what they denote

    A numeral ends where a text goes on with none of its characters, so the parts of it are found
    one after the other, and the rank nearest to them is the one that rounding arrives at.
-/

namespace Reactors.Json

open Reactors.Decimal (isDigit natOfDigits assemble)

/-! ## Digits -/

theorem natOfDigits_eq (ds : List Char) : natOfDigits ds = Nat.ofDigitChars 10 ds 0 := rfl

theorem Digits.natOfDigits_chars (ds : Digits) : natOfDigits ds.chars = ds.value := rfl

theorem Digits.isDigit_of_mem (ds : Digits) : ∀ c ∈ ds.chars, isDigit c = true := ds.digits

theorem natOfDigits_append (as bs : List Char) :
    natOfDigits (as ++ bs) = natOfDigits as * 10 ^ bs.length + natOfDigits bs := by
  simp only [natOfDigits_eq, Nat.ofDigitChars_append]
  rw [Nat.ofDigitChars_eq_ofDigitChars_zero, Nat.mul_comm]

namespace Digits
variable (ds : Digits) {rest : List Char} (hrest : ∀ c ∈ rest.head?, isDigit c = false)
include hrest

theorem takeWhile_append : (ds.chars ++ rest).takeWhile isDigit = ds.chars := by
  rw [List.takeWhile_append_of_pos ds.isDigit_of_mem]
  cases rest with
  | nil => simp
  | cons c rest => simp [hrest c rfl]

theorem dropWhile_append : (ds.chars ++ rest).dropWhile isDigit = rest := by
  rw [List.dropWhile_append_of_pos ds.isDigit_of_mem]
  cases rest with
  | nil => simp
  | cons c rest => simp [hrest c rfl]

end Digits

theorem Digits.isEmpty_chars (ds : Digits) : ds.chars.isEmpty = false :=
  List.isEmpty_eq_false_iff.mpr ds.nonempty

/-! ## The parts of a numeral -/

/-- Whether a text goes on with none of the characters of a numeral. -/
def Ends (rest : List Char) : Prop :=
  ∀ c ∈ rest.head?, isDigit c = false ∧ c ≠ '.' ∧ c ≠ 'e' ∧ c ≠ 'E'

namespace Numeral
variable (x : Numeral) {rest : List Char} (hrest : Ends rest)
include hrest

theorem exponent?_powerText :
    exponent? (x.powerText ++ rest) = some (x.power.map Power.value, rest) := by
  unfold powerText
  cases x.power with
  | none =>
    cases rest with
    | nil => rfl
    | cons c rest =>
      obtain ⟨_, _, he, hE⟩ := hrest c rfl
      simp [exponent?, he, hE]
  | some p =>
    have hdigit : ∀ c ∈ rest.head?, isDigit c = false := fun c hc => (hrest c hc).1
    -- the digits start with none of the signs
    have hsign : Decimal.splitSign (p.sign ++ p.digits.chars ++ rest) =
        (decide (p.sign = ['-']), p.digits.chars ++ rest) := by
      rcases p.sign_eq with h | h | h
      · obtain ⟨c, cs, hcs⟩ := List.exists_cons_of_ne_nil p.digits.nonempty
        have hc : isDigit c = true := p.digits.isDigit_of_mem c (by simp [hcs])
        have hminus : c ≠ '-' := by rintro rfl; simp [isDigit] at hc
        have hplus : c ≠ '+' := by rintro rfl; simp [isDigit] at hc
        rw [h, hcs]
        simp [Decimal.splitSign, hminus, hplus]
      · simp [h, Decimal.splitSign]
      · simp [h, Decimal.splitSign]
    simp only [Option.elim_some, Power.text, List.cons_append, exponent?, Option.map_some]
    rw [if_pos p.letter_eq, hsign]
    simp only [p.digits.takeWhile_append hdigit, p.digits.dropWhile_append hdigit,
      p.digits.isEmpty_chars, Power.value, Digits.natOfDigits_chars]
    simp

/-- Behind the fraction there is neither a digit nor a point. -/
theorem head?_powerText : ∀ c ∈ (x.powerText ++ rest).head?, isDigit c = false ∧ c ≠ '.' := by
  unfold powerText
  cases x.power with
  | none => exact fun c hc => ⟨(hrest c hc).1, (hrest c hc).2.1⟩
  | some p =>
    intro c hc
    obtain rfl : p.letter = c := by simpa [Power.text] using hc
    rcases p.letter_eq with h | h <;> rw [h] <;> decide

theorem fraction?_fractionText :
    fraction? (x.fractionText ++ (x.powerText ++ rest)) =
      some (x.fraction.map Digits.chars, x.powerText ++ rest) := by
  have htail := x.head?_powerText hrest
  generalize x.powerText ++ rest = tail at htail
  unfold fractionText
  cases x.fraction with
  | none =>
    cases tail with
    | nil => rfl
    | cons c tail =>
      have hpoint := (htail c rfl).2
      simp [fraction?, hpoint]
  | some ds =>
    have hdigit : ∀ c ∈ tail.head?, isDigit c = false := fun c hc => (htail c hc).1
    simp [fraction?, ds.takeWhile_append hdigit, ds.dropWhile_append hdigit, ds.nonempty]

/-- Behind the whole part there is no digit. -/
theorem head?_fractionText :
    ∀ c ∈ (x.fractionText ++ (x.powerText ++ rest)).head?, isDigit c = false := by
  have htail := x.head?_powerText hrest
  unfold fractionText
  cases x.fraction with
  | none => exact fun c hc => (htail c hc).1
  | some ds =>
    intro c hc
    obtain rfl : '.' = c := by simpa using hc
    rfl

end Numeral

/-! ## The number of a numeral -/

namespace Numeral

/-- The digits around the point make one number, in units of the last place. -/
theorem magnitude_eq (x : Numeral) :
    x.magnitude = natOfDigits (x.whole.chars ++ (x.fraction.map Digits.chars).getD []) *
      10 ^ ((x.power.map Power.value).getD 0 - ((x.fraction.map Digits.chars).getD []).length) := by
  have hten : (10 : ℚ) ≠ 0 := by norm_num
  unfold magnitude
  cases x.fraction with
  | none => cases x.power <;> simp [Digits.natOfDigits_chars]
  | some ds =>
    have hpower : x.power.elim 0 Power.value = (x.power.map Power.value).getD 0 := by
      cases x.power <;> rfl
    rw [hpower]
    simp only [Option.elim_some, Option.map_some, Option.getD_some, natOfDigits_append,
      zpow_sub₀ hten, zpow_natCast, Digits.natOfDigits_chars]
    push_cast
    field_simp

/-- A numeral without point and exponent is an integer, or too large for one. -/
theorem ofDigits_eq {x : Numeral} {n : Number} (h : x.Denotes n) (hfraction : x.fraction = none)
    (hpower : x.power = none) : Number.ofDigits x.negative x.whole.chars = n := by
  have hwhole := x.whole.natOfDigits_chars
  unfold Number.ofDigits
  simp only [hwhole, Nat.pow_eq]
  cases h with
  | @integer n hn =>
    obtain ⟨_, _, hlow, hhigh, hvalue⟩ := hn
    split
    · rename_i hnegative
      rw [if_pos hnegative] at hvalue
      rw [if_pos (by omega), hvalue.2]
    · rename_i hnegative
      rw [if_neg hnegative] at hvalue
      rw [if_pos (by omega), hvalue]
  | @nearest rank hrank hnot hrounds =>
    have hmagnitude : x.magnitude = x.whole.value * 10 ^ (0 : Int) := by
      simp [magnitude_eq, hfraction, hpower, Digits.natOfDigits_chars]
    rw [hmagnitude] at hrounds
    have hfloat := Binary64.ofDecimal_of_rounds hrounds hrank
    split
    · rename_i hnegative
      have hlarge : ¬ (0 < x.whole.value ∧ x.whole.value ≤ 2 ^ 63) := fun hsmall =>
        hnot (-x.whole.value) ⟨hfraction, hpower, by omega, by omega, by
          rw [if_pos hnegative]; exact ⟨by omega, rfl⟩⟩
      rw [if_neg hlarge, hfloat true]
      simp [hnegative]
    · rename_i hnegative
      have hlarge : ¬ x.whole.value < 2 ^ 64 := fun hsmall =>
        hnot x.whole.value ⟨hfraction, hpower, by omega, by omega, by rw [if_neg hnegative]⟩
      rw [if_neg hlarge, hfloat false]
      simp [hnegative]

/-- A numeral with a point or an exponent is a floating-point number. -/
theorem assemble_eq {x : Numeral} {n : Number} (h : x.Denotes n)
    (hfloat : ¬ (x.fraction = none ∧ x.power = none)) :
    Number.float (assemble x.negative x.whole.chars ((x.fraction.map Digits.chars).getD [])
      ((x.power.map Power.value).getD 0)) = n := by
  cases h with
  | integer hn => exact absurd ⟨hn.1, hn.2.1⟩ hfloat
  | @nearest rank hrank _ hrounds =>
    rw [magnitude_eq] at hrounds
    rw [assemble, Binary64.ofDecimal_of_rounds hrounds hrank]

theorem Denotes.isFinite {x : Numeral} {n : Number} (h : x.Denotes n) : n.isFinite = true := by
  cases h <;> rfl

/-- A numeral is read as the number that it denotes. -/
theorem numeral?_append {x : Numeral} {n : Number} (h : x.Denotes n) {rest : List Char}
    (hrest : Ends rest) : numeral? x.negative (x.unsignedText ++ rest) = some (n, rest) := by
  have htext : x.unsignedText ++ rest =
      x.whole.chars ++ (x.fractionText ++ (x.powerText ++ rest)) := by
    simp [unsignedText]
  have hdigit := x.head?_fractionText hrest
  have hlead : (!x.whole.chars.isEmpty &&
      (x.whole.chars.length = 1 || x.whole.chars.head? != some '0')) = true := by
    rw [x.whole.isEmpty_chars]
    rcases x.leading with h | h <;> simp [h]
  have hnumber : (if (x.fraction.map Digits.chars).isNone && (x.power.map Power.value).isNone
      then Number.ofDigits x.negative x.whole.chars
      else .float (assemble x.negative x.whole.chars ((x.fraction.map Digits.chars).getD [])
        ((x.power.map Power.value).getD 0))) = n := by
    by_cases hbare : x.fraction = none ∧ x.power = none
    · rw [← ofDigits_eq h hbare.1 hbare.2]
      simp [hbare]
    · rw [← assemble_eq h hbare, if_neg]
      simpa using hbare
  unfold numeral?
  rw [htext, x.whole.takeWhile_append hdigit, x.whole.dropWhile_append hdigit,
    x.fraction?_fractionText hrest]
  simp only [hlead, guard_true, Option.pure_def, Option.bind_eq_bind, Option.bind_some,
    x.exponent?_powerText hrest, hnumber, h.isFinite]

end Numeral

end Reactors.Json
