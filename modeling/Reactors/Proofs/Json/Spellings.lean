import Reactors.Proofs.Json.Grammar

/-! # What can be written

    Every string, every integer of 64 bits and every finite floating-point number has a text, and
    so has what is built of them.  A floating-point number is a fraction whose denominator is a
    power of two, so digits and a power of ten can spell it without a loss.
-/

namespace Reactors.Json

instance : Inhabited Reading := ⟨.null⟩

/-- Whether there is a text that says this. -/
def Spellable (r : Reading) : Prop := ∃ cs, Spells r cs

/-! ## Numbers -/

theorem digitChar_ne_zero {d : Nat} (hd : d < 10) (hpos : 0 < d) : Nat.digitChar d ≠ '0' := by
  revert d
  decide

/-- No zero stands in front of the other digits of a number. -/
theorem leading_toDigits (n : Nat) :
    (Nat.toDigits 10 n).length = 1 ∨ (Nat.toDigits 10 n).head? ≠ some '0' := by
  induction n using Nat.strongRecOn with
  | _ n ih =>
    rcases Nat.lt_or_ge n 10 with hlt | hge
    · left
      rw [Nat.toDigits_of_lt_base hlt]
      rfl
    · right
      -- the first digit is that of the number without its last digit
      rw [Nat.toDigits_of_base_le (by norm_num) hge,
        List.head?_append_of_ne_nil _ Nat.toDigits_ne_nil]
      rcases Nat.lt_or_ge (n / 10) 10 with hlt | hge'
      · rw [Nat.toDigits_of_lt_base hlt]
        simpa using digitChar_ne_zero hlt (by omega)
      · rcases ih (n / 10) (by omega) with hone | hhead
        · have hlong := (Nat.length_toDigits_le_iff (n := n / 10) (b := 10) (k := 1) (by norm_num)
            (by norm_num)).mp hone.le
          omega
        · exact hhead

/-- The digits of a number. -/
def Digits.ofNat (n : Nat) : Digits where
  chars := Nat.toDigits 10 n
  nonempty := Nat.toDigits_ne_nil
  digits _ hc := Nat.isDigit_of_mem_toDigits (by norm_num) (by norm_num) hc

theorem Digits.value_ofNat (n : Nat) : (Digits.ofNat n).value = n :=
  Nat.ofDigitChars_toDigits (by norm_num) (by norm_num)

/-- An integer without point and exponent. -/
def Numeral.ofInt (n : Int) : Numeral where
  negative := n < 0
  whole := Digits.ofNat n.natAbs
  leading := leading_toDigits _
  fraction := none
  power := none

theorem spells_int {n : Int} (hlow : -2 ^ 63 ≤ n) (hhigh : n < 2 ^ 64) :
    Spells (.number (.int n)) (Numeral.ofInt n).text := by
  refine .number (.integer ⟨rfl, rfl, hlow, hhigh, ?_⟩)
  simp only [Numeral.ofInt, Digits.value_ofNat, decide_eq_true_eq]
  split <;> omega

theorem spellable_int {n : Int} (hlow : -2 ^ 63 ≤ n) (hhigh : n < 2 ^ 64) :
    Spellable (.number (.int n)) := ⟨_, spells_int hlow hhigh⟩

/-- Digits with a negative exponent. -/
def Numeral.scientific (negative : Bool) (digits places : Nat) : Numeral where
  negative := negative
  whole := Digits.ofNat digits
  leading := leading_toDigits _
  fraction := none
  power := some
    { letter := 'e'
      letter_eq := .inl rfl
      sign := ['-']
      sign_eq := .inr (.inr rfl)
      digits := Digits.ofNat places }

theorem Numeral.magnitude_scientific (negative : Bool) (digits places : Nat) :
    (Numeral.scientific negative digits places).magnitude =
      digits * (10 : ℚ) ^ (-(places : Int)) := by
  simp [Numeral.magnitude, Numeral.scientific, Power.value, Digits.value_ofNat]

theorem spellable_finite (negative : Bool) (rank : Fin Binary64.rankLimit) :
    Spellable (.number (.float (.finite negative rank))) := by
  obtain ⟨digits, places, heq⟩ := Binary64.exists_decimal rank
  refine ⟨(Numeral.scientific negative digits places).text, .number (.nearest rank.isLt ?_ ?_)⟩
  · rintro n ⟨_, hpower, _⟩
    cases hpower
  · rw [Numeral.magnitude_scientific, ← heq]
    exact Binary64.rounds_magnitude rank

/-! ## Strings -/

/-- A control character can be written with its code. -/
theorem hexUnit_of_lt {n : Nat} (h : n < 0x20) :
    HexUnit '0' '0' (Nat.digitChar (n / 16)) (Nat.digitChar (n % 16)) n :=
  ⟨0, 0, n / 16, n % 16, ⟨by norm_num, .inl rfl⟩, ⟨by norm_num, .inl rfl⟩, ⟨by omega, .inl rfl⟩,
    ⟨by omega, .inl rfl⟩, by omega⟩

theorem exists_escaped (s : List Char) : ∃ t, Escaped s t := by
  induction s with
  | nil => exact ⟨[], .nil⟩
  | cons c s ih =>
    obtain ⟨t, ht⟩ := ih
    by_cases hquote : c = '"'
    · exact ⟨_, .letter (l := '"') (by simp [shortEscapes, hquote]) ht⟩
    by_cases hslash : c = '\\'
    · exact ⟨_, .letter (l := '\\') (by simp [shortEscapes, hslash]) ht⟩
    rcases Nat.lt_or_ge c.toNat 0x20 with hcontrol | hcode
    · exact ⟨_, .unit (hexUnit_of_lt hcontrol) ht⟩
    · exact ⟨_, .plain hquote hslash hcode ht⟩

/-- A string of plain characters is written as it is. -/
theorem stringText_plain {s : String}
    (h : ∀ c ∈ s.toList, c ≠ '"' ∧ c ≠ '\\' ∧ 0x20 ≤ c.toNat) :
    StringText s ('"' :: (s.toList ++ ['"'])) := by
  refine ⟨s.toList, ?_, rfl⟩
  generalize s.toList = cs at h
  induction cs with
  | nil => exact .nil
  | cons c cs ih =>
    obtain ⟨hquote, hslash, hcode⟩ := h c (by simp)
    exact .plain hquote hslash hcode (ih fun c hc => h c (by simp [hc]))

theorem exists_stringText (s : String) : ∃ cs, StringText s cs := by
  obtain ⟨body, hbody⟩ := exists_escaped s.toList
  exact ⟨_, body, hbody, rfl⟩

theorem spellable_string (s : String) : Spellable (.string s) := by
  obtain ⟨cs, hcs⟩ := exists_stringText s
  exact ⟨cs, .string hcs⟩

/-! ## Arrays and objects -/

/-- A comma in front of all items but the first. -/
def separator (first : Bool) : List Char := if first then [] else [',']

theorem gap_separator (first : Bool) : Gap first (separator first) := by
  cases first with
  | false => exact @Gap.further [] [] blank_nil blank_nil
  | true => exact .first blank_nil

/-- An item without blanks. -/
theorem SpellsItems.compact (first : Bool) {cs rest : List Char} {head : Reading} {tail : Items}
    (hcs : Spells head cs) (hrest : SpellsItems false tail rest) :
    SpellsItems first (.cons head tail) (separator first ++ (cs ++ rest)) :=
  .cons (gap_separator first) hcs hrest

/-- A member without blanks. -/
theorem SpellsMembers.compact (first : Bool) {name cs rest : List Char} {key : String}
    {value : Reading} {tail : Members} (hname : StringText key name) (hcs : Spells value cs)
    (hrest : SpellsMembers false tail rest) :
    SpellsMembers first (.cons key value tail)
      (separator first ++ (name ++ ':' :: (cs ++ rest))) :=
  .cons (gap_separator first) hname blank_nil blank_nil hcs hrest

theorem exists_spellsItems {rs : List Reading} (h : ∀ r ∈ rs, Spellable r) (first : Bool) :
    ∃ cs, SpellsItems first (.ofList rs) cs := by
  induction rs generalizing first with
  | nil => exact ⟨_, .closed blank_nil⟩
  | cons r rs ih =>
    obtain ⟨cs, hcs⟩ := h r (by simp)
    obtain ⟨rest, hrest⟩ := ih (fun r hr => h r (by simp [hr])) false
    exact ⟨_, .compact first hcs hrest⟩

theorem exists_spellsMembers {entries : List (String × Reading)}
    (h : ∀ e ∈ entries, Spellable e.2) (first : Bool) :
    ∃ cs, SpellsMembers first (.ofList entries) cs := by
  induction entries generalizing first with
  | nil => exact ⟨_, .closed blank_nil⟩
  | cons e entries ih =>
    obtain ⟨name, hname⟩ := exists_stringText e.1
    obtain ⟨cs, hcs⟩ := h e (by simp)
    obtain ⟨rest, hrest⟩ := ih (fun e he => h e (by simp [he])) false
    exact ⟨_, .compact first hname hcs hrest⟩

theorem spellable_array {rs : List Reading} (h : ∀ r ∈ rs, Spellable r) :
    Spellable (.array (.ofList rs)) := by
  obtain ⟨cs, hcs⟩ := exists_spellsItems h true
  exact ⟨_, .array hcs⟩

theorem spellable_object {entries : List (String × Reading)} (h : ∀ e ∈ entries, Spellable e.2) :
    Spellable (.object (.ofList entries)) := by
  obtain ⟨cs, hcs⟩ := exists_spellsMembers h true
  exact ⟨_, .object hcs⟩

/-- What can be written is a document of its own. -/
theorem Spellable.exists_document {r : Reading} (h : Spellable r) : ∃ text, Document r text := by
  obtain ⟨cs, hcs⟩ := h
  exact ⟨String.ofList cs, [], cs, [], blank_nil, hcs, blank_nil, by simp⟩

end Reactors.Json
