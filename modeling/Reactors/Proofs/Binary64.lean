import Mathlib.Algebra.Order.Field.Power
import Mathlib.Data.Nat.Digits.Defs
import Mathlib.Tactic.FieldSimp
import Mathlib.Tactic.Linarith
import Mathlib.Tactic.NormNum
import Mathlib.Tactic.Positivity
import Mathlib.Tactic.Ring
import Reactors.Binary64

/-! # Rounding is correct

    The magnitudes grow with their ranks, and between two neighbouring ones there is no other.  So a
    number has one nearest rank, ties going to the even one, and this is the rank that the
    arithmetic on natural numbers finds, be the number a ratio or a decimal one.
-/

namespace Reactors.Binary64

/-! ## Magnitudes -/

/-- The magnitude with a rank. -/
def magnitude (rank : Nat) : ℚ := significand rank * (2 : ℚ) ^ exponent rank

/-- The magnitudes are the multiples of a power of two, as far as there are 53 binary digits.  The
    end of one binade is the start of the next. -/
theorem magnitude_grid (n : Nat) {k : Nat} (hk : k ≤ 2 ^ 53) (hlow : n = 0 ∨ 2 ^ 52 ≤ k) :
    magnitude (n * 2 ^ 52 + k) = k * (2 : ℚ) ^ ((n : Int) - 1074) := by
  unfold magnitude significand exponent
  simp only [Nat.pow_eq]
  rcases Nat.lt_or_ge k (2 ^ 52) with hsmall | hlarge
  · -- only the lowest binade has smaller multiples
    obtain rfl : n = 0 := by omega
    rw [Nat.zero_mul, Nat.zero_add, if_pos hsmall, if_pos hsmall]
    simp
  · have hnot : ¬ n * 2 ^ 52 + k < 2 ^ 52 := by omega
    rw [if_neg hnot, if_neg hnot]
    rcases Nat.lt_or_ge k (2 ^ 53) with hlt | hge
    · have hdiv : (n * 2 ^ 52 + k) / 2 ^ 52 = n + 1 := by omega
      have hmod : 2 ^ 52 + (n * 2 ^ 52 + k) % 2 ^ 52 = k := by omega
      rw [hdiv, hmod]
      congr 2
      push_cast
      ring
    · obtain rfl : k = 2 ^ 53 := by omega
      have hdiv : (n * 2 ^ 52 + 2 ^ 53) / 2 ^ 52 = n + 2 := by omega
      have hmod : (n * 2 ^ 52 + 2 ^ 53) % 2 ^ 52 = 0 := by omega
      have hexp : ((n + 2 : Nat) : Int) - 1075 = (n : Int) - 1074 + 1 := by push_cast; ring
      rw [hdiv, hmod, hexp, zpow_add_one₀ (by norm_num)]
      push_cast
      ring

/-- Every rank is on one of these grids, not at its end. -/
theorem exists_grid (rank : Nat) :
    ∃ n k, rank = n * 2 ^ 52 + k ∧ k < 2 ^ 53 ∧ (n = 0 ∨ 2 ^ 52 ≤ k) := by
  rcases Nat.lt_or_ge rank (2 ^ 52) with hsmall | hlarge
  · exact ⟨0, rank, by omega, by omega, .inl rfl⟩
  · exact ⟨rank / 2 ^ 52 - 1, 2 ^ 52 + rank % 2 ^ 52, by omega, by omega, .inr (by omega)⟩

theorem magnitude_zero : magnitude 0 = 0 := by
  simp [magnitude, significand]

theorem magnitude_strictMono : StrictMono magnitude := by
  apply strictMono_nat_of_lt_succ
  intro rank
  obtain ⟨n, k, rfl, hk, hlow⟩ := exists_grid rank
  have hnext := magnitude_grid n (k := k + 1) (by omega) (by omega)
  rw [magnitude_grid n (by omega) hlow, Nat.add_assoc, hnext]
  have hpow : (0 : ℚ) < 2 ^ ((n : Int) - 1074) := by positivity
  push_cast
  linarith

/-- Every magnitude has finitely many decimal places: ten is a multiple of two. -/
theorem exists_decimal (rank : Nat) :
    ∃ digits places : Nat, magnitude rank = digits * (10 : ℚ) ^ (-(places : Int)) := by
  unfold magnitude
  rcases Int.le_total 0 (exponent rank) with he | he
  · obtain ⟨n, hn⟩ := Int.eq_ofNat_of_zero_le he
    refine ⟨significand rank * 2 ^ n, 0, ?_⟩
    rw [hn]
    simp
  · obtain ⟨n, hn⟩ := Int.eq_ofNat_of_zero_le (show 0 ≤ -exponent rank by omega)
    refine ⟨significand rank * 5 ^ n, n, ?_⟩
    have hten : (10 : ℚ) ^ n = 2 ^ n * 5 ^ n := by rw [← mul_pow]; norm_num
    rw [show exponent rank = -n by omega, zpow_neg, zpow_neg, zpow_natCast, zpow_natCast, hten]
    push_cast
    field_simp

/-! ## The nearest rank -/

/-- The rank of the magnitude nearest to `x`, the even one of two that are equally near.  The ranks
    past the finite ones go on as if there were no largest number. -/
structure Rounds (x : ℚ) (rank : Nat) : Prop where
  nearest : ∀ r, |x - magnitude rank| ≤ |x - magnitude r|
  tie : ∀ r, r ≠ rank → |x - magnitude r| = |x - magnitude rank| → Even rank

/-- A magnitude is nearest to itself. -/
theorem rounds_magnitude (rank : Nat) : Rounds (magnitude rank) rank where
  nearest r := by
    rw [sub_self, abs_zero]
    exact abs_nonneg _
  tie r hne heq := by
    rw [sub_self, abs_zero, abs_eq_zero, sub_eq_zero] at heq
    exact absurd (magnitude_strictMono.injective heq).symm hne

theorem Rounds.le {x : ℚ} {a b : Nat} (ha : Rounds x a) (hb : Rounds x b) : b ≤ a := by
  by_contra hnot
  have hlt := Nat.lt_of_not_le hnot
  have heq := le_antisymm (ha.nearest b) (hb.nearest a)
  obtain ⟨i, rfl⟩ := ha.tie b (Nat.ne_of_gt hlt) heq.symm
  obtain ⟨j, rfl⟩ := hb.tie (i + i) (Nat.ne_of_lt hlt) heq
  -- both are even, so there is one between them, and it is nearer
  have hlow := magnitude_strictMono (show i + i < i + i + 1 by omega)
  have hhigh := magnitude_strictMono (show i + i + 1 < j + j by omega)
  have hnear := ha.nearest (i + i + 1)
  rcases abs_cases (x - magnitude (i + i)) with ⟨h₁, _⟩ | ⟨h₁, _⟩ <;>
    rcases abs_cases (x - magnitude (j + j)) with ⟨h₂, _⟩ | ⟨h₂, _⟩ <;>
    rcases abs_cases (x - magnitude (i + i + 1)) with ⟨h₃, _⟩ | ⟨h₃, _⟩ <;>
    linarith

/-- There is one nearest rank. -/
theorem Rounds.eq {x : ℚ} {a b : Nat} (ha : Rounds x a) (hb : Rounds x b) : a = b :=
  Nat.le_antisymm (hb.le ha) (ha.le hb)

section between
variable {x : ℚ} {r : Nat} (hlow : magnitude r ≤ x) (hhigh : x < magnitude (r + 1))
include hlow hhigh

/-- Of the ranks below a number the last one is nearest, and of those above it the first one. -/
theorem dist_of_between (q : Nat) :
    (q ≤ r ∧ x - magnitude r ≤ |x - magnitude q| ∧ (|x - magnitude q| = x - magnitude r → q = r)) ∨
      (r < q ∧ magnitude (r + 1) - x ≤ |x - magnitude q| ∧
        (|x - magnitude q| = magnitude (r + 1) - x → q = r + 1)) := by
  rcases Nat.lt_or_ge r q with hq | hq
  · right
    have hle := magnitude_strictMono.monotone (show r + 1 ≤ q from hq)
    rw [abs_of_neg (by linarith)]
    refine ⟨hq, by linarith, fun heq => ?_⟩
    exact magnitude_strictMono.injective (by linarith)
  · left
    have hle := magnitude_strictMono.monotone hq
    rw [abs_of_nonneg (by linarith)]
    refine ⟨hq, by linarith, fun heq => ?_⟩
    exact magnitude_strictMono.injective (by linarith)

theorem rounds_down (hnear : x - magnitude r ≤ magnitude (r + 1) - x)
    (htie : x - magnitude r = magnitude (r + 1) - x → Even r) : Rounds x r where
  nearest q := by
    rw [abs_of_nonneg (by linarith)]
    rcases dist_of_between hlow hhigh q with ⟨_, h, _⟩ | ⟨_, h, _⟩ <;> linarith
  tie q hne heq := by
    rw [abs_of_nonneg (show 0 ≤ x - magnitude r by linarith)] at heq
    rcases dist_of_between hlow hhigh q with ⟨_, _, h⟩ | ⟨_, h, _⟩
    · exact absurd (h heq) hne
    · exact htie (by linarith)

theorem rounds_up (hnear : magnitude (r + 1) - x ≤ x - magnitude r)
    (htie : x - magnitude r = magnitude (r + 1) - x → Even (r + 1)) : Rounds x (r + 1) where
  nearest q := by
    rw [abs_of_neg (show x - magnitude (r + 1) < 0 by linarith)]
    rcases dist_of_between hlow hhigh q with ⟨_, h, _⟩ | ⟨_, h, _⟩ <;> linarith
  tie q hne heq := by
    rw [abs_of_neg (show x - magnitude (r + 1) < 0 by linarith)] at heq
    rcases dist_of_between hlow hhigh q with ⟨_, h, _⟩ | ⟨_, _, h⟩
    · exact htie (by linarith)
    · exact absurd (h (by linarith)) hne

end between

/-- Every binade starts at an even rank. -/
theorem even_base (n : Nat) : Even (n * 2 ^ 52) :=
  (Nat.even_pow.mpr ⟨even_two, by norm_num⟩).mul_left n

section grid
variable {n k : Nat} (hk : k < 2 ^ 53) (hlow : n = 0 ∨ 2 ^ 52 ≤ k) {f : ℚ}
include hk hlow

/-- How far a number on a grid is from the two ranks around it. -/
theorem grid_dist :
    (k + f) * 2 ^ ((n : Int) - 1074) - magnitude (n * 2 ^ 52 + k) = f * 2 ^ ((n : Int) - 1074) ∧
      magnitude (n * 2 ^ 52 + k + 1) - (k + f) * 2 ^ ((n : Int) - 1074) =
        (1 - f) * 2 ^ ((n : Int) - 1074) := by
  have hnext := magnitude_grid n (k := k + 1) (by omega) (by omega)
  rw [magnitude_grid n (by omega) hlow, Nat.add_assoc, hnext]
  push_cast
  constructor <;> ring

variable (hf : 0 ≤ f) (hf' : f < 1)
include hf hf'

theorem rounds_grid_down (hhalf : f ≤ 1 / 2) (htie : f = 1 / 2 → Even k) :
    Rounds ((k + f) * 2 ^ ((n : Int) - 1074)) (n * 2 ^ 52 + k) := by
  obtain ⟨hdown, hup⟩ := grid_dist hk hlow (f := f)
  have hpow : (0 : ℚ) < 2 ^ ((n : Int) - 1074) := by positivity
  have hbelow : 0 ≤ f * 2 ^ ((n : Int) - 1074) := by positivity
  have habove : 0 < (1 - f) * 2 ^ ((n : Int) - 1074) := mul_pos (by linarith) hpow
  apply rounds_down (by linarith) (by linarith)
  · rw [hdown, hup]
    gcongr
    linarith
  · intro heq
    rw [hdown, hup, mul_left_inj' hpow.ne'] at heq
    exact (even_base n).add (htie (by linarith))

theorem rounds_grid_up (hhalf : 1 / 2 ≤ f) (htie : f = 1 / 2 → Even (k + 1)) :
    Rounds ((k + f) * 2 ^ ((n : Int) - 1074)) (n * 2 ^ 52 + (k + 1)) := by
  obtain ⟨hdown, hup⟩ := grid_dist hk hlow (f := f)
  have hpow : (0 : ℚ) < 2 ^ ((n : Int) - 1074) := by positivity
  have hbelow : 0 ≤ f * 2 ^ ((n : Int) - 1074) := mul_nonneg hf hpow.le
  have habove : 0 < (1 - f) * 2 ^ ((n : Int) - 1074) := mul_pos (by linarith) hpow
  rw [← Nat.add_assoc]
  apply rounds_up (by linarith) (by linarith)
  · rw [hdown, hup]
    gcongr
    linarith
  · intro heq
    rw [hdown, hup, mul_left_inj' hpow.ne'] at heq
    rw [Nat.add_assoc]
    exact (even_base n).add (htie (by linarith))

end grid

/-! ## The nearest rank of a ratio -/

section ratio
variable {num den : Nat}

/-- A number in units of a power of two. -/
theorem scaled_eq (e : Int) (hden : 0 < den) :
    (scaledNum num e : ℚ) / scaledDen den e * 2 ^ e = num / den := by
  have hden' : (den : ℚ) ≠ 0 := by positivity
  unfold scaledNum scaledDen
  simp only [Nat.pow_eq]
  rcases Int.le_total 0 e with he | he
  · obtain ⟨n, rfl⟩ := Int.eq_ofNat_of_zero_le he
    simp
    field_simp
  · obtain ⟨n, hn⟩ := Int.eq_ofNat_of_zero_le (show 0 ≤ -e by omega)
    obtain rfl : e = -n := by omega
    simp
    field_simp

theorem scaledDen_pos (e : Int) (hden : 0 < den) : 0 < scaledDen den e := by
  unfold scaledDen
  rw [Nat.pow_eq]
  positivity

/-- How a number in units of a power of two compares with a natural number. -/
theorem scaled_lt_iff {e : Int} (hden : 0 < den) {k : Nat} :
    scaledNum num e / scaledDen den e < k ↔ (num / den : ℚ) < k * 2 ^ e := by
  have hpos := scaledDen_pos e hden
  have hpos' : (0 : ℚ) < scaledDen den e := by exact_mod_cast hpos
  have hpow : (0 : ℚ) < 2 ^ e := by positivity
  rw [Nat.div_lt_iff_lt_mul hpos, ← scaled_eq e hden, mul_lt_mul_iff_left₀ hpow,
    div_lt_iff₀ hpos']
  exact_mod_cast Iff.rfl

theorem log2_bounds {n : Nat} (hn : 0 < n) :
    (2 : ℚ) ^ (n.log2 : Int) ≤ n ∧ (n : ℚ) < 2 ^ ((n.log2 : Int) + 1) := by
  have hlow := Nat.log2_self_le (Nat.ne_of_gt hn)
  have hhigh := Nat.lt_log2_self (n := n)
  constructor
  · exact_mod_cast hlow
  · exact_mod_cast hhigh

/-- The lengths of the two numbers leave 53 or 54 binary digits before the point. -/
theorem log2_ratio_bounds (hnum : 0 < num) (hden : 0 < den) {e : Int}
    (he : e = (num.log2 : Int) - den.log2 - 53) :
    2 ^ 52 * 2 ^ e ≤ (num / den : ℚ) ∧ (num / den : ℚ) < 2 ^ 54 * 2 ^ e := by
  obtain ⟨hnum₁, hnum₂⟩ := log2_bounds hnum
  obtain ⟨hden₁, hden₂⟩ := log2_bounds hden
  have hpos : (0 : ℚ) < den := by exact_mod_cast hden
  have hpow : (0 : ℚ) < 2 ^ e := by positivity
  constructor
  · have hsplit : (2 : ℚ) ^ (num.log2 : Int) = 2 ^ 52 * 2 ^ e * 2 ^ ((den.log2 : Int) + 1) := by
      rw [show (num.log2 : Int) = 52 + e + (den.log2 + 1) by omega, zpow_add₀ two_ne_zero,
        zpow_add₀ two_ne_zero]
      norm_num
    rw [le_div_iff₀ hpos]
    calc 2 ^ 52 * 2 ^ e * (den : ℚ) ≤ 2 ^ 52 * 2 ^ e * 2 ^ ((den.log2 : Int) + 1) := by gcongr
      _ = 2 ^ (num.log2 : Int) := hsplit.symm
      _ ≤ num := hnum₁
  · have hsplit : (2 : ℚ) ^ ((num.log2 : Int) + 1) = 2 ^ 54 * 2 ^ e * 2 ^ (den.log2 : Int) := by
      rw [show (num.log2 : Int) + 1 = 54 + e + den.log2 by omega, zpow_add₀ two_ne_zero,
        zpow_add₀ two_ne_zero]
      norm_num
    rw [div_lt_iff₀ hpos]
    calc (num : ℚ) < 2 ^ ((num.log2 : Int) + 1) := hnum₂
      _ = 2 ^ 54 * 2 ^ e * 2 ^ (den.log2 : Int) := hsplit
      _ ≤ 2 ^ 54 * 2 ^ e * den := by gcongr

/-- The units leave 53 binary digits before the point, or fewer if they are the smallest ones. -/
theorem unitExponent_spec (hnum : 0 < num) (hden : 0 < den) :
    -1074 ≤ unitExponent num den ∧ (num / den : ℚ) < 2 ^ 53 * 2 ^ unitExponent num den ∧
      (unitExponent num den = -1074 ∨ 2 ^ 52 * 2 ^ unitExponent num den ≤ (num / den : ℚ)) := by
  unfold unitExponent
  simp only [Nat.pow_eq]
  generalize he : (num.log2 : Int) - den.log2 - 53 = e
  obtain ⟨hlow, hhigh⟩ := log2_ratio_bounds hnum hden he.symm
  -- one unit more where there are 54 digits
  obtain ⟨e', he', hlow', hhigh'⟩ : ∃ e', (if 2 ^ 53 ≤ scaledNum num e / scaledDen den e
      then e + 1 else e) = e' ∧ 2 ^ 52 * 2 ^ e' ≤ (num / den : ℚ) ∧
      (num / den : ℚ) < 2 ^ 53 * 2 ^ e' := by
    have hiff : scaledNum num e / scaledDen den e < 2 ^ 53 ↔ (num / den : ℚ) < 2 ^ 53 * 2 ^ e := by
      have hcast : scaledNum num e / scaledDen den e < 2 ^ 53 ↔
          (num / den : ℚ) < (2 ^ 53 : Nat) * 2 ^ e := scaled_lt_iff hden
      exact_mod_cast hcast
    by_cases hmore : 2 ^ 53 ≤ scaledNum num e / scaledDen den e
    · rw [← not_lt, hiff, not_lt] at hmore
      refine ⟨e + 1, if_pos ?_, ?_, ?_⟩
      · rwa [← not_lt, hiff, not_lt]
      · rw [zpow_add_one₀ two_ne_zero]
        linarith
      · rw [zpow_add_one₀ two_ne_zero]
        linarith
    · exact ⟨e, if_neg hmore, hlow, hiff.mp (not_le.mp hmore)⟩
  rw [he']
  rcases Int.le_total e' (-1074) with hle | hge
  · have hmono : (2 : ℚ) ^ e' ≤ 2 ^ (-1074 : Int) := zpow_le_zpow_right₀ one_le_two hle
    rw [max_eq_right hle]
    refine ⟨le_rfl, ?_, .inl rfl⟩
    calc (num / den : ℚ) < 2 ^ 53 * 2 ^ e' := hhigh'
      _ ≤ 2 ^ 53 * 2 ^ (-1074 : Int) := by gcongr
  · rw [max_eq_left hge]
    exact ⟨hge, hhigh', .inr hlow'⟩

/-- Rounding to an integer goes to one of the two around, whichever is nearer. -/
theorem roundHalfEven_cases (num den : Nat) :
    (roundHalfEven num den = num / den ∧ 2 * (num % den) ≤ den ∧
        (2 * (num % den) = den → Even (num / den))) ∨
      (roundHalfEven num den = num / den + 1 ∧ den ≤ 2 * (num % den) ∧
        (2 * (num % den) = den → Even (num / den + 1))) := by
  unfold roundHalfEven
  simp only
  split
  · left
    exact ⟨rfl, by omega, by omega⟩
  · split
    · right
      exact ⟨rfl, by omega, by omega⟩
    · rcases Nat.even_or_odd (num / den) with heven | hodd
      · left
        rw [Nat.even_iff.mp heven]
        exact ⟨rfl, by omega, fun _ => heven⟩
      · right
        rw [Nat.odd_iff.mp hodd]
        exact ⟨rfl, by omega, fun _ => hodd.add_one⟩

/-- The rank of a positive ratio is the nearest one. -/
theorem nearestRank_rounds (hnum : 0 < num) (hden : 0 < den) :
    Rounds (num / den) (nearestRank num den) := by
  obtain ⟨hmin, hhigh, hlow⟩ := unitExponent_spec hnum hden
  unfold nearestRank
  simp only [Nat.pow_eq]
  generalize unitExponent num den = e at hmin hhigh hlow
  obtain ⟨n, hn⟩ := Int.eq_ofNat_of_zero_le (show 0 ≤ e + 1074 by omega)
  obtain rfl : e = (n : Int) - 1074 := by omega
  rw [show ((n : Int) - 1074 + 1074).toNat = n by omega]
  generalize hN : scaledNum num ((n : Int) - 1074) = N
  generalize hD : scaledDen den ((n : Int) - 1074) = D
  have hpow : (0 : ℚ) < 2 ^ ((n : Int) - 1074) := by positivity
  have hDpos : 0 < D := hD ▸ scaledDen_pos _ hden
  have hDpos' : (0 : ℚ) < D := by exact_mod_cast hDpos
  have hx : (num / den : ℚ) = N / D * 2 ^ ((n : Int) - 1074) := by
    rw [← hN, ← hD, scaled_eq _ hden]
  -- the digits before the point are a place on the grid
  have hq : N / D < 2 ^ 53 := by
    rw [← hN, ← hD, scaled_lt_iff hden]
    exact_mod_cast hhigh
  have hq' : n = 0 ∨ 2 ^ 52 ≤ N / D := by
    rcases hlow with hzero | hlow
    · exact .inl (by omega)
    · right
      rw [← not_lt, ← hN, ← hD, scaled_lt_iff hden, not_lt]
      exact_mod_cast hlow
  have hrem : N % D < D := Nat.mod_lt _ hDpos
  have hrem' : ((N % D : Nat) : ℚ) / D < 1 := by
    rw [div_lt_one hDpos']
    exact_mod_cast hrem
  have hdigits : (N : ℚ) / D = (N / D : Nat) + (N % D : Nat) / D := by
    have hsum : ((D * (N / D) + N % D : Nat) : ℚ) = N := by rw [Nat.div_add_mod]
    rw [← hsum]
    push_cast
    field_simp
  rw [hx, hdigits]
  rcases roundHalfEven_cases N D with ⟨hround, hhalf, htie⟩ | ⟨hround, hhalf, htie⟩
  · rw [hround]
    refine rounds_grid_down hq hq' (by positivity) hrem' ?_ fun heq => htie ?_
    · rw [div_le_div_iff₀ hDpos' two_pos]
      exact_mod_cast (by omega : N % D * 2 ≤ 1 * D)
    · rw [div_eq_div_iff hDpos'.ne' two_ne_zero] at heq
      have hnat : N % D * 2 = 1 * D := by exact_mod_cast heq
      omega
  · rw [hround]
    refine rounds_grid_up hq hq' (by positivity) hrem' ?_ fun heq => htie ?_
    · rw [div_le_div_iff₀ two_pos hDpos']
      exact_mod_cast (by omega : 1 * D ≤ N % D * 2)
    · rw [div_eq_div_iff hDpos'.ne' two_ne_zero] at heq
      have hnat : N % D * 2 = 1 * D := by exact_mod_cast heq
      omega

/-- The rank that is nearest to a ratio is found. -/
theorem ofRatio_of_rounds {rank : Nat} (hden : 0 < den) (h : Rounds (num / den) rank)
    (hrank : rank < rankLimit) (negative : Bool) :
    ofRatio negative num den = .finite negative ⟨rank, hrank⟩ := by
  unfold ofRatio ofRank
  by_cases hnum : num = 0
  · have hzero : rank = 0 := by
      rw [hnum, Nat.cast_zero, zero_div, ← magnitude_zero] at h
      exact h.eq (rounds_magnitude 0)
    subst hzero
    rw [if_pos hnum, dif_pos hrank]
  · have heq := (nearestRank_rounds (Nat.pos_of_ne_zero hnum) hden).eq h
    subst heq
    rw [if_neg hnum, dif_pos hrank]

end ratio

/-! ## Decimal numbers and integers -/

/-- The length of a number in decimal digits bounds it. -/
theorem decimalLength_bounds {n : Nat} (hn : n ≠ 0) :
    (10 : ℚ) ^ ((decimalLength n : Int) - 1) ≤ n ∧ (n : ℚ) < 10 ^ (decimalLength n : Int) := by
  have hpos : 0 < decimalLength n := Nat.length_toDigits_pos
  obtain ⟨l, hl⟩ := Nat.exists_eq_add_of_lt hpos
  rw [Nat.zero_add] at hl
  constructor
  · rw [hl, Nat.cast_add, Nat.cast_one, add_sub_cancel_right, zpow_natCast]
    rcases Nat.eq_zero_or_pos l with rfl | hlpos
    · exact_mod_cast Nat.pos_of_ne_zero hn
    · have hlong : ¬ (Nat.toDigits 10 n).length ≤ l := by
        show ¬ decimalLength n ≤ l
        omega
      rw [Nat.length_toDigits_le_iff (by norm_num) hlpos, not_lt] at hlong
      exact_mod_cast hlong
  · rw [zpow_natCast]
    exact_mod_cast (Nat.length_toDigits_le_iff (by norm_num) hpos).mp (Nat.le_refl _)

theorem two_pow_le_ten_pow : (2 : ℚ) ^ 1197 ≤ 10 ^ 399 :=
  calc (2 : ℚ) ^ 1197 = (2 ^ 9) ^ 133 := by rw [← pow_mul]
    _ ≤ (10 ^ 3) ^ 133 := by gcongr; norm_num
    _ = 10 ^ 399 := by rw [← pow_mul]

/-- What is very small is nearest to zero. -/
theorem rounds_zero {x : ℚ} (hx : 0 ≤ x) (hsmall : x < 10 ^ (-400 : Int)) : Rounds x 0 := by
  have hone : magnitude 1 = 2 ^ (-1074 : Int) := by
    simpa using magnitude_grid 0 (k := 1) (by norm_num) (.inl rfl)
  have hbound : 2 * (10 : ℚ) ^ (-400 : Int) < 2 ^ (-1074 : Int) := by
    have hpow : (2 : ℚ) ^ 1075 < 10 ^ 400 :=
      calc (2 : ℚ) ^ 1075 ≤ 2 ^ 1197 := pow_le_pow_right₀ one_le_two (by norm_num)
        _ ≤ 10 ^ 399 := two_pow_le_ten_pow
        _ < 10 ^ 400 := pow_lt_pow_right₀ (by norm_num) (by norm_num)
    have hsplit : (2 : ℚ) ^ 1075 = 2 ^ 1074 * 2 := pow_succ _ _
    rw [hsplit] at hpow
    rw [zpow_neg, zpow_neg, zpow_ofNat, zpow_ofNat, ← div_eq_mul_inv, ← one_div,
      div_lt_div_iff₀ (by positivity) (by positivity)]
    rwa [one_mul, mul_comm]
  apply rounds_down
  · rwa [magnitude_zero]
  · rw [Nat.zero_add, hone]
    linarith
  · rw [magnitude_zero, Nat.zero_add, hone]
    linarith
  · exact fun _ => Even.zero

/-- The magnitude behind the finite ones. -/
theorem magnitude_rankLimit : magnitude rankLimit = 2 ^ 1024 := by
  have hgrid := magnitude_grid 2045 (k := 2 ^ 53) le_rfl (.inr (by norm_num))
  have hrank : rankLimit = 2045 * 2 ^ 52 + 2 ^ 53 := by
    unfold rankLimit
    rw [Nat.pow_eq]
    norm_num
  rw [hrank, hgrid, Nat.cast_pow, Nat.cast_two, ← zpow_natCast (2 : ℚ) 53, ← zpow_add₀ two_ne_zero,
    ← zpow_natCast]
  congr 1

/-- What is very large is nearest to none of the finite numbers. -/
theorem Rounds.rankLimit_le {x : ℚ} {rank : Nat} (h : Rounds x rank) (hlarge : 10 ^ 400 ≤ x) :
    rankLimit ≤ rank := by
  by_contra hlt
  have hmono := magnitude_strictMono (not_le.mp hlt)
  have hbound : (2 : ℚ) ^ 1024 ≤ 10 ^ 400 :=
    calc (2 : ℚ) ^ 1024 ≤ 2 ^ 1197 := pow_le_pow_right₀ one_le_two (by norm_num)
      _ ≤ 10 ^ 399 := two_pow_le_ten_pow
      _ ≤ 10 ^ 400 := pow_le_pow_right₀ (by norm_num) (by norm_num)
  have hnear := h.nearest rankLimit
  rw [magnitude_rankLimit] at hmono hnear
  have hle := hbound.trans hlarge
  rw [abs_of_nonneg (sub_nonneg.mpr (hmono.le.trans hle)),
    abs_of_nonneg (sub_nonneg.mpr hle), sub_le_sub_iff_left] at hnear
  exact absurd hmono (not_lt.mpr hnear)

/-- The rank that is nearest to a decimal number is found. -/
theorem ofDecimal_of_rounds {digits : Nat} {exponent : Int} {rank : Nat}
    (h : Rounds (digits * 10 ^ exponent) rank) (hrank : rank < rankLimit) (negative : Bool) :
    ofDecimal negative digits exponent = .finite negative ⟨rank, hrank⟩ := by
  have hzero : ∀ hr : Rounds (digits * 10 ^ exponent) 0, ofRank negative 0 =
      .finite negative ⟨rank, hrank⟩ := by
    intro hr
    have heq := hr.eq h
    subst heq
    rw [ofRank, dif_pos hrank]
  unfold ofDecimal
  simp only [Nat.pow_eq]
  by_cases hdigits : digits = 0
  · rw [if_pos (.inl hdigits)]
    apply hzero
    rw [hdigits, Nat.cast_zero, zero_mul, ← magnitude_zero]
    exact rounds_magnitude 0
  · obtain ⟨hlow, hhigh⟩ := decimalLength_bounds hdigits
    have hpow : (0 : ℚ) < 10 ^ exponent := by positivity
    by_cases hsmall : exponent + decimalLength digits < -400
    · rw [if_pos (.inr hsmall)]
      apply hzero (rounds_zero (by positivity) _)
      calc (digits : ℚ) * 10 ^ exponent < 10 ^ (decimalLength digits : Int) * 10 ^ exponent := by
            gcongr
        _ = 10 ^ (exponent + decimalLength digits) := by
            rw [← zpow_add₀ (by norm_num), add_comm]
        _ ≤ 10 ^ (-400 : Int) := zpow_le_zpow_right₀ (by norm_num) hsmall.le
    · rw [if_neg (by simp [hdigits, hsmall])]
      by_cases hlarge : 400 < exponent + decimalLength digits
      · -- no finite number would be nearest
        have hx : 10 ^ 400 ≤ (digits : ℚ) * 10 ^ exponent :=
          calc (10 : ℚ) ^ 400 = 10 ^ (400 : Int) := (zpow_ofNat _ _).symm
            _ ≤ 10 ^ (decimalLength digits - 1 + exponent) :=
                zpow_le_zpow_right₀ (by norm_num) (by omega)
            _ = 10 ^ ((decimalLength digits : Int) - 1) * 10 ^ exponent :=
                zpow_add₀ (by norm_num) _ _
            _ ≤ digits * 10 ^ exponent := by gcongr
        exact absurd hrank (not_lt.mpr (h.rankLimit_le hx))
      · rw [if_neg hlarge]
        refine ofRatio_of_rounds (by positivity) ?_ hrank _
        have hratio : ((digits * 10 ^ exponent.toNat : Nat) : ℚ) / (10 ^ (-exponent).toNat : Nat) =
            digits * 10 ^ exponent := by
          rcases Int.le_total 0 exponent with he | he
          · obtain ⟨n, rfl⟩ := Int.eq_ofNat_of_zero_le he
            simp
          · obtain ⟨n, hn⟩ := Int.eq_ofNat_of_zero_le (show 0 ≤ -exponent by omega)
            obtain rfl : exponent = -n := by omega
            simp [div_eq_mul_inv]
        rwa [hratio]

/-- The rank that is nearest to an integer is found. -/
theorem ofInt_of_rounds {n : Int} {rank : Nat} (h : Rounds n.natAbs rank)
    (hrank : rank < rankLimit) : ofInt n = .finite (n < 0) ⟨rank, hrank⟩ := by
  refine ofRatio_of_rounds Nat.one_pos ?_ hrank _
  rwa [Nat.cast_one, div_one]

end Reactors.Binary64
