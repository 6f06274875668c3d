import Lisp.Number.Binary64
import Mathlib.Algebra.Order.Field.Power
import Mathlib.Data.Int.Log
import Mathlib.Data.Rat.Floor
import Mathlib.Tactic.Positivity

/-!
# The nearest double

The double nearest to a ratio depends on the value of the ratio only
(`nearest_mul_right`), and the double nearest to the exact value of a finite
pattern is that pattern (`nearest_grains`).

Both need to know that `binaryExponent` is the whole part of the binary logarithm
of the ratio: the guess from the sizes of the two numbers is either right or one
too large.
-/

namespace Lisp.Number

/-! ### Rounding -/

/-- A common factor does not matter to a rounded quotient. -/
theorem roundToEven_mul_right (num den k : Nat) (hk : 0 < k) :
    roundToEven (num * k) (den * k) = roundToEven num den := by
  have hbelow : 2 * (num % den) * k < den * k ↔ 2 * (num % den) < den := Nat.mul_lt_mul_right hk
  have habove : den * k < 2 * (num % den) * k ↔ den < 2 * (num % den) := Nat.mul_lt_mul_right hk
  unfold roundToEven
  rw [Nat.mul_div_mul_right num den hk, Nat.mul_mod_mul_right, ← Nat.mul_assoc]
  simp only [hbelow, habove]

/-- A whole quotient is not rounded. -/
theorem roundToEven_mul_self (n den : Nat) (hden : 0 < den) : roundToEven (n * den) den = n := by
  unfold roundToEven
  rw [Nat.mul_div_cancel n hden, Nat.mul_mod_left]
  exact if_pos hden

/-! ### The binary exponent of a ratio -/

/-- Comparing a ratio with a power of two, without a fraction. -/
theorem shiftLeft_le_shiftLeft_iff (num den : Nat) (hden : 0 < den) (t : Int) :
    den <<< t.toNat ≤ num <<< (-t).toNat ↔ (2 : ℚ) ^ t ≤ num / den := by
  have hden' : (0 : ℚ) < den := Nat.cast_pos.mpr hden
  rw [Nat.shiftLeft_eq, Nat.shiftLeft_eq, le_div_iff₀ hden']
  cases t with
  | ofNat n =>
      have hneg : (-(Int.ofNat n)).toNat = 0 := by simp
      rw [hneg, Nat.pow_zero, Nat.mul_one]
      simp only [Int.ofNat_eq_natCast, Int.toNat_natCast, zpow_natCast]
      rw [← Nat.cast_le (α := ℚ)]
      push_cast
      rw [mul_comm]
  | negSucc n =>
      have hneg : (-(Int.negSucc n)).toNat = n + 1 := rfl
      have hpos : (Int.negSucc n).toNat = 0 := rfl
      rw [hneg, hpos, Nat.pow_zero, Nat.mul_one, zpow_negSucc, ← Nat.cast_le (α := ℚ)]
      push_cast
      rw [inv_mul_le_iff₀ (by positivity), mul_comm]

/-- The sizes of two numbers bound the binary logarithm of their ratio. -/
theorem log_ratio_bounds {num den : Nat} (hnum : 0 < num) (hden : 0 < den) :
    (Nat.log2 num : Int) - Nat.log2 den - 1 ≤ Int.log 2 ((num : ℚ) / den) ∧
      Int.log 2 ((num : ℚ) / den) ≤ (Nat.log2 num : Int) - Nat.log2 den := by
  have hratio : (0 : ℚ) < num / den := by positivity
  have hden' : (0 : ℚ) < den := by positivity
  have hnumLow : (2 : ℚ) ^ Nat.log2 num ≤ num := by
    exact_mod_cast Nat.log2_self_le (Nat.ne_of_gt hnum)
  have hnumHigh : (num : ℚ) < 2 ^ (Nat.log2 num + 1) := by
    exact_mod_cast Nat.lt_log2_self
  have hdenLow : (2 : ℚ) ^ Nat.log2 den ≤ den := by
    exact_mod_cast Nat.log2_self_le (Nat.ne_of_gt hden)
  have hdenHigh : (den : ℚ) < 2 ^ (Nat.log2 den + 1) := by
    exact_mod_cast Nat.lt_log2_self
  have htwo : (2 : ℚ) ≠ 0 := two_ne_zero
  constructor
  · rw [← Int.zpow_le_iff_le_log one_lt_two hratio, le_div_iff₀ hden']
    calc ((2 : ℕ) : ℚ) ^ ((Nat.log2 num : Int) - Nat.log2 den - 1) * den
        ≤ (2 : ℚ) ^ ((Nat.log2 num : Int) - Nat.log2 den - 1) * 2 ^ (Nat.log2 den + 1) := by
          exact mul_le_mul_of_nonneg_left hdenHigh.le (by positivity)
      _ = (2 : ℚ) ^ Nat.log2 num := by
          rw [← zpow_natCast, ← zpow_add₀ htwo, ← zpow_natCast]
          congr 1
          push_cast
          omega
      _ ≤ num := hnumLow
  · rw [← Int.lt_add_one_iff, ← Int.lt_zpow_iff_log_lt one_lt_two hratio, div_lt_iff₀ hden']
    calc (num : ℚ) < 2 ^ (Nat.log2 num + 1) := hnumHigh
      _ = (2 : ℚ) ^ ((Nat.log2 num : Int) - Nat.log2 den + 1) * 2 ^ Nat.log2 den := by
          rw [← zpow_natCast, ← zpow_natCast, ← zpow_add₀ htwo]
          congr 1
          push_cast
          omega
      _ ≤ ((2 : ℕ) : ℚ) ^ ((Nat.log2 num : Int) - Nat.log2 den + 1) * den := by
          exact mul_le_mul_of_nonneg_left hdenLow (by positivity)

/-- The binary exponent is the whole part of the binary logarithm. -/
theorem binaryExponent_eq_log {num den : Nat} (hnum : 0 < num) (hden : 0 < den) :
    binaryExponent num den = Int.log 2 ((num : ℚ) / den) := by
  have hratio : (0 : ℚ) < num / den := by positivity
  obtain ⟨hlow, hhigh⟩ := log_ratio_bounds hnum hden
  have hcompare := shiftLeft_le_shiftLeft_iff num den hden (Nat.log2 num - Nat.log2 den)
  unfold binaryExponent
  dsimp only
  split
  · next hle =>
      have hge := (Int.zpow_le_iff_le_log one_lt_two hratio).mp (hcompare.mp hle)
      omega
  · next hlt =>
      have hne := mt (Int.zpow_le_iff_le_log one_lt_two hratio).mpr (mt hcompare.mpr hlt)
      omega

/-- A common factor does not matter to the binary exponent of a ratio. -/
theorem binaryExponent_mul_right {num den k : Nat} (hnum : 0 < num) (hden : 0 < den)
    (hk : 0 < k) : binaryExponent (num * k) (den * k) = binaryExponent num den := by
  have hk' : (k : ℚ) ≠ 0 := Nat.cast_ne_zero.mpr (Nat.ne_of_gt hk)
  rw [binaryExponent_eq_log (Nat.mul_pos hnum hk) (Nat.mul_pos hden hk),
    binaryExponent_eq_log hnum hden]
  push_cast
  rw [mul_div_mul_right _ _ hk']

/-- The binary exponent of a number of parts, each a power of two. -/
theorem binaryExponent_one_shiftLeft {num : Nat} (hnum : 0 < num) (parts : Nat) :
    binaryExponent num (1 <<< parts) = (Nat.log2 num : Int) - parts := by
  have hparts : 0 < 2 ^ parts := Nat.two_pow_pos parts
  have hlog : Nat.log2 (2 ^ parts) = parts := Nat.log2_two_pow
  unfold binaryExponent
  dsimp only
  rw [Nat.one_shiftLeft, hlog]
  refine if_pos ((shiftLeft_le_shiftLeft_iff num (2 ^ parts) hparts _).mpr ?_)
  have hlow : (2 : ℚ) ^ Nat.log2 num ≤ num := by
    exact_mod_cast Nat.log2_self_le (Nat.ne_of_gt hnum)
  rw [zpow_sub₀ two_ne_zero, zpow_natCast, zpow_natCast]
  push_cast
  exact div_le_div_of_nonneg_right hlow (by positivity)

/-! ### The nearest pattern -/

/-- A common factor does not matter to the nearest double. -/
theorem nearest_mul_right (num : Nat) {den k : Nat} (hden : 0 < den) (hk : 0 < k) :
    nearest (num * k) (den * k) = nearest num den := by
  unfold nearest
  by_cases hzero : num = 0
  · rw [if_pos hzero, if_pos (by rw [hzero, Nat.zero_mul])]
  · have hnum : 0 < num := Nat.pos_of_ne_zero hzero
    have hprod : ¬ num * k = 0 := Nat.ne_of_gt (Nat.mul_pos hnum hk)
    rw [if_neg hzero, if_neg hprod, binaryExponent_mul_right hnum hden hk]
    simp only [Nat.shiftLeft_eq]
    rw [Nat.mul_right_comm num, Nat.mul_right_comm den, roundToEven_mul_right _ _ k hk]

/-- The double nearest to a whole number of its own steps. -/
theorem nearest_of_steps {num : Nat} (step mantissa : Nat) (hnum : 0 < num)
    (hstep : ((Nat.log2 num : Int) - (1074 : Nat) + 1022).toNat = step)
    (hmantissa : num = mantissa <<< step)
    (hfinite : step * fractionWeight + mantissa ≤ infinityPattern) :
    nearest num (1 <<< 1074) = step * fractionWeight + mantissa := by
  have hexponent := binaryExponent_one_shiftLeft hnum 1074
  have hden : ∀ grain, 0 < 1 <<< grain <<< step := by
    intro grain
    rw [Nat.shiftLeft_eq, Nat.shiftLeft_eq]
    exact Nat.mul_pos (Nat.mul_pos one_pos (Nat.two_pow_pos _)) (Nat.two_pow_pos _)
  have hround : roundToEven (num <<< 1074) (1 <<< 1074 <<< step) = mantissa := by
    have hwhole : num <<< 1074 = mantissa * 1 <<< 1074 <<< step := by
      rw [hmantissa]
      simp only [Nat.shiftLeft_eq, Nat.one_mul]
      rw [Nat.mul_right_comm, Nat.mul_assoc]
    rw [hwhole]
    exact roundToEven_mul_self mantissa _ (hden 1074)
  unfold nearest
  rw [if_neg (Nat.ne_of_gt hnum), hexponent]
  dsimp only
  rw [hstep, hround]
  exact Nat.min_eq_left hfinite

/-- The size of a normal number in grains. -/
theorem log2_normal {fraction : Nat} (h : fraction < fractionWeight) (shift : Nat) :
    Nat.log2 ((fractionWeight + fraction) <<< shift) = 52 + shift := by
  have hpos : 0 < 2 ^ shift := Nat.two_pow_pos shift
  have hmantissa : fractionWeight + fraction ≠ 0 := by
    unfold fractionWeight
    omega
  rw [Nat.shiftLeft_eq, Nat.log2_eq_iff (Nat.mul_ne_zero hmantissa (Nat.ne_of_gt hpos))]
  unfold fractionWeight at h ⊢
  rw [Nat.pow_succ, Nat.pow_add]
  constructor
  · exact Nat.mul_le_mul_right _ (by omega)
  · rw [Nat.mul_right_comm]
    exact Nat.mul_lt_mul_of_pos_right (by omega) hpos

/-- The double nearest to the exact value of a finite pattern is that pattern. -/
theorem nearest_grains {pattern : Nat} (hpos : 0 < pattern) (hfinite : pattern < infinityPattern) :
    nearest (grains pattern) (1 <<< 1074) = pattern := by
  have hparts : pattern / fractionWeight * fractionWeight + pattern % fractionWeight = pattern :=
    Nat.div_add_mod' pattern fractionWeight
  have hfraction : pattern % fractionWeight < fractionWeight := Nat.mod_lt _ (by decide)
  unfold grains
  dsimp only
  split
  · next hleast =>
      -- Below the normal range a step is a grain.
      rw [hleast, Nat.zero_mul, Nat.zero_add] at hparts
      rw [hparts] at hfraction ⊢
      have hlog : Nat.log2 pattern < 52 := (Nat.log2_lt (Nat.ne_of_gt hpos)).mpr hfraction
      rw [nearest_of_steps 0 pattern hpos (by omega) rfl (by omega)]
      omega
  · next hnormal =>
      -- A normal number is its mantissa in steps of its own exponent.
      obtain ⟨shift, hshift⟩ := Nat.exists_eq_succ_of_ne_zero hnormal
      have hlog := log2_normal hfraction shift
      have hgrains : 0 < (fractionWeight + pattern % fractionWeight) <<< shift := by
        rw [Nat.shiftLeft_eq]
        exact Nat.mul_pos (Nat.add_pos_left (by decide) _) (Nat.two_pow_pos shift)
      have hsum :
          shift * fractionWeight + (fractionWeight + pattern % fractionWeight) = pattern := by
        rw [hshift, Nat.succ_mul] at hparts
        omega
      rw [hshift]
      show nearest ((fractionWeight + pattern % fractionWeight) <<< shift) (1 <<< 1074) = pattern
      rw [nearest_of_steps shift _ hgrains (by rw [hlog]; omega) rfl (by omega)]
      exact hsum

end Lisp.Number
