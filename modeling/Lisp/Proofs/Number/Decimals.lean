import Lisp.Number.Decimal
import Lisp.Proofs.Number.Nearest

/-!
# The double nearest to a decimal

A decimal can be written with more digits and a smaller exponent without a change
of its value, and so of the double nearest to it (`Decimal.pattern_mul_ten`); the
cut-offs beyond the range of the format see the same number of digits before the
point.  So trailing zeros can go (`Decimal.pattern_strip`), and the shortest
decimal that is found for a finite pattern reads back as that pattern
(`Decimal.pattern_shortest`): on a grid because that was tested, and otherwise
because the exact value is within range and is rounded to itself.
-/

namespace Lisp.Number

namespace Decimal

/-! ### Counting digits -/

/-- The number of digits is one more than the whole part of the logarithm. -/
theorem digitCount_eq_log (n : Nat) : digitCount n = Nat.log 10 n + 1 := by
  fun_induction digitCount n with
  | case1 n hsmall => rw [Nat.log_of_lt hsmall]
  | case2 n hsmall hlarge ih =>
      have hlog : 1 ≤ Nat.log 10 n := Nat.log_pos (by decide) (by omega)
      rw [ih, Nat.log_div_base]
      omega
  | case3 n hsmall hlarge ih =>
      have hlog : 16 ≤ Nat.log 10 n := Nat.le_log_of_pow_le (by decide) (by omega)
      have hdiv : Nat.log 10 (n / 10000000000000000) = Nat.log 10 n - 16 :=
        Nat.log_div_base_pow 10 n 16
      rw [ih, hdiv]
      omega

/-- One more digit. -/
theorem digitCount_mul_ten {n : Nat} (h : n ≠ 0) : digitCount (n * 10) = digitCount n + 1 := by
  rw [digitCount_eq_log, digitCount_eq_log, Nat.log_mul_base (by decide) h]

/-- A number below a power of ten has no more digits than its exponent. -/
theorem digitCount_le {n k : Nat} (hk : k ≠ 0) (h : n < 10 ^ k) : digitCount n ≤ k := by
  rw [digitCount_eq_log]
  exact Nat.log_lt_of_lt_pow' hk h

/-- A power of ten has more digits than its exponent. -/
theorem lt_digitCount {n k : Nat} (h : 10 ^ k ≤ n) : k < digitCount n := by
  have hlog : k ≤ Nat.log 10 n := Nat.le_log_of_pow_le (by decide) h
  rw [digitCount_eq_log]
  omega

/-! ### Decimals of the same value -/

/-- A decimal without whole zeros is a quotient by a power of ten. -/
theorem ratio_of_nonpos {d : Decimal} (h : d.exponent ≤ 0) :
    d.ratio = (d.digits, tenTo (-d.exponent).toNat) := by
  unfold ratio
  split
  · next hge =>
      have hzero : d.exponent = 0 := Int.le_antisymm h hge
      rw [hzero]
      show (d.digits * 1, 1) = (d.digits, 1)
      rw [Nat.mul_one]
  · rfl

/-- The double nearest to a decimal within the range of the format. -/
theorem nearest_ratio_mul_ten (n : Nat) (e : Int) :
    nearest (ratio ⟨n * 10, e⟩).1 (ratio ⟨n * 10, e⟩).2 =
      nearest (ratio ⟨n, e + 1⟩).1 (ratio ⟨n, e + 1⟩).2 := by
  by_cases he : 0 ≤ e
  · have hnext : 0 ≤ e + 1 := by omega
    have hpower : (e + 1).toNat = e.toNat + 1 := by omega
    unfold ratio
    simp only [he, hnext, if_true, hpower, tenTo]
    show nearest (n * 10 * 10 ^ e.toNat) 1 = nearest (n * 10 ^ (e.toNat + 1)) 1
    rw [Nat.pow_succ, Nat.mul_assoc, Nat.mul_comm 10]
  · obtain ⟨k, hk⟩ : ∃ k : Nat, e = -((k : Int) + 1) := ⟨(-e - 1).toNat, by omega⟩
    rw [ratio_of_nonpos (show e ≤ 0 by omega), ratio_of_nonpos (show e + 1 ≤ 0 by omega)]
    have hhere : (-e).toNat = k + 1 := by omega
    have hnext : (-(e + 1)).toNat = k := by omega
    simp only [hhere, hnext, tenTo]
    show nearest (n * 10) (10 ^ (k + 1)) = nearest n (10 ^ k)
    rw [Nat.pow_succ]
    exact nearest_mul_right n (Nat.pow_pos (by decide)) (by decide)

/-- One more zero and one less in the exponent. -/
theorem pattern_mul_ten (n : Nat) (e : Int) : pattern ⟨n * 10, e⟩ = pattern ⟨n, e + 1⟩ := by
  by_cases hzero : n = 0
  · unfold pattern
    simp [hzero]
  · have hprod : ¬ n * 10 = 0 := by omega
    have hsize : e + (digitCount (n * 10) : Int) = e + 1 + (digitCount n : Int) := by
      rw [digitCount_mul_ten hzero]
      push_cast
      omega
    have hnearest := nearest_ratio_mul_ten n e
    unfold pattern
    simp only [hsize, hzero, hprod]
    split
    · rfl
    · split
      · rfl
      · exact hnearest

/-- More zeros and as many less in the exponent. -/
theorem pattern_mul_ten_pow (n k : Nat) (e : Int) :
    pattern ⟨n * 10 ^ k, e⟩ = pattern ⟨n, e + k⟩ := by
  induction k generalizing e with
  | zero =>
      rw [Nat.pow_zero, Nat.mul_one]
      congr 2
      omega
  | succ k ih =>
      rw [Nat.pow_succ, ← Nat.mul_assoc, pattern_mul_ten, ih]
      congr 2
      push_cast
      omega

/-- Trailing zeros do not matter. -/
theorem pattern_strip (turns : Nat) (d : Decimal) : (strip turns d).pattern = d.pattern := by
  fun_induction strip turns d with
  | case1 d => rfl
  | case2 turns d hzeros ih =>
      have hten : d.digits / 10 * 10 = d.digits := by
        simp only [ne_eq, Bool.and_eq_true, decide_eq_true_eq] at hzeros
        omega
      rw [ih, ← pattern_mul_ten, hten]
  | case3 turns d hzeros => rfl

/-! ### The exact and the shortest decimal -/

/-- A power of five is positive. -/
theorem five_pow_pos (k : Nat) : 0 < Nat.pow 5 k :=
  Nat.pow_pos (by decide)

/-- A number of parts, each a power of two, as so many decimal places. -/
theorem nearest_tenTo (n k : Nat) : nearest (n * Nat.pow 5 k) (tenTo k) = nearest n (1 <<< k) := by
  have hten : tenTo k = 1 <<< k * Nat.pow 5 k := by
    rw [Nat.one_shiftLeft]
    exact Nat.mul_pow 2 5 k
  have htwo : 0 < 1 <<< k := by
    rw [Nat.one_shiftLeft]
    exact Nat.two_pow_pos k
  rw [hten]
  exact nearest_mul_right n htwo (five_pow_pos k)

/-- The value of a finite pattern other than zero, in grains. -/
theorem grains_bounds {p : Nat} (hpos : 0 < p) (hfinite : p < infinityPattern) :
    1 ≤ grains p ∧ grains p < Nat.pow 2 2098 := by
  have hfraction : p % fractionWeight < fractionWeight := Nat.mod_lt _ (by decide)
  have hexponent : p / fractionWeight ≤ 2046 := by
    unfold infinityPattern at hfinite
    unfold fractionWeight
    omega
  unfold grains
  dsimp only
  split
  · next hleast =>
      have hp : p % fractionWeight = p := by
        unfold fractionWeight at hleast ⊢
        omega
      refine ⟨by omega, Nat.lt_trans hfraction ?_⟩
      decide +kernel
  · rw [Nat.shiftLeft_eq]
    constructor
    · exact Nat.mul_pos (Nat.add_pos_left (by decide) _) (Nat.two_pow_pos _)
    · calc (fractionWeight + p % fractionWeight) * 2 ^ (p / fractionWeight - 1)
          < 2 * fractionWeight * 2 ^ (p / fractionWeight - 1) :=
            Nat.mul_lt_mul_of_pos_right (by omega) (Nat.two_pow_pos _)
        _ ≤ 2 * fractionWeight * 2 ^ 2045 :=
            Nat.mul_le_mul_left _ (Nat.pow_le_pow_right (by decide) (by omega))
        _ = Nat.pow 2 2098 := by decide +kernel

/-- The digits of a product, from bounds of its factors. -/
theorem digitCount_mul_bounds {n most five low high : Nat} (hleast : 1 ≤ n) (hmost : n < most)
    (hlow : 10 ^ low ≤ five) (hhigh : most * five ≤ 10 ^ high) (hdigits : high ≠ 0) :
    low < digitCount (n * five) ∧ digitCount (n * five) ≤ high := by
  have hfive : 0 < five := Nat.lt_of_lt_of_le (Nat.pow_pos (by decide)) hlow
  constructor
  · apply lt_digitCount
    calc 10 ^ low ≤ five := hlow
      _ ≤ n * five := Nat.le_mul_of_pos_left five hleast
  · apply digitCount_le hdigits
    calc n * five < most * five := Nat.mul_lt_mul_of_pos_right hmost hfive
      _ ≤ 10 ^ high := hhigh

/-- A number of parts, each a power of two, is rounded as it is when it is written out in
decimal places, if its bounds leave neither too few nor too many digits before the point
for the format. -/
theorem pattern_parts {n most five k : Nat} {e : Int} (low high : Nat) (hleast : 1 ≤ n)
    (hmost : n < most) (hfive : five = Nat.pow 5 k) (hexponent : e = -(k : Int))
    (hlow : 10 ^ low ≤ five) (hhigh : most * five ≤ 10 ^ high)
    (hmany : k ≤ low + 326) (hfew : 0 < high ∧ high ≤ k + 310) :
    pattern ⟨n * five, e⟩ = nearest n (1 <<< k) := by
  obtain ⟨hover, hunder⟩ := digitCount_mul_bounds hleast hmost hlow hhigh (by omega)
  subst hfive
  have hnonzero : ¬ n * Nat.pow 5 k = 0 := Nat.ne_of_gt (Nat.mul_pos hleast (five_pow_pos k))
  have hplaces : (-e).toNat = k := by omega
  unfold pattern
  rw [ratio_of_nonpos (show e ≤ 0 by omega)]
  dsimp only
  rw [if_neg, if_neg, hplaces]
  · exact nearest_tenTo n k
  · omega
  · rw [Bool.or_eq_true, decide_eq_true_eq, decide_eq_true_eq]
    rintro (hzero | hsmall)
    · exact hnonzero hzero
    · omega

/-- The exact value of a finite pattern reads back. -/
theorem pattern_exact {p : Nat} (hpos : 0 < p) (hfinite : p < infinityPattern) :
    (exact p).pattern = p := by
  obtain ⟨hleast, hmost⟩ := grains_bounds hpos hfinite
  unfold exact
  rw [pattern_strip, pattern_parts 748 1384 hleast hmost]
  · exact nearest_grains hpos hfinite
  · decide +kernel
  · rfl
  · decide +kernel
  · decide +kernel
  · decide
  · decide

/-- A decimal from a grid reads back, since that was tested. -/
theorem pattern_onGrid {p num den : Nat} {point : Int} {size : Nat} {d : Decimal}
    (h : onGrid p num den point size = some d) : d.pattern = p := by
  unfold onGrid at h
  dsimp only at h
  split at h
  · next hlow =>
      cases h
      simp only [Bool.and_eq_true, beq_iff_eq] at hlow
      exact hlow.1
  · split at h
    · next hhigh =>
        cases h
        exact beq_iff_eq.mp hhigh
    · cases h

/-- The shortest decimal of a finite pattern reads back. -/
theorem pattern_shortest {p : Nat} (hpos : 0 < p) (hfinite : p < infinityPattern) :
    (shortest p).pattern = p := by
  unfold shortest
  dsimp only
  split
  · next d hfound =>
      obtain ⟨k, -, hgrid⟩ := List.exists_of_findSome?_eq_some hfound
      rw [pattern_strip]
      exact pattern_onGrid hgrid
  · exact pattern_exact hpos hfinite

end Decimal

end Lisp.Number
