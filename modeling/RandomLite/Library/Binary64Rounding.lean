-- SUMMARY: Error bounds of binary64 rounding, and the integers it leaves alone.
import Mathlib.Algebra.Order.Field.Power
import Mathlib.Tactic.FieldSimp
import Mathlib.Tactic.Linarith
import Mathlib.Tactic.Positivity
import RandomLite.Library.Binary64

/-!
# Binary64 rounding

A rounded value is within half a unit in the last place of the exact one, which for
the numbers a program counts with is a relative error of `2 ^ -53`. Integers below
`2 ^ 53` are representable and stay as they are.
-/

namespace DoubleArith

/-! ## Nearest integer -/

theorem abs_roundHalfEven_sub_le (q : ℚ) : |(roundHalfEven q : ℚ) - q| ≤ 1 / 2 := by
  have hfloor := Int.floor_le q
  have hceil := Int.lt_floor_add_one q
  rw [abs_le]
  unfold roundHalfEven
  split
  · constructor <;> linarith
  · split
    · push_cast
      constructor <;> linarith
    · split
      · constructor <;> linarith
      · push_cast
        constructor <;> linarith

@[simp] theorem roundHalfEven_intCast (z : ℤ) : roundHalfEven z = z := by
  simp [roundHalfEven]

theorem roundHalfEven_nonneg {q : ℚ} (hq : 0 ≤ q) : 0 ≤ roundHalfEven q := by
  have hfloor := Int.floor_nonneg.mpr hq
  unfold roundHalfEven
  split
  · exact hfloor
  · split
    · omega
    · split <;> omega

/-! ## Exponents -/

/-- The exponent brackets the number between neighbouring powers of two. -/
theorem binaryExponent_spec {q : ℚ} (hq : 0 < q) :
    (2 : ℚ) ^ binaryExponent q ≤ q ∧ q < 2 ^ (binaryExponent q + 1) := by
  have hnum : q.num.natAbs ≠ 0 := by
    have := Rat.num_pos.mpr hq
    omega
  have hfrac : q = (q.num.natAbs : ℚ) / q.den := by
    have hcast : ((q.num.natAbs : ℤ) : ℚ) = (q.num : ℚ) := by
      rw [Int.natAbs_of_nonneg (Rat.num_nonneg.mpr hq.le)]
    rw [← Int.cast_natCast, hcast, Rat.num_div_den]
  have hden : (0 : ℚ) < q.den := by exact_mod_cast q.den_pos
  have hnumLow : (2 : ℚ) ^ (Nat.log2 q.num.natAbs : ℤ) ≤ q.num.natAbs := by
    exact_mod_cast Nat.log2_self_le hnum
  have hnumHigh : (q.num.natAbs : ℚ) < 2 ^ ((Nat.log2 q.num.natAbs : ℤ) + 1) := by
    exact_mod_cast Nat.lt_log2_self
  have hdenLow : (2 : ℚ) ^ (Nat.log2 q.den : ℤ) ≤ q.den := by
    exact_mod_cast Nat.log2_self_le q.den_nz
  have hdenHigh : (q.den : ℚ) < 2 ^ ((Nat.log2 q.den : ℤ) + 1) := by
    exact_mod_cast Nat.lt_log2_self
  -- The quotient of the two leading bits is off by less than one binary place.
  have hupper : q < 2 ^ ((Nat.log2 q.num.natAbs : ℤ) - Nat.log2 q.den + 1) := by
    refine hfrac.trans_lt ((div_lt_iff₀ hden).mpr ?_)
    calc (q.num.natAbs : ℚ) < 2 ^ ((Nat.log2 q.num.natAbs : ℤ) + 1) := hnumHigh
      _ = 2 ^ ((Nat.log2 q.num.natAbs : ℤ) - Nat.log2 q.den + 1) * 2 ^ (Nat.log2 q.den : ℤ) := by
          rw [← zpow_add₀ two_ne_zero]
          congr 1
          ring
      _ ≤ _ := mul_le_mul_of_nonneg_left hdenLow (by positivity)
  have hlower : 2 ^ ((Nat.log2 q.num.natAbs : ℤ) - Nat.log2 q.den - 1) ≤ q := by
    refine ((le_div_iff₀ hden).mpr ?_).trans_eq hfrac.symm
    calc _ ≤ (2 : ℚ) ^ ((Nat.log2 q.num.natAbs : ℤ) - Nat.log2 q.den - 1) *
          2 ^ ((Nat.log2 q.den : ℤ) + 1) := mul_le_mul_of_nonneg_left hdenHigh.le (by positivity)
      _ = 2 ^ (Nat.log2 q.num.natAbs : ℤ) := by
          rw [← zpow_add₀ two_ne_zero]
          congr 1
          ring
      _ ≤ q.num.natAbs := hnumLow
  simp only [binaryExponent]
  split
  · rename_i hk
    exact ⟨hk, hupper⟩
  · rename_i hk
    refine ⟨hlower, ?_⟩
    rw [sub_add_cancel]
    exact not_le.mp hk

theorem binary64Ulp_pos (q : ℚ) : 0 < binary64Ulp q := by
  unfold binary64Ulp
  positivity

/-- A unit in the last place is a 52nd binary place of the number, or tiny. -/
theorem binary64Ulp_le {q : ℚ} (hq : 0 < q) : binary64Ulp q ≤ (q + 1) / 2 ^ 52 := by
  have hspec := (binaryExponent_spec hq).1
  have hsplit (e : ℤ) : (2 : ℚ) ^ (e - 52) = 2 ^ e / 2 ^ 52 := by
    rw [zpow_sub₀ two_ne_zero]
    norm_num
  rw [binary64Ulp, abs_of_pos hq, hsplit]
  apply div_le_div_of_nonneg_right _ (by positivity)
  rcases le_total (binaryExponent q) (-1022) with h | h
  · rw [max_eq_right h]
    have htiny : (2 : ℚ) ^ (-1022 : ℤ) ≤ 1 := zpow_le_one_of_nonpos₀ one_le_two (by norm_num)
    linarith
  · rw [max_eq_left h]
    linarith

/-! ## Rounding -/

/-- Half a unit in the last place. -/
theorem abs_roundBinary64_sub_le {q : ℚ} (hq : 0 ≤ q) :
    |roundBinary64 q - q| ≤ (q + 1) / 2 ^ 53 := by
  rcases hq.eq_or_lt with rfl | hpos
  · simp [roundBinary64]
  have hulp := binary64Ulp_pos q
  have hround := abs_roundHalfEven_sub_le (q / binary64Ulp q)
  rw [roundBinary64, if_neg hpos.ne']
  calc |(roundHalfEven (q / binary64Ulp q) : ℚ) * binary64Ulp q - q|
      = |(roundHalfEven (q / binary64Ulp q) : ℚ) - q / binary64Ulp q| * binary64Ulp q := by
        rw [← abs_of_pos hulp, ← abs_mul, abs_of_pos hulp, sub_mul, div_mul_cancel₀ _ hulp.ne']
    _ ≤ 1 / 2 * binary64Ulp q := mul_le_mul_of_nonneg_right hround hulp.le
    _ ≤ 1 / 2 * ((q + 1) / 2 ^ 52) := mul_le_mul_of_nonneg_left (binary64Ulp_le hpos) (by norm_num)
    _ = (q + 1) / 2 ^ 53 := by ring

theorem roundBinary64_le {q : ℚ} (hq : 0 ≤ q) : roundBinary64 q ≤ q + (q + 1) / 2 ^ 53 := by
  have h := (abs_le.mp (abs_roundBinary64_sub_le hq)).2
  linarith

theorem roundBinary64_nonneg {q : ℚ} (hq : 0 ≤ q) : 0 ≤ roundBinary64 q := by
  unfold roundBinary64
  split
  · exact le_refl 0
  · have hulp := (binary64Ulp_pos q).le
    have hint := roundHalfEven_nonneg (div_nonneg hq hulp)
    exact mul_nonneg (by exact_mod_cast hint) hulp

/-- Whole units in the last place are representable. -/
theorem roundBinary64_of_eq_mul_ulp {q : ℚ} {z : ℤ} (h : q = z * binary64Ulp q) :
    roundBinary64 q = q := by
  unfold roundBinary64
  split
  · rename_i hzero
    exact hzero.symm
  · have hz : q / binary64Ulp q = z := by
      rw [div_eq_iff (binary64Ulp_pos q).ne']
      exact h
    rw [hz, roundHalfEven_intCast]
    exact h.symm

/-- Integers of at most 53 bits are representable. -/
theorem roundBinary64_natCast {n : Nat} (h : n < 2 ^ 53) : roundBinary64 n = n := by
  rcases Nat.eq_zero_or_pos n with rfl | hpos
  · simp [roundBinary64]
  have hq : (0 : ℚ) < n := by exact_mod_cast hpos
  have hspec := binaryExponent_spec hq
  -- The exponent is between 0 and 52, so the unit is one over a power of two.
  have hhigh : binaryExponent n ≤ 52 := by
    by_contra hgt
    have hpow : (2 : ℚ) ^ (53 : ℤ) ≤ 2 ^ binaryExponent (n : ℚ) :=
      zpow_le_zpow_right₀ one_le_two (by omega)
    have hlt : (n : ℚ) < 2 ^ (53 : ℤ) := by exact_mod_cast h
    linarith [hspec.1]
  have hlow : 0 ≤ binaryExponent n := by
    by_contra hlt
    have hpow : (2 : ℚ) ^ (binaryExponent (n : ℚ) + 1) ≤ 1 :=
      zpow_le_one_of_nonpos₀ one_le_two (by omega)
    have hone : (1 : ℚ) ≤ n := by exact_mod_cast hpos
    linarith [hspec.2]
  obtain ⟨k, hk⟩ := Int.eq_ofNat_of_zero_le (show 0 ≤ 52 - binaryExponent (n : ℚ) by omega)
  apply roundBinary64_of_eq_mul_ulp (z := (n : ℤ) * 2 ^ k)
  have hexp : Max.max (binaryExponent (n : ℚ)) (-1022) - 52 = -(k : ℤ) := by
    rw [max_eq_left (by omega)]
    omega
  unfold binary64Ulp
  rw [abs_of_pos hq, hexp, zpow_neg, zpow_natCast]
  push_cast
  field_simp

end DoubleArith
