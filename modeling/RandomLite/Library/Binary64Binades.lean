-- SUMMARY: Binary64 rounding inside a known binade, and of ratios of natural numbers.
import RandomLite.Library.Binary64Rounding

/-!
# Binades

Between two neighbouring powers of two the binary64 numbers are evenly spaced, so
rounding there is rounding to an integer of the spacing. For a ratio of natural numbers
that integer is found by one division and a look at the remainder.
-/

namespace DoubleArith

/-! ## One binade -/

theorem binaryExponent_eq {q : ℚ} {e : ℤ} (hlow : (2 : ℚ) ^ e ≤ q) (hhigh : q < 2 ^ (e + 1)) :
    binaryExponent q = e := by
  have hq : 0 < q := lt_of_lt_of_le (by positivity) hlow
  obtain ⟨hlow', hhigh'⟩ := binaryExponent_spec hq
  have hle : e < binaryExponent q + 1 :=
    (zpow_lt_zpow_iff_right₀ one_lt_two).mp (hlow.trans_lt hhigh')
  have hge : binaryExponent q < e + 1 :=
    (zpow_lt_zpow_iff_right₀ one_lt_two).mp (hlow'.trans_lt hhigh)
  omega

/-- In the binade of `2 ^ e` rounding is to a multiple of `2 ^ (e - 52)`. -/
theorem roundBinary64_of_binade {q : ℚ} {e : ℤ} (he : -1022 ≤ e) (hlow : (2 : ℚ) ^ e ≤ q)
    (hhigh : q < 2 ^ (e + 1)) :
    roundBinary64 q = roundHalfEven (q / 2 ^ (e - 52)) * 2 ^ (e - 52) := by
  have hq : 0 < q := lt_of_lt_of_le (by positivity) hlow
  have hulp : binary64Ulp q = 2 ^ (e - 52) := by
    unfold binary64Ulp
    rw [abs_of_pos hq, binaryExponent_eq hlow hhigh, max_eq_left he]
  rw [roundBinary64, if_neg hq.ne', hulp]

/-! ## Ratios -/

/-- The natural number nearest to `n / d`, the even one of two equally near. -/
@[irreducible] def nearestEven (n d : Nat) : Nat :=
  if 2 * (n % d) < d then n / d
  else if d < 2 * (n % d) then n / d + 1
  else if n / d % 2 = 0 then n / d else n / d + 1

theorem div_eq_of_between {n d z : Nat} (hlow : d * z ≤ n) (hhigh : n < d * z + d) : n / d = z := by
  refine Nat.div_eq_of_lt_le ?_ ?_
  · rwa [Nat.mul_comm]
  · rwa [Nat.succ_mul, Nat.mul_comm]

/-- A number less than half a unit away is the nearest one. -/
theorem nearestEven_of_lt {n d z : Nat} (hlow : 2 * (d * z) < 2 * n + d)
    (hhigh : 2 * n < 2 * (d * z) + d) : nearestEven n d = z := by
  have hsplit := Nat.div_add_mod n d
  unfold nearestEven
  rcases Nat.lt_or_ge n (d * z) with hbelow | habove
  · -- The number is above: the quotient is one less, and the remainder over half.
    obtain ⟨k, rfl⟩ := Nat.exists_eq_succ_of_ne_zero (show z ≠ 0 by rintro rfl; omega)
    rw [Nat.mul_succ d k] at hlow hbelow
    have hquot : n / d = k := div_eq_of_between (by omega) hbelow
    rw [hquot] at hsplit
    rw [hquot, if_neg (by omega), if_pos (by omega)]
  · have hquot : n / d = z := div_eq_of_between habove (by omega)
    rw [hquot] at hsplit
    rw [hquot, if_pos (by omega)]

/-- Halfway between two numbers the even one is taken. -/
theorem nearestEven_of_eq {n d z : Nat} (hd : 0 < d) (h : 2 * n = 2 * (d * z) + d) :
    nearestEven n d = if z % 2 = 0 then z else z + 1 := by
  have hquot : n / d = z := div_eq_of_between (by omega) (by omega)
  have hsplit := Nat.div_add_mod n d
  rw [hquot] at hsplit
  unfold nearestEven
  rw [hquot, if_neg (by omega), if_neg (by omega)]

theorem nearestEven_le {n d y : Nat} (hd : 0 < d) (h : n ≤ d * y) : nearestEven n d ≤ y := by
  have hsplit := Nat.div_add_mod n d
  have hquot : n / d ≤ y := by
    rw [Nat.div_le_iff_le_mul hd, Nat.mul_comm]
    omega
  unfold nearestEven
  rcases hquot.lt_or_eq with hlt | heq
  · split
    · exact hquot
    split
    · exact hlt
    split
    · exact hquot
    · exact hlt
  · rw [heq] at hsplit ⊢
    rw [if_pos (by omega)]

section

variable {u y p t : Nat}

/-- Less than half a unit below a multiple. -/
theorem nearestEven_below_near (hp : p + t = u * y) (h : 2 * t < u) : nearestEven p u = y :=
  nearestEven_of_lt (by omega) (by omega)

/-- More than half a unit below a multiple, and less than one and a half. -/
theorem nearestEven_below_far (hp : p + t = u * y) (h : u < 2 * t) (h' : 2 * t < 3 * u) :
    nearestEven p u + 1 = y := by
  obtain ⟨z, rfl⟩ := Nat.exists_eq_succ_of_ne_zero (show y ≠ 0 by rintro rfl; omega)
  rw [Nat.mul_succ] at hp
  rw [nearestEven_of_lt (z := z) (by omega) (by omega)]

/-- Half a unit below a multiple. -/
theorem nearestEven_below_tie (hu : 0 < u) (hp : p + t = u * y) (h : 2 * t = u) :
    nearestEven p u = y ∧ y % 2 = 0 ∨ nearestEven p u + 1 = y ∧ y % 2 = 1 := by
  obtain ⟨z, rfl⟩ := Nat.exists_eq_succ_of_ne_zero (show y ≠ 0 by rintro rfl; omega)
  rw [Nat.mul_succ] at hp
  rw [nearestEven_of_eq (z := z) hu (by omega)]
  split <;> omega

theorem nearestEven_above_near (hp : p = u * y + t) (h : 2 * t < u) : nearestEven p u = y :=
  nearestEven_of_lt (by omega) (by omega)

theorem nearestEven_above_far (hp : p = u * y + t) (h : u < 2 * t) (h' : 2 * t < 3 * u) :
    nearestEven p u = y + 1 := by
  have hnext : u * (y + 1) = u * y + u := Nat.mul_succ u y
  exact nearestEven_of_lt (by omega) (by omega)

theorem nearestEven_above_tie (hu : 0 < u) (hp : p = u * y + t) (h : 2 * t = u) :
    nearestEven p u = y ∧ y % 2 = 0 ∨ nearestEven p u = y + 1 ∧ y % 2 = 1 := by
  rw [nearestEven_of_eq (z := y) hu (by omega)]
  split <;> omega

end

theorem roundHalfEven_div (n : Nat) {d : Nat} (hd : 0 < d) :
    roundHalfEven ((n : ℚ) / d) = nearestEven n d := by
  have hdq : (0 : ℚ) < d := by exact_mod_cast hd
  have hfloor : ⌊(n : ℚ) / d⌋ = ((n / d : Nat) : ℤ) := by
    rw [Rat.floor_natCast_div_natCast]
    norm_cast
  have hsplit : (n : ℚ) = d * (n / d : Nat) + (n % d : Nat) := by
    exact_mod_cast (Nat.div_add_mod n d).symm
  have hrest : (n : ℚ) / d - ((n / d : Nat) : ℤ) = (n % d : Nat) / d := by
    rw [Int.cast_natCast, eq_div_iff hdq.ne', sub_mul, div_mul_cancel₀ _ hdq.ne', hsplit]
    ring
  have hlow : (n : ℚ) / d - ((n / d : Nat) : ℤ) < 1 / 2 ↔ 2 * (n % d) < d := by
    rw [hrest, div_lt_div_iff₀ hdq two_pos, one_mul, mul_comm]
    exact_mod_cast Iff.rfl
  have hhigh : 1 / 2 < (n : ℚ) / d - ((n / d : Nat) : ℤ) ↔ d < 2 * (n % d) := by
    rw [hrest, div_lt_div_iff₀ two_pos hdq, one_mul, mul_comm]
    exact_mod_cast Iff.rfl
  unfold roundHalfEven nearestEven
  rw [hfloor]
  simp only [hlow, hhigh]
  split
  · rfl
  · split
    · push_cast
      rfl
    · have heven : ((n / d : Nat) : ℤ) % 2 = 0 ↔ n / d % 2 = 0 := by omega
      simp only [heven]
      split
      · rfl
      · push_cast
        rfl

/-- A ratio of natural numbers with 53 bits before the point, scaled by a power of two. -/
theorem roundBinary64_ratio {n d : Nat} {z : ℤ} (hz : -1074 ≤ z) (hlow : 2 ^ 52 * d ≤ n)
    (hhigh : n < 2 ^ 53 * d) :
    roundBinary64 ((n : ℚ) / d * 2 ^ z) = nearestEven n d * 2 ^ z := by
  have hd : 0 < d := by omega
  have hdq : (0 : ℚ) < d := by exact_mod_cast hd
  have hpow : (0 : ℚ) < 2 ^ z := by positivity
  have hlow' : (2 : ℚ) ^ (z + 52) ≤ (n : ℚ) / d * 2 ^ z := by
    rw [zpow_add₀ two_ne_zero, mul_comm]
    refine mul_le_mul_of_nonneg_right ?_ hpow.le
    rw [le_div_iff₀ hdq]
    exact_mod_cast hlow
  have hhigh' : (n : ℚ) / d * 2 ^ z < 2 ^ (z + 52 + 1) := by
    rw [add_assoc, zpow_add₀ two_ne_zero, mul_comm ((2 : ℚ) ^ z)]
    refine mul_lt_mul_of_pos_right ?_ hpow
    rw [div_lt_iff₀ hdq]
    exact_mod_cast hhigh
  rw [roundBinary64_of_binade (by omega) hlow' hhigh', add_sub_cancel_right,
    mul_div_cancel_right₀ _ hpow.ne', roundHalfEven_div n hd, Int.cast_natCast]

/-! ## Casting back -/

/-- A ratio with a power of two is cast to its quotient, when that fits in the word. A zero
    can only come from a small ratio. -/
theorem toUInt64_eq_iff (round : ℚ → ℚ) {q : (rounded round).Double} {m s : Nat}
    (hq : toRat round q = (m : ℚ) / 2 ^ s) {x : UInt64} (hx : x ≠ 0) :
    (rounded round).toUInt64 q = x ↔ m / 2 ^ s = x.toNat := by
  have hpow : (0 : ℚ) < 2 ^ s := by positivity
  have hnonneg : 0 ≤ toRat round q := by
    rw [hq]
    positivity
  have hfloor : ⌊toRat round q⌋.toNat = m / 2 ^ s := by
    rw [hq, show ((2 : ℚ) ^ s) = ((2 ^ s : Nat) : ℚ) by push_cast; rfl, Rat.floor_natCast_div_natCast]
    rfl
  by_cases hfits : toRat round q < 2 ^ 64
  · rw [← UInt64.toNat_inj, toNat_toUInt64 round hnonneg hfits, hfloor]
  · have hconv : (rounded round).toUInt64 q = 0 := if_neg fun hboth => hfits hboth.2
    have hlarge : 2 ^ 64 ≤ m / 2 ^ s := by
      rw [Nat.le_div_iff_mul_le (by positivity)]
      rw [not_lt, hq, le_div_iff₀ hpow] at hfits
      exact_mod_cast hfits
    rw [hconv]
    have hlt := x.toNat_lt
    exact iff_of_false hx.symm (by omega)

end DoubleArith
