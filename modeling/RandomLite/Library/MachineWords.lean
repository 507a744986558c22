-- SUMMARY: 64-bit machine words: operations that refuse to wrap, halves of a word, and carries.
import Mathlib.Tactic.Ring

/-!
# Machine words

What unsigned arithmetic is checked against. A checked operation has a result exactly
when the numbers have one that fits in the word. The halves of a word are its quotient
and remainder by `2 ^ 32`, and a sum that came out smaller than a summand has carried.
-/

/-! ## Checked operations -/

/-- The difference, unless it wraps. -/
def checkedSub (a b : UInt64) : Option UInt64 :=
  if b.toNat ≤ a.toNat then some (a - b) else none

/-- The product, unless it wraps. -/
def checkedMul (a b : UInt64) : Option UInt64 :=
  if a.toNat * b.toNat < 2 ^ 64 then some (a * b) else none

section

variable {a b : UInt64}

theorem checkedSub_of_le (h : b.toNat ≤ a.toNat) : checkedSub a b = some (a - b) := if_pos h

theorem checkedMul_of_lt (h : a.toNat * b.toNat < 2 ^ 64) : checkedMul a b = some (a * b) :=
  if_pos h

theorem toNat_mul_of_lt (h : a.toNat * b.toNat < 2 ^ 64) :
    (a * b).toNat = a.toNat * b.toNat := by
  rw [UInt64.toNat_mul]
  exact Nat.mod_eq_of_lt h

theorem toNat_add_of_lt (h : a.toNat + b.toNat < 2 ^ 64) :
    (a + b).toNat = a.toNat + b.toNat := by
  rw [UInt64.toNat_add]
  exact Nat.mod_eq_of_lt h

theorem toNat_sub_of_toNat_le (h : b.toNat ≤ a.toNat) : (a - b).toNat = a.toNat - b.toNat :=
  UInt64.toNat_sub_of_le a b (UInt64.le_iff_toNat_le.mpr h)

end

/-! ## Halves -/

theorem toNat_shiftRight_half (a : UInt64) : (a >>> 32).toNat = a.toNat / 2 ^ 32 := by
  rw [UInt64.toNat_shiftRight, Nat.shiftRight_eq_div_pow]
  rfl

theorem toNat_and_half (a : UInt64) : (a &&& 0xFFFFFFFF).toNat = a.toNat % 2 ^ 32 := by
  rw [UInt64.toNat_and]
  exact Nat.and_two_pow_sub_one_eq_mod a.toNat 32

theorem toNat_shiftLeft_half (a : UInt64) :
    (a <<< 32).toNat = a.toNat % 2 ^ 32 * 2 ^ 32 := by
  rw [UInt64.toNat_shiftLeft, Nat.shiftLeft_eq]
  show a.toNat * 2 ^ 32 % 2 ^ 64 = _
  omega

/-- Two numbers below `2 ^ 32` have a product that fits in the word. -/
theorem mul_lt_word {m n : Nat} (hm : m < 2 ^ 32) (hn : n < 2 ^ 32) : m * n < 2 ^ 64 :=
  calc m * n < 2 ^ 32 * 2 ^ 32 := Nat.mul_lt_mul'' hm hn
    _ = 2 ^ 64 := by norm_num

/-! ## Carries -/

/-- The carry of a sum, as the comparison with a summand finds it. -/
def carry (sum a : UInt64) : UInt64 := if sum < a then 1 else 0

/-- A wrapped sum and its carry make up the sum. -/
theorem toNat_add_carry (a b : UInt64) :
    (a + b).toNat + 2 ^ 64 * (carry (a + b) a).toNat = a.toNat + b.toNat := by
  have ha := a.toNat_lt
  have hb := b.toNat_lt
  have hsum := UInt64.toNat_add a b
  unfold carry
  split
  · rename_i hlt
    rw [UInt64.lt_iff_toNat_lt] at hlt
    rw [show (1 : UInt64).toNat = 1 from rfl]
    omega
  · rename_i hge
    rw [UInt64.lt_iff_toNat_lt] at hge
    rw [show (0 : UInt64).toNat = 0 from rfl]
    omega
