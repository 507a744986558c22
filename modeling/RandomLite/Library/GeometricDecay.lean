-- SUMMARY: Quantities that lose a fixed fraction of themselves at each step, with rounding.
import Mathlib.Logic.Function.Iterate
import Mathlib.Tactic.Ring

/-!
# Geometric decay

`decay e r` takes the `(e + 1)`-th part, rounded down, off `r`. After `n` steps what
is left lies between `(e / (e + 1)) ^ n * r` and `e + 1` more than that; both bounds
are stated without division, so that they can be evaluated.
-/

/-- What is left of `r` when the `(e + 1)`-th part, rounded down, goes. -/
def decay (e r : Nat) : Nat := r - r / (e + 1)

namespace decay

variable (e : Nat)

theorem le_self (r : Nat) : decay e r ≤ r := Nat.sub_le _ _

theorem add_div (r : Nat) : decay e r + r / (e + 1) = r :=
  Nat.sub_add_cancel (Nat.div_le_self _ _)

/-- One step scales by `e / (e + 1)`, up to the remainder of the division. -/
theorem mul_eq (r : Nat) : (e + 1) * decay e r = e * r + r % (e + 1) := by
  have hsplit : (e + 1) * (r / (e + 1)) + r % (e + 1) = r := Nat.div_add_mod r (e + 1)
  have hmul : (e + 1) * decay e r + (e + 1) * (r / (e + 1)) = e * r + r := by
    rw [← Nat.mul_add, add_div, Nat.succ_mul]
  omega

theorem le_mul (r : Nat) : e * r ≤ (e + 1) * decay e r := by
  rw [mul_eq]
  exact Nat.le_add_right _ _

theorem mul_le (r : Nat) : (e + 1) * decay e r ≤ e * r + e := by
  rw [mul_eq]
  exact Nat.add_le_add_left (Nat.le_of_lt_succ (Nat.mod_lt r (Nat.succ_pos e))) _

/-! ## After `n` steps -/

theorem le_mul_iterate (n r : Nat) : e ^ n * r ≤ (e + 1) ^ n * (decay e)^[n] r := by
  induction n with
  | zero => simp
  | succ n ih =>
    rw [Function.iterate_succ_apply']
    calc e ^ (n + 1) * r
      _ = e * (e ^ n * r) := by ring
      _ ≤ e * ((e + 1) ^ n * (decay e)^[n] r) := Nat.mul_le_mul_left _ ih
      _ = (e + 1) ^ n * (e * (decay e)^[n] r) := by ring
      _ ≤ (e + 1) ^ n * ((e + 1) * decay e ((decay e)^[n] r)) := Nat.mul_le_mul_left _ (le_mul e _)
      _ = (e + 1) ^ (n + 1) * decay e ((decay e)^[n] r) := by ring

theorem mul_iterate_le (n r : Nat) :
    (e + 1) ^ n * (decay e)^[n] r ≤ e ^ n * r + (e + 1) ^ (n + 1) := by
  induction n with
  | zero => simp
  | succ n ih =>
    rw [Function.iterate_succ_apply']
    calc (e + 1) ^ (n + 1) * decay e ((decay e)^[n] r)
      _ = (e + 1) ^ n * ((e + 1) * decay e ((decay e)^[n] r)) := by ring
      _ ≤ (e + 1) ^ n * (e * (decay e)^[n] r + e) := Nat.mul_le_mul_left _ (mul_le e _)
      _ = e * ((e + 1) ^ n * (decay e)^[n] r) + e * (e + 1) ^ n := by ring
      _ ≤ e * (e ^ n * r + (e + 1) ^ (n + 1)) + e * (e + 1) ^ n :=
        Nat.add_le_add_right (Nat.mul_le_mul_left _ ih) _
      _ ≤ e * (e ^ n * r + (e + 1) ^ (n + 1)) + e * (e + 1) ^ n + (e + 1) ^ n := Nat.le_add_right _ _
      _ = e ^ (n + 1) * r + (e + 1) ^ (n + 1 + 1) := by ring

theorem antitone {m n : Nat} (h : m ≤ n) (r : Nat) : (decay e)^[n] r ≤ (decay e)^[m] r := by
  induction h with
  | refl => exact Nat.le_refl _
  | @step n _ ih =>
    rw [Function.iterate_succ_apply']
    exact (le_self e _).trans ih

/-! ## Bounds to evaluate -/

variable {e} {n r b : Nat}

theorem le_iterate (h : (e + 1) ^ n * b ≤ e ^ n * r) : b ≤ (decay e)^[n] r :=
  Nat.le_of_mul_le_mul_left (h.trans (le_mul_iterate e n r)) (Nat.pow_pos (Nat.succ_pos e))

theorem iterate_lt (h : e ^ n * r + (e + 1) ^ (n + 1) < (e + 1) ^ n * b) : (decay e)^[n] r < b :=
  Nat.lt_of_mul_lt_mul_left ((mul_iterate_le e n r).trans_lt h)

end decay
