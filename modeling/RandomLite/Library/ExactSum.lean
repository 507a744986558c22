-- SUMMARY: Lists of 64-bit amounts whose sum is reached without wrapping, and what may be done to them.
import Mathlib.Tactic.Ring

/-!
# Exact sums

A list of machine words adds up *exactly* to a total when the sum of the numbers is the
total as a number. Then the machine sum is the total in whatever way it is taken, no sum
on the way wraps, and neighbours may be merged.
-/

/-- The words add up to `total`, as numbers. -/
def ExactSum (words : List UInt64) (total : UInt64) : Prop :=
  (words.map UInt64.toNat).sum = total.toNat

namespace ExactSum

variable {words : List UInt64} {total : UInt64}

theorem cons_iff {a : UInt64} :
    ExactSum (a :: words) total ↔ a.toNat + (words.map UInt64.toNat).sum = total.toNat := by
  rw [ExactSum, List.map_cons, List.sum_cons]

/-- The first two words may be merged. -/
theorem merge {a b : UInt64} (h : ExactSum (a :: b :: words) total) :
    ExactSum ((b + a) :: words) total := by
  have hsum := cons_iff.mp h
  rw [List.map_cons, List.sum_cons] at hsum
  have hlt := total.toNat_lt
  apply cons_iff.mpr
  rw [UInt64.toNat_add, Nat.mod_eq_of_lt (by omega), ← hsum]
  omega

/-- The machine sum, from any start. -/
theorem foldl_add (acc : UInt64) (h : ExactSum words total) :
    words.foldl (· + ·) acc = acc + total := by
  induction words generalizing acc total with
  | nil =>
    have hzero : total = 0 := UInt64.toNat_inj.mp h.symm
    rw [hzero, UInt64.add_zero]
    rfl
  | cons a words ih =>
    have hsum := cons_iff.mp h
    have hlt := total.toNat_lt
    have hle : a ≤ total := UInt64.le_iff_toNat_le.mpr (by omega)
    have hrest : ExactSum words (total - a) := by
      rw [ExactSum, UInt64.toNat_sub_of_le _ _ hle]
      omega
    rw [List.foldl_cons, ih (acc + a) hrest, UInt64.add_assoc]
    congr 1
    rw [UInt64.add_comm, UInt64.sub_add_cancel]

/-- The machine sum is the total. -/
theorem foldl_eq (h : ExactSum words total) : words.foldl (· + ·) 0 = total := by
  rw [h.foldl_add 0, UInt64.zero_add]

end ExactSum
