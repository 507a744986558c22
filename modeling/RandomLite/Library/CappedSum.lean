-- SUMMARY: Addition of 64-bit amounts that stops at a cap instead of wrapping.
import Mathlib.Order.Defs.LinearOrder

/-!
# Capped sums

`cappedAdd cap g r` adds `r` to a running total `g` that is at most `cap`, and stops
at `cap`. The comparison is written with the room left, so nothing wraps; the lemmas
say that the result is the minimum of the exact sum and the cap.
-/

/-- `g + r`, or the cap when the room left is not enough. -/
@[irreducible] def cappedAdd (cap g r : UInt64) : UInt64 := if r < cap - g then g + r else cap

namespace cappedAdd

variable {cap g : UInt64}

/-- The capped sum is the exact sum or the cap, whichever is less. -/
theorem toNat_eq (hg : g ≤ cap) (r : UInt64) :
    (cappedAdd cap g r).toNat = min (g.toNat + r.toNat) cap.toNat := by
  have hroom : (cap - g).toNat = cap.toNat - g.toNat := UInt64.toNat_sub_of_le _ _ hg
  have hcap := cap.toNat_lt
  have hle := UInt64.le_iff_toNat_le.mp hg
  unfold cappedAdd
  split
  · rename_i hlt
    rw [UInt64.lt_iff_toNat_lt, hroom] at hlt
    rw [UInt64.toNat_add, Nat.mod_eq_of_lt (by omega)]
    omega
  · rename_i hlt
    rw [UInt64.lt_iff_toNat_lt, hroom] at hlt
    omega

theorem le_cap (hg : g ≤ cap) (r : UInt64) : cappedAdd cap g r ≤ cap := by
  rw [UInt64.le_iff_toNat_le, toNat_eq hg]
  exact Nat.min_le_right _ _

/-- A capped sum never falls below the total it starts from. -/
theorem le_self (hg : g ≤ cap) (r : UInt64) : g ≤ cappedAdd cap g r := by
  rw [UInt64.le_iff_toNat_le, toNat_eq hg]
  have hle := UInt64.le_iff_toNat_le.mp hg
  omega

end cappedAdd
