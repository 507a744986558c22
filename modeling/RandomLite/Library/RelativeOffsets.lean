-- SUMMARY: Positions coded as 64-bit differences: when the running sums increase.
import RandomLite.Library.Bytes

/-!
# Relative offsets

A list of positions is often stored as the first position and the differences of the
others. Decoding is a running sum modulo `2 ^ 64`. Non-zero differences give increasing
positions when their exact total fits in the word, and only then.
-/

namespace runningSums

theorem lt_of_mem {acc : UInt64} {xs : List UInt64} (hpos : ∀ x ∈ xs, x ≠ 0)
    (hfits : acc.toNat + (xs.map UInt64.toNat).sum < 2 ^ 64) :
    ∀ a ∈ runningSums acc xs, acc < a := by
  induction xs generalizing acc with
  | nil => simp [runningSums]
  | cons x xs ih =>
    obtain ⟨hx, hxs⟩ := List.forall_mem_cons.mp hpos
    rw [List.map_cons, List.sum_cons] at hfits
    have hadd : (acc + x).toNat = acc.toNat + x.toNat := by
      rw [UInt64.toNat_add, Nat.mod_eq_of_lt (by omega)]
    have hlt : acc < acc + x := by
      have hne : x.toNat ≠ 0 := fun h => hx (UInt64.toNat_inj.mp h)
      rw [UInt64.lt_iff_toNat_lt, hadd]
      omega
    intro a ha
    rcases List.mem_cons.mp ha with rfl | ha
    · exact hlt
    · exact UInt64.lt_trans hlt (ih hxs (by omega) a ha)

/-- Non-zero increments whose exact total fits give increasing sums; the first increment
    may be zero. -/
theorem pairwise_lt {acc : UInt64} {xs : List UInt64} (hpos : ∀ x ∈ xs.tail, x ≠ 0)
    (hfits : acc.toNat + (xs.map UInt64.toNat).sum < 2 ^ 64) :
    (runningSums acc xs).Pairwise (· < ·) := by
  induction xs generalizing acc with
  | nil => exact .nil
  | cons x xs ih =>
    rw [List.tail_cons] at hpos
    rw [List.map_cons, List.sum_cons] at hfits
    have hadd : (acc + x).toNat = acc.toNat + x.toNat := by
      rw [UInt64.toNat_add, Nat.mod_eq_of_lt (by omega)]
    have hrest : (acc + x).toNat + (xs.map UInt64.toNat).sum < 2 ^ 64 := by omega
    refine List.pairwise_cons.mpr ⟨lt_of_mem hpos hrest, ih ?_ hrest⟩
    exact fun y hy => hpos y (List.mem_of_mem_tail hy)

/-- Only such increments do: a sum that wraps falls back below the one before it. -/
theorem fits_of_pairwise_lt {acc : UInt64} {xs : List UInt64}
    (hle : ∀ a ∈ runningSums acc xs, acc ≤ a) (hlt : (runningSums acc xs).Pairwise (· < ·)) :
    acc.toNat + (xs.map UInt64.toNat).sum < 2 ^ 64 := by
  induction xs generalizing acc with
  | nil => simpa using acc.toNat_lt
  | cons x xs ih =>
    obtain ⟨hfirst, hrest⟩ := List.pairwise_cons.mp hlt
    have hnext : acc.toNat ≤ (acc + x).toNat :=
      UInt64.le_iff_toNat_le.mp (hle (acc + x) List.mem_cons_self)
    have hx := x.toNat_lt
    have hacc := acc.toNat_lt
    have hadd : (acc + x).toNat = acc.toNat + x.toNat := by
      rw [UInt64.toNat_add] at hnext ⊢
      omega
    have htail := ih (fun a ha => UInt64.le_of_lt (hfirst a ha)) hrest
    rw [hadd] at htail
    rw [List.map_cons, List.sum_cons]
    omega

end runningSums
