-- SUMMARY: Counters kept next to a list: a table of 32-bit counts that a list's elements are added to and taken from.
import Mathlib.Data.List.Count
import Mathlib.Logic.Function.Basic
import Mathlib.Tactic.Ring

/-!
# Histograms

A rolling window is often kept twice: as a queue and as a table of how often each
value occurs in it. `IsHistogram` says that the two agree. Counting up is safe while
the window is shorter than the counters can hold; counting down is safe for the
values that are in the window.
-/

variable {α : Type*} [DecidableEq α]

/-- One more of `v`. -/
def countUp (counts : α → UInt32) (v : α) : α → UInt32 := Function.update counts v (counts v + 1)

/-- One less of `v`; `none` when there is none left to take. -/
def countDown (counts : α → UInt32) (v : α) : Option (α → UInt32) :=
  if counts v = 0 then none else some (Function.update counts v (counts v - 1))

/-- The table counts the elements of the list. -/
def IsHistogram (counts : α → UInt32) (l : List α) : Prop :=
  ∀ v, (counts v).toNat = l.count v

namespace IsHistogram

variable {counts : α → UInt32} {l : List α}

theorem nil : IsHistogram (fun _ : α => 0) [] := by
  intro v
  rfl

/-- Only how often the elements occur matters. -/
theorem perm (h : IsHistogram counts l) {l' : List α} (hl : l.Perm l') : IsHistogram counts l' := by
  intro v
  rw [h v, hl.count_eq]

theorem cons (h : IsHistogram counts l) (hl : l.length + 1 < 2 ^ 32) (v : α) :
    IsHistogram (countUp counts v) (v :: l) := by
  intro w
  unfold countUp
  rw [Function.update_apply, List.count_cons]
  have hcount : l.count v ≤ l.length := List.count_le_length
  by_cases hw : w = v
  · subst hw
    have hadd : (counts w + 1).toNat = (counts w).toNat + 1 := by
      have hv := h w
      rw [UInt32.toNat_add, UInt32.toNat_one, Nat.mod_eq_of_lt (by omega)]
    simp [hadd, h w]
  · have hne : ¬ v = w := fun heq => hw heq.symm
    simp [hw, hne, h w]

theorem concat (h : IsHistogram counts l) (hl : l.length + 1 < 2 ^ 32) (v : α) :
    IsHistogram (countUp counts v) (l ++ [v]) :=
  (h.cons hl v).perm (List.perm_append_singleton v l).symm

/-- An element of the list can be counted down. -/
theorem uncons {v : α} (h : IsHistogram counts (v :: l)) :
    ∃ counts', countDown counts v = some counts' ∧ IsHistogram counts' l := by
  have hv := h v
  rw [List.count_cons_self] at hv
  have hpos : counts v ≠ 0 := by
    intro hzero
    rw [hzero, UInt32.toNat_zero] at hv
    omega
  refine ⟨_, if_neg hpos, ?_⟩
  intro w
  rw [Function.update_apply]
  by_cases hw : w = v
  · subst hw
    have hone : (1 : UInt32) ≤ counts w := by
      rw [UInt32.le_iff_toNat_le, UInt32.toNat_one]
      omega
    rw [if_pos rfl, UInt32.toNat_sub_of_le _ _ hone, UInt32.toNat_one, hv]
    omega
  · have hother := h w
    have hne : ¬ v = w := fun heq => hw heq.symm
    rw [if_neg hw, hother]
    simp [hne]

theorem unconcat {v : α} (h : IsHistogram counts (l ++ [v])) :
    ∃ counts', countDown counts v = some counts' ∧ IsHistogram counts' l :=
  (h.perm (List.perm_append_singleton v l)).uncons

end IsHistogram
