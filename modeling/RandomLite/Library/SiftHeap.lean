-- SUMMARY: Binary heaps seen through their keys: what an exchange with the parent repairs, upwards and downwards.
import Mathlib.Logic.Equiv.Basic
import Mathlib.Order.RelClasses

/-!
# Sifting

The keys of a heap at the places `0, 1, ..., n`. The parent of `i` is `i / 2`, so that
the root has one child. A heap with one key out of order is `SiftsUp` or `SiftsDown`
at that place; an exchange with the parent moves the place one level, until the keys
are `Ordered`.
-/

namespace SiftHeap

variable {α : Type*} (less : α → α → Prop) (n : Nat) (k : Nat → α)

/-- No key is less than that of its parent. -/
def Ordered : Prop := ∀ j, 0 < j → j ≤ n → ¬ less (k j) (k (j / 2))

/-- No key but that at `i` is less than that of its parent. -/
def OrderedBut (i : Nat) : Prop := ∀ j, 0 < j → j ≤ n → j ≠ i → ¬ less (k j) (k (j / 2))

/-- Only the key at `i` may be less than that of its parent, and of what is around it. -/
structure SiftsUp (i : Nat) : Prop where
  others : OrderedBut less n k i
  grand : 0 < i → ∀ j, 0 < j → j ≤ n → j / 2 = i → ¬ less (k j) (k (i / 2))

/-- Only children of `i` may have keys less than that of their parent. -/
structure SiftsDown (i : Nat) : Prop where
  others : ∀ j, 0 < j → j ≤ n → j / 2 ≠ i → ¬ less (k j) (k (j / 2))
  grand : ∀ j, 0 < j → j ≤ n → j / 2 = i → ¬ less (k j) (k (i / 2))

/-- The keys after the exchange of two places. -/
def exchange (i j : Nat) : Nat → α := k ∘ Equiv.swap i j

variable {less n k} {i j c : Nat}

theorem exchange_left (i j : Nat) : exchange k i j i = k j := by
  rw [exchange, Function.comp_apply, Equiv.swap_apply_left]

theorem exchange_right (i j : Nat) : exchange k i j j = k i := by
  rw [exchange, Function.comp_apply, Equiv.swap_apply_right]

theorem exchange_other {x : Nat} (hi : x ≠ i) (hj : x ≠ j) : exchange k i j x = k x := by
  rw [exchange, Function.comp_apply, Equiv.swap_apply_of_ne_of_ne hi hj]

/-! ## Ends -/

theorem SiftsUp.root (h : SiftsUp less n k 0) : Ordered less n k :=
  fun j hpos hle => h.others j hpos hle (Nat.ne_of_gt hpos)

/-- The sift ends where the key is in order. -/
theorem OrderedBut.stop (h : OrderedBut less n k i) (hi : ¬ less (k i) (k (i / 2))) :
    Ordered less n k := by
  intro j hpos hle
  by_cases hj : j = i
  · rw [hj]
    exact hi
  · exact h j hpos hle hj

theorem Ordered.but (h : Ordered less n k) (i : Nat) : OrderedBut less n k i :=
  fun j hpos hle _ => h j hpos hle

theorem SiftsDown.leaf (h : SiftsDown less n k i) (hleaf : n < 2 * i) : Ordered less n k :=
  fun j hpos hle => h.others j hpos hle (by omega)

section Strict

variable [IsStrictTotalOrder α less]

theorem not_less_trans {a b c : α} (hab : ¬ less a b) (hbc : ¬ less b c) : ¬ less a c :=
  IsOrderConnected.neg_trans hab hbc

/-! ## Upwards -/

theorem SiftsUp.up (h : SiftsUp less n k i) (hpos : 0 < i) (hle : i ≤ n)
    (hless : less (k i) (k (i / 2))) : SiftsUp less n (exchange k i (i / 2)) (i / 2) := by
  have hparent : i / 2 < i := Nat.div_lt_self hpos (by decide)
  have hback : ¬ less (k (i / 2)) (k i) := fun hless' => asymm hless hless'
  refine ⟨fun j hj hjn hne => ?_, fun hup j hj hjn hchild => ?_⟩
  · by_cases hji : j = i
    · rw [hji, exchange_left, exchange_right]
      exact hback
    · rw [exchange_other hji hne]
      by_cases hbelow : j / 2 = i
      · rw [hbelow, exchange_left]
        exact h.grand hpos j hj hjn hbelow
      by_cases hsibling : j / 2 = i / 2
      · rw [hsibling, exchange_right]
        have hj' := h.others j hj hjn hji
        rw [hsibling] at hj'
        exact not_less_trans hj' hback
      · rw [exchange_other hbelow hsibling]
        exact h.others j hj hjn hji
  · have habove : ¬ less (k (i / 2)) (k (i / 2 / 2)) :=
      h.others (i / 2) hup (by omega) (Nat.ne_of_lt hparent)
    rw [exchange_other (x := i / 2 / 2) (by omega) (by omega)]
    by_cases hji : j = i
    · rw [hji, exchange_left]
      exact habove
    · rw [exchange_other hji (by omega)]
      have hj' := h.others j hj hjn hji
      rw [hchild] at hj'
      exact not_less_trans hj' habove

/-! ## Downwards -/

/-- The sift ends where the lesser child is in order. -/
theorem SiftsDown.stop (h : SiftsDown less n k i)
    (hlesser : ∀ j, 0 < j → j ≤ n → j / 2 = i → ¬ less (k j) (k c))
    (hc : ¬ less (k c) (k i)) : Ordered less n k := by
  intro j hpos hle
  by_cases hj : j / 2 = i
  · rw [hj]
    exact not_less_trans (hlesser j hpos hle hj) hc
  · exact h.others j hpos hle hj

theorem SiftsDown.down (h : SiftsDown less n k i) (hi : 0 < i) (hc : c / 2 = i) (hle : c ≤ n)
    (hlesser : ∀ j, 0 < j → j ≤ n → j / 2 = i → ¬ less (k j) (k c))
    (hless : less (k c) (k i)) : SiftsDown less n (exchange k c i) c := by
  refine ⟨fun j hj hjn hne => ?_, fun j hj hjn hchild => ?_⟩
  · by_cases hjc : j = c
    · rw [hjc, hc, exchange_left, exchange_right]
      exact fun hless' => asymm hless hless'
    by_cases hji : j = i
    · rw [hji, exchange_right, exchange_other (by omega) (by omega)]
      exact h.grand c (by omega) hle hc
    · rw [exchange_other hjc hji]
      by_cases hsibling : j / 2 = i
      · rw [hsibling, exchange_right]
        exact hlesser j hj hjn hsibling
      · rw [exchange_other hne hsibling]
        exact h.others j hj hjn hsibling
  · rw [hc, exchange_right, exchange_other (by omega) (by omega)]
    have hj' := h.others j hj hjn (by omega)
    rw [hchild] at hj'
    exact hj'

/-! ## The root -/

/-- The root of a heap is its least key. -/
theorem Ordered.root_le (h : Ordered less n k) (j : Nat) (hle : j ≤ n) :
    ¬ less (k j) (k 0) := by
  induction j using Nat.strongRecOn with
  | ind j ih =>
    rcases Nat.eq_zero_or_pos j with rfl | hpos
    · exact irrefl _
    · exact not_less_trans (h j hpos hle) (ih (j / 2) (Nat.div_lt_self hpos (by decide)) (by omega))

/-- A child of the root is the least key below it. -/
theorem Ordered.child_le (h : Ordered less n k) (j : Nat) (hpos : 0 < j) (hle : j ≤ n) :
    ¬ less (k j) (k 1) := by
  induction j using Nat.strongRecOn with
  | ind j ih =>
    rcases Nat.eq_or_lt_of_le (Nat.succ_le_of_lt hpos) with hone | hone
    · rw [← hone]
      exact irrefl _
    · exact not_less_trans (h j hpos hle)
        (ih (j / 2) (Nat.div_lt_self hpos (by decide)) (by omega) (by omega))

/-- A heap with another root, which is exchanged with its child. -/
theorem OrderedBut.down (h : OrderedBut less n k 1) (hless : less (k 1) (k 0)) :
    SiftsDown less n (exchange k 1 0) 1 := by
  refine ⟨fun j hj hjn hne => ?_, fun j hj hjn hchild => ?_⟩
  · by_cases hone : j = 1
    · rw [hone, exchange_left]
      change ¬ less (k 0) (exchange k 1 0 0)
      rw [exchange_right]
      exact fun hless' => asymm hless hless'
    · rw [exchange_other hone (by omega), exchange_other hne (by omega)]
      exact h j hj hjn hone
  · change ¬ less (exchange k 1 0 j) (exchange k 1 0 0)
    rw [exchange_right, exchange_other (by omega) (by omega)]
    have hj' := h j hj hjn (by omega)
    rw [hchild] at hj'
    exact hj'

end Strict

/-- Keys that agree below the root. -/
theorem OrderedBut.congr {k' : Nat → α} (h : OrderedBut less n k 1)
    (hsame : ∀ j, 0 < j → k' j = k j) : OrderedBut less n k' 1 := by
  intro j hpos hle hne
  rw [hsame j hpos, hsame (j / 2) (by omega)]
  exact h j hpos hle hne

end SiftHeap
