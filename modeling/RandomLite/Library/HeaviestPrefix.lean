-- SUMMARY: Prefixes of a list sorted by weight are the heaviest sub-collections a size budget allows.
import Mathlib.Algebra.Order.BigOperators.Group.List
import Mathlib.Data.List.Perm.Subperm
import Mathlib.Tactic.Ring

/-!
# Heaviest prefixes

A list sorted by non-increasing weight has its heaviest sub-collections at the front:
no sub-collection of `k` elements outweighs the first `k` (`weight_le_take`). Where
all elements have the same size, the first `B / s` elements therefore solve the
knapsack problem for the budget `B` (`HeaviestWithin.take`); sub-collections are
taken up to order (`List.Subperm`).
-/

variable {α : Type*}

/-- `chosen` is a sub-collection of `l` within the size budget `B`, and no other
    sub-collection within the budget outweighs it. -/
structure HeaviestWithin {M : Type*} [AddMonoid M] [LE M] (size : α → Nat) (weight : α → M)
    (B : Nat) (l chosen : List α) : Prop where
  subperm : chosen.Subperm l
  within : (chosen.map size).sum ≤ B
  heaviest : ∀ other : List α, other.Subperm l → (other.map size).sum ≤ B →
    (other.map weight).sum ≤ (chosen.map weight).sum

namespace HeaviestWithin

/-! ## Sizes -/

theorem sum_size {size : α → Nat} {s : Nat} {l c : List α} (hsize : ∀ a ∈ l, size a = s)
    (hc : c.Subperm l) : (c.map size).sum = s * c.length := by
  have hmem : ∀ a ∈ c, size a = s := fun a ha => hsize a (hc.subset ha)
  rw [List.map_congr_left hmem, List.map_const', List.sum_replicate, nsmul_eq_mul,
    Nat.cast_id, Nat.mul_comm]

/-! ## Weights -/

section Weights

variable {M : Type*} [AddCommMonoid M] [PartialOrder M] [IsOrderedAddMonoid M] {weight : α → M}

/-- One more element of the list weighs no more than an element that bounds them all. -/
private theorem take_succ_le {a : α} {l : List α} (ha : ∀ b ∈ l, weight b ≤ weight a)
    {k : Nat} (hk : k < l.length) :
    ((l.take (k + 1)).map weight).sum ≤ weight a + ((l.take k).map weight).sum := by
  have hlast : weight l[k] ≤ weight a := ha _ (List.getElem_mem hk)
  rw [List.take_add_one, List.getElem?_eq_getElem hk, List.map_append, List.sum_append, add_comm]
  refine add_le_add ?_ le_rfl
  simpa using hlast

theorem weight_le_take_of_sublist {c l : List α} (hc : c.Sublist l)
    (hsorted : l.Pairwise fun a b => weight b ≤ weight a) :
    (c.map weight).sum ≤ ((l.take c.length).map weight).sum := by
  induction hc with
  | slnil => simp
  | @cons c l a hc ih =>
    obtain ⟨ha, htail⟩ := List.pairwise_cons.mp hsorted
    cases c with
    | nil => simp
    | cons b c =>
      have hlen : c.length < l.length := hc.length_le
      calc ((b :: c).map weight).sum
        _ ≤ ((l.take (c.length + 1)).map weight).sum := ih htail
        _ ≤ weight a + ((l.take c.length).map weight).sum := take_succ_le ha hlen
        _ = (((a :: l).take (c.length + 1)).map weight).sum := by simp
  | cons_cons a _ ih =>
    obtain ⟨-, htail⟩ := List.pairwise_cons.mp hsorted
    simp only [List.length_cons, List.take_succ_cons, List.map_cons, List.sum_cons]
    exact add_le_add le_rfl (ih htail)

/-- No sub-collection outweighs the prefix of its own length. -/
theorem weight_le_take {c l : List α} (hc : c.Subperm l)
    (hsorted : l.Pairwise fun a b => weight b ≤ weight a) :
    (c.map weight).sum ≤ ((l.take c.length).map weight).sum := by
  obtain ⟨c', hperm, hsub⟩ := hc
  have hle := weight_le_take_of_sublist hsub hsorted
  rwa [(hperm.map weight).sum_eq, hperm.length_eq] at hle

end Weights

/-! ## The knapsack of equal sizes -/

theorem take_le_take {M : Type*} [AddCommMonoid M] [PartialOrder M] [CanonicallyOrderedAdd M]
    {weight : α → M} (l : List α) {j k : Nat} (h : j ≤ k) :
    ((l.take j).map weight).sum ≤ ((l.take k).map weight).sum := by
  obtain ⟨d, rfl⟩ := Nat.exists_eq_add_of_le h
  rw [List.take_add, List.map_append, List.sum_append]
  exact le_self_add

/-- Of elements of one size, sorted by weight, the prefix that fills the budget is
    the heaviest sub-collection within it. -/
theorem take {M : Type*} [AddCommMonoid M] [PartialOrder M] [IsOrderedAddMonoid M]
    [CanonicallyOrderedAdd M] {size : α → Nat} {weight : α → M} {s : Nat} (hs : 0 < s)
    {l : List α} (hsize : ∀ a ∈ l, size a = s)
    (hsorted : l.Pairwise fun a b => weight b ≤ weight a) (B : Nat) :
    HeaviestWithin size weight B l (l.take (B / s)) := by
  have hsub : (l.take (B / s)).Subperm l := (List.take_sublist _ _).subperm
  refine ⟨hsub, ?_, ?_⟩
  · rw [sum_size hsize hsub]
    exact (Nat.mul_le_mul_left s (List.length_take_le _ _)).trans (Nat.mul_div_le B s)
  · intro other hother hwithin
    rw [sum_size hsize hother, Nat.mul_comm] at hwithin
    have hlen : other.length ≤ B / s := (Nat.le_div_iff_mul_le hs).mpr hwithin
    exact (weight_le_take hother hsorted).trans (take_le_take l hlen)

end HeaviestWithin
