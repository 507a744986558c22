-- SUMMARY: The middle of a sorted list, found without sorting: an element with the lesser ones on one side and the greater ones on the other.
import Mathlib.Data.List.Sort

/-!
# Middle elements

A list rearranged as `below ++ mid :: above` has `mid` at place `below.length` once it is
sorted, and the greatest element of `below` before it.
-/

namespace MiddleElement

variable {α : Type*} [LinearOrder α] {l below above : List α} {mid : α}

/-- The parts of a split list are sorted by themselves. -/
theorem insertionSort_eq (hperm : l.Perm (below ++ mid :: above)) (hbelow : ∀ a ∈ below, a ≤ mid)
    (habove : ∀ b ∈ above, mid ≤ b) :
    l.insertionSort (· ≤ ·) =
      below.insertionSort (· ≤ ·) ++ mid :: above.insertionSort (· ≤ ·) := by
  refine List.Perm.eq_of_pairwise' (r := (· ≤ ·)) (List.pairwise_insertionSort _ _) ?_ ?_
  · refine List.pairwise_append.mpr ⟨List.pairwise_insertionSort _ _, ?_, fun a ha b hb => ?_⟩
    · refine List.pairwise_cons.mpr ⟨fun b hb => ?_, List.pairwise_insertionSort _ _⟩
      exact habove b ((List.mem_insertionSort _).mp hb)
    · have hmid := hbelow a ((List.mem_insertionSort _).mp ha)
      rcases List.mem_cons.mp hb with rfl | hb
      · exact hmid
      · exact hmid.trans (habove b ((List.mem_insertionSort _).mp hb))
  · refine (List.perm_insertionSort _ _).trans (hperm.trans ?_)
    exact (List.perm_insertionSort _ _).symm.append
      ((List.perm_insertionSort _ _).symm.cons mid)

theorem getD_insertionSort (hperm : l.Perm (below ++ mid :: above))
    (hbelow : ∀ a ∈ below, a ≤ mid) (habove : ∀ b ∈ above, mid ≤ b) (d : α) :
    (l.insertionSort (· ≤ ·)).getD below.length d = mid := by
  have hlen := List.length_insertionSort (· ≤ ·) below
  rw [insertionSort_eq hperm hbelow habove, List.getD_eq_getElem?_getD,
    List.getElem?_append_right hlen.le, hlen, Nat.sub_self]
  rfl

/-- The place before the middle holds the greatest of the lesser elements. -/
theorem getD_insertionSort_pred {top : α} {rest : List α}
    (hperm : l.Perm (top :: rest ++ mid :: above)) (htop : ∀ a ∈ rest, a ≤ top)
    (hmid : top ≤ mid) (habove : ∀ b ∈ above, mid ≤ b) (d : α) :
    (l.insertionSort (· ≤ ·)).getD rest.length d = top := by
  have hperm' : l.Perm (rest ++ top :: (mid :: above)) :=
    hperm.trans List.perm_middle.symm
  refine getD_insertionSort hperm' htop (fun b hb => ?_) d
  rcases List.mem_cons.mp hb with rfl | hb
  · exact hmid
  · exact hmid.trans (habove b hb)

end MiddleElement
