-- SUMMARY: The last entries of a growing list: windows that slide, windows over two parts, and windows read off one entry at a time.
import Mathlib.Data.List.DropRight

/-!
# Sliding windows

The window of size `n` over a list is its last `n` entries, `List.rtake`. A component
may keep the window and slide it (`push`), read it again, assemble it from two lists
of which the first ends where the second begins (`append`), or collect it backwards
(`gather_eq`). All of these give the same entries.
-/

namespace SlidingWindow

variable {α : Type*}

theorem of_length_le {l : List α} {n : Nat} (h : l.length ≤ n) : l.rtake n = l := by
  rw [List.rtake, Nat.sub_eq_zero_of_le h, List.drop_zero]

theorem length_le (l : List α) (n : Nat) : (l.rtake n).length ≤ n := by
  rw [List.rtake, List.length_drop]
  omega

theorem map {β : Type*} (f : α → β) (l : List α) (n : Nat) :
    (l.map f).rtake n = (l.rtake n).map f := by
  rw [List.rtake, List.rtake, List.length_map, List.map_drop]

/-- A window ends as the list does. -/
theorem getLast? (l : List α) {n : Nat} (hn : 0 < n) : (l.rtake n).getLast? = l.getLast? := by
  rw [List.rtake, List.getLast?_drop]
  split
  · rename_i hshort
    have hnil : l = [] := List.eq_nil_of_length_eq_zero (by omega)
    rw [hnil, List.getLast?_nil]
  · rfl

/-- The window over two parts: what the second leaves room for is taken from the first. -/
theorem append (l r : List α) (n : Nat) :
    (l ++ r).rtake n = l.rtake (n - r.length) ++ r.rtake n := by
  rw [List.rtake_eq_reverse_take_reverse, List.rtake_eq_reverse_take_reverse,
    List.rtake_eq_reverse_take_reverse, List.reverse_append, List.take_append,
    List.reverse_append, List.length_reverse]

theorem rtake_rtake (l : List α) (m n : Nat) : (l.rtake n).rtake m = l.rtake (min m n) := by
  rw [List.rtake_eq_reverse_take_reverse, List.rtake_eq_reverse_take_reverse,
    List.rtake_eq_reverse_take_reverse, List.reverse_reverse, List.take_take]

/-- A window that is kept slides: new entries are pushed and the excess dropped. -/
theorem push (l r : List α) (n : Nat) : (l.rtake n ++ r).rtake n = (l ++ r).rtake n := by
  rw [append, append, rtake_rtake, Nat.min_eq_left (Nat.sub_le n r.length)]

/-- The window over all but the first entry, read from an offset that skips it. -/
theorem drop_offset (l : List α) (n : Nat) :
    l.drop (if l.length - min n l.length = 0 then l.length - min n l.length + 1
      else l.length - min n l.length) = l.tail.rtake n := by
  rw [List.rtake, List.drop_tail, List.length_tail]
  congr 1
  split
  · omega
  · omega

/-! ## Dropping the excess -/

/-- Entries are dropped at the front while there are more than `n`. -/
def trim (n : Nat) : List α → List α
  | [] => []
  | a :: l => if (a :: l).length > n then trim n l else a :: l

theorem trim_eq (n : Nat) (l : List α) : trim n l = l.rtake n := by
  induction l with
  | nil => rw [trim, List.rtake_nil]
  | cons a l ih =>
    rw [trim]
    split
    · rename_i hlong
      rw [List.length_cons] at hlong
      rw [ih, ← List.singleton_append, append, Nat.sub_eq_zero_of_le (Nat.le_of_lt_succ hlong),
        List.rtake_zero, List.nil_append]
    · rename_i hshort
      exact (of_length_le (Nat.le_of_not_lt hshort)).symm

/-! ## Collecting backwards -/

/-- Up to `n` entries from position `i` down, of which position zero is none. -/
def gather (l : List α) : Nat → Nat → List α
  | 0, _ => []
  | _ + 1, 0 => []
  | n + 1, i + 1 => gather l n i ++ (l[i + 1]?).toList

theorem gather_eq {l : List α} {i : Nat} (n : Nat) (h : i < l.length) :
    gather l n i = (l.take (i + 1)).tail.rtake n := by
  induction n generalizing i with
  | zero => rw [gather, List.rtake_zero]
  | succ n ih =>
    cases i with
    | zero =>
      cases l with
      | nil => exact absurd h (Nat.not_lt_zero 0)
      | cons a l =>
        have htail : ((a :: l).take (0 + 1)).tail = [] := rfl
        rw [gather, htail, List.rtake_nil]
    | succ i =>
      have htail : (l.take (i + 1 + 1)).tail = (l.take (i + 1)).tail ++ [l[i + 1]] := by
        rw [List.take_succ_eq_append_getElem h, List.tail_append_of_ne_nil]
        exact List.ne_nil_of_length_pos (by rw [List.length_take]; omega)
      rw [gather, ih (Nat.lt_of_succ_lt h), List.getElem?_eq_getElem h, htail,
        List.rtake_concat_succ]
      rfl

end SlidingWindow
