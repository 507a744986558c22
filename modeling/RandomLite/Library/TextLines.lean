-- SUMMARY: Text written item by item: codes of a fixed width, and lines split at their ends.
import Mathlib.Data.List.Basic

/-!
# Lines of text

What a program that prints items one after another rests on: when every item takes
the same number of characters, the text determines the items, and when no line holds
the separator, splitting the text at it gives the lines back.
-/

/-! ## Codes of a fixed width -/

/-- `f` writes every item in `n` characters, and no two items alike. -/
structure FixedWidth {α β : Type*} (f : α → List β) (n : Nat) : Prop where
  length : ∀ a, (f a).length = n
  injective : Function.Injective f

namespace FixedWidth

variable {α β : Type*} {f : α → List β} {n : Nat}

theorem length_flatMap (h : FixedWidth f n) (as : List α) :
    (as.flatMap f).length = as.length * n := by
  induction as with
  | nil => simp
  | cons a as ih =>
    rw [List.flatMap_cons, List.length_append, h.length, ih, List.length_cons, Nat.succ_mul,
      Nat.add_comm]

/-- The text of a list determines the list. -/
theorem flatMap_injective (h : FixedWidth f n) (hn : 0 < n) :
    Function.Injective (List.flatMap f) := by
  intro as bs heq
  have hlen : as.length = bs.length := by
    have htext := congrArg List.length heq
    rw [h.length_flatMap, h.length_flatMap] at htext
    exact Nat.eq_of_mul_eq_mul_right hn htext
  induction as generalizing bs with
  | nil => exact (List.length_eq_zero_iff.mp hlen.symm).symm
  | cons a as ih =>
    cases bs with
    | nil => cases hlen
    | cons b bs =>
      rw [List.flatMap_cons, List.flatMap_cons] at heq
      obtain ⟨hfirst, hrest⟩ := List.append_inj heq ((h.length a).trans (h.length b).symm)
      rw [h.injective hfirst, ih hrest (Nat.succ.inj hlen)]

end FixedWidth

/-! ## Lines -/

/-- Every line of the text followed by the separator. -/
def linesText {α : Type*} (sep : α) (lines : List (List α)) : List α :=
  lines.flatMap fun line => line ++ [sep]

section

variable {α : Type*} [DecidableEq α] {sep : α} {lines : List (List α)}

/-- Splitting at the separator gives the lines, and an empty one after the last. -/
theorem splitOn_linesText (h : ∀ line ∈ lines, sep ∉ line) :
    (linesText sep lines).splitOn sep = lines ++ [[]] := by
  induction lines with
  | nil => rfl
  | cons line lines ih =>
    obtain ⟨hline, hrest⟩ := List.forall_mem_cons.mp h
    have hsplit : linesText sep (line :: lines) = line ++ sep :: linesText sep lines := by
      simp [linesText]
    rw [hsplit, List.splitOn_append_cons_self_of_not_mem hline, ih hrest]
    rfl

/-- Lines that are not empty are the non-empty pieces of the text. -/
theorem filter_splitOn_linesText (h : ∀ line ∈ lines, sep ∉ line)
    (hne : ∀ line ∈ lines, line ≠ []) :
    ((linesText sep lines).splitOn sep).filter (fun line => !line.isEmpty) = lines := by
  have hkeep : lines.filter (fun line => !line.isEmpty) = lines := by
    rw [List.filter_eq_self]
    intro line hline
    simp [hne line hline]
  rw [splitOn_linesText h, List.filter_append, hkeep]
  simp

end
