-- SUMMARY: The successive differences of a list, and what they determine of it.
import Mathlib.Algebra.Group.Basic
import Mathlib.Data.List.DropRight
import Mathlib.Tactic.Abel

/-!
# Successive differences

A column of readings, such as timestamps or a cumulative sum, is known up to one
offset by the differences of its neighbours, and its last readings by the last
differences.
-/

/-- The differences `x₁ - x₀`, `x₂ - x₁`, … of a list. -/
def differences {α : Type*} [Sub α] : List α → List α
  | a :: b :: xs => (b - a) :: differences (b :: xs)
  | _ => []

namespace differences

variable {α : Type*}

@[simp] theorem length_eq [Sub α] (xs : List α) : (differences xs).length = xs.length - 1 := by
  induction xs with
  | nil => rfl
  | cons a xs ih =>
    cases xs with
    | nil => rfl
    | cons b xs => simpa [differences] using ih

theorem drop [Sub α] (k : Nat) (xs : List α) :
    differences (xs.drop k) = (differences xs).drop k := by
  induction k generalizing xs with
  | zero => rfl
  | succ k ih =>
    cases xs with
    | nil => rfl
    | cons a xs =>
      rw [List.drop_succ_cons, ih]
      cases xs with
      | nil => simp [differences]
      | cons b xs => rfl

/-- The last `n` differences are those of the last `n + 1` readings. -/
theorem rtake_succ [Sub α] {n : Nat} {xs : List α} (h : n + 1 ≤ xs.length) :
    differences (xs.rtake (n + 1)) = (differences xs).rtake n := by
  unfold List.rtake
  rw [drop, length_eq]
  congr 1
  omega

theorem getElem?_eq [Sub α] {xs : List α} {i : Nat} {a b : α} (ha : xs[i]? = some a)
    (hb : xs[i + 1]? = some b) : (differences xs)[i]? = some (b - a) := by
  induction xs generalizing i with
  | nil => simp at ha
  | cons x xs ih =>
    cases xs with
    | nil => simp at hb
    | cons y xs =>
      cases i with
      | zero =>
        simp only [List.getElem?_cons_zero, List.getElem?_cons_succ, Option.some.injEq] at ha hb
        rw [differences, List.getElem?_cons_zero, ha, hb]
      | succ i =>
        rw [differences, List.getElem?_cons_succ]
        exact ih ha hb

/-- The differences add up to the last reading less the first. -/
theorem sum_cons [AddCommGroup α] (a : α) (xs : List α) :
    (differences (a :: xs)).sum = xs.getLastD a - a := by
  induction xs generalizing a with
  | nil => simp [differences]
  | cons b xs ih =>
    rw [differences, List.sum_cons, ih, List.getLastD_cons]
    abel

/-- Readings with the same differences differ by one offset. -/
theorem exists_offset [AddCommGroup α] {xs ys : List α} (hlen : xs.length = ys.length)
    (h : differences xs = differences ys) : ∃ k, ys = xs.map (k + ·) := by
  induction xs generalizing ys with
  | nil =>
    refine ⟨0, ?_⟩
    exact List.length_eq_zero_iff.mp hlen.symm
  | cons a xs ih =>
    obtain _ | ⟨c, ys⟩ := ys
    · cases hlen
    refine ⟨c - a, ?_⟩
    have hhead : c = c - a + a := (sub_add_cancel c a).symm
    obtain _ | ⟨b, xs⟩ := xs
    · obtain rfl : ys = [] := List.length_eq_zero_iff.mp (by simpa using hlen.symm)
      rw [List.map_singleton, ← hhead]
    obtain _ | ⟨d, ys⟩ := ys
    · simp at hlen
    -- The tails differ by an offset already, and the first difference says by which.
    simp only [differences, List.cons.injEq] at h
    obtain ⟨hfirst, hrest⟩ := h
    obtain ⟨k, hk⟩ := ih (by simpa using hlen) hrest
    have hd : d = k + b := by
      simp only [List.map_cons, List.cons.injEq] at hk
      exact hk.1
    have hoffset : c - a = k := by
      rw [hd] at hfirst
      calc c - a = b - a - (k + b - c) + k := by abel
        _ = k := by rw [← hfirst, sub_self, zero_add]
    rw [hk, ← hoffset]
    exact congrArg (· :: List.map (c - a + ·) (b :: xs)) hhead

end differences
