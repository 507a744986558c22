-- SUMMARY: Loops of a program that may fail, and the rules by which an invariant carries them through.
import Mathlib.Data.List.Basic
import Mathlib.Tactic.Ring

/-!
# Loops

A counting loop is a fold over `List.range`; its body may fail. A rule for a loop takes
what holds before it and what one round keeps, and gives that the loop does not fail and
what holds after it.
-/

namespace Loops

variable {σ τ : Type*}

/-- A counting loop from `0` up to `n`. -/
def forRange (n : Nat) (body : Nat → σ → Option σ) (s : σ) : Option σ :=
  (List.range n).foldlM (fun s k => body k s) s

theorem forRange_succ (n : Nat) (body : Nat → σ → Option σ) (s : σ) :
    forRange (n + 1) body s = (forRange n body s).bind (body n) := by
  unfold forRange
  rw [List.range_succ, List.foldlM_append]
  cases (List.range n).foldlM (fun s k => body k s) s with
  | none => rfl
  | some s' => simp

/-- The rule of the counting loop. -/
theorem forRange_spec {n : Nat} {body : Nat → σ → Option σ} {s : σ} (P : Nat → σ → Prop)
    (hstart : P 0 s)
    (hround : ∀ k s, k < n → P k s → ∃ s', body k s = some s' ∧ P (k + 1) s') :
    ∃ s', forRange n body s = some s' ∧ P n s' := by
  induction n with
  | zero => exact ⟨s, rfl, hstart⟩
  | succ n ih =>
    obtain ⟨s₁, hrun, h₁⟩ := ih fun k s hk => hround k s (Nat.lt_succ_of_lt hk)
    obtain ⟨s₂, hbody, h₂⟩ := hround n s₁ (Nat.lt_succ_self n) h₁
    refine ⟨s₂, ?_, h₂⟩
    rw [forRange_succ, hrun]
    exact hbody

/-- A loop whose body a projection of the state takes part in is projected. -/
theorem forRange_simulates (φ : σ → τ) {n : Nat} {body : Nat → σ → Option σ}
    {body' : Nat → τ → Option τ}
    (hbody : ∀ k s s', body k s = some s' → body' k (φ s) = some (φ s')) {s s' : σ}
    (hrun : forRange n body s = some s') : forRange n body' (φ s) = some (φ s') := by
  induction n generalizing s' with
  | zero =>
    cases hrun
    rfl
  | succ n ih =>
    rw [forRange_succ] at hrun ⊢
    obtain ⟨s₁, hfront, hlast⟩ := Option.bind_eq_some_iff.mp hrun
    rw [ih hfront]
    exact hbody n s₁ s' hlast

/-- A loop that halves its counter as long as that is above two; the body sees the half. -/
def whileHalves (body : Nat → σ → Option σ) : Nat → Nat → σ → Option σ
  | 0, _, s => some s
  | fuel + 1, cnt, s =>
    if cnt > 2 then (body (cnt / 2) s).bind (whileHalves body fuel (cnt / 2)) else some s

/-- The rule of the halving loop, from a power of two on. -/
theorem whileHalves_spec {body : Nat → σ → Option σ} {fuel k : Nat} {s : σ} (P : Nat → σ → Prop)
    (hfuel : k ≤ fuel) (hstart : P k s)
    (hround : ∀ i s, 1 ≤ i → i < k → P (i + 1) s → ∃ s', body (2 ^ i) s = some s' ∧ P i s')
    (hk : 1 ≤ k) :
    ∃ s', whileHalves body fuel (2 ^ k) s = some s' ∧ P 1 s' := by
  induction fuel generalizing k s with
  | zero => omega
  | succ fuel ih =>
    rcases Nat.lt_or_ge 1 k with hmore | hlast
    · obtain ⟨i, rfl⟩ := Nat.exists_eq_add_of_le' hk
      have hhalf : 2 ^ (i + 1) / 2 = 2 ^ i := by
        rw [Nat.pow_succ, Nat.mul_div_cancel _ (by decide)]
      have hgt : 2 ^ (i + 1) > 2 := by
        calc 2 < 2 ^ 2 := by decide
          _ ≤ 2 ^ (i + 1) := Nat.pow_le_pow_right (by decide) hmore
      obtain ⟨s₁, hbody, h₁⟩ := hround i s (Nat.le_of_lt_succ hmore) (Nat.lt_succ_self i) hstart
      obtain ⟨s₂, hrun, h₂⟩ := ih (Nat.le_of_succ_le_succ hfuel) h₁
        (fun j s hj hji => hround j s hj (Nat.lt_succ_of_lt hji)) (Nat.le_of_lt_succ hmore)
      refine ⟨s₂, ?_, h₂⟩
      rw [whileHalves, if_pos hgt, hhalf, hbody]
      exact hrun
    · obtain rfl : k = 1 := Nat.le_antisymm hlast hk
      exact ⟨s, rfl, hstart⟩

theorem whileHalves_simulates (φ : σ → τ) {body : Nat → σ → Option σ} {body' : Nat → τ → Option τ}
    (hbody : ∀ k s s', body k s = some s' → body' k (φ s) = some (φ s')) {fuel cnt : Nat} {s s' : σ}
    (hrun : whileHalves body fuel cnt s = some s') :
    whileHalves body' fuel cnt (φ s) = some (φ s') := by
  induction fuel generalizing cnt s with
  | zero =>
    cases hrun
    rfl
  | succ fuel ih =>
    unfold whileHalves at hrun ⊢
    split
    · rename_i hgt
      rw [if_pos hgt] at hrun
      obtain ⟨s₁, hround, hrest⟩ := Option.bind_eq_some_iff.mp hrun
      rw [hbody _ _ _ hround]
      exact ih hrest
    · rename_i hle
      rw [if_neg hle] at hrun
      cases hrun
      rfl

end Loops
