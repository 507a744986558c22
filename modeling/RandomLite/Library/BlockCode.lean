-- SUMMARY: Numerals of a fixed width in any base, and lists that are coded one block after another.
import Mathlib.Data.List.Induction
import Mathlib.Tactic.Ring

/-!
# Block codes

A number below `b ^ w` is its `w` digits in base `b`, leading zeros included. A list is
coded in blocks of a fixed size, the last of which may be short; where every block can
be read back and the size of a code tells the size of its block, so can the list.
-/

/-! ## Numerals of a fixed width -/

/-- The `w` low digits of `n` in base `b`, most significant first. -/
def fixedDigits (b : Nat) : Nat → Nat → List Nat
  | 0, _ => []
  | w + 1, n => fixedDigits b w (n / b) ++ [n % b]

/-- The number that digits spell in base `b`, most significant first. -/
def digitsValue (b : Nat) (ds : List Nat) : Nat := ds.foldl (fun n d => n * b + d) 0

section Digits

variable {b : Nat}

@[simp] theorem length_fixedDigits (b w n : Nat) : (fixedDigits b w n).length = w := by
  induction w generalizing n with
  | zero => rfl
  | succ w ih => simp [fixedDigits, ih]

theorem lt_of_mem_fixedDigits (hb : 0 < b) {w n d : Nat} (h : d ∈ fixedDigits b w n) : d < b := by
  induction w generalizing n with
  | zero => simp [fixedDigits] at h
  | succ w ih =>
    rw [fixedDigits, List.mem_append, List.mem_singleton] at h
    rcases h with h | rfl
    · exact ih h
    · exact Nat.mod_lt _ hb

@[simp] theorem fixedDigits_zero (b w : Nat) : fixedDigits b w 0 = List.replicate w 0 := by
  induction w with
  | zero => rfl
  | succ w ih => rw [fixedDigits, Nat.zero_div, ih, Nat.zero_mod, ← List.replicate_succ']

/-- The leading digit taken off. -/
theorem fixedDigits_succ (b w n : Nat) :
    fixedDigits b (w + 1) n = n / b ^ w % b :: fixedDigits b w n := by
  induction w generalizing n with
  | zero => simp [fixedDigits]
  | succ w ih =>
    have hdiv : n / b / b ^ w = n / b ^ (w + 1) := by
      rw [Nat.div_div_eq_div_mul, Nat.pow_succ, Nat.mul_comm b]
    rw [fixedDigits, ih, hdiv, List.cons_append]
    rfl

@[simp] theorem digitsValue_nil (b : Nat) : digitsValue b [] = 0 := rfl

theorem digitsValue_concat (ds : List Nat) (d : Nat) :
    digitsValue b (ds ++ [d]) = digitsValue b ds * b + d := by
  simp [digitsValue]

theorem digitsValue_append (ds es : List Nat) :
    digitsValue b (ds ++ es) = digitsValue b ds * b ^ es.length + digitsValue b es := by
  induction es using List.reverseRecOn with
  | nil => simp
  | append_singleton es e ih =>
    rw [← List.append_assoc, digitsValue_concat, ih, digitsValue_concat, List.length_append,
      List.length_singleton, Nat.pow_succ]
    ring

theorem digitsValue_cons (d : Nat) (ds : List Nat) :
    digitsValue b (d :: ds) = d * b ^ ds.length + digitsValue b ds := by
  have happend := digitsValue_append (b := b) [d] ds
  rwa [show digitsValue b [d] = d by simp [digitsValue]] at happend

theorem digitsValue_lt {ds : List Nat} (h : ∀ d ∈ ds, d < b) :
    digitsValue b ds < b ^ ds.length := by
  induction ds with
  | nil => simp
  | cons d ds ih =>
    have hd : d + 1 ≤ b := h d List.mem_cons_self
    have hds := ih fun e he => h e (List.mem_cons_of_mem _ he)
    rw [digitsValue_cons, List.length_cons, Nat.pow_succ, Nat.mul_comm (b ^ ds.length)]
    calc d * b ^ ds.length + digitsValue b ds
        < d * b ^ ds.length + b ^ ds.length := Nat.add_lt_add_left hds _
      _ = (d + 1) * b ^ ds.length := by ring
      _ ≤ b * b ^ ds.length := Nat.mul_le_mul_right _ hd

theorem digitsValue_fixedDigits (b w n : Nat) : digitsValue b (fixedDigits b w n) = n % b ^ w := by
  induction w generalizing n with
  | zero => simp [fixedDigits, Nat.mod_one]
  | succ w ih =>
    rw [fixedDigits, digitsValue_concat, ih, Nat.pow_succ, Nat.mul_comm (b ^ w), Nat.mod_mul,
      Nat.mul_comm, Nat.add_comm]

/-- Digits are the numeral of their value. -/
theorem fixedDigits_digitsValue {ds : List Nat} (h : ∀ d ∈ ds, d < b) :
    fixedDigits b ds.length (digitsValue b ds) = ds := by
  induction ds using List.reverseRecOn with
  | nil => rfl
  | append_singleton ds d ih =>
    have hd : d < b := h d (by simp)
    have hds := ih fun e he => h e (List.mem_append_left _ he)
    have hrest : (digitsValue b ds * b + d) / b = digitsValue b ds := by
      rw [Nat.mul_comm, Nat.mul_add_div (Nat.zero_lt_of_lt hd), Nat.div_eq_of_lt hd, Nat.add_zero]
    have hlast : (digitsValue b ds * b + d) % b = d := by
      rw [Nat.mul_comm, Nat.mul_add_mod, Nat.mod_eq_of_lt hd]
    rw [List.length_append, List.length_singleton, fixedDigits, digitsValue_concat, hrest, hlast,
      hds]

end Digits

/-! ## Blocks -/

section Blocks

variable {α β : Type*}

/-- `f` applied to the first `k` blocks of `n` elements and then to the rest, if there is
    one; the results are joined. -/
def mapBlocks (f : List α → Option (List β)) (n : Nat) : Nat → List α → Option (List β)
  | 0, rest => if rest.isEmpty then some [] else f rest
  | k + 1, l =>
    match f (l.take n), mapBlocks f n k (l.drop n) with
    | some first, some others => some (first ++ others)
    | _, _ => none

/-- The result begins with that of the first block. -/
theorem mapBlocks_first {f : List α → Option (List β)} {n k : Nat} {l : List α} {c : List β}
    (h : mapBlocks f n (k + 1) l = some c) :
    ∃ first others, f (l.take n) = some first ∧ c = first ++ others := by
  rw [mapBlocks] at h
  split at h
  · rename_i first others hfirst _
    exact ⟨first, others, hfirst, (Option.some.inj h).symm⟩
  · cases h

/-- A code for blocks of at most `n` elements. A block of `k` elements has a code of
    `width k` elements, shorter than that of a full block unless it is full itself. -/
structure BlockCode (encode : List α → Option (List β)) (decode : List β → Option (List α))
    (n : Nat) (width : Nat → Nat) : Prop where
  pos : 0 < n
  decode_encode : ∀ l : List α, l ≠ [] → l.length ≤ n →
    ∃ c, encode l = some c ∧ c.length = width l.length ∧ decode c = some l
  width_zero : width 0 = 0
  width_pos : ∀ k, 0 < k → k ≤ n → 0 < width k
  width_lt : ∀ k, k < n → width k < width n

namespace BlockCode

variable {encode : List α → Option (List β)} {decode : List β → Option (List α)} {n : Nat}
  {width : Nat → Nat}

/-- The blocks of a list of `k` full blocks and a rest shorter than one. -/
theorem mapBlocks_eq (h : BlockCode encode decode n width) (k : Nat) {l : List α}
    (hlow : n * k ≤ l.length) (hhigh : l.length < n * (k + 1)) :
    ∃ c, mapBlocks encode n k l = some c ∧ c.length = width n * k + width (l.length - n * k) ∧
      mapBlocks decode (width n) k c = some l := by
  induction k generalizing l with
  | zero =>
    cases l with
    | nil =>
      refine ⟨[], rfl, ?_, rfl⟩
      rw [List.length_nil, Nat.mul_zero, Nat.mul_zero, Nat.sub_zero, List.length_nil,
        h.width_zero]
    | cons x xs =>
      rw [Nat.zero_add, Nat.mul_one] at hhigh
      obtain ⟨c, hencode, hlen, hdecode⟩ :=
        h.decode_encode (x :: xs) (List.cons_ne_nil _ _) (Nat.le_of_lt hhigh)
      refine ⟨c, hencode, ?_, ?_⟩
      · rw [hlen, Nat.mul_zero, Nat.mul_zero, Nat.zero_add, Nat.sub_zero]
      · have hpos : 0 < c.length := by
          rw [hlen]
          exact h.width_pos _ (Nat.succ_pos _) (Nat.le_of_lt hhigh)
        have hne : c.isEmpty = false := by
          rw [List.isEmpty_eq_false_iff]
          exact List.ne_nil_of_length_pos hpos
        rw [mapBlocks, hne]
        exact hdecode
  | succ k ih =>
    rw [Nat.mul_succ] at hlow hhigh
    have hfull : (l.take n).length = n := by
      rw [List.length_take]
      omega
    have hne : l.take n ≠ [] := by
      apply List.ne_nil_of_length_pos
      rw [hfull]
      exact h.pos
    obtain ⟨first, hencode, hfirst, hdecode⟩ := h.decode_encode _ hne (Nat.le_of_eq hfull)
    have hdrop : (l.drop n).length = l.length - n := List.length_drop
    obtain ⟨others, hencodes, hothers, hdecodes⟩ :=
      ih (l := l.drop n) (by rw [hdrop]; omega) (by rw [hdrop]; omega)
    rw [hfull] at hfirst
    refine ⟨first ++ others, ?_, ?_, ?_⟩
    · rw [mapBlocks, hencode, hencodes]
    · rw [List.length_append, hfirst, hothers, hdrop, Nat.mul_succ, Nat.mul_succ,
        show l.length - n - n * k = l.length - (n * k + n) by omega]
      ring
    · rw [mapBlocks, ← hfirst, List.take_left, List.drop_left, hdecode, hfirst, hdecodes]
      dsimp only
      rw [List.take_append_drop]

/-- Every list has a code, from whose length alone the blocks can be told. -/
theorem mapBlocks_decode_encode (h : BlockCode encode decode n width) (l : List α) :
    ∃ c, mapBlocks encode n (l.length / n) l = some c ∧
      c.length = width n * (l.length / n) + width (l.length % n) ∧
      c.length % width n = width (l.length % n) ∧
      mapBlocks decode (width n) (c.length / width n) c = some l := by
  have hmod : l.length % n < n := Nat.mod_lt _ h.pos
  have hsplit := Nat.div_add_mod l.length n
  obtain ⟨c, hencode, hlen, hdecode⟩ := h.mapBlocks_eq (l.length / n) (l := l)
    (by omega) (by rw [Nat.mul_succ]; omega)
  rw [show l.length - n * (l.length / n) = l.length % n by omega] at hlen
  have hshort := h.width_lt _ hmod
  have hpos : 0 < width n := Nat.zero_lt_of_lt hshort
  refine ⟨c, hencode, hlen, ?_, ?_⟩
  · rw [hlen, Nat.mul_add_mod, Nat.mod_eq_of_lt hshort]
  · rw [hlen, Nat.mul_add_div hpos, Nat.div_eq_of_lt hshort, Nat.add_zero]
    exact hdecode

end BlockCode

end Blocks
