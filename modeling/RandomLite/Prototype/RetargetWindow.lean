-- SUMMARY: What the retarget looks at: the last hundred differences of its two columns, and nothing else.
import Mathlib.Data.UInt
import RandomLite.Library.Differences
import RandomLite.Prototype.Difficulty

/-!
# The window of the retarget

`next_difficulty_lwma3` counts its indices from the end, so a history older than 101
blocks does not matter, and it subtracts whatever it reads, so neither column has an
origin that matters. Together: the last 100 solve times and the last 100 increments
of the cumulative difficulty determine the next difficulty.
-/

namespace RandomLite

/-! ## Old entries -/

/-- Indices that count from the end pass over what comes before. -/
theorem getD_append_sub (old xs : List UInt64) {k : Nat} (hk : k ≤ xs.length) :
    (old ++ xs).getD (old.length + xs.length - k) 0 = xs.getD (xs.length - k) 0 := by
  have hle : old.length ≤ old.length + xs.length - k := by omega
  rw [List.getD_eq_getElem?_getD, List.getD_eq_getElem?_getD, List.getElem?_append_right hle]
  congr 2
  omega

theorem getLastD_append {old xs : List UInt64} (hne : xs ≠ []) :
    (old ++ xs).getLastD 0 = xs.getLastD 0 := by
  rw [List.getLastD_eq_getLast?, List.getLastD_eq_getLast?, List.getLast?_append_of_ne_nil _ hne]

theorem lwmaWindow_of_le {count : Nat} (h : 101 ≤ count) : lwmaWindow count = 100 := by
  unfold lwmaWindow
  omega

section

variable (D : DoubleArith) {old old' ts cs : List UInt64} (target : UInt64)

theorem lwmaRawDifficulty_append (hold : old'.length = old.length) (hts : ts.length = 101)
    (hcs : cs.length = 101) :
    lwmaRawDifficulty D (old ++ ts) (old' ++ cs) target = lwmaRawDifficulty D ts cs target := by
  have hwindow : lwmaWindow (old.length + 101) = 100 := lwmaWindow_of_le (by omega)
  have hwindow' : lwmaWindow 101 = 100 := rfl
  have hfirst : (old ++ ts).getD (old.length + 101 - 100 - 1) 0 = ts.getD (101 - 100 - 1) 0 := by
    have h := getD_append_sub old ts (k := 101) (by omega)
    rwa [hts] at h
  have hanchor : (old' ++ cs).getD (old.length + 101 - 100 - 1) 0 = cs.getD (101 - 100 - 1) 0 := by
    have h := getD_append_sub old' cs (k := 101) (by omega)
    rwa [hcs, hold] at h
  have hdrop : (old ++ ts).drop (old.length + 101 - 100) = ts.drop (101 - 100) := by
    rw [List.drop_append, List.drop_of_length_le (by omega), List.nil_append]
    congr 1
    omega
  have hlast : (old' ++ cs).getLastD 0 = cs.getLastD 0 :=
    getLastD_append (List.ne_nil_of_length_pos (by omega))
  simp only [lwmaRawDifficulty, List.length_append, hts, hwindow, hwindow', hfirst, hanchor, hdrop,
    hlast]

theorem epochAnchor_append (hts : ts.length = 101) (raw : UInt64) :
    epochAnchor D (old ++ ts) target raw = epochAnchor D ts target raw := by
  have hfirst : (old ++ ts).getD (old.length + 101 - 101) 0 = ts.getD (101 - 101) 0 := by
    have h := getD_append_sub old ts (k := 101) (by omega)
    rwa [hts] at h
  have hlast : (old ++ ts).getLastD 0 = ts.getLastD 0 :=
    getLastD_append (List.ne_nil_of_length_pos (by omega))
  have hcount : 101 ≤ old.length + 101 := by omega
  simp only [epochAnchor, List.length_append, hts, hfirst, hlast, hcount, Nat.le_refl, if_true]

/-- Entries before the last 101 do not matter. -/
theorem nextDifficultyLwma3_append (hold : old'.length = old.length) (hts : ts.length = 101)
    (hcs : cs.length = 101) (window : Nat) :
    nextDifficultyLwma3 D (old ++ ts) (old' ++ cs) target window =
      nextDifficultyLwma3 D ts cs target window := by
  have hprev : (old' ++ cs).getD (old.length + 101 - 2) 0 = cs.getD (101 - 2) 0 := by
    have h := getD_append_sub old' cs (k := 2) (by omega)
    rwa [hcs, hold] at h
  have hlast : (old' ++ cs).getLastD 0 = cs.getLastD 0 :=
    getLastD_append (List.ne_nil_of_length_pos (by omega))
  have hshort : ¬ (old.length + 101 < 2 ∨ old'.length + 101 < 2) := by omega
  have hshort' : ¬ (101 < 2 ∨ 101 < 2) := by omega
  simp only [nextDifficultyLwma3, List.length_append, hts, hcs, hshort, hshort', if_false,
    lwmaRawDifficulty_append D target hold hts hcs, epochAnchor_append D target hts, hprev, hlast]

end

/-! ## Offsets -/

/-- A solve time is a difference. -/
theorem lwmaTerm_offset (target k current previous : UInt64) (i : Nat) :
    lwmaTerm target (k + current) (k + previous) i = lwmaTerm target current previous i := by
  have hsub : (k + current).toInt64 - (k + previous).toInt64 =
      current.toInt64 - previous.toInt64 := by
    rw [← UInt64.toInt64_sub, ← UInt64.toInt64_sub, add_sub_add_left_eq_sub]
  simp only [lwmaTerm, hsub]

theorem lwmaLoop_offset (target k : UInt64) (ts : List UInt64) (i : Nat) (sum previous : UInt64) :
    lwmaLoop target i sum (k + previous) (ts.map (k + ·)) = lwmaLoop target i sum previous ts := by
  induction ts generalizing i sum previous with
  | nil => rfl
  | cons t ts ih => simp only [List.map_cons, lwmaLoop, lwmaTerm_offset, ih]

/-- An entry that is there is moved by the offset. -/
theorem getD_map_offset (k : UInt64) {xs : List UInt64} {i : Nat} (h : i < xs.length) :
    (xs.map (k + ·)).getD i 0 = k + xs.getD i 0 := by
  rw [List.getD_eq_getElem?_getD, List.getD_eq_getElem?_getD, List.getElem?_map,
    List.getElem?_eq_getElem h]
  rfl

theorem getLastD_map_offset {k : UInt64} {xs : List UInt64} (hne : xs ≠ []) :
    (xs.map (k + ·)).getLastD 0 = k + xs.getLastD 0 := by
  rw [List.getLastD_eq_getLast?, List.getLastD_eq_getLast?, List.getLast?_map,
    List.getLast?_eq_getLast_of_ne_nil hne]
  rfl

/-- A common offset of either column does not matter. -/
theorem nextDifficultyLwma3_offset (D : DoubleArith) (k l : UInt64) {ts cs : List UInt64}
    (target : UInt64) (window : Nat) (hlen : cs.length = ts.length) (htwo : 2 ≤ ts.length) :
    nextDifficultyLwma3 D (ts.map (k + ·)) (cs.map (l + ·)) target window =
      nextDifficultyLwma3 D ts cs target window := by
  have hn : 1 ≤ lwmaWindow ts.length := by unfold lwmaWindow; omega
  have hts : ts ≠ [] := List.ne_nil_of_length_pos (by omega)
  have hcs : cs ≠ [] := List.ne_nil_of_length_pos (by omega)
  have hraw : lwmaRawDifficulty D (ts.map (k + ·)) (cs.map (l + ·)) target =
      lwmaRawDifficulty D ts cs target := by
    have hfirst := getD_map_offset k
      (show ts.length - lwmaWindow ts.length - 1 < ts.length by omega)
    have hanchor := getD_map_offset l
      (show ts.length - lwmaWindow ts.length - 1 < cs.length by omega)
    simp only [lwmaRawDifficulty, List.length_map, hfirst, hanchor, getLastD_map_offset hcs,
      ← List.map_drop, ← List.map_take, lwmaLoop_offset, add_sub_add_left_eq_sub]
  have hepoch (raw : UInt64) :
      epochAnchor D (ts.map (k + ·)) target raw = epochAnchor D ts target raw := by
    have hfirst := getD_map_offset k (show ts.length - 101 < ts.length by omega)
    simp only [epochAnchor, List.length_map, hfirst, getLastD_map_offset hts,
      add_sub_add_left_eq_sub]
  have hprev := getD_map_offset l (show ts.length - 2 < cs.length by omega)
  simp only [nextDifficultyLwma3, List.length_map, hraw, hepoch, hprev, getLastD_map_offset hcs,
    add_sub_add_left_eq_sub]

/-! ## Locality -/

/-- The last 101 entries, up to their offset. -/
theorem exists_offset_of_differences {xs ys : List UInt64} (hx : 101 ≤ xs.length)
    (hy : 101 ≤ ys.length) (h : (differences xs).rtake 100 = (differences ys).rtake 100) :
    ∃ k, ys.rtake 101 = (xs.rtake 101).map (k + ·) := by
  apply differences.exists_offset
  · unfold List.rtake
    simp only [List.length_drop]
    omega
  · rw [differences.rtake_succ hx, differences.rtake_succ hy, h]

/-- Two histories, of whatever lengths and offsets, with the same last 100 differences
    of their timestamps and of their cumulative difficulties modulo `2 ^ 64`, have the
    same next difficulty. -/
theorem nextDifficultyLwma3_local (D : DoubleArith) (target : UInt64) (window window' : Nat)
    {ts cs ts' cs' : List UInt64} (hlen : cs.length = ts.length) (hlen' : cs'.length = ts'.length)
    (hts : 101 ≤ ts.length) (hts' : 101 ≤ ts'.length)
    (htimes : (differences ts).rtake 100 = (differences ts').rtake 100)
    (hcums : (differences cs).rtake 100 = (differences cs').rtake 100) :
    nextDifficultyLwma3 D ts cs target window = nextDifficultyLwma3 D ts' cs' target window' := by
  obtain ⟨k, hk⟩ := exists_offset_of_differences hts hts' htimes
  obtain ⟨l, hl⟩ := exists_offset_of_differences (by omega) (by omega) hcums
  have hsplit (xs : List UInt64) : xs.take (xs.length - 101) ++ xs.rtake 101 = xs :=
    List.take_append_drop _ _
  have hwidth {xs : List UInt64} (h : 101 ≤ xs.length) : (xs.rtake 101).length = 101 := by
    unfold List.rtake
    rw [List.length_drop]
    omega
  have hold {xs ys : List UInt64} (h : ys.length = xs.length) :
      (ys.take (ys.length - 101)).length = (xs.take (xs.length - 101)).length := by
    rw [List.length_take, List.length_take, h]
  have hcs : 101 ≤ cs.length := by omega
  have hcs' : 101 ≤ cs'.length := by omega
  calc nextDifficultyLwma3 D ts cs target window
      = nextDifficultyLwma3 D (ts.rtake 101) (cs.rtake 101) target window := by
        conv_lhs => rw [← hsplit ts, ← hsplit cs]
        exact nextDifficultyLwma3_append D target (hold hlen) (hwidth hts) (hwidth hcs) window
    _ = nextDifficultyLwma3 D (ts'.rtake 101) (cs'.rtake 101) target window' := by
        rw [hk, hl]
        exact (nextDifficultyLwma3_offset D k l target window
          ((hwidth hcs).trans (hwidth hts).symm) (by rw [hwidth hts]; omega)).symm
    _ = nextDifficultyLwma3 D ts' cs' target window' := by
        conv_rhs => rw [← hsplit ts', ← hsplit cs']
        exact (nextDifficultyLwma3_append D target (hold hlen') (hwidth hts') (hwidth hcs')
          window').symm

/-- 101 blocks from zero on, and 105 blocks whose cumulative difficulty wraps. -/
theorem nextDifficultyLwma3_local_sample :
    nextDifficultyLwma3 .exact ((List.range 101).map fun i => 150 * UInt64.ofNat i)
      ((List.range 101).map fun i => 100 * UInt64.ofNat i) 150 720 =
    nextDifficultyLwma3 .exact ((List.range 105).map fun i => 1788461926 + 150 * UInt64.ofNat i)
      ((List.range 105).map fun i => 0 - 5000 + 100 * UInt64.ofNat i) 150 720 :=
  nextDifficultyLwma3_local .exact 150 720 720 (by decide +kernel) (by decide +kernel)
    (by decide +kernel) (by decide +kernel) (by decide +kernel) (by decide +kernel)

end RandomLite
