-- SUMMARY: The direction the retarget moves a constant difficulty in, over exact arithmetic.
import RandomLite.Prototype.RetargetSafety

/-!
# The direction of the retarget

`next_difficulty_lwma3` at the target of 150 seconds, over exact rationals, on chains of
at least 101 blocks that all have the same difficulty. The average difficulty of the
window is never divided by its length and the weighted solve times stand in the
numerator, so what comes out is a multiple of the difficulty that grows with the solve
times; the step clamp then bounds it.
-/

namespace RandomLite

open DoubleArith

/-! ## A constant difficulty -/

/-- Every block has difficulty `d`: the cumulative difficulty grows by `d`, modulo `2 ^ 64`. -/
def ConstantDifficulty (d : UInt64) (cs : List UInt64) : Prop := ∀ x ∈ differences cs, x = d

instance (d : UInt64) (cs : List UInt64) : Decidable (ConstantDifficulty d cs) :=
  List.decidableBAll (· = d) (differences cs)

/-- `k` blocks further the cumulative difficulty is `k * d` larger. -/
theorem ConstantDifficulty.getD_add {d : UInt64} {cs : List UInt64} (h : ConstantDifficulty d cs)
    {i k : Nat} (hlt : i + k < cs.length) :
    cs.getD (i + k) 0 = cs.getD i 0 + UInt64.ofNat k * d := by
  induction k with
  | zero => simp
  | succ k ih =>
    have hread {j : Nat} (hj : j < cs.length) : cs[j]? = some (cs.getD j 0) := by
      rw [List.getD_eq_getElem?_getD, List.getElem?_eq_getElem hj]
      rfl
    have hdiff := differences.getElem?_eq (hread (show i + k < cs.length by omega)) (hread hlt)
    have hstep : cs.getD (i + (k + 1)) 0 - cs.getD (i + k) 0 = d :=
      h _ (List.mem_of_getElem? hdiff)
    calc cs.getD (i + (k + 1)) 0 = cs.getD (i + k) 0 + d := by
          rw [← hstep]
          grind
      _ = cs.getD i 0 + UInt64.ofNat k * d + d := by rw [ih (by omega)]
      _ = cs.getD i 0 + UInt64.ofNat (k + 1) * d := by
          rw [UInt64.ofNat_add]
          grind

theorem ConstantDifficulty.sub_eq {d : UInt64} {cs : List UInt64} (h : ConstantDifficulty d cs)
    {k : Nat} (hk : k < cs.length) :
    cs.getLastD 0 - cs.getD (cs.length - k - 1) 0 = UInt64.ofNat k * d := by
  have hlast : cs.getLastD 0 = cs.getD (cs.length - 1) 0 := by
    rw [List.getLastD_eq_getLast?, List.getD_eq_getElem?_getD, List.getLast?_eq_getElem?]
  have hadd := h.getD_add (i := cs.length - k - 1) (k := k) (by omega)
  rw [show cs.length - k - 1 + k = cs.length - 1 by omega] at hadd
  rw [hlast, hadd]
  grind

/-- The last difficulty is the constant one. -/
theorem ConstantDifficulty.prevDiff_eq {d : UInt64} {cs : List UInt64}
    (h : ConstantDifficulty d cs) (hlen : 101 ≤ cs.length) : prevDiff cs = d := by
  have hsub := h.sub_eq (show 1 < cs.length by omega)
  rw [show cs.length - 1 - 1 = cs.length - 2 by omega] at hsub
  rw [prevDiff, hsub]
  simp

/-! ## The raw difficulty -/

/-- The window's total is a hundred blocks' worth. -/
theorem ConstantDifficulty.toNat_total {d : UInt64} {cs : List UInt64}
    (h : ConstantDifficulty d cs) (hlen : 101 ≤ cs.length) (hd : d.toNat ≤ 2 ^ 40) :
    (cs.getLastD 0 - cs.getD (cs.length - 100 - 1) 0).toNat = 100 * d.toNat := by
  rw [h.sub_eq (by omega), UInt64.toNat_mul, show (UInt64.ofNat 100).toNat = 100 from rfl]
  exact Nat.mod_eq_of_lt (by omega)

theorem windowSum_le_of_hundred {ts : List UInt64} (h : 101 ≤ ts.length) :
    windowSum ts ≤ 4545000 := by
  have hle := windowSum_le (show 2 ≤ ts.length by omega)
  rwa [lwmaWindow_of_le h] at hle

/-- The raw difficulty of a constant difficulty: the weighted solve times over 7575. -/
theorem toNat_lwmaRawDifficulty {d : UInt64} {ts cs : List UInt64}
    (hconst : ConstantDifficulty d cs) (hlen : cs.length = ts.length) (hts : 101 ≤ ts.length)
    (hd : d.toNat ≤ 2 ^ 40) :
    (lwmaRawDifficulty exact ts cs 150).toNat = d.toNat * windowSum ts / 7575 := by
  have htotal := hconst.toNat_total (by omega) hd
  rw [hlen] at htotal
  have hvalue : toRat id (rawProduct (rounded id) ts cs 150) =
      ((d.toNat * windowSum ts : Nat) : ℚ) / ((7575 : Nat) : ℚ) := by
    simp only [rawProduct, lwmaWindow_of_le hts, toRat_mul, toRat_div, toRat_ofUInt64, id,
      htotal, toNat_lwmaSum (show 2 ≤ ts.length by omega)]
    rw [show (UInt64.ofNat (100 * (100 + 1) / 2)).toNat = 5050 from rfl,
      show (150 : UInt64).toNat = 150 from rfl]
    push_cast
    ring
  have hsmall : d.toNat * windowSum ts ≤ 2 ^ 40 * 4545000 :=
    Nat.mul_le_mul hd (windowSum_le_of_hundred hts)
  have hnonneg : 0 ≤ toRat id (rawProduct (rounded id) ts cs 150) := by
    rw [hvalue]
    exact div_nonneg (Nat.cast_nonneg _) (Nat.cast_nonneg _)
  have hrange : toRat id (rawProduct (rounded id) ts cs 150) < 2 ^ 64 := by
    rw [hvalue, div_lt_iff₀ (by norm_num)]
    have hsmall' : ((d.toNat * windowSum ts : Nat) : ℚ) ≤ 2 ^ 40 * 4545000 := by
      exact_mod_cast hsmall
    refine hsmall'.trans_lt ?_
    norm_num
  have hconv := toNat_toUInt64 id hnonneg hrange
  rw [hvalue, Rat.floor_natCast_div_natCast] at hconv
  rw [lwmaRawDifficulty_eq]
  exact hconv

/-! ## The epoch anchor -/

/-- The correction of the epoch anchor, between one half and two. -/
def epochCorrection (ts : List UInt64) : ℚ :=
  max (1 / 2) (min 2 (15000 / ((ts.getLastD 0 - ts.getD (ts.length - 101) 0).toNat : ℚ)))

theorem epochCorrection_bounds (ts : List UInt64) :
    1 / 2 ≤ epochCorrection ts ∧ epochCorrection ts ≤ 2 :=
  ⟨le_max_left _ _, max_le (by norm_num) (min_le_left _ _)⟩

/-- The corrected difficulty, where the epoch took any time at all. -/
theorem toNat_epochAnchor {ts : List UInt64} (hts : 101 ≤ ts.length)
    (hepoch : ts.getLastD 0 - ts.getD (ts.length - 101) 0 > 0) {raw : UInt64}
    (hraw : raw.toNat < 2 ^ 63) :
    (epochAnchor exact ts 150 raw).toNat = ⌊(raw.toNat : ℚ) * epochCorrection ts⌋.toNat := by
  have hvalue : toRat id (anchorProduct (rounded id) ts 150 raw) =
      (raw.toNat : ℚ) * epochCorrection ts := by
    simp only [anchorProduct, toRat_mul, toRat_max, toRat_min, toRat_div, toRat_literal,
      toRat_ofUInt64, id]
    rw [show (100 * (150 : UInt64)).toNat = 15000 from rfl]
    rfl
  obtain ⟨hlow, hhigh⟩ := epochCorrection_bounds ts
  have hcast : (raw.toNat : ℚ) < 2 ^ 63 := by exact_mod_cast hraw
  have hnonneg : (0 : ℚ) ≤ raw.toNat := Nat.cast_nonneg _
  have hproduct : (raw.toNat : ℚ) * epochCorrection ts ≤ raw.toNat * 2 :=
    mul_le_mul_of_nonneg_left hhigh hnonneg
  have hconv := toNat_toUInt64 id (x := anchorProduct (rounded id) ts 150 raw)
    (by rw [hvalue]; exact mul_nonneg hnonneg (by linarith)) (by rw [hvalue]; linarith)
  rw [hvalue] at hconv
  rw [epochAnchor_eq, if_pos ⟨hts, hepoch⟩]
  exact hconv

/-- The anchor keeps at least what any lower bound of its correction leaves. -/
theorem le_toNat_epochAnchor {ts : List UInt64} (hts : 101 ≤ ts.length) {raw : UInt64}
    (hraw : raw.toNat < 2 ^ 63) {b : Nat} (hb : b ≤ raw.toNat)
    (hle : (b : ℚ) ≤ raw.toNat * epochCorrection ts) :
    b ≤ (epochAnchor exact ts 150 raw).toNat := by
  by_cases hepoch : ts.getLastD 0 - ts.getD (ts.length - 101) 0 > 0
  · rw [toNat_epochAnchor hts hepoch hraw]
    have hfloor : (b : ℤ) ≤ ⌊(raw.toNat : ℚ) * epochCorrection ts⌋ := by
      rw [Int.le_floor]
      exact_mod_cast hle
    omega
  · rw [epochAnchor_eq, if_neg (fun h => hepoch h.2)]
    exact hb

/-! ## Slow windows -/

/-- From `2 ^ 63` on every solve time of an increasing chain is read right. -/
theorem le_weighedTimes_of_high {a : UInt64} {ts : List UInt64} (ha : 2 ^ 63 ≤ a.toNat)
    (h : ∀ s ∈ solveTimes (a :: ts), 150 ≤ s) : ∀ s ∈ weighedTimes (a :: ts), 150 ≤ s := by
  induction ts generalizing a with
  | nil => simp [weighedTimes, differences]
  | cons b ts ih =>
    rw [solveTimes_cons_cons] at h
    have hfirst := h _ List.mem_cons_self
    have hb := b.toNat_lt
    have hread : (b - a).toInt64.toInt = b.toNat - a.toNat :=
      toInt_sub_of_lt (by omega) (by omega)
    intro s hs
    simp only [weighedTimes, differences, List.map_cons, List.mem_cons] at hs
    rcases hs with rfl | hs
    · rw [hread]
      exact le_clampSolveTime (by omega) hfirst
    · exact ih (by omega) (fun s' hs' => h s' (List.mem_cons_of_mem _ hs')) s hs

/-- At most one solve time, the one across `2 ^ 63`, can be misread. -/
theorem weightedSum_of_slow {a : UInt64} {ts : List UInt64} (i : Nat)
    (h : ∀ s ∈ solveTimes (a :: ts), 150 ≤ s) :
    weightedSum i (List.replicate ts.length 150) ≤
      weightedSum i (weighedTimes (a :: ts)) + 150 * (i + ts.length) := by
  induction ts generalizing a i with
  | nil => simp [weightedSum]
  | cons b ts ih =>
    have htail : ∀ s ∈ solveTimes (b :: ts), 150 ≤ s := by
      rw [solveTimes_cons_cons] at h
      exact fun s hs => h s (List.mem_cons_of_mem _ hs)
    have hfirst : 150 ≤ (b.toNat : ℤ) - a.toNat := by
      rw [solveTimes_cons_cons] at h
      exact h _ List.mem_cons_self
    have hsplit : weightedSum i (weighedTimes (a :: b :: ts)) =
        i * clampSolveTime (b - a).toInt64.toInt + weightedSum (i + 1) (weighedTimes (b :: ts)) :=
      rfl
    simp only [List.length_cons, List.replicate_succ, weightedSum]
    rw [hsplit]
    by_cases hread : (b.toNat : ℤ) - a.toNat < 2 ^ 63
    · -- This one counts in full; the loss may come later.
      have hclamp : 150 ≤ clampSolveTime (b - a).toInt64.toInt := by
        rw [toInt_sub_of_lt (by omega) hread]
        exact le_clampSolveTime (by omega) hfirst
      have hterm : i * 150 ≤ i * clampSolveTime (b - a).toInt64.toInt :=
        Nat.mul_le_mul_left i hclamp
      have hrest := ih (i + 1) htail
      omega
    · -- This one is misread; all later timestamps lie above `2 ^ 63`.
      have hhigh := le_weighedTimes_of_high (show 2 ^ 63 ≤ b.toNat by omega) htail
      have hrest := weightedSum_replicate_le (i + 1) hhigh
      rw [length_weighedTimes, List.length_cons, Nat.add_sub_cancel] at hrest
      omega

/-- A window on target or slower has a weighted sum of more than five times 7575. -/
theorem le_windowSum_of_slow {ts : List UInt64} (hts : 101 ≤ ts.length)
    (h : ∀ s ∈ (solveTimes ts).rtake 100, 150 ≤ s) : 5 * 7575 ≤ windowSum ts := by
  have hwindow := rtake_eq_cons hts
  rw [← solveTimes_rtake hts, hwindow] at h
  have hsum := weightedSum_of_slow 1 h
  have hlen : ((ts.drop (ts.length - 100)).take 100).length = 100 := by
    rw [List.length_take, List.length_drop]
    omega
  have hfull : weightedSum 1 (List.replicate 100 150) = 757500 := by decide +kernel
  rw [hlen, hfull, ← hwindow] at hsum
  rw [windowSum, lwmaWindow_of_le hts]
  omega

/-! ## Fast windows -/

/-- The epoch is the sum of its solve times. -/
theorem sum_solveTimes {ts : List UInt64} (hts : 101 ≤ ts.length) :
    ((solveTimes ts).rtake 100).sum =
      (ts.getLastD 0).toNat - (ts.getD (ts.length - 101) 0).toNat := by
  rw [← solveTimes_rtake hts, rtake_eq_cons hts, solveTimes, exactTimes, List.map_cons,
    differences.sum_cons]
  have hlast : ((ts.drop (ts.length - 100)).take 100).getLast? = ts.getLast? := by
    rw [List.take_of_length_le (by rw [List.length_drop]; omega), List.getLast?_drop,
      if_neg (by omega)]
  have hsome : ts.getLast? = some (ts.getLastD 0) :=
    getLast?_of_ne_nil (List.ne_nil_of_length_pos (by omega))
  rw [List.getLastD_eq_getLast?, List.getLast?_map, hlast, hsome, Option.map_some,
    Option.getD_some, show ts.length - 100 - 1 = ts.length - 101 by omega]

theorem sum_map_natCast (ss : List Nat) : (ss.map fun s : Nat => (s : ℤ)).sum = (ss.sum : ℤ) := by
  induction ss with
  | nil => rfl
  | cons s ss ih => rw [List.map_cons, List.sum_cons, List.sum_cons, ih, Nat.cast_add]

/-- Solve times within the clamp are weighed as they are. -/
theorem map_weighedTimes {ts : List UInt64} (h : ∀ s ∈ solveTimes ts, 1 ≤ s ∧ s ≤ 900) :
    (weighedTimes ts).map (fun s : Nat => (s : ℤ)) = solveTimes ts := by
  have hread : ∀ s ∈ solveTimes ts, -2 ^ 63 ≤ s ∧ s < 2 ^ 63 := by
    intro s hs
    obtain ⟨hlow, hhigh⟩ := h s hs
    omega
  rw [weighedTimes_eq hread, List.map_map]
  calc (solveTimes ts).map ((fun s : Nat => (s : ℤ)) ∘ clampSolveTime)
      = (solveTimes ts).map id := by
        apply List.map_congr_left
        intro s hs
        exact clampSolveTime_of_le (h s hs).1 (h s hs).2
    _ = solveTimes ts := List.map_id _

/-- The weighted sum of a window is its length and 4950 more, at least. -/
theorem windowSum_of_fast {ts : List UInt64} (hts : 101 ≤ ts.length)
    (h : ∀ s ∈ (solveTimes ts).rtake 100, 1 ≤ s ∧ s ≤ 150) :
    ∃ total : Nat, 100 ≤ total ∧ total ≤ 15000 ∧ total + 4950 ≤ windowSum ts ∧
      (ts.getLastD 0 - ts.getD (ts.length - 101) 0).toNat = total := by
  have hsolve : ∀ s ∈ solveTimes (ts.rtake 101), 1 ≤ s ∧ s ≤ 900 := by
    rw [solveTimes_rtake hts]
    intro s hs
    obtain ⟨hlow, hhigh⟩ := h s hs
    omega
  have hlen : (weighedTimes (ts.rtake 101)).length = 100 := by
    have hwindow := length_window (show 2 ≤ ts.length by omega)
    rwa [lwmaWindow_of_le hts] at hwindow
  have hpos : ∀ s ∈ weighedTimes (ts.rtake 101), 1 ≤ s := fun s hs => (mem_weighedTimes hs).1
  have hcap : ∀ s ∈ weighedTimes (ts.rtake 101), s ≤ 150 := by
    intro s hs
    have hmem : (s : ℤ) ∈ (solveTimes ts).rtake 100 := by
      rw [← solveTimes_rtake hts, ← map_weighedTimes hsolve]
      exact List.mem_map.mpr ⟨s, hs, rfl⟩
    have hle := (h _ hmem).2
    omega
  have hsum : ((weighedTimes (ts.rtake 101)).sum : ℤ) = ((solveTimes ts).rtake 100).sum := by
    rw [← solveTimes_rtake hts, ← map_weighedTimes hsolve]
    exact (sum_map_natCast _).symm
  have hlow : 100 * 1 ≤ (weighedTimes (ts.rtake 101)).sum := by
    rw [← hlen]
    exact List.card_nsmul_le_sum _ 1 hpos
  have hhigh : (weighedTimes (ts.rtake 101)).sum ≤ 100 * 150 := by
    rw [← hlen]
    exact List.sum_le_card_nsmul _ 150 hcap
  refine ⟨(weighedTimes (ts.rtake 101)).sum, by omega, by omega, ?_, ?_⟩
  · have hweights := le_two_weightedSum 0 hpos
    rw [hlen] at hweights
    have hone : windowSum ts =
        (weighedTimes (ts.rtake 101)).sum + weightedSum 0 (weighedTimes (ts.rtake 101)) := by
      rw [windowSum, lwmaWindow_of_le hts]
      exact weightedSum_succ 0 _
    omega
  · have hepoch := sum_solveTimes hts
    have hlast := (ts.getLastD 0).toNat_lt
    rw [← hsum] at hepoch
    rw [UInt64.toNat_sub]
    omega

/-! ## The clamp around a constant difficulty -/

theorem le_stepClamp {p raw : UInt64} (hlow : 10 < p.toNat) (hhigh : p.toNat ≤ (2 ^ 64 - 1) / 115)
    (h : p.toNat ≤ raw.toNat) : p.toNat ≤ (stepClamp p raw).toNat := by
  rw [toNat_stepClamp hlow hhigh]
  have hmore : p.toNat ≤ 115 * p.toNat / 100 := by omega
  exact (Nat.le_min.mpr ⟨h, hmore⟩).trans (Nat.le_max_right _ _)

/-- A raw difficulty beyond the clamp is cut to fifteen percent above. -/
theorem stepClamp_eq_max {p raw : UInt64} (hlow : 10 < p.toNat)
    (hhigh : p.toNat ≤ (2 ^ 64 - 1) / 115) (h : 115 * p.toNat / 100 < raw.toNat) :
    (stepClamp p raw).toNat = 115 * p.toNat / 100 := by
  have hless : 85 * p.toNat / 100 ≤ 115 * p.toNat / 100 := by omega
  rw [toNat_stepClamp hlow hhigh, Nat.min_eq_right h.le, Nat.max_eq_right hless]

/-! ## Direction -/

section

variable {d : UInt64} {ts cs : List UInt64}

/-- The result on a constant difficulty, before the last lower bound of one. -/
theorem nextDifficultyLwma3_of_constant (hconst : ConstantDifficulty d cs)
    (hlen : cs.length = ts.length) (hts : 101 ≤ ts.length) (hlow : 10 < d.toNat)
    (hhigh : d.toNat ≤ 2 ^ 40) (window : Nat) :
    nextDifficultyLwma3 exact ts cs 150 window =
      stepClamp d (epochAnchor exact ts 150 (lwmaRawDifficulty exact ts cs 150)) := by
  have hshort : ¬ (ts.length < 2 ∨ cs.length < 2) := by omega
  have hprev := hconst.prevDiff_eq (by omega)
  have hclamp := stepClamp_bounds hlow (by omega)
    (epochAnchor exact ts 150 (lwmaRawDifficulty exact ts cs 150))
  have hone : ¬ stepClamp d (epochAnchor exact ts 150 (lwmaRawDifficulty exact ts cs 150)) < 1 := by
    rw [UInt64.lt_iff_toNat_lt, show (1 : UInt64).toNat = 1 from rfl]
    omega
  rw [prevDiff, hlen] at hprev
  simp only [nextDifficultyLwma3, hshort, if_false, hprev, hone]

/-- The raw difficulty leaves room for a correction by two. -/
theorem toNat_lwmaRawDifficulty_lt (hconst : ConstantDifficulty d cs)
    (hlen : cs.length = ts.length) (hts : 101 ≤ ts.length) (hhigh : d.toNat ≤ 2 ^ 40) :
    (lwmaRawDifficulty exact ts cs 150).toNat < 2 ^ 63 := by
  have hsmall : d.toNat * windowSum ts ≤ 2 ^ 40 * 4545000 :=
    Nat.mul_le_mul hhigh (windowSum_le_of_hundred hts)
  rw [toNat_lwmaRawDifficulty hconst hlen hts hhigh]
  omega

/-- Blocks on target or slower: the difficulty goes up by fifteen percent. -/
theorem nextDifficultyLwma3_of_slow (hconst : ConstantDifficulty d cs)
    (hlen : cs.length = ts.length) (hts : 101 ≤ ts.length) (hlow : 10 < d.toNat)
    (hhigh : d.toNat ≤ 2 ^ 40) (window : Nat)
    (hslow : ∀ s ∈ (solveTimes ts).rtake 100, 150 ≤ s) :
    (nextDifficultyLwma3 exact ts cs 150 window).toNat = 115 * d.toNat / 100 := by
  have hraw := toNat_lwmaRawDifficulty hconst hlen hts hhigh
  have hsum : d.toNat * (5 * 7575) ≤ d.toNat * windowSum ts :=
    Nat.mul_le_mul_left _ (le_windowSum_of_slow hts hslow)
  have hfive : 5 * d.toNat ≤ (lwmaRawDifficulty exact ts cs 150).toNat := by
    rw [hraw, Nat.le_div_iff_mul_le (by omega)]
    calc 5 * d.toNat * 7575 = d.toNat * (5 * 7575) := by ring
      _ ≤ d.toNat * windowSum ts := hsum
  have hhalf : ((2 * d.toNat : Nat) : ℚ) ≤
      (lwmaRawDifficulty exact ts cs 150).toNat * epochCorrection ts := by
    have hcast : ((5 * d.toNat : Nat) : ℚ) ≤ (lwmaRawDifficulty exact ts cs 150).toNat := by
      exact_mod_cast hfive
    have hmul : ((5 * d.toNat : Nat) : ℚ) * (1 / 2) ≤
        (lwmaRawDifficulty exact ts cs 150).toNat * epochCorrection ts :=
      mul_le_mul hcast (epochCorrection_bounds ts).1 (by norm_num) (Nat.cast_nonneg _)
    have hnonneg : (0 : ℚ) ≤ d.toNat := Nat.cast_nonneg _
    push_cast at hmul ⊢
    linarith
  have hanchor := le_toNat_epochAnchor hts (toNat_lwmaRawDifficulty_lt hconst hlen hts hhigh)
    (by omega) hhalf
  rw [nextDifficultyLwma3_of_constant hconst hlen hts hlow hhigh]
  exact stepClamp_eq_max hlow (by omega) (by omega)

/-- An epoch at least twice too fast: the correction doubles. -/
theorem epochCorrection_eq_two {total : Nat}
    (hepoch : (ts.getLastD 0 - ts.getD (ts.length - 101) 0).toNat = total) (hpos : 0 < total)
    (hquick : total ≤ 7500) : epochCorrection ts = 2 := by
  have htotal : (0 : ℚ) < total := by exact_mod_cast hpos
  have hcast : (total : ℚ) ≤ 7500 := by exact_mod_cast hquick
  have hle : 2 ≤ 15000 / (total : ℚ) := by
    rw [le_div_iff₀ htotal]
    linarith
  rw [epochCorrection, hepoch, min_eq_left hle, max_eq_right (by norm_num)]

/-- An epoch on target or faster: the correction does not reduce. -/
theorem one_le_epochCorrection {total : Nat}
    (hepoch : (ts.getLastD 0 - ts.getD (ts.length - 101) 0).toNat = total) (hpos : 0 < total)
    (hcap : total ≤ 15000) : 1 ≤ epochCorrection ts := by
  have htotal : (0 : ℚ) < total := by exact_mod_cast hpos
  have hcast : (total : ℚ) ≤ 15000 := by exact_mod_cast hcap
  have hle : 1 ≤ 15000 / (total : ℚ) := by
    rw [le_div_iff₀ htotal]
    linarith
  rw [epochCorrection, hepoch]
  exact le_max_of_le_right (le_min (by norm_num) hle)

/-- Blocks on target or faster: the difficulty does not go down. -/
theorem le_nextDifficultyLwma3_of_fast (hconst : ConstantDifficulty d cs)
    (hlen : cs.length = ts.length) (hts : 101 ≤ ts.length) (hlow : 10 < d.toNat)
    (hhigh : d.toNat ≤ 2 ^ 40) (window : Nat)
    (hfast : ∀ s ∈ (solveTimes ts).rtake 100, 1 ≤ s ∧ s ≤ 150) :
    d.toNat ≤ (nextDifficultyLwma3 exact ts cs 150 window).toNat := by
  obtain ⟨total, hlarge, hcap, hsum, hepoch⟩ := windowSum_of_fast hts hfast
  have hraw := toNat_lwmaRawDifficulty hconst hlen hts hhigh
  have hpos : 0 < total := Nat.lt_of_lt_of_le (by decide) hlarge
  have hnonzero : ts.getLastD 0 - ts.getD (ts.length - 101) 0 > 0 := by
    rw [gt_iff_lt, UInt64.lt_iff_toNat_lt, hepoch]
    exact hpos
  have hanchor := toNat_epochAnchor hts hnonzero
    (toNat_lwmaRawDifficulty_lt hconst hlen hts hhigh)
  rw [nextDifficultyLwma3_of_constant hconst hlen hts hlow hhigh]
  apply le_stepClamp hlow (by omega)
  rw [hanchor]
  rcases Nat.le_total total 7500 with hquick | hslower
  · -- At least twice too fast: two thirds of the difficulty, doubled.
    have hdouble : (lwmaRawDifficulty exact ts cs 150).toNat * (2 : ℚ) =
        ((2 * (lwmaRawDifficulty exact ts cs 150).toNat : Nat) : ℚ) := by
      push_cast
      ring
    have hmul : d.toNat * 5050 ≤ d.toNat * windowSum ts := Nat.mul_le_mul_left _ (by omega)
    have hthirds : 2 * d.toNat / 3 ≤ (lwmaRawDifficulty exact ts cs 150).toNat := by
      rw [hraw, Nat.le_div_iff_mul_le (by omega)]
      calc 2 * d.toNat / 3 * 7575 = 2 * d.toNat / 3 * 3 * 2525 := by ring
        _ ≤ 2 * d.toNat * 2525 := Nat.mul_le_mul_right _ (Nat.div_mul_le_self _ _)
        _ = d.toNat * 5050 := by ring
        _ ≤ d.toNat * windowSum ts := hmul
    rw [epochCorrection_eq_two hepoch hpos hquick, hdouble, Int.floor_natCast]
    omega
  · -- The correction does not reduce what is at least the difficulty.
    have hmul : d.toNat * 7575 ≤ d.toNat * windowSum ts := Nat.mul_le_mul_left _ (by omega)
    have hkeep : d.toNat ≤ (lwmaRawDifficulty exact ts cs 150).toNat := by
      rw [hraw, Nat.le_div_iff_mul_le (by omega)]
      exact hmul
    have hfloor : (d.toNat : ℤ) ≤
        ⌊((lwmaRawDifficulty exact ts cs 150).toNat : ℚ) * epochCorrection ts⌋ := by
      rw [Int.le_floor]
      have hnonneg : (0 : ℚ) ≤ (lwmaRawDifficulty exact ts cs 150).toNat := Nat.cast_nonneg _
      calc ((d.toNat : ℤ) : ℚ) ≤ (lwmaRawDifficulty exact ts cs 150).toNat := by
            exact_mod_cast hkeep
        _ ≤ _ := le_mul_of_one_le_right hnonneg (one_le_epochCorrection hepoch hpos hcap)
    omega

/-- The retarget answers slow blocks with at most, and fast blocks with at least, the
    difficulty they were mined at. -/
def RetargetDirected (d : UInt64) (ts cs : List UInt64) (window : Nat) : Prop :=
  ((∀ s ∈ (solveTimes ts).rtake 100, 150 ≤ s) →
    nextDifficultyLwma3 exact ts cs 150 window ≤ d) ∧
  ((∀ s ∈ (solveTimes ts).rtake 100, 1 ≤ s ∧ s ≤ 150) →
    d ≤ nextDifficultyLwma3 exact ts cs 150 window)

/-- The direction is right exactly where it is not asked to go down: when one of the
    last 100 solve times is below the target. -/
theorem retargetDirected_iff (hconst : ConstantDifficulty d cs) (hlen : cs.length = ts.length)
    (hts : 101 ≤ ts.length) (hlow : 10 < d.toNat) (hhigh : d.toNat ≤ 2 ^ 40) (window : Nat) :
    RetargetDirected d ts cs window ↔ ∃ s ∈ (solveTimes ts).rtake 100, s < 150 := by
  constructor
  · intro h
    by_contra hnone
    have hslow : ∀ s ∈ (solveTimes ts).rtake 100, 150 ≤ s := by
      intro s hs
      by_contra hlt
      exact hnone ⟨s, hs, by omega⟩
    have hup := nextDifficultyLwma3_of_slow hconst hlen hts hlow hhigh window hslow
    have hdown := UInt64.le_iff_toNat_le.mp (h.1 hslow)
    omega
  · intro ⟨s, hs, hlt⟩
    constructor
    · intro hslow
      have hle := hslow s hs
      omega
    · intro hfast
      apply UInt64.le_iff_toNat_le.mpr
      exact le_nextDifficultyLwma3_of_fast hconst hlen hts hlow hhigh window hfast

end

/-- 101 blocks of difficulty 100, 100 seconds apart. -/
theorem retargetDirected_iff_sample :
    RetargetDirected 100 ((List.range 101).map fun i => 100 * UInt64.ofNat i)
      ((List.range 101).map fun i => 100 * UInt64.ofNat i) 720 :=
  (retargetDirected_iff (by decide +kernel) (by decide +kernel) (by decide +kernel) (by decide)
    (by decide) 720).mpr (by decide +kernel)

/-- 101 blocks of difficulty 100, exactly on target, are answered with 115. -/
theorem not_retargetDirected :
    ¬ ∀ (d : UInt64) (ts cs : List UInt64) (window : Nat), ConstantDifficulty d cs →
      cs.length = ts.length → 101 ≤ ts.length → 10 < d.toNat → d.toNat ≤ 2 ^ 40 →
        RetargetDirected d ts cs window := by
  intro h
  have hdown := (h 100 ((List.range 101).map fun i => 150 * UInt64.ofNat i)
    ((List.range 101).map fun i => 100 * UInt64.ofNat i) 720 (by decide +kernel)
    (by decide +kernel) (by decide +kernel) (by decide) (by decide)).1 (by decide +kernel)
  revert hdown
  decide +kernel

end RandomLite
