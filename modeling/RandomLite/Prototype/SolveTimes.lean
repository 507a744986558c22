-- SUMMARY: The weighted solve times of the retarget, summed exactly.
import RandomLite.Prototype.RetargetWindow

/-!
# Solve times

The loop of `next_difficulty_lwma3` at the target of 150 seconds. The solve times are
the integer differences of the timestamps; the loop reads them off 64-bit words,
clamps each between 1 and 900, and sums them under the weights 1, 2, …, at most 100,
which fits a word with room to spare.
-/

namespace RandomLite

/-! ## Readings of a difference -/

/-- The timestamps as integers. -/
def exactTimes (ts : List UInt64) : List ℤ := ts.map fun t => (t.toNat : ℤ)

/-- The solve times of a chain, as integers. -/
def solveTimes (ts : List UInt64) : List ℤ := differences (exactTimes ts)

@[simp] theorem length_exactTimes (ts : List UInt64) : (exactTimes ts).length = ts.length := by
  simp [exactTimes]

@[simp] theorem length_solveTimes (ts : List UInt64) : (solveTimes ts).length = ts.length - 1 := by
  simp [solveTimes]

theorem solveTimes_cons_cons (a b : UInt64) (ts : List UInt64) :
    solveTimes (a :: b :: ts) = ((b.toNat : ℤ) - a.toNat) :: solveTimes (b :: ts) := rfl

theorem toInt_toInt64 (x : UInt64) :
    x.toInt64.toInt = if x.toNat < 2 ^ 63 then (x.toNat : ℤ) else x.toNat - 2 ^ 64 := by
  have hcond := BitVec.toInt_eq_toNat_cond x.toBitVec
  have hread : x.toInt64.toInt = x.toBitVec.toInt := rfl
  rw [hread, hcond, UInt64.toNat_toBitVec]
  split
  · rw [if_pos (by omega)]
  · rw [if_neg (by omega)]
    rfl

/-- A difference of timestamps is read right unless it exceeds 63 bits. -/
theorem toInt_sub_of_lt {current previous : UInt64}
    (hlow : -2 ^ 63 ≤ (current.toNat : ℤ) - previous.toNat)
    (hhigh : (current.toNat : ℤ) - previous.toNat < 2 ^ 63) :
    (current - previous).toInt64.toInt = current.toNat - previous.toNat := by
  have hcurrent := current.toNat_lt
  have hprevious := previous.toNat_lt
  rw [toInt_toInt64, UInt64.toNat_sub]
  split <;> omega

/-! ## One turn -/

/-- What the loop makes of a solve time: at least one second, at most six targets. -/
def clampSolveTime (s : ℤ) : Nat := (max 1 (min s 900)).toNat

theorem one_le_clampSolveTime (s : ℤ) : 1 ≤ clampSolveTime s := by
  unfold clampSolveTime
  omega

theorem clampSolveTime_le (s : ℤ) : clampSolveTime s ≤ 900 := by
  unfold clampSolveTime
  omega

/-- Solve times within the bounds are kept. -/
theorem clampSolveTime_of_le {s : ℤ} (hlow : 1 ≤ s) (hhigh : s ≤ 900) :
    (clampSolveTime s : ℤ) = s := by
  unfold clampSolveTime
  omega

theorem le_clampSolveTime {b : Nat} {s : ℤ} (hb : b ≤ 900) (h : (b : ℤ) ≤ s) :
    b ≤ clampSolveTime s := by
  unfold clampSolveTime
  omega

/-- One weighted solve time, at the weights the window has. -/
theorem toNat_lwmaTerm (current previous : UInt64) {i : Nat} (hi : i ≤ 100) :
    (lwmaTerm 150 current previous i).toNat =
      i * clampSolveTime (current - previous).toInt64.toInt := by
  have hsub : current.toInt64 - previous.toInt64 = (current - previous).toInt64 :=
    (UInt64.toInt64_sub current previous).symm
  have hsix : (6 * (150 : UInt64)).toInt64 = 900 := by decide
  have hone : (1 : Int64).toInt = 1 := by decide
  have hcap : (900 : Int64).toInt = 900 := by decide
  have hi' : (UInt64.ofNat i).toNat = i := by
    rw [UInt64.toNat_ofNat', Nat.mod_eq_of_lt (by omega)]
  have hsolve : ∀ s : Int64, clampSolveTime s.toInt =
      (if (if s < 1 then 1 else s) > 900 then 900 else if s < 1 then 1 else s).toUInt64.toNat := by
    intro s
    unfold clampSolveTime
    by_cases hlow : s < 1
    · have hs := Int64.lt_iff_toInt_lt.mp hlow
      rw [hone] at hs
      simp only [hlow, if_true]
      rw [if_neg (by decide), show (1 : Int64).toUInt64.toNat = 1 by decide]
      omega
    · have hs := hlow
      rw [Int64.lt_iff_toInt_lt, hone] at hs
      simp only [hlow, if_false]
      by_cases hhigh : s > 900
      · have hs' := Int64.lt_iff_toInt_lt.mp hhigh
        rw [hcap] at hs'
        rw [if_pos hhigh, show (900 : Int64).toUInt64.toNat = 900 by decide]
        omega
      · have hs' := hhigh
        rw [gt_iff_lt, Int64.lt_iff_toInt_lt, hcap] at hs'
        have hnonneg : (0 : Int64) ≤ s := by
          rw [Int64.le_iff_toInt_le, show (0 : Int64).toInt = 0 by decide]
          omega
        rw [if_neg hhigh, Int64.toNat_toUInt64_of_le hnonneg, Int64.toNatClampNeg]
        omega
  have hbound := clampSolveTime_le (current - previous).toInt64.toInt
  simp only [lwmaTerm, hsub, hsix]
  rw [UInt64.toNat_mul, ← hsolve, hi', Nat.mul_comm, Nat.mod_eq_of_lt]
  calc i * clampSolveTime (current - previous).toInt64.toInt ≤ 100 * 900 := Nat.mul_le_mul hi hbound
    _ < 2 ^ 64 := by norm_num

/-! ## Weighted sums -/

/-- The sum of a list under the weights `i`, `i + 1`, …. -/
def weightedSum : Nat → List Nat → Nat
  | _, [] => 0
  | i, s :: ss => i * s + weightedSum (i + 1) ss

/-- One more of every weight adds the plain sum. -/
theorem weightedSum_succ (i : Nat) (ss : List Nat) :
    weightedSum (i + 1) ss = ss.sum + weightedSum i ss := by
  induction ss generalizing i with
  | nil => rfl
  | cons s ss ih =>
    simp only [weightedSum, List.sum_cons]
    rw [ih (i + 1)]
    ring

/-- An upper bound of the entries bounds the sum; twice the sum of `n` weights from `i`
    on is `n * (2 * i + n - 1)`. -/
theorem two_weightedSum_le {b : Nat} {ss : List Nat} (i : Nat) (h : ∀ s ∈ ss, s ≤ b) :
    2 * weightedSum i ss + b * ss.length ≤ b * (ss.length * (2 * i + ss.length)) := by
  induction ss generalizing i with
  | nil => simp [weightedSum]
  | cons s ss ih =>
    have hs : i * s ≤ i * b := Nat.mul_le_mul_left i (h s List.mem_cons_self)
    have hrest := ih (i + 1) fun s' hs' => h s' (List.mem_cons_of_mem _ hs')
    simp only [weightedSum, List.length_cons]
    calc 2 * (i * s + weightedSum (i + 1) ss) + b * (ss.length + 1)
        ≤ 2 * (i * b) + (2 * weightedSum (i + 1) ss + b * ss.length) + b := by
          rw [Nat.mul_add, Nat.mul_succ]
          omega
      _ ≤ 2 * (i * b) + b * (ss.length * (2 * (i + 1) + ss.length)) + b := by omega
      _ = b * ((ss.length + 1) * (2 * i + (ss.length + 1))) := by ring

/-- A lower bound of the entries bounds the sum from below. -/
theorem le_two_weightedSum {b : Nat} {ss : List Nat} (i : Nat) (h : ∀ s ∈ ss, b ≤ s) :
    b * (ss.length * (2 * i + ss.length)) ≤ 2 * weightedSum i ss + b * ss.length := by
  induction ss generalizing i with
  | nil => simp [weightedSum]
  | cons s ss ih =>
    have hs : i * b ≤ i * s := Nat.mul_le_mul_left i (h s List.mem_cons_self)
    have hrest := ih (i + 1) fun s' hs' => h s' (List.mem_cons_of_mem _ hs')
    simp only [weightedSum, List.length_cons]
    calc b * ((ss.length + 1) * (2 * i + (ss.length + 1)))
        = 2 * (i * b) + b * (ss.length * (2 * (i + 1) + ss.length)) + b := by ring
      _ ≤ 2 * (i * b) + (2 * weightedSum (i + 1) ss + b * ss.length) + b := by omega
      _ ≤ 2 * (i * s + weightedSum (i + 1) ss) + b * (ss.length + 1) := by
          rw [Nat.mul_add, Nat.mul_succ]
          omega

theorem weightedSum_replicate_le {b : Nat} {ss : List Nat} (i : Nat) (h : ∀ s ∈ ss, b ≤ s) :
    weightedSum i (List.replicate ss.length b) ≤ weightedSum i ss := by
  induction ss generalizing i with
  | nil => exact Nat.le_refl 0
  | cons s ss ih =>
    have hs : i * b ≤ i * s := Nat.mul_le_mul_left i (h s List.mem_cons_self)
    have hrest := ih (i + 1) fun s' hs' => h s' (List.mem_cons_of_mem _ hs')
    simp only [List.length_cons, List.replicate_succ, weightedSum]
    omega

/-! ## The loop -/

/-- The solve times the loop weighs, read off the words. -/
def weighedTimes (ts : List UInt64) : List Nat :=
  (differences ts).map fun d => clampSolveTime d.toInt64.toInt

@[simp] theorem length_weighedTimes (ts : List UInt64) :
    (weighedTimes ts).length = ts.length - 1 := by
  simp [weighedTimes]

theorem mem_weighedTimes {ts : List UInt64} {s : Nat} (h : s ∈ weighedTimes ts) :
    1 ≤ s ∧ s ≤ 900 := by
  obtain ⟨d, _, rfl⟩ := List.mem_map.mp h
  exact ⟨one_le_clampSolveTime _, clampSolveTime_le _⟩

/-- Solve times of up to 63 bits are read right. -/
theorem weighedTimes_eq {ts : List UInt64} (h : ∀ s ∈ solveTimes ts, -2 ^ 63 ≤ s ∧ s < 2 ^ 63) :
    weighedTimes ts = (solveTimes ts).map clampSolveTime := by
  induction ts with
  | nil => rfl
  | cons a ts ih =>
    cases ts with
    | nil => rfl
    | cons b ts =>
      rw [solveTimes_cons_cons] at h ⊢
      obtain ⟨hlow, hhigh⟩ := h _ List.mem_cons_self
      have hrest := ih fun s hs => h s (List.mem_cons_of_mem _ hs)
      rw [List.map_cons, ← hrest, ← toInt_sub_of_lt hlow hhigh]
      rfl

/-- Timestamps below `2 ^ 63` have such solve times, whatever their order. -/
theorem solveTimes_bounds {ts : List UInt64} (htimes : ∀ t ∈ ts, t.toNat < 2 ^ 63) :
    ∀ s ∈ solveTimes ts, -2 ^ 63 ≤ s ∧ s < 2 ^ 63 := by
  induction ts with
  | nil => simp [solveTimes, exactTimes, differences]
  | cons a ts ih =>
    cases ts with
    | nil => simp [solveTimes, exactTimes, differences]
    | cons b ts =>
      have ha := htimes a List.mem_cons_self
      have hb := htimes b (List.mem_cons_of_mem _ List.mem_cons_self)
      intro s hs
      rw [solveTimes_cons_cons, List.mem_cons] at hs
      rcases hs with rfl | hs
      · omega
      · exact ih (fun t ht => htimes t (List.mem_cons_of_mem _ ht)) s hs

theorem solveTimes_rtake {ts : List UInt64} {n : Nat} (h : n + 1 ≤ ts.length) :
    solveTimes (ts.rtake (n + 1)) = (solveTimes ts).rtake n := by
  have hmap : exactTimes (ts.rtake (n + 1)) = (exactTimes ts).rtake (n + 1) := by
    unfold List.rtake exactTimes
    rw [List.map_drop, List.length_map]
  unfold solveTimes
  rw [hmap, differences.rtake_succ (by simpa using h)]

/-- The loop sums the weighed solve times without wrapping. -/
theorem toNat_lwmaLoop (ts : List UInt64) {i : Nat} {sum previous : UInt64}
    (hi : i + ts.length ≤ 101) (hsum : sum.toNat + 90000 * ts.length < 2 ^ 64) :
    (lwmaLoop 150 i sum previous ts).toNat =
      sum.toNat + weightedSum i (weighedTimes (previous :: ts)) := by
  induction ts generalizing i sum previous with
  | nil => rfl
  | cons t ts ih =>
    rw [List.length_cons] at hi hsum
    have hterm := toNat_lwmaTerm t previous (show i ≤ 100 by omega)
    have hbound : i * clampSolveTime (t - previous).toInt64.toInt ≤ 90000 :=
      Nat.mul_le_mul (show i ≤ 100 by omega) (clampSolveTime_le _)
    have hadd : (sum + lwmaTerm 150 t previous i).toNat =
        sum.toNat + i * clampSolveTime (t - previous).toInt64.toInt := by
      rw [UInt64.toNat_add, hterm, Nat.mod_eq_of_lt (by omega)]
    rw [lwmaLoop, ih (by omega) (by omega), hadd]
    simp only [weighedTimes, differences, List.map_cons, weightedSum]
    omega

/-- The sum of the window of a chain. -/
def windowSum (ts : List UInt64) : Nat :=
  weightedSum 1 (weighedTimes (ts.rtake (lwmaWindow ts.length + 1)))

/-- `lwma_sum`, as `lwmaRawDifficulty` computes it. -/
def lwmaSum (targetSeconds : UInt64) (ts : List UInt64) : UInt64 :=
  lwmaLoop targetSeconds 1 0 (ts.getD (ts.length - lwmaWindow ts.length - 1) 0)
    ((ts.drop (ts.length - lwmaWindow ts.length)).take (lwmaWindow ts.length))

theorem rtake_eq_cons {ts : List UInt64} {n : Nat} (h : n + 1 ≤ ts.length) :
    ts.rtake (n + 1) = ts.getD (ts.length - n - 1) 0 :: (ts.drop (ts.length - n)).take n := by
  have hindex : ts.length - n - 1 < ts.length := by omega
  have htake : (ts.drop (ts.length - n)).take n = ts.drop (ts.length - n - 1 + 1) := by
    rw [List.take_of_length_le]
    · congr 1
      omega
    · rw [List.length_drop]
      omega
  rw [htake, List.getD_eq_getElem?_getD, List.getElem?_eq_getElem hindex, Option.getD_some,
    List.getElem_cons_drop]
  unfold List.rtake
  congr 1

/-- The window's sum is exact. -/
theorem toNat_lwmaSum {ts : List UInt64} (h : 2 ≤ ts.length) :
    (lwmaSum 150 ts).toNat = windowSum ts := by
  have hn : lwmaWindow ts.length + 1 ≤ ts.length ∧ lwmaWindow ts.length ≤ 100 := by
    unfold lwmaWindow
    omega
  have hlen : ((ts.drop (ts.length - lwmaWindow ts.length)).take (lwmaWindow ts.length)).length ≤
      lwmaWindow ts.length := List.length_take_le _ _
  unfold lwmaSum windowSum
  rw [toNat_lwmaLoop _ (by omega) (by simp only [UInt64.toNat_zero]; omega), ← rtake_eq_cons hn.1,
    UInt64.toNat_zero, Nat.zero_add]

theorem length_window {ts : List UInt64} (h : 2 ≤ ts.length) :
    (weighedTimes (ts.rtake (lwmaWindow ts.length + 1))).length = lwmaWindow ts.length := by
  have hn : lwmaWindow ts.length + 1 ≤ ts.length := by
    unfold lwmaWindow
    omega
  unfold List.rtake
  rw [length_weighedTimes, List.length_drop]
  omega

/-- The window's sum is at most six times what it is on target. -/
theorem windowSum_le {ts : List UInt64} (h : 2 ≤ ts.length) :
    windowSum ts ≤ 6 * (lwmaWindow ts.length * (lwmaWindow ts.length + 1) / 2 * 150) := by
  have hwindow := length_window h
  have hcap : ∀ s ∈ weighedTimes (ts.rtake (lwmaWindow ts.length + 1)), s ≤ 900 :=
    fun s hs => (mem_weighedTimes hs).2
  have hbound := two_weightedSum_le 1 hcap
  rw [hwindow] at hbound
  have heven : 2 * (lwmaWindow ts.length * (lwmaWindow ts.length + 1) / 2) =
      lwmaWindow ts.length * (lwmaWindow ts.length + 1) :=
    Nat.mul_div_cancel' (Nat.even_mul_succ_self _).two_dvd
  have hexpand : lwmaWindow ts.length * (2 * 1 + lwmaWindow ts.length) =
      lwmaWindow ts.length * (lwmaWindow ts.length + 1) + lwmaWindow ts.length := by ring
  rw [hexpand] at hbound
  unfold windowSum
  omega

end RandomLite
