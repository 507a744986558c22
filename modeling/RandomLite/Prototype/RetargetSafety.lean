-- SUMMARY: The retarget stays inside its vectors and its words, and within fifteen percent of the previous difficulty.
import RandomLite.Library.Binary64Rounding
import RandomLite.Prototype.SolveTimes

/-!
# Safety of the retarget

`next_difficulty_lwma3` on histories whose two columns have equal length. A second
reading of the function fails on every access outside a vector; it never does. The
integer steps are exact, the conversions from `double` stay in range for windows of
less than `2 ^ 60`, and the step clamp holds whatever the floating-point steps yield.
-/

namespace RandomLite

/-! ## Checked accesses -/

/-- `v[i]` for an index computed without wrapping; `none` outside the vector. -/
def vectorAt (v : List UInt64) (i : ℤ) : Option UInt64 :=
  if 0 ≤ i then v[i.toNat]? else none

/-- The loop over the window, with `k` turns to go. -/
def checkedLoop (targetSeconds : UInt64) (timestamps : List UInt64) (n : Nat) :
    Nat → Nat → UInt64 → UInt64 → Option UInt64
  | 0, _, lwmaSum, _ => some lwmaSum
  | k + 1, i, lwmaSum, previousTimestamp =>
    (vectorAt timestamps (timestamps.length - n + i - 1)).bind fun currentTimestamp =>
      checkedLoop targetSeconds timestamps n k (i + 1)
        (lwmaSum + lwmaTerm targetSeconds currentTimestamp previousTimestamp i) currentTimestamp

/-- `raw_next_difficulty` before the epoch anchor. -/
def checkedRawDifficulty (D : DoubleArith) (timestamps cumulativeDifficulties : List UInt64)
    (targetSeconds : UInt64) : Option UInt64 :=
  let n := lwmaWindow timestamps.length
  (vectorAt timestamps (timestamps.length - n - 1)).bind fun previousTimestamp =>
  (checkedLoop targetSeconds timestamps n n 1 0 previousTimestamp).bind fun lwmaSum =>
  cumulativeDifficulties.getLast?.bind fun back =>
  (vectorAt cumulativeDifficulties (timestamps.length - n - 1)).map fun first =>
    let totalWindowDifficulty := back - first
    let denominator :=
      D.mul (D.ofUInt64 (UInt64.ofNat (n * (n + 1) / 2))) (D.ofUInt64 targetSeconds)
    let avgTarget := D.div (D.ofUInt64 totalWindowDifficulty) denominator
    D.toUInt64 (D.mul avgTarget (D.ofUInt64 lwmaSum))

/-- The epoch anchor. -/
def checkedAnchor (D : DoubleArith) (timestamps : List UInt64) (targetSeconds : UInt64)
    (rawNextDifficulty : UInt64) : Option UInt64 :=
  if 101 ≤ timestamps.length then
    timestamps.getLast?.bind fun back =>
    (vectorAt timestamps (timestamps.length - 101)).map fun first =>
      let actualEpochTime := back - first
      let expectedEpochTime := 100 * targetSeconds
      if actualEpochTime > 0 then
        let epochCorrection := D.div (D.ofUInt64 expectedEpochTime) (D.ofUInt64 actualEpochTime)
        let epochCorrection := D.max (D.literal (1 / 2)) (D.min (D.literal 2) epochCorrection)
        D.toUInt64 (D.mul (D.ofUInt64 rawNextDifficulty) epochCorrection)
      else rawNextDifficulty
  else some rawNextDifficulty

/-- `next_difficulty_lwma3`, undefined where an access is out of range. -/
def checkedNextDifficulty (D : DoubleArith) (timestamps cumulativeDifficulties : List UInt64)
    (targetSeconds : UInt64) : Option UInt64 :=
  if timestamps.length < 2 ∨ cumulativeDifficulties.length < 2 then some 1
  else
    (checkedRawDifficulty D timestamps cumulativeDifficulties targetSeconds).bind fun raw =>
    (checkedAnchor D timestamps targetSeconds raw).bind fun raw =>
    cumulativeDifficulties.getLast?.bind fun back =>
    (vectorAt cumulativeDifficulties (timestamps.length - 2)).map fun beforeLast =>
      let raw := stepClamp (back - beforeLast) raw
      if raw < 1 then 1 else raw

theorem vectorAt_of_lt {v : List UInt64} {i : ℤ} {k : Nat} (hi : i = k) (hk : k < v.length) :
    vectorAt v i = some (v.getD k 0) := by
  have hnonneg : 0 ≤ i := by omega
  have hindex : i.toNat = k := by omega
  unfold vectorAt
  rw [if_pos hnonneg, hindex, List.getD_eq_getElem?_getD, List.getElem?_eq_getElem hk]
  rfl

theorem getLast?_of_ne_nil {v : List UInt64} (hne : v ≠ []) :
    v.getLast? = some (v.getLastD 0) := by
  rw [List.getLastD_eq_getLast?, List.getLast?_eq_getLast_of_ne_nil hne]
  rfl

/-- Every turn reads the next timestamp of the window. -/
theorem checkedLoop_eq (target : UInt64) {ts : List UInt64} {n : Nat} (hn : n ≤ ts.length)
    (k : Nat) {i : Nat} (hi : i + k = n + 1) (hpos : 1 ≤ i) (sum previous : UInt64) :
    checkedLoop target ts n k i sum previous =
      some (lwmaLoop target i sum previous ((ts.drop (ts.length - n + i - 1)).take k)) := by
  induction k generalizing i sum previous with
  | zero => simp [checkedLoop, lwmaLoop]
  | succ k ih =>
    have hlt : ts.length - n + i - 1 < ts.length := by omega
    have hindex : (ts.length - n + i - 1 : ℤ) = (ts.length - n + i - 1 : Nat) := by omega
    have hcurrent : ts.getD (ts.length - n + i - 1) 0 = ts[ts.length - n + i - 1] := by
      rw [List.getD_eq_getElem?_getD, List.getElem?_eq_getElem hlt, Option.getD_some]
    have hnext : ts.length - n + (i + 1) - 1 = ts.length - n + i - 1 + 1 := by omega
    rw [checkedLoop, vectorAt_of_lt hindex hlt, Option.bind_some, ih (by omega) (by omega), hnext,
      List.drop_eq_getElem_cons hlt, List.take_succ_cons, lwmaLoop, hcurrent]

theorem checkedRawDifficulty_eq (D : DoubleArith) (target : UInt64) {ts cs : List UInt64}
    (hlen : cs.length = ts.length) (htwo : 2 ≤ ts.length) :
    checkedRawDifficulty D ts cs target = some (lwmaRawDifficulty D ts cs target) := by
  have hn : lwmaWindow ts.length ≤ ts.length - 1 := by
    unfold lwmaWindow
    omega
  have hfirst : (ts.length - lwmaWindow ts.length - 1 : ℤ) =
      (ts.length - lwmaWindow ts.length - 1 : Nat) := by omega
  have hloop (previous : UInt64) := checkedLoop_eq target (show lwmaWindow ts.length ≤ ts.length by
    omega) (lwmaWindow ts.length) (Nat.add_comm 1 _) (Nat.le_refl 1) 0 previous
  have hstart : ts.length - lwmaWindow ts.length + 1 - 1 = ts.length - lwmaWindow ts.length := by
    omega
  simp only [checkedRawDifficulty]
  rw [vectorAt_of_lt hfirst (by omega), Option.bind_some, hloop, hstart, Option.bind_some,
    getLast?_of_ne_nil (List.ne_nil_of_length_pos (by omega)), Option.bind_some,
    vectorAt_of_lt hfirst (by omega)]
  rfl

theorem checkedAnchor_eq (D : DoubleArith) (target : UInt64) (ts : List UInt64) (raw : UInt64) :
    checkedAnchor D ts target raw = some (epochAnchor D ts target raw) := by
  simp only [checkedAnchor, epochAnchor]
  by_cases hcount : 101 ≤ ts.length
  · have hfirst : (ts.length - 101 : ℤ) = (ts.length - 101 : Nat) := by omega
    rw [if_pos hcount, if_pos hcount, getLast?_of_ne_nil (List.ne_nil_of_length_pos (by omega)),
      Option.bind_some, vectorAt_of_lt hfirst (by omega)]
    rfl
  · rw [if_neg hcount, if_neg hcount]

/-- No access is out of range. -/
theorem checkedNextDifficulty_eq (D : DoubleArith) (target : UInt64) (window : Nat)
    {ts cs : List UInt64} (hlen : cs.length = ts.length) (htwo : 2 ≤ ts.length) :
    checkedNextDifficulty D ts cs target = some (nextDifficultyLwma3 D ts cs target window) := by
  have hshort : ¬ (ts.length < 2 ∨ cs.length < 2) := by omega
  have hbefore : (ts.length - 2 : ℤ) = (ts.length - 2 : Nat) := by omega
  simp only [checkedNextDifficulty, nextDifficultyLwma3, hshort, if_false]
  rw [checkedRawDifficulty_eq D target hlen htwo, Option.bind_some, checkedAnchor_eq,
    Option.bind_some, getLast?_of_ne_nil (List.ne_nil_of_length_pos (by omega)), Option.bind_some,
    vectorAt_of_lt hbefore (by omega)]
  rfl

/-! ## Integer steps -/

/-- `total_window_difficulty`. -/
def totalWindowDifficulty (cs : List UInt64) : UInt64 :=
  cs.getLastD 0 - cs.getD (cs.length - lwmaWindow cs.length - 1) 0

/-- `prev_diff`. -/
def prevDiff (cs : List UInt64) : UInt64 := cs.getLastD 0 - cs.getD (cs.length - 2) 0

/-- In a non-decreasing column the last entry is the largest. -/
theorem getD_le_getLastD {cs : List UInt64} (hmono : cs.Pairwise (· ≤ ·)) {i : Nat}
    (hi : i < cs.length) : cs.getD i 0 ≤ cs.getLastD 0 := by
  have hne : cs ≠ [] := List.ne_nil_of_length_pos (by omega)
  rw [List.getLastD_eq_getLast?, List.getLast?_eq_getLast_of_ne_nil hne, Option.getD_some,
    List.getD_eq_getElem?_getD, List.getElem?_eq_getElem hi, Option.getD_some,
    List.getLast_eq_getElem]
  rcases Nat.lt_or_ge i (cs.length - 1) with hlt | hge
  · exact List.pairwise_iff_getElem.mp hmono i (cs.length - 1) hi (by omega) hlt
  · have heq : i = cs.length - 1 := by omega
    subst heq
    exact UInt64.le_refl _

/-- A difference to the last entry does not wrap. -/
theorem toNat_sub_getLastD {cs : List UInt64} (hmono : cs.Pairwise (· ≤ ·)) {i : Nat}
    (hi : i < cs.length) :
    ((cs.getLastD 0 - cs.getD i 0).toNat : ℤ) = (cs.getLastD 0).toNat - (cs.getD i 0).toNat := by
  have hle := getD_le_getLastD hmono hi
  rw [UInt64.toNat_sub_of_le _ _ hle]
  have hle' := UInt64.le_iff_toNat_le.mp hle
  omega

/-- The weighted sum of the clamped solve times of the window, exactly. -/
theorem toNat_lwmaSum_eq {ts : List UInt64} (htwo : 2 ≤ ts.length)
    (htimes : ∀ t ∈ ts, t.toNat < 2 ^ 63) :
    (lwmaSum 150 ts).toNat =
      weightedSum 1 (((solveTimes ts).rtake (lwmaWindow ts.length)).map clampSolveTime) := by
  have hn : lwmaWindow ts.length + 1 ≤ ts.length := by
    unfold lwmaWindow
    omega
  have hmem : ∀ t ∈ ts.rtake (lwmaWindow ts.length + 1), t.toNat < 2 ^ 63 :=
    fun t ht => htimes t (List.mem_of_mem_drop ht)
  rw [toNat_lwmaSum htwo, windowSum, weighedTimes_eq (solveTimes_bounds hmem), solveTimes_rtake hn]

/-! ## Conversions from `double` -/

/-- The argument of the first conversion to `uint64_t`. -/
def rawProduct (D : DoubleArith) (ts cs : List UInt64) (targetSeconds : UInt64) : D.Double :=
  let n := lwmaWindow ts.length
  D.mul
    (D.div (D.ofUInt64 (cs.getLastD 0 - cs.getD (ts.length - n - 1) 0))
      (D.mul (D.ofUInt64 (UInt64.ofNat (n * (n + 1) / 2))) (D.ofUInt64 targetSeconds)))
    (D.ofUInt64 (lwmaSum targetSeconds ts))

/-- The argument of the second. -/
def anchorProduct (D : DoubleArith) (ts : List UInt64) (targetSeconds raw : UInt64) : D.Double :=
  D.mul (D.ofUInt64 raw)
    (D.max (D.literal (1 / 2))
      (D.min (D.literal 2)
        (D.div (D.ofUInt64 (100 * targetSeconds))
          (D.ofUInt64 (ts.getLastD 0 - ts.getD (ts.length - 101) 0)))))

/-- The raw difficulty is the product, converted. -/
theorem lwmaRawDifficulty_eq (D : DoubleArith) (ts cs : List UInt64) (target : UInt64) :
    lwmaRawDifficulty D ts cs target = D.toUInt64 (rawProduct D ts cs target) := rfl

theorem epochAnchor_eq (D : DoubleArith) (ts : List UInt64) (target raw : UInt64) :
    epochAnchor D ts target raw =
      if 101 ≤ ts.length ∧ ts.getLastD 0 - ts.getD (ts.length - 101) 0 > 0 then
        D.toUInt64 (anchorProduct D ts target raw)
      else raw := by
  simp only [epochAnchor, anchorProduct]
  by_cases hcount : 101 ≤ ts.length
  · simp only [hcount, if_true, true_and]
  · simp only [hcount, if_false, false_and]

/-- The conversion of this value to `uint64_t` is defined. -/
def InRange (x : DoubleArith.binary64.Double) : Prop :=
  0 ≤ DoubleArith.toRat DoubleArith.roundBinary64 x ∧
    DoubleArith.toRat DoubleArith.roundBinary64 x < 2 ^ 64

section

open DoubleArith

/-- Two roundings and a quotient: the weighted sum is at most six denominators. -/
theorem product_le {t y l den : ℚ} (hden : 0 < den) (hsmall : den ≤ 2 ^ 20) (ht : 0 ≤ t)
    (ht' : t ≤ 2 ^ 60 + 2 ^ 8) (hy : y = t / den) (hl : 0 ≤ l) (hl' : l ≤ 6 * den) :
    0 ≤ roundBinary64 (roundBinary64 y * l) ∧
      roundBinary64 (roundBinary64 y * l) ≤ 7 * 2 ^ 60 := by
  have hynonneg : 0 ≤ y := by
    rw [hy]
    exact div_nonneg ht hden.le
  have ha := roundBinary64_nonneg hynonneg
  have hyden : y * den = t := by rw [hy, div_mul_cancel₀ _ hden.ne']
  have hal : roundBinary64 y * l ≤ 6 * (t + (t + den) / 2 ^ 53) := by
    calc roundBinary64 y * l ≤ (y + (y + 1) / 2 ^ 53) * (6 * den) :=
          mul_le_mul (roundBinary64_le hynonneg) hl' hl (ha.trans (roundBinary64_le hynonneg))
      _ = 6 * (y * den + (y * den + den) / 2 ^ 53) := by ring
      _ = 6 * (t + (t + den) / 2 ^ 53) := by rw [hyden]
  have hproduct := mul_nonneg ha hl
  refine ⟨roundBinary64_nonneg hproduct, (roundBinary64_le hproduct).trans ?_⟩
  linarith

/-- The first product is below seven sixteenths of a word. -/
theorem rawProduct_bounds {ts cs : List UInt64} (hlen : cs.length = ts.length)
    (htwo : 2 ≤ ts.length) (htotal : (totalWindowDifficulty cs).toNat < 2 ^ 60) :
    0 ≤ toRat roundBinary64 (rawProduct (rounded roundBinary64) ts cs 150) ∧
      toRat roundBinary64 (rawProduct (rounded roundBinary64) ts cs 150) ≤ 7 * 2 ^ 60 := by
  -- The sum of the weights, the denominator, and the weighted sum are small integers.
  have hn : 1 ≤ lwmaWindow ts.length ∧ lwmaWindow ts.length ≤ 100 := by
    unfold lwmaWindow
    omega
  obtain ⟨w, hw⟩ : ∃ w, w = lwmaWindow ts.length * (lwmaWindow ts.length + 1) / 2 := ⟨_, rfl⟩
  have hwpos : 1 ≤ w := by
    have hprod : 1 * 2 ≤ lwmaWindow ts.length * (lwmaWindow ts.length + 1) :=
      Nat.mul_le_mul hn.1 (by omega)
    omega
  have hwle : w ≤ 5050 := by
    have hprod : lwmaWindow ts.length * (lwmaWindow ts.length + 1) ≤ 100 * 101 :=
      Nat.mul_le_mul hn.2 (by omega)
    omega
  have hsum : (lwmaSum 150 ts).toNat ≤ 6 * (w * 150) := by
    rw [toNat_lwmaSum htwo, hw]
    exact windowSum_le htwo
  have hweights : (UInt64.ofNat w).toNat = w := by
    rw [UInt64.toNat_ofNat', Nat.mod_eq_of_lt (by omega)]
  have hden : roundBinary64 (roundBinary64 (w : ℚ) * roundBinary64 ((150 : Nat) : ℚ)) =
      ((w * 150 : Nat) : ℚ) := by
    rw [roundBinary64_natCast (by omega : w < 2 ^ 53), roundBinary64_natCast (by norm_num),
      ← Nat.cast_mul, roundBinary64_natCast (by omega)]
  have hlwma : roundBinary64 ((lwmaSum 150 ts).toNat : ℚ) = (lwmaSum 150 ts).toNat :=
    roundBinary64_natCast (by omega)
  have hexact : toRat roundBinary64 (rawProduct (rounded roundBinary64) ts cs 150) =
      roundBinary64 (roundBinary64 (roundBinary64 ((totalWindowDifficulty cs).toNat : ℚ) /
        ((w * 150 : Nat) : ℚ)) * ((lwmaSum 150 ts).toNat : ℚ)) := by
    simp only [rawProduct, totalWindowDifficulty, hlen, toRat_mul, toRat_div, toRat_ofUInt64,
      ← hw, hweights, hlwma]
    rw [show (150 : UInt64).toNat = 150 from rfl, hden]
  have htotal' : ((totalWindowDifficulty cs).toNat : ℚ) ≤ 2 ^ 60 := by exact_mod_cast htotal.le
  have htnonneg : (0 : ℚ) ≤ (totalWindowDifficulty cs).toNat := Nat.cast_nonneg _
  have ht := roundBinary64_le htnonneg
  have hwq : (1 : ℚ) ≤ w := by exact_mod_cast hwpos
  have hwq' : (w : ℚ) ≤ 5050 := by exact_mod_cast hwle
  rw [hexact]
  apply product_le (t := roundBinary64 (totalWindowDifficulty cs).toNat) _ _
    (roundBinary64_nonneg htnonneg) _ rfl (Nat.cast_nonneg _)
  · exact_mod_cast hsum
  · push_cast
    linarith
  · push_cast
    linarith
  · linarith

/-- The correction is at most two, so the second product stays below a word. -/
theorem anchorProduct_bounds {raw : UInt64} (hraw : (raw.toNat : ℚ) ≤ 7 * 2 ^ 60)
    (ts : List UInt64) (target : UInt64) :
    0 ≤ toRat roundBinary64 (anchorProduct (rounded roundBinary64) ts target raw) ∧
      toRat roundBinary64 (anchorProduct (rounded roundBinary64) ts target raw) < 2 ^ 64 := by
  obtain ⟨c, hc⟩ : ∃ c, c = toRat roundBinary64 ((rounded roundBinary64).max
      ((rounded roundBinary64).literal (1 / 2)) ((rounded roundBinary64).min
        ((rounded roundBinary64).literal 2) ((rounded roundBinary64).div
          ((rounded roundBinary64).ofUInt64 (100 * target)) ((rounded roundBinary64).ofUInt64
            (ts.getLastD 0 - ts.getD (ts.length - 101) 0))))) := ⟨_, rfl⟩
  have htwo : roundBinary64 2 = 2 := roundBinary64_natCast (n := 2) (by norm_num)
  have hhalf : 0 ≤ roundBinary64 (1 / 2) ∧ roundBinary64 (1 / 2) ≤ 2 := by
    have hle := roundBinary64_le (show (0 : ℚ) ≤ 1 / 2 by norm_num)
    refine ⟨roundBinary64_nonneg (by norm_num), hle.trans ?_⟩
    norm_num
  have hcbounds : 0 ≤ c ∧ c ≤ 2 := by
    rw [hc, toRat_max, toRat_min, toRat_literal, toRat_literal, htwo]
    exact ⟨hhalf.1.trans (le_max_left _ _), max_le hhalf.2 (min_le_left _ _)⟩
  have hexact : toRat roundBinary64 (anchorProduct (rounded roundBinary64) ts target raw) =
      roundBinary64 (roundBinary64 (raw.toNat : ℚ) * c) := by
    rw [hc]
    rfl
  have hnonneg : (0 : ℚ) ≤ raw.toNat := Nat.cast_nonneg _
  have hround := roundBinary64_nonneg hnonneg
  have hproduct := mul_nonneg hround hcbounds.1
  have hle : roundBinary64 (raw.toNat : ℚ) * c ≤ (raw.toNat + (raw.toNat + 1) / 2 ^ 53) * 2 :=
    mul_le_mul (roundBinary64_le hnonneg) hcbounds.2 hcbounds.1
      (hround.trans (roundBinary64_le hnonneg))
  rw [hexact]
  refine ⟨roundBinary64_nonneg hproduct, (roundBinary64_le hproduct).trans_lt ?_⟩
  linarith

end

/-! ## The step clamp -/

theorem toNat_percent {p : UInt64} {k : UInt64} (hk : k.toNat ≤ 115)
    (hp : p.toNat ≤ (2 ^ 64 - 1) / 115) : (p * k / 100).toNat = k.toNat * p.toNat / 100 := by
  have hprod : p.toNat * k.toNat ≤ p.toNat * 115 := Nat.mul_le_mul_left _ hk
  rw [UInt64.toNat_div, UInt64.toNat_mul, Nat.mod_eq_of_lt (by omega), Nat.mul_comm]
  rfl

/-- Where fifteen percent more fit in the word, the step is a clamp of the raw difficulty. -/
theorem toNat_stepClamp {p : UInt64} (hlow : 10 < p.toNat) (hhigh : p.toNat ≤ (2 ^ 64 - 1) / 115)
    (raw : UInt64) :
    (stepClamp p raw).toNat =
      max (85 * p.toNat / 100) (min raw.toNat (115 * p.toNat / 100)) := by
  have hgt : p > 10 := by
    apply UInt64.lt_iff_toNat_lt.mpr
    exact hlow
  have hmax : (p * 115 / 100).toNat = 115 * p.toNat / 100 := toNat_percent (by decide) hhigh
  have hmin : (p * 85 / 100).toNat = 85 * p.toNat / 100 := toNat_percent (by decide) hhigh
  have hcut : (if raw > p * 115 / 100 then p * 115 / 100 else raw).toNat =
      min raw.toNat (115 * p.toNat / 100) := by
    split
    · rename_i hraw
      rw [gt_iff_lt, UInt64.lt_iff_toNat_lt, hmax] at hraw
      rw [hmax, Nat.min_eq_right hraw.le]
    · rename_i hraw
      rw [gt_iff_lt, UInt64.lt_iff_toNat_lt, hmax, Nat.not_lt] at hraw
      rw [Nat.min_eq_left hraw]
  simp only [stepClamp, hgt, if_true]
  generalize (if raw > p * 115 / 100 then p * 115 / 100 else raw) = cut at hcut ⊢
  split
  · rename_i hless
    rw [UInt64.lt_iff_toNat_lt, hcut, hmin] at hless
    rw [hmin, Nat.max_eq_left hless.le]
  · rename_i hless
    rw [UInt64.lt_iff_toNat_lt, hcut, hmin, Nat.not_lt] at hless
    rw [hcut, Nat.max_eq_right hless]

/-- Whatever the raw difficulty, the step is at most fifteen percent. -/
theorem stepClamp_bounds {p : UInt64} (hlow : 10 < p.toNat) (hhigh : p.toNat ≤ (2 ^ 64 - 1) / 115)
    (raw : UInt64) :
    85 * p.toNat / 100 ≤ (stepClamp p raw).toNat ∧
      (stepClamp p raw).toNat ≤ 115 * p.toNat / 100 := by
  rw [toNat_stepClamp hlow hhigh]
  refine ⟨Nat.le_max_left _ _, Nat.max_le.mpr ⟨?_, Nat.min_le_right _ _⟩⟩
  omega

/-- The result of the retarget is within the step clamp. -/
theorem nextDifficultyLwma3_bounds (D : DoubleArith) (target : UInt64) (window : Nat)
    {ts cs : List UInt64} (hlen : cs.length = ts.length) (htwo : 2 ≤ ts.length)
    (hlow : 10 < (prevDiff cs).toNat) (hhigh : (prevDiff cs).toNat ≤ (2 ^ 64 - 1) / 115) :
    85 * (prevDiff cs).toNat / 100 ≤ (nextDifficultyLwma3 D ts cs target window).toNat ∧
      (nextDifficultyLwma3 D ts cs target window).toNat ≤ 115 * (prevDiff cs).toNat / 100 := by
  have hshort : ¬ (ts.length < 2 ∨ cs.length < 2) := by omega
  have hclamp := stepClamp_bounds hlow hhigh
    (epochAnchor D ts target (lwmaRawDifficulty D ts cs target))
  simp only [nextDifficultyLwma3, hshort, if_false]
  simp only [prevDiff, hlen] at hclamp hlow ⊢
  split
  · rename_i hzero
    have hzero' := UInt64.lt_iff_toNat_lt.mp hzero
    rw [show (1 : UInt64).toNat = 1 from rfl] at hzero'
    omega
  · exact hclamp

/-! ## Safety -/

/-- What holds of one call on a history: no access out of range, exact integer steps,
    conversions in range for a window below `2 ^ 60`, and a positive result within the
    step clamp. -/
structure RetargetSafe (D : DoubleArith) (ts cs : List UInt64) (window : Nat) : Prop where
  accesses : checkedNextDifficulty D ts cs 150 = some (nextDifficultyLwma3 D ts cs 150 window)
  windowTotal : ((totalWindowDifficulty cs).toNat : ℤ) =
    (cs.getLastD 0).toNat - (cs.getD (cs.length - lwmaWindow cs.length - 1) 0).toNat
  prevDiff : ((prevDiff cs).toNat : ℤ) =
    (cs.getLastD 0).toNat - (cs.getD (cs.length - 2) 0).toNat
  lwmaSum : (lwmaSum 150 ts).toNat =
    weightedSum 1 (((solveTimes ts).rtake (lwmaWindow ts.length)).map clampSolveTime)
  conversions : (totalWindowDifficulty cs).toNat < 2 ^ 60 →
    InRange (rawProduct .binary64 ts cs 150) ∧
      InRange (anchorProduct .binary64 ts 150 (lwmaRawDifficulty .binary64 ts cs 150))
  positive : 1 ≤ nextDifficultyLwma3 D ts cs 150 window
  clamped : 10 < (RandomLite.prevDiff cs).toNat →
    (RandomLite.prevDiff cs).toNat ≤ (2 ^ 64 - 1) / 115 →
      85 * (RandomLite.prevDiff cs).toNat / 100 ≤
          (nextDifficultyLwma3 D ts cs 150 window).toNat ∧
        (nextDifficultyLwma3 D ts cs 150 window).toNat ≤
          115 * (RandomLite.prevDiff cs).toNat / 100

/-- The retarget is safe on all timestamps below `2 ^ 63`, in any order, and all
    non-decreasing cumulative difficulties, over any arithmetic of `double`. -/
theorem nextDifficultyLwma3_safe (D : DoubleArith) (window : Nat) {ts cs : List UInt64}
    (hlen : cs.length = ts.length) (htwo : 2 ≤ ts.length) (htimes : ∀ t ∈ ts, t.toNat < 2 ^ 63)
    (hmono : cs.Pairwise (· ≤ ·)) : RetargetSafe D ts cs window where
  accesses := checkedNextDifficulty_eq D 150 window hlen htwo
  windowTotal := toNat_sub_getLastD hmono (by omega)
  prevDiff := toNat_sub_getLastD hmono (by omega)
  lwmaSum := toNat_lwmaSum_eq htwo htimes
  conversions := by
    intro htotal
    obtain ⟨hnonneg, hle⟩ := rawProduct_bounds hlen htwo htotal
    have hraw : ((lwmaRawDifficulty .binary64 ts cs 150).toNat : ℚ) ≤ 7 * 2 ^ 60 :=
      (DoubleArith.toUInt64_le _ hnonneg).trans hle
    exact ⟨⟨hnonneg, hle.trans_lt (by norm_num)⟩, anchorProduct_bounds hraw ts 150⟩
  positive := one_le_nextDifficultyLwma3 D ts cs 150 window
  clamped := nextDifficultyLwma3_bounds D 150 window hlen htwo

/-- Three blocks, the second of them dated before the first. -/
theorem nextDifficultyLwma3_safe_sample :
    RetargetSafe .binary64 [1000, 900, 1300] [100, 200, 300] 720 :=
  nextDifficultyLwma3_safe .binary64 720 (by decide) (by decide) (by simp) (by decide)

end RandomLite
