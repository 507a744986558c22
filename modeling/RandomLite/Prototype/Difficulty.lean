-- SUMMARY: The LWMA-3 retarget and the proof-of-work test (`crypto/difficulty.cpp`).
import RandomLite.Library.Binary64
import RandomLite.Library.Bytes
import RandomLite.Prototype.CryptonoteBasic

/-!
# Difficulty

`next_difficulty_lwma3` and `check_pow_hash`, over 64-bit machine integers and an
arbitrary arithmetic of `double`. Signed subtraction wraps here where C++ leaves
the overflow undefined, which timestamps below `2 ^ 63` do not reach.
-/

namespace RandomLite

/-- One turn of the loop over the window: the clamped solve time of block `i`,
    weighted by `i`. -/
def lwmaTerm (targetSeconds currentTimestamp previousTimestamp : UInt64) (i : Nat) : UInt64 :=
  let solveTime := currentTimestamp.toInt64 - previousTimestamp.toInt64
  let solveTime := if solveTime < 1 then 1 else solveTime
  let solveTime :=
    if solveTime > (6 * targetSeconds).toInt64 then (6 * targetSeconds).toInt64 else solveTime
  solveTime.toUInt64 * UInt64.ofNat i

/-- The loop over the timestamps of the window: `i` is the loop counter, the state
    is `lwma_sum` and `previous_timestamp`. -/
def lwmaLoop (targetSeconds : UInt64) : Nat → UInt64 → UInt64 → List UInt64 → UInt64
  | _, lwmaSum, _, [] => lwmaSum
  | i, lwmaSum, previousTimestamp, currentTimestamp :: ts =>
    lwmaLoop targetSeconds (i + 1)
      (lwmaSum + lwmaTerm targetSeconds currentTimestamp previousTimestamp i) currentTimestamp ts

/-- The window of `next_difficulty_lwma3`: up to 100 blocks. -/
def lwmaWindow (count : Nat) : Nat := min (count - 1) 100

/-- `raw_next_difficulty` before the epoch anchor: the average difficulty per
    weighted second of the window, times the weighted solve times. -/
def lwmaRawDifficulty (D : DoubleArith) (timestamps cumulativeDifficulties : List UInt64)
    (targetSeconds : UInt64) : UInt64 :=
  let count := timestamps.length
  let n := lwmaWindow count
  let lwmaSum := lwmaLoop targetSeconds 1 0 (timestamps.getD (count - n - 1) 0)
    ((timestamps.drop (count - n)).take n)
  let totalWindowDifficulty :=
    cumulativeDifficulties.getLastD 0 - cumulativeDifficulties.getD (count - n - 1) 0
  let denominator :=
    D.mul (D.ofUInt64 (UInt64.ofNat (n * (n + 1) / 2))) (D.ofUInt64 targetSeconds)
  let avgTarget := D.div (D.ofUInt64 totalWindowDifficulty) denominator
  D.toUInt64 (D.mul avgTarget (D.ofUInt64 lwmaSum))

/-- The 100-block epoch target anchor: a correction by the time the last 100 blocks
    took, clamped to a factor between one half and two. -/
def epochAnchor (D : DoubleArith) (timestamps : List UInt64) (targetSeconds : UInt64)
    (rawNextDifficulty : UInt64) : UInt64 :=
  let count := timestamps.length
  if 101 ≤ count then
    let actualEpochTime := timestamps.getLastD 0 - timestamps.getD (count - 101) 0
    let expectedEpochTime := 100 * targetSeconds
    if actualEpochTime > 0 then
      let epochCorrection := D.div (D.ofUInt64 expectedEpochTime) (D.ofUInt64 actualEpochTime)
      let epochCorrection := D.max (D.literal (1 / 2)) (D.min (D.literal 2) epochCorrection)
      D.toUInt64 (D.mul (D.ofUInt64 rawNextDifficulty) epochCorrection)
    else rawNextDifficulty
  else rawNextDifficulty

/-- The asymmetric step clamp: at most 15% away from the previous difficulty,
    unless that is at most ten. -/
def stepClamp (prevDiff rawNextDifficulty : UInt64) : UInt64 :=
  if prevDiff > 10 then
    let maxDiff := prevDiff * 115 / 100
    let minDiff := prevDiff * 85 / 100
    let raw := if rawNextDifficulty > maxDiff then maxDiff else rawNextDifficulty
    if raw < minDiff then minDiff else raw
  else rawNextDifficulty

/-- `next_difficulty_lwma3`. -/
def nextDifficultyLwma3 (D : DoubleArith) (timestamps cumulativeDifficulties : List UInt64)
    (targetSeconds : UInt64) (_windowSize : Nat) : UInt64 :=
  let count := timestamps.length
  if count < 2 ∨ cumulativeDifficulties.length < 2 then
    1 -- Initial bootstrapping difficulty for block #1
  else
    let raw := lwmaRawDifficulty D timestamps cumulativeDifficulties targetSeconds
    let raw := epochAnchor D timestamps targetSeconds raw
    let prevDiff := cumulativeDifficulties.getLastD 0 - cumulativeDifficulties.getD (count - 2) 0
    let raw := stepClamp prevDiff raw
    if raw < 1 then 1 else raw

/-- The retarget never returns zero. -/
theorem one_le_nextDifficultyLwma3 (D : DoubleArith)
    (timestamps cumulativeDifficulties : List UInt64) (targetSeconds : UInt64)
    (windowSize : Nat) :
    1 ≤ nextDifficultyLwma3 D timestamps cumulativeDifficulties targetSeconds windowSize := by
  simp only [nextDifficultyLwma3]
  split
  · exact UInt64.le_refl 1
  · split
    · exact UInt64.le_refl 1
    · rename_i hraw
      exact UInt64.not_lt.mp hraw

/-- `check_pow_hash`: the first eight bytes, read little endian, against the target. -/
def checkPowHash (powHash : CryptoHash) (targetDifficulty : UInt64) : Bool :=
  let hashVal := (List.range 8).foldl
    (fun acc i => acc ||| (powHash.toList.getD i 0).toUInt64 <<< UInt64.ofNat (i * 8)) 0
  if targetDifficulty == 0 then false
  else
    let maxTarget := 0xFFFFFFFFFFFFFFFF / targetDifficulty
    decide (hashVal ≤ maxTarget)

/-- The value the test compares: the little-endian value of the first eight bytes. -/
def powHashValue (powHash : CryptoHash) : Nat := leValue (powHash.toList.take 8)

/-- The truncating division by the difficulty decides the exact product. -/
theorem checkPowHash_iff (powHash : CryptoHash) (targetDifficulty : UInt64) :
    checkPowHash powHash targetDifficulty = true ↔
      targetDifficulty ≠ 0 ∧ powHashValue powHash * targetDifficulty.toNat ≤ 2 ^ 64 - 1 := by
  have hvalue : (orBytes powHash.toList 8).toNat = powHashValue powHash :=
    toNat_orBytes (by omega) (by simp)
  have hall : (0xFFFFFFFFFFFFFFFF : UInt64).toNat = 2 ^ 64 - 1 := by decide
  unfold orBytes at hvalue
  unfold checkPowHash
  by_cases hzero : targetDifficulty = 0
  · simp [hzero]
  · have hpos : 0 < targetDifficulty.toNat := by
      apply Nat.pos_of_ne_zero
      intro h
      exact hzero (UInt64.toNat_inj.mp h)
    rw [if_neg (by simpa using hzero), decide_eq_true_iff, UInt64.le_iff_toNat_le, hvalue,
      UInt64.toNat_div, hall, Nat.le_div_iff_mul_le hpos]
    exact ⟨fun h => ⟨hzero, h⟩, fun h => h.2⟩

/-- The proof-of-work test is exact, and so no harder at a smaller difficulty. -/
theorem checkPowHash_exact (powHash : CryptoHash) (d : UInt64) :
    (checkPowHash powHash d = true ↔
      d ≠ 0 ∧ leValue (powHash.toList.take 8) * d.toNat ≤ 2 ^ 64 - 1) ∧
    (checkPowHash powHash d = true → ∀ e : UInt64, e ≠ 0 → e < d →
      checkPowHash powHash e = true) := by
  refine ⟨checkPowHash_iff powHash d, ?_⟩
  intro haccepted e hne hlt
  obtain ⟨_, hproduct⟩ := (checkPowHash_iff powHash d).mp haccepted
  apply (checkPowHash_iff powHash e).mpr
  refine ⟨hne, ?_⟩
  have hle : e.toNat ≤ d.toNat := Nat.le_of_lt (UInt64.lt_iff_toNat_lt.mp hlt)
  exact (Nat.mul_le_mul_left _ hle).trans hproduct

/-- A hash with value `2 ^ 32` passes at the difficulty `2 ^ 32 - 1`, and so at 7. -/
theorem checkPowHash_exact_sample :
    checkPowHash #v[0, 0, 0, 0, 1, 0, 0, 0, 0, 0, 0, 0, 0, 0, 0, 0,
      0, 0, 0, 0, 0, 0, 0, 0, 0, 0, 0, 0, 0, 0, 0, 0] 7 = true :=
  (checkPowHash_exact _ 0xFFFFFFFF).2 (by decide) 7 (by decide) (by decide)

end RandomLite
