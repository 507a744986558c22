-- SUMMARY: The penalty of `get_block_reward` for blocks above the median weight, and the same function with every operation checked.
import RandomLite.Monero.BlockReward
import RandomLite.Monero.IntUtil

/-!
# Block penalty

A block of weight `w` above the median `m` is paid `B * w * (2m - w) / m / m`. The
checked `get_block_reward` computes this as the source does, in two words and with two
assertions; where a word could wrap or an assertion fail it has no result. For medians
below `2 ^ 32` it always has one.
-/

namespace RandomLite.Monero

/-! ## The formula -/

/-- The penalized reward, in exact arithmetic. -/
def penalized (base m w : Nat) : Nat := base * w * (2 * m - w) / m / m

theorem penalized_eq (base m w : Nat) :
    penalized base m w = base * (w * (2 * m - w)) / (m * m) := by
  unfold penalized
  rw [Nat.div_div_eq_div_mul, Nat.mul_assoc]

/-- Above the median the factor falls with the weight. -/
theorem room_mul_antitone {m w w' : Nat} (hm : m ≤ w) (h : w ≤ w') :
    w' * (2 * m - w') ≤ w * (2 * m - w) := by
  rcases Nat.lt_or_ge (2 * m) w' with hover | hroom
  · rw [Nat.sub_eq_zero_of_le hover.le, Nat.mul_zero]
    exact Nat.zero_le _
  · obtain ⟨d, rfl⟩ := Nat.exists_eq_add_of_le h
    obtain ⟨k, hk⟩ := Nat.exists_eq_add_of_le hroom
    have hnext : 2 * m - (w + d) = k := by omega
    have hthis : 2 * m - w = k + d := by omega
    have hcross : d * k ≤ w * d := by
      rw [Nat.mul_comm]
      exact Nat.mul_le_mul_right d (by omega)
    rw [hnext, hthis, Nat.add_mul, Nat.mul_add]
    exact Nat.add_le_add_left hcross _

theorem room_mul_lt {m w : Nat} (hm : 0 < m) (h : m < w) : w * (2 * m - w) < m * m := by
  rcases Nat.lt_or_ge (2 * m) w with hover | hroom
  · rw [Nat.sub_eq_zero_of_le hover.le, Nat.mul_zero]
    exact Nat.mul_pos hm hm
  · -- With `w = m + d` and `m = d + k` the two sides differ by the square of `d`.
    obtain ⟨d, rfl⟩ := Nat.exists_eq_add_of_lt h
    obtain ⟨k, rfl⟩ := Nat.exists_eq_add_of_le (by omega : d + 1 ≤ m)
    have hk : 2 * (d + 1 + k) - (d + 1 + k + d + 1) = k := by omega
    have hsquare : (d + 1 + k) * (d + 1 + k) = (d + 1 + k + d + 1) * k + (d + 1) * (d + 1) := by
      ring
    rw [hk, hsquare]
    exact Nat.lt_add_of_pos_right (Nat.mul_pos (Nat.succ_pos d) (Nat.succ_pos d))

theorem penalized_lt {base m w : Nat} (hbase : 0 < base) (hm : 0 < m) (h : m < w) :
    penalized base m w < base := by
  rw [penalized_eq, Nat.div_lt_iff_lt_mul (Nat.mul_pos hm hm)]
  exact Nat.mul_lt_mul_of_pos_left (room_mul_lt hm h) hbase

theorem penalized_antitone {base m w w' : Nat} (hm : m ≤ w) (h : w ≤ w') :
    penalized base m w' ≤ penalized base m w := by
  rw [penalized_eq, penalized_eq]
  exact Nat.div_le_div_right (Nat.mul_le_mul_left base (room_mul_antitone hm h))

theorem penalized_double (base m : Nat) : penalized base m (2 * m) = 0 := by
  unfold penalized
  rw [Nat.sub_self, Nat.mul_zero, Nat.zero_div, Nat.zero_div]

/-- The reward for a weight up to twice the median. -/
def paid (base m w : Nat) : Nat := if w ≤ m then base else penalized base m w

theorem paid_antitone {base m w w' : Nat} (hbase : 0 < base) (hm : 0 < m) (h : w ≤ w') :
    paid base m w' ≤ paid base m w := by
  unfold paid
  by_cases hw' : w' ≤ m
  · rw [if_pos hw', if_pos (h.trans hw')]
  · rw [if_neg hw']
    split
    · exact (penalized_lt hbase hm (Nat.lt_of_not_le hw')).le
    · rename_i hw
      exact penalized_antitone (Nat.lt_of_not_le hw).le h

/-! ## What `get_block_reward` computes -/

/-- The median weight after raising it to the full reward zone. -/
def raisedMedian (version : UInt8) (medianWeight : UInt64) : UInt64 :=
  if medianWeight < getMinBlockWeight version then getMinBlockWeight version else medianWeight

theorem getMinBlockWeight_pos (version : UInt8) : 0 < (getMinBlockWeight version).toNat := by
  unfold getMinBlockWeight
  split
  · decide
  · split <;> decide

theorem raisedMedian_pos (version : UInt8) (medianWeight : UInt64) :
    0 < (raisedMedian version medianWeight).toNat := by
  have hzone := getMinBlockWeight_pos version
  unfold raisedMedian
  split
  · exact hzone
  · rename_i h
    rw [UInt64.lt_iff_toNat_lt] at h
    omega

theorem baseReward_pos (g : UInt64) (version : UInt8) : 0 < (baseReward g version).toNat := by
  have htail := UInt64.le_iff_toNat_le.mp (tailSubsidy_le_baseReward g version)
  refine Nat.lt_of_lt_of_le ?_ htail
  unfold tailSubsidy targetMinutes difficultyTarget
  split <;> decide

section

variable {version : UInt8} {g medianWeight w : UInt64}

theorem getBlockReward_full (h : w ≤ raisedMedian version medianWeight) :
    getBlockReward medianWeight w g version = some (baseReward g version) := if_pos h

variable (hm : (raisedMedian version medianWeight).toNat < 2 ^ 32)
include hm

theorem toNat_two_mul_median :
    (2 * raisedMedian version medianWeight).toNat =
      2 * (raisedMedian version medianWeight).toNat := by
  refine toNat_mul_of_lt ?_
  rw [show (2 : UInt64).toNat = 2 from rfl]
  omega

theorem getBlockReward_refused (h : 2 * (raisedMedian version medianWeight).toNat < w.toNat) :
    getBlockReward medianWeight w g version = none := by
  have htwice := toNat_two_mul_median hm
  have habove : ¬ w ≤ raisedMedian version medianWeight := by
    rw [UInt64.le_iff_toNat_le]
    omega
  have hover : w > 2 * raisedMedian version medianWeight := by
    rw [gt_iff_lt, UInt64.lt_iff_toNat_lt, htwice]
    exact h
  exact (if_neg habove).trans (if_pos hover)

variable (hlow : raisedMedian version medianWeight < w)
  (hhigh : w.toNat ≤ 2 * (raisedMedian version medianWeight).toNat)
include hlow hhigh

/-- The room below twice the median, and its product with the weight, fit in the word. -/
theorem toNat_room :
    (2 * raisedMedian version medianWeight - w).toNat =
        2 * (raisedMedian version medianWeight).toNat - w.toNat ∧
      (2 * raisedMedian version medianWeight - w).toNat * w.toNat < 2 ^ 64 := by
  have htwice := toNat_two_mul_median hm
  have hsub := toNat_sub_of_toNat_le (a := 2 * raisedMedian version medianWeight) (b := w)
    (by rw [htwice]; exact hhigh)
  rw [htwice] at hsub
  refine ⟨hsub, ?_⟩
  rw [hsub, Nat.mul_comm]
  exact (room_mul_lt (raisedMedian_pos _ _) (UInt64.lt_iff_toNat_lt.mp hlow)).trans
    (mul_lt_word hm hm)

theorem toNat_multiplicand :
    ((2 * raisedMedian version medianWeight - w) * w).toNat =
      w.toNat * (2 * (raisedMedian version medianWeight).toNat - w.toNat) := by
  obtain ⟨hroom, hfits⟩ := toNat_room hm hlow hhigh
  rw [toNat_mul_of_lt hfits, hroom, Nat.mul_comm]

theorem getBlockReward_penalized :
    ∃ r, getBlockReward medianWeight w g version = some r ∧
      r.toNat = penalized (baseReward g version).toNat (raisedMedian version medianWeight).toNat
        w.toNat := by
  have htwice := toNat_two_mul_median hm
  have hnat := UInt64.lt_iff_toNat_lt.mp hlow
  have hover : ¬ w > 2 * raisedMedian version medianWeight := by
    rw [gt_iff_lt, UInt64.lt_iff_toNat_lt, htwice]
    omega
  have hpenalized := penalized_lt (baseReward_pos g version)
    (raisedMedian_pos version medianWeight) hnat
  have hlt := (baseReward g version).toNat_lt
  have hformula : (baseReward g version).toNat *
        ((2 * raisedMedian version medianWeight - w) * w).toNat /
        (raisedMedian version medianWeight).toNat / (raisedMedian version medianWeight).toNat =
      penalized (baseReward g version).toNat (raisedMedian version medianWeight).toNat w.toNat := by
    rw [toNat_multiplicand hm hlow hhigh, penalized, Nat.mul_assoc]
  refine ⟨.ofNat (penalized (baseReward g version).toNat
    (raisedMedian version medianWeight).toNat w.toNat), ?_, ?_⟩
  · rw [← hformula]
    exact (if_neg (UInt64.not_le.mpr hlow)).trans (if_neg hover)
  · exact UInt64.toNat_ofNat_of_lt' (hpenalized.trans hlt)

end

section

variable {version : UInt8} {g medianWeight w : UInt64}
  (hm : (raisedMedian version medianWeight).toNat < 2 ^ 32)
include hm

/-- Up to twice the median a block is paid. -/
theorem getBlockReward_of_le (h : w.toNat ≤ 2 * (raisedMedian version medianWeight).toNat) :
    ∃ r, getBlockReward medianWeight w g version = some r ∧
      r.toNat = paid (baseReward g version).toNat (raisedMedian version medianWeight).toNat
        w.toNat := by
  by_cases hfull : w ≤ raisedMedian version medianWeight
  · refine ⟨_, getBlockReward_full hfull, ?_⟩
    rw [paid, if_pos (UInt64.le_iff_toNat_le.mp hfull)]
  · obtain ⟨r, hr, hvalue⟩ := getBlockReward_penalized (g := g) hm (UInt64.not_le.mp hfull) h
    rw [UInt64.le_iff_toNat_le] at hfull
    refine ⟨r, hr, ?_⟩
    rw [paid, if_neg hfull, hvalue]

theorem toNat_getBlockReward {r : UInt64} (h : getBlockReward medianWeight w g version = some r) :
    r.toNat = paid (baseReward g version).toNat (raisedMedian version medianWeight).toNat
      w.toNat := by
  have hhigh : w.toNat ≤ 2 * (raisedMedian version medianWeight).toNat := by
    by_contra hover
    rw [getBlockReward_refused hm (Nat.lt_of_not_le hover)] at h
    cases h
  obtain ⟨r', hr', hvalue⟩ := getBlockReward_of_le (g := g) hm hhigh
  rw [hr'] at h
  rwa [← Option.some.inj h]

end

/-! ## Every operation checked -/

/-- `base_reward`: `none` when an operation wraps. -/
def baseRewardChecked (alreadyGeneratedCoins : UInt64) (version : UInt8) : Option UInt64 := do
  let rest ← checkedSub moneySupply alreadyGeneratedCoins
  let reward := rest >>> emissionSpeedFactor version
  let tail ← checkedMul finalSubsidyPerMinute (targetMinutes version)
  pure (if reward < tail then tail else reward)

/-- `get_block_reward` with the 128-bit helpers: `none` when an operation wraps or an
    assertion fails, `some none` when it returns false. -/
def getBlockRewardChecked (medianWeight currentBlockWeight alreadyGeneratedCoins : UInt64)
    (version : UInt8) : Option (Option UInt64) := do
  let base ← baseRewardChecked alreadyGeneratedCoins version
  let medianWeight := raisedMedian version medianWeight
  if currentBlockWeight ≤ medianWeight then pure (some base)
  else
    let limit ← checkedMul 2 medianWeight
    if currentBlockWeight > limit then pure none
    else
      let room ← checkedSub limit currentBlockWeight
      let multiplicand ← checkedMul room currentBlockWeight
      let product ← mul128 base multiplicand
      let once ← div128_64 product medianWeight
      let twice ← div128_64 once.quotient medianWeight
      if twice.quotient.hi = 0 ∧ twice.quotient.lo < base then pure (some twice.quotient.lo)
      else none

theorem baseRewardChecked_eq {g : UInt64} (hg : g ≤ moneySupply) (version : UInt8) :
    baseRewardChecked g version = some (baseReward g version) := by
  have htail : finalSubsidyPerMinute.toNat * (targetMinutes version).toNat < 2 ^ 64 := by
    unfold targetMinutes difficultyTarget
    split <;> decide
  unfold baseRewardChecked
  rw [checkedSub_of_le (UInt64.le_iff_toNat_le.mp hg), checkedMul_of_lt htail]
  rfl

/-- The two divisions of the exact product leave the penalized reward in the low word. -/
theorem div128_64_twice {product : Words} {base m w : Nat} {medianWeight : UInt64}
    (hproduct : product.toNat = base * (w * (2 * m - w))) (hm : medianWeight.toNat = m)
    (hpos : 0 < m) (hlt : penalized base m w < 2 ^ 64) :
    ∃ once twice, div128_64 product medianWeight = some once ∧
      div128_64 once.quotient medianWeight = some twice ∧ twice.quotient.hi = 0 ∧
      twice.quotient.lo.toNat = penalized base m w := by
  have hne : medianWeight ≠ 0 := by
    rintro rfl
    exact hpos.ne hm
  obtain ⟨once, honce, hquotient, -⟩ := div128_64_exact product hne
  obtain ⟨twice, htwice, hquotient', -⟩ := div128_64_exact once.quotient hne
  have hvalue : twice.quotient.toNat = penalized base m w := by
    rw [hquotient', hquotient, hproduct, hm, penalized, Nat.mul_assoc]
  obtain ⟨hhi, hlo⟩ := Words.of_toNat_lt (hvalue ▸ hlt)
  exact ⟨once, twice, honce, htwice, hhi, hlo.trans hvalue⟩

/-- No operation wraps and no assertion fails. -/
theorem getBlockRewardChecked_eq {version : UInt8} {g medianWeight : UInt64} (hg : g ≤ moneySupply)
    (hm : (raisedMedian version medianWeight).toNat < 2 ^ 32) (w : UInt64) :
    getBlockRewardChecked medianWeight w g version =
      some (getBlockReward medianWeight w g version) := by
  have htwice := toNat_two_mul_median hm
  have hlimit : checkedMul 2 (raisedMedian version medianWeight) =
      some (2 * raisedMedian version medianWeight) := by
    refine checkedMul_of_lt ?_
    rw [show (2 : UInt64).toNat = 2 from rfl]
    omega
  unfold getBlockRewardChecked
  simp only [baseRewardChecked_eq hg, Option.bind_eq_bind, Option.bind_some]
  by_cases hfull : w ≤ raisedMedian version medianWeight
  · rw [if_pos hfull, getBlockReward_full hfull]
    rfl
  rw [if_neg hfull, hlimit, Option.bind_some]
  by_cases hover : w > 2 * raisedMedian version medianWeight
  · rw [if_pos hover, getBlockReward_refused hm]
    · rfl
    · rw [gt_iff_lt, UInt64.lt_iff_toNat_lt, htwice] at hover
      exact hover
  rw [if_neg hover]
  have hlow : raisedMedian version medianWeight < w := UInt64.not_le.mp hfull
  have hhigh : w.toNat ≤ 2 * (raisedMedian version medianWeight).toNat := by
    rw [gt_iff_lt, UInt64.lt_iff_toNat_lt, htwice] at hover
    omega
  obtain ⟨r, hreward, hr⟩ := getBlockReward_penalized (g := g) hm hlow hhigh
  have hstrict := penalized_lt (baseReward_pos g version)
    (raisedMedian_pos version medianWeight) (UInt64.lt_iff_toNat_lt.mp hlow)
  obtain ⟨product, hmul, hproduct⟩ := mul128_exact (baseReward g version)
    ((2 * raisedMedian version medianWeight - w) * w)
  rw [toNat_multiplicand hm hlow hhigh] at hproduct
  obtain ⟨once, twice, honce, htwiceDiv, hhi, hlo⟩ := div128_64_twice hproduct rfl
    (raisedMedian_pos version medianWeight) (hstrict.trans (baseReward g version).toNat_lt)
  have hbelow : twice.quotient.lo < baseReward g version := by
    rw [UInt64.lt_iff_toNat_lt, hlo]
    exact hstrict
  rw [checkedSub_of_le (htwice ▸ hhigh), Option.bind_some,
    checkedMul_of_lt (toNat_room hm hlow hhigh).2, Option.bind_some, hmul, Option.bind_some, honce,
    Option.bind_some, htwiceDiv, Option.bind_some, if_pos ⟨hhi, hbelow⟩, hreward,
    UInt64.toNat_inj.mp (hlo.trans hr.symm)]
  rfl

/-! ## The penalty -/

/-- The rewards for all weights, around a median and a base reward. -/
structure PenaltyFormula (medianWeight base : UInt64) (reward : UInt64 → Option UInt64) : Prop where
  refused : ∀ w, reward w = none ↔ w.toNat > 2 * medianWeight.toNat
  full : ∀ w, w ≤ medianWeight → reward w = some base
  penalty : ∀ w, medianWeight < w → w.toNat ≤ 2 * medianWeight.toNat →
    ∃ r, reward w = some r ∧ r < base ∧
      r.toNat = base.toNat * w.toNat * (2 * medianWeight.toNat - w.toNat) / medianWeight.toNat /
        medianWeight.toNat
  antitone : ∀ w w' r r', w ≤ w' → reward w = some r → reward w' = some r' → r' ≤ r
  double : ∀ w, w.toNat = 2 * medianWeight.toNat → reward w = some 0

theorem getBlockReward_penaltyFormula {version : UInt8} {medianWeight : UInt64}
    (hm : (raisedMedian version medianWeight).toNat < 2 ^ 32) (g : UInt64) :
    PenaltyFormula (raisedMedian version medianWeight) (baseReward g version)
      fun w => getBlockReward medianWeight w g version := by
  have hpos := raisedMedian_pos version medianWeight
  have hbase := baseReward_pos g version
  refine ⟨fun w => ⟨fun hnone => ?_, getBlockReward_refused hm⟩, fun w => getBlockReward_full,
    fun w hlow hhigh => ?_, fun w w' r r' hle hr hr' => ?_, fun w hw => ?_⟩
  · by_contra hhigh
    obtain ⟨r, hr, -⟩ := getBlockReward_of_le (g := g) hm (Nat.le_of_not_lt hhigh)
    rw [hr] at hnone
    cases hnone
  · obtain ⟨r, hr, hvalue⟩ := getBlockReward_penalized (g := g) hm hlow hhigh
    refine ⟨r, hr, ?_, hvalue⟩
    rw [UInt64.lt_iff_toNat_lt, hvalue]
    exact penalized_lt hbase hpos (UInt64.lt_iff_toNat_lt.mp hlow)
  · rw [UInt64.le_iff_toNat_le, toNat_getBlockReward hm hr, toNat_getBlockReward hm hr']
    exact paid_antitone hbase hpos (UInt64.le_iff_toNat_le.mp hle)
  · have hlow : raisedMedian version medianWeight < w := by
      rw [UInt64.lt_iff_toNat_lt]
      omega
    obtain ⟨r, hr, hvalue⟩ := getBlockReward_penalized (g := g) hm hlow hw.le
    rw [hw, penalized_double] at hvalue
    rw [hr, UInt64.toNat_inj.mp (hvalue.trans UInt64.toNat_zero.symm)]

/-- The penalty of a block, for every median below `2 ^ 32` once raised: the rewards
    follow the formula, no word wraps on the way, and both helpers are exact. -/
theorem getBlockReward_penalty {version : UInt8} {g medianWeight : UInt64} (hg : g ≤ moneySupply)
    (hm : (raisedMedian version medianWeight).toNat < 2 ^ 32) :
    (PenaltyFormula (raisedMedian version medianWeight) (baseReward g version)
      fun w => getBlockReward medianWeight w g version) ∧
    (∀ w, getBlockRewardChecked medianWeight w g version =
      some (getBlockReward medianWeight w g version)) ∧
    (∀ multiplier multiplicand, ∃ product, mul128 multiplier multiplicand = some product ∧
      product.toNat = multiplier.toNat * multiplicand.toNat) ∧
    ∀ dividend divisor, divisor ≠ 0 → ∃ r, div128_64 dividend divisor = some r ∧
      r.quotient.toNat = dividend.toNat / divisor.toNat ∧
      r.remainder.toNat = dividend.toNat % divisor.toNat :=
  ⟨getBlockReward_penaltyFormula hm g, getBlockRewardChecked_eq hg hm, mul128_exact,
    fun dividend _ => div128_64_exact dividend⟩

/-- Before the first coin, at a median in the full reward zone of the later forks. -/
theorem getBlockReward_penalty_sample :
    (PenaltyFormula (raisedMedian 16 1000) (baseReward 0 16)
      fun w => getBlockReward 1000 w 0 16) ∧
    (∀ w, getBlockRewardChecked 1000 w 0 16 = some (getBlockReward 1000 w 0 16)) ∧
    (∀ multiplier multiplicand, ∃ product, mul128 multiplier multiplicand = some product ∧
      product.toNat = multiplier.toNat * multiplicand.toNat) ∧
    ∀ dividend divisor, divisor ≠ 0 → ∃ r, div128_64 dividend divisor = some r ∧
      r.quotient.toNat = dividend.toNat / divisor.toNat ∧
      r.remainder.toNat = dividend.toNat % divisor.toNat :=
  getBlockReward_penalty (by decide) (by decide)

end RandomLite.Monero
