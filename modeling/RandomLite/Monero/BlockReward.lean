-- SUMMARY: The block subsidy of the production node (`cryptonote_basic_impl.cpp`) and how it falls with the coins generated.
import Mathlib.Data.List.Basic

/-!
# Block reward

`get_block_reward`: the base subsidy of a fork, floored at the tail subsidy, and the
penalty for blocks above the median weight. Weights are 64-bit; the two 128-bit
helper functions are exact, so products and quotients are taken in `Nat`.
-/

namespace RandomLite.Monero

/-- `MONEY_SUPPLY`: 18.4 million coins. -/
def moneySupply : UInt64 := 18400000 * 1000000000000

/-- `EMISSION_SPEED_FACTOR_PER_MINUTE`. -/
def emissionSpeedFactorPerMinute : UInt64 := 20

/-- `FINAL_SUBSIDY_PER_MINUTE`: 0.3 coins. -/
def finalSubsidyPerMinute : UInt64 := 300000000000

/-- `DIFFICULTY_TARGET_V1` and `DIFFICULTY_TARGET_V2`, in seconds. -/
def difficultyTarget (version : UInt8) : UInt64 := if version < 2 then 60 else 150

/-- `target_minutes`. -/
def targetMinutes (version : UInt8) : UInt64 := difficultyTarget version / 60

/-- `emission_speed_factor`. -/
def emissionSpeedFactor (version : UInt8) : UInt64 :=
  emissionSpeedFactorPerMinute - (targetMinutes version - 1)

/-- The tail subsidy of a fork. -/
def tailSubsidy (version : UInt8) : UInt64 := finalSubsidyPerMinute * targetMinutes version

/-- `get_min_block_weight`. -/
def getMinBlockWeight (version : UInt8) : UInt64 :=
  if version < 2 then 20000 else if version < 5 then 300000 else 300000

/-- `base_reward` of `get_block_reward`: the reward before the penalty. -/
def baseReward (alreadyGeneratedCoins : UInt64) (version : UInt8) : UInt64 :=
  let reward := (moneySupply - alreadyGeneratedCoins) >>> emissionSpeedFactor version
  if reward < tailSubsidy version then tailSubsidy version else reward

/-- `get_block_reward`: `none` when the block is too heavy. -/
def getBlockReward (medianWeight currentBlockWeight alreadyGeneratedCoins : UInt64)
    (version : UInt8) : Option UInt64 :=
  let base := baseReward alreadyGeneratedCoins version
  let fullRewardZone := getMinBlockWeight version
  let medianWeight := if medianWeight < fullRewardZone then fullRewardZone else medianWeight
  if currentBlockWeight ≤ medianWeight then some base
  else if currentBlockWeight > 2 * medianWeight then none
  else
    let multiplicand := (2 * medianWeight - currentBlockWeight) * currentBlockWeight
    let product := base.toNat * multiplicand.toNat
    some (UInt64.ofNat (product / medianWeight.toNat / medianWeight.toNat))

/-! ## The base reward along a chain -/

theorem tailSubsidy_le_baseReward (g : UInt64) (version : UInt8) :
    tailSubsidy version ≤ baseReward g version := by
  unfold baseReward
  dsimp only
  split
  · exact UInt64.le_refl _
  · rename_i h
    exact UInt64.not_lt.mp h

/-- The more coins have been generated, the less is paid. -/
theorem baseReward_antitone {g g' : UInt64} (h : g ≤ g') (hg' : g' ≤ moneySupply)
    (version : UInt8) : baseReward g' version ≤ baseReward g version := by
  have hg : g ≤ moneySupply := UInt64.le_trans h hg'
  have hroom : moneySupply - g' ≤ moneySupply - g := by
    rw [UInt64.le_iff_toNat_le, UInt64.toNat_sub_of_le _ _ hg, UInt64.toNat_sub_of_le _ _ hg']
    have hnat := UInt64.le_iff_toNat_le.mp h
    omega
  have hshift : (moneySupply - g') >>> emissionSpeedFactor version ≤
      (moneySupply - g) >>> emissionSpeedFactor version := by
    rw [UInt64.le_iff_toNat_le, UInt64.toNat_shiftRight, UInt64.toNat_shiftRight,
      Nat.shiftRight_eq_div_pow, Nat.shiftRight_eq_div_pow]
    exact Nat.div_le_div_right (UInt64.le_iff_toNat_le.mp hroom)
  unfold baseReward
  dsimp only
  split
  · split
    · exact UInt64.le_refl _
    · rename_i hlarge
      exact UInt64.not_lt.mp hlarge
  · rename_i hlarge'
    split
    · rename_i hsmall
      exact absurd (UInt64.lt_of_le_of_lt hshift hsmall) hlarge'
    · exact hshift

/-- Once the tail subsidy is reached it stays. -/
theorem baseReward_sticky {g g' : UInt64} (h : g ≤ g') (hg' : g' ≤ moneySupply) {version : UInt8}
    (htail : baseReward g version = tailSubsidy version) :
    baseReward g' version = tailSubsidy version :=
  UInt64.le_antisymm (htail ▸ baseReward_antitone h hg' version) (tailSubsidy_le_baseReward g' version)

/-- The tail subsidy of the second fork is 0.6 coins. -/
theorem tailSubsidy_v16 : tailSubsidy 16 = 600000000000 := by
  decide

end RandomLite.Monero
