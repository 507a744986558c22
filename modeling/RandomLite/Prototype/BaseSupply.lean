-- SUMMARY: How the base supply is reached: after which block, without underflow, and by how much it is overshot.
import RandomLite.Library.MachineWords
import RandomLite.Prototype.WalletBalance

/-!
# Reaching the base supply

The reward is taken off what remains of the base supply until it falls below the tail
subsidy; from there a constant is added, and the decay alone would never arrive. The
last such block steps over the base supply by less than the constant.
-/

namespace RandomLite

namespace EmissionEngine

/-! ## The subtraction -/

/-- `get_block_reward` with its subtraction checked: `none` when it underflows. -/
def getBlockRewardChecked (alreadyGeneratedCoins currentHeight : UInt64) : Option UInt64 :=
  if currentHeight = 0 then some (100 * coinUnits)
  else if alreadyGeneratedCoins ≥ baseSupply then some tailEmissionReward
  else do
    let rest ← checkedSub baseSupply alreadyGeneratedCoins
    let baseReward := rest >>> emissionSpeedFactorPerMinute
    some (if baseReward < tailEmissionReward then tailEmissionReward else baseReward)

theorem getBlockRewardChecked_eq (g i : UInt64) :
    getBlockRewardChecked g i = some (getBlockReward g i) := by
  unfold getBlockRewardChecked getBlockReward
  split
  · rfl
  split
  · rfl
  · rename_i _ hbelow
    rw [ge_iff_le, UInt64.le_iff_toNat_le, Nat.not_le] at hbelow
    rw [checkedSub_of_le hbelow.le]
    rfl

/-! ## The block -/

/-- While the supply fits in the machine word, the rewards add up to it. -/
theorem minedAfter_eq_supply {n : Nat} (h : supply n < 2 ^ 64) : minedAfter n = supply n := by
  induction n with
  | zero => rfl
  | succ n ih =>
    have hprev : supply n < 2 ^ 64 := (supply_mono (Nat.le_succ n)).trans_lt h
    rw [minedAfter, supply, toNat_blockReward hprev, ih hprev]

/-- The block that reaches the base supply, `2 ^ 20` blocks into the tail. -/
def reachingBlock : Nat := decayBlocks + 2 ^ 20

theorem supply_reachingBlock :
    18400000000000000000 ≤ supply reachingBlock ∧
      supply reachingBlock < 18400000000000000000 + 600000000000 := by
  have hsum := supply_add_remaining (Nat.le_refl decayBlocks)
  have hlow := le_remaining
  have hhigh := remaining_lt
  have hadd := supply_decayBlocks_add (2 ^ 20)
  unfold reachingBlock
  omega

theorem supply_lt_of_lt_reachingBlock {m : Nat} (h : m < reachingBlock) :
    supply m < 18400000000000000000 := by
  have hsum := supply_add_remaining (Nat.le_refl decayBlocks)
  have hlow := le_remaining
  have hadd := supply_decayBlocks_add (2 ^ 20 - 1)
  have hmono := supply_mono (show m ≤ decayBlocks + (2 ^ 20 - 1) by
    unfold reachingBlock at h
    omega)
  omega

/-- Along the blocks from the first on the subtraction never underflows, and some block is
    the first to reach the base supply. Up to it the machine sum is exact, and the total
    lies less than one tail subsidy above the base supply. -/
theorem baseSupply_reached :
    (∀ n, getBlockRewardChecked (generatedAfter n) (UInt64.ofNat (n + 1)) =
      some (blockReward (n + 1))) ∧
    ∃ n, (∀ m < n, generatedAfter m < baseSupply ∧ minedAfter m < baseSupply.toNat) ∧
      (∀ m ≤ n, (generatedAfter m).toNat = minedAfter m) ∧
      baseSupply.toNat ≤ minedAfter n ∧
      minedAfter n < baseSupply.toNat + tailEmissionReward.toNat := by
  have hbase : baseSupply.toNat = 18400000000000000000 := by decide
  have htail : tailEmissionReward.toNat = 600000000000 := by decide
  obtain ⟨hreached, hover⟩ := supply_reachingBlock
  have hfits : ∀ m ≤ reachingBlock, supply m < 2 ^ 64 := fun m hm =>
    ((supply_mono hm).trans_lt hover).trans (by decide)
  refine ⟨fun n => getBlockRewardChecked_eq _ _, reachingBlock, fun m hm => ?_, fun m hm => ?_, ?_, ?_⟩
  · rw [UInt64.lt_iff_toNat_lt, toNat_generatedAfter (hfits m hm.le),
      minedAfter_eq_supply (hfits m hm.le), hbase]
    exact ⟨supply_lt_of_lt_reachingBlock hm, supply_lt_of_lt_reachingBlock hm⟩
  · rw [toNat_generatedAfter (hfits m hm), minedAfter_eq_supply (hfits m hm)]
  · rw [minedAfter_eq_supply (hfits _ (Nat.le_refl _)), hbase]
    exact hreached
  · rw [minedAfter_eq_supply (hfits _ (Nat.le_refl _)), hbase, htail]
    exact hover

end EmissionEngine

end RandomLite
