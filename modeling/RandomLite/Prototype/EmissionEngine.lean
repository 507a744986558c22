-- SUMMARY: The emission schedule of the prototype (`cryptonote_core/emission.cpp`) and the chain length at which it restarts.
import RandomLite.Library.GeometricDecay
import RandomLite.Prototype.CryptonoteBasic

/-!
# Emission schedule

`get_block_reward` falls geometrically with the coins generated so far, down to the
tail subsidy. The coins generated are summed in 64 bits and not capped: in exact
arithmetic the schedule (`supply`) never rises, but the machine word overflows in the
tail, and the sum starts over near zero. `supply_lt_iff` finds the block.
-/

namespace RandomLite

namespace EmissionEngine

/-- `BASE_SUPPLY`: 18.4 million coins. -/
def baseSupply : UInt64 := 18400000 * coinUnits

/-- `TAIL_EMISSION_REWARD`: 0.6 coins. -/
def tailEmissionReward : UInt64 := 600000000000

/-- `get_block_reward`. -/
def getBlockReward (alreadyGeneratedCoins currentHeight : UInt64) : UInt64 :=
  if currentHeight = 0 then 100 * coinUnits
  else if alreadyGeneratedCoins ≥ baseSupply then tailEmissionReward
  else
    let baseReward := (baseSupply - alreadyGeneratedCoins) >>> emissionSpeedFactorPerMinute
    if baseReward < tailEmissionReward then tailEmissionReward else baseReward

/-- The coins generated after block `n`, as the rescan loop of the wallet sums them. -/
def generatedAfter : Nat → UInt64
  | 0 => 0
  | n + 1 => generatedAfter n + getBlockReward (generatedAfter n) (UInt64.ofNat (n + 1))

/-- The reward of block `i`, for `i` from 1 on. -/
def blockReward (i : Nat) : UInt64 := getBlockReward (generatedAfter (i - 1)) (UInt64.ofNat i)

/-- The schedule of the blocks 1 to `n` never rises, never falls below the tail subsidy,
    and stays there once it has reached it. -/
structure NeverRestarts (n : Nat) : Prop where
  antitone : ∀ i, 1 ≤ i → i + 1 ≤ n → blockReward (i + 1) ≤ blockReward i
  tail_le : ∀ i, 1 ≤ i → i ≤ n → tailEmissionReward ≤ blockReward i
  sticky : ∀ i j, 1 ≤ i → i ≤ j → j ≤ n → blockReward i = tailEmissionReward →
    blockReward j = tailEmissionReward

/-! ## In exact arithmetic -/

/-- The reward after `g` coins, without a machine word. -/
def reward (g : Nat) : Nat := max ((18400000000000000000 - g) / 2 ^ 20) 600000000000

/-- The coins generated after `n` blocks, without a machine word. -/
def supply : Nat → Nat
  | 0 => 0
  | n + 1 => supply n + reward (supply n)

theorem tail_le_reward (g : Nat) : 600000000000 ≤ reward g := Nat.le_max_right _ _

theorem reward_antitone {g g' : Nat} (h : g ≤ g') : reward g' ≤ reward g := by
  have hdiv := Nat.div_le_div_right (c := 2 ^ 20) (Nat.sub_le_sub_left h 18400000000000000000)
  exact max_le_max hdiv (Nat.le_refl _)

theorem reward_le (g : Nat) : reward g ≤ 17547607421875 :=
  (reward_antitone (Nat.zero_le g)).trans (by decide)

theorem supply_mono {m n : Nat} (h : m ≤ n) : supply m ≤ supply n := by
  induction h with
  | refl => exact Nat.le_refl _
  | step _ ih => exact ih.trans (Nat.le_add_right _ _)

/-- Every block generates at least the tail subsidy. -/
theorem mul_le_supply (n : Nat) : 600000000000 * n ≤ supply n := by
  induction n with
  | zero => exact Nat.le_refl _
  | succ n ih => exact Nat.add_le_add ih (tail_le_reward _)

/-! ## In 64 bits -/

theorem toNat_getBlockReward (g : UInt64) {i : UInt64} (hi : i ≠ 0) :
    (getBlockReward g i).toNat = reward g.toNat := by
  have hbase : baseSupply.toNat = 18400000000000000000 := by decide
  have htail : tailEmissionReward.toNat = 600000000000 := by decide
  unfold getBlockReward reward
  rw [if_neg hi]
  split
  · rename_i hge
    rw [ge_iff_le, UInt64.le_iff_toNat_le, hbase] at hge
    rw [htail, Nat.sub_eq_zero_of_le hge]
    rfl
  · rename_i hlt
    rw [ge_iff_le, UInt64.le_iff_toNat_le, hbase, Nat.not_le] at hlt
    have hbaseReward : ((baseSupply - g) >>> emissionSpeedFactorPerMinute).toNat =
        (18400000000000000000 - g.toNat) / 2 ^ 20 := by
      have hsub := UInt64.toNat_sub_of_le baseSupply g (by
        rw [UInt64.le_iff_toNat_le, hbase]
        exact hlt.le)
      rw [UInt64.toNat_shiftRight, hsub, hbase, Nat.shiftRight_eq_div_pow]
      rfl
    simp only
    split
    · rename_i hsmall
      rw [UInt64.lt_iff_toNat_lt, hbaseReward, htail] at hsmall
      rw [htail, Nat.max_eq_right hsmall.le]
    · rename_i hlarge
      rw [UInt64.lt_iff_toNat_lt, hbaseReward, htail, Nat.not_lt] at hlarge
      rw [hbaseReward, Nat.max_eq_left hlarge]

/-- A height whose supply fits in 64 bits is far from the end of the word itself. -/
theorem height_ne_zero {n : Nat} (h : supply n < 2 ^ 64) : UInt64.ofNat (n + 1) ≠ 0 := by
  have hmul := mul_le_supply n
  intro hzero
  have hmod := congrArg UInt64.toNat hzero
  rw [UInt64.toNat_ofNat', Nat.mod_eq_of_lt (by omega)] at hmod
  exact Nat.succ_ne_zero n hmod

/-- While the supply fits in 64 bits, the machine sum is exact. -/
theorem toNat_generatedAfter {n : Nat} (h : supply n < 2 ^ 64) :
    (generatedAfter n).toNat = supply n := by
  induction n with
  | zero => rfl
  | succ n ih =>
    have hprev : supply n < 2 ^ 64 := (supply_mono (Nat.le_succ n)).trans_lt h
    rw [generatedAfter, UInt64.toNat_add, toNat_getBlockReward _ (height_ne_zero hprev), ih hprev]
    exact Nat.mod_eq_of_lt h

theorem toNat_blockReward {n : Nat} (h : supply n < 2 ^ 64) :
    (blockReward (n + 1)).toNat = reward (supply n) := by
  unfold blockReward
  rw [Nat.add_sub_cancel, toNat_getBlockReward _ (height_ne_zero h), toNat_generatedAfter h]

/-! ## The overflow -/

/-- While the supply fits, the machine rewards are the exact ones. -/
theorem neverRestarts_of_supply_lt {n : Nat} (h : supply (n - 1) < 2 ^ 64) : NeverRestarts n := by
  have hexact : ∀ k, k + 1 ≤ n → (blockReward (k + 1)).toNat = reward (supply k) :=
    fun k hk => toNat_blockReward ((supply_mono (Nat.le_sub_of_add_le hk)).trans_lt h)
  have hfall : ∀ k l, k ≤ l → l + 1 ≤ n → blockReward (l + 1) ≤ blockReward (k + 1) := by
    intro k l hkl hl
    rw [UInt64.le_iff_toNat_le, hexact k (by omega), hexact l hl]
    exact reward_antitone (supply_mono hkl)
  have htail : ∀ k, k + 1 ≤ n → tailEmissionReward ≤ blockReward (k + 1) := by
    intro k hk
    rw [UInt64.le_iff_toNat_le, hexact k hk]
    exact tail_le_reward _
  refine ⟨fun i hi hin => ?_, fun i hi hin => ?_, fun i j hi hij hjn heq => ?_⟩
  · obtain ⟨k, rfl⟩ := Nat.exists_eq_add_of_le' hi
    exact hfall k (k + 1) (Nat.le_succ k) hin
  · obtain ⟨k, rfl⟩ := Nat.exists_eq_add_of_le' hi
    exact htail k hin
  · obtain ⟨k, rfl⟩ := Nat.exists_eq_add_of_le' hi
    obtain ⟨l, rfl⟩ := Nat.exists_eq_add_of_le' (hi.trans hij)
    exact UInt64.le_antisymm (heq ▸ hfall k l (by omega) hjn) (htail l hjn)

/-- At the block whose reward overflows the sum, the reward rises again. -/
theorem blockReward_lt_of_overflow {k : Nat} (hfits : supply k < 2 ^ 64)
    (hover : 2 ^ 64 ≤ supply (k + 1)) : blockReward (k + 1) < blockReward (k + 2) := by
  have hlast := reward_le (supply k)
  rw [supply] at hover
  have htail : reward (supply k) = 600000000000 := by
    unfold reward
    omega
  have hsmall : (generatedAfter (k + 1)).toNat < 600000000000 := by
    rw [generatedAfter, UInt64.toNat_add, toNat_getBlockReward _ (height_ne_zero hfits),
      toNat_generatedAfter hfits]
    omega
  have hheight : UInt64.ofNat (k + 1 + 1) ≠ 0 := by
    have hmul := mul_le_supply k
    intro hzero
    have hmod := congrArg UInt64.toNat hzero
    rw [UInt64.toNat_ofNat', Nat.mod_eq_of_lt (by omega)] at hmod
    exact Nat.succ_ne_zero _ hmod
  have hnext : (blockReward (k + 2)).toNat = reward (generatedAfter (k + 1)).toNat :=
    toNat_getBlockReward _ hheight
  have hlarge := reward_antitone hsmall.le
  rw [UInt64.lt_iff_toNat_lt, toNat_blockReward hfits, hnext, htail]
  exact Nat.lt_of_lt_of_le (by decide) hlarge

/-- The schedule keeps falling exactly as long as the exact supply before the last block
    fits in 64 bits. -/
theorem neverRestarts_iff_supply_lt (n : Nat) : NeverRestarts n ↔ supply (n - 1) < 2 ^ 64 := by
  refine ⟨fun h => ?_, neverRestarts_of_supply_lt⟩
  by_contra hover
  -- The first supply that does not fit, and the block after it.
  have hex : ∃ m, 2 ^ 64 ≤ supply m := ⟨n - 1, Nat.le_of_not_lt hover⟩
  have hfirst := Nat.find_spec hex
  have hle : Nat.find hex ≤ n - 1 := Nat.find_min' hex (Nat.le_of_not_lt hover)
  cases hm : Nat.find hex with
  | zero =>
    rw [hm] at hfirst
    exact absurd hfirst (by decide)
  | succ k =>
    rw [hm] at hfirst hle
    have hfits : supply k < 2 ^ 64 := Nat.lt_of_not_le (Nat.find_min hex (by omega))
    have hrise := blockReward_lt_of_overflow hfits hfirst
    exact absurd (h.antitone (k + 1) (by omega) (by omega)) (UInt64.not_le.mpr hrise)

/-! ## The block -/

/-- The block from which on the tail subsidy is paid, less one. -/
def decayBlocks : Nat := 3539722

/-- The coins still to come after `n` blocks of the decay. -/
def remaining (n : Nat) : Nat := (decay 1048575)^[n] 18400000000000000000

theorem remaining_mono {m n : Nat} (h : m ≤ n) : remaining n ≤ remaining m :=
  decay.antitone 1048575 h _

/-- What is left where the tail begins. The powers are compared by evaluation. -/
theorem le_remaining_pred : 629145600000000000 ≤ remaining (decayBlocks - 1) :=
  decay.le_iterate (by decide +kernel)

theorem remaining_lt : remaining decayBlocks < 629145600000000000 :=
  decay.iterate_lt (by decide +kernel)

theorem le_remaining : 629145200000000000 ≤ remaining decayBlocks :=
  decay.le_iterate (by decide +kernel)

/-- During the decay the supply is what has been taken off the base supply. -/
theorem supply_add_remaining {n : Nat} (h : n ≤ decayBlocks) :
    supply n + remaining n = 18400000000000000000 := by
  induction n with
  | zero => rfl
  | succ n ih =>
    have hprev := ih (Nat.le_of_succ_le h)
    have hlarge := le_remaining_pred.trans (remaining_mono (Nat.le_sub_one_of_lt h))
    have hreward : reward (supply n) = remaining n / (1048575 + 1) := by
      have hsub : 18400000000000000000 - supply n = remaining n := by omega
      unfold reward
      rw [hsub]
      exact Nat.max_eq_left (by omega)
    have hstep : remaining (n + 1) = decay 1048575 (remaining n) :=
      Function.iterate_succ_apply' _ _ _
    have hsplit := decay.add_div 1048575 (remaining n)
    rw [supply, hreward, hstep]
    omega

/-- After the decay every block adds the tail subsidy. -/
theorem supply_decayBlocks_add (k : Nat) :
    supply (decayBlocks + k) = supply decayBlocks + 600000000000 * k := by
  induction k with
  | zero => rw [Nat.add_zero, Nat.mul_zero, Nat.add_zero]
  | succ k ih =>
    have hsum := supply_add_remaining (Nat.le_refl decayBlocks)
    have hsmall := remaining_lt
    have hmono := supply_mono (Nat.le_add_right decayBlocks k)
    have hreward : reward (supply (decayBlocks + k)) = 600000000000 := by
      unfold reward
      omega
    rw [← Nat.add_assoc, supply, hreward, ih, Nat.add_assoc, Nat.mul_succ]

/-- The exact supply fits in 64 bits up to block 4666204. -/
theorem supply_lt_iff (n : Nat) : supply n < 2 ^ 64 ↔ n ≤ 4666204 := by
  have hsum := supply_add_remaining (Nat.le_refl decayBlocks)
  have hlow := le_remaining
  have hhigh := remaining_lt
  have hlast : supply 4666204 < 2 ^ 64 := by
    have hadd := supply_decayBlocks_add (4666204 - decayBlocks)
    rw [Nat.add_sub_cancel' (by decide), show 4666204 - decayBlocks = 1126482 from rfl] at hadd
    omega
  have hover : 2 ^ 64 ≤ supply 4666205 := by
    have hadd := supply_decayBlocks_add (4666205 - decayBlocks)
    rw [Nat.add_sub_cancel' (by decide), show 4666205 - decayBlocks = 1126483 from rfl] at hadd
    omega
  constructor
  · intro hn
    by_contra hlong
    exact absurd (hover.trans (supply_mono (Nat.lt_of_not_le hlong))) (Nat.not_le.mpr hn)
  · exact fun hn => (supply_mono hn).trans_lt hlast

/-- The schedule of a chain never restarts exactly when it has at most 4666205 blocks
    after the genesis block. -/
theorem neverRestarts_iff (n : Nat) : NeverRestarts n ↔ n ≤ 4666205 := by
  rw [neverRestarts_iff_supply_lt, supply_lt_iff]
  exact Nat.sub_le_iff_le_add

theorem emission_restarts : ¬ ∀ n, NeverRestarts n := by
  intro h
  exact absurd ((neverRestarts_iff 4666206).mp (h 4666206)) (by decide)

end EmissionEngine

end RandomLite
