-- SUMMARY: Which blocks a pruned node keeps whole (`common/pruning.cpp`): the next block it has and the next one it lacks.
import Mathlib.Data.Nat.Bitwise
import RandomLite.Library.Stripes

/-!
# Pruning stripes

A pruned node keeps the blocks of one stripe and those near the tip. Its seed packs the
stripe, counted from one, and the number of stripes as a power of two. Heights are 64-bit
words: a sum that can wrap in the code is taken modulo `2 ^ 64`.
-/

namespace RandomLite.Monero

/-- `CRYPTONOTE_MAX_BLOCK_NUMBER` -/
def maxBlockNumber : Nat := 500000000

/-- `CRYPTONOTE_PRUNING_STRIPE_SIZE` -/
def pruningStripeSize : Nat := 4096

/-- `CRYPTONOTE_PRUNING_LOG_STRIPES` -/
def pruningLogStripes : Nat := 3

/-- `CRYPTONOTE_PRUNING_TIP_BLOCKS` -/
def pruningTipBlocks : Nat := 5500

def pruningSeedLogStripesShift : Nat := 7
def pruningSeedLogStripesMask : Nat := 0x7
def pruningSeedStripeShift : Nat := 0
def pruningSeedStripeMask : Nat := 0x7f

def getPruningLogStripes (pruningSeed : Nat) : Nat :=
  (pruningSeed >>> pruningSeedLogStripesShift) &&& pruningSeedLogStripesMask

/-- `get_pruning_stripe` of a seed. -/
def getPruningStripe (pruningSeed : Nat) : Nat :=
  if pruningSeed = 0 then 0
  else 1 + ((pruningSeed >>> pruningSeedStripeShift) &&& pruningSeedStripeMask)

/-- `make_pruning_seed`; nothing where an assertion throws. -/
def makePruningSeed (stripe logStripes : Nat) : Option Nat :=
  if logStripes ≤ pruningSeedLogStripesMask then
    if stripe > 0 ∧ stripe ≤ 1 <<< logStripes then
      some ((logStripes <<< pruningSeedLogStripesShift) |||
        ((stripe - 1) <<< pruningSeedStripeShift))
    else none
  else none

/-- The comparison that tells the blocks near the tip, in 64 bits. -/
def inPruningTip (blockHeight blockchainHeight : Nat) : Bool :=
  (blockHeight + pruningTipBlocks) % 2 ^ 64 ≥ blockchainHeight

/-- `get_pruning_stripe` of a block. -/
def getBlockPruningStripe (blockHeight blockchainHeight logStripes : Nat) : Nat :=
  if inPruningTip blockHeight blockchainHeight then 0
  else ((blockHeight / pruningStripeSize) &&& ((1 <<< logStripes) - 1)) + 1

def hasUnprunedBlock (blockHeight blockchainHeight pruningSeed : Nat) : Bool :=
  let stripe := getPruningStripe pruningSeed
  if stripe = 0 then true
  else
    let logStripes := getPruningLogStripes pruningSeed
    let blockStripe := getBlockPruningStripe blockHeight blockchainHeight logStripes
    blockStripe = 0 || blockStripe = stripe

def getNextUnprunedBlockHeight (blockHeight blockchainHeight pruningSeed : Nat) : Nat :=
  if ¬ blockHeight ≤ maxBlockNumber + 1 then blockHeight
  else if ¬ blockchainHeight ≤ maxBlockNumber + 1 then blockHeight
  else
    let stripe := getPruningStripe pruningSeed
    if stripe = 0 then blockHeight
    else if inPruningTip blockHeight blockchainHeight then blockHeight
    else
      let seedLogStripes := getPruningLogStripes pruningSeed
      let logStripes := if seedLogStripes ≠ 0 then seedLogStripes else pruningLogStripes
      let mask := (1 <<< logStripes) - 1
      let blockPruningStripe := ((blockHeight / pruningStripeSize) &&& mask) + 1
      if blockPruningStripe = stripe then blockHeight
      else
        let cycles := (blockHeight / pruningStripeSize) >>> logStripes
        let cycleStart := cycles + if stripe > blockPruningStripe then 0 else 1
        -- The heights were bounded above: from here on nothing wraps.
        let h := cycleStart * (pruningStripeSize <<< logStripes) + (stripe - 1) * pruningStripeSize
        if h + pruningTipBlocks > blockchainHeight then
          if blockchainHeight < pruningTipBlocks then 0 else blockchainHeight - pruningTipBlocks
        else if ¬ h ≥ blockHeight then blockHeight
        else h

/-- `get_next_pruned_block_height`; nothing where `make_pruning_seed` throws. -/
def getNextPrunedBlockHeight (blockHeight blockchainHeight pruningSeed : Nat) : Option Nat :=
  let stripe := getPruningStripe pruningSeed
  if stripe = 0 then some blockchainHeight
  else if inPruningTip blockHeight blockchainHeight then some blockchainHeight
  else
    let seedLogStripes := getPruningLogStripes pruningSeed
    let logStripes := if seedLogStripes ≠ 0 then seedLogStripes else pruningLogStripes
    let mask := (1 <<< logStripes) - 1
    let blockPruningSeed := ((blockHeight / pruningStripeSize) &&& mask) + 1
    if blockPruningSeed ≠ stripe then some blockHeight
    else
      let nextStripe := 1 + (blockPruningSeed &&& mask)
      (makePruningSeed nextStripe logStripes).map
        (getNextUnprunedBlockHeight blockHeight blockchainHeight)

/-! ## Seeds -/

/-- What a seed stands for: the stripes there are, as a power of two, and the node's own. -/
structure Striping where
  logStripes : Nat
  own : Nat
  logStripes_pos : 0 < logStripes
  logStripes_le : logStripes ≤ 7
  own_lt : own < 2 ^ logStripes

namespace Striping

/-- The seed of a striping. -/
def seed (S : Striping) : Nat := S.logStripes * 2 ^ 7 + S.own

/-- The stripe of a block, counted from zero. -/
def stripeOf (S : Striping) (blockHeight : Nat) : Nat :=
  Stripes.stripe pruningStripeSize (2 ^ S.logStripes) blockHeight

/-- The first block from a given one on that is in stripe `k`. -/
def nextIn (S : Striping) (k blockHeight : Nat) : Nat :=
  Stripes.next pruningStripeSize (2 ^ S.logStripes) k blockHeight

/-- A node with this striping keeps the block, at this height of the chain. -/
def Keeps (S : Striping) (blockHeight blockchainHeight : Nat) : Prop :=
  blockchainHeight ≤ blockHeight + pruningTipBlocks ∨ S.stripeOf blockHeight = S.own

variable (S : Striping) {h bh : Nat}

theorem own_lt_word : S.own < 2 ^ 7 :=
  S.own_lt.trans_le (Nat.pow_le_pow_right (by decide) S.logStripes_le)

theorem one_lt_count : 1 < 2 ^ S.logStripes :=
  Nat.one_lt_two_pow (Nat.ne_of_gt S.logStripes_pos)

theorem nextIn_isLeast {k : Nat} (hk : k < 2 ^ S.logStripes) (h : Nat) :
    IsLeast {p | h ≤ p ∧ S.stripeOf p = k} (S.nextIn k h) :=
  Stripes.next_isLeast (by decide) hk

theorem makePruningSeed_eq : makePruningSeed (S.own + 1) S.logStripes = some S.seed := by
  have hown : S.own + 1 ≤ 1 <<< S.logStripes := by
    rw [Nat.shiftLeft_eq, Nat.one_mul]
    exact S.own_lt
  have hlog : S.logStripes ≤ pruningSeedLogStripesMask := S.logStripes_le
  unfold makePruningSeed
  rw [if_pos hlog, if_pos ⟨Nat.succ_pos _, hown⟩]
  congr 1
  change S.logStripes <<< 7 ||| S.own <<< 0 = S.seed
  rw [Nat.shiftLeft_zero, ← Nat.shiftLeft_add_eq_or_of_lt S.own_lt_word, Nat.shiftLeft_eq, seed]

theorem seed_ne_zero : S.seed ≠ 0 := by
  have hpos := S.logStripes_pos
  unfold seed
  omega

theorem getPruningStripe_seed : getPruningStripe S.seed = S.own + 1 := by
  have hown := S.own_lt_word
  unfold getPruningStripe
  rw [if_neg S.seed_ne_zero, Nat.add_comm]
  change (S.seed >>> 0 &&& 2 ^ 7 - 1) + 1 = _
  rw [Nat.shiftRight_zero, Nat.and_two_pow_sub_one_eq_mod, seed, Nat.mul_add_mod_self_right,
    Nat.mod_eq_of_lt hown]

theorem getPruningLogStripes_seed : getPruningLogStripes S.seed = S.logStripes := by
  have hown := S.own_lt_word
  have hlog := S.logStripes_le
  unfold getPruningLogStripes
  change S.seed >>> 7 &&& 2 ^ 3 - 1 = _
  rw [Nat.and_two_pow_sub_one_eq_mod, Nat.shiftRight_eq_div_pow, seed]
  omega

/-- A seed that `make_pruning_seed` gives for two stripes or more is that of a striping. -/
theorem exists_of_makePruningSeed {stripe logStripes seed : Nat} (hpos : 0 < logStripes)
    (hmake : makePruningSeed stripe logStripes = some seed) :
    ∃ S : Striping, S.seed = seed ∧ S.own + 1 = stripe ∧ S.logStripes = logStripes := by
  have hmade := hmake
  unfold makePruningSeed at hmake
  split at hmake
  · rename_i hlog
    split at hmake
    · rename_i hstripe
      rw [Nat.shiftLeft_eq, Nat.one_mul] at hstripe
      let S : Striping :=
        { logStripes, own := stripe - 1, logStripes_pos := hpos, logStripes_le := hlog
          own_lt := by omega }
      have hown : S.own + 1 = stripe := Nat.sub_add_cancel hstripe.1
      have hS := S.makePruningSeed_eq
      rw [hown] at hS
      exact ⟨S, Option.some.inj (hS.symm.trans hmade), hown, rfl⟩
    · cases hmake
  · cases hmake

/-- A seed that `make_pruning_seed` gives is zero, or that of a striping. -/
theorem of_makePruningSeed {stripe logStripes seed : Nat}
    (hmake : makePruningSeed stripe logStripes = some seed) :
    seed = 0 ∨ ∃ S : Striping, S.seed = seed := by
  rcases Nat.eq_zero_or_pos logStripes with rfl | hpos
  · -- One stripe is the only one there is.
    unfold makePruningSeed at hmake
    rw [if_pos (Nat.zero_le _)] at hmake
    split at hmake
    · rename_i hstripe
      rw [Nat.shiftLeft_eq, Nat.one_mul] at hstripe
      have hone : stripe = 1 := Nat.le_antisymm hstripe.2 hstripe.1
      cases hone
      exact .inl (Option.some.inj hmake).symm
    · cases hmake
  · obtain ⟨S, hS, -⟩ := exists_of_makePruningSeed hpos hmake
    exact .inr ⟨S, hS⟩

/-! ## Blocks -/

theorem inPruningTip_iff (hh : h ≤ maxBlockNumber + 1) :
    inPruningTip h bh = true ↔ bh ≤ h + pruningTipBlocks := by
  have hlt : h + pruningTipBlocks < 2 ^ 64 := by
    unfold maxBlockNumber at hh
    unfold pruningTipBlocks
    omega
  unfold inPruningTip
  rw [decide_eq_true_iff, Nat.mod_eq_of_lt hlt]

theorem mask_eq (q logStripes : Nat) : q &&& ((1 <<< logStripes) - 1) = q % 2 ^ logStripes := by
  rw [Nat.shiftLeft_eq, Nat.one_mul, Nat.and_two_pow_sub_one_eq_mod]

theorem hasUnprunedBlock_iff (hh : h ≤ maxBlockNumber + 1) :
    hasUnprunedBlock h bh S.seed = true ↔ S.Keeps h bh := by
  unfold hasUnprunedBlock getBlockPruningStripe
  rw [S.getPruningStripe_seed, S.getPruningLogStripes_seed]
  dsimp only
  rw [if_neg (Nat.succ_ne_zero _), mask_eq]
  by_cases htip : inPruningTip h bh = true
  · rw [if_pos htip]
    exact iff_of_true rfl (.inl ((inPruningTip_iff hh).mp htip))
  · rw [if_neg htip, Bool.or_eq_true, decide_eq_true_iff, decide_eq_true_iff, Nat.succ_inj]
    have hnot : ¬ bh ≤ h + pruningTipBlocks := fun hle => htip ((inPruningTip_iff hh).mpr hle)
    constructor
    · rintro (hzero | hown)
      · cases hzero
      · exact .inr hown
    · rintro (hle | hown)
      · exact absurd hle hnot
      · exact .inr hown

/-- The start of the next cycle's run of the stripe, or of this cycle's. -/
theorem cycle_eq (hne : Stripes.stripe pruningStripeSize (2 ^ S.logStripes) h ≠ S.own) :
    ((h / pruningStripeSize) >>> S.logStripes +
          if S.own + 1 > h / pruningStripeSize % 2 ^ S.logStripes + 1 then 0 else 1) *
        (pruningStripeSize <<< S.logStripes) + (S.own + 1 - 1) * pruningStripeSize =
      S.nextIn S.own h := by
  have hcond : (S.own + 1 > h / pruningStripeSize % 2 ^ S.logStripes + 1) ↔
      h / pruningStripeSize % 2 ^ S.logStripes ≤ S.own := by
    unfold Stripes.stripe at hne
    omega
  unfold nextIn Stripes.next Stripes.nextResidue
  rw [if_neg hne, if_congr hcond rfl rfl, Nat.shiftRight_eq_div_pow, Nat.shiftLeft_eq,
    Nat.add_sub_cancel]
  ring

/-- `get_next_unpruned_block_height` away from the tip: the run of the stripe, or the tip. -/
theorem getNextUnprunedBlockHeight_eq (hh : h ≤ maxBlockNumber + 1)
    (hbh : bh ≤ maxBlockNumber + 1) (htip : ¬ bh ≤ h + pruningTipBlocks) :
    getNextUnprunedBlockHeight h bh S.seed =
      min (S.nextIn S.own h) (bh - pruningTipBlocks) := by
  have hnext : h ≤ S.nextIn S.own h := (S.nextIn_isLeast S.own_lt h).1.1
  unfold getNextUnprunedBlockHeight
  rw [S.getPruningStripe_seed, S.getPruningLogStripes_seed]
  dsimp only
  rw [if_neg (not_not.mpr hh), if_neg (not_not.mpr hbh), if_neg (Nat.succ_ne_zero _),
    if_neg (fun htrue => htip ((inPruningTip_iff hh).mp htrue)),
    if_pos (Nat.ne_of_gt S.logStripes_pos), mask_eq]
  by_cases hown : S.stripeOf h = S.own
  · have hself : S.nextIn S.own h = h := if_pos hown
    have hown' : h / pruningStripeSize % 2 ^ S.logStripes = S.own := hown
    rw [hself, if_pos (by rw [hown'])]
    omega
  · have hown' : h / pruningStripeSize % 2 ^ S.logStripes + 1 ≠ S.own + 1 := fun heq =>
      hown (Nat.succ.inj heq)
    rw [if_neg hown', S.cycle_eq hown]
    by_cases hover : S.nextIn S.own h + pruningTipBlocks > bh
    · rw [if_pos hover, if_neg (by omega)]
      omega
    · rw [if_neg hover, if_neg (not_not.mpr hnext)]
      omega

/-- The next unpruned height is the first one that the node keeps. -/
theorem nextKept_isLeast (hh : h ≤ maxBlockNumber + 1)
    (hbh : bh ≤ maxBlockNumber + 1) :
    IsLeast {p | h ≤ p ∧ S.Keeps p bh} (getNextUnprunedBlockHeight h bh S.seed) := by
  by_cases htip : bh ≤ h + pruningTipBlocks
  · have hself : getNextUnprunedBlockHeight h bh S.seed = h := by
      unfold getNextUnprunedBlockHeight
      rw [if_neg (not_not.mpr hh), if_neg (not_not.mpr hbh), S.getPruningStripe_seed]
      dsimp only
      rw [if_neg (Nat.succ_ne_zero _), if_pos ((inPruningTip_iff hh).mpr htip)]
    rw [hself]
    exact ⟨⟨le_rfl, .inl htip⟩, fun p hp => hp.1⟩
  · obtain ⟨⟨hle, hstripe⟩, hleast⟩ := S.nextIn_isLeast S.own_lt h
    rw [S.getNextUnprunedBlockHeight_eq hh hbh htip]
    constructor
    · rcases Nat.le_total (S.nextIn S.own h) (bh - pruningTipBlocks) with hrun | hfront
      · rw [Nat.min_eq_left hrun]
        exact ⟨hle, .inr hstripe⟩
      · rw [Nat.min_eq_right hfront]
        exact ⟨by omega, .inl (by omega)⟩
    · rintro p ⟨hp, hkept | hown⟩
      · exact (Nat.min_le_right _ _).trans (by omega)
      · exact (Nat.min_le_left _ _).trans (hleast ⟨hp, hown⟩)

/-- The striping of the next stripe in turn. -/
def turn (S : Striping) : Striping :=
  { S with own := (S.own + 1) % 2 ^ S.logStripes
           own_lt := Nat.mod_lt _ (Nat.two_pow_pos _) }

/-- In a run of the node's own stripe the next block it lacks starts the next run, unless the
tip comes first. -/
theorem getNextPrunedBlockHeight_own (hh : h ≤ maxBlockNumber + 1)
    (hbh : bh ≤ maxBlockNumber + 1) (htip : ¬ bh ≤ h + pruningTipBlocks)
    (hown : S.stripeOf h = S.own) :
    getNextPrunedBlockHeight h bh S.seed =
      some (min (S.nextIn ((S.stripeOf h + 1) % 2 ^ S.logStripes) h) (bh - pruningTipBlocks)) := by
  have hnext : 1 + (S.own + 1) % 2 ^ S.logStripes = S.turn.own + 1 := Nat.add_comm _ _
  have hown' : h / pruningStripeSize % 2 ^ S.logStripes = S.own := hown
  unfold getNextPrunedBlockHeight
  rw [S.getPruningStripe_seed, S.getPruningLogStripes_seed]
  dsimp only
  rw [if_neg (Nat.succ_ne_zero _), if_neg (fun htrue => htip ((inPruningTip_iff hh).mp htrue)),
    if_pos (Nat.ne_of_gt S.logStripes_pos), mask_eq, mask_eq, hown', if_neg (not_not.mpr rfl),
    hnext, hown]
  have hmake : makePruningSeed (S.turn.own + 1) S.logStripes = some S.turn.seed :=
    S.turn.makePruningSeed_eq
  rw [hmake, Option.map_some, S.turn.getNextUnprunedBlockHeight_eq hh hbh htip]
  rfl

/-- The blocks before the next pruned height are kept; that height is past the chain, or is
where the kept blocks or the blocks below the tip end. -/
theorem nextPruned_spec (hh : h ≤ maxBlockNumber + 1)
    (hbh : bh ≤ maxBlockNumber + 1) :
    ∃ r, getNextPrunedBlockHeight h bh S.seed = some r ∧
      (∀ p, h ≤ p → p < r → S.Keeps p bh) ∧
      (r = bh ∨ h ≤ r ∧ (¬ S.Keeps r bh ∨ r + pruningTipBlocks = bh)) := by
  by_cases htip : bh ≤ h + pruningTipBlocks
  · refine ⟨bh, ?_, fun p hp _ => .inl (by omega), .inl rfl⟩
    unfold getNextPrunedBlockHeight
    rw [S.getPruningStripe_seed]
    dsimp only
    rw [if_neg (Nat.succ_ne_zero _), if_pos ((inPruningTip_iff hh).mpr htip)]
  · by_cases hown : S.stripeOf h = S.own
    · refine ⟨_, S.getNextPrunedBlockHeight_own hh hbh htip hown, fun p hp hlt => ?_, .inr ?_⟩
      · have hrun := Stripes.stripe_eq_of_lt_next (by decide) S.one_lt_count hp
          (hlt.trans_le (Nat.min_le_left _ _))
        exact .inr (hrun.trans hown)
      · have hturned : (S.stripeOf h + 1) % 2 ^ S.logStripes < 2 ^ S.logStripes :=
          Nat.mod_lt _ (Nat.two_pow_pos _)
        obtain ⟨⟨hle, hstripe⟩, -⟩ := S.nextIn_isLeast hturned h
        rcases Nat.lt_or_ge (S.nextIn ((S.stripeOf h + 1) % 2 ^ S.logStripes) h)
            (bh - pruningTipBlocks) with hrun | hfront
        · rw [Nat.min_eq_left hrun.le]
          refine ⟨hle, .inl ?_⟩
          rintro (hkept | hsame)
          · omega
          · -- The stripe after the node's own is another one.
            have hother := Stripes.nextResidue_succ (q := S.own) S.one_lt_count
            have hself : S.own % 2 ^ S.logStripes = S.own := Nat.mod_eq_of_lt S.own_lt
            have hturn : (S.own + 1) % 2 ^ S.logStripes = S.own := by
              rw [← hown]
              exact hstripe.symm.trans (hsame.trans hown.symm)
            rw [hself, hturn] at hother
            have hle' := Stripes.nextResidue_le (p := S.own) le_rfl hself
            omega
        · rw [Nat.min_eq_right hfront]
          exact ⟨by omega, .inr (by omega)⟩
    · refine ⟨h, ?_, fun p hp hlt => absurd hlt (Nat.not_lt.mpr hp), .inr ⟨le_rfl, .inl ?_⟩⟩
      · have hne : h / pruningStripeSize % 2 ^ S.logStripes + 1 ≠ S.own + 1 := fun heq =>
          hown (Nat.succ.inj heq)
        unfold getNextPrunedBlockHeight
        rw [S.getPruningStripe_seed, S.getPruningLogStripes_seed]
        dsimp only
        rw [if_neg (Nat.succ_ne_zero _),
          if_neg (fun htrue => htip ((inPruningTip_iff hh).mp htrue)),
          if_pos (Nat.ne_of_gt S.logStripes_pos), mask_eq, if_pos hne]
      · rintro (hkept | hsame)
        · exact htip hkept
        · exact hown hsame

end Striping

/-! ## Any seed -/

theorem getNextUnprunedBlockHeight_le {h bh seed : Nat} (hh : h ≤ maxBlockNumber + 1)
    (hbh : bh ≤ maxBlockNumber + 1) :
    getNextUnprunedBlockHeight h bh seed ≤ maxBlockNumber + 1 := by
  unfold getNextUnprunedBlockHeight
  rw [if_neg (not_not.mpr hh), if_neg (not_not.mpr hbh)]
  dsimp only
  repeat' split
  all_goals omega

/-- `get_next_unpruned_block_height` is the first height from the given one on that
`has_unpruned_block` holds of. -/
theorem getNextUnprunedBlockHeight_isLeast {stripe logStripes seed h bh : Nat}
    (hmake : makePruningSeed stripe logStripes = some seed) (hh : h ≤ maxBlockNumber + 1)
    (hbh : bh ≤ maxBlockNumber + 1) :
    IsLeast {p | h ≤ p ∧ hasUnprunedBlock p bh seed = true}
      (getNextUnprunedBlockHeight h bh seed) := by
  have hbound : getNextUnprunedBlockHeight h bh seed ≤ maxBlockNumber + 1 :=
    getNextUnprunedBlockHeight_le hh hbh
  rcases Striping.of_makePruningSeed hmake with rfl | ⟨S, rfl⟩
  · have hself : getNextUnprunedBlockHeight h bh 0 = h := by
      unfold getNextUnprunedBlockHeight
      rw [if_neg (not_not.mpr hh), if_neg (not_not.mpr hbh)]
      rfl
    rw [hself]
    exact ⟨⟨le_rfl, rfl⟩, fun p hp => hp.1⟩
  · obtain ⟨⟨hle, hkept⟩, hleast⟩ := S.nextKept_isLeast hh hbh
    refine ⟨⟨hle, (S.hasUnprunedBlock_iff hbound).mpr hkept⟩, fun p hp => ?_⟩
    rcases Nat.le_total p (maxBlockNumber + 1) with hsmall | hlarge
    · exact hleast ⟨hp.1, (S.hasUnprunedBlock_iff hsmall).mp hp.2⟩
    · exact hbound.trans hlarge

/-- From block 100 on, stripe 3 of 8 starts at block 8192. -/
theorem getNextUnprunedBlockHeight_isLeast_sample :
    getNextUnprunedBlockHeight 100 100000 386 = 8192 ∧
      IsLeast {p | 100 ≤ p ∧ hasUnprunedBlock p 100000 386 = true}
        (getNextUnprunedBlockHeight 100 100000 386) :=
  have hmake : makePruningSeed 3 3 = some 386 := rfl
  ⟨by decide +kernel, getNextUnprunedBlockHeight_isLeast hmake (by decide) (by decide)⟩

/-- `get_next_pruned_block_height` answers, every block before its answer is there, and the
answer is the height of the chain, that of a block that is not there, or where the tip starts. -/
theorem getNextPrunedBlockHeight_spec {stripe logStripes seed h bh : Nat}
    (hmake : makePruningSeed stripe logStripes = some seed) (hh : h ≤ maxBlockNumber + 1)
    (hbh : bh ≤ maxBlockNumber + 1) :
    ∃ r, getNextPrunedBlockHeight h bh seed = some r ∧
      (∀ p, h ≤ p → p < r → hasUnprunedBlock p bh seed = true) ∧
      (r = bh ∨ h ≤ r ∧ (hasUnprunedBlock r bh seed = false ∨ r + pruningTipBlocks = bh)) := by
  rcases Striping.of_makePruningSeed hmake with rfl | ⟨S, rfl⟩
  · exact ⟨bh, rfl, fun p _ _ => rfl, .inl rfl⟩
  · obtain ⟨r, hr, hbefore, hat⟩ := S.nextPruned_spec hh hbh
    have hle : r ≤ maxBlockNumber + 1 := by
      rcases hat with rfl | ⟨-, hlost | hfront⟩
      · exact hbh
      · have hbelow : ¬ bh ≤ r + pruningTipBlocks := fun hkept => hlost (.inl hkept)
        omega
      · omega
    refine ⟨r, hr, fun p hp hlt => ?_, ?_⟩
    · exact (S.hasUnprunedBlock_iff (hlt.le.trans hle)).mpr (hbefore p hp hlt)
    · rcases hat with rfl | ⟨hfrom, hlost | hfront⟩
      · exact .inl rfl
      · refine .inr ⟨hfrom, .inl (Bool.eq_false_iff.mpr fun hhas => hlost ?_)⟩
        exact (S.hasUnprunedBlock_iff hle).mp hhas
      · exact .inr ⟨hfrom, .inr hfront⟩

/-- From block 10000 on, stripe 3 of 8 ends at block 12288, which starts stripe 4. -/
theorem getNextPrunedBlockHeight_spec_sample :
    getNextPrunedBlockHeight 10000 100000 386 = some 12288 ∧
      ∃ r, getNextPrunedBlockHeight 10000 100000 386 = some r ∧
        (∀ p, 10000 ≤ p → p < r → hasUnprunedBlock p 100000 386 = true) ∧
        (r = 100000 ∨ 10000 ≤ r ∧
          (hasUnprunedBlock r 100000 386 = false ∨ r + pruningTipBlocks = 100000)) :=
  have hmake : makePruningSeed 3 3 = some 386 := rfl
  ⟨by decide +kernel, getNextPrunedBlockHeight_spec hmake (by decide) (by decide)⟩

end RandomLite.Monero
