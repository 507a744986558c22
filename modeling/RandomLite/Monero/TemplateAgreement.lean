-- SUMMARY: The builder of block templates and the checks of a miner transaction agree: in every reachable state a template passes.
import RandomLite.Monero.BlockTemplate
import RandomLite.Monero.Emission

/-!
# Agreement of builder and validator

The builder takes half the weight limit for the median, the validator the median itself
or, before fork 12, the median of the last weights; the same reward comes of all three.
A template that was made is built for the weight it has, and the one that is kept is
dropped whenever the chain moves.
-/

namespace RandomLite.Monero

/-! ## One round of the loop -/

section Loop

variable {P : TxPrimitives} {txsWeight cumulativeWeight : Nat} {tx tx' : CoinbaseTx}

theorem checkMinerTxWeight_done (h : checkMinerTxWeight P txsWeight cumulativeWeight tx = .done tx') :
    tx' = tx ∧ cumulativeWeight = txsWeight + P.getTransactionWeight tx' := by
  unfold checkMinerTxWeight at h
  split at h
  · rename_i hweight
    cases h
    exact ⟨rfl, hweight⟩
  · cases h

/-- A round that ends the loop changed the extra field at most. -/
theorem adjustMinerTx_done (h : adjustMinerTx P txsWeight cumulativeWeight tx = .done tx') :
    tx'.toMinerTx = tx.toMinerTx ∧
      cumulativeWeight = txsWeight + P.getTransactionWeight tx' := by
  unfold adjustMinerTx at h
  dsimp only at h
  split at h
  · cases h
  split at h
  · split at h
    · split at h
      · cases h
      split at h
      · cases h
      obtain ⟨rfl, hweight⟩ := checkMinerTxWeight_done h
      exact ⟨rfl, hweight⟩
    · obtain ⟨rfl, hweight⟩ := checkMinerTxWeight_done h
      exact ⟨rfl, hweight⟩
  · obtain ⟨rfl, hweight⟩ := checkMinerTxWeight_done h
    exact ⟨rfl, hweight⟩

variable {construct : Nat → Nat → CoinbaseTx → Option CoinbaseTx} {Built : Nat → MinerTx → Prop}

/-- The transaction the loop ends with was built for the weight that the block has. -/
theorem minerTxLoop_spec
    (hconstruct : ∀ count weight tx tx', tx.rctType = 0 → construct count weight tx = some tx' →
      tx'.rctType = 0 ∧ Built weight tx'.toMinerTx)
    {tries count weight : Nat} (hrct : tx.rctType = 0)
    (h : minerTxLoop P construct txsWeight tries count cumulativeWeight tx = some (tx', weight)) :
    Built weight tx'.toMinerTx ∧ weight = txsWeight + P.getTransactionWeight tx' := by
  induction tries generalizing count cumulativeWeight tx with
  | zero => cases h
  | succ tries ih =>
    unfold minerTxLoop at h
    split at h
    · cases h
    rename_i built hbuilt
    obtain ⟨hnext, hQ⟩ := hconstruct count cumulativeWeight tx built hrct hbuilt
    split at h
    · cases h
    · exact ih hnext h
    · rename_i hdone
      cases h
      obtain ⟨hsame, hweight⟩ := adjustMinerTx_done hdone
      rw [hsame]
      exact ⟨hQ, hweight⟩

theorem findMinerTx_spec
    (hconstruct : ∀ count weight tx tx', tx.rctType = 0 → construct count weight tx = some tx' →
      tx'.rctType = 0 ∧ Built weight tx'.toMinerTx)
    {weight : Nat} (h : findMinerTx P construct txsWeight = some (tx', weight)) :
    Built weight tx'.toMinerTx ∧ weight = txsWeight + P.getTransactionWeight tx' := by
  unfold findMinerTx at h
  split at h
  · cases h
  · rename_i first hfirst
    exact minerTxLoop_spec hconstruct (hconstruct 0 txsWeight {} first rfl hfirst).1 h

end Loop

/-! ## Agreement of the medians -/

/-- A median raised to the full reward zone gives the same reward. -/
theorem getBlockReward_raised (version : UInt8) (medianWeight : Nat)
    (weight alreadyGeneratedCoins : UInt64) :
    getBlockReward (UInt64.ofNat (if medianWeight ≤ (getMinBlockWeight version).toNat
        then (getMinBlockWeight version).toNat else medianWeight)) weight alreadyGeneratedCoins version =
      getBlockReward (UInt64.ofNat medianWeight) weight alreadyGeneratedCoins version := by
  split
  · rename_i hsmall
    have hraise : (if UInt64.ofNat medianWeight < getMinBlockWeight version
        then getMinBlockWeight version else UInt64.ofNat medianWeight) =
          getMinBlockWeight version := by
      split
      · rfl
      · rename_i hlarge
        have hfits := Nat.lt_of_le_of_lt hsmall (getMinBlockWeight version).toNat_lt
        rw [UInt64.lt_iff_toNat_lt, UInt64.toNat_ofNat_of_lt' hfits] at hlarge
        rw [Nat.le_antisymm hsmall (Nat.le_of_not_lt hlarge), UInt64.ofNat_toNat]
    unfold getBlockReward
    dsimp only
    rw [hraise, UInt64.ofNat_toNat, if_neg (UInt64.lt_irrefl _)]
  · rfl

namespace TemplateNode

variable (C : Content) (P : TxPrimitives)

/-- The weight of the block of a template. -/
def blockWeight (t : BlockTemplate) : Nat :=
  P.getTransactionWeight t.minerTx + (t.block.txHashes.map P.weightOfTx).sum

/-- The miner transaction of a template passes both checks in this state, and the reward
    is matched exactly. -/
structure Accepts (n : TemplateNode) (t : BlockTemplate) : Prop where
  height_eq : t.height = n.db.height
  version_eq : t.block.majorVersion = n.currentVersion
  prevId_eq : t.block.prevId = n.db.topBlockHash C
  minerTx_eq : t.block.minerTx = t.minerTx.toMinerTx
  cumulativeWeight_eq : t.cumulativeWeight = blockWeight P t
  prevalidated :
    prevalidateMinerTransaction t.block (UInt64.ofNat n.db.height) n.currentVersion = true
  validated : ∃ baseReward,
    validateMinerTransaction t.block (UInt64.ofNat (n.rewardMedian n.currentVersion))
      (UInt64.ofNat (blockWeight P t)) (C.feeSummary t.block) n.db.topGeneratedCoins
      n.currentVersion = some baseReward ∧
    baseReward + C.feeSummary t.block = getOutsMoneyAmount t.block.minerTx

/-- What holds in every reachable state. -/
structure Ready (n : TemplateNode) : Prop where
  limit_eq : n.currentBlockCumulWeightLimit = n.currentBlockCumulWeightMedian * 2
  /-- The median that is kept is the one of the chain. -/
  median_eq : 1 ≤ n.db.height → n.currentBlockCumulWeightMedian = n.nextBlockCumulWeightMedian
  nonempty : n.btc.isSome → 1 ≤ n.db.height
  accepted : ∀ c, n.btc = some c → n.Accepts C P c.toBlockTemplate

variable {C P} {n : TemplateNode}

/-! ## Making a template -/

/-- Builder and validator come to the same reward. -/
theorem Ready.reward_eq (h : n.Ready C P) (hne : 1 ≤ n.db.height) (weight coins : UInt64) :
    getBlockReward (UInt64.ofNat (n.currentBlockCumulWeightLimit / 2)) weight coins
        n.currentVersion =
      getBlockReward (UInt64.ofNat (n.rewardMedian n.currentVersion)) weight coins
        n.currentVersion := by
  rw [h.limit_eq, Nat.mul_div_cancel _ (by decide : 0 < 2)]
  unfold rewardMedian
  split
  · rfl
  · rename_i hearly
    have hten : n.currentVersion < 10 := by
      unfold currentVersion versionAt at hearly ⊢
      split
      · decide
      · rename_i hlate
        rw [if_neg hlate] at hearly
        exact absurd (by decide) hearly
    have hshort : n.effectiveMedianBlockWeight =
        median (n.getLastNBlocksWeights rewardBlocksWindow) := by
      unfold effectiveMedianBlockWeight
      exact if_pos hten
    rw [h.median_eq hne, nextBlockCumulWeightMedian, hshort]
    exact getBlockReward_raised _ _ _ _

/-- A miner transaction that pays the reward for this weight, and the fees. -/
def BuiltFor (n : TemplateNode) (alreadyGeneratedCoins fee : UInt64) (weight : Nat)
    (tx : MinerTx) : Prop :=
  ∃ reward, getBlockReward (UInt64.ofNat n.templateMedianWeight) (UInt64.ofNat weight)
      alreadyGeneratedCoins n.currentVersion = some reward ∧
    tx.Pays n.db.height n.currentVersion (rewardWithFee reward fee n.currentVersion)

theorem buildMinerTx_spec {r : TemplateRequest C P} {coins fee : UInt64} (count weight : Nat)
    (tx tx' : CoinbaseTx) (hrct : tx.rctType = 0)
    (h : n.buildMinerTx r coins fee count weight tx = some tx') :
    tx'.rctType = 0 ∧ n.BuiltFor coins fee weight tx'.toMinerTx := by
  obtain ⟨reward, hreward, hpays⟩ := constructMinerTx_spec hrct h
  exact ⟨hpays.rctType_eq, reward, hreward, hpays⟩

theorem makeTemplate_accepts {r : TemplateRequest C P} {c : CachedTemplate} (h : n.Ready C P)
    (hmake : n.makeTemplate r = some c) :
    1 ≤ n.db.height ∧ n.Accepts C P c.toBlockTemplate := by
  unfold makeTemplate at hmake
  split at hmake
  · cases hmake
  rename_i top htop
  dsimp only at hmake
  split at hmake
  · cases hmake
  split at hmake
  · cases hmake
  rename_i filled hfill
  split at hmake
  · cases hmake
  rename_i minerTx weight hfound
  cases hmake
  obtain ⟨⟨reward, hreward, hpays⟩, hweight⟩ := findMinerTx_spec buildMinerTx_spec hfound
  have hblock : weight = blockWeight P (n.assembleTemplate r filled minerTx weight).toBlockTemplate := by
    rw [hweight, filled.totalWeight_eq, Nat.add_comm]
    rfl
  have hfees : C.feeSummary (n.assembleTemplate r filled minerTx weight).block = filled.fee :=
    filled.fee_eq.symm
  have hcoins : n.db.topGeneratedCoins = top.alreadyGeneratedCoins := by
    rw [BlockchainDB.topGeneratedCoins, htop]
  have hne : 1 ≤ n.db.height := List.length_pos_of_mem (List.mem_of_getLast? htop)
  -- The block as it will be checked: its miner transaction was built at the weight it has.
  have hbuilt : (n.assembleTemplate r filled minerTx weight).block.minerTx.Pays n.db.height
      n.currentVersion (rewardWithFee reward filled.fee n.currentVersion) := hpays
  rw [templateMedianWeight, h.reward_eq hne] at hreward
  refine ⟨hne, rfl, rfl, rfl, rfl, hblock, hbuilt.prevalidate, reward, ?_⟩
  rw [← hblock, hfees, hcoins]
  exact hbuilt.validate (versionAt_exact _) hreward

/-- A template depends on the chain and the medians alone. -/
theorem Accepts.of_same {n' : TemplateNode} {t : BlockTemplate} (h : n.Accepts C P t)
    (hdb : n'.db = n.db) (hweights : n'.blockWeights = n.blockWeights)
    (hmedian : n'.currentBlockCumulWeightMedian = n.currentBlockCumulWeightMedian) :
    n'.Accepts C P t := by
  have hversion : n'.currentVersion = n.currentVersion := by
    rw [currentVersion, hdb]
    rfl
  have hreward : n'.rewardMedian = n.rewardMedian := by
    funext version
    rw [rewardMedian, rewardMedian, getLastNBlocksWeights, hdb, hweights, hmedian]
    rfl
  refine ⟨?_, ?_, ?_, h.minerTx_eq, h.cumulativeWeight_eq, ?_, ?_⟩
  · rw [hdb]
    exact h.height_eq
  · rw [hversion]
    exact h.version_eq
  · rw [hdb]
    exact h.prevId_eq
  · rw [hdb, hversion]
    exact h.prevalidated
  · rw [hdb, hversion, hreward]
    exact h.validated

/-- Nor on the timestamp. -/
theorem Accepts.restamp {c : CachedTemplate} (h : n.Accepts C P c.toBlockTemplate)
    (timestamp : UInt64) :
    n.Accepts C P { c with block := { c.block with timestamp := timestamp } }.toBlockTemplate :=
  ⟨h.height_eq, h.version_eq, h.prevId_eq, h.minerTx_eq, h.cumulativeWeight_eq, h.prevalidated,
    h.validated⟩

/-- The template that is kept may be replaced by one that passes. -/
theorem Ready.setBtc (h : n.Ready C P) {btc : Option CachedTemplate}
    (hbtc : ∀ c, btc = some c → 1 ≤ n.db.height ∧ n.Accepts C P c.toBlockTemplate) :
    { n with btc := btc }.Ready C P where
  limit_eq := h.limit_eq
  median_eq := h.median_eq
  nonempty hsome := by
    obtain ⟨c, hc⟩ := Option.isSome_iff_exists.mp hsome
    exact (hbtc c hc).1
  accepted c hc := (hbtc c hc).2.of_same rfl rfl rfl

theorem reuseTemplate_accepts {r : TemplateRequest C P} {c : CachedTemplate} (h : n.Ready C P)
    (hreuse : n.reuseTemplate C r = some c) :
    1 ≤ n.db.height ∧ n.Accepts C P c.toBlockTemplate := by
  unfold reuseTemplate at hreuse
  split at hreuse
  · cases hreuse
  rename_i kept hkept
  have hne := h.nonempty (Option.isSome_iff_exists.mpr ⟨kept, hkept⟩)
  split at hreuse
  · split at hreuse
    · cases hreuse
      exact ⟨hne, (h.accepted kept hkept).restamp r.now⟩
    · cases hreuse
      exact ⟨hne, h.accepted c hkept⟩
  · cases hreuse

/-- Whatever `create_block_template` returns passes, and what it keeps passes as well. -/
theorem Ready.createBlockTemplate (h : n.Ready C P) (r : TemplateRequest C P) :
    (n.createBlockTemplate C r).2.Ready C P ∧
      ∀ t, (n.createBlockTemplate C r).1 = some t → n.Accepts C P t := by
  unfold TemplateNode.createBlockTemplate
  split
  · rename_i c hreuse
    have haccepts := reuseTemplate_accepts h hreuse
    refine ⟨h.setBtc fun c' hc' => ?_, fun t ht => ?_⟩
    · cases hc'
      exact haccepts
    · cases ht
      exact haccepts.2
  · have hdropped : n.invalidateBlockTemplateCache.Ready C P :=
      h.setBtc (fun c hc => by cases hc)
    dsimp only
    split
    · rename_i c hmake
      have haccepts := makeTemplate_accepts hdropped hmake
      refine ⟨hdropped.setBtc fun c' hc' => ?_, fun t ht => ?_⟩
      · cases hc'
        exact haccepts
      · cases ht
        exact haccepts.2.of_same rfl rfl rfl
    · exact ⟨hdropped, fun t ht => by cases ht⟩

/-! ## Moving the chain -/

/-- Once the limit is updated, it only takes a template that passes. -/
theorem updateNextCumulativeWeightLimit_ready
    (hbtc : ∀ c, n.btc = some c → 1 ≤ n.db.height ∧
      n.updateNextCumulativeWeightLimit.Accepts C P c.toBlockTemplate) :
    n.updateNextCumulativeWeightLimit.Ready C P where
  limit_eq := rfl
  median_eq _ := rfl
  nonempty hsome := by
    obtain ⟨c, hc⟩ := Option.isSome_iff_exists.mp hsome
    exact (hbtc c hc).1
  accepted c hc := (hbtc c hc).2

/-- A block that is connected leaves the node ready, and a refused one leaves it as it is. -/
theorem Ready.handleBlockToMainChain (h : n.Ready C P) (E : Env) (b : Block) (blockWeight : Nat) :
    (n.handleBlockToMainChain C E b blockWeight).2.Ready C P := by
  unfold TemplateNode.handleBlockToMainChain
  dsimp only
  split
  · exact h
  · exact { limit_eq := rfl
            median_eq := fun _ => rfl
            nonempty := fun hsome => by cases hsome
            accepted := fun c hc => by cases hc }

theorem popBlockFromBlockchain_btc {n' : TemplateNode}
    (h : n.popBlockFromBlockchain = some n') : n'.btc = none := by
  unfold popBlockFromBlockchain at h
  split at h
  · cases h
  · cases h
    rfl

/-- The loop pops at least one block, or nothing happens. -/
theorem popLoop_btc {k : Nat} {n' : TemplateNode} (h : popLoop k n = some n') :
    n'.btc = none ∨ n' = n := by
  induction k generalizing n with
  | zero =>
    cases h
    exact .inr rfl
  | succ k ih =>
    unfold popLoop at h
    split at h
    · cases h
    rename_i popped hpop
    rcases ih h with hnone | rfl
    · exact .inl hnone
    · exact .inl (popBlockFromBlockchain_btc hpop)

/-- Popping any number of blocks leaves the node ready. Where none is popped the same median
    is computed again. -/
theorem Ready.popBlocks (h : n.Ready C P) (nblocks : Nat) : (n.popBlocks nblocks).Ready C P := by
  unfold TemplateNode.popBlocks
  dsimp only
  split
  · exact h
  · rename_i popped hpop
    apply updateNextCumulativeWeightLimit_ready
    intro c hc
    rcases popLoop_btc hpop with hnone | rfl
    · rw [hnone] at hc
      cases hc
    · have hne := h.nonempty (Option.isSome_iff_exists.mpr ⟨c, hc⟩)
      exact ⟨hne, (h.accepted c hc).of_same rfl rfl (h.median_eq hne).symm⟩

/-! ## Agreement -/

theorem ready_empty : ({} : TemplateNode).Ready C P where
  limit_eq := rfl
  median_eq hne := absurd hne (by decide)
  nonempty hsome := by cases hsome
  accepted c hc := by cases hc

theorem Ready.step (h : n.Ready C P) (call : TemplateCall C P) :
    ((templateMachine C P).step n call).2.Ready C P := by
  cases call with
  | handleBlockToMainChain b blockWeight E => exact h.handleBlockToMainChain E b blockWeight
  | popBlocks nblocks => exact h.popBlocks nblocks
  | createBlockTemplate r => exact (h.createBlockTemplate r).1

theorem Ready.run (calls : List (TemplateCall C P)) :
    ((templateMachine C P).final {} calls).Ready C P :=
  Machine.final_induction (I := Ready C P) calls ready_empty fun _ call _ h => h.step call

end TemplateNode

/-- After every run, a template that `create_block_template` returns passes both checks of
    its miner transaction at that height and version, and its outputs are exactly the reward
    and the fees. -/
theorem blockTemplate_accepted (C : Content) (P : TxPrimitives) (calls : List (TemplateCall C P))
    (r : TemplateRequest C P) {t : BlockTemplate}
    (h : (((templateMachine C P).final {} calls).createBlockTemplate C r).1 = some t) :
    ((templateMachine C P).final {} calls).Accepts C P t :=
  ((TemplateNode.Ready.run calls).createBlockTemplate r).2 t h

/-- Keys that are all zero, and weights by the number of bytes and outputs. -/
def samplePrimitives : TxPrimitives where
  generateKeyDerivation _ _ := some nullHash
  derivePublicKey _ _ _ := some nullHash
  deriveViewTag _ _ := 0
  sortTxExtra extra := some extra
  getTransactionWeight tx := 20 + tx.extra.length + 40 * tx.vout.length
  weightOfTx _ := 1500

theorem sampleWeight_eq : 1500 = ([nullHash].map samplePrimitives.weightOfTx).sum := rfl

theorem sampleFee_eq :
    100000000000000 = ([nullHash].map sampleContent.getTxFee).foldl (· + ·) 0 := rfl

/-- A pool with one transaction. -/
def samplePool : TxMemoryPool sampleContent samplePrimitives where
  cookie := 1
  fillBlockTemplate _ _ _ := some
    { txHashes := [nullHash]
      totalWeight := 1500
      fee := 100000000000000
      expectedReward := 0
      totalWeight_eq := sampleWeight_eq
      fee_eq := sampleFee_eq }

def sampleRequest : TemplateRequest sampleContent samplePrimitives where
  minerAddress := { spendPublicKey := nullHash, viewPublicKey := nullHash }
  exNonce := [1, 2, 3]
  now := 1000
  pool := samplePool
  difficultyForNextBlock _ := 1
  keypairs _ := { pub := nullHash, sec := nullHash }

/-- A request while nothing is in the pool. -/
def emptyRequest : TemplateRequest sampleContent samplePrimitives where
  minerAddress := { spendPublicKey := nullHash, viewPublicKey := nullHash }
  exNonce := [1, 2, 3]
  now := 1000
  pool :=
    { cookie := 1
      fillBlockTemplate _ _ _ := some
        { txHashes := []
          totalWeight := 0
          fee := 0
          expectedReward := 0
          totalWeight_eq := rfl
          fee_eq := rfl } }
  difficultyForNextBlock _ := 1
  keypairs _ := { pub := nullHash, sec := nullHash }

/-- A chain of thirty blocks, with a template asked for and popped from under. -/
def sampleTemplateCalls : List (TemplateCall sampleContent samplePrimitives) :=
  (trunk 30).map (fun b => .handleBlockToMainChain b 90 sampleEnv) ++
    [.createBlockTemplate sampleRequest, .popBlocks 1, .createBlockTemplate sampleRequest]

/-- A template before the fork at height 2, and one with a transaction that is kept after it. -/
theorem blockTemplate_accepted_sample :
    (∃ t : BlockTemplate, t.height = 1 ∧ t.block.txHashes.length = 0 ∧
      ((templateMachine sampleContent samplePrimitives).final {}
        (sampleTemplateCalls.take 1)).Accepts sampleContent samplePrimitives t) ∧
    ∃ t : BlockTemplate, t.height = 29 ∧ t.block.txHashes.length = 1 ∧
      ((templateMachine sampleContent samplePrimitives).final {}
        sampleTemplateCalls).Accepts sampleContent samplePrimitives t := by
  have hfirst : ((((templateMachine sampleContent samplePrimitives).final {}
      (sampleTemplateCalls.take 1)).createBlockTemplate sampleContent emptyRequest).1.map
        fun t => (t.height, t.block.txHashes.length)) = some (1, 0) := by decide +kernel
  have hsecond : ((((templateMachine sampleContent samplePrimitives).final {}
      sampleTemplateCalls).createBlockTemplate sampleContent sampleRequest).1.map
        fun t => (t.height, t.block.txHashes.length)) = some (29, 1) := by decide +kernel
  obtain ⟨t, ht, hfields⟩ := Option.map_eq_some_iff.mp hfirst
  obtain ⟨t', ht', hfields'⟩ := Option.map_eq_some_iff.mp hsecond
  refine ⟨⟨t, congrArg Prod.fst hfields, congrArg Prod.snd hfields, ?_⟩,
    ⟨t', congrArg Prod.fst hfields', congrArg Prod.snd hfields', ?_⟩⟩
  · exact blockTemplate_accepted _ _ (sampleTemplateCalls.take 1) emptyRequest ht
  · exact blockTemplate_accepted _ _ sampleTemplateCalls sampleRequest ht'

end RandomLite.Monero
