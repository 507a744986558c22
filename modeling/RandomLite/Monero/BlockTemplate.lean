-- SUMMARY: How the production node makes block templates (`cryptonote_core/blockchain.cpp`), within the calls that change its chain.
import Mathlib.Data.List.Sort
import RandomLite.Library.SlidingWindow
import RandomLite.Monero.Blockchain
import RandomLite.Monero.MinerTxConstruction

/-!
# Block templates

`create_block_template` (on the main chain) with its cache, and
`update_next_cumulative_weight_limit`, which keeps the median weight and the weight
limit next to the chain. Every call that moves the main chain connects blocks, or pops
some and then updates the limit once; `add_new_block`, a switch and its rollback are
sequences of these, and the store of alternative blocks plays no part.
-/

namespace RandomLite.Monero

/-! ## Constants -/

/-- `CRYPTONOTE_REWARD_BLOCKS_WINDOW`. -/
def rewardBlocksWindow : Nat := 100

/-- `CRYPTONOTE_LONG_TERM_BLOCK_WEIGHT_WINDOW_SIZE`. -/
@[irreducible] def longTermBlockWeightWindowSize : Nat := 100000

/-- `CRYPTONOTE_BLOCK_GRANTED_FULL_REWARD_ZONE_V5`. -/
def fullRewardZoneV5 : Nat := 300000

/-- `CRYPTONOTE_SHORT_TERM_BLOCK_WEIGHT_SURGE_FACTOR`. -/
def shortTermSurgeFactor : Nat := 50

/-- `BLOCKCHAIN_TIMESTAMP_CHECK_WINDOW`. -/
def timestampCheckWindow : Nat := 60

/-- `CRYPTONOTE_BLOCK_FUTURE_TIME_LIMIT`, in seconds. -/
def blockFutureTimeLimit : UInt64 := 60 * 60 * 2

/-! ## Medians -/

/-- `get_mid`. -/
def getMid (a b : Nat) : Nat := a / 2 + b / 2 + ((a - 2 * (a / 2)) + (b - 2 * (b / 2))) / 2

/-- `epee::misc_utils::median`. -/
def median (v : List Nat) : Nat :=
  let sorted := v.insertionSort (· ≤ ·)
  let n := v.length / 2
  if v.length = 0 then 0
  else if v.length % 2 = 1 then sorted.getD n 0
  else getMid (sorted.getD (n - 1) 0) (sorted.getD n 0)

/-! ## Templates -/

/-- A block that is handed to a miner, with its miner transaction in full. -/
structure BlockTemplate where
  block : Block
  minerTx : CoinbaseTx
  difficulty : Nat
  height : Nat
  expectedReward : UInt64
  cumulativeWeight : Nat
  seedHeight : Nat
  seedHash : Hash
  deriving DecidableEq, Repr

/-- The template that is kept, with what it was made for. -/
structure CachedTemplate extends BlockTemplate where
  address : AccountPublicAddress
  nonce : List UInt8
  poolCookie : UInt64
  deriving DecidableEq, Repr

/-- The answer of `fill_block_template`: the transactions it selected, with their weight
    and their fees. -/
structure FilledTemplate (C : Content) (P : TxPrimitives) where
  txHashes : List Hash
  totalWeight : Nat
  fee : UInt64
  expectedReward : UInt64
  totalWeight_eq : totalWeight = (txHashes.map P.weightOfTx).sum
  fee_eq : fee = (txHashes.map C.getTxFee).foldl (· + ·) 0

/-- The pool as a call meets it. -/
structure TxMemoryPool (C : Content) (P : TxPrimitives) where
  cookie : UInt64
  /-- `fill_block_template`, from the median weight, the coins generated and the version. -/
  fillBlockTemplate : Nat → UInt64 → UInt8 → Option (FilledTemplate C P)

/-- What a call of `create_block_template` brings along and meets. -/
structure TemplateRequest (C : Content) (P : TxPrimitives) where
  minerAddress : AccountPublicAddress
  exNonce : List UInt8
  /-- `time(NULL)`. -/
  now : UInt64
  pool : TxMemoryPool C P
  difficultyForNextBlock : BlockchainDB → Nat
  /-- The key pairs that `keypair::generate` gives, one after another. -/
  keypairs : Nat → Keypair

/-! ## The node -/

/-- The chain with the weights of its blocks, and what is kept next to it. -/
structure TemplateNode where
  db : BlockchainDB := {}
  blockWeights : List Nat := []
  longTermBlockWeights : List Nat := []
  currentBlockCumulWeightMedian : Nat := 0
  currentBlockCumulWeightLimit : Nat := 0
  longTermEffectiveMedianBlockWeight : Nat := 0
  /-- `m_btc` and its companions, while `m_btc_valid`. -/
  btc : Option CachedTemplate := none

namespace TemplateNode

/-- `get_current_version`. -/
def currentVersion (n : TemplateNode) : UInt8 := versionAt n.db.height

/-- `get_block_hash_from_height`. -/
def blockHashAt (C : Content) (n : TemplateNode) (height : Nat) : Hash :=
  match n.db.blocks[height]? with
  | some e => C.getBlockHash e.block
  | none => nullHash

/-- `invalidate_block_template_cache`. -/
def invalidateBlockTemplateCache (n : TemplateNode) : TemplateNode := { n with btc := none }

/-! ## Weights -/

/-- `get_last_n_blocks_weights`. -/
def getLastNBlocksWeights (n : TemplateNode) (count : Nat) : List Nat :=
  (n.blockWeights.drop (n.db.height - min n.db.height count)).take count

/-- `get_long_term_block_weight_median`, less the cache of its window. -/
def getLongTermBlockWeightMedian (startHeight count : Nat) (n : TemplateNode) : Nat :=
  median ((n.longTermBlockWeights.drop startHeight).take count)

/-- The effective median of the last long-term weights. -/
def longTermEffectiveMedian (n : TemplateNode) : Nat :=
  let nblocks := min longTermBlockWeightWindowSize n.db.height
  max fullRewardZoneV5 (n.getLongTermBlockWeightMedian (n.db.height - nblocks) nblocks)

/-- `get_next_long_term_block_weight`. -/
def getNextLongTermBlockWeight (blockWeight : Nat) (n : TemplateNode) : Nat :=
  if n.currentVersion < 10 then blockWeight
  else
    let effectiveMedian := n.longTermEffectiveMedian
    if n.currentVersion ≥ 15 then
      min (max blockWeight (effectiveMedian * 10 / 17)) (effectiveMedian + effectiveMedian * 7 / 10)
    else min blockWeight (effectiveMedian + effectiveMedian * 2 / 5)

/-- The median weight of the next block, before it is raised to the full reward zone. -/
def effectiveMedianBlockWeight (n : TemplateNode) : Nat :=
  let shortTermMedian := median (n.getLastNBlocksWeights rewardBlocksWindow)
  if n.currentVersion < 10 then shortTermMedian
  else
    let longTerm := n.longTermEffectiveMedian
    if n.currentVersion ≥ 15 then
      min (max longTerm shortTermMedian) (shortTermSurgeFactor * longTerm)
    else min (max fullRewardZoneV5 shortTermMedian) (shortTermSurgeFactor * longTerm)

/-- `m_current_block_cumul_weight_median` as it is computed from the chain. -/
def nextBlockCumulWeightMedian (n : TemplateNode) : Nat :=
  let fullRewardZone := (getMinBlockWeight n.currentVersion).toNat
  if n.effectiveMedianBlockWeight ≤ fullRewardZone then fullRewardZone
  else n.effectiveMedianBlockWeight

/-- `update_next_cumulative_weight_limit`. -/
def updateNextCumulativeWeightLimit (n : TemplateNode) : TemplateNode :=
  { n with
    longTermEffectiveMedianBlockWeight :=
      if n.currentVersion < 10 then n.longTermEffectiveMedianBlockWeight
      else n.longTermEffectiveMedian
    currentBlockCumulWeightMedian := n.nextBlockCumulWeightMedian
    currentBlockCumulWeightLimit := n.nextBlockCumulWeightMedian * 2 }

/-! ## Moving the chain -/

/-- The median weight that `validate_miner_transaction` uses. -/
def rewardMedian (n : TemplateNode) (version : UInt8) : Nat :=
  if version ≥ 12 then n.currentBlockCumulWeightMedian
  else median (n.getLastNBlocksWeights rewardBlocksWindow)

/-- `handle_block_to_main_chain` for a block of this cumulative weight. -/
def handleBlockToMainChain (C : Content) (E : Env) (b : Block) (blockWeight : Nat)
    (n : TemplateNode) : Bool × TemplateNode :=
  let E := { E with
    medianWeight := fun _ => UInt64.ofNat (n.rewardMedian n.currentVersion)
    cumulativeBlockWeight := fun _ _ => UInt64.ofNat blockWeight }
  match Monero.handleBlockToMainChain C E b n.db with
  | (false, _) => (false, n)
  | (true, db) =>
    let longTermBlockWeight := n.getNextLongTermBlockWeight blockWeight
    let n := { n with
      db := db
      blockWeights := n.blockWeights ++ [blockWeight]
      longTermBlockWeights := n.longTermBlockWeights ++ [longTermBlockWeight] }
    (true, n.updateNextCumulativeWeightLimit.invalidateBlockTemplateCache)

/-- `pop_block_from_blockchain`; it throws at the genesis block. -/
def popBlockFromBlockchain (n : TemplateNode) : Option TemplateNode :=
  match Monero.popBlockFromBlockchain n.db with
  | none => none
  | some (_, db) =>
    some (invalidateBlockTemplateCache { n with
      db := db
      blockWeights := n.blockWeights.dropLast
      longTermBlockWeights := n.longTermBlockWeights.dropLast })

/-- The loop of `pop_blocks`. -/
def popLoop : Nat → TemplateNode → Option TemplateNode
  | 0, n => some n
  | k + 1, n =>
    match n.popBlockFromBlockchain with
    | none => none
    | some n => popLoop k n

/-- `pop_blocks`; the loops of a switch and of its rollback go on in the same way. -/
def popBlocks (nblocks : Nat) (n : TemplateNode) : TemplateNode :=
  let nblocks := if n.db.height > 0 then min nblocks (n.db.height - 1) else nblocks
  match popLoop nblocks n with
  | none => n
  | some n => n.updateNextCumulativeWeightLimit

end TemplateNode

/-! ## Finding the weight -/

/-- Where one round of the loop of `create_block_template` leads. -/
inductive MinerTxTry where
  | failed
  | again (cumulativeWeight : Nat)
  | done (tx : CoinbaseTx)

/-- The last check of a round. -/
def checkMinerTxWeight (P : TxPrimitives) (txsWeight cumulativeWeight : Nat) (tx : CoinbaseTx) :
    MinerTxTry :=
  if cumulativeWeight = txsWeight + P.getTransactionWeight tx then .done tx else .failed

/-- A round after its miner transaction was built for `cumulativeWeight`. One that is too
    light is filled up with zero bytes. -/
def adjustMinerTx (P : TxPrimitives) (txsWeight cumulativeWeight : Nat) (tx : CoinbaseTx) :
    MinerTxTry :=
  let coinbaseWeight := P.getTransactionWeight tx
  if coinbaseWeight > cumulativeWeight - txsWeight then .again (txsWeight + coinbaseWeight)
  else if coinbaseWeight < cumulativeWeight - txsWeight then
    let delta := cumulativeWeight - txsWeight - coinbaseWeight
    let tx := { tx with extra := tx.extra ++ List.replicate delta 0 }
    -- the counter of the extra field may take a byte more, and a byte less again
    if cumulativeWeight ≠ txsWeight + P.getTransactionWeight tx then
      if cumulativeWeight + 1 ≠ txsWeight + P.getTransactionWeight tx then .failed
      else
        let tx := { tx with extra := tx.extra.dropLast }
        if cumulativeWeight ≠ txsWeight + P.getTransactionWeight tx then
          .again (cumulativeWeight + (delta - 1))
        else checkMinerTxWeight P txsWeight cumulativeWeight tx
    else checkMinerTxWeight P txsWeight cumulativeWeight tx
  else checkMinerTxWeight P txsWeight cumulativeWeight tx

/-- The rounds that are left; `construct` builds the transaction for a weight, and the
    number of the construction picks its key pair. -/
def minerTxLoop (P : TxPrimitives) (construct : Nat → Nat → CoinbaseTx → Option CoinbaseTx)
    (txsWeight : Nat) : Nat → Nat → Nat → CoinbaseTx → Option (CoinbaseTx × Nat)
  | 0, _, _, _ => none
  | tries + 1, count, cumulativeWeight, tx =>
    match construct count cumulativeWeight tx with
    | none => none
    | some tx =>
      match adjustMinerTx P txsWeight cumulativeWeight tx with
      | .failed => none
      | .again cumulativeWeight =>
        minerTxLoop P construct txsWeight tries (count + 1) cumulativeWeight tx
      | .done tx => some (tx, cumulativeWeight)

/-- The miner transaction of a template and the weight of the block: built once with the
    weight of the transactions, then for the weight it turns out to have. -/
def findMinerTx (P : TxPrimitives) (construct : Nat → Nat → CoinbaseTx → Option CoinbaseTx)
    (txsWeight : Nat) : Option (CoinbaseTx × Nat) :=
  match construct 0 txsWeight {} with
  | none => none
  | some tx => minerTxLoop P construct txsWeight 10 1 (txsWeight + P.getTransactionWeight tx) tx

/-! ## Making a template -/

/-- `rx_seedheight`. -/
def rxSeedheight (height : Nat) : Nat :=
  if height ≤ 2048 + 64 then 0 else (height - 64 - 1) / 2048 * 2048

/-- The version of the last fork of the table. -/
def idealVersion : UInt8 := (xrlHardFork.heights.getLast?.map (·.version)).getD 0

namespace TemplateNode

variable {C : Content} {P : TxPrimitives}

/-- `check_block_timestamp_main_chain`, with the median of the last timestamps. -/
def checkBlockTimestampMainChain (now timestamp : UInt64) (n : TemplateNode) : Bool × UInt64 :=
  let timestamps := (n.db.blocks.rtake timestampCheckWindow).map (·.block.timestamp.toNat)
  if timestamp > now + blockFutureTimeLimit then (false, 0)
  else if timestamps.length < timestampCheckWindow then (true, 0)
  else
    let medianTimestamp := UInt64.ofNat (median timestamps)
    (decide (timestamp ≥ medianTimestamp), medianTimestamp)

/-- The template that is kept, when it still serves: with its timestamp brought up. -/
def reuseTemplate (C : Content) (r : TemplateRequest C P) (n : TemplateNode) :
    Option CachedTemplate :=
  match n.btc with
  | none => none
  | some c =>
    if r.minerAddress = c.address ∧ c.nonce = r.exNonce ∧ c.poolCookie = r.pool.cookie ∧
        c.block.prevId = n.db.topBlockHash C then
      if c.block.timestamp < r.now then
        some { c with block := { c.block with timestamp := r.now } }
      else some c
    else none

/-- The header of a new template. -/
def templateHeader (C : Content) (r : TemplateRequest C P) (n : TemplateNode) : Block :=
  let check := n.checkBlockTimestampMainChain r.now r.now
  { majorVersion := n.currentVersion
    minorVersion := idealVersion
    prevId := n.db.topBlockHash C
    timestamp := if check.1 then r.now else check.2 }

/-- `median_weight` of `create_block_template`. -/
def templateMedianWeight (n : TemplateNode) : Nat := n.currentBlockCumulWeightLimit / 2

/-- The miner transaction for a weight of the block; `count` transactions were built before. -/
def buildMinerTx (r : TemplateRequest C P) (alreadyGeneratedCoins fee : UInt64) (n : TemplateNode)
    (count cumulativeWeight : Nat) (tx : CoinbaseTx) : Option CoinbaseTx :=
  let maxOuts := if n.currentVersion ≥ 4 then 1 else 11
  constructMinerTx P n.db.height n.templateMedianWeight alreadyGeneratedCoins cumulativeWeight fee
    r.minerAddress tx r.exNonce maxOuts n.currentVersion (r.keypairs count)

/-- The template with the transactions selected and the miner transaction found. -/
def assembleTemplate (r : TemplateRequest C P) (n : TemplateNode) (filled : FilledTemplate C P)
    (minerTx : CoinbaseTx) (cumulativeWeight : Nat) : CachedTemplate :=
  let height := n.db.height
  { block := { n.templateHeader C r with
      minerTx := minerTx.toMinerTx
      txHashes := filled.txHashes }
    minerTx := minerTx
    difficulty := r.difficultyForNextBlock n.db
    height := height
    expectedReward := filled.expectedReward
    cumulativeWeight := cumulativeWeight
    seedHeight := if n.currentVersion ≥ 12 then rxSeedheight height else 0
    seedHash := if n.currentVersion ≥ 12 then n.blockHashAt C (rxSeedheight height) else nullHash
    address := r.minerAddress
    nonce := r.exNonce
    poolCookie := r.pool.cookie }

/-- A new template on top of the chain. -/
def makeTemplate (r : TemplateRequest C P) (n : TemplateNode) : Option CachedTemplate :=
  match n.db.blocks.getLast? with
  | none => none -- there is no block to take the coins generated from
  | some top =>
    let coins := top.alreadyGeneratedCoins
    if r.difficultyForNextBlock n.db = 0 then none
    else
      match r.pool.fillBlockTemplate n.templateMedianWeight coins n.currentVersion with
      | none => none
      | some filled =>
        match findMinerTx P (n.buildMinerTx r coins filled.fee) filled.totalWeight with
        | none => none
        | some (minerTx, cumulativeWeight) =>
          some (n.assembleTemplate r filled minerTx cumulativeWeight)

/-- `create_block_template`, on top of the main chain. -/
def createBlockTemplate (C : Content) (r : TemplateRequest C P) (n : TemplateNode) :
    Option BlockTemplate × TemplateNode :=
  match n.reuseTemplate C r with
  | some c => (some c.toBlockTemplate, { n with btc := some c })
  | none =>
    let n := n.invalidateBlockTemplateCache
    match n.makeTemplate r with
    | some c => (some c.toBlockTemplate, { n with btc := some c })
    | none => (none, n)

end TemplateNode

/-! ## Runs -/

/-- A call on the node. -/
inductive TemplateCall (C : Content) (P : TxPrimitives) where
  | handleBlockToMainChain (b : Block) (blockWeight : Nat) (E : Env)
  | popBlocks (nblocks : Nat)
  | createBlockTemplate (r : TemplateRequest C P)

/-- The node under calls one after another, from an empty database. -/
def templateMachine (C : Content) (P : TxPrimitives) :
    Machine TemplateNode (TemplateCall C P) (Option BlockTemplate) where
  step n
    | .handleBlockToMainChain b blockWeight E =>
      (none, (n.handleBlockToMainChain C E b blockWeight).2)
    | .popBlocks nblocks => (none, n.popBlocks nblocks)
    | .createBlockTemplate r => n.createBlockTemplate C r

end RandomLite.Monero
