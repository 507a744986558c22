-- SUMMARY: The memory pool of the production node (`cryptonote_core/tx_pool.cpp`): its tables and calls.
import RandomLite.Library.Binary64Binades
import RandomLite.Library.InvertedIndex
import RandomLite.Monero.BlockReward
import RandomLite.Monero.MinerTransaction

/-!
# Memory pool

Transactions wait in the pool for a block. Beside the table of the database the pool keeps
an index of the key images they spend, a list sorted by fee, a sum of their weights, and two
caches. What the chain answers and the clock are taken from outside, call by call. The lists
of added and removed transactions that wallets poll are left out, but for the one that the
sorted list depends on.
-/

namespace RandomLite.Monero

/-! ## Relay methods -/

/-- `relay_method`, from the lowest to the highest; `locally` is `local`. -/
inductive RelayMethod where
  | none
  | locally
  | forward
  | stem
  | fluff
  | block
  deriving DecidableEq, Repr

def RelayMethod.rank : RelayMethod → Nat
  | .none => 0
  | .locally => 1
  | .forward => 2
  | .stem => 3
  | .fluff => 4
  | .block => 5

/-- `relay_category` -/
inductive RelayCategory where
  | broadcasted
  | relayable
  | legacy
  | all
  deriving DecidableEq, Repr

/-- The last part of `matches_category`. -/
def RelayMethod.isPublic (method : RelayMethod) (whenNone : Bool) : Bool :=
  match method with
  | .locally => false
  | .forward => false
  | .stem => false
  | .block => true
  | .fluff => true
  | .none => whenNone

def matchesCategory (method : RelayMethod) : RelayCategory → Bool
  | .all => true
  | .relayable => decide (method ≠ .none)
  | .broadcasted => method.isPublic false
  | .legacy => method.isPublic true

/-- `txpool_tx_meta_t` -/
structure TxpoolTxMeta where
  maxUsedBlockId : Hash := nullHash
  lastFailedId : Hash := nullHash
  weight : UInt64 := 0
  fee : UInt64 := 0
  maxUsedBlockHeight : Nat := 0
  lastFailedHeight : Nat := 0
  receiveTime : UInt64 := 0
  lastRelayedTime : UInt64 := 0
  keptByBlock : Bool := false
  relayed : Bool := false
  doNotRelay : Bool := false
  doubleSpendSeen : Bool := false
  pruned : Bool := false
  isLocal : Bool := false
  dandelionppStem : Bool := false
  isForwarding : Bool := false
  validInputVerificationId : Hash := nullHash
  deriving DecidableEq, Repr

namespace TxpoolTxMeta

def setRelayMethod (details : TxpoolTxMeta) (method : RelayMethod) : TxpoolTxMeta :=
  { details with
    keptByBlock := decide (method = .block)
    doNotRelay := decide (method = .none)
    isLocal := decide (method = .locally)
    isForwarding := decide (method = .forward)
    dandelionppStem := decide (method = .stem) }

def getRelayMethod (details : TxpoolTxMeta) : RelayMethod :=
  match details.keptByBlock.toNat + (details.doNotRelay.toNat <<< 1) + (details.isLocal.toNat <<< 2) +
      (details.isForwarding.toNat <<< 3) + (details.dandelionppStem.toNat <<< 4) with
  | 1 => .block
  | 2 => .none
  | 4 => .locally
  | 8 => .forward
  | 16 => .stem
  | _ => .fluff

/-- `upgrade_relay_method`, with its answer. -/
def upgradeRelayMethod (details : TxpoolTxMeta) (method : RelayMethod) : Bool × TxpoolTxMeta :=
  if details.getRelayMethod.rank < method.rank then (true, details.setRelayMethod method)
  else (false, details)

def isMatch (details : TxpoolTxMeta) (category : RelayCategory) : Bool :=
  matchesCategory details.getRelayMethod category

end TxpoolTxMeta

/-! ## Transactions -/

/-- The inputs that the pool tells apart. -/
inductive PoolInput (I : Type) where
  | toKey (kImage : I)
  | other
  deriving DecidableEq, Repr

/-- What the pool reads of a transaction; `fee` is `get_tx_fee`. The defaults are those of a
transaction that was not filled in. -/
structure PoolTransaction (I : Type) where
  vin : List (PoolInput I) := []
  extraSize : Nat := 0
  unlockTime : Nat := 0
  fee : UInt64 := 0
  pruned : Bool := false
  deriving DecidableEq, Repr

namespace PoolInput

variable {I : Type}

def kImage? : PoolInput I → Option I
  | .toKey kImage => some kImage
  | .other => none

/-- The key images that inputs spend. -/
def keyImages (vin : List (PoolInput I)) : List I := vin.filterMap kImage?

def checkInputsTypesSupported (vin : List (PoolInput I)) : Bool :=
  vin.all fun input => input.kImage?.isSome

/-- The checks of `check_tx_semantic` that the pool relies on; the others are taken from
outside. -/
def checkTxSemantic [DecidableEq I] (vin : List (PoolInput I)) : Bool :=
  !vin.isEmpty && checkInputsTypesSupported vin && decide (keyImages vin).Nodup

end PoolInput

/-- What the blockchain answers when it checks the inputs of a transaction. -/
structure InputCheck where
  ok : Bool
  maxUsedBlockHeight : Nat
  maxUsedBlockId : Hash
  validInputVerificationId : Hash
  deriving DecidableEq, Repr

/-- What a call takes from outside the pool. -/
structure PoolEnv (K I : Type) where
  now : UInt64
  /-- Seconds of a random delay (`random_poisson_seconds`). -/
  delay : UInt64
  checkFee : UInt64 → UInt64 → Bool
  /-- `ver_non_input_consensus`, less `PoolInput.checkTxSemantic`. -/
  verNonInputConsensus : K → PoolTransaction I → UInt8 → Bool
  checkTxInputs : K → PoolTransaction I → Hash → Bool → InputCheck

/-- A transaction in the table of the database. -/
structure PoolEntry (I : Type) where
  details : TxpoolTxMeta
  tx : PoolTransaction I
  deriving DecidableEq, Repr

/-- An element of `sorted_tx_container`. -/
structure SortedTx (K R : Type) where
  feePerWeight : R
  receiveTime : UInt64
  id : K
  deriving DecidableEq, Repr

/-- `tx_verification_context` -/
structure TxVerificationContext where
  relay : RelayMethod := .none
  verifivationFailed : Bool := false
  noDropOffense : Bool := false
  verifivationImpossible : Bool := false
  addedToPool : Bool := false
  doubleSpend : Bool := false
  invalidInput : Bool := false
  feeTooLow : Bool := false
  txExtraTooBig : Bool := false
  nonzeroUnlockTime : Bool := false
  deriving DecidableEq, Repr

/-! ## Blocks to fill -/

/-- `CRYPTONOTE_COINBASE_BLOB_RESERVED_SIZE` -/
def coinbaseBlobReservedSize : UInt64 := 600

/-- What `fill_block_template` is called with, and what it takes from outside. -/
structure FillRequest (K I : Type) where
  medianWeight : UInt64
  alreadyGeneratedCoins : UInt64
  version : UInt8
  mineStemTxes : Bool
  topBlockHeight : Nat
  topBlockHash : Hash
  env : PoolEnv K I

/-- The nearest number of 24 significant bits, ties to even, as a `float` has it. -/
def toFloat (n : Nat) : Nat :=
  let ulp := 2 ^ (n.log2 + 1 - 24)
  DoubleArith.nearestEven n ulp * ulp

/-- `template_accept_threshold`: an amount times a `float` of one. One that the `float` rounds to
`2 ^ 64` is outside the range of the conversion back. -/
def templateAcceptThreshold (amount : UInt64) : UInt64 := UInt64.ofNat (toFloat amount.toNat)

def FillRequest.maxTotalWeight {K I : Type} (r : FillRequest K I) : UInt64 :=
  if r.version ≥ 5 then 2 * r.medianWeight - coinbaseBlobReservedSize
  else 130 * r.medianWeight / 100 - coinbaseBlobReservedSize

/-- What the loop of `fill_block_template` has so far. -/
structure FilledBlock (K I : Type) where
  txHashes : List K := []
  totalWeight : UInt64 := 0
  fee : UInt64 := 0
  bestCoinbase : UInt64
  kImages : List I := []
  deriving DecidableEq, Repr

section

variable {K I : Type} [DecidableEq I]

def haveKeyImages (kImages : List I) : List (PoolInput I) → Bool
  | [] => false
  | .other :: _ => false
  | .toKey kImage :: vin => if kImage ∈ kImages then true else haveKeyImages kImages vin

/-- `append_key_images`, which ends at an image that is there. -/
def appendKeyImages (kImages : List I) : List (PoolInput I) → List I
  | [] => kImages
  | .other :: _ => kImages
  | .toKey kImage :: vin =>
    if kImage ∈ kImages then kImages else appendKeyImages (kImage :: kImages) vin

namespace FilledBlock

/-- The coinbase with one more transaction, unless that is too heavy. -/
def coinbaseWith (r : FillRequest K I) (details : TxpoolTxMeta) (f : FilledBlock K I) :
    Option UInt64 :=
  (getBlockReward r.medianWeight (f.totalWeight + details.weight) r.alreadyGeneratedCoins
    r.version).map fun blockReward => blockReward + f.fee + details.fee

/-- Whether the loop goes on to the next transaction at once. The coinbase counts from version
five on. -/
def passesOver (r : FillRequest K I) (details : TxpoolTxMeta) (f : FilledBlock K I) : Bool :=
  (!details.isMatch .legacy && !(r.mineStemTxes && decide (details.getRelayMethod = .stem))) ||
    details.pruned ||
    decide (r.maxTotalWeight < f.totalWeight + details.weight) ||
    (decide (r.version ≥ 5) && (f.coinbaseWith r details).all fun coinbase =>
      decide (coinbase < templateAcceptThreshold f.bestCoinbase))

/-- Whether the loop ends, before version five. -/
def isFull (r : FillRequest K I) (f : FilledBlock K I) : Bool :=
  decide (r.version < 5) && decide (f.totalWeight > r.medianWeight)

/-- One more transaction. Before version five `coinbase` keeps its zero. -/
def push (r : FillRequest K I) (id : K) (details : TxpoolTxMeta) (tx : PoolTransaction I)
    (f : FilledBlock K I) : FilledBlock K I where
  txHashes := f.txHashes ++ [id]
  totalWeight := f.totalWeight + details.weight
  fee := f.fee + details.fee
  bestCoinbase := if r.version ≥ 5 then (f.coinbaseWith r details).getD 0 else 0
  kImages := appendKeyImages f.kImages tx.vin

end FilledBlock

end

/-! ## The pool -/

/-- `MAX_TX_EXTRA_SIZE` -/
def maxTxExtraSize : Nat := 1060

/-- `CRYPTONOTE_MEMPOOL_TX_LIVETIME`, in seconds. -/
def mempoolTxLivetime : UInt64 := 86400 * 3

/-- `CRYPTONOTE_MEMPOOL_TX_FROM_ALT_BLOCK_LIVETIME`, in seconds. -/
def mempoolTxFromAltBlockLivetime : UInt64 := 604800

/-- `DEFAULT_TXPOOL_MAX_WEIGHT` -/
def defaultTxpoolMaxWeight : Nat := 648000000

/-- `tx_memory_pool`, with its table of the database. -/
structure MemoryPool (K I R : Type) [Ord K] [Ord I] where
  /-- `txpool_meta` and `txpool_blob` -/
  txs : Std.TreeMap K (PoolEntry I) := {}
  spentKeyImages : Std.TreeMap I (List K) := {}
  txsByFeeAndReceiveTime : List (SortedTx K R) := []
  addedTxsById : Std.TreeMap K (UInt64 × Bool) := {}
  timedOutTransactions : List K := []
  inputCache : Std.TreeMap K InputCheck := {}
  parsedTxCache : Std.TreeMap K (PoolTransaction I) := {}
  txpoolWeight : Nat := 0
  txpoolMaxWeight : Nat := defaultTxpoolMaxWeight
  nextCheck : Int64 := 0
  cookie : Nat := 0

namespace MemoryPool

variable {K I R : Type} [Ord K] [Ord I] [DecidableEq K] [DecidableEq I]
  -- The quotient of a fee and a weight, as a `double`.
  (feePerWeight : UInt64 → UInt64 → R)

/-- `BlockchainDB::txpool_tx_matches_category` -/
def txpoolTxMatchesCategory (s : MemoryPool K I R) (id : K) (category : RelayCategory) : Bool :=
  match s.txs[id]? with
  | some e => e.details.isMatch category
  | none => false

/-- `set_if_less` -/
def setIfLess (s : MemoryPool K I R) (candidate : Int64) : MemoryPool K I R :=
  if candidate < s.nextCheck then { s with nextCheck := candidate } else s

def reduceTxpoolWeight (weight : UInt64) (s : MemoryPool K I R) : MemoryPool K I R :=
  if weight.toNat > s.txpoolWeight then { s with txpoolWeight := 0 }
  else { s with txpoolWeight := s.txpoolWeight - weight.toNat }

/-! ### The sorted list -/

/-- `txFeeCompare` -/
def txFeeCompare [LT R] [DecidableLT R] (a b : SortedTx K R) : Bool :=
  if b.feePerWeight < a.feePerWeight then true
  else if a.feePerWeight < b.feePerWeight then false
  else decide (a.receiveTime < b.receiveTime)

/-- A new element comes after those that compare equal. -/
def insertSorted [LT R] [DecidableLT R] (x : SortedTx K R) : List (SortedTx K R) →
    List (SortedTx K R)
  | [] => [x]
  | y :: l => if txFeeCompare x y then x :: y :: l else y :: insertSorted x l

/-- The sorted list, less a transaction that the wallets were told of before. -/
def sortedLess (txid : K) (s : MemoryPool K I R) : List (SortedTx K R) :=
  match s.addedTxsById[txid]? with
  | none => s.txsByFeeAndReceiveTime
  | some _ => s.txsByFeeAndReceiveTime.filter fun x => x.id ≠ txid

def addTxToTransientLists [LT R] [DecidableLT R] (now : UInt64) (txid : K) (fee : R)
    (receiveTime : UInt64) (sensitive : Bool) (s : MemoryPool K I R) : MemoryPool K I R :=
  { s with
    addedTxsById := s.addedTxsById.insert txid (now, sensitive)
    -- The list takes no transaction twice.
    txsByFeeAndReceiveTime :=
      if txid ∈ (s.sortedLess txid).map (·.id) then s.sortedLess txid
      else insertSorted { feePerWeight := fee, receiveTime, id := txid } (s.sortedLess txid) }

def removeTxFromTransientLists (txid : K) (s : MemoryPool K I R) : MemoryPool K I R :=
  { s with
    txsByFeeAndReceiveTime := s.txsByFeeAndReceiveTime.filter fun x => x.id ≠ txid
    addedTxsById := s.addedTxsById.erase txid }

/-- `update_txpool_tx`, which throws where there is no such transaction. -/
def updateTxpoolTx (id : K) (details : TxpoolTxMeta) (s : MemoryPool K I R) :
    Option (MemoryPool K I R) :=
  (s.txs[id]?).map fun e => { s with txs := s.txs.insert id { e with details } }

/-! ### Key images -/

/-- `insert_key_images`. A set is left empty by none of its returns. -/
def insertKeyImages (id : K) (txRelay : RelayMethod) :
    List (PoolInput I) → MemoryPool K I R → Bool × MemoryPool K I R
  | [], s => (true, { s with cookie := s.cookie + 1 })
  | .other :: _, s => (false, s)
  | .toKey kImage :: vin, s =>
    let keiImageSet := InvertedIndex.listed s.spentKeyImages kImage
    if txRelay ≠ .block ∧ ¬ (keiImageSet = [] ∨ keiImageSet = [id]) then (false, s)
    else
      let newOrPreviouslyPrivate :=
        decide (id ∉ keiImageSet) || !s.txpoolTxMatchesCategory id .legacy
      let s := { s with spentKeyImages := InvertedIndex.add s.spentKeyImages kImage id }
      if newOrPreviouslyPrivate then insertKeyImages id txRelay vin s else (false, s)

def removeTransactionKeyimages (actualHash : K) :
    List (PoolInput I) → MemoryPool K I R → Bool × MemoryPool K I R
  | [], s => (true, { s with cookie := s.cookie + 1 })
  | .other :: _, s => (false, s)
  | .toKey kImage :: vin, s =>
    if actualHash ∉ InvertedIndex.listed s.spentKeyImages kImage then (false, s)
    else
      removeTransactionKeyimages actualHash vin
        { s with spentKeyImages := InvertedIndex.remove s.spentKeyImages kImage actualHash }

def haveTxKeyimgAsSpent (s : MemoryPool K I R) (keyIm : I) (txid : K) : Bool :=
  match InvertedIndex.listed s.spentKeyImages keyIm with
  | [] => false
  | [id] => if id ≠ txid then true else s.txpoolTxMatchesCategory txid .legacy
  | _ :: _ :: _ => true

def haveTxKeyimgesAsSpent (s : MemoryPool K I R) (tx : PoolTransaction I) (txid : K) : Bool :=
  (PoolInput.keyImages tx.vin).any fun kImage => s.haveTxKeyimgAsSpent kImage txid

/-- One step of `mark_double_spend`. -/
def markDoubleSpendTx (s : MemoryPool K I R) (txid : K) : MemoryPool K I R :=
  match s.txs[txid]? with
  | none => s
  | some e =>
    if e.details.doubleSpendSeen then s
    else
      { s with
        txs := s.txs.insert txid { e with details := { e.details with doubleSpendSeen := true } } }

/-- `mark_double_spend`. On an input of another kind it returns, and nothing is committed. -/
def markDoubleSpend (tx : PoolTransaction I) (s : MemoryPool K I R) : MemoryPool K I R :=
  if !PoolInput.checkInputsTypesSupported tx.vin then s
  else
    let txids := (PoolInput.keyImages tx.vin).flatMap (InvertedIndex.listed s.spentKeyImages)
    let changed := txids.any fun txid =>
      (s.txs[txid]?).any fun e => !e.details.doubleSpendSeen
    let marked := txids.foldl markDoubleSpendTx s
    if changed then { marked with cookie := marked.cookie + 1 } else marked

/-! ### Checks -/

/-- `check_tx_inputs`, with its cache. -/
def checkTxInputs (env : PoolEnv K I) (tx : PoolTransaction I) (txid : K)
    (validInputVerificationId : Hash) (keptByBlock : Bool) (s : MemoryPool K I R) :
    InputCheck × MemoryPool K I R :=
  if keptByBlock then (env.checkTxInputs txid tx validInputVerificationId keptByBlock, s)
  else
    match s.inputCache[txid]? with
    | some known => ({ known with validInputVerificationId }, s)
    | none =>
      let answer := env.checkTxInputs txid tx validInputVerificationId keptByBlock
      (answer, { s with inputCache := s.inputCache.insert txid answer })

/-- `ver_non_input_consensus` -/
def verNonInputConsensus (env : PoolEnv K I) (tx : PoolTransaction I) (txid : K)
    (version : UInt8) : Bool :=
  PoolInput.checkTxSemantic tx.vin && env.verNonInputConsensus txid tx version

/-! ### Adding and removing -/

/-- The fee of a transaction for each unit of its weight, as `add_tx` sorts by it. -/
def addedFeePerWeight (fee weight : UInt64) : R :=
  feePerWeight fee (if weight = 0 then 1 else weight)

/-- The steps of every removal: the table first, in case it throws, so that the key images stay. -/
def removeEntry (id : K) (weight : UInt64) (vin : List (PoolInput I)) (s : MemoryPool K I R) :
    MemoryPool K I R :=
  let s := { s with txs := s.txs.erase id }
  let s := s.reduceTxpoolWeight weight
  (removeTransactionKeyimages id vin s).2

/-- The loop of `prune` over the sorted list from its end, less the first element; with
whether it changed anything. -/
def pruneLoop (bytes : Nat) :
    List (SortedTx K R) → MemoryPool K I R → Bool × MemoryPool K I R
  | [], s => (false, s)
  | [_], s => (false, s)
  | x :: y :: rest, s =>
    if s.txpoolWeight ≤ bytes then (false, s)
    else
      match s.txs[x.id]? with
      | none => pruneLoop bytes (y :: rest) s
      | some e =>
        -- Transactions of a block are likely there because the block is being added.
        if e.details.keptByBlock then pruneLoop bytes (y :: rest) s
        else
          let s := s.removeEntry x.id e.details.weight e.tx.vin
          let s := s.removeTxFromTransientLists x.id
          (true, (pruneLoop bytes (y :: rest) s).2)

def prune (bytes : Nat) (s : MemoryPool K I R) : MemoryPool K I R :=
  if s.txsByFeeAndReceiveTime.isEmpty then s
  else
    let bytes := if bytes = 0 then s.txpoolMaxWeight else bytes
    let (changed, s) := pruneLoop bytes s.txsByFeeAndReceiveTime.reverse s
    if changed then { s with cookie := s.cookie + 1 } else s

/-- What `add_tx` is called with. -/
structure AddedTx (K I : Type) where
  tx : PoolTransaction I
  id : K
  txWeight : UInt64
  txRelay : RelayMethod
  relayed : Bool
  version : UInt8
  nicVerifiedHfVersion : UInt8 := 0
  validInputVerificationId : Hash := nullHash

/-- The checks of `add_tx` before the inputs: why the transaction is refused, if it is. -/
def refuseTx (env : PoolEnv K I) (a : AddedTx K I) (s : MemoryPool K I R) :
    Option (TxVerificationContext × MemoryPool K I R) :=
  let keptByBlock := decide (a.txRelay = .block)
  if !keptByBlock && decide (a.id ∈ s.timedOutTransactions) then
    some ({ verifivationFailed := true }, s)
  else if !(keptByBlock || env.checkFee a.txWeight a.tx.fee) then
    some ({ verifivationFailed := true, feeTooLow := true, noDropOffense := true }, s)
  else if !keptByBlock && decide (a.tx.extraSize > maxTxExtraSize) then
    some ({ verifivationFailed := true, txExtraTooBig := true, noDropOffense := true }, s)
  else if !keptByBlock && decide (a.tx.unlockTime ≠ 0) then
    some ({ verifivationFailed := true, nonzeroUnlockTime := true, noDropOffense := true }, s)
  -- A transaction that comes from a popped block may spend what others spend.
  else if !keptByBlock && s.haveTxKeyimgesAsSpent a.tx a.id then
    some ({ verifivationFailed := true, doubleSpend := true, noDropOffense := true },
      s.markDoubleSpend a.tx)
  else if decide (a.version ≠ a.nicVerifiedHfVersion) &&
      !verNonInputConsensus env a.tx a.id a.version then
    some ({ verifivationFailed := true }, s)
  else none

/-- `m_parsed_tx_cache.insert` of a transaction that is kept by a block. -/
def cacheParsed (a : AddedTx K I) (s : MemoryPool K I R) : MemoryPool K I R :=
  if a.txRelay = .block then
    { s with parsedTxCache := s.parsedTxCache.insertIfNew a.id a.tx }
  else s

/-- The end of `add_tx`: the weight of the pool, the cookie, and a pruning. -/
def finishAdd (a : AddedTx K I) (txRelay : RelayMethod) (details : TxpoolTxMeta)
    (tvc : TxVerificationContext) (s : MemoryPool K I R) :
    Bool × TxVerificationContext × MemoryPool K I R :=
  let tvc := { tvc with verifivationFailed := false }
  let s :=
    { s with
      txpoolWeight :=
        if tvc.addedToPool then s.txpoolWeight + a.txWeight.toNat else s.txpoolWeight }
  let tvc :=
    if details.fee > 0 ∧ txRelay ≠ .forward then { tvc with relay := txRelay } else tvc
  let s := { s with cookie := s.cookie + 1 }
  (true, tvc, s.prune s.txpoolMaxWeight)

/-- The table and the lists take a transaction. The table takes it also if it has it already;
`removeFirst` is whether that is removed before. -/
def putTx [LT R] [DecidableLT R] (now : UInt64) (a : AddedTx K I) (details : TxpoolTxMeta)
    (removeFirst : Bool) (s : MemoryPool K I R) : MemoryPool K I R :=
  let s := { s with txs := if removeFirst then s.txs.erase a.id else s.txs }
  let s := { s with txs := s.txs.insert a.id { details, tx := a.tx } }
  s.addTxToTransientLists now a.id (addedFeePerWeight feePerWeight details.fee a.txWeight) now
    (!details.isMatch .broadcasted)

/-- The key images, the table and the lists take a transaction, and `add_tx` ends. -/
def storeTx [LT R] [DecidableLT R] (env : PoolEnv K I) (a : AddedTx K I) (txRelay : RelayMethod)
    (details : TxpoolTxMeta) (removeFirst : Bool) (tvc : TxVerificationContext)
    (s : MemoryPool K I R) : Bool × TxVerificationContext × MemoryPool K I R :=
  match insertKeyImages a.id txRelay a.tx.vin s with
  | (false, s) => (false, { verifivationFailed := true }, s)
  | (true, s) =>
    (s.putTx feePerWeight env.now a details removeFirst).finishAdd a txRelay details tvc

/-- `add_tx` from where the inputs of a transaction of a block were found wrong: it was valid
before, and may become valid again. -/
def addUnverified [LT R] [DecidableLT R] (env : PoolEnv K I) (a : AddedTx K I)
    (s : MemoryPool K I R) : Bool × TxVerificationContext × MemoryPool K I R :=
  let details : TxpoolTxMeta :=
    { ({} : TxpoolTxMeta).setRelayMethod a.txRelay with
      weight := a.txWeight
      fee := a.tx.fee
      receiveTime := env.now
      lastRelayedTime := env.now
      relayed := a.relayed
      doubleSpendSeen := s.haveTxKeyimgesAsSpent a.tx a.id
      pruned := a.tx.pruned
      validInputVerificationId :=
        (env.checkTxInputs a.id a.tx a.validInputVerificationId true).validInputVerificationId }
  (s.cacheParsed a).storeTx feePerWeight env a a.txRelay details false
    { verifivationImpossible := true, addedToPool := true }

/-- How `add_tx` takes a transaction on: one on the stem that comes back is a loop. -/
def takenRelay (a : AddedTx K I) (existing : Option TxpoolTxMeta) : RelayMethod :=
  if a.txRelay = .stem ∧ existing.any (·.dandelionppStem) then .fluff else a.txRelay

/-- `add_tx` from where the inputs were found right. -/
def addVerified [LT R] [DecidableLT R] (env : PoolEnv K I) (a : AddedTx K I)
    (check : InputCheck) (s : MemoryPool K I R) :
    Bool × TxVerificationContext × MemoryPool K I R :=
  let s := s.cacheParsed a
  let existing := (s.txs[a.id]?).map (·.details)
  let txRelay := takenRelay a existing
  let before := existing.getD
    (({ validInputVerificationId := check.validInputVerificationId } : TxpoolTxMeta).setRelayMethod
      .none)
  let upgrade := before.upgradeRelayMethod txRelay
  let tvc : TxVerificationContext := { addedToPool := existing.isNone }
  if upgrade.1 || existing.isNone then
    let delayed := decide (txRelay = .forward ∨ txRelay = .stem)
    let lastRelayedTime := if delayed then env.now + env.delay else UInt64.ofNat (2 ^ 64 - 1)
    let s := if delayed then s.setIfLess lastRelayedTime.toInt64 else s
    let details :=
      { upgrade.2 with
        lastRelayedTime
        receiveTime := env.now
        weight := a.txWeight
        fee := a.tx.fee
        maxUsedBlockId := check.maxUsedBlockId
        maxUsedBlockHeight := check.maxUsedBlockHeight
        lastFailedHeight := 0
        lastFailedId := nullHash
        relayed := a.relayed
        doubleSpendSeen := false
        pruned := a.tx.pruned }
    s.storeTx feePerWeight env a txRelay details true tvc
  else s.finishAdd a txRelay upgrade.2 tvc

/-- `add_tx`: its answer, and what it says of the transaction. -/
def addTx [LT R] [DecidableLT R] (env : PoolEnv K I) (a : AddedTx K I)
    (s : MemoryPool K I R) : Bool × TxVerificationContext × MemoryPool K I R :=
  match s.refuseTx env a with
  | some (tvc, s) => (false, tvc, s)
  | none =>
    let keptByBlock := decide (a.txRelay = .block)
    let checked := s.checkTxInputs env a.tx a.id a.validInputVerificationId keptByBlock
    if checked.1.ok then checked.2.addVerified feePerWeight env a checked.1
    else if keptByBlock then checked.2.addUnverified feePerWeight env a
    else (false, { verifivationFailed := true, invalidInput := true }, checked.2)

/-- `take_tx`: the transaction, with what the table has of it. -/
def takeTx (id : K) (s : MemoryPool K I R) :
    Option (PoolTransaction I × TxpoolTxMeta) × MemoryPool K I R :=
  match s.txs[id]? with
  | none => (none, s)
  | some e =>
    let tx := (s.parsedTxCache[id]?).getD e.tx
    let s := s.removeEntry id e.details.weight tx.vin
    let s := s.removeTxFromTransientLists id
    (some (tx, e.details), { s with cookie := s.cookie + 1 })

/-- The age at which `remove_stuck_transactions` gives a transaction up. -/
def isStuck (now : UInt64) (details : TxpoolTxMeta) : Bool :=
  let txAge := now - details.receiveTime
  (decide (txAge > mempoolTxLivetime) && !details.keptByBlock) ||
    (decide (txAge > mempoolTxFromAltBlockLivetime) && details.keptByBlock)

def timeOut (id : K) (s : MemoryPool K I R) : MemoryPool K I R :=
  { s.removeTxFromTransientLists id with
    timedOutTransactions := if id ∈ s.timedOutTransactions then s.timedOutTransactions
      else id :: s.timedOutTransactions }

/-- `remove_stuck_transactions`. The first loop is over the table, with one clock. -/
def removeStuckTransactions (now : UInt64) (s : MemoryPool K I R) : MemoryPool K I R :=
  let remove := s.txs.toList.filter fun row => isStuck now row.2.details
  let s := remove.foldl (fun s row => s.timeOut row.1) s
  if remove.isEmpty then s
  else
    let s := remove.foldl (fun s row => s.removeEntry row.1 row.2.details.weight row.2.tx.vin) s
    { s with cookie := s.cookie + 1 }

/-- `on_blockchain_inc` and `on_blockchain_dec` -/
def onBlockchainChange (s : MemoryPool K I R) : MemoryPool K I R :=
  { s with
    inputCache := {}
    parsedTxCache := {} }

/-! ### Relaying -/

/-- The entry of a transaction that was relayed. -/
def relayedDetails (method : RelayMethod) (now embargo : UInt64) (details : TxpoolTxMeta) :
    TxpoolTxMeta :=
  let upgraded := (details.upgradeRelayMethod method).2
  { upgraded with
    relayed := true
    lastRelayedTime := if upgraded.dandelionppStem then now + embargo else now }

/-- One step of `set_relayed`, for a transaction and the embargo drawn for it: whether it is
broadcast only now, and when the pool is to be looked at again. -/
def setRelayedTx [LT R] [DecidableLT R] (method : RelayMethod) (now : UInt64)
    (hash : K × UInt64) (nextRelay : UInt64) (s : MemoryPool K I R) :
    (Bool × UInt64) × MemoryPool K I R :=
  match s.txs[hash.1]? with
  | none => ((false, nextRelay), s)
  | some e =>
    let alreadyBroadcasted := e.details.isMatch .broadcasted
    let details := relayedDetails method now hash.2 e.details
    let nextRelay :=
      if details.dandelionppStem then min nextRelay details.lastRelayedTime else nextRelay
    match s.updateTxpoolTx hash.1 details with
    | none => ((false, nextRelay), s)
    | some s =>
      let wasJustBroadcasted := !alreadyBroadcasted && details.isMatch .broadcasted
      -- The list has the transaction from now on under the present time, and not the table.
      ((wasJustBroadcasted, nextRelay),
        if wasJustBroadcasted then
          s.addTxToTransientLists now hash.1 (feePerWeight details.fee details.weight) now false
        else s)

/-- The loop of `set_relayed`. -/
def setRelayedLoop [LT R] [DecidableLT R] (method : RelayMethod) (now : UInt64) :
    List (K × UInt64) → UInt64 → MemoryPool K I R → (List Bool × UInt64) × MemoryPool K I R
  | [], nextRelay, s => (([], nextRelay), s)
  | hash :: hashes, nextRelay, s =>
    let one := s.setRelayedTx feePerWeight method now hash nextRelay
    let rest := setRelayedLoop method now hashes one.1.2 one.2
    ((one.1.1 :: rest.1.1, rest.1.2), rest.2)

/-- `set_relayed`: which transactions are broadcast only now. -/
def setRelayed [LT R] [DecidableLT R] (method : RelayMethod) (now : UInt64)
    (hashes : List (K × UInt64)) (s : MemoryPool K I R) : List Bool × MemoryPool K I R :=
  let relayed := s.setRelayedLoop feePerWeight method now hashes (2 ^ 63 - 1)
  (relayed.1.1, relayed.2.setIfLess relayed.1.2.toInt64)

/-! ### Validating anew -/

/-- What `validate` adds again. A transaction that is gone by now is added as an empty one. -/
def validatedTx (version : UInt8) (txid : K) (details : TxpoolTxMeta)
    (taken : Option (PoolTransaction I × TxpoolTxMeta)) : AddedTx K I where
  tx := (taken.map (·.1)).getD {}
  id := txid
  txWeight := details.weight
  txRelay := details.getRelayMethod
  relayed := (taken.map (·.2.relayed)).getD false
  version := version
  validInputVerificationId := (taken.map (·.2.validInputVerificationId)).getD nullHash

/-- One step of `validate`: a transaction is taken out and added again, and its entry is then
what it was before. -/
def validateTx [LT R] [DecidableLT R] (env : PoolEnv K I) (version : UInt8) (txid : K)
    (details : TxpoolTxMeta) (s : MemoryPool K I R) : Bool × MemoryPool K I R :=
  let taken := s.takeTx txid
  let added := taken.2.addTx feePerWeight env (validatedTx version txid details taken.1)
  if !added.1 then (false, added.2.2)
  else
    match added.2.2.updateTxpoolTx txid details with
    | none => (false, added.2.2)
    | some s => (true, s)

/-- The loop of `validate`, with the number of transactions that were added again. -/
def validateLoop [LT R] [DecidableLT R] (env : K → PoolEnv K I) (version : UInt8) :
    List (K × PoolEntry I) → MemoryPool K I R → Nat × MemoryPool K I R
  | [], s => (0, s)
  | (txid, e) :: txes, s =>
    let one := s.validateTx feePerWeight (env txid) version txid e.details
    let rest := validateLoop env version txes one.2
    (one.1.toNat + rest.1, rest.2)

/-- `validate`: how many transactions are not added again. Pruned ones stay as they are. -/
def validate [LT R] [DecidableLT R] (env : K → PoolEnv K I) (version : UInt8)
    (s : MemoryPool K I R) : Nat × MemoryPool K I R :=
  let txes := s.txs.toList.filter fun row => !row.2.details.pruned
  let added := validateLoop feePerWeight env version txes { s with addedTxsById := {} }
  let removed := txes.length - added.1
  (removed, if removed > 0 then { added.2 with cookie := added.2.cookie + 1 } else added.2)

/-! ### Starting -/

/-- One pass of `init` over the table: over those that no block brought, or over the others. -/
def initPass [LT R] [DecidableLT R] (kept : Bool) (now : UInt64) :
    List (K × PoolEntry I) → MemoryPool K I R → Bool × MemoryPool K I R
  | [], s => (true, s)
  | (txid, e) :: rows, s =>
    if kept ≠ e.details.keptByBlock then initPass kept now rows s
    else
      match insertKeyImages txid e.details.getRelayMethod e.tx.vin s with
      | (false, s) => (false, s)
      | (true, s) =>
        let s := s.addTxToTransientLists now txid (feePerWeight e.details.fee e.details.weight)
          e.details.receiveTime (!e.details.isMatch .broadcasted)
        initPass kept now rows
          { s with txpoolWeight := s.txpoolWeight + e.details.weight.toNat }

/-- The two passes of `init`. Those of blocks come last, since they may spend what others
spend. -/
def initPasses [LT R] [DecidableLT R] (now : UInt64) (s : MemoryPool K I R) :
    Bool × MemoryPool K I R :=
  let first := initPass feePerWeight false now s.txs.toList s
  if !first.1 then first
  else
    let second := initPass feePerWeight true now first.2.txs.toList first.2
    if !second.1 then second else (true, { second.2 with cookie := 0 })

/-- `init`, with the limit that the node was started with. -/
def init [LT R] [DecidableLT R] (now : UInt64) (maxTxpoolWeight : Nat) (s : MemoryPool K I R) :
    Bool × MemoryPool K I R :=
  initPasses feePerWeight now
    { s with
      txpoolMaxWeight := if maxTxpoolWeight = 0 then defaultTxpoolMaxWeight else maxTxpoolWeight
      txsByFeeAndReceiveTime := []
      addedTxsById := {}
      spentKeyImages := {}
      txpoolWeight := 0 }

/-- A new process: the pool is constructed, and finds its table in the database. -/
def restart [LT R] [DecidableLT R] (now : UInt64) (maxTxpoolWeight : Nat)
    (s : MemoryPool K I R) : Bool × MemoryPool K I R :=
  init feePerWeight now maxTxpoolWeight { txs := s.txs, nextCheck := now.toInt64 }

/-! ### Filling a block -/

/-- What `is_transaction_ready_to_go` says of a transaction, writes into its entry, and leaves in
the transaction that it is called with. -/
structure ReadyCheck (I : Type) where
  ready : Bool
  details : TxpoolTxMeta
  tx : PoolTransaction I

/-- `is_transaction_ready_to_go`. The transaction is parsed only if `check_tx_inputs` asks for it,
which it does not where its cache has the answer. -/
def isTransactionReadyToGo (r : FillRequest K I) (id : K) (e : PoolEntry I)
    (s : MemoryPool K I R) : ReadyCheck I × MemoryPool K I R :=
  -- It is known that the transaction does not pass on this chain.
  if e.details.lastFailedId = r.topBlockHash then
    ({ ready := false, details := e.details, tx := {} }, s)
  else
    let tx := if id ∈ s.inputCache then {} else e.tx
    let checked := s.checkTxInputs r.env e.tx id e.details.validInputVerificationId false
    let details :=
      { e.details with
        validInputVerificationId := checked.1.validInputVerificationId
        maxUsedBlockHeight := checked.1.maxUsedBlockHeight
        maxUsedBlockId := checked.1.maxUsedBlockId }
    if checked.1.ok then ({ ready := true, details, tx }, checked.2)
    else
      let details :=
        { details with
          lastFailedHeight := r.topBlockHeight
          lastFailedId := r.topBlockHash }
      ({ ready := false, details, tx }, checked.2)

/-- A transaction is checked, and its entry is written again where the check changed it. -/
def recheckTx (r : FillRequest K I) (id : K) (e : PoolEntry I) (s : MemoryPool K I R) :
    ReadyCheck I × MemoryPool K I R :=
  let checked := s.isTransactionReadyToGo r id e
  (checked.1,
    if e.details = checked.1.details then checked.2
    else (checked.2.updateTxpoolTx id checked.1.details).getD checked.2)

/-- The loop of `fill_block_template` over the sorted list. -/
def fillLoop (r : FillRequest K I) :
    List (SortedTx K R) → FilledBlock K I → MemoryPool K I R → FilledBlock K I × MemoryPool K I R
  | [], f, s => (f, s)
  | x :: rest, f, s =>
    match s.txs[x.id]? with
    | none => fillLoop r rest f s
    | some e =>
      if f.passesOver r e.details then fillLoop r rest f s
      else if f.isFull r then (f, s)
      else
        let checked := s.recheckTx r x.id e
        -- A transaction that was not parsed has no key images to be found among those seen.
        if !checked.1.ready || haveKeyImages f.kImages checked.1.tx.vin then
          fillLoop r rest f checked.2
        else fillLoop r rest (f.push r x.id e.details checked.1.tx) checked.2

/-- `fill_block_template` -/
def fillBlockTemplate (r : FillRequest K I) (s : MemoryPool K I R) :
    Option (FilledBlock K I) × MemoryPool K I R :=
  match getBlockReward r.medianWeight 0 r.alreadyGeneratedCoins r.version with
  | none => (none, s)
  | some bestCoinbase =>
    let filled := fillLoop r s.txsByFeeAndReceiveTime { bestCoinbase } s
    (some filled.1, filled.2)

end MemoryPool

end RandomLite.Monero
