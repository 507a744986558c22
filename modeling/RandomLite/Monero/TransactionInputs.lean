-- SUMMARY: The checks of a transaction's inputs in the production node (`cryptonote_core/blockchain.cpp`, `cryptonote_core.cpp`).
import RandomLite.Library.RelativeOffsets
import RandomLite.Monero.MinerTransaction

/-!
# Transaction inputs

`check_tx_inputs_ring_members_diff` and `check_tx_inputs` with everything they call,
on a chain of which only the created outputs matter. Ring signatures, the hashes of a
transaction and the adjusted time are parameters (`InputChecks`, `SpendState`). The
table of outputs looked up ahead (`m_scan_table`) is filled as by
`prepare_handle_incoming_blocks`.
-/

namespace RandomLite.Monero

/-! ## The outputs of a chain -/

abbrev Key := Vector UInt8 32
abbrev KeyImage := Vector UInt8 32

/-- An output as a block creates it, under the amount it is stored with. -/
structure CreatedOutput where
  amount : UInt64
  pubkey : Key
  unlockTime : UInt64
  commitment : Key
  deriving DecidableEq, Repr

/-- `output_data_t`. -/
structure OutputData where
  pubkey : Key
  unlockTime : UInt64
  height : Nat
  commitment : Key
  deriving DecidableEq, Repr

def CreatedOutput.data (height : Nat) (o : CreatedOutput) : OutputData :=
  { pubkey := o.pubkey, unlockTime := o.unlockTime, height, commitment := o.commitment }

/-- The outputs each block of a chain creates, genesis first. -/
abbrev OutputChain := List (List CreatedOutput)

/-- The outputs of an amount in the order of their creation, from a height on. -/
def outputsFrom (amount : UInt64) : Nat → OutputChain → List OutputData
  | _, [] => []
  | height, created :: rest =>
    (created.filter (·.amount == amount)).map (CreatedOutput.data height) ++
      outputsFrom amount (height + 1) rest

namespace OutputChain

/-- `get_num_outputs`. -/
def getNumOutputs (chain : OutputChain) (amount : UInt64) : Nat :=
  (outputsFrom amount 0 chain).length

/-- `get_output_key` for one index; `none` when it throws. -/
def getOutputKey (chain : OutputChain) (amount index : UInt64) : Option OutputData :=
  (outputsFrom amount 0 chain)[index.toNat]?

/-- `get_output_key` for many indices, with `allow_partial`. -/
def getOutputKeys (chain : OutputChain) (amount : UInt64) : List UInt64 → List OutputData
  | [] => []
  | index :: rest =>
    match chain.getOutputKey amount index with
    | some o => o :: chain.getOutputKeys amount rest
    | none => []

end OutputChain

/-! ## Transactions -/

structure TxInToKey where
  amount : UInt64
  keyOffsets : List UInt64
  kImage : KeyImage
  deriving DecidableEq, Repr

inductive TxInV where
  | toKey (i : TxInToKey)
  | other
  deriving DecidableEq, Repr

/-- The spending input, if it is one. -/
def TxInV.toKey? : TxInV → Option TxInToKey
  | .toKey i => some i
  | .other => none

/-- A transaction as far as its inputs are checked. -/
structure SpendTx where
  version : UInt64
  vin : List TxInV
  /-- The number of outputs. -/
  voutSize : Nat
  /-- How many signatures each input has. -/
  signatureSizes : List Nat
  /-- Everything else, as serialised. -/
  rest : List UInt8
  deriving DecidableEq, Repr

/-- The inputs that spend outputs. -/
def SpendTx.rings (tx : SpendTx) : List TxInToKey := tx.vin.filterMap TxInV.toKey?

theorem SpendTx.mem_rings {tx : SpendTx} {i : TxInToKey} : i ∈ tx.rings ↔ TxInV.toKey i ∈ tx.vin := by
  unfold SpendTx.rings
  rw [List.mem_filterMap]
  constructor
  · rintro ⟨input, hinput, hsome⟩
    cases input with
    | toKey i' => cases hsome; exact hinput
    | other => cases hsome
  · exact fun hi => ⟨_, hi, rfl⟩

/-- `relative_output_offsets_to_absolute`. -/
def relativeOutputOffsetsToAbsolute (off : List UInt64) : List UInt64 := runningSums 0 off

/-- `check_tx_inputs_ring_members_diff`. -/
def checkTxInputsRingMembersDiff (tx : SpendTx) (hfVersion : UInt8) : Bool :=
  if hfVersion ≥ 6 then
    tx.vin.all fun
      | .toKey i => i.keyOffsets.tail.all fun offset => offset != 0
      | .other => false
  else true

/-! ## The table of outputs looked up ahead -/

/-- An entry of `m_scan_table`: prefix hash of the transaction, key image, outputs. -/
structure ScanEntry where
  txPrefixHash : Hash
  kImage : KeyImage
  outputs : List OutputData
  deriving DecidableEq, Repr

/-- The loop that picks the outputs of one input from those found for its amount. -/
def pickOutputs (offsetsFound : List UInt64) (outputsFound : List OutputData) :
    List UInt64 → List OutputData
  | [] => []
  | offsetNeeded :: rest =>
    -- `std::lower_bound` on the sorted offsets
    let pos := offsetsFound.findIdx fun offset => decide (offsetNeeded ≤ offset)
    if offsetsFound[pos]? = some offsetNeeded then
      match outputsFound[pos]? with
      | some o => o :: pickOutputs offsetsFound outputsFound rest
      | none => []
    else []

/-- The entries `prepare_handle_incoming_blocks` makes for one transaction, given the
    sorted offsets it has gathered for every amount. -/
def scanEntries (chain : OutputChain) (offsetMap : UInt64 → List UInt64)
    (getTransactionPrefixHash : SpendTx → Hash) (tx : SpendTx) : List ScanEntry :=
  tx.rings.map fun i =>
    { txPrefixHash := getTransactionPrefixHash tx
      kImage := i.kImage
      outputs := pickOutputs (offsetMap i.amount)
        (chain.getOutputKeys i.amount (offsetMap i.amount))
        (relativeOutputOffsetsToAbsolute i.keyOffsets) }

/-- `m_scan_table` after `prepare_handle_incoming_blocks` on a chain. -/
def preparedScanTable (chain : OutputChain) (offsetMap : UInt64 → List UInt64)
    (getTransactionPrefixHash : SpendTx → Hash) (txes : List SpendTx) : List ScanEntry :=
  txes.flatMap (scanEntries chain offsetMap getTransactionPrefixHash)

/-- The entry of a transaction and a key image. -/
def findScanEntry (table : List ScanEntry) (txPrefixHash : Hash) (kImage : KeyImage) :
    Option (List OutputData) :=
  (table.find? fun e => e.txPrefixHash == txPrefixHash && e.kImage == kImage).map (·.outputs)

/-! ## One input -/

/-- A ring member as the signature check sees it: public key and commitment. -/
abbrev CtKey := Key × Key

/-- What the node looks at besides the transaction. -/
structure SpendState where
  chain : OutputChain
  scanTable : List ScanEntry
  haveTxKeyimgAsSpent : KeyImage → Bool
  /-- `get_adjusted_time` at the height of the chain, or the clock before version 13. -/
  currentTime : UInt64

/-- `is_tx_spendtime_unlocked`. -/
def isTxSpendtimeUnlocked (S : SpendState) (hfVersion : UInt8) (unlockTime : UInt64) : Bool :=
  if unlockTime < 500000000 then decide (UInt64.ofNat S.chain.length - 1 + 1 ≥ unlockTime)
  else decide (S.currentTime + (if hfVersion < 2 then 60 else 150) ≥ unlockTime)

/-- The loop of `scan_outputkeys_for_indexes` over the absolute offsets, with the outputs
    that were looked up before: the outputs it visits, when all may be used. -/
def visitOutputs (S : SpendState) (hfVersion : UInt8) (amount : UInt64) :
    List OutputData → List UInt64 → Option (List OutputData)
  | _, [] => some []
  | outputs, index :: rest =>
    match outputs.head? <|> S.chain.getOutputKey amount index with
    | none => none
    | some o =>
      if !isTxSpendtimeUnlocked S hfVersion o.unlockTime then none
      else (visitOutputs S hfVersion amount outputs.tail rest).map (o :: ·)

/-- The outputs `scan_outputkeys_for_indexes` has at hand when its loop starts. -/
def outputsAtHand (S : SpendState) (txPrefixHash : Hash) (i : TxInToKey) :
    Option (List OutputData) :=
  let absoluteOffsets := relativeOutputOffsetsToAbsolute i.keyOffsets
  match findScanEntry S.scanTable txPrefixHash i.kImage with
  | none =>
    let outputs := S.chain.getOutputKeys i.amount absoluteOffsets
    if absoluteOffsets.length ≠ outputs.length then none else some outputs
  | some outputs =>
    if outputs.length < absoluteOffsets.length ∧ outputs.length > 0 then
      let addOffsets := absoluteOffsets.drop outputs.length
      let addOutputs := S.chain.getOutputKeys i.amount addOffsets
      if addOffsets.length ≠ addOutputs.length then none else some (outputs ++ addOutputs)
    else some outputs

/-- `scan_outputkeys_for_indexes`, with the visitor of `check_tx_input`. -/
def scanOutputkeysForIndexes (S : SpendState) (hfVersion : UInt8) (txPrefixHash : Hash)
    (i : TxInToKey) : Option (List OutputData) :=
  if i.keyOffsets.isEmpty then none
  else
    match outputsAtHand S txPrefixHash i with
    | none => none
    | some outputs =>
      visitOutputs S hfVersion i.amount outputs (relativeOutputOffsetsToAbsolute i.keyOffsets)

/-- `check_tx_input`: the ring and the greatest related height so far. Only the last
    member of the ring counts for the height. -/
def checkTxInput (S : SpendState) (hfVersion : UInt8) (txVersion : UInt64) (txPrefixHash : Hash)
    (signatureSize : Nat) (i : TxInToKey) (maxRelatedBlockHeight : Nat) :
    Option (List CtKey × Nat) :=
  match scanOutputkeysForIndexes S hfVersion txPrefixHash i with
  | none => none
  | some visited =>
    let outputKeys := visited.map fun o => (o.pubkey, o.commitment)
    if i.keyOffsets.length ≠ outputKeys.length then none
    else if txVersion = 1 ∧ signatureSize ≠ outputKeys.length then none
    else some (outputKeys, max maxRelatedBlockHeight ((visited.getLast?.map (·.height)).getD 0))

/-! ## All inputs -/

/-- `CRYPTONOTE_DEFAULT_TX_SPENDABLE_AGE`. -/
def cryptonoteDefaultTxSpendableAge : Nat := 10

/-- Why inputs are refused: the flag of `tx_verification_context` that is raised, if any. -/
inductive InputRejection where
  | tooFewOutputs
  | lowMixin
  | verificationFailed
  | doubleSpend
  | unflagged
  deriving DecidableEq, Repr

/-- What the ring-size rule counts. -/
structure MixinCount where
  nUnmixable : Nat := 0
  nMixable : Nat := 0
  minActualMixin : Nat := 2 ^ 64 - 1
  maxActualMixin : Nat := 0
  deriving DecidableEq, Repr

/-- `min_mixin`. -/
def minMixin (hfVersion : UInt8) : Nat :=
  if hfVersion ≥ 15 then 15 else if hfVersion ≥ 8 then 10 else if hfVersion ≥ 7 then 6
  else if hfVersion ≥ 6 then 4 else 2

/-- The size of a ring less one; a `size_t`, which wraps for an empty ring. -/
def ringMixin (i : TxInToKey) : Nat :=
  if i.keyOffsets.length = 0 then 2 ^ 64 - 1 else i.keyOffsets.length - 1

/-- An input of an amount too rare to mix. -/
def isUnmixable (chain : OutputChain) (hfVersion : UInt8) (i : TxInToKey) : Bool :=
  i.amount != 0 && decide (chain.getNumOutputs i.amount ≤ minMixin hfVersion)

/-- A turn of the loop that counts. -/
def countMixin (chain : OutputChain) (hfVersion : UInt8) (m : MixinCount) : TxInV → MixinCount
  | .other => m
  | .toKey i =>
    { nUnmixable := if isUnmixable chain hfVersion i then m.nUnmixable + 1 else m.nUnmixable
      nMixable := if isUnmixable chain hfVersion i then m.nMixable else m.nMixable + 1
      minActualMixin := if ringMixin i < m.minActualMixin then ringMixin i else m.minActualMixin
      maxActualMixin := if ringMixin i > m.maxActualMixin then ringMixin i else m.maxActualMixin }

/-- The transaction versions a fork takes. -/
def checkTxVersion (hfVersion : UInt8) (txVersion : UInt64) (nUnmixable : Nat) :
    Option InputRejection :=
  let maxTxVersion := if hfVersion ≤ 3 then 1 else 2
  let minTxVersion := if nUnmixable > 0 then 1 else if hfVersion ≥ 6 then 2 else 1
  if txVersion > maxTxVersion then some .verificationFailed
  else if txVersion < minTxVersion then some .verificationFailed
  else none

/-- The ring-size rule of `check_tx_inputs`, from version 2 on. -/
def checkMixins (chain : OutputChain) (hfVersion : UInt8) (tx : SpendTx) : Option InputRejection :=
  let m := tx.vin.foldl (countMixin chain hfVersion) {}
  let minActual := m.minActualMixin
  if hfVersion ≥ 12 ∧ minActual ≠ m.maxActualMixin then some .lowMixin
  else if minActual < minMixin hfVersion ∧ ¬ (hfVersion = 15 ∧ minActual = 10) then
    if m.nUnmixable = 0 then some .lowMixin
    else if m.nMixable > 1 then some .lowMixin
    else checkTxVersion hfVersion tx.version m.nUnmixable
  else if (hfVersion > 15 ∧ minActual > 15)
      ∨ (hfVersion = 15 ∧ minActual ≠ 15 ∧ minActual ≠ 10)
      ∨ (hfVersion < 15 ∧ hfVersion ≥ 10 ∧ minActual > 10)
      ∨ ((hfVersion = 8 ∨ hfVersion = 9) ∧ minActual ≠ 10) then some .lowMixin
  else checkTxVersion hfVersion tx.version m.nUnmixable

/-- The key images of the inputs fall strictly, compared as byte strings. -/
def checkSortedInputs : Option KeyImage → List TxInV → Bool
  | _, [] => true
  | last, .other :: rest => checkSortedInputs last rest
  | last, .toKey i :: rest =>
    match last with
    | some k => if ¬ i.kImage.toList < k.toList then false else checkSortedInputs (some i.kImage) rest
    | none => checkSortedInputs (some i.kImage) rest

/-- What the inputs are checked with. -/
structure InputChecks where
  getTransactionHash : SpendTx → Hash
  getTransactionPrefixHash : SpendTx → Hash
  makeInputVerificationId : Hash → List (List CtKey) → Hash
  verInputProofsRings : SpendTx → List (List CtKey) → Bool

/-- The loop of `check_tx_inputs` over the inputs: the rings and the greatest height. -/
def checkEachInput (K : InputChecks) (S : SpendState) (hfVersion : UInt8) (tx : SpendTx) :
    Nat → Nat → List TxInV → Except InputRejection (List (List CtKey) × Nat)
  | _, maxUsedBlockHeight, [] => .ok ([], maxUsedBlockHeight)
  | _, _, .other :: _ => .error .unflagged
  | sigIndex, maxUsedBlockHeight, .toKey i :: rest =>
    if i.keyOffsets.isEmpty then .error .unflagged
    else if S.haveTxKeyimgAsSpent i.kImage then .error .doubleSpend
    else if tx.version = 1 ∧ ¬ sigIndex < tx.signatureSizes.length then .error .unflagged
    else
      match checkTxInput S hfVersion tx.version (K.getTransactionPrefixHash tx)
          (tx.signatureSizes.getD sigIndex 0) i maxUsedBlockHeight with
      | none => .error .unflagged
      | some (ring, maxUsedBlockHeight) =>
        match checkEachInput K S hfVersion tx (sigIndex + 1) maxUsedBlockHeight rest with
        | .error e => .error e
        | .ok (rings, maxUsedBlockHeight) => .ok (ring :: rings, maxUsedBlockHeight)

/-- `check_tx_inputs`: on success the greatest height used and the verification id. -/
def checkTxInputs (K : InputChecks) (S : SpendState) (hfVersion : UInt8) (tx : SpendTx)
    (validInputVerificationId : Hash) : Except InputRejection (Nat × Hash) :=
  if hfVersion ≥ 12 ∧ tx.version ≥ 2 ∧ tx.voutSize < 2 then .error .tooFewOutputs
  else
    match if hfVersion ≥ 2 then checkMixins S.chain hfVersion tx else none with
    | some reason => .error reason
    | none =>
      if hfVersion ≥ 7 ∧ !checkSortedInputs none tx.vin then .error .verificationFailed
      else
        match checkEachInput K S hfVersion tx 0 0 tx.vin with
        | .error reason => .error reason
        | .ok (pubkeys, maxUsedBlockHeight) =>
          if hfVersion ≥ 12 ∧
              ¬ maxUsedBlockHeight + cryptonoteDefaultTxSpendableAge ≤ S.chain.length then .error .unflagged
          else
            let verificationId := K.makeInputVerificationId (K.getTransactionHash tx) pubkeys
            if validInputVerificationId ≠ nullHash ∧ verificationId = validInputVerificationId then
              .ok (maxUsedBlockHeight, validInputVerificationId)
            else if !K.verInputProofsRings tx pubkeys then .error .unflagged
            else .ok (maxUsedBlockHeight, verificationId)

end RandomLite.Monero
