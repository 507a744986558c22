-- SUMMARY: The blockchain of the prototype (`cryptonote_core/blockchain.cpp`) as a machine over its process state and data directory.
import RandomLite.Library.Machine
import RandomLite.Prototype.Difficulty
import RandomLite.Prototype.RandomX
import RandomLite.Prototype.TxPool
import RandomLite.Prototype.LmdbStorage

/-!
# Blockchain

`Blockchain::init`, `verify_transaction`, `add_new_block` and `shutdown`. The
chain lock makes every call atomic, so a call is a function on the `Node`: the
`Blockchain` object, the data directory it works on, and the RandomX manager of
the process. The clock reading of a call and the outcome of its file append are
inputs. What the chain takes from elsewhere (the RandomX hash, the arithmetic of
`double`, the sorting function) is a `Platform`.
-/

namespace RandomLite

/-- What the chain is built on. -/
structure Platform where
  /-- The RandomX hash of the 32 bytes of a block's hash field. -/
  randomx : CryptoHash → CryptoHash
  double : DoubleArith
  sortByFee : SortByFee

/-- The prototype as shipped: the simulated hash and IEEE doubles. -/
def Platform.shipped : Platform where
  randomx h := calculateHash h.toList
  double := .binary64
  sortByFee := .stable

/-- The `Blockchain` object. -/
structure Blockchain where
  blocks : List Block := []
  timestamps : List UInt64 := []
  cumulativeDifficulties : List UInt64 := []
  txPool : TxMemoryPool := {}
  db : PersistentDatabase := {}
  spentKeyImages : Finset Text := ∅
  deriving DecidableEq

/-- A process running the chain on a data directory. -/
structure Node where
  chain : Blockchain := {}
  dir : DataDir := {}
  randomx : RandomXManager := {}
  deriving DecidableEq

/-! ## Queries -/

namespace Blockchain

/-- `get_current_difficulty`. -/
def getCurrentDifficulty (P : Platform) (c : Blockchain) : UInt64 :=
  nextDifficultyLwma3 P.double c.timestamps c.cumulativeDifficulties difficultyTargetV2
    difficultyWindowV2

/-- `get_current_height`. -/
def getCurrentHeight (c : Blockchain) : UInt64 := UInt64.ofNat c.blocks.length

/-- `get_current_seed_epoch`. -/
def getCurrentSeedEpoch (c : Blockchain) : UInt64 := c.getCurrentHeight / seedHashEpochBlocks

end Blockchain

/-- A hexadecimal digit, in lower case. -/
def hexDigit (n : Nat) : Char := "0123456789abcdef".toList.getD n '0'

/-- The two digits `std::hex` with `setw(2)` and `setfill('0')` prints for a byte. -/
def hexByte (b : UInt8) : Text := [hexDigit (b.toNat / 16), hexDigit (b.toNat % 16)]

/-- The text a key image is stored and looked up under. -/
def keyImageHex (k : KeyImage) : Text := k.toList.flatMap hexByte

/-- The loop of `verify_transaction` over the inputs. -/
def verifyInputs (spentKeyImages : Finset Text) : List TxinToKey → Bool
  | [] => true
  | i :: rest =>
    if i.keyOffsets.length ≠ cryptonoteMinimumMixinV3 + 1 then false
    -- Neither the pool nor the other inputs are asked.
    else if keyImageHex i.kImage ∈ spentKeyImages then false
    else verifyInputs spentKeyImages rest

/-- `verify_transaction`; it ignores the height it is given. -/
def Blockchain.verifyTransaction (c : Blockchain) (tx : Transaction) (_currentHeight : UInt64) :
    Bool :=
  if tx.vin.isEmpty || tx.vout.isEmpty then false
  else if tx.rctSignatures.type ≠ 6 || tx.rctSignatures.bulletproofPlusBytes.isEmpty
      || tx.rctSignatures.clsagSignatures.isEmpty then false
  else verifyInputs c.spentKeyImages tx.vin

/-! ## Initialisation and shutdown -/

/-- Genesis block #0. -/
def genesisBlock : Block :=
  { majorVersion := 1
    minorVersion := 0
    timestamp := genesisTimestamp
    nonce := genesisNonce
    prevId := zeroHash
    hash := ((zeroHash.setIfInBounds 0 0x00).setIfInBounds 1 0x01).setIfInBounds 2 0x02 }

namespace Node

/-- `Blockchain::init` on the directory of the node. The loaded vectors are appended
    to whatever the object already holds. The outcome is that of saving a genesis
    block, when one is created. -/
def init (io : AppendOutcome) (n : Node) : Node :=
  let db := n.chain.db.open
  let held : ChainVectors :=
    { blocks := n.chain.blocks
      timestamps := n.chain.timestamps
      cumulativeDifficulties := n.chain.cumulativeDifficulties }
  let (loaded, v, spent) := db.loadChain n.dir held n.chain.spentKeyImages
  -- Always the seed of the first epoch, however long the loaded chain is.
  let randomx := n.randomx.initDataset "randomlite_genesis_seed" 22
  if loaded && !v.blocks.isEmpty then
    { chain := { n.chain with
        blocks := v.blocks
        timestamps := v.timestamps
        cumulativeDifficulties := v.cumulativeDifficulties
        db := db
        spentKeyImages := spent }
      dir := n.dir
      randomx := randomx }
  else
    { chain := { n.chain with
        blocks := v.blocks ++ [genesisBlock]
        timestamps := v.timestamps ++ [genesisBlock.timestamp]
        cumulativeDifficulties := v.cumulativeDifficulties ++ [1]
        db := db
        spentKeyImages := spent }
      dir := (db.saveBlock n.dir genesisBlock 0 1 io).2
      randomx := randomx }

/-- `Blockchain::shutdown`. -/
def shutdown (n : Node) : Node :=
  { n with
    chain := { n.chain with db := n.chain.db.close }
    randomx := n.randomx.shutdown }

/-- A new process on the same directory: nothing is left of the old one but the files. -/
def restart (io : AppendOutcome) (n : Node) : Node := init io { dir := n.dir }

/-! ## Adding a block -/

/-- Why `add_new_block` returns false. -/
inductive AddBlockError where
  | beforeGenesis
  | invalidPreviousHash
  | timestampNotAfterTip
  | timestampTooFarInFuture
  /-- With the difficulty that was written to the caller. -/
  | powBelowTarget (diff : UInt64)
  deriving DecidableEq, Repr

/-- Step 4 of `add_new_block`: the seed of the next epoch, when it is due. -/
def preallocateSeed (currentHeight : UInt64) (c : Blockchain) (m : RandomXManager) :
    RandomXManager :=
  if (currentHeight + seedHashLagBlocks) % seedHashEpochBlocks = 0 then
    let nextSeed := "randomlite_seed_epoch_" ++ toString (c.getCurrentSeedEpoch + 1).toNat
    m.preallocateNextEpoch nextSeed nextSeed.length
  else m

/-- The accepting end of `add_new_block`: the vectors, the file, the pool and the
    seed, in this order. The result of saving is not looked at. -/
def commitBlock (b : Block) (diff : UInt64) (io : AppendOutcome) (n : Node) : Node :=
  let currentHeight := n.chain.getCurrentHeight
  let chain := { n.chain with
    blocks := n.chain.blocks ++ [b]
    timestamps := n.chain.timestamps ++ [b.timestamp]
    cumulativeDifficulties :=
      n.chain.cumulativeDifficulties ++ [n.chain.cumulativeDifficulties.getLastD 0 + diff]
    txPool := n.chain.txPool.removeTxs b.txHashes }
  { chain := chain
    dir := (n.chain.db.saveBlock n.dir b currentHeight diff io).2
    randomx := preallocateSeed currentHeight chain n.randomx }

/-- `Blockchain::add_new_block`: `ok` carries the difficulty written to the caller. -/
def addNewBlock (P : Platform) (b : Block) (now : UInt64) (io : AppendOutcome) (n : Node) :
    Except AddBlockError UInt64 × Node :=
  match n.chain.blocks.getLast? with
  | none => (.error .beforeGenesis, n)
  | some top =>
    if b.prevId ≠ top.hash then (.error .invalidPreviousHash, n)
    else if b.timestamp ≤ top.timestamp then (.error .timestampNotAfterTip, n)
    else if b.timestamp > now + cryptonoteBlockFutureTimeLimit then
      (.error .timestampTooFarInFuture, n)
    else
      let diff := n.chain.getCurrentDifficulty P
      -- Hashing sets the manager up first, so a block that fails the proof of work may change it.
      let n := { n with randomx := n.randomx.ensureInitialized }
      if checkPowHash (P.randomx b.hash) diff then (.ok diff, commitBlock b diff io n)
      else (.error (.powBelowTarget diff), n)

end Node

/-! ## What `add_new_block` does -/

/-- The rules a block is held to: linkage, time, and proof of work. -/
structure Blockchain.Admissible (P : Platform) (c : Blockchain) (b : Block) (now : UInt64) :
    Prop where
  linked : ∃ top, c.blocks.getLast? = some top ∧ b.prevId = top.hash ∧ top.timestamp < b.timestamp
  inTime : b.timestamp ≤ now + cryptonoteBlockFutureTimeLimit
  pow : checkPowHash (P.randomx b.hash) (c.getCurrentDifficulty P) = true

namespace Node

variable {P : Platform} {n : Node} {b : Block} {now : UInt64}

/-- A block that keeps the rules is committed at the current difficulty. -/
theorem addNewBlock_of_admissible (h : n.chain.Admissible P b now) (io : AppendOutcome) :
    n.addNewBlock P b now io =
      (.ok (n.chain.getCurrentDifficulty P),
        commitBlock b (n.chain.getCurrentDifficulty P) io
          { n with randomx := n.randomx.ensureInitialized }) := by
  obtain ⟨⟨top, htop, hprev, htime⟩, hfuture, hpow⟩ := h
  have hnotAfter : ¬ b.timestamp ≤ top.timestamp := UInt64.not_le.mpr htime
  have hnotFar : ¬ b.timestamp > now + cryptonoteBlockFutureTimeLimit := UInt64.not_lt.mpr hfuture
  simp only [addNewBlock, htop, hprev, hnotAfter, hnotFar, hpow, ne_eq, not_true, if_true, if_false]

/-- Any other block is refused, and only the RandomX manager may change. -/
theorem addNewBlock_of_not_admissible (h : ¬ n.chain.Admissible P b now) (io : AppendOutcome) :
    ∃ e m, n.addNewBlock P b now io = (.error e, { n with randomx := m }) := by
  unfold addNewBlock
  split
  · exact ⟨_, _, rfl⟩
  rename_i top htop
  split
  · exact ⟨_, _, rfl⟩
  rename_i hprev
  split
  · exact ⟨_, _, rfl⟩
  rename_i htime
  split
  · exact ⟨_, _, rfl⟩
  rename_i hfuture
  dsimp only
  split
  · rename_i hpow
    exact absurd ⟨⟨top, htop, not_not.mp hprev, UInt64.not_le.mp htime⟩,
      UInt64.not_lt.mp hfuture, hpow⟩ h
  · exact ⟨_, _, rfl⟩

/-- `add_new_block` returns true exactly on the admissible blocks. -/
theorem addNewBlock_isOk_iff (io : AppendOutcome) :
    (n.addNewBlock P b now io).1.isOk = true ↔ n.chain.Admissible P b now := by
  by_cases h : n.chain.Admissible P b now
  · simp [addNewBlock_of_admissible h, h, Except.isOk, Except.toBool]
  · obtain ⟨e, m, heq⟩ := addNewBlock_of_not_admissible h io
    simp [heq, h, Except.isOk, Except.toBool]

/-- The two ways a call of `add_new_block` can end. -/
theorem addNewBlock_cases (P : Platform) (n : Node) (b : Block) (now : UInt64)
    (io : AppendOutcome) :
    (n.chain.Admissible P b now ∧
      n.addNewBlock P b now io =
        (.ok (n.chain.getCurrentDifficulty P),
          commitBlock b (n.chain.getCurrentDifficulty P) io
            { n with randomx := n.randomx.ensureInitialized })) ∨
    (¬ n.chain.Admissible P b now ∧
      ∃ e m, n.addNewBlock P b now io = (.error e, { n with randomx := m })) := by
  by_cases h : n.chain.Admissible P b now
  · exact .inl ⟨h, addNewBlock_of_admissible h io⟩
  · exact .inr ⟨h, addNewBlock_of_not_admissible h io⟩

end Node

/-! ## The chain as a machine -/

/-- A call on the chain. -/
inductive Call where
  | addTx (tx : Transaction) (now : UInt64)
  | verifyTransaction (tx : Transaction) (currentHeight : UInt64)
  | addNewBlock (b : Block) (now : UInt64) (io : AppendOutcome)
  | shutdown
  /-- `init` once more on the same object. -/
  | init (io : AppendOutcome)
  /-- `init` of a new `Blockchain` in a new process. -/
  | restart (io : AppendOutcome)

/-- What a call returns. -/
inductive Reply where
  | txAdded (errorReason : Option String)
  | txVerified (result : Bool)
  | blockAdded (result : Except Node.AddBlockError UInt64)
  | done

/-- The chain under arbitrary calls. -/
def chainMachine (P : Platform) : Machine Node Call Reply where
  step n
    | .addTx tx now =>
      let (r, pool) := n.chain.txPool.addTx P.sortByFee tx now
      (.txAdded r, { n with chain := { n.chain with txPool := pool } })
    | .verifyTransaction tx h => (.txVerified (n.chain.verifyTransaction tx h), n)
    | .addNewBlock b now io =>
      let (r, n) := n.addNewBlock P b now io
      (.blockAdded r, n)
    | .shutdown => (.done, n.shutdown)
    | .init io => (.done, n.init io)
    | .restart io => (.done, n.restart io)

/-- A block handed to `add_new_block`, with the clock reading and the file outcome
    it meets. -/
structure Submission where
  block : Block
  now : UInt64
  io : AppendOutcome

/-- The chain under blocks alone, from any number of submitters: the chain lock
    makes every interleaving one list of submissions. -/
def blockMachine (P : Platform) : Machine Node Submission (Except Node.AddBlockError UInt64) where
  step n s := n.addNewBlock P s.block s.now s.io

/-- A process that has just called `init` on a directory. -/
def Node.started (dir : DataDir) (io : AppendOutcome) : Node := Node.init io { dir := dir }

/-- A state reachable from `init` on `dir`. -/
def Node.ReachableFrom (P : Platform) (dir : DataDir) (n : Node) : Prop :=
  ∃ io, (chainMachine P).Reachable (Node.started dir io) n

end RandomLite
