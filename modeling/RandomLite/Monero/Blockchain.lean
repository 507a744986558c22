-- SUMMARY: How the production node takes a block (`cryptonote_core/blockchain.cpp`): main chain, alternative blocks, and the switch between them.
import RandomLite.Library.CappedSum
import RandomLite.Library.Machine
import RandomLite.Monero.HardForkInvariant
import RandomLite.Monero.MinerTransaction

/-!
# Blockchain

`add_new_block` with `handle_block_to_main_chain`, `handle_alternative_block`,
`switch_to_alternative_blockchain` and `rollback_blockchain_switching`, on the two
block stores of the database. What the stores do not decide (timestamps, proof of
work, difficulties, checkpoints, transaction inputs, weights) is an `Env`, which a
call brings along; the version checks are those of the hard-fork object on the XRL
table, which `HardFork.Ready.doCheck_eq` reduces to the height.
-/

namespace RandomLite.Monero

/-! ## The stores -/

/-- A block of the main chain, with the two counters kept for it. -/
structure MainEntry where
  block : Block
  alreadyGeneratedCoins : UInt64
  cumulativeDifficulty : Nat
  deriving DecidableEq, Repr

/-- `alt_block_data_t` with its key and its block. -/
structure AltEntry where
  id : Hash
  block : Block
  height : Nat
  alreadyGeneratedCoins : UInt64
  cumulativeDifficulty : Nat
  /-- History only, read by no operation: fees went into `alreadyGeneratedCoins`, those of
      the block or those that its parent's total already included. -/
  feesIncluded : Bool := false
  deriving DecidableEq, Repr

structure BlockchainDB where
  /-- The main chain, genesis first. -/
  blocks : List MainEntry := []
  altBlocks : List AltEntry := []
  /-- History only, read by no operation: the blocks that were ever connected to the main
      chain, and those that were ever stored as alternatives. -/
  mainHistory : List Block := []
  altHistory : List Block := []
  deriving DecidableEq, Repr

/-- What identifies a block, and the fees its transactions pay. -/
structure Content where
  getBlockHash : Block → Hash
  getTxFee : Hash → UInt64

/-- `fee_summary`: the fees of the listed transactions, modulo `2 ^ 64`. -/
def Content.feeSummary (C : Content) (b : Block) : UInt64 :=
  (b.txHashes.map C.getTxFee).foldl (· + ·) 0

/-- What a call meets besides the stores. -/
structure Env where
  medianWeight : BlockchainDB → UInt64
  cumulativeBlockWeight : BlockchainDB → Block → UInt64
  difficultyForNextBlock : BlockchainDB → Nat
  nextDifficultyForAlternativeChain : BlockchainDB → List AltEntry → Block → Nat
  /-- Timestamp, proof of work, checkpoints and transactions of a main-chain block. -/
  checkMainBlock : BlockchainDB → Block → Bool
  /-- Checkpoints, timestamp, proof of work and supplement of an alternative block. -/
  checkAltBlock : BlockchainDB → List AltEntry → Block → Bool
  isCheckpoint : Nat → Hash → Bool
  isInvalid : Hash → Bool

namespace BlockchainDB

def height (s : BlockchainDB) : Nat := s.blocks.length

/-- `top_block_hash`. -/
def topBlockHash (C : Content) (s : BlockchainDB) : Hash :=
  match s.blocks.getLast? with
  | some e => C.getBlockHash e.block
  | none => nullHash

/-- `block_exists`, with the entry found. -/
def getBlock (C : Content) (s : BlockchainDB) (id : Hash) : Option MainEntry :=
  s.blocks.find? fun e => C.getBlockHash e.block == id

/-- `get_alt_block`. -/
def getAltBlock (s : BlockchainDB) (id : Hash) : Option AltEntry :=
  s.altBlocks.find? fun a => a.id == id

/-- The coins generated up to the top block. -/
def topGeneratedCoins (s : BlockchainDB) : UInt64 :=
  match s.blocks.getLast? with
  | some e => e.alreadyGeneratedCoins
  | none => 0

/-- The cumulative difficulty of the top block. -/
def topCumulativeDifficulty (s : BlockchainDB) : Nat :=
  match s.blocks.getLast? with
  | some e => e.cumulativeDifficulty
  | none => 0

def addBlock (s : BlockchainDB) (e : MainEntry) : BlockchainDB :=
  { s with blocks := s.blocks ++ [e], mainHistory := s.mainHistory ++ [e.block] }

/-- `pop_block`. -/
def popBlock (s : BlockchainDB) : BlockchainDB := { s with blocks := s.blocks.dropLast }

/-- `add_alt_block`. -/
def addAltBlock (s : BlockchainDB) (a : AltEntry) : BlockchainDB :=
  { s with altBlocks := s.altBlocks ++ [a], altHistory := s.altHistory ++ [a.block] }

/-- `remove_alt_block`. -/
def removeAltBlock (s : BlockchainDB) (id : Hash) : BlockchainDB :=
  { s with altBlocks := s.altBlocks.filter fun a => a.id != id }

variable {s : BlockchainDB}

theorem forall_addBlock {P : MainEntry → Prop} (h : ∀ e ∈ s.blocks, P e) {e : MainEntry}
    (he : P e) : ∀ e' ∈ (s.addBlock e).blocks, P e' :=
  List.forall_mem_append.mpr ⟨h, List.forall_mem_singleton.mpr he⟩

theorem forall_popBlock {P : MainEntry → Prop} (h : ∀ e ∈ s.blocks, P e) :
    ∀ e ∈ s.popBlock.blocks, P e :=
  fun e he => h e (List.dropLast_subset _ he)

theorem forall_addAltBlock {P : AltEntry → Prop} (h : ∀ a ∈ s.altBlocks, P a) {a : AltEntry}
    (ha : P a) : ∀ a' ∈ (s.addAltBlock a).altBlocks, P a' :=
  List.forall_mem_append.mpr ⟨h, List.forall_mem_singleton.mpr ha⟩

theorem forall_removeAltBlock {P : AltEntry → Prop} (h : ∀ a ∈ s.altBlocks, P a) (id : Hash) :
    ∀ a ∈ (s.removeAltBlock id).altBlocks, P a :=
  fun a ha => h a (List.mem_of_mem_filter ha)

end BlockchainDB

/-! ## The main chain -/

/-- What the hard-fork object answers about a block at a height. -/
def checkVersion (b : Block) (height : Nat) : Bool :=
  getBlockVersion b.toBlockVersions == versionAt height &&
    decide (getBlockVote b.toBlockVersions ≥ versionAt height)

/-- `handle_block_to_main_chain`. -/
def handleBlockToMainChain (C : Content) (E : Env) (b : Block) (s : BlockchainDB) :
    Bool × BlockchainDB :=
  let height := s.height
  if b.prevId ≠ s.topBlockHash C then (false, s)
  else if !checkVersion b height then (false, s)
  else if E.difficultyForNextBlock s = 0 then (false, s)
  else if !E.checkMainBlock s b then (false, s)
  else if !prevalidateMinerTransaction b (UInt64.ofNat height) (versionAt height) then (false, s)
  else
    match validateMinerTransaction b (E.medianWeight s) (E.cumulativeBlockWeight s b)
        (C.feeSummary b) s.topGeneratedCoins (versionAt height) with
    | none => (false, s)
    | some baseReward =>
      -- `add_block` refuses a block that is there already.
      if (s.getBlock C (C.getBlockHash b)).isSome then (false, s)
      else (true, s.addBlock
        { block := b
          alreadyGeneratedCoins := cappedAdd moneySupply s.topGeneratedCoins baseReward
          cumulativeDifficulty := s.topCumulativeDifficulty + E.difficultyForNextBlock s })

/-- `pop_block_from_blockchain`; it throws at the genesis block, and the callers stop there. -/
def popBlockFromBlockchain (s : BlockchainDB) : Option (Block × BlockchainDB) :=
  match s.blocks.getLast? with
  | some e => if s.height > 1 then some (e.block, s.popBlock) else none
  | none => none

/-- `pop_blocks`. -/
def popBlocks : Nat → BlockchainDB → BlockchainDB
  | 0, s => s
  | n + 1, s =>
    match popBlockFromBlockchain s with
    | some (_, s) => popBlocks n s
    | none => s

/-! ## Switching to an alternative chain -/

/-- The loop that pops down to a block: the blocks it popped, oldest first. -/
def disconnectTo (C : Content) (prevId : Hash) : Nat → BlockchainDB → List Block × BlockchainDB
  | 0, s => ([], s)
  | fuel + 1, s =>
    if s.topBlockHash C = prevId then ([], s)
    else
      match popBlockFromBlockchain s with
      | some (b, s) =>
        let (disconnected, s) := disconnectTo C prevId fuel s
        (disconnected ++ [b], s)
      | none => ([], s)

/-- The loop that connects a list of blocks: the blocks from the first refused one on,
    and the chain as far as it got. -/
def connectAll (C : Content) (E : Env) : List Block → BlockchainDB → List Block × BlockchainDB
  | [], s => ([], s)
  | b :: rest, s =>
    match handleBlockToMainChain C E b s with
    | (true, s) => connectAll C E rest s
    | (false, s) => (b :: rest, s)

/-- `rollback_blockchain_switching`. -/
def rollbackBlockchainSwitching (C : Content) (E : Env) (originalChain : List Block)
    (rollbackHeight : Nat) (s : BlockchainDB) : BlockchainDB :=
  if rollbackHeight > s.height then s
  else (connectAll C E originalChain (popBlocks (s.height - rollbackHeight) s)).2

/-- `switch_to_alternative_blockchain`. The blocks disconnected from the main chain are
    handed to `handleAlternative` unless they are to be discarded. -/
def switchToAlternativeBlockchain (C : Content) (E : Env)
    (handleAlternative : Block → BlockchainDB → Bool × BlockchainDB) (altChain : List AltEntry)
    (discardDisconnectedChain : Bool) (s : BlockchainDB) : Bool × BlockchainDB :=
  match altChain with
  | [] => (false, s)
  | front :: _ =>
    if (s.getBlock C front.block.prevId).isNone then (false, s)
    else
      let (disconnected, s) := disconnectTo C front.block.prevId s.height s
      if s.topBlockHash C ≠ front.block.prevId then (false, s)
      else
        let splitHeight := s.height
        match connectAll C E (altChain.map (·.block)) s with
        | ([], s) =>
          let s := if discardDisconnectedChain then s
            else disconnected.foldl (fun s b => (handleAlternative b s).2) s
          (true, altChain.foldl (fun s a => s.removeAltBlock (C.getBlockHash a.block)) s)
        | (refused, s) =>
          let s := rollbackBlockchainSwitching C E disconnected splitHeight s
          (false, refused.foldl (fun s b => s.removeAltBlock (C.getBlockHash b)) s)

/-! ## Alternative blocks -/

/-- The loop of `build_alt_chain`, from a block down to the main chain. -/
def altAncestors (s : BlockchainDB) : Nat → Hash → List AltEntry
  | 0, _ => []
  | fuel + 1, id =>
    match s.getAltBlock id with
    | some a => altAncestors s fuel a.block.prevId ++ [a]
    | none => []

/-- `build_alt_chain`: the alternative blocks up to `prevId`, if they connect to the
    main chain. -/
def buildAltChain (C : Content) (s : BlockchainDB) (prevId : Hash) : Option (List AltEntry) :=
  match altAncestors s (s.altBlocks.length + 1) prevId with
  | [] => if (s.getBlock C prevId).isSome then some [] else none
  | front :: rest =>
    if s.height ≤ front.height then none
    else
      match s.getBlock C front.block.prevId, s.blocks[front.height - 1]? with
      | some _, some e =>
        if C.getBlockHash e.block = front.block.prevId then some (front :: rest) else none
      | _, _ => none

/-- What is known of the parent of an alternative block: height, coins generated and
    cumulative difficulty. An alternative block comes before one of the main chain. -/
def parentData (C : Content) (s : BlockchainDB) (prevId : Hash) : Option (Nat × UInt64 × Nat) :=
  match s.getAltBlock prevId with
  | some a => some (a.height, a.alreadyGeneratedCoins, a.cumulativeDifficulty)
  | none =>
    match s.getBlock C prevId with
    | some e => some (s.blocks.findIdx fun e => C.getBlockHash e.block == prevId,
        e.alreadyGeneratedCoins, e.cumulativeDifficulty)
    | none => none

/-- Whether the total recorded for a block as an alternative includes fees: it adds what
    the miner is paid, fees and all, to the total of the parent. -/
def BlockchainDB.includesFees (C : Content) (s : BlockchainDB) (b : Block) : Bool :=
  C.feeSummary b != 0 || (s.getAltBlock b.prevId).any (·.feesIncluded)

/-- `handle_alternative_block`. A switch hands disconnected blocks back to it: `fuel`
    bounds how deep these calls nest. -/
def handleAlternativeBlock (C : Content) (E : Env) :
    Nat → Block → BlockchainDB → Bool × BlockchainDB
  | 0, _, s => (false, s)
  | fuel + 1, b, s =>
    let id := C.getBlockHash b
    let blockHeight := (getBlockHeight b).toNat
    if blockHeight = 0 then (false, s)
    else if !checkVersion b blockHeight then (false, s)
    else
      match parentData C s b.prevId with
      | none => (true, s) -- orphaned
      | some (prevHeight, prevGeneratedCoins, prevCumulativeDifficulty) =>
        match buildAltChain C s b.prevId with
        | none => (false, s)
        | some altChain =>
          let currentDiff := E.nextDifficultyForAlternativeChain s altChain b
          let bei : AltEntry :=
            { id := id
              block := b
              height := prevHeight + 1
              alreadyGeneratedCoins :=
                cappedAdd moneySupply prevGeneratedCoins (getOutsMoneyAmount b.minerTx)
              cumulativeDifficulty := prevCumulativeDifficulty + currentDiff
              feesIncluded := s.includesFees C b }
          if !E.checkAltBlock s altChain b then (false, s)
          else if currentDiff = 0 then (false, s)
          else if !prevalidateMinerTransaction b (UInt64.ofNat bei.height) (versionAt blockHeight) then
            (false, s)
          else if (s.getAltBlock id).isSome then (false, s)
          else
            let mainCumulativeDifficulty := s.topCumulativeDifficulty
            let s := s.addAltBlock bei
            if E.isCheckpoint bei.height id then
              switchToAlternativeBlockchain C E (handleAlternativeBlock C E fuel)
                (altChain ++ [bei]) true s
            else if mainCumulativeDifficulty < bei.cumulativeDifficulty then
              switchToAlternativeBlockchain C E (handleAlternativeBlock C E fuel)
                (altChain ++ [bei]) false s
            else (true, s)

/-! ## The node -/

/-- `add_new_block`. -/
def addNewBlock (C : Content) (E : Env) (fuel : Nat) (b : Block) (s : BlockchainDB) :
    Bool × BlockchainDB :=
  let id := C.getBlockHash b
  if (s.getBlock C id).isSome || (s.getAltBlock id).isSome || E.isInvalid id then (false, s)
  else if b.prevId ≠ s.topBlockHash C then handleAlternativeBlock C E fuel b s
  else handleBlockToMainChain C E b s

/-- A call on the node. -/
inductive ChainCall where
  | addNewBlock (b : Block) (E : Env) (fuel : Nat)
  | popBlocks (n : Nat)

/-- The blocks a call submits. -/
def ChainCall.submitted : ChainCall → List Block
  | .addNewBlock b _ _ => [b]
  | .popBlocks _ => []

/-- The node under calls one after another; it starts with an empty database, and the
    first block it takes is the genesis block. -/
def chainMachine (C : Content) : Machine BlockchainDB ChainCall Bool where
  step s
    | .addNewBlock b E fuel => addNewBlock C E fuel b s
    | .popBlocks n => (true, popBlocks n s)

end RandomLite.Monero
