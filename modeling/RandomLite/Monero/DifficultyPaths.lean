-- SUMMARY: The ways the production node comes to the difficulty of a block (`cryptonote_core/blockchain.cpp`), within the calls that change its chain.
import Mathlib.Data.List.Sort
import RandomLite.Library.SlidingWindow
import RandomLite.Monero.Emission

/-!
# Difficulty paths

`get_difficulty_for_next_block` with its two caches, `get_next_difficulty_for_alternative_chain`
and `recalculate_difficulties`, and the calls that move the chain under them: blocks
connected, popped, stored as alternatives, and switched to. `next_difficulty` is a
parameter. Heights and cumulative difficulties are natural numbers; the latter are 128
bits wide in the source.
-/

namespace RandomLite.Monero

/-- `DIFFICULTY_BLOCKS_COUNT`. -/
@[irreducible] def difficultyBlocksCount : Nat := 735

/-- `DIFFICULTY_TARGET_V1`, in seconds. -/
def difficultyTargetV1 : Nat := 60

/-- `DIFFICULTY_TARGET_V2`, in seconds. -/
def difficultyTargetV2 : Nat := 150

/-- A function in the place of `next_difficulty`: of the timestamps and cumulative
    difficulties of a window and the target. Without blocks it is one. -/
structure DifficultyAlgorithm where
  nextDifficulty : List UInt64 → List Nat → Nat → Nat
  on_empty : ∀ target, nextDifficulty [] [] target = 1

/-- `next_difficulty` of `difficulty.cpp`: the work between the ends of the middle of the
    window, by the time between them; zero when it does not fit in 128 bits. -/
def nextDifficulty (timestamps : List UInt64) (cumulativeDifficulties : List Nat)
    (targetSeconds : Nat) : Nat :=
  let timestamps := timestamps.take 720
  let cumulativeDifficulties := cumulativeDifficulties.take 720
  let length := timestamps.length
  if length ≤ 1 then 1
  else
    let timestamps := timestamps.insertionSort (· ≤ ·)
    let cutBegin := if length ≤ 600 then 0 else (length - 600 + 1) / 2
    let cutEnd := if length ≤ 600 then length else cutBegin + 600
    let timeSpan := (timestamps.getD (cutEnd - 1) 0 - timestamps.getD cutBegin 0).toNat
    let timeSpan := if timeSpan = 0 then 1 else timeSpan
    let totalWork := cumulativeDifficulties.getD (cutEnd - 1) 0 - cumulativeDifficulties.getD cutBegin 0
    let res := (totalWork * targetSeconds + timeSpan - 1) / timeSpan
    if res > 2 ^ 128 - 1 then 0 else res

/-- The chain, the hard-fork object and the caches. -/
structure DifficultyNode where
  db : BlockchainDB := {}
  hardFork : HardForkNode
  timestamps : List UInt64 := []
  difficulties : List Nat := []
  timestampsAndDifficultiesHeight : Nat := 0
  resetTimestampsAndDifficultiesHeight : Bool := true
  difficultyForNextBlockTopHash : Hash := nullHash
  difficultyForNextBlock : Nat := 1

namespace DifficultyNode

/-! ## The difficulty of the next block -/

/-- `get_difficulty_target`. -/
def getDifficultyTarget (n : DifficultyNode) : Except Fault Nat := do
  let version ← n.hardFork.hf.getCurrentVersion
  return if version < 2 then difficultyTargetV1 else difficultyTargetV2

/-- The entries of the heights from `offset` up to, not including, `stop`. -/
def readBlocks (db : BlockchainDB) (offset stop : Nat) : List MainEntry :=
  (db.blocks.take stop).drop offset

/-- The window is slid by the top block. -/
def slideWindow (n : DifficultyNode) : DifficultyNode :=
  let top := readBlocks n.db (n.db.height - 1) n.db.height
  { n with
    timestamps := SlidingWindow.trim difficultyBlocksCount
      (n.timestamps ++ top.map (·.block.timestamp))
    difficulties := SlidingWindow.trim difficultyBlocksCount
      (n.difficulties ++ top.map (·.cumulativeDifficulty))
    timestampsAndDifficultiesHeight := n.db.height }

/-- The window is read from the database; the genesis block stays out. -/
def readWindow (n : DifficultyNode) : DifficultyNode :=
  let height := n.db.height
  let offset := height - min height difficultyBlocksCount
  let offset := if offset = 0 then offset + 1 else offset
  let window := readBlocks n.db offset height
  { n with
    timestamps := window.map (·.block.timestamp)
    difficulties := window.map (·.cumulativeDifficulty)
    timestampsAndDifficultiesHeight := height }

/-- The choice between the two. -/
def updateWindow (n : DifficultyNode) : DifficultyNode :=
  let n := if n.resetTimestampsAndDifficultiesHeight then
    { n with timestampsAndDifficultiesHeight := 0 } else n
  if n.timestampsAndDifficultiesHeight ≠ 0 ∧
      n.db.height = n.timestampsAndDifficultiesHeight + 1 ∧
      n.timestamps.length ≥ difficultyBlocksCount then n.slideWindow
  else n.readWindow

/-- `get_difficulty_for_next_block`, without a fixed difficulty. -/
def getDifficultyForNextBlock (A : DifficultyAlgorithm) (C : Content) (n : DifficultyNode) :
    Except Fault (Nat × DifficultyNode) :=
  let topHash := n.db.topBlockHash C
  if topHash = n.difficultyForNextBlockTopHash then .ok (n.difficultyForNextBlock, n)
  else do
    let n := n.updateWindow
    let target ← n.getDifficultyTarget
    let diff := A.nextDifficulty n.timestamps n.difficulties target
    return (diff, { n with
      difficultyForNextBlockTopHash := topHash
      difficultyForNextBlock := diff })

/-! ## The difficulty of an alternative block -/

/-- Where the main chain below an alternative block ends. -/
def mainChainStopOffset (altChain : List AltEntry) (beiHeight : Nat) : Nat :=
  match altChain with
  | front :: _ => front.height
  | [] => beiHeight

/-- `get_next_difficulty_for_alternative_chain`, for a block of this height. -/
def getNextDifficultyForAlternativeChain (A : DifficultyAlgorithm) (hf : HardFork)
    (db : BlockchainDB) (altChain : List AltEntry) (beiHeight : Nat) : Nat :=
  let target := if hf.getIdealVersion beiHeight < 2 then difficultyTargetV1 else difficultyTargetV2
  if altChain.length < difficultyBlocksCount then
    let mainChainStopOffset := mainChainStopOffset altChain beiHeight
    let mainChainCount := difficultyBlocksCount - min difficultyBlocksCount altChain.length
    let mainChainCount := min mainChainCount mainChainStopOffset
    let mainChainStartOffset := mainChainStopOffset - mainChainCount
    let mainChainStartOffset :=
      if mainChainStartOffset = 0 then mainChainStartOffset + 1 else mainChainStartOffset
    let main := readBlocks db mainChainStartOffset mainChainStopOffset
    A.nextDifficulty
      (main.map (·.block.timestamp) ++ altChain.map (·.block.timestamp))
      (main.map (·.cumulativeDifficulty) ++ altChain.map (·.cumulativeDifficulty)) target
  else
    -- the vectors are filled from the end, with the alternative chain read backwards
    let recent := (altChain.reverse.take difficultyBlocksCount).reverse
    A.nextDifficulty (recent.map (·.block.timestamp)) (recent.map (·.cumulativeDifficulty)) target

/-! ## Calls that move the chain -/

/-- The two assignments every call begins with that pops or leaves the main chain. -/
def resetWindow (n : DifficultyNode) : DifficultyNode :=
  { n with timestampsAndDifficultiesHeight := 0, resetTimestampsAndDifficultiesHeight := true }

/-- `handle_block_to_main_chain`: the difficulty is asked for before the block is checked
    against it, and again when the block has been added. -/
def handleBlockToMainChain (A : DifficultyAlgorithm) (C : Content) (E : Env) (b : Block)
    (n : DifficultyNode) : Except Fault (Bool × DifficultyNode) :=
  if b.prevId ≠ n.db.topBlockHash C then .ok (false, n)
  else do
    if !(← n.hardFork.hf.check b.toBlockVersions) then return (false, n)
    let (currentDiffic, n) ← n.getDifficultyForNextBlock A C
    match Monero.handleBlockToMainChain C
        { E with difficultyForNextBlock := fun _ => currentDiffic } b n.db with
    | (false, _) => return (false, n)
    | (true, db) =>
      let hardFork ← n.hardFork.step (.add b.toBlockVersions)
      let (_, n) ← { n with db := db, hardFork := hardFork }.getDifficultyForNextBlock A C
      return (true, n)

/-- `pop_block_from_blockchain`. -/
def popBlockFromBlockchain (n : DifficultyNode) :
    Except Fault (Option Block × DifficultyNode) :=
  let n := n.resetWindow
  match Monero.popBlockFromBlockchain n.db with
  | none => .ok (none, n)
  | some (b, db) => do
    let hardFork ← n.hardFork.step (.pop 1)
    return (some b, { n with db := db, hardFork := hardFork })

/-- `pop_blocks`. -/
def popBlocks : Nat → DifficultyNode → Except Fault DifficultyNode
  | 0, n => .ok n
  | k + 1, n => do
    match ← n.popBlockFromBlockchain with
    | (some _, n) => popBlocks k n
    | (none, n) => return n

/-- The loop that pops down to a block: the blocks it popped, oldest first. -/
def disconnectTo (C : Content) (prevId : Hash) :
    Nat → DifficultyNode → Except Fault (List Block × DifficultyNode)
  | 0, n => .ok ([], n)
  | fuel + 1, n =>
    if n.db.topBlockHash C = prevId then .ok ([], n)
    else do
      match ← n.popBlockFromBlockchain with
      | (some b, n) =>
        let (disconnected, n) ← disconnectTo C prevId fuel n
        return (disconnected ++ [b], n)
      | (none, n) => return ([], n)

/-- The loop that connects a list of blocks: the blocks from the first refused one on. -/
def connectAll (A : DifficultyAlgorithm) (C : Content) (E : Env) :
    List Block → DifficultyNode → Except Fault (List Block × DifficultyNode)
  | [], n => .ok ([], n)
  | b :: rest, n => do
    match ← n.handleBlockToMainChain A C E b with
    | (true, n) => connectAll A C E rest n
    | (false, n) => return (b :: rest, n)

/-- `m_hardfork->reorganize_from_chain_height`. -/
def reorganizeHardFork (height : Nat) (n : DifficultyNode) : Except Fault DifficultyNode := do
  let hardFork ← if height = 0 then pure n.hardFork else n.hardFork.step (.reorganize (height - 1))
  return { n with hardFork := hardFork }

/-- `rollback_blockchain_switching`. -/
def rollbackBlockchainSwitching (A : DifficultyAlgorithm) (C : Content) (E : Env)
    (originalChain : List Block) (rollbackHeight : Nat) (n : DifficultyNode) :
    Except Fault DifficultyNode :=
  if rollbackHeight > n.db.height then .ok n
  else do
    let n ← n.resetWindow.popBlocks (n.db.height - rollbackHeight)
    let n ← n.reorganizeHardFork rollbackHeight
    match ← n.connectAll A C E originalChain with
    | ([], n) => n.reorganizeHardFork rollbackHeight
    | (_ :: _, n) => return n

/-- Handing a list of blocks to a call that answers with a truth value. -/
def handAll (handle : Block → DifficultyNode → Except Fault (Bool × DifficultyNode)) :
    List Block → DifficultyNode → Except Fault DifficultyNode
  | [], n => .ok n
  | b :: rest, n => do
    let (_, n) ← handle b n
    handAll handle rest n

/-- `remove_alt_block` for each of some blocks. -/
def removeAltBlocks (C : Content) (blocks : List Block) (n : DifficultyNode) : DifficultyNode :=
  { n with db := blocks.foldl (fun db b => db.removeAltBlock (C.getBlockHash b)) n.db }

/-- `switch_to_alternative_blockchain`. The blocks disconnected from the main chain are
    handed to `handleAlternative` unless they are to be discarded. -/
def switchToAlternativeBlockchain (A : DifficultyAlgorithm) (C : Content) (E : Env)
    (handleAlternative : Block → DifficultyNode → Except Fault (Bool × DifficultyNode))
    (altChain : List AltEntry) (discardDisconnectedChain : Bool) (n : DifficultyNode) :
    Except Fault (Bool × DifficultyNode) :=
  let n := n.resetWindow
  match altChain with
  | [] => .ok (false, n)
  | front :: _ =>
    if (n.db.getBlock C front.block.prevId).isNone then .ok (false, n)
    else do
      let (disconnected, n) ← n.disconnectTo C front.block.prevId n.db.height
      if n.db.topBlockHash C ≠ front.block.prevId then return (false, n)
      let splitHeight := n.db.height
      match ← n.connectAll A C E (altChain.map (·.block)) with
      | ([], n) =>
        let n ← handAll handleAlternative (if discardDisconnectedChain then [] else disconnected) n
        let n ← (n.removeAltBlocks C (altChain.map (·.block))).reorganizeHardFork splitHeight
        return (true, n)
      | (refused, n) =>
        let n ← n.rollbackBlockchainSwitching A C E disconnected splitHeight
        return (false, n.removeAltBlocks C refused)

/-- The record `handle_alternative_block` makes of a block. -/
def altEntry (C : Content) (s : BlockchainDB) (b : Block) (prevHeight : Nat)
    (prevGeneratedCoins : UInt64) (prevCumulativeDifficulty currentDiff : Nat) : AltEntry :=
  { id := C.getBlockHash b
    block := b
    height := prevHeight + 1
    alreadyGeneratedCoins :=
      cappedAdd moneySupply prevGeneratedCoins (getOutsMoneyAmount b.minerTx)
    cumulativeDifficulty := prevCumulativeDifficulty + currentDiff
    feesIncluded := s.includesFees C b }

/-- `handle_alternative_block`. A switch hands disconnected blocks back to it: `fuel`
    bounds how deep these calls nest. -/
def handleAlternativeBlock (A : DifficultyAlgorithm) (C : Content) (E : Env) :
    Nat → Block → DifficultyNode → Except Fault (Bool × DifficultyNode)
  | 0, _, n => .ok (false, n)
  | fuel + 1, b, n =>
    let n := n.resetWindow
    let blockHeight := (getBlockHeight b).toNat
    if blockHeight = 0 then .ok (false, n)
    else do
      if !(← n.hardFork.hf.checkForHeight b.toBlockVersions blockHeight) then return (false, n)
      match parentData C n.db b.prevId with
      | none => return (true, n) -- orphaned
      | some (prevHeight, prevGeneratedCoins, prevCumulativeDifficulty) =>
        match buildAltChain C n.db b.prevId with
        | none => return (false, n)
        | some altChain =>
          let currentDiff := getNextDifficultyForAlternativeChain A n.hardFork.hf n.db altChain
            (prevHeight + 1)
          let bei := altEntry C n.db b prevHeight prevGeneratedCoins prevCumulativeDifficulty
            currentDiff
          if !E.checkAltBlock n.db altChain b then return (false, n)
          else if currentDiff = 0 then return (false, n)
          else if !prevalidateMinerTransaction b (UInt64.ofNat bei.height)
              (n.hardFork.hf.getIdealVersion blockHeight) then return (false, n)
          else if (n.db.getAltBlock bei.id).isSome then return (false, n)
          else
            let mainCumulativeDifficulty := n.db.topCumulativeDifficulty
            let n := { n with db := n.db.addAltBlock bei }
            if E.isCheckpoint bei.height bei.id then
              n.switchToAlternativeBlockchain A C E (handleAlternativeBlock A C E fuel)
                (altChain ++ [bei]) true
            else if mainCumulativeDifficulty < bei.cumulativeDifficulty then
              n.switchToAlternativeBlockchain A C E (handleAlternativeBlock A C E fuel)
                (altChain ++ [bei]) false
            else return (true, n)

/-- `add_new_block`. -/
def addNewBlock (A : DifficultyAlgorithm) (C : Content) (E : Env) (fuel : Nat) (b : Block)
    (n : DifficultyNode) : Except Fault (Bool × DifficultyNode) :=
  let id := C.getBlockHash b
  if (n.db.getBlock C id).isSome || (n.db.getAltBlock id).isSome || E.isInvalid id then
    .ok (false, n)
  else if b.prevId ≠ n.db.topBlockHash C then n.handleAlternativeBlock A C E fuel b
  else n.handleBlockToMainChain A C E b

end DifficultyNode

/-! ## Recalculation -/

/-- The variables of the loop of `recalculate_difficulties`. -/
structure Recalculation where
  timestamps : List UInt64
  difficulties : List Nat
  lastCumDiff : Nat
  driftStartHeight : Nat := 0
  newCumulativeDifficulties : List Nat := []
  /-- History only: every `recalculated_diff` so far. -/
  recalculatedDiffs : List Nat := []

/-- Dropping the oldest entry of a window that has grown by one; `none` when it throws. -/
def dropOldest {α : Type} (l : List α) : Option (List α) :=
  if l.length > difficultyBlocksCount then
    if l.length = difficultyBlocksCount + 1 then some l.tail else none
  else some l

/-- One height of the loop; `none` when it throws. -/
def Recalculation.step (A : DifficultyAlgorithm) (hf : HardFork) (height : Nat) (e : MainEntry)
    (r : Recalculation) : Option Recalculation := do
  let target := if hf.getIdealVersion height < 2 then difficultyTargetV1 else difficultyTargetV2
  let recalculatedDiff := A.nextDifficulty r.timestamps r.difficulties target
  let recalculatedCumDiff := recalculatedDiff + r.lastCumDiff
  -- "Difficulty overflow!"
  if recalculatedCumDiff > 2 ^ 128 - 1 then none
  let driftStartHeight :=
    if r.driftStartHeight = 0 ∧ recalculatedCumDiff ≠ e.cumulativeDifficulty then height
    else r.driftStartHeight
  let timestamps ← dropOldest
    (if height > 0 then r.timestamps ++ [e.block.timestamp] else r.timestamps)
  let difficulties ← dropOldest
    (if height > 0 then r.difficulties ++ [recalculatedCumDiff] else r.difficulties)
  return {
    timestamps := timestamps
    difficulties := difficulties
    lastCumDiff := recalculatedCumDiff
    driftStartHeight := driftStartHeight
    newCumulativeDifficulties :=
      if driftStartHeight > 0 then r.newCumulativeDifficulties ++ [recalculatedCumDiff]
      else r.newCumulativeDifficulties
    recalculatedDiffs := r.recalculatedDiffs ++ [recalculatedDiff] }

/-- The loop from a height on, over the blocks from there to the top. -/
def Recalculation.loop (A : DifficultyAlgorithm) (hf : HardFork) :
    Nat → List MainEntry → Recalculation → Option Recalculation
  | _, [], r => some r
  | height, e :: rest, r => do
    let r ← r.step A hf height e
    loop A hf (height + 1) rest r

/-- `correct_block_cumulative_difficulties`. -/
def BlockchainDB.correctCumulativeDifficulties (db : BlockchainDB) (startHeight : Nat)
    (newCumulativeDifficulties : List Nat) : BlockchainDB :=
  let corrected := List.zipWith
    (fun (e : MainEntry) cumulative => { e with cumulativeDifficulty := cumulative })
    (db.blocks.drop startHeight) newCumulativeDifficulties
  { db with blocks := db.blocks.take startHeight ++ corrected }

/-- The blocks below the start that the recalculation begins with. -/
def recalculationWindow (blocks : List MainEntry) (startHeight : Nat) : List MainEntry :=
  if startHeight > 1 then SlidingWindow.gather blocks difficultyBlocksCount (startHeight - 1) else []

/-- `recalculate_difficulties` from a height of the chain or the one above its top, without
    a fixed difficulty; `none` when it throws. The result of the source is the number of new
    cumulative difficulties. -/
def DifficultyNode.recalculateDifficulties (A : DifficultyAlgorithm) (startHeight : Nat)
    (n : DifficultyNode) : Option (Recalculation × DifficultyNode) := do
  if n.db.height = 0 ∨ n.db.height < startHeight then none
  let window := recalculationWindow n.db.blocks startHeight
  let difficulties := window.map (·.cumulativeDifficulty)
  let r ← Recalculation.loop A n.hardFork.hf startHeight (n.db.blocks.drop startHeight)
    { timestamps := window.map (·.block.timestamp)
      difficulties := difficulties
      lastCumDiff := if startHeight ≤ 1 then startHeight else difficulties.getLastD 0 }
  if r.driftStartHeight > 0 then
    return (r, { n with
      db := n.db.correctCumulativeDifficulties r.driftStartHeight r.newCumulativeDifficulties
      difficultyForNextBlockTopHash := nullHash
      timestampsAndDifficultiesHeight := 0 })
  else return (r, n)

/-! ## The node -/

/-- What the node is asked to do. -/
inductive DifficultyCall where
  | addNewBlock (b : Block) (E : Env) (fuel : Nat)
  | popBlocks (k : Nat)
  /-- `get_difficulty_for_next_block` from outside, as by an information request. -/
  | getDifficultyForNextBlock
  /-- `cleanup_handle_incoming_blocks` after a successful batch. -/
  | cleanup

/-- The blocks a call submits. -/
def DifficultyCall.submitted : DifficultyCall → List Block
  | .addNewBlock b _ _ => [b]
  | _ => []

namespace DifficultyNode

/-- `cleanup_handle_incoming_blocks`, as far as the caches go. -/
def cleanup (n : DifficultyNode) : DifficultyNode :=
  if n.resetTimestampsAndDifficultiesHeight then
    { n with timestampsAndDifficultiesHeight := 0, resetTimestampsAndDifficultiesHeight := false }
  else n

/-- One call. -/
def step (A : DifficultyAlgorithm) (C : Content) (n : DifficultyNode) :
    DifficultyCall → Except Fault DifficultyNode
  | .addNewBlock b E fuel => do
    let (_, n) ← n.addNewBlock A C E fuel b
    return n
  | .popBlocks k => n.popBlocks k
  | .getDifficultyForNextBlock => do
    let (_, n) ← n.getDifficultyForNextBlock A C
    return n
  | .cleanup => .ok n.cleanup

/-- A run from an empty database: `HardFork::init`, and then any calls. -/
def run (A : DifficultyAlgorithm) (C : Content) (calls : List DifficultyCall) :
    Except Fault DifficultyNode := do
  let hardFork ← HardForkNode.step { hf := xrlHardFork, db := {} } .init
  calls.foldlM (step A C) { hardFork := hardFork }

end DifficultyNode

end RandomLite.Monero
