-- SUMMARY: The hard-fork object of the production node (`cryptonote_basic/hardfork.cpp`) on the database it reads and writes.
import Mathlib.Data.List.Basic
import RandomLite.Library.Histogram

/-!
# Hard forks

`HardFork` keeps the table of forks, a rolling window of block votes with its
counters, and the index of the fork in force. Everything that would be undefined or
throw in the source (taking the end of an empty queue, counting below zero, an
index outside the table, a missing database entry) is a `Fault` here. Heights are
natural numbers.
-/

namespace RandomLite.Monero

/-! ## Blocks and the database -/

/-- The two version fields of a block. -/
structure BlockVersions where
  majorVersion : UInt8 := 0
  minorVersion : UInt8 := 0
  deriving DecidableEq, Repr

/-- `get_block_vote`: a minor version of zero counts as one. -/
def getBlockVote (b : BlockVersions) : UInt8 := if b.minorVersion = 0 then 1 else b.minorVersion

/-- `get_block_version`. -/
def getBlockVersion (b : BlockVersions) : UInt8 := b.majorVersion

/-- What the hard-fork object uses of the database. Popping a block leaves its
    entry in `hfVersions`. -/
structure VersionDB where
  blocks : List BlockVersions := []
  hfVersions : Nat → Option UInt8 := fun _ => none

/-- What the source leaves undefined or throws at. -/
inductive Fault where
  | endOfEmptyQueue
  | counterBelowZero
  | noForkAtIndex
  | noVersionRecorded (height : Nat)
  | noBlocksToPop
  | endlessLoop
  deriving DecidableEq, Repr

namespace VersionDB

def height (db : VersionDB) : Nat := db.blocks.length

def setHardForkVersion (db : VersionDB) (height : Nat) (version : UInt8) : VersionDB :=
  { db with hfVersions := Function.update db.hfVersions height (some version) }

def getHardForkVersion (db : VersionDB) (height : Nat) : Except Fault UInt8 :=
  match db.hfVersions height with
  | some version => .ok version
  | none => .error (.noVersionRecorded height)

/-- Appending a block, less the call of the hard-fork object. -/
def addBlock (db : VersionDB) (b : BlockVersions) : VersionDB := { db with blocks := db.blocks ++ [b] }

/-- Removing the last `k` blocks. -/
def popBlocks (db : VersionDB) (k : Nat) : VersionDB :=
  { db with blocks := db.blocks.take (db.blocks.length - k) }

end VersionDB

/-! ## The object -/

/-- `hardfork_t`. -/
structure HardforkT where
  version : UInt8
  height : Nat
  threshold : UInt8
  time : Int
  deriving DecidableEq, Repr

/-- `HardFork`, less the times that only `get_state` reads. -/
structure HardFork where
  windowSize : Nat := 10080
  originalVersion : UInt8 := 1
  heights : List HardforkT := []
  versions : List UInt8 := []
  lastVersions : UInt8 → UInt32 := fun _ => 0
  currentForkIndex : Nat := 0

namespace HardFork

/-- `add_fork`: the result, and the object with the fork appended if it is in order. -/
def addFork (hf : HardFork) (version : UInt8) (height : Nat) (threshold : UInt8) (time : Int) :
    Bool × HardFork :=
  if version = 0 then (false, hf)
  -- Versions, heights and times all rise from one fork to the next.
  else if hf.heights.getLast?.any fun f =>
      decide (version ≤ f.version) || decide (height ≤ f.height) || decide (time ≤ f.time) then
    (false, hf)
  else if threshold > 100 then (false, hf)
  else (true, { hf with heights := hf.heights ++
    [{ version := version, height := height, threshold := threshold, time := time }] })

/-- `get_effective_version`. -/
def getEffectiveVersion (hf : HardFork) (votingVersion : UInt8) : UInt8 :=
  match hf.heights.getLast? with
  | some f => if votingVersion > f.version then f.version else votingVersion
  | none => votingVersion

/-- `heights[i].version`. -/
def forkVersion (hf : HardFork) (i : Nat) : Except Fault UInt8 :=
  match hf.heights[i]? with
  | some f => .ok f.version
  | none => .error .noForkAtIndex

/-- `get_current_version`. -/
def getCurrentVersion (hf : HardFork) : Except Fault UInt8 := hf.forkVersion hf.currentForkIndex

/-- The number of votes a fork needs. -/
def voteThreshold (hf : HardFork) (f : HardforkT) : UInt32 :=
  UInt32.ofNat ((hf.windowSize * f.threshold.toNat + 99) / 100)

/-- The loop of `get_voted_fork_index`, from the last of `n` forks down. -/
def votedLoop (hf : HardFork) (height : Nat) : Nat → UInt32 → Option Nat
  | 0, _ => none
  | n + 1, accumulatedVotes =>
    match hf.heights[n]? with
    | none => none
    | some f =>
      -- A vote for a later fork is one for this as well.
      let accumulatedVotes := accumulatedVotes + hf.lastVersions f.version
      if height ≥ f.height ∧ accumulatedVotes ≥ hf.voteThreshold f then some n
      else votedLoop hf height n accumulatedVotes

/-- `get_voted_fork_index`. -/
def getVotedForkIndex (hf : HardFork) (height : Nat) : Nat :=
  (hf.votedLoop height hf.heights.length 0).getD hf.currentForkIndex

/-- `get_ideal_version(height)`: the loop from fork `n` down. -/
def idealLoop (hf : HardFork) (height : Nat) : Nat → UInt8
  | 0 => hf.originalVersion
  | n + 1 =>
    match hf.heights[n + 1]? with
    | some f => if height ≥ f.height then f.version else idealLoop hf height n
    | none => idealLoop hf height n

def getIdealVersion (hf : HardFork) (height : Nat) : UInt8 :=
  hf.idealLoop height (hf.heights.length - 1)

/-- `do_check` against the version of a fork. -/
def doCheck (hf : HardFork) (i : Nat) (blockVersion votingVersion : UInt8) : Except Fault Bool := do
  let version ← hf.forkVersion i
  return blockVersion == version && decide (votingVersion ≥ version)

/-- `check`. -/
def check (hf : HardFork) (b : BlockVersions) : Except Fault Bool :=
  hf.doCheck hf.currentForkIndex (getBlockVersion b) (getBlockVote b)

/-- `check_for_height`. -/
def checkForHeight (hf : HardFork) (b : BlockVersions) (height : Nat) : Except Fault Bool :=
  hf.doCheck (hf.getVotedForkIndex height) (getBlockVersion b) (getBlockVote b)

/-! ## The rolling window -/

/-- Counting a version down; the source asserts that there is one. -/
def takeVersion (lastVersions : UInt8 → UInt32) (v : UInt8) : Except Fault (UInt8 → UInt32) :=
  match countDown lastVersions v with
  | some lastVersions => .ok lastVersions
  | none => .error .counterBelowZero

/-- `last_versions[v]++; versions.push_back(v)`. -/
def pushVersion (hf : HardFork) (v : UInt8) : HardFork :=
  { hf with versions := hf.versions ++ [v], lastVersions := countUp hf.lastVersions v }

/-- The loop of `add` that makes room in the window. -/
def makeRoom (windowSize : Nat) :
    List UInt8 → (UInt8 → UInt32) → Except Fault (List UInt8 × (UInt8 → UInt32))
  | [], lastVersions => if 0 ≥ windowSize then .error .endOfEmptyQueue else .ok ([], lastVersions)
  | oldVersion :: versions, lastVersions =>
    if (oldVersion :: versions).length ≥ windowSize then do
      let lastVersions ← takeVersion lastVersions oldVersion
      makeRoom windowSize versions lastVersions
    else .ok (oldVersion :: versions, lastVersions)

/-- A fork the votes have brought in replaces the current one when it is later. -/
def raiseTo (hf : HardFork) (voted : Nat) : HardFork :=
  -- The source keeps the index it compares in eight bits.
  if voted % 256 > hf.currentForkIndex then { hf with currentForkIndex := voted % 256 } else hf

/-- `add`. -/
def add (hf : HardFork) (db : VersionDB) (b : BlockVersions) (height : Nat) :
    Except Fault (Bool × HardFork × VersionDB) := do
  if !(← hf.doCheck hf.currentForkIndex (getBlockVersion b) (getBlockVote b)) then
    return (false, hf, db)
  let db := db.setHardForkVersion height (← hf.getCurrentVersion)
  -- The vote is capped at the last fork known, so that later versions count for it.
  let votingVersion := hf.getEffectiveVersion (getBlockVote b)
  let (versions, lastVersions) ← makeRoom hf.windowSize hf.versions hf.lastVersions
  let hf := { hf with versions := versions, lastVersions := lastVersions }.pushVersion votingVersion
  return (true, hf.raiseTo (hf.getVotedForkIndex (height + 1)), db)

/-- The window over some blocks, counted afresh. -/
def recount (hf : HardFork) (blocks : List BlockVersions) : HardFork :=
  blocks.foldl (fun hf b => hf.pushVersion (hf.getEffectiveVersion (getBlockVote b)))
    { hf with versions := [], lastVersions := fun _ => 0 }

/-! ## Rescanning, reorganising, popping -/

/-- The first fork of a version, or the last fork. -/
def forkOfVersion (version : UInt8) : List HardforkT → Nat
  | [] => 0
  | [_] => 0
  | f :: g :: fs => if f.version ≠ version then forkOfVersion version (g :: fs) + 1 else 0

/-- `rescan_from_block_height`. -/
def rescanFromBlockHeight (hf : HardFork) (db : VersionDB) (height : Nat) :
    Except Fault (Bool × HardFork) := do
  if height ≥ db.height then return (false, hf)
  let hf := hf.recount (db.blocks.drop height)
  -- The database says which fork was current, and votes can only raise it.
  let lastv ← db.getHardForkVersion (db.height - 1)
  let hf := { hf with currentForkIndex := forkOfVersion lastv hf.heights }
  return (true, hf.raiseTo (hf.getVotedForkIndex db.height))

/-- `rescan_from_chain_height`. -/
def rescanFromChainHeight (hf : HardFork) (db : VersionDB) (height : Nat) :
    Except Fault (Bool × HardFork) :=
  if height = 0 then .ok (false, hf) else hf.rescanFromBlockHeight db (height - 1)

/-- `init`. -/
def init (hf : HardFork) (db : VersionDB) : Except Fault HardFork := do
  let heights := if hf.heights.isEmpty then
    [{ version := hf.originalVersion, height := 0, threshold := 0, time := 0 }] else hf.heights
  let hf := { hf with heights := heights, versions := [], lastVersions := fun _ => 0,
                      currentForkIndex := 0 }
  let height := if db.height > hf.windowSize then db.height - (hf.windowSize - 1) else 1
  let (_, hf) ← hf.rescanFromChainHeight db height
  return hf

/-- The loop of `reorganize_from_block_height` that goes back to a version. -/
def lowerTo (hf : HardFork) (startVersion : UInt8) : Nat → Except Fault Nat
  | 0 => .ok 0
  | i + 1 => do
    if (← hf.forkVersion (i + 1)) > startVersion then lowerTo hf startVersion i else return i + 1

/-- The loop that adds the blocks above the height of the reorganisation again; the
    results of `add` are not looked at. -/
def addLoop (hf : HardFork) (db : VersionDB) :
    Nat → List BlockVersions → Except Fault (HardFork × VersionDB)
  | _, [] => .ok (hf, db)
  | height, b :: blocks => do
    let (_, hf, db) ← hf.add db b height
    addLoop hf db (height + 1) blocks

/-- `start_version` of the reorganisation. -/
def startVersion (hf : HardFork) (db : VersionDB) (height : Nat) : Except Fault UInt8 :=
  if height = 0 then .ok hf.originalVersion else db.getHardForkVersion height

/-- `reorganize_from_block_height`. -/
def reorganizeFromBlockHeight (hf : HardFork) (db : VersionDB) (height : Nat) :
    Except Fault (Bool × HardFork × VersionDB) := do
  if height ≥ db.height then return (false, hf, db)
  let rescanHeight := height - (hf.windowSize - 1)
  let startVersion ← hf.startVersion db height
  let i ← hf.lowerTo startVersion hf.currentForkIndex
  let hf := { hf with currentForkIndex := i }.recount ((db.blocks.take (height + 1)).drop rescanHeight)
  let hf := hf.raiseTo (hf.getVotedForkIndex (height + 1))
  let (hf, db) ← hf.addLoop db (height + 1) (db.blocks.drop (height + 1))
  return (true, hf, db)

/-- `reorganize_from_chain_height`. -/
def reorganizeFromChainHeight (hf : HardFork) (db : VersionDB) (height : Nat) :
    Except Fault (Bool × HardFork × VersionDB) :=
  if height = 0 then .ok (false, hf, db) else hf.reorganizeFromBlockHeight db (height - 1)

/-- The loop of `on_block_popped` over `k` heights, from the top down to `newChainHeight`:
    the newest vote leaves the window and the version of the popped block enters at
    its old end. -/
def popLoop (hf : HardFork) (db : VersionDB) (newChainHeight : Nat) : Nat → Except Fault HardFork
  | 0 => .ok hf
  | k + 1 => do
    match hf.versions.getLast? with
    | none => .error .endOfEmptyQueue
    | some version =>
      let lastVersions ← takeVersion hf.lastVersions version
      -- What enters is the version of the fork at that height, and not the vote of a block.
      let version ← db.getHardForkVersion (newChainHeight + k)
      let hf := { hf with versions := version :: hf.versions.dropLast,
                          lastVersions := countUp lastVersions version }
      popLoop hf db newChainHeight k

/-- The last fork whose height has been reached, or the first fork. -/
def forkAtHeight (heights : List HardforkT) (height : Nat) : Nat → Nat
  | 0 => 0
  | i + 1 =>
    match heights[i + 1]? with
    | some f => if height ≥ f.height then i + 1 else forkAtHeight heights height i
    | none => forkAtHeight heights height i

/-- `on_block_popped`, on the database after the pop. At height zero the loop over the
    heights would not end. -/
def onBlockPopped (hf : HardFork) (db : VersionDB) (nblocks : Nat) : Except Fault HardFork := do
  if nblocks = 0 then .error .noBlocksToPop
  else if db.height = 0 then .error .endlessLoop
  else
    let hf ← hf.popLoop db db.height nblocks
    return { hf with currentForkIndex := forkAtHeight hf.heights db.height (hf.heights.length - 1) }

end HardFork

/-! ## The table -/

def xrlForkTime : Int := 1756944000

/-- `mainnet_hard_forks`; the tables of the other two networks are the same. -/
def mainnetHardForks : List HardforkT :=
  [{ version := 1, height := 1, threshold := 0, time := xrlForkTime },
   { version := 16, height := 2, threshold := 0, time := xrlForkTime + 1 }]

/-- The object as `Blockchain::init` builds it, before it calls `init`. -/
def xrlHardFork : HardFork :=
  mainnetHardForks.foldl (fun hf f => (hf.addFork f.version f.height f.threshold f.time).2) {}

/-- No fork of the table is refused. -/
theorem xrlHardFork_heights : xrlHardFork.heights = mainnetHardForks := by
  decide

end RandomLite.Monero
