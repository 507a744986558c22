-- SUMMARY: How two nodes find where their chains split: the short history, the supplement, and the check of a chain entry.
import RandomLite.Library.Bytes
import RandomLite.Monero.BlockchainRuns
import RandomLite.Monero.PruningStripes

/-!
# Chain synchronisation

A node asks a peer for a chain with a short history of its own: its last blocks, then ever
fewer, and genesis. The peer looks up the first of these it has and lists the blocks from
there on, up to where its pruned blocks start. The node checks what it is sent before it asks
for the blocks themselves.
-/

namespace RandomLite.Monero

/-- `BLOCKS_IDS_SYNCHRONIZING_DEFAULT_COUNT` -/
def blocksIdsSynchronizingDefaultCount : Nat := 10000

/-- `HASH_OF_HASHES_STEP` -/
def hashOfHashesStep : Nat := 512

/-- The loop of `get_short_chain_history` over a chain of `sz` blocks: the heights listed, and
whether genesis is among them. -/
def shortHistoryLoop (sz : Nat) :
    (fuel i currentMultiplier currentBackOffset : Nat) → (genesisIncluded : Bool) → List Nat × Bool
  | 0, _, _, _, genesisIncluded => ([], genesisIncluded)
  | fuel + 1, i, currentMultiplier, currentBackOffset, genesisIncluded =>
    if currentBackOffset < sz then
      let genesisIncluded := genesisIncluded || decide (sz - currentBackOffset = 0)
      let rest :=
        if i < 10 then
          shortHistoryLoop sz fuel (i + 1) currentMultiplier (currentBackOffset + 1)
            genesisIncluded
        else
          shortHistoryLoop sz fuel (i + 1) (currentMultiplier * 2)
            (currentBackOffset + currentMultiplier * 2) genesisIncluded
      ((sz - currentBackOffset) :: rest.1, rest.2)
    else ([], genesisIncluded)

/-- The heights that `get_short_chain_history` lists. -/
def shortHistoryHeights (sz : Nat) : List Nat :=
  if sz = 0 then []
  else
    let listed := shortHistoryLoop sz sz 0 1 1 false
    if listed.2 then listed.1 else listed.1 ++ [0]

/-- `get_short_chain_history`, with the current height. -/
def getShortChainHistory (ids : List Hash) : List Hash × Nat :=
  ((shortHistoryHeights ids.length).filterMap fun height => ids[height]?, ids.length)

/-! ## The supplement -/

/-- `NOTIFY_RESPONSE_CHAIN_ENTRY::request` -/
structure ChainEntry where
  startHeight : Nat
  totalHeight : Nat
  blockIds : List Hash
  blockWeights : List Nat
  deriving DecidableEq, Repr

/-- `find_blockchain_supplement`: the height of the first listed block that is on the chain. -/
def findSplitHeight (ids qblockIds : List Hash) : Option Nat :=
  match qblockIds.getLast? with
  | none => none
  | some genesis =>
    if ids[0]? ≠ some genesis then none
    else
      match qblockIds.find? ids.contains with
      | some id => some (ids.idxOf id)
      | none => none

/-- `find_blockchain_supplement`, of a node with these main-chain blocks and weights. -/
def findBlockchainSupplement (ids : List Hash) (weights : List Nat) (pruningSeed : Nat)
    (qblockIds : List Hash) (clipPruned : Bool) : Option ChainEntry :=
  match findSplitHeight ids qblockIds with
  | none => none
  | some startHeight =>
    let currentHeight := ids.length
    let stop :=
      if clipPruned then
        if startHeight < getNextUnprunedBlockHeight startHeight currentHeight pruningSeed then none
        else getNextPrunedBlockHeight startHeight currentHeight pruningSeed
      else some currentHeight
    match stop with
    | none => none
    | some stopHeight =>
      let count := min (stopHeight - startHeight) blocksIdsSynchronizingDefaultCount
      some
        { startHeight
          totalHeight := currentHeight
          blockIds := (ids.drop startHeight).take count
          blockWeights := (weights.drop startHeight).take count }

/-! ## The node that asks -/

namespace BlockchainDB

/-- The hashes of the main chain. -/
def blockIds (C : Content) (s : BlockchainDB) : List Hash :=
  s.blocks.map fun e => C.getBlockHash e.block

end BlockchainDB

/-- The node that checks an entry: its stores with the weights of its blocks, the blocks it holds
invalid (`m_invalid_blocks`), the heights of the blocks it has downloaded (`m_block_queue`), and
the hashes that were built in: of whole groups of blocks and of their weights
(`m_blocks_hash_of_hashes`), and of single blocks as far as groups were checked
(`m_blocks_hash_check`). -/
structure SyncNode where
  C : Content
  cnFastHash : List UInt8 → Hash
  db : BlockchainDB
  blockWeight : Nat → Nat
  isInvalid : Hash → Bool
  queueHeight : Hash → Option Nat
  blocksHashOfHashes : List (Hash × Hash) := []
  blocksHashCheck : List (Hash × Nat) := []

namespace SyncNode

/-! ### Built-in hashes -/

/-- What is known of the single blocks from `height` on does not contradict the group. -/
def consistent (n : SyncNode) (weighed : Bool) (height : Nat) (group : List Hash)
    (weights : List Nat) : Bool :=
  (List.range hashOfHashesStep).all fun i =>
    let check := n.blocksHashCheck.getD (height + i) (nullHash, 0)
    (check.1 = nullHash || check.1 = group.getD i nullHash) &&
      (!weighed || check.2 = 0 || check.2 = weights.getD i 0)

/-- The loop of `prevalidate_block_hashes` over the groups from `i` on: how many of the listed
blocks can be used, or nothing where a group is contradicted. What it notes of the single blocks
of a group, no other round of the loop reads. -/
def prevalidateGroups (n : SyncNode) (weighed : Bool) (size firstIndex : Nat)
    (dataHashes : List Hash) (dataWeights : List Nat) :
    (rounds i : Nat) → UInt64 → Option UInt64
  | 0, _, usable => some usable
  | rounds + 1, i, usable =>
    match n.blocksHashOfHashes[i]? with
    | some (hashes, weights) =>
      let offset := (i - firstIndex) * hashOfHashesStep
      let group := (dataHashes.drop offset).take hashOfHashesStep
      let groupWeights := (dataWeights.drop offset).take hashOfHashesStep
      -- If the last group is not fully filled, nobody can tell.
      if dataHashes.length < offset + hashOfHashesStep then some usable
      else if n.cnFastHash (group.flatMap fun hash => hash.toList) ≠ hashes then some usable
      else if weighed && n.cnFastHash (groupWeights.flatMap (leBytes 8)) ≠ weights then some usable
      else if !n.consistent weighed (i * hashOfHashesStep) group groupWeights then none
      else
        n.prevalidateGroups weighed size firstIndex dataHashes dataWeights rounds (i + 1)
          (usable + UInt64.ofNat hashOfHashesStep)
    | none =>
      -- After the end of the built-in hashes anything is accepted.
      n.prevalidateGroups weighed size firstIndex dataHashes dataWeights rounds (i + 1)
        (min (usable + UInt64.ofNat hashOfHashesStep) (UInt64.ofNat size))

/-- `prevalidate_block_hashes`: how many of the listed blocks the built-in hashes let through. -/
def prevalidate (n : SyncNode) (height : Nat) (hashes : List Hash) (weights : List Nat) : Nat :=
  if weights ≠ [] ∧ weights.length ≠ hashes.length then 0
  else if height ≥ n.blocksHashOfHashes.length * hashOfHashesStep then hashes.length
  else if n.blocksHashCheck = [] then hashes.length
  else
    let firstIndex := height / hashOfHashesStep
    let lastIndex := (height + hashes.length - 1) / hashOfHashesStep
    if firstIndex = lastIndex ∧ hashes.length < hashOfHashesStep ∧
        (height + hashes.length) % hashOfHashesStep ≠ 0 then hashes.length
    else
      -- The first group may begin in the chain; where the list begins beyond the chain, its
      -- first blocks are passed over up to the next group.
      let skip := decide (height > n.db.height) && decide (height % hashOfHashesStep ≠ 0)
      let firstIndex := if skip then firstIndex + 1 else firstIndex
      let pop := if skip then hashOfHashesStep - height % hashOfHashesStep else 0
      let below := if skip then []
        else List.range' (firstIndex * hashOfHashesStep) (height - firstIndex * hashOfHashesStep)
      let ids := n.db.blockIds n.C
      let dataHashes := below.map (fun h => ids.getD h nullHash) ++ hashes.drop pop
      let dataWeights := below.map n.blockWeight ++ weights.drop pop
      -- The number may start negative; as a word it comes back with the first group.
      let usable := UInt64.ofNat (firstIndex * hashOfHashesStep) - UInt64.ofNat height
      match n.prevalidateGroups (!weights.isEmpty) hashes.length firstIndex dataHashes dataWeights
          (lastIndex + 1 - firstIndex) firstIndex usable with
      | some usable => if usable.toNat < (2 ^ 64 - 1) / 2 then usable.toNat else 0
      | none => 0

/-! ### The check of an entry -/

end SyncNode

end RandomLite.Monero
