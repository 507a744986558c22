-- SUMMARY: The transaction tables of the pruned database (`lmdb/db_lmdb.cpp`): adding and removing blocks, and the pruning pass.
import Mathlib.Tactic.Linarith
import RandomLite.Library.Machine
import RandomLite.Monero.PruningStripes

/-!
# Pruned database

A transaction is stored in two parts, under a number counted up as it is added. Once the
chain is pruned, the numbers of new transactions are kept in a table of their own until they
leave the tip. A pruning pass goes over that table, or over all transactions, and deletes the
prunable parts of the blocks that the node does not keep. It commits at checkpoints, so a
crash leaves part of its work. Outputs, key images and prunable hashes have no part in it: that
their tables, or that of the blocks, refuse a block is an answer that comes with it.
-/

namespace RandomLite.Monero

/-! ## Tables -/

/-- What the tables keep of a transaction. -/
structure TxData (K : Type) where
  hash : K
  version : Nat
  /-- The blob up to the prunable part; it starts with the version. -/
  prunedBlob : List UInt8
  prunableBlob : List UInt8
  deriving DecidableEq

/-- `tx_data_t` -/
structure TxIndexData where
  txId : Nat
  blockId : Nat
  deriving DecidableEq

/-- The order of the hashes is that of the table (`compare_hash32`). -/
structure PruningDB (K : Type) [Ord K] where
  /-- `pruning_seed` of the properties. -/
  pruningSeed : Option Nat := none
  /-- The hashes of each block's transactions, that of the miner first. -/
  blocks : List (List K) := []
  txIndices : Std.TreeMap K TxIndexData := {}
  txsPruned : Std.TreeMap Nat (Nat × List UInt8) := {}
  txsPrunable : Std.TreeMap Nat (List UInt8) := {}
  txsPrunableTip : Std.TreeMap Nat Nat := {}

/-- Why `add_block` fails beside the tables of transactions. -/
inductive BlockRefusal where
  /-- "Inconsistent tx/hashes sizes" -/
  | inconsistentSizes
  /-- "Unexpected input type, aborting" -/
  | unexpectedInput
  /-- `KEY_IMAGE_EXISTS`: "Attempting to add spent key image that's already in the db" -/
  | keyImageExists
  /-- `BLOCK_EXISTS`: "Attempting to add block that's already in the db" -/
  | blockExists
  /-- "Failed to get top block hash to check for new block's parent: " -/
  | parentNotFound
  /-- `BLOCK_PARENT_DNE`: "Top block is not new block's parent" -/
  | blockParentDne
  deriving DecidableEq, Repr

/-- What the database throws. -/
inductive DbError where
  /-- `TX_EXISTS`: "Attempting to add transaction that's already in the db (tx id …)" -/
  | txExists (txId : Nat)
  /-- `TX_DNE`: "Attempting to remove transaction that isn't in the db" -/
  | txDne
  /-- `BLOCK_DNE`: "Attempting to remove block from an empty blockchain" -/
  | blockDne
  | blockRefused (why : BlockRefusal)
  | dbError (what : String)
  deriving DecidableEq, Repr

inductive PruneMode where
  | prune
  | update
  | check
  deriving DecidableEq, Repr

/-- What `prune_worker` finds wrong when it checks. -/
inductive PruneFinding where
  /-- "Transaction not found in prunable tip table for height …" -/
  | notInTipTable (blockHeight : Nat)
  /-- "Prunable data found for pruned height …" -/
  | prunableFound (blockHeight : Nat)
  /-- "Prunable data not found for unpruned height …" -/
  | prunableMissing (blockHeight : Nat)
  deriving DecidableEq, Repr

namespace PruningDB

variable {K : Type} [Ord K]

def getBlockchainPruningSeed (db : PruningDB K) : Nat := db.pruningSeed.getD 0

/-- `MDB_APPEND` takes a key past the last one only. -/
def appendable {V : Type} (t : Std.TreeMap Nat V) (k : Nat) : Bool :=
  match t.keys.getLast? with
  | some last => last < k
  | none => true

def addTransactionData (db : PruningDB K) (tx : TxData K) : Except DbError (PruningDB K) :=
  let height := db.blocks.length
  -- `get_tx_count`
  let txId := db.txsPruned.size
  match db.txIndices[tx.hash]? with
  | some tip => .error (.txExists tip.txId)
  | none =>
    if ¬ appendable db.txsPruned txId then
      .error (.dbError "Failed to add pruned tx blob to db transaction: ")
    else if ¬ appendable db.txsPrunable txId then
      .error (.dbError "Failed to add prunable tx blob to db transaction: ")
    else
      .ok { db with
        txIndices := db.txIndices.insert tx.hash { txId, blockId := height }
        txsPruned := db.txsPruned.insert txId (tx.version, tx.prunedBlob)
        txsPrunable := db.txsPrunable.insert txId tx.prunableBlob
        txsPrunableTip :=
          if db.getBlockchainPruningSeed ≠ 0 then db.txsPrunableTip.insert txId height
          else db.txsPrunableTip }

def removeTransactionData (db : PruningDB K) (txHash : K) : Except DbError (PruningDB K) :=
  match db.txIndices[txHash]? with
  | none => .error .txDne
  | some tip =>
    if ¬ db.txsPruned.contains tip.txId then
      .error (.dbError "Failed to locate pruned tx for removal: ")
    else
      .ok { db with
        txIndices := db.txIndices.erase txHash
        txsPruned := db.txsPruned.erase tip.txId
        txsPrunable := db.txsPrunable.erase tip.txId
        txsPrunableTip := db.txsPrunableTip.erase tip.txId }

/-- `BlockchainDB::add_block`; the batch it runs in is dropped with an error. -/
def addBlock (db : PruningDB K) (txs : List (TxData K)) : Except DbError (PruningDB K) := do
  let db ← txs.foldlM addTransactionData db
  return { db with blocks := db.blocks ++ [txs.map TxData.hash] }

/-- `BlockchainDB::pop_block`: the transactions go in reverse, that of the miner last. -/
def popBlock (db : PruningDB K) : Except DbError (PruningDB K) :=
  match db.blocks.getLast? with
  | none => .error .blockDne
  | some hashes =>
    hashes.reverse.foldlM removeTransactionData { db with blocks := db.blocks.dropLast }

/-! ## Reading -/

def getTxBlob (db : PruningDB K) (h : K) : Option (List UInt8) :=
  match db.txIndices[h]? with
  | none => none
  | some tip =>
    match db.txsPruned[tip.txId]?, db.txsPrunable[tip.txId]? with
    | some pruned, some prunable => some (pruned.2 ++ prunable)
    | _, _ => none

def getPrunedTxBlob (db : PruningDB K) (h : K) : Option (List UInt8) :=
  match db.txIndices[h]? with
  | none => none
  | some tip => db.txsPruned[tip.txId]?.map Prod.snd

/-! ## The pruning pass -/

/-- `get_random_stripe`, of the random byte. -/
def getRandomStripe (random : Nat) : Nat := 1 + random % (1 <<< pruningLogStripes)

/-- The seed that `prune_worker` goes by; nothing if the chain is not pruned and is not to be. -/
def workerSeed (db : PruningDB K) (mode : PruneMode) (pruningSeed random : Nat) :
    Except DbError (Option Nat) :=
  let logStripes := getPruningLogStripes pruningSeed
  if logStripes ≠ 0 ∧ logStripes ≠ pruningLogStripes then
    .error (.dbError "Pruning seed not in range")
  else
    let stripe := getPruningStripe pruningSeed
    if stripe > 1 <<< pruningLogStripes then .error (.dbError "Pruning seed not in range")
    else
      match db.pruningSeed with
      | none =>
        if mode ≠ .prune then .ok none
        else
          let stripe := if stripe = 0 then getRandomStripe random else stripe
          match makePruningSeed stripe pruningLogStripes with
          | some seed => .ok (some seed)
          | none => .error (.dbError "stripe out of range")
      | some data =>
        let stripe := if stripe = 0 then getPruningStripe data else stripe
        if getPruningStripe data ≠ stripe then
          .error (.dbError "Blockchain already pruned with different seed")
        else if getPruningLogStripes data ≠ pruningLogStripes then
          .error (.dbError "Blockchain already pruned with different base")
        else
          match makePruningSeed stripe pruningLogStripes with
          | some seed => .ok (some seed)
          | none => .error (.dbError "stripe out of range")

/-- The tables of the pass, and those at its last commit. -/
structure PruneWork (K : Type) [Ord K] where
  tables : PruningDB K
  committed : PruningDB K
  commitCounter : Nat := 0

/-- Deletes the prunable part of a transaction in a block that is not kept. -/
def PruneWork.prunePrunable (w : PruneWork K) (blockchainHeight seed txId blockHeight : Nat) :
    Except DbError (PruneWork K) :=
  if hasUnprunedBlock blockHeight blockchainHeight seed then .ok w
  else
    match w.tables.txsPruned[txId]? with
    | none => .error (.dbError "Failed to find transaction pruned data: ")
    | some pruned =>
      -- `is_v1_tx`
      if pruned.1 ≤ 1 then .ok w
      else if w.tables.txsPrunable.contains txId then
        .ok { w with
          tables := { w.tables with txsPrunable := w.tables.txsPrunable.erase txId }
          commitCounter := w.commitCounter + 1 }
      else .ok w

/-- The commit at a checkpoint. -/
def PruneWork.checkpoint (w : PruneWork K) : PruneWork K :=
  if w.commitCounter ≥ 4096 then { w with committed := w.tables, commitCounter := 0 } else w

/-- A transaction of the tip table: out of the tip it leaves the table. -/
def pruneTipRecord (blockchainHeight seed : Nat) (w : PruneWork K) (r : Nat × Nat) :
    Except DbError (PruneWork K) :=
  if inPruningTip r.2 blockchainHeight then .ok w
  else do
    let w ← w.prunePrunable blockchainHeight seed r.1 r.2
    -- After a commit the new cursor starts over, at the transactions of the tip only.
    return PruneWork.checkpoint { w with
      tables := { w.tables with txsPrunableTip := w.tables.txsPrunableTip.erase r.1 } }

/-- A transaction of the chain: in the tip it joins the tip table. -/
def pruneIndexRecord (blockchainHeight seed : Nat) (w : PruneWork K) (r : K × TxIndexData) :
    Except DbError (PruneWork K) := do
  let tip :=
    if inPruningTip r.2.blockId blockchainHeight then
      w.tables.txsPrunableTip.insert r.2.txId r.2.blockId
    else w.tables.txsPrunableTip
  let w ← PruneWork.prunePrunable { w with tables := { w.tables with txsPrunableTip := tip } }
    blockchainHeight seed r.2.txId r.2.blockId
  return w.checkpoint

/-- Goes over records until one throws: what was not committed is then lost. -/
def forRecords {R : Type} (record : PruneWork K → R → Except DbError (PruneWork K)) :
    List R → PruneWork K → PruneWork K × Option DbError
  | [], w => (w, none)
  | r :: rs, w =>
    match record w r with
    | .ok w => forRecords record rs w
    | .error e => ({ w with tables := w.committed }, some e)

/-- The loop of `prune_worker`, over `records` records at most if the process dies there. -/
def prunePass (db : PruningDB K) (mode : PruneMode) (seed : Nat) (records : Option Nat) :
    PruneWork K × Option DbError :=
  let blockchainHeight := db.blocks.length
  let w : PruneWork K := { tables := { db with pruningSeed := some seed }, committed := db }
  let pruneTipTable := db.pruningSeed.isSome && mode = .update
  if pruneTipTable then
    let all := db.txsPrunableTip.toList
    forRecords (pruneTipRecord blockchainHeight seed) (all.take (records.getD all.length)) w
  else
    let all := db.txIndices.toList
    forRecords (pruneIndexRecord blockchainHeight seed) (all.take (records.getD all.length)) w

/-- `prune_worker` to prune or to update; `records` is given if the process dies on the way. -/
def pruneWorker (db : PruningDB K) (mode : PruneMode) (pruningSeed random : Nat)
    (records : Option Nat) : PruningDB K × Option DbError :=
  match db.workerSeed mode pruningSeed random with
  | .error e => (db, some e)
  | .ok none => (db, none)
  | .ok (some seed) =>
    let (w, error) := db.prunePass mode seed records
    match records with
    | none => (w.tables, error)
    | some _ => (w.committed, error)

/-- The checks of one transaction. -/
def checkIndexRecord (db : PruningDB K) (seed : Nat) (r : K × TxIndexData) :
    Except DbError (List PruneFinding) :=
  let blockchainHeight := db.blocks.length
  let tip :=
    if inPruningTip r.2.blockId blockchainHeight && !db.txsPrunableTip.contains r.2.txId then
      [.notInTipTable r.2.blockId]
    else []
  let missing := if db.txsPrunable.contains r.2.txId then [] else [.prunableMissing r.2.blockId]
  if hasUnprunedBlock r.2.blockId blockchainHeight seed then .ok (tip ++ missing)
  else
    match db.txsPruned[r.2.txId]? with
    | none => .error (.dbError "Failed to find transaction pruned data: ")
    | some pruned =>
      if pruned.1 ≤ 1 then .ok (tip ++ missing)
      else if db.txsPrunable.contains r.2.txId then
        .ok (tip ++ [.prunableFound r.2.blockId])
      else .ok tip

/-- `check_pruning` -/
def checkPruning (db : PruningDB K) : Except DbError (List PruneFinding) := do
  match ← db.workerSeed .check 0 0 with
  | none => return []
  | some seed =>
    let findings ← db.txIndices.toList.mapM (db.checkIndexRecord seed)
    return findings.flatten

end PruningDB

/-! ## Runs -/

/-- What is asked of the database. -/
inductive PruningCall (K : Type) where
  | addBlock (txs : List (TxData K))
  /-- A block of which these transactions are added before it is refused. -/
  | refusedBlock (txs : List (TxData K)) (why : BlockRefusal)
  | popBlock
  | pruneBlockchain (pruningSeed random : Nat)
  | updatePruning
  /-- A pass that dies after some records. -/
  | crashPruning (pruningSeed random records : Nat)
  | crashUpdate (records : Nat)
  | checkPruning

namespace PruningDB

variable {K : Type} [Ord K]

def orSame (db : PruningDB K) : Except DbError (PruningDB K) → PruningDB K × Option DbError
  | .ok db' => (db', none)
  | .error e => (db, some e)

def call (db : PruningDB K) : PruningCall K → PruningDB K × Option DbError
  | .addBlock txs => db.orSame (db.addBlock txs)
  | .refusedBlock txs why =>
    -- A transaction that is there already is found first.
    match txs.foldlM addTransactionData db with
    | .ok _ => (db, some (.blockRefused why))
    | .error e => (db, some e)
  | .popBlock => db.orSame db.popBlock
  | .pruneBlockchain pruningSeed random => db.pruneWorker .prune pruningSeed random none
  | .updatePruning => db.pruneWorker .update 0 0 none
  | .crashPruning pruningSeed random records =>
    db.pruneWorker .prune pruningSeed random (some records)
  | .crashUpdate records => db.pruneWorker .update 0 0 (some records)
  | .checkPruning =>
    match db.checkPruning with
    | .ok _ => (db, none)
    | .error e => (db, some e)

end PruningDB

end RandomLite.Monero
