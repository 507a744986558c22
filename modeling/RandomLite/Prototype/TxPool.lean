-- SUMMARY: The memory pool (`cryptonote_core/tx_pool.cpp`).
import Mathlib.Data.List.Sort
import RandomLite.Prototype.CryptonoteBasic

/-!
# Memory pool

`TxMemoryPool`: admission with its five rejections, removal by hash, and the
greedy block template. `std::sort` promises an ordered permutation and nothing
about ties, so the pool is read over any sorting function with that contract.
-/

namespace RandomLite

structure TxPoolEntry where
  tx : Transaction := {}
  fee : UInt64 := 0
  receiveTime : UInt64 := 0
  blobSize : UInt64 := 0
  deriving DecidableEq, Repr

/-- What `std::sort` promises for the pool's comparison `a.fee > b.fee`. -/
structure SortByFee where
  sort : List TxPoolEntry → List TxPoolEntry
  perm : ∀ l, (sort l).Perm l
  sorted : ∀ l, (sort l).Pairwise fun a b => b.fee ≤ a.fee

/-- A sorting function that keeps the order of ties. -/
def SortByFee.stable : SortByFee where
  sort := List.insertionSort fun a b => b.fee ≤ a.fee
  perm := List.perm_insertionSort _
  sorted l := by
    have : Std.Total (fun a b : TxPoolEntry => b.fee ≤ a.fee) :=
      ⟨fun a b => UInt64.le_total b.fee a.fee⟩
    have : IsTrans TxPoolEntry fun a b => b.fee ≤ a.fee :=
      ⟨fun _ _ _ hab hbc => UInt64.le_trans hbc hab⟩
    exact List.pairwise_insertionSort _ l

structure TxMemoryPool where
  mempool : List TxPoolEntry := []
  deriving DecidableEq, Repr

namespace TxMemoryPool

/-- The loop of `add_tx` over the inputs of the new transaction: the first reason
    to reject one, if any. -/
def checkInputs (mempool : List TxPoolEntry) : List TxinToKey → Option String
  | [] => none
  | i :: rest =>
    if i.keyOffsets.length ≠ cryptonoteMinimumMixinV3 + 1 then
      some "Ring size must be exactly 16"
    else if mempool.any fun entry => entry.tx.vin.any fun existing => existing.kImage == i.kImage then
      some "Key image is already present in the mempool"
    else checkInputs mempool rest

/-- The first reason `add_tx` has to reject a transaction, if any. -/
def rejection (pool : TxMemoryPool) (tx : Transaction) : Option String :=
  if tx.vin.isEmpty || tx.vout.isEmpty then
    some "Transaction must contain inputs and outputs"
  else if tx.rctSignatures.type ≠ 6 || tx.rctSignatures.bulletproofPlusBytes.isEmpty
      || tx.rctSignatures.clsagSignatures.isEmpty then
    some "Transaction is missing the required RingCT proof payloads"
  else if pool.mempool.any fun entry => entry.tx.hash == tx.hash then
    some "Transaction is already in the mempool"
  else checkInputs pool.mempool tx.vin

/-- The entry `add_tx` makes of an accepted transaction. -/
def newEntry (tx : Transaction) (now : UInt64) : TxPoolEntry :=
  { tx := tx, fee := tx.rctSignatures.txnFee, receiveTime := now, blobSize := 1800 }

/-- `add_tx`: `none` is success, otherwise the `error_reason`. -/
def addTx (S : SortByFee) (pool : TxMemoryPool) (tx : Transaction) (now : UInt64) :
    Option String × TxMemoryPool :=
  match pool.rejection tx with
  | some reason => (some reason, pool)
  | none => (none, { mempool := S.sort (pool.mempool ++ [newEntry tx now]) })

/-- `remove_txs`. -/
def removeTxs (pool : TxMemoryPool) (txHashes : List CryptoHash) : TxMemoryPool :=
  { mempool := pool.mempool.filter fun entry => !txHashes.contains entry.tx.hash }

/-- The loop of `get_block_template_txs`, stopping at the first entry that does not fit. -/
def templateLoop (maxBytes : UInt64) : UInt64 → List TxPoolEntry → List Transaction
  | _, [] => []
  | currentBytes, entry :: rest =>
    if currentBytes + entry.blobSize > maxBytes then []
    else entry.tx :: templateLoop maxBytes (currentBytes + entry.blobSize) rest

/-- `get_block_template_txs`. -/
def getBlockTemplateTxs (pool : TxMemoryPool) (maxBytes : UInt64) : List Transaction :=
  templateLoop maxBytes 0 pool.mempool

/-- The transactions in the pool. -/
def transactions (pool : TxMemoryPool) : List Transaction := pool.mempool.map (·.tx)

end TxMemoryPool

end RandomLite
