-- SUMMARY: Runs of the memory pool: what it holds, in which order, and when its templates are optimal.
import RandomLite.Library.Bytes
import RandomLite.Library.HeaviestPrefix
import RandomLite.Library.Machine
import RandomLite.Prototype.TxPool

/-!
# Runs of the memory pool

The pool under any sequence of `add_tx` and `remove_txs` calls. It holds the accepted
transactions whose hash was not removed since (`PoolTrace.Pooled`), sorted by fee. All
entries get the same `blob_size`, so the greedy template is a heaviest prefix as long
as the byte counter of the template loop does not wrap. It takes more than 10^16 entries
to wrap it, and no process has the memory for as many.
-/

namespace RandomLite

/-- The calls that change the pool. -/
inductive PoolCall where
  | addTx (tx : Transaction) (now : UInt64)
  | removeTxs (txHashes : List CryptoHash)

/-- The pool answers `add_tx` with its `error_reason`; `none` is success. -/
def poolMachine (S : SortByFee) : Machine TxMemoryPool PoolCall (Option String) where
  step pool
    | .addTx tx now => pool.addTx S tx now
    | .removeTxs txHashes => (none, pool.removeTxs txHashes)

/-! ## Admission -/

/-- What `add_tx` asks of a transaction on its own. -/
structure Transaction.WellFormed (tx : Transaction) : Prop where
  vin : tx.vin ≠ []
  vout : tx.vout ≠ []
  type : tx.rctSignatures.type = 6
  bulletproofPlusBytes : tx.rctSignatures.bulletproofPlusBytes ≠ []
  clsagSignatures : tx.rctSignatures.clsagSignatures ≠ []
  rings : ∀ i ∈ tx.vin, i.keyOffsets.length = cryptonoteMinimumMixinV3 + 1

/-- Two transactions that share neither their hash nor a key image. -/
structure Transaction.Apart (a b : Transaction) : Prop where
  hash : a.hash ≠ b.hash
  keyImages : a.keyImages.Disjoint b.keyImages

theorem Transaction.Apart.symm {a b : Transaction} (h : a.Apart b) : b.Apart a :=
  ⟨h.hash.symm, fun _ hb ha => h.keyImages ha hb⟩

namespace TxMemoryPool

/-- What `add_tx` asks of a transaction in the pool at hand. -/
structure Admissible (pool : TxMemoryPool) (tx : Transaction) : Prop where
  wellFormed : tx.WellFormed
  apart : ∀ t ∈ pool.transactions, t.Apart tx

theorem checkInputs_eq_none_iff (mempool : List TxPoolEntry) (vin : List TxinToKey) :
    checkInputs mempool vin = none ↔
      ∀ i ∈ vin, i.keyOffsets.length = cryptonoteMinimumMixinV3 + 1 ∧
        ∀ e ∈ mempool, i.kImage ∉ e.tx.keyImages := by
  induction vin with
  | nil => simp [checkInputs]
  | cons i rest ih =>
    rw [List.forall_mem_cons, ← ih, checkInputs]
    split
    · rename_i hring
      simp [hring]
    split
    · rename_i hring hpooled
      simp only [List.any_eq_true, beq_iff_eq] at hpooled
      obtain ⟨e, he, j, hj, hji⟩ := hpooled
      have hmem : i.kImage ∈ e.tx.keyImages := List.mem_map.mpr ⟨j, hj, hji⟩
      simp only [reduceCtorEq, false_iff]
      exact fun h => h.1.2 e he hmem
    · rename_i hring hfresh
      simp only [List.any_eq_true, beq_iff_eq, not_exists, not_and] at hfresh
      refine ⟨fun h => ⟨⟨not_not.mp hring, fun e he hmem => ?_⟩, h⟩, fun h => h.2⟩
      obtain ⟨j, hj, hji⟩ := List.mem_map.mp hmem
      exact hfresh e he j hj hji

/-- `add_tx` accepts exactly the admissible transactions. -/
theorem rejection_eq_none_iff (pool : TxMemoryPool) (tx : Transaction) :
    pool.rejection tx = none ↔ pool.Admissible tx := by
  unfold rejection
  split
  · rename_i h
    simp only [reduceCtorEq, false_iff]
    intro hadm
    simp [hadm.wellFormed.vin, hadm.wellFormed.vout] at h
  split
  · rename_i _ h
    simp only [reduceCtorEq, false_iff]
    intro hadm
    simp [hadm.wellFormed.type, hadm.wellFormed.bulletproofPlusBytes,
      hadm.wellFormed.clsagSignatures] at h
  split
  · rename_i _ _ h
    simp only [reduceCtorEq, false_iff]
    simp only [List.any_eq_true, beq_iff_eq] at h
    obtain ⟨e, he, hhash⟩ := h
    exact fun hadm => (hadm.apart e.tx (List.mem_map_of_mem he)).hash hhash
  · rename_i hlists hproofs hfresh
    rw [checkInputs_eq_none_iff]
    simp only [Bool.or_eq_true, List.isEmpty_iff, not_or, decide_eq_true_eq, not_not] at hlists hproofs
    simp only [List.any_eq_true, beq_iff_eq, not_exists, not_and] at hfresh
    constructor
    · intro h
      refine ⟨⟨hlists.1, hlists.2, hproofs.1.1, hproofs.1.2, hproofs.2, fun i hi => (h i hi).1⟩, ?_⟩
      intro t ht
      obtain ⟨e, he, rfl⟩ := List.mem_map.mp ht
      refine ⟨hfresh e he, fun k hpooled hnew => ?_⟩
      obtain ⟨i, hi, rfl⟩ := List.mem_map.mp hnew
      exact (h i hi).2 e he hpooled
    · intro hadm i hi
      refine ⟨hadm.wellFormed.rings i hi, fun e he hpooled => ?_⟩
      exact (hadm.apart e.tx (List.mem_map_of_mem he)).keyImages hpooled (List.mem_map_of_mem hi)

/-! ## One call -/

variable (S : SortByFee)

theorem addTx_of_admissible {pool : TxMemoryPool} {tx : Transaction} (h : pool.Admissible tx)
    (now : UInt64) : pool.addTx S tx now =
      (none, { mempool := S.sort (pool.mempool ++ [newEntry tx now]) }) := by
  unfold addTx
  rw [(rejection_eq_none_iff pool tx).mpr h]

/-- A rejected transaction leaves the pool as it was. -/
theorem addTx_of_rejected {pool : TxMemoryPool} {tx : Transaction} {now : UInt64}
    (h : (pool.addTx S tx now).1 ≠ none) : (pool.addTx S tx now).2 = pool := by
  unfold addTx at h ⊢
  split
  · rfl
  · rename_i hnone
    rw [hnone] at h
    exact absurd rfl h

/-- What a call to `add_tx` can do. -/
theorem addTx_cases (pool : TxMemoryPool) (tx : Transaction) (now : UInt64) :
    (∃ reason, ¬ pool.Admissible tx ∧ pool.addTx S tx now = (some reason, pool)) ∨
      pool.Admissible tx ∧
        pool.addTx S tx now = (none, { mempool := S.sort (pool.mempool ++ [newEntry tx now]) }) := by
  cases hrej : pool.rejection tx with
  | some reason =>
    refine .inl ⟨reason, ?_, by unfold addTx; rw [hrej]⟩
    rw [← rejection_eq_none_iff, hrej]
    exact Option.some_ne_none reason
  | none =>
    have hadm := (rejection_eq_none_iff pool tx).mp hrej
    exact .inr ⟨hadm, addTx_of_admissible S hadm now⟩

/-- An accepted transaction joins the pool, wherever the sort puts it. -/
theorem transactions_sort (pool : TxMemoryPool) (tx : Transaction) (now : UInt64) :
    ({ mempool := S.sort (pool.mempool ++ [newEntry tx now]) } : TxMemoryPool).transactions.Perm
      (pool.transactions ++ [tx]) := by
  have hperm := (S.perm (pool.mempool ++ [newEntry tx now])).map TxPoolEntry.tx
  rwa [List.map_append] at hperm

theorem transactions_removeTxs (pool : TxMemoryPool) (txHashes : List CryptoHash) :
    (pool.removeTxs txHashes).transactions =
      pool.transactions.filter fun tx => !txHashes.contains tx.hash := by
  unfold removeTxs transactions
  rw [List.filter_map]
  rfl

/-! ## Invariant -/

/-- What every call keeps: no two pooled transactions share a hash or a key image, an
    entry has the fee of its transaction and the flat size, and the fees fall. -/
structure Sound (pool : TxMemoryPool) : Prop where
  apart : pool.transactions.Pairwise Transaction.Apart
  fee : ∀ e ∈ pool.mempool, e.fee = e.tx.rctSignatures.txnFee
  blobSize : ∀ e ∈ pool.mempool, e.blobSize = 1800
  sorted : pool.mempool.Pairwise fun a b => b.fee ≤ a.fee

namespace Sound

theorem empty : ({} : TxMemoryPool).Sound :=
  ⟨.nil, by simp, by simp, .nil⟩

variable {pool : TxMemoryPool}

theorem removeTxs (h : pool.Sound) (txHashes : List CryptoHash) :
    (pool.removeTxs txHashes).Sound := by
  refine ⟨?_, ?_, ?_, h.sorted.filter _⟩
  · rw [transactions_removeTxs]
    exact h.apart.filter _
  · exact fun e he => h.fee e (List.mem_of_mem_filter he)
  · exact fun e he => h.blobSize e (List.mem_of_mem_filter he)

theorem insert (h : pool.Sound) {tx : Transaction} (hadm : pool.Admissible tx) (now : UInt64) :
    ({ mempool := S.sort (pool.mempool ++ [newEntry tx now]) } : TxMemoryPool).Sound := by
  have hmem : ∀ e ∈ S.sort (pool.mempool ++ [newEntry tx now]),
      e ∈ pool.mempool ∨ e = newEntry tx now := by
    intro e he
    simpa using (S.perm _).mem_iff.mp he
  refine ⟨?_, ?_, ?_, S.sorted _⟩
  · have hperm := transactions_sort S pool tx now
    rw [hperm.pairwise_iff fun h => h.symm, List.pairwise_append]
    refine ⟨h.apart, List.pairwise_singleton _ _, fun t ht u hu => ?_⟩
    rw [List.mem_singleton.mp hu]
    exact hadm.apart t ht
  · intro e he
    rcases hmem e he with hold | rfl
    · exact h.fee e hold
    · rfl
  · intro e he
    rcases hmem e he with hold | rfl
    · exact h.blobSize e hold
    · rfl

theorem step (h : pool.Sound) (c : PoolCall) : ((poolMachine S).step pool c).2.Sound := by
  cases c with
  | addTx tx now =>
    show (pool.addTx S tx now).2.Sound
    rcases addTx_cases S pool tx now with ⟨reason, -, heq⟩ | ⟨hadm, heq⟩
    · rwa [heq]
    · rw [heq]
      exact h.insert S hadm now
  | removeTxs txHashes => exact h.removeTxs txHashes

theorem run (h : pool.Sound) (calls : List PoolCall) : ((poolMachine S).final pool calls).Sound :=
  Machine.final_induction calls h fun _ c _ hs => hs.step S c

theorem hashes_nodup (h : pool.Sound) : (pool.transactions.map (·.hash)).Nodup := by
  rw [List.Nodup, List.pairwise_map]
  exact h.apart.imp fun hab => hab.hash

end Sound

end TxMemoryPool

/-! ## What the pool holds -/

/-- The calls of a run of the pool with their replies. -/
abbrev PoolTrace := List (PoolCall × Option String)

/-- `tx` was accepted at some point of the trace, and its hash was not removed since. -/
def PoolTrace.Pooled (tr : PoolTrace) (tx : Transaction) : Prop :=
  Since (fun e => ∃ now, e = (.addTx tx now, none))
    (fun e => ∀ txHashes, e.1 = .removeTxs txHashes → tx.hash ∉ txHashes) tr

namespace PoolTrace

theorem pooled_concat_addTx (tr : PoolTrace) (t tx : Transaction) (now : UInt64)
    (reply : Option String) :
    Pooled (tr ++ [(.addTx tx now, reply)]) t ↔ t = tx ∧ reply = none ∨ Pooled tr t := by
  unfold Pooled
  rw [Since.concat_iff]
  simp [eq_comm]

theorem pooled_concat_removeTxs (tr : PoolTrace) (t : Transaction) (txHashes : List CryptoHash)
    (reply : Option String) :
    Pooled (tr ++ [(.removeTxs txHashes, reply)]) t ↔ Pooled tr t ∧ t.hash ∉ txHashes := by
  unfold Pooled
  rw [Since.concat_iff]
  simp

/-- The pool holds exactly the transactions the trace says, each once (no two have the
    same hash), in non-increasing order of their fees. -/
structure Represented (tr : PoolTrace) (pool : TxMemoryPool) : Prop where
  mem_iff : ∀ tx, tx ∈ pool.transactions ↔ tr.Pooled tx
  once : (pool.transactions.map (·.hash)).Nodup
  sorted : pool.transactions.Pairwise fun a b => b.rctSignatures.txnFee ≤ a.rctSignatures.txnFee

end PoolTrace

namespace TxMemoryPool

variable (S : SortByFee)

theorem Sound.sorted_transactions {pool : TxMemoryPool} (h : pool.Sound) :
    pool.transactions.Pairwise fun a b => b.rctSignatures.txnFee ≤ a.rctSignatures.txnFee := by
  unfold transactions
  rw [List.pairwise_map]
  refine h.sorted.imp_of_mem fun ha hb hle => ?_
  rwa [← h.fee _ ha, ← h.fee _ hb]

/-- A call changes the transactions of the pool as it changes what the trace says. -/
theorem mem_step (tr : PoolTrace) {pool : TxMemoryPool}
    (h : ∀ tx, tx ∈ pool.transactions ↔ tr.Pooled tx) (c : PoolCall) (tx : Transaction) :
    tx ∈ ((poolMachine S).step pool c).2.transactions ↔
      PoolTrace.Pooled (tr ++ [(c, ((poolMachine S).step pool c).1)]) tx := by
  cases c with
  | addTx t now =>
    rw [PoolTrace.pooled_concat_addTx, ← h]
    simp only [poolMachine]
    rcases addTx_cases S pool t now with ⟨reason, -, heq⟩ | ⟨-, heq⟩
    · simp [heq]
    · rw [heq, (transactions_sort S pool t now).mem_iff]
      simp [or_comm]
  | removeTxs txHashes =>
    rw [PoolTrace.pooled_concat_removeTxs, ← h]
    simp only [poolMachine, transactions_removeTxs]
    simp

theorem represented_of_run (calls : List PoolCall) :
    PoolTrace.Represented (calls.zip ((poolMachine S).replies {} calls))
      ((poolMachine S).final {} calls) where
  mem_iff :=
    Machine.run_induction
      (I := fun tr (pool : TxMemoryPool) => ∀ tx, tx ∈ pool.transactions ↔ PoolTrace.Pooled tr tx)
      calls (fun _ => by simp [transactions, PoolTrace.Pooled]) fun tr _ c _ h => mem_step S tr h c
  once := (Sound.empty.run S calls).hashes_nodup
  sorted := (Sound.empty.run S calls).sorted_transactions

/-! ## The block template -/

/-- The template for `maxBytes` is a sub-collection of the pool without repetition,
    within the limit, and of the greatest total fee the limit allows. -/
def TemplateOptimal (pool : TxMemoryPool) (maxBytes : UInt64) : Prop :=
  ∃ chosen : List TxPoolEntry, chosen.map (·.tx) = pool.getBlockTemplateTxs maxBytes ∧
    HeaviestWithin (·.blobSize.toNat) (·.fee.toNat) maxBytes.toNat pool.mempool chosen

/-- The entries of 1800 bytes whose total a 64-bit byte counter holds. -/
@[irreducible] def countableEntries : Nat := 2 ^ 64 / 1800

theorem countableEntries_eq : countableEntries = 10248191152060862 := by
  unfold countableEntries
  rfl

/-- While the counter does not wrap, the loop takes what the limit allows. -/
theorem templateLoop_eq {maxBytes : UInt64} {entries : List TxPoolEntry}
    (hsize : ∀ e ∈ entries, e.blobSize = 1800) {currentBytes : UInt64} {j : Nat}
    (hcur : currentBytes.toNat = 1800 * j) (hj : j ≤ maxBytes.toNat / 1800)
    (hroom : maxBytes.toNat < 1800 * countableEntries ∨ j + entries.length ≤ countableEntries) :
    templateLoop maxBytes currentBytes entries =
      (entries.take (maxBytes.toNat / 1800 - j)).map (·.tx) := by
  induction entries generalizing currentBytes j with
  | nil => simp [templateLoop]
  | cons e rest ih =>
    obtain ⟨he, hrest⟩ := List.forall_mem_cons.mp hsize
    rw [countableEntries_eq, List.length_cons] at hroom
    have hnext : (currentBytes + e.blobSize).toNat = 1800 * (j + 1) := by
      rw [UInt64.toNat_add, he, hcur, show (1800 : UInt64).toNat = 1800 from rfl]
      omega
    unfold templateLoop
    split
    · rename_i hfull
      rw [gt_iff_lt, UInt64.lt_iff_toNat_lt, hnext] at hfull
      have hnone : maxBytes.toNat / 1800 - j = 0 := by omega
      simp [hnone]
    · rename_i hfits
      rw [gt_iff_lt, UInt64.lt_iff_toNat_lt, hnext] at hfits
      have hmore : maxBytes.toNat / 1800 - j = (maxBytes.toNat / 1800 - (j + 1)) + 1 := by omega
      rw [hmore, List.take_succ_cons, List.map_cons]
      refine congrArg _ (ih hrest hnext (by omega) ?_)
      rw [countableEntries_eq]
      omega

/-- Past that, the counter wraps below the limit and the loop takes one entry too many. -/
theorem lt_length_templateLoop {maxBytes : UInt64} {entries : List TxPoolEntry}
    (hsize : ∀ e ∈ entries, e.blobSize = 1800) {currentBytes : UInt64} {j : Nat}
    (hcur : currentBytes.toNat = 1800 * j) (hj : j ≤ countableEntries)
    (hmax : 1800 * countableEntries ≤ maxBytes.toNat)
    (hmany : countableEntries < j + entries.length) :
    countableEntries < j + (templateLoop maxBytes currentBytes entries).length := by
  induction entries generalizing currentBytes j with
  | nil => exact absurd hmany (by simpa using hj)
  | cons e rest ih =>
    obtain ⟨he, hrest⟩ := List.forall_mem_cons.mp hsize
    rw [List.length_cons] at hmany
    have hnext : (currentBytes + e.blobSize).toNat = (1800 * (j + 1)) % 2 ^ 64 := by
      rw [UInt64.toNat_add, he, hcur, Nat.mul_add]
      rfl
    rcases Nat.lt_or_eq_of_le hj with hlt | rfl
    · have hlast : (currentBytes + e.blobSize).toNat = 1800 * (j + 1) := by
        rw [hnext, Nat.mod_eq_of_lt (by rw [countableEntries_eq] at hlt; omega)]
      have hfits : ¬ currentBytes + e.blobSize > maxBytes := by
        rw [gt_iff_lt, UInt64.lt_iff_toNat_lt, hlast, Nat.not_lt]
        exact (Nat.mul_le_mul_left 1800 hlt).trans hmax
      have hnextMany := ih hrest hlast hlt (by rwa [Nat.add_assoc, Nat.add_comm 1])
      rw [templateLoop, if_neg hfits, List.length_cons]
      rwa [Nat.add_assoc, Nat.add_comm 1] at hnextMany
    · have hfits : ¬ currentBytes + e.blobSize > maxBytes := by
        rw [gt_iff_lt, UInt64.lt_iff_toNat_lt, hnext, Nat.not_lt]
        rw [countableEntries_eq] at hmax ⊢
        exact Nat.le_trans (by decide) hmax
      rw [templateLoop, if_neg hfits, List.length_cons]
      exact Nat.lt_add_of_pos_right (Nat.succ_pos _)

variable {pool : TxMemoryPool}

theorem Sound.size_eq (h : pool.Sound) : ∀ e ∈ pool.mempool, e.blobSize.toNat = 1800 := by
  intro e he
  rw [h.blobSize e he]
  rfl

/-- The template is optimal exactly when the byte counter cannot wrap: the limit is
    below every wrapping total, or the pool is too small to reach one. -/
theorem Sound.templateOptimal_iff (h : pool.Sound) (maxBytes : UInt64) :
    pool.TemplateOptimal maxBytes ↔ maxBytes.toNat < 1800 * countableEntries ∨
      pool.mempool.length ≤ countableEntries := by
  have hstart : (0 : UInt64).toNat = 1800 * 0 := rfl
  constructor
  · rintro ⟨chosen, hchosen, hbest⟩
    refine or_iff_not_imp_left.mpr fun hmax => Nat.le_of_not_lt fun hmany => ?_
    have hlong := lt_length_templateLoop h.blobSize hstart (Nat.zero_le _) (Nat.le_of_not_lt hmax)
      (by rwa [Nat.zero_add])
    have hwithin := hbest.within
    rw [HeaviestWithin.sum_size h.size_eq hbest.subperm] at hwithin
    have hlen : chosen.length = (pool.getBlockTemplateTxs maxBytes).length := by
      rw [← hchosen, List.length_map]
    have hwide := maxBytes.toNat_lt
    unfold getBlockTemplateTxs at hlen
    rw [countableEntries_eq] at hlong
    omega
  · intro hroom
    refine ⟨pool.mempool.take (maxBytes.toNat / 1800), ?_, ?_⟩
    · exact (templateLoop_eq h.blobSize hstart (Nat.zero_le _) (by rwa [Nat.zero_add])).symm
    · exact HeaviestWithin.take (by decide) h.size_eq
        (h.sorted.imp fun hab => UInt64.le_iff_toNat_le.mp hab) _

/-- The pool fits into the memory of a process: an entry holds at least the hash of its
    transaction and three numbers of 64 bits, 56 bytes in all, and no 64-bit platform gives
    a process more than `2 ^ 57` bytes of addresses. -/
def FitsMemory (pool : TxMemoryPool) : Prop := 56 * pool.mempool.length ≤ 2 ^ 57

instance (pool : TxMemoryPool) : Decidable pool.FitsMemory :=
  inferInstanceAs (Decidable (56 * pool.mempool.length ≤ 2 ^ 57))

/-- In such a pool the byte counter has room for every entry. -/
theorem FitsMemory.length_le (h : pool.FitsMemory) : pool.mempool.length ≤ countableEntries := by
  unfold FitsMemory at h
  rw [countableEntries_eq]
  omega

/-- Along every run the pool holds what its trace says and a rejected transaction changes
    nothing; and where the pool fits into memory the template is optimal for every limit. -/
theorem template_of_run (calls : List PoolCall)
    (hmemory : ((poolMachine S).final {} calls).FitsMemory) :
    let pool := (poolMachine S).final {} calls
    PoolTrace.Represented (calls.zip ((poolMachine S).replies {} calls)) pool ∧
      (∀ tx now, (pool.addTx S tx now).1 ≠ none → (pool.addTx S tx now).2 = pool) ∧
      ∀ maxBytes, pool.TemplateOptimal maxBytes :=
  ⟨represented_of_run S calls, fun _ _ => addTx_of_rejected S, fun maxBytes =>
    ((Sound.empty.run S calls).templateOptimal_iff maxBytes).mpr (.inr hmemory.length_le)⟩

/-- A transaction of ring size 16 with a fee. -/
def feeTx (n : UInt8) (fee : UInt64) : Transaction :=
  { vin := [{ keyOffsets := List.replicate 16 1, kImage := Vector.replicate 32 n }]
    vout := [{}]
    rctSignatures :=
      { type := 6, txnFee := fee, bulletproofPlusBytes := [0], clsagSignatures := [0] }
    hash := Vector.replicate 32 n }

/-- Three transactions are added, one of them is removed, and its key image comes again. -/
def feeCalls : List PoolCall :=
  [.addTx (feeTx 1 500) 10, .addTx (feeTx 2 900) 20, .addTx (feeTx 3 700) 30,
    .removeTxs [(feeTx 2 900).hash], .addTx (feeTx 2 600) 40]

/-- Room for two: the fees 700 and 600 are the best. -/
theorem template_of_run_sample :
    ((poolMachine .stable).final {} feeCalls).getBlockTemplateTxs 4000 =
        [feeTx 3 700, feeTx 2 600] ∧
      ((poolMachine .stable).final {} feeCalls).TemplateOptimal 4000 :=
  ⟨by decide +kernel, (template_of_run .stable feeCalls (by decide +kernel)).2.2 4000⟩

/-! ## A pool of many transactions -/

/-- Well-formed transactions that share no hash and no key image are all accepted, in
    any order and at any time. -/
theorem adds_of_apart {pool : TxMemoryPool} (adds : List (Transaction × UInt64))
    (hwf : ∀ a ∈ adds, a.1.WellFormed)
    (hapart : (pool.transactions ++ adds.map (·.1)).Pairwise Transaction.Apart) :
    (poolMachine S).replies pool (adds.map fun a => .addTx a.1 a.2) = adds.map (fun _ => none) ∧
      ((poolMachine S).final pool (adds.map fun a => .addTx a.1 a.2)).transactions.Perm
        (pool.transactions ++ adds.map (·.1)) := by
  induction adds generalizing pool with
  | nil => simp
  | cons a rest ih =>
    obtain ⟨ha, hrest⟩ := List.forall_mem_cons.mp hwf
    rw [List.map_cons] at hapart
    have hadm : pool.Admissible a.1 :=
      ⟨ha, fun t ht => (List.pairwise_append.mp hapart).2.2 t ht a.1 List.mem_cons_self⟩
    have hstep := addTx_of_admissible S hadm a.2
    have hperm := (transactions_sort S pool a.1 a.2).append_right (rest.map (·.1))
    rw [List.append_assoc, List.singleton_append] at hperm
    obtain ⟨hreplies, hfinal⟩ := ih hrest ((hperm.pairwise_iff fun h => h.symm).mpr hapart)
    simp only [List.map_cons, Machine.replies_cons, Machine.final_cons]
    rw [show (poolMachine S).step pool (.addTx a.1 a.2) = _ from hstep]
    exact ⟨congrArg _ hreplies, hfinal.trans hperm⟩

/-- A 32-byte array for every number. -/
def numberedHash (n : Nat) : CryptoHash := ⟨(leBytes 32 n).toArray, length_leBytes 32 n⟩

theorem numberedHash_inj {m n : Nat} (hm : m < 256 ^ 32) (hn : n < 256 ^ 32)
    (h : numberedHash m = numberedHash n) : m = n := by
  have hbytes : leBytes 32 m = leBytes 32 n := by
    simpa [numberedHash] using h
  have hvalue := congrArg leValue hbytes
  rwa [leValue_leBytes, leValue_leBytes, Nat.mod_eq_of_lt hm, Nat.mod_eq_of_lt hn] at hvalue

/-- A transaction with a hash and a key image of its own. -/
def numberedTx (n : Nat) : Transaction :=
  { vin := [{ keyOffsets := List.replicate 16 0, kImage := numberedHash n }]
    vout := [{}]
    rctSignatures := { type := 6, bulletproofPlusBytes := [0], clsagSignatures := [0] }
    hash := numberedHash n }

theorem numberedTx_wellFormed (n : Nat) : (numberedTx n).WellFormed where
  vin := List.cons_ne_nil _ _
  vout := List.cons_ne_nil _ _
  type := rfl
  bulletproofPlusBytes := List.cons_ne_nil _ _
  clsagSignatures := List.cons_ne_nil _ _
  rings := by simp [numberedTx, cryptonoteMinimumMixinV3]

theorem numberedTx_apart {m n : Nat} (hm : m < 256 ^ 32) (hn : n < 256 ^ 32) (h : m ≠ n) :
    (numberedTx m).Apart (numberedTx n) := by
  have hhash : numberedHash m ≠ numberedHash n := fun heq => h (numberedHash_inj hm hn heq)
  refine ⟨hhash, ?_⟩
  simpa [numberedTx, Transaction.keyImages] using hhash.symm

/-- One transaction more than the byte counter can count. -/
def crowdedCalls : List PoolCall :=
  ((List.range (countableEntries + 1)).map fun n => (numberedTx n, 0)).map fun a => .addTx a.1 a.2

/-- The transactions numbered below `k` are all accepted. -/
theorem length_numbered {k : Nat} (hk : k ≤ 256 ^ 32) :
    ((poolMachine .stable).final {} (((List.range k).map fun n => (numberedTx n, 0)).map
      fun a => .addTx a.1 a.2)).mempool.length = k := by
  have hwf : ∀ a ∈ (List.range k).map fun n => (numberedTx n, (0 : UInt64)), a.1.WellFormed := by
    intro a ha
    obtain ⟨n, -, rfl⟩ := List.mem_map.mp ha
    exact numberedTx_wellFormed n
  have hapart : (({} : TxMemoryPool).transactions ++ ((List.range k).map fun n =>
      (numberedTx n, (0 : UInt64))).map (·.1)).Pairwise Transaction.Apart := by
    simp only [transactions, List.map_nil, List.nil_append, List.map_map, List.pairwise_map]
    refine List.pairwise_lt_range.imp_of_mem fun hm hn hlt => ?_
    exact numberedTx_apart ((List.mem_range.mp hm).trans_le hk)
      ((List.mem_range.mp hn).trans_le hk) hlt.ne
  have hlen := (adds_of_apart .stable _ hwf hapart).2.length_eq
  simpa [transactions] using hlen

/-- The bound on the pool cannot be dropped: with one entry more than the counter can
    count, the template for the largest limit exceeds it. -/
theorem template_not_optimal :
    ¬ ∀ (S : SortByFee) (calls : List PoolCall) (maxBytes : UInt64),
      ((poolMachine S).final {} calls).TemplateOptimal maxBytes := by
  intro h
  have hopt := h .stable crowdedCalls (0 - 1)
  have hlen : ((poolMachine .stable).final {} crowdedCalls).mempool.length = countableEntries + 1 :=
    length_numbered (by rw [countableEntries_eq]; decide)
  rw [(Sound.empty.run .stable crowdedCalls).templateOptimal_iff, hlen, countableEntries_eq] at hopt
  revert hopt
  decide

end TxMemoryPool

end RandomLite
