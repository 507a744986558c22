-- SUMMARY: No two pooled transactions conflict; one transaction may conflict with itself.
import RandomLite.Prototype.PoolRuns

/-!
# Conflicts in the memory pool

`add_tx` compares the key images of a new transaction with the pooled ones, never with
each other; `m_mempool_key_images` is declared and not used. Two pooled transactions
never conflict, so a key image occurs twice in the pool exactly when some accepted
transaction carries it twice.
-/

namespace RandomLite

namespace TxMemoryPool

/-- No hash and no key image occurs twice in the pool, and no template spends a key
    image twice. -/
structure ConflictFree (pool : TxMemoryPool) : Prop where
  hashes : (pool.transactions.map (·.hash)).Nodup
  keyImages : (pool.transactions.flatMap (·.keyImages)).Nodup
  templates : ∀ maxBytes, ((pool.getBlockTemplateTxs maxBytes).flatMap (·.keyImages)).Nodup

theorem templateLoop_sublist (maxBytes currentBytes : UInt64) (entries : List TxPoolEntry) :
    (templateLoop maxBytes currentBytes entries).Sublist (entries.map (·.tx)) := by
  induction entries generalizing currentBytes with
  | nil => exact .slnil
  | cons e rest ih =>
    rw [templateLoop, List.map_cons]
    split
    · exact List.nil_sublist _
    · exact (ih _).cons_cons e.tx

/-- A template lists pooled transactions in the order of the pool. -/
theorem getBlockTemplateTxs_sublist (pool : TxMemoryPool) (maxBytes : UInt64) :
    (pool.getBlockTemplateTxs maxBytes).Sublist pool.transactions :=
  templateLoop_sublist maxBytes 0 pool.mempool

/-- Of a sound pool only the transactions themselves are left to look at. -/
theorem Sound.conflictFree_iff {pool : TxMemoryPool} (h : pool.Sound) :
    pool.ConflictFree ↔ ∀ t ∈ pool.transactions, t.keyImages.Nodup := by
  have hdisjoint : pool.transactions.Pairwise
      fun a b => List.Disjoint a.keyImages b.keyImages := h.apart.imp fun hab => hab.keyImages
  constructor
  · exact fun hfree => (List.nodup_flatMap.mp hfree.keyImages).1
  · intro hnodup
    refine ⟨h.hashes_nodup, List.nodup_flatMap.mpr ⟨hnodup, hdisjoint⟩, fun maxBytes => ?_⟩
    have hsub := pool.getBlockTemplateTxs_sublist maxBytes
    exact List.nodup_flatMap.mpr ⟨fun t ht => hnodup t (hsub.subset ht), hdisjoint.sublist hsub⟩

theorem ConflictFree.empty : ({} : TxMemoryPool).ConflictFree :=
  Sound.empty.conflictFree_iff.mpr (by simp [transactions])

/-- The calls that bring no conflict into a pool: a removal, and the addition of a
    transaction that is inadmissible or has distinct key images. -/
def Harmless (pool : TxMemoryPool) : PoolCall → Prop
  | .addTx tx _ => pool.Admissible tx → tx.keyImages.Nodup
  | .removeTxs _ => True

variable (S : SortByFee)

/-- A conflict enters the pool with the transaction that carries it. -/
theorem Sound.conflictFree_step_iff {pool : TxMemoryPool} (h : pool.Sound)
    (hfree : pool.ConflictFree) (c : PoolCall) :
    ((poolMachine S).step pool c).2.ConflictFree ↔ pool.Harmless c := by
  have hold := h.conflictFree_iff.mp hfree
  rw [(h.step S c).conflictFree_iff]
  cases c with
  | addTx tx now =>
    simp only [poolMachine, Harmless]
    rcases addTx_cases S pool tx now with ⟨reason, hrej, heq⟩ | ⟨hadm, heq⟩
    · rw [heq]
      exact iff_of_true hold fun hadm => absurd hadm hrej
    · have hperm := transactions_sort S pool tx now
      rw [heq]
      constructor
      · exact fun hnodup _ => hnodup tx (hperm.mem_iff.mpr (by simp))
      · intro hnodup t ht
        rcases List.mem_append.mp (hperm.mem_iff.mp ht) with hpooled | hnew
        · exact hold t hpooled
        · rw [List.mem_singleton.mp hnew]
          exact hnodup hadm
  | removeTxs txHashes =>
    refine iff_of_true (fun t ht => hold t ?_) trivial
    simp only [poolMachine, transactions_removeTxs] at ht
    exact List.mem_of_mem_filter ht

/-- A run is free of conflicts throughout exactly when it accepts no transaction that
    conflicts with itself. -/
theorem conflictFree_of_run_iff (calls : List PoolCall) :
    (poolMachine S).Throughout ConflictFree {} calls ↔ (poolMachine S).Meets Harmless {} calls :=
  Machine.throughout_iff_meets calls Sound.empty ConflictFree.empty (fun _ c h => h.step S c)
    fun _ c h hfree => h.conflictFree_step_iff S hfree c

/-- A transaction that spends one output in both of its inputs. -/
def twiceSpendingTx : Transaction :=
  { numberedTx 0 with
    vin := List.replicate 2 { keyOffsets := List.replicate 16 0, kImage := numberedHash 0 } }

theorem run_not_conflictFree :
    ¬ ∀ (S : SortByFee) (calls : List PoolCall), (poolMachine S).Throughout ConflictFree {} calls := by
  intro h
  have hrun := (conflictFree_of_run_iff .stable _).mp (h .stable [.addTx twiceSpendingTx 0])
  have hadm : ({} : TxMemoryPool).Admissible twiceSpendingTx :=
    ⟨{ numberedTx_wellFormed 0 with
        vin := List.cons_ne_nil _ _
        rings := by simp [twiceSpendingTx, cryptonoteMinimumMixinV3] }, by simp [transactions]⟩
  have hnodup := hrun.1 hadm
  simp [twiceSpendingTx, Transaction.keyImages] at hnodup

end TxMemoryPool

end RandomLite
