-- SUMMARY: The rules of `verify_transaction` beside those of `add_tx`: which transactions both accept.
import RandomLite.Prototype.PoolRuns
import RandomLite.Prototype.Blockchain

/-!
# Admission and verification

`add_tx` and `verify_transaction` write the structural rules down twice, each with its
own loop over the inputs. Both loops check the same ring size; the first looks the key
image up in the pool, the second its text in the spent set.
-/

namespace RandomLite

/-! ## What `verify_transaction` asks -/

/-- No key image of the transaction is in the spent set. -/
def Blockchain.Unspent (c : Blockchain) (tx : Transaction) : Prop :=
  ∀ k ∈ tx.keyImages, keyImageHex k ∉ c.spentKeyImages

theorem verifyInputs_iff (spentKeyImages : Finset Text) (vin : List TxinToKey) :
    verifyInputs spentKeyImages vin = true ↔
      ∀ i ∈ vin, i.keyOffsets.length = cryptonoteMinimumMixinV3 + 1 ∧
        keyImageHex i.kImage ∉ spentKeyImages := by
  induction vin with
  | nil => simp [verifyInputs]
  | cons i rest ih =>
    rw [List.forall_mem_cons, ← ih, verifyInputs]
    split
    · rename_i hring
      simp [hring]
    split
    · rename_i _ hspent
      simp [hspent]
    · rename_i hring hspent
      exact ⟨fun h => ⟨⟨not_not.mp hring, hspent⟩, h⟩, fun h => h.2⟩

/-- `verify_transaction` accepts exactly the well-formed transactions without a spent
    key image. -/
theorem Blockchain.verifyTransaction_iff (c : Blockchain) (tx : Transaction)
    (currentHeight : UInt64) :
    c.verifyTransaction tx currentHeight = true ↔ tx.WellFormed ∧ c.Unspent tx := by
  unfold verifyTransaction
  split
  · rename_i h
    refine iff_of_false Bool.false_ne_true ?_
    rintro ⟨hwf, -⟩
    simp [hwf.vin, hwf.vout] at h
  split
  · rename_i _ h
    refine iff_of_false Bool.false_ne_true ?_
    rintro ⟨hwf, -⟩
    simp [hwf.type, hwf.bulletproofPlusBytes, hwf.clsagSignatures] at h
  · rename_i hlists hproofs
    simp only [Bool.or_eq_true, List.isEmpty_iff, not_or, decide_eq_true_eq, not_not]
      at hlists hproofs
    rw [verifyInputs_iff]
    constructor
    · intro h
      refine ⟨⟨hlists.1, hlists.2, hproofs.1.1, hproofs.1.2, hproofs.2, fun i hi => (h i hi).1⟩, ?_⟩
      intro k hk
      obtain ⟨i, hi, rfl⟩ := List.mem_map.mp hk
      exact (h i hi).2
    · rintro ⟨hwf, hunspent⟩ i hi
      exact ⟨hwf.rings i hi, hunspent _ (List.mem_map_of_mem hi)⟩

/-! ## Beside `add_tx` -/

namespace TxMemoryPool

/-- Neither the hash of the transaction nor any of its key images is in the pool. -/
structure Fresh (pool : TxMemoryPool) (tx : Transaction) : Prop where
  hash : ∀ t ∈ pool.transactions, t.hash ≠ tx.hash
  keyImages : ∀ t ∈ pool.transactions, ∀ k ∈ tx.keyImages, k ∉ t.keyImages

theorem admissible_iff (pool : TxMemoryPool) (tx : Transaction) :
    pool.Admissible tx ↔ tx.WellFormed ∧ pool.Fresh tx := by
  constructor
  · intro h
    refine ⟨h.wellFormed, fun t ht => (h.apart t ht).hash, fun t ht k hk hpooled => ?_⟩
    exact (h.apart t ht).keyImages hpooled hk
  · rintro ⟨hwf, hfresh⟩
    refine ⟨hwf, fun t ht => ⟨hfresh.hash t ht, fun k hpooled hk => ?_⟩⟩
    exact hfresh.keyImages t ht k hk hpooled

/-- `add_tx` accepts exactly the well-formed transactions that are new to the pool. -/
theorem addTx_eq_none_iff (S : SortByFee) (pool : TxMemoryPool) (tx : Transaction) (now : UInt64) :
    (pool.addTx S tx now).1 = none ↔ tx.WellFormed ∧ pool.Fresh tx := by
  rw [← admissible_iff]
  rcases addTx_cases S pool tx now with ⟨reason, hadm, heq⟩ | ⟨hadm, heq⟩
  · rw [heq]
    exact iff_of_false (Option.some_ne_none reason) hadm
  · rw [heq]
    exact iff_of_true rfl hadm

/-- A verified transaction new to the pool is added, and an added one without a spent
    key image verifies. -/
theorem addTx_verifyTransaction (S : SortByFee) (pool : TxMemoryPool) (c : Blockchain)
    (tx : Transaction) (currentHeight now : UInt64) :
    (c.verifyTransaction tx currentHeight = true ∧ pool.Fresh tx →
        (pool.addTx S tx now).1 = none) ∧
      ((pool.addTx S tx now).1 = none ∧ c.Unspent tx →
        c.verifyTransaction tx currentHeight = true) := by
  rw [addTx_eq_none_iff, Blockchain.verifyTransaction_iff]
  exact ⟨fun h => ⟨h.1.1, h.2⟩, fun h => ⟨h.1.1, h.2⟩⟩

/-- The transaction with number 1, beside a pool that holds number 0. -/
theorem addTx_verifyTransaction_sample :
    (({ mempool := [newEntry (numberedTx 0) 0] } : TxMemoryPool).addTx .stable
        (numberedTx 1) 5).1 = none ∧
      ({} : Blockchain).verifyTransaction (numberedTx 1) 7 = true := by
  have hverified : ({} : Blockchain).verifyTransaction (numberedTx 1) 7 = true := by
    decide +kernel
  have hfresh : ({ mempool := [newEntry (numberedTx 0) 0] } : TxMemoryPool).Fresh (numberedTx 1) :=
    ⟨by decide +kernel, by decide +kernel⟩
  have hunspent : ({} : Blockchain).Unspent (numberedTx 1) := fun _ _ => Finset.notMem_empty _
  have hagree := addTx_verifyTransaction .stable { mempool := [newEntry (numberedTx 0) 0] } {}
    (numberedTx 1) 7 5
  exact ⟨hagree.1 ⟨hverified, hfresh⟩, hagree.2 ⟨hagree.1 ⟨hverified, hfresh⟩, hunspent⟩⟩

end TxMemoryPool

end RandomLite
