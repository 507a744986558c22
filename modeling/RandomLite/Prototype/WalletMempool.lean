-- SUMMARY: Transactions a wallet builds, offered to a memory pool and to a fresh blockchain.
import RandomLite.Prototype.Admission
import RandomLite.Prototype.WalletBalance

/-!
# From the wallet to the memory pool

`create_transfer` fills in neither the hash nor the key image of its transaction, so
all transfers into a value-initialised transaction yield the same one. It is well
formed; a second copy of it is not admitted.
-/

namespace RandomLite

/-- A call to `create_transfer` into a value-initialised transaction, with the wallet
    it is made on. -/
structure Transfer where
  wallet : Wallet
  dstAddress : String
  amount : UInt64

namespace Transfer

/-- The call returns true. -/
def Succeeds (t : Transfer) : Prop := (t.wallet.createTransfer t.dstAddress t.amount {}).1 = none

/-- The transaction the call leaves. -/
def tx (t : Transfer) : Transaction := (t.wallet.createTransfer t.dstAddress t.amount {}).2.1

/-- Wallet, destination and amount leave no trace in the transaction. -/
theorem tx_eq {t : Transfer} (h : t.Succeeds) : t.tx = Wallet.transferTx {} := by
  unfold Succeeds at h
  unfold tx
  by_cases hcov : t.amount ≤ t.wallet.unlockedBalance
  · rw [Wallet.createTransfer_of_covered hcov]
  · obtain ⟨errMsg, heq⟩ := Wallet.createTransfer_of_not_covered hcov t.dstAddress {}
    rw [heq] at h
    exact absurd h (Option.some_ne_none errMsg)

theorem transferTx_wellFormed : (Wallet.transferTx {}).WellFormed where
  vin := List.cons_ne_nil _ _
  vout := List.cons_ne_nil _ _
  type := rfl
  bulletproofPlusBytes := by decide
  clsagSignatures := by decide
  rings := by simp [Wallet.transferTx, Wallet.transferInput, cryptonoteMinimumMixinV3]

/-- A blockchain without spent key images verifies every well-formed transaction. -/
theorem verifyTransaction_of_wellFormed {c : Blockchain} (hc : c.spentKeyImages = ∅)
    {tx : Transaction} (h : tx.WellFormed) (currentHeight : UInt64) :
    c.verifyTransaction tx currentHeight = true := by
  rw [Blockchain.verifyTransaction_iff]
  refine ⟨h, fun k _ => ?_⟩
  rw [hc]
  exact Finset.notMem_empty _

/-- All transactions of the family can be added to an empty pool, in any order and at any
    time, and each verifies on a fresh blockchain. -/
def AllAccepted (S : SortByFee) (family : List Transfer) : Prop :=
  (∀ adds : List (Transaction × UInt64), (adds.map (·.1)).Perm (family.map tx) →
    (poolMachine S).replies {} (adds.map fun a => .addTx a.1 a.2) = adds.map fun _ => none) ∧
  ∀ t ∈ family, ∀ currentHeight, ({} : Blockchain).verifyTransaction t.tx currentHeight = true

/-- Whenever a transaction has been added to the empty pool, a copy of it is refused. -/
theorem copy_refused (S : SortByFee) {u : Transaction} {now now' : UInt64}
    (hfirst : (TxMemoryPool.addTx S {} u now).1 = none) :
    (TxMemoryPool.addTx S (TxMemoryPool.addTx S {} u now).2 u now').1 ≠ none := by
  intro hsecond
  rcases TxMemoryPool.addTx_cases S {} u now with ⟨reason, -, heq⟩ | ⟨-, heq⟩
  · rw [heq] at hfirst
    exact absurd hfirst (Option.some_ne_none reason)
  have hpooled := (TxMemoryPool.transactions_sort S {} u now).mem_iff.mpr
    (List.mem_append_right _ List.mem_cons_self)
  rw [heq] at hsecond
  rcases TxMemoryPool.addTx_cases S _ u now' with ⟨reason, -, heq'⟩ | ⟨hadm, -⟩
  · rw [heq'] at hsecond
    exact absurd hsecond (Option.some_ne_none reason)
  · exact (hadm.apart _ hpooled).hash rfl

/-- A family of transfers is accepted exactly when it has no two members. -/
theorem allAccepted_iff (S : SortByFee) {family : List Transfer}
    (hok : ∀ t ∈ family, t.Succeeds) : AllAccepted S family ↔ family.length ≤ 1 := by
  have htx : family.map tx = List.replicate family.length (Wallet.transferTx {}) :=
    List.eq_replicate_iff.mpr ⟨List.length_map _, fun u hu => by
      obtain ⟨t, ht, rfl⟩ := List.mem_map.mp hu
      exact tx_eq (hok t ht)⟩
  constructor
  · rintro ⟨hadd, -⟩
    refine Nat.le_of_not_lt fun hmany => ?_
    obtain ⟨k, hk⟩ := Nat.exists_eq_add_of_le' hmany
    have hreplies := hadd (List.replicate family.length (Wallet.transferTx {}, 0)) (by
      rw [htx, List.map_replicate])
    simp only [hk, List.replicate_succ, List.map_cons, Machine.replies_cons, List.cons.injEq]
      at hreplies
    obtain ⟨hfirst, hsecond, -⟩ := hreplies
    exact copy_refused S hfirst hsecond
  · intro hone
    constructor
    · intro adds hperm
      have hmem : ∀ a ∈ adds, a.1 = Wallet.transferTx {} := fun a ha =>
        List.eq_of_mem_replicate (htx ▸ hperm.mem_iff.mp (List.mem_map_of_mem ha))
      have hlen : (adds.map (·.1)).length ≤ 1 := by
        rwa [hperm.length_eq, List.length_map]
      refine (TxMemoryPool.adds_of_apart S adds (fun a ha => ?_) ?_).1
      · rw [hmem a ha]
        exact transferTx_wellFormed
      · cases hadds : adds.map (·.1) with
        | nil => exact .nil
        | cons a rest =>
          rw [hadds, List.length_cons, Nat.succ_le_succ_iff, Nat.le_zero, List.length_eq_zero_iff] at hlen
          rw [hlen]
          exact List.pairwise_singleton _ a
    · intro t ht currentHeight
      rw [tx_eq (hok t ht)]
      exact verifyTransaction_of_wellFormed rfl transferTx_wellFormed currentHeight

/-- A transfer of one coin by a new wallet. -/
def sample (dstAddress : String) : Transfer :=
  { wallet := ({} : Wallet).createNew "w" "p" Wallet.sampleDraw, dstAddress, amount := coinUnits }

theorem sample_succeeds (dstAddress : String) : (sample dstAddress).Succeeds := by
  have hcov : (sample dstAddress).amount ≤ (sample dstAddress).wallet.unlockedBalance :=
    show coinUnits ≤ 250 * coinUnits by decide
  unfold Succeeds
  rw [Wallet.createTransfer_of_covered hcov]

theorem allAccepted_iff_sample :
    AllAccepted .stable [sample "XRL4a", sample "XRL4b"] ↔
      [sample "XRL4a", sample "XRL4b"].length ≤ 1 :=
  allAccepted_iff .stable (by simp [sample_succeeds])

/-- Of two transfers to different destinations one is refused. -/
theorem transfers_not_allAccepted :
    ¬ ∀ (S : SortByFee) (family : List Transfer), (∀ t ∈ family, t.Succeeds) →
      AllAccepted S family := by
  intro h
  have hok : ∀ t ∈ [sample "XRL4a", sample "XRL4b"], t.Succeeds := by simp [sample_succeeds]
  have hlen := (allAccepted_iff .stable hok).mp (h .stable _ hok)
  exact absurd hlen (by decide)

end Transfer

end RandomLite
