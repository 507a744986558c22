-- SUMMARY: Which key images the chain refuses: the spent set over whole runs, and what mining a transaction adds to it.
import RandomLite.Prototype.Admission

/-!
# Double spends

The spent set only ever grows from `key_images.dat`, and nothing the chain does
writes to that file: `save_key_image` has no caller. So the images the chain
refuses are those the file held to begin with, and accepting a block adds none.
-/

namespace RandomLite

/-! ## The spent set over runs -/

/-- The key images `load_chain` takes from a directory: none, when there is no
    block file. -/
def DataDir.savedKeyImages (dir : DataDir) : Finset Text :=
  if dir.blocksDat.isSome then (nonEmptyLines (dir.keyImagesDat.getD [])).toFinset else ∅

namespace Node

/-- `init` adds the saved key images to the set. -/
theorem init_spentKeyImages (io : AppendOutcome) (n : Node) :
    (n.init io).chain.spentKeyImages = n.chain.spentKeyImages ∪ n.dir.savedKeyImages := by
  have hopen : n.chain.db.open.opened = true := rfl
  cases hfile : n.dir.blocksDat with
  | none => simp [init, PersistentDatabase.loadChain, DataDir.savedKeyImages, hfile, hopen]
  | some bytes =>
    simp only [init, PersistentDatabase.loadChain_eq hopen hfile, DataDir.savedKeyImages, hfile,
      Option.isSome_some, if_true]
    split <;> rfl

/-- Saving a block never takes a saved key image away. -/
theorem savedKeyImages_saveBlock (db : PersistentDatabase) (dir : DataDir) (b : Block)
    (height difficulty : UInt64) (io : AppendOutcome) :
    dir.savedKeyImages ⊆ (db.saveBlock dir b height difficulty io).2.savedKeyImages := by
  unfold DataDir.savedKeyImages
  rw [PersistentDatabase.saveBlock_keyImagesDat]
  by_cases hfile : dir.blocksDat.isSome
  · rw [if_pos hfile, if_pos (PersistentDatabase.saveBlock_isSome db b height difficulty io hfile)]
  · rw [if_neg hfile]
    exact Finset.empty_subset _

theorem init_savedKeyImages (io : AppendOutcome) (n : Node) :
    n.dir.savedKeyImages ⊆ (n.init io).dir.savedKeyImages := by
  unfold init
  dsimp only
  split
  · exact Finset.Subset.refl _
  · exact savedKeyImages_saveBlock ..

/-- Accepting or refusing a block does not change the spent set. -/
theorem addNewBlock_spentKeyImages (P : Platform) (b : Block) (now : UInt64) (io : AppendOutcome)
    (n : Node) :
    (n.addNewBlock P b now io).2.chain.spentKeyImages = n.chain.spentKeyImages := by
  rcases addNewBlock_cases P n b now io with ⟨_, heq⟩ | ⟨_, e, m, heq⟩
  · rw [heq]
    rfl
  · rw [heq]

theorem addNewBlock_savedKeyImages (P : Platform) (b : Block) (now : UInt64) (io : AppendOutcome)
    (n : Node) :
    n.dir.savedKeyImages ⊆ (n.addNewBlock P b now io).2.dir.savedKeyImages := by
  rcases addNewBlock_cases P n b now io with ⟨_, heq⟩ | ⟨_, e, m, heq⟩
  · rw [heq]
    exact savedKeyImages_saveBlock ..
  · rw [heq]

/-- Every spent key image is in the file a restart reads. -/
def SpentSaved (n : Node) : Prop := n.chain.spentKeyImages ⊆ n.dir.savedKeyImages

theorem SpentSaved.init (io : AppendOutcome) {n : Node} (h : n.SpentSaved) :
    (n.init io).SpentSaved := by
  unfold SpentSaved
  rw [init_spentKeyImages]
  exact (Finset.union_subset h (Finset.Subset.refl _)).trans (init_savedKeyImages io n)

theorem SpentSaved.started (dir : DataDir) (io : AppendOutcome) : (Node.started dir io).SpentSaved :=
  SpentSaved.init io (n := { dir := dir }) (Finset.empty_subset _)

/-- One call keeps the spent images saved and the set growing. -/
theorem SpentSaved.step (P : Platform) {n : Node} (h : n.SpentSaved) (c : Call) :
    ((chainMachine P).step n c).2.SpentSaved ∧
      n.chain.spentKeyImages ⊆ ((chainMachine P).step n c).2.chain.spentKeyImages := by
  cases c with
  | addTx tx now => exact ⟨h, Finset.Subset.refl _⟩
  | verifyTransaction tx currentHeight => exact ⟨h, Finset.Subset.refl _⟩
  | addNewBlock b now io =>
    have hspent := addNewBlock_spentKeyImages P b now io n
    have hsaved := addNewBlock_savedKeyImages P b now io n
    refine ⟨?_, ?_⟩
    · unfold SpentSaved
      exact hspent ▸ h.trans hsaved
    · exact hspent ▸ Finset.Subset.refl _
  | shutdown => exact ⟨h, Finset.Subset.refl _⟩
  | init io =>
    refine ⟨h.init io, ?_⟩
    simp only [chainMachine, init_spentKeyImages]
    exact Finset.subset_union_left
  | restart io =>
    -- The new object starts empty and reads everything back.
    refine ⟨SpentSaved.started n.dir io, ?_⟩
    simp only [chainMachine, restart, init_spentKeyImages]
    exact h.trans Finset.subset_union_right

theorem SpentSaved.reachable {P : Platform} {n m : Node} (h : n.SpentSaved)
    (hm : (chainMachine P).Reachable n m) :
    m.SpentSaved ∧ n.chain.spentKeyImages ⊆ m.chain.spentKeyImages := by
  refine hm.invariant (P := fun m => m.SpentSaved ∧ n.chain.spentKeyImages ⊆ m.chain.spentKeyImages)
    ⟨h, Finset.Subset.refl _⟩ ?_
  rintro u c ⟨hu, hsub⟩
  obtain ⟨hnext, hgrow⟩ := hu.step P c
  exact ⟨hnext, hsub.trans hgrow⟩

theorem SpentSaved.of_reachableFrom {P : Platform} {dir : DataDir} {n : Node}
    (h : n.ReachableFrom P dir) : n.SpentSaved := by
  obtain ⟨io, hreach⟩ := h
  exact ((SpentSaved.started dir io).reachable hreach).1

end Node

/-! ## What `verify_transaction` refuses -/

/-- A transaction with a spent key image is refused. -/
theorem Blockchain.verifyTransaction_of_spent {c : Blockchain} {tx : Transaction} {k : KeyImage}
    (hk : k ∈ tx.keyImages) (hspent : keyImageHex k ∈ c.spentKeyImages) (currentHeight : UInt64) :
    c.verifyTransaction tx currentHeight = false := by
  rw [Bool.eq_false_iff, ne_eq, verifyTransaction_iff]
  exact fun h => h.2 k hk hspent

/-- A transaction that spends one key image and is well formed otherwise. -/
def spendOf (k : KeyImage) : Transaction :=
  { vin := [{ keyOffsets := List.replicate 16 0, kImage := k }]
    vout := [{}]
    rctSignatures := { type := 6, bulletproofPlusBytes := [0], clsagSignatures := [0] } }

theorem mem_keyImages_spendOf (k : KeyImage) : k ∈ (spendOf k).keyImages := by
  simp [spendOf, Transaction.keyImages]

/-- The image is then all that decides. -/
theorem Blockchain.verifyTransaction_spendOf (c : Blockchain) (k : KeyImage)
    (currentHeight : UInt64) :
    c.verifyTransaction (spendOf k) currentHeight = !decide (keyImageHex k ∈ c.spentKeyImages) := by
  by_cases h : keyImageHex k ∈ c.spentKeyImages
  · rw [verifyTransaction_of_spent (mem_keyImages_spendOf k) h]
    simp [h]
  · simp [verifyTransaction, spendOf, verifyInputs, cryptonoteMinimumMixinV3, h]

/-! ## Mining a pooled transaction -/

/-- No transaction with key image `k` verifies in `n` or at any later moment. -/
def Node.RefusesForever (P : Platform) (n : Node) (k : KeyImage) : Prop :=
  ∀ m, (chainMachine P).Reachable n m → ∀ tx currentHeight, k ∈ tx.keyImages →
    m.chain.verifyTransaction tx currentHeight = false

/-- A key image is refused for ever exactly when it is in the spent set. -/
theorem Node.SpentSaved.refusesForever_iff {P : Platform} {n : Node} (h : n.SpentSaved)
    (k : KeyImage) : n.RefusesForever P k ↔ keyImageHex k ∈ n.chain.spentKeyImages := by
  constructor
  · intro hrefuse
    have hnow := hrefuse n .start (spendOf k) 0 (mem_keyImages_spendOf k)
    rw [Blockchain.verifyTransaction_spendOf] at hnow
    simpa using hnow
  · intro hspent m hm tx currentHeight hk
    have hlater := (h.reachable hm).2 hspent
    exact Blockchain.verifyTransaction_of_spent hk hlater currentHeight

/-- After a block that lists a pooled transaction has been accepted, the key images of
    that transaction are refused for ever exactly when they all were spent before. -/
theorem Node.mined_refused_iff {P : Platform} {dir : DataDir} {n : Node}
    (h : n.ReachableFrom P dir) {t : Transaction} (_ht : t ∈ n.chain.txPool.transactions)
    {b : Block} (_hb : t.hash ∈ b.txHashes) {now : UInt64} {io : AppendOutcome}
    (_hok : (n.addNewBlock P b now io).1.isOk = true) :
    (∀ k ∈ t.keyImages, (n.addNewBlock P b now io).2.RefusesForever P k) ↔
      ∀ k ∈ t.keyImages, keyImageHex k ∈ n.chain.spentKeyImages := by
  have hsaved : (n.addNewBlock P b now io).2.SpentSaved :=
    ((SpentSaved.of_reachableFrom h).step P (.addNewBlock b now io)).1
  have hsame := addNewBlock_spentKeyImages P b now io n
  refine forall_congr' fun k => forall_congr' fun _ => ?_
  rw [hsaved.refusesForever_iff k, hsame]

/-- A pooled transaction and the block that mines it, on a fresh directory. -/
def minedTx : Transaction := { spendOf zeroHash with hash := zeroHash.setIfInBounds 0 7 }

def miningBlock : Block :=
  { timestamp := genesisTimestamp + 150, prevId := genesisBlock.hash, txHashes := [minedTx.hash] }

def pooledNode : Node :=
  (chainMachine .shipped).final (Node.started {} (.wrote recordSize)) [.addTx minedTx 0]

theorem pooledNode_reachable : pooledNode.ReachableFrom .shipped {} :=
  ⟨.wrote recordSize, Machine.reachable_final _ _⟩

theorem Node.mined_refused_iff_sample :
    (∀ k ∈ minedTx.keyImages,
        (pooledNode.addNewBlock .shipped miningBlock miningBlock.timestamp
          (.wrote recordSize)).2.RefusesForever .shipped k) ↔
      ∀ k ∈ minedTx.keyImages, keyImageHex k ∈ pooledNode.chain.spentKeyImages :=
  Node.mined_refused_iff pooledNode_reachable (by decide +kernel) (by decide +kernel)
    (by decide +kernel)

/-- A mined transaction verifies once more. -/
theorem Node.mined_not_refused :
    ¬ ∀ (P : Platform) (dir : DataDir) (n : Node), n.ReachableFrom P dir →
      ∀ t ∈ n.chain.txPool.transactions, ∀ (b : Block) (now : UInt64) (io : AppendOutcome),
        t.hash ∈ b.txHashes → (n.addNewBlock P b now io).1.isOk = true →
          ∀ k ∈ t.keyImages, (n.addNewBlock P b now io).2.RefusesForever P k := by
  intro h
  have hrefuse := h .shipped {} pooledNode pooledNode_reachable minedTx (by decide +kernel)
    miningBlock (genesisTimestamp + 150) (.wrote recordSize) (by decide +kernel)
    (by decide +kernel) zeroHash (by decide +kernel)
  have hnow := hrefuse _ .start minedTx 1 (by decide +kernel)
  revert hnow
  decide +kernel

end RandomLite
