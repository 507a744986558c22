-- SUMMARY: Runs of the pruned database: what every pruning pass and every change of the chain leaves of each transaction.
import Mathlib.Data.List.Induction
import RandomLite.Library.KeyedTable
import RandomLite.Monero.PrunedDatabase

/-!
# Runs of the pruned database

Beside the tables runs a record of the chain as it was added: its blocks with the whole of
their transactions, and for each block the *peak*, the highest chain a pruning pass saw since
the block was added. What the tables hold is a function of that record (`Pruned`): a prunable
part is there as long as its block is kept at its peak, and no longer, unless a pass crashed.
-/

namespace RandomLite.Monero

open KeyedTable

/-! ## Kept at two heights -/

theorem inPruningTip_max (h bh bh' : Nat) :
    inPruningTip h (max bh bh') = (inPruningTip h bh && inPruningTip h bh') := by
  unfold inPruningTip
  rw [Bool.eq_iff_iff, Bool.and_eq_true, decide_eq_true_iff, decide_eq_true_iff,
    decide_eq_true_iff]
  exact Nat.max_le

/-- A block is there if there are no stripes, in the tip, or in the node's own stripe. -/
theorem hasUnprunedBlock_eq (h bh seed : Nat) :
    hasUnprunedBlock h bh seed =
      (decide (getPruningStripe seed = 0) || (inPruningTip h bh ||
        decide (((h / pruningStripeSize) &&& ((1 <<< getPruningLogStripes seed) - 1)) + 1 =
          getPruningStripe seed))) := by
  unfold hasUnprunedBlock getBlockPruningStripe
  dsimp only
  by_cases hzero : getPruningStripe seed = 0
  · rw [if_pos hzero, decide_eq_true hzero, Bool.true_or]
  · rw [if_neg hzero, decide_eq_false hzero, Bool.false_or]
    cases inPruningTip h bh with
    | true => rfl
    | false => rfl

/-- What is kept at the higher of two heights is what is kept at both. -/
theorem hasUnprunedBlock_max (h bh bh' seed : Nat) :
    hasUnprunedBlock h (max bh bh') seed =
      (hasUnprunedBlock h bh seed && hasUnprunedBlock h bh' seed) := by
  rw [hasUnprunedBlock_eq, hasUnprunedBlock_eq, hasUnprunedBlock_eq, inPruningTip_max]
  rw [← Bool.or_and_distrib_left, ← Bool.or_and_distrib_right]

theorem hasUnprunedBlock_at_zero (h seed : Nat) : hasUnprunedBlock h 0 seed = true := by
  have htip : inPruningTip h 0 = true := decide_eq_true (Nat.zero_le _)
  rw [hasUnprunedBlock_eq, htip, Bool.true_or, Bool.or_true]

/-! ## The record of the chain -/

/-- A block as it was added, and the highest chain a pass saw since. -/
structure BlockRecord (K : Type) where
  txs : List (TxData K)
  peak : Nat := 0

/-- A transaction of the chain, with the height and the peak of its block. -/
structure Entry (K : Type) where
  height : Nat
  tx : TxData K
  peak : Nat
  deriving DecidableEq

variable {K : Type}

def BlockRecord.raise (bh : Nat) (b : BlockRecord K) : BlockRecord K :=
  { b with peak := max b.peak bh }

def Entry.raise (bh : Nat) (e : Entry K) : Entry K := { e with peak := max e.peak bh }

/-- The prunable part of the transaction is kept at a height of the chain. -/
def Entry.KeptAt (e : Entry K) (bh seed : Nat) : Prop :=
  e.tx.version ≤ 1 ∨ hasUnprunedBlock e.height bh seed = true

/-- The prunable part of the transaction is kept at its peak. -/
def Entry.Kept (e : Entry K) (seed : Nat) : Prop := e.KeptAt e.peak seed

/-- The entries of a block. -/
def BlockRecord.entries (b : BlockRecord K) (height : Nat) : List (Entry K) :=
  b.txs.map fun tx => { height, tx, peak := b.peak }

/-- The transactions of the chain in the order of their numbers. -/
def entries (chain : List (BlockRecord K)) : List (Entry K) :=
  chain.zipIdx.flatMap fun b => b.1.entries b.2

theorem entries_concat (chain : List (BlockRecord K)) (b : BlockRecord K) :
    entries (chain ++ [b]) = entries chain ++ b.entries chain.length := by
  unfold entries
  rw [List.zipIdx_append, List.flatMap_append, Nat.zero_add]
  exact congrArg _ (List.append_nil _)

theorem entries_raise (bh : Nat) (chain : List (BlockRecord K)) :
    entries (chain.map (BlockRecord.raise bh)) = (entries chain).map (Entry.raise bh) := by
  induction chain using List.reverseRecOn with
  | nil => rfl
  | append_singleton chain b ih =>
    rw [List.map_append, List.map_singleton, entries_concat, entries_concat, ih,
      List.map_append, List.length_map]
    congr 1
    unfold BlockRecord.entries
    rw [List.map_map]
    rfl

theorem Entry.kept_raise {e : Entry K} {bh seed : Nat} :
    (e.raise bh).Kept seed ↔ e.Kept seed ∧ e.KeptAt bh seed := by
  unfold Kept KeptAt raise
  dsimp only
  rw [hasUnprunedBlock_max, Bool.and_eq_true]
  tauto

theorem Entry.keptAt_of_tip {e : Entry K} {bh seed : Nat}
    (htip : inPruningTip e.height bh = true) : e.KeptAt bh seed := by
  refine .inr ?_
  rw [hasUnprunedBlock_eq, htip, Bool.true_or, Bool.or_true]

theorem getElem?_concat_iff {α : Type} {l : List α} {a x : α} {i : Nat} :
    (l ++ [a])[i]? = some x ↔ l[i]? = some x ∨ i = l.length ∧ x = a := by
  rcases Nat.lt_trichotomy i l.length with hlt | rfl | hgt
  · rw [List.getElem?_append_left hlt]
    exact ⟨.inl, fun h => h.elim id fun heq => absurd heq.1 (Nat.ne_of_lt hlt)⟩
  · rw [List.getElem?_concat_length, List.getElem?_eq_none (Nat.le_refl _)]
    constructor
    · exact fun h => .inr ⟨rfl, (Option.some.inj h).symm⟩
    · rintro (h | ⟨-, rfl⟩)
      · cases h
      · rfl
  · have hlen : (l ++ [a]).length ≤ i := by
      rw [List.length_append, List.length_singleton]
      exact hgt
    rw [List.getElem?_eq_none hlen, List.getElem?_eq_none (Nat.le_of_lt hgt)]
    exact ⟨fun h => (nomatch h), fun h => h.elim (fun h => (nomatch h))
      fun heq => absurd heq.1 (Nat.ne_of_gt hgt)⟩

theorem appendable_of_lt {V : Type} {t : Std.TreeMap Nat V} {n : Nat} (h : ∀ k ∈ t, k < n) :
    PruningDB.appendable t n = true := by
  unfold PruningDB.appendable
  split
  · rename_i last hlast
    exact decide_eq_true (h last (Std.TreeMap.mem_keys.mp (List.mem_of_getLast? hlast)))
  · rfl

/-! ## What the tables hold -/

namespace PruningDB

variable [Ord K]

/-- The tables list these transactions. -/
structure Indexed (db : PruningDB K) (l : List (Entry K)) : Prop where
  index : ∀ (k : K) (id b : Nat), db.txIndices[k]? = some ⟨id, b⟩ ↔
    ∃ e, l[id]? = some e ∧ e.tx.hash = k ∧ e.height = b
  pruned : ∀ (id : Nat) v, db.txsPruned[id]? = some v ↔
    ∃ e, l[id]? = some e ∧ (e.tx.version, e.tx.prunedBlob) = v
  size_eq : db.txsPruned.size = l.length
  prunable : ∀ (id : Nat) v, db.txsPrunable[id]? = some v →
    ∃ e, l[id]? = some e ∧ e.tx.prunableBlob = v
  tip : ∀ (id : Nat) v, db.txsPrunableTip[id]? = some v → ∃ e, l[id]? = some e ∧ e.height = v

/-- A seed that the database was pruned with. -/
def SeedOk (seed : Nat) : Prop := ∃ S : Striping, S.logStripes = pruningLogStripes ∧ S.seed = seed

/-- What pruning has left of the transactions: no less than is kept and, if no pass crashed,
no more; then the tip table lists the transactions that were in the tip at their peak. -/
structure Pruned (noCrash : Prop) (db : PruningDB K) (l : List (Entry K)) : Prop
    extends db.Indexed l where
  seed_ok : ∀ seed, db.pruningSeed = some seed → SeedOk seed
  peak_zero : db.pruningSeed = none → ∀ e ∈ l, e.peak = 0
  kept : ∀ (id : Nat) e, l[id]? = some e → e.Kept db.getBlockchainPruningSeed → id ∈ db.txsPrunable
  lost : noCrash → ∀ (id : Nat) e, l[id]? = some e → id ∈ db.txsPrunable →
    e.Kept db.getBlockchainPruningSeed
  tipped : noCrash → db.pruningSeed ≠ none → ∀ (id : Nat) e, l[id]? = some e →
    inPruningTip e.height e.peak = true → id ∈ db.txsPrunableTip

variable {db : PruningDB K} {l : List (Entry K)} {noCrash : Prop}

/-! ## Adding and removing a transaction -/

theorem Indexed.pruned_lt (h : db.Indexed l) : ∀ id ∈ db.txsPruned, id < db.txsPruned.size := by
  intro id hid
  obtain ⟨v, hv⟩ := mem_iff_exists.mp hid
  obtain ⟨e, he, -⟩ := (h.pruned id v).mp hv
  exact h.size_eq ▸ (List.getElem?_eq_some_iff.mp he).1

theorem Indexed.prunable_lt (h : db.Indexed l) :
    ∀ id ∈ db.txsPrunable, id < db.txsPruned.size := by
  intro id hid
  obtain ⟨v, hv⟩ := mem_iff_exists.mp hid
  obtain ⟨e, he, -⟩ := h.prunable id v hv
  exact h.size_eq ▸ (List.getElem?_eq_some_iff.mp he).1

/-- The seed the database answers with is zero exactly when none is saved. -/
theorem Pruned.getBlockchainPruningSeed_ne_zero (h : db.Pruned noCrash l) :
    db.getBlockchainPruningSeed ≠ 0 ↔ db.pruningSeed ≠ none := by
  unfold getBlockchainPruningSeed
  cases hseed : db.pruningSeed with
  | none => exact iff_of_false (fun hne => hne rfl) (fun hne => hne rfl)
  | some seed =>
    obtain ⟨S, -, rfl⟩ := h.seed_ok seed hseed
    exact iff_of_true S.seed_ne_zero (fun hnone => nomatch hnone)

theorem Pruned.of_blocks (h : db.Pruned noCrash l) (blocks : List (List K)) :
    { db with blocks }.Pruned noCrash l :=
  ⟨⟨h.index, h.pruned, h.size_eq, h.prunable, h.tip⟩, h.seed_ok, h.peak_zero, h.kept, h.lost,
    h.tipped⟩

/-- The database holds the chain that was recorded. -/
structure Records (noCrash : Prop) (db : PruningDB K) (chain : List (BlockRecord K)) : Prop where
  blocks_eq : db.blocks = chain.map fun b => b.txs.map TxData.hash
  pruned : db.Pruned noCrash (entries chain)

variable {chain : List (BlockRecord K)}

theorem Records.length_eq (h : db.Records noCrash chain) : db.blocks.length = chain.length := by
  rw [h.blocks_eq, List.length_map]

section

variable [Std.TransOrd K] [Std.LawfulEqOrd K]

/-- A new transaction is added at the end, with its prunable part, and to the tip table. -/
theorem Pruned.addTransactionData (h : db.Pruned noCrash l) {tx : TxData K} {db' : PruningDB K}
    (hadd : db.addTransactionData tx = .ok db') :
    db'.blocks = db.blocks ∧
      db'.Pruned noCrash (l ++ [{ height := db.blocks.length, tx, peak := 0 }]) := by
  unfold PruningDB.addTransactionData at hadd
  dsimp only at hadd
  split at hadd
  · cases hadd
  rename_i hnew
  rw [appendable_of_lt h.pruned_lt, appendable_of_lt h.prunable_lt, if_neg (not_not.mpr rfl),
    if_neg (not_not.mpr rfl)] at hadd
  cases hadd
  have hsize := h.size_eq
  have hout : ∀ {i : Nat} {e : Entry K}, l[i]? = some e → db.txsPruned.size ≠ i := fun he =>
    hsize ▸ Nat.ne_of_gt (List.getElem?_eq_some_iff.mp he).1
  have hfresh : ∀ (id : Nat) e, l[id]? = some e → tx.hash ≠ e.tx.hash := by
    intro id e he heq
    have hold := (h.index e.tx.hash id e.height).mpr ⟨e, he, rfl, rfl⟩
    rw [← heq, hnew] at hold
    cases hold
  refine ⟨rfl, ⟨⟨?_, ?_, ?_, ?_, ?_⟩, h.seed_ok, ?_, ?_, ?_, ?_⟩⟩
  · intro k id b
    dsimp only
    rw [getElem?_insert_iff, h.index]
    constructor
    · rintro (⟨rfl, heq⟩ | ⟨-, e, he, rest⟩)
      · cases heq
        exact ⟨_, getElem?_concat_iff.mpr (.inr ⟨hsize, rfl⟩), rfl, rfl⟩
      · exact ⟨e, getElem?_concat_iff.mpr (.inl he), rest⟩
    · rintro ⟨e, he, rfl, rfl⟩
      rcases getElem?_concat_iff.mp he with hold | ⟨rfl, rfl⟩
      · exact .inr ⟨hfresh id e hold, e, hold, rfl, rfl⟩
      · exact .inl ⟨rfl, by rw [hsize]⟩
  · intro id v
    dsimp only
    rw [getElem?_insert_iff, h.pruned]
    constructor
    · rintro (⟨rfl, rfl⟩ | ⟨-, e, he, rest⟩)
      · exact ⟨_, getElem?_concat_iff.mpr (.inr ⟨hsize, rfl⟩), rfl⟩
      · exact ⟨e, getElem?_concat_iff.mpr (.inl he), rest⟩
    · rintro ⟨e, he, rfl⟩
      rcases getElem?_concat_iff.mp he with hold | ⟨rfl, rfl⟩
      · exact .inr ⟨hout hold, e, hold, rfl⟩
      · exact .inl ⟨hsize, rfl⟩
  · have hnot : db.txsPruned.contains db.txsPruned.size = false :=
      Bool.eq_false_iff.mpr fun hin => absurd (h.pruned_lt _ hin) (Nat.lt_irrefl _)
    rw [Std.TreeMap.size_insert, hnot, List.length_append, ← hsize]
    rfl
  · intro id v
    dsimp only
    rw [getElem?_insert_iff]
    rintro (⟨rfl, rfl⟩ | ⟨-, hold⟩)
    · exact ⟨_, getElem?_concat_iff.mpr (.inr ⟨hsize, rfl⟩), rfl⟩
    · obtain ⟨e, he, rest⟩ := h.prunable id v hold
      exact ⟨e, getElem?_concat_iff.mpr (.inl he), rest⟩
  · intro id v
    dsimp only
    intro hv
    have hcases : db.txsPruned.size = id ∧ db.blocks.length = v ∨
        db.txsPrunableTip[id]? = some v := by
      split at hv
      · exact (getElem?_insert_iff.mp hv).imp (fun heq => heq) And.right
      · exact .inr hv
    rcases hcases with ⟨rfl, rfl⟩ | hold
    · exact ⟨_, getElem?_concat_iff.mpr (.inr ⟨hsize, rfl⟩), rfl⟩
    · obtain ⟨e, he, rest⟩ := h.tip id v hold
      exact ⟨e, getElem?_concat_iff.mpr (.inl he), rest⟩
  · intro hnone e he
    rcases List.mem_append.mp he with hold | hlast
    · exact h.peak_zero hnone e hold
    · rw [List.mem_singleton.mp hlast]
  · intro id e he hkept
    rcases getElem?_concat_iff.mp he with hold | ⟨rfl, -⟩
    · exact mem_insert_iff.mpr (.inr (h.kept id e hold hkept))
    · exact mem_insert_iff.mpr (.inl hsize)
  · intro hno id e he hmem
    rcases getElem?_concat_iff.mp he with hold | ⟨-, rfl⟩
    · rcases mem_insert_iff.mp hmem with heq | hmem
      · exact absurd heq (hout hold)
      · exact h.lost hno id e hold hmem
    · exact .inr (hasUnprunedBlock_at_zero _ _)
  · intro hno hseed id e he htip
    have hne : db.getBlockchainPruningSeed ≠ 0 := h.getBlockchainPruningSeed_ne_zero.mpr hseed
    dsimp only
    rw [if_pos hne]
    rcases getElem?_concat_iff.mp he with hold | ⟨rfl, -⟩
    · exact mem_insert_iff.mpr (.inr (h.tipped hno hseed id e hold htip))
    · exact mem_insert_iff.mpr (.inl hsize)

/-- The last transaction is removed from every table. -/
theorem Pruned.removeTransactionData {e : Entry K} (h : db.Pruned noCrash (l ++ [e])) :
    ∃ db', db.removeTransactionData e.tx.hash = .ok db' ∧ db'.blocks = db.blocks ∧
      db'.Pruned noCrash l := by
  have hlast : (l ++ [e])[l.length]? = some e := List.getElem?_concat_length
  have hindex : db.txIndices[e.tx.hash]? = some ⟨l.length, e.height⟩ :=
    (h.index _ _ _).mpr ⟨e, hlast, rfl, rfl⟩
  have hpruned : db.txsPruned.contains l.length = true :=
    mem_iff_exists.mpr ⟨_, (h.pruned _ _).mpr ⟨e, hlast, rfl⟩⟩
  have hold : ∀ {i : Nat} {x : Entry K}, l[i]? = some x → (l ++ [e])[i]? = some x := fun hx =>
    getElem?_concat_iff.mpr (.inl hx)
  have hout : ∀ {i : Nat} {x : Entry K}, l[i]? = some x → l.length ≠ i := fun hx =>
    Nat.ne_of_gt (List.getElem?_eq_some_iff.mp hx).1
  have hback : ∀ {i : Nat} {x : Entry K}, l.length ≠ i → (l ++ [e])[i]? = some x →
      l[i]? = some x := fun hne hx =>
    (getElem?_concat_iff.mp hx).resolve_right fun heq => hne heq.1.symm
  unfold PruningDB.removeTransactionData
  rw [hindex]
  dsimp only
  rw [hpruned, if_neg (not_not.mpr rfl)]
  refine ⟨_, rfl, rfl, ⟨⟨?_, ?_, ?_, ?_, ?_⟩, h.seed_ok, ?_, ?_, ?_, ?_⟩⟩
  · intro k id b
    dsimp only
    rw [getElem?_erase_iff, h.index]
    constructor
    · rintro ⟨hne, x, hx, rfl, rfl⟩
      refine ⟨x, hback (fun heq => hne ?_) hx, rfl, rfl⟩
      rw [← heq, hlast] at hx
      rw [Option.some.inj hx]
    · rintro ⟨x, hx, rfl, rfl⟩
      refine ⟨fun heq => ?_, x, hold hx, rfl, rfl⟩
      -- Were the hashes the same, so would be the numbers.
      have hsame := (h.index x.tx.hash id x.height).mpr ⟨x, hold hx, rfl, rfl⟩
      rw [← heq, hindex] at hsame
      exact hout hx (congrArg TxIndexData.txId (Option.some.inj hsame))
  · intro id v
    dsimp only
    rw [getElem?_erase_iff, h.pruned]
    constructor
    · rintro ⟨hne, x, hx, rest⟩
      exact ⟨x, hback hne hx, rest⟩
    · rintro ⟨x, hx, rest⟩
      exact ⟨hout hx, x, hold hx, rest⟩
  · have hsize := h.size_eq
    rw [List.length_append, List.length_singleton] at hsize
    rw [Std.TreeMap.size_erase, hpruned, if_pos rfl, hsize, Nat.add_sub_cancel]
  · intro id v
    dsimp only
    rw [getElem?_erase_iff]
    rintro ⟨hne, hv⟩
    obtain ⟨x, hx, rest⟩ := h.prunable id v hv
    exact ⟨x, hback hne hx, rest⟩
  · intro id v
    dsimp only
    rw [getElem?_erase_iff]
    rintro ⟨hne, hv⟩
    obtain ⟨x, hx, rest⟩ := h.tip id v hv
    exact ⟨x, hback hne hx, rest⟩
  · exact fun hnone x hx => h.peak_zero hnone x (List.mem_append_left _ hx)
  · exact fun id x hx hkept => mem_erase_iff.mpr ⟨hout hx, h.kept id x (hold hx) hkept⟩
  · exact fun hno id x hx hmem => h.lost hno id x (hold hx) (mem_erase_iff.mp hmem).2
  · exact fun hno hseed id x hx htip =>
      mem_erase_iff.mpr ⟨hout hx, h.tipped hno hseed id x (hold hx) htip⟩

theorem Pruned.addTransactions {txs : List (TxData K)} {db' : PruningDB K}
    (h : db.Pruned noCrash l) (hadd : txs.foldlM PruningDB.addTransactionData db = .ok db') :
    db'.blocks = db.blocks ∧
      db'.Pruned noCrash (l ++ { txs : BlockRecord K }.entries db.blocks.length) := by
  induction txs generalizing db l with
  | nil =>
    cases hadd
    exact ⟨rfl, (List.append_nil l).symm ▸ h⟩
  | cons tx txs ih =>
    rw [List.foldlM_cons] at hadd
    cases hone : db.addTransactionData tx with
    | error e =>
      rw [hone] at hadd
      cases hadd
    | ok db₁ =>
      rw [hone] at hadd
      obtain ⟨hblocks, hpruned⟩ := h.addTransactionData hone
      obtain ⟨hblocks', hpruned'⟩ := ih hpruned hadd
      rw [hblocks, List.append_assoc] at hpruned'
      exact ⟨hblocks'.trans hblocks, hpruned'⟩

theorem Pruned.removeTransactions {es : List (Entry K)} (h : db.Pruned noCrash (l ++ es)) :
    ∃ db', (es.map fun e => e.tx.hash).reverse.foldlM PruningDB.removeTransactionData db =
        .ok db' ∧ db'.blocks = db.blocks ∧ db'.Pruned noCrash l := by
  induction es using List.reverseRecOn generalizing db with
  | nil => exact ⟨db, rfl, rfl, List.append_nil l ▸ h⟩
  | append_singleton es e ih =>
    rw [← List.append_assoc] at h
    obtain ⟨db₁, hone, hblocks, hpruned⟩ := h.removeTransactionData
    obtain ⟨db₂, hrest, hblocks', hpruned'⟩ := ih hpruned
    refine ⟨db₂, ?_, hblocks'.trans hblocks, hpruned'⟩
    rw [List.map_append, List.map_singleton, List.reverse_concat, List.foldlM_cons, hone]
    exact hrest

/-! ## Adding and removing a block -/

theorem Records.addBlock (h : db.Records noCrash chain) {txs : List (TxData K)}
    {db' : PruningDB K} (hadd : db.addBlock txs = .ok db') :
    db'.Records noCrash (chain ++ [{ txs := txs }]) := by
  unfold PruningDB.addBlock at hadd
  cases hone : txs.foldlM PruningDB.addTransactionData db with
  | error e =>
    rw [hone] at hadd
    cases hadd
  | ok db₁ =>
    rw [hone] at hadd
    cases hadd
    obtain ⟨hblocks, hpruned⟩ := h.pruned.addTransactions hone
    refine ⟨?_, ?_⟩
    · dsimp only
      rw [hblocks, h.blocks_eq, List.map_append]
      rfl
    · rw [entries_concat, ← h.length_eq]
      exact hpruned.of_blocks _

theorem Records.popBlock {b : BlockRecord K} (h : db.Records noCrash (chain ++ [b])) :
    ∃ db', db.popBlock = .ok db' ∧ db'.Records noCrash chain := by
  have hblocks := h.blocks_eq
  rw [List.map_append, List.map_singleton] at hblocks
  have hpruned := h.pruned
  rw [entries_concat] at hpruned
  have hhashes : (b.entries chain.length).map (fun e => e.tx.hash) = b.txs.map TxData.hash :=
    List.map_map
  obtain ⟨db', hrun, hblocks', hpruned'⟩ :=
    (hpruned.of_blocks db.blocks.dropLast).removeTransactions
  refine ⟨db', ?_, ?_, hpruned'⟩
  · have hlast : db.blocks.getLast? = some (b.txs.map TxData.hash) := by
      rw [hblocks, List.getLast?_concat]
    unfold PruningDB.popBlock
    rw [hlast]
    dsimp only
    rw [← hhashes]
    exact hrun
  · rw [hblocks', hblocks]
    exact List.dropLast_concat

end

/-! ## A pruning pass -/

/-- Tables that a pass at height `bh` over `db` may have come to. -/
structure Passed (l : List (Entry K)) (bh seed : Nat) (db db' : PruningDB K) : Prop where
  seed_eq : db'.pruningSeed = some seed
  blocks_eq : db'.blocks = db.blocks
  indices_eq : db'.txIndices = db.txIndices
  pruned_eq : db'.txsPruned = db.txsPruned
  prunable_sub : ∀ (id : Nat) v, db'.txsPrunable[id]? = some v → db.txsPrunable[id]? = some v
  prunable_kept : ∀ (id : Nat) e, l[id]? = some e → e.KeptAt bh seed → id ∈ db.txsPrunable →
    id ∈ db'.txsPrunable
  tip : ∀ (id : Nat) v, db'.txsPrunableTip[id]? = some v → ∃ e, l[id]? = some e ∧ e.height = v

/-- The work of a pass that went over the transactions `ids`; `adds` if it adds those of the
tip to their table. -/
structure Sweep (l : List (Entry K)) (bh seed : Nat) (db : PruningDB K) (adds : Prop)
    (ids : List Nat) (w : PruneWork K) : Prop where
  passed : Passed l bh seed db w.tables
  committed : w.committed = db ∨ Passed l bh seed db w.committed
  swept : ∀ id ∈ ids, ∀ e, l[id]? = some e → id ∈ w.tables.txsPrunable → e.KeptAt bh seed
  tip_kept : ∀ (id : Nat) e, l[id]? = some e → inPruningTip e.height bh = true →
    id ∈ db.txsPrunableTip → id ∈ w.tables.txsPrunableTip
  tip_added : adds → ∀ id ∈ ids, ∀ e, l[id]? = some e → inPruningTip e.height bh = true →
    id ∈ w.tables.txsPrunableTip

variable {bh seed : Nat} {adds : Prop} {ids : List Nat} {w : PruneWork K} {id : Nat} {e : Entry K}

theorem Sweep.prunePrunable (h : Sweep l bh seed db adds ids w) (hdb : db.Indexed l)
    (he : l[id]? = some e)
    (hadds : adds → inPruningTip e.height bh = true → id ∈ w.tables.txsPrunableTip) :
    ∃ w', w.prunePrunable bh seed id e.height = .ok w' ∧
      Sweep l bh seed db adds (id :: ids) w' := by
  have hadded : adds → ∀ i ∈ id :: ids, ∀ x, l[i]? = some x →
      inPruningTip x.height bh = true → i ∈ w.tables.txsPrunableTip := by
    intro hadds' i hi x hx htip
    rcases List.mem_cons.mp hi with rfl | hi
    · cases he.symm.trans hx
      exact hadds hadds' htip
    · exact h.tip_added hadds' i hi x hx htip
  -- Where nothing is deleted, the transaction is kept or has no prunable part any more.
  have hstay : (id ∈ w.tables.txsPrunable → e.KeptAt bh seed) →
      Sweep l bh seed db adds (id :: ids) w := by
    refine fun hid => ⟨h.passed, h.committed, ?_, h.tip_kept, hadded⟩
    intro i hi x hx hmem
    rcases List.mem_cons.mp hi with rfl | hi
    · cases he.symm.trans hx
      exact hid hmem
    · exact h.swept i hi x hx hmem
  have hpruned : w.tables.txsPruned[id]? = some (e.tx.version, e.tx.prunedBlob) := by
    rw [h.passed.pruned_eq]
    exact (hdb.pruned _ _).mpr ⟨e, he, rfl⟩
  unfold PruneWork.prunePrunable
  rw [hpruned]
  dsimp only
  by_cases hhas : hasUnprunedBlock e.height bh seed = true
  · rw [if_pos hhas]
    exact ⟨w, rfl, hstay fun _ => .inr hhas⟩
  · rw [if_neg hhas]
    by_cases hv1 : e.tx.version ≤ 1
    · rw [if_pos hv1]
      exact ⟨w, rfl, hstay fun _ => .inl hv1⟩
    · rw [if_neg hv1]
      have hlost : ¬ e.KeptAt bh seed := fun hkept => hkept.elim hv1 hhas
      by_cases hmem : w.tables.txsPrunable.contains id = true
      · rw [if_pos hmem]
        refine ⟨_, rfl, ⟨⟨h.passed.seed_eq, h.passed.blocks_eq, h.passed.indices_eq,
          h.passed.pruned_eq, ?_, ?_, h.passed.tip⟩, h.committed, ?_, h.tip_kept, hadded⟩⟩
        · exact fun i v hv => h.passed.prunable_sub i v (getElem?_erase_iff.mp hv).2
        · intro i x hx hkept hin
          refine mem_erase_iff.mpr ⟨?_, h.passed.prunable_kept i x hx hkept hin⟩
          rintro rfl
          cases he.symm.trans hx
          exact hlost hkept
        · intro i hi x hx hin
          obtain ⟨hne, hin⟩ := mem_erase_iff.mp hin
          exact h.swept i ((List.mem_cons.mp hi).resolve_left fun heq => hne heq.symm) x hx hin
      · rw [if_neg hmem]
        exact ⟨w, rfl, hstay fun hin => absurd hin hmem⟩

theorem Sweep.checkpoint (h : Sweep l bh seed db adds ids w) :
    Sweep l bh seed db adds ids w.checkpoint := by
  unfold PruneWork.checkpoint
  split
  · exact ⟨h.passed, .inr h.passed, h.swept, h.tip_kept, h.tip_added⟩
  · exact h

/-- The loop over the tip table. -/
theorem Sweep.pruneTipRecord (h : Sweep l bh seed db False ids w) (hdb : db.Indexed l)
    (he : l[id]? = some e) :
    ∃ w', pruneTipRecord bh seed w (id, e.height) = .ok w' ∧
      Sweep l bh seed db False (id :: ids) w' := by
  unfold PruningDB.pruneTipRecord
  by_cases htip : inPruningTip e.height bh = true
  · rw [if_pos htip]
    refine ⟨w, rfl, ⟨h.passed, h.committed, ?_, h.tip_kept, fun hfalse => hfalse.elim⟩⟩
    intro i hi x hx hmem
    rcases List.mem_cons.mp hi with rfl | hi
    · cases he.symm.trans hx
      exact Entry.keptAt_of_tip htip
    · exact h.swept i hi x hx hmem
  · rw [if_neg htip]
    obtain ⟨w', hrun, hw'⟩ := h.prunePrunable hdb he fun hfalse => hfalse.elim
    dsimp only
    rw [hrun]
    refine ⟨_, rfl, Sweep.checkpoint ⟨⟨hw'.passed.seed_eq, hw'.passed.blocks_eq,
      hw'.passed.indices_eq, hw'.passed.pruned_eq, hw'.passed.prunable_sub,
      hw'.passed.prunable_kept, ?_⟩, hw'.committed, hw'.swept, ?_, fun hfalse => hfalse.elim⟩⟩
    · exact fun i v hv => hw'.passed.tip i v (getElem?_erase_iff.mp hv).2
    · intro i x hx hin hmem
      refine mem_erase_iff.mpr ⟨?_, hw'.tip_kept i x hx hin hmem⟩
      rintro rfl
      cases he.symm.trans hx
      exact htip hin

/-- The loop over the transactions of the chain. -/
theorem Sweep.pruneIndexRecord (h : Sweep l bh seed db True ids w) (hdb : db.Indexed l)
    (he : l[id]? = some e) (k : K) :
    ∃ w', pruneIndexRecord bh seed w (k, ⟨id, e.height⟩) = .ok w' ∧
      Sweep l bh seed db True (id :: ids) w' := by
  unfold PruningDB.pruneIndexRecord
  dsimp only
  have htipped : Sweep l bh seed db True ids { w with tables := { w.tables with
      txsPrunableTip := if inPruningTip e.height bh = true then
        w.tables.txsPrunableTip.insert id e.height else w.tables.txsPrunableTip } } := by
    refine ⟨⟨h.passed.seed_eq, h.passed.blocks_eq, h.passed.indices_eq, h.passed.pruned_eq,
      h.passed.prunable_sub, h.passed.prunable_kept, ?_⟩, h.committed, h.swept, ?_, ?_⟩
    · intro i v hv
      dsimp only at hv
      split at hv
      · rcases getElem?_insert_iff.mp hv with ⟨rfl, rfl⟩ | ⟨-, hv⟩
        · exact ⟨e, he, rfl⟩
        · exact h.passed.tip i v hv
      · exact h.passed.tip i v hv
    · intro i x hx hin hmem
      have hold := h.tip_kept i x hx hin hmem
      dsimp only
      split
      · exact mem_insert_iff.mpr (.inr hold)
      · exact hold
    · intro hadds i hi x hx hin
      have hold := h.tip_added hadds i hi x hx hin
      dsimp only
      split
      · exact mem_insert_iff.mpr (.inr hold)
      · exact hold
  obtain ⟨w', hrun, hw'⟩ := htipped.prunePrunable hdb he fun _ hin => by
    dsimp only
    rw [if_pos hin]
    exact mem_insert_iff.mpr (.inl rfl)
  rw [hrun]
  exact ⟨_, rfl, hw'.checkpoint⟩

/-- A loop in which no record throws. -/
theorem forRecords_sweep {R : Type} {record : PruneWork K → R → Except DbError (PruneWork K)}
    {key : R → Nat} {rs : List R}
    (hstep : ∀ r ∈ rs, ∀ ids w, Sweep l bh seed db adds ids w →
      ∃ w', record w r = .ok w' ∧ Sweep l bh seed db adds (key r :: ids) w')
    (h : Sweep l bh seed db adds ids w) :
    ∃ w', forRecords record rs w = (w', none) ∧
      Sweep l bh seed db adds ((rs.map key).reverse ++ ids) w' := by
  induction rs generalizing w ids with
  | nil => exact ⟨w, rfl, h⟩
  | cons r rs ih =>
    obtain ⟨w₁, hone, hw₁⟩ := hstep r (List.mem_cons_self ..) ids w h
    obtain ⟨w₂, hrest, hw₂⟩ := ih (fun r hr => hstep r (List.mem_cons_of_mem _ hr)) hw₁
    refine ⟨w₂, ?_, ?_⟩
    · unfold forRecords
      rw [hone]
      exact hrest
    · rw [List.map_cons, List.reverse_cons, List.append_assoc]
      exact hw₂

/-! ## The seed of a pass -/

/-- A pass goes by the seed that is saved, or by a new one. -/
theorem Pruned.workerSeed (h : db.Pruned noCrash l) {mode : PruneMode} {pruningSeed random : Nat}
    (hseed : db.workerSeed mode pruningSeed random = .ok (some seed)) :
    SeedOk seed ∧ (db.pruningSeed = none ∧ mode = .prune ∨ db.pruningSeed = some seed) := by
  unfold PruningDB.workerSeed at hseed
  dsimp only at hseed
  split at hseed
  · cases hseed
  split at hseed
  · cases hseed
  cases hsaved : db.pruningSeed with
  | none =>
    rw [hsaved] at hseed
    dsimp only at hseed
    split at hseed
    · cases hseed
    rename_i hmode
    split at hseed
    · rename_i made hmade
      cases hseed
      obtain ⟨S, hS, -, hlog⟩ := Striping.exists_of_makePruningSeed (by decide) hmade
      exact ⟨⟨S, hlog, hS⟩, .inl ⟨rfl, not_not.mp hmode⟩⟩
    · cases hseed
  | some data =>
    obtain ⟨S, hlog, rfl⟩ := h.seed_ok data hsaved
    rw [hsaved] at hseed
    dsimp only at hseed
    rw [S.getPruningStripe_seed, S.getPruningLogStripes_seed] at hseed
    generalize (if getPruningStripe pruningSeed = 0 then S.own + 1
      else getPruningStripe pruningSeed) = stripe at hseed
    by_cases hstripe : S.own + 1 = stripe
    · cases hstripe
      rw [if_neg (not_not.mpr rfl), if_neg (not_not.mpr hlog), ← hlog,
        S.makePruningSeed_eq] at hseed
      cases hseed
      exact ⟨⟨S, hlog, rfl⟩, .inr rfl⟩
    · rw [if_pos hstripe] at hseed
      cases hseed

/-! ## Whole passes -/

theorem Pruned.sweep_start (h : db.Pruned noCrash l) :
    Sweep l bh seed db adds [] { tables := { db with pruningSeed := some seed }, committed := db } :=
  ⟨⟨rfl, rfl, rfl, rfl, fun _ _ hv => hv, fun _ _ _ _ hmem => hmem, h.tip⟩, .inl rfl,
    fun _ hi => (nomatch hi), fun _ _ _ _ hmem => hmem, fun _ _ hi => (nomatch hi)⟩

/-- The records gone over are all, unless the process dies. -/
theorem mem_take_getD {R : Type} {rs : List R} {records : Option Nat} (hall : records = none)
    {r : R} (hr : r ∈ rs) : r ∈ rs.take (records.getD rs.length) := by
  rw [hall]
  exact (List.take_length (l := rs)).symm ▸ hr

/-- The loop over the tip table covers it, unless the process dies. -/
theorem Pruned.prunePass_tip (h : db.Pruned noCrash l) (hsaved : db.pruningSeed = some seed)
    (records : Option Nat) :
    ∃ w ids, db.prunePass .update seed records = (w, none) ∧
      Sweep l db.blocks.length seed db False ids w ∧
      (records = none → ∀ id ∈ db.txsPrunableTip, id ∈ ids) := by
  have hstep : ∀ r ∈ db.txsPrunableTip.toList.take
      (records.getD db.txsPrunableTip.toList.length), ∀ ids w,
      Sweep l db.blocks.length seed db False ids w →
      ∃ w', pruneTipRecord db.blocks.length seed w r = .ok w' ∧
        Sweep l db.blocks.length seed db False (r.1 :: ids) w' := by
    intro r hr ids w hw
    obtain ⟨e, he, hheight⟩ := h.tip r.1 r.2
      (Std.TreeMap.mem_toList_iff_getElem?_eq_some.mp (List.mem_of_mem_take hr))
    have hrun := hw.pruneTipRecord h.toIndexed he
    rwa [hheight] at hrun
  obtain ⟨w, hrun, hw⟩ := forRecords_sweep hstep h.sweep_start
  refine ⟨w, _, ?_, hw, fun hall id hid => ?_⟩
  · unfold prunePass
    rw [hsaved]
    exact hrun
  · obtain ⟨v, hv⟩ := mem_iff_exists.mp hid
    rw [List.append_nil, List.mem_reverse]
    exact List.mem_map.mpr ⟨(id, v), mem_take_getD hall
      (Std.TreeMap.mem_toList_iff_getElem?_eq_some.mpr hv), rfl⟩

/-- The loop over the chain covers it, unless the process dies. -/
theorem Pruned.prunePass_index [Std.TransOrd K] [Std.LawfulEqOrd K] (h : db.Pruned noCrash l)
    (seed : Nat) {mode : PruneMode} (hmode : (db.pruningSeed.isSome && mode = .update) = false)
    (records : Option Nat) :
    ∃ w ids, db.prunePass mode seed records = (w, none) ∧
      Sweep l db.blocks.length seed db True ids w ∧
      (records = none → ∀ (id : Nat) e, l[id]? = some e → id ∈ ids) := by
  have hstep : ∀ r ∈ db.txIndices.toList.take (records.getD db.txIndices.toList.length),
      ∀ ids w, Sweep l db.blocks.length seed db True ids w →
      ∃ w', pruneIndexRecord db.blocks.length seed w r = .ok w' ∧
        Sweep l db.blocks.length seed db True (r.2.txId :: ids) w' := by
    intro r hr ids w hw
    obtain ⟨e, he, -, hheight⟩ := (h.index r.1 r.2.txId r.2.blockId).mp
      (Std.TreeMap.mem_toList_iff_getElem?_eq_some.mp (List.mem_of_mem_take hr))
    have hrun := hw.pruneIndexRecord h.toIndexed he r.1
    rwa [hheight] at hrun
  obtain ⟨w, hrun, hw⟩ := forRecords_sweep hstep h.sweep_start
  refine ⟨w, _, ?_, hw, fun hall id e he => ?_⟩
  · unfold prunePass
    dsimp only
    rw [hmode, if_neg Bool.false_ne_true]
    exact hrun
  · rw [List.append_nil, List.mem_reverse]
    refine List.mem_map.mpr ⟨(e.tx.hash, ⟨id, e.height⟩), mem_take_getD hall ?_, rfl⟩
    exact Std.TreeMap.mem_toList_iff_getElem?_eq_some.mpr
      ((h.index _ _ _).mpr ⟨e, he, rfl, rfl⟩)

/-! ## What a pass leaves -/

theorem Indexed.raise (h : db.Indexed l) (bh : Nat) : db.Indexed (l.map (Entry.raise bh)) := by
  have hget : ∀ (i : Nat) (P : Entry K → Prop), (∀ e, P (e.raise bh) ↔ P e) →
      ((∃ e, (l.map (Entry.raise bh))[i]? = some e ∧ P e) ↔ ∃ e, l[i]? = some e ∧ P e) := by
    intro i P hP
    rw [List.getElem?_map]
    constructor
    · rintro ⟨e, he, hPe⟩
      obtain ⟨x, hx, rfl⟩ := Option.map_eq_some_iff.mp he
      exact ⟨x, hx, (hP x).mp hPe⟩
    · rintro ⟨e, he, hPe⟩
      exact ⟨e.raise bh, by rw [he, Option.map_some], (hP e).mpr hPe⟩
  refine ⟨?_, ?_, ?_, ?_, ?_⟩
  · exact fun k i b => (h.index k i b).trans (hget i _ fun e => Iff.rfl).symm
  · exact fun i v => (h.pruned i v).trans (hget i _ fun e => Iff.rfl).symm
  · exact h.size_eq.trans (List.length_map _).symm
  · exact fun i v hv => (hget i _ fun e => Iff.rfl).mpr (h.prunable i v hv)
  · exact fun i v hv => (hget i _ fun e => Iff.rfl).mpr (h.tip i v hv)

theorem Passed.indexed {db' : PruningDB K} (hp : Passed l bh seed db db') (h : db.Indexed l) :
    db'.Indexed l := by
  refine ⟨?_, ?_, ?_, fun i v hv => h.prunable i v (hp.prunable_sub i v hv), hp.tip⟩
  · exact hp.indices_eq ▸ h.index
  · exact hp.pruned_eq ▸ h.pruned
  · exact hp.pruned_eq ▸ h.size_eq

/-- Before the first pass nothing is lost, by any seed. -/
theorem Pruned.kept_iff (h : db.Pruned noCrash l)
    (hsaved : db.pruningSeed = none ∨ db.pruningSeed = some seed) (he : l[id]? = some e) :
    e.Kept db.getBlockchainPruningSeed ↔ e.Kept seed := by
  unfold getBlockchainPruningSeed
  rcases hsaved with hnone | hsome
  · rw [hnone]
    have hpeak : e.peak = 0 := h.peak_zero hnone e (List.mem_of_getElem? he)
    refine iff_of_true (.inr rfl) (.inr ?_)
    rw [hpeak]
    exact hasUnprunedBlock_at_zero _ _
  · rw [hsome]
    rfl

/-- What a pass came to is again what pruning leaves, at the higher peak. -/
theorem Passed.pruned {db' : PruningDB K} {noCrash' : Prop} (hp : Passed l bh seed db db')
    (h : db.Pruned noCrash l) (hok : SeedOk seed)
    (hsaved : db.pruningSeed = none ∨ db.pruningSeed = some seed)
    (hlost : noCrash' → ∀ (id : Nat) e, l[id]? = some e → id ∈ db'.txsPrunable →
      e.Kept seed ∧ e.KeptAt bh seed)
    (htipped : noCrash' → ∀ (id : Nat) e, l[id]? = some e →
      inPruningTip e.height e.peak = true → inPruningTip e.height bh = true →
      id ∈ db'.txsPrunableTip) :
    db'.Pruned noCrash' (l.map (Entry.raise bh)) := by
  have hseed : db'.getBlockchainPruningSeed = seed := by
    unfold getBlockchainPruningSeed
    rw [hp.seed_eq]
    rfl
  have hget : ∀ {i : Nat} {x : Entry K}, (l.map (Entry.raise bh))[i]? = some x →
      ∃ e, l[i]? = some e ∧ e.raise bh = x := fun hx => by
    rw [List.getElem?_map] at hx
    exact Option.map_eq_some_iff.mp hx
  refine ⟨(hp.indexed h.toIndexed).raise bh, ?_, ?_, ?_, ?_, ?_⟩
  · intro other hother
    rw [hp.seed_eq] at hother
    cases hother
    exact hok
  · intro hnone
    rw [hp.seed_eq] at hnone
    cases hnone
  · intro i x hx hkept
    obtain ⟨e, he, rfl⟩ := hget hx
    rw [hseed] at hkept
    obtain ⟨hpeak, hnow⟩ := Entry.kept_raise.mp hkept
    exact hp.prunable_kept i e he hnow (h.kept i e he ((h.kept_iff hsaved he).mpr hpeak))
  · intro hno i x hx hmem
    obtain ⟨e, he, rfl⟩ := hget hx
    rw [hseed]
    exact Entry.kept_raise.mpr (hlost hno i e he hmem)
  · intro hno _ i x hx htip
    obtain ⟨e, he, rfl⟩ := hget hx
    have hboth : (inPruningTip e.height e.peak && inPruningTip e.height bh) = true :=
      inPruningTip_max _ _ _ ▸ htip
    exact htipped hno i e he (Bool.and_eq_true_iff.mp hboth).1 (Bool.and_eq_true_iff.mp hboth).2

/-- A pass over the whole chain. -/
theorem Sweep.pruned_index (hw : Sweep l bh seed db True ids w) (h : db.Pruned noCrash l)
    (hok : SeedOk seed) (hsaved : db.pruningSeed = none ∨ db.pruningSeed = some seed)
    (hall : ∀ (id : Nat) e, l[id]? = some e → id ∈ ids) :
    w.tables.Pruned noCrash (l.map (Entry.raise bh)) := by
  refine hw.passed.pruned h hok hsaved ?_ ?_
  · intro hno i e he hmem
    refine ⟨(h.kept_iff hsaved he).mp (h.lost hno i e he ?_), hw.swept i (hall i e he) e he hmem⟩
    obtain ⟨v, hv⟩ := mem_iff_exists.mp hmem
    exact mem_iff_exists.mpr ⟨v, hw.passed.prunable_sub i v hv⟩
  · exact fun _ i e he _ htip => hw.tip_added trivial i (hall i e he) e he htip

/-- A pass over the tip table: what has left the table is kept for good. -/
theorem Sweep.pruned_tip (hw : Sweep l bh seed db False ids w) (h : db.Pruned noCrash l)
    (hok : SeedOk seed) (hsaved : db.pruningSeed = some seed)
    (hall : ∀ id ∈ db.txsPrunableTip, id ∈ ids) :
    w.tables.Pruned noCrash (l.map (Entry.raise bh)) := by
  have hsome : db.pruningSeed ≠ none := fun hnone => by
    rw [hsaved] at hnone
    cases hnone
  refine hw.passed.pruned h hok (.inr hsaved) ?_ ?_
  · intro hno i e he hmem
    have hold : i ∈ db.txsPrunable := by
      obtain ⟨v, hv⟩ := mem_iff_exists.mp hmem
      exact mem_iff_exists.mpr ⟨v, hw.passed.prunable_sub i v hv⟩
    have hkept : e.Kept seed := (h.kept_iff (.inr hsaved) he).mp (h.lost hno i e he hold)
    refine ⟨hkept, ?_⟩
    by_cases htip : i ∈ db.txsPrunableTip
    · exact hw.swept i (hall i htip) e he hmem
    · -- Not in the table, so out of the tip at its peak: the block is of the node's own stripe.
      have hout : inPruningTip e.height e.peak = false :=
        Bool.eq_false_iff.mpr fun hin => htip (h.tipped hno hsome i e he hin)
      refine hkept.imp (fun hv1 => hv1) fun hhas => ?_
      rw [hasUnprunedBlock_eq, hout, Bool.false_or] at hhas
      rw [hasUnprunedBlock_eq, Bool.or_left_comm, hhas, Bool.or_true]
  · exact fun hno i e he hpeak htip =>
      hw.tip_kept i e he htip (h.tipped hno hsome i e he hpeak)

/-- A pass throws nothing; where it ends, and at its last commit, is what it may come to. -/
theorem Pruned.prunePass [Std.TransOrd K] [Std.LawfulEqOrd K] (h : db.Pruned noCrash l)
    (hok : SeedOk seed) {mode : PruneMode}
    (hsaved : db.pruningSeed = none ∧ mode = .prune ∨ db.pruningSeed = some seed)
    (records : Option Nat) :
    ∃ w, db.prunePass mode seed records = (w, none) ∧
      Passed l db.blocks.length seed db w.tables ∧
      (w.committed = db ∨ Passed l db.blocks.length seed db w.committed) ∧
      (records = none → w.tables.Pruned noCrash (l.map (Entry.raise db.blocks.length))) := by
  have hsaved' : db.pruningSeed = none ∨ db.pruningSeed = some seed := hsaved.imp And.left id
  by_cases hpath : (db.pruningSeed.isSome && decide (mode = .update)) = true
  · obtain ⟨hsome, hmode⟩ := Bool.and_eq_true_iff.mp hpath
    cases of_decide_eq_true hmode
    have hseed : db.pruningSeed = some seed := hsaved.resolve_left fun hnone => by
      rw [hnone.1] at hsome
      cases hsome
    obtain ⟨w, ids, hrun, hw, hall⟩ := h.prunePass_tip hseed records
    exact ⟨w, hrun, hw.passed, hw.committed, fun hnone => hw.pruned_tip h hok hseed (hall hnone)⟩
  · obtain ⟨w, ids, hrun, hw, hall⟩ := h.prunePass_index seed
      (Bool.eq_false_iff.mpr hpath) records
    exact ⟨w, hrun, hw.passed, hw.committed,
      fun hnone => hw.pruned_index h hok hsaved' (hall hnone)⟩

end PruningDB

/-! ## Runs -/

/-- The process dies on the way. -/
def PruningCall.IsCrash : PruningCall K → Prop
  | .crashPruning .. => True
  | .crashUpdate .. => True
  | _ => False

instance (c : PruningCall K) : Decidable c.IsCrash := by
  unfold PruningCall.IsCrash
  split <;> infer_instance

/-- The record after a pass: the peaks rise unless it was refused or had nothing to do. -/
def PruningDB.raisedBy [Ord K] (result : PruningDB K × Option DbError)
    (chain : List (BlockRecord K)) : List (BlockRecord K) :=
  if result.2 = none ∧ result.1.pruningSeed.isSome then
    chain.map (BlockRecord.raise chain.length)
  else chain

/-- The record of the chain after a call, given what it came to. -/
def PruningCall.record [Ord K] (c : PruningCall K) (result : PruningDB K × Option DbError)
    (chain : List (BlockRecord K)) : List (BlockRecord K) :=
  match c with
  | .addBlock txs => if result.2 = none then chain ++ [{ txs := txs }] else chain
  | .popBlock => if result.2 = none then chain.dropLast else chain
  | .pruneBlockchain .. | .updatePruning | .crashPruning .. | .crashUpdate .. =>
    PruningDB.raisedBy result chain
  | .refusedBlock .. | .checkPruning => chain

namespace PruningDB

variable [Ord K] {db : PruningDB K} {noCrash : Prop} {chain : List (BlockRecord K)}

theorem Records.raised {db' : PruningDB K} (h : db.Records noCrash chain)
    (hblocks : db'.blocks = db.blocks) {noCrash' : Prop} {bh : Nat}
    (hpruned : db'.Pruned noCrash' ((entries chain).map (Entry.raise bh))) :
    db'.Records noCrash' (chain.map (BlockRecord.raise bh)) := by
  refine ⟨?_, entries_raise bh chain ▸ hpruned⟩
  rw [hblocks, h.blocks_eq, List.map_map]
  rfl

theorem workerSeed_none {mode : PruneMode} {pruningSeed random : Nat}
    (hnone : db.workerSeed mode pruningSeed random = .ok none) : db.pruningSeed = none := by
  unfold workerSeed at hnone
  dsimp only at hnone
  cases hsaved : db.pruningSeed with
  | none => rfl
  | some data =>
    rw [hsaved] at hnone
    dsimp only at hnone
    generalize (if getPruningStripe pruningSeed = 0 then getPruningStripe data
      else getPruningStripe pruningSeed) = stripe at hnone
    -- No branch of a pruned database ends with nothing to do.
    repeat' split at hnone
    all_goals cases hnone

variable [Std.TransOrd K] [Std.LawfulEqOrd K]

/-- A pass is refused, has nothing to do, or leaves what is kept at the higher peak. -/
theorem Records.pruneWorker (h : db.Records noCrash chain) (mode : PruneMode)
    (pruningSeed random : Nat) {records : Option Nat} (hcrash : noCrash → records = none) :
    (db.pruneWorker mode pruningSeed random records).1.Records noCrash
      (raisedBy (db.pruneWorker mode pruningSeed random records) chain) := by
  suffices hrun : ∃ result, db.pruneWorker mode pruningSeed random records = result ∧
      result.1.Records noCrash (raisedBy result chain) by
    obtain ⟨_, rfl, hrecords⟩ := hrun
    exact hrecords
  unfold PruningDB.pruneWorker
  cases hws : db.workerSeed mode pruningSeed random with
  | error e => exact ⟨(db, some e), rfl, h⟩
  | ok found =>
    cases found with
    | none =>
      refine ⟨(db, none), rfl, ?_⟩
      rw [raisedBy, workerSeed_none hws]
      exact h
    | some seed =>
      obtain ⟨hok, hsaved⟩ := h.pruned.workerSeed hws
      obtain ⟨w, hrun, hpassed, hcommitted, hdone⟩ := h.pruned.prunePass hok hsaved records
      have hsaved' : db.pruningSeed = none ∨ db.pruningSeed = some seed := hsaved.imp And.left id
      rw [h.length_eq] at hpassed hcommitted hdone
      dsimp only
      rw [hrun]
      cases records with
      | none =>
        refine ⟨(w.tables, none), rfl, ?_⟩
        rw [raisedBy, hpassed.seed_eq, if_pos ⟨rfl, rfl⟩]
        exact h.raised hpassed.blocks_eq (hdone rfl)
      | some k =>
        have hno : ¬ noCrash := fun hno => nomatch hcrash hno
        -- At the last commit there is the database before, or part of the work.
        have hpart : ∀ {db' : PruningDB K}, Passed (entries chain) chain.length seed db db' →
            db'.Records noCrash (chain.map (BlockRecord.raise chain.length)) := fun hp =>
          h.raised hp.blocks_eq
            (hp.pruned h.pruned hok hsaved' (fun hyes => (hno hyes).elim) fun hyes =>
              (hno hyes).elim)
        refine ⟨(w.committed, none), rfl, ?_⟩
        rcases hcommitted with heq | hp
        · rw [heq]
          rcases hsaved' with hnone | hsome
          · rw [raisedBy, hnone]
            exact h
          · rw [raisedBy, hsome, if_pos ⟨rfl, rfl⟩]
            exact hpart ⟨hsome, rfl, rfl, rfl, fun _ _ hv => hv, fun _ _ _ _ hm => hm,
              h.pruned.tip⟩
        · rw [raisedBy, hp.seed_eq, if_pos ⟨rfl, rfl⟩]
          exact hpart hp

/-- A call leaves what the record of the chain then says. -/
theorem Records.call (h : db.Records noCrash chain) (c : PruningCall K)
    (hcrash : noCrash → ¬ c.IsCrash) :
    (db.call c).1.Records noCrash (c.record (db.call c) chain) := by
  cases c with
  | addBlock txs =>
    change (db.orSame (db.addBlock txs)).1.Records noCrash
      (if (db.orSame (db.addBlock txs)).2 = none then chain ++ [{ txs := txs }] else chain)
    cases hadd : db.addBlock txs with
    | error e => exact h
    | ok db' => exact h.addBlock hadd
  | refusedBlock txs why =>
    have hsame : (db.call (.refusedBlock txs why)).1 = db := by
      unfold PruningDB.call
      dsimp only
      cases txs.foldlM addTransactionData db with
      | ok db' => rfl
      | error e => rfl
    rw [hsame]
    exact h
  | popBlock =>
    change (db.orSame db.popBlock).1.Records noCrash
      (if (db.orSame db.popBlock).2 = none then chain.dropLast else chain)
    rcases List.eq_nil_or_concat chain with rfl | ⟨front, b, rfl⟩
    · have hnil : db.blocks = [] := h.blocks_eq
      have herror : db.popBlock = .error .blockDne := by
        unfold PruningDB.popBlock
        rw [hnil]
        rfl
      rw [herror]
      exact h
    · rw [List.concat_eq_append] at h ⊢
      obtain ⟨db', hpop, hdb'⟩ := h.popBlock
      rw [hpop, List.dropLast_concat]
      exact hdb'
  | pruneBlockchain pruningSeed random =>
    exact h.pruneWorker .prune pruningSeed random fun _ => rfl
  | updatePruning => exact h.pruneWorker .update 0 0 fun _ => rfl
  | crashPruning pruningSeed random records =>
    exact h.pruneWorker .prune pruningSeed random fun hno => (hcrash hno trivial).elim
  | crashUpdate records =>
    exact h.pruneWorker .update 0 0 fun hno => (hcrash hno trivial).elim
  | checkPruning =>
    -- A check writes nothing, whatever it finds.
    have hsame : (db.call .checkPruning).1 = db := by
      unfold PruningDB.call
      dsimp only
      cases db.checkPruning with
      | ok findings => rfl
      | error e => rfl
    rw [hsame]
    exact h

end PruningDB

/-- The database, and the record of the chain beside it. -/
structure TracedDB (K : Type) [Ord K] where
  db : PruningDB K := {}
  chain : List (BlockRecord K) := []

section

variable (K) [Ord K]

/-- The database as its callers see it. -/
def pruningMachine : Machine (PruningDB K) (PruningCall K) (Option DbError) where
  step db c := ((db.call c).2, (db.call c).1)

def tracedMachine : Machine (TracedDB K) (PruningCall K) (Option DbError) where
  step t c :=
    ((t.db.call c).2, { db := (t.db.call c).1, chain := c.record (t.db.call c) t.chain })

end

variable [Ord K]

/-- The record of the chain after the calls. -/
def history (calls : List (PruningCall K)) : List (BlockRecord K) :=
  ((tracedMachine K).final {} calls).chain

theorem traced_db (t : TracedDB K) (calls : List (PruningCall K)) :
    ((tracedMachine K).final t calls).db = (pruningMachine K).final t.db calls := by
  induction calls generalizing t with
  | nil => rfl
  | cons c calls ih => exact ih _

theorem PruningDB.Records.empty {noCrash : Prop} : ({} : PruningDB K).Records noCrash [] := by
  refine ⟨rfl, ⟨⟨?_, ?_, rfl, ?_, ?_⟩, ?_, ?_, ?_, ?_, ?_⟩⟩
  · exact fun k id b => ⟨fun h => (nomatch h), fun ⟨_, h, _⟩ => (nomatch h)⟩
  · exact fun id v => ⟨fun h => (nomatch h), fun ⟨_, h, _⟩ => (nomatch h)⟩
  · exact fun id v h => (nomatch h)
  · exact fun id v h => (nomatch h)
  · exact fun seed h => (nomatch h)
  · exact fun _ e he => (nomatch he)
  · exact fun id e he => (nomatch he)
  · exact fun _ id e he => (nomatch he)
  · exact fun _ _ id e he => (nomatch he)

variable [Std.TransOrd K] [Std.LawfulEqOrd K]

theorem records_run (noCrash : Prop) (calls : List (PruningCall K))
    (hcrash : noCrash → ∀ c ∈ calls, ¬ c.IsCrash) :
    ((pruningMachine K).final {} calls).Records noCrash (history calls) := by
  have hrun := Machine.final_induction (M := tracedMachine K) (s := {})
    (I := fun t => t.db.Records noCrash t.chain) calls PruningDB.Records.empty fun t c hc h =>
      h.call c fun hno => hcrash hno c hc
  have hdb := traced_db ({} : TracedDB K) calls
  exact hdb ▸ hrun

/-! ## Reading the tables -/

namespace PruningDB

variable {db : PruningDB K} {l : List (Entry K)} {noCrash : Prop} {id : Nat} {e : Entry K}

instance (e : Entry K) (seed : Nat) : Decidable (e.Kept seed) :=
  inferInstanceAs (Decidable (_ ∨ _))

omit [Std.TransOrd K] [Std.LawfulEqOrd K] in
theorem Indexed.getPrunedTxBlob (h : db.Indexed l) (he : l[id]? = some e) :
    db.getPrunedTxBlob e.tx.hash = some e.tx.prunedBlob := by
  unfold PruningDB.getPrunedTxBlob
  rw [(h.index _ _ _).mpr ⟨e, he, rfl, rfl⟩]
  dsimp only
  rw [(h.pruned _ _).mpr ⟨e, he, rfl⟩]
  rfl

omit [Std.TransOrd K] [Std.LawfulEqOrd K] in
/-- The whole blob is there as long as the prunable part is. -/
theorem Indexed.getTxBlob (h : db.Indexed l) (he : l[id]? = some e) :
    db.getTxBlob e.tx.hash =
      if id ∈ db.txsPrunable then some (e.tx.prunedBlob ++ e.tx.prunableBlob) else none := by
  unfold PruningDB.getTxBlob
  rw [(h.index _ _ _).mpr ⟨e, he, rfl, rfl⟩]
  dsimp only
  rw [(h.pruned _ _).mpr ⟨e, he, rfl⟩]
  by_cases hmem : id ∈ db.txsPrunable
  · obtain ⟨v, hv⟩ := mem_iff_exists.mp hmem
    obtain ⟨x, hx, rfl⟩ := h.prunable id v hv
    cases he.symm.trans hx
    rw [hv, if_pos hmem]
  · have hnone : db.txsPrunable[id]? = none := by
      cases hv : db.txsPrunable[id]? with
      | none => rfl
      | some v => exact absurd (mem_iff_exists.mpr ⟨v, hv⟩) hmem
    rw [hnone, if_neg hmem]

end PruningDB

/-- In every run, whatever passes die on the way, the blob of a transaction is there whole as
long as its block is kept at the highest chain that a pass saw since it was added. -/
theorem getTxBlob_of_kept (calls : List (PruningCall K)) (e : Entry K)
    (he : e ∈ entries (history calls))
    (hkept : e.Kept ((pruningMachine K).final {} calls).getBlockchainPruningSeed) :
    ((pruningMachine K).final {} calls).getTxBlob e.tx.hash =
      some (e.tx.prunedBlob ++ e.tx.prunableBlob) := by
  have h := (records_run False calls fun hfalse => hfalse.elim).pruned
  obtain ⟨id, hid⟩ := List.mem_iff_getElem?.mp he
  rw [h.toIndexed.getTxBlob hid, if_pos (h.kept id e hid hkept)]

/-! ### A pruned chain

A transaction at height 0, one at height 4097 and 5600 blocks on it: with the second stripe
the first of them is lost. -/

def lostTx : TxData Nat := ⟨7, 2, [2, 5], [9]⟩

def keptTx : TxData Nat := ⟨8, 2, [2, 6], [9]⟩

/-- The first transaction, `m` blocks, the second, and `n` blocks. -/
def longCalls (m n : Nat) : List (PruningCall Nat) :=
  .addBlock [lostTx] :: (List.replicate m (.addBlock []) ++
    .addBlock [keptTx] :: List.replicate n (.addBlock []))

omit [Std.TransOrd K] [Std.LawfulEqOrd K] in
/-- Blocks without transactions leave the tables as they are. -/
theorem final_addBlocks (t : TracedDB K) (n : Nat) :
    (tracedMachine K).final t (List.replicate n (.addBlock [])) =
      { db := { t.db with blocks := t.db.blocks ++ List.replicate n [] }
        chain := t.chain ++ List.replicate n { txs := [] } } := by
  induction n generalizing t with
  | zero => simp
  | succ n ih =>
    have hstep : ((tracedMachine K).step t (.addBlock [])).2 =
        { db := { t.db with blocks := t.db.blocks ++ [[]] }
          chain := t.chain ++ [{ txs := [] }] } := rfl
    rw [List.replicate_succ, Machine.final_cons, hstep, ih]
    simp [List.replicate_succ]

/-- What they leave. -/
def longDB (m n : Nat) : PruningDB Nat where
  blocks := [7] :: (List.replicate m [] ++ [8] :: List.replicate n [])
  txIndices := ({} : Std.TreeMap Nat TxIndexData).insert 7 ⟨0, 0⟩ |>.insert 8 ⟨1, m + 1⟩
  txsPruned := ({} : Std.TreeMap Nat (Nat × List UInt8)).insert 0 (2, [2, 5]) |>.insert 1 (2, [2, 6])
  txsPrunable := ({} : Std.TreeMap Nat (List UInt8)).insert 0 [9] |>.insert 1 [9]

def longChain (m n : Nat) : List (BlockRecord Nat) :=
  { txs := [lostTx] } :: (List.replicate m { txs := [] } ++
    { txs := [keptTx] } :: List.replicate n { txs := [] })

/-- The tables after the first transaction, and after the second on any blocks. -/
theorem addBlock_kept (blocks : List (List Nat)) (chain : List (BlockRecord Nat)) :
    ((tracedMachine Nat).step
      { db := { ((tracedMachine Nat).step {} (.addBlock [lostTx])).2.db with blocks := blocks }
        chain := chain } (.addBlock [keptTx])).2 =
      { db := { longDB 0 0 with
          blocks := blocks ++ [[8]]
          txIndices := ({} : Std.TreeMap Nat TxIndexData).insert 7 ⟨0, 0⟩
            |>.insert 8 ⟨1, blocks.length⟩ }
        chain := chain ++ [{ txs := [keptTx] }] } := rfl

theorem long_final (m n : Nat) (calls : List (PruningCall Nat)) :
    (tracedMachine Nat).final {} (longCalls m n ++ calls) =
      (tracedMachine Nat).final { db := longDB m n, chain := longChain m n } calls := by
  have hfirst : ((tracedMachine Nat).step {} (.addBlock [lostTx])).2.db.blocks = [[7]] := rfl
  have hchain : ((tracedMachine Nat).step {} (.addBlock [lostTx])).2.chain =
      [{ txs := [lostTx] }] := rfl
  rw [longCalls, Machine.final_append, Machine.final_cons, Machine.final_append, final_addBlocks,
    Machine.final_cons, addBlock_kept, final_addBlocks, hfirst, hchain]
  simp [longDB, longChain]

theorem longChain_length (m n : Nat) : (longChain m n).length = m + n + 2 := by
  simp [longChain]
  omega

theorem lostTx_mem (m n bh : Nat) :
    ⟨0, lostTx, bh⟩ ∈ entries ((longChain m n).map (BlockRecord.raise bh)) := by
  refine List.mem_flatMap.mpr ⟨({ txs := [lostTx], peak := bh }, 0), ?_, ?_⟩
  · exact List.mem_zipIdx_iff_getElem?.mpr (by simp [longChain, BlockRecord.raise])
  · exact List.mem_singleton.mpr rfl

theorem keptTx_mem (m n bh : Nat) :
    ⟨m + 1, keptTx, bh⟩ ∈ entries ((longChain m n).map (BlockRecord.raise bh)) := by
  refine List.mem_flatMap.mpr ⟨({ txs := [keptTx], peak := bh }, m + 1), ?_, ?_⟩
  · exact List.mem_zipIdx_iff_getElem?.mpr (by simp [longChain, BlockRecord.raise])
  · exact List.mem_singleton.mpr rfl

/-- The pass with the second stripe, over 9698 blocks. -/
theorem long_prune :
    ((longDB 4096 5600).call (.pruneBlockchain 0 1)).2 = none ∧
      ((longDB 4096 5600).call (.pruneBlockchain 0 1)).1.pruningSeed = makePruningSeed 2 3 := by
  have hlen : (longDB 4096 5600).blocks.length = 9698 := by
    have hgeneral : ∀ m n, (longDB m n).blocks.length = m + n + 2 := fun m n => by
      simp [longDB]
      omega
    exact hgeneral 4096 5600
  unfold PruningDB.call PruningDB.pruneWorker PruningDB.prunePass
  simp only [hlen]
  decide +kernel

/-- The blocks, and the pass. -/
def prunedCalls : List (PruningCall Nat) := longCalls 4096 5600 ++ [.pruneBlockchain 0 1]

theorem long_final_call (m n : Nat) (c : PruningCall Nat) :
    (tracedMachine Nat).final {} (longCalls m n ++ [c]) =
      { db := ((longDB m n).call c).1
        chain := c.record ((longDB m n).call c) (longChain m n) } :=
  long_final m n [c]

theorem prunedCalls_seed :
    ((pruningMachine Nat).final {} prunedCalls).pruningSeed = makePruningSeed 2 3 := by
  have hdb := traced_db ({} : TracedDB Nat) prunedCalls
  rw [prunedCalls, long_final_call] at hdb
  rw [prunedCalls, ← hdb, long_prune.2]

theorem prunedCalls_history :
    history prunedCalls = (longChain 4096 5600).map (BlockRecord.raise 9698) := by
  have hlen : (longChain 4096 5600).length = 9698 := longChain_length 4096 5600
  have hseed : (makePruningSeed 2 3).isSome = true := by decide
  rw [history, prunedCalls, long_final_call, PruningCall.record, PruningDB.raisedBy, long_prune.1,
    long_prune.2, if_pos ⟨rfl, hseed⟩, hlen]

theorem longCalls_noCrash (m n : Nat) : ∀ c ∈ longCalls m n, ¬ c.IsCrash := by
  intro c hc
  simp only [longCalls, List.mem_cons, List.mem_append, List.mem_replicate] at hc
  rcases hc with rfl | ⟨-, rfl⟩ | rfl | ⟨-, rfl⟩
  all_goals exact id

theorem prunedCalls_noCrash : ∀ c ∈ prunedCalls, ¬ c.IsCrash := by
  rw [prunedCalls, List.forall_mem_append, List.forall_mem_singleton]
  exact ⟨longCalls_noCrash 4096 5600, id⟩

/-- Its block is in the second stripe. -/
theorem getTxBlob_of_kept_sample :
    ((pruningMachine Nat).final {} prunedCalls).getTxBlob 8 = some ([2, 6] ++ [9]) := by
  have hmem := keptTx_mem 4096 5600 9698
  rw [← prunedCalls_history] at hmem
  have hkept : (⟨4096 + 1, keptTx, 9698⟩ : Entry Nat).Kept
      ((pruningMachine Nat).final {} prunedCalls).getBlockchainPruningSeed := by
    unfold PruningDB.getBlockchainPruningSeed
    rw [prunedCalls_seed]
    decide +kernel
  exact getTxBlob_of_kept prunedCalls ⟨4096 + 1, keptTx, 9698⟩ hmem hkept

/-- In every run in which no pass dies, the database has of each transaction of the chain the
blob without its prunable part and, exactly if the block is kept at its peak, the whole. -/
theorem getTxBlob_run (calls : List (PruningCall K)) (hno : ∀ c ∈ calls, ¬ c.IsCrash)
    (e : Entry K) (he : e ∈ entries (history calls)) :
    ((pruningMachine K).final {} calls).getPrunedTxBlob e.tx.hash = some e.tx.prunedBlob ∧
      ((pruningMachine K).final {} calls).getTxBlob e.tx.hash =
        if e.Kept ((pruningMachine K).final {} calls).getBlockchainPruningSeed then
          some (e.tx.prunedBlob ++ e.tx.prunableBlob)
        else none := by
  have h := (records_run True calls fun _ => hno).pruned
  obtain ⟨id, hid⟩ := List.mem_iff_getElem?.mp he
  refine ⟨h.toIndexed.getPrunedTxBlob hid, ?_⟩
  rw [h.toIndexed.getTxBlob hid]
  exact if_congr ⟨h.lost trivial id e hid, h.kept id e hid⟩ rfl rfl

/-- The first block is in the first stripe: of its transaction the prunable part is lost. -/
theorem getTxBlob_run_sample :
    ((pruningMachine Nat).final {} prunedCalls).getPrunedTxBlob 7 = some [2, 5] ∧
      ((pruningMachine Nat).final {} prunedCalls).getTxBlob 7 = none := by
  have hmem := lostTx_mem 4096 5600 9698
  rw [← prunedCalls_history] at hmem
  have hrun := getTxBlob_run prunedCalls prunedCalls_noCrash _ hmem
  have hlost : ¬ (⟨0, lostTx, 9698⟩ : Entry Nat).Kept
      ((pruningMachine Nat).final {} prunedCalls).getBlockchainPruningSeed := by
    unfold PruningDB.getBlockchainPruningSeed
    rw [prunedCalls_seed]
    decide +kernel
  rw [if_neg hlost] at hrun
  exact hrun

/-! ## Checking -/

namespace PruningDB

variable {db : PruningDB K} {chain : List (BlockRecord K)}

omit [Std.TransOrd K] [Std.LawfulEqOrd K] in
theorem checkIndexRecord_nil (h : db.Records True chain) (hpeak : ∀ b ∈ chain, b.peak = chain.length)
    {seed : Nat} (hsaved : db.pruningSeed = some seed) {id : Nat} {e : Entry K}
    (he : (entries chain)[id]? = some e) (k : K) :
    db.checkIndexRecord seed (k, ⟨id, e.height⟩) = .ok [] := by
  have hbh : e.peak = db.blocks.length := by
    obtain ⟨b, hb, hin⟩ := List.mem_flatMap.mp (List.mem_of_getElem? he)
    obtain ⟨tx, -, rfl⟩ := List.mem_map.mp hin
    rw [h.length_eq]
    exact hpeak b.1 (List.fst_mem_of_mem_zipIdx hb)
  have hseed : db.getBlockchainPruningSeed = seed := by
    unfold getBlockchainPruningSeed
    rw [hsaved]
    rfl
  have hsome : db.pruningSeed ≠ none := fun hnone => by
    rw [hsaved] at hnone
    cases hnone
  have hkept : e.Kept seed → db.txsPrunable.contains id = true := fun hk =>
    h.pruned.kept id e he (hseed.symm ▸ hk)
  have htip : (inPruningTip e.height db.blocks.length && !db.txsPrunableTip.contains id) =
      false := by
    cases hin : inPruningTip e.height db.blocks.length with
    | false => rfl
    | true =>
      have hmem : db.txsPrunableTip.contains id = true :=
        h.pruned.tipped trivial hsome id e he (hbh ▸ hin)
      rw [hmem]
      rfl
  unfold checkIndexRecord
  dsimp only
  rw [htip, if_neg Bool.false_ne_true]
  by_cases hhas : hasUnprunedBlock e.height db.blocks.length seed = true
  · rw [if_pos hhas, hkept (.inr (hbh.symm ▸ hhas)), if_pos rfl]
    rfl
  · rw [if_neg hhas, (h.pruned.toIndexed.pruned _ _).mpr ⟨e, he, rfl⟩]
    dsimp only
    by_cases hv1 : e.tx.version ≤ 1
    · rw [if_pos hv1, hkept (.inl hv1), if_pos rfl]
      rfl
    · rw [if_neg hv1, if_neg]
      intro hmem
      have hk : e.Kept seed := hseed ▸ h.pruned.lost trivial id e he hmem
      exact hk.elim hv1 fun htrue => hhas (hbh ▸ htrue)

omit [Std.TransOrd K] [Std.LawfulEqOrd K] in
theorem mapM_nil {R V : Type} {f : R → Except DbError (List V)} {rs : List R}
    (h : ∀ r ∈ rs, f r = .ok []) : (rs.mapM f).map List.flatten = .ok [] := by
  induction rs with
  | nil => rfl
  | cons r rs ih =>
    have hrest := ih fun r hr => h r (List.mem_cons_of_mem _ hr)
    rw [List.mapM_cons, h r (List.mem_cons_self ..)]
    cases hmap : rs.mapM f with
    | error err =>
      rw [hmap] at hrest
      cases hrest
    | ok vs =>
      rw [hmap] at hrest
      exact hrest

omit [Std.TransOrd K] [Std.LawfulEqOrd K] in
theorem workerSeed_unsaved (hsaved : db.pruningSeed = none) {mode : PruneMode}
    (hmode : mode ≠ .prune) : db.workerSeed mode 0 0 = .ok none := by
  unfold workerSeed
  rw [hsaved]
  exact if_pos hmode

omit [Std.TransOrd K] [Std.LawfulEqOrd K] in
/-- Without a seed of its own a call goes by the one that is saved. -/
theorem workerSeed_saved {S : Striping} (hsaved : db.pruningSeed = some S.seed)
    (hlog : S.logStripes = pruningLogStripes) (mode : PruneMode) :
    db.workerSeed mode 0 0 = .ok (some S.seed) := by
  unfold workerSeed
  rw [hsaved]
  have hunset : getPruningStripe 0 = 0 := rfl
  have hlogs : ¬ (getPruningLogStripes 0 ≠ 0 ∧ getPruningLogStripes 0 ≠ pruningLogStripes) := by
    decide
  have hrange : ¬ getPruningStripe 0 > 1 <<< pruningLogStripes := by decide
  dsimp only
  rw [if_neg hlogs, if_neg hrange, if_pos hunset, S.getPruningStripe_seed,
    S.getPruningLogStripes_seed, if_neg (not_not.mpr rfl), if_neg (not_not.mpr hlog), ← hlog,
    S.makePruningSeed_eq]

/-- After a pass at the height of the chain the check finds nothing wrong. -/
theorem Records.checkPruning (h : db.Records True chain)
    (hpeak : db.pruningSeed.isSome → ∀ b ∈ chain, b.peak = chain.length) :
    db.checkPruning = .ok [] := by
  unfold PruningDB.checkPruning
  cases hsaved : db.pruningSeed with
  | none =>
    rw [workerSeed_unsaved hsaved (by decide)]
    rfl
  | some seed =>
    obtain ⟨S, hlog, rfl⟩ := h.pruned.seed_ok seed hsaved
    rw [workerSeed_saved hsaved hlog]
    change (db.txIndices.toList.mapM (db.checkIndexRecord S.seed)).map List.flatten = _
    refine mapM_nil fun r hr => ?_
    obtain ⟨e, he, -, hheight⟩ := (h.pruned.index r.1 r.2.txId r.2.blockId).mp
      (Std.TreeMap.mem_toList_iff_getElem?_eq_some.mp hr)
    have hrecord := checkIndexRecord_nil h (hpeak (hsaved ▸ rfl)) hsaved he r.1
    rwa [hheight] at hrecord

/-- An update throws nothing. -/
theorem Records.updatePruning {noCrash : Prop} (h : db.Records noCrash chain) :
    (db.call .updatePruning).2 = none := by
  change (db.pruneWorker .update 0 0 none).2 = none
  unfold PruningDB.pruneWorker
  cases hsaved : db.pruningSeed with
  | none => rw [workerSeed_unsaved hsaved (by decide)]
  | some seed =>
    obtain ⟨S, hlog, rfl⟩ := h.pruned.seed_ok seed hsaved
    have hpass : db.pruningSeed = none ∧ PruneMode.update = .prune ∨
        db.pruningSeed = some S.seed := .inr hsaved
    obtain ⟨w, hrun, -⟩ := h.pruned.prunePass ⟨S, hlog, rfl⟩ hpass none
    rw [workerSeed_saved hsaved hlog]
    dsimp only
    rw [hrun]

end PruningDB

/-- In every run in which no pass dies and that does not cut the chain below where a pass saw
it, the check after an update finds every transaction as it should be. -/
theorem checkPruning_update (calls : List (PruningCall K)) (hno : ∀ c ∈ calls, ¬ c.IsCrash)
    (hpeak : ∀ b ∈ history calls, b.peak ≤ (history calls).length) :
    (((pruningMachine K).final {} calls).call .updatePruning).1.checkPruning = .ok [] := by
  have h := records_run True calls fun _ => hno
  have hnext := h.call .updatePruning fun _ hcrash => hcrash
  refine hnext.checkPruning fun hsome b hb => ?_
  have hraised : PruningCall.record .updatePruning
      (((pruningMachine K).final {} calls).call .updatePruning) (history calls) =
        (history calls).map (BlockRecord.raise (history calls).length) :=
    if_pos ⟨h.updatePruning, hsome⟩
  rw [hraised] at hb ⊢
  obtain ⟨b, hin, rfl⟩ := List.mem_map.mp hb
  rw [List.length_map]
  exact Nat.max_eq_right (hpeak b hin)

theorem prunedCalls_peak (b : BlockRecord Nat) (hb : b ∈ history prunedCalls) :
    b.peak ≤ (history prunedCalls).length := by
  have hzero : ∀ b ∈ longChain 4096 5600, b.peak = 0 := by
    intro b hb
    simp only [longChain, List.mem_cons, List.mem_append, List.mem_replicate] at hb
    rcases hb with rfl | ⟨-, rfl⟩ | rfl | ⟨-, rfl⟩
    all_goals rfl
  rw [prunedCalls_history] at hb ⊢
  obtain ⟨b, hin, rfl⟩ := List.mem_map.mp hb
  rw [List.length_map, longChain_length]
  change max b.peak 9698 ≤ _
  rw [hzero b hin]
  decide

theorem checkPruning_update_sample :
    (((pruningMachine Nat).final {} prunedCalls).call .updatePruning).1.checkPruning = .ok [] :=
  checkPruning_update prunedCalls prunedCalls_noCrash prunedCalls_peak

end RandomLite.Monero
