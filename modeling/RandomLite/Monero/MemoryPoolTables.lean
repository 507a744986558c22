-- SUMMARY: The table of the memory pool, its index of key images and its weight: what has to agree, and what keeps it.
import RandomLite.Monero.MemoryPool

/-!
# Tables of the memory pool

The pool keeps an index of the key images its transactions spend, and the sum of their weights.
`Held` says how they agree with its table. A removal finds all that it has to remove; an
insertion puts all key images of a transaction into the index, or none.
-/

namespace RandomLite.Monero

open InvertedIndex KeyedTable

/-! ## Inputs -/

namespace PoolInput

variable {I : Type} {vin : List (PoolInput I)}

@[simp] theorem keyImages_map (kImages : List I) : keyImages (kImages.map .toKey) = kImages := by
  unfold keyImages
  rw [List.filterMap_map]
  exact List.filterMap_some

theorem map_keyImages (h : checkInputsTypesSupported vin = true) :
    (keyImages vin).map .toKey = vin := by
  induction vin with
  | nil => rfl
  | cons input vin ih =>
    obtain ⟨hinput, hvin⟩ := Bool.and_eq_true_iff.mp h
    cases input with
    | toKey kImage => exact congrArg (PoolInput.toKey kImage :: ·) (ih hvin)
    | other => cases hinput

/-- Inputs that spend key images, none of them twice. -/
structure Spendable (vin : List (PoolInput I)) : Prop where
  map_eq : (keyImages vin).map .toKey = vin
  ne_nil : keyImages vin ≠ []
  nodup : (keyImages vin).Nodup

theorem spendable_of_checkTxSemantic [DecidableEq I] (h : checkTxSemantic vin = true) :
    Spendable vin := by
  unfold checkTxSemantic at h
  rw [Bool.and_eq_true, Bool.and_eq_true, decide_eq_true_iff] at h
  obtain ⟨⟨hne, hsupported⟩, hnodup⟩ := h
  refine ⟨map_keyImages hsupported, fun hnil => ?_, hnodup⟩
  have hvin : vin = [] := by rw [← map_keyImages hsupported, hnil, List.map_nil]
  rw [hvin] at hne
  cases hne

end PoolInput

namespace MemoryPool

variable {K I R : Type} [Ord K] [Ord I] [DecidableEq K]
  {s : MemoryPool K I R} {id : K} {kImages : List I} {maxWeight : Nat}

/-! ## Key images -/

/-- No other transaction spends what this one does, or a block brings it. -/
def Sole (s : MemoryPool K I R) (method : RelayMethod) (id : K) (kImages : List I) : Prop :=
  method = .block ∨ ∀ k ∈ kImages,
    listed s.spentKeyImages k = [] ∨ listed s.spentKeyImages k = [id]

section

variable [Std.TransOrd I] [Std.LawfulEqOrd I]

/-- Key images that no other transaction has go in, unless the pool shows the transaction. -/
theorem insertKeyImages_new {method : RelayMethod} (hnodup : kImages.Nodup)
    (hsole : Sole s method id kImages)
    (hnew : (∀ k ∈ kImages, id ∉ listed s.spentKeyImages k) ∨
      s.txpoolTxMatchesCategory id .legacy = false) :
    insertKeyImages id method (kImages.map .toKey) s =
      (true, { s with
        spentKeyImages := addAll s.spentKeyImages kImages id
        cookie := s.cookie + 1 }) := by
  induction kImages generalizing s with
  | nil => rfl
  | cons k kImages ih =>
    obtain ⟨hk, hrest⟩ := List.nodup_cons.mp hnodup
    have hhead : ¬ (method ≠ .block ∧ ¬ (listed s.spentKeyImages k = [] ∨
        listed s.spentKeyImages k = [id])) := by
      rintro ⟨hblock, hother⟩
      exact hother (hsole.resolve_left hblock k List.mem_cons_self)
    have hprivate : (decide (id ∉ listed s.spentKeyImages k) ||
        !s.txpoolTxMatchesCategory id .legacy) = true := by
      rw [Bool.or_eq_true, decide_eq_true_iff, Bool.not_eq_true']
      exact hnew.imp (fun h => h k List.mem_cons_self) fun h => h
    -- The sets of the later images are still as they were.
    have hlater : ∀ k' ∈ kImages, listed (InvertedIndex.add s.spentKeyImages k id) k' =
        listed s.spentKeyImages k' := fun k' hk' =>
      listed_add_of_ne fun heq => hk (heq ▸ hk')
    have htail := ih (s := { s with spentKeyImages := InvertedIndex.add s.spentKeyImages k id }) hrest
      (hsole.imp_right fun h k' hk' => by
        rw [hlater k' hk']
        exact h k' (List.mem_cons_of_mem _ hk'))
      (hnew.imp_left fun h k' hk' => by
        rw [hlater k' hk']
        exact h k' (List.mem_cons_of_mem _ hk'))
    rw [List.map_cons, insertKeyImages]
    dsimp only
    rw [if_neg hhead, if_pos hprivate, htail]
    rfl

omit [Std.TransOrd I] [Std.LawfulEqOrd I] in
/-- A transaction that the pool shows does not go in twice. -/
theorem insertKeyImages_shown {method : RelayMethod} {k : I}
    (hlisted : id ∈ listed s.spentKeyImages k)
    (hshown : s.txpoolTxMatchesCategory id .legacy = true) :
    insertKeyImages id method ((k :: kImages).map .toKey) s = (false, s) := by
  rw [List.map_cons, insertKeyImages]
  dsimp only
  split
  · rfl
  · have hsame : InvertedIndex.add s.spentKeyImages k id = s.spentKeyImages := if_pos hlisted
    rw [if_neg, hsame]
    rw [Bool.or_eq_true, decide_eq_true_iff, Bool.not_eq_true', hshown]
    rintro (hnew | hfalse)
    · exact hnew hlisted
    · cases hfalse

theorem removeTransactionKeyimages_listed (hnodup : kImages.Nodup)
    (hlisted : ∀ k ∈ kImages, id ∈ listed s.spentKeyImages k) :
    removeTransactionKeyimages id (kImages.map .toKey) s =
      (true, { s with
        spentKeyImages := removeAll s.spentKeyImages kImages id
        cookie := s.cookie + 1 }) := by
  induction kImages generalizing s with
  | nil => rfl
  | cons k kImages ih =>
    obtain ⟨hk, hrest⟩ := List.nodup_cons.mp hnodup
    have hlater : ∀ k' ∈ kImages, id ∈ listed (InvertedIndex.remove s.spentKeyImages k id) k' :=
      fun k' hk' => by
        rw [listed_remove_of_ne fun heq : k = k' => hk (heq ▸ hk')]
        exact hlisted k' (List.mem_cons_of_mem _ hk')
    have htail := ih (s := { s with spentKeyImages := InvertedIndex.remove s.spentKeyImages k id })
      hrest hlater
    rw [List.map_cons, removeTransactionKeyimages,
      if_neg (not_not_intro (hlisted k List.mem_cons_self)), htail]
    rfl

end

theorem haveTxKeyimgesAsSpent_eq_false {tx : PoolTransaction I}
    (h : s.haveTxKeyimgesAsSpent tx id = false) {k : I} (hk : k ∈ PoolInput.keyImages tx.vin) :
    listed s.spentKeyImages k = [] ∨
      listed s.spentKeyImages k = [id] := by
  have hspent := List.any_eq_false.mp h k hk
  unfold haveTxKeyimgAsSpent at hspent
  split at hspent
  · exact .inl ‹_›
  · rename_i id' heq
    split at hspent
    · exact absurd rfl hspent
    · rename_i hsame
      rw [heq, Decidable.not_not.mp hsame]
      exact .inr rfl
  · exact absurd rfl hspent

/-! ## The table, the index and the weight -/

/-- The table with what has to agree with it. Every id stands for one transaction, of which the
inputs and the weight matter here. -/
structure Held (vin : K → List (PoolInput I)) (weight : K → UInt64) (s : MemoryPool K I R) :
    Prop where
  stored : ∀ id e, s.txs[id]? = some e → e.tx.vin = vin id ∧ e.details.weight = weight id
  spendable : ∀ id ∈ s.txs, PoolInput.Spendable (vin id)
  index : Indexes s.spentKeyImages fun k id => id ∈ s.txs ∧ k ∈ PoolInput.keyImages (vin id)
  parsed : ∀ id tx, s.parsedTxCache[id]? = some tx → tx.vin = vin id
  counted : total (fun e => e.details.weight.toNat) s.txs ≤ s.txpoolWeight
  /-- Of two that spend the same, a block brought one. -/
  exclusive : ∀ id id' e e' k, s.txs[id]? = some e → s.txs[id']? = some e' → id ≠ id' →
    k ∈ PoolInput.keyImages (vin id) → k ∈ PoolInput.keyImages (vin id') →
    e.details.keptByBlock = true ∨ e'.details.keptByBlock = true
  /-- The flag of a block is the only one of its entry. -/
  method : ∀ (id : K) (e : PoolEntry I), s.txs[id]? = some e → e.details.keptByBlock = true →
    e.details.getRelayMethod = .block

namespace Held

variable [DecidableEq I] [Std.TransOrd K] [Std.LawfulEqOrd K] [Std.TransOrd I] [Std.LawfulEqOrd I]
  {vin : K → List (PoolInput I)} {weight : K → UInt64} {e : PoolEntry I}

omit [DecidableEq K] [DecidableEq I] [Std.TransOrd K] [Std.LawfulEqOrd K] [Std.TransOrd I]
  [Std.LawfulEqOrd I] in
theorem of_eq {s' : MemoryPool K I R} (h : Held vin weight s) (htxs : s'.txs = s.txs)
    (hspent : s'.spentKeyImages = s.spentKeyImages) (hweight : s'.txpoolWeight = s.txpoolWeight)
    (hparsed : ∀ id tx, s'.parsedTxCache[id]? = some tx → tx.vin = vin id) :
    Held vin weight s' where
  stored := htxs ▸ h.stored
  spendable := htxs ▸ h.spendable
  index := by
    rw [hspent, htxs]
    exact h.index
  parsed := hparsed
  counted := by
    rw [htxs, hweight]
    exact h.counted
  exclusive := htxs ▸ h.exclusive
  method := htxs ▸ h.method

omit [DecidableEq K] [DecidableEq I] [Std.LawfulEqOrd K] [Std.LawfulEqOrd I] in
theorem empty (maxWeight : Nat) :
    Held vin weight ({ txpoolMaxWeight := maxWeight } : MemoryPool K I R) where
  stored := fun id e he => by
    rw [Std.TreeMap.getElem?_emptyc] at he
    cases he
  spendable := fun id hid => absurd hid Std.TreeMap.not_mem_emptyc
  index := Indexes.empty.congr fun k id =>
    ⟨False.elim, fun hin => absurd hin.1 Std.TreeMap.not_mem_emptyc⟩
  parsed := fun id tx htx => by
    rw [Std.TreeMap.getElem?_emptyc] at htx
    cases htx
  counted := Nat.le_refl 0
  exclusive := fun id id' e e' k he => by
    rw [Std.TreeMap.getElem?_emptyc] at he
    cases he
  method := fun id e he => by
    rw [Std.TreeMap.getElem?_emptyc] at he
    cases he

/-! ### Removal -/

omit [DecidableEq K] [DecidableEq I] [Std.TransOrd I] [Std.LawfulEqOrd I] in
theorem weight_le (h : Held vin weight s) (he : s.txs[id]? = some e) :
    e.details.weight.toNat ≤ s.txpoolWeight := by
  have hcounted := h.counted
  rw [total_of_some he] at hcounted
  omega

omit [DecidableEq I] in
/-- A removal finds all it has to remove. -/
theorem removeEntry_eq (h : Held vin weight s) (he : s.txs[id]? = some e) :
    s.removeEntry id e.details.weight (vin id) =
      { s with
        txs := s.txs.erase id
        txpoolWeight := s.txpoolWeight - e.details.weight.toNat
        spentKeyImages := removeAll s.spentKeyImages (PoolInput.keyImages (vin id)) id
        cookie := s.cookie + 1 } := by
  have hid : id ∈ s.txs := mem_iff_exists.mpr ⟨e, he⟩
  have hspendable := h.spendable id hid
  have hreduce : reduceTxpoolWeight e.details.weight { s with txs := s.txs.erase id } =
      { s with
        txs := s.txs.erase id
        txpoolWeight := s.txpoolWeight - e.details.weight.toNat } :=
    if_neg (Nat.not_lt.mpr (h.weight_le he))
  have hremove := removeTransactionKeyimages_listed
    (s := { s with
      txs := s.txs.erase id
      txpoolWeight := s.txpoolWeight - e.details.weight.toNat })
    hspendable.nodup fun k hk => (h.index.mem_iff k id).mpr ⟨hid, hk⟩
  rw [hspendable.map_eq] at hremove
  unfold MemoryPool.removeEntry
  dsimp only
  rw [hreduce, hremove]

theorem removeEntry (h : Held vin weight s) (he : s.txs[id]? = some e) :
    Held vin weight (s.removeEntry id e.details.weight (vin id)) := by
  rw [h.removeEntry_eq he]
  constructor
  case stored => exact fun id' e' he' => h.stored id' e' (getElem?_erase_iff.mp he').2
  case spendable => exact fun id' hid' => h.spendable id' (mem_erase_iff.mp hid').2
  case index =>
    refine (h.index.removeAll (PoolInput.keyImages (vin id)) id).congr fun k id' => ?_
    rw [mem_erase_iff]
    constructor
    · rintro ⟨⟨hid', hk⟩, hother⟩
      exact ⟨⟨fun heq => hother ⟨heq ▸ hk, heq.symm⟩, hid'⟩, hk⟩
    · rintro ⟨⟨hne, hid'⟩, hk⟩
      exact ⟨⟨hid', hk⟩, fun hboth => hne hboth.2.symm⟩
  case parsed => exact h.parsed
  case counted =>
    have hcounted := h.counted
    rw [total_of_some he] at hcounted
    dsimp only
    omega
  case exclusive =>
    exact fun i j ei ej k hi hj => h.exclusive i j ei ej k (getElem?_erase_iff.mp hi).2
      (getElem?_erase_iff.mp hj).2
  case method => exact fun id' e' he' => h.method id' e' (getElem?_erase_iff.mp he').2

/-! ### Insertion -/

omit [DecidableEq I] [Std.TransOrd K] [Std.LawfulEqOrd K] in
/-- The key images of a transaction all go in, or nothing changes. -/
theorem insertKeyImages (h : Held vin weight s) (method : RelayMethod)
    (hspendable : PoolInput.Spendable (vin id))
    (hsole : Sole s method id (PoolInput.keyImages (vin id))) :
    MemoryPool.insertKeyImages id method (vin id) s = (false, s) ∨
    MemoryPool.insertKeyImages id method (vin id) s =
      (true, { s with
        spentKeyImages := addAll s.spentKeyImages (PoolInput.keyImages (vin id)) id
        cookie := s.cookie + 1 }) := by
  rw [← hspendable.map_eq, PoolInput.keyImages_map]
  by_cases hshown : id ∈ s.txs ∧ s.txpoolTxMatchesCategory id .legacy = true
  · obtain ⟨k, rest, hvin⟩ := List.exists_cons_of_ne_nil hspendable.ne_nil
    rw [hvin]
    refine .inl (insertKeyImages_shown ((h.index.mem_iff k id).mpr ⟨hshown.1, ?_⟩) hshown.2)
    rw [hvin]
    exact List.mem_cons_self
  · refine .inr (insertKeyImages_new hspendable.nodup hsole ?_)
    by_cases hid : id ∈ s.txs
    · exact .inr (Bool.eq_false_iff.mpr fun hlegacy => hshown ⟨hid, hlegacy⟩)
    · exact .inl fun k _ hin => hid ((h.index.mem_iff k id).mp hin).1

omit [Std.LawfulEqOrd K] in
/-- A transaction goes in; whether it was there before, the sum counts it. -/
theorem put {s' : MemoryPool K I R} (h : Held vin weight s)
    (hspendable : PoolInput.Spendable (vin id))
    (htx : e.tx.vin = vin id) (hweight : e.details.weight = weight id)
    (hmethod : e.details.keptByBlock = true → e.details.getRelayMethod = .block)
    (hexclusive : e.details.keptByBlock = true ∨ ∀ k ∈ PoolInput.keyImages (vin id),
      listed s.spentKeyImages k = [] ∨ listed s.spentKeyImages k = [id])
    (htxs : ∀ id' e', s'.txs[id']? = some e' ↔ id = id' ∧ e = e' ∨ id ≠ id' ∧ s.txs[id']? = some e')
    (hspent : s'.spentKeyImages = addAll s.spentKeyImages (PoolInput.keyImages (vin id)) id)
    (hcache : s'.parsedTxCache = s.parsedTxCache)
    (hcounted : total (fun e => e.details.weight.toNat) s'.txs ≤ s'.txpoolWeight) :
    Held vin weight s' := by
  have hmem : ∀ id', id' ∈ s'.txs ↔ id = id' ∨ id' ∈ s.txs := fun id' => by
    rw [mem_iff_exists, mem_iff_exists]
    constructor
    · rintro ⟨e', he'⟩
      obtain ⟨heq, -⟩ | ⟨-, hold⟩ := (htxs id' e').mp he'
      · exact .inl heq
      · exact .inr ⟨e', hold⟩
    · intro hid'
      by_cases heq : id = id'
      · exact ⟨e, (htxs id' e).mpr (.inl ⟨heq, rfl⟩)⟩
      · obtain ⟨e', he'⟩ := hid'.resolve_left heq
        exact ⟨e', (htxs id' e').mpr (.inr ⟨heq, he'⟩)⟩
  -- No other transaction spends an image of one that a block did not bring.
  have halone : ∀ id' k, id ≠ id' → id' ∈ s.txs → k ∈ PoolInput.keyImages (vin id) →
      k ∈ PoolInput.keyImages (vin id') → e.details.keptByBlock = true := by
    intro id' k hne hid' hk hk'
    refine hexclusive.resolve_right fun hsole => ?_
    have hin := (h.index.mem_iff k id').mpr ⟨hid', hk'⟩
    obtain hnil | hone := hsole k hk
    · rw [hnil] at hin
      cases hin
    · rw [hone] at hin
      exact hne (List.mem_singleton.mp hin).symm
  constructor
  case stored =>
    intro id' e' he'
    obtain ⟨rfl, rfl⟩ | ⟨-, hold⟩ := (htxs id' e').mp he'
    · exact ⟨htx, hweight⟩
    · exact h.stored id' e' hold
  case spendable =>
    intro id' hid'
    obtain rfl | hold := (hmem id').mp hid'
    · exact hspendable
    · exact h.spendable id' hold
  case index =>
    rw [hspent]
    refine (h.index.addAll (PoolInput.keyImages (vin id)) id).congr fun k id' => ?_
    rw [hmem]
    constructor
    · rintro (⟨hid', hk⟩ | ⟨hk, rfl⟩)
      · exact ⟨.inr hid', hk⟩
      · exact ⟨.inl rfl, hk⟩
    · rintro ⟨rfl | hid', hk⟩
      · exact .inr ⟨hk, rfl⟩
      · exact .inl ⟨hid', hk⟩
  case parsed => exact hcache ▸ h.parsed
  case counted => exact hcounted
  case exclusive =>
    intro i j ei ej k hi hj hne hki hkj
    obtain ⟨rfl, rfl⟩ | ⟨hidi, hoi⟩ := (htxs i ei).mp hi <;>
      obtain ⟨rfl, rfl⟩ | ⟨hidj, hoj⟩ := (htxs j ej).mp hj
    · exact absurd rfl hne
    · exact .inl (halone j k hidj (mem_iff_exists.mpr ⟨ej, hoj⟩) hki hkj)
    · exact .inr (halone i k hidi (mem_iff_exists.mpr ⟨ei, hoi⟩) hkj hki)
    · exact h.exclusive i j ei ej k hoi hoj hne hki hkj
  case method =>
    intro id' e' he'
    obtain ⟨rfl, rfl⟩ | ⟨-, hold⟩ := (htxs id' e').mp he'
    · exact hmethod
    · exact h.method id' e' hold

end Held

/-! ## Relay methods -/

omit [Ord K] [Ord I] [DecidableEq K] in
theorem takenRelay_eq_block {a : AddedTx K I} {existing : Option TxpoolTxMeta} :
    takenRelay a existing = .block ↔ a.txRelay = .block := by
  unfold takenRelay
  split
  · rename_i hstem
    rw [hstem.1]
    exact ⟨fun h => (nomatch h), fun h => (nomatch h)⟩
  · exact Iff.rfl

@[simp] theorem getRelayMethod_setRelayMethod (details : TxpoolTxMeta) (method : RelayMethod) :
    (details.setRelayMethod method).getRelayMethod = method := by
  cases method <;> rfl

theorem keptByBlock_of_getRelayMethod {details : TxpoolTxMeta}
    (h : details.getRelayMethod = .block) : details.keptByBlock = true := by
  unfold TxpoolTxMeta.getRelayMethod at h
  split at h
  · rename_i hflags
    -- The other flags count for even numbers.
    cases hkept : details.keptByBlock with
    | true => rfl
    | false =>
      rw [hkept] at hflags
      revert hflags
      cases details.doNotRelay <;> cases details.isLocal <;> cases details.isForwarding <;>
        cases details.dandelionppStem <;> decide
  all_goals cases h

theorem rank_le_block (method : RelayMethod) : method.rank ≤ RelayMethod.block.rank := by
  cases method <;> decide

/-- An upgrade leaves a transaction of a block as it is. -/
theorem upgradeRelayMethod_kept {details : TxpoolTxMeta} {method : RelayMethod}
    (h : details.keptByBlock = true → details.getRelayMethod = .block) :
    (details.keptByBlock = true → (details.upgradeRelayMethod method).2.keptByBlock = true) ∧
      ((details.upgradeRelayMethod method).2.keptByBlock = true →
        (details.upgradeRelayMethod method).2.getRelayMethod = .block) := by
  unfold TxpoolTxMeta.upgradeRelayMethod
  split
  · rename_i hlt
    refine ⟨fun hkept => ?_, fun hblock => ?_⟩
    · rw [h hkept] at hlt
      exact absurd hlt (rank_le_block method).not_gt
    · exact (getRelayMethod_setRelayMethod details method).trans (of_decide_eq_true hblock)
  · exact ⟨fun hkept => hkept, h⟩

theorem upgradeRelayMethod_block {details : TxpoolTxMeta}
    (h : (details.upgradeRelayMethod .block).1 = true) :
    (details.upgradeRelayMethod .block).2.keptByBlock = true := by
  unfold TxpoolTxMeta.upgradeRelayMethod at h ⊢
  split at h
  · rename_i hlt
    rw [if_pos hlt]
    rfl
  · cases h

/-! ## The limit -/

/-- At most one transaction of the table was not brought by a block. -/
def AtMostOneNotKept (s : MemoryPool K I R) : Prop :=
  ∀ (id id' : K) (e e' : PoolEntry I), s.txs[id]? = some e → s.txs[id']? = some e' →
    e.details.keptByBlock = false → e'.details.keptByBlock = false → id = id'

/-- The limit that `prune` keeps. -/
def Limited (maxWeight : Nat) (s : MemoryPool K I R) : Prop :=
  s.txpoolMaxWeight = maxWeight ∧ (s.txpoolWeight ≤ maxWeight ∨ AtMostOneNotKept s)

/-- Transactions left, and nothing else happened to the table. -/
structure Shrinks (s s' : MemoryPool K I R) : Prop where
  lookup : ∀ (id : K) (e : PoolEntry I), s'.txs[id]? = some e → s.txs[id]? = some e
  weight_le : s'.txpoolWeight ≤ s.txpoolWeight
  maxWeight_eq : s'.txpoolMaxWeight = s.txpoolMaxWeight

namespace Shrinks

variable {s' s'' : MemoryPool K I R}

omit [DecidableEq K] in
theorem refl : Shrinks s s := ⟨fun _ _ h => h, Nat.le_refl _, rfl⟩

omit [DecidableEq K] in
theorem trans (h : Shrinks s s') (h' : Shrinks s' s'') : Shrinks s s'' where
  lookup := fun id e he => h.lookup id e (h'.lookup id e he)
  weight_le := h'.weight_le.trans h.weight_le
  maxWeight_eq := h'.maxWeight_eq.trans h.maxWeight_eq

omit [DecidableEq K] in
theorem limited (h : Shrinks s s') (hlimited : Limited maxWeight s) : Limited maxWeight s' := by
  refine ⟨h.maxWeight_eq.trans hlimited.1, hlimited.2.imp h.weight_le.trans ?_⟩
  exact fun hone id id' e e' he he' => hone id id' e e' (h.lookup id e he) (h.lookup id' e' he')

end Shrinks

section

variable [DecidableEq I] [Std.TransOrd K] [Std.LawfulEqOrd K] [Std.TransOrd I] [Std.LawfulEqOrd I]
  {vin : K → List (PoolInput I)} {weight : K → UInt64} {e : PoolEntry I}

omit [DecidableEq I] in
theorem Held.remove_shrinks (h : Held vin weight s) (he : s.txs[id]? = some e) :
    Shrinks s ((s.removeEntry id e.details.weight (vin id)).removeTxFromTransientLists id) := by
  rw [h.removeEntry_eq he]
  exact ⟨fun id' e' he' => (getElem?_erase_iff.mp he').2, Nat.sub_le _ _, rfl⟩

/-! ## Frames -/

/-- The pool is as it was, but for what no invariant reads. -/
structure SamePool (s s' : MemoryPool K I R) : Prop where
  txs : s'.txs = s.txs
  spent : s'.spentKeyImages = s.spentKeyImages
  sorted : s'.txsByFeeAndReceiveTime = s.txsByFeeAndReceiveTime
  weight : s'.txpoolWeight = s.txpoolWeight
  maxWeight : s'.txpoolMaxWeight = s.txpoolMaxWeight

omit [DecidableEq K] [DecidableEq I] [Std.TransOrd K] [Std.LawfulEqOrd K] [Std.TransOrd I]
  [Std.LawfulEqOrd I] in
theorem SamePool.limited {s' : MemoryPool K I R} (h : SamePool s s') (hlimited : Limited maxWeight s) :
    Limited maxWeight s' :=
  Shrinks.limited ⟨fun _ _ he => h.txs ▸ he, h.weight.le, h.maxWeight⟩ hlimited

omit [DecidableEq K] [DecidableEq I] [Std.TransOrd K] [Std.LawfulEqOrd K] [Std.TransOrd I]
  [Std.LawfulEqOrd I] in
theorem samePool_cacheParsed (a : AddedTx K I) : SamePool s (s.cacheParsed a) := by
  unfold cacheParsed
  split
  · exact ⟨rfl, rfl, rfl, rfl, rfl⟩
  · exact ⟨rfl, rfl, rfl, rfl, rfl⟩

omit [DecidableEq K] [DecidableEq I] [Std.TransOrd K] [Std.LawfulEqOrd K] [Std.TransOrd I]
  [Std.LawfulEqOrd I] in
theorem samePool_setIfLess (candidate : Int64) : SamePool s (s.setIfLess candidate) := by
  unfold setIfLess
  split
  · exact ⟨rfl, rfl, rfl, rfl, rfl⟩
  · exact ⟨rfl, rfl, rfl, rfl, rfl⟩

omit [DecidableEq K] [DecidableEq I] [Std.TransOrd K] [Std.LawfulEqOrd K] [Std.TransOrd I]
  [Std.LawfulEqOrd I] in
theorem parsed_setIfLess (candidate : Int64) :
    (s.setIfLess candidate).parsedTxCache = s.parsedTxCache := by
  unfold setIfLess
  split
  · rfl
  · rfl

omit [DecidableEq K] [DecidableEq I] [Std.TransOrd K] [Std.LawfulEqOrd K] [Std.TransOrd I]
  [Std.LawfulEqOrd I] in
theorem samePool_checkTxInputs (env : PoolEnv K I) (tx : PoolTransaction I) (id : K)
    (known : Hash) (keptByBlock : Bool) :
    SamePool s (s.checkTxInputs env tx id known keptByBlock).2 := by
  unfold checkTxInputs
  split
  · exact ⟨rfl, rfl, rfl, rfl, rfl⟩
  · split
    · exact ⟨rfl, rfl, rfl, rfl, rfl⟩
    · exact ⟨rfl, rfl, rfl, rfl, rfl⟩

omit [DecidableEq K] [DecidableEq I] [Std.TransOrd K] [Std.LawfulEqOrd K] [Std.TransOrd I]
  [Std.LawfulEqOrd I] in
theorem parsed_checkTxInputs (env : PoolEnv K I) (tx : PoolTransaction I) (id : K)
    (known : Hash) (keptByBlock : Bool) :
    (s.checkTxInputs env tx id known keptByBlock).2.parsedTxCache = s.parsedTxCache := by
  unfold checkTxInputs
  split
  · rfl
  · split
    · rfl
    · rfl

/-- What a call may not change in the entry of a transaction that stays in the pool. -/
structure SameOffer (details details' : TxpoolTxMeta) : Prop where
  weight : details'.weight = details.weight
  fee : details'.fee = details.fee
  receiveTime : details'.receiveTime = details.receiveTime
  pruned : details'.pruned = details.pruned
  kept : details'.keptByBlock = details.keptByBlock
  method : details'.getRelayMethod = details.getRelayMethod

omit [DecidableEq K] [DecidableEq I] [Std.TransOrd K] [Std.LawfulEqOrd K] [Std.TransOrd I]
  [Std.LawfulEqOrd I] in
/-- What the loop writes into an entry leaves all that the pool relies on. -/
theorem isTransactionReadyToGo_details (r : FillRequest K I) (id : K) (e : PoolEntry I) :
    SameOffer e.details (s.isTransactionReadyToGo r id e).1.details := by
  unfold isTransactionReadyToGo
  split
  · exact ⟨rfl, rfl, rfl, rfl, rfl, rfl⟩
  · dsimp only
    split
    · exact ⟨rfl, rfl, rfl, rfl, rfl, rfl⟩
    · exact ⟨rfl, rfl, rfl, rfl, rfl, rfl⟩

omit [DecidableEq K] [DecidableEq I] [Std.TransOrd K] [Std.LawfulEqOrd K] [Std.TransOrd I]
  [Std.LawfulEqOrd I] in
theorem isTransactionReadyToGo_snd (r : FillRequest K I) (id : K) (e : PoolEntry I) :
    (s.isTransactionReadyToGo r id e).2 = s ∨
      (s.isTransactionReadyToGo r id e).2 =
        (s.checkTxInputs r.env e.tx id e.details.validInputVerificationId false).2 := by
  unfold isTransactionReadyToGo
  split
  · exact .inl rfl
  · dsimp only
    split
    · exact .inr rfl
    · exact .inr rfl

omit [DecidableEq K] [DecidableEq I] [Std.TransOrd K] [Std.LawfulEqOrd K] [Std.TransOrd I]
  [Std.LawfulEqOrd I] in
theorem samePool_isTransactionReadyToGo (r : FillRequest K I) (id : K) (e : PoolEntry I) :
    SamePool s (s.isTransactionReadyToGo r id e).2 ∧
      (s.isTransactionReadyToGo r id e).2.parsedTxCache = s.parsedTxCache := by
  obtain heq | heq := isTransactionReadyToGo_snd (s := s) r id e
  · rw [heq]
    exact ⟨⟨rfl, rfl, rfl, rfl, rfl⟩, rfl⟩
  · rw [heq]
    exact ⟨samePool_checkTxInputs _ _ _ _ _, parsed_checkTxInputs _ _ _ _ _⟩

omit [DecidableEq K] [DecidableEq I] [Std.TransOrd K] [Std.LawfulEqOrd K] [Std.TransOrd I]
  [Std.LawfulEqOrd I] in
theorem updateTxpoolTx_eq (he : s.txs[id]? = some e) (details : TxpoolTxMeta) :
    s.updateTxpoolTx id details =
      some { s with txs := s.txs.insert id { e with details } } := by
  unfold updateTxpoolTx
  rw [he, Option.map_some]

omit [DecidableEq K] [DecidableEq I] [Std.TransOrd K] [Std.LawfulEqOrd K] [Std.TransOrd I]
  [Std.LawfulEqOrd I] in
/-- What was found of a transaction stands in its entry, or nothing new was found. -/
theorem recheckTx_snd (r : FillRequest K I) (he : s.txs[id]? = some e) :
    (s.recheckTx r id e).2 = (s.isTransactionReadyToGo r id e).2 ∨
      (s.recheckTx r id e).2 =
        { (s.isTransactionReadyToGo r id e).2 with
          txs := s.txs.insert id { e with details := (s.isTransactionReadyToGo r id e).1.details } } := by
  have htxs := (samePool_isTransactionReadyToGo (s := s) r id e).1.txs
  unfold recheckTx
  dsimp only
  split
  · exact .inl rfl
  · rw [updateTxpoolTx_eq (by rw [htxs]; exact he), Option.getD_some, htxs]
    exact .inr rfl

/-! ## Calls -/

/-- A call for a transaction whose inputs and weight are those that its id stands for, and which
was checked before if the call says so. -/
structure Regular (vin : K → List (PoolInput I)) (weight : K → UInt64) (a : AddedTx K I) :
    Prop where
  vin_eq : a.tx.vin = vin a.id
  weight_eq : a.txWeight = weight a.id
  checked : a.version = a.nicVerifiedHfVersion → PoolInput.checkTxSemantic a.tx.vin = true

omit [Std.TransOrd K] [Std.LawfulEqOrd K] [Std.TransOrd I] [Std.LawfulEqOrd I] in
/-- A refusal marks those that spend the same, if anything. -/
theorem refuseTx_some {env : PoolEnv K I} {a : AddedTx K I} {tvc : TxVerificationContext}
    {s' : MemoryPool K I R} (h : s.refuseTx env a = some (tvc, s')) :
    s' = s ∨ s' = s.markDoubleSpend a.tx := by
  unfold refuseTx at h
  dsimp only at h
  split at h
  · exact .inl (Prod.ext_iff.mp (Option.some.inj h)).2.symm
  split at h
  · exact .inl (Prod.ext_iff.mp (Option.some.inj h)).2.symm
  split at h
  · exact .inl (Prod.ext_iff.mp (Option.some.inj h)).2.symm
  split at h
  · exact .inl (Prod.ext_iff.mp (Option.some.inj h)).2.symm
  split at h
  · exact .inr (Prod.ext_iff.mp (Option.some.inj h)).2.symm
  split at h
  · exact .inl (Prod.ext_iff.mp (Option.some.inj h)).2.symm
  · cases h

omit [Std.TransOrd K] [Std.LawfulEqOrd K] [Std.TransOrd I] [Std.LawfulEqOrd I] in
theorem refuseTx_none {env : PoolEnv K I} {a : AddedTx K I} (h : s.refuseTx env a = none) :
    (a.txRelay = .block ∨ s.haveTxKeyimgesAsSpent a.tx a.id = false) ∧
      (a.version = a.nicVerifiedHfVersion ∨ PoolInput.checkTxSemantic a.tx.vin = true) := by
  unfold refuseTx at h
  dsimp only at h
  split at h
  · cases h
  split at h
  · cases h
  split at h
  · cases h
  split at h
  · cases h
  split at h
  · cases h
  rename_i hspent
  split at h
  · cases h
  rename_i hverified
  constructor
  · by_cases hblock : a.txRelay = .block
    · exact .inl hblock
    · refine .inr (Bool.eq_false_iff.mpr fun htrue => hspent ?_)
      rw [htrue, decide_eq_false hblock]
      rfl
  · by_cases hversion : a.version = a.nicVerifiedHfVersion
    · exact .inl hversion
    · refine .inr ?_
      rw [decide_eq_true hversion, Bool.true_and, Bool.not_eq_true', Bool.not_eq_false] at hverified
      exact (Bool.and_eq_true_iff.mp hverified).1

/-! ## Many removals -/

/-- Transactions went from the sorted list, and the rest is as it was. -/
structure OffList (s : MemoryPool K I R) (ids : List K) (s' : MemoryPool K I R) : Prop where
  txs : s'.txs = s.txs
  spent : s'.spentKeyImages = s.spentKeyImages
  parsed : s'.parsedTxCache = s.parsedTxCache
  weight : s'.txpoolWeight = s.txpoolWeight
  maxWeight : s'.txpoolMaxWeight = s.txpoolMaxWeight
  sorted : s'.txsByFeeAndReceiveTime = s.txsByFeeAndReceiveTime.filter fun x => x.id ∉ ids

omit [DecidableEq I] [Std.TransOrd K] [Std.LawfulEqOrd K] [Std.TransOrd I] [Std.LawfulEqOrd I] in
theorem offList_timeOut (rows : List (K × PoolEntry I)) :
    OffList s (rows.map (·.1)) (rows.foldl (fun s row => s.timeOut row.1) s) := by
  induction rows generalizing s with
  | nil => exact ⟨rfl, rfl, rfl, rfl, rfl, (List.filter_eq_self.mpr fun _ _ => by simp).symm⟩
  | cons row rows ih =>
    have h := ih (s := s.timeOut row.1)
    refine ⟨h.txs, h.spent, h.parsed, h.weight, h.maxWeight, h.sorted.trans ?_⟩
    refine List.filter_filter.trans (List.filter_congr fun x _ => ?_)
    rw [Bool.eq_iff_iff, Bool.and_eq_true, decide_eq_true_iff, decide_eq_true_iff,
      decide_eq_true_iff, List.map_cons, List.mem_cons]
    tauto

/-- Every row goes from the table, with what it left in the index and the weight. -/
theorem Held.removeEntries {rows : List (K × PoolEntry I)} (h : Held vin weight s)
    (hrows : ∀ row ∈ rows, s.txs[row.1]? = some row.2) (hnodup : (rows.map (·.1)).Nodup)
    {s' : MemoryPool K I R}
    (hs' : rows.foldl (fun s row => s.removeEntry row.1 row.2.details.weight row.2.tx.vin) s = s') :
    Held vin weight s' ∧ Shrinks s s' ∧ (∀ id, id ∈ s'.txs ↔ id ∈ s.txs ∧ id ∉ rows.map (·.1)) ∧
      s'.txsByFeeAndReceiveTime = s.txsByFeeAndReceiveTime := by
  induction rows generalizing s with
  | nil =>
    obtain rfl : s = s' := hs'
    exact ⟨h, .refl, fun id => by simp, rfl⟩
  | cons row rows ih =>
    obtain ⟨hnew, hrest⟩ := List.nodup_cons.mp hnodup
    have hrow := hrows row List.mem_cons_self
    have heq := h.removeEntry_eq hrow
    rw [List.foldl_cons, (h.stored row.1 row.2 hrow).1] at hs'
    obtain ⟨hheld, hshrinks, hmem, hsorted⟩ := ih (h.removeEntry hrow) (fun other hother => by
      rw [heq]
      exact getElem?_erase_iff.mpr
        ⟨fun hsame => hnew (List.mem_map.mpr ⟨other, hother, hsame.symm⟩),
        hrows other (List.mem_cons_of_mem _ hother)⟩) hrest hs'
    have hfirst : Shrinks s (s.removeEntry row.1 row.2.details.weight (vin row.1)) := by
      rw [heq]
      exact ⟨fun id e he => (getElem?_erase_iff.mp he).2, Nat.sub_le _ _, rfl⟩
    refine ⟨hheld, hfirst.trans hshrinks, fun id => ?_, hsorted.trans (by rw [heq])⟩
    rw [hmem, heq, mem_erase_iff, List.map_cons, List.mem_cons]
    tauto

end

end MemoryPool

end RandomLite.Monero
