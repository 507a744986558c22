-- SUMMARY: What the calls of the memory pool keep: its index of key images, its weight and limit, and its sorted list.
import RandomLite.Monero.MemoryPoolTables

/-!
# Calls of the memory pool

The sorted list has the transactions of the table, the best paying ones first. With that and
with what `Held` says, the calls that add, take, refuse and mine transactions keep all that they
have to keep.
-/

namespace RandomLite.Monero

open InvertedIndex KeyedTable

namespace MemoryPool

variable {K I R : Type} [Ord K] [Ord I] [DecidableEq K] [LinearOrder R]
  {s : MemoryPool K I R} {id : K} {maxWeight : Nat} {feePerWeight : UInt64 → UInt64 → R}

/-! ## The sorted list -/

omit [Ord K] [DecidableEq K] in
/-- The list is sorted by what a transaction pays, and by age among those that pay the same. -/
theorem txFeeCompare_iff {a b : SortedTx K R} : txFeeCompare a b = true ↔
    b.feePerWeight < a.feePerWeight ∨
      a.feePerWeight = b.feePerWeight ∧ a.receiveTime < b.receiveTime := by
  unfold txFeeCompare
  obtain hlt | heq | hgt := lt_trichotomy b.feePerWeight a.feePerWeight
  · rw [if_pos hlt]
    exact iff_of_true rfl (.inl hlt)
  · rw [heq, if_neg (lt_irrefl _), if_neg (lt_irrefl _), decide_eq_true_iff]
    exact ⟨fun h => .inr ⟨rfl, h⟩, fun h => h.elim (absurd · (lt_irrefl _)) And.right⟩
  · rw [if_neg hgt.not_gt, if_pos hgt]
    exact iff_of_false nofun fun h => h.elim hgt.not_gt fun h => hgt.ne h.1

omit [Ord K] [DecidableEq K] in
theorem txFeeCompare_trans {a b c : SortedTx K R} (hab : txFeeCompare a b = true)
    (hbc : txFeeCompare b c = true) : txFeeCompare a c = true := by
  rw [txFeeCompare_iff] at *
  obtain hab | ⟨heq, hab⟩ := hab <;> obtain hbc | ⟨heq', hbc⟩ := hbc
  · exact .inl (hbc.trans hab)
  · exact .inl (heq' ▸ hab)
  · exact .inl (heq ▸ hbc)
  · exact .inr ⟨heq.trans heq', UInt64.lt_trans hab hbc⟩

omit [Ord K] [DecidableEq K] in
theorem txFeeCompare_asymm {a b : SortedTx K R} (h : txFeeCompare a b = true) :
    ¬ txFeeCompare b a = true := by
  intro hba
  rw [txFeeCompare_iff] at *
  obtain hab | ⟨heq, hab⟩ := h <;> obtain hba | ⟨heq', hba⟩ := hba
  · exact hab.not_gt hba
  · exact hab.ne heq'
  · exact hba.ne heq
  · exact UInt64.lt_asymm hab hba

omit [Ord K] [DecidableEq K] in
theorem insertSorted_perm (x : SortedTx K R) (l : List (SortedTx K R)) :
    (insertSorted x l).Perm (x :: l) := by
  induction l with
  | nil => exact .refl _
  | cons y l ih =>
    unfold insertSorted
    split
    · exact .refl _
    · exact (ih.cons y).trans (.swap x y l)

/-- The order of the list. -/
def Ordered (l : List (SortedTx K R)) : Prop :=
  l.Pairwise fun x y => ¬ txFeeCompare y x = true

omit [Ord K] [DecidableEq K] in
theorem ordered_insertSorted {l : List (SortedTx K R)} (h : Ordered l) (x : SortedTx K R) :
    Ordered (insertSorted x l) := by
  induction l with
  | nil => exact List.pairwise_singleton _ _
  | cons y l ih =>
    obtain ⟨hy, hl⟩ := List.pairwise_cons.mp h
    unfold insertSorted
    split
    · rename_i hxy
      refine List.pairwise_cons.mpr ⟨fun z hz hzx => ?_, h⟩
      obtain rfl | hz := List.mem_cons.mp hz
      · exact txFeeCompare_asymm hxy hzx
      · exact hy z hz (txFeeCompare_trans hzx hxy)
    · rename_i hxy
      refine List.pairwise_cons.mpr ⟨fun z hz => ?_, ih hl⟩
      obtain rfl | hz := List.mem_cons.mp ((insertSorted_perm x l).mem_iff.mp hz)
      · exact hxy
      · exact hy z hz

/-- The sorted list has the transactions of the table, each of them once. -/
structure Listed (s : MemoryPool K I R) : Prop where
  ordered : Ordered s.txsByFeeAndReceiveTime
  nodup : (s.txsByFeeAndReceiveTime.map (·.id)).Nodup
  mem_iff : ∀ id, id ∈ s.txsByFeeAndReceiveTime.map (·.id) ↔ id ∈ s.txs

omit [Ord K] [LinearOrder R] in
theorem mem_ids_filter {l : List (SortedTx K R)} {id' : K} :
    id' ∈ (l.filter fun x => x.id ≠ id).map (·.id) ↔ id' ≠ id ∧ id' ∈ l.map (·.id) := by
  simp only [List.mem_map, List.mem_filter, decide_eq_true_iff]
  constructor
  · rintro ⟨x, ⟨hx, hne⟩, rfl⟩
    exact ⟨hne, x, hx, rfl⟩
  · rintro ⟨hne, x, hx, rfl⟩
    exact ⟨x, ⟨hx, hne⟩, rfl⟩

omit [Ord K] [DecidableEq K] [LinearOrder R] in
theorem nodup_ids_filter {l : List (SortedTx K R)} (p : SortedTx K R → Bool)
    (h : (l.map (·.id)).Nodup) : ((l.filter p).map (·.id)).Nodup :=
  (List.filter_sublist.map _).nodup h

omit [DecidableEq K] in
theorem Listed.empty (maxWeight : Nat) :
    Listed ({ txpoolMaxWeight := maxWeight } : MemoryPool K I R) where
  ordered := .nil
  nodup := List.nodup_nil
  mem_iff := fun _ => iff_of_false List.not_mem_nil Std.TreeMap.not_mem_emptyc

omit [DecidableEq K] in
theorem Listed.of_eq {s' : MemoryPool K I R} (h : Listed s) (htxs : s'.txs = s.txs)
    (hsorted : s'.txsByFeeAndReceiveTime = s.txsByFeeAndReceiveTime) : Listed s' where
  ordered := hsorted ▸ h.ordered
  nodup := hsorted ▸ h.nodup
  mem_iff := by
    rw [hsorted, htxs]
    exact h.mem_iff

theorem Listed.remove [Std.TransOrd K] [Std.LawfulEqOrd K] {s' : MemoryPool K I R} (h : Listed s)
    (htxs : s'.txs = s.txs.erase id)
    (hsorted : s'.txsByFeeAndReceiveTime = s.txsByFeeAndReceiveTime) :
    Listed (s'.removeTxFromTransientLists id) where
  ordered := (hsorted ▸ h.ordered : Ordered s'.txsByFeeAndReceiveTime).filter _
  nodup := nodup_ids_filter _ (hsorted ▸ h.nodup)
  mem_iff := fun id' => by
    unfold removeTxFromTransientLists
    rw [mem_ids_filter, hsorted, h.mem_iff, htxs, mem_erase_iff, ne_comm]

theorem ordered_sortedLess (h : Ordered s.txsByFeeAndReceiveTime) : Ordered (s.sortedLess id) := by
  unfold sortedLess
  split
  · exact h
  · exact h.filter _

omit [LinearOrder R] in
theorem nodup_sortedLess (h : (s.txsByFeeAndReceiveTime.map (·.id)).Nodup) :
    ((s.sortedLess id).map (·.id)).Nodup := by
  unfold sortedLess
  split
  · exact h
  · exact nodup_ids_filter _ h

omit [LinearOrder R] in
theorem mem_sortedLess_or (id' : K) :
    id' ∈ (s.sortedLess id).map (·.id) ∨ id' = id ↔
      id' ∈ s.txsByFeeAndReceiveTime.map (·.id) ∨ id' = id := by
  unfold sortedLess
  split
  · exact Iff.rfl
  · rw [mem_ids_filter]
    tauto

/-- The list takes a transaction once more, or for the first time. -/
theorem Listed.put {s' : MemoryPool K I R} (h : Listed s)
    (htxs : ∀ id', id' ∈ s'.txs ↔ id' ∈ s.txs ∨ id' = id)
    (hsorted : s'.txsByFeeAndReceiveTime = s.txsByFeeAndReceiveTime) (now : UInt64) (fee : R)
    (receiveTime : UInt64) (sensitive : Bool) :
    Listed (s'.addTxToTransientLists now id fee receiveTime sensitive) := by
  have hordered : Ordered (s'.sortedLess id) := ordered_sortedLess (hsorted ▸ h.ordered)
  have hnodup : ((s'.sortedLess id).map (·.id)).Nodup := nodup_sortedLess (hsorted ▸ h.nodup)
  have hmem : ∀ id', id' ∈ s'.txs ↔ id' ∈ (s'.sortedLess id).map (·.id) ∨ id' = id := fun id' => by
    rw [htxs, mem_sortedLess_or, hsorted, h.mem_iff]
  by_cases hin : id ∈ (s'.sortedLess id).map (·.id)
  · unfold addTxToTransientLists
    rw [if_pos hin]
    exact ⟨hordered, hnodup, fun id' =>
      ⟨fun h => (hmem id').mpr (.inl h), fun h => ((hmem id').mp h).elim (fun h => h) (· ▸ hin)⟩⟩
  · have hperm := (insertSorted_perm { feePerWeight := fee, receiveTime, id : SortedTx K R }
      (s'.sortedLess id)).map (·.id)
    unfold addTxToTransientLists
    rw [if_neg hin]
    refine ⟨ordered_insertSorted hordered _,
      hperm.nodup_iff.mpr (List.nodup_cons.mpr ⟨hin, hnodup⟩), fun id' => ?_⟩
    rw [hperm.mem_iff, hmem, List.map_cons, List.mem_cons, or_comm]

/-! ## The whole pool -/

/-- The table, and all that is kept beside it. -/
structure Consistent (vin : K → List (PoolInput I)) (weight : K → UInt64) (s : MemoryPool K I R) :
    Prop where
  held : Held vin weight s
  sorted : Listed s

/-- What a call keeps: after it, all that is kept beside the table agrees with it, and it leaves
the pool within a limit that it was within before. -/
structure Keeps (vin : K → List (PoolInput I)) (weight : K → UInt64) (s s' : MemoryPool K I R) :
    Prop where
  consistent : Consistent vin weight s'
  limited : ∀ maxWeight, Limited maxWeight s → Limited maxWeight s'

section

variable [DecidableEq I] [Std.TransOrd K] [Std.LawfulEqOrd K] [Std.TransOrd I] [Std.LawfulEqOrd I]
  {vin : K → List (PoolInput I)} {weight : K → UInt64} {e : PoolEntry I}

omit [DecidableEq K] [DecidableEq I] [Std.TransOrd K] [Std.LawfulEqOrd K] [Std.TransOrd I]
  [Std.LawfulEqOrd I] in
theorem SamePool.consistent {s' : MemoryPool K I R} (h : SamePool s s')
    (hconsistent : Consistent vin weight s)
    (hparsed : ∀ id tx, s'.parsedTxCache[id]? = some tx → tx.vin = vin id) :
    Consistent vin weight s' where
  held := hconsistent.held.of_eq h.txs h.spent h.weight hparsed
  sorted := hconsistent.sorted.of_eq h.txs h.sorted

omit [DecidableEq K] [DecidableEq I] [Std.TransOrd K] [Std.LawfulEqOrd K] [Std.TransOrd I]
  [Std.LawfulEqOrd I] in
theorem Keeps.refl (h : Consistent vin weight s) : Keeps vin weight s s := ⟨h, fun _ h => h⟩

omit [DecidableEq K] [DecidableEq I] [Std.TransOrd K] [Std.LawfulEqOrd K] [Std.TransOrd I]
  [Std.LawfulEqOrd I] in
theorem Keeps.trans {s' s'' : MemoryPool K I R} (h : Keeps vin weight s s')
    (h' : Keeps vin weight s' s'') : Keeps vin weight s s'' :=
  ⟨h'.consistent, fun maxWeight hlimited => h'.limited maxWeight (h.limited maxWeight hlimited)⟩

omit [DecidableEq K] [DecidableEq I] [Std.TransOrd K] [Std.LawfulEqOrd K] [Std.TransOrd I]
  [Std.LawfulEqOrd I] in
theorem SamePool.keeps {s' : MemoryPool K I R} (h : SamePool s s')
    (hconsistent : Consistent vin weight s)
    (hparsed : ∀ id tx, s'.parsedTxCache[id]? = some tx → tx.vin = vin id) :
    Keeps vin weight s s' :=
  ⟨h.consistent hconsistent hparsed, fun _ => h.limited⟩

omit [DecidableEq K] [DecidableEq I] [Std.TransOrd I] [Std.LawfulEqOrd I] in
theorem Consistent.cacheParsed (h : Consistent vin weight s) {a : AddedTx K I}
    (hvin : a.tx.vin = vin a.id) : Keeps vin weight s (s.cacheParsed a) := by
  refine (samePool_cacheParsed a).keeps h fun id tx htx => ?_
  unfold MemoryPool.cacheParsed at htx
  split at htx
  · dsimp only at htx
    rw [Std.TreeMap.getElem?_insertIfNew] at htx
    split at htx
    · rename_i hnew
      rw [← Option.some.inj htx, ← Std.compare_eq_iff_eq.mp hnew.1]
      exact hvin
    · exact h.held.parsed id tx htx
  · exact h.held.parsed id tx htx

theorem Consistent.remove (h : Consistent vin weight s) (he : s.txs[id]? = some e) :
    Consistent vin weight
      ((s.removeEntry id e.details.weight (vin id)).removeTxFromTransientLists id) where
  held := (h.held.removeEntry he).of_eq rfl rfl rfl (h.held.removeEntry he).parsed
  sorted := h.sorted.remove (by rw [h.held.removeEntry_eq he]) (by rw [h.held.removeEntry_eq he])

/-! ### Pruning -/

/-- The loop ends within the limit, or has seen all but the first transaction and left only
those of blocks. -/
theorem Consistent.pruneLoop (h : Consistent vin weight s) (bytes : Nat)
    (l : List (SortedTx K R)) :
    Consistent vin weight (pruneLoop bytes l s).2 ∧ Shrinks s (pruneLoop bytes l s).2 ∧
      ((pruneLoop bytes l s).2.txpoolWeight ≤ bytes ∨ ∀ x ∈ l.dropLast, ∀ e,
        (pruneLoop bytes l s).2.txs[x.id]? = some e → e.details.keptByBlock = true) := by
  induction l generalizing s with
  | nil => exact ⟨h, .refl, .inr fun x hx => absurd hx List.not_mem_nil⟩
  | cons x l ih =>
    cases l with
    | nil => exact ⟨h, .refl, .inr fun x hx => absurd hx List.not_mem_nil⟩
    | cons y rest =>
      -- What is to be said of `x` is what its entry in the new table, if any, says.
      have hcons : ∀ s' : MemoryPool K I R,
          (∀ e, s'.txs[x.id]? = some e → e.details.keptByBlock = true) →
          (s'.txpoolWeight ≤ bytes ∨ ∀ z ∈ (y :: rest).dropLast, ∀ e, s'.txs[z.id]? = some e →
            e.details.keptByBlock = true) →
          s'.txpoolWeight ≤ bytes ∨ ∀ z ∈ (x :: y :: rest).dropLast, ∀ e,
            s'.txs[z.id]? = some e → e.details.keptByBlock = true := fun s' hx hrest =>
        hrest.imp_right fun hrest z hz => by
          rw [List.dropLast_cons_cons, List.mem_cons] at hz
          obtain rfl | hz := hz
          · exact hx
          · exact hrest z hz
      unfold MemoryPool.pruneLoop
      split
      · exact ⟨h, .refl, .inl ‹_›⟩
      · split
        · rename_i hnone
          obtain ⟨hconsistent, hshrinks, hlimit⟩ := ih h
          refine ⟨hconsistent, hshrinks, hcons _ (fun e he => ?_) hlimit⟩
          rw [hshrinks.lookup x.id e he] at hnone
          cases hnone
        · rename_i e he
          split
          · rename_i hkept
            obtain ⟨hconsistent, hshrinks, hlimit⟩ := ih h
            refine ⟨hconsistent, hshrinks, hcons _ (fun e' he' => ?_) hlimit⟩
            rw [hshrinks.lookup x.id e' he', Option.some_inj] at he
            rw [he]
            exact hkept
          · rw [(h.held.stored x.id e he).1]
            obtain ⟨hconsistent, hshrinks, hlimit⟩ := ih (h.remove he)
            refine ⟨hconsistent, (h.held.remove_shrinks he).trans hshrinks,
              hcons _ (fun e' he' => ?_) hlimit⟩
            have hgone := hshrinks.lookup x.id e' he'
            unfold removeTxFromTransientLists at hgone
            rw [h.held.removeEntry_eq he] at hgone
            exact absurd rfl (getElem?_erase_iff.mp hgone).1

theorem Consistent.prune (h : Consistent vin weight s) :
    Consistent vin weight (s.prune s.txpoolMaxWeight) ∧
      Limited s.txpoolMaxWeight (s.prune s.txpoolMaxWeight) := by
  unfold MemoryPool.prune
  split
  · rename_i hempty
    refine ⟨h, rfl, .inr fun id id' e e' he => ?_⟩
    have hin := (h.sorted.mem_iff id).mpr (mem_iff_exists.mpr ⟨e, he⟩)
    rw [List.isEmpty_iff.mp hempty] at hin
    cases hin
  · rename_i hne
    obtain ⟨hconsistent, hshrinks, hlimit⟩ :=
      h.pruneLoop s.txpoolMaxWeight s.txsByFeeAndReceiveTime.reverse
    have hlimited : Limited s.txpoolMaxWeight
        (MemoryPool.pruneLoop s.txpoolMaxWeight s.txsByFeeAndReceiveTime.reverse s).2 := by
      refine ⟨hshrinks.maxWeight_eq, ?_⟩
      obtain hle | hkept := hlimit
      · exact .inl hle
      obtain ⟨best, rest, hsorted⟩ := List.exists_cons_of_ne_nil fun hnil =>
        hne (List.isEmpty_iff.mpr hnil)
      rw [hsorted, List.reverse_cons, List.dropLast_concat] at hkept
      rw [hsorted]
      -- One that no block brought is the first of the list.
      have hbest : ∀ id e, (MemoryPool.pruneLoop s.txpoolMaxWeight (best :: rest).reverse s).2.txs[id]? =
          some e → e.details.keptByBlock = false → id = best.id := by
        intro id e he hnot
        rw [List.reverse_cons] at he
        rw [hsorted, List.reverse_cons] at hshrinks
        have hin := (h.sorted.mem_iff id).mpr (mem_iff_exists.mpr ⟨e, hshrinks.lookup id e he⟩)
        rw [hsorted] at hin
        obtain rfl | hrest := List.mem_cons.mp hin
        · rfl
        · obtain ⟨x, hx, rfl⟩ := List.mem_map.mp hrest
          have hkeptx := hkept x (List.mem_reverse.mpr hx) e he
          rw [hnot] at hkeptx
          cases hkeptx
      exact .inr fun id id' e e' he he' hnot hnot' =>
        (hbest id e he hnot).trans (hbest id' e' he' hnot').symm
    rw [ite_self]
    dsimp only
    split
    · exact ⟨⟨hconsistent.held.of_eq rfl rfl rfl hconsistent.held.parsed,
        hconsistent.sorted.of_eq rfl rfl⟩, hlimited⟩
    · exact ⟨hconsistent, hlimited⟩

/-! ### Adding -/

theorem Consistent.finishAdd {t : MemoryPool K I R} {a : AddedTx K I} {txRelay : RelayMethod}
    {details : TxpoolTxMeta} {tvc : TxVerificationContext}
    (hmax : t.txpoolMaxWeight = s.txpoolMaxWeight)
    (h : Consistent vin weight
      { t with
        txpoolWeight :=
          if tvc.addedToPool then t.txpoolWeight + a.txWeight.toNat else t.txpoolWeight }) :
    Keeps vin weight s (t.finishAdd a txRelay details tvc).2.2 := by
  obtain ⟨hconsistent, hlimited⟩ := Consistent.prune (s := { t with
    txpoolWeight := if tvc.addedToPool then t.txpoolWeight + a.txWeight.toNat else t.txpoolWeight
    cookie := t.cookie + 1 }) ⟨h.held.of_eq rfl rfl rfl h.held.parsed, h.sorted.of_eq rfl rfl⟩
  exact ⟨hconsistent, fun maxWeight hbefore => (hmax.trans hbefore.1) ▸ hlimited⟩

/-- Whether the transaction was in the pool before or not, it is stored, or nothing changes. -/
theorem Consistent.storeTx {env : PoolEnv K I} {a : AddedTx K I}
    {txRelay : RelayMethod} {details : TxpoolTxMeta} {removeFirst : Bool}
    {tvc : TxVerificationContext} (h : Consistent vin weight s)
    (hvin : a.tx.vin = vin a.id) (hspendable : PoolInput.Spendable (vin a.id))
    (hweight : a.txWeight = weight a.id) (hdetails : details.weight = weight a.id)
    (hsole : Sole s txRelay a.id (PoolInput.keyImages (vin a.id)))
    (hkept : txRelay = .block → details.keptByBlock = true)
    (hmethod : details.keptByBlock = true → details.getRelayMethod = .block)
    (hadded : tvc.addedToPool = true ∨ a.id ∈ s.txs) :
    Keeps vin weight s (s.storeTx feePerWeight env a txRelay details removeFirst tvc).2.2 := by
  unfold MemoryPool.storeTx
  rw [hvin]
  obtain hfail | hok := h.held.insertKeyImages txRelay hspendable hsole
  · rw [hfail]
    exact .refl h
  rw [hok]
  -- The table before the insertion, and the one after it.
  obtain ⟨before, hbefore⟩ : ∃ before, (if removeFirst then s.txs.erase a.id else s.txs) = before :=
    ⟨_, rfl⟩
  have hlookup : ∀ id' e', (before.insert a.id { details, tx := a.tx })[id']? = some e' ↔
      a.id = id' ∧ ({ details, tx := a.tx } : PoolEntry I) = e' ∨
        a.id ≠ id' ∧ s.txs[id']? = some e' := by
    intro id' e'
    rw [getElem?_insert_iff, ← hbefore]
    split
    · rw [getElem?_erase_iff]
      tauto
    · exact Iff.rfl
  have herased : total (fun e => e.details.weight.toNat) (before.erase a.id) =
      total (fun e => e.details.weight.toNat) (s.txs.erase a.id) := by
    rw [← hbefore]
    split
    · exact total_erase_of_none Std.TreeMap.getElem?_erase_self
    · rfl
  have hcounted : total (fun e => e.details.weight.toNat)
      (before.insert a.id { details, tx := a.tx }) ≤
      if tvc.addedToPool then s.txpoolWeight + a.txWeight.toNat else s.txpoolWeight := by
    have hold := h.held.counted
    rw [total_insert, herased, hdetails]
    cases hsome : s.txs[a.id]? with
    | none =>
      have hnew : a.id ∉ s.txs := fun hin => by
        obtain ⟨e, he⟩ := mem_iff_exists.mp hin
        rw [hsome] at he
        cases he
      rw [total_erase_of_none hsome, if_pos (hadded.resolve_right hnew), hweight]
      omega
    | some e =>
      rw [total_of_some hsome, (h.held.stored a.id e hsome).2] at hold
      split <;> omega
  have hmem : ∀ id', id' ∈ before.insert a.id { details, tx := a.tx } ↔ id' ∈ s.txs ∨ id' = a.id := by
    intro id'
    rw [mem_insert_iff, ← hbefore]
    split
    · rw [mem_erase_iff, eq_comm (a := a.id), ne_comm]
      tauto
    · rw [eq_comm, or_comm]
  have hput : Listed (addTxToTransientLists env.now a.id
      (addedFeePerWeight feePerWeight details.fee a.txWeight) env.now (!details.isMatch .broadcasted)
      { s with
        txs := before.insert a.id { details, tx := a.tx }
        spentKeyImages := addAll s.spentKeyImages (PoolInput.keyImages (vin a.id)) a.id
        cookie := s.cookie + 1 }) := by
    apply h.sorted.put hmem
    rfl
  dsimp only
  unfold putTx
  dsimp only
  rw [hbefore]
  refine Consistent.finishAdd rfl ⟨?_, hput.of_eq rfl rfl⟩
  exact h.held.put (e := { details, tx := a.tx }) hspendable hvin hdetails hmethod
    (hsole.imp_left hkept) hlookup rfl rfl hcounted

theorem Consistent.addUnverified (h : Consistent vin weight s) (env : PoolEnv K I)
    {a : AddedTx K I} (ha : Regular vin weight a) (hspendable : PoolInput.Spendable (vin a.id))
    (hblock : a.txRelay = .block) : Keeps vin weight s (s.addUnverified feePerWeight env a).2.2 :=
  have hcached := h.cacheParsed ha.vin_eq
  hcached.trans (hcached.consistent.storeTx ha.vin_eq hspendable ha.weight_eq ha.weight_eq
    (.inl hblock) decide_eq_true
    (fun _ => (getRelayMethod_setRelayMethod ({} : TxpoolTxMeta) a.txRelay).trans hblock) (.inl rfl))

theorem Consistent.addVerified (h : Consistent vin weight s) (env : PoolEnv K I)
    {a : AddedTx K I} (ha : Regular vin weight a) (hspendable : PoolInput.Spendable (vin a.id))
    (hsole : Sole s a.txRelay a.id (PoolInput.keyImages (vin a.id))) (check : InputCheck) :
    Keeps vin weight s (s.addVerified feePerWeight env a check).2.2 := by
  have hcached := h.cacheParsed ha.vin_eq
  have hsole' : Sole (s.cacheParsed a) a.txRelay a.id (PoolInput.keyImages (vin a.id)) := by
    unfold Sole
    rw [(samePool_cacheParsed a).spent]
    exact hsole
  refine hcached.trans ?_
  obtain ⟨t, ht⟩ : ∃ t, s.cacheParsed a = t := ⟨_, rfl⟩
  unfold MemoryPool.addVerified
  rw [ht] at hsole' hcached ⊢
  have h := hcached.consistent
  dsimp only
  split
  · rename_i hnew
    -- The next check may come earlier.
    have hlater : ∀ (delayed : Bool) (candidate : Int64),
        SamePool t (if delayed = true then t.setIfLess candidate else t) ∧
          Keeps vin weight t (if delayed = true then t.setIfLess candidate else t) := by
      intro delayed candidate
      split
      · refine ⟨samePool_setIfLess _, (samePool_setIfLess _).keeps h ?_⟩
        rw [parsed_setIfLess]
        exact h.held.parsed
      · exact ⟨⟨rfl, rfl, rfl, rfl, rfl⟩, .refl h⟩
    refine (hlater _ _).2.trans ((hlater _ _).2.consistent.storeTx ha.vin_eq hspendable
      ha.weight_eq ha.weight_eq ?_ ?_ ?_ ?_)
    · refine hsole'.imp takenRelay_eq_block.mpr fun hsole k hk => ?_
      rw [(hlater _ _).1.spent]
      exact hsole k hk
    · intro hblock
      rw [hblock] at hnew ⊢
      cases hexisting : t.txs[a.id]? with
      | none => rfl
      | some e =>
        rw [hexisting] at hnew
        exact upgradeRelayMethod_block ((Bool.or_eq_true_iff.mp hnew).resolve_right nofun)
    · refine (upgradeRelayMethod_kept fun hkept => ?_).2
      cases hexisting : t.txs[a.id]? with
      | none =>
        rw [hexisting] at hkept
        cases hkept
      | some e =>
        rw [hexisting] at hkept
        exact h.held.method a.id e hexisting hkept
    · cases hexisting : t.txs[a.id]? with
      | none => exact .inl rfl
      | some e =>
        rw [(hlater _ _).1.txs]
        exact .inr (mem_iff_exists.mpr ⟨e, hexisting⟩)
  · rename_i hold
    refine Consistent.finishAdd rfl ?_
    rw [if_neg fun hnone => hold (Bool.or_eq_true_iff.mpr (.inr hnone))]
    exact h

/-! ### Refusing -/

omit [DecidableEq K] [DecidableEq I] [LinearOrder R] [Std.TransOrd I] [Std.LawfulEqOrd I] in
theorem Limited.replace (h : Limited maxWeight s) (he : s.txs[id]? = some e)
    {details : TxpoolTxMeta} (hkept : e.details.keptByBlock = true → details.keptByBlock = true) :
    Limited maxWeight { s with txs := s.txs.insert id { e with details } } := by
  refine ⟨h.1, h.2.imp_right fun hone i j ei ej hi hj hnot hnot' => ?_⟩
  -- What no block brought was brought by none before.
  have hold : ∀ (i : K) (ei : PoolEntry I), (s.txs.insert id { e with details })[i]? = some ei →
      ei.details.keptByBlock = false →
      ∃ ei', s.txs[i]? = some ei' ∧ ei'.details.keptByBlock = false := by
    intro i ei hi hnot
    obtain ⟨rfl, rfl⟩ | ⟨-, hold⟩ := getElem?_insert_iff.mp hi
    · exact ⟨e, he, Bool.eq_false_iff.mpr fun htrue => Bool.eq_false_iff.mp hnot (hkept htrue)⟩
    · exact ⟨ei, hold, hnot⟩
  obtain ⟨ei', hi', hnoti⟩ := hold i ei hi hnot
  obtain ⟨ej', hj', hnotj⟩ := hold j ej hj hnot'
  exact hone i j ei' ej' hi' hj' hnoti hnotj

omit [DecidableEq K] [DecidableEq I] [Std.TransOrd I] [Std.LawfulEqOrd I] in
/-- What is known of a transaction changes. It may be one of a block from now on, and not the
other way round. -/
theorem Consistent.replace (h : Consistent vin weight s) (he : s.txs[id]? = some e)
    {details : TxpoolTxMeta} (hweight : details.weight = e.details.weight)
    (hkept : e.details.keptByBlock = true → details.keptByBlock = true)
    (hmethod : details.keptByBlock = true → details.getRelayMethod = .block) :
    Keeps vin weight s { s with txs := s.txs.insert id { e with details } } := by
  refine ⟨?_, fun maxWeight hlimited => hlimited.replace he hkept⟩
  have hmem : ∀ id', id' ∈ s.txs.insert id { e with details } ↔ id' ∈ s.txs := fun id' => by
    rw [mem_insert_iff]
    exact ⟨fun h => h.elim (fun heq => heq ▸ mem_iff_exists.mpr ⟨e, he⟩) fun h => h, .inr⟩
  -- What was said of the entries before it.
  have hbefore : ∀ (i : K) (ei : PoolEntry I), (s.txs.insert id { e with details })[i]? = some ei →
      ∃ ej, s.txs[i]? = some ej ∧ ei.tx = ej.tx ∧ ei.details.weight = ej.details.weight ∧
        (ej.details.keptByBlock = true → ei.details.keptByBlock = true) := by
    intro i ei hi
    obtain ⟨rfl, rfl⟩ | ⟨-, hold⟩ := getElem?_insert_iff.mp hi
    · exact ⟨e, he, rfl, hweight, hkept⟩
    · exact ⟨ei, hold, rfl, rfl, fun hkept => hkept⟩
  refine ⟨⟨?_, ?_, ?_, h.held.parsed, ?_, ?_, ?_⟩, h.sorted.ordered, h.sorted.nodup, fun i => ?_⟩
  · intro i ei hi
    obtain ⟨ej, hj, htx', hweight', -⟩ := hbefore i ei hi
    rw [htx', hweight']
    exact h.held.stored i ej hj
  · exact fun i hi => h.held.spendable i ((hmem i).mp hi)
  · exact h.held.index.congr fun k i => by rw [hmem]
  · have hcounted := h.held.counted
    rw [total_of_some he] at hcounted
    rw [total_insert, hweight]
    exact hcounted
  · intro i j ei ej k hi hj hne hki hkj
    obtain ⟨ei', hi', -, -, hkepti⟩ := hbefore i ei hi
    obtain ⟨ej', hj', -, -, hkeptj⟩ := hbefore j ej hj
    exact (h.held.exclusive i j ei' ej' k hi' hj' hne hki hkj).imp hkepti hkeptj
  · intro i ei hi
    obtain ⟨rfl, rfl⟩ | ⟨-, hold⟩ := getElem?_insert_iff.mp hi
    · exact hmethod
    · exact h.held.method i ei hold
  · exact (h.sorted.mem_iff i).trans (hmem i).symm

omit [DecidableEq K] [DecidableEq I] [Std.TransOrd I] [Std.LawfulEqOrd I] in
/-- A mark on an entry. -/
theorem Consistent.mark (h : Consistent vin weight s) (he : s.txs[id]? = some e)
    {details : TxpoolTxMeta} (hsame : SameOffer e.details details) :
    Keeps vin weight s { s with txs := s.txs.insert id { e with details } } :=
  h.replace he hsame.weight hsame.kept.trans fun hblock =>
    hsame.method.trans (h.held.method id e he (hsame.kept.symm.trans hblock))

omit [DecidableEq K] [DecidableEq I] [Std.TransOrd I] [Std.LawfulEqOrd I] in
theorem Consistent.markDoubleSpendTx (h : Consistent vin weight s) (txid : K) :
    Keeps vin weight s (s.markDoubleSpendTx txid) := by
  unfold MemoryPool.markDoubleSpendTx
  split
  · exact .refl h
  · rename_i e he
    split
    · exact .refl h
    · exact h.mark he ⟨rfl, rfl, rfl, rfl, rfl, rfl⟩

omit [DecidableEq K] [DecidableEq I] [Std.TransOrd I] [Std.LawfulEqOrd I] in
theorem Consistent.markDoubleSpend (h : Consistent vin weight s) (tx : PoolTransaction I) :
    Keeps vin weight s (s.markDoubleSpend tx) := by
  have hfold : ∀ (txids : List K) (s : MemoryPool K I R), Consistent vin weight s →
      Keeps vin weight s (txids.foldl MemoryPool.markDoubleSpendTx s) := by
    intro txids
    induction txids with
    | nil => exact fun s h => .refl h
    | cons txid txids ih =>
      intro s h
      have hnext := h.markDoubleSpendTx txid
      exact hnext.trans (ih _ hnext.consistent)
  unfold MemoryPool.markDoubleSpend
  split
  · exact .refl h
  · have hmarked := hfold
      ((PoolInput.keyImages tx.vin).flatMap (InvertedIndex.listed s.spentKeyImages)) s h
    dsimp only
    split
    · exact hmarked.trans (SamePool.keeps ⟨rfl, rfl, rfl, rfl, rfl⟩ hmarked.consistent
        hmarked.consistent.held.parsed)
    · exact hmarked

/-! ### The calls -/

theorem Consistent.addTx (h : Consistent vin weight s) (env : PoolEnv K I) {a : AddedTx K I}
    (ha : Regular vin weight a) : Keeps vin weight s (s.addTx feePerWeight env a).2.2 := by
  unfold MemoryPool.addTx
  cases hrefuse : s.refuseTx env a with
  | some answer =>
    obtain ⟨tvc, s'⟩ := answer
    obtain rfl | rfl := refuseTx_some hrefuse
    · exact .refl h
    · exact h.markDoubleSpend a.tx
  | none =>
    obtain ⟨hspent, hsemantic⟩ := refuseTx_none hrefuse
    have hspendable : PoolInput.Spendable (vin a.id) := by
      rw [← ha.vin_eq]
      exact PoolInput.spendable_of_checkTxSemantic (hsemantic.elim ha.checked fun h => h)
    have hsole : Sole s a.txRelay a.id (PoolInput.keyImages (vin a.id)) :=
      hspent.imp_right fun hnot k hk =>
        haveTxKeyimgesAsSpent_eq_false hnot (by rw [ha.vin_eq]; exact hk)
    have hsame := samePool_checkTxInputs (s := s) env a.tx a.id a.validInputVerificationId
      (decide (a.txRelay = .block))
    have hchecked : Keeps vin weight s (s.checkTxInputs env a.tx a.id a.validInputVerificationId
        (decide (a.txRelay = .block))).2 := hsame.keeps h (by
      rw [parsed_checkTxInputs]
      exact h.held.parsed)
    dsimp only
    split
    · refine hchecked.trans (hchecked.consistent.addVerified env ha hspendable ?_ _)
      unfold Sole
      rw [hsame.spent]
      exact hsole
    · split
      · rename_i hblock
        exact hchecked.trans
          (hchecked.consistent.addUnverified env ha hspendable (of_decide_eq_true hblock))
      · exact hchecked

omit [DecidableEq K] [DecidableEq I] [Std.TransOrd K] [Std.LawfulEqOrd K] [Std.TransOrd I]
  [Std.LawfulEqOrd I] in
theorem Consistent.taken_vin (h : Consistent vin weight s) (he : s.txs[id]? = some e) :
    ((s.parsedTxCache[id]?).getD e.tx).vin = vin id := by
  cases hparsed : s.parsedTxCache[id]? with
  | none => exact (h.held.stored id e he).1
  | some tx => exact h.held.parsed id tx hparsed

omit [DecidableEq I] [Std.TransOrd K] [Std.LawfulEqOrd K] [Std.TransOrd I] [Std.LawfulEqOrd I] in
theorem Consistent.takeTx_some {taken : PoolTransaction I × TxpoolTxMeta}
    (h : Consistent vin weight s) (htaken : (s.takeTx id).1 = some taken) :
    taken.1.vin = vin id := by
  unfold MemoryPool.takeTx at htaken
  split at htaken
  · cases htaken
  · rename_i e he
    rw [← Option.some.inj htaken]
    exact h.taken_vin he

theorem Consistent.takeTx (h : Consistent vin weight s) (id : K) :
    Keeps vin weight s (s.takeTx id).2 := by
  unfold MemoryPool.takeTx
  split
  · exact .refl h
  · rename_i e he
    have hremoved := h.remove he
    dsimp only
    rw [h.taken_vin he]
    exact ⟨⟨hremoved.held.of_eq rfl rfl rfl hremoved.held.parsed, hremoved.sorted.of_eq rfl rfl⟩,
      fun _ => (h.held.remove_shrinks he).limited⟩

theorem Consistent.removeStuckTransactions (h : Consistent vin weight s) (now : UInt64) :
    Keeps vin weight s (s.removeStuckTransactions now) := by
  unfold MemoryPool.removeStuckTransactions
  dsimp only
  obtain ⟨remove, hremove⟩ : ∃ remove,
      (s.txs.toList.filter fun row => isStuck now row.2.details) = remove := ⟨_, rfl⟩
  rw [hremove]
  have hrows : ∀ row ∈ remove, s.txs[row.1]? = some row.2 := fun row hrow => by
    rw [← hremove] at hrow
    exact Std.TreeMap.mem_toList_iff_getElem?_eq_some.mp (List.mem_of_mem_filter hrow)
  have hnodup : (remove.map (·.1)).Nodup := by
    rw [← hremove]
    exact (List.filter_sublist.map _).nodup nodup_keys_toList
  have hoff := offList_timeOut (s := s) remove
  have hheld : Held vin weight (remove.foldl (fun s row => s.timeOut row.1) s) :=
    h.held.of_eq hoff.txs hoff.spent hoff.weight (by rw [hoff.parsed]; exact h.held.parsed)
  split
  · rename_i hempty
    rw [List.isEmpty_iff.mp hempty]
    exact .refl h
  · obtain ⟨hremoved, hshrinks, hmem, hsorted⟩ := hheld.removeEntries
      (fun row hrow => by rw [hoff.txs]; exact hrows row hrow) hnodup rfl
    have hall : Shrinks s (remove.foldl (fun s row =>
        s.removeEntry row.1 row.2.details.weight row.2.tx.vin)
        (remove.foldl (fun s row => s.timeOut row.1) s)) :=
      .trans ⟨fun id e he => by rw [← hoff.txs]; exact he, hoff.weight.le, hoff.maxWeight⟩ hshrinks
    refine ⟨⟨hremoved.of_eq rfl rfl rfl hremoved.parsed, ?_, ?_, fun id => ?_⟩,
      fun _ => hall.limited⟩
    · dsimp only
      rw [hsorted, hoff.sorted]
      exact h.sorted.ordered.filter _
    · dsimp only
      rw [hsorted, hoff.sorted]
      exact nodup_ids_filter _ h.sorted.nodup
    · dsimp only
      rw [hmem, hoff.txs, hsorted, hoff.sorted, ← h.sorted.mem_iff]
      simp only [List.mem_map, List.mem_filter, decide_eq_true_iff]
      constructor
      · rintro ⟨x, ⟨hx, hnot⟩, rfl⟩
        exact ⟨⟨x, hx, rfl⟩, hnot⟩
      · rintro ⟨⟨x, hx, rfl⟩, hnot⟩
        exact ⟨x, ⟨hx, hnot⟩, rfl⟩

/-! ### Filling a block -/

omit [DecidableEq K] [DecidableEq I] [Std.TransOrd I] [Std.LawfulEqOrd I] in
theorem Consistent.recheckTx (h : Consistent vin weight s) (r : FillRequest K I)
    (he : s.txs[id]? = some e) : Keeps vin weight s (s.recheckTx r id e).2 := by
  obtain ⟨hsame, hparsed⟩ := samePool_isTransactionReadyToGo (s := s) r id e
  have hready : Keeps vin weight s (s.isTransactionReadyToGo r id e).2 :=
    hsame.keeps h (by rw [hparsed]; exact h.held.parsed)
  obtain heq | heq := recheckTx_snd r he
  · rw [heq]
    exact hready
  · rw [heq, ← hsame.txs]
    exact hready.trans (hready.consistent.mark (by rw [hsame.txs]; exact he)
      (isTransactionReadyToGo_details r id e))

omit [DecidableEq K] [Std.TransOrd I] [Std.LawfulEqOrd I] in
theorem Consistent.fillLoop (r : FillRequest K I) (l : List (SortedTx K R))
    (f : FilledBlock K I) (h : Consistent vin weight s) :
    Keeps vin weight s (MemoryPool.fillLoop r l f s).2 := by
  induction l generalizing f s with
  | nil => exact .refl h
  | cons x rest ih =>
    unfold MemoryPool.fillLoop
    split
    · exact ih f h
    · rename_i e he
      split
      · exact ih f h
      split
      · exact .refl h
      · have hnext := h.recheckTx r he
        dsimp only
        split
        · exact hnext.trans (ih f hnext.consistent)
        · exact hnext.trans (ih _ hnext.consistent)

omit [DecidableEq K] [Std.TransOrd I] [Std.LawfulEqOrd I] in
theorem Consistent.fillBlockTemplate (r : FillRequest K I) (h : Consistent vin weight s) :
    Keeps vin weight s (s.fillBlockTemplate r).2 := by
  unfold MemoryPool.fillBlockTemplate
  split
  · exact .refl h
  · exact Consistent.fillLoop r _ _ h

end

end MemoryPool

end RandomLite.Monero
