-- SUMMARY: What the calls of the memory pool leave of its table, its sorted list and its parsed transactions.
import RandomLite.Monero.MemoryPoolTables

/-!
# Frames of the memory pool

But for an addition, a call only takes transactions away, or marks them. `Sheds` is that relation
between the pool before and after; it composes, and needs nothing of the pool. What such a step
keeps, and what caching a transaction and putting it into the table keep, `add_tx` keeps.
-/

namespace RandomLite.Monero

open KeyedTable

namespace MemoryPool

/-- Transactions are gone or marked, in the table and in the sorted list, and none came. -/
structure Sheds {K I R : Type} [Ord K] [Ord I] (s s' : MemoryPool K I R) : Prop where
  stored : ∀ (id : K) (e' : PoolEntry I), s'.txs[id]? = some e' →
    ∃ e, s.txs[id]? = some e ∧ e'.tx = e.tx ∧ SameOffer e.details e'.details
  parsed : ∀ (id : K) (tx : PoolTransaction I), s'.parsedTxCache[id]? = some tx →
    s.parsedTxCache[id]? = some tx
  sorted : ∀ x ∈ s'.txsByFeeAndReceiveTime, x ∈ s.txsByFeeAndReceiveTime
  /-- What is still listed is still known as added. -/
  added : ∀ x ∈ s'.txsByFeeAndReceiveTime, x.id ∈ s.addedTxsById → x.id ∈ s'.addedTxsById

theorem SameOffer.refl (details : TxpoolTxMeta) : SameOffer details details :=
  ⟨rfl, rfl, rfl, rfl, rfl, rfl⟩

theorem SameOffer.trans {details details' details'' : TxpoolTxMeta} (h : SameOffer details details')
    (h' : SameOffer details' details'') : SameOffer details details'' :=
  ⟨h'.weight.trans h.weight, h'.fee.trans h.fee, h'.receiveTime.trans h.receiveTime,
    h'.pruned.trans h.pruned, h'.kept.trans h.kept, h'.method.trans h.method⟩

variable {K I R : Type} [Ord K] [Ord I] {s s' s'' : MemoryPool K I R} {id : K}

namespace Sheds

theorem of_eq (htxs : s'.txs = s.txs) (hparsed : s'.parsedTxCache = s.parsedTxCache)
    (hsorted : s'.txsByFeeAndReceiveTime = s.txsByFeeAndReceiveTime)
    (hadded : s'.addedTxsById = s.addedTxsById) : Sheds s s' where
  stored := fun _ e he => ⟨e, htxs ▸ he, rfl, .refl _⟩
  parsed := fun _ _ htx => hparsed ▸ htx
  sorted := fun _ hx => hsorted ▸ hx
  added := fun _ _ hin => hadded ▸ hin

theorem refl : Sheds s s := .of_eq rfl rfl rfl rfl

theorem trans (h : Sheds s s') (h' : Sheds s' s'') : Sheds s s'' where
  stored := fun id e'' he'' => by
    obtain ⟨e', he', htx', hsame'⟩ := h'.stored id e'' he''
    obtain ⟨e, he, htx, hsame⟩ := h.stored id e' he'
    exact ⟨e, he, htx'.trans htx, hsame.trans hsame'⟩
  parsed := fun id tx htx => h.parsed id tx (h'.parsed id tx htx)
  sorted := fun x hx => h.sorted x (h'.sorted x hx)
  added := fun x hx hin => h'.added x hx (h.added x (h'.sorted x hx) hin)

variable [Std.TransOrd K] [Std.LawfulEqOrd K]

theorem mark {e : PoolEntry I} {details : TxpoolTxMeta} (he : s.txs[id]? = some e)
    (hsame : SameOffer e.details details) :
    Sheds s { s with txs := s.txs.insert id { e with details } } where
  stored := fun id' e' he' => by
    obtain ⟨rfl, rfl⟩ | ⟨-, hold⟩ := getElem?_insert_iff.mp he'
    · exact ⟨e, he, rfl, hsame⟩
    · exact ⟨e', hold, rfl, .refl _⟩
  parsed := fun _ _ htx => htx
  sorted := fun _ hx => hx
  added := fun _ _ hin => hin

theorem erase (id : K) : Sheds s { s with txs := s.txs.erase id } where
  stored := fun _ e' he' => ⟨e', (getElem?_erase_iff.mp he').2, rfl, .refl _⟩
  parsed := fun _ _ htx => htx
  sorted := fun _ hx => hx
  added := fun _ _ hin => hin

end Sheds

/-! ## Steps of the calls -/

theorem reduceTxpoolWeight_sheds (weight : UInt64) : Sheds s (s.reduceTxpoolWeight weight) := by
  unfold reduceTxpoolWeight
  split
  · exact .of_eq rfl rfl rfl rfl
  · exact .of_eq rfl rfl rfl rfl

theorem setIfLess_sheds (candidate : Int64) : Sheds s (s.setIfLess candidate) := by
  unfold setIfLess
  split
  · exact .of_eq rfl rfl rfl rfl
  · exact .refl

theorem checkTxInputs_sheds (env : PoolEnv K I) (tx : PoolTransaction I) (txid : K)
    (known : Hash) (keptByBlock : Bool) :
    Sheds s (s.checkTxInputs env tx txid known keptByBlock).2 := by
  unfold checkTxInputs
  split
  · exact .refl
  · split
    · exact .refl
    · exact .of_eq rfl rfl rfl rfl

variable [DecidableEq K]

/-- Only the index of key images and the cookie change. -/
theorem insertKeyImages_snd (id : K) (txRelay : RelayMethod) (vin : List (PoolInput I)) :
    ∃ spentKeyImages cookie,
      (insertKeyImages id txRelay vin s).2 = { s with spentKeyImages, cookie } := by
  induction vin generalizing s with
  | nil => exact ⟨_, _, rfl⟩
  | cons input vin ih =>
    cases input with
    | other => exact ⟨_, _, rfl⟩
    | toKey kImage =>
      unfold insertKeyImages
      dsimp only
      split
      · exact ⟨_, _, rfl⟩
      · split
        · exact ih
        · exact ⟨_, _, rfl⟩

theorem removeTransactionKeyimages_snd (id : K) (vin : List (PoolInput I)) :
    ∃ spentKeyImages cookie,
      (removeTransactionKeyimages id vin s).2 = { s with spentKeyImages, cookie } := by
  induction vin generalizing s with
  | nil => exact ⟨_, _, rfl⟩
  | cons input vin ih =>
    cases input with
    | other => exact ⟨_, _, rfl⟩
    | toKey kImage =>
      unfold removeTransactionKeyimages
      split
      · exact ⟨_, _, rfl⟩
      · exact ih

theorem insertKeyImages_sheds (id : K) (txRelay : RelayMethod) (vin : List (PoolInput I)) :
    Sheds s (insertKeyImages id txRelay vin s).2 := by
  obtain ⟨spentKeyImages, cookie, heq⟩ := insertKeyImages_snd (s := s) id txRelay vin
  rw [heq]
  exact .of_eq rfl rfl rfl rfl

section

variable [Std.TransOrd K] [Std.LawfulEqOrd K]

omit [DecidableEq K] [Std.LawfulEqOrd K] in
theorem onBlockchainChange_sheds : Sheds s s.onBlockchainChange where
  stored := fun _ e he => ⟨e, he, rfl, .refl _⟩
  parsed := fun _ _ htx => by
    unfold onBlockchainChange at htx
    rw [Std.TreeMap.getElem?_emptyc] at htx
    cases htx
  sorted := fun _ hx => hx
  added := fun _ _ hin => hin

theorem removeEntry_sheds (weight : UInt64) (vin : List (PoolInput I)) :
    Sheds s (s.removeEntry id weight vin) := by
  obtain ⟨spentKeyImages, cookie, heq⟩ := removeTransactionKeyimages_snd id
    (s := reduceTxpoolWeight weight { s with txs := s.txs.erase id }) vin
  unfold removeEntry
  dsimp only
  rw [heq]
  exact (Sheds.erase id).trans ((reduceTxpoolWeight_sheds weight).trans (.of_eq rfl rfl rfl rfl))

theorem removeTxFromTransientLists_sheds (id : K) : Sheds s (s.removeTxFromTransientLists id) where
  stored := fun _ e he => ⟨e, he, rfl, .refl _⟩
  parsed := fun _ _ htx => htx
  sorted := fun _ hx => (List.mem_filter.mp hx).1
  added := fun _ hx hin =>
    mem_erase_iff.mpr ⟨(of_decide_eq_true (List.mem_filter.mp hx).2).symm, hin⟩

theorem pruneLoop_sheds (bytes : Nat) (l : List (SortedTx K R)) :
    Sheds s (pruneLoop bytes l s).2 := by
  induction l generalizing s with
  | nil => exact .refl
  | cons x l ih =>
    cases l with
    | nil => exact .refl
    | cons y rest =>
      unfold pruneLoop
      split
      · exact .refl
      · split
        · exact ih
        · split
          · exact ih
          · exact (removeEntry_sheds _ _).trans ((removeTxFromTransientLists_sheds _).trans ih)

theorem prune_sheds (bytes : Nat) : Sheds s (s.prune bytes) := by
  unfold prune
  split
  · exact .refl
  · obtain ⟨bound, hbound⟩ : ∃ bound, (if bytes = 0 then s.txpoolMaxWeight else bytes) = bound :=
      ⟨_, rfl⟩
    dsimp only
    rw [hbound]
    split
    · exact (pruneLoop_sheds _ _).trans (.of_eq rfl rfl rfl rfl)
    · exact pruneLoop_sheds _ _

theorem finishAdd_sheds (a : AddedTx K I) (txRelay : RelayMethod) (details : TxpoolTxMeta)
    (tvc : TxVerificationContext) : Sheds s (s.finishAdd a txRelay details tvc).2.2 := by
  have hcounted : Sheds s { s with
      txpoolWeight := if tvc.addedToPool then s.txpoolWeight + a.txWeight.toNat else s.txpoolWeight
      cookie := s.cookie + 1 } := .of_eq rfl rfl rfl rfl
  exact hcounted.trans (prune_sheds s.txpoolMaxWeight)

theorem takeTx_sheds (id : K) : Sheds s (s.takeTx id).2 := by
  unfold takeTx
  split
  · exact .refl
  · exact (removeEntry_sheds _ _).trans
      ((removeTxFromTransientLists_sheds id).trans (.of_eq rfl rfl rfl rfl))

omit [Std.LawfulEqOrd K] in
/-- A transaction that is taken is gone. -/
theorem takeTx_lookup (id : K) : (s.takeTx id).2.txs[id]? = none := by
  unfold takeTx
  split
  · assumption
  · rename_i e he
    obtain ⟨spentKeyImages, cookie, heq⟩ := removeTransactionKeyimages_snd id
      (s := reduceTxpoolWeight e.details.weight { s with txs := s.txs.erase id })
      ((s.parsedTxCache[id]?).getD e.tx).vin
    have htxs : ∀ (w : UInt64) (t : MemoryPool K I R), (reduceTxpoolWeight w t).txs = t.txs := by
      intro w t
      unfold reduceTxpoolWeight
      split
      · rfl
      · rfl
    unfold removeTxFromTransientLists removeEntry
    dsimp only
    rw [heq]
    dsimp only
    rw [htxs]
    exact Std.TreeMap.getElem?_erase_self

theorem removeStuckTransactions_sheds (now : UInt64) : Sheds s (s.removeStuckTransactions now) := by
  have htimeOut : ∀ (rows : List (K × PoolEntry I)) (s : MemoryPool K I R),
      Sheds s (rows.foldl (fun s row => s.timeOut row.1) s) := by
    intro rows
    induction rows with
    | nil => exact fun s => .refl
    | cons row rows ih =>
      intro s
      have hfirst : Sheds s (s.timeOut row.1) :=
        (removeTxFromTransientLists_sheds row.1).trans (.of_eq rfl rfl rfl rfl)
      exact hfirst.trans (ih _)
  have hremove : ∀ (rows : List (K × PoolEntry I)) (s : MemoryPool K I R), Sheds s
      (rows.foldl (fun s row => s.removeEntry row.1 row.2.details.weight row.2.tx.vin) s) := by
    intro rows
    induction rows with
    | nil => exact fun s => .refl
    | cons row rows ih => exact fun s => (removeEntry_sheds _ _).trans (ih _)
  unfold removeStuckTransactions
  dsimp only
  split
  · exact htimeOut _ s
  · exact (htimeOut _ s).trans ((hremove _ _).trans (.of_eq rfl rfl rfl rfl))

omit [DecidableEq K] in
theorem markDoubleSpend_sheds (tx : PoolTransaction I) : Sheds s (s.markDoubleSpend tx) := by
  have hmark : ∀ (txid : K) (s : MemoryPool K I R), Sheds s (s.markDoubleSpendTx txid) := by
    intro txid s
    unfold markDoubleSpendTx
    split
    · exact .refl
    · rename_i e he
      split
      · exact .refl
      · exact .mark he ⟨rfl, rfl, rfl, rfl, rfl, rfl⟩
  have hfold : ∀ (txids : List K) (s : MemoryPool K I R),
      Sheds s (txids.foldl markDoubleSpendTx s) := by
    intro txids
    induction txids with
    | nil => exact fun s => .refl
    | cons txid txids ih => exact fun s => (hmark txid s).trans (ih _)
  unfold markDoubleSpend
  split
  · exact .refl
  · dsimp only
    split
    · exact (hfold _ s).trans (.of_eq rfl rfl rfl rfl)
    · exact hfold _ s

/-! ## Filling a block -/

omit [DecidableEq K] [Std.TransOrd K] [Std.LawfulEqOrd K] in
theorem isTransactionReadyToGo_sheds (r : FillRequest K I) (id : K) (e : PoolEntry I) :
    Sheds s (s.isTransactionReadyToGo r id e).2 := by
  obtain heq | heq := isTransactionReadyToGo_snd (s := s) r id e
  · rw [heq]
    exact .refl
  · rw [heq]
    exact checkTxInputs_sheds _ _ _ _ _

omit [DecidableEq K] in
theorem recheckTx_sheds (r : FillRequest K I) {e : PoolEntry I} (he : s.txs[id]? = some e) :
    Sheds s (s.recheckTx r id e).2 := by
  have hready := isTransactionReadyToGo_sheds (s := s) r id e
  have htxs := (samePool_isTransactionReadyToGo (s := s) r id e).1.txs
  obtain heq | heq := recheckTx_snd r he
  · rw [heq]
    exact hready
  · rw [heq, ← htxs]
    exact hready.trans (.mark (by rw [htxs]; exact he) (isTransactionReadyToGo_details r id e))

omit [DecidableEq K] in
theorem fillLoop_sheds [DecidableEq I] (r : FillRequest K I) (l : List (SortedTx K R))
    (f : FilledBlock K I) : Sheds s (fillLoop r l f s).2 := by
  induction l generalizing f s with
  | nil => exact .refl
  | cons x rest ih =>
    unfold fillLoop
    split
    · exact ih f
    · rename_i e he
      split
      · exact ih f
      split
      · exact .refl
      · dsimp only
        split
        · exact (recheckTx_sheds r he).trans (ih f)
        · exact (recheckTx_sheds r he).trans (ih _)

omit [DecidableEq K] in
theorem fillBlockTemplate_sheds [DecidableEq I] (r : FillRequest K I) :
    Sheds s (s.fillBlockTemplate r).2 := by
  unfold fillBlockTemplate
  split
  · exact .refl
  · exact fillLoop_sheds r _ _

/-! ## Adding -/

/-- What the table takes as the details of an added transaction. -/
structure NewDetails (now : UInt64) (a : AddedTx K I) (s : MemoryPool K I R)
    (details : TxpoolTxMeta) : Prop where
  weight : details.weight = a.txWeight
  fee : details.fee = a.tx.fee
  receiveTime : details.receiveTime = now
  /-- A block brings it now, or brought it before. -/
  kept : details.keptByBlock = true →
    a.txRelay = .block ∨ ∃ e, s.txs[a.id]? = some e ∧ e.details.keptByBlock = true

variable [LT R] [DecidableLT R] {feePerWeight : UInt64 → UInt64 → R} {env : PoolEnv K I}
  {a : AddedTx K I} {P : MemoryPool K I R → Prop}

theorem storeTx_induction {txRelay : RelayMethod} {details : TxpoolTxMeta} {removeFirst : Bool}
    {tvc : TxVerificationContext} (hsheds : ∀ s s', P s → Sheds s s' → P s')
    (hput : ∀ s details removeFirst, P s → NewDetails env.now a s details →
      P (s.putTx feePerWeight env.now a details removeFirst))
    (hnew : NewDetails env.now a s details) (h : P s) :
    P (s.storeTx feePerWeight env a txRelay details removeFirst tvc).2.2 := by
  have hinsert := insertKeyImages_sheds (s := s) a.id txRelay a.tx.vin
  obtain ⟨spentKeyImages, cookie, hwith⟩ :=
    insertKeyImages_snd (s := s) a.id txRelay a.tx.vin
  unfold storeTx
  split
  · rename_i heq
    rw [heq] at hinsert
    exact hsheds _ _ h hinsert
  · rename_i t heq
    rw [heq] at hinsert hwith
    obtain rfl : t = { s with spentKeyImages, cookie } := hwith
    exact hsheds _ _ (hput _ _ _ (hsheds _ _ h hinsert)
      ⟨hnew.weight, hnew.fee, hnew.receiveTime, hnew.kept⟩) (finishAdd_sheds _ _ _ _)

theorem upgradeRelayMethod_or {details : TxpoolTxMeta} {method : RelayMethod}
    (h : (details.upgradeRelayMethod method).2.keptByBlock = true) :
    method = .block ∨ details.keptByBlock = true := by
  unfold TxpoolTxMeta.upgradeRelayMethod at h
  split at h
  · exact .inl (of_decide_eq_true h)
  · exact .inr h

/-- What shedding, caching the transaction and putting it into the table keep, `add_tx` keeps. -/
theorem addTx_induction [DecidableEq I] (hsheds : ∀ s s', P s → Sheds s s' → P s')
    (hcache : ∀ s, P s → P (s.cacheParsed a))
    (hput : ∀ s details removeFirst, P s → NewDetails env.now a s details →
      P (s.putTx feePerWeight env.now a details removeFirst)) (h : P s) :
    P (s.addTx feePerWeight env a).2.2 := by
  unfold addTx
  cases hrefuse : s.refuseTx env a with
  | some answer =>
    obtain ⟨tvc, s'⟩ := answer
    obtain rfl | rfl := refuseTx_some hrefuse
    · exact h
    · exact hsheds _ _ h (markDoubleSpend_sheds a.tx)
  | none =>
    have hchecked := hsheds _ _ h (checkTxInputs_sheds env a.tx a.id a.validInputVerificationId
      (decide (a.txRelay = .block)))
    dsimp only
    split
    · have hcached := hcache _ hchecked
      obtain ⟨t, ht⟩ : ∃ t, (s.checkTxInputs env a.tx a.id a.validInputVerificationId
        (decide (a.txRelay = .block))).2.cacheParsed a = t := ⟨_, rfl⟩
      unfold addVerified
      rw [ht] at hcached ⊢
      have hlater : ∀ (delayed : Bool) (candidate : Int64),
          (if delayed = true then t.setIfLess candidate else t).txs = t.txs := by
        intro delayed candidate
        split
        · exact (samePool_setIfLess candidate).txs
        · rfl
      dsimp only
      split
      · refine storeTx_induction hsheds hput ⟨rfl, rfl, rfl, fun hkept => ?_⟩ ?_
        · refine (upgradeRelayMethod_or hkept).imp takenRelay_eq_block.mp fun hbefore => ?_
          rw [hlater]
          cases hexisting : t.txs[a.id]? with
          | none =>
            rw [hexisting] at hbefore
            cases hbefore
          | some e =>
            rw [hexisting] at hbefore
            exact ⟨e, rfl, hbefore⟩
        · split
          · exact hsheds _ _ hcached (setIfLess_sheds _)
          · exact hcached
      · exact hsheds _ _ hcached (finishAdd_sheds _ _ _ _)
    · split
      · rename_i hblock
        exact storeTx_induction hsheds hput
          ⟨rfl, rfl, rfl, fun _ => .inl (of_decide_eq_true hblock)⟩ (hcache _ hchecked)
      · exact hchecked

/-- A transaction that the pool did not have is one of a block only if a block brings it. -/
theorem addTx_kept [DecidableEq I] (hnone : s.txs[a.id]? = none) {e : PoolEntry I}
    (he : (s.addTx feePerWeight env a).2.2.txs[a.id]? = some e)
    (hkept : e.details.keptByBlock = true) : a.txRelay = .block := by
  have hall : ∀ e : PoolEntry I, (s.addTx feePerWeight env a).2.2.txs[a.id]? = some e →
      e.details.keptByBlock = true → a.txRelay = .block := by
    refine addTx_induction
      (P := fun t => ∀ e : PoolEntry I, t.txs[a.id]? = some e → e.details.keptByBlock = true →
        a.txRelay = .block)
      (fun t t' h hsheds e' he' hkept' => ?_) (fun t h e he hkept => ?_)
      (fun t details removeFirst h hnew e he hkept => ?_) (fun e he => ?_)
    · obtain ⟨e, he, -, hsame⟩ := hsheds.stored a.id e' he'
      exact h e he (hsame.kept.symm.trans hkept')
    · rw [(samePool_cacheParsed a).txs] at he
      exact h e he hkept
    · obtain ⟨-, rfl⟩ | ⟨hne, -⟩ := getElem?_insert_iff.mp he
      · obtain hblock | ⟨e, he, hkept⟩ := hnew.kept hkept
        · exact hblock
        · exact h e he hkept
      · exact absurd rfl hne
    · rw [hnone] at he
      cases he
  exact hall e he hkept

/-! ## Starting -/

/-- What shedding and listing a transaction of the table keep, and what a pool with nothing but
its table has, a pool has after a start. -/
theorem restart_induction {now : UInt64} {maxTxpoolWeight : Nat}
    (hsheds : ∀ s s', P s → Sheds s s' → P s')
    (hlist : ∀ (s : MemoryPool K I R) (id : K) (e : PoolEntry I), P s → s.txs[id]? = some e →
      P (s.addTxToTransientLists now id (feePerWeight e.details.fee e.details.weight)
        e.details.receiveTime (!e.details.isMatch .broadcasted)))
    (h : P { txs := s.txs }) : P (s.restart feePerWeight now maxTxpoolWeight).2 := by
  have hpass : ∀ (kept : Bool) (l : List (K × PoolEntry I)) (t : MemoryPool K I R),
      (∀ row ∈ l, t.txs[row.1]? = some row.2) → P t →
      P (initPass feePerWeight kept now l t).2 := by
    intro kept l
    induction l with
    | nil => exact fun t _ ht => ht
    | cons row l ih =>
      intro t hl ht
      have hl' : ∀ row ∈ l, t.txs[row.1]? = some row.2 := fun row hrow =>
        hl row (List.mem_cons_of_mem _ hrow)
      have hinsert := hsheds _ _ ht (insertKeyImages_sheds row.1
        row.2.details.getRelayMethod row.2.tx.vin)
      obtain ⟨spentKeyImages, cookie, hwith⟩ := insertKeyImages_snd (s := t) row.1
        row.2.details.getRelayMethod row.2.tx.vin
      unfold initPass
      split
      · exact ih t hl' ht
      · split
        · rename_i heq
          rw [heq] at hinsert
          exact hinsert
        · rename_i u heq
          rw [heq] at hinsert hwith
          obtain rfl : u = { t with spentKeyImages, cookie } := hwith
          exact ih _ hl' (hsheds _ _ (hlist _ row.1 row.2 hinsert (hl row List.mem_cons_self))
            (.of_eq rfl rfl rfl rfl))
  have hrows : ∀ t : MemoryPool K I R, ∀ row ∈ t.txs.toList, t.txs[row.1]? = some row.2 :=
    fun t row hrow => Std.TreeMap.mem_toList_iff_getElem?_eq_some.mp hrow
  have hpasses : ∀ t, P t → P (initPasses feePerWeight now t).2 := by
    intro t ht
    have hfirst := hpass false t.txs.toList t (hrows t) ht
    have hsecond := hpass true _ _ (hrows _) hfirst
    unfold initPasses
    dsimp only
    split
    · exact hfirst
    · split
      · exact hsecond
      · exact hsheds _ _ hsecond (.of_eq rfl rfl rfl rfl)
  exact hpasses _ (hsheds _ _ h (.of_eq rfl rfl rfl rfl))

end

end MemoryPool

end RandomLite.Monero
