-- SUMMARY: What the sorted list of the memory pool is sorted by: the fee and the weight of each transaction, and its time.
import RandomLite.Monero.MemoryPoolRuns

/-!
# The order of the memory pool

The elements of the sorted list have keys of their own. The first is always what the transaction
pays for each unit of its weight. The second is the time at which the table took the transaction,
until `set_relayed` or `validate` lists it anew.
-/

namespace RandomLite.Monero

open KeyedTable

namespace MemoryPool

variable {K I R : Type} [Ord K] [Ord I] [DecidableEq K] [LinearOrder R]
  {s s' : MemoryPool K I R} {id : K} {feePerWeight : UInt64 → UInt64 → R} {fee weight : K → UInt64}

/-! ## Listing a transaction -/

omit [DecidableEq K] [Ord K] in
theorem mem_insertSorted {x y : SortedTx K R} {l : List (SortedTx K R)}
    (h : y ∈ insertSorted x l) : y = x ∨ y ∈ l :=
  List.mem_cons.mp ((insertSorted_perm x l).mem_iff.mp h)

variable [Std.TransOrd K] [Std.LawfulEqOrd K]

omit [Std.LawfulEqOrd K] in
/-- An element was there before, or is the new one. The elements of a transaction that is known as
added are not there any more. -/
theorem mem_relisted {now : UInt64} {amount : R} {receiveTime : UInt64} {sensitive : Bool}
    {x : SortedTx K R}
    (h : x ∈ (s.addTxToTransientLists now id amount receiveTime sensitive).txsByFeeAndReceiveTime) :
    x = { feePerWeight := amount, receiveTime, id } ∨
      x ∈ s.txsByFeeAndReceiveTime ∧ (id ∈ s.addedTxsById → x.id ≠ id) := by
  have hless : x ∈ s.sortedLess id →
      x ∈ s.txsByFeeAndReceiveTime ∧ (id ∈ s.addedTxsById → x.id ≠ id) := by
    unfold sortedLess
    intro hx
    split at hx
    · rename_i hnone
      refine ⟨hx, fun hadded => ?_⟩
      rw [Std.TreeMap.mem_iff_isSome_getElem?, hnone] at hadded
      cases hadded
    · obtain ⟨hx, hne⟩ := List.mem_filter.mp hx
      exact ⟨hx, fun _ => of_decide_eq_true hne⟩
  unfold addTxToTransientLists at h
  dsimp only at h
  split at h
  · exact .inr (hless h)
  · exact (mem_insertSorted h).imp_right hless

/-! ## Fees -/

/-- The table has every transaction with the fee and the weight that its id stands for, and the
list has it with the quotient. -/
structure Priced (feePerWeight : UInt64 → UInt64 → R) (fee weight : K → UInt64)
    (s : MemoryPool K I R) : Prop where
  stored : ∀ (id : K) (e : PoolEntry I), s.txs[id]? = some e →
    e.tx.fee = fee id ∧ e.details.fee = fee id ∧ e.details.weight = weight id
  parsed : ∀ (id : K) (tx : PoolTransaction I), s.parsedTxCache[id]? = some tx → tx.fee = fee id
  sorted : ∀ x ∈ s.txsByFeeAndReceiveTime, weight x.id ≠ 0 →
    x.feePerWeight = feePerWeight (fee x.id) (weight x.id)

namespace Priced

omit [DecidableEq K] [LinearOrder R] [Std.TransOrd K] [Std.LawfulEqOrd K] in
theorem sheds (h : Priced feePerWeight fee weight s) (hsheds : Sheds s s') :
    Priced feePerWeight fee weight s' where
  stored := fun id e' he' => by
    obtain ⟨e, he, htx, hsame⟩ := hsheds.stored id e' he'
    rw [htx, hsame.fee, hsame.weight]
    exact h.stored id e he
  parsed := fun id tx htx => h.parsed id tx (hsheds.parsed id tx htx)
  sorted := fun x hx => h.sorted x (hsheds.sorted x hx)

omit [Std.LawfulEqOrd K] in
/-- The list has a transaction of the table anew. -/
theorem relist (h : Priced feePerWeight fee weight s) {amount : R}
    (hamount : weight id ≠ 0 → amount = feePerWeight (fee id) (weight id)) (now : UInt64)
    (receiveTime : UInt64) (sensitive : Bool) : Priced feePerWeight fee weight
      (s.addTxToTransientLists now id amount receiveTime sensitive) where
  stored := h.stored
  parsed := h.parsed
  sorted := fun x hx => by
    obtain rfl | ⟨hx, -⟩ := mem_relisted hx
    · exact hamount
    · exact h.sorted x hx

omit [DecidableEq K] [LinearOrder R] [Std.TransOrd K] [Std.LawfulEqOrd K] in
theorem insert (h : Priced feePerWeight fee weight s) (id : K) {e : PoolEntry I}
    (he : e.tx.fee = fee id ∧ e.details.fee = fee id ∧ e.details.weight = weight id)
    {txs : Std.TreeMap K (PoolEntry I)}
    (htxs : ∀ (id' : K) (e' : PoolEntry I), txs[id']? = some e' →
      id = id' ∧ e = e' ∨ s.txs[id']? = some e') :
    Priced feePerWeight fee weight { s with txs } where
  stored := fun id' e' he' => by
    obtain ⟨rfl, rfl⟩ | hold := htxs id' e' he'
    · exact he
    · exact h.stored id' e' hold
  parsed := h.parsed
  sorted := h.sorted

omit [DecidableEq K] [LinearOrder R] in
theorem cacheParsed (h : Priced feePerWeight fee weight s) {a : AddedTx K I}
    (ha : a.tx.fee = fee a.id) : Priced feePerWeight fee weight (s.cacheParsed a) := by
  refine ⟨fun id e he => ?_, fun id tx htx => ?_, fun x hx => ?_⟩
  · rw [(samePool_cacheParsed a).txs] at he
    exact h.stored id e he
  rotate_left
  · rw [(samePool_cacheParsed a).sorted] at hx
    exact h.sorted x hx
  unfold MemoryPool.cacheParsed at htx
  split at htx
  · dsimp only at htx
    rw [Std.TreeMap.getElem?_insertIfNew] at htx
    split at htx
    · rename_i hnew
      rw [← Option.some.inj htx, ← Std.compare_eq_iff_eq.mp hnew.1]
      exact ha
    · exact h.parsed id tx htx
  · exact h.parsed id tx htx

variable [DecidableEq I]

theorem addTx (h : Priced feePerWeight fee weight s) (env : PoolEnv K I) {a : AddedTx K I}
    (hfee : a.tx.fee = fee a.id) (hweight : a.txWeight = weight a.id) :
    Priced feePerWeight fee weight (s.addTx feePerWeight env a).2.2 := by
  refine addTx_induction (P := Priced feePerWeight fee weight) (fun _ _ h hsheds => h.sheds hsheds)
    (fun _ h => h.cacheParsed hfee) (fun t details removeFirst h hnew => ?_) h
  have hput : Priced feePerWeight fee weight { t with
      txs := (if removeFirst then t.txs.erase a.id else t.txs).insert a.id
        { details, tx := a.tx } } := by
    refine h.insert a.id (e := { details, tx := a.tx })
      ⟨hfee, hnew.fee.trans hfee, hnew.weight.trans hweight⟩ fun id' e' he' => ?_
    refine (getElem?_insert_iff.mp he').imp_right fun hold => ?_
    split at hold
    · exact (getElem?_erase_iff.mp hold.2).2
    · exact hold.2
  refine hput.relist (fun hne => ?_) _ _ _
  unfold addedFeePerWeight
  rw [hweight, if_neg hne, hnew.fee, hfee]

omit [DecidableEq I] in
theorem setRelayed (h : Priced feePerWeight fee weight s) (method : RelayMethod) (now : UInt64)
    (hashes : List (K × UInt64)) :
    Priced feePerWeight fee weight (s.setRelayed feePerWeight method now hashes).2 := by
  have hone : ∀ (hash : K × UInt64) (nextRelay : UInt64) (s : MemoryPool K I R),
      Priced feePerWeight fee weight s → Priced feePerWeight fee weight
        (s.setRelayedTx feePerWeight method now hash nextRelay).2 := by
    intro hash nextRelay s h
    obtain heq | ⟨e, t, he, ht, hrelayed⟩ := setRelayedTx_snd (s := s)
      feePerWeight method now hash nextRelay
    · rw [heq]
      exact h
    · obtain ⟨htx, hfee, hweight⟩ := h.stored hash.1 e he
      obtain ⟨hweight', hfee'⟩ := relayedDetails_offer method now hash.2 e.details
      have hupgraded : Priced feePerWeight fee weight t := by
        rw [ht]
        exact h.insert hash.1 (e := { e with details := relayedDetails method now hash.2 e.details })
          ⟨htx, hfee'.trans hfee, hweight'.trans hweight⟩ fun id' e' he' =>
          (getElem?_insert_iff.mp he').imp_right And.right
      obtain heq | heq := hrelayed
      · rw [heq]
        exact hupgraded
      · rw [heq]
        exact hupgraded.relist (fun _ => by rw [hfee, hweight]) _ _ _
  have hloop : ∀ (hashes : List (K × UInt64)) (nextRelay : UInt64) (s : MemoryPool K I R),
      Priced feePerWeight fee weight s → Priced feePerWeight fee weight
        (s.setRelayedLoop feePerWeight method now hashes nextRelay).2 := by
    intro hashes
    induction hashes with
    | nil => exact fun _ _ h => h
    | cons hash hashes ih => exact fun nextRelay s h => ih _ _ (hone hash nextRelay s h)
  exact (hloop hashes (2 ^ 63 - 1) s h).sheds (setIfLess_sheds _)

omit [LinearOrder R] [Std.TransOrd K] [Std.LawfulEqOrd K] [DecidableEq I] in
theorem takeTx_some (h : Priced feePerWeight fee weight s)
    {taken : PoolTransaction I × TxpoolTxMeta} (htaken : (s.takeTx id).1 = some taken) :
    taken.1.fee = fee id := by
  unfold MemoryPool.takeTx at htaken
  split at htaken
  · cases htaken
  · rename_i e he
    rw [← Option.some.inj htaken]
    cases hparsed : s.parsedTxCache[id]? with
    | none => exact (h.stored id e he).1
    | some tx => exact h.parsed id tx hparsed

/-- The transaction goes through `add_tx`, and its entry is written again. -/
theorem validateTx (h : Priced feePerWeight fee weight s) (env : PoolEnv K I) {version : UInt8}
    (hversion : version ≠ 0) {txid : K} {details : TxpoolTxMeta}
    (hfee : details.fee = fee txid) (hweight : details.weight = weight txid) :
    Priced feePerWeight fee weight (s.validateTx feePerWeight env version txid details).2 := by
  have htake := h.sheds (takeTx_sheds txid)
  have hadd : Priced feePerWeight fee weight ((s.takeTx txid).2.addTx feePerWeight env
      (validatedTx version txid details (s.takeTx txid).1)).2.2 := by
    cases htaken : (s.takeTx txid).1 with
    -- What could not be taken is added as a transaction without inputs, and refused.
    | none =>
      rw [(addTx_empty rfl hversion).2]
      exact htake
    | some taken => exact htake.addTx env (h.takeTx_some htaken) hweight
  unfold MemoryPool.validateTx
  dsimp only
  split
  · exact hadd
  · split
    · exact hadd
    · rename_i t hupdate
      unfold updateTxpoolTx at hupdate
      obtain ⟨e, he, rfl⟩ := Option.map_eq_some_iff.mp hupdate
      exact hadd.insert txid (e := { e with details })
        ⟨(hadd.stored txid e he).1, hfee, hweight⟩ fun id' e' he' =>
          (getElem?_insert_iff.mp he').imp_right And.right

theorem validate (h : Priced feePerWeight fee weight s) (env : K → PoolEnv K I) {version : UInt8}
    (hversion : version ≠ 0) :
    Priced feePerWeight fee weight (s.validate feePerWeight env version).2 := by
  have hloop : ∀ (txes : List (K × PoolEntry I)) (t : MemoryPool K I R),
      Priced feePerWeight fee weight t → (∀ row ∈ txes, s.txs[row.1]? = some row.2) →
      Priced feePerWeight fee weight (t.validateLoop feePerWeight env version txes).2 := by
    intro txes
    induction txes with
    | nil => exact fun _ ht _ => ht
    | cons row txes ih =>
      intro t ht hrows
      obtain ⟨-, hfee, hweight⟩ := h.stored row.1 row.2 (hrows row List.mem_cons_self)
      exact ih _ (ht.validateTx (env row.1) hversion hfee hweight) fun row' hrow' =>
        hrows row' (List.mem_cons_of_mem _ hrow')
  have hadded := hloop (s.txs.toList.filter fun row => !row.2.details.pruned)
    { s with addedTxsById := {} } ⟨h.stored, h.parsed, h.sorted⟩ fun row hrow =>
      Std.TreeMap.mem_toList_iff_getElem?_eq_some.mp (List.mem_of_mem_filter hrow)
  unfold MemoryPool.validate
  dsimp only
  split
  · exact ⟨hadded.stored, hadded.parsed, hadded.sorted⟩
  · exact hadded

omit [DecidableEq I] in
theorem restart (h : Priced feePerWeight fee weight s) (now : UInt64) (maxTxpoolWeight : Nat) :
    Priced feePerWeight fee weight (s.restart feePerWeight now maxTxpoolWeight).2 := by
  refine restart_induction (P := Priced feePerWeight fee weight) (fun _ _ h hsheds => h.sheds hsheds)
    (fun t id e h he => ?_) ⟨h.stored, fun id tx htx => ?_, fun x hx => absurd hx List.not_mem_nil⟩
  · obtain ⟨-, hfee, hweight⟩ := h.stored id e he
    exact h.relist (fun _ => by rw [hfee, hweight]) _ _ _
  · rw [Std.TreeMap.getElem?_emptyc] at htx
    cases htx

end Priced

/-! ## Times -/

/-- The list has every transaction with the time of its entry, and knows it as added. -/
structure Timed (s : MemoryPool K I R) : Prop where
  added : ∀ x ∈ s.txsByFeeAndReceiveTime, x.id ∈ s.addedTxsById
  times : ∀ x ∈ s.txsByFeeAndReceiveTime, ∀ e, s.txs[x.id]? = some e →
    x.receiveTime = e.details.receiveTime

namespace Timed

omit [DecidableEq K] [LinearOrder R] [Std.TransOrd K] [Std.LawfulEqOrd K] in
theorem sheds (h : Timed s) (hsheds : Sheds s s') : Timed s' where
  added := fun x hx => hsheds.added x hx (h.added x (hsheds.sorted x hx))
  times := fun x hx e' he' => by
    obtain ⟨e, he, -, hsame⟩ := hsheds.stored x.id e' he'
    exact (h.times x (hsheds.sorted x hx) e he).trans hsame.receiveTime.symm

/-- The list has a transaction anew, with the time of its entry, which may be new as well. -/
theorem relist (h : Timed s) {now receiveTime : UInt64} {amount : R} {sensitive : Bool}
    {txs : Std.TreeMap K (PoolEntry I)}
    (htxs : ∀ (id' : K) (e : PoolEntry I), txs[id']? = some e →
      id = id' ∧ receiveTime = e.details.receiveTime ∨ id ≠ id' ∧ s.txs[id']? = some e) :
    Timed (({ s with txs } : MemoryPool K I R).addTxToTransientLists now id amount receiveTime
      sensitive) where
  added := fun x hx => by
    obtain rfl | ⟨hx, -⟩ := mem_relisted hx
    · exact mem_insert_iff.mpr (.inl rfl)
    · exact mem_insert_iff.mpr (.inr (h.added x hx))
  times := fun x hx e he => by
    obtain ⟨hid, htime⟩ | ⟨hne, hold⟩ := htxs x.id e he
    -- An element from before keeps its time, so there was none of this transaction.
    · obtain rfl | ⟨hx, hother⟩ := mem_relisted hx
      · exact htime
      · exact absurd hid.symm (hother (hid ▸ h.added x hx))
    · obtain rfl | ⟨hx, -⟩ := mem_relisted hx
      · exact absurd rfl hne
      · exact h.times x hx e hold

variable [DecidableEq I]

theorem addTx (h : Timed s) (env : PoolEnv K I) (a : AddedTx K I) :
    Timed (s.addTx feePerWeight env a).2.2 := by
  refine addTx_induction (P := Timed) (fun _ _ h hsheds => h.sheds hsheds) (fun t h => ?_)
    (fun t details removeFirst h hnew => ?_) h
  · unfold cacheParsed
    split
    · exact ⟨h.added, h.times⟩
    · exact h
  · refine h.relist fun id' e he => ?_
    obtain ⟨rfl, rfl⟩ | ⟨hne, hold⟩ := getElem?_insert_iff.mp he
    · exact .inl ⟨rfl, hnew.receiveTime.symm⟩
    · refine .inr ⟨hne, ?_⟩
      split at hold
      · exact (getElem?_erase_iff.mp hold).2
      · exact hold

omit [DecidableEq I] in
theorem restart (now : UInt64) (maxTxpoolWeight : Nat) :
    Timed (s.restart feePerWeight now maxTxpoolWeight).2 := by
  refine restart_induction (P := Timed) (fun _ _ h hsheds => h.sheds hsheds) (fun t id e h he => ?_)
    ⟨fun x hx => absurd hx List.not_mem_nil, fun x hx => absurd hx List.not_mem_nil⟩
  refine h.relist fun id' e' he' => ?_
  by_cases heq : id = id'
  · rw [← heq, he] at he'
    exact .inl ⟨heq, by rw [Option.some.inj he']⟩
  · exact .inr ⟨heq, he'⟩

end Timed

/-! ## Runs -/

/-- Calls that add a transaction have the fee that its id stands for. -/
def PoolCall.Pays (fee : K → UInt64) : PoolCall K I → Prop
  | .addTx _ a => a.tx.fee = fee a.id
  | _ => True

/-- The calls that list a transaction of the table under the present time. -/
def PoolCall.KeepsTimes : PoolCall K I → Prop
  | .setRelayed _ _ _ => False
  | .validate _ _ => False
  | _ => True

variable [DecidableEq I] [Std.TransOrd I] [Std.LawfulEqOrd I] {vin : K → List (PoolInput I)}

omit [Std.TransOrd I] [Std.LawfulEqOrd I] in
theorem Priced.step (h : Priced feePerWeight fee weight s) {c : PoolCall K I}
    (hc : c.IsRegular vin weight) (hpays : c.Pays fee) :
    Priced feePerWeight fee weight ((poolMachine K I feePerWeight).step s c).2 := by
  cases c with
  | addTx env a => exact h.addTx env hpays hc.weight_eq
  | takeTx id => exact h.sheds (takeTx_sheds id)
  | removeStuckTransactions now => exact h.sheds (removeStuckTransactions_sheds now)
  | onBlockchainChange => exact h.sheds onBlockchainChange_sheds
  | setRelayed method now hashes => exact h.setRelayed method now hashes
  | validate env version => exact h.validate env hc
  | restart now maxTxpoolWeight => exact h.restart now maxTxpoolWeight
  | fillBlockTemplate r => exact h.sheds (fillBlockTemplate_sheds r)

omit [Std.TransOrd I] [Std.LawfulEqOrd I] in
theorem Timed.step (h : Timed s) {c : PoolCall K I} (hc : c.KeepsTimes) :
    Timed ((poolMachine K I feePerWeight).step s c).2 := by
  cases c with
  | addTx env a => exact h.addTx env a
  | takeTx id => exact h.sheds (takeTx_sheds id)
  | removeStuckTransactions now => exact h.sheds (removeStuckTransactions_sheds now)
  | onBlockchainChange => exact h.sheds onBlockchainChange_sheds
  | setRelayed method now hashes => cases hc
  | validate env version => cases hc
  | restart now maxTxpoolWeight => exact Timed.restart now maxTxpoolWeight
  | fillBlockTemplate r => exact h.sheds (fillBlockTemplate_sheds r)

omit [Std.TransOrd I] [Std.LawfulEqOrd I] in
theorem priced_run (fee : K → UInt64) (feePerWeight : UInt64 → UInt64 → R)
    (calls : List (PoolCall K I)) (maxWeight : Nat) (hcalls : ∀ c ∈ calls, c.IsRegular vin weight)
    (hpays : ∀ c ∈ calls, c.Pays fee) : Priced feePerWeight fee weight
      ((poolMachine K I feePerWeight).final { txpoolMaxWeight := maxWeight } calls) := by
  have hnone : ∀ (V : Type) (id : K) (v : V), ¬ ({} : Std.TreeMap K V)[id]? = some v :=
    fun V id v hv => by
      rw [Std.TreeMap.getElem?_emptyc] at hv
      cases hv
  exact Machine.final_induction (I := Priced feePerWeight fee weight) calls
    ⟨fun id e he => absurd he (hnone _ id e), fun id tx htx => absurd htx (hnone _ id tx),
      fun x hx => absurd hx List.not_mem_nil⟩
    fun _ c hc h => h.step (hcalls c hc) (hpays c hc)

/-- In every run the sorted list has each transaction of the pool once and no other, those that
pay best for their weight first, and among those that pay the same the ones with the earlier time,
which is that of the entry unless some transaction was listed anew. -/
theorem sorted_run (vin : K → List (PoolInput I)) (fee weight : K → UInt64)
    (feePerWeight : UInt64 → UInt64 → R) (calls : List (PoolCall K I)) (maxWeight : Nat)
    (hcalls : ∀ c ∈ calls, c.IsRegular vin weight) (hpays : ∀ c ∈ calls, c.Pays fee) :
    Listed ((poolMachine K I feePerWeight).final { txpoolMaxWeight := maxWeight } calls) ∧
    (∀ x ∈ ((poolMachine K I feePerWeight).final
        { txpoolMaxWeight := maxWeight } calls).txsByFeeAndReceiveTime, ∀ e,
      ((poolMachine K I feePerWeight).final { txpoolMaxWeight := maxWeight } calls).txs[x.id]? =
        some e → e.details.weight ≠ 0 →
      x.feePerWeight = feePerWeight e.details.fee e.details.weight) ∧
    ((∀ c ∈ calls, c.KeepsTimes) → ∀ x ∈ ((poolMachine K I feePerWeight).final
        { txpoolMaxWeight := maxWeight } calls).txsByFeeAndReceiveTime, ∀ e,
      ((poolMachine K I feePerWeight).final { txpoolMaxWeight := maxWeight } calls).txs[x.id]? =
        some e → x.receiveTime = e.details.receiveTime) := by
  have hpriced := priced_run fee feePerWeight calls maxWeight hcalls hpays
  refine ⟨(consistent_run vin weight feePerWeight calls maxWeight hcalls).sorted,
    fun x hx e he hweight => ?_, fun htimes => ?_⟩
  · obtain ⟨-, hfee', hweight'⟩ := hpriced.stored x.id e he
    rw [hfee', hweight']
    exact hpriced.sorted x hx (hweight' ▸ hweight)
  · exact (Machine.final_induction (I := Timed) calls
      ⟨fun x hx => absurd hx List.not_mem_nil, fun x hx => absurd hx List.not_mem_nil⟩
      fun _ c hc h => h.step (htimes c hc)).times

/-- Two transactions, the second of which pays better; the node is started again after that. -/
def payingCalls : List (PoolCall Nat Nat) :=
  [.addTx sampleEnv (sampleAdd 1 .fluff),
    .addTx sampleEnv { sampleAdd 2 .fluff with tx := { vin := [.toKey 8], fee := 5000000 } },
    .restart 200 0]

def payingPool : MemoryPool Nat Nat Nat :=
  (poolMachine Nat Nat sampleFeePerWeight).final { txpoolMaxWeight := 300 } payingCalls

theorem sorted_run_sample : Listed payingPool ∧
    (∀ x ∈ payingPool.txsByFeeAndReceiveTime, ∀ e, payingPool.txs[x.id]? = some e →
      e.details.weight ≠ 0 →
      x.feePerWeight = sampleFeePerWeight e.details.fee e.details.weight) ∧
    ∀ x ∈ payingPool.txsByFeeAndReceiveTime, ∀ e, payingPool.txs[x.id]? = some e →
      x.receiveTime = e.details.receiveTime := by
  have hcalls : ∀ c ∈ payingCalls, c.IsRegular
      (fun id => if id = 1 then [.toKey 7] else [.toKey 8]) (fun _ => 100) ∧
      c.Pays (fun id => if id = 1 then 3000000 else 5000000) ∧ c.KeepsTimes := by
    intro c hc
    unfold payingCalls at hc
    simp only [List.mem_cons, List.not_mem_nil, or_false] at hc
    obtain rfl | rfl | rfl := hc
    · exact ⟨⟨rfl, rfl, fun _ => rfl⟩, rfl, trivial⟩
    · exact ⟨⟨rfl, rfl, fun _ => rfl⟩, rfl, trivial⟩
    · exact ⟨trivial, trivial, trivial⟩
  obtain ⟨hlisted, hfees, htimes⟩ := sorted_run (fun id => if id = 1 then [.toKey 7] else [.toKey 8])
    (fun id => if id = 1 then 3000000 else 5000000) (fun _ => 100) sampleFeePerWeight payingCalls 300
    (fun c hc => (hcalls c hc).1) (fun c hc => (hcalls c hc).2.1)
  exact ⟨hlisted, hfees, htimes fun c hc => (hcalls c hc).2.2⟩

end MemoryPool

end RandomLite.Monero
