-- SUMMARY: The cookie of the memory pool: while it stays the same, so does all that a block is filled from.
import RandomLite.Monero.MemoryPoolRuns

/-!
# The cookie of the memory pool

A block template is made anew when the cookie of the pool is another one than before. So a call
that changes what a block can be filled from has to change the cookie. `Steady` is that relation
between the pool before and after; it composes, and every call is steady but `set_relayed`, which
never changes the cookie, and a start, which begins to count anew.
-/

namespace RandomLite.Monero

namespace MemoryPool

/-- What filling a block reads of an entry, but for what the chain says of it. -/
def offered {I : Type} (e : PoolEntry I) : PoolTransaction I × UInt64 × UInt64 × RelayMethod × Bool :=
  (e.tx, e.details.weight, e.details.fee, e.details.getRelayMethod, e.details.pruned)

/-- The cookie only grows, and where it stays, so does what a block is filled from. -/
structure Steady {K I R : Type} [Ord K] [Ord I] (s s' : MemoryPool K I R) : Prop where
  cookie_le : s.cookie ≤ s'.cookie
  same : s'.cookie = s.cookie → s'.txsByFeeAndReceiveTime = s.txsByFeeAndReceiveTime ∧
    ∀ id : K, (s'.txs[id]?).map offered = (s.txs[id]?).map offered

variable {K I R : Type} [Ord K] [Ord I] {s s' s'' : MemoryPool K I R}

namespace Steady

theorem refl : Steady s s := ⟨Nat.le_refl _, fun _ => ⟨rfl, fun _ => rfl⟩⟩

theorem trans (h : Steady s s') (h' : Steady s' s'') : Steady s s'' where
  cookie_le := h.cookie_le.trans h'.cookie_le
  same := fun heq => by
    have hle := h.cookie_le
    have hle' := h'.cookie_le
    obtain ⟨hsorted, htxs⟩ := h.same (by omega)
    obtain ⟨hsorted', htxs'⟩ := h'.same (by omega)
    exact ⟨hsorted'.trans hsorted, fun id => (htxs' id).trans (htxs id)⟩

theorem of_lt (h : s.cookie < s'.cookie) : Steady s s' :=
  ⟨h.le, fun heq => absurd heq h.ne'⟩

theorem of_eq (hcookie : s'.cookie = s.cookie) (htxs : s'.txs = s.txs)
    (hsorted : s'.txsByFeeAndReceiveTime = s.txsByFeeAndReceiveTime) : Steady s s' :=
  ⟨hcookie.ge, fun _ => ⟨hsorted, fun id => by rw [htxs]⟩⟩

/-- A mark on an entry. -/
theorem replace [Std.TransOrd K] [Std.LawfulEqOrd K] {id : K} {e e' : PoolEntry I}
    (he : s.txs[id]? = some e) (hoffered : offered e' = offered e) :
    Steady s { s with txs := s.txs.insert id e' } := by
  refine ⟨Nat.le_refl _, fun _ => ⟨rfl, fun id' => ?_⟩⟩
  dsimp only
  rw [Std.TreeMap.getElem?_insert]
  split
  · rename_i heq
    rw [← Std.compare_eq_iff_eq.mp heq, he, Option.map_some, Option.map_some, hoffered]
  · rfl

end Steady

variable [DecidableEq K]

/-! ## Key images -/

theorem insertKeyImages_frame (id : K) (txRelay : RelayMethod) (vin : List (PoolInput I)) :
    (insertKeyImages id txRelay vin s).2.txs = s.txs ∧
      (insertKeyImages id txRelay vin s).2.txsByFeeAndReceiveTime = s.txsByFeeAndReceiveTime ∧
      s.cookie ≤ (insertKeyImages id txRelay vin s).2.cookie ∧
      ((insertKeyImages id txRelay vin s).1 = false →
        (insertKeyImages id txRelay vin s).2.cookie = s.cookie) := by
  induction vin generalizing s with
  | nil => exact ⟨rfl, rfl, Nat.le_succ _, nofun⟩
  | cons input vin ih =>
    cases input with
    | other => exact ⟨rfl, rfl, Nat.le_refl _, fun _ => rfl⟩
    | toKey kImage =>
      unfold insertKeyImages
      dsimp only
      split
      · exact ⟨rfl, rfl, Nat.le_refl _, fun _ => rfl⟩
      · split
        · exact ih (s := { s with
            spentKeyImages := InvertedIndex.add s.spentKeyImages kImage id })
        · exact ⟨rfl, rfl, Nat.le_refl _, fun _ => rfl⟩

theorem removeTransactionKeyimages_cookie (id : K) (vin : List (PoolInput I)) :
    s.cookie ≤ (removeTransactionKeyimages id vin s).2.cookie := by
  induction vin generalizing s with
  | nil => exact Nat.le_succ _
  | cons input vin ih =>
    cases input with
    | other => exact Nat.le_refl _
    | toKey kImage =>
      unfold removeTransactionKeyimages
      split
      · exact Nat.le_refl _
      · exact ih (s := { s with
          spentKeyImages := InvertedIndex.remove s.spentKeyImages kImage id })

/-! ## Removal -/

omit [DecidableEq K] in
theorem reduceTxpoolWeight_cookie (weight : UInt64) :
    (s.reduceTxpoolWeight weight).cookie = s.cookie := by
  unfold reduceTxpoolWeight
  split
  · rfl
  · rfl

theorem removeEntry_cookie (id : K) (weight : UInt64) (vin : List (PoolInput I)) :
    s.cookie ≤ (s.removeEntry id weight vin).cookie := by
  unfold removeEntry
  dsimp only
  refine le_trans (le_of_eq ?_) (removeTransactionKeyimages_cookie id vin)
  exact (reduceTxpoolWeight_cookie (s := { s with txs := s.txs.erase id }) weight).symm

theorem pruneLoop_cookie (bytes : Nat) (l : List (SortedTx K R)) :
    s.cookie ≤ (pruneLoop bytes l s).2.cookie ∧
      ((pruneLoop bytes l s).1 = false → (pruneLoop bytes l s).2 = s) := by
  induction l generalizing s with
  | nil => exact ⟨Nat.le_refl _, fun _ => rfl⟩
  | cons x l ih =>
    cases l with
    | nil => exact ⟨Nat.le_refl _, fun _ => rfl⟩
    | cons y rest =>
      unfold pruneLoop
      split
      · exact ⟨Nat.le_refl _, fun _ => rfl⟩
      · split
        · exact ih
        · rename_i e _
          split
          · exact ih
          · refine ⟨(removeEntry_cookie x.id e.details.weight e.tx.vin).trans ?_, nofun⟩
            exact (ih (s := (s.removeEntry x.id e.details.weight e.tx.vin).removeTxFromTransientLists
              x.id)).1

theorem prune_steady (bytes : Nat) : Steady s (s.prune bytes) := by
  unfold prune
  split
  · exact .refl
  · obtain ⟨bound, hbound⟩ : ∃ bound, (if bytes = 0 then s.txpoolMaxWeight else bytes) = bound :=
      ⟨_, rfl⟩
    have hloop := pruneLoop_cookie (s := s) bound s.txsByFeeAndReceiveTime.reverse
    dsimp only
    rw [hbound]
    split
    · exact .of_lt (Nat.lt_succ_of_le hloop.1)
    · rename_i hunchanged
      rw [hloop.2 (Bool.eq_false_iff.mpr hunchanged)]
      exact .refl

theorem takeTx_steady (id : K) : Steady s (s.takeTx id).2 := by
  unfold takeTx
  split
  · exact .refl
  · exact .of_lt (Nat.lt_succ_of_le (removeEntry_cookie _ _ _))

theorem removeStuckTransactions_steady (now : UInt64) :
    Steady s (s.removeStuckTransactions now) := by
  have htimeOut : ∀ (rows : List (K × PoolEntry I)) (s : MemoryPool K I R),
      (rows.foldl (fun s row => s.timeOut row.1) s).cookie = s.cookie := by
    intro rows
    induction rows with
    | nil => exact fun s => rfl
    | cons row rows ih => exact fun s => ih (s.timeOut row.1)
  have hremove : ∀ (rows : List (K × PoolEntry I)) (s : MemoryPool K I R), s.cookie ≤
      (rows.foldl (fun s row => s.removeEntry row.1 row.2.details.weight row.2.tx.vin) s).cookie := by
    intro rows
    induction rows with
    | nil => exact fun s => Nat.le_refl _
    | cons row rows ih => exact fun s => (removeEntry_cookie _ _ _).trans (ih _)
  unfold removeStuckTransactions
  dsimp only
  split
  · rename_i hempty
    rw [List.isEmpty_iff.mp hempty]
    exact .refl
  · exact .of_lt (Nat.lt_succ_of_le (le_trans (htimeOut _ s).ge (hremove _ _)))

/-! ## Adding -/

theorem finishAdd_cookie (h : s.cookie ≤ s'.cookie) (a : AddedTx K I) (txRelay : RelayMethod)
    (details : TxpoolTxMeta) (tvc : TxVerificationContext) :
    s.cookie < (s'.finishAdd a txRelay details tvc).2.2.cookie :=
  (Nat.lt_succ_of_le h).trans_le (prune_steady
    (s := { s' with
      txpoolWeight := if tvc.addedToPool then s'.txpoolWeight + a.txWeight.toNat else s'.txpoolWeight
      cookie := s'.cookie + 1 })
    s'.txpoolMaxWeight).cookie_le

section

variable [LT R] [DecidableLT R]

theorem storeTx_steady (feePerWeight : UInt64 → UInt64 → R) (env : PoolEnv K I) (a : AddedTx K I)
    (txRelay : RelayMethod) (details : TxpoolTxMeta) (removeFirst : Bool) (tvc : TxVerificationContext) :
    Steady s (s.storeTx feePerWeight env a txRelay details removeFirst tvc).2.2 ∧
      ((s.storeTx feePerWeight env a txRelay details removeFirst tvc).1 = true →
        s.cookie < (s.storeTx feePerWeight env a txRelay details removeFirst tvc).2.2.cookie) := by
  obtain ⟨htxs, hsorted, hle, hfail⟩ := insertKeyImages_frame (s := s) a.id txRelay a.tx.vin
  unfold storeTx
  split
  · rename_i heq
    rw [heq] at htxs hsorted hfail
    exact ⟨.of_eq (hfail rfl) htxs hsorted, nofun⟩
  · rename_i t heq
    rw [heq] at hle
    have hput : s.cookie ≤ (t.putTx feePerWeight env.now a details removeFirst).cookie := hle
    exact ⟨.of_lt (finishAdd_cookie hput _ _ _ _), fun _ => finishAdd_cookie hput _ _ _ _⟩

end

omit [DecidableEq K] in
theorem cacheParsed_steady (a : AddedTx K I) : Steady s (s.cacheParsed a) := by
  unfold cacheParsed
  split
  · exact .of_eq rfl rfl rfl
  · exact .refl

omit [DecidableEq K] in
theorem setIfLess_steady (candidate : Int64) : Steady s (s.setIfLess candidate) := by
  unfold setIfLess
  split
  · exact .of_eq rfl rfl rfl
  · exact .refl

omit [DecidableEq K] in
theorem checkTxInputs_steady (env : PoolEnv K I) (tx : PoolTransaction I) (id : K)
    (known : Hash) (keptByBlock : Bool) :
    Steady s (s.checkTxInputs env tx id known keptByBlock).2 := by
  unfold checkTxInputs
  split
  · exact .refl
  · split
    · exact .refl
    · exact .of_eq rfl rfl rfl

section

variable [LT R] [DecidableLT R]

theorem addVerified_steady (feePerWeight : UInt64 → UInt64 → R) (env : PoolEnv K I)
    (a : AddedTx K I) (check : InputCheck) :
    Steady s (s.addVerified feePerWeight env a check).2.2 ∧
      ((s.addVerified feePerWeight env a check).1 = true →
        s.cookie < (s.addVerified feePerWeight env a check).2.2.cookie) := by
  have hcached := cacheParsed_steady (s := s) a
  unfold addVerified
  dsimp only
  split
  · have hlater : ∀ (delayed : Bool) (candidate : Int64), Steady s
        (if delayed = true then (s.cacheParsed a).setIfLess candidate else s.cacheParsed a) := by
      intro delayed candidate
      split
      · exact hcached.trans (setIfLess_steady _)
      · exact hcached
    obtain ⟨hstored, hraised⟩ := storeTx_steady feePerWeight env a _ _ _ _
    exact ⟨(hlater _ _).trans hstored, fun htrue => (hlater _ _).cookie_le.trans_lt (hraised htrue)⟩
  · exact ⟨.of_lt (finishAdd_cookie hcached.cookie_le _ _ _ _), fun _ =>
      finishAdd_cookie hcached.cookie_le _ _ _ _⟩

end

section

variable [Std.TransOrd K] [Std.LawfulEqOrd K]

omit [DecidableEq K] in
theorem markDoubleSpendTx_steady (txid : K) : Steady s (s.markDoubleSpendTx txid) := by
  unfold markDoubleSpendTx
  split
  · exact .refl
  · rename_i e he
    split
    · exact .refl
    · exact .replace he rfl

omit [DecidableEq K] in
theorem markDoubleSpend_steady (tx : PoolTransaction I) : Steady s (s.markDoubleSpend tx) := by
  have hfold : ∀ (txids : List K) (s : MemoryPool K I R),
      Steady s (txids.foldl MemoryPool.markDoubleSpendTx s) := by
    intro txids
    induction txids with
    | nil => exact fun s => .refl
    | cons txid txids ih => exact fun s => (markDoubleSpendTx_steady txid).trans (ih _)
  unfold markDoubleSpend
  split
  · exact .refl
  · dsimp only
    split
    · exact .of_lt (Nat.lt_succ_of_le (hfold _ s).cookie_le)
    · exact hfold _ s

variable [DecidableEq I]

theorem addTx_steady [LT R] [DecidableLT R] (feePerWeight : UInt64 → UInt64 → R)
    (env : PoolEnv K I) (a : AddedTx K I) :
    Steady s (s.addTx feePerWeight env a).2.2 ∧ ((s.addTx feePerWeight env a).1 = true →
      s.cookie < (s.addTx feePerWeight env a).2.2.cookie) := by
  unfold addTx
  cases hrefuse : s.refuseTx env a with
  | some answer =>
    obtain ⟨tvc, s'⟩ := answer
    obtain rfl | rfl := refuseTx_some hrefuse
    · exact ⟨.refl, nofun⟩
    · exact ⟨markDoubleSpend_steady a.tx, nofun⟩
  | none =>
    have hchecked := checkTxInputs_steady (s := s) env a.tx a.id a.validInputVerificationId
      (decide (a.txRelay = .block))
    dsimp only
    split
    · obtain ⟨hadded, hraised⟩ := addVerified_steady feePerWeight env a _
      exact ⟨hchecked.trans hadded, fun htrue => hchecked.cookie_le.trans_lt (hraised htrue)⟩
    · split
      · obtain ⟨hstored, hraised⟩ := storeTx_steady
          (s := (s.checkTxInputs env a.tx a.id a.validInputVerificationId
            (decide (a.txRelay = .block))).2.cacheParsed a) feePerWeight env a _ _ _ _
        have hcached := hchecked.trans (cacheParsed_steady a)
        exact ⟨hcached.trans hstored, fun htrue => hcached.cookie_le.trans_lt (hraised htrue)⟩
      · exact ⟨hchecked, nofun⟩

/-! ## Validating anew -/

theorem validateTx_steady [LT R] [DecidableLT R] (feePerWeight : UInt64 → UInt64 → R)
    (env : PoolEnv K I) (version : UInt8) (txid : K) (details : TxpoolTxMeta) :
    Steady s (s.validateTx feePerWeight env version txid details).2 := by
  have htake := takeTx_steady (s := s) txid
  obtain ⟨hadd, hraised⟩ := addTx_steady (s := (s.takeTx txid).2) feePerWeight env
    (validatedTx version txid details (s.takeTx txid).1)
  unfold validateTx
  dsimp only
  split
  · exact htake.trans hadd
  · rename_i hadded
    split
    · exact htake.trans hadd
    · rename_i t hupdate
      -- A transaction that was added raised the cookie, whatever its entry is now.
      unfold updateTxpoolTx at hupdate
      obtain ⟨e, -, rfl⟩ := Option.map_eq_some_iff.mp hupdate
      rw [Bool.not_eq_true', Bool.not_eq_false] at hadded
      exact .of_lt (htake.cookie_le.trans_lt (hraised hadded))

theorem validate_steady [LT R] [DecidableLT R] (feePerWeight : UInt64 → UInt64 → R)
    (env : K → PoolEnv K I) (version : UInt8) :
    Steady s (s.validate feePerWeight env version).2 := by
  have hloop : ∀ (txes : List (K × PoolEntry I)) (s : MemoryPool K I R),
      Steady s (s.validateLoop feePerWeight env version txes).2 := by
    intro txes
    induction txes with
    | nil => exact fun s => .refl
    | cons row txes ih => exact fun s => (validateTx_steady _ _ _ _ _).trans (ih _)
  have hcleared : Steady s { s with addedTxsById := {} } := .of_eq rfl rfl rfl
  have hadded := hcleared.trans (hloop (s.txs.toList.filter fun row => !row.2.details.pruned) _)
  unfold validate
  dsimp only
  split
  · exact .of_lt (Nat.lt_succ_of_le hadded.cookie_le)
  · exact hadded

/-! ## Filling a block -/

omit [DecidableEq K] [DecidableEq I] in
theorem recheckTx_steady (r : FillRequest K I) {id : K} {e : PoolEntry I}
    (he : s.txs[id]? = some e) : Steady s (s.recheckTx r id e).2 := by
  have hready : Steady s (s.isTransactionReadyToGo r id e).2 := by
    obtain heq | heq := isTransactionReadyToGo_snd (s := s) r id e
    · rw [heq]
      exact .refl
    · rw [heq]
      exact checkTxInputs_steady _ _ _ _ _
  have htxs := (samePool_isTransactionReadyToGo (s := s) r id e).1.txs
  have hsame := isTransactionReadyToGo_details (s := s) r id e
  obtain heq | heq := recheckTx_snd r he
  · rw [heq]
    exact hready
  · rw [heq, ← htxs]
    refine hready.trans (.replace (by rw [htxs]; exact he) ?_)
    unfold offered
    rw [hsame.weight, hsame.fee, hsame.method, hsame.pruned]

omit [DecidableEq K] in
theorem fillLoop_steady (r : FillRequest K I) (l : List (SortedTx K R)) (f : FilledBlock K I) :
    Steady s (fillLoop r l f s).2 := by
  induction l generalizing f s with
  | nil => exact .refl
  | cons x rest ih =>
    unfold fillLoop
    split
    · exact ih f
    · rename_i e he
      split
      · exact ih f
      split
      · exact .refl
      · dsimp only
        split
        · exact (recheckTx_steady r he).trans (ih f)
        · exact (recheckTx_steady r he).trans (ih _)

omit [DecidableEq K] in
theorem fillBlockTemplate_steady (r : FillRequest K I) : Steady s (s.fillBlockTemplate r).2 := by
  unfold fillBlockTemplate
  split
  · exact .refl
  · exact fillLoop_steady r _ _

/-! ## Relaying -/

omit [DecidableEq I] [Std.TransOrd K] [Std.LawfulEqOrd K] in
/-- Whatever `set_relayed` changes, the cookie stays. -/
theorem setRelayed_cookie [LT R] [DecidableLT R] {feePerWeight : UInt64 → UInt64 → R}
    (method : RelayMethod) (now : UInt64) (hashes : List (K × UInt64)) :
    (s.setRelayed feePerWeight method now hashes).2.cookie = s.cookie := by
  have hloop : ∀ (hashes : List (K × UInt64)) (nextRelay : UInt64) (s : MemoryPool K I R),
      (s.setRelayedLoop feePerWeight method now hashes nextRelay).2.cookie = s.cookie := by
    intro hashes
    induction hashes with
    | nil => exact fun _ s => rfl
    | cons hash hashes ih =>
      intro nextRelay s
      refine (ih _ _).trans ?_
      unfold setRelayedTx
      split
      · rfl
      · rename_i e he
        dsimp only
        rw [updateTxpoolTx_eq he]
        dsimp only
        split
        · rfl
        · rfl
  refine Eq.trans ?_ (hloop hashes (2 ^ 63 - 1) s)
  unfold setRelayed setIfLess
  dsimp only
  split
  · rfl
  · rfl

/-! ## Runs -/

/-- The calls that raise the cookie with what they change. -/
def PoolCall.Counts : PoolCall K I → Prop
  | .setRelayed _ _ _ => False
  | .restart _ _ => False
  | _ => True

variable [LT R] [DecidableLT R] {feePerWeight : UInt64 → UInt64 → R}

theorem step_steady (s : MemoryPool K I R) {c : PoolCall K I} (hc : c.Counts) :
    Steady s ((poolMachine K I feePerWeight).step s c).2 := by
  cases c with
  | addTx env a => exact (addTx_steady feePerWeight env a).1
  | takeTx id => exact takeTx_steady id
  | removeStuckTransactions now => exact removeStuckTransactions_steady now
  | onBlockchainChange => exact .of_eq rfl rfl rfl
  | setRelayed method now hashes => cases hc
  | validate env version => exact validate_steady feePerWeight env version
  | restart now maxTxpoolWeight => cases hc
  | fillBlockTemplate r => exact fillBlockTemplate_steady r

/-- Over any calls but those of `set_relayed` and new starts, in any pool: if the cookie is the one
from before, the sorted list is too, and so is of every transaction all that a block is filled
from. A call of `set_relayed` leaves the cookie whatever it changes. -/
theorem cookie_run (feePerWeight : UInt64 → UInt64 → R) (s : MemoryPool K I R)
    (calls : List (PoolCall K I)) (hcalls : ∀ c ∈ calls, c.Counts)
    (hcookie : ((poolMachine K I feePerWeight).final s calls).cookie = s.cookie) :
    (((poolMachine K I feePerWeight).final s calls).txsByFeeAndReceiveTime =
        s.txsByFeeAndReceiveTime ∧
      ∀ id : K, (((poolMachine K I feePerWeight).final s calls).txs[id]?).map offered =
        (s.txs[id]?).map offered) ∧
    ∀ method now hashes,
      ((poolMachine K I feePerWeight).step s (.setRelayed method now hashes)).2.cookie = s.cookie :=
  ⟨(Machine.final_induction (I := fun t => Steady s t) calls .refl
      fun t c hc h => h.trans (step_steady t (hcalls c hc))).same hcookie,
    fun method now hashes => setRelayed_cookie method now hashes⟩

end

/-- A new block, and a transaction that is not there, leave the cookie as it is. -/
theorem cookie_run_sample :
    (((poolMachine Nat Nat sampleFeePerWeight).final samplePool
        [.onBlockchainChange, .takeTx 9]).txsByFeeAndReceiveTime =
      samplePool.txsByFeeAndReceiveTime ∧
      ∀ id : Nat, (((poolMachine Nat Nat sampleFeePerWeight).final samplePool
        [.onBlockchainChange, .takeTx 9]).txs[id]?).map offered =
          (samplePool.txs[id]?).map offered) ∧
    ∀ method now hashes, ((poolMachine Nat Nat sampleFeePerWeight).step samplePool
      (.setRelayed method now hashes)).2.cookie = samplePool.cookie :=
  cookie_run sampleFeePerWeight samplePool [.onBlockchainChange, .takeTx 9]
    (fun c hc => by
      simp only [List.mem_cons, List.not_mem_nil, or_false] at hc
      obtain rfl | rfl := hc
      · trivial
      · trivial)
    (by decide +kernel)

end MemoryPool

end RandomLite.Monero
