-- SUMMARY: Relaying, validating and starting: the calls that go over what the memory pool has already.
import RandomLite.Monero.MemoryPoolCalls
import RandomLite.Monero.MemoryPoolFrames

/-!
# Upkeep of the memory pool

`set_relayed` upgrades transactions, `validate` takes all of them out and adds them again, and
`init` makes everything but the table anew. Each keeps what the other calls keep; after a start
the weight of the pool is moreover exact.
-/

namespace RandomLite.Monero

open InvertedIndex KeyedTable

namespace MemoryPool

variable {K I R : Type} [Ord K] [Ord I] [DecidableEq K] [DecidableEq I] [LinearOrder R]
  [Std.TransOrd K] [Std.LawfulEqOrd K] [Std.TransOrd I] [Std.LawfulEqOrd I]
  {s t : MemoryPool K I R} {id : K} {e : PoolEntry I} {feePerWeight : UInt64 → UInt64 → R}
  {vin : K → List (PoolInput I)} {weight : K → UInt64} {maxWeight : Nat}

/-! ## Relaying -/

omit [DecidableEq I] [Std.TransOrd K] [Std.LawfulEqOrd K] [Std.TransOrd I] [Std.LawfulEqOrd I] in
/-- The list has a transaction of the table under another time. -/
theorem Consistent.relist (h : Consistent vin weight s) (hid : id ∈ s.txs) (now : UInt64) (fee : R)
    (receiveTime : UInt64) (sensitive : Bool) :
    Keeps vin weight s (s.addTxToTransientLists now id fee receiveTime sensitive) where
  consistent :=
    { held := h.held.of_eq rfl rfl rfl h.held.parsed
      sorted := h.sorted.put (fun _ => (or_iff_left_of_imp (· ▸ hid)).symm) rfl _ _ _ _ }
  limited := fun _ hlimited => hlimited

omit [DecidableEq K] [DecidableEq I] [LinearOrder R] [Std.TransOrd K] [Std.LawfulEqOrd K]
  [Std.TransOrd I] [Std.LawfulEqOrd I] [Ord K] [Ord I] in
theorem relayedDetails_offer (method : RelayMethod) (now embargo : UInt64)
    (details : TxpoolTxMeta) :
    (relayedDetails method now embargo details).weight = details.weight ∧
      (relayedDetails method now embargo details).fee = details.fee := by
  unfold relayedDetails TxpoolTxMeta.upgradeRelayMethod
  dsimp only
  split
  · exact ⟨rfl, rfl⟩
  · exact ⟨rfl, rfl⟩

omit [DecidableEq I] [Std.TransOrd K] [Std.LawfulEqOrd K] [Std.TransOrd I] [Std.LawfulEqOrd I] in
/-- The entry is upgraded, and the list has the transaction anew if it is broadcast only now. -/
theorem setRelayedTx_snd (feePerWeight : UInt64 → UInt64 → R) (method : RelayMethod) (now : UInt64)
    (hash : K × UInt64) (nextRelay : UInt64) :
    (s.setRelayedTx feePerWeight method now hash nextRelay).2 = s ∨
      ∃ e t, s.txs[hash.1]? = some e ∧
        t = { s with
          txs := s.txs.insert hash.1
            { e with details := relayedDetails method now hash.2 e.details } } ∧
        ((s.setRelayedTx feePerWeight method now hash nextRelay).2 = t ∨
          (s.setRelayedTx feePerWeight method now hash nextRelay).2 =
            t.addTxToTransientLists now hash.1 (feePerWeight e.details.fee e.details.weight) now
              false) := by
  unfold setRelayedTx
  split
  · exact .inl rfl
  · rename_i e he
    obtain ⟨hweight, hfee⟩ := relayedDetails_offer method now hash.2 e.details
    refine .inr ⟨e, _, he, rfl, ?_⟩
    dsimp only
    rw [updateTxpoolTx_eq he]
    dsimp only
    split
    · rw [hweight, hfee]
      exact .inr rfl
    · exact .inl rfl

omit [DecidableEq I] [Std.TransOrd I] [Std.LawfulEqOrd I] in
theorem Consistent.setRelayedTx (h : Consistent vin weight s) (feePerWeight : UInt64 → UInt64 → R)
    (method : RelayMethod) (now : UInt64) (hash : K × UInt64) (nextRelay : UInt64) :
    Keeps vin weight s (s.setRelayedTx feePerWeight method now hash nextRelay).2 := by
  obtain heq | ⟨e, t, he, ht, hrelayed⟩ := setRelayedTx_snd (s := s)
    feePerWeight method now hash nextRelay
  · rw [heq]
    exact .refl h
  · have hupgraded : Keeps vin weight s t := by
      rw [ht]
      obtain ⟨hkept, hmethod⟩ := @upgradeRelayMethod_kept _ method (h.held.method hash.1 e he)
      exact h.replace he (relayedDetails_offer _ _ _ _).1 hkept hmethod
    obtain heq | heq := hrelayed
    · rw [heq]
      exact hupgraded
    · rw [heq]
      exact hupgraded.trans (hupgraded.consistent.relist
        (by rw [ht]; exact mem_insert_iff.mpr (.inl rfl)) _ _ _ _)

omit [DecidableEq I] [Std.TransOrd I] [Std.LawfulEqOrd I] in
theorem Consistent.setRelayed (h : Consistent vin weight s) (method : RelayMethod) (now : UInt64)
    (hashes : List (K × UInt64)) :
    Keeps vin weight s (s.setRelayed feePerWeight method now hashes).2 := by
  have hloop : ∀ (hashes : List (K × UInt64)) (nextRelay : UInt64) (s : MemoryPool K I R),
      Consistent vin weight s →
      Keeps vin weight s (s.setRelayedLoop feePerWeight method now hashes nextRelay).2 := by
    intro hashes
    induction hashes with
    | nil => exact fun _ s h => .refl h
    | cons hash hashes ih =>
      intro nextRelay s h
      have hone := h.setRelayedTx feePerWeight method now hash nextRelay
      exact hone.trans (ih _ _ hone.consistent)
  have hrelayed := hloop hashes (2 ^ 63 - 1) s h
  refine hrelayed.trans ((samePool_setIfLess _).keeps hrelayed.consistent ?_)
  rw [parsed_setIfLess]
  exact hrelayed.consistent.held.parsed

/-! ## Validating anew -/

omit [Std.TransOrd K] [Std.LawfulEqOrd K] [Std.TransOrd I] [Std.LawfulEqOrd I] in
/-- A transaction without inputs is refused, and leaves no trace. -/
theorem addTx_empty {env : PoolEnv K I} {a : AddedTx K I} (hvin : a.tx.vin = [])
    (hversion : a.version ≠ a.nicVerifiedHfVersion) :
    (s.addTx feePerWeight env a).1 = false ∧ (s.addTx feePerWeight env a).2.2 = s := by
  have hmark : s.markDoubleSpend a.tx = s := by
    unfold MemoryPool.markDoubleSpend
    rw [hvin]
    rfl
  unfold MemoryPool.addTx
  cases hrefuse : s.refuseTx env a with
  | some answer =>
    obtain ⟨tvc, s'⟩ := answer
    obtain rfl | rfl := refuseTx_some hrefuse
    · exact ⟨rfl, rfl⟩
    · exact ⟨rfl, hmark⟩
  | none =>
    obtain heq | hsemantic := (refuseTx_none hrefuse).2
    · exact absurd heq hversion
    · rw [hvin] at hsemantic
      cases hsemantic

/-- The details are those that the table had of the transaction when `validate` began. -/
theorem Consistent.validateTx (h : Consistent vin weight s)
    (feePerWeight : UInt64 → UInt64 → R) (env : PoolEnv K I) {version : UInt8}
    (hversion : version ≠ 0) {txid : K} {details : TxpoolTxMeta}
    (hweight : details.weight = weight txid)
    (hmethod : details.keptByBlock = true → details.getRelayMethod = .block) :
    Keeps vin weight s (s.validateTx feePerWeight env version txid details).2 := by
  have htake := h.takeTx txid
  have hadd : Keeps vin weight (s.takeTx txid).2 ((s.takeTx txid).2.addTx feePerWeight env
      (validatedTx version txid details (s.takeTx txid).1)).2.2 := by
    cases htaken : (s.takeTx txid).1 with
    | none =>
      rw [(addTx_empty rfl hversion).2]
      exact .refl htake.consistent
    | some taken =>
      exact htake.consistent.addTx env
        ⟨h.takeTx_some htaken, hweight, fun heq => absurd heq hversion⟩
  have hadded := htake.trans hadd
  unfold MemoryPool.validateTx
  dsimp only
  split
  · exact hadded
  · split
    · exact hadded
    · rename_i t hupdate
      -- The entry is there, and what is written into it was of a block if the entry is.
      unfold updateTxpoolTx at hupdate
      obtain ⟨e, he, rfl⟩ := Option.map_eq_some_iff.mp hupdate
      refine hadded.trans (hadded.consistent.replace he ?_ (fun hkept => ?_) hmethod)
      · exact hweight.trans (hadded.consistent.held.stored txid e he).2.symm
      · exact keptByBlock_of_getRelayMethod (addTx_kept (takeTx_lookup txid) he hkept)

theorem Consistent.validate (h : Consistent vin weight s) (env : K → PoolEnv K I) {version : UInt8}
    (hversion : version ≠ 0) : Keeps vin weight s (s.validate feePerWeight env version).2 := by
  have hloop : ∀ (txes : List (K × PoolEntry I)) (t : MemoryPool K I R), Consistent vin weight t →
      (∀ row ∈ txes, s.txs[row.1]? = some row.2) →
      Keeps vin weight t (t.validateLoop feePerWeight env version txes).2 := by
    intro txes
    induction txes with
    | nil => exact fun t ht _ => .refl ht
    | cons row txes ih =>
      intro t ht hrows
      have hrow := hrows row List.mem_cons_self
      have hone := ht.validateTx feePerWeight (env row.1) hversion
        (h.held.stored row.1 row.2 hrow).2 (h.held.method row.1 row.2 hrow)
      exact hone.trans (ih _ hone.consistent fun row' hrow' =>
        hrows row' (List.mem_cons_of_mem _ hrow'))
  have hcleared : Keeps vin weight s { s with addedTxsById := {} } :=
    SamePool.keeps ⟨rfl, rfl, rfl, rfl, rfl⟩ h h.held.parsed
  have hadded := hcleared.trans (hloop (s.txs.toList.filter fun row => !row.2.details.pruned) _
    hcleared.consistent fun row hrow =>
      Std.TreeMap.mem_toList_iff_getElem?_eq_some.mp (List.mem_of_mem_filter hrow))
  unfold MemoryPool.validate
  dsimp only
  split
  · exact hadded.trans (SamePool.keeps ⟨rfl, rfl, rfl, rfl, rfl⟩ hadded.consistent
      hadded.consistent.held.parsed)
  · exact hadded

/-! ## Starting -/

/-- A pool on its way from an empty one: some rows of the table are loaded, and all that is kept
beside the table is as if there were no others. -/
structure Loaded (vin : K → List (PoolInput I)) (weight : K → UInt64) (s : MemoryPool K I R)
    (rows : Std.TreeMap K (PoolEntry I)) (t : MemoryPool K I R) : Prop where
  consistent : Consistent vin weight { t with txs := rows }
  weight_eq : t.txpoolWeight = total (fun e => e.details.weight.toNat) rows
  sub : ∀ (id : K) (e : PoolEntry I), rows[id]? = some e → s.txs[id]? = some e
  txs_eq : t.txs = s.txs

variable {rows : Std.TreeMap K (PoolEntry I)}

/-- One more row is loaded. Those of blocks may spend what others spend; they come last. -/
theorem Loaded.push (hloaded : Loaded vin weight s rows t) (h : Consistent vin weight s)
    (he : s.txs[id]? = some e) (hnew : id ∉ rows)
    (hfirst : e.details.keptByBlock = true ∨
      ∀ (id' : K) (e' : PoolEntry I), rows[id']? = some e' → e'.details.keptByBlock = false)
    (now : UInt64) (fee : R) (sensitive : Bool) :
    insertKeyImages id e.details.getRelayMethod e.tx.vin t =
        (true, { t with
          spentKeyImages := addAll t.spentKeyImages (PoolInput.keyImages (vin id)) id
          cookie := t.cookie + 1 }) ∧
      Loaded vin weight s (rows.insert id e)
        { ({ t with
            spentKeyImages := addAll t.spentKeyImages (PoolInput.keyImages (vin id)) id
            cookie := t.cookie + 1 } : MemoryPool K I R).addTxToTransientLists now id fee
              e.details.receiveTime sensitive with
          txpoolWeight := t.txpoolWeight + e.details.weight.toNat } := by
  have hid : id ∈ s.txs := mem_iff_exists.mpr ⟨e, he⟩
  have hspendable := h.held.spendable id hid
  obtain ⟨hvin, hweight⟩ := h.held.stored id e he
  have hindex := hloaded.consistent.held.index
  have hunlisted : ∀ k ∈ PoolInput.keyImages (vin id), id ∉ listed t.spentKeyImages k :=
    fun k _ hin => hnew ((hindex.mem_iff k id).mp hin).1
  have hsole : Sole t e.details.getRelayMethod id (PoolInput.keyImages (vin id)) := by
    cases hkept : e.details.keptByBlock with
    | true => exact .inl (h.held.method id e he hkept)
    | false =>
      refine .inr fun k hk => .inl (List.eq_nil_iff_forall_not_mem.mpr fun id' hin => ?_)
      obtain ⟨hid', hk'⟩ := (hindex.mem_iff k id').mp hin
      obtain ⟨e', he'⟩ := mem_iff_exists.mp hid'
      rw [hkept] at hfirst
      have hkept' := hfirst.resolve_left nofun id' e' he'
      have hexclusive := h.held.exclusive id id' e e' k he (hloaded.sub id' e' he')
        (fun heq => hnew (heq ▸ hid')) hk hk'
      rw [hkept, hkept'] at hexclusive
      exact hexclusive.elim nofun nofun
  have hinsert := insertKeyImages_new (s := t) hspendable.nodup hsole (.inl hunlisted)
  rw [hspendable.map_eq, ← hvin] at hinsert
  have htotal : total (fun e => e.details.weight.toNat) (rows.insert id e) =
      t.txpoolWeight + e.details.weight.toNat := by
    have hnone : rows[id]? = none := Std.TreeMap.getElem?_eq_none hnew
    rw [total_insert, total_erase_of_none hnone, hloaded.weight_eq, Nat.add_comm]
  refine ⟨by rw [hinsert, hvin], ⟨?_, ?_⟩, htotal.symm, ?_, hloaded.txs_eq⟩
  · exact hloaded.consistent.held.put hspendable hvin hweight (h.held.method id e he)
      (hsole.imp_left keptByBlock_of_getRelayMethod) (fun id' e' => getElem?_insert_iff) rfl rfl
      htotal.le
  · have hlisted : Listed (({ t with
        txs := rows.insert id e
        spentKeyImages := addAll t.spentKeyImages (PoolInput.keyImages (vin id)) id
        cookie := t.cookie + 1 } : MemoryPool K I R).addTxToTransientLists now id fee
          e.details.receiveTime sensitive) := by
      refine hloaded.consistent.sorted.put (fun id' => ?_) ?_ _ _ _ _
      · rw [mem_insert_iff, eq_comm, or_comm]
      · rfl
    exact hlisted.of_eq rfl rfl
  · intro id' e' he'
    obtain ⟨rfl, rfl⟩ | ⟨-, hold⟩ := getElem?_insert_iff.mp he'
    · exact he
    · exact hloaded.sub id' e' hold

/-- A pass loads the rows of its kind. -/
theorem Loaded.initPass (feePerWeight : UInt64 → UInt64 → R) (h : Consistent vin weight s)
    (kept : Bool) (now : UInt64) (l : List (K × PoolEntry I))
    (hl : ∀ row ∈ l, s.txs[row.1]? = some row.2)
    (hnodup : (l.map (·.1)).Nodup) (hloaded : Loaded vin weight s rows t)
    (hnew : ∀ row ∈ l, row.2.details.keptByBlock = kept → row.1 ∉ rows)
    (hfirst : kept = false →
      ∀ (id : K) (e : PoolEntry I), rows[id]? = some e → e.details.keptByBlock = false) :
    (initPass feePerWeight kept now l t).1 = true ∧
      (initPass feePerWeight kept now l t).2.txpoolMaxWeight = t.txpoolMaxWeight ∧
      ∃ rows', Loaded vin weight s rows' (initPass feePerWeight kept now l t).2 ∧
        ∀ (id : K) (e : PoolEntry I), rows'[id]? = some e ↔
          rows[id]? = some e ∨ (id, e) ∈ l ∧ e.details.keptByBlock = kept := by
  induction l generalizing t rows with
  | nil => exact ⟨rfl, rfl, rows, hloaded, fun id e => by simp⟩
  | cons row l ih =>
    obtain ⟨id, e⟩ := row
    obtain ⟨hid, hnodup⟩ := List.nodup_cons.mp hnodup
    have hl' : ∀ row ∈ l, s.txs[row.1]? = some row.2 := fun row hrow =>
      hl row (List.mem_cons_of_mem _ hrow)
    unfold MemoryPool.initPass
    split
    · rename_i hother
      obtain ⟨hok, hmax, rows', hloaded', hrows'⟩ := ih hl' hnodup hloaded
        (fun row hrow => hnew row (List.mem_cons_of_mem _ hrow)) hfirst
      refine ⟨hok, hmax, rows', hloaded', fun id' e' => (hrows' id' e').trans ?_⟩
      rw [List.mem_cons, Prod.mk.injEq]
      refine or_congr_right (and_congr_left fun hkept => (or_iff_right ?_).symm)
      rintro ⟨-, rfl⟩
      exact hother hkept.symm
    · rename_i hsame
      rw [not_not] at hsame
      obtain ⟨hinsert, hpush⟩ := hloaded.push h (hl (id, e) List.mem_cons_self)
        (hnew (id, e) List.mem_cons_self hsame.symm)
        (by
          cases kept with
          | true => exact .inl hsame.symm
          | false => exact .inr (hfirst rfl))
        now (feePerWeight e.details.fee e.details.weight) (!e.details.isMatch .broadcasted)
      rw [hinsert]
      obtain ⟨hok, hmax, rows', hloaded', hrows'⟩ := ih hl' hnodup hpush
        (fun row hrow hkept => by
          rw [mem_insert_iff, not_or]
          exact ⟨fun heq => hid (List.mem_map.mpr ⟨row, hrow, heq.symm⟩),
            hnew row (List.mem_cons_of_mem _ hrow) hkept⟩)
        (fun hfalse id' e' he' => by
          obtain ⟨-, rfl⟩ | ⟨-, hold⟩ := getElem?_insert_iff.mp he'
          · exact hsame.symm.trans hfalse
          · exact hfirst hfalse id' e' hold)
      refine ⟨hok, hmax, rows', hloaded', fun id' e' => (hrows' id' e').trans ?_⟩
      rw [getElem?_insert_iff, List.mem_cons, Prod.mk.injEq]
      constructor
      · rintro ((⟨rfl, rfl⟩ | ⟨-, hold⟩) | ⟨hin, hkept⟩)
        · exact .inr ⟨.inl ⟨rfl, rfl⟩, hsame.symm⟩
        · exact .inl hold
        · exact .inr ⟨.inr hin, hkept⟩
      · rintro (hold | ⟨⟨rfl, rfl⟩ | hin, hkept⟩)
        · refine .inl (.inr ⟨fun heq => ?_, hold⟩)
          exact hnew (id, e) List.mem_cons_self hsame.symm (mem_iff_exists.mpr ⟨e', heq ▸ hold⟩)
        · exact .inl (.inl ⟨rfl, rfl⟩)
        · exact .inr ⟨hin, hkept⟩

omit [DecidableEq K] [DecidableEq I] [Std.TransOrd I] [Std.LawfulEqOrd I] in
theorem Consistent.of_rows (h : Consistent vin weight { t with txs := rows })
    (hrows : ∀ (id : K) (e : PoolEntry I), rows[id]? = some e ↔ t.txs[id]? = some e) :
    Consistent vin weight t := by
  have hmem : ∀ id, id ∈ rows ↔ id ∈ t.txs := fun id => by
    rw [mem_iff_exists, mem_iff_exists]
    exact exists_congr fun e => hrows id e
  refine ⟨⟨fun id e he => h.held.stored id e ((hrows id e).mpr he),
    fun id hid => h.held.spendable id ((hmem id).mpr hid),
    h.held.index.congr fun k id => by rw [← hmem], h.held.parsed, ?_,
    fun id id' e e' k he he' => h.held.exclusive id id' e e' k ((hrows id e).mpr he)
      ((hrows id' e').mpr he'), fun id e he => h.held.method id e ((hrows id e).mpr he)⟩,
    h.sorted.ordered, h.sorted.nodup, fun id => (h.sorted.mem_iff id).trans (hmem id)⟩
  rw [← total_congr hrows]
  exact h.held.counted

/-- A start finds the whole table, whatever the pool was like before. -/
theorem Consistent.restart (h : Consistent vin weight s) (feePerWeight : UInt64 → UInt64 → R)
    (now : UInt64) (maxTxpoolWeight : Nat) :
    (s.restart feePerWeight now maxTxpoolWeight).1 = true ∧
      Consistent vin weight (s.restart feePerWeight now maxTxpoolWeight).2 ∧
      (s.restart feePerWeight now maxTxpoolWeight).2.txs = s.txs ∧
      (s.restart feePerWeight now maxTxpoolWeight).2.txpoolWeight =
        total (fun e => e.details.weight.toNat) s.txs ∧
      (s.restart feePerWeight now maxTxpoolWeight).2.txpoolMaxWeight =
        if maxTxpoolWeight = 0 then defaultTxpoolMaxWeight else maxTxpoolWeight := by
  have hrows : ∀ row ∈ s.txs.toList, s.txs[row.1]? = some row.2 := fun row hrow =>
    Std.TreeMap.mem_toList_iff_getElem?_eq_some.mp hrow
  obtain ⟨maxWeight, hmaxWeight⟩ : ∃ maxWeight, (if maxTxpoolWeight = 0 then defaultTxpoolMaxWeight
    else maxTxpoolWeight) = maxWeight := ⟨_, rfl⟩
  obtain ⟨start, hstart⟩ : ∃ start : MemoryPool K I R,
    { txs := s.txs, nextCheck := now.toInt64, txpoolMaxWeight := maxWeight } = start := ⟨_, rfl⟩
  have hstartMax : start.txpoolMaxWeight = maxWeight := by rw [← hstart]
  have hempty : Loaded vin weight s {} start := by
    have hnone : Held vin weight ({ txpoolMaxWeight := 0 } : MemoryPool K I R) := .empty 0
    rw [← hstart]
    refine ⟨⟨hnone.of_eq rfl rfl rfl hnone.parsed, (Listed.empty 0).of_eq rfl rfl⟩, rfl,
      fun id e he => ?_, rfl⟩
    rw [Std.TreeMap.getElem?_emptyc] at he
    cases he
  -- First those that no block brought, then the others.
  obtain ⟨hok, hmax, rows, hloaded, hfirst⟩ := hempty.initPass feePerWeight h false
    now s.txs.toList hrows nodup_keys_toList (fun row _ _ => Std.TreeMap.not_mem_emptyc)
    (fun _ id e he => by rw [Std.TreeMap.getElem?_emptyc] at he; contradiction)
  obtain ⟨hok', hmax', rows', hloaded', hsecond⟩ := hloaded.initPass feePerWeight h true now
    s.txs.toList hrows nodup_keys_toList
    (fun row hrow hkept hin => by
      obtain ⟨e, he⟩ := mem_iff_exists.mp hin
      have hnot := ((hfirst row.1 e).mp he).resolve_left (by
        rw [Std.TreeMap.getElem?_emptyc]
        exact nofun)
      have hsame := Option.some.inj ((hrows row hrow).symm.trans (hrows (row.1, e) hnot.1))
      rw [hsame, hnot.2] at hkept
      cases hkept) nofun
  have hall : ∀ (id : K) (e : PoolEntry I), rows'[id]? = some e ↔ s.txs[id]? = some e := by
    intro id e
    rw [hsecond, hfirst, Std.TreeMap.mem_toList_iff_getElem?_eq_some, Std.TreeMap.getElem?_emptyc]
    cases e.details.keptByBlock <;> simp
  have hconsistent := hloaded'.consistent.of_rows fun id e => by rw [hloaded'.txs_eq, hall]
  unfold MemoryPool.restart MemoryPool.init initPasses
  dsimp only
  rw [hmaxWeight, hstart, hok, hloaded.txs_eq, hok', if_neg nofun, if_neg nofun]
  refine ⟨rfl, ⟨hconsistent.held.of_eq rfl rfl rfl hconsistent.held.parsed,
    hconsistent.sorted.of_eq rfl rfl⟩, hloaded'.txs_eq, ?_, ?_⟩
  · exact hloaded'.weight_eq.trans (total_congr hall)
  · exact (hmax'.trans hmax).trans hstartMax

/-- With the limit that it had, the pool is within it again. -/
theorem Limited.restart (hlimited : Limited maxWeight s) (h : Consistent vin weight s) (now : UInt64)
    {maxTxpoolWeight : Nat}
    (hmax : (if maxTxpoolWeight = 0 then defaultTxpoolMaxWeight else maxTxpoolWeight) = maxWeight) :
    Limited maxWeight (s.restart feePerWeight now maxTxpoolWeight).2 := by
  obtain ⟨-, -, htxs, hweight, hmax'⟩ :=
    h.restart feePerWeight now maxTxpoolWeight
  refine ⟨hmax'.trans hmax, hlimited.2.imp ?_ ?_⟩
  · rw [hweight]
    exact h.held.counted.trans
  · unfold AtMostOneNotKept
    rw [htxs]
    exact fun hone => hone

end MemoryPool

end RandomLite.Monero
