-- SUMMARY: What the memory pool puts into a block: which transactions can stand together, within the weight, with the coinbase they bring.
import RandomLite.Monero.MemoryPoolRuns

/-!
# Filling a block

`fill_block_template` goes through the sorted list and takes what fits. `Picks` says what its
loop keeps: the weight, the fee and the coinbase that it reports are those of the transactions it
took, and of these the ones that it had to parse spend nothing twice. One whose inputs the pool
has in its cache is not parsed, so that a second block on the same chain may have two transactions
that spend the same.
-/

namespace RandomLite.Monero

open InvertedIndex KeyedTable

/-! ## Key images -/

section

variable {I : Type} [DecidableEq I] {seen kImages : List I}

theorem haveKeyImages_map :
    haveKeyImages seen (kImages.map .toKey) = true ↔ ∃ k ∈ kImages, k ∈ seen := by
  induction kImages with
  | nil => exact iff_of_false nofun fun h => List.not_mem_nil h.choose_spec.1
  | cons k kImages ih =>
    rw [List.map_cons, haveKeyImages, List.exists_mem_cons_iff]
    split
    · rename_i hin
      exact iff_of_true rfl (.inl hin)
    · rename_i hout
      rw [ih]
      exact ⟨.inr, fun h => h.resolve_left hout⟩

theorem mem_appendKeyImages_map (hnodup : kImages.Nodup) (hnew : ∀ k ∈ kImages, k ∉ seen) (k : I) :
    k ∈ appendKeyImages seen (kImages.map .toKey) ↔ k ∈ kImages ∨ k ∈ seen := by
  induction kImages generalizing seen with
  | nil => exact ⟨.inr, fun h => h.resolve_left List.not_mem_nil⟩
  | cons first kImages ih =>
    obtain ⟨hfirst, hrest⟩ := List.nodup_cons.mp hnodup
    rw [List.map_cons, appendKeyImages, if_neg (hnew first List.mem_cons_self),
      ih hrest fun k' hk' hin => ?_, List.mem_cons, List.mem_cons]
    · tauto
    · obtain rfl | hseen := List.mem_cons.mp hin
      · exact hfirst hk'
      · exact hnew k' (List.mem_cons_of_mem _ hk') hseen

end

namespace MemoryPool

variable {K I R : Type} [Ord K] [Ord I] [DecidableEq K] [DecidableEq I] [LinearOrder R]
  {s : MemoryPool K I R} {id : K} {e : PoolEntry I} {r : FillRequest K I}
  {f : FilledBlock K I}

/-! ## What is taken -/

/-- What a block may have: the whole transaction, and one that the pool shows or, if it is asked
to, one on the stem. -/
def Takeable (r : FillRequest K I) (details : TxpoolTxMeta) : Prop :=
  details.pruned = false ∧ (details.isMatch .legacy = true ∨
    r.mineStemTxes = true ∧ details.getRelayMethod = .stem)

def weightOf (s : MemoryPool K I R) (id : K) : UInt64 :=
  ((s.txs[id]?).map (·.details.weight)).getD 0

def feeOf (s : MemoryPool K I R) (id : K) : UInt64 :=
  ((s.txs[id]?).map (·.details.fee)).getD 0

/-- What the loop took from the pool, and what it reports of that. The key images of a transaction
are looked at only if its inputs are not in the cache. -/
structure Picks (r : FillRequest K I) (s : MemoryPool K I R) (f : FilledBlock K I) : Prop where
  nodup : f.txHashes.Nodup
  taken : ∀ id ∈ f.txHashes, ∃ e, s.txs[id]? = some e ∧ Takeable r e.details
  images : ∀ k, k ∈ f.kImages ↔ ∃ id ∈ f.txHashes, id ∉ s.inputCache ∧
    ∃ e, s.txs[id]? = some e ∧ k ∈ PoolInput.keyImages e.tx.vin
  apart : ∀ id ∈ f.txHashes, ∀ id' ∈ f.txHashes, id ≠ id' → id ∉ s.inputCache →
    id' ∉ s.inputCache → ∀ e e', s.txs[id]? = some e → s.txs[id']? = some e' →
    ∀ k ∈ PoolInput.keyImages e.tx.vin, k ∉ PoolInput.keyImages e'.tx.vin
  weight_eq : f.totalWeight = (f.txHashes.map s.weightOf).foldl (· + ·) 0
  fee_eq : f.fee = (f.txHashes.map s.feeOf).foldl (· + ·) 0
  weight_le : f.txHashes ≠ [] → f.totalWeight ≤ r.maxTotalWeight
  /-- From version five on, the coinbase is the reward for the weight, with the fees. -/
  coinbase : 5 ≤ r.version → (getBlockReward r.medianWeight f.totalWeight r.alreadyGeneratedCoins
    r.version).map (· + f.fee) = some f.bestCoinbase

omit [Ord K] [Ord I] [DecidableEq K] [DecidableEq I] [LinearOrder R] in
theorem passesOver_eq_false {details : TxpoolTxMeta} (h : f.passesOver r details = false) :
    Takeable r details ∧ f.totalWeight + details.weight ≤ r.maxTotalWeight ∧
      (5 ≤ r.version → ∃ coinbase, f.coinbaseWith r details = some coinbase) := by
  unfold FilledBlock.passesOver at h
  rw [Bool.or_eq_false_iff, Bool.or_eq_false_iff, Bool.or_eq_false_iff] at h
  obtain ⟨⟨⟨hrelay, hpruned⟩, hweight⟩, hcoinbase⟩ := h
  refine ⟨⟨hpruned, ?_⟩, UInt64.not_lt.mp (of_decide_eq_false hweight), fun hversion => ?_⟩
  · rw [Bool.and_eq_false_iff, Bool.not_eq_false', Bool.not_eq_false', Bool.and_eq_true,
      decide_eq_true_iff] at hrelay
    exact hrelay
  · rw [decide_eq_true hversion, Bool.true_and] at hcoinbase
    cases hwith : f.coinbaseWith r details with
    | none =>
      rw [hwith] at hcoinbase
      cases hcoinbase
    | some coinbase => exact ⟨coinbase, rfl⟩

namespace Picks

omit [DecidableEq K] [DecidableEq I] [LinearOrder R] in
theorem start {bestCoinbase : UInt64} (h : getBlockReward r.medianWeight 0 r.alreadyGeneratedCoins
    r.version = some bestCoinbase) : Picks r s { bestCoinbase } where
  nodup := .nil
  taken := fun _ hid => absurd hid List.not_mem_nil
  images := fun _ => iff_of_false List.not_mem_nil fun h => List.not_mem_nil h.choose_spec.1
  apart := fun _ hid => absurd hid List.not_mem_nil
  weight_eq := rfl
  fee_eq := rfl
  weight_le := fun hne => absurd rfl hne
  coinbase := fun _ => by rw [h, Option.map_some, UInt64.add_zero]

omit [DecidableEq K] [LinearOrder R] in
theorem push (h : Picks r s f) (he : s.txs[id]? = some e) (hid : id ∉ f.txHashes)
    (hspendable : PoolInput.Spendable e.tx.vin) (hpass : f.passesOver r e.details = false)
    {tx : PoolTransaction I} (htx : tx = if id ∈ s.inputCache then {} else e.tx)
    (hnew : haveKeyImages f.kImages tx.vin = false) : Picks r s (f.push r id e.details tx) := by
  obtain ⟨htakeable, hweight, hcoinbase⟩ := passesOver_eq_false hpass
  have hfresh : id ∉ s.inputCache → ∀ k ∈ PoolInput.keyImages e.tx.vin, k ∉ f.kImages := by
    intro hout k hk hin
    rw [htx, if_neg hout, ← hspendable.map_eq] at hnew
    exact Bool.eq_false_iff.mp hnew (haveKeyImages_map.mpr ⟨k, hk, hin⟩)
  have hmem : ∀ id', id' ∈ (f.push r id e.details tx).txHashes ↔ id' ∈ f.txHashes ∨ id' = id :=
    fun id' => by
      unfold FilledBlock.push
      rw [List.mem_append, List.mem_singleton]
  -- The new transaction is apart from all that were taken before, if they were looked at.
  have hapart : id ∉ s.inputCache → ∀ id' ∈ f.txHashes, id' ∉ s.inputCache →
      ∀ e', s.txs[id']? = some e' →
      ∀ k ∈ PoolInput.keyImages e.tx.vin, k ∉ PoolInput.keyImages e'.tx.vin :=
    fun hout id' hid' hout' e' he' k hk hk' =>
      hfresh hout k hk ((h.images k).mpr ⟨id', hid', hout', e', he', hk'⟩)
  constructor
  case nodup =>
    exact List.nodup_append.mpr ⟨h.nodup, List.nodup_singleton id, fun a ha b hb heq =>
      hid (List.mem_singleton.mp hb ▸ heq ▸ ha)⟩
  case taken =>
    intro id' hid'
    obtain hold | rfl := (hmem id').mp hid'
    · exact h.taken id' hold
    · exact ⟨e, he, htakeable⟩
  case images =>
    intro k
    -- One whose inputs are in the cache adds no image.
    have himages : k ∈ (f.push r id e.details tx).kImages ↔
        id ∉ s.inputCache ∧ k ∈ PoolInput.keyImages e.tx.vin ∨ k ∈ f.kImages := by
      unfold FilledBlock.push
      by_cases hin : id ∈ s.inputCache
      · rw [htx, if_pos hin]
        exact ⟨.inr, fun h => h.resolve_left fun hnot => hnot.1 hin⟩
      · rw [htx, if_neg hin, ← hspendable.map_eq,
          mem_appendKeyImages_map hspendable.nodup (hfresh hin), PoolInput.keyImages_map]
        exact or_congr_left (iff_and_self.mpr fun _ => hin)
    rw [himages, h.images]
    constructor
    · rintro (⟨hout, hk⟩ | ⟨id', hid', hspent⟩)
      · exact ⟨id, (hmem id).mpr (.inr rfl), hout, e, he, hk⟩
      · exact ⟨id', (hmem id').mpr (.inl hid'), hspent⟩
    · rintro ⟨id', hid', hout, e', he', hk⟩
      obtain hold | rfl := (hmem id').mp hid'
      · exact .inr ⟨id', hold, hout, e', he', hk⟩
      · rw [he, Option.some_inj] at he'
        exact .inl ⟨hout, he' ▸ hk⟩
  case apart =>
    intro i hi j hj hne houti houtj ei ej hei hej k hki hkj
    obtain hiold | rfl := (hmem i).mp hi <;> obtain hjold | rfl := (hmem j).mp hj
    · exact h.apart i hiold j hjold hne houti houtj ei ej hei hej k hki hkj
    · rw [he, Option.some_inj] at hej
      exact hapart houtj i hiold houti ei hei k (hej ▸ hkj) hki
    · rw [he, Option.some_inj] at hei
      exact hapart houti j hjold houtj ej hej k (hei ▸ hki) hkj
    · exact hne rfl
  case weight_eq =>
    unfold FilledBlock.push
    rw [List.map_append, List.foldl_append, ← h.weight_eq]
    simp only [weightOf, he, List.map_cons, List.map_nil, List.foldl_cons, List.foldl_nil,
      Option.map_some, Option.getD_some]
  case fee_eq =>
    unfold FilledBlock.push
    rw [List.map_append, List.foldl_append, ← h.fee_eq]
    simp only [feeOf, he, List.map_cons, List.map_nil, List.foldl_cons, List.foldl_nil,
      Option.map_some, Option.getD_some]
  case weight_le => exact fun _ => hweight
  case coinbase =>
    intro hversion
    obtain ⟨coinbase, hwith⟩ := hcoinbase hversion
    unfold FilledBlock.push
    rw [if_pos hversion, hwith, Option.getD_some, ← hwith]
    unfold FilledBlock.coinbaseWith
    exact congrArg (Option.map · _) (funext fun blockReward => (UInt64.add_assoc _ _ _).symm)

end Picks

/-! ## The loop -/

variable [Std.TransOrd K] [Std.LawfulEqOrd K]

omit [DecidableEq K] [DecidableEq I] [LinearOrder R] in
/-- A check that passes leaves the transaction parsed, or had its answer from the cache; of the
other transactions it leaves what the loop reads. -/
theorem recheckTx_frame (r : FillRequest K I) (he : s.txs[id]? = some e) :
    ((s.recheckTx r id e).1.ready = true →
        (s.recheckTx r id e).1.tx = if id ∈ s.inputCache then {} else e.tx) ∧
      ∀ id', id ≠ id' → (s.recheckTx r id e).2.txs[id']? = s.txs[id']? ∧
        (id' ∈ (s.recheckTx r id e).2.inputCache ↔ id' ∈ s.inputCache) := by
  have hcache : ∀ id', id ≠ id' →
      (id' ∈ (s.isTransactionReadyToGo r id e).2.inputCache ↔ id' ∈ s.inputCache) := by
    intro id' hne
    obtain heq | heq := isTransactionReadyToGo_snd (s := s) r id e
    · rw [heq]
    · rw [heq]
      unfold checkTxInputs
      rw [if_neg nofun]
      split
      · exact Iff.rfl
      · exact mem_insert_iff.trans (or_iff_right hne)
  have htxs := (samePool_isTransactionReadyToGo (s := s) r id e).1.txs
  refine ⟨?_, fun id' hne => ?_⟩
  · unfold recheckTx isTransactionReadyToGo
    dsimp only
    split
    · exact fun hready => nomatch hready
    · split
      · exact fun _ => rfl
      · exact fun hready => nomatch hready
  · obtain heq | heq := recheckTx_snd r he
    · rw [heq, htxs]
      exact ⟨rfl, hcache id' hne⟩
    · rw [heq]
      dsimp only
      rw [Std.TreeMap.getElem?_insert, if_neg fun heq => hne (Std.compare_eq_iff_eq.mp heq)]
      exact ⟨rfl, hcache id' hne⟩

omit [DecidableEq K] [LinearOrder R] in
/-- The loop looks at each transaction once, so that what it writes into an entry or into the
cache is not read again. -/
theorem fillLoop_picks {start : MemoryPool K I R}
    (hspendable : ∀ (id : K) (e : PoolEntry I), start.txs[id]? = some e → PoolInput.Spendable e.tx.vin)
    (l : List (SortedTx K R)) (f : FilledBlock K I) (hl : (l.map (·.id)).Nodup)
    (hnew : ∀ x ∈ l, x.id ∉ f.txHashes) (hsame : ∀ x ∈ l, s.txs[x.id]? = start.txs[x.id]? ∧
      (x.id ∈ s.inputCache ↔ x.id ∈ start.inputCache))
    (h : Picks r start f) : Picks r start (fillLoop r l f s).1 := by
  induction l generalizing f s with
  | nil => exact h
  | cons x rest ih =>
    obtain ⟨hx, hrest⟩ := List.nodup_cons.mp hl
    have hnew' : ∀ y ∈ rest, y.id ∉ f.txHashes := fun y hy => hnew y (List.mem_cons_of_mem _ hy)
    have hsame' := fun y (hy : y ∈ rest) => hsame y (List.mem_cons_of_mem _ hy)
    have hne : ∀ y ∈ rest, x.id ≠ y.id := fun y hy heq =>
      hx (List.mem_map.mpr ⟨y, hy, heq.symm⟩)
    unfold fillLoop
    split
    · exact ih f hrest hnew' hsame' h
    · rename_i e he
      split
      · exact ih f hrest hnew' hsame' h
      rename_i hpass
      split
      · exact h
      · obtain ⟨htx, hframe⟩ := recheckTx_frame r he
        have hother : ∀ y ∈ rest, (s.recheckTx r x.id e).2.txs[y.id]? = start.txs[y.id]? ∧
            (y.id ∈ (s.recheckTx r x.id e).2.inputCache ↔ y.id ∈ start.inputCache) :=
          fun y hy =>
            ⟨(hframe y.id (hne y hy)).1.trans (hsame' y hy).1,
              (hframe y.id (hne y hy)).2.trans (hsame' y hy).2⟩
        dsimp only
        split
        · exact ih f hrest hnew' hother h
        · rename_i htake
          rw [Bool.or_eq_true, not_or, Bool.not_eq_true, Bool.not_eq_true, Bool.not_eq_false'] at htake
          obtain ⟨hentry, hcached⟩ := hsame x List.mem_cons_self
          have he' : start.txs[x.id]? = some e := hentry.symm.trans he
          have hparsed := htx htake.1
          rw [if_congr hcached rfl rfl] at hparsed
          refine ih _ hrest (fun y hy hin => ?_) hother
            (h.push he' (hnew x List.mem_cons_self) (hspendable x.id e he')
              (Bool.eq_false_iff.mpr hpass) hparsed htake.2)
          obtain hold | hnow := List.mem_append.mp hin
          · exact hnew' y hy hold
          · exact hne y hy (List.mem_singleton.mp hnow).symm

variable [Std.TransOrd I] [Std.LawfulEqOrd I] {vin : K → List (PoolInput I)} {weight : K → UInt64}

omit [DecidableEq K] [Std.TransOrd I] [Std.LawfulEqOrd I] in
theorem Consistent.fillBlockTemplate_picks (h : Consistent vin weight s)
    (hf : (s.fillBlockTemplate r).1 = some f) : Picks r s f := by
  have hspendable : ∀ (id : K) (e : PoolEntry I), s.txs[id]? = some e → PoolInput.Spendable e.tx.vin := by
    intro id e he
    rw [(h.held.stored id e he).1]
    exact h.held.spendable id (mem_iff_exists.mpr ⟨e, he⟩)
  unfold MemoryPool.fillBlockTemplate at hf
  split at hf
  · cases hf
  · rename_i hreward
    rw [← Option.some.inj hf]
    exact fillLoop_picks hspendable _ _ h.sorted.nodup (fun _ _ => List.not_mem_nil)
      (fun _ _ => ⟨rfl, Iff.rfl⟩) (.start hreward)

/-- A block of version sixteen on an empty chain. -/
def sampleFill : FillRequest Nat Nat where
  medianWeight := 300000
  alreadyGeneratedCoins := 0
  version := 16
  mineStemTxes := false
  topBlockHeight := 0
  topBlockHash := Vector.replicate 32 1
  env := sampleEnv

-- The first block has one of the two that spend the same.
example : (samplePool.fillBlockTemplate sampleFill).1.map (·.txHashes) = some [1] := by
  decide +kernel

/-- A block is filled, and then another one on the same chain. -/
def minedCalls : List (PoolCall Nat Nat) := sampleCalls ++ [.fillBlockTemplate sampleFill]

def minedPool : MemoryPool Nat Nat Nat :=
  (poolMachine Nat Nat sampleFeePerWeight).final { txpoolMaxWeight := 150 } minedCalls

theorem minedCalls_regular :
    ∀ c ∈ minedCalls, c.IsRegular (fun _ => [.toKey 7]) (fun _ => 100) := by
  intro c hc
  obtain hc | hc := List.mem_append.mp hc
  · exact sampleCalls_regular c hc
  · rw [List.mem_singleton.mp hc]
    trivial

/-- The second block: both transactions, although they spend the same. -/
def sampleFilled : FilledBlock Nat Nat where
  txHashes := [1, 2]
  totalWeight := 200
  fee := 6000000
  bestCoinbase := 35095220843750

/-- Whatever happened to the pool before, a block is filled with transactions that are in it and
may be mined, none of them twice. Two of them spend the same only if a block brought one of them,
and the pool had the answer for the inputs of one in its cache. -/
theorem fillBlockTemplate_apart (vin : K → List (PoolInput I)) (weight : K → UInt64)
    (feePerWeight : UInt64 → UInt64 → R) (calls : List (PoolCall K I)) (maxWeight : Nat)
    (hcalls : ∀ c ∈ calls, c.IsRegular vin weight) (r : FillRequest K I) (f : FilledBlock K I)
    (hf : (((poolMachine K I feePerWeight).final { txpoolMaxWeight := maxWeight }
      calls).fillBlockTemplate r).1 = some f) :
    f.txHashes.Nodup ∧
      (∀ id ∈ f.txHashes, ∃ e,
        ((poolMachine K I feePerWeight).final { txpoolMaxWeight := maxWeight } calls).txs[id]? =
          some e ∧ Takeable r e.details) ∧
      ∀ id ∈ f.txHashes, ∀ id' ∈ f.txHashes, id ≠ id' → ∀ e e',
        ((poolMachine K I feePerWeight).final { txpoolMaxWeight := maxWeight } calls).txs[id]? =
          some e →
        ((poolMachine K I feePerWeight).final { txpoolMaxWeight := maxWeight } calls).txs[id']? =
          some e' →
        ∀ k ∈ PoolInput.keyImages e.tx.vin, k ∈ PoolInput.keyImages e'.tx.vin →
          (e.details.keptByBlock = true ∨ e'.details.keptByBlock = true) ∧
          (id ∈ ((poolMachine K I feePerWeight).final
              { txpoolMaxWeight := maxWeight } calls).inputCache ∨
            id' ∈ ((poolMachine K I feePerWeight).final
              { txpoolMaxWeight := maxWeight } calls).inputCache) := by
  have hconsistent := consistent_run vin weight feePerWeight calls maxWeight hcalls
  have hpicks := hconsistent.fillBlockTemplate_picks hf
  refine ⟨hpicks.nodup, hpicks.taken, fun id hid id' hid' hne e e' he he' k hk hk' => ⟨?_, ?_⟩⟩
  · rw [(hconsistent.held.stored id e he).1] at hk
    rw [(hconsistent.held.stored id' e' he').1] at hk'
    exact hconsistent.held.exclusive id id' e e' k he he' hne hk hk'
  · by_contra hout
    obtain ⟨hout, hout'⟩ := not_or.mp hout
    exact hpicks.apart id hid id' hid' hne hout hout' e e' he he' k hk hk'

theorem fillBlockTemplate_apart_sample :
    sampleFilled.txHashes.Nodup ∧
      (∀ id ∈ sampleFilled.txHashes, ∃ e,
        minedPool.txs[id]? = some e ∧ Takeable sampleFill e.details) ∧
      ∀ id ∈ sampleFilled.txHashes, ∀ id' ∈ sampleFilled.txHashes, id ≠ id' → ∀ e e',
        minedPool.txs[id]? = some e → minedPool.txs[id']? = some e' →
        ∀ k ∈ PoolInput.keyImages e.tx.vin, k ∈ PoolInput.keyImages e'.tx.vin →
          (e.details.keptByBlock = true ∨ e'.details.keptByBlock = true) ∧
          (id ∈ minedPool.inputCache ∨ id' ∈ minedPool.inputCache) :=
  fillBlockTemplate_apart (fun _ => [.toKey 7]) (fun _ => 100) sampleFeePerWeight minedCalls 150
    minedCalls_regular sampleFill sampleFilled (by decide +kernel)

/-- The weight and the fee that it reports are the sums of theirs, the weight is within the
limit, and from version five on the coinbase is the reward for that weight with that fee. -/
theorem fillBlockTemplate_coinbase (vin : K → List (PoolInput I)) (weight : K → UInt64)
    (feePerWeight : UInt64 → UInt64 → R) (calls : List (PoolCall K I)) (maxWeight : Nat)
    (hcalls : ∀ c ∈ calls, c.IsRegular vin weight) (r : FillRequest K I) (f : FilledBlock K I)
    (hf : (((poolMachine K I feePerWeight).final { txpoolMaxWeight := maxWeight }
      calls).fillBlockTemplate r).1 = some f) :
    f.totalWeight = (f.txHashes.map
        ((poolMachine K I feePerWeight).final { txpoolMaxWeight := maxWeight } calls).weightOf).foldl
          (· + ·) 0 ∧
      f.fee = (f.txHashes.map
        ((poolMachine K I feePerWeight).final { txpoolMaxWeight := maxWeight } calls).feeOf).foldl
          (· + ·) 0 ∧
      (f.txHashes ≠ [] → f.totalWeight ≤ r.maxTotalWeight) ∧
      (5 ≤ r.version → (getBlockReward r.medianWeight f.totalWeight r.alreadyGeneratedCoins
        r.version).map (· + f.fee) = some f.bestCoinbase) :=
  have h := (consistent_run vin weight feePerWeight calls maxWeight hcalls).fillBlockTemplate_picks hf
  ⟨h.weight_eq, h.fee_eq, h.weight_le, h.coinbase⟩

theorem fillBlockTemplate_coinbase_sample :
    sampleFilled.totalWeight = (sampleFilled.txHashes.map minedPool.weightOf).foldl (· + ·) 0 ∧
      sampleFilled.fee = (sampleFilled.txHashes.map minedPool.feeOf).foldl (· + ·) 0 ∧
      (sampleFilled.txHashes ≠ [] → sampleFilled.totalWeight ≤ sampleFill.maxTotalWeight) ∧
      (5 ≤ sampleFill.version → (getBlockReward sampleFill.medianWeight sampleFilled.totalWeight
        sampleFill.alreadyGeneratedCoins sampleFill.version).map (· + sampleFilled.fee) =
          some sampleFilled.bestCoinbase) :=
  fillBlockTemplate_coinbase (fun _ => [.toKey 7]) (fun _ => 100) sampleFeePerWeight minedCalls 150
    minedCalls_regular sampleFill sampleFilled (by decide +kernel)

end MemoryPool

end RandomLite.Monero
