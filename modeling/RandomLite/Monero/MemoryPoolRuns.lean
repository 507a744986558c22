-- SUMMARY: What every run of the memory pool keeps: its index of key images, and its weight and limit.
import RandomLite.Library.Machine
import RandomLite.Monero.MemoryPoolUpkeep

/-!
# Runs of the memory pool

Every call keeps the pool consistent, and so does every run, restarts included. What the
transactions of the pool spend, and what they weigh, is read off that.
-/

namespace RandomLite.Monero

open InvertedIndex KeyedTable

namespace MemoryPool

/-- What is asked of the pool. -/
inductive PoolCall (K I : Type) where
  | addTx (env : PoolEnv K I) (a : AddedTx K I)
  | takeTx (id : K)
  | removeStuckTransactions (now : UInt64)
  | onBlockchainChange
  | setRelayed (method : RelayMethod) (now : UInt64) (hashes : List (K × UInt64))
  | validate (env : K → PoolEnv K I) (version : UInt8)
  | restart (now : UInt64) (maxTxpoolWeight : Nat)
  | fillBlockTemplate (r : FillRequest K I)

/-- The calls, with whether they answer `true` where they answer so. -/
def poolMachine (K I : Type) {R : Type} [Ord K] [Ord I] [DecidableEq K] [DecidableEq I] [LT R]
    [DecidableLT R] (feePerWeight : UInt64 → UInt64 → R) :
    Machine (MemoryPool K I R) (PoolCall K I) Bool where
  step s
    | .addTx env a => ((s.addTx feePerWeight env a).1, (s.addTx feePerWeight env a).2.2)
    | .takeTx id => ((s.takeTx id).1.isSome, (s.takeTx id).2)
    | .removeStuckTransactions now => (true, s.removeStuckTransactions now)
    | .onBlockchainChange => (true, s.onBlockchainChange)
    | .setRelayed method now hashes => (true, (s.setRelayed feePerWeight method now hashes).2)
    | .validate env version => (true, (s.validate feePerWeight env version).2)
    | .restart now maxTxpoolWeight => s.restart feePerWeight now maxTxpoolWeight
    | .fillBlockTemplate r => ((s.fillBlockTemplate r).1.isSome, (s.fillBlockTemplate r).2)

variable {K I R : Type} [Ord K] [Ord I] [DecidableEq K] [DecidableEq I] [LinearOrder R]
  [Std.TransOrd K] [Std.LawfulEqOrd K] [Std.TransOrd I] [Std.LawfulEqOrd I]
  {s : MemoryPool K I R} {maxWeight : Nat} {vin : K → List (PoolInput I)} {weight : K → UInt64}

/-- Calls that add a transaction name it by its id. Versions of hard forks are not zero. -/
def PoolCall.IsRegular (vin : K → List (PoolInput I)) (weight : K → UInt64) : PoolCall K I → Prop
  | .addTx _ a => Regular vin weight a
  | .validate _ version => version ≠ 0
  | _ => True

/-- The node is started with the limit that it had. -/
def PoolCall.KeepsLimit (maxWeight : Nat) : PoolCall K I → Prop
  | .restart _ maxTxpoolWeight =>
    (if maxTxpoolWeight = 0 then defaultTxpoolMaxWeight else maxTxpoolWeight) = maxWeight
  | _ => True

theorem Consistent.step (h : Consistent vin weight s) (maxWeight : Nat)
    (feePerWeight : UInt64 → UInt64 → R)
    {c : PoolCall K I} (hc : c.IsRegular vin weight) :
    Consistent vin weight ((poolMachine K I feePerWeight).step s c).2 ∧
      (c.KeepsLimit maxWeight → Limited maxWeight s →
        Limited maxWeight ((poolMachine K I feePerWeight).step s c).2) := by
  -- But for a restart, a call leaves every limit that there was.
  have hkeeps : ∀ s', Keeps vin weight s s' → Consistent vin weight s' ∧
      (c.KeepsLimit maxWeight → Limited maxWeight s → Limited maxWeight s') := fun s' hs' =>
    ⟨hs'.consistent, fun _ => hs'.limited maxWeight⟩
  cases c with
  | addTx env a => exact hkeeps _ (h.addTx env hc)
  | takeTx id => exact hkeeps _ (h.takeTx id)
  | removeStuckTransactions now => exact hkeeps _ (h.removeStuckTransactions now)
  | onBlockchainChange =>
    refine hkeeps _ (SamePool.keeps ⟨rfl, rfl, rfl, rfl, rfl⟩ h fun id tx htx => ?_)
    exact absurd htx (by unfold poolMachine onBlockchainChange; simp)
  | setRelayed method now hashes => exact hkeeps _ (h.setRelayed method now hashes)
  | validate env version => exact hkeeps _ (h.validate env hc)
  | restart now maxTxpoolWeight =>
    exact ⟨(h.restart feePerWeight now maxTxpoolWeight).2.1, fun hmax hlimited =>
      hlimited.restart h now hmax⟩
  | fillBlockTemplate r => exact hkeeps _ (Consistent.fillBlockTemplate r h)

theorem consistent_run (vin : K → List (PoolInput I)) (weight : K → UInt64)
    (feePerWeight : UInt64 → UInt64 → R) (calls : List (PoolCall K I)) (maxWeight : Nat)
    (hcalls : ∀ c ∈ calls, c.IsRegular vin weight) :
    Consistent vin weight
      ((poolMachine K I feePerWeight).final { txpoolMaxWeight := maxWeight } calls) :=
  Machine.final_induction (I := fun s => Consistent vin weight s) calls
    ⟨.empty maxWeight, .empty maxWeight⟩
    fun _ c hc h => (h.step maxWeight feePerWeight (hcalls c hc)).1

/-- The fee for each unit of weight, rounded down. -/
def sampleFeePerWeight (fee weight : UInt64) : Nat := (fee / weight).toNat

/-- A chain that finds the inputs of every transaction right. -/
def sampleEnv : PoolEnv Nat Nat where
  now := 100
  delay := 0
  checkFee _ _ := true
  verNonInputConsensus _ _ _ := true
  checkTxInputs _ _ id _ := ⟨true, 0, nullHash, id⟩

/-- Transactions that all spend the same. -/
def sampleAdd (id : Nat) (txRelay : RelayMethod) : AddedTx Nat Nat where
  tx := { vin := [.toKey 7], fee := 3000000 }
  id := id
  txWeight := 100
  txRelay := txRelay
  relayed := false
  version := 16

/-- What the table has of such a transaction. -/
def sampleEntry (id : Nat) (txRelay : RelayMethod) (relayed : Bool) (lastRelayedTime : UInt64) :
    PoolEntry Nat where
  details := { ({} : TxpoolTxMeta).setRelayMethod txRelay with
    weight := 100
    fee := 3000000
    receiveTime := 100
    relayed
    lastRelayedTime }
  tx := (sampleAdd id txRelay).tx

theorem sampleAdd_regular (id : Nat) (txRelay : RelayMethod) :
    Regular (fun _ => [.toKey 7]) (fun _ => 100) (sampleAdd id txRelay) :=
  ⟨rfl, rfl, fun _ => rfl⟩

/-- One comes on the stem, is broadcast, and is validated anew; the other comes from a block.
Then the node is started again. -/
def sampleCalls : List (PoolCall Nat Nat) :=
  [.addTx sampleEnv (sampleAdd 1 .stem), .setRelayed .fluff 200 [(1, 39)],
    .validate (fun _ => sampleEnv) 16, .addTx sampleEnv (sampleAdd 2 .block), .restart 300 150]

def samplePool : MemoryPool Nat Nat Nat :=
  (poolMachine Nat Nat sampleFeePerWeight).final { txpoolMaxWeight := 150 } sampleCalls

theorem sampleCalls_regular :
    ∀ c ∈ sampleCalls, c.IsRegular (fun _ => [.toKey 7]) (fun _ => 100) := by
  intro c hc
  unfold sampleCalls at hc
  simp only [List.mem_cons, List.not_mem_nil, or_false] at hc
  obtain rfl | rfl | rfl | rfl | rfl := hc
  · exact sampleAdd_regular 1 .stem
  · trivial
  · exact (by decide : (16 : UInt8) ≠ 0)
  · exact sampleAdd_regular 2 .block
  · trivial

/-! ## Key images -/

/-- In every run the index has, under each key image, exactly the transactions of the pool that
spend it. -/
theorem spentKeyImages_run (vin : K → List (PoolInput I)) (weight : K → UInt64)
    (feePerWeight : UInt64 → UInt64 → R) (calls : List (PoolCall K I)) (maxWeight : Nat)
    (hcalls : ∀ c ∈ calls, c.IsRegular vin weight) :
    Indexes ((poolMachine K I feePerWeight).final { txpoolMaxWeight := maxWeight } calls).spentKeyImages
      fun k id => ∃ e,
        ((poolMachine K I feePerWeight).final { txpoolMaxWeight := maxWeight } calls).txs[id]? =
          some e ∧ k ∈ PoolInput.keyImages e.tx.vin := by
  have h := (consistent_run vin weight feePerWeight calls maxWeight hcalls).held
  refine h.index.congr fun k id => ?_
  constructor
  · rintro ⟨hid, hk⟩
    obtain ⟨e, he⟩ := mem_iff_exists.mp hid
    exact ⟨e, he, by rw [(h.stored id e he).1]; exact hk⟩
  · rintro ⟨e, he, hk⟩
    rw [(h.stored id e he).1] at hk
    exact ⟨mem_iff_exists.mpr ⟨e, he⟩, hk⟩

theorem spentKeyImages_run_sample :
    Indexes samplePool.spentKeyImages fun k id => ∃ e,
      samplePool.txs[id]? = some e ∧ k ∈ PoolInput.keyImages e.tx.vin :=
  spentKeyImages_run (fun _ => [.toKey 7]) (fun _ => 100) sampleFeePerWeight sampleCalls 150
    sampleCalls_regular

/-- In no run do two transactions of the pool spend the same but where a block brought one. -/
theorem exclusive_run (vin : K → List (PoolInput I)) (weight : K → UInt64)
    (feePerWeight : UInt64 → UInt64 → R) (calls : List (PoolCall K I)) (maxWeight : Nat)
    (hcalls : ∀ c ∈ calls, c.IsRegular vin weight) (id id' : K) (e e' : PoolEntry I) (k : I)
    (he : ((poolMachine K I feePerWeight).final { txpoolMaxWeight := maxWeight } calls).txs[id]? =
      some e)
    (he' : ((poolMachine K I feePerWeight).final { txpoolMaxWeight := maxWeight } calls).txs[id']? =
      some e')
    (hne : id ≠ id') (hk : k ∈ PoolInput.keyImages e.tx.vin)
    (hk' : k ∈ PoolInput.keyImages e'.tx.vin) :
    e.details.keptByBlock = true ∨ e'.details.keptByBlock = true := by
  have h := (consistent_run vin weight feePerWeight calls maxWeight hcalls).held
  rw [(h.stored id e he).1] at hk
  rw [(h.stored id' e' he').1] at hk'
  exact h.exclusive id id' e e' k he he' hne hk hk'

/-- The one of the block is there beside the other. -/
theorem exclusive_run_sample : (sampleEntry 1 .fluff true 200).details.keptByBlock = true ∨
    (sampleEntry 2 .block false (2 ^ 64 - 1)).details.keptByBlock = true :=
  exclusive_run (fun _ => [.toKey 7]) (fun _ => 100) sampleFeePerWeight sampleCalls 150
    sampleCalls_regular 1 2 (sampleEntry 1 .fluff true 200)
    (sampleEntry 2 .block false (2 ^ 64 - 1)) 7 (by decide +kernel) (by decide +kernel) (by decide)
    (by decide) (by decide)

/-! ## Weights -/

/-- In every run the running sum covers the weights of the pool, and these are within the limit,
or all but one of the transactions were brought by blocks. -/
theorem limit_run (vin : K → List (PoolInput I)) (weight : K → UInt64)
    (feePerWeight : UInt64 → UInt64 → R) (calls : List (PoolCall K I)) (maxWeight : Nat)
    (hcalls : ∀ c ∈ calls, c.IsRegular vin weight) (hmax : ∀ c ∈ calls, c.KeepsLimit maxWeight) :
    total (fun e => e.details.weight.toNat)
        ((poolMachine K I feePerWeight).final { txpoolMaxWeight := maxWeight } calls).txs ≤
      ((poolMachine K I feePerWeight).final { txpoolMaxWeight := maxWeight } calls).txpoolWeight ∧
    (total (fun e => e.details.weight.toNat)
        ((poolMachine K I feePerWeight).final { txpoolMaxWeight := maxWeight } calls).txs ≤
      maxWeight ∨ AtMostOneNotKept
        ((poolMachine K I feePerWeight).final { txpoolMaxWeight := maxWeight } calls)) := by
  obtain ⟨h, -, hlimited⟩ := Machine.final_induction
    (I := fun s => Consistent vin weight s ∧ Limited maxWeight s) (M := poolMachine K I feePerWeight)
    calls ⟨⟨.empty maxWeight, .empty maxWeight⟩, rfl, .inl (Nat.zero_le _)⟩
    fun _ c hc h => (h.1.step maxWeight feePerWeight (hcalls c hc)).imp_right fun hlimit =>
      hlimit (hmax c hc) h.2
  exact ⟨h.held.counted, hlimited.imp_left h.held.counted.trans⟩

/-- The limit is for one, and the one that no block brought stays as the best paying. -/
theorem limit_run_sample :
    total (fun e => e.details.weight.toNat) samplePool.txs ≤ samplePool.txpoolWeight ∧
      (total (fun e => e.details.weight.toNat) samplePool.txs ≤ 150 ∨ AtMostOneNotKept samplePool) :=
  limit_run (fun _ => [.toKey 7]) (fun _ => 100) sampleFeePerWeight sampleCalls 150
    sampleCalls_regular (by
      intro c hc
      unfold sampleCalls at hc
      simp only [List.mem_cons, List.not_mem_nil, or_false] at hc
      obtain rfl | rfl | rfl | rfl | rfl := hc
      · trivial
      · trivial
      · trivial
      · trivial
      · rfl)

end MemoryPool

end RandomLite.Monero
