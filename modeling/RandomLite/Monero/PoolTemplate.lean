-- SUMMARY: Block templates from the memory pool: what it picks is what `create_block_template` relies on.
import RandomLite.Library.ExactSum
import RandomLite.Monero.BlockFilling
import RandomLite.Monero.MemoryPoolOrder
import RandomLite.Monero.TemplateAgreement

/-!
# Block templates from the memory pool

`create_block_template` takes the transactions, their weight and their fee from the pool, and
its model takes them as a `FilledTemplate`. After every run of the memory pool, what
`fill_block_template` picks is one.
-/

namespace RandomLite.Monero

open KeyedTable

namespace MemoryPool

variable {K I R : Type} [Ord K] [Ord I] [DecidableEq K] [DecidableEq I] [LinearOrder R]
  [Std.TransOrd K] [Std.LawfulEqOrd K] [Std.TransOrd I] [Std.LawfulEqOrd I]

/-- After every run of the pool, a block is filled with a `FilledTemplate`: the weights and fees
that it reports are those of the transactions that it lists. -/
theorem fillBlockTemplate_filledTemplate (C : Content) (P : TxPrimitives) (hashOf : K → Hash)
    (vin : K → List (PoolInput I)) (fee weight : K → UInt64)
    (feePerWeight : UInt64 → UInt64 → R) (calls : List (PoolCall K I)) (maxWeight : Nat)
    (hcalls : ∀ c ∈ calls, c.IsRegular vin weight) (hpays : ∀ c ∈ calls, c.Pays fee)
    (hweight : ∀ id, P.weightOfTx (hashOf id) = (weight id).toNat)
    (hfee : ∀ id, C.getTxFee (hashOf id) = fee id)
    (hfits : total (fun e => e.details.weight.toNat)
      ((poolMachine K I feePerWeight).final { txpoolMaxWeight := maxWeight } calls).txs < 2 ^ 64)
    (r : FillRequest K I) (f : FilledBlock K I)
    (hf : (((poolMachine K I feePerWeight).final { txpoolMaxWeight := maxWeight }
      calls).fillBlockTemplate r).1 = some f) :
    ∃ t : FilledTemplate C P, t.txHashes = f.txHashes.map hashOf ∧
      t.totalWeight = f.totalWeight.toNat ∧ t.fee = f.fee ∧ t.expectedReward = f.bestCoinbase := by
  have hconsistent := consistent_run vin weight feePerWeight calls maxWeight hcalls
  have hpriced := priced_run fee feePerWeight calls maxWeight hcalls hpays
  obtain ⟨s, hs⟩ : ∃ s, (poolMachine K I feePerWeight).final { txpoolMaxWeight := maxWeight }
    calls = s := ⟨_, rfl⟩
  rw [hs] at hfits hf hconsistent hpriced
  have hpicks := hconsistent.fillBlockTemplate_picks hf
  have hweights : ∀ id ∈ f.txHashes, (s.weightOf id).toNat = P.weightOfTx (hashOf id) := by
    intro id hid
    obtain ⟨e, he, -⟩ := hpicks.taken id hid
    rw [hweight, ← (hconsistent.held.stored id e he).2]
    unfold weightOf
    rw [he, Option.map_some, Option.getD_some]
  have hfees : ∀ id ∈ f.txHashes, s.feeOf id = C.getTxFee (hashOf id) := by
    intro id hid
    obtain ⟨e, he, -⟩ := hpicks.taken id hid
    rw [hfee, ← (hpriced.stored id e he).2.1]
    unfold feeOf
    rw [he, Option.map_some, Option.getD_some]
  have hsum : (f.txHashes.map fun id => (s.weightOf id).toNat).sum < 2 ^ 64 := by
    refine lt_of_le_of_lt ?_ hfits
    refine sum_le_total (fun id hid => ?_) hpicks.nodup
    obtain ⟨e, he, -⟩ := hpicks.taken id hid
    refine ⟨e, he, ?_⟩
    unfold weightOf
    rw [he, Option.map_some, Option.getD_some]
  -- The weights are added without wrapping.
  have hexact : ExactSum (f.txHashes.map s.weightOf)
      (UInt64.ofNat (f.txHashes.map fun id => (s.weightOf id).toNat).sum) := by
    unfold ExactSum
    rw [List.map_map, UInt64.toNat_ofNat_of_lt' hsum]
    rfl
  refine ⟨
    { txHashes := f.txHashes.map hashOf
      totalWeight := f.totalWeight.toNat
      fee := f.fee
      expectedReward := f.bestCoinbase
      totalWeight_eq := ?_
      fee_eq := ?_ }, rfl, rfl, rfl, rfl⟩
  · rw [hpicks.weight_eq, hexact.foldl_eq, ← hexact, List.map_map, List.map_map]
    exact congrArg List.sum (List.map_congr_left hweights)
  · rw [hpicks.fee_eq, List.map_map]
    exact congrArg (List.foldl (· + ·) 0) (List.map_congr_left hfees)

theorem minedCalls_pays : ∀ c ∈ minedCalls, c.Pays (fun _ => 3000000) := by
  intro c hc
  unfold minedCalls sampleCalls at hc
  simp only [List.cons_append, List.nil_append, List.mem_cons, List.not_mem_nil, or_false] at hc
  obtain rfl | rfl | rfl | rfl | rfl | rfl := hc
  · rfl
  · trivial
  · trivial
  · rfl
  · trivial
  · trivial

theorem fillBlockTemplate_filledTemplate_sample :
    ∃ t : FilledTemplate { sampleContent with getTxFee := fun _ => 3000000 }
        { samplePrimitives with weightOfTx := fun _ => 100 },
      t.txHashes = [Vector.replicate 32 1, Vector.replicate 32 2] ∧ t.totalWeight = 200 ∧
        t.fee = 6000000 ∧ t.expectedReward = 35095220843750 :=
  fillBlockTemplate_filledTemplate { sampleContent with getTxFee := fun _ => 3000000 }
    { samplePrimitives with weightOfTx := fun _ => 100 }
    (fun id => Vector.replicate 32 (UInt8.ofNat id)) (fun _ => [.toKey 7]) (fun _ => 3000000)
    (fun _ => 100) sampleFeePerWeight minedCalls 150 minedCalls_regular minedCalls_pays
    (fun _ => rfl) (fun _ => rfl) (by decide +kernel) sampleFill sampleFilled (by decide +kernel)

end MemoryPool

end RandomLite.Monero
