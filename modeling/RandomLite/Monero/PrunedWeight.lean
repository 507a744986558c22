-- SUMMARY: The weight of a pruned transaction (`cryptonote_basic/cryptonote_format_utils.cpp`): it is that of the whole transaction.
import RandomLite.Monero.TransactionHash

/-!
# Pruned weight

A node that keeps no prunable parts works out their size from the numbers of inputs and
outputs and the size of a ring. The two ways to weigh a transaction agree when its range
proof has no more rounds than its outputs need.
-/

namespace RandomLite.Monero.Format

open Written (all)

/-! ## Weights -/

section Weights

variable (scalarmultInvEight : ScalarmultInvEight)

/-- What the weight functions return when they refuse a transaction. -/
def refusedWeight : Nat := 2 ^ 64 - 1

/-- The last step of both functions: no result where it throws. -/
def addClawback (size : Nat) (clawback : Option Nat) : Option Nat :=
  clawback.bind fun bpClawback =>
    if bpClawback ≤ 2 ^ 64 - 1 - size then some (size + bpClawback) else none

/-- `get_transaction_weight`. -/
def getTransactionWeight (tx : Transaction RctSig) (blobSize : Nat) : Option Nat :=
  if tx.pruned then some refusedWeight
  else if tx.version < 2 then some blobSize
  else if !isRctBulletproof tx.rctSignatures.type && !isRctBulletproofPlus tx.rctSignatures.type then
    some blobSize
  else addClawback blobSize (tx.rctSignatures.weightClawback tx.toTransactionPrefix)

/-- The size of the ring signatures of `inputs` inputs. -/
def signaturesSize (type : UInt8) (inputs ringSize : Nat) : Nat :=
  if isRctClsag type then inputs * (ringSize + 2) * 32
  else inputs * (ringSize * (1 + 1) * 32 + 32)

/-- `get_pruned_transaction_weight`. -/
def getPrunedTransactionWeight (tx : Transaction RctSig) : Option Nat :=
  let type := tx.rctSignatures.type
  if !tx.pruned then some refusedWeight
  else if tx.version < 2 then some refusedWeight
  else if !hasShortEcdhInfo type then some refusedWeight
  else
    match tx.vin with
    | .toKey _ keyOffsets _ :: _ =>
      let nlr := countRounds tx.vout.length 32 0
      let nPaddedOutputs := 1 <<< nlr
      let keys := if isRctBulletproofPlus type then 6 else 9
      let weight := (tx.toBlob (ringCt scalarmultInvEight)).length + 1 +
        (32 * (keys + 2 * (nlr + 6)) + 2) +
        signaturesSize type tx.vin.length keyOffsets.length + 32 * tx.vin.length
      addClawback weight (getTransactionWeightClawback type tx.vout.length nPaddedOutputs)
    | _ => some refusedWeight

end Weights

/-! ## Sizes -/

section Sizes

variable {α : Type} {save : α → Written} {n k : Nat} {v : List α} {bs : List UInt8}

theorem length_of_each (h : Written.each save v = all bs)
    (hk : ∀ a ∈ v, ∀ p, save a = all p → p.length = k) : bs.length = v.length * k := by
  induction v generalizing bs with
  | nil =>
    rw [← (Prod.mk.inj h).1, List.length_nil, List.length_nil, Nat.zero_mul]
  | cons a v ih =>
    obtain ⟨p, q, hp, hq, rfl⟩ := Written.andThen_eq_all_iff.mp h
    rw [List.length_append, hk a List.mem_cons_self p hp,
      ih hq fun b hb => hk b (List.mem_cons_of_mem _ hb), List.length_cons, Nat.succ_mul,
      Nat.add_comm]

theorem length_of_saveArray (h : saveArray save n v = all bs)
    (hk : ∀ a ∈ v, ∀ p, save a = all p → p.length = k) : bs.length = n * k := by
  obtain ⟨hlen, heach⟩ := Written.check_eq_all_iff.mp h
  rw [length_of_each heach hk, of_decide_eq_true hlen]

theorem length_of_saveKey {key : Key} (h : saveKey key = all bs) : bs.length = 32 := by
  rw [← (Prod.mk.inj h).1, Vector.length_toList]

theorem length_of_saveKeyArray {keys : List Key} (h : saveArray saveKey n keys = all bs) :
    bs.length = n * 32 :=
  length_of_saveArray h fun _ _ _ hp => length_of_saveKey hp

theorem length_getVarintData_small {i : UInt64} (h : i.toNat < 128) :
    (getVarintData i).length = 1 := by
  have hsmall : ¬ i ≥ 0x80 := by
    rw [ge_iff_le, UInt64.le_iff_toNat_le]
    exact Nat.not_le.mpr h
  unfold getVarintData writeVarint
  rw [if_neg hsmall]
  rfl

theorem length_saveKeys {keys : List Key} (hfew : keys.length < 128) :
    (saveContainer (fun key => key.toList) keys).length = 1 + 32 * keys.length := by
  have hcount : (UInt64.ofNat keys.length).toNat < 128 := by
    rw [UInt64.toNat_ofNat_of_lt' (hfew.trans (by decide))]
    exact hfew
  rw [saveContainer, List.length_append, length_getVarintData_small hcount]
  simp [List.length_flatMap, Nat.mul_comm]

theorem length_of_clsag {ringSize : Nat} {sig : Clsag} (h : sig.save ringSize = all bs) :
    bs.length = (ringSize + 2) * 32 := by
  obtain ⟨p, r, hp, hr, rfl⟩ := Written.andThen_eq_all_iff.mp h
  obtain ⟨q, s, hq, hs, rfl⟩ := Written.andThen_eq_all_iff.mp hr
  rw [List.length_append, List.length_append, length_of_saveKeyArray hp, length_of_saveKey hq,
    length_of_saveKey hs]
  ring

theorem length_of_mgSig {rows width : Nat} {mg : MgSig} (h : mg.save rows width = all bs) :
    bs.length = rows * width * 32 + 32 := by
  obtain ⟨p, q, hp, hq, rfl⟩ := Written.andThen_eq_all_iff.mp h
  rw [List.length_append, length_of_saveKey hq,
    length_of_saveArray hp fun _ _ _ hrow => length_of_saveKeyArray hrow]
  ring

theorem checkRounds_length {L R : List Key} (h : checkRounds L R = true) :
    R.length = L.length := by
  unfold checkRounds at h
  rw [Bool.and_eq_true, decide_eq_true_eq] at h
  exact h.2.symm

theorem length_of_bulletproof {proof : Bulletproof} (hfew : proof.L.length < 128)
    (h : proof.save = all bs) : bs.length = 32 * (9 + 2 * proof.L.length) + 2 := by
  unfold Bulletproof.save at h
  cases hrounds : checkRounds proof.L proof.R with
  | false =>
    rw [hrounds] at h
    cases (Prod.mk.inj h).2
  | true =>
    have hR := checkRounds_length hrounds
    have hL := length_saveKeys hfew
    have hR' := length_saveKeys (hR ▸ hfew)
    rw [hrounds] at h
    rw [← (Prod.mk.inj h).1]
    simp only [saveKeys, saveKey, Written.andThen, Written.check, if_true, all,
      List.length_append, Vector.length_toList, List.length_nil, hL, hR', hR]
    omega

theorem length_of_bulletproofPlus {proof : BulletproofPlus} (hfew : proof.L.length < 128)
    (h : proof.save = all bs) : bs.length = 32 * (6 + 2 * proof.L.length) + 2 := by
  unfold BulletproofPlus.save at h
  cases hrounds : checkRounds proof.L proof.R with
  | false =>
    rw [hrounds] at h
    cases (Prod.mk.inj h).2
  | true =>
    have hR := checkRounds_length hrounds
    have hL := length_saveKeys hfew
    have hR' := length_saveKeys (hR ▸ hfew)
    rw [hrounds] at h
    rw [← (Prod.mk.inj h).1]
    simp only [saveKeys, saveKey, Written.andThen, Written.check, if_true, all,
      List.length_append, Vector.length_toList, List.length_nil, hL, hR', hR]
    omega

end Sizes

/-! ## Agreement -/

section Agreement

variable {scalarmultInvEight : ScalarmultInvEight}

/-- One proof, as the types with short amounts save it. -/
theorem length_of_saveProofs {α : Type} {save : α → Written} (one : α → Nat) {type : UInt8}
    {outputs k : Nat} {proof : α} {bs : List UInt8} (htype : type ≠ rctTypeBulletproof)
    (h : saveProofs save (fun proofs => sumMaxAmounts (proofs.map one) 0) type outputs [proof] =
      all bs) (hk : ∀ p, save proof = all p → p.length = k) :
    bs.length = 1 + k ∧ 0 < one proof ∧ sumMaxAmounts [one proof] 0 = one proof := by
  obtain ⟨p, q, hp, hq, rfl⟩ := Written.andThen_eq_all_iff.mp h
  obtain ⟨hcount, hq⟩ := Written.check_eq_all_iff.mp hq
  obtain ⟨r, s, hr, hs, rfl⟩ := Written.andThen_eq_all_iff.mp hq
  obtain ⟨hmax, hs⟩ := Written.check_eq_all_iff.mp hs
  have houtputs : 1 ≤ outputs := of_decide_eq_true hcount
  have hsum : outputs ≤ sumMaxAmounts [one proof] 0 := of_decide_eq_true hmax
  have hpos := (sumMaxAmounts_pos (houtputs.trans hsum)).1 _ List.mem_cons_self
  have hcountBytes : p.length = 1 := by
    rw [← (Prod.mk.inj hp).1, saveCount, if_neg htype]
    have hone : (UInt32.ofNat 1).toUInt64.toNat < 128 := by decide
    exact length_getVarintData_small hone
  refine ⟨?_, hpos, ?_⟩
  · rw [List.length_append, List.length_append, hcountBytes, ← (Prod.mk.inj hs).1,
      length_of_each hr fun a ha p hp => hk p (List.mem_singleton.mp ha ▸ hp), List.length_nil]
    simp
  · unfold sumMaxAmounts at hsum ⊢
    split at hsum
    · omega
    split at hsum
    · omega
    · rename_i hroom hne
      rw [if_neg hroom, if_neg hne]
      simp [sumMaxAmounts]

/-- The one range proof of a transaction, with as many rounds as its outputs need. -/
def RctSig.HasShortestProof (rv : RctSig) (outputs : Nat) : Prop :=
  if isRctBulletproofPlus rv.type then
    ∃ proof, rv.p.bulletproofsPlus = [proof] ∧ proof.L.length = countRounds outputs 32 0 + 6
  else ∃ proof, rv.p.bulletproofs = [proof] ∧ proof.L.length = countRounds outputs 32 0 + 6

/-- The range proof, and how many amounts it has room for. -/
theorem length_of_saveRangeProofs {rv : RctSig} {outputs : Nat} {bs : List UInt8}
    (htype : hasShortEcdhInfo rv.type = true) (hproof : rv.HasShortestProof outputs)
    (hfew : countRounds outputs 32 0 ≤ 32)
    (h : rv.p.saveRangeProofs rv.type outputs = all bs) :
    bs.length = 1 + (32 * ((if isRctBulletproofPlus rv.type then 6 else 9) +
        2 * (countRounds outputs 32 0 + 6)) + 2) ∧
      (if isRctBulletproofPlus rv.type then nBulletproofPlusMaxAmounts rv.p.bulletproofsPlus
        else nBulletproofMaxAmounts rv.p.bulletproofs) = 1 <<< countRounds outputs 32 0 := by
  have hne : rv.type ≠ rctTypeBulletproof := by
    intro heq
    rw [heq] at htype
    revert htype
    decide
  have hmax {lSize rSize maxOutputs : Nat} (hL : lSize = countRounds outputs 32 0 + 6)
      (hpos : 0 < nBulletproofMaxAmountsBase lSize rSize maxOutputs) :
      nBulletproofMaxAmountsBase lSize rSize maxOutputs = 1 <<< countRounds outputs 32 0 := by
    unfold nBulletproofMaxAmountsBase at hpos ⊢
    split
    · omega
    split
    · rename_i hmismatch
      rw [if_neg (by omega), if_pos hmismatch] at hpos
      omega
    split
    · rename_i hmatch hstale
      rw [if_neg (by omega), if_neg hmatch, if_pos hstale] at hpos
      omega
    split
    · rename_i hmatch hcurrent hmany
      rw [if_neg (by omega), if_neg hmatch, if_neg hcurrent, if_pos hmany] at hpos
      omega
    · rw [hL, Nat.add_sub_cancel]
  unfold RctSig.HasShortestProof at hproof
  by_cases hplus : isRctBulletproofPlus rv.type = true
  · rw [if_pos hplus] at hproof
    obtain ⟨proof, hproofs, hL⟩ := hproof
    have hkind : rv.type = rctTypeBulletproofPlus := of_decide_eq_true hplus
    unfold RctSigPrunable.saveRangeProofs at h
    rw [if_pos hkind, hproofs] at h
    obtain ⟨hlen, hpos, hsum⟩ := length_of_saveProofs BulletproofPlus.maxAmounts hne h
      fun p hp => length_of_bulletproofPlus (by omega) hp
    rw [if_pos hplus, if_pos hplus, hproofs]
    refine ⟨by rw [hlen, hL], ?_⟩
    exact hsum.trans (hmax hL hpos)
  · rw [if_neg hplus] at hproof
    obtain ⟨proof, hproofs, hL⟩ := hproof
    have hkind : rv.type ≠ rctTypeBulletproofPlus := fun heq => hplus (decide_eq_true heq)
    have hbulletproof : isRctBulletproof rv.type = true := by
      unfold hasShortEcdhInfo at htype
      unfold isRctBulletproof
      simp only [Bool.or_eq_true, decide_eq_true_eq] at htype ⊢
      tauto
    unfold RctSigPrunable.saveRangeProofs at h
    rw [if_neg hkind, if_pos hbulletproof, hproofs] at h
    obtain ⟨hlen, hpos, hsum⟩ := length_of_saveProofs Bulletproof.maxAmounts hne h
      fun p hp => length_of_bulletproof (by omega) hp
    rw [if_neg hplus, if_neg hplus, hproofs]
    refine ⟨by rw [hlen, hL], ?_⟩
    exact hsum.trans (hmax hL hpos)

/-- The ring signatures proper. -/
theorem length_of_saveSignatures {p : RctSigPrunable} {type : UInt8} {inputs mixin : Nat}
    {bs : List UInt8} (htype : hasShortEcdhInfo type = true)
    (h : p.saveSignatures type inputs mixin = all bs) :
    bs.length = signaturesSize type inputs (mixin + 1) := by
  unfold RctSigPrunable.saveSignatures at h
  unfold signaturesSize
  split at h
  · rename_i hclsag
    rw [if_pos hclsag, length_of_saveArray h fun _ _ _ hsig => length_of_clsag hsig]
    ring
  · rename_i hclsag
    have hper : hasMgPerInput type = true := by
      unfold hasShortEcdhInfo at htype
      unfold isRctClsag at hclsag
      unfold hasMgPerInput
      simp only [Bool.or_eq_true, decide_eq_true_eq] at htype hclsag ⊢
      tauto
    rw [if_neg hclsag, length_of_saveArray h fun _ _ _ hmg => length_of_mgSig hmg, mgElements,
      mgSs2Elements, if_pos hper, if_pos hper]

theorem countRounds_le (n fuel nlr : Nat) : countRounds n fuel nlr ≤ nlr + fuel := by
  induction fuel generalizing nlr with
  | zero => exact Nat.le_refl _
  | succ fuel ih =>
    unfold countRounds
    split
    · exact (ih (nlr + 1)).trans (by omega)
    · exact Nat.le_add_right _ _

theorem hasShortEcdhInfo_cases {type : UInt8} (h : hasShortEcdhInfo type = true) :
    type ≠ rctTypeNull ∧ hasPrunablePseudoOuts type = true ∧
      (!isRctBulletproof type && !isRctBulletproofPlus type) = false := by
  unfold hasShortEcdhInfo at h
  simp only [Bool.or_eq_true, decide_eq_true_eq] at h
  rcases h with (rfl | rfl) | rfl <;> decide

theorem mixin_add_one {tx : TransactionPrefix} {amount : UInt64} {keyOffsets : List UInt64}
    {kImage : KeyImage} {rest : List TxIn} (hfits : tx.Fits)
    (hvin : tx.vin = .toKey amount keyOffsets kImage :: rest) (hsmall : tx.mixin < 0xffffffff) :
    tx.mixin + 1 = keyOffsets.length := by
  have hlen : keyOffsets.length < 2 ^ 64 :=
    hfits.vin (.toKey amount keyOffsets kImage) (by rw [hvin]; exact List.mem_cons_self)
  unfold TransactionPrefix.mixin at hsmall ⊢
  rw [hvin] at hsmall ⊢
  dsimp only at hsmall ⊢
  rw [UInt64.toNat_sub, UInt64.toNat_ofNat_of_lt' hlen, UInt64.toNat_one] at hsmall ⊢
  omega

/-- The prunable part has the size that is worked out without it. -/
theorem length_of_savePrunable {tx : Transaction RctSig} {amount : UInt64}
    {keyOffsets : List UInt64} {kImage : KeyImage} {rest : List TxIn} {bs : List UInt8}
    (hfits : tx.Fits) (hvin : tx.vin = .toKey amount keyOffsets kImage :: rest)
    (htype : hasShortEcdhInfo tx.rctSignatures.type = true)
    (hproof : tx.rctSignatures.HasShortestProof tx.vout.length)
    (h : tx.rctSignatures.savePrunable tx.toTransactionPrefix false = all bs) :
    bs.length = 1 + (32 * ((if isRctBulletproofPlus tx.rctSignatures.type then 6 else 9) +
        2 * (countRounds tx.vout.length 32 0 + 6)) + 2) +
        signaturesSize tx.rctSignatures.type tx.vin.length keyOffsets.length +
        32 * tx.vin.length ∧
      tx.rctSignatures.weightClawback tx.toTransactionPrefix =
        getTransactionWeightClawback tx.rctSignatures.type tx.vout.length
          (1 <<< countRounds tx.vout.length 32 0) := by
  obtain ⟨hnull, hpseudo, hkind⟩ := hasShortEcdhInfo_cases htype
  have hfew := countRounds_le tx.vout.length 32 0
  unfold RctSig.savePrunable at h
  rw [if_pos (by simpa using hnull)] at h
  obtain ⟨hsmall, h⟩ := Written.check_eq_all_iff.mp h
  rw [if_neg hnull] at h
  obtain ⟨-, h⟩ := Written.check_eq_all_iff.mp h
  obtain ⟨r, u, hr, hu, rfl⟩ := Written.andThen_eq_all_iff.mp h
  obtain ⟨s, t, hs, ht, rfl⟩ := Written.andThen_eq_all_iff.mp hu
  rw [if_pos hpseudo] at ht
  simp only [Bool.and_eq_true, decide_eq_true_eq] at hsmall
  have hring := mixin_add_one hfits hvin hsmall.2
  obtain ⟨hrlen, hpadded⟩ := length_of_saveRangeProofs htype hproof (by omega) hr
  refine ⟨?_, ?_⟩
  · rw [List.length_append, List.length_append, hrlen, length_of_saveSignatures htype hs,
      length_of_saveKeyArray ht, hring]
    omega
  · unfold RctSig.weightClawback
    rw [hkind, hpadded]
    rfl

/-- A pruned transaction weighs what the whole transaction weighs. -/
theorem getPrunedTransactionWeight_eq {tx : Transaction RctSig} {amount : UInt64}
    {keyOffsets : List UInt64} {kImage : KeyImage} {rest : List TxIn} (hfits : tx.Fits)
    (hversion : tx.version = 2) (hpruned : tx.pruned = false)
    (hvin : tx.vin = .toKey amount keyOffsets kImage :: rest)
    (htype : hasShortEcdhInfo tx.rctSignatures.type = true)
    (hproof : tx.rctSignatures.HasShortestProof tx.vout.length)
    (hsaved : (tx.save (ringCt scalarmultInvEight)).2 = true) :
    getPrunedTransactionWeight scalarmultInvEight { tx with pruned := true } =
      getTransactionWeight tx (txToBlob scalarmultInvEight tx).length := by
  have hne : tx.vin ≠ [] := by rw [hvin]; exact List.cons_ne_nil _ _
  obtain ⟨p, b, q, hparts⟩ := Transaction.exists_parts hversion hne hpruned hsaved
  obtain ⟨hlen, hclawback⟩ := length_of_savePrunable hfits hvin htype hproof hparts.prunable
  obtain ⟨-, -, hkind⟩ := hasShortEcdhInfo_cases htype
  have hone : tx.version ≠ 1 := by rw [hversion]; decide
  have hold : ¬ tx.version < 2 := by rw [hversion]; decide
  -- Without the prunable part the blob ends with the base.
  have hblob : ({ tx with pruned := true } : Transaction RctSig).toBlob
      (ringCt scalarmultInvEight) = p ++ b := by
    have hhead : ({ tx with pruned := true } : Transaction RctSig).toTransactionPrefix.save =
        all p := hparts.front
    rw [Transaction.toBlob, Transaction.save_ringCt _ hhead hone hne]
    change ((all p).andThen ((tx.rctSignatures.saveBase tx.vin.length tx.vout.length).andThen
      (all []))).1 = _
    rw [hparts.base]
    simp [Written.andThen, all]
  have hwhole : (txToBlob scalarmultInvEight tx).length = (p ++ b).length + q.length := by
    rw [hparts.blob_eq, ← List.append_assoc, List.length_append]
  unfold getPrunedTransactionWeight getTransactionWeight
  simp only [hblob, hpruned, hold, htype, hkind, hvin, hclawback, Bool.not_true,
    Bool.false_eq_true, if_false]
  rw [hwhole, hlen, hvin]
  congr 1
  omega

theorem getPrunedTransactionWeight_eq_sample :
    getPrunedTransactionWeight some { clsagTx with pruned := true } =
        getTransactionWeight clsagTx (txToBlob some clsagTx).length ∧
      getTransactionWeight clsagTx (txToBlob some clsagTx).length =
        some ((txToBlob some clsagTx).length + 460) :=
  have hproof : clsagTx.rctSignatures.HasShortestProof clsagTx.vout.length :=
    ⟨_, rfl, by decide⟩
  ⟨getPrunedTransactionWeight_eq clsagTx_fits rfl rfl rfl (by decide) hproof (by decide +kernel),
    by decide +kernel⟩

end Agreement

end RandomLite.Monero.Format
