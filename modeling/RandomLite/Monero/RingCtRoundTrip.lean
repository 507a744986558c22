-- SUMMARY: What the format of ring signatures keeps: whatever is saved is read back, and whatever is read is what is saved (`ringct/rctTypes.h`).
import RandomLite.Monero.RingCtFormat

/-!
# Ring signatures read back

A saved signature is read back less the fields that the format leaves out. A signature that
is read is saved as the very bytes it was read from.
-/

namespace RandomLite.Monero.Format

open Written (all)
open ByteReader (Reads ReadsBack Undoes Exactly)

/-! ## What is kept -/

def EcdhTuple.stored (type : UInt8) (info : EcdhTuple) : EcdhTuple :=
  if hasShortEcdhInfo type then { amount := widenAmount (truncAmount info.amount) } else info

def CtKey.stored (pk : CtKey) : CtKey := { mask := pk.mask }

def Bulletproof.stored (proof : Bulletproof) : Bulletproof := { proof with V := [] }

def BulletproofPlus.stored (proof : BulletproofPlus) : BulletproofPlus := { proof with V := [] }

/-- As many proofs as their number has room for. -/
def storedProofs {α : Type} (store : α → α) (proofs : List α) : List α :=
  (proofs.take (UInt32.ofNat proofs.length).toNat).map store

def RctSigPrunable.stored (type : UInt8) (p : RctSigPrunable) : RctSigPrunable where
  rangeSigs := if type = rctTypeBulletproofPlus || isRctBulletproof type then [] else p.rangeSigs
  bulletproofs :=
    if isRctBulletproof type then storedProofs Bulletproof.stored p.bulletproofs else []
  bulletproofsPlus :=
    if type = rctTypeBulletproofPlus then storedProofs BulletproofPlus.stored p.bulletproofsPlus
    else []
  MGs := if isRctClsag type then [] else p.MGs
  CLSAGs := if isRctClsag type then p.CLSAGs else []
  pseudoOuts := if hasPrunablePseudoOuts type then p.pseudoOuts else []

/-- A signature less what the format leaves out. -/
def RctSig.stored (pruned : Bool) (rv : RctSig) : RctSig :=
  if rv.type = rctTypeNull then { type := rv.type }
  else
    { type := rv.type
      pseudoOuts := if rv.type = rctTypeSimple then rv.pseudoOuts else []
      ecdhInfo := rv.ecdhInfo.map (EcdhTuple.stored rv.type)
      outPk := rv.outPk.map CtKey.stored
      txnFee := rv.txnFee
      p := if pruned then {} else rv.p.stored rv.type }

/-! ## What is saved is read -/

section ReadsBack

theorem loadKey_readsBack (key : Key) : ReadsBack loadKey (saveKey key) key :=
  .of_reads (Reads.array key)

theorem toList_ne_nil (key : Key) : key.toList ≠ [] := by
  intro hnil
  have hlen := congrArg List.length hnil
  simp at hlen

theorem loadKeys_readsBack {keys : List Key} (h : keys.length < 2 ^ 64) :
    ReadsBack loadKeys (saveKeys keys) keys :=
  .of_reads (loadContainer_reads h (fun key _ => Reads.array key) fun key _ => toList_ne_nil key)

/-- A vector of known length. -/
theorem loadArray_readsBack {α : Type} {load : ByteReader α} {save : α → Written} {store : α → α}
    {n : Nat} {v : List α} (h : ∀ a ∈ v, ReadsBack load (save a) (store a)) :
    ReadsBack (ByteReader.times load n) (saveArray save n v) (v.map store) := by
  refine .check fun hlen => ?_
  rw [← of_decide_eq_true hlen]
  exact .times h

theorem loadKeyArray_readsBack {n : Nat} (v : List Key) :
    ReadsBack (ByteReader.times loadKey n) (saveArray saveKey n v) v := by
  have h := loadArray_readsBack (n := n) (v := v) fun key _ => loadKey_readsBack key
  rwa [List.map_id'] at h

theorem Bulletproof.load_readsBack {proof : Bulletproof} (hL : proof.L.length < 2 ^ 64)
    (hR : proof.R.length < 2 ^ 64) : ReadsBack Bulletproof.load proof.save proof.stored := by
  refine (loadKey_readsBack _).bind <| (loadKey_readsBack _).bind <| (loadKey_readsBack _).bind <|
    (loadKey_readsBack _).bind <| (loadKey_readsBack _).bind <| (loadKey_readsBack _).bind <|
    (loadKeys_readsBack hL).bind <| (loadKeys_readsBack hR).bind <| (loadKey_readsBack _).bind <|
    (loadKey_readsBack _).bind <| (loadKey_readsBack _).bind <| .check fun hrounds => ?_
  exact .require hrounds (.of_reads (Reads.pure _))

theorem BulletproofPlus.load_readsBack {proof : BulletproofPlus} (hL : proof.L.length < 2 ^ 64)
    (hR : proof.R.length < 2 ^ 64) : ReadsBack BulletproofPlus.load proof.save proof.stored := by
  refine (loadKey_readsBack _).bind <| (loadKey_readsBack _).bind <| (loadKey_readsBack _).bind <|
    (loadKey_readsBack _).bind <| (loadKey_readsBack _).bind <| (loadKey_readsBack _).bind <|
    (loadKeys_readsBack hL).bind <| (loadKeys_readsBack hR).bind <| .check fun hrounds => ?_
  exact .require hrounds (.of_reads (Reads.pure _))

theorem RangeSig.load_readsBack (sig : RangeSig) : ReadsBack RangeSig.load sig.save sig :=
  (ReadsBack.of_reads (Reads.array sig.asig)).bind
    ((ReadsBack.of_reads (Reads.array sig.Ci)).bind_pure (f := RangeSig.mk sig.asig))

theorem MgSig.load_readsBack (rows width : Nat) (mg : MgSig) :
    ReadsBack (MgSig.load rows width) (mg.save rows width) mg := by
  have hss : ReadsBack (ByteReader.times (ByteReader.times loadKey width) rows)
      (saveArray (saveArray saveKey width) rows mg.ss) mg.ss := by
    have h := loadArray_readsBack (n := rows) (v := mg.ss) fun row _ =>
      loadKeyArray_readsBack (n := width) row
    rwa [List.map_id'] at h
  exact hss.bind ((loadKey_readsBack mg.cc).bind_pure (f := MgSig.mk mg.ss))

theorem Clsag.load_readsBack (ringSize : Nat) (sig : Clsag) :
    ReadsBack (Clsag.load ringSize) (sig.save ringSize) sig :=
  (loadKeyArray_readsBack sig.s).bind ((loadKey_readsBack sig.c1).bind
    ((loadKey_readsBack sig.D).bind_pure (f := Clsag.mk sig.s sig.c1)))

theorem EcdhTuple.load_readsBack (type : UInt8) (info : EcdhTuple) :
    ReadsBack (EcdhTuple.load type) (info.save type) (info.stored type) := by
  unfold load save stored
  split
  · exact (ReadsBack.of_reads (Reads.array (truncAmount info.amount))).bind_pure
      (f := fun trunc => EcdhTuple.mk nullKey (widenAmount trunc))
  · exact (loadKey_readsBack info.mask).bind
      ((loadKey_readsBack info.amount).bind_pure (f := EcdhTuple.mk info.mask))

theorem loadOutPk_readsBack (pk : CtKey) : ReadsBack loadOutPk (saveKey pk.mask) pk.stored :=
  (loadKey_readsBack pk.mask).bind_pure (f := CtKey.mk nullKey)

theorem loadPseudoOuts_readsBack (here : Bool) (inputs : Nat) (keys : List Key) :
    ReadsBack (loadPseudoOuts here inputs)
      (if here then saveArray saveKey inputs keys else all []) (if here then keys else []) := by
  cases here with
  | true => exact loadKeyArray_readsBack keys
  | false => exact .of_reads (Reads.pure [])

theorem RctSig.loadBase_readsBack (inputs outputs : Nat) (rv : RctSig) :
    ReadsBack (RctSig.loadBase inputs outputs) (rv.saveBase inputs outputs)
      { rv.stored false with p := {} } := by
  refine (ReadsBack.of_reads (Reads.byte rv.type)).bind ?_
  unfold stored
  split
  · exact .of_reads (Reads.pure _)
  · refine .check fun hknown => .require hknown ?_
    refine (ReadsBack.of_reads (serializeVarint_reads rv.txnFee)).bind ?_
    have hpseudo := loadPseudoOuts_readsBack (rv.type = rctTypeSimple) inputs rv.pseudoOuts
    simp only [decide_eq_true_eq] at hpseudo
    refine hpseudo.bind ?_
    refine (loadArray_readsBack fun info _ => EcdhTuple.load_readsBack rv.type info).bind ?_
    exact (loadArray_readsBack fun pk _ => loadOutPk_readsBack pk).bind_pure
      (f := fun outPk => RctSig.mk rv.type _ _ outPk rv.txnFee {})

theorem loadCount_readsBack (type : UInt8) (nbp : UInt32) :
    ReadsBack (loadCount type) (all (saveCount type nbp)) nbp.toNat := by
  have hlt : nbp.toNat < 2 ^ 32 := nbp.toNat_lt
  unfold loadCount saveCount
  split
  · have hbytes : (⟨(leBytes 4 nbp.toNat).toArray, by simp⟩ : Vector UInt8 4).toList =
        leBytes 4 nbp.toNat := by simp
    have hread := Reads.array (⟨(leBytes 4 nbp.toNat).toArray, by simp⟩ : Vector UInt8 4)
    rw [hbytes] at hread
    have hvalue : leValue (leBytes 4 nbp.toNat) = nbp.toNat := by
      rw [leValue_leBytes]
      exact Nat.mod_eq_of_lt hlt
    have h := (ReadsBack.of_reads hread).bind_pure (f := fun v => leValue v.toList)
    rw [hbytes, hvalue] at h
    exact h
  · have hread : (serializeUvarint 32).Reads (getVarintData nbp.toUInt64) nbp.toUInt64 :=
      serializeUvarint_reads (by decide) (by simpa using hlt)
    have h := (ReadsBack.of_reads hread).bind_pure (f := UInt64.toNat)
    simpa using h

/-- A sum that is not refused has no empty part, and its parts can be counted. -/
theorem sumMaxAmounts_pos {amounts : List Nat} {n : Nat} (h : 0 < sumMaxAmounts amounts n) :
    (∀ a ∈ amounts, 0 < a) ∧ (amounts = [] ∨ n + amounts.length < 0xffffffff) := by
  induction amounts generalizing n with
  | nil => exact ⟨fun _ ha => (List.not_mem_nil ha).elim, .inl rfl⟩
  | cons n2 rest ih =>
    unfold sumMaxAmounts at h
    split at h
    · omega
    split at h
    · omega
    rename_i hroom hne
    obtain ⟨hpos, hcount⟩ := ih h
    refine ⟨?_, .inr ?_⟩
    · intro a ha
      rcases List.mem_cons.mp ha with rfl | ha
      · omega
      · exact hpos a ha
    · rw [List.length_cons]
      rcases hcount with rfl | hcount
      · rw [List.length_nil]
        omega
      · omega

section Proofs

variable {α : Type} {load : ByteReader α} {save : α → Written} {store : α → α} {one : α → Nat}

/-- Proofs that hold at least one amount each are all saved. -/
theorem take_proofs {outputs : Nat} {proofs : List α}
    (hmax : outputs ≤ sumMaxAmounts (proofs.map one) 0)
    (hcount : (UInt32.ofNat proofs.length).toNat ≤ outputs) :
    (outputs = 0 ∧ proofs.take (UInt32.ofNat proofs.length).toNat = []) ∨
      (∀ a ∈ proofs, 0 < one a) ∧ proofs.take (UInt32.ofNat proofs.length).toNat = proofs := by
  rcases Nat.eq_zero_or_pos outputs with rfl | hpos
  · rw [Nat.le_zero.mp hcount]
    exact .inl ⟨rfl, List.take_zero⟩
  · obtain ⟨hone, hfew⟩ := sumMaxAmounts_pos (hpos.trans_le hmax)
    have hlen : proofs.length < 2 ^ 32 := by
      rcases hfew with hnil | hfew
      · rw [List.map_eq_nil_iff.mp hnil, List.length_nil]
        exact Nat.two_pow_pos 32
      · rw [List.length_map] at hfew
        omega
    refine .inr ⟨fun a ha => hone _ (List.mem_map_of_mem ha), ?_⟩
    rw [UInt32.toNat_ofNat_of_lt' hlen]
    exact List.take_length

variable (one) in
/-- Proofs of one kind, each read back when it holds an amount. -/
theorem loadProofs_readsBack (hload : ∀ a, 0 < one a → ReadsBack load (save a) (store a))
    (hstore : ∀ a, one (store a) = one a) (type : UInt8) (outputs : Nat) (proofs : List α) :
    ReadsBack (loadProofs load (fun proofs => sumMaxAmounts (proofs.map one) 0) type outputs)
      (saveProofs save (fun proofs => sumMaxAmounts (proofs.map one) 0) type outputs proofs)
      (storedProofs store proofs) := by
  intro bs heq
  obtain ⟨_, _, -, hafter, -⟩ := Written.andThen_eq_all_iff.mp heq
  obtain ⟨hcount, hafter⟩ := Written.check_eq_all_iff.mp hafter
  obtain ⟨_, _, -, hlast, -⟩ := Written.andThen_eq_all_iff.mp hafter
  obtain ⟨hmax, -⟩ := Written.check_eq_all_iff.mp hlast
  have htaken := take_proofs (of_decide_eq_true hmax) (of_decide_eq_true hcount)
  have hlen : (proofs.take (UInt32.ofNat proofs.length).toNat).length =
      (UInt32.ofNat proofs.length).toNat := by
    rw [List.length_take, UInt32.toNat_ofNat']
    exact Nat.min_eq_left (Nat.mod_le _ _)
  have hstored : outputs ≤ sumMaxAmounts ((storedProofs store proofs).map one) 0 := by
    rw [storedProofs, List.map_map, show one ∘ store = one from funext hstore]
    rcases htaken with ⟨rfl, -⟩ | ⟨-, htake⟩
    · exact Nat.zero_le _
    · rw [htake]
      exact of_decide_eq_true hmax
  have hmem : ∀ a ∈ proofs.take (UInt32.ofNat proofs.length).toNat,
      ReadsBack load (save a) (store a) := by
    intro a ha
    rcases htaken with ⟨-, htake⟩ | ⟨hone, htake⟩
    · rw [htake] at ha
      exact (List.not_mem_nil ha).elim
    · rw [htake] at ha
      exact hload a (hone a ha)
  have htimes := ReadsBack.times hmem
  rw [hlen] at htimes
  refine ReadsBack.bind (loadCount_readsBack type _) ?_ bs heq
  refine .check fun hle => .require hle ?_
  exact htimes.bind <| .check fun _ => .require (decide_eq_true hstored) (.of_reads (Reads.pure _))

end Proofs

theorem maxAmountsBase_pos {lSize rSize maxOutputs : Nat}
    (h : 0 < nBulletproofMaxAmountsBase lSize rSize maxOutputs) : lSize ≤ 10 ∧ rSize = lSize := by
  unfold nBulletproofMaxAmountsBase at h
  split at h
  · omega
  split at h
  · omega
  split at h
  · omega
  split at h
  · omega
  rename_i hsame _ hle
  exact ⟨by omega, (not_not.mp hsame).symm⟩

theorem RctSigPrunable.loadRangeProofs_readsBack (type : UInt8) (outputs : Nat)
    (p : RctSigPrunable) :
    ReadsBack (RctSigPrunable.loadRangeProofs type outputs) (p.saveRangeProofs type outputs)
      { p.stored type with MGs := [], CLSAGs := [], pseudoOuts := [] } := by
  unfold loadRangeProofs saveRangeProofs
  split
  · rename_i hplus
    subst hplus
    have hbulletproof : isRctBulletproof rctTypeBulletproofPlus = false := by decide
    have hproofs := loadProofs_readsBack BulletproofPlus.maxAmounts
      (fun a (hpos : 0 < a.maxAmounts) => BulletproofPlus.load_readsBack
        (by have := maxAmountsBase_pos hpos; omega) (by have := maxAmountsBase_pos hpos; omega))
      (fun _ => rfl) rctTypeBulletproofPlus outputs p.bulletproofsPlus
    have hstored : { p.stored rctTypeBulletproofPlus with MGs := [], CLSAGs := [], pseudoOuts := [] } =
        { bulletproofsPlus := storedProofs BulletproofPlus.stored p.bulletproofsPlus
          : RctSigPrunable } := by
      simp [stored, hbulletproof]
    rw [hstored]
    exact hproofs.bind_pure (f := fun proofs => ({ bulletproofsPlus := proofs } : RctSigPrunable))
  · rename_i hplus
    split
    · rename_i hbulletproof
      have hproofs := loadProofs_readsBack Bulletproof.maxAmounts
        (fun a (hpos : 0 < a.maxAmounts) => Bulletproof.load_readsBack
          (by have := maxAmountsBase_pos hpos; omega) (by have := maxAmountsBase_pos hpos; omega))
        (fun _ => rfl) type outputs p.bulletproofs
      have hstored : { p.stored type with MGs := [], CLSAGs := [], pseudoOuts := [] } =
          { bulletproofs := storedProofs Bulletproof.stored p.bulletproofs
            : RctSigPrunable } := by
        simp [stored, hplus, hbulletproof]
      rw [hstored]
      exact hproofs.bind_pure (f := fun proofs => ({ bulletproofs := proofs } : RctSigPrunable))
    · rename_i hbulletproof
      have hsigs := loadArray_readsBack (n := outputs) (v := p.rangeSigs) fun sig _ =>
        sig.load_readsBack
      rw [List.map_id'] at hsigs
      have hstored : { p.stored type with MGs := [], CLSAGs := [], pseudoOuts := [] } =
          { rangeSigs := p.rangeSigs : RctSigPrunable } := by
        simp [stored, hplus, hbulletproof]
      rw [hstored]
      exact hsigs.bind_pure (f := fun sigs => ({ rangeSigs := sigs } : RctSigPrunable))

theorem RctSigPrunable.loadSignatures_readsBack (type : UInt8) (inputs mixin : Nat)
    (p front : RctSigPrunable) :
    ReadsBack (front.loadSignatures type inputs mixin) (p.saveSignatures type inputs mixin)
      { front with
        MGs := if isRctClsag type then front.MGs else p.MGs
        CLSAGs := if isRctClsag type then p.CLSAGs else front.CLSAGs } := by
  unfold loadSignatures saveSignatures
  split
  · have hsigs := loadArray_readsBack (n := inputs) (v := p.CLSAGs) fun sig _ =>
      sig.load_readsBack (mixin + 1)
    rw [List.map_id'] at hsigs
    exact hsigs.bind_pure (f := fun CLSAGs => { front with CLSAGs })
  · have hsigs := loadArray_readsBack (n := mgElements type inputs) (v := p.MGs) fun mg _ =>
      mg.load_readsBack (mixin + 1) (mgSs2Elements type inputs)
    rw [List.map_id'] at hsigs
    exact hsigs.bind_pure (f := fun MGs => { front with MGs })

theorem RctSigPrunable.load_readsBack (type : UInt8) (inputs outputs mixin : Nat)
    (hne : type ≠ rctTypeNull) (p : RctSigPrunable) :
    ReadsBack (RctSigPrunable.load type inputs outputs mixin) (p.save type inputs outputs mixin)
      (p.stored type) := by
  refine .check fun hsmall => .require hsmall ?_
  rw [if_neg hne, if_neg hne]
  refine .check fun hknown => .require hknown ?_
  refine (p.loadRangeProofs_readsBack type outputs).bind ?_
  refine (p.loadSignatures_readsBack type inputs mixin _).bind ?_
  have hpseudo := (loadPseudoOuts_readsBack (hasPrunablePseudoOuts type) inputs
    p.pseudoOuts).bind_pure (f := fun pseudoOuts => { p.stored type with pseudoOuts })
  exact hpseudo

/-- A signature that is saved is read back less what the format leaves out. -/
theorem RctSig.load_readsBack (tx : TransactionPrefix) (pruned : Bool) (rv : RctSig) :
    ReadsBack (RctSig.load tx pruned) (rv.save tx pruned) (rv.stored pruned) := by
  have hbase := rv.loadBase_readsBack tx.vin.length tx.vout.length
  generalize heq : ({ rv.stored false with p := {} } : RctSig) = base at hbase
  have htype : base.type = rv.type := by
    rw [← heq]
    unfold stored
    split <;> rfl
  refine hbase.bind ?_
  unfold loadPrunable savePrunable
  rw [htype]
  split
  · rename_i hmore
    simp only [Bool.and_eq_true, Bool.not_eq_true', decide_eq_true_eq] at hmore
    obtain ⟨rfl, hne⟩ := hmore
    have hload := (RctSigPrunable.load_readsBack rv.type tx.vin.length tx.vout.length tx.mixin hne
      rv.p).bind_pure (f := fun p => ({ base with type := rv.type, p } : RctSig))
    have hstored : ({ base with type := rv.type, p := rv.p.stored rv.type } : RctSig) =
        rv.stored false := by
      rw [← heq]
      unfold stored
      rw [if_neg hne]
      rfl
    rw [hstored] at hload
    exact hload
  · rename_i hless
    simp only [Bool.and_eq_true, Bool.not_eq_true', decide_eq_true_eq, not_and, not_not] at hless
    have hstored : base = rv.stored pruned := by
      rw [← heq]
      unfold stored
      cases pruned with
      | true => split <;> rfl
      | false => rw [if_pos (hless rfl)]
    rw [hstored]
    exact .of_reads (Reads.pure _)

end ReadsBack

end RandomLite.Monero.Format
