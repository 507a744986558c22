-- SUMMARY: Transactions have one binary form (`cryptonote_basic/cryptonote_basic.h`): a blob that is accepted is the blob that is saved, but for a number cut short at its end.
import RandomLite.Monero.RingCtRoundTrip

/-!
# Canonical transactions

What an archive loads, it saves as the bytes it was loaded from. The one exception is that
of `read_varint`: a blob may end within its last number.
-/

namespace RandomLite.Monero.Format

open Written (all)
open ByteReader (Undoes Exactly CutShort)

/-! ## Prefixes -/

theorem loadBytes_undoes : Undoes CutVarint (loadContainer ByteReader.byte) fun bytes p =>
    p = saveContainer (fun byte => [byte]) bytes :=
  (loadContainer_undoes (.of_exactly Exactly.byte)).mono fun _ _ h => h.1

theorem TxOutToScript.load_undoes :
    Undoes CutVarint TxOutToScript.load fun target p => p = target.save := by
  have hkeys := loadContainer_undoes (.of_exactly (Exactly.array 32))
  refine hkeys.bind_closed (fun _ _ _ => rfl) fun keys p ⟨hp, _⟩ => ?_
  refine loadBytes_undoes.bind_pure fun script q hq => ?_
  rw [hp, hq]
  rfl

theorem TxOutTarget.load_undoes :
    Undoes CutVarint TxOutTarget.load fun target p => p = target.save := by
  refine Undoes.bind_exactly Exactly.byte fun tag p hp => ?_
  subst hp
  -- One case for each tag, in the order in which the reader tests for them.
  split
  · rename_i htag
    refine TxOutToScript.load_undoes.bind_pure fun target p hp => ?_
    rw [htag, hp]
    rfl
  split
  · rename_i htag
    refine (Undoes.of_exactly (Exactly.array 32)).bind_pure fun hash p hp => ?_
    rw [htag, hp]
    rfl
  split
  · rename_i htag
    refine (Undoes.of_exactly (Exactly.array 32)).bind_pure fun key p hp => ?_
    rw [htag, hp]
    rfl
  split
  · rename_i htag
    refine Undoes.bind_exactly (Exactly.array 32) fun key p hp => ?_
    refine (Undoes.of_exactly Exactly.byte).bind_pure fun viewTag q hq => ?_
    rw [htag, hp, hq]
    rfl
  · exact Undoes.fail

theorem TxOut.load_undoes : Undoes CutVarint TxOut.load fun out p => p = out.save := by
  refine serializeVarint_undoes.bind_closed (fun _ _ _ => rfl) fun amount p hp => ?_
  refine TxOutTarget.load_undoes.bind_pure fun target q hq => ?_
  rw [hp, hq]
  rfl

theorem TxIn.load_undoes : Undoes CutVarint TxIn.load fun input p => p = input.save := by
  refine Undoes.bind_exactly Exactly.byte fun tag p hp => ?_
  subst hp
  split
  · rename_i htag
    refine serializeVarint_undoes.bind_pure fun height p hp => ?_
    rw [htag, hp]
    rfl
  split
  · rename_i htag
    refine Undoes.bind_exactly (Exactly.array 32) fun prev p hp => ?_
    refine serializeVarint_undoes.bind_closed (fun _ _ _ => rfl) fun prevout q hq => ?_
    refine loadBytes_undoes.bind_pure fun sigset s hs => ?_
    rw [htag, hp, hq, hs]
    rfl
  split
  · rename_i htag
    refine Undoes.bind_exactly (Exactly.array 32) fun prev p hp => ?_
    refine serializeVarint_undoes.bind_closed (fun _ _ _ => rfl) fun prevout q hq => ?_
    refine TxOutToScript.load_undoes.bind_closed (fun _ _ _ => rfl) fun script s hs => ?_
    refine loadBytes_undoes.bind_pure fun sigset t ht => ?_
    rw [htag, hp, hq, hs, ht]
    rfl
  split
  · rename_i htag
    have hoffsets := loadContainer_undoes serializeVarint_undoes
    refine serializeVarint_undoes.bind_closed (fun _ _ _ => rfl) fun amount p hp => ?_
    refine hoffsets.bind_closed (fun _ _ _ => rfl) fun keyOffsets q ⟨hq, _⟩ => ?_
    refine (Undoes.of_exactly (Exactly.array 32)).bind_pure fun kImage s hs => ?_
    rw [htag, hp, hq, hs]
    rfl
  · exact Undoes.fail

/-- Nothing after the version can be read from nothing. -/
theorem TransactionPrefix.load_afterVersion (version : UInt64) :
    (do
      ByteReader.require (!(version = 0 || currentTransactionVersion < version))
      let unlockTime ← serializeVarint
      let vin ← loadContainer TxIn.load
      let vout ← loadContainer TxOut.load
      let extra ← loadContainer ByteReader.byte
      return { version, unlockTime, vin, vout, extra } : ByteReader TransactionPrefix) [] =
        none := by
  cases hknown : (!(decide (version = 0) || decide (currentTransactionVersion < version))) <;> rfl

theorem TransactionPrefix.load_undoes :
    Undoes CutVarint TransactionPrefix.load fun tx p => tx.save = all p := by
  have hvin := loadContainer_undoes TxIn.load_undoes
  have hvout := loadContainer_undoes TxOut.load_undoes
  -- Something is read behind every number but the length of `extra`, so no other is cut short.
  refine serializeVarint_undoes.bind_closed (fun version _ _ => load_afterVersion version)
    fun version p hp => ?_
  refine Undoes.bind_exactly (Exactly.require _) fun _ p' ⟨hp', hknown⟩ => ?_
  refine serializeVarint_undoes.bind_closed (fun _ _ _ => rfl) fun unlockTime pu hu => ?_
  refine hvin.bind_closed (fun _ _ _ => rfl) fun vin pi ⟨hi, _⟩ => ?_
  refine hvout.bind_closed (fun _ _ _ => rfl) fun vout po ⟨ho, _⟩ => ?_
  refine loadBytes_undoes.bind_pure fun extra pe he => ?_
  rw [Bool.not_eq_true'] at hknown
  unfold save
  rw [hknown, hp, hp', hu, hi, ho, he]
  rfl

/-! ## Signatures of version 1 -/

theorem loadSignature_exactly (input : TxIn) :
    Exactly (loadSignature input) fun own p =>
      own.length = getSignatureSize input ∧ p = own.flatMap fun s => s.toList := by
  -- The number of bytes left is looked at, and none of them is read.
  refine Undoes.bind_exactly Exactly.remaining fun n p hp => ?_
  refine Undoes.bind_exactly (Exactly.require _) fun _ p' ⟨hp', _⟩ => ?_
  have harray : Exactly (ByteReader.array 64) fun (s : Signature) p => all s.toList = all p :=
    (Exactly.array 64).mono fun s p hp => by rw [hp]
  refine (harray.times (getSignatureSize input)).mono fun own q ⟨hlen, hq⟩ => ⟨hlen, ?_⟩
  rw [Written.each_all] at hq
  rw [hp, hp', ← (Prod.mk.inj hq).1]
  rfl

theorem loadSignatures_exactly (vin : List TxIn) :
    Exactly (loadSignatures vin) fun signatures p =>
      signatures.map List.length = vin.map getSignatureSize ∧
        p = signatures.flatMap fun own => own.flatMap fun s => s.toList := by
  induction vin with
  | nil => exact Undoes.pure ⟨rfl, rfl⟩
  | cons input vin ih =>
    refine Undoes.bind_exactly (loadSignature_exactly input) fun own p ⟨hlen, hp⟩ => ?_
    refine ih.bind_pure fun signatures q ⟨hlens, hq⟩ => ⟨?_, ?_⟩
    · rw [List.map_cons, List.map_cons, hlen, hlens]
    · rw [hp, hq, List.flatMap_cons]

/-! ## Ring signatures -/

theorem loadKey_exactly : Exactly loadKey fun key p => p = key.toList := Exactly.array 32

theorem loadKeys_undoes : Undoes CutVarint loadKeys fun keys p =>
    p = saveContainer (fun key => key.toList) keys :=
  (loadContainer_undoes (.of_exactly loadKey_exactly)).mono fun _ _ h => h.1

/-- A vector of known length. -/
theorem loadArray_undoes {α : Type} {Cut : List UInt8 → List UInt8 → Prop} {load : ByteReader α}
    {save : α → Written} (h : Undoes Cut load fun a p => save a = all p) (n : Nat) :
    Undoes Cut (ByteReader.times load n) fun v p => saveArray save n v = all p := by
  refine (h.times n).mono fun v p ⟨hlen, hp⟩ => ?_
  rw [saveArray, hlen, decide_eq_true rfl]
  exact hp

theorem loadKeyArray_exactly (n : Nat) :
    Exactly (ByteReader.times loadKey n) fun keys p => saveArray saveKey n keys = all p :=
  loadArray_undoes (loadKey_exactly.mono fun key p hp => by rw [hp]; rfl) n

theorem Bulletproof.load_exactly :
    Exactly Bulletproof.load fun proof p => proof.save = all p := by
  refine Undoes.bind_exactly loadKey_exactly fun A _ hA => ?_
  refine Undoes.bind_exactly loadKey_exactly fun S _ hS => ?_
  refine Undoes.bind_exactly loadKey_exactly fun T1 _ hT1 => ?_
  refine Undoes.bind_exactly loadKey_exactly fun T2 _ hT2 => ?_
  refine Undoes.bind_exactly loadKey_exactly fun taux _ htaux => ?_
  refine Undoes.bind_exactly loadKey_exactly fun mu _ hmu => ?_
  -- Keys follow both vectors, so here a number cut short is refused.
  refine loadKeys_undoes.bind_closed (fun _ _ _ => rfl) fun L _ hL => ?_
  refine loadKeys_undoes.bind_closed (fun _ _ _ => rfl) fun R _ hR => ?_
  refine Undoes.bind_exactly loadKey_exactly fun a _ ha => ?_
  refine Undoes.bind_exactly loadKey_exactly fun b _ hb => ?_
  refine Undoes.bind_exactly loadKey_exactly fun t _ ht => ?_
  refine Undoes.bind_exactly (Exactly.require _) fun _ _ ⟨hnone, hrounds⟩ => Undoes.pure ?_
  subst hA hS hT1 hT2 htaux hmu hL hR ha hb ht hnone
  unfold save
  rw [hrounds]
  rfl

theorem BulletproofPlus.load_undoes :
    Undoes CutVarint BulletproofPlus.load fun proof p => proof.save = all p := by
  refine Undoes.bind_exactly loadKey_exactly fun A _ hA => ?_
  refine Undoes.bind_exactly loadKey_exactly fun A1 _ hA1 => ?_
  refine Undoes.bind_exactly loadKey_exactly fun B _ hB => ?_
  refine Undoes.bind_exactly loadKey_exactly fun r1 _ hr1 => ?_
  refine Undoes.bind_exactly loadKey_exactly fun s1 _ hs1 => ?_
  refine Undoes.bind_exactly loadKey_exactly fun d1 _ hd1 => ?_
  refine loadKeys_undoes.bind_closed (fun _ _ _ => rfl) fun L _ hL => ?_
  -- The last number of a proof may be cut short: nothing but the check follows `R`.
  refine loadKeys_undoes.bind fun R _ hR => ?_
  refine Undoes.bind_exactly (Exactly.require _) fun _ _ ⟨hnone, hrounds⟩ => Undoes.pure ?_
  subst hA hA1 hB hr1 hs1 hd1 hL hR hnone
  unfold save
  rw [hrounds]
  rfl

theorem RangeSig.load_exactly : Exactly RangeSig.load fun sig p => sig.save = all p := by
  refine Undoes.bind_exactly (Exactly.array 4128) fun asig _ hasig => ?_
  refine (Exactly.array 2048).bind_pure fun Ci _ hCi => ?_
  subst hasig hCi
  rfl

theorem MgSig.load_exactly (rows width : Nat) :
    Exactly (MgSig.load rows width) fun mg p => mg.save rows width = all p := by
  refine Undoes.bind_exactly (loadArray_undoes (loadKeyArray_exactly width) rows)
    fun ss _ hss => ?_
  refine loadKey_exactly.bind_pure fun cc _ hcc => ?_
  unfold save
  rw [hss, hcc]
  rfl

theorem Clsag.load_exactly (ringSize : Nat) :
    Exactly (Clsag.load ringSize) fun sig p => sig.save ringSize = all p := by
  refine Undoes.bind_exactly (loadKeyArray_exactly ringSize) fun s _ hs => ?_
  refine Undoes.bind_exactly loadKey_exactly fun c1 _ hc1 => ?_
  refine loadKey_exactly.bind_pure fun D _ hD => ?_
  unfold save
  rw [hs, hc1, hD]
  rfl

theorem truncAmount_widenAmount (trunc : Vector UInt8 8) :
    truncAmount (widenAmount trunc) = trunc := by
  apply Vector.ext
  intro i hi
  simp [truncAmount, widenAmount]

theorem EcdhTuple.load_exactly (type : UInt8) :
    Exactly (EcdhTuple.load type) fun info p => info.save type = all p := by
  unfold load save
  split
  · refine (Exactly.array 8).bind_pure fun trunc p hp => ?_
    rw [truncAmount_widenAmount, hp]
  · refine Undoes.bind_exactly loadKey_exactly fun mask p hp => ?_
    refine loadKey_exactly.bind_pure fun amount q hq => ?_
    rw [hp, hq]
    rfl

theorem loadOutPk_exactly : Exactly loadOutPk fun pk p => saveKey pk.mask = all p :=
  loadKey_exactly.bind_pure fun mask p hp => by rw [hp]; rfl

theorem loadPseudoOuts_exactly (here : Bool) (inputs : Nat) :
    Exactly (loadPseudoOuts here inputs) fun keys p =>
      (if here then saveArray saveKey inputs keys else all []) = all p := by
  cases here with
  | true => exact loadKeyArray_exactly inputs
  | false => exact Undoes.pure rfl

theorem RctSig.loadBaseOf_undoes {type : UInt8} (hne : type ≠ rctTypeNull)
    (inputs outputs : Nat) :
    Undoes CutVarint (RctSig.loadBaseOf type inputs outputs) fun rv p =>
      rv.type = type ∧ rv.saveBase inputs outputs = all (type :: p) := by
  have hecdh := loadArray_undoes (EcdhTuple.load_exactly type) outputs
  have hpks := loadArray_undoes loadOutPk_exactly outputs
  refine Undoes.bind_exactly (Exactly.require _) fun _ p hp => ?_
  obtain ⟨rfl, hknown⟩ := hp
  -- Without outputs nothing may follow the fee, which is then the last number.
  refine serializeVarint_undoes.bind fun txnFee p hfee => ?_
  refine Undoes.bind_exactly (loadPseudoOuts_exactly _ _) fun pseudoOuts q hpseudo => ?_
  refine Undoes.bind_exactly hecdh fun ecdhInfo s hecdh => ?_
  refine (Undoes.of_exactly hpks).bind_pure fun outPk t hpk => ⟨rfl, ?_⟩
  simp only [decide_eq_true_eq] at hpseudo
  unfold saveBase
  rw [if_neg hne, hknown, hpseudo, hecdh, hpk, hfee]
  rfl

theorem loadCount_undoes (type : UInt8) :
    Undoes CutVarint (loadCount type) fun n p =>
      p = saveCount type (UInt32.ofNat n) ∧ n < 2 ^ 32 := by
  unfold loadCount saveCount
  split
  -- Four bytes, the lowest first, and otherwise a varint of 32 bits.
  · refine (Undoes.of_exactly (Exactly.array 4)).bind_pure fun nbp p hp => ?_
    have hlen : nbp.toList.length = 4 := Vector.length_toList
    have hlt := leValue_lt nbp.toList
    rw [hlen] at hlt
    have hback := leBytes_leValue nbp.toList
    rw [hlen] at hback
    refine ⟨?_, hlt⟩
    rw [UInt32.toNat_ofNat_of_lt' hlt, hback, hp]
  · refine (serializeUvarint_undoes (by decide) (by decide)).bind_pure fun nbp p ⟨hp, hlt⟩ => ?_
    refine ⟨?_, hlt⟩
    have hword : (UInt32.ofNat nbp.toNat).toUInt64 = nbp := by
      apply UInt64.toNat_inj.mp
      rw [UInt32.toNat_toUInt64, UInt32.toNat_ofNat_of_lt' hlt]
    rw [hword, hp]

/-- Proofs of one kind. -/
theorem loadProofs_undoes {α : Type} {load : ByteReader α} {save : α → Written}
    (h : Undoes CutVarint load fun a p => save a = all p) (maxAmounts : List α → Nat)
    (type : UInt8) (outputs : Nat) :
    Undoes CutVarint (loadProofs load maxAmounts type outputs) fun proofs p =>
      saveProofs save maxAmounts type outputs proofs = all p := by
  -- No proofs may follow the number, nor does a byte follow what the last proof ends with: both
  -- may be cut short here, and what comes behind the proofs rules it out.
  refine (loadCount_undoes type).bind fun nbp p ⟨hp, hlt⟩ => ?_
  refine Undoes.bind_exactly (Exactly.require _) fun _ _ ⟨hnone, hle⟩ => ?_
  refine (h.times nbp).bind fun proofs q ⟨hlen, hq⟩ => ?_
  refine Undoes.bind_exactly (Exactly.require _) fun _ _ ⟨hnone', hmax⟩ => Undoes.pure ?_
  subst hlen hp hnone hnone'
  have hcount : (UInt32.ofNat proofs.length).toNat = proofs.length :=
    UInt32.toNat_ofNat_of_lt' hlt
  unfold saveProofs
  simp only [hcount, List.take_length, hq, hle, hmax]
  simp [Written.check, Written.andThen, all]

theorem RctSigPrunable.loadRangeProofs_undoes (type : UInt8) (outputs : Nat) :
    Undoes CutVarint (RctSigPrunable.loadRangeProofs type outputs) fun p bs =>
      p.saveRangeProofs type outputs = all bs := by
  unfold loadRangeProofs saveRangeProofs
  split
  · exact (loadProofs_undoes BulletproofPlus.load_undoes _ type outputs).bind_pure
      fun _ _ hp => hp
  split
  · exact (loadProofs_undoes (.of_exactly Bulletproof.load_exactly) _ type outputs).bind_pure
      fun _ _ hp => hp
  · exact (Undoes.of_exactly (loadArray_undoes RangeSig.load_exactly outputs)).bind_pure
      fun _ _ hp => hp

theorem RctSigPrunable.loadSignatures_exactly (type : UInt8) (inputs mixin : Nat)
    (front : RctSigPrunable) :
    Exactly (front.loadSignatures type inputs mixin) fun p bs =>
      (∀ outputs, p.saveRangeProofs type outputs = front.saveRangeProofs type outputs) ∧
        p.saveSignatures type inputs mixin = all bs := by
  unfold loadSignatures saveSignatures
  split
  · exact (loadArray_undoes (Clsag.load_exactly _) inputs).bind_pure
      fun _ _ hp => ⟨fun _ => rfl, hp⟩
  · exact (loadArray_undoes (MgSig.load_exactly _ _) _).bind_pure
      fun _ _ hp => ⟨fun _ => rfl, hp⟩

/-- With inputs there are signatures, and none can be read from nothing. -/
theorem RctSigPrunable.loadSignatures_nil {type : UInt8} {inputs : Nat} (hinputs : 0 < inputs)
    (mixin : Nat) (front : RctSigPrunable) :
    front.loadSignatures type inputs mixin [] = none := by
  obtain ⟨n, rfl⟩ := Nat.exists_eq_add_of_lt hinputs
  unfold loadSignatures
  split
  · rw [Nat.zero_add]
    rfl
  · unfold mgElements mgSs2Elements
    split <;> rfl

theorem RctSigPrunable.loadOf_exactly (type : UInt8) {inputs : Nat} (hinputs : 0 < inputs)
    (outputs mixin : Nat) :
    Exactly (RctSigPrunable.loadOf type inputs outputs mixin) fun p bs =>
      (Written.check (isKnownRctType type) <|
        (p.saveRangeProofs type outputs).andThen <|
        (p.saveSignatures type inputs mixin).andThen <|
        if hasPrunablePseudoOuts type then saveArray saveKey inputs p.pseudoOuts else all []) =
          all bs := by
  refine Undoes.bind_exactly (Exactly.require _) fun _ _ ⟨hnone, hknown⟩ => ?_
  -- The signatures cannot be read from nothing, so no proof before them was cut short.
  refine (loadRangeProofs_undoes type outputs).bind_closed (fun front _ _ => ?_)
    fun front bs hfront => ?_
  · change (front.loadSignatures type inputs mixin []).bind _ = none
    rw [loadSignatures_nil hinputs]
    rfl
  · refine Undoes.bind_exactly (loadSignatures_exactly type inputs mixin front)
      fun p bs' ⟨hsame, hsigs⟩ => ?_
    refine (loadPseudoOuts_exactly _ inputs).bind_pure fun pseudoOuts bs'' hpseudo => ?_
    rw [hknown, hnone]
    change (p.saveRangeProofs type outputs).andThen ((p.saveSignatures type inputs mixin).andThen
      (if hasPrunablePseudoOuts type then saveArray saveKey inputs pseudoOuts else all [])) = _
    rw [hsame, hfront, hsigs, hpseudo]
    rfl

theorem RctSigPrunable.load_exactly {type : UInt8} (hne : type ≠ rctTypeNull) {inputs : Nat}
    (hinputs : 0 < inputs) (outputs mixin : Nat) :
    Exactly (RctSigPrunable.load type inputs outputs mixin) fun p bs =>
      p.save type inputs outputs mixin = all bs := by
  refine Undoes.bind_exactly (Exactly.require _) fun _ _ ⟨hnone, hsmall⟩ => ?_
  rw [if_neg hne]
  refine (loadOf_exactly type hinputs outputs mixin).mono fun p bs hp => ?_
  unfold save
  rw [hsmall, if_neg hne, hnone]
  exact hp

theorem RctSigPrunable.load_nil {type : UInt8} (hne : type ≠ rctTypeNull) {inputs : Nat}
    (hinputs : 0 < inputs) (outputs mixin : Nat) :
    RctSigPrunable.load type inputs outputs mixin [] = none := by
  cases hread : RctSigPrunable.load type inputs outputs mixin [] with
  | none => rfl
  | some read =>
    obtain ⟨_, mid, hsmall, hread⟩ := ByteReader.bind_eq_some hread
    obtain rfl := ((Exactly.require _).nil_of_nil hsmall).1
    rw [if_neg hne] at hread
    obtain ⟨_, mid, hknown, hread⟩ := ByteReader.bind_eq_some hread
    obtain rfl := ((Exactly.require _).nil_of_nil hknown).1
    obtain ⟨front, mid, hfront, hread⟩ := ByteReader.bind_eq_some hread
    obtain rfl := ((loadRangeProofs_undoes type outputs).nil_of_nil hfront).1
    obtain ⟨p, mid, hsigs, -⟩ := ByteReader.bind_eq_some hread
    rw [loadSignatures_nil hinputs] at hsigs
    cases hsigs

theorem RctSig.loadBaseOf_type {type : UInt8} {inputs outputs : Nat} {bs rest : List UInt8}
    {rv : RctSig} (h : RctSig.loadBaseOf type inputs outputs bs = some (rv, rest)) :
    rv.type = type := by
  obtain ⟨_, _, -, h⟩ := ByteReader.bind_eq_some h
  obtain ⟨_, _, -, h⟩ := ByteReader.bind_eq_some h
  obtain ⟨_, _, -, h⟩ := ByteReader.bind_eq_some h
  obtain ⟨_, _, -, h⟩ := ByteReader.bind_eq_some h
  obtain ⟨_, _, -, h⟩ := ByteReader.bind_eq_some h
  cases h
  rfl

/-- The type is known before the base has to be read in full. -/
theorem RctSig.load_eq (tx : TransactionPrefix) :
    RctSig.load tx false = (do
      let type ← ByteReader.byte
      if type = rctTypeNull then return { type }
      else do
        let rv ← RctSig.loadBaseOf type tx.vin.length tx.vout.length
        rv.loadPrunable tx false) := by
  unfold load loadBase
  rw [bind_assoc]
  congr 1
  funext type
  split
  · rename_i hnull
    rw [pure_bind]
    unfold loadPrunable
    rw [if_neg (by simp [hnull])]
  · rfl

/-- The signatures of a transaction with inputs have one form. -/
theorem RctSig.load_exactly {tx : TransactionPrefix} (hvin : tx.vin ≠ []) :
    Exactly (RctSig.load tx false) fun rv p => rv.save tx false = all p := by
  have hinputs := List.length_pos_of_ne_nil hvin
  rw [load_eq]
  refine Undoes.bind_exactly Exactly.byte fun type _ htype => ?_
  subst htype
  split
  · rename_i hnull
    refine Undoes.pure ?_
    subst hnull
    rfl
  · rename_i hne
    have hmore : (!false && decide (type ≠ rctTypeNull)) = true := by simpa using hne
    refine (loadBaseOf_undoes hne _ _).bind_closed (fun rv bs hread => ?_) fun rv p ⟨htype, hp⟩ => ?_
    · have hprunable := RctSigPrunable.load_nil hne hinputs tx.vout.length tx.mixin
      unfold loadPrunable
      rw [loadBaseOf_type hread, if_pos hmore]
      change (RctSigPrunable.load type _ _ _ []).bind _ = none
      rw [hprunable]
      rfl
    · subst htype
      have hload := RctSigPrunable.load_exactly hne hinputs tx.vout.length tx.mixin
      unfold loadPrunable
      rw [if_pos hmore]
      refine hload.bind_pure fun p' q hq => ?_
      change (rv.saveBase tx.vin.length tx.vout.length).andThen
        (savePrunable tx false { rv with p := p' }) = _
      unfold savePrunable
      rw [hp, if_pos hmore, hq]
      rfl

/-! ## Transactions -/

section Transactions

variable (scalarmultInvEight : ScalarmultInvEight)

theorem Transaction.save_signed {ρ : Type} (R : RctFormat ρ) {tx : Transaction ρ}
    {p : List UInt8} (hhead : tx.toTransactionPrefix.save = all p) (hversion : tx.version = 1)
    (hpruned : tx.pruned = false)
    (hsignatures : tx.signatures.map List.length = tx.vin.map getSignatureSize) :
    tx.save R = all (p ++ tx.signatures.flatMap fun own => own.flatMap fun s => s.toList) := by
  have hcount : tx.vin.length = tx.signatures.length := by
    simpa using (congrArg List.length hsignatures).symm
  unfold save
  simp [hhead, all, hversion, hcount, hpruned, saveSignatures_eq hsignatures]

/-- Whether a prefix is saved depends on the version alone. -/
theorem TransactionPrefix.save_eq_all {tx : TransactionPrefix} (hversion : tx.version = 2) :
    tx.save = all tx.save.1 := by
  refine Prod.ext rfl ?_
  unfold save
  rw [if_neg (by rw [hversion]; decide)]
  rfl

theorem Transaction.save_inputless {ρ : Type} (R : RctFormat ρ) {tx : Transaction ρ}
    {p : List UInt8} (hhead : tx.toTransactionPrefix.save = all p) (hversion : tx.version ≠ 1)
    (hvin : tx.vin = []) : tx.save R = all p := by
  unfold save
  simp [hhead, all, hversion, hvin]

theorem Transaction.save_ringCt {ρ : Type} (R : RctFormat ρ) {tx : Transaction ρ}
    {p : List UInt8} (hhead : tx.toTransactionPrefix.save = all p) (hversion : tx.version ≠ 1)
    (hvin : tx.vin ≠ []) :
    tx.save R = (all p).andThen (R.save tx.toTransactionPrefix tx.pruned tx.rctSignatures) := by
  unfold save
  simp [hhead, all, hversion, hvin, Written.andThen]

/-- What is loaded is what is saved of the transaction, or that with its last number cut
    short; and with inputs of version 2 there is no exception. -/
theorem Transaction.save_of_load {bs rest : List UInt8} {tx : Transaction RctSig}
    (h : Transaction.load (ringCt scalarmultInvEight) bs = some (tx, rest)) :
    ∃ p, tx.save (ringCt scalarmultInvEight) = all p ∧
      (bs = p ++ rest ∨
        rest = [] ∧ CutShort CutVarint bs p ∧ (tx.version = 1 ∨ tx.vin = [])) := by
  obtain ⟨front, mid, hfront, hrest⟩ := ByteReader.bind_eq_some h
  obtain ⟨p, hp, hhead⟩ := TransactionPrefix.load_undoes bs front mid hfront
  by_cases hone : front.version = 1
  · -- Version 1: a prefix cut short leaves no bytes, so all the signatures are empty.
    rw [if_pos hone] at hrest
    obtain ⟨signatures, mid', hsigs, hlast⟩ := ByteReader.bind_eq_some hrest
    cases hlast
    rcases hhead with rfl | ⟨rfl, hcut⟩
    · obtain ⟨q, rfl, hlens, rfl⟩ := (loadSignatures_exactly front.vin).front hsigs
      exact ⟨_, Transaction.save_signed _ hp hone rfl hlens,
        .inl (List.append_assoc _ _ _).symm⟩
    · obtain ⟨rfl, hlens, hnone⟩ := (loadSignatures_exactly front.vin).nil_of_nil hsigs
      refine ⟨p, (Transaction.save_signed _ hp hone rfl hlens).trans ?_,
        .inr ⟨rfl, hcut, .inl hone⟩⟩
      rw [← hnone, List.append_nil]
  rw [if_neg hone] at hrest
  split at hrest
  -- Without inputs the prefix is all there is, and its exception is that of the transaction.
  · rename_i hnone
    have hvin := List.isEmpty_iff.mp hnone
    cases hrest
    refine ⟨p, Transaction.save_inputless _ hp hone hvin, hhead.imp_right ?_⟩
    exact fun ⟨hrest, hcut⟩ => ⟨hrest, hcut, .inr hvin⟩
  · rename_i hsome
    have hvin : front.vin ≠ [] := fun hnil => hsome (List.isEmpty_iff.mpr hnil)
    obtain ⟨rv, mid', hrct, hlast⟩ := ByteReader.bind_eq_some hrest
    cases hlast
    rcases hhead with rfl | ⟨rfl, -⟩
    · obtain ⟨q, rfl, hq⟩ := (RctSig.load_exactly hvin).front hrct
      refine ⟨p ++ q, ?_, .inl (List.append_assoc _ _ _).symm⟩
      rw [Transaction.save_ringCt _ hp hone hvin]
      change (all p).andThen (rv.save front false) = _
      rw [hq]
      rfl
    · -- The signatures have a type, so they are not read from nothing.
      cases hrct

theorem Transaction.load_undoes :
    Undoes CutVarint (Transaction.load (ringCt scalarmultInvEight)) fun tx p =>
      tx.save (ringCt scalarmultInvEight) = all p := by
  intro bs tx rest h
  obtain ⟨p, hsave, hp⟩ := Transaction.save_of_load scalarmultInvEight h
  exact ⟨p, hsave, hp.imp_right fun ⟨hrest, hcut, _⟩ => ⟨hrest, hcut⟩⟩

theorem Transaction.save_of_parse {blob : List UInt8} {tx : Transaction RctSig}
    (h : (Transaction.load (ringCt scalarmultInvEight)).parse blob = some tx) :
    ∃ p, tx.save (ringCt scalarmultInvEight) = all p ∧
      (blob = p ∨ CutShort CutVarint blob p ∧ (tx.version = 1 ∨ tx.vin = [])) := by
  obtain ⟨p, hsave, hp⟩ :=
    Transaction.save_of_load scalarmultInvEight (ByteReader.parse_eq_some.mp h)
  rw [List.append_nil] at hp
  exact ⟨p, hsave, hp.imp_right And.right⟩

/-! ## Expansion -/

theorem setDests_masks {outPk outPk' : List CtKey} {vout : List TxOut}
    (hlen : outPk.length = vout.length) (h : setDests outPk vout = some outPk') :
    outPk'.map (·.mask) = outPk.map (·.mask) := by
  induction outPk generalizing vout outPk' with
  | nil =>
    cases vout with
    | nil =>
      cases h
      rfl
    | cons _ _ => cases hlen
  | cons pk outPk ih =>
    cases vout with
    | nil => cases hlen
    | cons out vout =>
      obtain ⟨dest, -, h⟩ := Option.bind_eq_some_iff.mp h
      obtain ⟨rest, hrest, h⟩ := Option.bind_eq_some_iff.mp h
      cases h
      rw [List.map_cons, List.map_cons, ih (Nat.succ.inj hlen) hrest]

/-- What is saved of the commitments is their masks. -/
theorem saveArray_mask (n : Nat) (outPk : List CtKey) :
    saveArray (fun pk => saveKey pk.mask) n outPk = saveArray saveKey n (outPk.map (·.mask)) := by
  rw [saveArray, saveArray, List.length_map, Written.each_map]

/-- Expansion leaves the saved part of a proof as it is. -/
theorem RctSigPrunable.save_expand {type : UInt8} {outPk : List CtKey} {p p' : RctSigPrunable}
    (h : p.expand scalarmultInvEight type outPk = some p') (inputs outputs mixin : Nat) :
    p'.save type inputs outputs mixin = p.save type inputs outputs mixin := by
  unfold expand at h
  split at h
  · split at h
    · rename_i proof hproofs
      split at h
      · cases h
      split at h
      · cases h
      obtain ⟨V, -, rfl⟩ := Option.map_eq_some_iff.mp h
      unfold save saveRangeProofs
      rw [hproofs]
      rfl
    · cases h
  split at h
  · split at h
    · rename_i proof hproofs
      split at h
      · cases h
      split at h
      · cases h
      obtain ⟨V, -, rfl⟩ := Option.map_eq_some_iff.mp h
      unfold save saveRangeProofs
      rw [hproofs]
      rfl
    · cases h
  · cases h
    rfl

theorem RctSig.save_expand {tx : TransactionPrefix} {rv rv' : RctSig}
    (h : rv.expand scalarmultInvEight tx = some rv') (pruned : Bool) :
    rv'.save tx pruned = rv.save tx pruned := by
  unfold expand at h
  split at h
  · cases h
    rfl
  split at h
  · cases h
  rename_i hlen
  obtain ⟨outPk, hdests, h⟩ := Option.bind_eq_some_iff.mp h
  obtain ⟨p, hp, h⟩ := Option.bind_eq_some_iff.mp h
  cases h
  -- Expansion writes destinations and `V`, and neither is saved.
  have hmasks := setDests_masks (not_not.mp hlen) hdests
  have hprunable := RctSigPrunable.save_expand scalarmultInvEight hp tx.vin.length tx.vout.length
    tx.mixin
  unfold save saveBase savePrunable
  simp only [saveArray_mask, hmasks, hprunable]

theorem Transaction.save_expand {tx tx' : Transaction RctSig}
    (h : expandTransaction1 (ringCt scalarmultInvEight) tx = some tx') :
    tx'.toTransactionPrefix = tx.toTransactionPrefix ∧
      tx'.save (ringCt scalarmultInvEight) = tx.save (ringCt scalarmultInvEight) := by
  unfold expandTransaction1 at h
  split at h
  · obtain ⟨rv, hrv, h⟩ := Option.map_eq_some_iff.mp h
    cases h
    have hsave := RctSig.save_expand scalarmultInvEight hrv tx.pruned
    refine ⟨rfl, ?_⟩
    unfold save
    change (if !_ then _ else _) = (if !_ then _ else _)
    simp only [ringCt, hsave]
  · cases h
    exact ⟨rfl, rfl⟩

theorem save_of_parseAndValidate {blob : List UInt8} {tx : Transaction RctSig}
    (h : parseAndValidateTxFromBlob (ringCt scalarmultInvEight) blob = some tx) :
    ∃ p, tx.save (ringCt scalarmultInvEight) = all p ∧
      (blob = p ∨ CutShort CutVarint blob p ∧ (tx.version = 1 ∨ tx.vin = [])) := by
  unfold parseAndValidateTxFromBlob at h
  split at h
  · cases h
  rename_i loaded hload
  split at h
  · cases h
  obtain ⟨hhead, hsave⟩ := Transaction.save_expand scalarmultInvEight h
  rw [hsave, hhead]
  exact Transaction.save_of_parse scalarmultInvEight hload

/-- A blob that is accepted is the blob of the transaction it is accepted as, or that with its
    last number cut short. -/
theorem toBlob_of_parseAndValidate {blob : List UInt8} {tx : Transaction RctSig}
    (h : parseAndValidateTxFromBlob (ringCt scalarmultInvEight) blob = some tx) :
    tx.toBlob (ringCt scalarmultInvEight) = blob ∨
      CutShort CutVarint blob (tx.toBlob (ringCt scalarmultInvEight)) ∧
        (tx.version = 1 ∨ tx.vin = []) := by
  obtain ⟨p, hsave, hp⟩ := save_of_parseAndValidate scalarmultInvEight h
  have htoBlob : tx.toBlob (ringCt scalarmultInvEight) = p := congrArg Prod.fst hsave
  rw [htoBlob]
  exact hp.imp_left Eq.symm

theorem toBlob_of_parseAndValidate_sample :
    ∃ tx, parseAndValidateTxFromBlob (ringCt some) [2, 60, 1, 0xff, 0, 0, 0, 0] = some tx ∧
      (tx.toBlob (ringCt some) = [2, 60, 1, 0xff, 0, 0, 0, 0] ∨
        CutShort CutVarint [2, 60, 1, 0xff, 0, 0, 0, 0] (tx.toBlob (ringCt some)) ∧
          (tx.version = 1 ∨ tx.vin = [])) :=
  have hparse : ∃ tx, parseAndValidateTxFromBlob (ringCt some) [2, 60, 1, 0xff, 0, 0, 0, 0] =
      some tx := Option.isSome_iff_exists.mp (by decide +kernel)
  ⟨hparse.choose, hparse.choose_spec, toBlob_of_parseAndValidate some hparse.choose_spec⟩

-- The exception is real: two blobs of one transaction, the second cut short.
example :
    (parseAndValidateTxFromBlob (ringCt some) [1, 60, 1, 0xff, 0, 0, 0x80]).map
      (·.toBlob (ringCt some)) = some [1, 60, 1, 0xff, 0, 0, 0] := by
  decide +kernel

/-! ## Saved transactions -/

/-- What an archive makes of a transaction of version 2. -/
def Transaction.stored (tx : Transaction RctSig) : Transaction RctSig where
  toTransactionPrefix := tx.toTransactionPrefix
  rctSignatures := if tx.vin = [] then {} else tx.rctSignatures.stored false

theorem Transaction.load_reads_ringCt {tx : Transaction RctSig} (h : tx.Fits)
    (hversion : tx.version = 2) (hpruned : tx.pruned = false)
    (hsaved : (tx.save (ringCt scalarmultInvEight)).2 = true) :
    (Transaction.load (ringCt scalarmultInvEight)).Reads
      (tx.toBlob (ringCt scalarmultInvEight)) tx.stored := by
  have hone : tx.version ≠ 1 := by rw [hversion]; decide
  obtain ⟨hok, hhead⟩ := TransactionPrefix.load_reads h (.inr hversion)
  have hall : tx.toTransactionPrefix.save = all tx.toTransactionPrefix.save.1 :=
    Prod.ext rfl hok
  unfold toBlob load stored
  by_cases hvin : tx.vin = []
  · rw [Transaction.save_inputless _ hall hone hvin]
    refine hhead.bind_nil ?_
    rw [if_neg hone, if_pos (List.isEmpty_iff.mpr hvin), if_pos hvin]
    exact ByteReader.Reads.pure _
  · have hsave := Transaction.save_ringCt (ringCt scalarmultInvEight) hall hone hvin
    rw [hsave] at hsaved ⊢
    rw [hpruned] at hsaved ⊢
    have hrct : tx.rctSignatures.save tx.toTransactionPrefix false =
        all (tx.rctSignatures.save tx.toTransactionPrefix false).1 := Prod.ext rfl hsaved
    have hread := RctSig.load_readsBack tx.toTransactionPrefix false tx.rctSignatures _ hrct
    refine hhead.bind ?_
    rw [if_neg hone, if_neg (by simpa using hvin), if_neg hvin]
    exact hread.bind_pure (f := fun rctSignatures =>
      ({ toTransactionPrefix := tx.toTransactionPrefix, rctSignatures } : Transaction RctSig))

/-- A transaction of version 2 that is saved is read back, less what the format leaves out. -/
theorem Transaction.parse_toBlob_ringCt {tx : Transaction RctSig} (h : tx.Fits)
    (hversion : tx.version = 2) (hpruned : tx.pruned = false)
    (hsaved : (tx.save (ringCt scalarmultInvEight)).2 = true) :
    (Transaction.load (ringCt scalarmultInvEight)).parse
      (tx.toBlob (ringCt scalarmultInvEight)) = some tx.stored :=
  (Transaction.load_reads_ringCt scalarmultInvEight h hversion hpruned hsaved).parse_eq

/-- A transaction with one input, three outputs and one proof of eight rounds. -/
def clsagTx : Transaction RctSig where
  version := 2
  vin := [.toKey 0 [9] nullKey]
  vout := List.replicate 3 { amount := 0, target := .toTaggedKey nullKey 7 }
  rctSignatures :=
    { type := rctTypeBulletproofPlus
      txnFee := 3
      ecdhInfo := List.replicate 3 { mask := Vector.ofFn fun _ => 1, amount := nullKey }
      outPk := List.replicate 3 { dest := Vector.ofFn fun _ => 1, mask := nullKey }
      p :=
        { bulletproofsPlus :=
            [{ V := List.replicate 3 nullKey, A := nullKey, A1 := nullKey, B := nullKey
               r1 := nullKey, s1 := nullKey, d1 := nullKey, L := List.replicate 8 nullKey
               R := List.replicate 8 nullKey }]
          CLSAGs := [{ s := [nullKey], c1 := nullKey, D := nullKey }]
          pseudoOuts := [nullKey] } }

theorem clsagTx_fits : clsagTx.Fits where
  vin_length := by decide
  vout_length := by decide
  extra_length := by decide
  vin := by
    intro i hi
    obtain rfl := List.mem_singleton.mp hi
    exact (by decide : [(9 : UInt64)].length < 2 ^ 64)
  vout := by
    intro o ho
    rw [List.eq_of_mem_replicate ho]
    trivial

theorem Transaction.parse_toBlob_ringCt_sample :
    (Transaction.load (ringCt some)).parse (clsagTx.toBlob (ringCt some)) = some clsagTx.stored :=
  Transaction.parse_toBlob_ringCt some clsagTx_fits rfl rfl (by decide +kernel)

end Transactions

end RandomLite.Monero.Format
