-- SUMMARY: The binary format of the ring signatures of a transaction (`ringct/rctTypes.h`), for every type of signature.
import RandomLite.Library.Bytes
import RandomLite.Monero.CanonicalVarint
import RandomLite.Monero.TransactionFormat

/-!
# Ring signature format

`serialize_rctsig_base` and `serialize_rctsig_prunable` of a saving and of a loading archive.
Numbers of inputs and outputs are not saved: both come from the prefix of the transaction.
Of what is never saved only the parts that `expand_transaction_1` fills in are kept.
-/

namespace RandomLite.Monero.Format

open Written (all)

/-! ## Types -/

def rctTypeNull : UInt8 := 0
def rctTypeFull : UInt8 := 1
def rctTypeSimple : UInt8 := 2
def rctTypeBulletproof : UInt8 := 3
def rctTypeBulletproof2 : UInt8 := 4
def rctTypeClsag : UInt8 := 5
def rctTypeBulletproofPlus : UInt8 := 6

/-- The types that both functions accept beside `RCTTypeNull`. -/
def isKnownRctType (type : UInt8) : Bool :=
  type = rctTypeFull || type = rctTypeSimple || type = rctTypeBulletproof ||
    type = rctTypeBulletproof2 || type = rctTypeClsag || type = rctTypeBulletproofPlus

/-- `is_rct_bulletproof`. -/
def isRctBulletproof (type : UInt8) : Bool :=
  type = rctTypeBulletproof || type = rctTypeBulletproof2 || type = rctTypeClsag

/-- `is_rct_bulletproof_plus`. -/
def isRctBulletproofPlus (type : UInt8) : Bool := type = rctTypeBulletproofPlus

/-- `is_rct_clsag`. -/
def isRctClsag (type : UInt8) : Bool := type = rctTypeClsag || type = rctTypeBulletproofPlus

/-- The types whose `ecdhInfo` is cut to eight bytes. -/
def hasShortEcdhInfo (type : UInt8) : Bool :=
  type = rctTypeBulletproof2 || type = rctTypeClsag || type = rctTypeBulletproofPlus

/-- The types with one MLSAG for every input. -/
def hasMgPerInput (type : UInt8) : Bool :=
  type = rctTypeSimple || type = rctTypeBulletproof || type = rctTypeBulletproof2

/-- The types whose `pseudoOuts` are in the prunable part. -/
def hasPrunablePseudoOuts (type : UInt8) : Bool :=
  type = rctTypeBulletproof || type = rctTypeBulletproof2 || type = rctTypeClsag ||
    type = rctTypeBulletproofPlus

def nullKey : Key := Vector.ofFn fun _ => 0

structure EcdhTuple where
  mask : Key := nullKey
  amount : Key
  deriving DecidableEq, Repr

structure CtKey where
  dest : Key := nullKey
  mask : Key
  deriving DecidableEq, Repr

/-- `rangeSig`: the 129 keys of a `boroSig`, and 64 keys. -/
structure RangeSig where
  asig : Vector UInt8 4128
  Ci : Vector UInt8 2048
  deriving DecidableEq, Repr

structure Bulletproof where
  V : List Key := []
  A : Key
  S : Key
  T1 : Key
  T2 : Key
  taux : Key
  mu : Key
  L : List Key
  R : List Key
  a : Key
  b : Key
  t : Key
  deriving DecidableEq, Repr

structure BulletproofPlus where
  V : List Key := []
  A : Key
  A1 : Key
  B : Key
  r1 : Key
  s1 : Key
  d1 : Key
  L : List Key
  R : List Key
  deriving DecidableEq, Repr

structure MgSig where
  ss : List (List Key)
  cc : Key
  deriving DecidableEq, Repr

structure Clsag where
  s : List Key
  c1 : Key
  D : Key
  deriving DecidableEq, Repr

structure RctSigPrunable where
  rangeSigs : List RangeSig := []
  bulletproofs : List Bulletproof := []
  bulletproofsPlus : List BulletproofPlus := []
  MGs : List MgSig := []
  CLSAGs : List Clsag := []
  pseudoOuts : List Key := []
  deriving DecidableEq, Repr

/-- `rctSig`, less what is reconstructed elsewhere: the message, the ring and the key images. -/
structure RctSig where
  type : UInt8 := rctTypeNull
  pseudoOuts : List Key := []
  ecdhInfo : List EcdhTuple := []
  outPk : List CtKey := []
  txnFee : UInt64 := 0
  p : RctSigPrunable := {}
  deriving DecidableEq, Repr

/-! ## Amounts of a proof -/

/-- `n_bulletproof_max_amounts_base`. -/
def nBulletproofMaxAmountsBase (lSize rSize maxOutputs : Nat) : Nat :=
  -- Six rounds for the 64 bits of one amount, and one more for each doubling of their number.
  if lSize < 6 then 0
  else if lSize ≠ rSize then 0
  -- The number of extra bits is written out beside the limit on outputs.
  else if 1 <<< 4 ≠ maxOutputs then 0
  else if 6 + 4 < lSize then 0
  else 1 <<< (lSize - 6)

def bulletproofMaxOutputs : Nat := 16
def bulletproofPlusMaxOutputs : Nat := 16

/-- `n_bulletproof_max_amounts` of one proof. -/
def Bulletproof.maxAmounts (proof : Bulletproof) : Nat :=
  nBulletproofMaxAmountsBase proof.L.length proof.R.length bulletproofMaxOutputs

/-- `n_bulletproof_plus_max_amounts` of one proof. -/
def BulletproofPlus.maxAmounts (proof : BulletproofPlus) : Nat :=
  nBulletproofMaxAmountsBase proof.L.length proof.R.length bulletproofPlusMaxOutputs

/-- The loop over several proofs, with the sum so far. -/
def sumMaxAmounts : List Nat → Nat → Nat
  | [], n => n
  | n2 :: rest, n =>
    -- One proof of no amounts makes the whole sum nothing.
    if ¬ n2 < 0xffffffff - n then 0 else if n2 = 0 then 0 else sumMaxAmounts rest (n + n2)

/-- `n_bulletproof_max_amounts`. -/
def nBulletproofMaxAmounts (proofs : List Bulletproof) : Nat :=
  sumMaxAmounts (proofs.map (·.maxAmounts)) 0

/-- `n_bulletproof_plus_max_amounts`. -/
def nBulletproofPlusMaxAmounts (proofs : List BulletproofPlus) : Nat :=
  sumMaxAmounts (proofs.map (·.maxAmounts)) 0

/-! ## Saving -/

def saveKey (key : Key) : Written := all key.toList

def saveKeys (keys : List Key) : Written := all (saveContainer (fun key => key.toList) keys)

/-- A vector whose length is known to whoever reads it. -/
def saveArray {α : Type} (save : α → Written) (n : Nat) (v : List α) : Written :=
  Written.check (v.length = n) (Written.each save v)

/-- The check at the end of both proofs. -/
def checkRounds (L R : List Key) : Bool := !L.isEmpty && L.length = R.length

def Bulletproof.save (proof : Bulletproof) : Written :=
  (saveKey proof.A).andThen <| (saveKey proof.S).andThen <| (saveKey proof.T1).andThen <|
  (saveKey proof.T2).andThen <| (saveKey proof.taux).andThen <| (saveKey proof.mu).andThen <|
  (saveKeys proof.L).andThen <| (saveKeys proof.R).andThen <| (saveKey proof.a).andThen <|
  (saveKey proof.b).andThen <| (saveKey proof.t).andThen <|
  Written.check (checkRounds proof.L proof.R) (all [])

def BulletproofPlus.save (proof : BulletproofPlus) : Written :=
  (saveKey proof.A).andThen <| (saveKey proof.A1).andThen <| (saveKey proof.B).andThen <|
  (saveKey proof.r1).andThen <| (saveKey proof.s1).andThen <| (saveKey proof.d1).andThen <|
  (saveKeys proof.L).andThen <| (saveKeys proof.R).andThen <|
  Written.check (checkRounds proof.L proof.R) (all [])

def RangeSig.save (sig : RangeSig) : Written := (all sig.asig.toList).andThen (all sig.Ci.toList)

def MgSig.save (rows width : Nat) (mg : MgSig) : Written :=
  (saveArray (saveArray saveKey width) rows mg.ss).andThen (saveKey mg.cc)

def Clsag.save (ringSize : Nat) (sig : Clsag) : Written :=
  (saveArray saveKey ringSize sig.s).andThen <| (saveKey sig.c1).andThen (saveKey sig.D)

/-- The first eight bytes of an amount. -/
def truncAmount (amount : Key) : Vector UInt8 8 := Vector.ofFn fun i => amount[i.val]

def EcdhTuple.save (type : UInt8) (info : EcdhTuple) : Written :=
  -- The blinding factor of these is derived from the shared secret, and not saved.
  if hasShortEcdhInfo type then all (truncAmount info.amount).toList
  else (saveKey info.mask).andThen (saveKey info.amount)

/-- `serialize_rctsig_base` of a saving archive. -/
def RctSig.saveBase (inputs outputs : Nat) (rv : RctSig) : Written :=
  (all [rv.type]).andThen <|
  if rv.type = rctTypeNull then all []
  else
    Written.check (isKnownRctType rv.type) <|
    (all (getVarintData rv.txnFee)).andThen <|
    -- From bulletproofs on these are in the prunable part.
    (if rv.type = rctTypeSimple then saveArray saveKey inputs rv.pseudoOuts else all []).andThen <|
    (saveArray (EcdhTuple.save rv.type) outputs rv.ecdhInfo).andThen <|
    saveArray (fun pk => saveKey pk.mask) outputs rv.outPk

/-- The number of proofs: a varint, but four bytes under `RCTTypeBulletproof`. -/
def saveCount (type : UInt8) (nbp : UInt32) : List UInt8 :=
  if type = rctTypeBulletproof then leBytes 4 nbp.toNat else getVarintData nbp.toUInt64

/-- The proofs of one kind. -/
def saveProofs {α : Type} (save : α → Written) (maxAmounts : List α → Nat) (type : UInt8)
    (outputs : Nat) (proofs : List α) : Written :=
  -- The number is cut to 32 bits, and as many proofs are saved as the cut one says.
  let nbp := UInt32.ofNat proofs.length
  (all (saveCount type nbp)).andThen <|
  -- Both checks come after bytes are out: the archive fails, and the bytes stay.
  Written.check (nbp.toNat ≤ outputs) <|
  (Written.each save (proofs.take nbp.toNat)).andThen <|
  Written.check (outputs ≤ maxAmounts proofs) (all [])

/-- The range proofs. -/
def RctSigPrunable.saveRangeProofs (type : UInt8) (outputs : Nat) (p : RctSigPrunable) : Written :=
  if type = rctTypeBulletproofPlus then
    saveProofs BulletproofPlus.save nBulletproofPlusMaxAmounts type outputs p.bulletproofsPlus
  else if isRctBulletproof type then
    saveProofs Bulletproof.save nBulletproofMaxAmounts type outputs p.bulletproofs
  else saveArray RangeSig.save outputs p.rangeSigs

def mgElements (type : UInt8) (inputs : Nat) : Nat := if hasMgPerInput type then inputs else 1

def mgSs2Elements (type : UInt8) (inputs : Nat) : Nat :=
  (if hasMgPerInput type then 1 else inputs) + 1

/-- The ring signatures proper. -/
def RctSigPrunable.saveSignatures (type : UInt8) (inputs mixin : Nat) (p : RctSigPrunable) :
    Written :=
  if isRctClsag type then saveArray (Clsag.save (mixin + 1)) inputs p.CLSAGs
  else
    saveArray (MgSig.save (mixin + 1) (mgSs2Elements type inputs)) (mgElements type inputs) p.MGs

/-- `serialize_rctsig_prunable` of a saving archive. -/
def RctSigPrunable.save (type : UInt8) (inputs outputs mixin : Nat) (p : RctSigPrunable) : Written :=
  Written.check (inputs < 0xffffffff && outputs < 0xffffffff && mixin < 0xffffffff) <|
  if type = rctTypeNull then all []
  else
    Written.check (isKnownRctType type) <|
    (p.saveRangeProofs type outputs).andThen <|
    (p.saveSignatures type inputs mixin).andThen <|
    if hasPrunablePseudoOuts type then saveArray saveKey inputs p.pseudoOuts else all []

/-- The size of the ring of the first input, less one. -/
def TransactionPrefix.mixin (tx : TransactionPrefix) : Nat :=
  match tx.vin with
  -- Without offsets the subtraction wraps, and the check of the prunable part refuses it.
  | .toKey _ keyOffsets _ :: _ => (UInt64.ofNat keyOffsets.length - 1).toNat
  | _ => 0

/-- The part that a pruned transaction is without. -/
def RctSig.savePrunable (tx : TransactionPrefix) (pruned : Bool) (rv : RctSig) : Written :=
  if !pruned && rv.type ≠ rctTypeNull then
    rv.p.save rv.type tx.vin.length tx.vout.length tx.mixin
  else all []

def RctSig.save (tx : TransactionPrefix) (pruned : Bool) (rv : RctSig) : Written :=
  (rv.saveBase tx.vin.length tx.vout.length).andThen (rv.savePrunable tx pruned)

/-! ## Loading -/

def loadKey : ByteReader Key := ByteReader.array 32

def loadKeys : ByteReader (List Key) := loadContainer loadKey

def Bulletproof.load : ByteReader Bulletproof := do
  let A ← loadKey
  let S ← loadKey
  let T1 ← loadKey
  let T2 ← loadKey
  let taux ← loadKey
  let mu ← loadKey
  let L ← loadKeys
  let R ← loadKeys
  let a ← loadKey
  let b ← loadKey
  let t ← loadKey
  -- `V` is not saved: expansion makes it of the commitments.
  ByteReader.require (checkRounds L R)
  return { A, S, T1, T2, taux, mu, L, R, a, b, t }

def BulletproofPlus.load : ByteReader BulletproofPlus := do
  let A ← loadKey
  let A1 ← loadKey
  let B ← loadKey
  let r1 ← loadKey
  let s1 ← loadKey
  let d1 ← loadKey
  let L ← loadKeys
  let R ← loadKeys
  ByteReader.require (checkRounds L R)
  return { A, A1, B, r1, s1, d1, L, R }

def RangeSig.load : ByteReader RangeSig := do
  let asig ← ByteReader.array 4128
  let Ci ← ByteReader.array 2048
  return { asig, Ci }

def MgSig.load (rows width : Nat) : ByteReader MgSig := do
  -- No sizes are saved: they come from the ring and the inputs.
  let ss ← ByteReader.times (ByteReader.times loadKey width) rows
  let cc ← loadKey
  return { ss, cc }

def Clsag.load (ringSize : Nat) : ByteReader Clsag := do
  let s ← ByteReader.times loadKey ringSize
  let c1 ← loadKey
  let D ← loadKey
  return { s, c1, D }

/-- Eight bytes at the front of a key. -/
def widenAmount (trunc : Vector UInt8 8) : Key :=
  Vector.ofFn fun i => if h : i.val < 8 then trunc[i.val] else 0

def EcdhTuple.load (type : UInt8) : ByteReader EcdhTuple :=
  if hasShortEcdhInfo type then do
    -- The other 24 bytes are zeros from before.
    let trunc ← ByteReader.array 8
    return { amount := widenAmount trunc }
  else do
    let mask ← loadKey
    let amount ← loadKey
    return { mask, amount }

def loadOutPk : ByteReader CtKey := do
  let mask ← loadKey
  return { mask }

def loadPseudoOuts (here : Bool) (inputs : Nat) : ByteReader (List Key) :=
  if here then ByteReader.times loadKey inputs else pure []

/-- The part of `serialize_rctsig_base` behind the type. -/
def RctSig.loadBaseOf (type : UInt8) (inputs outputs : Nat) : ByteReader RctSig := do
  ByteReader.require (isKnownRctType type)
  let txnFee ← serializeVarint
  let pseudoOuts ← loadPseudoOuts (type = rctTypeSimple) inputs
  let ecdhInfo ← ByteReader.times (EcdhTuple.load type) outputs
  let outPk ← ByteReader.times loadOutPk outputs
  return { type, pseudoOuts, ecdhInfo, outPk, txnFee }

/-- `serialize_rctsig_base` of a loading archive. -/
def RctSig.loadBase (inputs outputs : Nat) : ByteReader RctSig := do
  let type ← ByteReader.byte
  if type = rctTypeNull then return { type } else RctSig.loadBaseOf type inputs outputs

def loadCount (type : UInt8) : ByteReader Nat :=
  if type = rctTypeBulletproof then do
    let nbp ← ByteReader.array 4
    return leValue nbp.toList
  else do
    let nbp ← serializeUvarint 32
    return nbp.toNat

/-- The proofs of one kind. -/
def loadProofs {α : Type} (load : ByteReader α) (maxAmounts : List α → Nat) (type : UInt8)
    (outputs : Nat) : ByteReader (List α) := do
  let nbp ← loadCount type
  -- Before anything is resized to that number.
  ByteReader.require (nbp ≤ outputs)
  let proofs ← ByteReader.times load nbp
  ByteReader.require (outputs ≤ maxAmounts proofs)
  return proofs

def RctSigPrunable.loadRangeProofs (type : UInt8) (outputs : Nat) : ByteReader RctSigPrunable :=
  if type = rctTypeBulletproofPlus then do
    let bulletproofsPlus ←
      loadProofs BulletproofPlus.load nBulletproofPlusMaxAmounts type outputs
    return { bulletproofsPlus }
  else if isRctBulletproof type then do
    let bulletproofs ← loadProofs Bulletproof.load nBulletproofMaxAmounts type outputs
    return { bulletproofs }
  else do
    let rangeSigs ← ByteReader.times RangeSig.load outputs
    return { rangeSigs }

def RctSigPrunable.loadSignatures (type : UInt8) (inputs mixin : Nat) (p : RctSigPrunable) :
    ByteReader RctSigPrunable :=
  if isRctClsag type then do
    let CLSAGs ← ByteReader.times (Clsag.load (mixin + 1)) inputs
    return { p with CLSAGs }
  else do
    let MGs ← ByteReader.times (MgSig.load (mixin + 1) (mgSs2Elements type inputs))
      (mgElements type inputs)
    return { p with MGs }

/-- The part of `serialize_rctsig_prunable` behind its checks. -/
def RctSigPrunable.loadOf (type : UInt8) (inputs outputs mixin : Nat) :
    ByteReader RctSigPrunable := do
  ByteReader.require (isKnownRctType type)
  let p ← RctSigPrunable.loadRangeProofs type outputs
  let p ← p.loadSignatures type inputs mixin
  let pseudoOuts ← loadPseudoOuts (hasPrunablePseudoOuts type) inputs
  return { p with pseudoOuts }

/-- `serialize_rctsig_prunable` of a loading archive. -/
def RctSigPrunable.load (type : UInt8) (inputs outputs mixin : Nat) :
    ByteReader RctSigPrunable := do
  ByteReader.require (inputs < 0xffffffff && outputs < 0xffffffff && mixin < 0xffffffff)
  if type = rctTypeNull then return {} else RctSigPrunable.loadOf type inputs outputs mixin

def RctSig.loadPrunable (tx : TransactionPrefix) (pruned : Bool) (rv : RctSig) :
    ByteReader RctSig :=
  if !pruned && rv.type ≠ rctTypeNull then do
    -- The size of every ring is taken from the first.
    let p ← RctSigPrunable.load rv.type tx.vin.length tx.vout.length tx.mixin
    return { rv with p }
  else return rv

def RctSig.load (tx : TransactionPrefix) (pruned : Bool) : ByteReader RctSig := do
  let rv ← RctSig.loadBase tx.vin.length tx.vout.length
  rv.loadPrunable tx pruned

/-! ## Expansion -/

/-- `get_output_public_key`. -/
def getOutputPublicKey (out : TxOut) : Option PublicKey :=
  match out.target with
  | .toKey key => some key
  | .toTaggedKey key _ => some key
  -- A script or its hash has no key, and the whole transaction is refused.
  | _ => none

/-- The loop that fills in the destinations. -/
def setDests : List CtKey → List TxOut → Option (List CtKey)
  | pk :: outPk, out :: vout => do
    let dest ← getOutputPublicKey out
    let rest ← setDests outPk vout
    return { pk with dest } :: rest
  | _, _ => some []

/-- `scalarmultKey` with `INV_EIGHT`, of the curve; it throws on what is no point. -/
abbrev ScalarmultInvEight := Key → Option Key

/-- The loop that fills in `V`. -/
def fillV (scalarmultInvEight : ScalarmultInvEight) (outPk : List CtKey) : Option (List Key) :=
  outPk.mapM fun pk => scalarmultInvEight pk.mask

/-- What `expand_transaction_1` makes of the range proof. -/
def RctSigPrunable.expand (scalarmultInvEight : ScalarmultInvEight) (type : UInt8)
    (outPk : List CtKey) (p : RctSigPrunable) : Option RctSigPrunable :=
  if isRctBulletproofPlus type then
    -- One proof for all the outputs: several would be accepted by the archive alone.
    match p.bulletproofsPlus with
    | [proof] =>
      if proof.L.length < 6 then none
      else if proof.maxAmounts < outPk.length then none
      else
        (fillV scalarmultInvEight outPk).map fun V =>
          { p with bulletproofsPlus := [{ proof with V }] }
    | _ => none
  else if isRctBulletproof type then
    match p.bulletproofs with
    | [proof] =>
      if proof.L.length < 6 then none
      -- Here the lengths of `L` and `R` are not compared again.
      else if 1 <<< (proof.L.length - 6) < outPk.length then none
      else
        (fillV scalarmultInvEight outPk).map fun V =>
          { p with bulletproofs := [{ proof with V }] }
    | _ => none
  else some p

/-- `expand_transaction_1` of a transaction that is not the miner's. -/
def RctSig.expand (scalarmultInvEight : ScalarmultInvEight) (tx : TransactionPrefix)
    (rv : RctSig) : Option RctSig :=
  if rv.type = rctTypeNull then some rv
  else if rv.outPk.length ≠ tx.vout.length then none
  else do
    let outPk ← setDests rv.outPk tx.vout
    let p ← rv.p.expand scalarmultInvEight rv.type outPk
    return { rv with outPk, p }

/-! ## Weight -/

/-- The loop of `get_transaction_weight_clawback`; 32 rounds are enough. -/
def countRounds (nPaddedOutputs : Nat) : Nat → Nat → Nat
  | 0, nlr => nlr
  | fuel + 1, nlr =>
    if 1 <<< nlr < nPaddedOutputs then countRounds nPaddedOutputs fuel (nlr + 1) else nlr

/-- `get_transaction_weight_clawback`; no result where it throws. -/
def getTransactionWeightClawback (type : UInt8) (nOutputs nPaddedOutputs : Nat) : Option Nat :=
  let keys := if type = rctTypeBulletproofPlus then 6 else 9
  -- Half of a proof for two outputs.
  let bpBase := 32 * (keys + 7 * 2) / 2
  if nPaddedOutputs ≤ 2 then some 0
  else
    let nlr := countRounds nPaddedOutputs 32 0 + 6
    let bpSize := 32 * (keys + 2 * nlr)
    if bulletproofMaxOutputs < nOutputs then none
    else if bpBase * nPaddedOutputs < bpSize then none
    -- Four fifths of what one proof saves over a proof for every two outputs.
    else some ((bpBase * nPaddedOutputs - bpSize) * 4 / 5)

/-- What `get_transaction_weight` adds to the size of a transaction. -/
def RctSig.weightClawback (tx : TransactionPrefix) (rv : RctSig) : Option Nat :=
  if !isRctBulletproof rv.type && !isRctBulletproofPlus rv.type then some 0
  else
    getTransactionWeightClawback rv.type tx.vout.length
      (if isRctBulletproofPlus rv.type then nBulletproofPlusMaxAmounts rv.p.bulletproofsPlus
        else nBulletproofMaxAmounts rv.p.bulletproofs)

/-- The format of the production node. -/
def ringCt (scalarmultInvEight : ScalarmultInvEight) : RctFormat RctSig where
  init := {}
  type := RctSig.type
  type_init := rfl
  save := RctSig.save
  load := RctSig.load
  expand := RctSig.expand scalarmultInvEight
  weightClawback tx rv := (rv.weightClawback tx).getD 0

end RandomLite.Monero.Format
