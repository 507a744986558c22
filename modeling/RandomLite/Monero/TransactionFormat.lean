-- SUMMARY: The binary format of transactions (`cryptonote_basic/cryptonote_basic.h`): a version 1 transaction is read back.
import RandomLite.Monero.Serialization
import RandomLite.Monero.TransactionInputs

/-!
# Transaction format

Transactions with all their fields, as an archive saves and loads them. The ring
signatures of version 2 are a parameter with a format of their own.
-/

namespace RandomLite.Monero.Format

/-! ## Transactions -/

abbrev Signature := Vector UInt8 64

/-- `txout_to_script`. -/
structure TxOutToScript where
  keys : List PublicKey
  script : List UInt8
  deriving DecidableEq, Repr

/-- `txout_target_v`. -/
inductive TxOutTarget where
  | toScript (target : TxOutToScript)
  | toScripthash (hash : Hash)
  | toKey (key : PublicKey)
  | toTaggedKey (key : PublicKey) (viewTag : UInt8)
  deriving DecidableEq, Repr

/-- `tx_out`. -/
structure TxOut where
  amount : UInt64
  target : TxOutTarget
  deriving DecidableEq, Repr

/-- `txin_v`. -/
inductive TxIn where
  | gen (height : UInt64)
  | toScript (prev : Hash) (prevout : UInt64) (sigset : List UInt8)
  | toScripthash (prev : Hash) (prevout : UInt64) (script : TxOutToScript) (sigset : List UInt8)
  | toKey (amount : UInt64) (keyOffsets : List UInt64) (kImage : KeyImage)
  deriving DecidableEq, Repr

/-- `transaction_prefix`. -/
structure TransactionPrefix where
  version : UInt64 := 1
  unlockTime : UInt64 := 0
  vin : List TxIn := []
  vout : List TxOut := []
  extra : List UInt8 := []
  deriving DecidableEq, Repr

/-- `transaction`, less the sizes and hashes it remembers; `ρ` is the type of its ring
    signatures. -/
structure Transaction (ρ : Type) extends TransactionPrefix where
  signatures : List (List Signature) := []
  rctSignatures : ρ
  pruned : Bool := false

/-- The ring signatures of a transaction: their initial value, of type `RCTTypeNull`, their
    type, what an archive saves and loads of them, what `expand_transaction_1` makes of them,
    and what their range proofs add to the weight of the transaction. -/
structure RctFormat (ρ : Type) where
  init : ρ
  type : ρ → UInt8
  type_init : type init = 0
  save : TransactionPrefix → Bool → ρ → List UInt8 × Bool
  load : TransactionPrefix → Bool → ByteReader ρ
  expand : TransactionPrefix → ρ → Option ρ
  weightClawback : TransactionPrefix → ρ → Nat

/-- `CURRENT_TRANSACTION_VERSION`. -/
def currentTransactionVersion : UInt64 := 2

/-- `get_signature_size`. -/
def getSignatureSize : TxIn → Nat
  | .gen _ => 0
  | .toScript _ _ _ => 0
  | .toScripthash _ _ _ _ => 0
  | .toKey _ keyOffsets _ => keyOffsets.length

/-! ## Saving -/

def TxOutToScript.save (target : TxOutToScript) : List UInt8 :=
  saveContainer (fun key : PublicKey => key.toList) target.keys ++
    saveContainer (fun byte => [byte]) target.script

def TxOutTarget.save : TxOutTarget → List UInt8
  | .toScript target => 0x00 :: target.save
  | .toScripthash hash => 0x01 :: hash.toList
  | .toKey key => 0x02 :: key.toList
  | .toTaggedKey key viewTag => 0x03 :: (key.toList ++ [viewTag])

def TxOut.save (out : TxOut) : List UInt8 := getVarintData out.amount ++ out.target.save

def TxIn.save : TxIn → List UInt8
  | .gen height => 0xff :: getVarintData height
  | .toScript prev prevout sigset =>
    0x00 :: (prev.toList ++ (getVarintData prevout ++ saveContainer (fun byte => [byte]) sigset))
  | .toScripthash prev prevout script sigset =>
    0x01 :: (prev.toList ++ (getVarintData prevout ++
      (script.save ++ saveContainer (fun byte => [byte]) sigset)))
  | .toKey amount keyOffsets kImage =>
    0x02 :: (getVarintData amount ++ (saveContainer getVarintData keyOffsets ++ kImage.toList))

/-- The bytes that are written, and whether all were. -/
def TransactionPrefix.save (tx : TransactionPrefix) : List UInt8 × Bool :=
  if tx.version = 0 || currentTransactionVersion < tx.version then
    (getVarintData tx.version, false)
  else
    (getVarintData tx.version ++ (getVarintData tx.unlockTime ++
      (saveContainer TxIn.save tx.vin ++ (saveContainer TxOut.save tx.vout ++
        saveContainer (fun byte => [byte]) tx.extra))), true)

/-- The loop over the inputs of version 1, with the signatures of each. -/
def saveSignatures : List TxIn → List (List Signature) → List UInt8 × Bool
  | [], _ => ([], true)
  | input :: vin, signatures =>
    match signatures with
    -- Without signatures every input has to be one that needs none.
    | [] => if getSignatureSize input = 0 then saveSignatures vin [] else ([], false)
    | own :: signatures =>
      if getSignatureSize input ≠ own.length then ([], false)
      else
        let (bytes, ok) := saveSignatures vin signatures
        (own.flatMap (fun s => s.toList) ++ bytes, ok)

/-- `do_serialize` of a transaction to a saving archive. -/
def Transaction.save {ρ : Type} (R : RctFormat ρ) (tx : Transaction ρ) : List UInt8 × Bool :=
  let (front, ok) := tx.toTransactionPrefix.save
  if !ok then (front, false)
  -- Only version 1 has the old signatures, also where it is pruned and saves none.
  else if tx.version = 1 then
    if !tx.signatures.isEmpty && tx.vin.length ≠ tx.signatures.length then (front, false)
    else if tx.pruned then (front, true)
    else
      let (bytes, ok) := saveSignatures tx.vin tx.signatures
      (front ++ bytes, ok)
  else if tx.vin.isEmpty then (front, true)
  else
    let (bytes, ok) := R.save tx.toTransactionPrefix tx.pruned tx.rctSignatures
    (front ++ bytes, ok)

/-- `t_serializable_object_to_blob`: what has been written, complete or not. -/
def Transaction.toBlob {ρ : Type} (R : RctFormat ρ) (tx : Transaction ρ) : List UInt8 :=
  (tx.save R).1

/-! ## Loading -/

def TxOutToScript.load : ByteReader TxOutToScript := do
  let keys ← loadContainer (ByteReader.array 32)
  let script ← loadContainer ByteReader.byte
  return ⟨keys, script⟩

def TxOutTarget.load : ByteReader TxOutTarget := do
  let tag ← ByteReader.byte
  if tag = 0x00 then
    let target ← TxOutToScript.load
    return .toScript target
  else if tag = 0x01 then
    let hash ← ByteReader.array 32
    return .toScripthash hash
  else if tag = 0x02 then
    let key ← ByteReader.array 32
    return .toKey key
  else if tag = 0x03 then
    let key ← ByteReader.array 32
    let viewTag ← ByteReader.byte
    return .toTaggedKey key viewTag
  else ByteReader.fail

def TxOut.load : ByteReader TxOut := do
  let amount ← serializeVarint
  let target ← TxOutTarget.load
  return ⟨amount, target⟩

def TxIn.load : ByteReader TxIn := do
  let tag ← ByteReader.byte
  if tag = 0xff then
    let height ← serializeVarint
    return .gen height
  else if tag = 0x00 then
    let prev ← ByteReader.array 32
    let prevout ← serializeVarint
    let sigset ← loadContainer ByteReader.byte
    return .toScript prev prevout sigset
  else if tag = 0x01 then
    let prev ← ByteReader.array 32
    let prevout ← serializeVarint
    let script ← TxOutToScript.load
    let sigset ← loadContainer ByteReader.byte
    return .toScripthash prev prevout script sigset
  else if tag = 0x02 then
    let amount ← serializeVarint
    let keyOffsets ← loadContainer serializeVarint
    let kImage ← ByteReader.array 32
    return .toKey amount keyOffsets kImage
  else ByteReader.fail

def TransactionPrefix.load : ByteReader TransactionPrefix := do
  let version ← serializeVarint
  ByteReader.require (!(version = 0 || currentTransactionVersion < version))
  let unlockTime ← serializeVarint
  let vin ← loadContainer TxIn.load
  let vout ← loadContainer TxOut.load
  let extra ← loadContainer ByteReader.byte
  return { version, unlockTime, vin, vout, extra }

/-- The signatures of one input: their number is known from the input. -/
def loadSignature (input : TxIn) : ByteReader (List Signature) := do
  -- Before anything is resized: a ring may claim any size.
  let remainingBytes ← ByteReader.remaining
  ByteReader.require (getSignatureSize input * 64 ≤ remainingBytes)
  ByteReader.times (ByteReader.array 64) (getSignatureSize input)

/-- The loop over the inputs of version 1: `signatures` has been resized to their number. -/
def loadSignatures : List TxIn → ByteReader (List (List Signature))
  | [] => pure []
  | input :: vin => do
    let own ← loadSignature input
    let signatures ← loadSignatures vin
    return own :: signatures

/-- `do_serialize` of a transaction from a loading archive, into a new transaction. -/
def Transaction.load {ρ : Type} (R : RctFormat ρ) : ByteReader (Transaction ρ) := do
  let front ← TransactionPrefix.load
  if front.version = 1 then
    let signatures ← loadSignatures front.vin
    return { toTransactionPrefix := front, signatures, rctSignatures := R.init }
  else if front.vin.isEmpty then
    return { toTransactionPrefix := front, rctSignatures := R.init }
  else
    let rctSignatures ← R.load front false
    return { toTransactionPrefix := front, rctSignatures }

/-- `is_coinbase`. -/
def TransactionPrefix.isCoinbase (tx : TransactionPrefix) : Bool :=
  match tx.vin with
  | [.gen _] => true
  | _ => false

/-- `max_total_key_offsets`: the maximum size of a transaction over that of a key. -/
def maxTotalKeyOffsets : Nat := 1000000 / 32

/-- `n_key_offsets_exceeds_max`. -/
def TransactionPrefix.nKeyOffsetsExceedsMax (tx : TransactionPrefix) : Bool :=
  maxTotalKeyOffsets ≤ (tx.vin.map getSignatureSize).sum

/-- `expand_transaction_1`. -/
def expandTransaction1 {ρ : Type} (R : RctFormat ρ) (tx : Transaction ρ) :
    Option (Transaction ρ) :=
  if tx.version ≥ 2 && !tx.isCoinbase then
    (R.expand tx.toTransactionPrefix tx.rctSignatures).map fun rctSignatures =>
      { tx with rctSignatures }
  else some tx

/-- `parse_and_validate_tx_from_blob`, without the check of the size. -/
def parseAndValidateTxFromBlob {ρ : Type} (R : RctFormat ρ) (txBlob : List UInt8) :
    Option (Transaction ρ) :=
  match (Transaction.load R).parse txBlob with
  | none => none
  | some tx => if tx.nKeyOffsetsExceedsMax then none else expandTransaction1 R tx

/-- `get_transaction_weight` of a transaction that is not pruned. -/
def Transaction.getTransactionWeight {ρ : Type} (R : RctFormat ρ) (tx : Transaction ρ) : Nat :=
  let blobSize := (tx.toBlob R).length
  if tx.version < 2 then blobSize
  else blobSize + R.weightClawback tx.toTransactionPrefix tx.rctSignatures

/-! ## Sizes in memory -/

def TxOutToScript.Fits (target : TxOutToScript) : Prop :=
  target.keys.length < 2 ^ 64 ∧ target.script.length < 2 ^ 64

def TxOutTarget.Fits : TxOutTarget → Prop
  | .toScript target => target.Fits
  | _ => True

def TxIn.Fits : TxIn → Prop
  | .gen _ => True
  | .toScript _ _ sigset => sigset.length < 2 ^ 64
  | .toScripthash _ _ script sigset => script.Fits ∧ sigset.length < 2 ^ 64
  | .toKey _ keyOffsets _ => keyOffsets.length < 2 ^ 64

/-- The vectors of a prefix have 64-bit lengths. -/
structure TransactionPrefix.Fits (tx : TransactionPrefix) : Prop where
  vin_length : tx.vin.length < 2 ^ 64
  vout_length : tx.vout.length < 2 ^ 64
  extra_length : tx.extra.length < 2 ^ 64
  vin : ∀ i ∈ tx.vin, i.Fits
  vout : ∀ o ∈ tx.vout, o.target.Fits

/-! ## What was saved is loaded -/

open ByteReader (Reads)

theorem loadBytes_reads {bytes : List UInt8} (hlen : bytes.length < 2 ^ 64) :
    (loadContainer ByteReader.byte).Reads (saveContainer (fun byte => [byte]) bytes) bytes :=
  loadContainer_reads hlen (fun byte _ => Reads.byte byte) fun _ _ => List.cons_ne_nil _ _

theorem TxOutToScript.load_reads {target : TxOutToScript} (h : target.Fits) :
    TxOutToScript.load.Reads target.save target := by
  obtain ⟨hkeys, hscript⟩ := h
  have hne : ∀ key ∈ target.keys, key.toList ≠ [] := by
    intro key _ hnil
    have hlen := congrArg List.length hnil
    simp at hlen
  have hload : (loadContainer (ByteReader.array 32)).Reads
      (saveContainer (fun key : PublicKey => key.toList) target.keys) target.keys :=
    loadContainer_reads hkeys (fun key _ => Reads.array key) hne
  exact hload.bind ((loadBytes_reads hscript).bind_pure (f := TxOutToScript.mk target.keys))

theorem TxOutTarget.load_reads {target : TxOutTarget} (h : target.Fits) :
    TxOutTarget.load.Reads target.save target := by
  unfold load
  cases target with
  | toScript target =>
    refine (Reads.byte 0x00).bind ?_
    rw [if_pos rfl]
    exact (TxOutToScript.load_reads h).bind_pure (f := TxOutTarget.toScript)
  | toScripthash hash =>
    refine (Reads.byte 0x01).bind ?_
    rw [if_neg (by decide), if_pos rfl]
    exact (Reads.array hash).bind_pure (f := TxOutTarget.toScripthash)
  | toKey key =>
    refine (Reads.byte 0x02).bind ?_
    rw [if_neg (by decide), if_neg (by decide), if_pos rfl]
    exact (Reads.array key).bind_pure (f := TxOutTarget.toKey)
  | toTaggedKey key viewTag =>
    refine (Reads.byte 0x03).bind ?_
    rw [if_neg (by decide), if_neg (by decide), if_neg (by decide), if_pos rfl]
    exact (Reads.array key).bind
      ((Reads.byte viewTag).bind_pure (f := TxOutTarget.toTaggedKey key))

theorem TxOut.load_reads {out : TxOut} (h : out.target.Fits) : TxOut.load.Reads out.save out :=
  (serializeVarint_reads out.amount).bind
    ((TxOutTarget.load_reads h).bind_pure (f := TxOut.mk out.amount))

theorem TxIn.load_reads {input : TxIn} (h : input.Fits) : TxIn.load.Reads input.save input := by
  unfold load
  cases input with
  | gen height =>
    refine (Reads.byte 0xff).bind ?_
    rw [if_pos rfl]
    exact (serializeVarint_reads height).bind_pure (f := TxIn.gen)
  | toScript prev prevout sigset =>
    refine (Reads.byte 0x00).bind ?_
    rw [if_neg (by decide), if_pos rfl]
    refine (Reads.array prev).bind ((serializeVarint_reads prevout).bind ?_)
    exact (loadBytes_reads h).bind_pure (f := TxIn.toScript prev prevout)
  | toScripthash prev prevout script sigset =>
    obtain ⟨hscript, hsigset⟩ := h
    refine (Reads.byte 0x01).bind ?_
    rw [if_neg (by decide), if_neg (by decide), if_pos rfl]
    refine (Reads.array prev).bind ((serializeVarint_reads prevout).bind ?_)
    refine (TxOutToScript.load_reads hscript).bind ?_
    exact (loadBytes_reads hsigset).bind_pure (f := TxIn.toScripthash prev prevout script)
  | toKey amount keyOffsets kImage =>
    refine (Reads.byte 0x02).bind ?_
    rw [if_neg (by decide), if_neg (by decide), if_neg (by decide), if_pos rfl]
    have hoffsets : (loadContainer serializeVarint).Reads
        (saveContainer getVarintData keyOffsets) keyOffsets :=
      loadContainer_reads h (fun i _ => serializeVarint_reads i) fun i _ => getVarintData_ne_nil i
    refine (serializeVarint_reads amount).bind (hoffsets.bind ?_)
    exact (Reads.array kImage).bind_pure (f := TxIn.toKey amount keyOffsets)

theorem TxIn.save_ne_nil (input : TxIn) : input.save ≠ [] := by
  cases input <;> exact List.cons_ne_nil _ _

theorem TxOut.save_ne_nil (out : TxOut) : out.save ≠ [] := by
  intro h
  exact getVarintData_ne_nil _ (List.append_eq_nil_iff.mp h).1

/-- A prefix of a known version is read back, whatever it holds. -/
theorem TransactionPrefix.load_reads {tx : TransactionPrefix} (h : tx.Fits)
    (hversion : tx.version = 1 ∨ tx.version = 2) :
    tx.save.2 = true ∧ TransactionPrefix.load.Reads tx.save.1 tx := by
  have hknown : (tx.version = 0 || currentTransactionVersion < tx.version) = false := by
    rcases hversion with heq | heq <;> rw [heq] <;> decide
  have hvin := loadContainer_reads h.vin_length (fun i hi => TxIn.load_reads (h.vin i hi))
    fun i _ => i.save_ne_nil
  have hvout := loadContainer_reads h.vout_length (fun o ho => TxOut.load_reads (h.vout o ho))
    fun o _ => o.save_ne_nil
  have hextra := (loadBytes_reads h.extra_length).bind_pure
    (f := fun extra => ({ tx with extra } : TransactionPrefix))
  unfold save load
  rw [hknown]
  refine ⟨rfl, (serializeVarint_reads tx.version).bind ?_⟩
  refine (Reads.require (c := !_) (by rw [hknown]; rfl)).bind ?_
  exact (serializeVarint_reads tx.unlockTime).bind (hvin.bind (hvout.bind hextra))

theorem loadSignatures_reads {vin : List TxIn} {signatures : List (List Signature)}
    (h : signatures.map List.length = vin.map getSignatureSize) :
    (loadSignatures vin).Reads (signatures.flatMap fun own => own.flatMap fun s => s.toList)
      signatures := by
  induction vin generalizing signatures with
  | nil =>
    obtain rfl : signatures = [] := List.map_eq_nil_iff.mp h
    exact Reads.pure []
  | cons input vin ih =>
    cases signatures with
    | nil => cases h
    | cons own signatures =>
      obtain ⟨hown, hrest⟩ := List.cons.inj h
      have hsize : (own.flatMap fun s => s.toList).length = own.length * 64 := by
        simp [List.length_flatMap]
      have hload : (loadSignature input).Reads (own.flatMap fun s => s.toList) own := by
        unfold loadSignature
        apply Reads.remaining_bind
        intro n hn
        rw [← hown]
        have hchecked := Reads.require (c := decide (own.length * 64 ≤ n))
          (decide_eq_true (by omega))
        exact hchecked.bind (Reads.times fun s _ => Reads.array s)
      exact hload.bind ((ih hrest).bind_pure (f := fun signatures => own :: signatures))

theorem saveSignatures_eq {vin : List TxIn} {signatures : List (List Signature)}
    (h : signatures.map List.length = vin.map getSignatureSize) :
    saveSignatures vin signatures =
      (signatures.flatMap fun own => own.flatMap fun s => s.toList, true) := by
  induction vin generalizing signatures with
  | nil =>
    obtain rfl : signatures = [] := List.map_eq_nil_iff.mp h
    rfl
  | cons input vin ih =>
    cases signatures with
    | nil => cases h
    | cons own signatures =>
      obtain ⟨hown, hrest⟩ := List.cons.inj h
      rw [saveSignatures, hown, if_neg (fun hne => hne rfl), ih hrest]
      rfl

/-- Inputs that need no signatures may come without. -/
theorem saveSignatures_nil {vin : List TxIn} (h : ∀ i ∈ vin, getSignatureSize i = 0) :
    saveSignatures vin [] = ([], true) := by
  induction vin with
  | nil => rfl
  | cons input vin ih =>
    rw [saveSignatures, if_pos (h input List.mem_cons_self)]
    exact ih fun i hi => h i (List.mem_cons_of_mem _ hi)

/-- A transaction of version 1 as an archive loads it: with a list of signatures for every
    input. -/
theorem Transaction.load_reads {ρ : Type} (R : RctFormat ρ) {front : TransactionPrefix}
    (h : front.Fits) (hversion : front.version = 1) {signatures : List (List Signature)}
    (hsignatures : signatures.map List.length = front.vin.map getSignatureSize) :
    (Transaction.load R).Reads
      (front.save.1 ++ signatures.flatMap fun own => own.flatMap fun s => s.toList)
      { toTransactionPrefix := front, signatures, rctSignatures := R.init } := by
  obtain ⟨-, hfront⟩ := TransactionPrefix.load_reads h (.inl hversion)
  unfold load
  refine hfront.bind ?_
  rw [if_pos hversion]
  exact (loadSignatures_reads hsignatures).bind_pure
    (f := fun signatures =>
      ({ toTransactionPrefix := front, signatures, rctSignatures := R.init } : Transaction ρ))

/-- The same for inputs that need no signatures, saved without: every input gets an empty
    list. -/
theorem Transaction.parse_toBlob_unsigned {ρ : Type} (R : RctFormat ρ) {tx : Transaction ρ}
    (h : tx.Fits) (hversion : tx.version = 1) (hpruned : tx.pruned = false)
    (hrct : tx.rctSignatures = R.init) (hsizes : ∀ i ∈ tx.vin, getSignatureSize i = 0)
    (hnone : tx.signatures = []) :
    (Transaction.load R).parse (tx.toBlob R) =
      some { tx with signatures := List.replicate tx.vin.length [] } := by
  have hsignatures : (List.replicate tx.vin.length ([] : List Signature)).map List.length =
      tx.vin.map getSignatureSize := by
    rw [List.map_replicate, List.map_congr_left hsizes, List.map_const']
    rfl
  have hparse := (Transaction.load_reads R h hversion hsignatures).parse_eq
  obtain ⟨hok, -⟩ := TransactionPrefix.load_reads h (.inl hversion)
  have hblob : tx.toBlob R = tx.toTransactionPrefix.save.1 ++
      (List.replicate tx.vin.length ([] : List Signature)).flatMap
        fun own => own.flatMap fun s => s.toList := by
    unfold toBlob save
    simp [hok, hversion, hpruned, hnone, saveSignatures_nil hsizes]
  rw [hblob, hparse]
  cases tx
  simp_all

end RandomLite.Monero.Format
