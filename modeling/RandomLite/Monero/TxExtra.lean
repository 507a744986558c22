-- SUMMARY: The fields of the extra data of a transaction (`cryptonote_basic/tx_extra.h`) and their canonical order.
import RandomLite.Monero.Serialization

/-!
# Extra data

`sort_tx_extra` reads the fields of the extra data and writes them again, by type. Extra
data that cannot be read in full is refused.
-/

namespace RandomLite.Monero

/-- `tx_extra_field`. -/
inductive TxExtraField where
  | padding (size : Nat)
  | pubKey (key : PublicKey)
  | nonce (bytes : List UInt8)
  | mergeMiningTag (depth : UInt64) (merkleRoot : Hash)
  | additionalPubKeys (data : List PublicKey)
  | mysteriousMinergate (data : List UInt8)
  deriving DecidableEq, Repr

namespace TxExtraField

/-! ## Loading -/

/-- The loop of `tx_extra_padding`: zeros up to the end, and not too many. -/
def loadPadding : Nat → Nat → ByteReader Nat
  | 0, size => pure size
  | count + 1, size => fun
    | [] => some (size, [])
    | zero :: rest => if zero ≠ 0 then none else loadPadding count (size + 1) rest

/-- The depth and the root inside a merge mining tag. -/
def loadMergeMining : ByteReader (UInt64 × Hash) := do
  let depth ← serializeVarint
  let merkleRoot ← ByteReader.array 32
  return (depth, merkleRoot)

def load : ByteReader TxExtraField := do
  let tag ← ByteReader.byte
  if tag = 0x00 then
    let size ← loadPadding 255 1
    ByteReader.require (size ≤ 255)
    return .padding size
  else if tag = 0x01 then
    let key ← ByteReader.array 32
    return .pubKey key
  else if tag = 0x02 then
    let nonce ← loadString
    ByteReader.require (nonce.length ≤ 255)
    return .nonce nonce
  -- This field is an archive of its own, and has to be read to its end.
  else if tag = 0x03 then
    let field ← loadString
    match loadMergeMining.parse field with
    | some (depth, merkleRoot) => return .mergeMiningTag depth merkleRoot
    | none => ByteReader.fail
  else if tag = 0x04 then
    let data ← loadContainer (ByteReader.array 32)
    return .additionalPubKeys data
  else if tag = 0xde then
    let data ← loadString
    return .mysteriousMinergate data
  else ByteReader.fail

/-- The loop that reads fields until none is left; every field takes a byte. -/
def loadAll : Nat → ByteReader (List TxExtraField)
  | 0 => ByteReader.fail
  | fuel + 1 => do
    let field ← load
    let remainingBytes ← ByteReader.remaining
    if remainingBytes = 0 then return [field]
    else
      let fields ← loadAll fuel
      return field :: fields

/-! ## Saving -/

def tag : TxExtraField → UInt8
  | .padding _ => 0x00
  | .pubKey _ => 0x01
  | .nonce _ => 0x02
  | .mergeMiningTag _ _ => 0x03
  | .additionalPubKeys _ => 0x04
  | .mysteriousMinergate _ => 0xde

/-- A field behind its tag; `none` where saving fails. -/
def save : TxExtraField → Option (List UInt8)
  | .padding size => if 255 < size then none else some (List.replicate (size - 1) 0)
  | .pubKey key => some key.toList
  | .nonce bytes => if 255 < bytes.length then none else some (saveString bytes)
  | .mergeMiningTag depth merkleRoot =>
    some (saveString (getVarintData depth ++ merkleRoot.toList))
  | .additionalPubKeys data => some (saveContainer (fun key : PublicKey => key.toList) data)
  | .mysteriousMinergate data => some (saveString data)

/-- `pick`: the fields of a type, in the order they came in. -/
def pick (fields : List TxExtraField) (t : UInt8) : Option (List UInt8) :=
  match (fields.filter fun field => field.tag = t).mapM save with
  | none => none
  | some blobs => some (blobs.flatMap fun blob => t :: blob)

end TxExtraField

/-- The tags in the order `sort_tx_extra` picks them. -/
def sortedTags : List UInt8 := [0x01, 0x04, 0x02, 0x03, 0xde, 0x00]

/-- `sort_tx_extra`, without partial results. -/
def sortTxExtra (txExtra : List UInt8) : Option (List UInt8) :=
  if txExtra.isEmpty then some []
  else
    match (TxExtraField.loadAll txExtra.length).parse txExtra with
    | none => none
    | some fields =>
      match sortedTags.mapM (TxExtraField.pick fields) with
      | none => none
      | some blobs => some blobs.flatten

/-- The last field ends the loop. -/
theorem TxExtraField.loadAll_last {bytes : List UInt8} {field : TxExtraField}
    (h : load bytes = some (field, [])) (fuel : Nat) :
    loadAll (fuel + 1) bytes = some ([field], []) := by
  unfold loadAll
  change (load bytes).bind _ = _
  rw [h]
  rfl

theorem TxExtraField.loadMergeMining_reads (depth : UInt64) (merkleRoot : Hash) :
    loadMergeMining.Reads (getVarintData depth ++ merkleRoot.toList) (depth, merkleRoot) :=
  (serializeVarint_reads depth).bind
    ((ByteReader.Reads.array merkleRoot).bind_pure (f := fun root => (depth, root)))

/-- A field that could be saved is read back. Padding is not: it takes all the zeros that
    follow. -/
theorem TxExtraField.load_reads {field : TxExtraField} {saved : List UInt8}
    (hpadding : ∀ size, field ≠ .padding size) (hsave : field.save = some saved)
    (hlen : saved.length < 2 ^ 64) : load.Reads (field.tag :: saved) field := by
  unfold load
  cases field with
  | padding size => exact absurd rfl (hpadding size)
  | pubKey key =>
    cases hsave
    refine (ByteReader.Reads.byte 0x01).bind ?_
    rw [if_neg (by decide), if_pos rfl]
    exact (ByteReader.Reads.array key).bind_pure (f := TxExtraField.pubKey)
  | nonce bytes =>
    change (if 255 < bytes.length then none else some (saveString bytes)) = some saved at hsave
    split at hsave
    · cases hsave
    rename_i hshort
    cases hsave
    refine (ByteReader.Reads.byte 0x02).bind ?_
    rw [if_neg (by decide), if_neg (by decide), if_pos rfl]
    refine (loadString_reads (by omega)).bind_nil ?_
    exact (ByteReader.Reads.require (decide_eq_true (Nat.not_lt.mp hshort))).bind_nil
      (ByteReader.Reads.pure _)
  | mergeMiningTag depth merkleRoot =>
    cases hsave
    have hinner := (loadMergeMining_reads depth merkleRoot).parse_eq
    refine (ByteReader.Reads.byte 0x03).bind ?_
    rw [if_neg (by decide), if_neg (by decide), if_neg (by decide), if_pos rfl]
    refine (loadString_reads (Nat.lt_of_le_of_lt (length_le_length_saveString _) hlen)).bind_nil ?_
    rw [hinner]
    exact ByteReader.Reads.pure _
  | additionalPubKeys data =>
    cases hsave
    refine (ByteReader.Reads.byte 0x04).bind ?_
    rw [if_neg (by decide), if_neg (by decide), if_neg (by decide), if_neg (by decide), if_pos rfl]
    have hkeys : ∀ key ∈ data, key.toList ≠ [] := by
      intro key _ hnil
      have hsize := congrArg List.length hnil
      simp at hsize
    have hcount := Nat.lt_of_le_of_lt
      (Nat.le_trans (length_le_length_flatMap hkeys) (length_flatMap_le_saveContainer _ _)) hlen
    have hload : (loadContainer (ByteReader.array 32)).Reads
        (saveContainer (fun key : PublicKey => key.toList) data) data :=
      loadContainer_reads hcount (fun key _ => ByteReader.Reads.array key) hkeys
    exact hload.bind_pure (f := TxExtraField.additionalPubKeys)
  | mysteriousMinergate data =>
    cases hsave
    refine (ByteReader.Reads.byte 0xde).bind ?_
    rw [if_neg (by decide), if_neg (by decide), if_neg (by decide), if_neg (by decide),
      if_neg (by decide), if_pos rfl]
    have hdata := loadString_reads (Nat.lt_of_le_of_lt (length_le_length_saveString _) hlen)
    exact hdata.bind_pure (f := TxExtraField.mysteriousMinergate)

/-- A public key alone is in order. -/
theorem sortTxExtra_pubKey (key : PublicKey) :
    sortTxExtra (addTxPubKeyToExtra [] key) = some (addTxPubKeyToExtra [] key) := by
  have hkey : key.toList.length < 2 ^ 64 := by
    rw [Vector.length_toList]
    decide
  have hfield : TxExtraField.load.Reads (1 :: key.toList) (.pubKey key) :=
    @TxExtraField.load_reads (.pubKey key) _ (fun _ h => nomatch h) rfl hkey
  have hread := hfield []
  rw [List.append_nil] at hread
  have hfields : (TxExtraField.loadAll (1 :: key.toList).length).parse (1 :: key.toList) =
      some [.pubKey key] := by
    unfold ByteReader.parse
    rw [List.length_cons, TxExtraField.loadAll_last hread]
  unfold sortTxExtra addTxPubKeyToExtra
  rw [List.nil_append, hfields]
  simp [sortedTags, TxExtraField.pick, TxExtraField.tag, TxExtraField.save]

end RandomLite.Monero
