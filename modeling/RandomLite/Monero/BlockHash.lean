-- SUMMARY: Blocks as bytes and their ids (`cryptonote_basic/cryptonote_format_utils.cpp`): a block has one blob, and its id binds header, miner transaction and transactions.
import RandomLite.Monero.TransactionHash

/-!
# Block ids

A block is hashed by its header and the root of the tree over its transactions; the blob
itself is not hashed, but for the one block whose id was fixed after the fact.
-/

namespace RandomLite.Monero.Format

open Written (all)
open ByteReader (Reads Undoes Exactly CutShort)

/-! ## Blocks -/

structure BlockHeader where
  majorVersion : UInt8
  minorVersion : UInt8
  timestamp : UInt64
  prevId : Hash
  nonce : UInt32
  deriving DecidableEq, Repr

/-- A block with its miner transaction in full. -/
structure Block extends BlockHeader where
  minerTx : Transaction RctSig
  txHashes : List Hash

/-- `CRYPTONOTE_MAX_TX_PER_BLOCK`. -/
def cryptonoteMaxTxPerBlock : Nat := 0x10000000

def BlockHeader.save (b : BlockHeader) : List UInt8 :=
  getVarintData b.majorVersion.toUInt64 ++ (getVarintData b.minorVersion.toUInt64 ++
    (getVarintData b.timestamp ++ (b.prevId.toList ++ leBytes 4 b.nonce.toNat)))

def BlockHeader.load : ByteReader BlockHeader := do
  let majorVersion ← serializeUvarint 8
  let minorVersion ← serializeUvarint 8
  let timestamp ← serializeVarint
  let prevId ← ByteReader.array 32
  let nonce ← ByteReader.array 4
  return {
    majorVersion := majorVersion.toUInt8
    minorVersion := minorVersion.toUInt8
    timestamp, prevId
    nonce := UInt32.ofNat (leValue nonce.toList) }

def saveHashes (txHashes : List Hash) : List UInt8 :=
  saveContainer (fun hash => hash.toList) txHashes

section Blobs

variable (scalarmultInvEight : ScalarmultInvEight)

/-- `do_serialize` of a block to a saving archive. -/
def Block.save (b : Block) : Written :=
  (all b.toBlockHeader.save).andThen <|
  Written.andThen (b.minerTx.save (ringCt scalarmultInvEight)) <|
  (all (saveHashes b.txHashes)).andThen <|
  Written.check (b.txHashes.length ≤ cryptonoteMaxTxPerBlock) (all [])

/-- `block_to_blob`. -/
def blockToBlob (b : Block) : List UInt8 := (b.save scalarmultInvEight).1

/-- `do_serialize` of a block from a loading archive. -/
def Block.load : ByteReader Block := do
  let header ← BlockHeader.load
  let minerTx ← Transaction.load (ringCt scalarmultInvEight)
  let txHashes ← loadContainer (ByteReader.array 32)
  ByteReader.require (txHashes.length ≤ cryptonoteMaxTxPerBlock)
  return { toBlockHeader := header, minerTx, txHashes }

end Blobs

/-! ## One blob -/

theorem toUInt8_toUInt64 {v : UInt64} (h : v.toNat < 2 ^ 8) : v.toUInt8.toUInt64 = v := by
  apply UInt64.toNat_inj.mp
  rw [UInt8.toNat_toUInt64, UInt64.toNat_toUInt8]
  exact Nat.mod_eq_of_lt h

theorem BlockHeader.load_exactly : Exactly BlockHeader.load fun b p => p = b.save := by
  -- A nonce of four bytes is behind every number, so none is cut short.
  have hversion : Undoes CutVarint (serializeUvarint 8) fun v p =>
      p = getVarintData v ∧ v.toNat < 2 ^ 8 := serializeUvarint_undoes (by decide) (by decide)
  refine hversion.bind_closed (fun _ _ _ => rfl) fun major p ⟨hp, hmajor⟩ => ?_
  refine hversion.bind_closed (fun _ _ _ => rfl) fun minor q ⟨hq, hminor⟩ => ?_
  refine serializeVarint_undoes.bind_closed (fun _ _ _ => rfl) fun timestamp r hr => ?_
  refine Undoes.bind_exactly (Exactly.array 32) fun prevId s hs => ?_
  refine (Exactly.array 4).bind_pure fun nonce t ht => ?_
  have hlen : nonce.toList.length = 4 := Vector.length_toList
  have hlt := leValue_lt nonce.toList
  have hback := leBytes_leValue nonce.toList
  rw [hlen] at hlt hback
  unfold save
  dsimp only
  rw [toUInt8_toUInt64 hmajor, toUInt8_toUInt64 hminor, UInt32.toNat_ofNat_of_lt' hlt, hback, hp,
    hq, hr, hs, ht]

theorem BlockHeader.load_reads (b : BlockHeader) : BlockHeader.load.Reads b.save b := by
  have hversion (v : UInt8) : (serializeUvarint 8).Reads (getVarintData v.toUInt64) v.toUInt64 :=
    serializeUvarint_reads (by decide) (by rw [UInt8.toNat_toUInt64]; exact v.toNat_lt)
  refine (hversion b.majorVersion).bind ((hversion b.minorVersion).bind
    ((serializeVarint_reads b.timestamp).bind ((Reads.array b.prevId).bind ?_)))
  have hnonce := Reads.array (⟨(leBytes 4 b.nonce.toNat).toArray, by simp⟩ : Vector UInt8 4)
  have hvalue : UInt32.ofNat (leValue (leBytes 4 b.nonce.toNat)) = b.nonce := by
    have hlt : b.nonce.toNat < 256 ^ 4 := b.nonce.toNat_lt
    rw [leValue_leBytes, Nat.mod_eq_of_lt hlt, UInt32.ofNat_toNat]
  have hread := hnonce.bind_pure (f := fun nonce : Vector UInt8 4 =>
    ({ b with nonce := UInt32.ofNat (leValue nonce.toList) } : BlockHeader))
  simpa [hvalue] using hread

/-- Hashes that are read to the end of the input: where their number was cut short, there are
    none. -/
theorem loadHashes_eq {bs : List UInt8} {txHashes : List Hash}
    (h : loadContainer (ByteReader.array 32) bs = some (txHashes, [])) :
    bs = saveHashes txHashes ∨ CutShort CutVarint bs (saveHashes txHashes) ∧ txHashes = [] := by
  obtain ⟨cnt, mid, hcnt, hread⟩ := ByteReader.bind_eq_some h
  have helements := loadElements_undoes (Exactly.array 32) cnt
  obtain ⟨_, rfl, rfl | ⟨rfl, hcut⟩⟩ := serializeVarint_undoes bs cnt mid hcnt
  · obtain ⟨q, rfl, hlen, rfl⟩ := ByteReader.Exactly.front helements hread
    refine .inl ?_
    rw [saveHashes, saveContainer, hlen, UInt64.ofNat_toNat, List.append_nil]
  -- Nothing is left behind a number cut short, so it counts no hash.
  · obtain ⟨-, hlen, hnil⟩ := helements.nil_of_nil hread
    have hempty : txHashes = [] := by
      cases txHashes with
      | nil => rfl
      | cons hash rest =>
        exact absurd (List.append_eq_nil_iff.mp hnil.symm).1 (toList_ne_nil hash)
    subst hempty
    have hzero : cnt = 0 := UInt64.toNat_inj.mp hlen.symm
    rw [hzero] at hcut
    exact .inr ⟨hcut, rfl⟩

section Blobs

variable (scalarmultInvEight : ScalarmultInvEight)

/-- A block blob that is accepted is the blob of the block, or that with the number of its
    transactions, none, cut short: that number is last only where no hash follows. -/
theorem Block.save_of_parse {blob : List UInt8} {b : Block}
    (h : (Block.load scalarmultInvEight).parse blob = some b) :
    ∃ p, b.save scalarmultInvEight = all p ∧
      (blob = p ∨ CutShort CutVarint blob p ∧ b.txHashes = []) := by
  rw [ByteReader.parse_eq_some] at h
  obtain ⟨header, mid, hheader, h⟩ := ByteReader.bind_eq_some h
  obtain ⟨minerTx, mid', hminer, h⟩ := ByteReader.bind_eq_some h
  obtain ⟨txHashes, mid'', hhashes, h⟩ := ByteReader.bind_eq_some h
  obtain ⟨_, rest, hfew, h⟩ := ByteReader.bind_eq_some h
  cases h
  obtain ⟨_, rfl, rfl, hle⟩ := (Exactly.require _).front hfew
  obtain ⟨_, rfl, rfl⟩ := BlockHeader.load_exactly.front hheader
  obtain ⟨q, hq, rfl | ⟨rfl, -⟩⟩ := Transaction.load_undoes scalarmultInvEight _ _ _ hminer
  · refine ⟨header.save ++ (q ++ saveHashes txHashes), ?_, ?_⟩
    · unfold save
      dsimp only
      rw [hq, hle]
      simp [all, Written.andThen, Written.check]
    · exact (loadHashes_eq hhashes).imp (fun hmid => by rw [hmid]) fun hcut =>
        ⟨(hcut.1.append q).append _, hcut.2⟩
  · -- Nothing is left for the number of transactions.
    cases hhashes

/-- A block is read back, its miner transaction less what the format leaves out. -/
theorem Block.parse_blockToBlob {b : Block} (h : b.minerTx.Fits) (hversion : b.minerTx.version = 2)
    (hpruned : b.minerTx.pruned = false) (hsaved : (b.save scalarmultInvEight).2 = true) :
    (Block.load scalarmultInvEight).parse (blockToBlob scalarmultInvEight b) =
      some { b with minerTx := b.minerTx.stored } := by
  have hall : b.save scalarmultInvEight = all (blockToBlob scalarmultInvEight b) :=
    Prod.ext rfl hsaved
  obtain ⟨p, s, hp, hs, hblob⟩ := Written.andThen_eq_all_iff.mp hall
  obtain ⟨q, t, hq, ht, rfl⟩ := Written.andThen_eq_all_iff.mp hs
  obtain ⟨r, u, hr, hu, rfl⟩ := Written.andThen_eq_all_iff.mp ht
  obtain ⟨hle, hu⟩ := Written.check_eq_all_iff.mp hu
  have htx := Transaction.load_reads_ringCt scalarmultInvEight h hversion hpruned
    (congrArg Prod.snd hq)
  have hlen : b.txHashes.length < 2 ^ 64 :=
    (of_decide_eq_true hle).trans_lt (by decide)
  have hhashes : (loadContainer (ByteReader.array 32)).Reads
      (saveContainer (fun hash : Hash => hash.toList) b.txHashes) b.txHashes :=
    loadContainer_reads hlen (fun hash _ => Reads.array hash) fun hash _ => toList_ne_nil hash
  rw [hblob, ← (Prod.mk.inj hp).1, ← (Prod.mk.inj hr).1, ← (Prod.mk.inj hu).1]
  apply Reads.parse_eq
  refine (BlockHeader.load_reads b.toBlockHeader).bind ?_
  have htoBlob : b.minerTx.toBlob (ringCt scalarmultInvEight) = q := congrArg Prod.fst hq
  rw [htoBlob] at htx
  refine htx.bind (hhashes.bind ?_)
  exact (Reads.require hle).bind_nil (Reads.pure _)

/-- A block with one transaction, whose miner transaction has a proof. -/
def sampleBlock : Block where
  majorVersion := 16
  minorVersion := 16
  timestamp := 9
  prevId := nullHash
  nonce := 7
  minerTx := clsagTx
  txHashes := [nullHash]

theorem Block.parse_blockToBlob_sample :
    (Block.load some).parse (blockToBlob some sampleBlock) =
      some { sampleBlock with minerTx := clsagTx.stored } :=
  Block.parse_blockToBlob some clsagTx_fits rfl rfl (by decide +kernel)

end Blobs

/-! ## Ids -/

section Ids

variable (cnFastHash : List UInt8 → Hash) (scalarmultInvEight : ScalarmultInvEight)

/-- `get_tx_tree_hash` of a block; without an id of the miner transaction it throws. -/
def getTxTreeHash (b : Block) : Option Hash := do
  let h ← calculateTransactionHash cnFastHash scalarmultInvEight b.minerTx
  treeHash cnFastHash (h :: b.txHashes)

/-- What is hashed of a block with the given root. -/
def Block.hashedBytes (b : Block) (treeRootHash : Hash) : List UInt8 :=
  b.toBlockHeader.save ++ (treeRootHash.toList ++
    getVarintData (UInt64.ofNat (b.txHashes.length + 1)))

/-- `get_block_hashing_blob`. -/
def getBlockHashingBlob (b : Block) : Option (List UInt8) :=
  (getTxTreeHash cnFastHash scalarmultInvEight b).map b.hashedBytes

/-- The blob hash of the block whose id is fixed. -/
def correctBlobHash202612 : Hash :=
  #v[0x3a, 0x8a, 0x2b, 0x3a, 0x29, 0xb5, 0x0f, 0xc8, 0x6f, 0xf7, 0x3d, 0xd0, 0x87, 0xea, 0x43, 0xc6,
    0xf0, 0xd6, 0xb8, 0xf9, 0x36, 0xc8, 0x49, 0x19, 0x4d, 0x5c, 0x84, 0xc7, 0x37, 0x90, 0x39, 0x66]

/-- The id of that block. -/
def existingBlockId202612 : Hash :=
  #v[0xbb, 0xd6, 0x04, 0xd2, 0xba, 0x11, 0xba, 0x27, 0x93, 0x5e, 0x00, 0x6e, 0xd3, 0x9c, 0x9b, 0xfd,
    0xd9, 0x9b, 0x76, 0xbf, 0x4a, 0x50, 0x65, 0x4b, 0xc1, 0xe1, 0xe6, 0x12, 0x17, 0x96, 0x26, 0x98]

/-- A block may be the one with the fixed id unless its miner transaction says otherwise. -/
def Block.mayBe202612 (b : Block) : Bool :=
  match b.minerTx.vin with
  | [.gen height] => height = 202612
  | _ => true

/-- `calculate_block_hash` of a block and its blob: the hash, and whether it is one; no result
    where it throws. -/
def calculateBlockHash (b : Block) (blob : List UInt8) : Option (Hash × Bool) :=
  (getBlockHashingBlob cnFastHash scalarmultInvEight b).map fun hashingBlob =>
    let res := cnFastHash (saveString hashingBlob)
    if !b.mayBe202612 then (res, true)
    else if cnFastHash blob = correctBlobHash202612 then (existingBlockId202612, true)
    else if res = existingBlockId202612 then (nullHash, false)
    else (res, true)

/-- `parse_and_validate_block_from_blob`, with the hash that it notes in the block. -/
def parseAndValidateBlockFromBlob (blob : List UInt8) : Option (Block × Hash) :=
  ((Block.load scalarmultInvEight).parse blob).bind fun b =>
    (calculateBlockHash cnFastHash scalarmultInvEight b blob).map fun res => (b, res.1)

/-- The byte strings that are hashed for the id of a block, but for those of its miner
    transaction. -/
def Block.hashInputs (b : Block) : List (List UInt8) :=
  (getBlockHashingBlob cnFastHash scalarmultInvEight b).toList.map saveString ++
    treeInputs cnFastHash
      ((calculateTransactionHash cnFastHash scalarmultInvEight b.minerTx).toList ++ b.txHashes)

end Ids

section Binding

variable {cnFastHash : List UInt8 → Hash} {scalarmultInvEight : ScalarmultInvEight}
  {b b' : Block} {blob blob' : List UInt8} {id : Hash}

theorem BlockHeader.length_save_le (b : BlockHeader) : b.save.length ≤ 66 := by
  have hmajor := length_getVarintData_le b.majorVersion.toUInt64
  have hminor := length_getVarintData_le b.minorVersion.toUInt64
  have htime := length_getVarintData_le b.timestamp
  unfold save
  simp only [List.length_append, Vector.length_toList, length_leBytes]
  omega

theorem Block.length_hashedBytes_lt (b : Block) (root : Hash) :
    (b.hashedBytes root).length < 2 ^ 64 := by
  have hheader := b.toBlockHeader.length_save_le
  have hcount := length_getVarintData_le (UInt64.ofNat (b.txHashes.length + 1))
  unfold hashedBytes
  simp only [List.length_append, Vector.length_toList]
  omega

theorem saveString_inj {x y : List UInt8} (hx : x.length < 2 ^ 64) (hy : y.length < 2 ^ 64)
    (h : saveString x = saveString y) : x = y :=
  ((loadString_reads hx).append_inj (loadString_reads hy) (congrArg (· ++ []) h)).1

/-- What is hashed of a block says its header, its root and the number of its transactions. -/
theorem Block.hashedBytes_inj {root root' : Hash} (hlen : b.txHashes.length < 2 ^ 28)
    (hlen' : b'.txHashes.length < 2 ^ 28) (h : b.hashedBytes root = b'.hashedBytes root') :
    b.toBlockHeader = b'.toBlockHeader ∧ root = root' ∧
      b.txHashes.length = b'.txHashes.length := by
  obtain ⟨hheader, hrest⟩ := (BlockHeader.load_reads b.toBlockHeader).append_inj
    (BlockHeader.load_reads b'.toBlockHeader) h
  obtain ⟨hroot, hcount⟩ := List.append_inj hrest (by simp)
  obtain ⟨hword, -⟩ := (serializeVarint_reads _).append_inj (serializeVarint_reads _)
    (congrArg (· ++ []) hcount)
  have hsmall : b.txHashes.length + 1 < 2 ^ 64 := by omega
  have hsmall' : b'.txHashes.length + 1 < 2 ^ 64 := by omega
  have hnat := congrArg UInt64.toNat hword
  rw [UInt64.toNat_ofNat_of_lt' hsmall, UInt64.toNat_ofNat_of_lt' hsmall'] at hnat
  exact ⟨hheader, Vector.toList_inj.mp hroot, Nat.succ.inj hnat⟩

/-- An id other than the fixed one is the hash of the hashing blob. -/
theorem calculateBlockHash_spec
    (h : calculateBlockHash cnFastHash scalarmultInvEight b blob = some (id, true))
    (hid : id ≠ existingBlockId202612) :
    ∃ txId root, calculateTransactionHash cnFastHash scalarmultInvEight b.minerTx = some txId ∧
      treeHash cnFastHash (txId :: b.txHashes) = some root ∧
      getBlockHashingBlob cnFastHash scalarmultInvEight b = some (b.hashedBytes root) ∧
      id = cnFastHash (saveString (b.hashedBytes root)) := by
  obtain ⟨hashingBlob, hblob, h⟩ := Option.map_eq_some_iff.mp h
  obtain ⟨root, hroot, rfl⟩ := Option.map_eq_some_iff.mp hblob
  obtain ⟨txId, htx, htree⟩ := Option.bind_eq_some_iff.mp hroot
  refine ⟨txId, root, htx, htree, hblob, ?_⟩
  dsimp only at h
  split at h
  · exact (Prod.mk.inj h).1.symm
  split at h
  · exact absurd (Prod.mk.inj h).1.symm hid
  split at h
  · cases (Prod.mk.inj h).2
  · exact (Prod.mk.inj h).1.symm

/-- Two blocks with one id have one header, one id of the miner transaction and the same
    transactions, or two of the byte strings that were hashed collide. -/
theorem calculateBlockHash_binds (hid : id ≠ existingBlockId202612)
    (h : calculateBlockHash cnFastHash scalarmultInvEight b blob = some (id, true))
    (h' : calculateBlockHash cnFastHash scalarmultInvEight b' blob' = some (id, true)) :
    (b.toBlockHeader = b'.toBlockHeader ∧
        calculateTransactionHash cnFastHash scalarmultInvEight b.minerTx =
          calculateTransactionHash cnFastHash scalarmultInvEight b'.minerTx ∧
        b.txHashes = b'.txHashes) ∨
      Collision cnFastHash (b.hashInputs cnFastHash scalarmultInvEight)
        (b'.hashInputs cnFastHash scalarmultInvEight) := by
  obtain ⟨txId, root, htx, htree, hblob, heq⟩ := calculateBlockHash_spec h hid
  obtain ⟨txId', root', htx', htree', hblob', heq'⟩ := calculateBlockHash_spec h' hid
  have hfew := (treeHash_bounds htree).2
  have hfew' := (treeHash_bounds htree').2
  rw [List.length_cons] at hfew hfew'
  have hinputs : b.hashInputs cnFastHash scalarmultInvEight =
      saveString (b.hashedBytes root) :: treeInputs cnFastHash (txId :: b.txHashes) := by
    rw [Block.hashInputs, hblob, htx]
    rfl
  have hinputs' : b'.hashInputs cnFastHash scalarmultInvEight =
      saveString (b'.hashedBytes root') :: treeInputs cnFastHash (txId' :: b'.txHashes) := by
    rw [Block.hashInputs, hblob', htx']
    rfl
  rw [hinputs, hinputs', htx, htx']
  -- First the hashing blobs, then the trees over the transactions.
  rcases eq_or_collision List.mem_cons_self List.mem_cons_self (heq.symm.trans heq') with
    hsame | hcollision
  · obtain ⟨hheader, rfl, hlen⟩ := Block.hashedBytes_inj (by omega) (by omega)
      (saveString_inj (b.length_hashedBytes_lt root) (b'.length_hashedBytes_lt root') hsame)
    rcases treeHash_binds htree htree' (congrArg (· + 1) hlen) with hlists | hcollision
    · obtain ⟨rfl, hhashes⟩ := List.cons.inj hlists
      exact .inl ⟨hheader, rfl, hhashes⟩
    · exact .inr (hcollision.mono (List.subset_cons_self _ _) (List.subset_cons_self _ _))
  · exact .inr hcollision

theorem Block.saved_minerTx (h : b.save scalarmultInvEight = all blob) :
    (b.minerTx.save (ringCt scalarmultInvEight)).2 = true ∧
      (txToBlob scalarmultInvEight b.minerTx).length ≤ blob.length := by
  obtain ⟨_, _, -, hrest, rfl⟩ := Written.andThen_eq_all_iff.mp h
  obtain ⟨_, _, htx, -, rfl⟩ := Written.andThen_eq_all_iff.mp hrest
  refine ⟨congrArg Prod.snd htx, ?_⟩
  have hblob : txToBlob scalarmultInvEight b.minerTx = _ := congrArg Prod.fst htx
  simp only [hblob, all, List.length_append]
  omega

/-- Blocks with one header, one blob of the miner transaction and the same transactions have
    one blob. -/
theorem Block.blob_eq (h : b.save scalarmultInvEight = all blob)
    (h' : b'.save scalarmultInvEight = all blob') (hheader : b.toBlockHeader = b'.toBlockHeader)
    (htx : txToBlob scalarmultInvEight b.minerTx = txToBlob scalarmultInvEight b'.minerTx)
    (hhashes : b.txHashes = b'.txHashes) : blob = blob' := by
  have hsave : b.minerTx.save (ringCt scalarmultInvEight) =
      b'.minerTx.save (ringCt scalarmultInvEight) :=
    Prod.ext htx ((Block.saved_minerTx h).1.trans (Block.saved_minerTx h').1.symm)
  unfold save at h h'
  rw [hheader, hsave, hhashes] at h
  exact (Prod.mk.inj (h.symm.trans h')).1

theorem parseAndValidateBlockFromBlob_spec (hnull : id ≠ nullHash)
    (h : parseAndValidateBlockFromBlob cnFastHash scalarmultInvEight blob = some (b, id)) :
    (Block.load scalarmultInvEight).parse blob = some b ∧
      calculateBlockHash cnFastHash scalarmultInvEight b blob = some (id, true) := by
  obtain ⟨b₁, hparse, h⟩ := Option.bind_eq_some_iff.mp h
  obtain ⟨⟨res, ok⟩, hres, h⟩ := Option.map_eq_some_iff.mp h
  cases h
  refine ⟨hparse, ?_⟩
  cases ok with
  | true => exact hres
  | false =>
    obtain ⟨hashingBlob, -, h⟩ := Option.map_eq_some_iff.mp hres
    dsimp only at h
    split at h
    · cases h
    split at h
    · cases h
    split at h
    · exact absurd (Prod.mk.inj h).1.symm hnull
    · cases h

/-- Two accepted block blobs with one id, and miner transactions of version 2, are one blob,
    unless one of them is cut short in the number of its transactions, none, or there is a
    collision. -/
theorem blob_eq_of_blockHash (hsize : blob.length < 2 ^ 32) (hsize' : blob'.length < 2 ^ 32)
    (hnull : id ≠ nullHash) (hid : id ≠ existingBlockId202612)
    (hversion : b.minerTx.version = 2) (hversion' : b'.minerTx.version = 2)
    (h : parseAndValidateBlockFromBlob cnFastHash scalarmultInvEight blob = some (b, id))
    (h' : parseAndValidateBlockFromBlob cnFastHash scalarmultInvEight blob' = some (b', id)) :
    blob = blob' ∨
      (CutShort CutVarint blob (blockToBlob scalarmultInvEight b) ∧ b.txHashes = [] ∨
        CutShort CutVarint blob' (blockToBlob scalarmultInvEight b') ∧ b'.txHashes = []) ∨
      Collision cnFastHash
        (b.hashInputs cnFastHash scalarmultInvEight ++
          b.minerTx.hashInputs cnFastHash scalarmultInvEight)
        (b'.hashInputs cnFastHash scalarmultInvEight ++
          b'.minerTx.hashInputs cnFastHash scalarmultInvEight) := by
  obtain ⟨hparse, hhash⟩ := parseAndValidateBlockFromBlob_spec hnull h
  obtain ⟨hparse', hhash'⟩ := parseAndValidateBlockFromBlob_spec hnull h'
  have hcut {b : Block} {blob p : List UInt8} (hsave : b.save scalarmultInvEight = all p)
      (hcut : CutShort CutVarint blob p ∧ b.txHashes = []) :
      CutShort CutVarint blob (blockToBlob scalarmultInvEight b) ∧ b.txHashes = [] := by
    rwa [blockToBlob, hsave]
  obtain ⟨p, hsave, rfl | hcut₁⟩ := Block.save_of_parse scalarmultInvEight hparse
  · obtain ⟨p', hsave', rfl | hcut₂⟩ := Block.save_of_parse scalarmultInvEight hparse'
    · obtain ⟨txId, -, htx, -⟩ := calculateBlockHash_spec hhash hid
      obtain ⟨hsaved, hlen⟩ := Block.saved_minerTx hsave
      obtain ⟨hsaved', hlen'⟩ := Block.saved_minerTx hsave'
      -- The miner transaction is bound by its own id, which the tree binds.
      rcases calculateBlockHash_binds hid hhash hhash' with ⟨hheader, hids, hhashes⟩ | hcollision
      · rcases calculateTransactionHash_binds (hlen.trans_lt hsize) (hlen'.trans_lt hsize')
          hsaved hsaved' (hversion.trans hversion'.symm) htx (hids ▸ htx) with
          hblobs | hcollision
        · exact .inl (Block.blob_eq hsave hsave' hheader hblobs hhashes)
        · exact .inr (.inr (hcollision.mono (List.subset_append_right _ _)
            (List.subset_append_right _ _)))
      · exact .inr (.inr (hcollision.mono (List.subset_append_left _ _)
          (List.subset_append_left _ _)))
    · exact .inr (.inl (.inr (hcut hsave' hcut₂)))
  · exact .inr (.inl (.inl (hcut hsave hcut₁)))

/-- A block blob of version 1 at height 5, with one transaction. -/
def sampleBlockBlob (minor timestamp : UInt8) : List UInt8 :=
  [1, minor, timestamp] ++ List.replicate 32 7 ++ [1, 2, 3, 4] ++ [2, 65, 1, 0xff, 5, 0, 0, 0] ++
    1 :: List.replicate 32 8

-- The sum does not tell the two headers apart.
theorem blob_eq_of_blockHash_sample :
    ∃ b b' id, parseAndValidateBlockFromBlob sumHash some (sampleBlockBlob 1 9) = some (b, id) ∧
      parseAndValidateBlockFromBlob sumHash some (sampleBlockBlob 2 6) = some (b', id) ∧
      (sampleBlockBlob 1 9 = sampleBlockBlob 2 6 ∨
        (CutShort CutVarint (sampleBlockBlob 1 9) (blockToBlob some b) ∧ b.txHashes = [] ∨
          CutShort CutVarint (sampleBlockBlob 2 6) (blockToBlob some b') ∧ b'.txHashes = []) ∨
        Collision sumHash (b.hashInputs sumHash some ++ b.minerTx.hashInputs sumHash some)
          (b'.hashInputs sumHash some ++ b'.minerTx.hashInputs sumHash some)) := by
  obtain ⟨⟨b, id⟩, hblock⟩ : ∃ block, (parseAndValidateBlockFromBlob sumHash some
      (sampleBlockBlob 1 9)).filter (fun block => decide (block.1.minerTx.version = 2) &&
        (decide (block.2 ≠ nullHash) && decide (block.2 ≠ existingBlockId202612))) = some block :=
    Option.isSome_iff_exists.mp (by decide +kernel)
  obtain ⟨⟨b', id'⟩, hblock'⟩ : ∃ block, (parseAndValidateBlockFromBlob sumHash some
      (sampleBlockBlob 2 6)).filter (fun block => decide (block.1.minerTx.version = 2)) =
        some block := Option.isSome_iff_exists.mp (by decide +kernel)
  obtain ⟨hparse, hkept⟩ := Option.filter_eq_some_iff.mp hblock
  obtain ⟨hparse', hversion'⟩ := Option.filter_eq_some_iff.mp hblock'
  simp only [Bool.and_eq_true, decide_eq_true_eq] at hkept hversion'
  obtain ⟨hversion, hnull, hid⟩ := hkept
  have hsame : (parseAndValidateBlockFromBlob sumHash some (sampleBlockBlob 1 9)).map Prod.snd =
      (parseAndValidateBlockFromBlob sumHash some (sampleBlockBlob 2 6)).map Prod.snd := by
    decide +kernel
  rw [hparse, hparse'] at hsame
  obtain rfl : id = id' := Option.some.inj hsame
  exact ⟨b, b', id, hparse, hparse', blob_eq_of_blockHash (by decide) (by decide) hnull hid
    hversion hversion' hparse hparse'⟩

end Binding

end RandomLite.Monero.Format
