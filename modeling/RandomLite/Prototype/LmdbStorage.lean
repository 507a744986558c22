-- SUMMARY: The persistent database of the prototype (`blockchain_db/lmdb_storage.cpp`): the block file, the key image file, and loading.
import Mathlib.Data.Finset.Basic
import RandomLite.Library.Bytes
import RandomLite.Library.IStream
import RandomLite.Prototype.CryptonoteBasic

/-!
# Persistent database

One data directory with the files `blocks.dat` and `key_images.dat`. A block is
saved as a record of 60 bytes appended to the first; a host with little-endian
integers is assumed. Opening a file for append may fail, and a write may leave
only the front of the record behind: the outcome of each append is an input.
-/

namespace RandomLite

/-- The characters of a line of text. -/
abbrev Text := List Char

/-- The files of a data directory; `none` is a file that does not exist. -/
structure DataDir where
  blocksDat : Option (List UInt8) := none
  keyImagesDat : Option Text := none
  deriving DecidableEq, Repr

/-- What the operating system does with one append. -/
inductive AppendOutcome where
  /-- The file cannot be opened. -/
  | openFails
  /-- The file is opened and the first `n` bytes reach it. -/
  | wrote (n : Nat)
  deriving DecidableEq, Repr

/-- `PersistentDatabase`, less the path of its only directory. -/
structure PersistentDatabase where
  opened : Bool := false
  deriving DecidableEq, Repr

/-! ## Records -/

/-- The 60 bytes `save_block` writes. -/
def blockRecord (b : Block) (height difficulty : UInt64) : List UInt8 :=
  leBytes 8 height.toNat ++ leBytes 8 b.timestamp.toNat ++ leBytes 4 b.nonce.toNat ++
    leBytes 8 difficulty.toNat ++ b.hash.toList

/-- The size of a record. -/
def recordSize : Nat := 60

@[simp] theorem length_blockRecord (b : Block) (height difficulty : UInt64) :
    (blockRecord b height difficulty).length = recordSize := by
  simp [blockRecord, recordSize]

/-- A hash read back from 32 bytes. -/
def hashOfBytes (bytes : List UInt8) : CryptoHash := Vector.ofFn fun i => bytes.getD i 0

theorem hashOfBytes_toList (h : CryptoHash) : hashOfBytes h.toList = h := by
  ext i hi
  simp [hashOfBytes, List.getD_eq_getElem?_getD]

theorem toList_hashOfBytes {bytes : List UInt8} (h : bytes.length = 32) :
    (hashOfBytes bytes).toList = bytes := by
  apply List.ext_getElem
  · simp [h]
  · intro i hi hi'
    simp [hashOfBytes, List.getD_eq_getElem?_getD, hi']

/-- The block `load_chain` makes of a record: everything but the timestamp, the
    nonce and the hash is value-initialised. -/
def recordBlock (r : List UInt8) : Block :=
  { timestamp := UInt64.ofNat (leValue ((r.drop 8).take 8))
    nonce := UInt32.ofNat (leValue ((r.drop 16).take 4))
    hash := hashOfBytes ((r.drop 28).take 32) }

/-- The difficulty stored in a record. -/
def recordDifficulty (r : List UInt8) : UInt64 :=
  UInt64.ofNat (leValue ((r.drop 20).take 8))

/-- The part of a block that survives on disk. -/
def Block.stored (b : Block) : Block :=
  { timestamp := b.timestamp, nonce := b.nonce, hash := b.hash }

@[simp] theorem Block.stored_timestamp (b : Block) : b.stored.timestamp = b.timestamp := rfl
@[simp] theorem Block.stored_nonce (b : Block) : b.stored.nonce = b.nonce := rfl
@[simp] theorem Block.stored_hash (b : Block) : b.stored.hash = b.hash := rfl

theorem recordBlock_blockRecord (b : Block) (height difficulty : UInt64) :
    recordBlock (blockRecord b height difficulty) = b.stored := by
  have hts : UInt64.ofNat (leValue (leBytes 8 b.timestamp.toNat)) = b.timestamp := by
    have hlt := b.timestamp.toNat_lt
    rw [leValue_leBytes, Nat.mod_eq_of_lt (by omega), UInt64.ofNat_toNat]
  have hnonce : UInt32.ofNat (leValue (leBytes 4 b.nonce.toNat)) = b.nonce := by
    have hlt := b.nonce.toNat_lt
    rw [leValue_leBytes, Nat.mod_eq_of_lt (by omega), UInt32.ofNat_toNat]
  have hhash := hashOfBytes_toList b.hash
  simp [recordBlock, blockRecord, Block.stored, List.drop_append, List.drop_of_length_le,
    List.take_of_length_le, hts, hnonce, hhash]

theorem recordDifficulty_blockRecord (b : Block) (height difficulty : UInt64) :
    recordDifficulty (blockRecord b height difficulty) = difficulty := by
  have hlt := difficulty.toNat_lt
  have hdiff : UInt64.ofNat (leValue (leBytes 8 difficulty.toNat)) = difficulty := by
    rw [leValue_leBytes, Nat.mod_eq_of_lt (by omega), UInt64.ofNat_toNat]
  simp [recordDifficulty, blockRecord, List.drop_append, List.drop_of_length_le, hdiff]

/-! ## Saving -/

namespace PersistentDatabase

/-- `open`: always succeeds. -/
def «open» (_db : PersistentDatabase) : PersistentDatabase := { opened := true }

/-- `close`. -/
def close (_db : PersistentDatabase) : PersistentDatabase := { opened := false }

/-- `save_block`, with the outcome of its append. -/
def saveBlock (db : PersistentDatabase) (dir : DataDir) (b : Block) (height difficulty : UInt64) :
    AppendOutcome → Bool × DataDir
  | .openFails => (false, dir)
  | .wrote n =>
    if db.opened then
      (true, { dir with
        blocksDat := some (dir.blocksDat.getD [] ++ (blockRecord b height difficulty).take n) })
    else (false, dir)

/-- `save_key_image`, with the outcome of its append. -/
def saveKeyImage (db : PersistentDatabase) (dir : DataDir) (keyImageHex : Text) :
    AppendOutcome → Bool × DataDir
  | .openFails => (false, dir)
  | .wrote n =>
    if db.opened then
      (true, { dir with
        keyImagesDat := some (dir.keyImagesDat.getD [] ++ (keyImageHex ++ ['\n']).take n) })
    else (false, dir)

theorem saveBlock_keyImagesDat (db : PersistentDatabase) (dir : DataDir) (b : Block)
    (height difficulty : UInt64) (io : AppendOutcome) :
    (db.saveBlock dir b height difficulty io).2.keyImagesDat = dir.keyImagesDat := by
  cases io with
  | openFails => rfl
  | wrote n =>
    simp only [saveBlock]
    split <;> rfl

/-- A save never removes the block file. -/
theorem saveBlock_isSome (db : PersistentDatabase) {dir : DataDir} (b : Block)
    (height difficulty : UInt64) (io : AppendOutcome) (h : dir.blocksDat.isSome) :
    (db.saveBlock dir b height difficulty io).2.blocksDat.isSome := by
  cases io with
  | openFails => exact h
  | wrote n =>
    simp only [saveBlock]
    split
    · rfl
    · exact h

end PersistentDatabase

/-! ## Loading -/

/-- The three vectors `load_chain` appends to. -/
structure ChainVectors where
  blocks : List Block := []
  timestamps : List UInt64 := []
  cumulativeDifficulties : List UInt64 := []
  deriving DecidableEq, Repr

/-- The read loop of `load_chain`. Every turn but the last consumes a record, so
    `fuel` may be any number above the number of records. -/
def loadLoop : Nat → IStream → UInt64 → ChainVectors → ChainVectors
  | 0, _, _, v => v
  | fuel + 1, inp, cumDiff, v =>
    let (next, inp) := inp.peek
    if next.isNone then v
    else
      let (_height, inp) := inp.read 8
      let (timestamp, inp) := inp.read 8
      let (nonce, inp) := inp.read 4
      let (difficulty, inp) := inp.read 8
      let (hashVal, inp) := inp.read 32
      if inp.gcount < 32 then v
      else
        let b : Block :=
          { timestamp := UInt64.ofNat (leValue timestamp)
            nonce := UInt32.ofNat (leValue nonce)
            hash := hashOfBytes hashVal }
        let cumDiff := cumDiff + UInt64.ofNat (leValue difficulty)
        loadLoop fuel inp cumDiff
          { blocks := v.blocks ++ [b]
            timestamps := v.timestamps ++ [b.timestamp]
            cumulativeDifficulties := v.cumulativeDifficulties ++ [cumDiff] }

/-- The lines of a text file that are not empty. -/
def nonEmptyLines (text : Text) : List Text := (text.splitOn '\n').filter fun line => !line.isEmpty

/-- `load_chain`: the result and what was appended or inserted. -/
def PersistentDatabase.loadChain (db : PersistentDatabase) (dir : DataDir) (v : ChainVectors)
    (spentKeyImages : Finset Text) : Bool × ChainVectors × Finset Text :=
  if db.opened then
    match dir.blocksDat with
    | none => (false, v, spentKeyImages)
    | some bytes =>
      let v := loadLoop (bytes.length + 1) { rest := bytes } 0 v
      let lines := nonEmptyLines (dir.keyImagesDat.getD [])
      (true, v, spentKeyImages ∪ lines.toFinset)
  else (false, v, spentKeyImages)

/-! ## What the read loop yields -/

/-- The vectors of a list of records, with the cumulative difficulty counted from
    `cumDiff`. -/
def recordVectors (cumDiff : UInt64) (rs : List (List UInt8)) : ChainVectors :=
  { blocks := rs.map recordBlock
    timestamps := rs.map fun r => (recordBlock r).timestamp
    cumulativeDifficulties := runningSums cumDiff (rs.map recordDifficulty) }

def ChainVectors.append (v w : ChainVectors) : ChainVectors :=
  { blocks := v.blocks ++ w.blocks
    timestamps := v.timestamps ++ w.timestamps
    cumulativeDifficulties := v.cumulativeDifficulties ++ w.cumulativeDifficulties }

/-- A turn over a complete record. -/
theorem loadLoop_record {bytes : List UInt8} (h : recordSize ≤ bytes.length) (fuel c : Nat)
    (cumDiff : UInt64) (v : ChainVectors) :
    loadLoop (fuel + 1) (.opened bytes c) cumDiff v =
      loadLoop fuel (.opened (bytes.drop recordSize) 32)
        (cumDiff + recordDifficulty (bytes.take recordSize))
        (v.append (recordVectors cumDiff [bytes.take recordSize])) := by
  have h8 : 8 ≤ bytes.length := by simp only [recordSize] at h; omega
  have h16 : 8 ≤ (bytes.drop 8).length := by simp only [recordSize, List.length_drop] at h ⊢; omega
  have h20 : 4 ≤ ((bytes.drop 8).drop 8).length := by
    simp only [recordSize, List.length_drop] at h ⊢; omega
  have h28 : 8 ≤ (((bytes.drop 8).drop 8).drop 4).length := by
    simp only [recordSize, List.length_drop] at h ⊢; omega
  have h60 : 32 ≤ ((((bytes.drop 8).drop 8).drop 4).drop 8).length := by
    simp only [recordSize, List.length_drop] at h ⊢; omega
  have hpeek : (IStream.opened bytes c).peek = (some (bytes.headD 0), .opened bytes 0) := by
    cases bytes with
    | nil => simp at h8
    | cons x xs => rfl
  simp only [loadLoop, hpeek, Option.isNone_some, Bool.false_eq_true, if_false,
    IStream.read_opened _ h8, IStream.read_opened _ h16, IStream.read_opened _ h20,
    IStream.read_opened _ h28, IStream.read_opened _ h60]
  simp [recordSize, recordVectors, ChainVectors.append, recordBlock,
    recordDifficulty, runningSums, List.drop_take, List.take_take]

/-- A turn over less than a record, whichever of the five reads it is cut in. -/
theorem loadLoop_short {bytes : List UInt8} (h : bytes.length < recordSize) (fuel c : Nat)
    (cumDiff : UInt64) (v : ChainVectors) :
    loadLoop fuel (.opened bytes c) cumDiff v = v := by
  cases fuel with
  | zero => rfl
  | succ fuel =>
    cases bytes with
    | nil => rfl
    | cons x xs =>
      have hshort : (IStream.readFields ([8, 8, 4, 8] ++ [32]) (.opened (x :: xs) 0)).gcount < 32 :=
        IStream.gcount_readFields_short 0 (by omega) (by simpa [recordSize] using h)
      simp only [List.cons_append, List.nil_append, IStream.readFields] at hshort
      simp only [loadLoop, IStream.peek_opened_cons, Option.isNone_some, Bool.false_eq_true,
        if_false, hshort, if_true]

/-- The read loop appends exactly the complete records of the file. -/
theorem loadLoop_eq (bytes : List UInt8) (fuel c : Nat) (hfuel : bytes.length < fuel)
    (cumDiff : UInt64) (v : ChainVectors) :
    loadLoop fuel (.opened bytes c) cumDiff v =
      v.append (recordVectors cumDiff (completeRecords recordSize bytes)) := by
  -- The induction follows the turns of the loop.
  induction fuel generalizing bytes c cumDiff v with
  | zero => omega
  | succ fuel ih =>
    by_cases h : recordSize ≤ bytes.length
    · have hsplit : completeRecords recordSize bytes =
          bytes.take recordSize :: completeRecords recordSize (bytes.drop recordSize) := by
        have htake : (bytes.take recordSize).length = recordSize := by simp [h]
        have := completeRecords.append_left (by decide : 0 < recordSize) htake
          (bytes.drop recordSize)
        rwa [List.take_append_drop] at this
      have hfuel' : (bytes.drop recordSize).length < fuel := by
        have hpos : 0 < recordSize := by decide
        simp only [List.length_drop]
        omega
      rw [loadLoop_record h, ih _ _ hfuel', hsplit]
      simp [ChainVectors.append, recordVectors, runningSums]
    · have hshort : bytes.length < recordSize := by omega
      rw [loadLoop_short hshort, completeRecords.of_length_lt hshort]
      simp [ChainVectors.append, recordVectors, runningSums]

/-- `load_chain` on an open database with a block file. -/
theorem PersistentDatabase.loadChain_eq {db : PersistentDatabase} {dir : DataDir}
    {bytes : List UInt8} (hopen : db.opened = true) (hfile : dir.blocksDat = some bytes)
    (v : ChainVectors) (spent : Finset Text) :
    db.loadChain dir v spent =
      (true, v.append (recordVectors 0 (completeRecords recordSize bytes)),
        spent ∪ (nonEmptyLines (dir.keyImagesDat.getD [])).toFinset) := by
  have hloop := loadLoop_eq bytes (bytes.length + 1) 0 (by omega) 0 v
  simp only [IStream.opened] at hloop
  simp [loadChain, hopen, hfile, hloop]

end RandomLite
