-- SUMMARY: The record format of the block file: what arbitrary bytes load as, and which saved blocks load as themselves.
import Mathlib.Computability.StateTransition
import RandomLite.Prototype.BlockFile

/-!
# Record format

The read loop of `load_chain` one turn at a time, on any bytes: it leaves after the
last complete record, whatever follows, and every field of what it yields sits at a
fixed offset. Against it stands what `save_block` writes, which is part of a block.
-/

namespace RandomLite

open StateTransition (eval Reaches mem_eval reaches_eval)

/-! ## One turn of the read loop -/

/-- The variables of the read loop between two turns. -/
structure LoadState where
  inp : IStream
  cumDiff : UInt64
  vectors : ChainVectors

/-- One turn of the read loop of `load_chain`; `none` when the loop is left. -/
def loadTurn (s : LoadState) : Option LoadState :=
  let (next, inp) := s.inp.peek
  if next.isNone then none
  else
    let (_height, inp) := inp.read 8
    let (timestamp, inp) := inp.read 8
    let (nonce, inp) := inp.read 4
    let (difficulty, inp) := inp.read 8
    let (hashVal, inp) := inp.read 32
    if inp.gcount < 32 then none
    else
      let b : Block :=
        { timestamp := UInt64.ofNat (leValue timestamp)
          nonce := UInt32.ofNat (leValue nonce)
          hash := hashOfBytes hashVal }
      let cumDiff := s.cumDiff + UInt64.ofNat (leValue difficulty)
      some
        { inp := inp
          cumDiff := cumDiff
          vectors :=
            { blocks := s.vectors.blocks ++ [b]
              timestamps := s.vectors.timestamps ++ [b.timestamp]
              cumulativeDifficulties := s.vectors.cumulativeDifficulties ++ [cumDiff] } }

theorem loadLoop_leave {s : LoadState} (h : loadTurn s = none) (fuel : Nat) :
    loadLoop (fuel + 1) s.inp s.cumDiff s.vectors = s.vectors := by
  simp only [loadTurn] at h
  simp only [loadLoop]
  split at h
  · rename_i hnext
    rw [if_pos hnext]
  · rename_i hnext
    rw [if_neg hnext]
    split at h
    · rename_i hcount
      rw [if_pos hcount]
    · cases h

theorem loadLoop_turn {s t : LoadState} (h : loadTurn s = some t) (fuel : Nat) :
    loadLoop (fuel + 1) s.inp s.cumDiff s.vectors = loadLoop fuel t.inp t.cumDiff t.vectors := by
  simp only [loadTurn] at h
  simp only [loadLoop]
  split at h
  · cases h
  · rename_i hnext
    rw [if_neg hnext]
    split at h
    · cases h
    · rename_i hcount
      rw [if_neg hcount]
      cases h
      rfl

/-- A turn that stays in the loop takes bytes off the stream. -/
theorem loadTurn_rest_lt {s t : LoadState} (h : loadTurn s = some t) :
    t.inp.rest.length < s.inp.rest.length := by
  simp only [loadTurn] at h
  split at h
  · cases h
  rename_i hnext
  split at h
  · cases h
  cases h
  have hpeek : s.inp.peek.2.rest.length = s.inp.rest.length ∧ 0 < s.inp.rest.length ∧
      s.inp.peek.2.good = true := by
    revert hnext
    simp only [IStream.peek]
    split
    · rename_i hgood
      split
      · simp
      · rename_i hrest
        simp_all [IStream.good]
    · simp
  obtain ⟨hsame, hpos, hgood⟩ := hpeek
  have hfirst : (s.inp.peek.2.read 8).2.rest.length < s.inp.rest.length := by
    simp only [IStream.read, hgood, if_true, List.length_drop, hsame]
    omega
  calc _ ≤ (s.inp.peek.2.read 8).2.rest.length := by
          refine (IStream.length_rest_read _ _).trans ?_
          refine (IStream.length_rest_read _ _).trans ?_
          refine (IStream.length_rest_read _ _).trans ?_
          exact IStream.length_rest_read _ _
    _ < s.inp.rest.length := hfirst

/-- From every state the loop is left, with the vectors the bounded loop returns. -/
theorem exists_mem_eval_loadTurn (fuel : Nat) (s : LoadState) (h : s.inp.rest.length < fuel) :
    ∃ t ∈ eval loadTurn s, t.vectors = loadLoop fuel s.inp s.cumDiff s.vectors := by
  induction fuel generalizing s with
  | zero => omega
  | succ fuel ih =>
    cases hturn : loadTurn s with
    | none =>
      refine ⟨s, mem_eval.mpr ⟨.refl, hturn⟩, ?_⟩
      rw [loadLoop_leave hturn]
    | some s' =>
      have hlt := loadTurn_rest_lt hturn
      obtain ⟨t, ht, hvectors⟩ := ih s' (by omega)
      refine ⟨t, ?_, ?_⟩
      · rw [reaches_eval (.single hturn)]
        exact ht
      · rw [hvectors, loadLoop_turn hturn]

/-! ## Arbitrary bytes -/

/-- The integer field of `w` bytes at `offset` in the `i`-th record of a file. -/
def fieldAt (bytes : List UInt8) (i offset w : Nat) : Nat :=
  leValue ((bytes.drop (60 * i + offset)).take w)

/-- The block in the `i`-th record of a file. -/
def blockAt (bytes : List UInt8) (i : Nat) : Block :=
  { timestamp := UInt64.ofNat (fieldAt bytes i 8 8)
    nonce := UInt32.ofNat (fieldAt bytes i 16 4)
    hash := hashOfBytes ((bytes.drop (60 * i + 28)).take 32) }

/-- What a file decodes to: a block for every 60 bytes, and the sums modulo `2 ^ 64`
    of the stored difficulties. -/
def decodedVectors (bytes : List UInt8) : ChainVectors :=
  let n := bytes.length / 60
  { blocks := (List.range n).map (blockAt bytes)
    timestamps := (List.range n).map fun i => UInt64.ofNat (fieldAt bytes i 8 8)
    cumulativeDifficulties := (List.range n).map fun i =>
      UInt64.ofNat (((List.range (i + 1)).map fun j => fieldAt bytes j 20 8).sum) }

theorem recordBlock_eq_blockAt (bytes : List UInt8) (i : Nat) :
    recordBlock ((bytes.drop (60 * i)).take 60) = blockAt bytes i := by
  simp [recordBlock, blockAt, fieldAt, List.drop_take, List.take_take]

theorem recordDifficulty_eq_fieldAt (bytes : List UInt8) (i : Nat) :
    recordDifficulty ((bytes.drop (60 * i)).take 60) = UInt64.ofNat (fieldAt bytes i 20 8) := by
  simp [recordDifficulty, fieldAt, List.drop_take, List.take_take]

/-- The complete records of a file, read as vectors, are what the file decodes to. -/
theorem recordVectors_completeRecords (bytes : List UInt8) :
    recordVectors 0 (completeRecords recordSize bytes) = decodedVectors bytes := by
  have hrecord : ((fun r => (recordBlock r).timestamp) ∘ fun i => (bytes.drop (60 * i)).take 60) =
      fun i => UInt64.ofNat (fieldAt bytes i 8 8) := by
    funext i
    exact congrArg (·.timestamp) (recordBlock_eq_blockAt bytes i)
  have hblock : (recordBlock ∘ fun i => (bytes.drop (60 * i)).take 60) = blockAt bytes :=
    funext (recordBlock_eq_blockAt bytes)
  have hdifficulty : (recordDifficulty ∘ fun i => (bytes.drop (60 * i)).take 60) =
      UInt64.ofNat ∘ fun i => fieldAt bytes i 20 8 :=
    funext (recordDifficulty_eq_fieldAt bytes)
  simp only [recordVectors, decodedVectors, completeRecords, recordSize, List.map_map, hrecord,
    hblock, hdifficulty]
  congr 1
  have hsums := runningSums.map_ofNat 0
    ((List.range (bytes.length / 60)).map fun i => fieldAt bytes i 20 8)
  rw [List.map_map, List.length_map, List.length_range] at hsums
  refine hsums.trans (List.map_congr_left ?_)
  intro i hi
  have hlt : i < bytes.length / 60 := List.mem_range.mp hi
  rw [← List.map_take, List.take_range, Nat.min_eq_left hlt, Nat.zero_add]

/-- `load_chain` on any bytes: the read loop is left, and what it appended is exactly
    the complete records. -/
theorem PersistentDatabase.loadChain_decodes (bytes : List UInt8) (keys : Option Text)
    (v : ChainVectors) (spent : Finset Text) :
    (∃ t ∈ eval loadTurn { inp := { rest := bytes }, cumDiff := 0, vectors := v },
      t.vectors = v.append (decodedVectors bytes)) ∧
    (({ opened := true } : PersistentDatabase).loadChain
      { blocksDat := some bytes, keyImagesDat := keys } v spent).2.1 =
        v.append (decodedVectors bytes) := by
  have hloop := loadLoop_eq bytes (bytes.length + 1) 0 (by omega) 0 v
  rw [recordVectors_completeRecords] at hloop
  constructor
  · obtain ⟨t, ht, hvectors⟩ := exists_mem_eval_loadTurn (bytes.length + 1)
      { inp := { rest := bytes }, cumDiff := 0, vectors := v } (Nat.lt_succ_self _)
    refine ⟨t, ht, ?_⟩
    rw [hvectors]
    exact hloop
  · exact hloop

/-! ## Saved blocks -/

/-- The arguments of one call of `save_block`. -/
structure SavedBlock where
  block : Block
  height : UInt64
  difficulty : UInt64
  deriving DecidableEq, Repr

/-- Calls of `save_block` one after another, each writing its whole record. -/
def PersistentDatabase.saveBlocks (db : PersistentDatabase) (dir : DataDir)
    (saved : List SavedBlock) : DataDir :=
  saved.foldl
    (fun dir s => (db.saveBlock dir s.block s.height s.difficulty (.wrote recordSize)).2) dir

/-- The records of the calls. -/
def savedRecords (saved : List SavedBlock) : List (List UInt8) :=
  saved.map fun s => blockRecord s.block s.height s.difficulty

theorem PersistentDatabase.saveBlocks_blocksDat {db : PersistentDatabase}
    (hopen : db.opened = true) {dir : DataDir} {bytes : List UInt8}
    (hfile : dir.blocksDat = some bytes) (saved : List SavedBlock) :
    (db.saveBlocks dir saved).blocksDat = some (bytes ++ (savedRecords saved).flatten) := by
  induction saved generalizing dir bytes with
  | nil => simpa [saveBlocks, savedRecords] using hfile
  | cons s rest ih =>
    have hcomplete : (AppendOutcome.wrote recordSize).Complete := Nat.le_refl recordSize
    have hsave : (db.saveBlock dir s.block s.height s.difficulty (.wrote recordSize)).2.blocksDat =
        some (bytes ++ blockRecord s.block s.height s.difficulty) := by
      rw [saveBlock_of_complete hopen dir s.block s.height s.difficulty hcomplete, hfile]
      rfl
    have hrest := ih hsave
    simp only [saveBlocks, List.foldl_cons] at hrest ⊢
    rw [hrest]
    simp [savedRecords]

/-- Saving into a fresh directory leaves nothing but the records. -/
theorem PersistentDatabase.saveBlocks_fresh {db : PersistentDatabase} (hopen : db.opened = true)
    {saved : List SavedBlock} (hne : saved ≠ []) :
    (db.saveBlocks {} saved).blocksDat = some (savedRecords saved).flatten := by
  cases saved with
  | nil => exact absurd rfl hne
  | cons s rest =>
    have hcomplete : (AppendOutcome.wrote recordSize).Complete := Nat.le_refl recordSize
    have hsave : (db.saveBlock {} s.block s.height s.difficulty (.wrote recordSize)).2.blocksDat =
        some (blockRecord s.block s.height s.difficulty) := by
      rw [saveBlock_of_complete hopen {} s.block s.height s.difficulty hcomplete]
      rfl
    have hrest := saveBlocks_blocksDat hopen hsave rest
    simp only [saveBlocks, List.foldl_cons] at hrest ⊢
    rw [hrest]
    rfl

/-- What a fresh directory loads as after the calls. -/
def reloaded (saved : List SavedBlock) : ChainVectors :=
  let db : PersistentDatabase := { opened := true }
  (db.loadChain (db.saveBlocks {} saved) {} ∅).2.1

/-- What was saved: the blocks, their timestamps, and the prefix sums of the
    difficulties. -/
def savedVectors (saved : List SavedBlock) : ChainVectors :=
  { blocks := saved.map (·.block)
    timestamps := saved.map (·.block.timestamp)
    cumulativeDifficulties := runningSums 0 (saved.map (·.difficulty)) }

/-- Saved blocks come back reduced to their timestamp, nonce and hash. -/
theorem reloaded_eq (saved : List SavedBlock) :
    reloaded saved = { savedVectors saved with blocks := saved.map (·.block.stored) } := by
  cases saved with
  | nil => rfl
  | cons s rest =>
    have hopen : ({ opened := true } : PersistentDatabase).opened = true := rfl
    have hfile := PersistentDatabase.saveBlocks_fresh hopen (List.cons_ne_nil s rest)
    have hwidth : ∀ r ∈ savedRecords (s :: rest), r.length = recordSize := by
      intro r hr
      obtain ⟨s', _, rfl⟩ := List.mem_map.mp hr
      exact length_blockRecord _ _ _
    have hnone : completeRecords recordSize ([] : List UInt8) = [] := rfl
    have hrecords := completeRecords.flatten_append (by decide : 0 < recordSize) hwidth []
    rw [List.append_nil, hnone, List.append_nil] at hrecords
    simp only [reloaded]
    rw [PersistentDatabase.loadChain_eq hopen hfile, hrecords]
    simp [recordVectors, savedVectors, savedRecords, ChainVectors.append, Function.comp_def,
      recordBlock_blockRecord, recordDifficulty_blockRecord]

/-- A block without anything `save_block` does not write. -/
structure Block.Bare (b : Block) : Prop where
  majorVersion : b.majorVersion = 0
  minorVersion : b.minorVersion = 0
  prevId : b.prevId = zeroHash
  minerTx : b.minerTx = {}
  txHashes : b.txHashes = []

theorem Block.bare_iff (b : Block) : b.Bare ↔ b.stored = b := by
  constructor
  · intro ⟨hmajor, hminor, hprev, hminer, htxs⟩
    obtain ⟨⟨major, minor, timestamp, prev, nonce⟩, miner, txs, hash⟩ := b
    simp only at hmajor hminor hprev hminer htxs
    subst hmajor hminor hprev hminer htxs
    rfl
  · intro h
    rw [← h]
    exact ⟨rfl, rfl, rfl, rfl, rfl⟩

/-- Saved blocks load as themselves exactly when all of them are bare. -/
theorem reloaded_eq_saved_iff (saved : List SavedBlock) :
    reloaded saved = savedVectors saved ↔ ∀ s ∈ saved, s.block.Bare := by
  rw [reloaded_eq]
  constructor
  · intro h s hs
    have hblocks : saved.map (·.block.stored) = saved.map (·.block) :=
      congrArg ChainVectors.blocks h
    apply (Block.bare_iff _).mpr
    exact List.map_inj_left.mp hblocks s hs
  · intro h
    have hblocks : saved.map (·.block.stored) = saved.map (·.block) := by
      apply List.map_congr_left
      intro s hs
      exact (Block.bare_iff _).mp (h s hs)
    rw [hblocks]
    rfl

/-- The genesis block, saved on its own, comes back with another version. -/
theorem reloaded_ne_saved :
    ¬ ∀ saved : List SavedBlock, reloaded saved = savedVectors saved := by
  intro h
  have hgenesis := h [{ block := genesisBlock, height := 0, difficulty := 1 }]
  revert hgenesis
  decide +kernel

end RandomLite
