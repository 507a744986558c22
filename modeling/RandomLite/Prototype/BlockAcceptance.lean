-- SUMMARY: What accepting one block commits, in memory and on disk, and which of its fields the proof of work binds.
import RandomLite.Prototype.CrashRecovery

/-!
# Block acceptance

Two laws of a single call of `add_new_block`. The first compares memory and disk:
the result of `save_block` is ignored, so a block whose record does not reach the
file is accepted all the same, and from then on the file describes another chain than
the vectors. The second compares two blocks under one hash field: the proof of work is
computed from that field alone.
-/

namespace RandomLite

/-! ## Memory and disk -/

/-- What of the chain in memory the block file is to hold. -/
def Blockchain.stored (c : Blockchain) : ChainVectors :=
  { blocks := c.blocks.map Block.stored
    timestamps := c.timestamps
    cumulativeDifficulties := c.cumulativeDifficulties }

/-- Memory and disk describe the same chain: the block file is a sequence of whole records,
    and loading it brings the vectors in memory. -/
structure Node.InStep (n : Node) : Prop where
  whole : ∃ bytes, n.dir.blocksDat = some bytes ∧ recordSize ∣ bytes.length
  loaded : n.dir.loaded = n.chain.stored

/-- All or nothing: a refused block leaves the vectors, the spent set, the pool and
    the block file as they were; an accepted one extends the vectors and leaves behind
    exactly its record; and where memory and disk described the same chain they still do. -/
def Node.AllOrNothing (P : Platform) (n : Node) (b : Block) (now : UInt64) (io : AppendOutcome) :
    Prop :=
  let (r, n') := n.addNewBlock P b now io
  (r.isOk = false →
    n'.chain.blocks = n.chain.blocks ∧ n'.chain.timestamps = n.chain.timestamps ∧
      n'.chain.cumulativeDifficulties = n.chain.cumulativeDifficulties ∧
      n'.chain.spentKeyImages = n.chain.spentKeyImages ∧ n'.chain.txPool = n.chain.txPool ∧
      n'.dir.blocksDat = n.dir.blocksDat) ∧
  (r.isOk = true →
    n'.chain.blocks = n.chain.blocks ++ [b] ∧
      n'.chain.timestamps = n.chain.timestamps ++ [b.timestamp] ∧
      n'.chain.cumulativeDifficulties = n.chain.cumulativeDifficulties ++
        [n.chain.cumulativeDifficulties.getLastD 0 + n.chain.getCurrentDifficulty P] ∧
      n'.dir.blocksDat = some (n.dir.blocksDat.getD [] ++
        blockRecord b n.chain.getCurrentHeight (n.chain.getCurrentDifficulty P))) ∧
  (n.InStep → n'.InStep)

/-- The whole record reaches the file exactly when the database is open and the
    append is complete. -/
theorem PersistentDatabase.saveBlock_complete_iff (db : PersistentDatabase) (dir : DataDir)
    (b : Block) (height difficulty : UInt64) (io : AppendOutcome) :
    (db.saveBlock dir b height difficulty io).2.blocksDat =
        some (dir.blocksDat.getD [] ++ blockRecord b height difficulty) ↔
      db.opened = true ∧ io.Complete := by
  have hlen := length_blockRecord b height difficulty
  -- A file left alone is too short to hold the record.
  have hunchanged : dir.blocksDat ≠ some (dir.blocksDat.getD [] ++ blockRecord b height difficulty) := by
    intro heq
    have hcount := congrArg (fun f => (Option.getD f []).length) heq
    simp only [Option.getD_some, List.length_append, hlen, recordSize] at hcount
    omega
  cases io with
  | openFails => exact iff_of_false hunchanged fun h => h.2
  | wrote k =>
    simp only [saveBlock]
    by_cases hopen : db.opened = true
    · simp only [hopen, if_true, Option.some.injEq, List.append_cancel_left_eq, true_and,
        AppendOutcome.Complete, List.take_eq_self_iff, hlen]
    · rw [if_neg hopen]
      exact iff_of_false hunchanged fun h => hopen h.1

/-- A record behind a whole file is loaded behind what the file held. -/
theorem DataDir.loaded_append {dir dir' : DataDir} {bytes : List UInt8} {b : Block}
    {height difficulty : UInt64} (hfile : dir.blocksDat = some bytes)
    (hwhole : recordSize ∣ bytes.length)
    (hfile' : dir'.blocksDat = some (bytes ++ blockRecord b height difficulty)) :
    dir'.loaded = dir.loaded.append
      { blocks := [b.stored], timestamps := [b.timestamp],
        cumulativeDifficulties := [dir.loaded.cumulativeDifficulties.getLastD 0 + difficulty] } := by
  have hlast : completeRecords recordSize (blockRecord b height difficulty) =
      [blockRecord b height difficulty] := by
    have h := completeRecords.append_left (by decide : 0 < recordSize)
      (length_blockRecord b height difficulty) []
    rwa [List.append_nil, completeRecords.of_length_lt (by decide : [].length < recordSize)] at h
  have hrecords := completeRecords.append_of_dvd (by decide : 0 < recordSize) hwhole
    (blockRecord b height difficulty)
  rw [DataDir.loaded_eq hfile, DataDir.loaded_eq hfile', hrecords, hlast]
  simp only [recordVectors, ChainVectors.append, List.map_append, List.map_cons, List.map_nil,
    recordBlock_blockRecord, recordDifficulty_blockRecord, Block.stored_timestamp,
    runningSums.append_singleton]

namespace Node

variable {P : Platform} {n : Node} {b : Block} {now : UInt64} {io : AppendOutcome}

/-- The condition under which nothing is lost: the block is refused, or its record is
    written completely. -/
def WrittenIfAccepted (P : Platform) (n : Node) (b : Block) (now : UInt64) (io : AppendOutcome) :
    Prop :=
  ¬ n.chain.Admissible P b now ∨ n.chain.db.opened = true ∧ io.Complete

/-- A committed block whose record is written keeps memory and disk in step. -/
theorem InStep.commitBlock (h : n.InStep) (hopen : n.chain.db.opened = true) (hio : io.Complete)
    (b : Block) (diff : UInt64) : (commitBlock b diff io n).InStep := by
  obtain ⟨bytes, hfile, hwhole⟩ := h.whole
  have hfile' : (Node.commitBlock b diff io n).dir.blocksDat =
      some (bytes ++ blockRecord b n.chain.getCurrentHeight diff) := by
    have hsave := (PersistentDatabase.saveBlock_complete_iff n.chain.db n.dir b
      n.chain.getCurrentHeight diff io).mpr ⟨hopen, hio⟩
    rwa [hfile, Option.getD_some] at hsave
  refine ⟨⟨_, hfile', ?_⟩, ?_⟩
  · rw [List.length_append, length_blockRecord]
    exact Nat.dvd_add hwhole (Nat.dvd_refl recordSize)
  · rw [DataDir.loaded_append hfile hwhole hfile', h.loaded]
    simp [Node.commitBlock, Blockchain.stored, ChainVectors.append]

/-- A committed block whose record is not written puts memory ahead of the disk. -/
theorem InStep.not_commitBlock (h : n.InStep)
    (hio : ¬ (n.chain.db.opened = true ∧ io.Complete)) (b : Block) (diff : UInt64) :
    ¬ (Node.commitBlock b diff io n).InStep := by
  obtain ⟨bytes, hfile, hwhole⟩ := h.whole
  rintro ⟨⟨bytes', hfile', hwhole'⟩, hloaded⟩
  -- The file is as long as before, or it ends in a torn record.
  have hsame : (Node.commitBlock b diff io n).dir.blocksDat = n.dir.blocksDat := by
    cases io with
    | openFails => rfl
    | wrote k =>
      by_cases hopen : n.chain.db.opened = true
      · have hk : k < recordSize := Nat.not_le.mp fun hle => hio ⟨hopen, hle⟩
        have hwritten : (Node.commitBlock b diff (.wrote k) n).dir.blocksDat =
            some (bytes ++ (blockRecord b n.chain.getCurrentHeight diff).take k) := by
          simp [Node.commitBlock, PersistentDatabase.saveBlock, hopen, hfile]
        have hbytes' := Option.some.inj (hfile'.symm.trans hwritten)
        rw [hbytes', List.length_append, List.length_take, length_blockRecord,
          Nat.min_eq_left hk.le] at hwhole'
        have hzero : k = 0 :=
          Nat.eq_zero_of_dvd_of_lt ((Nat.dvd_add_right hwhole).mp hwhole') hk
        rw [hwritten, hzero, List.take_zero, List.append_nil, hfile]
      · simp [Node.commitBlock, PersistentDatabase.saveBlock, hopen]
  rw [DataDir.loaded_eq (hsame.trans hfile), ← DataDir.loaded_eq hfile, h.loaded] at hloaded
  have hcount := congrArg (fun v : ChainVectors => v.timestamps.length) hloaded
  simp [Node.commitBlock, Blockchain.stored] at hcount

/-- From a state in step, a call leaves memory and disk in step exactly if nothing is lost. -/
theorem InStep.addNewBlock_iff (P : Platform) (h : n.InStep) (b : Block) (now : UInt64)
    (io : AppendOutcome) :
    (n.addNewBlock P b now io).2.InStep ↔ n.WrittenIfAccepted P b now io := by
  rcases addNewBlock_cases P n b now io with ⟨hadm, heq⟩ | ⟨hadm, e, m, heq⟩
  · have h' : Node.InStep { n with randomx := n.randomx.ensureInitialized } := ⟨h.whole, h.loaded⟩
    rw [heq]
    constructor
    · intro hnext
      by_contra hlost
      refine h'.not_commitBlock ?_ b _ hnext
      exact fun hio => hlost (.inr hio)
    · rintro (hnot | ⟨hopen, hio⟩)
      · exact absurd hadm hnot
      · exact h'.commitBlock hopen hio b _
  · rw [heq]
    exact iff_of_true ⟨h.whole, h.loaded⟩ (.inl hadm)

/-- A call is all or nothing exactly when the block is refused or its record is
    written completely. -/
theorem allOrNothing_iff (P : Platform) (n : Node) (b : Block) (now : UInt64)
    (io : AppendOutcome) :
    n.AllOrNothing P b now io ↔
      ¬ n.chain.Admissible P b now ∨ n.chain.db.opened = true ∧ io.Complete := by
  have hstep : n.WrittenIfAccepted P b now io → n.InStep → (n.addNewBlock P b now io).2.InStep :=
    fun hcond h => (h.addNewBlock_iff P b now io).mpr hcond
  unfold AllOrNothing
  rcases addNewBlock_cases P n b now io with ⟨hadm, heq⟩ | ⟨hadm, e, m, heq⟩
  · have hsave := PersistentDatabase.saveBlock_complete_iff n.chain.db n.dir b
      n.chain.getCurrentHeight (n.chain.getCurrentDifficulty P) io
    rw [heq] at hstep ⊢
    constructor
    · intro h
      obtain ⟨-, -, -, hfile⟩ := h.2.1 rfl
      exact .inr (hsave.mp hfile)
    · rintro (hnot | hwritten)
      · exact absurd hadm hnot
      · refine ⟨fun hok => Bool.noConfusion hok, fun _ => ⟨rfl, rfl, rfl, hsave.mpr hwritten⟩, ?_⟩
        exact hstep (.inr hwritten)
  · rw [heq] at hstep ⊢
    refine iff_of_true ⟨fun _ => ⟨rfl, rfl, rfl, rfl, rfl, rfl⟩, ?_, hstep (.inl hadm)⟩ (.inl hadm)
    intro hok
    exact Bool.noConfusion hok

/-- Over a run of submissions memory and disk describe the same chain after every call
    exactly when no accepted block's record is lost. -/
theorem InStep.run_iff (P : Platform) (h : n.InStep) (subs : List Submission) :
    (blockMachine P).Throughout InStep n subs ↔
      (blockMachine P).Meets (fun n s => n.WrittenIfAccepted P s.block s.now s.io) n subs :=
  Machine.throughout_iff_meets (J := fun _ => True) subs trivial h (fun _ _ _ => trivial)
    fun _ s _ h => h.addNewBlock_iff P s.block s.now s.io

end Node

/-- A block on the genesis block. -/
def secondBlock : Block := { timestamp := genesisTimestamp + 150, prevId := genesisBlock.hash }

/-- When the block file cannot be opened, memory grows and the file does not. -/
theorem Node.not_allOrNothing :
    ¬ ∀ (P : Platform) (dir : DataDir) (n : Node), n.ReachableFrom P dir →
      ∀ (b : Block) (now : UInt64) (io : AppendOutcome), n.AllOrNothing P b now io := by
  intro h
  have hcall := h .shipped {} (Node.started {} (.wrote recordSize)) ⟨.wrote recordSize, .start⟩
    secondBlock secondBlock.timestamp .openFails
  obtain ⟨-, -, -, hfile⟩ := hcall.2.1 (by decide +kernel)
  revert hfile
  decide +kernel

/-! ## What the proof of work binds -/

/-- Block `b` is the only one with its hash field that would be accepted. -/
def Node.BindsContent (P : Platform) (n : Node) (b : Block) (now : UInt64) : Prop :=
  ∀ b' : Block, b'.hash = b.hash → b' ≠ b → ∀ io, (n.addNewBlock P b' now io).1.isOk = false

/-- Linkage and time are all that is checked besides the hash field. -/
theorem Blockchain.Admissible.of_same_hash {P : Platform} {c : Blockchain} {b b' : Block}
    {now : UInt64} (h : c.Admissible P b now) (hhash : b'.hash = b.hash) (hprev : b'.prevId = b.prevId)
    (hafter : ∀ top, c.blocks.getLast? = some top → top.timestamp < b'.timestamp)
    (hlimit : b'.timestamp ≤ now + cryptonoteBlockFutureTimeLimit) : c.Admissible P b' now := by
  obtain ⟨⟨top, htop, hlink, _⟩, _, hpow⟩ := h
  exact ⟨⟨top, htop, hprev ▸ hlink, hafter top htop⟩, hlimit, hhash ▸ hpow⟩

/-- Every block with the hash and the parent of an accepted one and a timestamp in
    range is accepted in its place, so the work of a block never binds its content. -/
theorem Node.work_reused {P : Platform} {n : Node} {b : Block} {now : UInt64} {io : AppendOutcome}
    (hok : (n.addNewBlock P b now io).1.isOk = true) :
    (∀ b' : Block, b'.hash = b.hash → b'.prevId = b.prevId →
      (∀ top, n.chain.blocks.getLast? = some top → top.timestamp < b'.timestamp) →
      b'.timestamp ≤ now + cryptonoteBlockFutureTimeLimit →
      ∀ io', (n.addNewBlock P b' now io').1.isOk = true) ∧
    ¬ n.BindsContent P b now := by
  have hadm := (addNewBlock_isOk_iff io).mp hok
  refine ⟨?_, ?_⟩
  · intro b' hhash hprev hafter hlimit io'
    exact (addNewBlock_isOk_iff io').mpr (hadm.of_same_hash hhash hprev hafter hlimit)
  · intro hbinds
    -- The same block with another nonce.
    let b' : Block := { b with nonce := b.nonce + 1 }
    have hadm' : n.chain.Admissible P b' now := by
      refine hadm.of_same_hash rfl rfl ?_ hadm.inTime
      intro top htop
      obtain ⟨top', htop', _, htime⟩ := hadm.linked
      rw [htop] at htop'
      exact Option.some.inj htop' ▸ htime
    have hne : b' ≠ b := by
      intro heq
      have hnonce : b.nonce + 1 = b.nonce := congrArg (·.nonce) heq
      exact absurd hnonce (by simp)
    have hrefused := hbinds b' rfl hne io
    rw [(addNewBlock_isOk_iff io).mpr hadm'] at hrefused
    exact Bool.noConfusion hrefused

theorem Node.work_reused_sample :
    ¬ (Node.started {} (.wrote recordSize)).BindsContent .shipped secondBlock
      secondBlock.timestamp := by
  have hok : ((Node.started {} (.wrote recordSize)).addNewBlock .shipped secondBlock
      secondBlock.timestamp (.wrote recordSize)).1.isOk = true := by decide +kernel
  exact (Node.work_reused hok).2

/-- Not even an injective hash function binds the content. -/
theorem Node.not_bindsContent :
    ¬ ∀ (P : Platform) (dir : DataDir) (n : Node), Function.Injective P.randomx →
      n.ReachableFrom P dir → ∀ (b : Block) (now : UInt64) (io : AppendOutcome),
        (n.addNewBlock P b now io).1.isOk = true → n.BindsContent P b now := by
  intro h
  have hbinds := h { Platform.shipped with randomx := id } {} (Node.started {} (.wrote recordSize))
    Function.injective_id ⟨_, .start⟩ secondBlock secondBlock.timestamp (.wrote recordSize)
    (by decide +kernel)
  have hrefused := hbinds { secondBlock with nonce := 1 } rfl (by decide +kernel) (.wrote recordSize)
  revert hrefused
  decide +kernel

end RandomLite
