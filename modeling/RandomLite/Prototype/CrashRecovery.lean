-- SUMMARY: A record torn by a crash, the blocks saved after it, and when loading still finds them.
import RandomLite.Prototype.BlockFile

/-!
# Crash recovery

Loading stops at a torn record and leaves it in the file, and the next save appends
behind it. From then on every record is read too early by the length of the tear.
-/

namespace RandomLite

/-! ## Records as the reader sees them -/

theorem leValue_field64_inj {bs bs' : List UInt8} (hlen : bs.length = 8) (hlen' : bs'.length = 8)
    (h : UInt64.ofNat (leValue bs) = UInt64.ofNat (leValue bs')) : bs = bs' := by
  have hlt : leValue bs < 2 ^ 64 := by simpa [hlen] using leValue_lt bs
  have hlt' : leValue bs' < 2 ^ 64 := by simpa [hlen'] using leValue_lt bs'
  refine leValue_inj (hlen.trans hlen'.symm) ?_
  have hnat := congrArg UInt64.toNat h
  rwa [UInt64.toNat_ofNat_of_lt' hlt, UInt64.toNat_ofNat_of_lt' hlt'] at hnat

theorem leValue_field32_inj {bs bs' : List UInt8} (hlen : bs.length = 4) (hlen' : bs'.length = 4)
    (h : UInt32.ofNat (leValue bs) = UInt32.ofNat (leValue bs')) : bs = bs' := by
  have hlt : leValue bs < 2 ^ 32 := by simpa [hlen] using leValue_lt bs
  have hlt' : leValue bs' < 2 ^ 32 := by simpa [hlen'] using leValue_lt bs'
  refine leValue_inj (hlen.trans hlen'.symm) ?_
  have hnat := congrArg UInt32.toNat h
  rwa [UInt32.toNat_ofNat_of_lt' hlt, UInt32.toNat_ofNat_of_lt' hlt'] at hnat

theorem hashOfBytes_inj {bs bs' : List UInt8} (hlen : bs.length = 32) (hlen' : bs'.length = 32)
    (h : hashOfBytes bs = hashOfBytes bs') : bs = bs' := by
  rw [← toList_hashOfBytes hlen, ← toList_hashOfBytes hlen', h]

/-- The four fields the reader keeps cover the record from its ninth byte on. -/
theorem record_drop_eq {r : List UInt8} (hr : r.length = recordSize) :
    r.drop 8 = (r.drop 8).take 8 ++
      ((r.drop 16).take 4 ++ ((r.drop 20).take 8 ++ (r.drop 28).take 32)) := by
  have hlast : (r.drop 28).take 32 = r.drop 28 :=
    List.take_of_length_le (by simp [hr, recordSize])
  have h20 : (r.drop 20).take 8 ++ r.drop 28 = r.drop 20 := by
    simpa using List.take_append_drop 8 (r.drop 20)
  have h16 : (r.drop 16).take 4 ++ r.drop 20 = r.drop 16 := by
    simpa using List.take_append_drop 4 (r.drop 16)
  have h8 : (r.drop 8).take 8 ++ r.drop 16 = r.drop 8 := by
    simpa using List.take_append_drop 8 (r.drop 8)
  rw [hlast, h20, h16, h8]

/-- The reader ignores the height of a record; everything else counts. -/
theorem record_fields_eq_iff {r r' : List UInt8} (hr : r.length = recordSize)
    (hr' : r'.length = recordSize) :
    recordBlock r = recordBlock r' ∧ recordDifficulty r = recordDifficulty r' ↔
      r.drop 8 = r'.drop 8 := by
  have field {s : List UInt8} (hs : s.length = recordSize) {i w : Nat} (hiw : i + w ≤ 60) :
      ((s.drop i).take w).length = w := by
    simp only [List.length_take, List.length_drop, hs, recordSize]
    omega
  constructor
  · rintro ⟨hblock, hdiff⟩
    simp only [recordBlock, Block.mk.injEq, BlockHeader.mk.injEq] at hblock
    obtain ⟨⟨_, _, htime, _, hnonce⟩, _, _, hhash⟩ := hblock
    have htime := leValue_field64_inj (field hr (by decide)) (field hr' (by decide)) htime
    have hnonce := leValue_field32_inj (field hr (by decide)) (field hr' (by decide)) hnonce
    have hdiff := leValue_field64_inj (field hr (by decide)) (field hr' (by decide)) hdiff
    have hhash := hashOfBytes_inj (field hr (by decide)) (field hr' (by decide)) hhash
    rw [record_drop_eq hr, record_drop_eq hr', htime, hnonce, hdiff, hhash]
  · intro h
    have hdrop (k : Nat) : r.drop (8 + k) = r'.drop (8 + k) := by
      rw [← List.drop_drop, ← List.drop_drop, h]
    have h16 := hdrop 8
    have h20 := hdrop 12
    have h28 := hdrop 20
    simp only [Nat.reduceAdd] at h16 h20 h28
    simp only [recordBlock, recordDifficulty, h, h16, h20, h28, and_self]

/-- Two files with the same records in front load alike exactly when the records that
    follow agree past the heights. -/
theorem recordVectors_append_eq_iff {front rs rs' : List (List UInt8)}
    (hrs : ∀ r ∈ rs, r.length = recordSize) (hrs' : ∀ r ∈ rs', r.length = recordSize) :
    recordVectors 0 (front ++ rs) = recordVectors 0 (front ++ rs') ↔
      rs.map (List.drop 8) = rs'.map (List.drop 8) := by
  have hfields : rs.map (List.drop 8) = rs'.map (List.drop 8) ↔
      rs.map recordBlock = rs'.map recordBlock ∧
        rs.map recordDifficulty = rs'.map recordDifficulty := by
    induction rs generalizing rs' with
    | nil => cases rs' <;> simp
    | cons r rs ih =>
      cases rs' with
      | nil => simp
      | cons r' rs' =>
        have hhead := record_fields_eq_iff (hrs r List.mem_cons_self) (hrs' r' List.mem_cons_self)
        have htail := ih (fun s hs => hrs s (List.mem_cons_of_mem _ hs))
          (fun s hs => hrs' s (List.mem_cons_of_mem _ hs))
        simp only [List.map_cons, List.cons.injEq, htail, ← hhead]
        tauto
  rw [hfields]
  constructor
  · intro h
    have hblocks := congrArg ChainVectors.blocks h
    have hsums := congrArg ChainVectors.cumulativeDifficulties h
    simp only [recordVectors, List.map_append, List.append_cancel_left_eq] at hblocks hsums
    have hdiffs := runningSums.inj hsums
    exact ⟨hblocks, List.append_cancel_left hdiffs⟩
  · rintro ⟨hblocks, hdiffs⟩
    have htimes : rs.map (fun r => (recordBlock r).timestamp) =
        rs'.map (fun r => (recordBlock r).timestamp) := by
      have hmap := congrArg (List.map fun b : Block => b.timestamp) hblocks
      simpa only [List.map_map, Function.comp_def] using hmap
    simp only [recordVectors, List.map_append, hblocks, hdiffs, htimes]

/-! ## Blocks saved behind a tear -/

/-- The vectors a later `load_chain` finds in a directory. -/
def DataDir.loaded (dir : DataDir) : ChainVectors :=
  (({ opened := true } : PersistentDatabase).loadChain dir {} ∅).2.1

theorem DataDir.loaded_eq {dir : DataDir} {bytes : List UInt8} (hfile : dir.blocksDat = some bytes) :
    dir.loaded = recordVectors 0 (completeRecords recordSize bytes) := by
  rw [loaded, PersistentDatabase.loadChain_eq rfl hfile]
  simp [ChainVectors.append]

/-- After a crash that left `torn` behind a saved chain, and blocks accepted on the
    reopened directory, loading finds the saved blocks and then the accepted ones
    exactly when, outside the heights, every byte of the accepted blocks' records is
    the byte `torn.length` places before it. -/
theorem Node.loaded_after_crash_iff (P : Platform) {saved : List (Block × UInt64)}
    (hsaved : saved ≠ []) {torn : List UInt8} (_htorn : torn ≠ [])
    (hshort : torn.length < recordSize) (keyImagesDat : Option Text) (io : AppendOutcome)
    (subs : List Submission) (hsubs : ∀ s ∈ subs, s.io.Complete) :
    let dir : DataDir :=
      { blocksDat := some ((chainRecords 0 saved).flatten ++ torn), keyImagesDat := keyImagesDat }
    let n := Node.started dir io
    let accepted := acceptedBlocks subs ((blockMachine P).replies n subs)
    let appended := (chainRecords saved.length accepted).flatten
    ((blockMachine P).final n subs).dir.loaded = storedVectors (saved ++ accepted) ↔
      ∀ q, q < appended.length → 8 ≤ q % recordSize → (torn ++ appended)[q]? = appended[q]? := by
  intro dir n accepted appended
  have hpos : 0 < recordSize := by decide
  -- Opening the directory finds the saved chain.
  obtain ⟨hblocks, _, _, hopen, hdir⟩ := Node.started_of_saved dir hsaved rfl hshort io
  have hheight : n.chain.blocks.length = saved.length := by
    rw [hblocks, storedVectors, List.length_map]
  -- The run appends the records of the accepted blocks.
  have hrun := Node.Extended.run P hopen (by rw [hdir]) subs hsubs
  have hfile : ((blockMachine P).final n subs).dir.blocksDat =
      some ((chainRecords 0 saved).flatten ++ (torn ++ appended)) := by
    have hdat := hrun.blocksDat_eq
    rwa [hdir, hheight, Option.getD_some, List.append_assoc] at hdat
  have hcount : (torn ++ appended).length / recordSize = appended.length / recordSize := by
    rw [List.length_append, length_flatten_chainRecords, Nat.add_mul_div_left _ _ hpos,
      Nat.div_eq_of_lt hshort, Nat.mul_div_cancel_left _ hpos, Nat.zero_add]
  have hsize : recordSize * (appended.length / recordSize) = appended.length := by
    rw [length_flatten_chainRecords, Nat.mul_div_cancel_left _ hpos]
  have happended : completeRecords recordSize appended = chainRecords saved.length accepted := by
    have hcut : completeRecords recordSize (appended ++ []) = _ :=
      completeRecords_torn saved.length accepted hpos
    rwa [List.append_nil] at hcut
  rw [DataDir.loaded_eq hfile, completeRecords_chainRecords, ← recordVectors_chainRecords 0,
    chainRecords_append, Nat.zero_add, ← happended,
    recordVectors_append_eq_iff (fun _ => completeRecords.length_of_mem)
      (fun _ => completeRecords.length_of_mem),
    completeRecords.map_drop_eq_iff hpos 8 hcount, hsize]

/-- A saved genesis block, the first byte of the record of height 1, and a block
    accepted after the crash. -/
def submissionAfterCrash : Submission :=
  { block := { timestamp := genesisTimestamp + 150, prevId := genesisBlock.hash }
    now := genesisTimestamp + 150
    io := .wrote recordSize }

theorem Node.loaded_after_crash_iff_sample :
    let n := Node.started { blocksDat := some ((chainRecords 0 [(genesisBlock, 1)]).flatten ++ [1]) }
      .openFails
    let accepted := acceptedBlocks [submissionAfterCrash]
      ((blockMachine .shipped).replies n [submissionAfterCrash])
    let appended := (chainRecords 1 accepted).flatten
    ((blockMachine .shipped).final n [submissionAfterCrash]).dir.loaded =
        storedVectors ([(genesisBlock, 1)] ++ accepted) ↔
      ∀ q, q < appended.length → 8 ≤ q % recordSize → ([1] ++ appended)[q]? = appended[q]? :=
  Node.loaded_after_crash_iff .shipped (by decide) (by decide) (by decide) none .openFails
    [submissionAfterCrash] (by decide)

/-- The accepted block is not found again: its record is read one byte too early. -/
theorem Node.loaded_after_crash_differs :
    ¬ ∀ (P : Platform) (saved : List (Block × UInt64)) (torn : List UInt8) (io : AppendOutcome)
      (subs : List Submission), saved ≠ [] → torn ≠ [] → torn.length < recordSize →
      (∀ s ∈ subs, s.io.Complete) →
      let n := Node.started { blocksDat := some ((chainRecords 0 saved).flatten ++ torn) } io
      ((blockMachine P).final n subs).dir.loaded =
        storedVectors (saved ++ acceptedBlocks subs ((blockMachine P).replies n subs)) := by
  intro h
  have hloaded := h .shipped [(genesisBlock, 1)] [1] .openFails [submissionAfterCrash]
    (by decide) (by decide) (by decide) (by decide)
  revert hloaded
  decide +kernel

end RandomLite
