-- SUMMARY: The block file as a sequence of records: what a saved chain loads as, and how accepted blocks extend it.
import RandomLite.Prototype.Blockchain

/-!
# The block file

A chain is saved as the concatenation of its records, each under its height. This
module says what such a file loads as and what a run of submissions whose writes
are complete appends to the file of an open database, whatever the file held.
-/

namespace RandomLite

/-! ## Saved chains -/

/-- The records of a list of blocks with their difficulties, from `height` on. -/
def chainRecords (height : Nat) : List (Block × UInt64) → List (List UInt8)
  | [] => []
  | (b, difficulty) :: rest =>
    blockRecord b (UInt64.ofNat height) difficulty :: chainRecords (height + 1) rest

@[simp] theorem length_chainRecords (height : Nat) (saved : List (Block × UInt64)) :
    (chainRecords height saved).length = saved.length := by
  induction saved generalizing height with
  | nil => rfl
  | cons s rest ih => simp [chainRecords, ih]

theorem chainRecords_append (height : Nat) (saved saved' : List (Block × UInt64)) :
    chainRecords height (saved ++ saved') =
      chainRecords height saved ++ chainRecords (height + saved.length) saved' := by
  induction saved generalizing height with
  | nil => rfl
  | cons s rest ih =>
    simp only [List.cons_append, chainRecords, ih, List.length_cons]
    rw [Nat.add_assoc, Nat.add_comm 1]

/-- Every record has 60 bytes. -/
theorem length_of_mem_chainRecords {height : Nat} {saved : List (Block × UInt64)} {r : List UInt8}
    (h : r ∈ chainRecords height saved) : r.length = recordSize := by
  induction saved generalizing height with
  | nil => simp [chainRecords] at h
  | cons s rest ih =>
    rw [chainRecords, List.mem_cons] at h
    rcases h with rfl | h
    · exact length_blockRecord _ _ _
    · exact ih h

theorem length_flatten_chainRecords (height : Nat) (saved : List (Block × UInt64)) :
    (chainRecords height saved).flatten.length = recordSize * saved.length := by
  induction saved generalizing height with
  | nil => rfl
  | cons s rest ih =>
    simp only [chainRecords, List.flatten_cons, List.length_append, length_blockRecord, ih,
      List.length_cons, Nat.mul_succ]
    omega

/-- What is left of a chain on disk. -/
def storedVectors (saved : List (Block × UInt64)) : ChainVectors :=
  { blocks := saved.map (·.1.stored)
    timestamps := saved.map (·.1.timestamp)
    cumulativeDifficulties := runningSums 0 (saved.map (·.2)) }

theorem map_recordBlock_chainRecords (height : Nat) (saved : List (Block × UInt64)) :
    (chainRecords height saved).map recordBlock = saved.map (·.1.stored) := by
  induction saved generalizing height with
  | nil => rfl
  | cons s rest ih => simp [chainRecords, recordBlock_blockRecord, ih]

theorem map_recordDifficulty_chainRecords (height : Nat) (saved : List (Block × UInt64)) :
    (chainRecords height saved).map recordDifficulty = saved.map (·.2) := by
  induction saved generalizing height with
  | nil => rfl
  | cons s rest ih => simp [chainRecords, recordDifficulty_blockRecord, ih]

theorem recordVectors_chainRecords (height : Nat) (saved : List (Block × UInt64)) :
    recordVectors 0 (chainRecords height saved) = storedVectors saved := by
  have hblocks := map_recordBlock_chainRecords height saved
  have htimes : (chainRecords height saved).map (fun r => (recordBlock r).timestamp) =
      saved.map (·.1.timestamp) := by
    have hmap := congrArg (List.map fun b : Block => b.timestamp) hblocks
    simpa only [List.map_map, Function.comp_def, Block.stored_timestamp] using hmap
  simp only [recordVectors, storedVectors, hblocks, htimes, map_recordDifficulty_chainRecords]

/-- The complete records of a file are those of the chain saved in it, followed by
    those of whatever comes after. -/
theorem completeRecords_chainRecords (height : Nat) (saved : List (Block × UInt64))
    (rest : List UInt8) :
    completeRecords recordSize ((chainRecords height saved).flatten ++ rest) =
      chainRecords height saved ++ completeRecords recordSize rest :=
  completeRecords.flatten_append (by decide) (fun _ h => length_of_mem_chainRecords h) rest

/-- A torn record at the end is not read. -/
theorem completeRecords_torn (height : Nat) (saved : List (Block × UInt64)) {torn : List UInt8}
    (hshort : torn.length < recordSize) :
    completeRecords recordSize ((chainRecords height saved).flatten ++ torn) =
      chainRecords height saved := by
  rw [completeRecords_chainRecords, completeRecords.of_length_lt hshort, List.append_nil]

/-! ## Opening a directory -/

/-- A directory with a saved chain loads, whatever torn record follows; nothing is written. -/
theorem Node.started_of_saved (dir : DataDir) {saved : List (Block × UInt64)} (hne : saved ≠ [])
    {torn : List UInt8}
    (hfile : dir.blocksDat = some ((chainRecords 0 saved).flatten ++ torn))
    (hshort : torn.length < recordSize) (io : AppendOutcome) :
    let v := storedVectors saved
    let n := Node.started dir io
    n.chain.blocks = v.blocks ∧ n.chain.timestamps = v.timestamps ∧
      n.chain.cumulativeDifficulties = v.cumulativeDifficulties ∧
      n.chain.db.opened = true ∧ n.dir = dir := by
  intro v n
  have hblocks : v.blocks.isEmpty = false := by
    simpa [v, storedVectors] using hne
  have hstarted : n = { chain := { blocks := v.blocks, timestamps := v.timestamps,
                                   cumulativeDifficulties := v.cumulativeDifficulties,
                                   db := { opened := true },
                                   spentKeyImages :=
                                     ∅ ∪ (nonEmptyLines (dir.keyImagesDat.getD [])).toFinset }
                        dir := dir
                        randomx := RandomXManager.initDataset {} "randomlite_genesis_seed" 22 } := by
    have hopen : ({ opened := true } : PersistentDatabase).opened = true := rfl
    have hload := PersistentDatabase.loadChain_eq hopen hfile {} ∅
    rw [completeRecords_torn 0 saved hshort, recordVectors_chainRecords] at hload
    simp only [n, started, init, PersistentDatabase.open, hload, ChainVectors.append,
      List.nil_append]
    rw [show (storedVectors saved).blocks.isEmpty = false from hblocks]
    rfl
  rw [hstarted]
  exact ⟨rfl, rfl, rfl, rfl, rfl⟩

/-! ## Submissions whose writes are complete -/

/-- The append reaches the file with a whole record. -/
def AppendOutcome.Complete : AppendOutcome → Prop
  | .openFails => False
  | .wrote k => recordSize ≤ k

instance (io : AppendOutcome) : Decidable io.Complete := by
  unfold AppendOutcome.Complete
  cases io <;> infer_instance

/-- A complete save appends the record to the file. -/
theorem PersistentDatabase.saveBlock_of_complete {db : PersistentDatabase} (hopen : db.opened = true)
    (dir : DataDir) (b : Block) (height difficulty : UInt64) {io : AppendOutcome}
    (hio : io.Complete) :
    (db.saveBlock dir b height difficulty io).2 = { dir with
      blocksDat := some (dir.blocksDat.getD [] ++ blockRecord b height difficulty) } := by
  cases io with
  | openFails => exact hio.elim
  | wrote k =>
    have htake : (blockRecord b height difficulty).take k = blockRecord b height difficulty := by
      rw [List.take_of_length_le]
      rw [length_blockRecord]
      exact hio
    simp [saveBlock, hopen, htake]

/-- The blocks a run accepted, with the difficulties they were held to. -/
def acceptedBlocks (subs : List Submission) (replies : List (Except Node.AddBlockError UInt64)) :
    List (Block × UInt64) :=
  (subs.zip replies).filterMap fun (s, r) => r.toOption.map (s.block, ·)

/-- What a run of submissions has left behind in a node that started as `n₀`: the
    accepted blocks and their records, and nothing else. -/
structure Node.Extended (n₀ : Node) (accepted : List (Block × UInt64)) (n : Node) : Prop where
  opened : n.chain.db.opened = true
  blocks_eq : n.chain.blocks = n₀.chain.blocks ++ accepted.map (·.1)
  blocksDat_eq : n.dir.blocksDat = some (n₀.dir.blocksDat.getD [] ++
    (chainRecords n₀.chain.blocks.length accepted).flatten)

theorem Node.Extended.submit {P : Platform} {n₀ n : Node} {accepted : List (Block × UInt64)}
    (h : n₀.Extended accepted n) (s : Submission) (hs : s.io.Complete) :
    n₀.Extended (accepted ++ acceptedBlocks [s] [((blockMachine P).step n s).1])
      ((blockMachine P).step n s).2 := by
  rcases Node.addNewBlock_cases P n s.block s.now s.io with ⟨_, heq⟩ | ⟨_, e, m, heq⟩
  · have hheight : n.chain.getCurrentHeight =
        UInt64.ofNat (n₀.chain.blocks.length + accepted.length) := by
      rw [Blockchain.getCurrentHeight, h.blocks_eq, List.length_append, List.length_map]
    simp only [blockMachine, heq]
    refine ⟨h.opened, ?_, ?_⟩
    · simp [Node.commitBlock, h.blocks_eq, acceptedBlocks, Except.toOption]
    · simp only [Node.commitBlock]
      rw [PersistentDatabase.saveBlock_of_complete h.opened _ _ _ _ hs]
      simp [h.blocksDat_eq, hheight, acceptedBlocks, Except.toOption, chainRecords_append,
        chainRecords]
  · have hnone : acceptedBlocks [s] [.error e] = [] := rfl
    simp only [blockMachine, heq, hnone, List.append_nil]
    exact ⟨h.opened, h.blocks_eq, h.blocksDat_eq⟩

/-- A run whose writes are complete appends the records of the blocks it accepts. -/
theorem Node.Extended.run (P : Platform) {n₀ : Node} (hopen : n₀.chain.db.opened = true)
    {bytes : List UInt8} (hfile : n₀.dir.blocksDat = some bytes) (subs : List Submission)
    (hsubs : ∀ s ∈ subs, s.io.Complete) :
    n₀.Extended (acceptedBlocks subs ((blockMachine P).replies n₀ subs))
      ((blockMachine P).final n₀ subs) := by
  refine Machine.run_induction
    (I := fun (tr : List (Submission × Except Node.AddBlockError UInt64)) n =>
      n₀.Extended (tr.filterMap fun (s, r) => r.toOption.map (s.block, ·)) n)
    subs ⟨hopen, by simp, by simp [hfile, chainRecords]⟩ ?_
  intro tr n s hs h
  rw [List.filterMap_append]
  exact h.submit s (hsubs s hs)

end RandomLite
