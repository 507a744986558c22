-- SUMMARY: A node and the node reloaded from its directory cannot be told apart by the blocks submitted to them.
import RandomLite.Prototype.BlockFile

/-!
# Restart

While every write succeeds, the block file holds the live chain up to the header
fields that are not saved. Those fields decide nothing: `add_new_block` looks at
the hash and the timestamp of the tip and at the two vectors of numbers, which a
restart brings back.
-/

namespace RandomLite

/-! ## Chains that decide alike -/

/-- Two chains that agree on everything that is saved. -/
structure Blockchain.SameStored (c c' : Blockchain) : Prop where
  blocks_eq : c.blocks.map Block.stored = c'.blocks.map Block.stored
  timestamps_eq : c.timestamps = c'.timestamps
  cumulative_eq : c.cumulativeDifficulties = c'.cumulativeDifficulties

namespace Blockchain.SameStored

variable {c c' : Blockchain}

theorem getCurrentDifficulty_eq (h : c.SameStored c') (P : Platform) :
    c.getCurrentDifficulty P = c'.getCurrentDifficulty P := by
  unfold getCurrentDifficulty
  rw [h.timestamps_eq, h.cumulative_eq]

/-- Their tips have the same hash and timestamp. -/
theorem getLast? (h : c.SameStored c') :
    c.blocks.getLast?.map Block.stored = c'.blocks.getLast?.map Block.stored := by
  rw [← List.getLast?_map, ← List.getLast?_map, h.blocks_eq]

/-- Appending one block to both keeps them alike. -/
theorem push (h : c.SameStored c') (b : Block) (diff : UInt64) {d d' : Blockchain}
    (hd : d.blocks = c.blocks ++ [b] ∧ d.timestamps = c.timestamps ++ [b.timestamp] ∧
      d.cumulativeDifficulties =
        c.cumulativeDifficulties ++ [c.cumulativeDifficulties.getLastD 0 + diff])
    (hd' : d'.blocks = c'.blocks ++ [b] ∧ d'.timestamps = c'.timestamps ++ [b.timestamp] ∧
      d'.cumulativeDifficulties =
        c'.cumulativeDifficulties ++ [c'.cumulativeDifficulties.getLastD 0 + diff]) :
    d.SameStored d' := by
  obtain ⟨hblocks, htimes, hsums⟩ := hd
  obtain ⟨hblocks', htimes', hsums'⟩ := hd'
  refine ⟨?_, ?_, ?_⟩
  · rw [hblocks, hblocks', List.map_append, List.map_append, h.blocks_eq]
  · rw [htimes, htimes', h.timestamps_eq]
  · rw [hsums, hsums', h.cumulative_eq]

end Blockchain.SameStored

/-- Nodes with the same saved chain give a block the same answer. -/
theorem Node.addNewBlock_reply_eq {P : Platform} {n n' : Node} (h : n.chain.SameStored n'.chain)
    (b : Block) (now : UInt64) (io : AppendOutcome) :
    (n.addNewBlock P b now io).1 = (n'.addNewBlock P b now io).1 := by
  have hlast := h.getLast?
  have hdiff := h.getCurrentDifficulty_eq P
  unfold addNewBlock
  cases htop : n.chain.blocks.getLast? with
  | none =>
    rw [htop, Option.map_none, eq_comm, Option.map_eq_none_iff] at hlast
    rw [hlast]
  | some top =>
    rw [htop, Option.map_some, eq_comm, Option.map_eq_some_iff] at hlast
    obtain ⟨top', htop', hstored⟩ := hlast
    have hhash : top'.stored.hash = top.stored.hash := by rw [hstored]
    have htime : top'.stored.timestamp = top.stored.timestamp := by rw [hstored]
    rw [Block.stored_hash, Block.stored_hash] at hhash
    rw [Block.stored_timestamp, Block.stored_timestamp] at htime
    rw [htop']
    simp only [hhash, htime, hdiff]
    split
    · rfl
    · split
      · rfl
      · split
        · rfl
        · split <;> rfl

/-- No block tells such nodes apart. -/
theorem blockMachine_agreement (P : Platform) :
    Machine.Agreement (blockMachine P) (blockMachine P)
      fun n n' => n.chain.SameStored n'.chain := by
  intro n n' s h
  have hreply := Node.addNewBlock_reply_eq (P := P) h s.block s.now s.io
  refine ⟨hreply, ?_⟩
  have hdiff := h.getCurrentDifficulty_eq P
  simp only [blockMachine]
  rcases Node.addNewBlock_cases P n s.block s.now s.io with ⟨_, heq⟩ | ⟨_, e, m, heq⟩ <;>
    rcases Node.addNewBlock_cases P n' s.block s.now s.io with ⟨_, heq'⟩ | ⟨_, e', m', heq'⟩
  · rw [heq, heq', ← hdiff]
    exact h.push s.block (n.chain.getCurrentDifficulty P) ⟨rfl, rfl, rfl⟩ ⟨rfl, rfl, rfl⟩
  · rw [heq, heq'] at hreply
    exact absurd hreply (by simp)
  · rw [heq, heq'] at hreply
    exact absurd hreply (by simp)
  · rw [heq, heq']
    exact h

/-! ## Live chain and block file -/

/-- The database is open and the block file holds the chain. -/
structure Node.Persisted (n : Node) : Prop where
  opened : n.chain.db.opened = true
  saved : ∃ saved : List (Block × UInt64), saved ≠ [] ∧
    n.dir.blocksDat = some (chainRecords 0 saved).flatten ∧
    n.chain.blocks.map Block.stored = saved.map (·.1.stored) ∧
    n.chain.timestamps = saved.map (·.1.timestamp) ∧
    n.chain.cumulativeDifficulties = runningSums 0 (saved.map (·.2))

namespace Node.Persisted

variable {n : Node}

theorem started {io : AppendOutcome} (hio : io.Complete) : (Node.started {} io).Persisted := by
  refine ⟨rfl, [(genesisBlock, 1)], by simp, ?_, rfl, rfl, rfl⟩
  have hopen : ({ opened := true } : PersistentDatabase).opened = true := rfl
  have hsave := PersistentDatabase.saveBlock_of_complete hopen {} genesisBlock 0 1 hio
  have hdir : (Node.started {} io).dir =
      (PersistentDatabase.saveBlock { opened := true } {} genesisBlock 0 1 io).2 := rfl
  rw [hdir, hsave]
  rfl

/-- A complete write keeps the file in step with the chain. -/
theorem addNewBlock {P : Platform} (h : n.Persisted) (b : Block) (now : UInt64)
    {io : AppendOutcome} (hio : io.Complete) : (n.addNewBlock P b now io).2.Persisted := by
  rcases addNewBlock_cases P n b now io with ⟨_, heq⟩ | ⟨_, e, m, heq⟩
  · obtain ⟨saved, hne, hfile, hblocks, htimes, hsums⟩ := h.saved
    have hlen : n.chain.blocks.length = saved.length := by
      simpa using congrArg List.length hblocks
    rw [heq]
    refine ⟨h.opened, saved ++ [(b, n.chain.getCurrentDifficulty P)], by simp, ?_, ?_, ?_, ?_⟩
    · simp only [commitBlock]
      rw [PersistentDatabase.saveBlock_of_complete h.opened _ _ _ _ hio]
      simp [hfile, chainRecords_append, chainRecords, Blockchain.getCurrentHeight, hlen]
    · simp [commitBlock, hblocks]
    · simp [commitBlock, htimes]
    · simp only [commitBlock, hsums, List.map_append, List.map_singleton]
      rw [runningSums.append_singleton]
  · rw [heq]
    exact ⟨h.opened, h.saved⟩

/-- What a restart brings back. -/
theorem restart_eq (h : n.Persisted) (io : AppendOutcome) :
    n.chain.SameStored (n.restart io).chain ∧ (n.restart io).Persisted := by
  obtain ⟨saved, hne, hfile, hblocks, htimes, hsums⟩ := h.saved
  have htorn : n.dir.blocksDat = some ((chainRecords 0 saved).flatten ++ []) := by
    rw [List.append_nil]
    exact hfile
  obtain ⟨hblocks', htimes', hsums', hopen', hdir'⟩ :=
    Node.started_of_saved n.dir hne htorn (by decide) io
  have hstored : (n.restart io).chain.blocks.map Block.stored = saved.map (·.1.stored) := by
    have hmap := congrArg (List.map Block.stored) hblocks'
    rw [show (n.restart io).chain.blocks = (Node.started n.dir io).chain.blocks from rfl, hmap]
    simp [storedVectors, Block.stored]
  refine ⟨⟨?_, ?_, ?_⟩, ?_, saved, hne, ?_, hstored, htimes', hsums'⟩
  · rw [hblocks, hstored]
  · exact htimes.trans htimes'.symm
  · exact hsums.trans hsums'.symm
  · exact hopen'
  · rw [show (n.restart io).dir = (Node.started n.dir io).dir from rfl, hdir', hfile]

end Node.Persisted

/-! ## Runs in which every write succeeds -/

/-- The calls of a node in service whose writes succeed: transactions, blocks whose
    append is complete, and restarts on the directory. -/
def Call.Durable : Call → Prop
  | .addTx _ _ => True
  | .verifyTransaction _ _ => True
  | .addNewBlock _ _ io => io.Complete
  | .restart io => io.Complete
  | .shutdown => False
  | .init _ => False

theorem Node.Persisted.step (P : Platform) {n : Node} (h : n.Persisted) {c : Call}
    (hc : c.Durable) : ((chainMachine P).step n c).2.Persisted := by
  cases c with
  | addTx tx now => exact ⟨h.opened, h.saved⟩
  | verifyTransaction tx currentHeight => exact h
  | addNewBlock b now io => exact h.addNewBlock b now hc
  | restart io => exact (h.restart_eq io).2
  | shutdown => exact hc.elim
  | init io => exact hc.elim

theorem Node.Persisted.run (P : Platform) {n : Node} (h : n.Persisted) {calls : List Call}
    (hcalls : ∀ c ∈ calls, c.Durable) : ((chainMachine P).final n calls).Persisted := by
  refine Machine.final_induction calls h ?_
  intro n c hc h
  exact h.step P (hcalls c hc)

/-- After a run from a fresh directory in which every write succeeds, shutting down and
    opening the directory again brings back the timestamps, the cumulative difficulties,
    the hashes and the nonces; and whatever is submitted from then on meets the same
    answers and leads to the same current difficulty as without the restart. -/
theorem Node.restart_transparent (P : Platform) {io : AppendOutcome} (hio : io.Complete)
    {calls : List Call} (hcalls : ∀ c ∈ calls, c.Durable) (io' : AppendOutcome) :
    let n := (chainMachine P).final (Node.started {} io) calls
    let m := n.shutdown.restart io'
    m.chain.timestamps = n.chain.timestamps ∧
    m.chain.cumulativeDifficulties = n.chain.cumulativeDifficulties ∧
    m.chain.blocks.map (·.hash) = n.chain.blocks.map (·.hash) ∧
    m.chain.blocks.map (·.nonce) = n.chain.blocks.map (·.nonce) ∧
    ∀ subs : List Submission,
      (blockMachine P).replies m subs = (blockMachine P).replies n subs ∧
      ((blockMachine P).final m subs).chain.getCurrentDifficulty P =
        ((blockMachine P).final n subs).chain.getCurrentDifficulty P := by
  intro n m
  have hpersisted : n.Persisted := (Node.Persisted.started hio).run P hcalls
  have hsame : n.chain.SameStored m.chain := (hpersisted.restart_eq io').1
  refine ⟨hsame.timestamps_eq.symm, hsame.cumulative_eq.symm, ?_, ?_, ?_⟩
  · have hhash := congrArg (List.map fun b : Block => b.hash) hsame.blocks_eq
    simpa only [List.map_map, Function.comp_def, Block.stored_hash] using hhash.symm
  · have hnonce := congrArg (List.map fun b : Block => b.nonce) hsame.blocks_eq
    simpa only [List.map_map, Function.comp_def, Block.stored_nonce] using hnonce.symm
  · intro subs
    have hagree := blockMachine_agreement P
    refine ⟨(hagree.replies_eq hsame subs).symm, ?_⟩
    exact ((hagree.final_related hsame subs).getCurrentDifficulty_eq P).symm

def restartedBlock : Block :=
  { timestamp := genesisTimestamp + 150, prevId := genesisBlock.hash, nonce := 5 }

/-- A fresh node that mined one block. -/
def minedNode : Node :=
  (chainMachine .shipped).final (Node.started {} (.wrote recordSize))
    [.addNewBlock restartedBlock restartedBlock.timestamp (.wrote recordSize)]

theorem Node.restart_transparent_sample :
    (minedNode.shutdown.restart .openFails).chain.blocks.map (·.nonce) =
      minedNode.chain.blocks.map (·.nonce) := by
  have hio : (AppendOutcome.wrote recordSize).Complete := by decide
  have hcalls : ∀ c ∈ [Call.addNewBlock restartedBlock restartedBlock.timestamp (.wrote recordSize)],
      c.Durable := by
    intro c hc
    rw [List.mem_singleton] at hc
    rw [hc]
    exact hio
  have hrestart := Node.restart_transparent .shipped hio hcalls .openFails
  unfold minedNode
  exact hrestart.2.2.2.1

end RandomLite
