-- SUMMARY: The invariant of the three chain vectors over every run of block submissions, and what it says about repeated blocks.
import RandomLite.Prototype.Blockchain

/-!
# The chain invariant

A run that starts with `init` on an empty directory and submits any blocks under
any clock readings keeps the three vectors of the chain in step: the timestamps
are those of the blocks and increase, every block is linked to the one before it,
and the cumulative difficulties are the running sums of the difficulties the
accepted blocks were held to.
-/

namespace RandomLite

/-- The difficulties of the accepted blocks, in order. -/
def acceptedDifficulties (replies : List (Except Node.AddBlockError UInt64)) : List UInt64 :=
  replies.filterMap Except.toOption

@[simp] theorem acceptedDifficulties_ok (d : UInt64) : acceptedDifficulties [.ok d] = [d] := rfl

@[simp] theorem acceptedDifficulties_error (e : Node.AddBlockError) :
    acceptedDifficulties [.error e] = [] := rfl

theorem acceptedDifficulties_append (rs rs' : List (Except Node.AddBlockError UInt64)) :
    acceptedDifficulties (rs ++ rs') = acceptedDifficulties rs ++ acceptedDifficulties rs' :=
  List.filterMap_append

/-- One difficulty for every call that returned true. -/
theorem length_acceptedDifficulties (rs : List (Except Node.AddBlockError UInt64)) :
    (acceptedDifficulties rs).length = rs.countP Except.isOk := by
  induction rs with
  | nil => rfl
  | cons r rs ih =>
    rw [List.countP_cons, ← ih]
    cases r <;> rfl

/-- The difficulty the block at height `i + 1` is held to: the retarget over the
    first `i + 1` entries of the two vectors. -/
def Blockchain.difficultyAfter (P : Platform) (c : Blockchain) (i : Nat) : UInt64 :=
  nextDifficultyLwma3 P.double (c.timestamps.take (i + 1)) (c.cumulativeDifficulties.take (i + 1))
    difficultyTargetV2 difficultyWindowV2

/-- The invariant, relative to the difficulties `ds` of the accepted blocks. -/
structure Blockchain.Invariant (P : Platform) (ds : List UInt64) (c : Blockchain) : Prop where
  blocks_length : c.blocks.length = 1 + ds.length
  timestamps_eq : c.timestamps = c.blocks.map (·.timestamp)
  cumulative_eq : c.cumulativeDifficulties = runningSums 0 (1 :: ds)
  increasing : c.timestamps.Pairwise (· < ·)
  linked : ∀ i a b, c.blocks[i]? = some a → c.blocks[i + 1]? = some b → b.prevId = a.hash
  retarget : ∀ i d, ds[i]? = some d → d = c.difficultyAfter P i
  pow : ∀ i b d, c.blocks[i + 1]? = some b → ds[i]? = some d →
    checkPowHash (P.randomx b.hash) d = true

theorem Node.started_fresh_chain (io : AppendOutcome) :
    (Node.started {} io).chain =
      { blocks := [genesisBlock]
        timestamps := [genesisTimestamp]
        cumulativeDifficulties := [1]
        db := { opened := true } } := rfl

/-- An entry of a list with one more element is an old entry or the new element. -/
theorem getElem?_concat_cases {α : Type} {l : List α} {x a : α} {i : Nat}
    (h : (l ++ [x])[i]? = some a) : (i < l.length ∧ l[i]? = some a) ∨ (i = l.length ∧ a = x) := by
  rcases Nat.lt_trichotomy i l.length with hlt | rfl | hgt
  · rw [List.getElem?_append_left hlt] at h
    exact .inl ⟨hlt, h⟩
  · rw [List.getElem?_concat_length] at h
    exact .inr ⟨rfl, (Option.some.inj h).symm⟩
  · have hlen := (List.getElem?_eq_some_iff.mp h).1
    rw [List.length_append, List.length_singleton] at hlen
    omega

namespace Blockchain.Invariant

variable {P : Platform} {ds : List UInt64} {c : Blockchain}

theorem started (io : AppendOutcome) : (Node.started {} io).chain.Invariant P [] := by
  rw [Node.started_fresh_chain]
  exact
    { blocks_length := rfl
      timestamps_eq := rfl
      cumulative_eq := rfl
      increasing := List.pairwise_singleton _ _
      linked := by intro i a b _ hb; simp at hb
      retarget := by intro i d hd; simp at hd
      pow := by intro i b d hb; simp at hb }

theorem timestamps_length (h : c.Invariant P ds) : c.timestamps.length = 1 + ds.length := by
  rw [h.timestamps_eq, List.length_map, h.blocks_length]

theorem cumulative_length (h : c.Invariant P ds) :
    c.cumulativeDifficulties.length = 1 + ds.length := by
  rw [h.cumulative_eq, runningSums.length_eq, List.length_cons]
  omega

/-- No timestamp of the chain is after that of the tip. -/
theorem timestamp_le_top (h : c.Invariant P ds) {top b : Block}
    (htop : c.blocks.getLast? = some top) (hb : b ∈ c.blocks) : b.timestamp ≤ top.timestamp := by
  obtain ⟨front, hfront⟩ := List.getLast?_eq_some_iff.mp htop
  have hsorted := h.increasing
  rw [h.timestamps_eq, hfront, List.map_append, List.pairwise_append] at hsorted
  rw [hfront, List.mem_append, List.mem_singleton] at hb
  rcases hb with hmem | rfl
  · exact UInt64.le_of_lt (hsorted.2.2 _ (List.mem_map_of_mem hmem) _ (by simp))
  · exact UInt64.le_refl _

/-- What accepting a block does to the vectors. -/
theorem push (h : c.Invariant P ds) {b : Block} {now : UInt64} (hb : c.Admissible P b now)
    {c' : Blockchain} (hblocks : c'.blocks = c.blocks ++ [b])
    (htimestamps : c'.timestamps = c.timestamps ++ [b.timestamp])
    (hcumulative : c'.cumulativeDifficulties = c.cumulativeDifficulties ++
      [c.cumulativeDifficulties.getLastD 0 + c.getCurrentDifficulty P]) :
    c'.Invariant P (ds ++ [c.getCurrentDifficulty P]) := by
  obtain ⟨⟨top, htop, hprev, htime⟩, _, hpow⟩ := hb
  have hblen := h.blocks_length
  have htlen := h.timestamps_length
  have hclen := h.cumulative_length
  -- The prefixes that earlier blocks were judged by are still there.
  have hearlier (i : Nat) (hi : i < 1 + ds.length) : c'.difficultyAfter P i = c.difficultyAfter P i := by
    simp only [difficultyAfter, htimestamps, hcumulative]
    rw [List.take_append_of_le_length (by omega), List.take_append_of_le_length (by omega)]
  have hcurrent : c.difficultyAfter P ds.length = c.getCurrentDifficulty P := by
    simp only [difficultyAfter, getCurrentDifficulty]
    rw [List.take_of_length_le (by omega), List.take_of_length_le (by omega)]
  refine ⟨?_, ?_, ?_, ?_, ?_, ?_, ?_⟩
  · simp only [hblocks, List.length_append, List.length_singleton, hblen]
    omega
  · rw [htimestamps, hblocks, h.timestamps_eq, List.map_append, List.map_singleton]
  · have hlast : c.cumulativeDifficulties.getLastD 0 = (runningSums 0 (1 :: ds)).getLastD 0 := by
      rw [h.cumulative_eq]
    rw [hcumulative, hlast, h.cumulative_eq, ← List.cons_append, runningSums.append_singleton]
  · rw [htimestamps, List.pairwise_append]
    refine ⟨h.increasing, List.pairwise_singleton _ _, ?_⟩
    intro t ht t' ht'
    rw [List.mem_singleton] at ht'
    rw [h.timestamps_eq] at ht
    obtain ⟨a, ha, rfl⟩ := List.mem_map.mp ht
    exact ht' ▸ UInt64.lt_of_le_of_lt (h.timestamp_le_top htop ha) htime
  · intro i a b' ha hb'
    rw [hblocks] at ha hb'
    rcases getElem?_concat_cases hb' with ⟨hi, hb'⟩ | ⟨hi, rfl⟩
    · rw [List.getElem?_append_left (by omega)] at ha
      exact h.linked i a b' ha hb'
    · -- The new block: its predecessor is the tip.
      rw [List.getElem?_append_left (by omega), show i = c.blocks.length - 1 by omega,
        ← List.getLast?_eq_getElem?, htop] at ha
      rw [← Option.some.inj ha, hprev]
  · intro i d hd
    rcases getElem?_concat_cases hd with ⟨hi, hd⟩ | ⟨rfl, rfl⟩
    · rw [hearlier i (by omega)]
      exact h.retarget i d hd
    · rw [hearlier _ (by omega), hcurrent]
  · intro i b' d hb' hd
    rw [hblocks] at hb'
    rcases getElem?_concat_cases hd with ⟨hi, hd⟩ | ⟨rfl, rfl⟩
    · rw [List.getElem?_append_left (by omega)] at hb'
      exact h.pow i b' d hb' hd
    · rw [show ds.length + 1 = c.blocks.length by omega, List.getElem?_concat_length] at hb'
      rw [← Option.some.inj hb']
      exact hpow

end Blockchain.Invariant

/-! ## Runs of submissions -/

/-- One submission keeps the invariant, relative to the difficulties accepted so far. -/
theorem Blockchain.Invariant.submit {P : Platform} {ds : List UInt64} {n : Node}
    (h : n.chain.Invariant P ds) (s : Submission) :
    ((blockMachine P).step n s).2.chain.Invariant P
      (ds ++ acceptedDifficulties [((blockMachine P).step n s).1]) := by
  rcases Node.addNewBlock_cases P n s.block s.now s.io with ⟨hadm, heq⟩ | ⟨_, e, m, heq⟩
  · simp only [blockMachine, heq, acceptedDifficulties_ok]
    exact h.push hadm rfl rfl rfl
  · simp only [blockMachine, heq, acceptedDifficulties_error, List.append_nil]
    exact h

/-- The invariant holds after every run from `init` on an empty directory. -/
theorem Blockchain.Invariant.run (P : Platform) (io : AppendOutcome) (subs : List Submission) :
    ((blockMachine P).final (Node.started {} io) subs).chain.Invariant P
      (acceptedDifficulties ((blockMachine P).replies (Node.started {} io) subs)) := by
  have hrun := Machine.run_induction (M := blockMachine P) (s := Node.started {} io)
    (I := fun tr n => n.chain.Invariant P (acceptedDifficulties (tr.map Prod.snd))) subs
    (Blockchain.Invariant.started io)
    (by
      intro tr n s _ h
      rw [List.map_append, acceptedDifficulties_append]
      exact h.submit s)
  rwa [List.map_snd_zip (by simp)] at hrun

/-! ## What the invariant says -/

/-- In every state of every run the three vectors have one entry more than blocks
    were accepted; timestamps increase, blocks are linked, and, short of an overflow
    of the exact total, neighbouring cumulative difficulties differ by the retarget
    of the prefixes, which is positive and met by the proof of work. -/
theorem Blockchain.vectors_of_run (P : Platform) (io : AppendOutcome) (subs : List Submission) :
    let replies := (blockMachine P).replies (Node.started {} io) subs
    let c := ((blockMachine P).final (Node.started {} io) subs).chain
    let accepted := replies.countP Except.isOk
    c.blocks.length = 1 + accepted ∧ c.timestamps.length = 1 + accepted ∧
      c.cumulativeDifficulties.length = 1 + accepted ∧
    c.timestamps = c.blocks.map (·.timestamp) ∧
    c.timestamps.Pairwise (· < ·) ∧
    (∀ i a b, c.blocks[i]? = some a → c.blocks[i + 1]? = some b → b.prevId = a.hash) ∧
    (1 + ((acceptedDifficulties replies).map UInt64.toNat).sum < 2 ^ 64 →
      ∀ i lo hi b, c.cumulativeDifficulties[i]? = some lo →
        c.cumulativeDifficulties[i + 1]? = some hi → c.blocks[i + 1]? = some b →
        hi.toNat - lo.toNat = (c.difficultyAfter P i).toNat ∧ lo ≤ hi ∧
        1 ≤ c.difficultyAfter P i ∧
        checkPowHash (P.randomx b.hash) (c.difficultyAfter P i) = true) := by
  intro replies c accepted
  have hinv : c.Invariant P (acceptedDifficulties replies) := .run P io subs
  have hcount : (acceptedDifficulties replies).length = accepted := length_acceptedDifficulties _
  refine ⟨?_, ?_, ?_, hinv.timestamps_eq, hinv.increasing, hinv.linked, ?_⟩
  · rw [hinv.blocks_length, hcount]
  · rw [hinv.timestamps_length, hcount]
  · rw [hinv.cumulative_length, hcount]
  · intro hfits i lo hi b hlo hhi hb
    rw [hinv.cumulative_eq] at hlo hhi
    obtain ⟨d, hd, _⟩ := runningSums.getElem?_succ hlo hhi
    have hsum : hi.toNat = lo.toNat + d.toNat :=
      runningSums.toNat_succ (by simpa using hfits) hlo hhi hd
    have hd' : (acceptedDifficulties replies)[i]? = some d := by simpa using hd
    have hretarget : d = c.difficultyAfter P i := hinv.retarget i d hd'
    rw [← hretarget]
    refine ⟨by omega, UInt64.le_iff_toNat_le.mpr (by omega), ?_, hinv.pow i b d hb hd'⟩
    rw [hretarget]
    exact one_le_nextDifficultyLwma3 _ _ _ _ _

/-- A block that may follow genesis. -/
def sampleSubmission : Submission :=
  { block := { timestamp := genesisTimestamp + 150, prevId := genesisBlock.hash }
    now := genesisTimestamp + 150
    io := .wrote recordSize }

/-- After genesis and one block the cumulative difficulties are 1 and 2. -/
theorem Blockchain.vectors_of_run_sample :
    let c := ((blockMachine .shipped).final (Node.started {} (.wrote recordSize))
      [sampleSubmission]).chain
    (2 : UInt64).toNat - (1 : UInt64).toNat = (c.difficultyAfter .shipped 0).toNat ∧
      (1 : UInt64) ≤ 2 ∧ 1 ≤ c.difficultyAfter .shipped 0 ∧
      checkPowHash (Platform.shipped.randomx sampleSubmission.block.hash)
        (c.difficultyAfter .shipped 0) = true :=
  (Blockchain.vectors_of_run .shipped (.wrote recordSize) [sampleSubmission]).2.2.2.2.2.2
    (by decide +kernel) 0 1 2 sampleSubmission.block rfl (by decide +kernel) (by decide +kernel)

/-! ## Repeated blocks -/

/-- The blocks of a chain that keeps the invariant are pairwise distinct. -/
theorem Blockchain.Invariant.nodup {P : Platform} {ds : List UInt64} {c : Blockchain}
    (h : c.Invariant P ds) : c.blocks.Nodup := by
  have hts := h.increasing
  rw [h.timestamps_eq, List.pairwise_map] at hts
  exact hts.imp fun hlt heq => absurd (heq ▸ hlt) (UInt64.lt_irrefl _)

/-- A block on the chain is not admissible. -/
theorem Blockchain.Invariant.not_admissible {P : Platform} {ds : List UInt64} {c : Blockchain}
    (h : c.Invariant P ds) {b : Block} (hb : b ∈ c.blocks) (now : UInt64) :
    ¬ c.Admissible P b now := by
  rintro ⟨⟨top, htop, _, htime⟩, _, _⟩
  exact absurd htime (UInt64.not_lt.mpr (h.timestamp_le_top htop hb))

/-- No two blocks on the chain are equal, and a block on the chain is refused. -/
theorem Blockchain.blocks_nodup_of_run (P : Platform) (io : AppendOutcome)
    (subs : List Submission) :
    let n := (blockMachine P).final (Node.started {} io) subs
    n.chain.blocks.Nodup ∧
      ∀ b ∈ n.chain.blocks, ∀ now io', (n.addNewBlock P b now io').1.isOk = false := by
  intro n
  have hinv := Blockchain.Invariant.run P io subs
  refine ⟨hinv.nodup, ?_⟩
  intro b hb now io'
  have hrefused : ¬ (n.addNewBlock P b now io').1.isOk = true := by
    rw [Node.addNewBlock_isOk_iff]
    exact hinv.not_admissible hb now
  exact eq_false_of_ne_true hrefused

/-- The hash field of a block is its submitter's: a block under the genesis hash
    that names the genesis block as its parent is accepted. -/
theorem Blockchain.hash_repeated :
    ¬ ∀ (P : Platform) (io : AppendOutcome) (subs : List Submission),
      (((blockMachine P).final (Node.started {} io) subs).chain.blocks.map (·.hash)).Nodup := by
  intro h
  have hrun := h .shipped (.wrote recordSize)
    [{ block := { timestamp := genesisTimestamp + 150, prevId := genesisBlock.hash,
                  hash := genesisBlock.hash }
       now := genesisTimestamp + 150
       io := .wrote recordSize }]
  revert hrun
  decide +kernel

end RandomLite
