-- SUMMARY: The hard-fork object on the XRL table: one invariant over every sequence of additions, pops, reorganisations and rescans.
import RandomLite.Monero.HardFork

/-!
# The hard-fork invariant

With both thresholds zero no vote matters: the fork in force depends on the height
alone, and the four rules that compute it (voting in `add`, the recorded version in
the rescan, the start version in the reorganisation, the height in the pop) agree.
-/

namespace RandomLite.Monero

/-- The fork in force on a chain of `height` blocks. -/
def forkIndexAt (height : Nat) : Nat := if height < 2 then 0 else 1

/-- Its version. -/
def versionAt (height : Nat) : UInt8 := if height < 2 then 1 else 16

theorem forkIndexAt_le_one (height : Nat) : forkIndexAt height ≤ 1 := by
  unfold forkIndexAt
  split <;> decide

theorem forkIndexAt_mono {height height' : Nat} (h : height ≤ height') :
    forkIndexAt height ≤ forkIndexAt height' := by
  unfold forkIndexAt
  split <;> split <;> omega

/-! ## The object on the table -/

/-- The object has the XRL table, and its counters match its window. -/
structure HardFork.Ready (hf : HardFork) : Prop where
  heights_eq : hf.heights = mainnetHardForks
  windowSize_eq : hf.windowSize = 10080
  originalVersion_eq : hf.originalVersion = 1
  histogram : IsHistogram hf.lastVersions hf.versions
  length_le : hf.versions.length ≤ 10080

namespace HardFork.Ready

variable {hf : HardFork}

theorem forkVersion_eq (h : hf.Ready) (height : Nat) :
    hf.forkVersion (forkIndexAt height) = .ok (versionAt height) := by
  unfold forkVersion forkIndexAt versionAt
  rw [h.heights_eq]
  by_cases h2 : height < 2
  · simp [mainnetHardForks, h2]
  · simp [mainnetHardForks, h2]

theorem voteThreshold_eq (h : hf.Ready) {f : HardforkT} (hf0 : f.threshold = 0) :
    hf.voteThreshold f = 0 := by
  unfold voteThreshold
  rw [h.windowSize_eq, hf0]
  rfl

/-- From the first block on, the height alone decides the vote. -/
theorem getVotedForkIndex_eq (h : hf.Ready) {height : Nat} (hheight : 1 ≤ height) :
    hf.getVotedForkIndex height = forkIndexAt height := by
  have hthreshold {f : HardforkT} (hf0 : f.threshold = 0) (votes : UInt32) :
      votes ≥ hf.voteThreshold f := by
    rw [h.voteThreshold_eq hf0]
    exact UInt32.zero_le
  unfold getVotedForkIndex forkIndexAt
  rw [h.heights_eq]
  by_cases h2 : height < 2
  · have hnot : ¬ height ≥ 2 := by omega
    simp [mainnetHardForks, votedLoop, h.heights_eq, hthreshold, hnot, hheight, h2]
  · have hge : height ≥ 2 := by omega
    simp [mainnetHardForks, votedLoop, h.heights_eq, hthreshold, hge, h2]

theorem getIdealVersion_eq (h : hf.Ready) (height : Nat) :
    hf.getIdealVersion height = versionAt height := by
  unfold getIdealVersion versionAt
  rw [h.heights_eq]
  by_cases h2 : height < 2
  · have hnot : ¬ height ≥ 2 := by omega
    simp [mainnetHardForks, idealLoop, h.heights_eq, h.originalVersion_eq, hnot, h2]
  · have hge : height ≥ 2 := by omega
    simp [mainnetHardForks, idealLoop, h.heights_eq, hge, h2]

theorem forkAtHeight_eq (h : hf.Ready) (height : Nat) :
    forkAtHeight hf.heights height (hf.heights.length - 1) = forkIndexAt height := by
  unfold forkIndexAt
  rw [h.heights_eq]
  by_cases h2 : height < 2
  · have hnot : ¬ height ≥ 2 := by omega
    simp [mainnetHardForks, forkAtHeight, hnot, h2]
  · have hge : height ≥ 2 := by omega
    simp [mainnetHardForks, forkAtHeight, hge, h2]

/-- What `do_check` asks of a block under the fork of a height. -/
theorem doCheck_eq (h : hf.Ready) (height : Nat) (blockVersion votingVersion : UInt8) :
    hf.doCheck (forkIndexAt height) blockVersion votingVersion =
      .ok (blockVersion == versionAt height && decide (votingVersion ≥ versionAt height)) := by
  unfold doCheck
  rw [h.forkVersion_eq]
  rfl

/-- What `check_for_height` asks of a block, from the first height on. -/
theorem checkForHeight_eq (h : hf.Ready) {height : Nat} (hheight : 1 ≤ height) (b : BlockVersions) :
    hf.checkForHeight b height = .ok (getBlockVersion b == versionAt height &&
      decide (getBlockVote b ≥ versionAt height)) := by
  unfold checkForHeight
  rw [h.getVotedForkIndex_eq hheight, h.doCheck_eq]

/-! ## Changes of the object -/

/-- The current index is no part of the invariant. -/
theorem setIndex (h : hf.Ready) (i : Nat) : { hf with currentForkIndex := i }.Ready :=
  ⟨h.heights_eq, h.windowSize_eq, h.originalVersion_eq, h.histogram, h.length_le⟩

theorem raiseTo (h : hf.Ready) (voted : Nat) : (hf.raiseTo voted).Ready := by
  unfold HardFork.raiseTo
  split
  · exact h.setIndex _
  · exact h

theorem pushVersion (h : hf.Ready) (hroom : hf.versions.length < 10080) (v : UInt8) :
    (hf.pushVersion v).Ready := by
  refine ⟨h.heights_eq, h.windowSize_eq, h.originalVersion_eq, ?_, ?_⟩
  · exact h.histogram.concat (by omega) v
  · simp only [HardFork.pushVersion, List.length_append, List.length_singleton]
    omega

end HardFork.Ready

/-- Raising the index to the one of a later height. -/
theorem HardFork.raiseTo_index {hf : HardFork} {height : Nat}
    (hindex : hf.currentForkIndex ≤ forkIndexAt height) :
    (hf.raiseTo (forkIndexAt height)).currentForkIndex = forkIndexAt height := by
  have hsmall := forkIndexAt_le_one height
  have hmod : forkIndexAt height % 256 = forkIndexAt height := Nat.mod_eq_of_lt (by omega)
  unfold raiseTo
  rw [hmod]
  split
  · rfl
  · omega

@[simp] theorem HardFork.raiseTo_versions (hf : HardFork) (voted : Nat) :
    (hf.raiseTo voted).versions = hf.versions := by
  unfold raiseTo
  split <;> rfl

/-! ## The window -/

/-- Counting down an element of the window does not fail. -/
theorem takeVersion_front {lastVersions : UInt8 → UInt32} {v : UInt8} {versions : List UInt8}
    (h : IsHistogram lastVersions (v :: versions)) :
    ∃ lastVersions', HardFork.takeVersion lastVersions v = .ok lastVersions' ∧
      IsHistogram lastVersions' versions := by
  obtain ⟨counts, hdown, hcounts⟩ := h.uncons
  refine ⟨counts, ?_, hcounts⟩
  unfold HardFork.takeVersion
  rw [hdown]

/-- The room-making loop of `add` ends with a matching window that is not full. -/
theorem HardFork.makeRoom_spec {versions : List UInt8} {lastVersions : UInt8 → UInt32}
    (h : IsHistogram lastVersions versions) :
    ∃ versions' lastVersions', makeRoom 10080 versions lastVersions = .ok (versions', lastVersions') ∧
      IsHistogram lastVersions' versions' ∧ versions'.length < 10080 := by
  induction versions generalizing lastVersions with
  | nil => exact ⟨[], lastVersions, by simp [makeRoom], h, by simp⟩
  | cons v versions ih =>
    unfold makeRoom
    split
    · obtain ⟨counts, htake, hcounts⟩ := takeVersion_front h
      rw [htake]
      exact ih hcounts
    · exact ⟨v :: versions, lastVersions, rfl, h, by omega⟩

/-- Counting afresh: the window is as long as the list of blocks. -/
theorem HardFork.Ready.recount {hf : HardFork} (h : hf.Ready) {blocks : List BlockVersions}
    (hlen : blocks.length ≤ 10080) :
    (hf.recount blocks).Ready ∧ (hf.recount blocks).versions.length = blocks.length ∧
      (hf.recount blocks).currentForkIndex = hf.currentForkIndex := by
  -- The fold keeps the invariant while the window and the blocks to come fit together.
  suffices hfold : ∀ (blocks : List BlockVersions) (g : HardFork), g.Ready →
      g.versions.length + blocks.length ≤ 10080 →
      let g' := blocks.foldl (fun hf b => hf.pushVersion (hf.getEffectiveVersion (getBlockVote b))) g
      g'.Ready ∧ g'.versions.length = g.versions.length + blocks.length ∧
        g'.currentForkIndex = g.currentForkIndex by
    have hempty : HardFork.Ready { hf with versions := [], lastVersions := fun _ => 0 } :=
      ⟨h.heights_eq, h.windowSize_eq, h.originalVersion_eq, .nil, by simp⟩
    have hall := hfold blocks _ hempty (by simpa using hlen)
    simpa [HardFork.recount] using hall
  intro blocks
  induction blocks with
  | nil => intro g hg _; exact ⟨hg, rfl, rfl⟩
  | cons b blocks ih =>
    intro g hg hfit
    simp only [List.length_cons] at hfit
    have hpush := hg.pushVersion (by omega) (g.getEffectiveVersion (getBlockVote b))
    have hone : (g.pushVersion (g.getEffectiveVersion (getBlockVote b))).versions.length =
        g.versions.length + 1 := by
      simp [HardFork.pushVersion]
    obtain ⟨hready, hcount, hindex⟩ := ih _ hpush (by omega)
    refine ⟨hready, ?_, hindex⟩
    rw [List.foldl_cons, hcount, hone, List.length_cons]
    omega

/-! ## Adding a block -/

/-- A block that passes the check of its height. -/
def BlockVersions.PassesAt (b : BlockVersions) (height : Nat) : Prop :=
  getBlockVersion b = versionAt height ∧ versionAt height ≤ getBlockVote b

/-- Adding a block that passes records its version and moves on to the next height. -/
theorem HardFork.Ready.add_spec {hf : HardFork} (h : hf.Ready) {height : Nat}
    (hindex : hf.currentForkIndex = forkIndexAt height) (db : VersionDB) {b : BlockVersions}
    (hb : b.PassesAt height) :
    ∃ hf', hf.add db b height = .ok (true, hf', db.setHardForkVersion height (versionAt height)) ∧
      hf'.Ready ∧ hf'.currentForkIndex = forkIndexAt (height + 1) ∧ hf'.versions ≠ [] := by
  obtain ⟨hversion, hvote⟩ := hb
  obtain ⟨versions, lastVersions, hroom, hcounts, hlen⟩ := HardFork.makeRoom_spec h.histogram
  have hcheck : hf.doCheck hf.currentForkIndex (getBlockVersion b) (getBlockVote b) = .ok true := by
    rw [hindex, h.doCheck_eq, hversion]
    simp [hvote]
  have hcurrent : hf.getCurrentVersion = .ok (versionAt height) := by
    unfold getCurrentVersion
    rw [hindex, h.forkVersion_eq]
  -- The object with room made and the new vote in the window.
  let hfRoom : HardFork := { hf with versions := versions, lastVersions := lastVersions }
  let hfPushed : HardFork := hfRoom.pushVersion (hf.getEffectiveVersion (getBlockVote b))
  have hready : hfRoom.Ready :=
    ⟨h.heights_eq, h.windowSize_eq, h.originalVersion_eq, hcounts, Nat.le_of_lt hlen⟩
  have hpushed : hfPushed.Ready := hready.pushVersion hlen _
  have hvoted : hfPushed.getVotedForkIndex (height + 1) = forkIndexAt (height + 1) :=
    hpushed.getVotedForkIndex_eq (by omega)
  refine ⟨hfPushed.raiseTo (forkIndexAt (height + 1)), ?_, hpushed.raiseTo _, ?_, ?_⟩
  · rw [← h.windowSize_eq] at hroom
    unfold HardFork.add
    simp only [hcheck, hcurrent, hroom, bind, Except.bind, pure, Except.pure, Bool.not_true,
      Bool.false_eq_true, if_false]
    rw [← hvoted]
  · refine HardFork.raiseTo_index ?_
    have hsame : hfPushed.currentForkIndex = hf.currentForkIndex := rfl
    rw [hsame, hindex]
    exact forkIndexAt_mono (Nat.le_succ height)
  · simp [hfPushed, HardFork.pushVersion]

/-! ## The database -/

/-- Every block passed the check of its height, and the version of that height is
    recorded for it. -/
def VersionDB.Consistent (db : VersionDB) : Prop :=
  ∀ height b, db.blocks[height]? = some b →
    b.PassesAt height ∧ db.hfVersions height = some (versionAt height)

namespace VersionDB.Consistent

variable {db : VersionDB}

theorem empty : ({} : VersionDB).Consistent := by
  intro height b hb
  simp at hb

theorem getHardForkVersion_eq (h : db.Consistent) {height : Nat} (hheight : height < db.height) :
    db.getHardForkVersion height = .ok (versionAt height) := by
  have hb : db.blocks[height]? = some db.blocks[height] := List.getElem?_eq_getElem hheight
  obtain ⟨_, hversion⟩ := h height _ hb
  unfold getHardForkVersion
  rw [hversion]

/-- Recording what is recorded already changes nothing. -/
theorem setHardForkVersion_eq (h : db.Consistent) {height : Nat} (hheight : height < db.height) :
    db.setHardForkVersion height (versionAt height) = db := by
  have hb : db.blocks[height]? = some db.blocks[height] := List.getElem?_eq_getElem hheight
  obtain ⟨_, hversion⟩ := h height _ hb
  unfold setHardForkVersion
  rw [← hversion, Function.update_eq_self]

theorem addBlock (h : db.Consistent) {b : BlockVersions} (hb : b.PassesAt db.height) :
    ((db.addBlock b).setHardForkVersion db.height (versionAt db.height)).Consistent := by
  intro height b' hb'
  simp only [VersionDB.addBlock, setHardForkVersion, Function.update_apply] at hb' ⊢
  by_cases hlt : height < db.height
  · rw [List.getElem?_append_left hlt] at hb'
    rw [if_neg (Nat.ne_of_lt hlt)]
    exact h height b' hb'
  · have hbound := (List.getElem?_eq_some_iff.mp hb').1
    rw [List.length_append, List.length_singleton] at hbound
    have heq : height = db.height := by
      unfold VersionDB.height at hlt ⊢
      omega
    subst heq
    have hnew : some b = some b' := by
      rw [← hb']
      exact (List.getElem?_concat_length ..).symm
    rw [if_pos rfl, ← Option.some.inj hnew]
    exact ⟨hb, rfl⟩

theorem popBlocks (h : db.Consistent) (k : Nat) : (db.popBlocks k).Consistent := by
  intro height b hb
  simp only [VersionDB.popBlocks, List.getElem?_take] at hb
  split at hb
  · exact h height b hb
  · exact absurd hb (by simp)

end VersionDB.Consistent

@[simp] theorem VersionDB.height_popBlocks (db : VersionDB) {k : Nat} (hk : k ≤ db.height) :
    (db.popBlocks k).height + k = db.height := by
  unfold height at *
  simp only [popBlocks, List.length_take]
  omega

/-! ## Reorganising, rescanning, popping -/

/-- Adding the blocks above a height again brings the index to the height of the
    chain and leaves the database alone. -/
theorem HardFork.Ready.addLoop_spec {hf : HardFork} (h : hf.Ready) {db : VersionDB}
    (hdb : db.Consistent) {height : Nat} (hheight : height ≤ db.height)
    (hindex : hf.currentForkIndex = forkIndexAt height) (hne : hf.versions ≠ []) :
    ∃ hf', hf.addLoop db height (db.blocks.drop height) = .ok (hf', db) ∧ hf'.Ready ∧
      hf'.currentForkIndex = forkIndexAt db.height ∧ hf'.versions ≠ [] := by
  generalize hrest : db.blocks.drop height = rest
  induction rest generalizing hf height with
  | nil =>
    have hlen := congrArg List.length hrest
    simp only [List.length_drop, List.length_nil] at hlen
    have heq : height = db.height := by
      unfold VersionDB.height at hheight ⊢
      omega
    exact ⟨hf, rfl, h, heq ▸ hindex, hne⟩
  | cons b rest ih =>
    have hlt : height < db.blocks.length := by
      have hlen := congrArg List.length hrest
      simp only [List.length_drop, List.length_cons] at hlen
      omega
    have hb : db.blocks[height]? = some b := by
      have hhead := congrArg (fun l => l[0]?) hrest
      simpa only [List.getElem?_drop, Nat.add_zero, List.getElem?_cons_zero] using hhead
    have htail : db.blocks.drop (height + 1) = rest := by
      rw [← List.drop_drop, hrest, List.drop_one, List.tail_cons]
    obtain ⟨hpass, _⟩ := hdb height b hb
    obtain ⟨hfNext, hadd, hnext, hindexNext, hneNext⟩ := h.add_spec hindex db hpass
    rw [hdb.setHardForkVersion_eq hlt] at hadd
    obtain ⟨hf', hloop, hdone⟩ := ih hnext hlt hindexNext hneNext htail
    refine ⟨hf', ?_, hdone⟩
    unfold addLoop
    rw [hadd]
    exact hloop

/-- Going back to the fork of a height below. -/
theorem HardFork.Ready.lowerTo_spec {hf : HardFork} (h : hf.Ready) (height : Nat) {i : Nat}
    (hi : i ≤ 1) :
    ∃ j, hf.lowerTo (versionAt height) i = .ok j ∧ j ≤ forkIndexAt height := by
  have hlast : hf.forkVersion 1 = .ok 16 := h.forkVersion_eq 2
  unfold versionAt forkIndexAt
  cases i with
  | zero => exact ⟨0, rfl, Nat.zero_le _⟩
  | succ i =>
    have hzero : i = 0 := by omega
    subst hzero
    unfold lowerTo
    rw [hlast]
    by_cases h2 : height < 2
    · refine ⟨0, ?_, Nat.zero_le _⟩
      simp [h2, bind, Except.bind, lowerTo]
    · refine ⟨1, ?_, ?_⟩
      · simp [h2, bind, Except.bind, pure, Except.pure]
      · simp [h2]

/-- The reorganisation puts the object in step with the chain, whatever fork it was in. -/
theorem HardFork.Ready.reorganize_spec {hf : HardFork} (h : hf.Ready) {db : VersionDB}
    (hdb : db.Consistent) (hi : hf.currentForkIndex ≤ 1) {height : Nat}
    (hheight : height < db.height) :
    ∃ hf', hf.reorganizeFromBlockHeight db height = .ok (true, hf', db) ∧ hf'.Ready ∧
      hf'.currentForkIndex = forkIndexAt db.height ∧ hf'.versions ≠ [] := by
  have hstart : hf.startVersion db height = .ok (versionAt height) := by
    unfold startVersion
    split
    · rename_i hzero
      rw [h.originalVersion_eq, hzero]
      rfl
    · exact hdb.getHardForkVersion_eq hheight
  obtain ⟨j, hlower, hj⟩ := h.lowerTo_spec height hi
  let window := (db.blocks.take (height + 1)).drop (height - (hf.windowSize - 1))
  have hwindow : window.length = height + 1 - (height - (hf.windowSize - 1)) := by
    unfold VersionDB.height at hheight
    simp only [window, List.length_drop, List.length_take]
    omega
  have hfits : window.length ≤ 10080 := by
    rw [hwindow, h.windowSize_eq]
    omega
  let hfLow : HardFork := { hf with currentForkIndex := j }
  obtain ⟨hready, hcount, hindex⟩ := (h.setIndex j).recount hfits
  have hne : (hfLow.recount window).versions ≠ [] := by
    rw [← List.length_pos_iff, hcount, hwindow]
    omega
  let hfRaised := (hfLow.recount window).raiseTo (forkIndexAt (height + 1))
  have hindexRaised : hfRaised.currentForkIndex = forkIndexAt (height + 1) := by
    refine HardFork.raiseTo_index ?_
    rw [hindex]
    exact Nat.le_trans hj (forkIndexAt_mono (Nat.le_succ height))
  have hneRaised : hfRaised.versions ≠ [] := by
    rw [HardFork.raiseTo_versions]
    exact hne
  obtain ⟨hf', hloop, hdone⟩ :=
    HardFork.Ready.addLoop_spec (hready.raiseTo _) hdb hheight hindexRaised hneRaised
  refine ⟨hf', ?_, hdone⟩
  have hnot : ¬ height ≥ db.height := by omega
  have hvoted := hready.getVotedForkIndex_eq (Nat.succ_pos height)
  unfold reorganizeFromBlockHeight
  simp only [hnot, if_false, hstart, hlower, bind, Except.bind, pure, Except.pure]
  simp only [Nat.succ_eq_add_one, window] at hvoted hloop
  simp only [hvoted, hloop]

theorem forkOfVersion_eq (height : Nat) :
    HardFork.forkOfVersion (versionAt height) mainnetHardForks = forkIndexAt height := by
  unfold versionAt forkIndexAt
  by_cases h2 : height < 2
  · simp only [h2, if_true]
    rfl
  · simp only [h2, if_false]
    rfl

/-- The rescan puts the object in step with a chain that is not empty. -/
theorem HardFork.Ready.rescan_spec {hf : HardFork} (h : hf.Ready) {db : VersionDB}
    (hdb : db.Consistent) {height : Nat} (hheight : height < db.height)
    (hfits : db.height - height ≤ 10080) :
    ∃ hf', hf.rescanFromBlockHeight db height = .ok (true, hf') ∧ hf'.Ready ∧
      hf'.currentForkIndex = forkIndexAt db.height ∧ hf'.versions ≠ [] := by
  let window := db.blocks.drop height
  have hwindow : window.length = db.height - height := List.length_drop
  obtain ⟨hready, hcount, _⟩ := h.recount (hwindow ▸ hfits)
  have hlast : db.getHardForkVersion (db.height - 1) = .ok (versionAt (db.height - 1)) :=
    hdb.getHardForkVersion_eq (by omega)
  have hfork : forkOfVersion (versionAt (db.height - 1)) (hf.recount window).heights =
      forkIndexAt (db.height - 1) := by
    rw [hready.heights_eq, forkOfVersion_eq]
  have hindexed := hready.setIndex (forkIndexAt (db.height - 1))
  have hpos : 1 ≤ db.height := by omega
  have hvoted := hindexed.getVotedForkIndex_eq hpos
  refine ⟨_, ?_, hindexed.raiseTo (forkIndexAt db.height), ?_, ?_⟩
  · have hnot : ¬ height ≥ db.height := by omega
    unfold rescanFromBlockHeight
    simp only [hnot, if_false, hlast, bind, Except.bind, pure, Except.pure]
    simp only [window] at hfork hvoted
    simp only [hfork, hvoted, window]
  · exact HardFork.raiseTo_index (forkIndexAt_mono (Nat.sub_le _ _))
  · rw [HardFork.raiseTo_versions, ← List.length_pos_iff]
    simp only [hcount, hwindow]
    omega

/-- `init` puts the object in step with the chain, whatever its window and counters
    held before. -/
theorem HardFork.init_spec {hf : HardFork} (hheights : hf.heights = mainnetHardForks)
    (hwindow : hf.windowSize = 10080) (horiginal : hf.originalVersion = 1) {db : VersionDB}
    (hdb : db.Consistent) :
    ∃ hf', hf.init db = .ok hf' ∧ hf'.Ready ∧ hf'.currentForkIndex = forkIndexAt db.height ∧
      (db.height ≠ 0 → hf'.versions ≠ []) := by
  let hfCleared : HardFork :=
    { hf with versions := [], lastVersions := fun _ => 0, currentForkIndex := 0 }
  have hready : hfCleared.Ready := ⟨hheights, hwindow, horiginal, .nil, by simp [hfCleared]⟩
  have hinit : hf.init db = hfCleared.rescanFromChainHeight db
      (if db.height > hf.windowSize then db.height - (hf.windowSize - 1) else 1) >>=
        fun result => pure result.2 := by
    unfold init
    rw [hheights]
    simp only [hfCleared, hheights]
    rfl
  have hpos : (if db.height > hf.windowSize then db.height - (hf.windowSize - 1) else 1) ≠ 0 := by
    rw [hwindow]
    split <;> omega
  rw [hinit]
  unfold rescanFromChainHeight
  rw [if_neg hpos]
  by_cases hempty : db.height = 0
  · refine ⟨hfCleared, ?_, hready, ?_, fun hne => absurd hempty hne⟩
    · unfold rescanFromBlockHeight
      simp [hempty, bind, Except.bind, pure, Except.pure]
    · rw [hempty]
      rfl
  · have hlow : (if db.height > hf.windowSize then db.height - (hf.windowSize - 1) else 1) - 1 <
        db.height := by
      rw [hwindow]
      split <;> omega
    have hfits : db.height - ((if db.height > hf.windowSize then
        db.height - (hf.windowSize - 1) else 1) - 1) ≤ 10080 := by
      rw [hwindow]
      split <;> omega
    obtain ⟨hf', hrescan, hready', hindex, hne⟩ := hready.rescan_spec hdb hlow hfits
    refine ⟨hf', ?_, hready', hindex, fun _ => hne⟩
    rw [hrescan]
    rfl

/-- Popping a block swaps a vote for a recorded version; the window keeps its length. -/
theorem HardFork.Ready.popLoop_spec {hf : HardFork} (h : hf.Ready) {db : VersionDB}
    {newChainHeight k : Nat} (hne : hf.versions ≠ [])
    (hrecorded : ∀ height, newChainHeight ≤ height → height < newChainHeight + k →
      ∃ v, db.getHardForkVersion height = .ok v) :
    ∃ hf', hf.popLoop db newChainHeight k = .ok hf' ∧ hf'.Ready ∧ hf'.versions ≠ [] := by
  induction k generalizing hf with
  | zero => exact ⟨hf, rfl, h, hne⟩
  | succ k ih =>
    obtain ⟨front, version, hversions⟩ : ∃ front version, hf.versions = front ++ [version] :=
      ⟨_, _, (List.dropLast_append_getLast hne).symm⟩
    have hlast : hf.versions.getLast? = some version := by simp [hversions]
    have hfront : hf.versions.dropLast = front := by simp [hversions]
    have hlen : front.length + 1 ≤ 10080 := by simpa [hversions] using h.length_le
    have hcounts := h.histogram
    rw [hversions] at hcounts
    obtain ⟨counts, hdown, hcounts'⟩ := hcounts.unconcat
    have htake : takeVersion hf.lastVersions version = .ok counts := by
      unfold takeVersion
      rw [hdown]
    obtain ⟨v, hv⟩ := hrecorded (newChainHeight + k) (by omega) (by omega)
    let hfNext : HardFork :=
      { hf with versions := v :: front, lastVersions := countUp counts v }
    have hready : hfNext.Ready :=
      ⟨h.heights_eq, h.windowSize_eq, h.originalVersion_eq, hcounts'.cons (by omega) v,
        by simpa [hfNext] using hlen⟩
    have hneNext : hfNext.versions ≠ [] := List.cons_ne_nil _ _
    obtain ⟨hf', hloop, hdone⟩ := ih hready hneNext
      (fun height hlo hhi => hrecorded height hlo (by omega))
    refine ⟨hf', ?_, hdone⟩
    unfold popLoop
    rw [hlast]
    simp only [htake, hv, hfront, bind, Except.bind]
    exact hloop

/-- Popping `k` blocks of a longer chain puts the object in step with what is left. -/
theorem HardFork.Ready.onBlockPopped_spec {hf : HardFork} (h : hf.Ready) (hne : hf.versions ≠ [])
    {db : VersionDB} (hdb : db.Consistent) {k : Nat} (hk : 1 ≤ k) (hheight : k < db.height) :
    ∃ hf', hf.onBlockPopped (db.popBlocks k) k = .ok hf' ∧ hf'.Ready ∧
      hf'.currentForkIndex = forkIndexAt (db.popBlocks k).height ∧ hf'.versions ≠ [] := by
  have hsum := db.height_popBlocks (Nat.le_of_lt hheight)
  -- The versions of the popped blocks are still recorded.
  have hrecorded : ∀ height, (db.popBlocks k).height ≤ height →
      height < (db.popBlocks k).height + k → ∃ v, (db.popBlocks k).getHardForkVersion height = .ok v := by
    intro height _ hhi
    exact ⟨_, hdb.getHardForkVersion_eq (by omega)⟩
  obtain ⟨hf', hloop, hready, hne'⟩ := h.popLoop_spec hne hrecorded
  refine ⟨_, ?_, hready.setIndex (forkIndexAt (db.popBlocks k).height), rfl, hne'⟩
  have hk0 : k ≠ 0 := by omega
  have hheight0 : (db.popBlocks k).height ≠ 0 := by omega
  unfold onBlockPopped
  simp only [hk0, hheight0, if_false, hloop, bind, Except.bind, pure, Except.pure]
  rw [hready.forkAtHeight_eq]

/-! ## Runs -/

/-- The object and its database. -/
structure HardForkNode where
  hf : HardFork
  db : VersionDB

/-- What the chain does with them. -/
inductive HardForkCall where
  | init
  /-- Adding a block, which happens only after it has passed `check`. -/
  | add (b : BlockVersions)
  /-- Popping `k` blocks and `on_block_popped`; the genesis block is never popped. -/
  | pop (k : Nat)
  | reorganize (height : Nat)
  /-- Popping `k` blocks and reorganising from the new height, as `Blockchain::init` does. -/
  | trim (k : Nat)
  /-- Dropping the whole database and `init`. -/
  | reset

/-- One call. -/
def HardForkNode.step (n : HardForkNode) : HardForkCall → Except Fault HardForkNode
  | .init => do
    let hf ← n.hf.init n.db
    return { n with hf := hf }
  | .add b => do
    if (← n.hf.check b) then
      let (_, hf, db) ← n.hf.add (n.db.addBlock b) b n.db.height
      return { hf := hf, db := db }
    else return n
  | .pop k => do
    if 1 ≤ k ∧ k < n.db.height then
      let hf ← n.hf.onBlockPopped (n.db.popBlocks k) k
      return { hf := hf, db := n.db.popBlocks k }
    else return n
  | .reorganize height => do
    let (_, hf, db) ← n.hf.reorganizeFromBlockHeight n.db height
    return { hf := hf, db := db }
  | .trim k => do
    if 1 ≤ k ∧ k < n.db.height then
      let db := n.db.popBlocks k
      let (_, hf, db) ← n.hf.reorganizeFromChainHeight db db.height
      return { hf := hf, db := db }
    else return n
  | .reset => do
    let hf ← n.hf.init {}
    return { hf := hf, db := {} }

/-- A run: `init` on a database, and then any calls. -/
def HardForkNode.run (n : HardForkNode) (calls : List HardForkCall) : Except Fault HardForkNode :=
  (HardForkCall.init :: calls).foldlM HardForkNode.step n

/-- The object is in step with a consistent database. -/
structure HardForkNode.Invariant (n : HardForkNode) : Prop where
  ready : n.hf.Ready
  index_eq : n.hf.currentForkIndex = forkIndexAt n.db.height
  versions_ne : n.db.height ≠ 0 → n.hf.versions ≠ []
  consistent : n.db.Consistent

namespace HardForkNode.Invariant

variable {n : HardForkNode}

theorem init (hheights : n.hf.heights = mainnetHardForks) (hwindow : n.hf.windowSize = 10080)
    (horiginal : n.hf.originalVersion = 1) (hdb : n.db.Consistent) :
    ∃ n', n.step .init = .ok n' ∧ n'.Invariant := by
  obtain ⟨hf, hinit, hready, hindex, hne⟩ := HardFork.init_spec hheights hwindow horiginal hdb
  refine ⟨{ n with hf := hf }, ?_, hready, hindex, hne, hdb⟩
  unfold step
  rw [hinit]
  rfl

theorem add (h : n.Invariant) (b : BlockVersions) : ∃ n', n.step (.add b) = .ok n' ∧ n'.Invariant := by
  have hcheck : n.hf.check b = .ok (getBlockVersion b == versionAt n.db.height &&
      decide (getBlockVote b ≥ versionAt n.db.height)) := by
    unfold HardFork.check
    rw [h.index_eq, h.ready.doCheck_eq]
  unfold step
  simp only [hcheck, bind, Except.bind, pure, Except.pure]
  split
  · rename_i hpass
    rw [Bool.and_eq_true, beq_iff_eq, decide_eq_true_eq] at hpass
    obtain ⟨hf, hadd, hready, hindex, hne⟩ := h.ready.add_spec h.index_eq (n.db.addBlock b) hpass
    rw [hadd]
    refine ⟨_, rfl, hready, ?_, fun _ => hne, h.consistent.addBlock hpass⟩
    rw [hindex]
    simp [VersionDB.height, VersionDB.addBlock, VersionDB.setHardForkVersion]
  · exact ⟨n, rfl, h⟩

theorem pop (h : n.Invariant) (k : Nat) : ∃ n', n.step (.pop k) = .ok n' ∧ n'.Invariant := by
  unfold step
  dsimp only
  split
  · rename_i hk
    obtain ⟨hf, hpop, hready, hindex, hne⟩ :=
      h.ready.onBlockPopped_spec (h.versions_ne (by omega)) h.consistent hk.1 hk.2
    rw [hpop]
    exact ⟨_, rfl, hready, hindex, fun _ => hne, h.consistent.popBlocks k⟩
  · exact ⟨n, rfl, h⟩

theorem reorganize (h : n.Invariant) (height : Nat) :
    ∃ n', n.step (.reorganize height) = .ok n' ∧ n'.Invariant := by
  unfold step
  dsimp only
  by_cases hheight : height < n.db.height
  · have hi : n.hf.currentForkIndex ≤ 1 := h.index_eq ▸ forkIndexAt_le_one _
    obtain ⟨hf, hreorg, hready, hindex, hne⟩ := h.ready.reorganize_spec h.consistent hi hheight
    rw [hreorg]
    exact ⟨_, rfl, hready, hindex, fun _ => hne, h.consistent⟩
  · have hskip : n.hf.reorganizeFromBlockHeight n.db height = .ok (false, n.hf, n.db) := by
      unfold HardFork.reorganizeFromBlockHeight
      rw [if_pos (Nat.le_of_not_lt hheight)]
      rfl
    rw [hskip]
    exact ⟨n, rfl, h⟩

theorem trim (h : n.Invariant) (k : Nat) : ∃ n', n.step (.trim k) = .ok n' ∧ n'.Invariant := by
  unfold step
  dsimp only
  split
  · rename_i hk
    have hsum := n.db.height_popBlocks (Nat.le_of_lt hk.2)
    have hi : n.hf.currentForkIndex ≤ 1 := h.index_eq ▸ forkIndexAt_le_one _
    have hdb := h.consistent.popBlocks k
    have hlt : (n.db.popBlocks k).height - 1 < (n.db.popBlocks k).height := by omega
    obtain ⟨hf, hreorg, hready, hindex, hne⟩ := h.ready.reorganize_spec hdb hi hlt
    unfold HardFork.reorganizeFromChainHeight
    rw [if_neg (by omega), hreorg]
    exact ⟨_, rfl, hready, hindex, fun _ => hne, hdb⟩
  · exact ⟨n, rfl, h⟩

theorem reset (h : n.Invariant) : ∃ n', n.step .reset = .ok n' ∧ n'.Invariant := by
  obtain ⟨hf, hinit, hready, hindex, hne⟩ := HardFork.init_spec h.ready.heights_eq
    h.ready.windowSize_eq h.ready.originalVersion_eq VersionDB.Consistent.empty
  refine ⟨{ hf := hf, db := {} }, ?_, hready, hindex, hne, VersionDB.Consistent.empty⟩
  unfold step
  rw [hinit]
  rfl

/-- No call faults, and every call keeps the invariant. -/
theorem step (h : n.Invariant) (c : HardForkCall) : ∃ n', n.step c = .ok n' ∧ n'.Invariant := by
  cases c with
  | init =>
    exact init h.ready.heights_eq h.ready.windowSize_eq h.ready.originalVersion_eq h.consistent
  | add b => exact h.add b
  | pop k => exact h.pop k
  | reorganize height => exact h.reorganize height
  | trim k => exact h.trim k
  | reset => exact h.reset

theorem calls (h : n.Invariant) (calls : List HardForkCall) :
    ∃ n', calls.foldlM HardForkNode.step n = .ok n' ∧ n'.Invariant := by
  induction calls generalizing n with
  | nil => exact ⟨n, rfl, h⟩
  | cons c calls ih =>
    obtain ⟨n₁, hstep, h₁⟩ := h.step c
    obtain ⟨n', hcalls, h'⟩ := ih h₁
    refine ⟨n', ?_, h'⟩
    rw [List.foldlM_cons, hstep]
    exact hcalls

theorem getCurrentVersion_eq (h : n.Invariant) :
    n.hf.getCurrentVersion = .ok (versionAt n.db.height) := by
  unfold HardFork.getCurrentVersion
  rw [h.index_eq, h.ready.forkVersion_eq]

theorem check_eq (h : n.Invariant) (b : BlockVersions) :
    n.hf.check b = .ok (getBlockVersion b == versionAt n.db.height &&
      decide (getBlockVote b ≥ versionAt n.db.height)) := by
  unfold HardFork.check
  rw [h.index_eq, h.ready.doCheck_eq]

end HardForkNode.Invariant

/-- Every run from `init` on a consistent database goes through without a fault; the
    current version is 1 below two blocks and 16 from then on, which is the ideal
    version; `check` agrees with `check_for_height` at the height of the chain; and the
    counters are the histogram of the window, which is empty on an empty chain only. -/
theorem HardForkNode.run_spec {db : VersionDB} (hdb : db.Consistent)
    (lastVersions : UInt8 → UInt32) (calls : List HardForkCall) :
    ∃ n : HardForkNode,
      HardForkNode.run { hf := { xrlHardFork with lastVersions := lastVersions }, db := db } calls =
        .ok n ∧
      n.hf.getCurrentVersion = .ok (if n.db.height < 2 then 1 else 16) ∧
      n.hf.getCurrentVersion = .ok (n.hf.getIdealVersion n.db.height) ∧
      (1 ≤ n.db.height → ∀ b, n.hf.check b = n.hf.checkForHeight b n.db.height) ∧
      (∀ v, (n.hf.lastVersions v).toNat = n.hf.versions.count v) ∧
      (1 ≤ n.db.height → n.hf.versions ≠ []) := by
  let start : HardForkNode := { hf := { xrlHardFork with lastVersions := lastVersions }, db := db }
  have hstart : ∃ n, start.step .init = .ok n ∧ n.Invariant :=
    HardForkNode.Invariant.init xrlHardFork_heights rfl rfl hdb
  obtain ⟨n₀, hinit, h₀⟩ := hstart
  obtain ⟨n, hcalls, h⟩ := h₀.calls calls
  have hcurrent := h.getCurrentVersion_eq
  refine ⟨n, ?_, hcurrent, ?_, ?_, h.ready.histogram, ?_⟩
  · unfold HardForkNode.run
    rw [List.foldlM_cons]
    change (start.step .init >>= _) = _
    rw [hinit]
    exact hcalls
  · rw [hcurrent, h.ready.getIdealVersion_eq]
  · intro hheight b
    rw [h.check_eq, h.ready.checkForHeight_eq hheight]
  · intro hheight
    exact h.versions_ne (by omega)

/-- A run through both forks, a reorganisation, and a pop back to the genesis block. -/
theorem HardForkNode.run_spec_sample :
    ∃ n : HardForkNode,
      HardForkNode.run { hf := { xrlHardFork with lastVersions := fun _ => 7 }, db := {} }
        [.add { majorVersion := 1 }, .add { majorVersion := 1, minorVersion := 16 },
          .add { majorVersion := 16, minorVersion := 16 }, .reorganize 0, .pop 2] = .ok n ∧
      n.hf.getCurrentVersion = .ok (if n.db.height < 2 then 1 else 16) := by
  obtain ⟨n, hrun, hcurrent, _⟩ := HardForkNode.run_spec VersionDB.Consistent.empty (fun _ => 7)
    [.add { majorVersion := 1 }, .add { majorVersion := 1, minorVersion := 16 },
      .add { majorVersion := 16, minorVersion := 16 }, .reorganize 0, .pop 2]
  exact ⟨n, hrun, hcurrent⟩

end RandomLite.Monero
