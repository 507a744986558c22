-- SUMMARY: The coins recorded for the blocks of the production node: bounded by the supply, and non-decreasing along every stored chain as long as no fee-paying block is recorded twice.
import RandomLite.Library.ParentTree
import RandomLite.Monero.BlockchainRuns
import Mathlib.Data.List.Chain
import Mathlib.Data.List.Nodup

/-!
# Emission

The node keeps a running total of the coins generated for every stored block. The
main chain adds the validated base reward, an alternative block the sum of its
miner's outputs; the two differ by the fees. The bounds and the order on the main
chain hold after every run. Along alternative chains the order holds when every
block that pays fees is recorded by one of the two ways only, for then the total of
a block is fixed by its hash (`Content.Account`, a value grown along the parents).
-/

namespace RandomLite.Monero

/-! ## What is promised of a chain -/

/-- What the running totals along a chain promise: the supply bounds them, they do not
    fall, and the reward from height 2 on does not rise, is never below 0.6 coins, and
    stays there once it is. -/
structure SoundEmission (coins : List UInt64) : Prop where
  monotone : coins.Pairwise (· ≤ ·)
  capped : ∀ g ∈ coins, g ≤ moneySupply
  room : ∀ g ∈ coins, (moneySupply - g).toNat = moneySupply.toNat - g.toNat
  reward_antitone : coins.Pairwise fun g g' => ∀ height ≥ 2, ∀ height' ≥ 2,
    baseReward g' (versionAt height') ≤ baseReward g (versionAt height)
  reward_floor : ∀ g ∈ coins, ∀ height ≥ 2, 600000000000 ≤ baseReward g (versionAt height)
  reward_sticky : coins.Pairwise fun g g' => ∀ height ≥ 2, ∀ height' ≥ 2,
    baseReward g (versionAt height) = 600000000000 →
      baseReward g' (versionAt height') = 600000000000

theorem versionAt_of_two_le {height : Nat} (h : 2 ≤ height) : versionAt height = 16 := by
  unfold versionAt
  exact if_neg (Nat.not_lt.mpr h)

/-- At every height the fork asks for the exact reward. -/
theorem versionAt_exact (height : Nat) : versionAt height < 2 ∨ 13 ≤ versionAt height := by
  unfold versionAt
  split
  · exact .inl (by decide)
  · exact .inr (by decide)

/-- The rest follows from the order and the bound. -/
theorem SoundEmission.of_monotone {coins : List UInt64} (hmonotone : coins.Pairwise (· ≤ ·))
    (hcapped : ∀ g ∈ coins, g ≤ moneySupply) : SoundEmission coins where
  monotone := hmonotone
  capped := hcapped
  room g hg := UInt64.toNat_sub_of_le _ _ (hcapped g hg)
  reward_antitone := by
    refine hmonotone.imp_of_mem ?_
    intro g g' _ hg' hle height hheight height' hheight'
    rw [versionAt_of_two_le hheight, versionAt_of_two_le hheight']
    exact baseReward_antitone hle (hcapped g' hg') 16
  reward_floor g _ height hheight := by
    rw [versionAt_of_two_le hheight, ← tailSubsidy_v16]
    exact tailSubsidy_le_baseReward g 16
  reward_sticky := by
    refine hmonotone.imp_of_mem ?_
    intro g g' _ hg' hle height hheight height' hheight' htail
    rw [versionAt_of_two_le hheight, ← tailSubsidy_v16] at htail
    rw [versionAt_of_two_le hheight', ← tailSubsidy_v16]
    exact baseReward_sticky hle (hcapped g' hg') htail

/-- A stored block as its totals are read: main chain or alternative. -/
structure Record where
  id : Hash
  prevId : Hash
  alreadyGeneratedCoins : UInt64
  deriving DecidableEq, Repr

def MainEntry.record (C : Content) (e : MainEntry) : Record :=
  { id := C.getBlockHash e.block
    prevId := e.block.prevId
    alreadyGeneratedCoins := e.alreadyGeneratedCoins }

def AltEntry.record (a : AltEntry) : Record :=
  { id := a.id, prevId := a.block.prevId, alreadyGeneratedCoins := a.alreadyGeneratedCoins }

/-- The records of both stores. -/
def BlockchainDB.records (C : Content) (s : BlockchainDB) : List Record :=
  s.blocks.map (MainEntry.record C) ++ s.altBlocks.map AltEntry.record

/-- A chain in the stores: every record is the parent of the next one. An alternative
    chain may start on the main chain or in the store of alternative blocks. -/
structure StoredChain (C : Content) (s : BlockchainDB) (chain : List Record) : Prop where
  stored : ∀ r ∈ chain, r ∈ s.records C
  linked : chain.IsChain fun r r' => r'.prevId = r.id

/-- The totals of the main chain and of every stored chain are sound. -/
structure BlockchainDB.EmissionSound (C : Content) (s : BlockchainDB) : Prop where
  main : SoundEmission (s.blocks.map (·.alreadyGeneratedCoins))
  stored : ∀ chain, StoredChain C s chain → SoundEmission (chain.map (·.alreadyGeneratedCoins))

/-! ## The main chain, and the bound everywhere -/

/-- What holds of the totals after every run. -/
structure Capped (C : Content) (known : List Block) (s : BlockchainDB) : Prop where
  blocks_known : ∀ e ∈ s.blocks, e.block ∈ known
  alt_known : ∀ a ∈ s.altBlocks, a.block ∈ known
  alt_id : ∀ a ∈ s.altBlocks, a.id = C.getBlockHash a.block
  main_monotone : s.blocks.Pairwise fun e e' => e.alreadyGeneratedCoins ≤ e'.alreadyGeneratedCoins
  main_capped : ∀ e ∈ s.blocks, e.alreadyGeneratedCoins ≤ moneySupply
  alt_capped : ∀ a ∈ s.altBlocks, a.alreadyGeneratedCoins ≤ moneySupply

/-- The parent of an alternative block is found in one of the two stores. -/
theorem parentData_cases {C : Content} {s : BlockchainDB} {prevId : Hash}
    {parentHeight parentDifficulty : Nat} {parentCoins : UInt64}
    (h : parentData C s prevId = some (parentHeight, parentCoins, parentDifficulty)) :
    (∃ a ∈ s.altBlocks, a.id = prevId ∧ a.alreadyGeneratedCoins = parentCoins) ∨
    (∃ e ∈ s.blocks, C.getBlockHash e.block = prevId ∧ e.alreadyGeneratedCoins = parentCoins) := by
  unfold parentData at h
  split at h
  · rename_i a hfound
    refine .inl ⟨a, List.mem_of_find?_eq_some hfound, ?_, ?_⟩
    · simpa using List.find?_some hfound
    · exact congrArg (·.2.1) (Option.some.inj h)
  · split at h
    · rename_i e hfound
      refine .inr ⟨e, List.mem_of_find?_eq_some hfound, ?_, ?_⟩
      · simpa using List.find?_some hfound
      · exact congrArg (·.2.1) (Option.some.inj h)
    · exact absurd h (by simp)

namespace Capped

variable {C : Content} {known : List Block} {s : BlockchainDB}

theorem top (h : Capped C known s) : s.topGeneratedCoins ≤ moneySupply := by
  unfold BlockchainDB.topGeneratedCoins
  split
  · rename_i e hlast
    exact h.main_capped e (List.mem_of_getLast? hlast)
  · decide

theorem le_top (h : Capped C known s) {e : MainEntry} (he : e ∈ s.blocks) :
    e.alreadyGeneratedCoins ≤ s.topGeneratedCoins := by
  unfold BlockchainDB.topGeneratedCoins
  split
  · rename_i last hlast
    obtain ⟨front, hfront⟩ := List.getLast?_eq_some_iff.mp hlast
    have hsorted := h.main_monotone
    rw [hfront] at hsorted he
    rcases List.mem_append.mp he with hfst | hlst
    · exact (List.pairwise_append.mp hsorted).2.2 e hfst last (List.mem_singleton_self _)
    · rw [List.mem_singleton.mp hlst]
      exact UInt64.le_refl _
  · rename_i hnone
    rw [List.getLast?_eq_none_iff.mp hnone] at he
    exact absurd he List.not_mem_nil

theorem parent (h : Capped C known s) {prevId : Hash} {parentHeight parentDifficulty : Nat}
    {parentCoins : UInt64}
    (hparent : parentData C s prevId = some (parentHeight, parentCoins, parentDifficulty)) :
    parentCoins ≤ moneySupply := by
  rcases parentData_cases hparent with ⟨a, ha, _, rfl⟩ | ⟨e, he, _, rfl⟩
  · exact h.alt_capped a ha
  · exact h.main_capped e he

theorem kept (C : Content) (known : List Block) : Kept C known (Capped C known) where
  connect := by
    intro s b medianWeight weight baseReward h hb hprev hvalid cumulativeDifficulty
    have hle := cappedAdd.le_self h.top baseReward
    have hcap := cappedAdd.le_cap h.top baseReward
    refine { h with blocks_known := ?_, main_monotone := ?_, main_capped := ?_ }
    · exact BlockchainDB.forall_addBlock h.blocks_known hb
    · refine List.pairwise_append.mpr ⟨h.main_monotone, List.pairwise_singleton _ _, ?_⟩
      intro e he
      exact List.forall_mem_singleton.mpr (UInt64.le_trans (h.le_top he) hle)
    · exact BlockchainDB.forall_addBlock h.main_capped hcap
  pop := by
    intro s h
    refine { h with blocks_known := ?_, main_monotone := ?_, main_capped := ?_ }
    · exact BlockchainDB.forall_popBlock h.blocks_known
    · exact h.main_monotone.sublist (List.dropLast_sublist _)
    · exact BlockchainDB.forall_popBlock h.main_capped
  store := by
    intro s b parentHeight parentDifficulty parentCoins h hb hparent height cumulativeDifficulty
    have hcap := cappedAdd.le_cap (h.parent hparent) (getOutsMoneyAmount b.minerTx)
    refine { h with alt_known := ?_, alt_id := ?_, alt_capped := ?_ }
    · exact BlockchainDB.forall_addAltBlock h.alt_known hb
    · exact BlockchainDB.forall_addAltBlock h.alt_id rfl
    · exact BlockchainDB.forall_addAltBlock h.alt_capped hcap
  remove := by
    intro s id h
    refine { h with alt_known := ?_, alt_id := ?_, alt_capped := ?_ }
    · exact BlockchainDB.forall_removeAltBlock h.alt_known id
    · exact BlockchainDB.forall_removeAltBlock h.alt_id id
    · exact BlockchainDB.forall_removeAltBlock h.alt_capped id
  blocks_known h := h.blocks_known
  alt_known h := h.alt_known

theorem empty (C : Content) (known : List Block) : Capped C known {} where
  blocks_known := by simp
  alt_known := by simp
  alt_id := by simp
  main_monotone := List.Pairwise.nil
  main_capped := by simp
  alt_capped := by simp

end Capped

/-! ## Totals that the hash fixes -/

/-- The blocks a run submits, each naming its parent; the first one names the null hash. -/
def Content.blockTree (C : Content) (known : List Block) : ParentTree Block Hash where
  nodes := {b | b ∈ known}
  id := C.getBlockHash
  parent := Block.prevId
  root := nullHash

/-- The coins a block adds: without the fees when it is ever on the main chain. -/
def Content.generatedCoins (C : Content) (main : List Block) (b : Block) : UInt64 :=
  if b ∈ main then getOutsMoneyAmount b.minerTx - C.feeSummary b else getOutsMoneyAmount b.minerTx

/-- The total of a block, grown along its parents. -/
def Content.Account (C : Content) (known main : List Block) : Hash → UInt64 → Prop :=
  (C.blockTree known).Carries (fun b g => cappedAdd moneySupply g (C.generatedCoins main b)) 0

/-- A block that pays fees is not recorded in both ways. -/
def Content.RecordedOnce (C : Content) (main alt : List Block) : Prop :=
  ∀ b ∈ main, b ∈ alt → C.feeSummary b = 0

/-- While the histories stay within `main` and `alt`, every stored total is the account
    of its block. -/
structure Accounted (C : Content) (known main alt : List Block) (s : BlockchainDB) : Prop
    extends Capped C known s where
  main_account : s.mainHistory ⊆ main → s.altHistory ⊆ alt →
    ∀ e ∈ s.blocks, C.Account known main (C.getBlockHash e.block) e.alreadyGeneratedCoins
  alt_account : s.mainHistory ⊆ main → s.altHistory ⊆ alt →
    ∀ a ∈ s.altBlocks, C.Account known main a.id a.alreadyGeneratedCoins

namespace Accounted

variable {C : Content} {known main alt : List Block} {s : BlockchainDB}

theorem top (h : Accounted C known main alt s) (hmain : s.mainHistory ⊆ main)
    (halt : s.altHistory ⊆ alt) :
    C.Account known main (s.topBlockHash C) s.topGeneratedCoins := by
  unfold BlockchainDB.topBlockHash BlockchainDB.topGeneratedCoins
  split
  · rename_i e hlast
    exact h.main_account hmain halt e (List.mem_of_getLast? hlast)
  · exact .root

theorem parent (h : Accounted C known main alt s) (hmain : s.mainHistory ⊆ main)
    (halt : s.altHistory ⊆ alt) {prevId : Hash} {parentHeight parentDifficulty : Nat}
    {parentCoins : UInt64}
    (hparent : parentData C s prevId = some (parentHeight, parentCoins, parentDifficulty)) :
    C.Account known main prevId parentCoins := by
  rcases parentData_cases hparent with ⟨a, ha, rfl, rfl⟩ | ⟨e, he, rfl, rfl⟩
  · exact h.alt_account hmain halt a ha
  · exact h.main_account hmain halt e he

/-- The account of a block from the account of its parent. -/
theorem grow {b : Block} (hb : b ∈ known) {g r : UInt64} (hg : C.Account known main b.prevId g)
    (hr : r = C.generatedCoins main b) :
    C.Account known main (C.getBlockHash b) (cappedAdd moneySupply g r) := by
  rw [hr]
  exact ParentTree.Carries.child (T := C.blockTree known) hb hg

theorem kept (hfees : C.RecordedOnce main alt) : Kept C known (Accounted C known main alt) where
  connect := by
    intro s b medianWeight weight baseReward h hb hprev hvalid cumulativeDifficulty
    have hcapped := (Capped.kept C known).connect h.toCapped hb hprev hvalid cumulativeDifficulty
    refine { hcapped with main_account := ?_, alt_account := ?_ }
    · intro hmain halt
      obtain ⟨hbefore, hb'⟩ := List.append_subset.mp hmain
      -- The fork asks for the exact reward, so the outputs exceed it by the fees.
      have hnet : baseReward = C.generatedCoins main b := by
        unfold Content.generatedCoins
        rw [if_pos (hb' List.mem_cons_self)]
        exact validateMinerTransaction_exact (versionAt_exact _) hvalid
      have hgrown := grow hb (hprev ▸ h.top hbefore halt) hnet
      exact BlockchainDB.forall_addBlock (h.main_account hbefore halt) hgrown
    · intro hmain halt
      exact h.alt_account (List.append_subset.mp hmain).1 halt
  pop := by
    intro s h
    have hcapped := (Capped.kept C known).pop h.toCapped
    refine { hcapped with main_account := ?_, alt_account := h.alt_account }
    intro hmain halt
    exact BlockchainDB.forall_popBlock (h.main_account hmain halt)
  store := by
    intro s b parentHeight parentDifficulty parentCoins h hb hparent height cumulativeDifficulty
    have hcapped := (Capped.kept C known).store h.toCapped hb hparent height cumulativeDifficulty
    refine { hcapped with main_account := ?_, alt_account := ?_ }
    · intro hmain halt
      exact h.main_account hmain (List.append_subset.mp halt).1
    · intro hmain halt
      obtain ⟨hbefore, hb'⟩ := List.append_subset.mp halt
      -- A block that is on the main chain as well pays no fees.
      have hnet : getOutsMoneyAmount b.minerTx = C.generatedCoins main b := by
        unfold Content.generatedCoins
        split
        · rename_i hbmain
          rw [hfees b hbmain (hb' List.mem_cons_self), UInt64.sub_zero]
        · rfl
      have hgrown := grow hb (h.parent hmain hbefore hparent) hnet
      exact BlockchainDB.forall_addAltBlock (h.alt_account hmain hbefore) hgrown
  remove := by
    intro s id h
    have hcapped := (Capped.kept C known).remove id h.toCapped
    refine { hcapped with main_account := h.main_account, alt_account := ?_ }
    intro hmain halt
    exact BlockchainDB.forall_removeAltBlock (h.alt_account hmain halt) id
  blocks_known h := h.blocks_known
  alt_known h := h.alt_known

theorem empty (C : Content) (known main alt : List Block) : Accounted C known main alt {} where
  toCapped := Capped.empty C known
  main_account := by simp
  alt_account := by simp

/-- A stored record belongs to a submitted block and carries its account. -/
theorem of_record (h : Accounted C known main alt s) (hmain : s.mainHistory ⊆ main)
    (halt : s.altHistory ⊆ alt) {r : Record} (hr : r ∈ s.records C) :
    ∃ b ∈ known, r.id = C.getBlockHash b ∧ r.prevId = b.prevId ∧
      C.Account known main r.id r.alreadyGeneratedCoins := by
  rcases List.mem_append.mp hr with hr | hr
  · obtain ⟨e, he, rfl⟩ := List.mem_map.mp hr
    exact ⟨e.block, h.blocks_known e he, rfl, rfl, h.main_account hmain halt e he⟩
  · obtain ⟨a, ha, rfl⟩ := List.mem_map.mp hr
    exact ⟨a.block, h.alt_known a ha, h.alt_id a ha, rfl, h.alt_account hmain halt a ha⟩

theorem capped_record (h : Accounted C known main alt s) {r : Record} (hr : r ∈ s.records C) :
    r.alreadyGeneratedCoins ≤ moneySupply := by
  rcases List.mem_append.mp hr with hr | hr
  · obtain ⟨e, he, rfl⟩ := List.mem_map.mp hr
    exact h.main_capped e he
  · obtain ⟨a, ha, rfl⟩ := List.mem_map.mp hr
    exact h.alt_capped a ha

end Accounted

/-! ## Every run -/

/-- The main chain is sound and every alternative total bounded after every run, whatever
    the fees. -/
theorem Content.mainEmission_of_run (C : Content) (calls : List ChainCall) :
    SoundEmission (((chainMachine C).final {} calls).blocks.map (·.alreadyGeneratedCoins)) ∧
    ∀ a ∈ ((chainMachine C).final {} calls).altBlocks, a.alreadyGeneratedCoins ≤ moneySupply := by
  have hcapped := (Capped.kept C _).run calls (fun b hb => hb) (Capped.empty C _)
  refine ⟨.of_monotone (List.pairwise_map.mpr hcapped.main_monotone) ?_, hcapped.alt_capped⟩
  exact List.forall_mem_map.mpr hcapped.main_capped

/-- No two of the blocks share a hash, and none has the null hash. -/
structure Content.HashesApart (C : Content) (known : List Block) : Prop where
  injective : ∀ b ∈ known, ∀ b' ∈ known, C.getBlockHash b = C.getBlockHash b' → b = b'
  ne_null : ∀ b ∈ known, C.getBlockHash b ≠ nullHash

theorem Content.HashesApart.mono {C : Content} {known known' : List Block}
    (h : C.HashesApart known) (hsub : known' ⊆ known) : C.HashesApart known' where
  injective b hb b' hb' := h.injective b (hsub hb) b' (hsub hb')
  ne_null b hb := h.ne_null b (hsub hb)

theorem Content.HashesApart.wellNamed {C : Content} {known : List Block}
    (h : C.HashesApart known) : (C.blockTree known).WellNamed where
  injective := h.injective
  ne_root := h.ne_null

/-- A stored block records at least the coins of a stored parent. -/
theorem Accounted.parent_le {C : Content} {known main alt : List Block} {s : BlockchainDB}
    (h : Accounted C known main alt s) (hmain : s.mainHistory ⊆ main) (halt : s.altHistory ⊆ alt)
    (hapart : C.HashesApart known) {r r' : Record} (hr : r ∈ s.records C)
    (hr' : r' ∈ s.records C) (hlink : r'.prevId = r.id) :
    r.alreadyGeneratedCoins ≤ r'.alreadyGeneratedCoins := by
  obtain ⟨b, _, _, _, hparent⟩ := h.of_record hmain halt hr
  obtain ⟨b', hb', hid', hprev', hchild⟩ := h.of_record hmain halt hr'
  rw [← hlink, hprev'] at hparent
  rw [hid'] at hchild
  exact ParentTree.Carries.parent_le (P := (· ≤ moneySupply)) (UInt64.zero_le)
    (fun b g hg => cappedAdd.le_cap hg _) (fun b g hg => cappedAdd.le_self hg _)
    hapart.wellNamed hb' hparent hchild

/-- After every run in which no block that pays fees was both on the main chain and stored
    as an alternative, the totals of all stored chains are sound. -/
theorem Content.emission_of_run (C : Content) (calls : List ChainCall)
    (hapart : C.HashesApart (calls.flatMap ChainCall.submitted))
    (hfees : C.RecordedOnce ((chainMachine C).final {} calls).mainHistory
      ((chainMachine C).final {} calls).altHistory) :
    ((chainMachine C).final {} calls).EmissionSound C := by
  have haccounted := (Accounted.kept hfees).run calls (fun b hb => hb) (Accounted.empty C _ _ _)
  have hmain := List.Subset.refl ((chainMachine C).final {} calls).mainHistory
  have halt := List.Subset.refl ((chainMachine C).final {} calls).altHistory
  refine ⟨(C.mainEmission_of_run calls).1, ?_⟩
  intro chain hchain
  refine .of_monotone (List.pairwise_map.mpr ?_) (List.forall_mem_map.mpr ?_)
  · -- Links compare neighbours; the order is transitive.
    have hlinked : chain.IsChain fun r r' => r.alreadyGeneratedCoins ≤ r'.alreadyGeneratedCoins := by
      refine hchain.linked.imp_of_mem_imp ?_
      intro r r' hr hr' hlink
      exact haccounted.parent_le hmain halt hapart (hchain.stored r hr) (hchain.stored r' hr') hlink
    have htrans : IsTrans Record fun r r' => r.alreadyGeneratedCoins ≤ r'.alreadyGeneratedCoins :=
      ⟨fun _ _ _ => UInt64.le_trans⟩
    exact List.isChain_iff_pairwise.mp hlinked
  · intro r hr
    exact haccounted.capped_record (hchain.stored r hr)

/-! ## Two runs -/

/-- In the sample runs the hash of a block is its nonce. -/
def sampleHash (nonce : UInt8) : Hash := nullHash.set 31 (nonce + 1)

def sampleContent : Content where
  getBlockHash b := sampleHash b.nonce.toUInt8
  getTxFee _ := 100000000000000

theorem sampleHash_injective {nonce nonce' : UInt8} (h : sampleHash nonce = sampleHash nonce') :
    nonce = nonce' := by
  have hlast := congrArg (fun v : Hash => v[31]) h
  simpa [sampleHash] using hlast

/-- Blocks with different nonces have different hashes. -/
theorem sampleContent_apart {known : List Block}
    (hnodup : (known.map fun b => b.nonce.toUInt8).Nodup)
    (hlast : ∀ b ∈ known, b.nonce.toUInt8 ≠ 255) : sampleContent.HashesApart known where
  injective b hb b' hb' h := List.inj_on_of_nodup_map hnodup hb hb' (sampleHash_injective h)
  ne_null b hb h := by
    have hnull : sampleHash 255 = nullHash := by decide
    exact hlast b hb (sampleHash_injective ((show sampleHash _ = nullHash from h).trans hnull.symm))

/-- Every other check passes, and every block has difficulty one. -/
def sampleEnv : Env where
  medianWeight _ := 0
  cumulativeBlockWeight _ _ := 0
  difficultyForNextBlock _ := 1
  nextDifficultyForAlternativeChain _ _ _ := 1
  checkMainBlock _ _ := true
  checkAltBlock _ _ _ := true
  isCheckpoint _ _ := false
  isInvalid _ := false

def sampleBlock (height : Nat) (nonce : UInt8) (prevId : Hash) (coins : UInt64)
    (txHashes : List Hash) : Block where
  majorVersion := versionAt height
  minorVersion := versionAt height
  prevId := prevId
  nonce := nonce.toUInt32
  txHashes := txHashes
  minerTx :=
    { version := if height < 2 then 1 else 2
      unlockTime := UInt64.ofNat height + 10
      vin := [.gen (UInt64.ofNat height)]
      vout := [{ amount := coins, target := if height < 2 then .toKey else .toTaggedKey }] }

/-- The totals of a chain from height 0 on. -/
def sampleTotal : Nat → UInt64
  | 0 => 0
  | height + 1 => sampleTotal height + baseReward (sampleTotal height) (versionAt height)

def sampleReward (height : Nat) : UInt64 := baseReward (sampleTotal height) (versionAt height)

def sampleCalls (blocks : List Block) : List ChainCall :=
  blocks.map fun b => .addNewBlock b sampleEnv 2

theorem submitted_sampleCalls (blocks : List Block) :
    (sampleCalls blocks).flatMap ChainCall.submitted = blocks := by
  rw [sampleCalls, List.flatMap_map]
  exact List.flatMap_singleton' blocks

/-- The block at a height of a chain without transactions. -/
def trunkBlock (height : Nat) : Block :=
  sampleBlock height (UInt8.ofNat height) (sampleHash (UInt8.ofNat height - 1))
    (sampleReward height) []

def trunk (n : Nat) : List Block := (List.range n).map trunkBlock

theorem trunk_subset {m n : Nat} (h : m ≤ n) : trunk m ⊆ trunk n :=
  List.map_subset _ (List.range_subset.mpr h)

/-- What it leaves in the stores. -/
def trunkState (n : Nat) : BlockchainDB where
  blocks := (List.range n).map fun height =>
    { block := trunkBlock height
      alreadyGeneratedCoins := sampleTotal (height + 1)
      cumulativeDifficulty := height + 1 }
  mainHistory := trunk n

/-- The checks of its blocks that do not look at the stores. -/
theorem trunkBlock_passes : ∀ height < 50,
    checkVersion (trunkBlock height) height = true ∧
      prevalidateMinerTransaction (trunkBlock height) (UInt64.ofNat height) (versionAt height) = true ∧
      validateMinerTransaction (trunkBlock height) 0 0 0 (sampleTotal height) (versionAt height) =
        some (sampleReward height) ∧
      cappedAdd moneySupply (sampleTotal height) (sampleReward height) = sampleTotal (height + 1) := by
  decide +kernel

theorem getBlockHash_trunkBlock {height : Nat} (h : height < 50) :
    sampleContent.getBlockHash (trunkBlock height) = sampleHash (UInt8.ofNat height) := by
  have hnonce : ∀ height < 50,
      (trunkBlock height).nonce.toUInt8 = UInt8.ofNat height := by decide +kernel
  exact congrArg sampleHash (hnonce height h)

theorem trunkState_top {n : Nat} (hn : n < 50) :
    (trunkState n).topBlockHash sampleContent = sampleHash (UInt8.ofNat n - 1) ∧
      (trunkState n).topGeneratedCoins = sampleTotal n ∧
      (trunkState n).topCumulativeDifficulty = n := by
  cases n with
  | zero => decide
  | succ n =>
    have hlast : (trunkState (n + 1)).blocks.getLast? = some
        { block := trunkBlock n, alreadyGeneratedCoins := sampleTotal (n + 1),
          cumulativeDifficulty := n + 1 } := by
      simp [trunkState, List.range_succ]
    have hprev : ∀ n < 49, UInt8.ofNat (n + 1) - 1 = UInt8.ofNat n := by decide
    unfold BlockchainDB.topBlockHash BlockchainDB.topGeneratedCoins
      BlockchainDB.topCumulativeDifficulty
    rw [hlast, hprev n (by omega)]
    exact ⟨getBlockHash_trunkBlock (by omega), rfl, rfl⟩

theorem trunkState_getBlock {n : Nat} (hn : n < 50) :
    (trunkState n).getBlock sampleContent (sampleHash (UInt8.ofNat n)) = none := by
  refine List.find?_eq_none.mpr fun e he heq => ?_
  obtain ⟨height, hheight, rfl⟩ := List.mem_map.mp he
  rw [List.mem_range] at hheight
  rw [getBlockHash_trunkBlock (by omega), beq_iff_eq] at heq
  have hcode := congrArg UInt8.toNat (sampleHash_injective heq)
  simp only [UInt8.toNat_ofNat'] at hcode
  omega

/-- The blocks of the trunk are all accepted. -/
theorem trunk_final {n : Nat} (hn : n ≤ 50) :
    (chainMachine sampleContent).final {} (sampleCalls (trunk n)) = trunkState n := by
  induction n with
  | zero => rfl
  | succ n ih =>
    obtain ⟨hversion, hprevalid, hvalid, hcoins⟩ := trunkBlock_passes n (by omega)
    obtain ⟨htop, hgenerated, hwork⟩ := trunkState_top (n := n) (by omega)
    have hheight : (trunkState n).height = n := by simp [BlockchainDB.height, trunkState]
    have hnew : (trunkState n).getBlock sampleContent
        (sampleContent.getBlockHash (trunkBlock n)) = none := by
      rw [getBlockHash_trunkBlock (by omega)]
      exact trunkState_getBlock (by omega)
    have hprev : (trunkBlock n).prevId = (trunkState n).topBlockHash sampleContent := htop.symm
    have hstep : ((chainMachine sampleContent).step (trunkState n)
        (.addNewBlock (trunkBlock n) sampleEnv 2)).2 = trunkState (n + 1) := by
      simp only [chainMachine, addNewBlock, handleBlockToMainChain, hnew, hprev, hheight, hversion,
        hprevalid, hgenerated, hwork, ne_eq, not_true, if_false]
      rw [show sampleContent.feeSummary (trunkBlock n) = 0 from rfl]
      simp only [sampleEnv, hvalid]
      simp [BlockchainDB.getAltBlock, BlockchainDB.addBlock, trunkState, trunk, List.range_succ,
        hcoins]
    have hcalls : sampleCalls (trunk (n + 1)) =
        sampleCalls (trunk n) ++ [.addNewBlock (trunkBlock n) sampleEnv 2] := by
      simp [sampleCalls, trunk, List.range_succ]
    rw [hcalls, Machine.final_append, ih (by omega)]
    exact hstep

theorem final_trunk_append {n : Nat} (hn : n ≤ 50) (blocks : List Block) :
    (chainMachine sampleContent).final {} (sampleCalls (trunk n ++ blocks)) =
      (chainMachine sampleContent).final (trunkState n) (sampleCalls blocks) := by
  rw [sampleCalls, List.map_append, Machine.final_append]
  exact congrArg (fun s => (chainMachine sampleContent).final s (sampleCalls blocks))
    (trunk_final hn)

/-- On forty-two blocks, enough for three rings of sixteen: a block whose transaction pays a
    fee of 100 coins, and two blocks on that one. The second of them is stored as an alternative. -/
def feeBlocks : List Block :=
  [ sampleBlock 42 42 (sampleHash 41) (sampleReward 42 + 100000000000000) [nullHash],
    sampleBlock 43 43 (sampleHash 42) (sampleReward 43) [],
    sampleBlock 43 44 (sampleHash 42) (sampleReward 43) [] ]

/-- The alternative becomes the main chain by one more block. The block with the fee stays
    on the main chain, so the totals are sound. -/
def sampleRun : List ChainCall :=
  sampleCalls (trunk 42 ++
    (feeBlocks ++ [sampleBlock 44 45 (sampleHash 44) (sampleReward 44) []]))

theorem Content.emission_of_run_sample :
    ((chainMachine sampleContent).final {} sampleRun).EmissionSound sampleContent := by
  refine sampleContent.emission_of_run sampleRun (sampleContent_apart ?_ ?_) ?_
  · decide +kernel
  · decide +kernel
  · unfold sampleRun Content.RecordedOnce
    rw [final_trunk_append (by decide)]
    decide +kernel

/-- A longer branch that leaves out the block with the fee, which thereby becomes an
    alternative block, with the fee in its total. -/
def brokenRun : List ChainCall :=
  sampleCalls (trunk 42 ++
    (feeBlocks ++
      [ sampleBlock 42 45 (sampleHash 41) (sampleReward 42) [],
        sampleBlock 43 46 (sampleHash 45) (sampleReward 43) [],
        sampleBlock 44 47 (sampleHash 46) (sampleReward 44) [] ]))

/-- The block with the fee and the alternative stored on it before, as `brokenRun` leaves them. -/
def brokenChain : List Record :=
  [ { id := sampleHash 42, prevId := sampleHash 41, alreadyGeneratedCoins := 1573941373854319 },
    { id := sampleHash 44, prevId := sampleHash 42, alreadyGeneratedCoins := 1509033777378004 } ]

theorem brokenChain_stored :
    StoredChain sampleContent ((chainMachine sampleContent).final {} brokenRun) brokenChain where
  stored := by
    unfold brokenRun
    rw [final_trunk_append (by decide)]
    decide +kernel
  linked := by decide +kernel

/-- Not every run leaves sound totals behind. -/
theorem Content.emission_unsound :
    ¬ ∀ (C : Content) (calls : List ChainCall), C.HashesApart (calls.flatMap ChainCall.submitted) →
      ((chainMachine C).final {} calls).EmissionSound C := by
  intro h
  have hapart : sampleContent.HashesApart (brokenRun.flatMap ChainCall.submitted) :=
    sampleContent_apart (by decide +kernel) (by decide +kernel)
  have hsound := ((h sampleContent brokenRun hapart).stored brokenChain brokenChain_stored).monotone
  exact absurd hsound (by decide +kernel)

end RandomLite.Monero
