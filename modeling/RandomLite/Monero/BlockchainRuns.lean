-- SUMMARY: A rule for the node's stores: what the four store updates keep, every call of the node keeps.
import RandomLite.Monero.Blockchain

/-!
# Runs of the node

Whatever `add_new_block` does (a switch connects, pops, stores and removes any number
of blocks, and may nest), it touches the stores only by connecting a validated block
on top, popping the top, storing an alternative block under its parent, and removing
one. An assertion that these four keep holds after every run.
-/

namespace RandomLite.Monero

/-- The assertion `I` is kept by the four store updates, for blocks among `known`. -/
structure Kept (C : Content) (known : List Block) (I : BlockchainDB → Prop) : Prop where
  connect : ∀ {s : BlockchainDB} {b : Block} {medianWeight weight baseReward : UInt64},
    I s → b ∈ known → b.prevId = s.topBlockHash C →
    validateMinerTransaction b medianWeight weight (C.feeSummary b) s.topGeneratedCoins
      (versionAt s.height) = some baseReward →
    ∀ cumulativeDifficulty, I (s.addBlock
      { block := b
        alreadyGeneratedCoins := cappedAdd moneySupply s.topGeneratedCoins baseReward
        cumulativeDifficulty := cumulativeDifficulty })
  pop : ∀ {s : BlockchainDB}, I s → I s.popBlock
  store : ∀ {s : BlockchainDB} {b : Block} {parentHeight parentDifficulty : Nat}
    {parentCoins : UInt64}, I s → b ∈ known →
    parentData C s b.prevId = some (parentHeight, parentCoins, parentDifficulty) →
    ∀ height cumulativeDifficulty, I (s.addAltBlock
      { id := C.getBlockHash b
        block := b
        height := height
        alreadyGeneratedCoins := cappedAdd moneySupply parentCoins (getOutsMoneyAmount b.minerTx)
        cumulativeDifficulty := cumulativeDifficulty
        feesIncluded := s.includesFees C b })
  remove : ∀ {s : BlockchainDB} (id : Hash), I s → I (s.removeAltBlock id)
  blocks_known : ∀ {s : BlockchainDB}, I s → ∀ e ∈ s.blocks, e.block ∈ known
  alt_known : ∀ {s : BlockchainDB}, I s → ∀ a ∈ s.altBlocks, a.block ∈ known

/-- A block is connected after its miner transaction was validated, or nothing happens. -/
theorem handleBlockToMainChain_cases (C : Content) (E : Env) (b : Block) (s : BlockchainDB) :
    handleBlockToMainChain C E b s = (false, s) ∨
    ∃ baseReward, b.prevId = s.topBlockHash C ∧
      validateMinerTransaction b (E.medianWeight s) (E.cumulativeBlockWeight s b) (C.feeSummary b)
        s.topGeneratedCoins (versionAt s.height) = some baseReward ∧
      handleBlockToMainChain C E b s = (true, s.addBlock
        { block := b
          alreadyGeneratedCoins := cappedAdd moneySupply s.topGeneratedCoins baseReward
          cumulativeDifficulty := s.topCumulativeDifficulty + E.difficultyForNextBlock s }) := by
  unfold handleBlockToMainChain
  dsimp only
  -- The checks in the order of the source; each refusal leaves the stores.
  split
  · exact .inl rfl
  rename_i hprev
  split
  · exact .inl rfl
  split
  · exact .inl rfl
  split
  · exact .inl rfl
  split
  · exact .inl rfl
  split
  · exact .inl rfl
  rename_i baseReward hvalid
  split
  · exact .inl rfl
  · exact .inr ⟨baseReward, not_not.mp hprev, hvalid, rfl⟩

/-- An alternative block is stored under its parent, and with it the alternative chain
    may become the main chain; or nothing happens. -/
theorem handleAlternativeBlock_cases (C : Content) (E : Env) (fuel : Nat) (b : Block)
    (s : BlockchainDB) :
    (handleAlternativeBlock C E (fuel + 1) b s).2 = s ∨
    ∃ parentHeight parentCoins parentDifficulty altChain,
      parentData C s b.prevId = some (parentHeight, parentCoins, parentDifficulty) ∧
      buildAltChain C s b.prevId = some altChain ∧
      let bei : AltEntry :=
        { id := C.getBlockHash b
          block := b
          height := parentHeight + 1
          alreadyGeneratedCoins :=
            cappedAdd moneySupply parentCoins (getOutsMoneyAmount b.minerTx)
          cumulativeDifficulty :=
            parentDifficulty + E.nextDifficultyForAlternativeChain s altChain b
          feesIncluded := s.includesFees C b }
      (handleAlternativeBlock C E (fuel + 1) b s).2 = s.addAltBlock bei ∨
      ∃ discard, handleAlternativeBlock C E (fuel + 1) b s =
        switchToAlternativeBlockchain C E (handleAlternativeBlock C E fuel) (altChain ++ [bei])
          discard (s.addAltBlock bei) := by
  generalize hresult : handleAlternativeBlock C E (fuel + 1) b s = result
  unfold handleAlternativeBlock at hresult
  dsimp only at hresult
  split at hresult
  · exact .inl (hresult ▸ rfl)
  split at hresult
  · exact .inl (hresult ▸ rfl)
  split at hresult
  · exact .inl (hresult ▸ rfl)
  rename_i parentHeight parentCoins parentDifficulty hparent
  split at hresult
  · exact .inl (hresult ▸ rfl)
  rename_i altChain hbuild
  split at hresult
  · exact .inl (hresult ▸ rfl)
  split at hresult
  · exact .inl (hresult ▸ rfl)
  split at hresult
  · exact .inl (hresult ▸ rfl)
  split at hresult
  · exact .inl (hresult ▸ rfl)
  refine .inr ⟨parentHeight, parentCoins, parentDifficulty, altChain, hparent, hbuild, ?_⟩
  split at hresult
  · exact .inr ⟨true, hresult.symm⟩
  split at hresult
  · exact .inr ⟨false, hresult.symm⟩
  · exact .inl (hresult ▸ rfl)

theorem popBlockFromBlockchain_eq {s s' : BlockchainDB} {b : Block}
    (h : popBlockFromBlockchain s = some (b, s')) :
    s' = s.popBlock ∧ ∃ e ∈ s.blocks, e.block = b := by
  unfold popBlockFromBlockchain at h
  split at h
  · rename_i e hlast
    split at h
    · obtain ⟨rfl, rfl⟩ := Prod.mk.inj (Option.some.inj h)
      exact ⟨rfl, e, List.mem_of_getLast? hlast, rfl⟩
    · exact absurd h (by simp)
  · exact absurd h (by simp)

/-- The chain of alternative blocks is taken from the store. -/
theorem mem_altAncestors {s : BlockchainDB} {fuel : Nat} {id : Hash} {a : AltEntry}
    (h : a ∈ altAncestors s fuel id) : a ∈ s.altBlocks := by
  induction fuel generalizing id with
  | zero => simp [altAncestors] at h
  | succ fuel ih =>
    unfold altAncestors at h
    split at h
    · rename_i a' hfound
      rw [List.mem_append, List.mem_singleton] at h
      rcases h with h | rfl
      · exact ih h
      · exact List.mem_of_find?_eq_some hfound
    · simp at h

theorem mem_buildAltChain {C : Content} {s : BlockchainDB} {prevId : Hash}
    {altChain : List AltEntry} (h : buildAltChain C s prevId = some altChain) {a : AltEntry}
    (ha : a ∈ altChain) : a ∈ s.altBlocks := by
  unfold buildAltChain at h
  split at h
  · split at h
    · rw [← Option.some.inj h] at ha
      simp at ha
    · exact absurd h (by simp)
  rename_i front rest hancestors
  split at h
  · exact absurd h (by simp)
  split at h
  · split at h
    · rw [← Option.some.inj h, ← hancestors] at ha
      exact mem_altAncestors ha
    · exact absurd h (by simp)
  · exact absurd h (by simp)

namespace Kept

variable {C : Content} {known : List Block} {I : BlockchainDB → Prop}

theorem handleBlockToMainChain (h : Kept C known I) (E : Env) {b : Block} (hb : b ∈ known)
    {s : BlockchainDB} (hs : I s) : I (handleBlockToMainChain C E b s).2 := by
  rcases handleBlockToMainChain_cases C E b s with heq | ⟨baseReward, hprev, hvalid, heq⟩
  · rw [heq]
    exact hs
  · rw [heq]
    exact h.connect hs hb hprev hvalid _

theorem popBlocks (h : Kept C known I) (n : Nat) {s : BlockchainDB} (hs : I s) :
    I (popBlocks n s) := by
  induction n generalizing s with
  | zero => exact hs
  | succ n ih =>
    unfold Monero.popBlocks
    split
    · rename_i s' hpop
      rw [(popBlockFromBlockchain_eq hpop).1]
      exact ih (h.pop hs)
    · exact hs

/-- Disconnecting keeps the assertion, and the blocks it yields are known. -/
theorem disconnectTo (h : Kept C known I) (prevId : Hash) (fuel : Nat) {s : BlockchainDB}
    (hs : I s) :
    I (disconnectTo C prevId fuel s).2 ∧ ∀ b ∈ (Monero.disconnectTo C prevId fuel s).1, b ∈ known := by
  induction fuel generalizing s with
  | zero => exact ⟨hs, by simp [Monero.disconnectTo]⟩
  | succ fuel ih =>
    unfold Monero.disconnectTo
    split
    · exact ⟨hs, by simp⟩
    · split
      · rename_i b s' hpop
        obtain ⟨rfl, e, he, rfl⟩ := popBlockFromBlockchain_eq hpop
        obtain ⟨hrest, hknown⟩ := ih (h.pop hs)
        refine ⟨hrest, ?_⟩
        intro b hb
        rw [List.mem_append, List.mem_singleton] at hb
        rcases hb with hb | rfl
        · exact hknown b hb
        · exact h.blocks_known hs e he
      · exact ⟨hs, by simp⟩

theorem connectAll (h : Kept C known I) (E : Env) {blocks : List Block}
    (hblocks : ∀ b ∈ blocks, b ∈ known) {s : BlockchainDB} (hs : I s) :
    I (connectAll C E blocks s).2 := by
  induction blocks generalizing s with
  | nil => exact hs
  | cons b rest ih =>
    have hb := hblocks b List.mem_cons_self
    have hstep := h.handleBlockToMainChain E hb hs
    unfold Monero.connectAll
    split
    · rename_i s' heq
      rw [heq] at hstep
      exact ih (fun b hb => hblocks b (List.mem_cons_of_mem _ hb)) hstep
    · rename_i s' heq
      rw [heq] at hstep
      exact hstep

theorem rollbackBlockchainSwitching (h : Kept C known I) (E : Env) {originalChain : List Block}
    (hblocks : ∀ b ∈ originalChain, b ∈ known) (rollbackHeight : Nat) {s : BlockchainDB}
    (hs : I s) : I (rollbackBlockchainSwitching C E originalChain rollbackHeight s) := by
  unfold Monero.rollbackBlockchainSwitching
  split
  · exact hs
  · exact h.connectAll E hblocks (h.popBlocks _ hs)

/-- Folding updates that keep the assertion keeps it. -/
theorem foldl {α : Type} {f : BlockchainDB → α → BlockchainDB} {l : List α}
    (hf : ∀ s, ∀ a ∈ l, I s → I (f s a)) {s : BlockchainDB} (hs : I s) : I (l.foldl f s) := by
  induction l generalizing s with
  | nil => exact hs
  | cons a l ih =>
    exact ih (fun s a ha => hf s a (List.mem_cons_of_mem _ ha)) (hf s a List.mem_cons_self hs)

/-- A switch keeps the assertion when storing the disconnected blocks does. -/
theorem switchToAlternativeBlockchain (h : Kept C known I) (E : Env)
    {handleAlternative : Block → BlockchainDB → Bool × BlockchainDB}
    (hhandle : ∀ b ∈ known, ∀ s, I s → I (handleAlternative b s).2) {altChain : List AltEntry}
    (halt : ∀ a ∈ altChain, a.block ∈ known) (discard : Bool) {s : BlockchainDB} (hs : I s) :
    I (switchToAlternativeBlockchain C E handleAlternative altChain discard s).2 := by
  unfold Monero.switchToAlternativeBlockchain
  split
  · exact hs
  rename_i front rest
  split
  · exact hs
  dsimp only
  obtain ⟨hdown, hdisconnected⟩ := h.disconnectTo front.block.prevId s.height hs
  split
  · exact hdown
  have hchain : ∀ b ∈ (front :: rest).map (·.block), b ∈ known := List.forall_mem_map.mpr halt
  have hup := h.connectAll E hchain hdown
  split
  · -- The whole alternative chain is connected.
    rename_i s' heq
    rw [heq] at hup
    refine foldl (fun s a _ hs => h.remove _ hs) ?_
    split
    · exact hup
    · exact foldl (fun s b hb hs => hhandle b (hdisconnected b hb) s hs) hup
  · -- One of its blocks was refused.
    rename_i refused s' _ heq
    rw [heq] at hup
    exact foldl (fun s b _ hs => h.remove _ hs)
      (h.rollbackBlockchainSwitching E hdisconnected _ hup)

theorem handleAlternativeBlock (h : Kept C known I) (E : Env) (fuel : Nat) {b : Block}
    (hb : b ∈ known) {s : BlockchainDB} (hs : I s) :
    I (handleAlternativeBlock C E fuel b s).2 := by
  -- The induction is on how deep switches may nest.
  induction fuel generalizing b s with
  | zero => exact hs
  | succ fuel ih =>
    rcases handleAlternativeBlock_cases C E fuel b s with heq |
      ⟨parentHeight, parentCoins, parentDifficulty, altChain, hparent, hbuild, heq⟩
    · rw [heq]
      exact hs
    have hstored := h.store hs hb hparent (parentHeight + 1)
      (parentDifficulty + E.nextDifficultyForAlternativeChain s altChain b)
    rcases heq with heq | ⟨discard, heq⟩
    · rw [heq]
      exact hstored
    · rw [heq]
      refine h.switchToAlternativeBlockchain E (fun b hb s hs => ih hb hs) ?_ discard hstored
      refine List.forall_mem_append.mpr ⟨?_, List.forall_mem_singleton.mpr hb⟩
      exact fun a ha => h.alt_known hs a (mem_buildAltChain hbuild ha)

theorem addNewBlock (h : Kept C known I) (E : Env) (fuel : Nat) {b : Block} (hb : b ∈ known)
    {s : BlockchainDB} (hs : I s) : I (addNewBlock C E fuel b s).2 := by
  unfold Monero.addNewBlock
  dsimp only
  split
  · exact hs
  · split
    · exact h.handleAlternativeBlock E fuel hb hs
    · exact h.handleBlockToMainChain E hb hs

theorem step (h : Kept C known I) {c : ChainCall} (hc : ∀ b ∈ c.submitted, b ∈ known)
    {s : BlockchainDB} (hs : I s) : I ((chainMachine C).step s c).2 := by
  cases c with
  | addNewBlock b E fuel => exact h.addNewBlock E fuel (hc b (by simp [ChainCall.submitted])) hs
  | popBlocks n => exact h.popBlocks n hs

/-- What the store updates keep holds after every run of calls that submit known blocks. -/
theorem run (h : Kept C known I) (calls : List ChainCall)
    (hcalls : ∀ b ∈ calls.flatMap ChainCall.submitted, b ∈ known) {s : BlockchainDB} (hs : I s) :
    I ((chainMachine C).final s calls) := by
  refine Machine.final_induction calls hs ?_
  intro s c hc hs
  exact h.step (fun b hb => hcalls b (List.mem_flatMap.mpr ⟨c, hc, hb⟩)) hs

end Kept

end RandomLite.Monero
