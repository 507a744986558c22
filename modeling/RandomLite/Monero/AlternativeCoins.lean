-- SUMMARY: The coins recorded for a block as an alternative, against those recorded when a switch connects it.
import RandomLite.Monero.Emission

/-!
# Coins of alternative blocks

`handle_alternative_block` records the total of a block when it is stored, and
`handle_block_to_main_chain` records it anew when a switch connects the block. The
first adds the outputs of the miner, the second the base reward, which is less by the
fees. Every total on the main chain is the account of its block (`Content.NetAccount`); a
total recorded for an alternative is as long as no fees went into it, and then a switch
finds the totals it stores already in the records.
-/

namespace RandomLite.Monero

/-! ## The states a switch starts from -/

/-- What `handle_alternative_block` makes of a block under a parent it knows. -/
def altRecord (C : Content) (E : Env) (s : BlockchainDB) (b : Block) (altChain : List AltEntry)
    (parent : Nat × UInt64 × Nat) : AltEntry :=
  { id := C.getBlockHash b
    block := b
    height := parent.1 + 1
    alreadyGeneratedCoins := cappedAdd moneySupply parent.2.1 (getOutsMoneyAmount b.minerTx)
    cumulativeDifficulty := parent.2.2 + E.nextDifficultyForAlternativeChain s altChain b
    feesIncluded := s.includesFees C b }

/-- The main chain of a switch once it has connected the alternative chain, when all
    blocks of it are accepted. -/
def connectedChain (C : Content) (E : Env) (altChain : List AltEntry) (s : BlockchainDB) :
    Option BlockchainDB :=
  match altChain with
  | [] => none
  | front :: _ =>
    match connectAll C E (altChain.map (·.block))
        (disconnectTo C front.block.prevId s.height s).2 with
    | ([], s) => some s
    | _ => none

/-- The states in which the node handles an alternative block of `known`: between two
    calls, and within a switch, when the disconnected blocks are handed back to it. -/
inductive Content.Handled (C : Content) (known : List Block) : BlockchainDB → Prop where
  | start : Handled C known {}
  | call {s : BlockchainDB} (h : Handled C known s) {c : ChainCall}
      (hc : ∀ b ∈ c.submitted, b ∈ known) : Handled C known ((chainMachine C).step s c).2
  | connected {s s' : BlockchainDB} (h : Handled C known s) {E : Env} {b : Block} (hb : b ∈ known)
      {parent : Nat × UInt64 × Nat} (hparent : parentData C s b.prevId = some parent)
      {altChain : List AltEntry} (hbuild : buildAltChain C s b.prevId = some altChain)
      (hswitch : connectedChain C E (altChain ++ [altRecord C E s b altChain parent])
        (s.addAltBlock (altRecord C E s b altChain parent)) = some s') : Handled C known s'
  | handed {s : BlockchainDB} (h : Handled C known s) (E : Env) (fuel : Nat) {b : Block}
      (hb : b ∈ known) : Handled C known (handleAlternativeBlock C E fuel b s).2

/-- Every state a run of the node leads to is one of them. -/
theorem Content.handled_of_run (C : Content) {known : List Block} (calls : List ChainCall)
    (hknown : calls.flatMap ChainCall.submitted ⊆ known) :
    C.Handled known ((chainMachine C).final {} calls) :=
  Machine.final_induction calls .start fun _ c hc h =>
    h.call fun _ hb => hknown (List.mem_flatMap.mpr ⟨c, hc, hb⟩)

/-- A switch that succeeds has connected its chain. -/
theorem connectedChain_of_switch {C : Content} {E : Env}
    {handleAlternative : Block → BlockchainDB → Bool × BlockchainDB} {altChain : List AltEntry}
    {discard : Bool} {s : BlockchainDB}
    (h : (switchToAlternativeBlockchain C E handleAlternative altChain discard s).1 = true) :
    ∃ s₁, connectedChain C E altChain s = some s₁ := by
  unfold switchToAlternativeBlockchain at h
  split at h
  · exact absurd h (by simp)
  split at h
  · exact absurd h (by simp)
  dsimp only at h
  split at h
  · exact absurd h (by simp)
  split at h
  · rename_i s₁ heq
    refine ⟨s₁, ?_⟩
    simp only [connectedChain, heq]
  · exact absurd h (by simp)

/-! ## What connecting does -/

theorem connectedChain_cases {C : Content} {E : Env} {altChain : List AltEntry}
    {s s' : BlockchainDB} (h : connectedChain C E altChain s = some s') :
    ∃ prevId, connectAll C E (altChain.map (·.block)) (disconnectTo C prevId s.height s).2 =
      ([], s') := by
  unfold connectedChain at h
  split at h
  · exact absurd h (by simp)
  rename_i front rest
  split at h
  · rename_i s₁ heq
    rw [← Option.some.inj h]
    exact ⟨front.block.prevId, heq⟩
  · exact absurd h (by simp)

/-- Blocks connected one after another are all on the chain in the end. -/
theorem mem_blocks_of_connectAll {C : Content} {E : Env} {blocks : List Block}
    {s s' : BlockchainDB} (h : connectAll C E blocks s = ([], s')) :
    (∀ e ∈ s.blocks, e ∈ s'.blocks) ∧ ∀ b ∈ blocks, ∃ e ∈ s'.blocks, e.block = b := by
  induction blocks generalizing s with
  | nil =>
    obtain ⟨-, rfl⟩ := Prod.mk.inj h
    simp
  | cons b rest ih =>
    unfold connectAll at h
    rcases handleBlockToMainChain_cases C E b s with heq | ⟨baseReward, -, -, heq⟩
    · rw [heq] at h
      exact absurd h (by simp)
    · rw [heq] at h
      obtain ⟨hold, hnew⟩ := ih h
      refine ⟨fun e he => hold e (List.mem_append_left _ he), List.forall_mem_cons.mpr ⟨?_, hnew⟩⟩
      exact ⟨_, hold _ (List.mem_append_right _ List.mem_cons_self), rfl⟩

namespace Kept

variable {C : Content} {known : List Block} {I : BlockchainDB → Prop}

theorem connectedChain (h : Kept C known I) {E : Env} {altChain : List AltEntry}
    (halt : ∀ a ∈ altChain, a.block ∈ known) {s s' : BlockchainDB} (hs : I s)
    (hconnect : connectedChain C E altChain s = some s') : I s' := by
  obtain ⟨prevId, heq⟩ := connectedChain_cases hconnect
  have hdown := (h.disconnectTo prevId s.height hs).1
  have hup := h.connectAll E (List.forall_mem_map.mpr halt) hdown
  rwa [heq] at hup

/-- The chain a block completes is known, and storing the block keeps the assertion. -/
theorem altChain (h : Kept C known I) {s : BlockchainDB} (hs : I s) {E : Env} {b : Block}
    (hb : b ∈ known) {parent : Nat × UInt64 × Nat} (hparent : parentData C s b.prevId = some parent)
    {altChain : List AltEntry} (hbuild : buildAltChain C s b.prevId = some altChain) :
    I (s.addAltBlock (altRecord C E s b altChain parent)) ∧
      ∀ a ∈ altChain ++ [altRecord C E s b altChain parent], a.block ∈ known := by
  refine ⟨h.store hs hb hparent _ _, List.forall_mem_append.mpr ⟨?_, ?_⟩⟩
  · exact fun a ha => h.alt_known hs a (mem_buildAltChain hbuild ha)
  · exact List.forall_mem_singleton.mpr hb

/-- What the store updates keep holds in every state the node handles a block in. -/
theorem handled (h : Kept C known I) (hempty : I {}) {s : BlockchainDB} (hs : C.Handled known s) :
    I s := by
  induction hs with
  | start => exact hempty
  | call _ hc ih => exact h.step hc ih
  | connected _ hb hparent hbuild hswitch ih =>
    obtain ⟨hstored, hknown⟩ := h.altChain ih hb hparent hbuild
    exact h.connectedChain hknown hstored hswitch
  | handed _ E fuel hb ih => exact h.handleAlternativeBlock E fuel hb ih

end Kept

/-! ## Accounts without fees -/

/-- The total of a block without any fees, grown along its parents. -/
def Content.NetAccount (C : Content) (known : List Block) : Hash → UInt64 → Prop :=
  (C.blockTree known).Carries
    (fun b g => cappedAdd moneySupply g (getOutsMoneyAmount b.minerTx - C.feeSummary b)) 0

/-- The stored totals into which no fees went are the accounts of their blocks, and on the
    main chain all of them are. -/
structure NetAccounted (C : Content) (known : List Block) (s : BlockchainDB) : Prop
    extends Capped C known s where
  main_account : ∀ e ∈ s.blocks,
    C.NetAccount known (C.getBlockHash e.block) e.alreadyGeneratedCoins
  alt_account : ∀ a ∈ s.altBlocks, a.feesIncluded = false →
    C.NetAccount known a.id a.alreadyGeneratedCoins

namespace NetAccounted

variable {C : Content} {known : List Block} {s : BlockchainDB}

theorem top (h : NetAccounted C known s) :
    C.NetAccount known (s.topBlockHash C) s.topGeneratedCoins := by
  unfold BlockchainDB.topBlockHash BlockchainDB.topGeneratedCoins
  split
  · rename_i e hlast
    exact h.main_account e (List.mem_of_getLast? hlast)
  · exact .root

/-- The total read off the parent, when it includes no fees. -/
theorem parent (h : NetAccounted C known s) {prevId : Hash} {parentHeight parentDifficulty : Nat}
    {parentCoins : UInt64}
    (hparent : parentData C s prevId = some (parentHeight, parentCoins, parentDifficulty))
    (hfees : (s.getAltBlock prevId).any (·.feesIncluded) = false) :
    C.NetAccount known prevId parentCoins := by
  unfold parentData at hparent
  split at hparent
  · rename_i a hfound
    rw [hfound] at hfees
    obtain ⟨-, hcoins⟩ := Prod.mk.inj (Option.some.inj hparent)
    have hid : a.id = prevId := by simpa using List.find?_some hfound
    rw [← hid, ← (Prod.mk.inj hcoins).1]
    exact h.alt_account a (List.mem_of_find?_eq_some hfound) hfees
  · split at hparent
    · rename_i e hfound
      obtain ⟨-, hcoins⟩ := Prod.mk.inj (Option.some.inj hparent)
      have hid : C.getBlockHash e.block = prevId := by simpa using List.find?_some hfound
      rw [← hid, ← (Prod.mk.inj hcoins).1]
      exact h.main_account e (List.mem_of_find?_eq_some hfound)
    · exact absurd hparent (by simp)

/-- The account of a block from the account of its parent. -/
theorem grow {b : Block} (hb : b ∈ known) {g r : UInt64} (hg : C.NetAccount known b.prevId g)
    (hr : r = getOutsMoneyAmount b.minerTx - C.feeSummary b) :
    C.NetAccount known (C.getBlockHash b) (cappedAdd moneySupply g r) := by
  rw [hr]
  exact ParentTree.Carries.child (T := C.blockTree known) hb hg

theorem kept (C : Content) (known : List Block) : Kept C known (NetAccounted C known) where
  connect := by
    intro s b medianWeight weight baseReward h hb hprev hvalid cumulativeDifficulty
    have hcapped := (Capped.kept C known).connect h.toCapped hb hprev hvalid cumulativeDifficulty
    refine { hcapped with main_account := ?_, alt_account := h.alt_account }
    -- The fork asks for the exact reward, so the outputs exceed it by the fees.
    have hnet := validateMinerTransaction_exact (versionAt_exact _) hvalid
    exact BlockchainDB.forall_addBlock h.main_account (grow hb (hprev ▸ h.top) hnet)
  pop := by
    intro s h
    have hcapped := (Capped.kept C known).pop h.toCapped
    refine { hcapped with main_account := ?_, alt_account := h.alt_account }
    exact BlockchainDB.forall_popBlock h.main_account
  store := by
    intro s b parentHeight parentDifficulty parentCoins h hb hparent height cumulativeDifficulty
    have hcapped := (Capped.kept C known).store h.toCapped hb hparent height cumulativeDifficulty
    refine { hcapped with main_account := h.main_account, alt_account := ?_ }
    refine BlockchainDB.forall_addAltBlock h.alt_account ?_
    intro hfees
    obtain ⟨hown, hinherited⟩ := Bool.or_eq_false_iff.mp hfees
    have hfree : C.feeSummary b = 0 := by simpa using hown
    have hnet : getOutsMoneyAmount b.minerTx =
        getOutsMoneyAmount b.minerTx - C.feeSummary b := by
      rw [hfree, UInt64.sub_zero]
    exact grow hb (h.parent hparent hinherited) hnet
  remove := by
    intro s id h
    have hcapped := (Capped.kept C known).remove id h.toCapped
    refine { hcapped with main_account := h.main_account, alt_account := ?_ }
    exact BlockchainDB.forall_removeAltBlock h.alt_account id
  blocks_known h := h.blocks_known
  alt_known h := h.alt_known

theorem empty (C : Content) (known : List Block) : NetAccounted C known {} where
  toCapped := Capped.empty C known
  main_account := by simp
  alt_account := by simp

end NetAccounted

/-! ## Agreement of the two records -/

/-- A switch that succeeds stores for every block of the alternative chain the coins that
    were recorded for it, when no fees went into those records. -/
theorem Content.switch_agrees {C : Content} {known : List Block} (hapart : C.HashesApart known)
    {s : BlockchainDB} (hs : C.Handled known s) {E : Env} {b : Block} (hb : b ∈ known)
    {parent : Nat × UInt64 × Nat} (hparent : parentData C s b.prevId = some parent)
    {altChain : List AltEntry} (hbuild : buildAltChain C s b.prevId = some altChain)
    {handleAlternative : Block → BlockchainDB → Bool × BlockchainDB} {discard : Bool}
    (hswitch : (switchToAlternativeBlockchain C E handleAlternative
      (altChain ++ [altRecord C E s b altChain parent]) discard
      (s.addAltBlock (altRecord C E s b altChain parent))).1 = true)
    (hfees : ∀ a ∈ altChain ++ [altRecord C E s b altChain parent], a.feesIncluded = false) :
    ∃ s₁, connectedChain C E (altChain ++ [altRecord C E s b altChain parent])
        (s.addAltBlock (altRecord C E s b altChain parent)) = some s₁ ∧
      ∀ a ∈ altChain ++ [altRecord C E s b altChain parent],
        ∃ e ∈ s₁.blocks, e.block = a.block ∧ e.alreadyGeneratedCoins = a.alreadyGeneratedCoins := by
  obtain ⟨s₁, hconnected⟩ := connectedChain_of_switch hswitch
  refine ⟨s₁, hconnected, ?_⟩
  have hkept := NetAccounted.kept C known
  obtain ⟨hstored, hknown⟩ := hkept.altChain (E := E)
    (hkept.handled (NetAccounted.empty C known) hs) hb hparent hbuild
  have hend := hkept.connectedChain hknown hstored hconnected
  obtain ⟨prevId, hconnect⟩ := connectedChain_cases hconnected
  intro a ha
  have hstore : a ∈ (s.addAltBlock (altRecord C E s b altChain parent)).altBlocks := by
    rcases List.mem_append.mp ha with hold | hnew
    · exact List.mem_append_left _ (mem_buildAltChain hbuild hold)
    · exact List.mem_append_right _ hnew
  obtain ⟨e, he, hblock⟩ := (mem_blocks_of_connectAll hconnect).2 a.block (List.mem_map_of_mem ha)
  have halt := hstored.alt_account a hstore (hfees a ha)
  have hmain := hend.main_account e he
  rw [hblock, ← hstored.alt_id a hstore] at hmain
  exact ⟨e, he, hblock, ParentTree.Carries.functional hapart.wellNamed hmain halt⟩

/-! ## Two switches -/

/-- A block with a fee of 100 coins on the trunk, and one beside it that takes `coins` and
    the listed fees. -/
def switchBlocks (coins : UInt64) (txHashes : List Hash) : List Block :=
  [ sampleBlock 42 42 (sampleHash 41) (sampleReward 42 + 100000000000000) [nullHash],
    sampleBlock 42 43 (sampleHash 41) coins txHashes ]

/-- The block that makes the alternative the longer chain. -/
def switchBlock : Block := sampleBlock 43 44 (sampleHash 43) (sampleReward 43) []

/-- The node before it takes that block, and the alternative chain it then builds. -/
def switchState (coins : UInt64) (txHashes : List Hash) : BlockchainDB :=
  (chainMachine sampleContent).final (trunkState 42) (sampleCalls (switchBlocks coins txHashes))

def switchParent (s : BlockchainDB) : Nat × UInt64 × Nat :=
  (parentData sampleContent s switchBlock.prevId).getD (0, 0, 0)

def switchChain (s : BlockchainDB) : List AltEntry :=
  (buildAltChain sampleContent s switchBlock.prevId).getD []

def switchRecord (s : BlockchainDB) : AltEntry :=
  altRecord sampleContent sampleEnv s switchBlock (switchChain s) (switchParent s)

/-- The switch itself, as `handle_alternative_block` does it. -/
def switchDone (s : BlockchainDB) : Bool × BlockchainDB :=
  switchToAlternativeBlockchain sampleContent sampleEnv
    (handleAlternativeBlock sampleContent sampleEnv 1) (switchChain s ++ [switchRecord s]) false
    (s.addAltBlock (switchRecord s))

def switchKnown (coins : UInt64) (txHashes : List Hash) : List Block :=
  (sampleCalls (trunk 42 ++ switchBlocks coins txHashes)).flatMap ChainCall.submitted ++
    [switchBlock]

theorem switchState_handled (coins : UInt64) (txHashes : List Hash) :
    sampleContent.Handled (switchKnown coins txHashes) (switchState coins txHashes) := by
  unfold switchState
  rw [← final_trunk_append (by decide)]
  exact sampleContent.handled_of_run _ (List.subset_append_left _ _)

/-- What the sample switch starts from, less the state itself. -/
structure SwitchSample (coins : UInt64) (txHashes : List Hash) : Prop where
  apart : sampleContent.HashesApart (switchKnown coins txHashes)
  parent : parentData sampleContent (switchState coins txHashes) switchBlock.prevId =
    some (switchParent (switchState coins txHashes))
  build : buildAltChain sampleContent (switchState coins txHashes) switchBlock.prevId =
    some (switchChain (switchState coins txHashes))
  done : (switchDone (switchState coins txHashes)).1 = true

theorem switchBlock_mem (coins : UInt64) (txHashes : List Hash) :
    switchBlock ∈ switchKnown coins txHashes :=
  List.mem_append_right _ List.mem_cons_self

/-- Without fees in the chain that is connected, the totals of its two blocks agree; the
    chain that is left has them. -/
theorem Content.switch_agrees_sample :
    (switchChain (switchState (sampleReward 42) [])).length = 1 ∧
      ∃ s₁, connectedChain sampleContent sampleEnv
          (switchChain (switchState (sampleReward 42) []) ++
            [switchRecord (switchState (sampleReward 42) [])])
          ((switchState (sampleReward 42) []).addAltBlock
            (switchRecord (switchState (sampleReward 42) []))) = some s₁ ∧
        ∀ a ∈ switchChain (switchState (sampleReward 42) []) ++
            [switchRecord (switchState (sampleReward 42) [])],
          ∃ e ∈ s₁.blocks, e.block = a.block ∧
            e.alreadyGeneratedCoins = a.alreadyGeneratedCoins := by
  have hsample : SwitchSample (sampleReward 42) [] :=
    ⟨sampleContent_apart (by decide +kernel) (by decide +kernel), by decide +kernel,
      by decide +kernel, by decide +kernel⟩
  refine ⟨by decide +kernel, ?_⟩
  exact Content.switch_agrees hsample.apart (switchState_handled _ _) (switchBlock_mem _ _)
    hsample.parent hsample.build hsample.done (by decide +kernel)

/-- With a fee of 100 coins in the first block of the alternative chain they do not. -/
theorem Content.switch_disagrees :
    ¬ ∀ (C : Content) (known : List Block), C.HashesApart known →
      ∀ s, C.Handled known s → ∀ (E : Env), ∀ b ∈ known,
        ∀ parent, parentData C s b.prevId = some parent →
          ∀ altChain, buildAltChain C s b.prevId = some altChain →
            ∀ handleAlternative discard,
              (switchToAlternativeBlockchain C E handleAlternative
                (altChain ++ [altRecord C E s b altChain parent]) discard
                (s.addAltBlock (altRecord C E s b altChain parent))).1 = true →
              ∃ s₁, connectedChain C E (altChain ++ [altRecord C E s b altChain parent])
                  (s.addAltBlock (altRecord C E s b altChain parent)) = some s₁ ∧
                ∀ a ∈ altChain ++ [altRecord C E s b altChain parent],
                  ∃ e ∈ s₁.blocks, e.block = a.block ∧
                    e.alreadyGeneratedCoins = a.alreadyGeneratedCoins := by
  intro h
  have hsample : SwitchSample (sampleReward 42 + 100000000000000) [nullHash] :=
    ⟨sampleContent_apart (by decide +kernel) (by decide +kernel), by decide +kernel,
      by decide +kernel, by decide +kernel⟩
  obtain ⟨s₁, hconnected, hagree⟩ := h _ _ hsample.apart _ (switchState_handled _ _) sampleEnv _
    (switchBlock_mem _ _) _ hsample.parent _ hsample.build _ false hsample.done
  have hdiffer : ∀ s₁ ∈ connectedChain sampleContent sampleEnv
      (switchChain (switchState (sampleReward 42 + 100000000000000) [nullHash]) ++
        [switchRecord (switchState (sampleReward 42 + 100000000000000) [nullHash])])
      ((switchState (sampleReward 42 + 100000000000000) [nullHash]).addAltBlock
        (switchRecord (switchState (sampleReward 42 + 100000000000000) [nullHash]))),
      ¬ ∀ a ∈ switchChain (switchState (sampleReward 42 + 100000000000000) [nullHash]) ++
          [switchRecord (switchState (sampleReward 42 + 100000000000000) [nullHash])],
        ∃ e ∈ s₁.blocks, e.block = a.block ∧
          e.alreadyGeneratedCoins = a.alreadyGeneratedCoins := by
    decide +kernel
  exact hdiffer s₁ hconnected hagree

end RandomLite.Monero
