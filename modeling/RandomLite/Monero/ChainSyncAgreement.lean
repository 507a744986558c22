-- SUMMARY: Two nodes that synchronise: the split point found is a common block near the fork, and honest entries are accepted.
import Mathlib.Data.List.Nodup
import RandomLite.Monero.AlternativeCoins
import RandomLite.Monero.ChainSync
import RandomLite.Monero.PruningRuns

/-!
# Agreement on the split point

A block hash fixes the path from genesis to the block (`Content.Path`), so chains that share a
block share everything below it. The history is sparse, but never skips more than the blocks
past the fork: what is sent again is less than what was replaced.
-/

namespace RandomLite.Monero

/-! ## Paths -/

/-- The hashes from genesis to a block. -/
def Content.Path (C : Content) (known : List Block) : Hash → List Hash → Prop :=
  (C.blockTree known).Carries (fun b path => path ++ [C.getBlockHash b]) []

/-- The main chain is the path to each of its blocks. -/
structure Pathed (C : Content) (known : List Block) (s : BlockchainDB) : Prop where
  blocks_known : ∀ e ∈ s.blocks, e.block ∈ known
  alt_known : ∀ a ∈ s.altBlocks, a.block ∈ known
  path : ∀ i h, (s.blockIds C)[i]? = some h → C.Path known h ((s.blockIds C).take (i + 1))

namespace Pathed

variable {C : Content} {known : List Block} {s t : BlockchainDB}

theorem topBlockHash (h : Pathed C known s) : C.Path known (s.topBlockHash C) (s.blockIds C) := by
  unfold BlockchainDB.topBlockHash
  rcases List.eq_nil_or_concat s.blocks with hnil | ⟨front, e, hblocks⟩
  · unfold BlockchainDB.blockIds
    rw [hnil]
    exact ParentTree.Carries.root (T := C.blockTree known)
  · rw [List.concat_eq_append] at hblocks
    have hids : s.blockIds C =
        front.map (fun e => C.getBlockHash e.block) ++ [C.getBlockHash e.block] := by
      unfold BlockchainDB.blockIds
      rw [hblocks, List.map_append, List.map_singleton]
    have hlast := h.path (front.map fun e => C.getBlockHash e.block).length
      (C.getBlockHash e.block) (by rw [hids, List.getElem?_concat_length])
    rw [hblocks, List.getLast?_concat]
    rwa [List.take_of_length_le (by rw [hids, List.length_append, List.length_singleton])] at hlast

theorem kept (C : Content) (known : List Block) : Kept C known (Pathed C known) where
  connect := by
    intro s b medianWeight weight baseReward h hb hprev _ cumulativeDifficulty
    have hids : (s.addBlock
        { block := b
          alreadyGeneratedCoins := cappedAdd moneySupply s.topGeneratedCoins baseReward
          cumulativeDifficulty }).blockIds C = s.blockIds C ++ [C.getBlockHash b] :=
      List.map_append
    refine ⟨BlockchainDB.forall_addBlock h.blocks_known hb, h.alt_known, fun i x hx => ?_⟩
    rw [hids] at hx ⊢
    rcases Nat.lt_or_ge i (s.blockIds C).length with hlt | hge
    · rw [List.getElem?_append_left hlt] at hx
      rw [List.take_append_of_le_length hlt]
      exact h.path i x hx
    · have hlen : i < (s.blockIds C ++ [C.getBlockHash b]).length :=
        (List.getElem?_eq_some_iff.mp hx).1
      rw [List.length_append, List.length_singleton] at hlen
      have hi : i = (s.blockIds C).length := Nat.le_antisymm (Nat.le_of_lt_succ hlen) hge
      rw [hi, List.getElem?_concat_length] at hx
      cases hx
      rw [hi, List.take_of_length_le (by rw [List.length_append, List.length_singleton])]
      have hparent : C.Path known b.prevId (s.blockIds C) := by
        rw [hprev]
        exact h.topBlockHash
      exact ParentTree.Carries.child (T := C.blockTree known) hb hparent
  pop := by
    intro s h
    have hids : s.popBlock.blockIds C = (s.blockIds C).dropLast := by
      unfold BlockchainDB.blockIds BlockchainDB.popBlock
      exact List.map_dropLast
    refine ⟨BlockchainDB.forall_popBlock h.blocks_known, h.alt_known, fun i x hx => ?_⟩
    rw [hids, List.getElem?_dropLast] at hx
    rw [hids]
    split at hx
    · rename_i hlt
      rw [List.dropLast_eq_take, List.take_take, Nat.min_eq_left (by omega)]
      exact h.path i x hx
    · cases hx
  store := by
    intro s b parentHeight parentDifficulty parentCoins h hb _ height cumulativeDifficulty
    exact ⟨h.blocks_known, BlockchainDB.forall_addAltBlock h.alt_known hb, h.path⟩
  remove := fun id h =>
    ⟨h.blocks_known, BlockchainDB.forall_removeAltBlock h.alt_known id, h.path⟩
  blocks_known := fun h => h.blocks_known
  alt_known := fun h => h.alt_known

theorem empty (C : Content) (known : List Block) : Pathed C known {} :=
  ⟨fun _ he => (nomatch he), fun _ ha => (nomatch ha), fun _ _ hx => (nomatch hx)⟩

/-- Chains that share a block have it at the same height and share all below it. -/
theorem common (h : Pathed C known s) (h' : Pathed C known t) (hC : C.HashesApart known)
    {i j : Nat} {x : Hash} (hi : (s.blockIds C)[i]? = some x) (hj : (t.blockIds C)[j]? = some x) :
    i = j ∧ (s.blockIds C).take (i + 1) = (t.blockIds C).take (i + 1) := by
  have hsame := ParentTree.Carries.functional hC.wellNamed (h.path i x hi) (h'.path j x hj)
  have hlen := congrArg List.length hsame
  have hilt := (List.getElem?_eq_some_iff.mp hi).1
  have hjlt := (List.getElem?_eq_some_iff.mp hj).1
  rw [List.length_take, List.length_take, Nat.min_eq_left hilt, Nat.min_eq_left hjlt] at hlen
  cases hlen
  exact ⟨rfl, hsame⟩

theorem nodup (h : Pathed C known s) (hC : C.HashesApart known) : (s.blockIds C).Nodup := by
  rw [List.nodup_iff_injective_get]
  intro i j hij
  have hi : (s.blockIds C)[i.1]? = some ((s.blockIds C).get i) := List.getElem?_eq_getElem i.2
  have hj : (s.blockIds C)[j.1]? = some ((s.blockIds C).get i) := by
    rw [hij]
    exact List.getElem?_eq_getElem j.2
  exact Fin.ext (h.common h hC hi hj).1

end Pathed

/-! ## The history -/

/-- What the loop has in hand: the offsets go up by one to 11, then by powers of two. -/
def OffsetOk (i currentMultiplier currentBackOffset : Nat) : Prop :=
  i ≤ 10 ∧ currentMultiplier = 1 ∧ currentBackOffset = i + 1 ∨
    10 ≤ i ∧ 0 < currentMultiplier ∧ currentBackOffset = 9 + 2 * currentMultiplier

variable {sz : Nat}

/-- The loop stops before it comes to genesis. -/
theorem shortHistoryLoop_genesis (fuel i mult off : Nat) :
    (shortHistoryLoop sz fuel i mult off false).2 = false := by
  induction fuel generalizing i mult off with
  | zero => rfl
  | succ fuel ih =>
    unfold shortHistoryLoop
    by_cases hlt : off < sz
    · have hne : ¬ sz - off = 0 := Nat.sub_ne_zero_of_lt hlt
      rw [if_pos hlt, decide_eq_false hne, Bool.or_false]
      dsimp only
      split
      · exact ih _ _ _
      · exact ih _ _ _
    · rw [if_neg hlt]

theorem shortHistoryHeights_eq (hsz : 0 < sz) :
    shortHistoryHeights sz = (shortHistoryLoop sz sz 0 1 1 false).1 ++ [0] := by
  unfold shortHistoryHeights
  rw [if_neg (Nat.ne_of_gt hsz)]
  dsimp only
  rw [shortHistoryLoop_genesis, if_neg Bool.false_ne_true]

/-- Of the heights from an offset on, the first that passes is at most as far below the last
of the first `p` heights, if these pass, as there are heights above them, less ten. -/
theorem shortHistoryLoop_find {Q : Nat → Bool} {p : Nat} (hzero : Q 0 = true) (hpsz : p ≤ sz)
    (hp : ∀ h < p, Q h = true) (fuel i mult off : Nat) (hok : OffsetOk i mult off)
    (hoff : off ≤ sz - p + 1 + (sz - p - 10)) (hfuel : sz ≤ fuel + off) :
    ∃ start, ((shortHistoryLoop sz fuel i mult off false).1 ++ [0]).find? Q = some start ∧
      p ≤ start + 1 + (sz - p - 10) := by
  have hend : ∀ n, n ≤ sz - p + 1 + (sz - p - 10) → sz ≤ n →
      ([] ++ [0] : List Nat).find? Q = some 0 ∧ p ≤ 0 + 1 + (sz - p - 10) := fun n hn hge => by
    refine ⟨List.find?_cons_of_pos hzero, ?_⟩
    omega
  induction fuel generalizing i mult off with
  | zero => exact ⟨0, hend off hoff (by omega)⟩
  | succ fuel ih =>
    unfold shortHistoryLoop
    by_cases hlt : off < sz
    · rw [if_pos hlt, decide_eq_false (Nat.sub_ne_zero_of_lt hlt), Bool.or_false]
      dsimp only
      rw [List.cons_append]
      cases hfound : Q (sz - off) with
      | true => exact ⟨sz - off, List.find?_cons_of_pos hfound, by omega⟩
      | false =>
        -- The height does not pass, so it is past the first `p`.
        have hpast : p ≤ sz - off := Nat.le_of_not_lt fun hbelow => by
          rw [hp _ hbelow] at hfound
          cases hfound
        rw [List.find?_cons_of_neg (by rw [hfound]; exact Bool.false_ne_true)]
        rcases hok with ⟨hi, rfl, rfl⟩ | ⟨hi, hmult, rfl⟩
        · by_cases hten : i < 10
          · rw [if_pos hten]
            exact ih _ _ _ (.inl ⟨hten, rfl, rfl⟩) (by omega) (by omega)
          · rw [if_neg hten]
            have hi' : i = 10 := Nat.le_antisymm hi (Nat.le_of_not_lt hten)
            exact ih _ _ _ (.inr ⟨by omega, by omega, by omega⟩) (by omega) (by omega)
        · rw [if_neg (Nat.not_lt.mpr hi)]
          exact ih _ _ _ (.inr ⟨by omega, by omega, by omega⟩) (by omega) (by omega)
    · rw [if_neg hlt]
      exact ⟨0, hend off hoff (Nat.le_of_not_lt hlt)⟩

/-! ## The split point -/

namespace Pathed

variable {C : Content} {known : List Block} {s t : BlockchainDB}

theorem idxOf_eq (h : Pathed C known s) (hC : C.HashesApart known) {i : Nat} {x : Hash}
    (hi : (s.blockIds C)[i]? = some x) : (s.blockIds C).idxOf x = i := by
  have hidx : (s.blockIds C)[(s.blockIds C).idxOf x]? = some x :=
    List.getElem?_idxOf (List.mem_of_getElem? hi)
  exact (h.common h hC hidx hi).1

/-- The first block of the history that the other chain has. -/
theorem find_history (h : Pathed C known s) (h' : Pathed C known t) (hC : C.HashesApart known)
    (hne : s.blockIds C ≠ []) (hgenesis : (s.blockIds C)[0]? = (t.blockIds C)[0]?) :
    ∃ start x, (s.blockIds C)[start]? = some x ∧ (t.blockIds C)[start]? = some x ∧
      (getShortChainHistory (s.blockIds C)).1.find? (t.blockIds C).contains = some x ∧
      ∀ p ≤ (s.blockIds C).length, (s.blockIds C).take p = (t.blockIds C).take p →
        p ≤ start + 1 + ((s.blockIds C).length - p - 10) := by
  let Q : Nat → Bool := fun height => ((s.blockIds C)[height]?).any (t.blockIds C).contains
  have hpos : 0 < (s.blockIds C).length := List.length_pos_of_ne_nil hne
  have hQ : ∀ i, Q i = true → ∃ x, (s.blockIds C)[i]? = some x ∧ (t.blockIds C)[i]? = some x := by
    intro i hi
    obtain ⟨x, hx, hmem⟩ := (Option.any_eq_true _ _).mp hi
    obtain ⟨j, hj⟩ := List.mem_iff_getElem?.mp (List.contains_iff_mem.mp hmem)
    obtain ⟨rfl, -⟩ := h.common h' hC hx hj
    exact ⟨x, hx, hj⟩
  have hzero : Q 0 = true := by
    have hfirst : (s.blockIds C)[0]? = some (s.blockIds C)[0] := List.getElem?_eq_getElem hpos
    refine (Option.any_eq_true _ _).mpr ⟨_, hfirst, List.contains_iff_mem.mpr ?_⟩
    exact List.mem_of_getElem? (hgenesis ▸ hfirst)
  have hcommon : ∀ p ≤ (s.blockIds C).length, (s.blockIds C).take p = (t.blockIds C).take p →
      ∀ i < p, Q i = true := by
    intro p hp htake i hi
    have hx : (s.blockIds C)[i]? = some (s.blockIds C)[i] :=
      List.getElem?_eq_getElem (hi.trans_le hp)
    refine (Option.any_eq_true _ _).mpr ⟨_, hx, List.contains_iff_mem.mpr ?_⟩
    rw [← List.getElem?_take_of_lt hi, htake, List.getElem?_take_of_lt hi] at hx
    exact List.mem_of_getElem? hx
  have hfind := fun p hp htake => shortHistoryLoop_find (Q := Q) (p := p) hzero hp
    (hcommon p hp htake) (s.blockIds C).length 0 1 1 (.inl ⟨by omega, rfl, rfl⟩) (by omega)
    (by omega)
  obtain ⟨start, hstart, -⟩ := hfind 0 (Nat.zero_le _) rfl
  obtain ⟨x, hx, hx'⟩ := hQ start (List.find?_some hstart)
  refine ⟨start, x, hx, hx', ?_, fun p hp htake => ?_⟩
  · unfold getShortChainHistory
    rw [shortHistoryHeights_eq hpos, List.find?_filterMap]
    change (List.find? Q _).bind _ = _
    rw [hstart]
    exact hx
  · obtain ⟨start', hstart', hbound⟩ := hfind p hp htake
    cases hstart.symm.trans hstart'
    exact hbound

/-- The history ends with genesis. -/
theorem getLast?_history {ids : List Hash} (hpos : 0 < ids.length) :
    (getShortChainHistory ids).1.getLast? = ids[0]? := by
  have hfirst : ids[0]? = some ids[0] := List.getElem?_eq_getElem hpos
  have hlast : [0].filterMap (fun height => ids[height]?) = [ids[0]] :=
    List.filterMap_cons_some hfirst
  unfold getShortChainHistory
  rw [shortHistoryHeights_eq hpos, List.filterMap_append, hlast, List.getLast?_concat, hfirst]

theorem findSplitHeight_of_find {ids qblockIds : List Hash} {x : Hash}
    (hgenesis : qblockIds.getLast? = ids[0]?) (hne : ids ≠ [])
    (hfind : qblockIds.find? ids.contains = some x) :
    findSplitHeight ids qblockIds = some (ids.idxOf x) := by
  have hpos : 0 < ids.length := List.length_pos_of_ne_nil hne
  have hfirst : ids[0]? = some ids[0] := List.getElem?_eq_getElem hpos
  unfold findSplitHeight
  rw [hgenesis, hfirst]
  dsimp only
  rw [if_neg (not_not.mpr rfl), hfind]

/-- The split height: a common block, with all that is common below it, and no more than ten
short of the blocks past the fork below the last common block. -/
theorem findSplitHeight_history (h : Pathed C known s) (h' : Pathed C known t)
    (hC : C.HashesApart known) (hne : s.blockIds C ≠ [])
    (hgenesis : (s.blockIds C)[0]? = (t.blockIds C)[0]?) :
    ∃ start, findSplitHeight (t.blockIds C) (getShortChainHistory (s.blockIds C)).1 = some start ∧
      start < (s.blockIds C).length ∧ start < (t.blockIds C).length ∧
      (s.blockIds C).take (start + 1) = (t.blockIds C).take (start + 1) ∧
      ∀ p ≤ (s.blockIds C).length, (s.blockIds C).take p = (t.blockIds C).take p →
        p ≤ start + 1 + ((s.blockIds C).length - p - 10) := by
  have hpos : 0 < (s.blockIds C).length := List.length_pos_of_ne_nil hne
  obtain ⟨start, x, hx, hx', hfind, hbound⟩ := h.find_history h' hC hne hgenesis
  refine ⟨start, ?_, (List.getElem?_eq_some_iff.mp hx).1, (List.getElem?_eq_some_iff.mp hx').1,
    (h.common h' hC hx hx').2, hbound⟩
  have hids : t.blockIds C ≠ [] :=
    List.ne_nil_of_length_pos (Nat.zero_lt_of_lt (List.getElem?_eq_some_iff.mp hx').1)
  have hend : (getShortChainHistory (s.blockIds C)).1.getLast? = (t.blockIds C)[0]? :=
    (getLast?_history hpos).trans hgenesis
  rw [findSplitHeight_of_find hend hids hfind, h'.idxOf_eq hC hx']

end Pathed

/-! ## An honest entry -/

namespace SyncNode

variable {n : SyncNode} {start : Nat}

/-- What is sent of a chain from a height on. -/
def honestEntry (ids : List Hash) (weights : List Nat) (startHeight count : Nat) : ChainEntry :=
  { startHeight
    totalHeight := ids.length
    blockIds := (ids.drop startHeight).take count
    blockWeights := (weights.drop startHeight).take count }

end SyncNode

/-! ## A round -/

theorem findSplitHeight_lt {ids qblockIds : List Hash} {start : Nat}
    (h : findSplitHeight ids qblockIds = some start) : start < ids.length := by
  unfold findSplitHeight at h
  split at h
  · cases h
  split at h
  · cases h
  split at h
  · rename_i id hfind
    cases h
    exact List.idxOf_lt_length_of_mem (List.contains_iff_mem.mp (List.find?_some hfind))
  · cases h

theorem getNextPrunedBlockHeight_of_tip {h bh seed stop : Nat} (htip : inPruningTip h bh = true)
    (hstop : getNextPrunedBlockHeight h bh seed = some stop) : stop = bh := by
  unfold getNextPrunedBlockHeight at hstop
  dsimp only at hstop
  rw [if_pos htip, ite_self] at hstop
  exact (Option.some.inj hstop).symm

theorem getNextPrunedBlockHeight_le {h bh seed stop : Nat} (hh : h ≤ maxBlockNumber + 1)
    (hbh : bh ≤ maxBlockNumber + 1) (hstop : getNextPrunedBlockHeight h bh seed = some stop) :
    stop ≤ maxBlockNumber + 1 := by
  unfold getNextPrunedBlockHeight at hstop
  dsimp only at hstop
  split at hstop
  · exact Option.some.inj hstop ▸ hbh
  split at hstop
  · exact Option.some.inj hstop ▸ hbh
  generalize (if getPruningLogStripes seed ≠ 0 then getPruningLogStripes seed
    else pruningLogStripes) = logStripes at hstop
  split at hstop
  · exact Option.some.inj hstop ▸ hh
  · obtain ⟨next, -, rfl⟩ := Option.map_eq_some_iff.mp hstop
    exact getNextUnprunedBlockHeight_le hh hbh

/-- From a kept block of the chain on, the next pruned height is further up on the chain. -/
theorem getNextPrunedBlockHeight_of_kept {stripe logStripes seed h bh stop : Nat}
    (hmake : makePruningSeed stripe logStripes = some seed) (hlt : h < bh)
    (hbh : bh ≤ maxBlockNumber + 1) (hhas : hasUnprunedBlock h bh seed = true)
    (hstop : getNextPrunedBlockHeight h bh seed = some stop) :
    h < stop ∧ stop ≤ bh ∧ ∀ p, h ≤ p → p < stop → hasUnprunedBlock p bh seed = true := by
  have hh : h ≤ maxBlockNumber + 1 := hlt.le.trans hbh
  obtain ⟨r, hr, hkept, hat⟩ := getNextPrunedBlockHeight_spec hmake hh hbh
  cases hr.symm.trans hstop
  refine ⟨?_, ?_, hkept⟩
  · rcases hat with rfl | ⟨hfrom, hat⟩
    · exact hlt
    · refine Nat.lt_of_le_of_ne hfrom fun heq => ?_
      cases heq
      rcases hat with hlost | hfront
      · rw [hhas] at hlost
        cases hlost
      · -- The block is the first of the tip, all of which is kept.
        have htip : inPruningTip h bh = true := (Striping.inPruningTip_iff hh).mpr hfront.ge
        exact absurd (getNextPrunedBlockHeight_of_tip htip hstop) (Nat.ne_of_lt hlt)
  · rcases hat with rfl | ⟨-, hlost | hfront⟩
    · exact Nat.le_refl _
    · refine Nat.le_of_not_lt fun hpast => ?_
      have hbound := getNextPrunedBlockHeight_le hh hbh hstop
      have htip : inPruningTip stop bh = true :=
        (Striping.inPruningTip_iff hbound).mpr (hpast.le.trans (Nat.le_add_right _ _))
      rw [hasUnprunedBlock_eq, htip, Bool.true_or, Bool.or_true] at hlost
      cases hlost
    · exact hfront ▸ Nat.le_add_right _ _

variable {C : Content} {known : List Block} {s t : BlockchainDB}

/-- What a node answers is honest, is not empty, and is whole if the peer wants whole blocks. -/
theorem findBlockchainSupplement_cases {ids : List Hash} {weights : List Nat}
    {stripe logStripes seed : Nat} (hmake : makePruningSeed stripe logStripes = some seed)
    (hmax : ids.length < maxBlockNumber) {qblockIds : List Hash} {clipPruned : Bool}
    {entry : ChainEntry}
    (hentry : findBlockchainSupplement ids weights seed qblockIds clipPruned = some entry) :
    ∃ start count, findSplitHeight ids qblockIds = some start ∧
      entry = SyncNode.honestEntry ids weights start count ∧ 0 < count ∧
      count ≤ blocksIdsSynchronizingDefaultCount ∧ start + count ≤ ids.length ∧
      (clipPruned = true → ∀ p, start ≤ p → p < start + count →
        hasUnprunedBlock p ids.length seed = true) := by
  unfold findBlockchainSupplement at hentry
  split at hentry
  · cases hentry
  rename_i start hsplit
  dsimp only at hentry
  split at hentry
  · cases hentry
  rename_i stop hstop
  cases hentry
  have hlt : start < ids.length := findSplitHeight_lt hsplit
  have hspec : start < stop ∧ stop ≤ ids.length ∧ (clipPruned = true → ∀ p, start ≤ p → p < stop →
      hasUnprunedBlock p ids.length seed = true) := by
    cases clipPruned with
    | false =>
      cases hstop
      exact ⟨hlt, Nat.le_refl _, fun hfalse => (nomatch hfalse)⟩
    | true =>
      rw [if_pos rfl] at hstop
      split at hstop
      · cases hstop
      rename_i hkept
      have hbound : start ≤ maxBlockNumber + 1 := by omega
      have hbound' : ids.length ≤ maxBlockNumber + 1 := by omega
      have hleast := getNextUnprunedBlockHeight_isLeast hmake hbound hbound'
      have hself : getNextUnprunedBlockHeight start ids.length seed = start :=
        Nat.le_antisymm (Nat.le_of_not_lt hkept) hleast.1.1
      have hhas : hasUnprunedBlock start ids.length seed = true := hself ▸ hleast.1.2
      obtain ⟨hpast, hle, hrange⟩ := getNextPrunedBlockHeight_of_kept hmake hlt hbound' hhas hstop
      exact ⟨hpast, hle, fun _ => hrange⟩
  have hdefault : 0 < blocksIdsSynchronizingDefaultCount := by decide
  refine ⟨start, _, hsplit, rfl, ?_, Nat.min_le_right _ _, ?_, fun hclip p hp hlast => ?_⟩
  · omega
  · omega
  · exact hspec.2.2 hclip p hp (by omega)

namespace Pathed

theorem run (C : Content) (calls : List ChainCall)
    (hcalls : ∀ b ∈ calls.flatMap ChainCall.submitted, b ∈ known) :
    Pathed C known ((chainMachine C).final {} calls) :=
  (kept C known).run calls hcalls (empty C known)

end Pathed

/-! ## Two nodes -/

variable {asked served handled : List ChainCall}

/-- Of two nodes with one genesis, whatever they were sent, the one finds in the short history
of the other a block that both have, with all below it. It is the last one, or as far below it
as there are blocks above the last one, less ten, on the chain of the node that asks. -/
theorem findSplitHeight_run
    (hC : C.HashesApart ((asked ++ served).flatMap ChainCall.submitted))
    (hs : (chainMachine C).final {} asked = s) (ht : (chainMachine C).final {} served = t)
    (hne : s.blockIds C ≠ []) (hgenesis : (s.blockIds C)[0]? = (t.blockIds C)[0]?) :
    ∃ start, findSplitHeight (t.blockIds C) (getShortChainHistory (s.blockIds C)).1 = some start ∧
      start < (s.blockIds C).length ∧ start < (t.blockIds C).length ∧
      (s.blockIds C).take (start + 1) = (t.blockIds C).take (start + 1) ∧
      ∀ p ≤ (s.blockIds C).length, (s.blockIds C).take p = (t.blockIds C).take p →
        p ≤ start + 1 + ((s.blockIds C).length - p - 10) := by
  rw [List.flatMap_append] at hC
  have hasked := Pathed.run C asked fun b hb =>
    List.mem_append_left (served.flatMap ChainCall.submitted) hb
  have hserved := Pathed.run C served fun b hb =>
    List.mem_append_right (asked.flatMap ChainCall.submitted) hb
  rw [hs] at hasked
  rw [ht] at hserved
  exact hasked.findSplitHeight_history hserved hC hne hgenesis

/-- Two blocks on the sixth of a longer chain. -/
def splitBlocks : List Block :=
  [ sampleBlock 6 102 (sampleHash 5) (sampleReward 6) [],
    sampleBlock 7 103 (sampleHash 102) (sampleReward 7) [] ]

/-- The node that asks has twenty blocks, the other six of them and its own two. -/
def splitAsked : List ChainCall := sampleCalls (trunk 20)

def splitServed : List ChainCall := sampleCalls (trunk 6 ++ splitBlocks)

/-- What the other node has in its stores. -/
def splitState : BlockchainDB :=
  (chainMachine sampleContent).final (trunkState 6) (sampleCalls splitBlocks)

theorem splitState_eq : (chainMachine sampleContent).final {} splitServed = splitState :=
  final_trunk_append (by decide) splitBlocks

theorem submitted_split : (splitAsked ++ splitServed).flatMap ChainCall.submitted ⊆
    trunk 20 ++ splitBlocks := by
  rw [List.flatMap_append, splitAsked, splitServed, submitted_sampleCalls, submitted_sampleCalls]
  exact List.append_subset.mpr ⟨List.subset_append_left _ _,
    List.append_subset.mpr ⟨List.subset_append_of_subset_left _ (trunk_subset (by decide)),
      List.subset_append_right _ _⟩⟩

theorem split_apart : sampleContent.HashesApart (trunk 20 ++ splitBlocks) :=
  sampleContent_apart (by decide +kernel) (by decide +kernel)

-- The chains part at the sixth of twenty blocks; height 3 is the highest that is listed of them.
theorem findSplitHeight_run_sample :
    ∃ start, findSplitHeight (splitState.blockIds sampleContent)
        (getShortChainHistory ((trunkState 20).blockIds sampleContent)).1 = some start ∧
      start < ((trunkState 20).blockIds sampleContent).length ∧
      start < (splitState.blockIds sampleContent).length ∧
      ((trunkState 20).blockIds sampleContent).take (start + 1) =
        (splitState.blockIds sampleContent).take (start + 1) ∧
      ∀ p ≤ ((trunkState 20).blockIds sampleContent).length,
        ((trunkState 20).blockIds sampleContent).take p =
          (splitState.blockIds sampleContent).take p →
        p ≤ start + 1 + (((trunkState 20).blockIds sampleContent).length - p - 10) :=
  findSplitHeight_run (split_apart.mono submitted_split) (trunk_final (by decide)) splitState_eq
    (by decide) (by decide +kernel)

variable {K : Type} [Ord K] [Std.TransOrd K] [Std.LawfulEqOrd K]

theorem PruningDB.SeedOk.makePruningSeed {seed : Nat} (h : PruningDB.SeedOk seed) :
    ∃ stripe logStripes, Monero.makePruningSeed stripe logStripes = some seed := by
  obtain ⟨S, -, rfl⟩ := h
  exact ⟨_, _, S.makePruningSeed_eq⟩

/-- In every run that does not cut the chain below where a pass saw it, crashes of passes
included, a node lists to a peer that wants whole blocks only blocks of which it has every
transaction whole. -/
theorem findBlockchainSupplement_whole (calls : List (PruningCall K))
    (hpeak : ∀ b ∈ history calls, b.peak ≤ (history calls).length)
    (hmax : (history calls).length < maxBlockNumber) {ids : List Hash}
    (hids : ids.length = (history calls).length) {weights : List Nat} {qblockIds : List Hash}
    {entry : ChainEntry}
    (hentry : findBlockchainSupplement ids weights
      ((pruningMachine K).final {} calls).getBlockchainPruningSeed qblockIds true = some entry)
    {e : Entry K} (he : e ∈ entries (history calls)) (hfrom : entry.startHeight ≤ e.height)
    (hto : e.height < entry.startHeight + entry.blockIds.length) :
    ((pruningMachine K).final {} calls).getTxBlob e.tx.hash =
      some (e.tx.prunedBlob ++ e.tx.prunableBlob) := by
  have h := (records_run False calls fun hfalse => hfalse.elim).pruned
  obtain ⟨stripe, logStripes, hmake⟩ : ∃ stripe logStripes,
      makePruningSeed stripe logStripes =
        some ((pruningMachine K).final {} calls).getBlockchainPruningSeed := by
    unfold PruningDB.getBlockchainPruningSeed
    cases hseed : ((pruningMachine K).final {} calls).pruningSeed with
    | none => exact ⟨1, 0, rfl⟩
    | some seed => exact (h.seed_ok seed hseed).makePruningSeed
  obtain ⟨start, count, -, rfl, -, -, hend, hwhole⟩ :=
    findBlockchainSupplement_cases hmake (hids ▸ hmax) hentry
  have hlen : (SyncNode.honestEntry ids weights start count).blockIds.length = count := by
    change ((ids.drop start).take count).length = count
    rw [List.length_take, List.length_drop]
    omega
  rw [hlen] at hto
  have hhas := hwhole rfl e.height hfrom hto
  -- What is kept at the height of the chain is kept at the peak below it.
  have hlow : e.peak ≤ ids.length := by
    obtain ⟨b, hb, hin⟩ := List.mem_flatMap.mp he
    obtain ⟨tx, -, rfl⟩ := List.mem_map.mp hin
    rw [hids]
    exact hpeak b.1 (List.fst_mem_of_mem_zipIdx hb)
  have hkept : e.Kept ((pruningMachine K).final {} calls).getBlockchainPruningSeed := by
    refine .inr ?_
    rw [← Nat.max_eq_left hlow, hasUnprunedBlock_max, Bool.and_eq_true] at hhas
    exact hhas.2
  obtain ⟨id, hid⟩ := List.mem_iff_getElem?.mp he
  rw [h.toIndexed.getTxBlob hid, if_pos (h.kept id e hid hkept)]

/-- The hashes of the pruned chain, of which only two are told apart: those of the first stripe
up to the tip, and those from there on. -/
def prunedIds (m n : Nat) : List Hash :=
  List.replicate m (sampleHash 0) ++ List.replicate n (sampleHash 1)

theorem prunedIds_length (m n : Nat) : (prunedIds m n).length = m + n := by
  simp [prunedIds]

theorem findSplitHeight_prunedIds {m n : Nat} (hm : 0 < m) (hn : 0 < n) :
    findSplitHeight (prunedIds m n) [sampleHash 1, sampleHash 0] = some m := by
  have hne : sampleHash 0 ≠ sampleHash 1 := by decide
  obtain ⟨m, rfl⟩ := Nat.exists_eq_succ_of_ne_zero (Nat.ne_of_gt hm)
  obtain ⟨n, rfl⟩ := Nat.exists_eq_succ_of_ne_zero (Nat.ne_of_gt hn)
  have hidx : (prunedIds (m + 1) (n + 1)).idxOf (sampleHash 1) = m + 1 := by
    have hnot : sampleHash 1 ∉ List.replicate (m + 1) (sampleHash 0) := fun hmem =>
      hne (List.eq_of_mem_replicate hmem).symm
    rw [prunedIds, List.idxOf_append_of_notMem hnot, List.length_replicate, List.replicate_succ,
      List.idxOf_cons_self]
  have hmem : (prunedIds (m + 1) (n + 1)).contains (sampleHash 1) = true := by
    simp [prunedIds, List.replicate_succ]
  have hfirst : (prunedIds (m + 1) (n + 1))[0]? = some (sampleHash 0) := by
    simp [prunedIds, List.replicate_succ]
  unfold findSplitHeight
  rw [List.getLast?_cons_cons, List.getLast?_singleton, List.find?_cons_of_pos hmem]
  dsimp only
  rw [hfirst, hidx, if_neg (not_not.mpr rfl)]

/-- What is sent of it from the split on, up to a height where it is pruned. -/
theorem findBlockchainSupplement_prunedIds (m n seed stop : Nat) (hm : 0 < m) (hn : 0 < n)
    (hfree : getNextUnprunedBlockHeight m (m + n) seed = m)
    (hstop : getNextPrunedBlockHeight m (m + n) seed = some (m + stop)) (hle : stop ≤ n)
    (hcount : stop ≤ blocksIdsSynchronizingDefaultCount) :
    findBlockchainSupplement (prunedIds m n) [] seed [sampleHash 1, sampleHash 0] true =
      some
        { startHeight := m
          totalHeight := m + n
          blockIds := List.replicate stop (sampleHash 1)
          blockWeights := [] } := by
  unfold findBlockchainSupplement
  rw [findSplitHeight_prunedIds hm hn]
  dsimp only
  rw [prunedIds_length, hfree, if_neg (Nat.lt_irrefl m), if_pos rfl, hstop]
  dsimp only
  rw [Nat.add_sub_cancel_left, Nat.min_eq_left hcount, prunedIds, List.drop_left' (by simp),
    List.take_replicate, Nat.min_eq_left hle]
  simp

theorem findBlockchainSupplement_whole_sample :
    ((pruningMachine Nat).final {} prunedCalls).getTxBlob 8 = some ([2, 6] ++ [9]) := by
  have hlen : (history prunedCalls).length = 9698 := by
    rw [prunedCalls_history, List.length_map]
    exact longChain_length 4096 5600
  have hseed : ((pruningMachine Nat).final {} prunedCalls).getBlockchainPruningSeed = 385 := by
    unfold PruningDB.getBlockchainPruningSeed
    rw [prunedCalls_seed]
    rfl
  have hentry := findBlockchainSupplement_prunedIds 4096 5602 385 102 (by decide) (by decide)
    (by decide +kernel) (by decide +kernel) (by decide) (by decide)
  rw [← hseed] at hentry
  have hmem := keptTx_mem 4096 5600 9698
  rw [← prunedCalls_history] at hmem
  have hids : (prunedIds 4096 5602).length = (history prunedCalls).length := by
    rw [prunedIds_length, hlen]
  exact findBlockchainSupplement_whole (e := ⟨4096 + 1, keptTx, 9698⟩) prunedCalls
    prunedCalls_peak (by rw [hlen]; decide) hids hentry hmem (by decide) (by decide)

end RandomLite.Monero
