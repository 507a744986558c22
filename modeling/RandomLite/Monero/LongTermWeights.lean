-- SUMMARY: The node with the cache of its long-term median (`cryptonote_core/blockchain.cpp`): in every run it is the node without one.
import RandomLite.Monero.RollingMedianRuns
import RandomLite.Monero.TemplateAgreement

/-!
# Long-term weights

`get_long_term_block_weight_median` keeps the rolling median of the last window it was asked
for, by the hash of the window's top block. A window is read from there when its top is that
block or the one above it, and from the database otherwise. Blocks are connected and popped
in between, so that what is kept may belong to another branch.
-/

namespace RandomLite.Monero

/-- `m_long_term_block_weights_cache_tip_hash` and its rolling median. -/
structure LongTermCache where
  tipHash : Hash := nullHash
  rollingMedian : RollingMedian Nat

/-- The node with its cache. -/
structure CachedNode where
  node : TemplateNode := {}
  cache : LongTermCache

namespace CachedNode

variable (C : Content)

/-- `get_long_term_block_weight_median`; no result where it throws. -/
def getLongTermBlockWeightMedian (startHeight count : Nat) (n : CachedNode) :
    Option (Nat × LongTermCache) :=
  let rm := n.cache.rollingMedian
  if count = 0 then none
  else
    let blockchainHeight := n.node.db.height
    let tipHeight := startHeight + count - 1
    let tipHash := if tipHeight < blockchainHeight then n.node.blockHashAt C tipHeight else nullHash
    if tipHeight < blockchainHeight ∧ count = rm.sz ∧ tipHash = n.cache.tipHash then
      some (rm.median, n.cache)
    else if 0 < tipHeight ∧ tipHeight < blockchainHeight ∧
        (count = rm.sz ∨ count = rm.sz + 1 ∧ rm.sz < longTermBlockWeightWindowSize) ∧
        n.node.blockHashAt C (tipHeight - 1) = n.cache.tipHash then
      let rm := rm.insert (n.node.longTermBlockWeights.getD tipHeight 0)
      some (rm.median, { tipHash, rollingMedian := rm })
    else if startHeight ≥ blockchainHeight then none
    else
      let weights := (n.node.longTermBlockWeights.drop startHeight).take count
      let rm := weights.foldl RollingMedian.insert rm.clear
      some (rm.median, { tipHash, rollingMedian := rm })

/-- The effective median of the last long-term weights. -/
def longTermEffectiveMedian (n : CachedNode) : Option (Nat × LongTermCache) :=
  let nblocks := min longTermBlockWeightWindowSize n.node.db.height
  (n.getLongTermBlockWeightMedian C (n.node.db.height - nblocks) nblocks).map
    fun (longTermMedian, cache) => (max fullRewardZoneV5 longTermMedian, cache)

/-- `get_next_long_term_block_weight`. -/
def getNextLongTermBlockWeight (blockWeight : Nat) (n : CachedNode) :
    Option (Nat × LongTermCache) :=
  if n.node.currentVersion < 10 then some (blockWeight, n.cache)
  else
    (n.longTermEffectiveMedian C).map fun (effectiveMedian, cache) =>
      if n.node.currentVersion ≥ 15 then
        (min (max blockWeight (effectiveMedian * 10 / 17))
          (effectiveMedian + effectiveMedian * 7 / 10), cache)
      else (min blockWeight (effectiveMedian + effectiveMedian * 2 / 5), cache)

/-- `update_next_cumulative_weight_limit`. -/
def updateNextCumulativeWeightLimit (n : CachedNode) : Option CachedNode :=
  let version := n.node.currentVersion
  let shortTermMedian := median (n.node.getLastNBlocksWeights rewardBlocksWindow)
  let medians :=
    if version < 10 then
      some (n.node.longTermEffectiveMedianBlockWeight, shortTermMedian, n.cache)
    else
      (n.longTermEffectiveMedian C).map fun (longTerm, cache) =>
        if version ≥ 15 then
          (longTerm, min (max longTerm shortTermMedian) (shortTermSurgeFactor * longTerm), cache)
        else
          (longTerm, min (max fullRewardZoneV5 shortTermMedian) (shortTermSurgeFactor * longTerm),
            cache)
  medians.map fun (longTerm, effectiveMedian, cache) =>
    let fullRewardZone := (getMinBlockWeight version).toNat
    let median := if effectiveMedian ≤ fullRewardZone then fullRewardZone else effectiveMedian
    { node := { n.node with
        longTermEffectiveMedianBlockWeight := longTerm
        currentBlockCumulWeightMedian := median
        currentBlockCumulWeightLimit := median * 2 }
      cache }

/-- `handle_block_to_main_chain` for a block of this cumulative weight. A weight that cannot be
    computed refuses the block; a limit that cannot be is thrown behind it. -/
def handleBlockToMainChain (E : Env) (b : Block) (blockWeight : Nat) (n : CachedNode) :
    Bool × CachedNode :=
  let E := { E with
    medianWeight := fun _ => UInt64.ofNat (n.node.rewardMedian n.node.currentVersion)
    cumulativeBlockWeight := fun _ _ => UInt64.ofNat blockWeight }
  match Monero.handleBlockToMainChain C E b n.node.db with
  | (false, _) => (false, n)
  | (true, db) =>
    match n.getNextLongTermBlockWeight C blockWeight with
    | none => (false, n)
    | some (longTermBlockWeight, cache) =>
      let node := { n.node with
        db := db
        blockWeights := n.node.blockWeights ++ [blockWeight]
        longTermBlockWeights := n.node.longTermBlockWeights ++ [longTermBlockWeight] }
      match updateNextCumulativeWeightLimit C { node, cache } with
      | none => (false, { node, cache })
      | some n => (true, { n with node := n.node.invalidateBlockTemplateCache })

/-- `pop_blocks`; the loops of a switch and of its rollback go on in the same way. -/
def popBlocks (nblocks : Nat) (n : CachedNode) : CachedNode :=
  let nblocks := if n.node.db.height > 0 then min nblocks (n.node.db.height - 1) else nblocks
  match TemplateNode.popLoop nblocks n.node with
  | none => n
  | some node => (updateNextCumulativeWeightLimit C { n with node }).getD { n with node }

variable (P : TxPrimitives)

/-- The node under calls one after another. -/
def machine : Machine CachedNode (TemplateCall C P) (Option BlockTemplate) where
  step n
    | .handleBlockToMainChain b blockWeight E =>
      (none, (n.handleBlockToMainChain C E b blockWeight).2)
    | .popBlocks nblocks => (none, n.popBlocks C nblocks)
    | .createBlockTemplate r =>
      let (t, node) := n.node.createBlockTemplate C r
      (t, { n with node })

end CachedNode

/-! ## Weights grown along a chain -/

/-- The long-term weight of a block of this weight, on blocks of these long-term weights. -/
def nextLongTermWeight (ltws : List Nat) (blockWeight : Nat) : Nat :=
  let version := versionAt ltws.length
  if version < 10 then blockWeight
  else
    let effectiveMedian := max fullRewardZoneV5 (median (ltws.rtake longTermBlockWeightWindowSize))
    if version ≥ 15 then
      min (max blockWeight (effectiveMedian * 10 / 17)) (effectiveMedian + effectiveMedian * 7 / 10)
    else min blockWeight (effectiveMedian + effectiveMedian * 2 / 5)

/-- The long-term weights of the chain up to the block with a hash, for blocks of weight `W`. -/
def Content.LongTerm (C : Content) (known : List Block) (W : Block → Nat) :
    Hash → List Nat → Prop :=
  (C.blockTree known).Carries (fun b ltws => ltws ++ [nextLongTermWeight ltws (W b)]) []

namespace TemplateNode

variable {n : TemplateNode}

theorem rtake_window (hlen : n.longTermBlockWeights.length = n.db.height) :
    (n.longTermBlockWeights.drop
        (n.db.height - min longTermBlockWeightWindowSize n.db.height)).take
      (min longTermBlockWeightWindowSize n.db.height) =
    n.longTermBlockWeights.rtake longTermBlockWeightWindowSize := by
  have hstart : n.db.height - min longTermBlockWeightWindowSize n.db.height =
      n.longTermBlockWeights.length - longTermBlockWeightWindowSize := by
    omega
  rw [hstart, List.rtake]
  refine List.take_of_length_le ?_
  rw [List.length_drop]
  omega

theorem longTermEffectiveMedian_eq (hlen : n.longTermBlockWeights.length = n.db.height) :
    n.longTermEffectiveMedian = max fullRewardZoneV5
      (median (n.longTermBlockWeights.rtake longTermBlockWeightWindowSize)) := by
  unfold longTermEffectiveMedian getLongTermBlockWeightMedian
  dsimp only
  rw [rtake_window hlen]

theorem getNextLongTermBlockWeight_eq (hlen : n.longTermBlockWeights.length = n.db.height)
    (blockWeight : Nat) :
    n.getNextLongTermBlockWeight blockWeight =
      nextLongTermWeight n.longTermBlockWeights blockWeight := by
  unfold getNextLongTermBlockWeight nextLongTermWeight currentVersion
  rw [longTermEffectiveMedian_eq hlen, hlen]

end TemplateNode

/-! ## What holds between calls -/

/-- Items inserted one after another slide the window over all of them. -/
theorem RollingMedian.Holds.foldl {N : Nat} {m : RollingMedian Nat} {l : List Nat}
    (h : Holds N m (l.rtake N)) (vs : List Nat) :
    Holds N (vs.foldl RollingMedian.insert m) ((l ++ vs).rtake N) := by
  induction vs generalizing m l with
  | nil =>
    rw [List.append_nil]
    exact h
  | cons v vs ih =>
    have hnext := h.insert v
    rw [SlidingWindow.push] at hnext
    rw [List.append_cons]
    exact ih hnext

namespace CachedNode

/-- The hash of the block below a height. -/
def hashBelow (C : Content) (n : TemplateNode) : Nat → Hash
  | 0 => nullHash
  | height + 1 => n.blockHashAt C height

/-- The long-term weights are those of the chain, and the cache holds a window of some chain. -/
structure Traced (C : Content) (known : List Block) (W : Block → Nat) (n : CachedNode) : Prop where
  length_eq : n.node.longTermBlockWeights.length = n.node.db.height
  blocks_known : ∀ e ∈ n.node.db.blocks, e.block ∈ known
  carried : ∀ height, height ≤ n.node.db.height →
    C.LongTerm known W (hashBelow C n.node height) (n.node.longTermBlockWeights.take height)
  cache : ∃ w, RollingMedian.Holds longTermBlockWeightWindowSize n.cache.rollingMedian w ∧
    (n.cache.tipHash = nullHash ∨ ∃ ltws, C.LongTerm known W n.cache.tipHash ltws ∧
      w = ltws.rtake longTermBlockWeightWindowSize)

variable {C : Content} {known : List Block} {W : Block → Nat} {n : CachedNode}

namespace Traced

theorem top_carried (h : n.Traced C known W) :
    C.LongTerm known W (hashBelow C n.node n.node.db.height) n.node.longTermBlockWeights := by
  have htop := h.carried _ (Nat.le_refl _)
  rwa [← h.length_eq, List.take_length, h.length_eq] at htop

theorem hashBelow_ne (h : n.Traced C known W) (hC : C.HashesApart known) {height : Nat}
    (hpos : 0 < height) (hle : height ≤ n.node.db.height) :
    hashBelow C n.node height ≠ nullHash := by
  obtain ⟨k, rfl⟩ := Nat.exists_eq_succ_of_ne_zero hpos.ne'
  have hlt : k < n.node.db.blocks.length := hle
  change n.node.blockHashAt C k ≠ nullHash
  unfold TemplateNode.blockHashAt
  rw [List.getElem?_eq_getElem hlt]
  exact hC.ne_null _ (h.blocks_known _ (List.getElem_mem hlt))

/-- A window kept for the block below a height is that of the chain up to there. -/
theorem window_of_hash (h : n.Traced C known W) (hC : C.HashesApart known) {height : Nat}
    (hpos : 0 < height) (hle : height ≤ n.node.db.height)
    (hhash : hashBelow C n.node height = n.cache.tipHash) :
    RollingMedian.Holds longTermBlockWeightWindowSize n.cache.rollingMedian
      ((n.node.longTermBlockWeights.take height).rtake longTermBlockWeightWindowSize) := by
  obtain ⟨w, hholds, hnull | ⟨ltws, hltws, rfl⟩⟩ := h.cache
  · exact absurd (hhash.trans hnull) (h.hashBelow_ne hC hpos hle)
  · have hsame := ParentTree.Carries.functional hC.wellNamed (h.carried height hle)
      (hhash ▸ hltws)
    rw [hsame]
    exact hholds

/-- The median of the last window is the plain one, and what is kept of it belongs to it. -/
theorem getLongTermBlockWeightMedian (h : n.Traced C known W) (hC : C.HashesApart known)
    (hpos : 0 < n.node.db.height) :
    ∃ cache, n.getLongTermBlockWeightMedian C
        (n.node.db.height - min longTermBlockWeightWindowSize n.node.db.height)
        (min longTermBlockWeightWindowSize n.node.db.height) =
      some (median (n.node.longTermBlockWeights.rtake longTermBlockWeightWindowSize), cache) ∧
      { n with cache }.Traced C known W := by
  have hwindow : 0 < longTermBlockWeightWindowSize := by
    unfold longTermBlockWeightWindowSize
    decide
  have hlen := h.length_eq
  have hall := List.take_length (l := n.node.longTermBlockWeights)
  rw [hlen] at hall
  have hne : n.node.longTermBlockWeights.rtake longTermBlockWeightWindowSize ≠ [] := by
    refine List.ne_nil_of_length_pos ?_
    rw [List.rtake, List.length_drop]
    omega
  have htip : n.node.db.height - min longTermBlockWeightWindowSize n.node.db.height +
      min longTermBlockWeightWindowSize n.node.db.height - 1 = n.node.db.height - 1 := by
    omega
  have hhash : n.node.blockHashAt C (n.node.db.height - 1) =
      hashBelow C n.node n.node.db.height := by
    obtain ⟨k, hk⟩ := Nat.exists_eq_succ_of_ne_zero hpos.ne'
    rw [hk]
    rfl
  -- A rolling median that holds the window answers with its median, and may be kept.
  have hkeep {rm : RollingMedian Nat}
      (hrm : rm.Holds longTermBlockWeightWindowSize
        (n.node.longTermBlockWeights.rtake longTermBlockWeightWindowSize)) :
      rm.median = median (n.node.longTermBlockWeights.rtake longTermBlockWeightWindowSize) ∧
        { n with cache := { tipHash := hashBelow C n.node n.node.db.height, rollingMedian := rm }
          : CachedNode }.Traced C known W :=
    ⟨hrm.median_eq hne, hlen, h.blocks_known, h.carried,
      _, hrm, .inr ⟨_, h.top_carried, rfl⟩⟩
  have hlow : n.node.db.height - 1 < n.node.db.height := by omega
  unfold CachedNode.getLongTermBlockWeightMedian
  dsimp only
  rw [if_neg (by omega), htip, if_pos hlow, hhash]
  split
  · rename_i hcached
    have hholds := h.window_of_hash hC hpos (Nat.le_refl _) hcached.2.2
    rw [hall] at hholds
    exact ⟨n.cache, by rw [(hkeep hholds).1], h⟩
  split
  · rename_i hnext
    obtain ⟨htall, -, -, hold⟩ := hnext
    have hbelow : n.node.blockHashAt C (n.node.db.height - 1 - 1) =
        hashBelow C n.node (n.node.db.height - 1) := by
      obtain ⟨k, hk⟩ := Nat.exists_eq_succ_of_ne_zero htall.ne'
      rw [hk]
      rfl
    rw [hbelow] at hold
    have hlt : n.node.db.height - 1 < n.node.longTermBlockWeights.length := by omega
    have htop : n.node.longTermBlockWeights.take (n.node.db.height - 1) ++
        [n.node.longTermBlockWeights.getD (n.node.db.height - 1) 0] =
          n.node.longTermBlockWeights := by
      rw [List.getD_eq_getElem?_getD, List.getElem?_eq_getElem hlt, Option.getD_some,
        List.take_append_getElem hlt, Nat.sub_add_cancel hpos, hall]
    have hholds := (h.window_of_hash hC htall (by omega) hold).insert
      (n.node.longTermBlockWeights.getD (n.node.db.height - 1) 0)
    rw [SlidingWindow.push, htop] at hholds
    exact ⟨_, by rw [(hkeep hholds).1], (hkeep hholds).2⟩
  · rw [if_neg (by omega), TemplateNode.rtake_window hlen]
    obtain ⟨w, hold, -⟩ := h.cache
    have hcleared := RollingMedian.holds_clear hold.sound.layout.N_pos
    rw [hold.N_eq, ← List.rtake_nil longTermBlockWeightWindowSize] at hcleared
    have hholds := hcleared.foldl
      (n.node.longTermBlockWeights.rtake longTermBlockWeightWindowSize)
    rw [List.nil_append, SlidingWindow.rtake_rtake, Nat.min_self] at hholds
    exact ⟨_, by rw [(hkeep hholds).1], (hkeep hholds).2⟩

/-- Medians and templates play no part. -/
theorem of_same {n' : CachedNode} (h : n.Traced C known W) (hdb : n'.node.db = n.node.db)
    (hltws : n'.node.longTermBlockWeights = n.node.longTermBlockWeights)
    (hcache : n'.cache = n.cache) : n'.Traced C known W := by
  have hbelow : hashBelow C n'.node = hashBelow C n.node := by
    funext height
    cases height with
    | zero => rfl
    | succ height => exact congrArg (fun db => TemplateNode.blockHashAt C { db } height) hdb
  refine ⟨?_, ?_, fun height hle => ?_, ?_⟩
  · rw [hltws, hdb]
    exact h.length_eq
  · rw [hdb]
    exact h.blocks_known
  · rw [hdb] at hle
    rw [hbelow, hltws]
    exact h.carried height hle
  · rw [hcache]
    exact h.cache

theorem longTermEffectiveMedian (h : n.Traced C known W) (hC : C.HashesApart known)
    (hpos : 0 < n.node.db.height) :
    ∃ cache, n.longTermEffectiveMedian C = some (n.node.longTermEffectiveMedian, cache) ∧
      { n with cache }.Traced C known W := by
  obtain ⟨cache, hmedian, hcache⟩ := h.getLongTermBlockWeightMedian hC hpos
  refine ⟨cache, ?_, hcache⟩
  unfold CachedNode.longTermEffectiveMedian
  dsimp only
  rw [hmedian, TemplateNode.longTermEffectiveMedian_eq h.length_eq]
  rfl

/-- A chain without blocks is at a version that asks for no long-term median. -/
theorem height_pos {n : TemplateNode} (h : ¬ n.currentVersion < 10) : 0 < n.db.height := by
  rcases Nat.eq_zero_or_pos n.db.height with hzero | hpos
  · unfold TemplateNode.currentVersion at h
    rw [hzero] at h
    exact absurd (by decide) h
  · exact hpos

theorem getNextLongTermBlockWeight (h : n.Traced C known W) (hC : C.HashesApart known)
    (blockWeight : Nat) :
    ∃ cache, n.getNextLongTermBlockWeight C blockWeight =
        some (n.node.getNextLongTermBlockWeight blockWeight, cache) ∧
      { n with cache }.Traced C known W := by
  unfold CachedNode.getNextLongTermBlockWeight TemplateNode.getNextLongTermBlockWeight
  split
  · exact ⟨n.cache, rfl, h⟩
  · rename_i hlate
    obtain ⟨cache, hmedian, hcache⟩ := h.longTermEffectiveMedian hC (height_pos hlate)
    refine ⟨cache, ?_, hcache⟩
    rw [hmedian, Option.map_some]
    dsimp only
    split
    · rfl
    · rfl

theorem updateNextCumulativeWeightLimit (h : n.Traced C known W) (hC : C.HashesApart known) :
    ∃ cache, n.updateNextCumulativeWeightLimit C =
        some { node := n.node.updateNextCumulativeWeightLimit, cache } ∧
      { node := n.node.updateNextCumulativeWeightLimit, cache : CachedNode }.Traced C known W := by
  unfold CachedNode.updateNextCumulativeWeightLimit
  dsimp only
  by_cases hearly : n.node.currentVersion < 10
  · refine ⟨n.cache, ?_, h.of_same rfl rfl rfl⟩
    unfold TemplateNode.updateNextCumulativeWeightLimit TemplateNode.nextBlockCumulWeightMedian
      TemplateNode.effectiveMedianBlockWeight
    rw [if_pos hearly, if_pos hearly, if_pos hearly]
    rfl
  · obtain ⟨cache, hmedian, hcache⟩ := h.longTermEffectiveMedian hC (height_pos hearly)
    refine ⟨cache, ?_, hcache.of_same rfl rfl rfl⟩
    unfold TemplateNode.updateNextCumulativeWeightLimit TemplateNode.nextBlockCumulWeightMedian
      TemplateNode.effectiveMedianBlockWeight
    rw [if_neg hearly, if_neg hearly, if_neg hearly, hmedian]
    dsimp only [Option.map_some]
    split
    · rfl
    · rfl

/-! ## Moving the chain -/

theorem topBlockHash_eq (n : TemplateNode) :
    n.db.topBlockHash C = hashBelow C n n.db.height := by
  unfold BlockchainDB.topBlockHash BlockchainDB.height
  rcases List.eq_nil_or_concat n.db.blocks with hnil | ⟨blocks, e, hblocks⟩
  · rw [hnil]
    rfl
  · rw [hblocks, List.concat_eq_append, List.getLast?_concat, List.length_append,
      List.length_singleton]
    change _ = n.blockHashAt C blocks.length
    unfold TemplateNode.blockHashAt
    rw [hblocks, List.concat_eq_append, List.getElem?_concat_length]

theorem blockHashAt_congr {n m : TemplateNode} {height : Nat}
    (h : n.db.blocks[height]? = m.db.blocks[height]?) :
    n.blockHashAt C height = m.blockHashAt C height := by
  unfold TemplateNode.blockHashAt
  rw [h]

/-- A block on top adds its long-term weight. -/
theorem connect (h : n.Traced C known W) {b : Block} (hb : b ∈ known)
    (hprev : b.prevId = n.node.db.topBlockHash C) {e : MainEntry} (he : e.block = b)
    {cache : LongTermCache} (hcache : { n with cache }.Traced C known W)
    (node : TemplateNode) (hdb : node.db.blocks = n.node.db.blocks ++ [e])
    (hltws : node.longTermBlockWeights =
      n.node.longTermBlockWeights ++ [n.node.getNextLongTermBlockWeight (W b)]) :
    { node, cache : CachedNode }.Traced C known W := by
  have hheight : node.db.height = n.node.db.height + 1 := by
    rw [BlockchainDB.height, hdb, List.length_append]
    rfl
  have hbelow (height : Nat) (hle : height ≤ n.node.db.height) :
      hashBelow C node height = hashBelow C n.node height := by
    cases height with
    | zero => rfl
    | succ height =>
      have hlt : height < n.node.db.blocks.length := hle
      exact blockHashAt_congr (by rw [hdb, List.getElem?_append_left hlt])
  have hlen := h.length_eq
  refine ⟨?_, ?_, fun height hle => ?_, hcache.cache⟩
  · rw [hltws, List.length_append, hlen, hheight]
    rfl
  · rw [hdb]
    exact List.forall_mem_append.mpr ⟨h.blocks_known, List.forall_mem_singleton.mpr (he ▸ hb)⟩
  · change height ≤ node.db.height at hle
    change C.LongTerm known W (hashBelow C node height) (node.longTermBlockWeights.take height)
    rw [hheight] at hle
    rcases Nat.lt_or_eq_of_le hle with hlt | rfl
    · have hle' : height ≤ n.node.db.height := Nat.le_of_lt_succ hlt
      rw [hbelow height hle', hltws, List.take_append_of_le_length (hlen.symm ▸ hle')]
      exact h.carried height hle'
    · have htop : hashBelow C node (n.node.db.height + 1) = C.getBlockHash b := by
        change node.blockHashAt C n.node.db.height = _
        unfold TemplateNode.blockHashAt BlockchainDB.height
        rw [hdb, List.getElem?_concat_length, ← he]
      have hparent := h.top_carried
      rw [← topBlockHash_eq, ← hprev] at hparent
      have hall : node.longTermBlockWeights.take (n.node.db.height + 1) =
          n.node.longTermBlockWeights ++
            [nextLongTermWeight n.node.longTermBlockWeights (W b)] := by
        rw [hltws, TemplateNode.getNextLongTermBlockWeight_eq hlen]
        refine List.take_of_length_le ?_
        rw [List.length_append, hlen, List.length_singleton]
      rw [htop, hall]
      exact ParentTree.Carries.child (T := C.blockTree known) hb hparent

/-- A block that is connected is connected alike without the cache. -/
theorem handleBlockToMainChain (h : n.Traced C known W) (hC : C.HashesApart known) (E : Env)
    {b : Block} (hb : b ∈ known) :
    (n.handleBlockToMainChain C E b (W b)).2.node =
        (n.node.handleBlockToMainChain C E b (W b)).2 ∧
      (n.handleBlockToMainChain C E b (W b)).2.Traced C known W := by
  unfold CachedNode.handleBlockToMainChain TemplateNode.handleBlockToMainChain
  dsimp only
  rcases handleBlockToMainChain_cases C { E with
      medianWeight := fun _ => UInt64.ofNat (n.node.rewardMedian n.node.currentVersion)
      cumulativeBlockWeight := fun _ _ => UInt64.ofNat (W b) } b n.node.db with
    hrefused | ⟨baseReward, hprev, -, hconnected⟩
  · rw [hrefused]
    exact ⟨rfl, h⟩
  · obtain ⟨cache, hweight, hcache⟩ := h.getNextLongTermBlockWeight hC (W b)
    rw [hconnected, hweight]
    dsimp only
    have hnext := h.connect hb hprev rfl hcache { n.node with
        db := n.node.db.addBlock
          { block := b
            alreadyGeneratedCoins :=
              cappedAdd moneySupply n.node.db.topGeneratedCoins baseReward
            cumulativeDifficulty :=
              n.node.db.topCumulativeDifficulty + E.difficultyForNextBlock n.node.db }
        blockWeights := n.node.blockWeights ++ [W b]
        longTermBlockWeights :=
          n.node.longTermBlockWeights ++ [n.node.getNextLongTermBlockWeight (W b)] } rfl rfl
    obtain ⟨cache', hlimit, hcache'⟩ := hnext.updateNextCumulativeWeightLimit hC
    rw [hlimit]
    exact ⟨rfl, hcache'.of_same rfl rfl rfl⟩

theorem popBlock (h : n.Traced C known W) {node : TemplateNode}
    (hpop : n.node.popBlockFromBlockchain = some node) : { n with node }.Traced C known W := by
  unfold TemplateNode.popBlockFromBlockchain at hpop
  split at hpop
  · cases hpop
  rename_i b db hdb
  obtain ⟨rfl, -⟩ := popBlockFromBlockchain_eq hdb
  cases hpop
  have hlen := h.length_eq
  have hheight : n.node.db.popBlock.height = n.node.db.height - 1 := List.length_dropLast
  refine ⟨?_, BlockchainDB.forall_popBlock h.blocks_known, fun height hle => ?_, h.cache⟩
  · change n.node.longTermBlockWeights.dropLast.length = n.node.db.popBlock.height
    rw [List.length_dropLast, hheight, hlen]
  · change height ≤ n.node.db.popBlock.height at hle
    rw [hheight] at hle
    have hbelow : hashBelow C (TemplateNode.invalidateBlockTemplateCache { n.node with
        db := n.node.db.popBlock
        blockWeights := n.node.blockWeights.dropLast
        longTermBlockWeights := n.node.longTermBlockWeights.dropLast }) height =
          hashBelow C n.node height := by
      cases height with
      | zero => rfl
      | succ height =>
        have hlt : height < n.node.db.blocks.length - 1 := hle
        exact blockHashAt_congr (List.getElem?_dropLast.trans (if_pos hlt))
    have htake : n.node.longTermBlockWeights.dropLast.take height =
        n.node.longTermBlockWeights.take height := by
      rw [List.dropLast_eq_take, List.take_take, Nat.min_eq_left (hlen.symm ▸ hle)]
    change C.LongTerm known W (hashBelow C _ height)
      (n.node.longTermBlockWeights.dropLast.take height)
    rw [hbelow, htake]
    exact h.carried height (hle.trans (Nat.sub_le _ _))

theorem popLoop (h : n.Traced C known W) {k : Nat} {node : TemplateNode}
    (hpop : TemplateNode.popLoop k n.node = some node) : { n with node }.Traced C known W := by
  induction k generalizing n with
  | zero =>
    cases hpop
    exact h
  | succ k ih =>
    unfold TemplateNode.popLoop at hpop
    split at hpop
    · cases hpop
    · rename_i popped hone
      exact ih (n := { n with node := popped }) (h.popBlock hone) hpop

theorem popBlocks (h : n.Traced C known W) (hC : C.HashesApart known) (nblocks : Nat) :
    (n.popBlocks C nblocks).node = n.node.popBlocks nblocks ∧
      (n.popBlocks C nblocks).Traced C known W := by
  unfold CachedNode.popBlocks TemplateNode.popBlocks
  dsimp only
  generalize (if n.node.db.height > 0 then min nblocks (n.node.db.height - 1) else nblocks) = count
  cases hpop : TemplateNode.popLoop count n.node with
  | none => exact ⟨rfl, h⟩
  | some popped =>
    obtain ⟨cache, hlimit, hcache⟩ := (h.popLoop hpop).updateNextCumulativeWeightLimit hC
    dsimp only
    rw [hlimit]
    exact ⟨rfl, hcache⟩

theorem start {cache : LongTermCache} (htip : cache.tipHash = nullHash)
    (hcache : RollingMedian.Holds longTermBlockWeightWindowSize cache.rollingMedian []) :
    { cache : CachedNode }.Traced C known W where
  length_eq := rfl
  blocks_known _ he := by cases he
  carried height hle := by
    obtain rfl := Nat.le_zero.mp hle
    exact ParentTree.Carries.root (T := C.blockTree known)
  cache := ⟨[], hcache, .inl htip⟩

end Traced

/-! ## Runs -/

/-- The blocks a call submits. -/
def submitted {P : TxPrimitives} : TemplateCall C P → List Block
  | .handleBlockToMainChain b _ _ => [b]
  | _ => []

/-- A block that a call submits weighs what its contents weigh. -/
def Weighs {P : TxPrimitives} (W : Block → Nat) : TemplateCall C P → Prop
  | .handleBlockToMainChain b blockWeight _ => blockWeight = W b
  | _ => True

variable {P : TxPrimitives}

/-- Every call is answered as it is without the cache, and leaves the same node behind. -/
theorem Traced.step (h : n.Traced C known W) (hC : C.HashesApart known) {call : TemplateCall C P}
    (hknown : submitted call ⊆ known) (hweighs : Weighs W call) :
    ((machine C P).step n call).1 = ((templateMachine C P).step n.node call).1 ∧
      ((machine C P).step n call).2.node = ((templateMachine C P).step n.node call).2 ∧
      ((machine C P).step n call).2.Traced C known W := by
  cases call with
  | handleBlockToMainChain b blockWeight E =>
    obtain rfl : blockWeight = W b := hweighs
    exact ⟨rfl, h.handleBlockToMainChain hC E (hknown List.mem_cons_self)⟩
  | popBlocks nblocks => exact ⟨rfl, h.popBlocks hC nblocks⟩
  | createBlockTemplate r =>
    refine ⟨rfl, rfl, h.of_same ?_ ?_ rfl⟩
    · change (n.node.createBlockTemplate C r).2.db = n.node.db
      unfold TemplateNode.createBlockTemplate
      split
      · rfl
      · dsimp only
        split
        · rfl
        · rfl
    · change (n.node.createBlockTemplate C r).2.longTermBlockWeights = n.node.longTermBlockWeights
      unfold TemplateNode.createBlockTemplate
      split
      · rfl
      · dsimp only
        split
        · rfl
        · rfl

theorem Traced.run (h : n.Traced C known W) (hC : C.HashesApart known)
    {calls : List (TemplateCall C P)} (hknown : calls.flatMap submitted ⊆ known)
    (hweighs : ∀ call ∈ calls, Weighs W call) :
    (machine C P).replies n calls = (templateMachine C P).replies n.node calls ∧
      ((machine C P).final n calls).node = (templateMachine C P).final n.node calls := by
  induction calls generalizing n with
  | nil => exact ⟨rfl, rfl⟩
  | cons call calls ih =>
    rw [List.flatMap_cons, List.append_subset] at hknown
    obtain ⟨hreply, hnode, hnext⟩ :=
      h.step hC hknown.1 (hweighs call List.mem_cons_self)
    have hrest := ih hnext hknown.2 fun call hcall => hweighs call (List.mem_cons_of_mem _ hcall)
    rw [Machine.replies_cons, Machine.replies_cons, Machine.final_cons, Machine.final_cons, hreply,
      ← hnode]
    exact ⟨congrArg _ hrest.1, hrest.2⟩

end CachedNode

/-- The node that a node of any memory starts as. -/
def CachedNode.new (memory : RollingMedian Nat) : CachedNode where
  cache := { rollingMedian := { memory with N := longTermBlockWeightWindowSize }.clear }

/-- In every run of connected and popped blocks and of templates, the node with the cache gives
    the answers of the node that reads its windows from the database, and ends in its state. -/
theorem longTermCache_agrees (C : Content) (P : TxPrimitives) (W : Block → Nat)
    (memory : RollingMedian Nat) (calls : List (TemplateCall C P))
    (hC : C.HashesApart (calls.flatMap CachedNode.submitted))
    (hweighs : ∀ call ∈ calls, CachedNode.Weighs W call) :
    (CachedNode.machine C P).replies (.new memory) calls = (templateMachine C P).replies {} calls ∧
      ((CachedNode.machine C P).final (.new memory) calls).node =
        (templateMachine C P).final {} calls := by
  have hN : 0 < ({ memory with N := longTermBlockWeightWindowSize } : RollingMedian Nat).N := by
    change 0 < longTermBlockWeightWindowSize
    unfold longTermBlockWeightWindowSize
    decide
  have hstart : (CachedNode.new memory).Traced C (calls.flatMap CachedNode.submitted) W :=
    .start rfl (RollingMedian.holds_clear hN)
  exact hstart.run hC (List.Subset.refl _) hweighs

theorem longTermCache_agrees_sample :
    (CachedNode.machine sampleContent samplePrimitives).replies
        (.new RollingMedian.sampleMedian) sampleTemplateCalls =
      (templateMachine sampleContent samplePrimitives).replies {} sampleTemplateCalls ∧
    ((CachedNode.machine sampleContent samplePrimitives).final
        (.new RollingMedian.sampleMedian) sampleTemplateCalls).node =
      (templateMachine sampleContent samplePrimitives).final {} sampleTemplateCalls := by
  refine longTermCache_agrees sampleContent samplePrimitives (fun _ => 90)
    RollingMedian.sampleMedian sampleTemplateCalls
    (sampleContent_apart (by decide +kernel) (by decide +kernel)) ?_
  intro call hcall
  simp only [sampleTemplateCalls, List.mem_append, List.mem_map, List.mem_cons,
    List.not_mem_nil, or_false] at hcall
  rcases hcall with ⟨b, -, rfl⟩ | rfl | rfl | rfl <;> trivial

end RandomLite.Monero
