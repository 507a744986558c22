-- SUMMARY: All difficulty paths give the difficulty the chain below a block requires, after every run.
import RandomLite.Monero.DifficultyPaths

/-!
# Agreement of the difficulty paths

What a block at a height is required to meet is a function of the blocks below it
(`requiredDifficulty`), and so is the cumulative difficulty of every stored block: a
value grown along the parents, which the hash of the block fixes (`Content.Grown`). The
caches, the database, the store of alternative blocks and the recalculation all hold
windows of such chains.
-/

namespace RandomLite.Monero

/-! ## The required difficulty -/

/-- What the difficulty of later blocks depends on. -/
@[ext] structure ChainPoint where
  timestamp : UInt64
  cumulativeDifficulty : Nat

def MainEntry.point (e : MainEntry) : ChainPoint :=
  { timestamp := e.block.timestamp, cumulativeDifficulty := e.cumulativeDifficulty }

def AltEntry.point (a : AltEntry) : ChainPoint :=
  { timestamp := a.block.timestamp, cumulativeDifficulty := a.cumulativeDifficulty }

/-- The main chain, as far as difficulties go. -/
def BlockchainDB.points (s : BlockchainDB) : List ChainPoint := s.blocks.map MainEntry.point

theorem BlockchainDB.length_points (s : BlockchainDB) : s.points.length = s.height :=
  List.length_map _

theorem BlockchainDB.height_addBlock (s : BlockchainDB) (e : MainEntry) :
    (s.addBlock e).height = s.height + 1 :=
  List.length_append

theorem BlockchainDB.height_popBlock (s : BlockchainDB) : s.popBlock.height = s.height - 1 :=
  List.length_dropLast

/-- The cumulative difficulty at the top of a chain. -/
def topWork (chain : List ChainPoint) : Nat := (chain.getLast?.map (·.cumulativeDifficulty)).getD 0

/-- The target of the block at a height: 60 seconds before height 2, 150 from then on. -/
def targetAt (height : Nat) : Nat :=
  if versionAt height < 2 then difficultyTargetV1 else difficultyTargetV2

/-- The window of a chain: its last blocks, never the genesis block. -/
def difficultyWindow (chain : List ChainPoint) : List ChainPoint :=
  chain.tail.rtake difficultyBlocksCount

/-- The difficulty required of the block on top of a chain. -/
def requiredDifficulty (A : DifficultyAlgorithm) (chain : List ChainPoint) : Nat :=
  A.nextDifficulty ((difficultyWindow chain).map (·.timestamp))
    ((difficultyWindow chain).map (·.cumulativeDifficulty)) (targetAt chain.length)

/-- A chain with a block on top. -/
def extendChain (A : DifficultyAlgorithm) (b : Block) (chain : List ChainPoint) : List ChainPoint :=
  chain ++ [{ timestamp := b.timestamp
              cumulativeDifficulty := topWork chain + requiredDifficulty A chain }]

/-- The chain up to the block with a hash. -/
def Content.Grown (C : Content) (A : DifficultyAlgorithm) (known : List Block) :
    Hash → List ChainPoint → Prop :=
  (C.blockTree known).Carries (extendChain A) []

@[simp] theorem topWork_concat (chain : List ChainPoint) (p : ChainPoint) :
    topWork (chain ++ [p]) = p.cumulativeDifficulty := by
  unfold topWork
  rw [List.getLast?_concat]
  rfl

theorem difficultyWindow_nil : difficultyWindow [] = [] := List.rtake_nil _

theorem difficultyWindow_singleton (p : ChainPoint) : difficultyWindow [p] = [] := List.rtake_nil _

theorem requiredDifficulty_nil (A : DifficultyAlgorithm) : requiredDifficulty A [] = 1 := by
  unfold requiredDifficulty
  rw [difficultyWindow_nil]
  exact A.on_empty _

theorem BlockchainDB.topCumulativeDifficulty_eq (s : BlockchainDB) :
    s.topCumulativeDifficulty = topWork s.points := by
  unfold BlockchainDB.topCumulativeDifficulty topWork BlockchainDB.points
  rw [List.getLast?_map]
  cases s.blocks.getLast? with
  | none => rfl
  | some e => rfl

/-! ## Windows read in different ways -/

section Window

variable {s : BlockchainDB}

theorem difficultyWindow_map {α : Type} (f : ChainPoint → α) (chain : List ChainPoint) :
    (difficultyWindow chain).map f = (chain.map f).tail.rtake difficultyBlocksCount := by
  rw [difficultyWindow, ← SlidingWindow.map, List.map_tail]

/-- Some of the main chain, with what a block says and what is recorded for it. -/
theorem readBlocks_map {α : Type} (f : MainEntry → α) (offset stop : Nat) :
    (DifficultyNode.readBlocks s offset stop).map f =
      ((s.blocks.map f).take stop).drop offset := by
  rw [DifficultyNode.readBlocks, List.map_drop, List.map_take]

/-- The window read from the database by height. -/
theorem readWindow_map {α : Type} (f : ChainPoint → α) :
    let offset := s.height - min s.height difficultyBlocksCount
    (DifficultyNode.readBlocks s (if offset = 0 then offset + 1 else offset) s.height).map
      (fun e => f e.point) = (difficultyWindow s.points).map f := by
  intro offset
  have hoffset : offset = (s.blocks.map fun e => f e.point).length -
      min difficultyBlocksCount (s.blocks.map fun e => f e.point).length := by
    rw [List.length_map, Nat.min_comm]
    rfl
  have hheight : s.height = (s.blocks.map fun e => f e.point).length := (List.length_map _).symm
  rw [readBlocks_map, hheight, List.take_length, hoffset, SlidingWindow.drop_offset,
    difficultyWindow_map, BlockchainDB.points, List.map_map]
  rfl

/-- The window slid by the top block. -/
theorem slideWindow_map {α : Type} (f : ChainPoint → α) (hheight : 2 ≤ s.height) :
    SlidingWindow.trim difficultyBlocksCount
      ((difficultyWindow (s.points.take (s.height - 1))).map f ++
        (DifficultyNode.readBlocks s (s.height - 1) s.height).map fun e => f e.point) =
      (difficultyWindow s.points).map f := by
  have hlength : (s.points.map f).length = s.height := by
    rw [List.length_map]
    exact List.length_map _
  have htop : (DifficultyNode.readBlocks s (s.height - 1) s.height).map (fun e => f e.point) =
      (s.points.map f).drop (s.height - 1) := by
    rw [readBlocks_map, BlockchainDB.points, List.map_map]
    congr 1
    exact List.take_of_length_le (Nat.le_of_eq (List.length_map _))
  have hne : ((s.points.map f).take (s.height - 1)) ≠ [] :=
    List.ne_nil_of_length_pos (by rw [List.length_take, hlength]; omega)
  rw [htop, SlidingWindow.trim_eq, difficultyWindow_map, difficultyWindow_map, SlidingWindow.push,
    List.map_take, ← List.tail_append_of_ne_nil hne, List.take_append_drop]

/-- The window assembled from the main chain below an alternative one and from this. -/
theorem splitWindow_map {α : Type} (f : ChainPoint → α) {altChain : List AltEntry} {stop : Nat}
    (hpos : 1 ≤ stop) (hstop : stop ≤ s.height) (hshort : altChain.length < difficultyBlocksCount) :
    let start := stop -
      min (difficultyBlocksCount - min difficultyBlocksCount altChain.length) stop
    (DifficultyNode.readBlocks s (if start = 0 then start + 1 else start) stop).map
        (fun e => f e.point) ++ altChain.map (fun a => f a.point) =
      (difficultyWindow (s.points.take stop ++ altChain.map AltEntry.point)).map f := by
  intro start
  have hlength : ((s.blocks.map fun e => f e.point).take stop).length = stop := by
    rw [List.length_take, List.length_map]
    exact Nat.min_eq_left hstop
  have hroom : difficultyBlocksCount - min difficultyBlocksCount altChain.length =
      difficultyBlocksCount - altChain.length := by
    rw [Nat.min_eq_right (Nat.le_of_lt hshort)]
  have hstart : start = ((s.blocks.map fun e => f e.point).take stop).length -
      min (difficultyBlocksCount - altChain.length)
        ((s.blocks.map fun e => f e.point).take stop).length := by
    rw [hlength, ← hroom]
  have hmain : (s.points.take stop).map f = (s.blocks.map fun e => f e.point).take stop := by
    rw [BlockchainDB.points, List.map_take, List.map_map]
    rfl
  have halt : (altChain.map AltEntry.point).map f = altChain.map fun a => f a.point := by
    rw [List.map_map]
    rfl
  have hne : (s.blocks.map fun e => f e.point).take stop ≠ [] :=
    List.ne_nil_of_length_pos (by rw [hlength]; exact hpos)
  have hfits : (altChain.map fun a => f a.point).length ≤ difficultyBlocksCount := by
    rw [List.length_map]
    exact Nat.le_of_lt hshort
  rw [readBlocks_map, hstart, SlidingWindow.drop_offset, difficultyWindow_map, List.map_append,
    hmain, halt, List.tail_append_of_ne_nil hne, SlidingWindow.append, List.length_map,
    SlidingWindow.of_length_le hfits]

/-- The window of a chain of which the alternative part alone fills it. -/
theorem recentWindow_map {α : Type} (f : ChainPoint → α) {altChain : List AltEntry} {stop : Nat}
    (hpos : 1 ≤ stop) (hstop : stop ≤ s.height) (hlong : difficultyBlocksCount ≤ altChain.length) :
    ((altChain.reverse.take difficultyBlocksCount).reverse).map (fun a => f a.point) =
      (difficultyWindow (s.points.take stop ++ altChain.map AltEntry.point)).map f := by
  have hne : (s.points.take stop).map f ≠ [] := by
    refine List.ne_nil_of_length_pos ?_
    rw [List.length_map, List.length_take, s.length_points]
    exact Nat.lt_min.mpr ⟨hpos, Nat.lt_of_lt_of_le hpos hstop⟩
  have hroom : difficultyBlocksCount - ((altChain.map AltEntry.point).map f).length = 0 := by
    rw [List.length_map, List.length_map]
    exact Nat.sub_eq_zero_of_le hlong
  rw [← List.rtake_eq_reverse_take_reverse, difficultyWindow_map, List.map_append,
    List.tail_append_of_ne_nil hne, SlidingWindow.append, hroom, List.rtake_zero, List.nil_append,
    SlidingWindow.map, SlidingWindow.map, List.map_map]
  rfl

/-- Whichever part of a chain is held as the main chain and whichever as an alternative
    one, the difficulty of the block on top of it is the required one. -/
theorem getNextDifficultyForAlternativeChain_eq (A : DifficultyAlgorithm) {hf : HardFork}
    (hideal : ∀ height, hf.getIdealVersion height = versionAt height) {altChain : List AltEntry}
    {stop : Nat} (hpos : 1 ≤ stop) (hstop : stop ≤ s.height)
    (hfront : ∀ front ∈ altChain.head?, front.height = stop) :
    DifficultyNode.getNextDifficultyForAlternativeChain A hf s altChain (stop + altChain.length) =
      requiredDifficulty A (s.points.take stop ++ altChain.map AltEntry.point) := by
  have hlength : (s.points.take stop ++ altChain.map AltEntry.point).length =
      stop + altChain.length := by
    rw [List.length_append, List.length_take, s.length_points, List.length_map,
      Nat.min_eq_left hstop]
  have hoffset :
      DifficultyNode.mainChainStopOffset altChain (stop + altChain.length) = stop := by
    cases altChain with
    | nil => rfl
    | cons front rest => exact hfront front rfl
  unfold DifficultyNode.getNextDifficultyForAlternativeChain requiredDifficulty
  dsimp only
  rw [hlength, hideal, targetAt]
  split
  · rename_i hshort
    rw [hoffset]
    exact congrArg₂ (A.nextDifficulty · · _) (splitWindow_map (·.timestamp) hpos hstop hshort)
      (splitWindow_map (·.cumulativeDifficulty) hpos hstop hshort)
  · rename_i hlong
    have hlong := Nat.le_of_not_lt hlong
    exact congrArg₂ (A.nextDifficulty · · _) (recentWindow_map (·.timestamp) hpos hstop hlong)
      (recentWindow_map (·.cumulativeDifficulty) hpos hstop hlong)

end Window

/-! ## The stores -/

/-- Every stored block is recorded with the cumulative difficulty of its chain. -/
structure WorkTraced (A : DifficultyAlgorithm) (C : Content) (known : List Block)
    (s : BlockchainDB) : Prop where
  alt_known : ∀ a ∈ s.altBlocks, a.block ∈ known
  alt_id : ∀ a ∈ s.altBlocks, a.id = C.getBlockHash a.block
  main_known : ∀ e ∈ s.blocks, e.block ∈ known
  main_grown : ∀ k e, s.blocks[k]? = some e →
    C.Grown A known (C.getBlockHash e.block) (s.points.take (k + 1))
  alt_grown : ∀ a ∈ s.altBlocks, ∃ chain, C.Grown A known a.block.prevId chain ∧
    chain.length = a.height ∧ a.cumulativeDifficulty = topWork chain + requiredDifficulty A chain

namespace WorkTraced

variable {A : DifficultyAlgorithm} {C : Content} {known : List Block} {s : BlockchainDB}

theorem empty : WorkTraced A C known {} where
  alt_known := by simp
  alt_id := by simp
  main_known := by simp
  main_grown := by simp
  alt_grown := by simp

theorem top (h : WorkTraced A C known s) : C.Grown A known (s.topBlockHash C) s.points := by
  unfold BlockchainDB.topBlockHash
  cases hlast : s.blocks.getLast? with
  | none =>
    have hnil : s.points = [] := by
      rw [BlockchainDB.points, List.getLast?_eq_none_iff.mp hlast, List.map_nil]
    rw [hnil]
    exact .root
  | some e =>
    have hne : s.blocks ≠ [] := by
      intro hnil
      rw [hnil] at hlast
      cases hlast
    have hpos := List.length_pos_of_ne_nil hne
    rw [List.getLast?_eq_getElem?] at hlast
    have hgrown := h.main_grown _ e hlast
    have htake : s.points.take s.blocks.length = s.points :=
      List.take_of_length_le (Nat.le_of_eq s.length_points)
    rwa [Nat.sub_add_cancel hpos, htake] at hgrown

/-- The chain of an alternative block, itself included. -/
theorem alt (h : WorkTraced A C known s) {a : AltEntry} (ha : a ∈ s.altBlocks) :
    ∃ chain, C.Grown A known a.block.prevId chain ∧ chain.length = a.height ∧
      C.Grown A known a.id (chain ++ [a.point]) := by
  obtain ⟨chain, hchain, hlength, hwork⟩ := h.alt_grown a ha
  refine ⟨chain, hchain, hlength, ?_⟩
  have hpoint : chain ++ [a.point] = extendChain A a.block chain := by
    rw [extendChain, ← hwork]
    rfl
  rw [hpoint, h.alt_id a ha]
  exact ParentTree.Carries.child (T := C.blockTree known) (h.alt_known a ha) hchain

/-- The chain of a block of the main chain. -/
theorem main (h : WorkTraced A C known s) {id : Hash} {e : MainEntry}
    (hfind : s.getBlock C id = some e) :
    let k := s.blocks.findIdx fun e => C.getBlockHash e.block == id
    k < s.height ∧ C.Grown A known id (s.points.take (k + 1)) ∧
      topWork (s.points.take (k + 1)) = e.cumulativeDifficulty := by
  intro k
  unfold BlockchainDB.getBlock at hfind
  have hid := List.find?_some hfind
  rw [beq_iff_eq] at hid
  rw [List.find?_eq_getElem?_findIdx] at hfind
  obtain ⟨hk, hget⟩ := List.getElem?_eq_some_iff.mp hfind
  refine ⟨hk, ?_, ?_⟩
  · rw [← hid]
    exact h.main_grown k e hfind
  · have htake : s.points.take (k + 1) = s.points.take k ++ [e.point] := by
      rw [BlockchainDB.points, ← List.map_take, ← List.map_take,
        List.take_succ_eq_append_getElem hk, List.map_append, List.map_singleton, hget]
    rw [htake, topWork_concat]
    rfl

/-- The chain of the parent an alternative block is stored under. -/
theorem parent (h : WorkTraced A C known s) {prevId : Hash} {prevHeight work : Nat} {coins : UInt64}
    (hparent : parentData C s prevId = some (prevHeight, coins, work)) :
    ∃ chain, C.Grown A known prevId chain ∧ chain.length = prevHeight + 1 ∧
      topWork chain = work := by
  unfold parentData at hparent
  split at hparent
  · rename_i a hfound
    obtain ⟨rfl, hrest⟩ := Prod.mk.inj (Option.some.inj hparent)
    obtain ⟨-, rfl⟩ := Prod.mk.inj hrest
    obtain ⟨chain, -, hlength, hgrown⟩ := h.alt (List.mem_of_find?_eq_some hfound)
    have hid := List.find?_some hfound
    rw [beq_iff_eq] at hid
    rw [hid] at hgrown
    refine ⟨chain ++ [a.point], hgrown, ?_, topWork_concat _ _⟩
    rw [List.length_append, hlength, List.length_singleton]
  · split at hparent
    · rename_i e hfound
      obtain ⟨rfl, hrest⟩ := Prod.mk.inj (Option.some.inj hparent)
      obtain ⟨-, rfl⟩ := Prod.mk.inj hrest
      obtain ⟨hk, hgrown, hwork⟩ := h.main hfound
      refine ⟨_, hgrown, ?_, hwork⟩
      rw [List.length_take, s.length_points]
      exact Nat.min_eq_left hk
    · exact absurd hparent (by simp)

/-- Going down the stored alternative blocks goes down the chain of the first. -/
theorem ancestors (h : WorkTraced A C known s) (hC : C.HashesApart known) (fuel : Nat) {id : Hash}
    {front : AltEntry} {rest : List AltEntry} (hancestors : altAncestors s fuel id = front :: rest) :
    ∃ base, C.Grown A known front.block.prevId base ∧ base.length = front.height ∧
      C.Grown A known id (base ++ (front :: rest).map AltEntry.point) := by
  induction fuel generalizing id rest with
  | zero => cases hancestors
  | succ fuel ih =>
    rw [altAncestors] at hancestors
    split at hancestors
    · rename_i a hfound
      obtain ⟨chain, hchain, hlength, hgrown⟩ := h.alt (List.mem_of_find?_eq_some hfound)
      have hid := List.find?_some hfound
      rw [beq_iff_eq] at hid
      rw [hid] at hgrown
      cases hbelow : altAncestors s fuel a.block.prevId with
      | nil =>
        rw [hbelow, List.nil_append] at hancestors
        obtain ⟨rfl, rfl⟩ := List.cons.inj hancestors
        exact ⟨chain, hchain, hlength, hgrown⟩
      | cons front' rest' =>
        rw [hbelow, List.cons_append] at hancestors
        obtain ⟨rfl, rfl⟩ := List.cons.inj hancestors
        obtain ⟨base, hbase, hheight, hbelow⟩ := ih hbelow
        refine ⟨base, hbase, hheight, ?_⟩
        have hsame := ParentTree.Carries.functional hC.wellNamed hchain hbelow
        rw [← List.cons_append, List.map_append, List.map_singleton, ← List.append_assoc, ← hsame]
        exact hgrown
    · cases hancestors

/-- What `build_alt_chain` finds is a split of the chain up to the block. -/
theorem split (h : WorkTraced A C known s) (hC : C.HashesApart known) {prevId : Hash}
    {altChain : List AltEntry} (hbuild : buildAltChain C s prevId = some altChain) :
    ∃ stop, 1 ≤ stop ∧ stop ≤ s.height ∧ (∀ front ∈ altChain.head?, front.height = stop) ∧
      C.Grown A known prevId (s.points.take stop ++ altChain.map AltEntry.point) := by
  unfold buildAltChain at hbuild
  split at hbuild
  · split at hbuild
    · rename_i hsome
      obtain ⟨e, hfind⟩ := Option.isSome_iff_exists.mp hsome
      obtain ⟨hk, hgrown, -⟩ := h.main hfind
      cases Option.some.inj hbuild
      refine ⟨_, Nat.succ_pos _, hk, by simp, ?_⟩
      rw [List.map_nil, List.append_nil]
      exact hgrown
    · cases hbuild
  rename_i front rest hancestors
  split at hbuild
  · cases hbuild
  split at hbuild
  · rename_i e' e _ hget
    split at hbuild
    · rename_i hprev
      cases Option.some.inj hbuild
      obtain ⟨base, hbase, hheight, hgrown⟩ := h.ancestors hC _ hancestors
      have hbelow := h.main_grown _ e hget
      rw [hprev] at hbelow
      have hsame := ParentTree.Carries.functional hC.wellNamed hbase hbelow
      obtain ⟨hlt, -⟩ := List.getElem?_eq_some_iff.mp hget
      have hstop : base.length = front.height - 1 + 1 := by
        rw [hsame, List.length_take, s.length_points]
        exact Nat.min_eq_left hlt
      refine ⟨front.height - 1 + 1, Nat.succ_pos _, hlt, ?_, ?_⟩
      · intro front' hfront
        cases hfront
        exact hheight.symm.trans hstop
      · rw [← hsame]
        exact hgrown
    · cases hbuild
  · cases hbuild

/-! ### Updates -/

theorem connect (h : WorkTraced A C known s) {b : Block} (hb : b ∈ known)
    (hprev : b.prevId = s.topBlockHash C) (coins : UInt64) :
    WorkTraced A C known (s.addBlock
      { block := b
        alreadyGeneratedCoins := coins
        cumulativeDifficulty := topWork s.points + requiredDifficulty A s.points }) := by
  refine { h with main_known := BlockchainDB.forall_addBlock h.main_known hb, main_grown := ?_ }
  intro k e he
  have hpoints : ∀ e : MainEntry, (s.addBlock e).points = s.points ++ [e.point] := by
    intro e
    rw [BlockchainDB.points, BlockchainDB.addBlock, List.map_append]
    rfl
  rw [hpoints]
  rcases Nat.lt_or_ge k s.height with hlt | hge
  · have hold : (s.blocks ++ [_])[k]? = some e := he
    rw [List.getElem?_append_left hlt] at hold
    rw [List.take_append_of_le_length (by rw [s.length_points]; exact hlt)]
    exact h.main_grown k e hold
  · have hnew : (s.blocks ++ [_])[k]? = some e := he
    rw [List.getElem?_append_right hge] at hnew
    obtain ⟨hk, rfl⟩ := List.getElem?_eq_some_iff.mp hnew
    rw [List.length_singleton] at hk
    rw [List.take_of_length_le (by rw [List.length_append, s.length_points]; exact Nat.succ_le_succ hge),
      List.getElem_singleton]
    have htop := h.top
    rw [← hprev] at htop
    exact ParentTree.Carries.child (T := C.blockTree known) hb htop

theorem pop (h : WorkTraced A C known s) : WorkTraced A C known s.popBlock := by
  refine { h with main_known := BlockchainDB.forall_popBlock h.main_known, main_grown := ?_ }
  intro k e he
  have hpoints : s.popBlock.points = s.points.dropLast := by
    rw [BlockchainDB.points, BlockchainDB.popBlock, List.map_dropLast]
    rfl
  have he : s.blocks.dropLast[k]? = some e := he
  obtain ⟨hk, -⟩ := List.getElem?_eq_some_iff.mp he
  rw [List.getElem?_dropLast] at he
  rw [List.length_dropLast] at hk
  rw [if_pos hk] at he
  have hmin : min (k + 1) (s.height - 1) = k + 1 := Nat.min_eq_left hk
  rw [hpoints, List.dropLast_eq_take, List.take_take, s.length_points, hmin]
  exact h.main_grown k e he

theorem store (h : WorkTraced A C known s) {b : Block} (hb : b ∈ known) {chain : List ChainPoint}
    (hchain : C.Grown A known b.prevId chain) {prevHeight : Nat} (hlength : chain.length = prevHeight + 1)
    (coins : UInt64) :
    WorkTraced A C known (s.addAltBlock (DifficultyNode.altEntry C s b prevHeight coins
      (topWork chain) (requiredDifficulty A chain))) := by
  refine { h with alt_known := ?_, alt_id := ?_, alt_grown := ?_ }
  · exact BlockchainDB.forall_addAltBlock h.alt_known hb
  · exact BlockchainDB.forall_addAltBlock h.alt_id rfl
  · exact BlockchainDB.forall_addAltBlock h.alt_grown ⟨chain, hchain, hlength, rfl⟩

theorem remove (h : WorkTraced A C known s) (id : Hash) :
    WorkTraced A C known (s.removeAltBlock id) := by
  refine { h with alt_known := ?_, alt_id := ?_, alt_grown := ?_ }
  · exact BlockchainDB.forall_removeAltBlock h.alt_known id
  · exact BlockchainDB.forall_removeAltBlock h.alt_id id
  · exact BlockchainDB.forall_removeAltBlock h.alt_grown id

end WorkTraced

/-! ## The caches -/

/-- The window that is kept is that of the chain up to the height it was taken at. -/
def DifficultyNode.WindowKept (n : DifficultyNode) : Prop :=
  n.timestampsAndDifficultiesHeight ≠ 0 →
    n.timestampsAndDifficultiesHeight ≤ n.db.height ∧
    n.timestamps = (difficultyWindow
      (n.db.points.take n.timestampsAndDifficultiesHeight)).map (·.timestamp) ∧
    n.difficulties = (difficultyWindow
      (n.db.points.take n.timestampsAndDifficultiesHeight)).map (·.cumulativeDifficulty)

/-- What holds of the node between any two updates. -/
structure DifficultyNode.Traced (A : DifficultyAlgorithm) (C : Content) (known : List Block)
    (n : DifficultyNode) : Prop where
  stores : WorkTraced A C known n.db
  hardFork : n.hardFork.Invariant
  height_eq : n.hardFork.db.height = n.db.height
  window : n.WindowKept
  /-- The difficulty kept with a top hash is that required on top of the chain it ends. -/
  cached : ∀ chain, C.Grown A known n.difficultyForNextBlockTopHash chain →
    n.difficultyForNextBlock = requiredDifficulty A chain

namespace DifficultyNode

theorem updateWindow_db (n : DifficultyNode) : n.updateWindow.db = n.db := by
  unfold updateWindow
  dsimp only
  repeat' split
  all_goals rfl

theorem updateWindow_hardFork (n : DifficultyNode) : n.updateWindow.hardFork = n.hardFork := by
  unfold updateWindow
  dsimp only
  repeat' split
  all_goals rfl

theorem updateWindow_height (n : DifficultyNode) :
    n.updateWindow.timestampsAndDifficultiesHeight = n.db.height := by
  unfold updateWindow
  dsimp only
  repeat' split
  all_goals rfl

theorem readWindow_eq (n : DifficultyNode) :
    n.readWindow.timestamps = (difficultyWindow n.db.points).map (·.timestamp) ∧
      n.readWindow.difficulties = (difficultyWindow n.db.points).map (·.cumulativeDifficulty) :=
  ⟨readWindow_map (·.timestamp), readWindow_map (·.cumulativeDifficulty)⟩

theorem slideWindow_eq {n : DifficultyNode} (h : n.WindowKept)
    (hne : n.timestampsAndDifficultiesHeight ≠ 0)
    (hheight : n.db.height = n.timestampsAndDifficultiesHeight + 1) :
    n.slideWindow.timestamps = (difficultyWindow n.db.points).map (·.timestamp) ∧
      n.slideWindow.difficulties = (difficultyWindow n.db.points).map (·.cumulativeDifficulty) := by
  obtain ⟨-, htimestamps, hdifficulties⟩ := h hne
  have hbefore : n.timestampsAndDifficultiesHeight = n.db.height - 1 := by omega
  have htwo : 2 ≤ n.db.height := by omega
  rw [hbefore] at htimestamps hdifficulties
  unfold slideWindow
  dsimp only
  rw [htimestamps, hdifficulties]
  exact ⟨slideWindow_map (·.timestamp) htwo, slideWindow_map (·.cumulativeDifficulty) htwo⟩

/-- Slid or read, the window is that of the chain. -/
theorem updateWindow_eq {n : DifficultyNode} (h : n.WindowKept) :
    n.updateWindow.timestamps = (difficultyWindow n.db.points).map (·.timestamp) ∧
      n.updateWindow.difficulties = (difficultyWindow n.db.points).map (·.cumulativeDifficulty) := by
  unfold updateWindow
  dsimp only
  split
  · -- the height of the window has been cleared
    split
    · rename_i hslide
      exact absurd rfl hslide.1
    · exact readWindow_eq _
  · split
    · rename_i hslide
      exact slideWindow_eq h hslide.1 hslide.2.1
    · exact readWindow_eq n

end DifficultyNode

/-! ## The hard-fork object beside the chain -/

namespace HardForkNode.Invariant

variable {n : HardForkNode}

/-- A block that passes `check` is added. -/
theorem add_passed (h : n.Invariant) {b : BlockVersions} (hcheck : n.hf.check b = .ok true) :
    ∃ n', n.step (.add b) = .ok n' ∧ n'.Invariant ∧ n'.db.height = n.db.height + 1 := by
  obtain ⟨n', hstep, hinv⟩ := h.add b
  refine ⟨n', hstep, hinv, ?_⟩
  have hpass : b.PassesAt n.db.height := by
    rw [h.check_eq, Except.ok.injEq, Bool.and_eq_true, beq_iff_eq, decide_eq_true_eq] at hcheck
    exact hcheck
  obtain ⟨hf, hadd, -⟩ := h.ready.add_spec h.index_eq (n.db.addBlock b) hpass
  unfold HardForkNode.step at hstep
  simp only [hcheck, bind, Except.bind, pure, Except.pure, hadd, if_true] at hstep
  rw [← Except.ok.inj hstep]
  exact List.length_append

/-- A block above the genesis block is popped. -/
theorem pop_one (h : n.Invariant) (hheight : 1 < n.db.height) :
    ∃ n', n.step (.pop 1) = .ok n' ∧ n'.Invariant ∧ n'.db.height = n.db.height - 1 := by
  obtain ⟨n', hstep, hinv⟩ := h.pop 1
  refine ⟨n', hstep, hinv, ?_⟩
  obtain ⟨hf, hpop, -⟩ :=
    h.ready.onBlockPopped_spec (h.versions_ne (by omega)) h.consistent (Nat.le_refl 1) hheight
  unfold HardForkNode.step at hstep
  dsimp only at hstep
  rw [if_pos ⟨Nat.le_refl 1, hheight⟩, hpop] at hstep
  simp only [bind, Except.bind, pure, Except.pure] at hstep
  rw [← Except.ok.inj hstep]
  unfold VersionDB.height VersionDB.popBlocks
  rw [List.length_take]
  exact Nat.min_eq_left (Nat.sub_le _ _)

/-- Reorganising leaves the blocks. -/
theorem reorganize_height (h : n.Invariant) (height : Nat) :
    ∃ n', n.step (.reorganize height) = .ok n' ∧ n'.Invariant ∧ n'.db.height = n.db.height := by
  obtain ⟨n', hstep, hinv⟩ := h.reorganize height
  refine ⟨n', hstep, hinv, ?_⟩
  unfold HardForkNode.step at hstep
  dsimp only at hstep
  by_cases hheight : height < n.db.height
  · have hi : n.hf.currentForkIndex ≤ 1 := h.index_eq ▸ forkIndexAt_le_one _
    obtain ⟨hf, hreorg, -⟩ := h.ready.reorganize_spec h.consistent hi hheight
    rw [hreorg] at hstep
    rw [← Except.ok.inj hstep]
  · unfold HardFork.reorganizeFromBlockHeight at hstep
    rw [if_pos (Nat.le_of_not_lt hheight)] at hstep
    rw [← Except.ok.inj hstep]

end HardForkNode.Invariant

/-! ## What the calls keep -/

namespace DifficultyNode.Traced

variable {A : DifficultyAlgorithm} {C : Content} {known : List Block} {n : DifficultyNode}

/-- With another top hash cached, the difficulty is computed from the window. -/
theorem computed {n : DifficultyNode} (hinv : n.hardFork.Invariant)
    (hheight : n.hardFork.db.height = n.db.height) (hwindow : n.WindowKept)
    (htop : n.db.topBlockHash C ≠ n.difficultyForNextBlockTopHash) :
    n.getDifficultyForNextBlock A C = .ok (requiredDifficulty A n.db.points,
      { n.updateWindow with
        difficultyForNextBlockTopHash := n.db.topBlockHash C
        difficultyForNextBlock := requiredDifficulty A n.db.points }) := by
  have htarget : n.updateWindow.getDifficultyTarget = .ok (targetAt n.db.points.length) := by
    unfold getDifficultyTarget
    rw [updateWindow_hardFork, hinv.getCurrentVersion_eq, hheight, n.db.length_points]
    rfl
  obtain ⟨htimestamps, hdifficulties⟩ := updateWindow_eq hwindow
  have hdiff : A.nextDifficulty n.updateWindow.timestamps n.updateWindow.difficulties
      (targetAt n.db.points.length) = requiredDifficulty A n.db.points := by
    rw [htimestamps, hdifficulties]
    rfl
  unfold getDifficultyForNextBlock
  dsimp only
  rw [if_neg htop, htarget]
  simp only [bind, Except.bind, hdiff]
  rfl

/-- `get_difficulty_for_next_block` gives the required difficulty, from whichever cache. -/
theorem next (h : n.Traced A C known) (hC : C.HashesApart known) :
    ∃ n', n.getDifficultyForNextBlock A C = .ok (requiredDifficulty A n.db.points, n') ∧
      n'.Traced A C known ∧ n'.db = n.db ∧ n'.hardFork = n.hardFork := by
  by_cases htop : n.db.topBlockHash C = n.difficultyForNextBlockTopHash
  · have htopGrown := h.stores.top
    rw [htop] at htopGrown
    refine ⟨n, ?_, h, rfl, rfl⟩
    unfold getDifficultyForNextBlock
    dsimp only
    rw [if_pos htop, h.cached _ htopGrown]
  refine ⟨_, computed h.hardFork h.height_eq h.window htop, ?_, updateWindow_db n,
    updateWindow_hardFork n⟩
  have hdb := updateWindow_db n
  obtain ⟨htimestamps, hdifficulties⟩ := updateWindow_eq h.window
  have htake : n.db.points.take n.db.height = n.db.points :=
    List.take_of_length_le (Nat.le_of_eq n.db.length_points)
  refine { stores := ?_, hardFork := ?_, height_eq := ?_, window := ?_, cached := ?_ }
  · exact hdb.symm ▸ h.stores
  · exact (updateWindow_hardFork n).symm ▸ h.hardFork
  · exact (updateWindow_hardFork n).symm ▸ hdb.symm ▸ h.height_eq
  · intro _
    dsimp only
    rw [updateWindow_height, hdb, htake]
    exact ⟨Nat.le_refl _, htimestamps, hdifficulties⟩
  · intro chain hchain
    rw [ParentTree.Carries.functional hC.wellNamed hchain h.stores.top]

theorem resetWindow (h : n.Traced A C known) : n.resetWindow.Traced A C known :=
  { h with window := fun hne => absurd rfl hne }

/-- Other stores with the same main chain. -/
theorem setStores (h : n.Traced A C known) {db : BlockchainDB} (hdb : WorkTraced A C known db)
    (hblocks : db.blocks = n.db.blocks) : { n with db := db }.Traced A C known := by
  have hheight : db.height = n.db.height := congrArg List.length hblocks
  have hpoints : db.points = n.db.points := congrArg (List.map _) hblocks
  refine { stores := hdb, hardFork := h.hardFork, height_eq := ?_, window := ?_, cached := h.cached }
  · exact h.height_eq.trans hheight.symm
  · intro hne
    have hwindow := h.window hne
    rw [← hheight, ← hpoints] at hwindow
    exact hwindow

/-- A block on top, with what the hard-fork object makes of it. -/
theorem connect (h : n.Traced A C known) {b : Block} (hb : b ∈ known)
    (hprev : b.prevId = n.db.topBlockHash C) (coins : UInt64) {hardFork : HardForkNode}
    (hinv : hardFork.Invariant) (hheight : hardFork.db.height = n.hardFork.db.height + 1) :
    { n with
      db := n.db.addBlock
        { block := b
          alreadyGeneratedCoins := coins
          cumulativeDifficulty := topWork n.db.points + requiredDifficulty A n.db.points }
      hardFork := hardFork }.Traced A C known := by
  refine { stores := h.stores.connect hb hprev coins, hardFork := hinv, height_eq := ?_,
           window := ?_, cached := h.cached }
  · rw [hheight, h.height_eq]
    exact (n.db.height_addBlock _).symm
  · intro hne
    obtain ⟨hle, htimestamps, hdifficulties⟩ := h.window hne
    have htake : ∀ e : MainEntry, (n.db.addBlock e).points.take n.timestampsAndDifficultiesHeight =
        n.db.points.take n.timestampsAndDifficultiesHeight := by
      intro e
      rw [BlockchainDB.points, BlockchainDB.addBlock, List.map_append]
      exact List.take_append_of_le_length (by rw [List.length_map]; exact hle)
    dsimp only
    rw [htake]
    refine ⟨Nat.le_trans hle ?_, htimestamps, hdifficulties⟩
    rw [n.db.height_addBlock]
    exact Nat.le_add_right _ _

theorem handleBlockToMainChain (h : n.Traced A C known) (hC : C.HashesApart known) (E : Env)
    {b : Block} (hb : b ∈ known) :
    ∃ ok n', n.handleBlockToMainChain A C E b = .ok (ok, n') ∧ n'.Traced A C known := by
  unfold DifficultyNode.handleBlockToMainChain
  split
  · exact ⟨false, n, rfl, h⟩
  rename_i hprev
  have hprev := not_not.mp hprev
  cases hcheck : n.hardFork.hf.check b.toBlockVersions with
  | error fault =>
    rw [h.hardFork.check_eq] at hcheck
    cases hcheck
  | ok passed =>
    cases passed with
    | false => exact ⟨false, n, rfl, h⟩
    | true =>
      obtain ⟨n₁, hnext, h₁, hdb, hhardFork⟩ := h.next hC
      simp only [hnext, hdb, bind, Except.bind, pure, Except.pure, Bool.not_true,
        Bool.false_eq_true, if_false]
      rcases handleBlockToMainChain_cases C
        { E with difficultyForNextBlock := fun _ => requiredDifficulty A n.db.points } b n.db with
        heq | ⟨baseReward, -, -, heq⟩
      · rw [heq]
        exact ⟨false, n₁, rfl, h₁⟩
      · obtain ⟨hf, hstep, hinv, hheight⟩ := h.hardFork.add_passed hcheck
        rw [heq, hhardFork]
        dsimp only
        rw [hstep]
        rw [← hdb] at hprev
        rw [← hhardFork] at hheight
        have hconnect := h₁.connect hb hprev (cappedAdd moneySupply n.db.topGeneratedCoins baseReward)
          hinv hheight
        rw [hdb, ← n.db.topCumulativeDifficulty_eq] at hconnect
        obtain ⟨n₂, hagain, h₂, -, -⟩ := hconnect.next hC
        dsimp only
        rw [hagain]
        exact ⟨true, n₂, rfl, h₂⟩

theorem popBlockFromBlockchain (h : n.Traced A C known) :
    ∃ popped n', n.popBlockFromBlockchain = .ok (popped, n') ∧ n'.Traced A C known ∧
      ∀ b ∈ popped, b ∈ known := by
  unfold DifficultyNode.popBlockFromBlockchain
  dsimp only
  have hreset := h.resetWindow
  split
  · exact ⟨none, n.resetWindow, rfl, hreset, by simp⟩
  rename_i b db hpop
  obtain ⟨rfl, e, he, rfl⟩ := popBlockFromBlockchain_eq hpop
  have hheight : 1 < n.db.height := by
    unfold Monero.popBlockFromBlockchain at hpop
    split at hpop
    · split at hpop
      · rename_i hgenesis
        exact hgenesis
      · cases hpop
    · cases hpop
  rw [← h.height_eq] at hheight
  obtain ⟨hf, hstep, hinv, hdown⟩ := hreset.hardFork.pop_one hheight
  rw [hstep]
  refine ⟨_, _, rfl, ?_, ?_⟩
  · refine { stores := hreset.stores.pop, hardFork := hinv, height_eq := ?_,
             window := fun hne => absurd rfl hne, cached := h.cached }
    rw [hdown, hreset.height_eq]
    exact (n.db.height_popBlock).symm
  · intro b hb
    cases hb
    exact h.stores.main_known e he

theorem popBlocks (h : n.Traced A C known) (k : Nat) :
    ∃ n', n.popBlocks k = .ok n' ∧ n'.Traced A C known := by
  induction k generalizing n with
  | zero => exact ⟨n, rfl, h⟩
  | succ k ih =>
    obtain ⟨popped, n₁, hpop, h₁, -⟩ := h.popBlockFromBlockchain
    unfold DifficultyNode.popBlocks
    rw [hpop]
    cases popped with
    | none => exact ⟨n₁, rfl, h₁⟩
    | some b => exact ih h₁

theorem disconnectTo (h : n.Traced A C known) (prevId : Hash) (fuel : Nat) :
    ∃ disconnected n', n.disconnectTo C prevId fuel = .ok (disconnected, n') ∧
      n'.Traced A C known ∧ ∀ b ∈ disconnected, b ∈ known := by
  induction fuel generalizing n with
  | zero => exact ⟨[], n, rfl, h, by simp⟩
  | succ fuel ih =>
    unfold DifficultyNode.disconnectTo
    split
    · exact ⟨[], n, rfl, h, by simp⟩
    obtain ⟨popped, n₁, hpop, h₁, hknown⟩ := h.popBlockFromBlockchain
    rw [hpop]
    cases popped with
    | none => exact ⟨[], n₁, rfl, h₁, by simp⟩
    | some b =>
      obtain ⟨disconnected, n₂, hrest, h₂, hrestKnown⟩ := ih h₁
      simp only [bind, Except.bind, hrest]
      refine ⟨_, n₂, rfl, h₂, List.forall_mem_append.mpr ⟨hrestKnown, ?_⟩⟩
      exact List.forall_mem_singleton.mpr (hknown b rfl)

theorem connectAll (h : n.Traced A C known) (hC : C.HashesApart known) (E : Env)
    {blocks : List Block} (hblocks : ∀ b ∈ blocks, b ∈ known) :
    ∃ refused n', n.connectAll A C E blocks = .ok (refused, n') ∧ n'.Traced A C known := by
  induction blocks generalizing n with
  | nil => exact ⟨[], n, rfl, h⟩
  | cons b rest ih =>
    obtain ⟨hb, hrest⟩ := List.forall_mem_cons.mp hblocks
    obtain ⟨ok, n₁, hhandle, h₁⟩ := h.handleBlockToMainChain hC E hb
    unfold DifficultyNode.connectAll
    rw [hhandle]
    cases ok with
    | false => exact ⟨_, n₁, rfl, h₁⟩
    | true => exact ih h₁ hrest

theorem reorganizeHardFork (h : n.Traced A C known) (height : Nat) :
    ∃ n', n.reorganizeHardFork height = .ok n' ∧ n'.Traced A C known := by
  unfold DifficultyNode.reorganizeHardFork
  split
  · exact ⟨n, rfl, h⟩
  · obtain ⟨hf, hstep, hinv, hheight⟩ := h.hardFork.reorganize_height (height - 1)
    rw [hstep]
    exact ⟨_, rfl, { h with hardFork := hinv, height_eq := hheight.trans h.height_eq }⟩

theorem rollbackBlockchainSwitching (h : n.Traced A C known) (hC : C.HashesApart known) (E : Env)
    {originalChain : List Block} (hblocks : ∀ b ∈ originalChain, b ∈ known) (height : Nat) :
    ∃ n', n.rollbackBlockchainSwitching A C E originalChain height = .ok n' ∧
      n'.Traced A C known := by
  unfold DifficultyNode.rollbackBlockchainSwitching
  split
  · exact ⟨n, rfl, h⟩
  obtain ⟨n₁, hpop, h₁⟩ := h.resetWindow.popBlocks (n.db.height - height)
  obtain ⟨n₂, hreorganize, h₂⟩ := h₁.reorganizeHardFork height
  obtain ⟨refused, n₃, hconnect, h₃⟩ := h₂.connectAll hC E hblocks
  simp only [bind, Except.bind, hpop, hreorganize, hconnect]
  cases refused with
  | nil => exact h₃.reorganizeHardFork height
  | cons b rest => exact ⟨n₃, rfl, h₃⟩

theorem removeAltBlocks (h : n.Traced A C known) (blocks : List Block) :
    (n.removeAltBlocks C blocks).Traced A C known := by
  have hfold : ∀ db, WorkTraced A C known db → db.blocks = n.db.blocks →
      let db' := blocks.foldl (fun db b => db.removeAltBlock (C.getBlockHash b)) db
      WorkTraced A C known db' ∧ db'.blocks = n.db.blocks := by
    induction blocks with
    | nil => exact fun db hdb heq => ⟨hdb, heq⟩
    | cons b rest ih => exact fun db hdb heq => ih _ (hdb.remove _) heq
  obtain ⟨hstores, hblocks⟩ := hfold n.db h.stores rfl
  exact h.setStores hstores hblocks

theorem handAll
    {handle : Block → DifficultyNode → Except Fault (Bool × DifficultyNode)}
    (hhandle : ∀ b ∈ known, ∀ n, n.Traced A C known →
      ∃ ok n', handle b n = .ok (ok, n') ∧ n'.Traced A C known)
    {blocks : List Block} (hblocks : ∀ b ∈ blocks, b ∈ known) (h : n.Traced A C known) :
    ∃ n', DifficultyNode.handAll handle blocks n = .ok n' ∧ n'.Traced A C known := by
  induction blocks generalizing n with
  | nil => exact ⟨n, rfl, h⟩
  | cons b rest ih =>
    obtain ⟨hb, hrest⟩ := List.forall_mem_cons.mp hblocks
    obtain ⟨ok, n₁, heq, h₁⟩ := hhandle b hb n h
    unfold DifficultyNode.handAll
    simp only [heq, bind, Except.bind]
    exact ih hrest h₁

theorem switchToAlternativeBlockchain (h : n.Traced A C known) (hC : C.HashesApart known) (E : Env)
    {handle : Block → DifficultyNode → Except Fault (Bool × DifficultyNode)}
    (hhandle : ∀ b ∈ known, ∀ n, n.Traced A C known →
      ∃ ok n', handle b n = .ok (ok, n') ∧ n'.Traced A C known)
    {altChain : List AltEntry} (halt : ∀ a ∈ altChain, a.block ∈ known) (discard : Bool) :
    ∃ ok n', n.switchToAlternativeBlockchain A C E handle altChain discard = .ok (ok, n') ∧
      n'.Traced A C known := by
  unfold DifficultyNode.switchToAlternativeBlockchain
  dsimp only
  have hreset := h.resetWindow
  split
  · exact ⟨false, _, rfl, hreset⟩
  rename_i front rest
  split
  · exact ⟨false, _, rfl, hreset⟩
  obtain ⟨disconnected, n₁, hdown, h₁, hknown⟩ :=
    hreset.disconnectTo front.block.prevId n.resetWindow.db.height
  simp only [hdown, bind, Except.bind]
  split
  · exact ⟨false, n₁, rfl, h₁⟩
  obtain ⟨refused, n₂, hup, h₂⟩ := h₁.connectAll hC E (List.forall_mem_map.mpr halt)
  rw [hup]
  cases refused with
  | nil =>
    have hhanded : ∀ b ∈ (if discard then [] else disconnected), b ∈ known := by
      cases discard with
      | true => exact fun b hb => absurd hb List.not_mem_nil
      | false => exact hknown
    obtain ⟨n₃, hhand, h₃⟩ := handAll hhandle hhanded h₂
    obtain ⟨n₄, hreorganize, h₄⟩ := (h₃.removeAltBlocks
      ((front :: rest).map (·.block))).reorganizeHardFork n₁.db.height
    simp only [hhand, hreorganize]
    exact ⟨true, n₄, rfl, h₄⟩
  | cons b bs =>
    obtain ⟨n₃, hrollback, h₃⟩ := h₂.rollbackBlockchainSwitching hC E hknown n₁.db.height
    simp only [hrollback]
    exact ⟨false, _, rfl, h₃.removeAltBlocks _⟩

/-- The difficulty asked of an alternative block is that required on top of its chain. -/
theorem alternative (h : n.Traced A C known) (hC : C.HashesApart known) {prevId : Hash}
    {prevHeight work : Nat} {coins : UInt64} {altChain : List AltEntry}
    (hparent : parentData C n.db prevId = some (prevHeight, coins, work))
    (hbuild : buildAltChain C n.db prevId = some altChain) :
    ∃ stop, 1 ≤ stop ∧ stop ≤ n.db.height ∧ stop + altChain.length = prevHeight + 1 ∧
      C.Grown A known prevId (n.db.points.take stop ++ altChain.map AltEntry.point) ∧
      topWork (n.db.points.take stop ++ altChain.map AltEntry.point) = work ∧
      getNextDifficultyForAlternativeChain A n.hardFork.hf n.db altChain (prevHeight + 1) =
        requiredDifficulty A (n.db.points.take stop ++ altChain.map AltEntry.point) := by
  obtain ⟨stop, hpos, hstop, hfront, hgrown⟩ := h.stores.split hC hbuild
  obtain ⟨chain, hchain, hlength, hwork⟩ := h.stores.parent hparent
  have hsame := ParentTree.Carries.functional hC.wellNamed hchain hgrown
  have hheight : stop + altChain.length = prevHeight + 1 := by
    rw [← hlength, hsame, List.length_append, List.length_take, n.db.length_points,
      List.length_map, Nat.min_eq_left hstop]
  refine ⟨stop, hpos, hstop, hheight, hgrown, hsame ▸ hwork, ?_⟩
  rw [← hheight]
  exact getNextDifficultyForAlternativeChain_eq A h.hardFork.ready.getIdealVersion_eq hpos hstop
    hfront

theorem handleAlternativeBlock (h : n.Traced A C known) (hC : C.HashesApart known) (E : Env)
    (fuel : Nat) {b : Block} (hb : b ∈ known) :
    ∃ ok n', n.handleAlternativeBlock A C E fuel b = .ok (ok, n') ∧ n'.Traced A C known := by
  -- The induction is on how deep switches may nest.
  induction fuel generalizing b n with
  | zero => exact ⟨false, n, rfl, h⟩
  | succ fuel ih =>
    have hreset := h.resetWindow
    unfold DifficultyNode.handleAlternativeBlock
    dsimp only
    split
    · exact ⟨false, _, rfl, hreset⟩
    rename_i hgenesis
    have hcheck := hreset.hardFork.ready.checkForHeight_eq (Nat.pos_of_ne_zero hgenesis)
      b.toBlockVersions
    simp only [hcheck, bind, Except.bind, pure, Except.pure]
    split
    · exact ⟨false, _, rfl, hreset⟩
    split
    · exact ⟨true, _, rfl, hreset⟩
    rename_i prevHeight coins work hparent
    split
    · exact ⟨false, _, rfl, hreset⟩
    rename_i altChain hbuild
    obtain ⟨stop, -, hstop, hheight, hgrown, hwork, hdiff⟩ := hreset.alternative hC hparent hbuild
    split
    · exact ⟨false, _, rfl, hreset⟩
    split
    · exact ⟨false, _, rfl, hreset⟩
    split
    · exact ⟨false, _, rfl, hreset⟩
    split
    · exact ⟨false, _, rfl, hreset⟩
    rw [hdiff, ← hwork]
    have hlength : (n.resetWindow.db.points.take stop ++ altChain.map AltEntry.point).length =
        prevHeight + 1 := by
      rw [← hheight, List.length_append, List.length_take, n.resetWindow.db.length_points,
        List.length_map, Nat.min_eq_left hstop]
    have hstored := hreset.setStores (hreset.stores.store hb hgrown hlength coins) rfl
    have hchain : ∀ a ∈ altChain ++ [altEntry C n.resetWindow.db b prevHeight coins
        (topWork (n.resetWindow.db.points.take stop ++ altChain.map AltEntry.point))
        (requiredDifficulty A (n.resetWindow.db.points.take stop ++ altChain.map AltEntry.point))],
        a.block ∈ known := by
      refine List.forall_mem_append.mpr ⟨?_, List.forall_mem_singleton.mpr hb⟩
      exact fun a ha => hreset.stores.alt_known a (mem_buildAltChain hbuild ha)
    have hnested : ∀ b ∈ known, ∀ n, n.Traced A C known → ∃ ok n',
        DifficultyNode.handleAlternativeBlock A C E fuel b n = .ok (ok, n') ∧
          n'.Traced A C known := fun b hb n hn => ih hn hb
    split
    · exact hstored.switchToAlternativeBlockchain hC E hnested hchain true
    split
    · exact hstored.switchToAlternativeBlockchain hC E hnested hchain false
    · exact ⟨true, _, rfl, hstored⟩

theorem addNewBlock (h : n.Traced A C known) (hC : C.HashesApart known) (E : Env) (fuel : Nat)
    {b : Block} (hb : b ∈ known) :
    ∃ ok n', n.addNewBlock A C E fuel b = .ok (ok, n') ∧ n'.Traced A C known := by
  unfold DifficultyNode.addNewBlock
  dsimp only
  split
  · exact ⟨false, n, rfl, h⟩
  split
  · exact h.handleAlternativeBlock hC E fuel hb
  · exact h.handleBlockToMainChain hC E hb

theorem cleanup (h : n.Traced A C known) : n.cleanup.Traced A C known := by
  unfold DifficultyNode.cleanup
  split
  · exact { h with window := fun hne => absurd rfl hne }
  · exact h

/-- No call faults, and every call keeps what holds of the node. -/
theorem step (h : n.Traced A C known) (hC : C.HashesApart known) {c : DifficultyCall}
    (hc : ∀ b ∈ c.submitted, b ∈ known) :
    ∃ n', n.step A C c = .ok n' ∧ n'.Traced A C known := by
  cases c with
  | addNewBlock b E fuel =>
    obtain ⟨ok, n', heq, h'⟩ := h.addNewBlock hC E fuel (hc b List.mem_cons_self)
    exact ⟨n', by simp only [DifficultyNode.step, heq, bind, Except.bind]; rfl, h'⟩
  | popBlocks k => exact h.popBlocks k
  | getDifficultyForNextBlock =>
    obtain ⟨n', heq, h', -, -⟩ := h.next hC
    exact ⟨n', by simp only [DifficultyNode.step, heq, bind, Except.bind]; rfl, h'⟩
  | cleanup => exact ⟨_, rfl, h.cleanup⟩

theorem calls (h : n.Traced A C known) (hC : C.HashesApart known) {calls : List DifficultyCall}
    (hcalls : ∀ b ∈ calls.flatMap DifficultyCall.submitted, b ∈ known) :
    ∃ n', calls.foldlM (DifficultyNode.step A C) n = .ok n' ∧ n'.Traced A C known := by
  induction calls generalizing n with
  | nil => exact ⟨n, rfl, h⟩
  | cons c rest ih =>
    rw [List.flatMap_cons, List.forall_mem_append] at hcalls
    obtain ⟨n₁, hstep, h₁⟩ := h.step hC hcalls.1
    obtain ⟨n', hrest, h'⟩ := ih h₁ hcalls.2
    refine ⟨n', ?_, h'⟩
    rw [List.foldlM_cons, hstep]
    exact hrest

/-- After every run of the node. -/
theorem run (A : DifficultyAlgorithm) {C : Content} {calls : List DifficultyCall}
    (hC : C.HashesApart (calls.flatMap DifficultyCall.submitted)) :
    ∃ n, DifficultyNode.run A C calls = .ok n ∧
      n.Traced A C (calls.flatMap DifficultyCall.submitted) := by
  obtain ⟨hf, hinit, hinv⟩ := HardForkNode.Invariant.init (n := { hf := xrlHardFork, db := {} })
    xrlHardFork_heights rfl rfl VersionDB.Consistent.empty
  have hdb : hf.db = {} := by
    unfold HardForkNode.step at hinit
    simp only [bind, Except.bind, pure, Except.pure] at hinit
    split at hinit
    · cases hinit
    · cases hinit
      rfl
  have hstart : DifficultyNode.Traced A C (calls.flatMap DifficultyCall.submitted)
      { hardFork := hf } := by
    refine { stores := WorkTraced.empty, hardFork := hinv, height_eq := ?_,
             window := fun hne => absurd rfl hne, cached := ?_ }
    · rw [hdb]
      rfl
    · intro chain hchain
      have hroot : C.Grown A (calls.flatMap DifficultyCall.submitted) nullHash [] := .root
      rw [ParentTree.Carries.functional hC.wellNamed hchain hroot, requiredDifficulty_nil]
  obtain ⟨n, hcalls, h⟩ := hstart.calls hC fun b hb => hb
  refine ⟨n, ?_, h⟩
  unfold DifficultyNode.run
  rw [hinit]
  exact hcalls

end DifficultyNode.Traced

/-! ## Recalculation -/

theorem dropOldest_eq {α : Type} {l : List α} (h : l.length ≤ difficultyBlocksCount + 1) :
    dropOldest l = some (l.rtake difficultyBlocksCount) := by
  unfold dropOldest
  split
  · rename_i hlong
    have hlength : l.length = difficultyBlocksCount + 1 := Nat.le_antisymm h hlong
    rw [if_pos hlength, List.rtake, hlength, Nat.add_sub_cancel_left, List.drop_one]
  · rename_i hshort
    rw [SlidingWindow.of_length_le (Nat.le_of_not_lt hshort)]

section Recalculate

variable {A : DifficultyAlgorithm} {s : BlockchainDB}

/-- The window of one block more. -/
theorem difficultyWindow_succ {α : Type} (f : ChainPoint → α) {height : Nat} {p : ChainPoint}
    (hp : s.points[height]? = some p) :
    dropOldest (if height > 0 then (difficultyWindow (s.points.take height)).map f ++ [f p]
        else (difficultyWindow (s.points.take height)).map f) =
      some ((difficultyWindow (s.points.take (height + 1))).map f) := by
  obtain ⟨hlt, hget⟩ := List.getElem?_eq_some_iff.mp hp
  have htake : s.points.take (height + 1) = s.points.take height ++ [p] := by
    rw [List.take_succ_eq_append_getElem hlt, hget]
  cases height with
  | zero =>
    rw [if_neg (Nat.lt_irrefl 0), htake, List.take_zero, List.nil_append, difficultyWindow_nil,
      difficultyWindow_singleton, List.map_nil, dropOldest_eq (Nat.zero_le _), List.rtake_nil]
  | succ height =>
    have hne : s.points.take (height + 1) ≠ [] :=
      List.ne_nil_of_length_pos (by rw [List.length_take]; omega)
    have hle : ((difficultyWindow (s.points.take (height + 1))).map f ++ [f p]).length ≤
        difficultyBlocksCount + 1 := by
      rw [List.length_append, List.length_map, List.length_singleton]
      exact Nat.succ_le_succ (SlidingWindow.length_le _ _)
    rw [if_pos (Nat.succ_pos height), dropOldest_eq hle, difficultyWindow_map, SlidingWindow.push,
      difficultyWindow_map, htake, List.map_append, List.map_singleton,
      List.tail_append_of_ne_nil (by rwa [ne_eq, List.map_eq_nil_iff])]

/-- Every block is recorded with the work below it and its required difficulty. -/
def WorkRecorded (A : DifficultyAlgorithm) (s : BlockchainDB) : Prop :=
  ∀ k e, s.blocks[k]? = some e →
    e.cumulativeDifficulty = topWork (s.points.take k) + requiredDifficulty A (s.points.take k)

/-- The variables of the recalculation when it comes to a height and nothing has drifted. -/
structure Recalculation.At (A : DifficultyAlgorithm) (s : BlockchainDB) (height : Nat)
    (r : Recalculation) : Prop where
  timestamps : r.timestamps = (difficultyWindow (s.points.take height)).map (·.timestamp)
  difficulties :
    r.difficulties = (difficultyWindow (s.points.take height)).map (·.cumulativeDifficulty)
  lastCumDiff : r.lastCumDiff = topWork (s.points.take height)
  drift : r.driftStartHeight = 0
  unchanged : r.newCumulativeDifficulties = []

namespace Recalculation

variable {hf : HardFork} {height : Nat} {r : Recalculation} {e : MainEntry}

theorem At.step (h : At A s height r) (hideal : ∀ height, hf.getIdealVersion height = versionAt height)
    (hwork : WorkRecorded A s) (he : s.blocks[height]? = some e)
    (hfits : e.cumulativeDifficulty < 2 ^ 128) :
    ∃ r', r.step A hf height e = some r' ∧ At A s (height + 1) r' ∧
      r'.recalculatedDiffs =
        r.recalculatedDiffs ++ [requiredDifficulty A (s.points.take height)] := by
  obtain ⟨hlt, hget⟩ := List.getElem?_eq_some_iff.mp he
  have hlength : (s.points.take height).length = height := by
    rw [List.length_take, s.length_points]
    exact Nat.min_eq_left (Nat.le_of_lt hlt)
  have hpoint : s.points[height]? = some e.point := by
    rw [BlockchainDB.points, List.getElem?_map, he]
    rfl
  have hdiff : A.nextDifficulty r.timestamps r.difficulties
      (if hf.getIdealVersion height < 2 then difficultyTargetV1 else difficultyTargetV2) =
        requiredDifficulty A (s.points.take height) := by
    rw [h.timestamps, h.difficulties, hideal, requiredDifficulty, hlength]
    rfl
  have hcumulative : requiredDifficulty A (s.points.take height) + r.lastCumDiff =
      e.cumulativeDifficulty := by
    rw [h.lastCumDiff, hwork height e he, Nat.add_comm]
  have htimestamps := difficultyWindow_succ (·.timestamp) hpoint
  have hdifficulties := difficultyWindow_succ (·.cumulativeDifficulty) hpoint
  rw [← h.timestamps] at htimestamps
  rw [← h.difficulties] at hdifficulties
  simp only [MainEntry.point] at htimestamps hdifficulties
  have hnoDrift : ¬ (r.driftStartHeight = 0 ∧
      e.cumulativeDifficulty ≠ e.cumulativeDifficulty) := fun hdrift => hdrift.2 rfl
  have hnoOverflow : ¬ e.cumulativeDifficulty > 2 ^ 128 - 1 := by omega
  unfold Recalculation.step
  dsimp only
  rw [hdiff, hcumulative, if_neg hnoOverflow, if_neg hnoDrift, h.drift]
  rw [if_neg (Nat.lt_irrefl 0), h.unchanged, htimestamps, hdifficulties]
  have htop : e.cumulativeDifficulty = topWork (s.points.take (height + 1)) := by
    rw [List.take_succ_eq_append_getElem (by rw [s.length_points]; exact hlt)]
    rw [(List.getElem?_eq_some_iff.mp hpoint).2, topWork_concat]
    rfl
  simp only [Option.bind_eq_bind, Option.bind_some, Option.pure_def, Option.some.injEq,
    exists_eq_left']
  exact ⟨⟨rfl, rfl, htop, rfl, rfl⟩, trivial⟩

/-- The window below the start, gathered downwards. -/
theorem recalculationWindow_map {α : Type} (f : ChainPoint → α) {startHeight : Nat}
    (hstart : startHeight ≤ s.height) :
    (recalculationWindow s.blocks startHeight).map (fun e => f e.point) =
      (difficultyWindow (s.points.take startHeight)).map f := by
  have hpoints : (s.points.take startHeight).map f =
      (s.blocks.take startHeight).map fun e => f e.point := by
    rw [BlockchainDB.points, ← List.map_take, List.map_map]
    rfl
  rw [difficultyWindow_map, hpoints, ← List.map_tail, SlidingWindow.map]
  unfold recalculationWindow
  split
  · rename_i habove
    have hlt : startHeight - 1 < s.blocks.length := by
      have : startHeight ≤ s.blocks.length := hstart
      omega
    rw [SlidingWindow.gather_eq _ hlt, Nat.sub_add_cancel (Nat.le_of_lt habove)]
  · rename_i hlow
    have htail : (s.blocks.take startHeight).tail = [] := by
      refine List.eq_nil_of_length_eq_zero ?_
      rw [List.length_tail, List.length_take]
      omega
    rw [htail, List.rtake_nil, List.map_nil]

/-- The last of the window is the top of the chain, unless that is the genesis block. -/
theorem getLastD_window {chain : List ChainPoint} (h : 2 ≤ chain.length) :
    ((difficultyWindow chain).map (·.cumulativeDifficulty)).getLastD 0 = topWork chain := by
  have hcount : 0 < difficultyBlocksCount := by
    unfold difficultyBlocksCount
    decide
  have htail : chain.tail.getLast? = chain.getLast? := by
    rw [List.getLast?_tail, if_neg (by omega)]
  rw [List.getLastD_eq_getLast?, List.getLast?_map, difficultyWindow,
    SlidingWindow.getLast? _ hcount, htail]
  rfl

/-- The variables as the loop begins. -/
theorem at_start (hwork : WorkRecorded A s) (hne : 1 ≤ s.height) {startHeight : Nat}
    (hstart : startHeight ≤ s.height) :
    At A s startHeight
      { timestamps := (recalculationWindow s.blocks startHeight).map (·.block.timestamp)
        difficulties := (recalculationWindow s.blocks startHeight).map (·.cumulativeDifficulty)
        lastCumDiff := if startHeight ≤ 1 then startHeight
          else ((recalculationWindow s.blocks startHeight).map (·.cumulativeDifficulty)).getLastD 0 } := by
  refine ⟨recalculationWindow_map (·.timestamp) hstart,
    recalculationWindow_map (·.cumulativeDifficulty) hstart, ?_, rfl, rfl⟩
  dsimp only
  split
  · rename_i hlow
    rcases Nat.le_one_iff_eq_zero_or_eq_one.mp hlow with rfl | rfl
    · rfl
    · have hgenesis : s.blocks[0]? = some s.blocks[0] := List.getElem?_eq_getElem hne
      have hone := hwork 0 _ hgenesis
      rw [List.take_zero, requiredDifficulty_nil] at hone
      rw [List.take_succ_eq_append_getElem (by rw [s.length_points]; exact hne), topWork_concat]
      have hpoint : s.points[0]? = some s.blocks[0].point := by
        rw [BlockchainDB.points, List.getElem?_map, hgenesis]
        rfl
      rw [(List.getElem?_eq_some_iff.mp hpoint).2]
      exact hone.symm
  · rename_i habove
    have hlast := congrArg (List.getLastD · 0)
      (recalculationWindow_map (·.cumulativeDifficulty) hstart)
    refine hlast.trans (getLastD_window ?_)
    rw [List.length_take, s.length_points]
    omega

/-- The loop finds the required difficulty at every height, and no drift. -/
theorem At.loop (hideal : ∀ height, hf.getIdealVersion height = versionAt height)
    (hwork : WorkRecorded A s) (hfits : ∀ e ∈ s.blocks, e.cumulativeDifficulty < 2 ^ 128)
    (h : At A s height r) {rest : List MainEntry} (hrest : s.blocks.drop height = rest) :
    ∃ r', loop A hf height rest r = some r' ∧ r'.driftStartHeight = 0 ∧
      r'.newCumulativeDifficulties = [] ∧
      r'.recalculatedDiffs = r.recalculatedDiffs ++
        (List.range' height rest.length).map fun k => requiredDifficulty A (s.points.take k) := by
  induction rest generalizing height r with
  | nil => exact ⟨r, rfl, h.drift, h.unchanged, by simp⟩
  | cons e rest ih =>
    have hlt : height < s.blocks.length := by
      by_contra hge
      rw [List.drop_eq_nil_of_le (Nat.le_of_not_lt hge)] at hrest
      cases hrest
    rw [List.drop_eq_getElem_cons hlt] at hrest
    obtain ⟨hget, hrest⟩ := List.cons.inj hrest
    have he : s.blocks[height]? = some e := hget ▸ List.getElem?_eq_getElem hlt
    obtain ⟨r₁, hstep, hat, hdiffs⟩ :=
      h.step hideal hwork he (hfits e (List.mem_of_getElem? he))
    obtain ⟨r', hloop, hdrift, hunchanged, hall⟩ := ih hat hrest
    refine ⟨r', ?_, hdrift, hunchanged, ?_⟩
    · unfold Recalculation.loop
      rw [hstep]
      exact hloop
    · rw [hall, hdiffs, List.length_cons, List.range'_succ, List.map_cons, List.append_assoc]
      rfl

end Recalculation

end Recalculate

namespace DifficultyNode.Traced

variable {A : DifficultyAlgorithm} {C : Content} {known : List Block} {n : DifficultyNode}

theorem workRecorded (h : n.Traced A C known) (hC : C.HashesApart known) :
    WorkRecorded A n.db := by
  intro k e he
  obtain ⟨hlt, hget⟩ := List.getElem?_eq_some_iff.mp he
  have htake : n.db.points.take (k + 1) = n.db.points.take k ++ [e.point] := by
    rw [BlockchainDB.points, ← List.map_take, ← List.map_take,
      List.take_succ_eq_append_getElem hlt, List.map_append, List.map_singleton, hget]
  have hknown := h.stores.main_known e (List.mem_of_getElem? he)
  obtain ⟨chain, -, hchain⟩ :=
    ParentTree.Carries.of_node hC.wellNamed hknown (h.stores.main_grown k e he)
  rw [htake] at hchain
  obtain ⟨rfl, hpoint⟩ := List.append_inj' hchain rfl
  exact congrArg ChainPoint.cumulativeDifficulty (List.cons.inj hpoint).1

/-- `recalculate_difficulties` from any height finds the required difficulties and leaves
    everything as it is. -/
theorem recalculate (h : n.Traced A C known) (hC : C.HashesApart known)
    (hfits : ∀ e ∈ n.db.blocks, e.cumulativeDifficulty < 2 ^ 128) (hne : 1 ≤ n.db.height)
    {startHeight : Nat} (hstart : startHeight ≤ n.db.height) :
    ∃ r, n.recalculateDifficulties A startHeight = some (r, n) ∧
      r.newCumulativeDifficulties = [] ∧
      r.recalculatedDiffs = (List.range' startHeight (n.db.height - startHeight)).map
        fun k => requiredDifficulty A (n.db.points.take k) := by
  have hpresent : ¬ (n.db.height = 0 ∨ n.db.height < startHeight) := by omega
  have hat := Recalculation.at_start (h.workRecorded hC) hne hstart
  obtain ⟨r, hloop, hdrift, hunchanged, hdiffs⟩ := hat.loop h.hardFork.ready.getIdealVersion_eq
    (h.workRecorded hC) hfits rfl
  refine ⟨r, ?_, hunchanged, ?_⟩
  · unfold DifficultyNode.recalculateDifficulties
    rw [if_neg hpresent]
    dsimp only
    rw [hloop]
    simp only [Option.bind_eq_bind, Option.bind_some, hdrift]
    rfl
  · rw [hdiffs, List.length_drop]
    rfl

end DifficultyNode.Traced

/-! ## Agreement -/

/-- Every path to a difficulty gives what the chain below the block requires. -/
structure DifficultiesAgree (A : DifficultyAlgorithm) (C : Content) (n : DifficultyNode) :
    Prop where
  /-- With the caches as they are. -/
  next : ∃ n', n.getDifficultyForNextBlock A C = .ok (requiredDifficulty A n.db.points, n')
  /-- From the window that is kept, when another top hash is cached. -/
  incremental : ∀ other ≠ n.db.topBlockHash C, ∃ n',
    { n with difficultyForNextBlockTopHash := other }.getDifficultyForNextBlock A C =
      .ok (requiredDifficulty A n.db.points, n')
  /-- From the database, when no window is kept either. -/
  recomputed : ∀ other ≠ n.db.topBlockHash C, ∃ n',
    { n with difficultyForNextBlockTopHash := other, timestampsAndDifficultiesHeight := 0
      }.getDifficultyForNextBlock A C = .ok (requiredDifficulty A n.db.points, n')
  /-- For a chain up to any height, however it is split into the main chain of a database
      and an alternative chain. -/
  split : ∀ (db : BlockchainDB) (altChain : List AltEntry) (stop : Nat), 1 ≤ stop →
    stop ≤ db.height → (∀ front ∈ altChain.head?, front.height = stop) →
    db.points.take stop ++ altChain.map AltEntry.point =
      n.db.points.take (stop + altChain.length) →
    DifficultyNode.getNextDifficultyForAlternativeChain A n.hardFork.hf db altChain
      (stop + altChain.length) = requiredDifficulty A (n.db.points.take (stop + altChain.length))
  /-- For a block under a parent in either store. -/
  alternative : ∀ prevId prevHeight coins work altChain,
    parentData C n.db prevId = some (prevHeight, coins, work) →
    buildAltChain C n.db prevId = some altChain →
    ∃ stop, stop + altChain.length = prevHeight + 1 ∧
      topWork (n.db.points.take stop ++ altChain.map AltEntry.point) = work ∧
      DifficultyNode.getNextDifficultyForAlternativeChain A n.hardFork.hf n.db altChain
        (prevHeight + 1) =
          requiredDifficulty A (n.db.points.take stop ++ altChain.map AltEntry.point)
  /-- By a recalculation from any height, which changes nothing. -/
  recalculated : (∀ e ∈ n.db.blocks, e.cumulativeDifficulty < 2 ^ 128) →
    1 ≤ n.db.height → ∀ startHeight ≤ n.db.height,
    ∃ r, n.recalculateDifficulties A startHeight = some (r, n) ∧
      r.newCumulativeDifficulties = [] ∧
      r.recalculatedDiffs = (List.range' startHeight (n.db.height - startHeight)).map
        fun height => requiredDifficulty A (n.db.points.take height)

namespace DifficultyNode.Traced

variable {A : DifficultyAlgorithm} {C : Content} {known : List Block} {n : DifficultyNode}

theorem agree (h : n.Traced A C known) (hC : C.HashesApart known) : DifficultiesAgree A C n where
  next := by
    obtain ⟨n', hnext, -⟩ := h.next hC
    exact ⟨n', hnext⟩
  incremental other hother :=
    ⟨_, computed (n := { n with difficultyForNextBlockTopHash := other }) h.hardFork h.height_eq
      h.window hother.symm⟩
  recomputed other hother :=
    ⟨_, computed (n := { n with difficultyForNextBlockTopHash := other
                                timestampsAndDifficultiesHeight := 0 })
      h.hardFork h.height_eq (fun hne => absurd rfl hne) hother.symm⟩
  split db altChain stop hpos hstop hfront hchain := by
    rw [← hchain]
    exact getNextDifficultyForAlternativeChain_eq A h.hardFork.ready.getIdealVersion_eq hpos hstop
      hfront
  alternative prevId prevHeight coins work altChain hparent hbuild := by
    obtain ⟨stop, -, -, hheight, -, hwork, hdiff⟩ := h.alternative hC hparent hbuild
    exact ⟨stop, hheight, hwork, hdiff⟩
  recalculated hfits hne _ hstart := h.recalculate hC hfits hne hstart

end DifficultyNode.Traced

/-- After every run of additions, pops and alternative blocks, with queries in between, all
    difficulty paths agree. -/
theorem difficulties_agree (A : DifficultyAlgorithm) (C : Content) (calls : List DifficultyCall)
    (hC : C.HashesApart (calls.flatMap DifficultyCall.submitted)) :
    ∃ n, DifficultyNode.run A C calls = .ok n ∧ DifficultiesAgree A C n := by
  obtain ⟨n, hrun, h⟩ := DifficultyNode.Traced.run A hC
  exact ⟨n, hrun, h.agree hC⟩

/-- `next_difficulty` in its place. -/
def sourceAlgorithm : DifficultyAlgorithm where
  nextDifficulty := nextDifficulty
  on_empty _ := rfl

/-- A chain of four blocks, an alternative block at its top, a switch by one on that, and a
    pop, with queries and clean-ups. -/
def difficultyCalls : List DifficultyCall :=
  (trunk 4 ++
      [ sampleBlock 3 4 (sampleHash 2) (sampleReward 3) [],
        sampleBlock 4 5 (sampleHash 4) (sampleReward 4) [] ]).flatMap
      (fun b => [.addNewBlock b sampleEnv 2, .cleanup, .getDifficultyForNextBlock]) ++
    [.popBlocks 1, .getDifficultyForNextBlock]

theorem difficulties_agree_sample :
    ∃ n, DifficultyNode.run sourceAlgorithm sampleContent difficultyCalls = .ok n ∧
      n.db.blocks.map (·.cumulativeDifficulty) = [1, 2, 3, 153] ∧
      DifficultiesAgree sourceAlgorithm sampleContent n := by
  obtain ⟨n, hrun, hagree⟩ := difficulties_agree sourceAlgorithm sampleContent difficultyCalls
    ⟨by decide +kernel, by decide +kernel⟩
  refine ⟨n, hrun, ?_, hagree⟩
  have hwork : (DifficultyNode.run sourceAlgorithm sampleContent difficultyCalls).map
      (·.db.blocks.map (·.cumulativeDifficulty)) = .ok [1, 2, 3, 153] := by decide +kernel
  rw [hrun] at hwork
  exact Except.ok.inj hwork

end RandomLite.Monero
