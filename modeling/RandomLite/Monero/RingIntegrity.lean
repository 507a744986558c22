-- SUMMARY: What the input checks guarantee of rings: sizes always, distinct and mature members when the offsets do not wrap.
import Mathlib.Data.List.Pairwise
import RandomLite.Monero.HardForkInvariant
import RandomLite.Monero.TransactionInputs

/-!
# Ring integrity

A ring is stored as relative offsets. The checks ask every offset after the first to
be non-zero, and the last member to be old enough. Outputs of an amount are numbered
in the order of their heights, so both say what they mean as long as the absolute
indices increase, that is (`TxInToKey.fits_iff`), as long as their 64-bit sums do not wrap.
-/

namespace RandomLite.Monero

/-! ## Outputs in the order of their heights -/

theorem outputsFrom_height (amount : UInt64) (height : Nat) (chain : OutputChain) :
    ∀ o ∈ outputsFrom amount height chain, height ≤ o.height := by
  induction chain generalizing height with
  | nil => simp [outputsFrom]
  | cons created rest ih =>
    intro o ho
    rcases List.mem_append.mp ho with ho | ho
    · obtain ⟨c, -, rfl⟩ := List.mem_map.mp ho
      exact Nat.le_refl _
    · exact Nat.le_of_succ_le (ih (height + 1) o ho)

theorem outputsFrom_sorted (amount : UInt64) (height : Nat) (chain : OutputChain) :
    (outputsFrom amount height chain).Pairwise fun o o' => o.height ≤ o'.height := by
  induction chain generalizing height with
  | nil => exact .nil
  | cons created rest ih =>
    refine List.pairwise_append.mpr ⟨?_, ih (height + 1), ?_⟩
    · rw [List.pairwise_map]
      exact List.pairwise_of_forall fun _ _ => Nat.le_refl height
    · intro o ho o' ho'
      obtain ⟨c, -, rfl⟩ := List.mem_map.mp ho
      exact Nat.le_of_succ_le (outputsFrom_height amount (height + 1) rest o' ho')

theorem outputsFrom_append (amount : UInt64) (height : Nat) (chain more : OutputChain) :
    outputsFrom amount height (chain ++ more) =
      outputsFrom amount height chain ++ outputsFrom amount (height + chain.length) more := by
  induction chain generalizing height with
  | nil => rfl
  | cons created rest ih =>
    rw [List.cons_append, outputsFrom, outputsFrom, ih, List.append_assoc, List.length_cons,
      Nat.add_assoc, Nat.add_comm 1]

namespace OutputChain

variable {chain : OutputChain} {amount : UInt64}

/-- A later output is not lower. -/
theorem getOutputKey_mono {i j : UInt64} (hij : i ≤ j) {o o' : OutputData}
    (hi : chain.getOutputKey amount i = some o) (hj : chain.getOutputKey amount j = some o') :
    o.height ≤ o'.height := by
  unfold getOutputKey at hi hj
  obtain ⟨hilt, ho⟩ := List.getElem?_eq_some_iff.mp hi
  obtain ⟨hjlt, ho'⟩ := List.getElem?_eq_some_iff.mp hj
  rcases Nat.lt_or_eq_of_le (UInt64.le_iff_toNat_le.mp hij) with hlt | heq
  · rw [← ho, ← ho']
    exact List.pairwise_iff_getElem.mp (outputsFrom_sorted amount 0 chain) _ _ hilt hjlt hlt
  · rw [heq, hj, Option.some.injEq] at hi
    rw [hi]

/-- Outputs stay where they are while the chain grows. -/
theorem getOutputKey_of_grown {chain' : OutputChain} (h : chain' <+: chain) {index : UInt64}
    {o : OutputData} (ho : chain'.getOutputKey amount index = some o) :
    chain.getOutputKey amount index = some o := by
  obtain ⟨more, rfl⟩ := h
  unfold getOutputKey at ho ⊢
  obtain ⟨hlt, -⟩ := List.getElem?_eq_some_iff.mp ho
  rw [outputsFrom_append, List.getElem?_append_left hlt, ho]

/-- The bulk query yields the outputs up to the first that does not exist. -/
theorem getOutputKeys_front (chain : OutputChain) (amount : UInt64) (indices : List UInt64) :
    (chain.getOutputKeys amount indices).map some <+: indices.map (chain.getOutputKey amount) := by
  induction indices with
  | nil => exact List.prefix_refl _
  | cons index rest ih =>
    rw [getOutputKeys, List.map_cons]
    split
    · rename_i o ho
      rw [ho, List.map_cons]
      exact (List.prefix_cons_inj _).mpr ih
    · exact List.nil_prefix

end OutputChain

/-! ## The outputs a scan visits -/

/-- The outputs are those of the ring, as far as they go. -/
def OutputsOf (chain : OutputChain) (i : TxInToKey) (outputs : List OutputData) : Prop :=
  outputs.map some <+:
    (relativeOutputOffsetsToAbsolute i.keyOffsets).map (chain.getOutputKey i.amount)

theorem visitOutputs_eq {S : SpendState} {hfVersion : UInt8} {amount : UInt64}
    {outputs visited : List OutputData} {indices : List UInt64}
    (h : outputs.map some <+: indices.map (S.chain.getOutputKey amount))
    (hvisit : visitOutputs S hfVersion amount outputs indices = some visited) :
    visited.map some = indices.map (S.chain.getOutputKey amount) := by
  induction indices generalizing outputs visited with
  | nil =>
    rw [visitOutputs, Option.some.injEq] at hvisit
    rw [← hvisit]
    rfl
  | cons index rest ih =>
    rw [visitOutputs] at hvisit
    split at hvisit
    · exact absurd hvisit (by simp)
    rename_i o ho
    split at hvisit
    · exact absurd hvisit (by simp)
    obtain ⟨tail, htail, rfl⟩ := Option.map_eq_some_iff.mp hvisit
    rw [List.map_cons, List.map_cons]
    cases outputs with
    | nil =>
      have hnil : ([] : List OutputData).map some <+: rest.map (S.chain.getOutputKey amount) :=
        List.nil_prefix
      rw [ih hnil htail]
      exact congrArg (· :: _) ho.symm
    | cons o' outputs =>
      rw [List.map_cons, List.map_cons, List.cons_prefix_cons] at h
      rw [ih h.2 htail, ← h.1]
      exact congrArg (· :: _) ho.symm

/-- What is looked up ahead for an input is the front of its ring. -/
theorem pickOutputs_front {chain : OutputChain} {amount : UInt64} (offsets indices : List UInt64) :
    (pickOutputs offsets (chain.getOutputKeys amount offsets) indices).map some <+:
      indices.map (chain.getOutputKey amount) := by
  induction indices with
  | nil => exact List.prefix_refl _
  | cons index rest ih =>
    rw [pickOutputs]
    split
    · rename_i hpos
      split
      · rename_i o ho
        have hmap : ((chain.getOutputKeys amount offsets).map some)[offsets.findIdx fun offset =>
            decide (index ≤ offset)]? = some (some o) := by
          rw [List.getElem?_map, ho]
          rfl
        obtain ⟨more, hmore⟩ := chain.getOutputKeys_front amount offsets
        obtain ⟨hlt, -⟩ := List.getElem?_eq_some_iff.mp hmap
        rw [← List.getElem?_append_left hlt, hmore, List.getElem?_map, hpos] at hmap
        rw [List.map_cons, List.map_cons, ← Option.some.inj hmap]
        exact (List.prefix_cons_inj _).mpr ih
      · exact List.nil_prefix
    · exact List.nil_prefix

/-- The state a transaction is checked in: the table was filled on the chain as it was
    then, which has only grown since (a pop clears it), and no other transaction in it
    has the same prefix hash as this one. -/
def SpendState.Prepared (S : SpendState) (K : InputChecks) (tx : SpendTx) : Prop :=
  ∃ chain₀ offsetMap txes,
    chain₀ <+: S.chain ∧
    S.scanTable = preparedScanTable chain₀ offsetMap K.getTransactionPrefixHash txes ∧
    ∀ tx' ∈ txes, K.getTransactionPrefixHash tx' = K.getTransactionPrefixHash tx → tx'.vin = tx.vin

/-- Key images tell the inputs of a transaction apart. -/
def SpendTx.DistinctImages (tx : SpendTx) : Prop :=
  ∀ i ∈ tx.rings, ∀ i' ∈ tx.rings, i.kImage = i'.kImage → i = i'

theorem OutputsOf.of_grown {chain chain₀ : OutputChain} (h : chain₀ <+: chain) {i : TxInToKey}
    {outputs : List OutputData} (ho : OutputsOf chain₀ i outputs) : OutputsOf chain i outputs := by
  unfold OutputsOf at ho ⊢
  generalize relativeOutputOffsetsToAbsolute i.keyOffsets = indices at ho ⊢
  induction outputs generalizing indices with
  | nil => exact List.nil_prefix
  | cons o outputs ih =>
    cases indices with
    | nil => exact absurd (List.prefix_nil.mp ho) (List.cons_ne_nil _ _)
    | cons index rest =>
      rw [List.map_cons, List.map_cons, List.cons_prefix_cons] at ho ⊢
      exact ⟨(OutputChain.getOutputKey_of_grown h ho.1.symm).symm, ih rest ho.2⟩

theorem SpendState.Prepared.outputsOf {S : SpendState} {K : InputChecks} {tx : SpendTx}
    (h : S.Prepared K tx) (himages : tx.DistinctImages) {i : TxInToKey} (hi : i ∈ tx.rings)
    {outputs : List OutputData}
    (hfind : findScanEntry S.scanTable (K.getTransactionPrefixHash tx) i.kImage = some outputs) :
    OutputsOf S.chain i outputs := by
  obtain ⟨chain₀, offsetMap, txes, hprefix, htable, hbinds⟩ := h
  obtain ⟨e, he, rfl⟩ := Option.map_eq_some_iff.mp hfind
  have hkey := List.find?_some he
  have hmem := List.mem_of_find?_eq_some he
  rw [htable, preparedScanTable, List.mem_flatMap] at hmem
  obtain ⟨tx', htx', hmem⟩ := hmem
  obtain ⟨i', hi', rfl⟩ := List.mem_map.mp hmem
  rw [Bool.and_eq_true, beq_iff_eq, beq_iff_eq] at hkey
  -- the entry was made for an input of this very transaction, the one with the key image
  have hvin := hbinds tx' htx' hkey.1
  have hrings : tx'.rings = tx.rings := congrArg (List.filterMap _) hvin
  rw [hrings] at hi'
  rw [himages i hi i' hi' hkey.2.symm]
  exact OutputsOf.of_grown hprefix (pickOutputs_front _ _)

theorem outputsAtHand_outputsOf {S : SpendState} {txPrefixHash : Hash} {i : TxInToKey}
    (htable : ∀ outputs, findScanEntry S.scanTable txPrefixHash i.kImage = some outputs →
      OutputsOf S.chain i outputs)
    {outputs : List OutputData} (h : outputsAtHand S txPrefixHash i = some outputs) :
    OutputsOf S.chain i outputs := by
  unfold outputsAtHand at h
  split at h
  · dsimp only at h
    split at h
    · exact absurd h (by simp)
    · rw [← Option.some.inj h]
      exact OutputChain.getOutputKeys_front _ _ _
  rename_i found hfound
  have hof := htable found hfound
  dsimp only at h
  split at h
  · split at h
    · exact absurd h (by simp)
    rw [← Option.some.inj h]
    -- what was missing is looked up from the first index not covered
    obtain ⟨more, hmore⟩ := hof
    have hdrop : ((relativeOutputOffsetsToAbsolute i.keyOffsets).drop found.length).map
        (S.chain.getOutputKey i.amount) = more := by
      rw [List.map_drop, ← hmore, List.drop_left' (List.length_map _)]
    have hadd := S.chain.getOutputKeys_front i.amount
      ((relativeOutputOffsetsToAbsolute i.keyOffsets).drop found.length)
    rw [hdrop] at hadd
    unfold OutputsOf
    rw [← hmore, List.map_append]
    exact (List.prefix_append_right_inj _).mpr hadd
  · rw [← Option.some.inj h]
    exact hof

/-! ## What an accepted input refers to -/

/-- Every index of the ring refers to an output, and these are the ones visited. -/
def Visited (chain : OutputChain) (i : TxInToKey) (visited : List OutputData) : Prop :=
  i.keyOffsets ≠ [] ∧
  visited.map some =
    (relativeOutputOffsetsToAbsolute i.keyOffsets).map (chain.getOutputKey i.amount)

theorem scanOutputkeysForIndexes_visited {S : SpendState} {hfVersion : UInt8} {txPrefixHash : Hash}
    {i : TxInToKey}
    (htable : ∀ outputs, findScanEntry S.scanTable txPrefixHash i.kImage = some outputs →
      OutputsOf S.chain i outputs)
    {visited : List OutputData}
    (h : scanOutputkeysForIndexes S hfVersion txPrefixHash i = some visited) :
    Visited S.chain i visited := by
  unfold scanOutputkeysForIndexes at h
  split at h
  · exact absurd h (by simp)
  rename_i hne
  split at h
  · exact absurd h (by simp)
  rename_i outputs hhand
  refine ⟨fun hnil => hne (List.isEmpty_iff.mpr hnil), ?_⟩
  exact visitOutputs_eq (outputsAtHand_outputsOf htable hhand) h

/-- The height of the last output visited, zero if there is none. -/
def lastHeight (visited : List OutputData) : Nat := (visited.getLast?.map (·.height)).getD 0

theorem checkTxInput_visited {S : SpendState} {hfVersion : UInt8} {txVersion : UInt64}
    {txPrefixHash : Hash} {signatureSize : Nat} {i : TxInToKey} {before : Nat}
    (htable : ∀ outputs, findScanEntry S.scanTable txPrefixHash i.kImage = some outputs →
      OutputsOf S.chain i outputs)
    {ring : List CtKey} {after : Nat}
    (h : checkTxInput S hfVersion txVersion txPrefixHash signatureSize i before =
      some (ring, after)) :
    ∃ visited, Visited S.chain i visited ∧ after = max before (lastHeight visited) := by
  unfold checkTxInput at h
  split at h
  · exact absurd h (by simp)
  rename_i visited hscan
  dsimp only at h
  split at h
  · exact absurd h (by simp)
  split at h
  · exact absurd h (by simp)
  obtain ⟨-, rfl⟩ := Prod.mk.inj (Option.some.inj h)
  exact ⟨visited, scanOutputkeysForIndexes_visited htable hscan, rfl⟩

/-- The loop over the inputs: all of them spend outputs, every ring refers to outputs,
    and the greatest height bounds that of every last member. -/
theorem checkEachInput_visited {K : InputChecks} {S : SpendState} {hfVersion : UInt8} {tx : SpendTx}
    {sigIndex before : Nat} {vin : List TxInV}
    (htable : ∀ i, TxInV.toKey i ∈ vin → ∀ outputs,
      findScanEntry S.scanTable (K.getTransactionPrefixHash tx) i.kImage = some outputs →
        OutputsOf S.chain i outputs)
    {pubkeys : List (List CtKey)} {after : Nat}
    (h : checkEachInput K S hfVersion tx sigIndex before vin = .ok (pubkeys, after)) :
    before ≤ after ∧ ∀ i, TxInV.toKey i ∈ vin →
      ∃ visited, Visited S.chain i visited ∧ lastHeight visited ≤ after := by
  induction vin generalizing sigIndex before pubkeys after with
  | nil =>
    obtain ⟨-, rfl⟩ := Prod.mk.inj (Except.ok.inj h)
    exact ⟨Nat.le_refl _, fun i hi => absurd hi List.not_mem_nil⟩
  | cons input rest ih =>
    cases input with
    | other => cases h
    | toKey i =>
      unfold checkEachInput at h
      split at h
      · cases h
      split at h
      · cases h
      split at h
      · cases h
      split at h
      · cases h
      rename_i ring height hinput
      split at h
      · cases h
      rename_i rings after' hrest
      obtain ⟨-, rfl⟩ := Prod.mk.inj (Except.ok.inj h)
      obtain ⟨visited, hvisited, rfl⟩ :=
        checkTxInput_visited (htable i List.mem_cons_self) hinput
      obtain ⟨hle, hall⟩ := ih (fun i' hi' => htable i' (List.mem_cons_of_mem _ hi')) hrest
      refine ⟨Nat.le_trans (Nat.le_max_left _ _) hle, fun i' hi' => ?_⟩
      rcases List.mem_cons.mp hi' with heq | hi'
      · cases heq
        exact ⟨visited, hvisited, Nat.le_trans (Nat.le_max_right _ _) hle⟩
      · exact hall i' hi'

/-! ## Key images in falling order -/

theorem checkSortedInputs_pairwise {last : Option KeyImage} {vin : List TxInV}
    (h : checkSortedInputs last vin = true) :
    (∀ k ∈ last, ∀ i, TxInV.toKey i ∈ vin → i.kImage.toList < k.toList) ∧
      (vin.filterMap TxInV.toKey?).Pairwise fun i i' => i'.kImage.toList < i.kImage.toList := by
  induction vin generalizing last with
  | nil => exact ⟨fun _ _ i hi => absurd hi List.not_mem_nil, .nil⟩
  | cons input rest ih =>
    cases input with
    | other =>
      obtain ⟨hlast, hrest⟩ := ih h
      refine ⟨fun k hk i hi => ?_, hrest⟩
      rcases List.mem_cons.mp hi with heq | hi
      · cases heq
      · exact hlast k hk i hi
    | toKey i =>
      have hrest : checkSortedInputs (some i.kImage) rest = true := by
        unfold checkSortedInputs at h
        split at h
        · split at h
          · cases h
          · exact h
        · exact h
      have hfalls : ∀ k ∈ last, i.kImage.toList < k.toList := by
        intro k hk
        cases hk
        unfold checkSortedInputs at h
        dsimp only at h
        split at h
        · cases h
        · rename_i hlt
          exact Decidable.not_not.mp hlt
      obtain ⟨hbelow, hpairs⟩ := ih hrest
      constructor
      · intro k hk i' hi'
        rcases List.mem_cons.mp hi' with heq | hi'
        · cases heq
          exact hfalls k hk
        · exact List.lt_trans (hbelow _ rfl i' hi') (hfalls k hk)
      · refine List.pairwise_cons.mpr ⟨fun i' hi' => ?_, hpairs⟩
        obtain ⟨input, hinput, hsome⟩ := List.mem_filterMap.mp hi'
        cases input with
        | other => cases hsome
        | toKey i'' =>
          cases hsome
          exact hbelow _ rfl _ hinput

theorem SpendTx.DistinctImages.of_sorted {tx : SpendTx}
    (h : checkSortedInputs none tx.vin = true) : tx.DistinctImages := by
  have hpairs := (checkSortedInputs_pairwise h).2
  have hne : tx.rings.Pairwise fun i i' => i.kImage ≠ i'.kImage := by
    refine List.Pairwise.imp ?_ hpairs
    intro i i' hlt heq
    rw [heq] at hlt
    exact List.lt_irrefl _ hlt
  have : Std.Symm fun i i' : TxInToKey => i.kImage ≠ i'.kImage := ⟨fun _ _ h => h.symm⟩
  intro i hi i' hi' heq
  by_contra hdiff
  exact List.Pairwise.forall hne hi hi' hdiff heq

/-! ## Counting ring sizes -/

section Count

variable {chain : OutputChain} {hfVersion : UInt8}

/-- The bounds of the count only widen, and hold of every ring counted. -/
theorem countMixin_bounds (m : MixinCount) (vin : List TxInV) :
    let m' := vin.foldl (countMixin chain hfVersion) m
    m'.minActualMixin ≤ m.minActualMixin ∧ m.maxActualMixin ≤ m'.maxActualMixin ∧
      ∀ i, TxInV.toKey i ∈ vin → m'.minActualMixin ≤ ringMixin i ∧ ringMixin i ≤ m'.maxActualMixin := by
  induction vin generalizing m with
  | nil => exact ⟨Nat.le_refl _, Nat.le_refl _, fun i hi => absurd hi List.not_mem_nil⟩
  | cons input rest ih =>
    obtain ⟨hmin, hmax, hall⟩ := ih (countMixin chain hfVersion m input)
    cases input with
    | other =>
      refine ⟨hmin, hmax, fun i hi => ?_⟩
      rcases List.mem_cons.mp hi with heq | hi
      · cases heq
      · exact hall i hi
    | toKey i =>
      have hfst : (countMixin chain hfVersion m (.toKey i)).minActualMixin =
          min (ringMixin i) m.minActualMixin := by
        unfold countMixin
        rw [Nat.min_def]
        grind
      have hsnd : (countMixin chain hfVersion m (.toKey i)).maxActualMixin =
          max m.maxActualMixin (ringMixin i) := by
        unfold countMixin
        rw [Nat.max_def]
        grind
      rw [hfst] at hmin
      rw [hsnd] at hmax
      refine ⟨Nat.le_trans hmin (Nat.min_le_right _ _),
        Nat.le_trans (Nat.le_max_left _ _) hmax, fun i' hi' => ?_⟩
      rcases List.mem_cons.mp hi' with heq | hi'
      · cases heq
        exact ⟨Nat.le_trans hmin (Nat.min_le_left _ _), Nat.le_trans (Nat.le_max_right _ _) hmax⟩
      · exact hall i' hi'

theorem countMixin_counts (m : MixinCount) (tx : SpendTx) :
    let m' := tx.vin.foldl (countMixin chain hfVersion) m
    m'.nUnmixable = m.nUnmixable + tx.rings.countP (isUnmixable chain hfVersion) ∧
      m'.nMixable = m.nMixable + tx.rings.countP fun i => !isUnmixable chain hfVersion i := by
  unfold SpendTx.rings
  generalize tx.vin = vin
  induction vin generalizing m with
  | nil => exact ⟨rfl, rfl⟩
  | cons input rest ih =>
    obtain ⟨hun, hmix⟩ := ih (countMixin chain hfVersion m input)
    rw [List.foldl_cons]
    dsimp only
    rw [hun, hmix]
    cases input with
    | other => exact ⟨rfl, rfl⟩
    | toKey i =>
      have hcons : (TxInV.toKey i :: rest).filterMap TxInV.toKey? =
          i :: rest.filterMap TxInV.toKey? := rfl
      rw [hcons, List.countP_cons, List.countP_cons]
      cases hi : isUnmixable chain hfVersion i with
      | true => simp only [countMixin, hi, if_true]; constructor <;> grind
      | false => simp only [countMixin, hi]; constructor <;> grind

end Count

/-- The exception of the ring-size rule: some input is of an amount too rare to mix, at
    most one is not. -/
def Excepted (chain : OutputChain) (tx : SpendTx) : Prop :=
  0 < tx.rings.countP (isUnmixable chain 16) ∧
    tx.rings.countP (fun i => !isUnmixable chain 16 i) ≤ 1

/-- A mixin of at most fifteen tells the number of ring members. -/
theorem length_of_ringMixin {i : TxInToKey} (h : ringMixin i ≤ 15) :
    i.keyOffsets.length = ringMixin i + 1 := by
  unfold ringMixin at h ⊢
  split at h
  · omega
  · rename_i hsome
    rw [if_neg hsome]
    omega

/-- What the ring-size rule of version 16 comes to: a common size less one. -/
theorem checkMixins_spec {chain : OutputChain} {tx : SpendTx} (h : checkMixins chain 16 tx = none) :
    ∃ mixin ≤ 15, (∀ i ∈ tx.rings, i.keyOffsets.length = mixin + 1) ∧
      (mixin = 15 ∨ Excepted chain tx) := by
  unfold checkMixins at h
  dsimp only at h
  obtain ⟨-, -, hbounds⟩ := @countMixin_bounds chain 16 {} tx.vin
  obtain ⟨hun, hmix⟩ := @countMixin_counts chain 16 {} tx
  generalize tx.vin.foldl (countMixin chain 16) {} = m at h hbounds hun hmix
  split at h
  · cases h
  rename_i hsame
  have hsame : m.minActualMixin = m.maxActualMixin := by
    by_contra hne
    exact hsame ⟨by decide, hne⟩
  have hring : ∀ i ∈ tx.rings, ringMixin i = m.minActualMixin := by
    intro i hi
    obtain ⟨hlow, hhigh⟩ := hbounds i (SpendTx.mem_rings.mp hi)
    rw [← hsame] at hhigh
    exact Nat.le_antisymm hhigh hlow
  have hsize : m.minActualMixin ≤ 15 → ∀ i ∈ tx.rings,
      i.keyOffsets.length = m.minActualMixin + 1 := by
    intro hle i hi
    rw [← hring i hi] at hle ⊢
    exact length_of_ringMixin hle
  have hmin : minMixin 16 = 15 := by decide
  rw [hmin] at h
  split at h
  · rename_i hlow
    split at h
    · cases h
    rename_i hsome
    split at h
    · cases h
    rename_i hfew
    have hle := Nat.le_of_lt hlow.1
    refine ⟨m.minActualMixin, hle, hsize hle, .inr ⟨?_, ?_⟩⟩
    · rw [hun, Nat.zero_add] at hsome
      exact Nat.pos_of_ne_zero hsome
    · rw [hmix, Nat.zero_add] at hfew
      exact Nat.le_of_not_lt hfew
  · rename_i hnotLow
    split at h
    · cases h
    rename_i hnotHigh
    have hge : 15 ≤ m.minActualMixin := by
      by_contra hlt
      exact hnotLow ⟨Nat.lt_of_not_le hlt, fun hgrace => absurd hgrace.1 (by decide)⟩
    have hle : m.minActualMixin ≤ 15 := by
      by_contra hgt
      exact hnotHigh (.inl ⟨by decide, Nat.lt_of_not_le hgt⟩)
    exact ⟨m.minActualMixin, hle, hsize hle, .inl (Nat.le_antisymm hle hge)⟩

/-! ## Ring integrity -/

/-- The absolute indices a ring refers to. -/
def TxInToKey.indices (i : TxInToKey) : List UInt64 := relativeOutputOffsetsToAbsolute i.keyOffsets

/-- Created at least ten blocks below the height of the chain. -/
def Mature (chain : OutputChain) (o : OutputData) : Prop :=
  o.height + cryptonoteDefaultTxSpendableAge ≤ chain.length

instance (chain : OutputChain) (o : OutputData) : Decidable (Mature chain o) :=
  inferInstanceAs (Decidable (_ ≤ _))

/-- What the ring-size rule is to bring about. -/
structure RingSizes (chain : OutputChain) (tx : SpendTx) : Prop where
  same_size : ∀ i ∈ tx.rings, ∀ i' ∈ tx.rings, i.keyOffsets.length = i'.keyOffsets.length
  size : ∀ i ∈ tx.rings,
    i.keyOffsets.length = 16 ∨ Excepted chain tx ∧ i.keyOffsets.length ≤ 16

/-- What the rings of an accepted transaction should satisfy. -/
structure RingIntegrity (chain : OutputChain) (tx : SpendTx) : Prop
    extends RingSizes chain tx where
  distinct : ∀ i ∈ tx.rings, i.indices.Nodup
  mature : ∀ i ∈ tx.rings, ∀ index ∈ i.indices,
    ∃ o, chain.getOutputKey i.amount index = some o ∧ Mature chain o

/-- The offsets add up to a 64-bit number. -/
def TxInToKey.Fits (i : TxInToKey) : Prop := (i.keyOffsets.map UInt64.toNat).sum < 2 ^ 64

instance (i : TxInToKey) : Decidable i.Fits :=
  inferInstanceAs (Decidable ((i.keyOffsets.map UInt64.toNat).sum < 2 ^ 64))

/-- Of offsets that are not zero after the first, this is exactly what makes the indices
    increase. -/
theorem TxInToKey.fits_iff {i : TxInToKey} (hdiff : ∀ offset ∈ i.keyOffsets.tail, offset ≠ 0) :
    i.Fits ↔ i.indices.Pairwise (· < ·) := by
  have hzero : (0 : UInt64).toNat + (i.keyOffsets.map UInt64.toNat).sum =
      (i.keyOffsets.map UInt64.toNat).sum := by simp
  constructor
  · intro hfits
    refine runningSums.pairwise_lt hdiff ?_
    rw [hzero]
    exact hfits
  · intro hincreasing
    have hfits := runningSums.fits_of_pairwise_lt (fun a _ => UInt64.zero_le) hincreasing
    rwa [hzero] at hfits

section Ring

variable {chain : OutputChain} {i : TxInToKey} {visited : List OutputData}

theorem Visited.indices_ne_nil (h : Visited chain i visited) : i.indices ≠ [] := by
  intro hnil
  have hlen := runningSums.length_eq 0 i.keyOffsets
  have hnil : runningSums 0 i.keyOffsets = [] := hnil
  rw [hnil, List.length_nil] at hlen
  exact h.1 (List.length_eq_zero_iff.mp hlen.symm)

theorem Visited.exists_output (h : Visited chain i visited) {index : UInt64}
    (hindex : index ∈ i.indices) : ∃ o, chain.getOutputKey i.amount index = some o := by
  have hmem : chain.getOutputKey i.amount index ∈ visited.map some := by
    rw [h.2]
    exact List.mem_map_of_mem hindex
  obtain ⟨o, -, ho⟩ := List.mem_map.mp hmem
  exact ⟨o, ho.symm⟩

theorem Visited.lastHeight_eq (h : Visited chain i visited) {o : OutputData}
    (ho : chain.getOutputKey i.amount (i.indices.getLast h.indices_ne_nil) = some o) :
    lastHeight visited = o.height := by
  have hlast : (visited.map some).getLast? = (i.indices.map (chain.getOutputKey i.amount)).getLast? :=
    congrArg List.getLast? h.2
  rw [List.getLast?_map, List.getLast?_map, List.getLast?_eq_some_getLast h.indices_ne_nil,
    Option.map_some, ho] at hlast
  obtain ⟨o', ho', hsome⟩ := Option.map_eq_some_iff.mp hlast
  cases hsome
  unfold lastHeight
  rw [ho']
  rfl

/-- Increasing indices: distinct members, the last of them the youngest. -/
theorem Visited.of_increasing (h : Visited chain i visited)
    (hincreasing : i.indices.Pairwise (· < ·))
    (hage : lastHeight visited + cryptonoteDefaultTxSpendableAge ≤ chain.length) :
    i.indices.Nodup ∧
      ∀ index ∈ i.indices, ∃ o, chain.getOutputKey i.amount index = some o ∧ Mature chain o := by
  have hne := h.indices_ne_nil
  have hlast : ∀ index ∈ i.indices, index ≤ i.indices.getLast hne := by
    intro index hindex
    rw [← List.dropLast_append_getLast hne] at hindex hincreasing
    rcases List.mem_append.mp hindex with hmem | hmem
    · exact UInt64.le_of_lt ((List.pairwise_append.mp hincreasing).2.2 index hmem _ (by simp))
    · rw [List.mem_singleton.mp hmem]
      exact UInt64.le_refl _
  obtain ⟨o, ho⟩ := h.exists_output (List.getLast_mem hne)
  rw [h.lastHeight_eq ho] at hage
  refine ⟨hincreasing.imp fun hab => UInt64.ne_of_lt hab, fun index hindex => ?_⟩
  obtain ⟨o', ho'⟩ := h.exists_output hindex
  have hle := OutputChain.getOutputKey_mono (hlast index hindex) ho' ho
  exact ⟨o', ho', Nat.le_trans (Nat.add_le_add_right hle _) hage⟩

end Ring

theorem offsets_ne_zero {tx : SpendTx}
    (h : checkTxInputsRingMembersDiff tx 16 = true) {i : TxInToKey} (hi : i ∈ tx.rings) :
    ∀ offset ∈ i.keyOffsets.tail, offset ≠ 0 := by
  unfold checkTxInputsRingMembersDiff at h
  rw [if_pos (by decide), List.all_eq_true] at h
  have hring := h _ (SpendTx.mem_rings.mp hi)
  intro offset hoffset
  exact bne_iff_ne.mp (List.all_eq_true.mp hring offset hoffset)

/-- What acceptance by `check_tx_inputs` under version 16 says of the rings. -/
theorem checkTxInputs_spec {K : InputChecks} {S : SpendState} {tx : SpendTx} {id : Hash}
    (hprepared : S.Prepared K tx) {r : Nat × Hash} (h : checkTxInputs K S 16 tx id = .ok r) :
    checkMixins S.chain 16 tx = none ∧
      ∀ i ∈ tx.rings, ∃ visited, Visited S.chain i visited ∧
        lastHeight visited + cryptonoteDefaultTxSpendableAge ≤ S.chain.length := by
  unfold checkTxInputs at h
  split at h
  · cases h
  split at h
  · cases h
  rename_i hmixins
  rw [if_pos (by decide)] at hmixins
  split at h
  · cases h
  rename_i hsorted
  have hsorted : checkSortedInputs none tx.vin = true := by
    by_contra hnot
    exact hsorted ⟨by decide, by simpa using hnot⟩
  split at h
  · cases h
  rename_i pubkeys height heach
  split at h
  · cases h
  rename_i hage
  have hage : height + cryptonoteDefaultTxSpendableAge ≤ S.chain.length := by
    by_contra hyoung
    exact hage ⟨by decide, hyoung⟩
  have himages := SpendTx.DistinctImages.of_sorted hsorted
  obtain ⟨-, hall⟩ := checkEachInput_visited
    (fun i hi _ hfind => hprepared.outputsOf himages (SpendTx.mem_rings.mpr hi) hfind) heach
  refine ⟨hmixins, fun i hi => ?_⟩
  obtain ⟨visited, hvisited, hle⟩ := hall i (SpendTx.mem_rings.mp hi)
  exact ⟨visited, hvisited, Nat.le_trans (Nat.add_le_add_right hle _) hage⟩

/-- The ring sizes of a transaction that passes the checks are right in any case, and its
    rings are as they should be when the offsets of none of them wrap. -/
theorem ringIntegrity_of_fits {K : InputChecks} {S : SpendState} {tx : SpendTx} {id : Hash}
    {r : Nat × Hash} (hversion : versionAt S.chain.length = 16) (hprepared : S.Prepared K tx)
    (hdiff : checkTxInputsRingMembersDiff tx (versionAt S.chain.length) = true)
    (haccept : checkTxInputs K S (versionAt S.chain.length) tx id = .ok r) :
    RingSizes S.chain tx ∧ ((∀ i ∈ tx.rings, i.Fits) → RingIntegrity S.chain tx) := by
  rw [hversion] at hdiff haccept
  obtain ⟨hmixins, hvisited⟩ := checkTxInputs_spec hprepared haccept
  obtain ⟨mixin, hle, hsize, hrule⟩ := checkMixins_spec hmixins
  have hsizes : RingSizes S.chain tx := by
    refine ⟨?_, ?_⟩
    · intro i hi i' hi'
      rw [hsize i hi, hsize i' hi']
    · intro i hi
      rw [hsize i hi]
      rcases hrule with rfl | hexcepted
      · exact .inl rfl
      · exact .inr ⟨hexcepted, Nat.succ_le_succ hle⟩
  refine ⟨hsizes, fun hfits => ?_⟩
  have hring : ∀ i ∈ tx.rings, i.indices.Nodup ∧
      ∀ index ∈ i.indices, ∃ o, S.chain.getOutputKey i.amount index = some o ∧ Mature S.chain o := by
    intro i hi
    obtain ⟨visited, hof, hage⟩ := hvisited i hi
    exact hof.of_increasing ((TxInToKey.fits_iff (offsets_ne_zero hdiff hi)).mp (hfits i hi)) hage
  exact { hsizes with
    distinct := fun i hi => (hring i hi).1
    mature := fun i hi => (hring i hi).2 }

/-! ## Samples -/

/-- Checks that accept every signature. -/
def acceptingChecks : InputChecks where
  getTransactionHash := fun _ => nullHash
  getTransactionPrefixHash := fun _ => nullHash
  makeInputVerificationId := fun _ _ => nullHash
  verInputProofsRings := fun _ _ => true

/-- An output of amount zero that a transaction creates. -/
def createdOutput (unlockTime : UInt64) : CreatedOutput :=
  { amount := 0, pubkey := Vector.replicate 32 0, unlockTime, commitment := Vector.replicate 32 0 }

/-- The first `n` blocks of a chain, each with the output of its miner: two of version 1
    with the amounts in the open, and from height 2 on amounts of zero. The outputs of
    other transactions are listed by height. -/
def minedOutputs (n : Nat) (others : Nat → List CreatedOutput) : OutputChain :=
  (List.range n).map fun h =>
    { createdOutput (UInt64.ofNat h + 10) with
      amount := if h = 0 then 17547607421875 else if h = 1 then 17547590687172 else 0 } :: others h

/-- Forty-two blocks, a transaction with two outputs in the newest; nothing looked up ahead. -/
def youngOutputs : SpendState where
  chain := minedOutputs 42 fun h => if h = 41 then [createdOutput 0, createdOutput 0] else []
  scanTable := []
  haveTxKeyimgAsSpent := fun _ => false
  currentTime := 0

theorem youngOutputs_prepared (tx : SpendTx) : youngOutputs.Prepared acceptingChecks tx :=
  ⟨[], fun _ => [], [], List.nil_prefix, rfl, fun _ h => absurd h List.not_mem_nil⟩

/-- One ring with these offsets, two outputs. -/
def spendOf (offsets : List UInt64) : SpendTx where
  version := 2
  vin := [.toKey { amount := 0, keyOffsets := offsets, kImage := Vector.replicate 32 1 }]
  voutSize := 2
  signatureSizes := []
  rest := []

/-- The indices 5, 40, 5, 6, 5, 6, and so on. -/
def wrappedOffsets : List UInt64 := [5, 35, -35, 1, -1, 1, -1, 1, -1, 1, -1, 1, -1, 1, -1, 1]

/-- The members of a ring with offsets that do not wrap, sixteen different ones. -/
theorem ringIntegrity_of_fits_sample :
    RingIntegrity youngOutputs.chain (spendOf (List.replicate 16 1)) := by
  have haccept : checkTxInputs acceptingChecks youngOutputs (versionAt youngOutputs.chain.length)
      (spendOf (List.replicate 16 1)) nullHash = .ok (18, nullHash) := by decide +kernel
  exact (ringIntegrity_of_fits (by decide) (youngOutputs_prepared _) (by decide +kernel)
    haccept).2 (by decide +kernel)

/-- A ring of sixteen with three different members, one of them in the newest block. -/
theorem ringIntegrity_fails :
    ∃ K S tx id r, versionAt S.chain.length = 16 ∧ SpendState.Prepared S K tx ∧
      checkTxInputsRingMembersDiff tx (versionAt S.chain.length) = true ∧
      checkTxInputs K S (versionAt S.chain.length) tx id = .ok r ∧
      ∃ i ∈ tx.rings, ¬ i.indices.Nodup ∧ ∃ index ∈ i.indices, ∃ o,
        S.chain.getOutputKey i.amount index = some o ∧ ¬ Mature S.chain o := by
  refine ⟨acceptingChecks, youngOutputs, spendOf wrappedOffsets, nullHash, (8, nullHash),
    by decide, youngOutputs_prepared _, by decide +kernel, by decide +kernel,
    _, List.mem_cons_self, by decide +kernel, 40, by decide +kernel,
    (createdOutput 0).data 41, by decide +kernel, by decide⟩

end RandomLite.Monero
