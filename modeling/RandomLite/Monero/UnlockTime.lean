-- SUMMARY: What the answer of the input checks owes to the clock of the node.
import RandomLite.Monero.BlockTemplate
import RandomLite.Monero.RingIntegrity

/-!
# Unlock times

`is_tx_spendtime_unlocked` judges an output locked until a unix time by
`get_adjusted_time`, which reads the chain once it has 60 blocks and the clock before
that. The checks of a transaction's inputs split into those on such locks and all
others, which never ask for the time.
-/

namespace RandomLite.Monero

/-! ## The adjusted time -/

/-- `get_adjusted_time`, from the timestamps of the chain and the clock. -/
def getAdjustedTime (timestamps : List UInt64) (height : Nat) (clock : UInt64) : UInt64 :=
  -- if not enough blocks, no proper median yet, return current time
  if height < timestampCheckWindow then clock
  else
    let window :=
      ((timestamps.drop (height - timestampCheckWindow)).take timestampCheckWindow).map UInt64.toNat
    -- `median` sorts the vector it is given, so `back()` is the greatest of the timestamps and
    -- not the previous block's
    let sorted := window.insertionSort (· ≤ ·)
    let medianTs := UInt64.ofNat (median window) + (60 + 1) * 150 / 2
    let adjustedCurrentBlockTs := UInt64.ofNat (sorted.getLastD 0) + 150
    if adjustedCurrentBlockTs < medianTs then adjustedCurrentBlockTs else medianTs

/-- A node as far as the input checks look at it, but for its clock. -/
structure ClockedNode where
  chain : OutputChain
  timestamps : List UInt64
  length_timestamps : timestamps.length = chain.length
  scanTable : List ScanEntry
  haveTxKeyimgAsSpent : KeyImage → Bool

namespace ClockedNode

def height (n : ClockedNode) : Nat := n.chain.length

/-- What the checks of the next block's transactions look at, at a reading of the clock. -/
def spendState (n : ClockedNode) (clock : UInt64) : SpendState where
  chain := n.chain
  scanTable := n.scanTable
  haveTxKeyimgAsSpent := n.haveTxKeyimgAsSpent
  currentTime :=
    if versionAt n.height ≥ 13 then getAdjustedTime n.timestamps n.height clock else clock

/-- The answer of `check_tx_inputs` under the version of the next block: the greatest
    height used and the verification id, or a refusal. -/
def answer (K : InputChecks) (n : ClockedNode) (tx : SpendTx) (id : Hash) (clock : UInt64) :
    Option (Nat × Hash) :=
  (checkTxInputs K (n.spendState clock) (versionAt n.height) tx id).toOption

end ClockedNode

/-! ## The checks that do not ask for the time -/

/-- The lock of an output, if it is until a unix time: `CRYPTONOTE_MAX_BLOCK_NUMBER` or more. -/
def OutputData.TimeLocked (o : OutputData) : Prop := 500000000 ≤ o.unlockTime

instance (o : OutputData) : Decidable o.TimeLocked :=
  inferInstanceAs (Decidable (500000000 ≤ o.unlockTime))

/-- The lock of an output until a block, if it has one, is over. -/
def OutputData.HeightUnlocked (chain : OutputChain) (o : OutputData) : Prop :=
  o.unlockTime < 500000000 → o.unlockTime ≤ UInt64.ofNat chain.length - 1 + 1

/-- The lock of an output until a unix time, if it has one, is over, at version 16. -/
def OutputData.TimeUnlocked (currentTime : UInt64) (o : OutputData) : Prop :=
  o.TimeLocked → o.unlockTime ≤ currentTime + 150

theorem isTxSpendtimeUnlocked_iff (S : SpendState) (o : OutputData) :
    isTxSpendtimeUnlocked S 16 o.unlockTime = true ↔
      o.HeightUnlocked S.chain ∧ o.TimeUnlocked S.currentTime := by
  unfold isTxSpendtimeUnlocked OutputData.HeightUnlocked OutputData.TimeUnlocked OutputData.TimeLocked
  by_cases h : o.unlockTime < 500000000
  · have hnot : ¬ 500000000 ≤ o.unlockTime := UInt64.not_le.mpr h
    rw [if_pos h, decide_eq_true_iff]
    exact ⟨fun hle => ⟨fun _ => hle, fun hlocked => absurd hlocked hnot⟩, fun hboth => hboth.1 h⟩
  · have hlocked : 500000000 ≤ o.unlockTime := UInt64.not_lt.mp h
    rw [if_neg h, if_neg (by decide), decide_eq_true_iff]
    exact ⟨fun hle => ⟨fun hlt => absurd hlt h, fun _ => hle⟩, fun hboth => hboth.2 hlocked⟩

/-- No lock runs past the last times of the clock. -/
theorem OutputData.timeUnlocked_last (o : OutputData) : o.TimeUnlocked (0 - 151) := by
  intro _
  apply UInt64.le_iff_toNat_le.mpr
  have hlt := o.unlockTime.toNat_lt
  have hlast : ((0 : UInt64) - 151 + 150).toNat = 2 ^ 64 - 1 := by decide
  omega

/-- A lock until a unix time is not over at the first. -/
theorem OutputData.TimeLocked.not_timeUnlocked_zero {o : OutputData} (h : o.TimeLocked) :
    ¬ o.TimeUnlocked 0 := by
  intro hunlocked
  have hle := UInt64.le_trans h (hunlocked h)
  revert hle
  decide

/-- The outputs the loop of `scan_outputkeys_for_indexes` comes by, locks aside. -/
def ringMembers (chain : OutputChain) (amount : UInt64) :
    List OutputData → List UInt64 → Option (List OutputData)
  | _, [] => some []
  | outputs, index :: rest =>
    match outputs.head? <|> chain.getOutputKey amount index with
    | none => none
    | some o => (ringMembers chain amount outputs.tail rest).map (o :: ·)

theorem length_ringMembers {chain : OutputChain} {amount : UInt64} {outputs ring : List OutputData}
    {indices : List UInt64} (h : ringMembers chain amount outputs indices = some ring) :
    ring.length = indices.length := by
  induction indices generalizing outputs ring with
  | nil =>
    cases h
    rfl
  | cons index rest ih =>
    unfold ringMembers at h
    split at h
    · cases h
    obtain ⟨tail, htail, rfl⟩ := Option.map_eq_some_iff.mp h
    rw [List.length_cons, List.length_cons, ih htail]

/-- The loop visits the members of the ring, if none of them is locked. -/
theorem visitOutputs_iff {S : SpendState} {amount : UInt64} {outputs visited : List OutputData}
    {indices : List UInt64} :
    visitOutputs S 16 amount outputs indices = some visited ↔
      ringMembers S.chain amount outputs indices = some visited ∧
        ∀ o ∈ visited, isTxSpendtimeUnlocked S 16 o.unlockTime = true := by
  induction indices generalizing outputs visited with
  | nil =>
    simp only [visitOutputs, ringMembers, Option.some.injEq]
    constructor
    · rintro rfl
      exact ⟨rfl, fun o ho => absurd ho List.not_mem_nil⟩
    · exact fun h => h.1
  | cons index rest ih =>
    unfold visitOutputs ringMembers
    cases hnext : (outputs.head? <|> S.chain.getOutputKey amount index) with
    | none => simp
    | some o =>
      simp only [Option.map_eq_some_iff]
      constructor
      · intro h
        split at h
        · cases h
        rename_i hunlocked
        obtain ⟨tail, htail, rfl⟩ := Option.map_eq_some_iff.mp h
        obtain ⟨hring, hall⟩ := ih.mp htail
        refine ⟨⟨tail, hring, rfl⟩, ?_⟩
        intro o' ho'
        rcases List.mem_cons.mp ho' with rfl | ho'
        · simpa using hunlocked
        · exact hall o' ho'
      · rintro ⟨⟨tail, hring, rfl⟩, hall⟩
        have hfirst := hall o List.mem_cons_self
        rw [if_neg (by simp [hfirst])]
        refine Option.map_eq_some_iff.mpr ⟨tail, ?_, rfl⟩
        exact ih.mpr ⟨hring, fun o' ho' => hall o' (List.mem_cons_of_mem _ ho')⟩

/-- The ring an input refers to, locks aside. -/
def ringOf (S : SpendState) (txPrefixHash : Hash) (i : TxInToKey) : Option (List OutputData) :=
  if i.keyOffsets.isEmpty then none
  else
    match outputsAtHand S txPrefixHash i with
    | none => none
    | some outputs =>
      ringMembers S.chain i.amount outputs (relativeOutputOffsetsToAbsolute i.keyOffsets)

theorem length_ringOf {S : SpendState} {txPrefixHash : Hash} {i : TxInToKey}
    {ring : List OutputData} (h : ringOf S txPrefixHash i = some ring) :
    ring.length = i.keyOffsets.length := by
  unfold ringOf at h
  split at h
  · cases h
  split at h
  · cases h
  rw [length_ringMembers h, relativeOutputOffsetsToAbsolute, runningSums.length_eq]

theorem scanOutputkeysForIndexes_iff {S : SpendState} {txPrefixHash : Hash} {i : TxInToKey}
    {ring : List OutputData} :
    scanOutputkeysForIndexes S 16 txPrefixHash i = some ring ↔
      ringOf S txPrefixHash i = some ring ∧
        ∀ o ∈ ring, isTxSpendtimeUnlocked S 16 o.unlockTime = true := by
  unfold scanOutputkeysForIndexes ringOf
  split
  · simp
  · cases outputsAtHand S txPrefixHash i with
    | none => simp
    | some outputs => exact visitOutputs_iff

/-- The keys of a ring as the signature check sees them. -/
def ctKeys (ring : List OutputData) : List CtKey := ring.map fun o => (o.pubkey, o.commitment)

/-- An input, with its ring, that passes every check but those on its members' locks
    until a unix time. -/
structure InputPasses (K : InputChecks) (S : SpendState) (tx : SpendTx) (sigIndex : Nat)
    (i : TxInToKey) (ring : List OutputData) : Prop where
  found : ringOf S (K.getTransactionPrefixHash tx) i = some ring
  unspent : S.haveTxKeyimgAsSpent i.kImage = false
  signatures : tx.version = 1 →
    sigIndex < tx.signatureSizes.length ∧ tx.signatureSizes.getD sigIndex 0 = ring.length
  heights : ∀ o ∈ ring, o.HeightUnlocked S.chain

/-- All inputs from `sigIndex` on pass in this way. -/
inductive InputsPass (K : InputChecks) (S : SpendState) (tx : SpendTx) :
    Nat → List TxInV → List (List OutputData) → Prop
  | nil (sigIndex : Nat) : InputsPass K S tx sigIndex [] []
  | cons {sigIndex : Nat} {i : TxInToKey} {ring : List OutputData} {vin : List TxInV}
      {rings : List (List OutputData)} :
      InputPasses K S tx sigIndex i ring → InputsPass K S tx (sigIndex + 1) vin rings →
        InputsPass K S tx sigIndex (.toKey i :: vin) (ring :: rings)

/-- The rings of a transaction are determined. -/
theorem InputsPass.unique {K : InputChecks} {S : SpendState} {tx : SpendTx} {sigIndex : Nat}
    {vin : List TxInV} {rings rings' : List (List OutputData)}
    (h : InputsPass K S tx sigIndex vin rings) (h' : InputsPass K S tx sigIndex vin rings') :
    rings = rings' := by
  induction h generalizing rings' with
  | nil sigIndex =>
    cases h'
    rfl
  | cons hinput _ ih =>
    cases h' with
    | cons hinput' hrest' =>
      have hring := hinput.found.symm.trans hinput'.found
      rw [Option.some.inj hring, ih hrest']

/-- The greatest height of a ring's last member, from a height on. -/
def maxUsedHeight (before : Nat) (rings : List (List OutputData)) : Nat :=
  rings.foldl (fun height ring => max height (lastHeight ring)) before

/-- Every member whose lock runs until a unix time is unlocked. -/
def AllTimeUnlocked (currentTime : UInt64) (rings : List (List OutputData)) : Prop :=
  ∀ ring ∈ rings, ∀ o ∈ ring, o.TimeUnlocked currentTime

theorem checkTxInput_iff {K : InputChecks} {S : SpendState} {tx : SpendTx} {sigIndex before : Nat}
    {i : TxInToKey} (hspent : S.haveTxKeyimgAsSpent i.kImage = false)
    (hsig : tx.version = 1 → sigIndex < tx.signatureSizes.length) {keys : List CtKey} {after : Nat} :
    checkTxInput S 16 tx.version (K.getTransactionPrefixHash tx)
        (tx.signatureSizes.getD sigIndex 0) i before = some (keys, after) ↔
      ∃ ring, InputPasses K S tx sigIndex i ring ∧ (∀ o ∈ ring, o.TimeUnlocked S.currentTime) ∧
        keys = ctKeys ring ∧ after = max before (lastHeight ring) := by
  unfold checkTxInput
  constructor
  · intro h
    split at h
    · cases h
    rename_i ring hscan
    obtain ⟨hfound, hunlocked⟩ := scanOutputkeysForIndexes_iff.mp hscan
    dsimp only at h
    split at h
    · cases h
    split at h
    · cases h
    rename_i hsizes
    obtain ⟨rfl, rfl⟩ := Prod.mk.inj (Option.some.inj h)
    have hlocks : ∀ o ∈ ring, o.HeightUnlocked S.chain ∧ o.TimeUnlocked S.currentTime :=
      fun o ho => (isTxSpendtimeUnlocked_iff S o).mp (hunlocked o ho)
    refine ⟨ring, ⟨hfound, hspent, ?_, fun o ho => (hlocks o ho).1⟩, fun o ho => (hlocks o ho).2,
      rfl, rfl⟩
    intro hversion
    refine ⟨hsig hversion, ?_⟩
    by_contra hne
    exact hsizes ⟨hversion, by simpa using hne⟩
  · rintro ⟨ring, hpasses, htimes, rfl, rfl⟩
    have hunlocked : ∀ o ∈ ring, isTxSpendtimeUnlocked S 16 o.unlockTime = true :=
      fun o ho => (isTxSpendtimeUnlocked_iff S o).mpr ⟨hpasses.heights o ho, htimes o ho⟩
    have hscan := scanOutputkeysForIndexes_iff.mpr ⟨hpasses.found, hunlocked⟩
    have hlength := length_ringOf hpasses.found
    have hsizes : ¬ (tx.version = 1 ∧ tx.signatureSizes.getD sigIndex 0 ≠ ring.length) :=
      fun hbad => hbad.2 (hpasses.signatures hbad.1).2
    rw [hscan]
    dsimp only
    rw [if_neg (by simp [hlength]), if_neg (by simpa using hsizes)]
    rfl

/-- One turn of the loop over the inputs. -/
theorem checkEachInput_cons_iff {K : InputChecks} {S : SpendState} {tx : SpendTx}
    {sigIndex before : Nat} {i : TxInToKey} {rest : List TxInV} {pubkeys : List (List CtKey)}
    {after : Nat} :
    checkEachInput K S 16 tx sigIndex before (.toKey i :: rest) = .ok (pubkeys, after) ↔
      ∃ ring pubkeys', InputPasses K S tx sigIndex i ring ∧
        (∀ o ∈ ring, o.TimeUnlocked S.currentTime) ∧
        checkEachInput K S 16 tx (sigIndex + 1) (max before (lastHeight ring)) rest =
          .ok (pubkeys', after) ∧
        pubkeys = ctKeys ring :: pubkeys' := by
  constructor
  · intro h
    unfold checkEachInput at h
    split at h
    · cases h
    split at h
    · cases h
    rename_i hspent
    split at h
    · cases h
    rename_i hsig
    split at h
    · cases h
    rename_i keys height hinput
    split at h
    · cases h
    rename_i rings after' hrest
    obtain ⟨rfl, rfl⟩ := Prod.mk.inj (Except.ok.inj h)
    have hsig' : tx.version = 1 → sigIndex < tx.signatureSizes.length := by
      intro hversion
      by_contra hge
      exact hsig ⟨hversion, hge⟩
    obtain ⟨ring, hpasses, htimes, rfl, rfl⟩ :=
      (checkTxInput_iff (by simpa using hspent) hsig').mp hinput
    exact ⟨ring, rings, hpasses, htimes, hrest, rfl⟩
  · rintro ⟨ring, pubkeys', hpasses, htimes, hrest, rfl⟩
    have hnonempty : ¬ i.keyOffsets.isEmpty = true := by
      intro hempty
      have hfound := hpasses.found
      unfold ringOf at hfound
      rw [if_pos hempty] at hfound
      cases hfound
    have hsig : ¬ (tx.version = 1 ∧ ¬ sigIndex < tx.signatureSizes.length) :=
      fun hbad => hbad.2 (hpasses.signatures hbad.1).1
    have hinput : checkTxInput S 16 tx.version (K.getTransactionPrefixHash tx)
        (tx.signatureSizes.getD sigIndex 0) i before =
          some (ctKeys ring, max before (lastHeight ring)) :=
      (checkTxInput_iff hpasses.unspent fun hversion => (hpasses.signatures hversion).1).mpr
        ⟨ring, hpasses, htimes, rfl, rfl⟩
    unfold checkEachInput
    rw [if_neg hnonempty, if_neg (by simp [hpasses.unspent]), if_neg hsig, hinput]
    dsimp only
    rw [hrest]

/-- The loop over the inputs accepts the inputs that pass and are not locked until later. -/
theorem checkEachInput_iff {K : InputChecks} {S : SpendState} {tx : SpendTx}
    {sigIndex before : Nat} {vin : List TxInV} {pubkeys : List (List CtKey)} {after : Nat} :
    checkEachInput K S 16 tx sigIndex before vin = .ok (pubkeys, after) ↔
      ∃ rings, InputsPass K S tx sigIndex vin rings ∧ AllTimeUnlocked S.currentTime rings ∧
        pubkeys = rings.map ctKeys ∧ after = maxUsedHeight before rings := by
  induction vin generalizing sigIndex before pubkeys after with
  | nil =>
    constructor
    · intro h
      obtain ⟨rfl, rfl⟩ := Prod.mk.inj (Except.ok.inj h)
      exact ⟨[], .nil _, fun ring hring => absurd hring List.not_mem_nil, rfl, rfl⟩
    · rintro ⟨rings, hpass, -, rfl, rfl⟩
      cases hpass
      rfl
  | cons input rest ih =>
    cases input with
    | other =>
      constructor
      · intro h
        cases h
      · rintro ⟨rings, hpass, -⟩
        cases hpass
    | toKey i =>
      constructor
      · intro h
        obtain ⟨ring, pubkeys', hpasses, htimes, hrest, rfl⟩ := checkEachInput_cons_iff.mp h
        obtain ⟨rings, hpass, hall, rfl, rfl⟩ := ih.mp hrest
        exact ⟨ring :: rings, .cons hpasses hpass, List.forall_mem_cons.mpr ⟨htimes, hall⟩, rfl, rfl⟩
      · rintro ⟨rings, hpass, hall, rfl, rfl⟩
        cases hpass with
        | @cons _ _ ring _ rings hpasses hpass =>
          obtain ⟨htimes, hall⟩ := List.forall_mem_cons.mp hall
          exact checkEachInput_cons_iff.mpr
            ⟨ring, _, hpasses, htimes, ih.mpr ⟨rings, hpass, hall, rfl, rfl⟩, rfl⟩

/-- A transaction, with its rings, that passes every check of `check_tx_inputs` at version
    16 but those on locks until a unix time. -/
structure OtherwisePasses (K : InputChecks) (S : SpendState) (tx : SpendTx) (id : Hash)
    (rings : List (List OutputData)) : Prop where
  outputs : ¬ (tx.version ≥ 2 ∧ tx.voutSize < 2)
  mixins : checkMixins S.chain 16 tx = none
  sorted : checkSortedInputs none tx.vin = true
  inputs : InputsPass K S tx 0 tx.vin rings
  age : maxUsedHeight 0 rings + cryptonoteDefaultTxSpendableAge ≤ S.chain.length
  proofs : (id ≠ nullHash ∧
      K.makeInputVerificationId (K.getTransactionHash tx) (rings.map ctKeys) = id) ∨
    K.verInputProofsRings tx (rings.map ctKeys) = true

/-- What is returned for accepted inputs. -/
def acceptedResult (K : InputChecks) (tx : SpendTx) (rings : List (List OutputData)) : Nat × Hash :=
  (maxUsedHeight 0 rings, K.makeInputVerificationId (K.getTransactionHash tx) (rings.map ctKeys))

/-- Acceptance at version 16: the other checks, and no lock until a later time. -/
theorem checkTxInputs_iff {K : InputChecks} {S : SpendState} {tx : SpendTx} {id : Hash}
    {r : Nat × Hash} :
    checkTxInputs K S 16 tx id = .ok r ↔
      ∃ rings, OtherwisePasses K S tx id rings ∧ AllTimeUnlocked S.currentTime rings ∧
        r = acceptedResult K tx rings := by
  constructor
  · intro h
    unfold checkTxInputs at h
    split at h
    · cases h
    rename_i houtputs
    split at h
    · cases h
    rename_i hmixins
    rw [if_pos (by decide)] at hmixins
    split at h
    · cases h
    rename_i hsorted
    split at h
    · cases h
    rename_i pubkeys height heach
    split at h
    · cases h
    rename_i hage
    obtain ⟨rings, hinputs, hunlocked, rfl, rfl⟩ := checkEachInput_iff.mp heach
    have houtputs' : ¬ (tx.version ≥ 2 ∧ tx.voutSize < 2) := fun hbad => houtputs ⟨by decide, hbad⟩
    have hsorted' : checkSortedInputs none tx.vin = true := by
      by_contra hnot
      exact hsorted ⟨by decide, by simpa using hnot⟩
    have hage' : maxUsedHeight 0 rings + cryptonoteDefaultTxSpendableAge ≤ S.chain.length := by
      by_contra hyoung
      exact hage ⟨by decide, hyoung⟩
    dsimp only at h
    split at h
    · rename_i hid
      refine ⟨rings, ⟨houtputs', hmixins, hsorted', hinputs, hage', .inl hid⟩, hunlocked, ?_⟩
      rw [← Except.ok.inj h, acceptedResult, hid.2]
    · split at h
      · cases h
      rename_i hproofs
      refine ⟨rings, ⟨houtputs', hmixins, hsorted', hinputs, hage', .inr ?_⟩, hunlocked, ?_⟩
      · simpa using hproofs
      · rw [← Except.ok.inj h, acceptedResult]
  · rintro ⟨rings, hpasses, hunlocked, rfl⟩
    have heach : checkEachInput K S 16 tx 0 0 tx.vin =
        .ok (rings.map ctKeys, maxUsedHeight 0 rings) :=
      checkEachInput_iff.mpr ⟨rings, hpasses.inputs, hunlocked, rfl, rfl⟩
    have houtputs : ¬ ((16 : UInt8) ≥ 12 ∧ tx.version ≥ 2 ∧ tx.voutSize < 2) :=
      fun hbad => hpasses.outputs hbad.2
    have hage : ¬ ((16 : UInt8) ≥ 12 ∧
        ¬ maxUsedHeight 0 rings + cryptonoteDefaultTxSpendableAge ≤ S.chain.length) :=
      fun hbad => hbad.2 hpasses.age
    unfold checkTxInputs
    rw [if_neg houtputs, if_pos (by decide), hpasses.mixins]
    dsimp only
    rw [if_neg (by simp [hpasses.sorted]), heach]
    dsimp only
    rw [if_neg hage]
    split
    · rename_i hid
      rw [acceptedResult, hid.2]
    · rename_i hid
      rcases hpasses.proofs with hknown | hproofs
      · exact absurd hknown hid
      · rw [if_neg (by simp [hproofs])]
        rfl

/-! ## Two readings of the clock -/

/-- None of the other checks looks at the time. -/
theorem OtherwisePasses.at_time {K : InputChecks} {S : SpendState} {tx : SpendTx} {id : Hash}
    {rings : List (List OutputData)} (t : UInt64) (h : OtherwisePasses K S tx id rings) :
    OtherwisePasses K { S with currentTime := t } tx id rings := by
  have hinputs {sigIndex : Nat} {vin : List TxInV} {rings : List (List OutputData)}
      (hpass : InputsPass K S tx sigIndex vin rings) :
      InputsPass K { S with currentTime := t } tx sigIndex vin rings := by
    induction hpass with
    | nil sigIndex => exact .nil sigIndex
    | cons hinput _ ih =>
      exact .cons ⟨hinput.found, hinput.unspent, hinput.signatures, hinput.heights⟩ ih
  exact ⟨h.outputs, h.mixins, h.sorted, hinputs h.inputs, h.age, h.proofs⟩

namespace ClockedNode

/-- A transaction passes every check other than those on locks until a unix time; the
    clock does not enter. -/
def PassesOtherChecks (K : InputChecks) (n : ClockedNode) (tx : SpendTx) (id : Hash)
    (rings : List (List OutputData)) : Prop :=
  OtherwisePasses K (n.spendState 0) tx id rings

theorem answer_eq_some_iff {K : InputChecks} {n : ClockedNode} (hversion : versionAt n.height = 16)
    {tx : SpendTx} {id : Hash} {clock : UInt64} {r : Nat × Hash} :
    n.answer K tx id clock = some r ↔
      ∃ rings, n.PassesOtherChecks K tx id rings ∧
        AllTimeUnlocked (n.spendState clock).currentTime rings ∧ r = acceptedResult K tx rings := by
  have hoption (e : Except InputRejection (Nat × Hash)) : e.toOption = some r ↔ e = .ok r := by
    cases e with
    | error reason => simp [Except.toOption]
    | ok r' => simp [Except.toOption]
  unfold answer
  rw [hversion, hoption, checkTxInputs_iff]
  constructor
  · rintro ⟨rings, hpasses, hrest⟩
    exact ⟨rings, hpasses.at_time (n.spendState 0).currentTime, hrest⟩
  · rintro ⟨rings, hpasses, hrest⟩
    exact ⟨rings, hpasses.at_time (n.spendState clock).currentTime, hrest⟩

theorem currentTime_eq (n : ClockedNode) (hversion : versionAt n.height = 16) (clock : UInt64) :
    (n.spendState clock).currentTime = getAdjustedTime n.timestamps n.height clock := by
  simp only [spendState]
  rw [if_pos (by rw [hversion]; decide)]

/-- With 60 blocks the adjusted time is chain data. -/
theorem currentTime_of_le {n : ClockedNode} (h : 60 ≤ n.height) (clock clock' : UInt64) :
    (n.spendState clock).currentTime = (n.spendState clock').currentTime := by
  have hversion : versionAt n.height = 16 := by
    unfold versionAt
    rw [if_neg (by omega)]
  have hlong : ¬ n.height < timestampCheckWindow := by
    unfold timestampCheckWindow
    omega
  rw [currentTime_eq n hversion, currentTime_eq n hversion, getAdjustedTime, getAdjustedTime,
    if_neg hlong, if_neg hlong]

/-- With fewer it is the clock. -/
theorem currentTime_of_lt {n : ClockedNode} (hversion : versionAt n.height = 16)
    (h : n.height < 60) (clock : UInt64) : (n.spendState clock).currentTime = clock := by
  have hshort : n.height < timestampCheckWindow := h
  rw [currentTime_eq n hversion, getAdjustedTime, if_pos hshort]

/-- From version 16 on, the answer is the same at all readings of the clock exactly if the
    chain has 60 blocks, or the transaction fails another check, or none of its rings has
    a member that is locked until a unix time. -/
theorem answer_clock_iff (K : InputChecks) (n : ClockedNode) (hheight : 2 ≤ n.height)
    (tx : SpendTx) (id : Hash) :
    (∀ clock clock', n.answer K tx id clock = n.answer K tx id clock') ↔
      60 ≤ n.height ∨
        ∀ rings, n.PassesOtherChecks K tx id rings → ∀ ring ∈ rings, ∀ o ∈ ring, ¬ o.TimeLocked := by
  have hversion : versionAt n.height = 16 := by
    unfold versionAt
    rw [if_neg (by omega)]
  constructor
  · intro hsame
    by_contra hnot
    rw [not_or] at hnot
    obtain ⟨hshort, hlocked⟩ := hnot
    push Not at hlocked
    obtain ⟨rings, hpasses, ring, hring, o, ho, hlock⟩ := hlocked
    -- A late clock accepts, and an early one finds the member locked.
    have hlate : AllTimeUnlocked (n.spendState (0 - 151)).currentTime rings := by
      rw [currentTime_of_lt hversion (by omega)]
      exact fun _ _ o' _ => o'.timeUnlocked_last
    have haccept := (answer_eq_some_iff hversion).mpr ⟨rings, hpasses, hlate, rfl⟩
    rw [hsame _ 0] at haccept
    obtain ⟨rings', hpasses', hearly, -⟩ := (answer_eq_some_iff hversion).mp haccept
    have hrings : rings' = rings := hpasses'.inputs.unique hpasses.inputs
    rw [hrings, currentTime_of_lt hversion (by omega)] at hearly
    exact hlock.not_timeUnlocked_zero (hearly ring hring o ho)
  · rintro (hlong | hfree) clock clock'
    · unfold answer
      have hstate : n.spendState clock = n.spendState clock' := by
        have htime := currentTime_of_le hlong clock clock'
        unfold spendState at htime ⊢
        simp only [SpendState.mk.injEq, true_and]
        exact htime
      rw [hstate]
    · apply Option.ext
      intro r
      have hopen {t : UInt64} {rings : List (List OutputData)}
          (hpasses : n.PassesOtherChecks K tx id rings) : AllTimeUnlocked t rings :=
        fun ring hring o ho hlock => absurd hlock (hfree rings hpasses ring hring o ho)
      rw [answer_eq_some_iff hversion, answer_eq_some_iff hversion]
      constructor
      · rintro ⟨rings, hpasses, -, hr⟩
        exact ⟨rings, hpasses, hopen hpasses, hr⟩
      · rintro ⟨rings, hpasses, -, hr⟩
        exact ⟨rings, hpasses, hopen hpasses, hr⟩

/-! ## Samples -/

/-- Fifty blocks; a transaction in the one at height 30 has two outputs, locked until
    January 2027. -/
def lockedOutputs : ClockedNode where
  chain := minedOutputs 50 fun h =>
    if h = 30 then [createdOutput 1800000000, createdOutput 1800000000] else []
  timestamps := (List.range 50).map fun h => 1788461926 + 150 * UInt64.ofNat h
  length_timestamps := by simp [minedOutputs]
  scanTable := []
  haveTxKeyimgAsSpent := fun _ => false

/-- A ring of fifteen coinbase outputs and one of the locked ones. -/
def lockedRing : List UInt64 := 0 :: List.replicate 14 1 ++ [15]

/-- A ring of coinbase outputs only. -/
theorem answer_clock_iff_sample :
    (∀ clock clock',
      lockedOutputs.answer acceptingChecks (spendOf (0 :: List.replicate 15 1)) nullHash clock =
        lockedOutputs.answer acceptingChecks (spendOf (0 :: List.replicate 15 1)) nullHash clock') ↔
      60 ≤ lockedOutputs.height ∨
        ∀ rings, lockedOutputs.PassesOtherChecks acceptingChecks
            (spendOf (0 :: List.replicate 15 1)) nullHash rings →
          ∀ ring ∈ rings, ∀ o ∈ ring, ¬ o.TimeLocked :=
  answer_clock_iff acceptingChecks lockedOutputs (by decide) (spendOf (0 :: List.replicate 15 1))
    nullHash

/-- The spend of a locked output at height 50, by two clocks. -/
theorem answer_differs :
    ¬ ∀ (K : InputChecks) (n : ClockedNode), 2 ≤ n.height → ∀ (tx : SpendTx) (id : Hash)
      (clock clock' : UInt64), n.answer K tx id clock = n.answer K tx id clock' := by
  intro h
  have hsame := h acceptingChecks lockedOutputs (by decide) (spendOf lockedRing) nullHash
    1799999000 1800000000
  revert hsame
  decide +kernel

end ClockedNode

end RandomLite.Monero
