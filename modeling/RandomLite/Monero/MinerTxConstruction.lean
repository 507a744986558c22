-- SUMMARY: How the production node builds a miner transaction (`cryptonote_core/cryptonote_tx_utils.cpp`), and what is known of one that was built.
import Mathlib.Tactic.Ring
import RandomLite.Library.ExactSum
import RandomLite.Monero.MinerTransaction

/-!
# Construction of miner transactions

`construct_miner_tx` with `decompose_amount_into_digits`. The key derivation, the
canonical order of the extra fields and the weight of a transaction are parameters.
Weights are natural numbers: a block has at most `CRYPTONOTE_MAX_TX_PER_BLOCK`
transactions of at most `CRYPTONOTE_MAX_TX_SIZE` bytes, so that the 64-bit sums and
doubled medians of the source do not wrap.
-/

namespace RandomLite.Monero

/-! ## Keys and transactions -/

abbrev PublicKey := Vector UInt8 32
abbrev SecretKey := Vector UInt8 32
abbrev KeyDerivation := Vector UInt8 32

structure Keypair where
  pub : PublicKey
  sec : SecretKey
  deriving DecidableEq, Repr

structure AccountPublicAddress where
  spendPublicKey : PublicKey
  viewPublicKey : PublicKey
  deriving DecidableEq, Repr

/-- The key of an output, with its view tag where the target has one. -/
structure OutputKey where
  key : PublicKey
  viewTag : Option UInt8
  deriving DecidableEq, Repr

/-- A miner transaction with the parts that its checks do not look at. -/
structure CoinbaseTx extends MinerTx where
  extra : List UInt8 := []
  /-- The keys of the outputs, in the order of `vout`. -/
  outKeys : List OutputKey := []
  deriving DecidableEq, Repr

structure TxPrimitives where
  generateKeyDerivation : PublicKey → SecretKey → Option KeyDerivation
  derivePublicKey : KeyDerivation → Nat → PublicKey → Option PublicKey
  deriveViewTag : KeyDerivation → Nat → UInt8
  sortTxExtra : List UInt8 → Option (List UInt8)
  /-- `get_transaction_weight` of a miner transaction. -/
  getTransactionWeight : CoinbaseTx → Nat
  /-- The weight of the transaction with a hash. -/
  weightOfTx : Hash → Nat

/-! ## The extra field -/

/-- `add_tx_pub_key_to_extra`. -/
def addTxPubKeyToExtra (txExtra : List UInt8) (txPubKey : PublicKey) : List UInt8 :=
  txExtra ++ 1 :: txPubKey.toList

/-- `write_varint`; ten bytes are enough. -/
def writeVarint : Nat → UInt64 → List UInt8
  | 0, _ => []
  | fuel + 1, i =>
    if i ≥ 0x80 then ((i &&& 0x7f) ||| 0x80).toUInt8 :: writeVarint fuel (i >>> 7) else [i.toUInt8]

/-- `add_extra_nonce_to_tx_extra`. -/
def addExtraNonceToTxExtra (txExtra extraNonce : List UInt8) : Option (List UInt8) :=
  if extraNonce.length ≤ 255 then
    some (txExtra ++ 2 :: (writeVarint 10 (UInt64.ofNat extraNonce.length) ++ extraNonce))
  else none

/-- The extra field of a miner transaction. -/
def minerTxExtra (P : TxPrimitives) (txPubKey : PublicKey) (extraNonce : List UInt8) :
    Option (List UInt8) :=
  let extra := addTxPubKeyToExtra [] txPubKey
  if extraNonce = [] then P.sortTxExtra extra
  else
    match addExtraNonceToTxExtra extra extraNonce with
    | some extra => P.sortTxExtra extra
    | none => none

/-! ## Amounts -/

/-- `DEFAULT_DUST_THRESHOLD`. -/
def defaultDustThreshold : UInt64 := 2000000000

/-- `BASE_REWARD_CLAMP_THRESHOLD`. -/
def baseRewardClampThreshold : UInt64 := 100000000

/-- What the loop of `decompose_amount_into_digits` hands to its two handlers, in order;
    one round for each digit, and a last one for the dust left over. -/
def decomposeLoop (dustThreshold : UInt64) : Nat → UInt64 → UInt64 → UInt64 → Bool → List UInt64
  | 0, _, _, _, _ => []
  | fuel + 1, amount, order, dust, isDustHandled =>
    if amount = 0 then if !isDustHandled && dust ≠ 0 then [dust] else []
    else
      let chunk := amount % 10 * order
      let next := decomposeLoop dustThreshold fuel (amount / 10) (order * 10)
      if dust + chunk ≤ dustThreshold then next (dust + chunk) isDustHandled
      else if !isDustHandled && dust ≠ 0 then
        dust :: if chunk ≠ 0 then chunk :: next dust true else next dust true
      else if chunk ≠ 0 then chunk :: next dust isDustHandled
      else next dust isDustHandled

/-- `decompose_amount_into_digits`; a 64-bit amount has at most twenty digits. -/
def decomposeAmountIntoDigits (amount dustThreshold : UInt64) : List UInt64 :=
  decomposeLoop dustThreshold 21 amount 1 0 false

/-- The loop that merges the first two amounts while there are more than `maxOuts`. -/
def mergeAmounts (maxOuts : Nat) : UInt64 → List UInt64 → List UInt64
  | first, [] => [first]
  | first, second :: rest =>
    if maxOuts < (first :: second :: rest).length then mergeAmounts maxOuts (second + first) rest
    else first :: second :: rest

/-- The amounts of the outputs that pay a reward. -/
def minerTxAmounts (height : Nat) (blockReward : UInt64) (maxOuts : Nat) (hardForkVersion : UInt8) :
    Option (List UInt64) :=
  let outAmounts := decomposeAmountIntoDigits blockReward
    (if hardForkVersion ≥ 2 then 0 else defaultDustThreshold)
  if maxOuts < 1 then none
  else if height = 0 || hardForkVersion ≥ 4 then
    match outAmounts with
    | [] => some []
    | first :: rest => some (mergeAmounts maxOuts first rest)
  else if maxOuts ≥ outAmounts.length then some outAmounts
  else none

/-! ## The transaction -/

/-- `set_tx_out`. -/
def setTxOut (amount : UInt64) (outputPublicKey : PublicKey) (useViewTags : Bool)
    (viewTag : UInt8) : TxOut × OutputKey :=
  if useViewTags then (⟨amount, .toTaggedKey⟩, ⟨outputPublicKey, some viewTag⟩)
  else (⟨amount, .toKey⟩, ⟨outputPublicKey, none⟩)

/-- The loop that makes an output of each amount; `no` is the index of the next. -/
def makeOutputs (P : TxPrimitives) (minerAddress : AccountPublicAddress) (txkey : Keypair)
    (useViewTags : Bool) : Nat → List UInt64 → Option (List (TxOut × OutputKey))
  | _, [] => some []
  | no, amount :: rest => do
    let derivation ← P.generateKeyDerivation minerAddress.viewPublicKey txkey.sec
    let outEphPublicKey ← P.derivePublicKey derivation no minerAddress.spendPublicKey
    let outs ← makeOutputs P minerAddress txkey useViewTags (no + 1) rest
    return setTxOut amount outEphPublicKey useViewTags (P.deriveViewTag derivation no) :: outs

/-- `block_reward` of `construct_miner_tx`: with the fees, and from fork 2 to 3 clamped. -/
def rewardWithFee (reward fee : UInt64) (hardForkVersion : UInt8) : UInt64 :=
  if hardForkVersion ≥ 2 && hardForkVersion < 4 then
    reward + fee - (reward + fee) % baseRewardClampThreshold
  else reward + fee

/-- `construct_miner_tx`; `txkey` is the key pair it generates. -/
def constructMinerTx (P : TxPrimitives) (height medianWeight : Nat) (alreadyGeneratedCoins : UInt64)
    (currentBlockWeight : Nat) (fee : UInt64) (minerAddress : AccountPublicAddress) (tx : CoinbaseTx)
    (extraNonce : List UInt8) (maxOuts : Nat) (hardForkVersion : UInt8) (txkey : Keypair) :
    Option CoinbaseTx := do
  let extra ← minerTxExtra P txkey.pub extraNonce
  let reward ← getBlockReward (UInt64.ofNat medianWeight) (UInt64.ofNat currentBlockWeight)
    alreadyGeneratedCoins hardForkVersion
  let blockReward := rewardWithFee reward fee hardForkVersion
  let outAmounts ← minerTxAmounts height blockReward maxOuts hardForkVersion
  let outs ← makeOutputs P minerAddress txkey (hardForkVersion ≥ 15) 0 outAmounts
  if outAmounts.foldl (· + ·) 0 ≠ blockReward then none
  else
    some { tx with
      version := if hardForkVersion ≥ 4 then 2 else 1
      unlockTime := UInt64.ofNat height + 10
      vin := [.gen (UInt64.ofNat height)]
      vout := outs.map (·.1)
      extra := extra
      outKeys := outs.map (·.2) }

/-! ## The amounts add up -/

section Decomposition

variable {amount order dust dustThreshold : UInt64}

/-- One digit is taken off an amount, in units of `order`. -/
theorem takeDigit (hfits : amount.toNat * order.toNat < 2 ^ 64) :
    (amount % 10 * order).toNat = amount.toNat % 10 * order.toNat ∧
      (amount / 10).toNat = amount.toNat / 10 ∧
      (amount / 10 ≠ 0 → (order * 10).toNat = order.toNat * 10) ∧
      (amount / 10).toNat * (order * 10).toNat + amount.toNat % 10 * order.toNat =
        amount.toNat * order.toNat := by
  have hdigit : (amount % 10).toNat = amount.toNat % 10 := UInt64.toNat_mod _ _
  have hrest : (amount / 10).toNat = amount.toNat / 10 := UInt64.toNat_div _ _
  have hsplit : amount.toNat / 10 * (order.toNat * 10) + amount.toNat % 10 * order.toNat =
      amount.toNat * order.toNat := by
    conv_rhs => rw [← Nat.div_add_mod amount.toNat 10]
    ring
  have horder : amount / 10 ≠ 0 → (order * 10).toNat = order.toNat * 10 := by
    intro hne
    have hpos : 1 ≤ amount.toNat / 10 := by
      rw [← hrest]
      exact Nat.one_le_iff_ne_zero.mpr fun h => hne (UInt64.toNat_inj.mp h)
    have hle := Nat.mul_le_mul_right (order.toNat * 10) hpos
    rw [UInt64.toNat_mul]
    exact Nat.mod_eq_of_lt (by change order.toNat * 10 < 2 ^ 64; omega)
  refine ⟨?_, hrest, horder, ?_⟩
  · rw [UInt64.toNat_mul, hdigit]
    exact Nat.mod_eq_of_lt (by omega)
  · by_cases hzero : amount / 10 = 0
    · have hnone : amount.toNat / 10 = 0 := by rw [← hrest, hzero]; rfl
      rw [hnone, Nat.zero_mul] at hsplit
      rw [hrest, hnone, Nat.zero_mul]
      exact hsplit
    · rw [horder hzero, hrest]
      exact hsplit

/-- A chunk that is left out when it is zero counts all the same. -/
theorem sum_chunk (chunk : UInt64) (rest : List UInt64) :
    ((if chunk ≠ 0 then chunk :: rest else rest).map UInt64.toNat).sum =
      chunk.toNat + (rest.map UInt64.toNat).sum := by
  split
  · rw [List.map_cons, List.sum_cons]
  · rename_i hzero
    rw [not_not.mp hzero]
    exact (Nat.zero_add _).symm

/-- The last round hands out the dust that is left. -/
theorem sum_decomposeLoop_zero (fuel : Nat) (isDustHandled : Bool) :
    ((decomposeLoop dustThreshold (fuel + 1) 0 order dust isDustHandled).map UInt64.toNat).sum =
      if isDustHandled then 0 else dust.toNat := by
  rw [decomposeLoop, if_pos rfl]
  cases isDustHandled with
  | true => rfl
  | false =>
    by_cases hzero : dust = 0
    · subst hzero
      rfl
    · simp [hzero]

/-- One round: the digit joins the dust, or the dust is handed out and the digit after it. -/
theorem sum_decomposeLoop_round (fuel : Nat) (isDustHandled : Bool) (hne : amount ≠ 0) :
    ((decomposeLoop dustThreshold (fuel + 1) amount order dust isDustHandled).map
      UInt64.toNat).sum =
        let chunk := amount % 10 * order
        let next := fun dust isDustHandled =>
          ((decomposeLoop dustThreshold fuel (amount / 10) (order * 10) dust isDustHandled).map
            UInt64.toNat).sum
        if dust + chunk ≤ dustThreshold then next (dust + chunk) isDustHandled
        else (if isDustHandled then 0 else dust.toNat) + chunk.toNat +
          next dust (isDustHandled || dust ≠ 0) := by
  rw [decomposeLoop, if_neg hne]
  dsimp only
  split
  · rfl
  cases isDustHandled with
  | true =>
    simp only [Bool.not_true, Bool.false_and, Bool.false_eq_true, if_false, Bool.true_or, if_true]
    rw [sum_chunk, Nat.zero_add]
  | false =>
    by_cases hnone : dust = 0
    · subst hnone
      simp only [ne_eq, not_true_eq_false, decide_false, Bool.and_false, Bool.or_false,
        Bool.false_eq_true, if_false]
      rw [sum_chunk, UInt64.toNat_zero, Nat.zero_add]
    · simp only [ne_eq, hnone, not_false_eq_true, decide_true, Bool.not_false, Bool.and_self,
        Bool.or_true, Bool.false_eq_true, if_true, if_false]
      rw [List.map_cons, List.sum_cons, sum_chunk, Nat.add_assoc]

/-- The loop hands out the rest of the amount, and the dust unless that is handled. Once it
    is, a digit that is not zero is never dust again. -/
theorem sum_decomposeLoop {fuel : Nat} {isDustHandled : Bool} (hfuel : amount.toNat < 10 ^ fuel)
    (hfits : dust.toNat + amount.toNat * order.toNat < 2 ^ 64)
    (hhandled : isDustHandled = true → amount ≠ 0 →
      dustThreshold.toNat < dust.toNat + order.toNat) :
    ((decomposeLoop dustThreshold (fuel + 1) amount order dust isDustHandled).map
      UInt64.toNat).sum =
        amount.toNat * order.toNat + if isDustHandled then 0 else dust.toNat := by
  induction fuel generalizing amount order dust isDustHandled with
  | zero =>
    obtain rfl : amount = 0 := UInt64.toNat_inj.mp (Nat.lt_one_iff.mp hfuel)
    rw [sum_decomposeLoop_zero, UInt64.toNat_zero, Nat.zero_mul, Nat.zero_add]
  | succ fuel ih =>
    by_cases hzero : amount = 0
    · subst hzero
      rw [sum_decomposeLoop_zero, UInt64.toNat_zero, Nat.zero_mul, Nat.zero_add]
    obtain ⟨hchunk, hrest, horder, hsplit⟩ :=
      takeDigit (Nat.lt_of_le_of_lt (Nat.le_add_left _ _) hfits)
    rw [← hchunk] at hsplit
    have hfuel' : (amount / 10).toNat < 10 ^ fuel := by
      rw [hrest]
      exact Nat.div_lt_of_lt_mul (by rw [← Nat.pow_succ']; exact hfuel)
    have hdust : (dust + amount % 10 * order).toNat = dust.toNat + (amount % 10 * order).toNat := by
      rw [UInt64.toNat_add]
      exact Nat.mod_eq_of_lt (by omega)
    rw [sum_decomposeLoop_round _ _ hzero]
    dsimp only
    split
    · rename_i hsmall
      rw [UInt64.le_iff_toNat_le, hdust] at hsmall
      cases isDustHandled with
      | false =>
        rw [ih hfuel' (by omega) (fun h => absurd h (by decide)), hdust, ← hsplit]
        simp only [Bool.false_eq_true, if_false]
        omega
      | true =>
        -- the digit is zero
        have hnow := hhandled rfl hzero
        have hnone : amount.toNat % 10 = 0 := by
          by_contra hpos
          have := Nat.le_mul_of_pos_left order.toNat (Nat.pos_of_ne_zero hpos)
          omega
        rw [hnone, Nat.zero_mul] at hchunk
        rw [ih hfuel' (by omega) (fun _ hne => ?_), ← hsplit, hchunk]
        · rfl
        · rw [hdust, hchunk, horder hne]
          omega
    · rename_i hlarge
      rw [UInt64.le_iff_toNat_le, hdust] at hlarge
      have hnext : dustThreshold.toNat < dust.toNat + order.toNat * 10 := by
        have hdigit : amount.toNat % 10 < 10 := Nat.mod_lt _ (by decide)
        have := Nat.mul_le_mul_right order.toNat (Nat.le_of_lt hdigit)
        omega
      -- the dust that is still to be handled is none
      have hleft : (if (isDustHandled || decide (dust ≠ 0)) = true then 0 else dust.toNat) = 0 := by
        by_cases hnone : dust = 0
        · simp [hnone]
        · simp [hnone]
      rw [ih hfuel' (by omega) (fun _ hne => by rwa [horder hne]), hleft, ← hsplit]
      omega

end Decomposition

theorem exactSum_decomposeAmountIntoDigits (amount dustThreshold : UInt64) :
    ExactSum (decomposeAmountIntoDigits amount dustThreshold) amount := by
  have hlt := amount.toNat_lt
  have hfuel : amount.toNat < 10 ^ 20 := by omega
  unfold ExactSum decomposeAmountIntoDigits
  rw [sum_decomposeLoop hfuel]
  · exact Nat.mul_one _
  · change 0 + amount.toNat * 1 < 2 ^ 64
    omega
  · intro h
    cases h

theorem exactSum_mergeAmounts (maxOuts : Nat) {first : UInt64} {rest : List UInt64}
    {total : UInt64} (h : ExactSum (first :: rest) total) :
    ExactSum (mergeAmounts maxOuts first rest) total := by
  induction rest generalizing first with
  | nil => exact h
  | cons second rest ih =>
    unfold mergeAmounts
    split
    · exact ih h.merge
    · exact h

/-- Whatever the number of outputs, they pay the reward. -/
theorem exactSum_minerTxAmounts {height maxOuts : Nat} {blockReward : UInt64}
    {hardForkVersion : UInt8} {outAmounts : List UInt64}
    (h : minerTxAmounts height blockReward maxOuts hardForkVersion = some outAmounts) :
    ExactSum outAmounts blockReward := by
  have hdigits := exactSum_decomposeAmountIntoDigits blockReward
    (if hardForkVersion ≥ 2 then 0 else defaultDustThreshold)
  unfold minerTxAmounts at h
  dsimp only at h
  generalize decomposeAmountIntoDigits blockReward _ = digits at h hdigits
  split at h
  · cases h
  split at h
  · cases digits with
    | nil =>
      cases h
      exact hdigits
    | cons first rest =>
      cases h
      exact exactSum_mergeAmounts maxOuts hdigits
  split at h
  · cases h
    exact hdigits
  · cases h

/-- The target `construct_miner_tx` gives an output. -/
def minerTxTarget (hardForkVersion : UInt8) : OutputTarget :=
  if hardForkVersion ≥ 15 then .toTaggedKey else .toKey

/-- The outputs have the given amounts and are of one type. -/
theorem makeOutputs_spec {P : TxPrimitives} {minerAddress : AccountPublicAddress} {txkey : Keypair}
    {hardForkVersion : UInt8} {no : Nat} {amounts : List UInt64} {outs : List (TxOut × OutputKey)}
    (h : makeOutputs P minerAddress txkey (hardForkVersion ≥ 15) no amounts = some outs) :
    outs.map (·.1.amount) = amounts ∧
      ∀ o ∈ outs, o.1.target = minerTxTarget hardForkVersion := by
  induction amounts generalizing no outs with
  | nil =>
    cases h
    exact ⟨rfl, fun _ ho => by cases ho⟩
  | cons amount rest ih =>
    obtain ⟨derivation, -, h⟩ := Option.bind_eq_some_iff.mp h
    obtain ⟨key, -, h⟩ := Option.bind_eq_some_iff.mp h
    obtain ⟨outs, hrest, h⟩ := Option.bind_eq_some_iff.mp h
    obtain ⟨hamounts, htargets⟩ := ih hrest
    cases h
    have hfirst : ∀ tag, (setTxOut amount key (hardForkVersion ≥ 15) tag).1 =
        ⟨amount, minerTxTarget hardForkVersion⟩ := by
      intro tag
      unfold setTxOut minerTxTarget
      by_cases hversion : hardForkVersion ≥ 15
      · simp only [hversion, decide_true, if_true]
      · simp only [hversion, decide_false, Bool.false_eq_true, if_false]
    refine ⟨?_, List.forall_mem_cons.mpr ⟨?_, htargets⟩⟩
    · rw [List.map_cons, hfirst, hamounts]
    · rw [hfirst]

/-! ## What was built -/

/-- A miner transaction for a block of this height and fork that pays `amount`. -/
structure MinerTx.Pays (tx : MinerTx) (height : Nat) (hardForkVersion : UInt8)
    (amount : UInt64) : Prop where
  version_eq : tx.version = if hardForkVersion ≥ 4 then 2 else 1
  unlockTime_eq : tx.unlockTime = UInt64.ofNat height + 10
  vin_eq : tx.vin = [.gen (UInt64.ofNat height)]
  rctType_eq : tx.rctType = 0
  target_eq : ∀ o ∈ tx.vout, o.target = minerTxTarget hardForkVersion
  sum_eq : ExactSum (tx.vout.map (·.amount)) amount

/-- A transaction that was built pays the reward for the weight it was built for, and the
    fees. -/
theorem constructMinerTx_spec {P : TxPrimitives} {height medianWeight currentBlockWeight : Nat}
    {alreadyGeneratedCoins fee : UInt64} {minerAddress : AccountPublicAddress}
    {tx tx' : CoinbaseTx} {extraNonce : List UInt8} {maxOuts : Nat} {hardForkVersion : UInt8}
    {txkey : Keypair} (hrct : tx.rctType = 0)
    (h : constructMinerTx P height medianWeight alreadyGeneratedCoins currentBlockWeight fee
      minerAddress tx extraNonce maxOuts hardForkVersion txkey = some tx') :
    ∃ reward, getBlockReward (UInt64.ofNat medianWeight) (UInt64.ofNat currentBlockWeight)
        alreadyGeneratedCoins hardForkVersion = some reward ∧
      tx'.toMinerTx.Pays height hardForkVersion (rewardWithFee reward fee hardForkVersion) := by
  obtain ⟨extra, -, h⟩ := Option.bind_eq_some_iff.mp h
  obtain ⟨reward, hreward, h⟩ := Option.bind_eq_some_iff.mp h
  obtain ⟨outAmounts, hamounts, h⟩ := Option.bind_eq_some_iff.mp h
  obtain ⟨outs, houts, h⟩ := Option.bind_eq_some_iff.mp h
  split at h
  · cases h
  cases h
  obtain ⟨hout, htarget⟩ := makeOutputs_spec houts
  have hsum := exactSum_minerTxAmounts hamounts
  refine ⟨reward, hreward, rfl, rfl, rfl, hrct, ?_, ?_⟩
  · intro o ho
    obtain ⟨out, hmem, rfl⟩ := List.mem_map.mp ho
    exact htarget out hmem
  · rw [List.map_map]
    rw [← hout] at hsum
    exact hsum

/-! ## The checks of what was built -/

theorem checkOutsOverflow_of_fits {money : UInt64} {outs : List TxOut}
    (h : money.toNat + ((outs.map (·.amount)).map UInt64.toNat).sum < 2 ^ 64) :
    checkOutsOverflow money outs = true := by
  induction outs generalizing money with
  | nil => rfl
  | cons o outs ih =>
    rw [List.map_cons, List.map_cons, List.sum_cons] at h
    have hsum : (money + o.amount).toNat = money.toNat + o.amount.toNat := by
      rw [UInt64.toNat_add]
      exact Nat.mod_eq_of_lt (by omega)
    have hgrow : ¬ money > o.amount + money := by
      rw [gt_iff_lt, UInt64.lt_iff_toNat_lt, UInt64.add_comm, hsum]
      omega
    rw [checkOutsOverflow, if_neg hgrow]
    exact ih (by omega)

namespace MinerTx.Pays

variable {b : Block} {height : Nat} {version : UInt8} {amount : UInt64}

theorem checkOutputTypes (h : b.minerTx.Pays height version amount) :
    checkOutputTypes b.minerTx version = true := by
  apply List.all_eq_true.mpr
  intro o ho
  rw [h.target_eq o ho]
  unfold minerTxTarget
  split
  · -- view tags only
    rename_i hlate
    rw [if_pos (show version ≥ 15 from UInt8.le_of_lt hlate)]
    rfl
  split
  · -- none yet
    rename_i hearly
    rw [if_neg (UInt8.not_le.mpr hearly)]
    rfl
  · -- either, and the same for all outputs
    rename_i hearly
    have hviewTags := UInt8.not_lt.mp hearly
    have hhead : b.minerTx.vout.head?.map (·.target) = some .toTaggedKey := by
      have hne := List.ne_nil_of_mem ho
      rw [List.head?_eq_some_head hne, Option.map_some, h.target_eq _ (List.head_mem hne)]
      exact congrArg some (if_pos hviewTags)
    rw [if_pos hviewTags, hhead]
    rfl

/-- `prevalidate_miner_transaction` accepts it. -/
theorem prevalidate (h : b.minerTx.Pays height version amount) :
    prevalidateMinerTransaction b (UInt64.ofNat height) version = true := by
  have hversion : (b.minerTx.version > 1 || version < 12) = true := by
    rw [h.version_eq]
    by_cases hold : version < 12
    · simp [hold]
    · have hnew : version ≥ 4 := UInt8.le_trans (by decide) (UInt8.not_lt.mp hold)
      simp [hnew]
  have hoverflow : checkOutsOverflow 0 b.minerTx.vout = true := by
    apply checkOutsOverflow_of_fits
    rw [h.sum_eq, UInt64.toNat_zero, Nat.zero_add]
    exact amount.toNat_lt
  unfold prevalidateMinerTransaction
  rw [h.vin_eq]
  dsimp only
  rw [hversion, h.rctType_eq, h.unlockTime_eq, hoverflow, h.checkOutputTypes]
  simp

/-- `validate_miner_transaction` finds the reward it was built for. -/
theorem validate {medianWeight weight fee alreadyGeneratedCoins reward : UInt64}
    (hversion : version < 2 ∨ 13 ≤ version)
    (hreward : getBlockReward medianWeight weight alreadyGeneratedCoins version = some reward)
    (h : b.minerTx.Pays height version (rewardWithFee reward fee version)) :
    validateMinerTransaction b medianWeight weight fee alreadyGeneratedCoins version =
        some reward ∧
      reward + fee = getOutsMoneyAmount b.minerTx := by
  have hclamp : (decide (version ≥ 2) && decide (version < 4)) = false := by
    rcases hversion with hearly | hlate
    · simp [UInt8.not_le.mpr hearly]
    · have hfour : ¬ version < 4 := UInt8.not_lt.mpr (UInt8.le_trans (by decide : 4 ≤ 13) hlate)
      simp [hfour]
  have hmoney : getOutsMoneyAmount b.minerTx = reward + fee := by
    have hsum := h.sum_eq.foldl_eq
    rw [rewardWithFee, hclamp] at hsum
    exact hsum
  have hexact := exactCoinbase hversion
  have hthree : version ≠ 3 := by
    rintro rfl
    exact absurd hversion (by decide)
  refine ⟨?_, hmoney.symm⟩
  unfold validateMinerTransaction
  simp [hreward, hmoney, hexact, hthree]

end MinerTx.Pays

end RandomLite.Monero
