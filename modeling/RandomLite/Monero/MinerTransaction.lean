-- SUMMARY: Blocks of the production node and the two checks of their miner transaction (`cryptonote_core/blockchain.cpp`).
import RandomLite.Monero.BlockReward
import RandomLite.Monero.HardFork

/-!
# Miner transactions

A block as far as its acceptance looks at it, and `prevalidate_miner_transaction` and
`validate_miner_transaction`. The keys of the outputs play no part.
-/

namespace RandomLite.Monero

/-! ## Blocks -/

abbrev Hash := Vector UInt8 32

/-- `crypto::null_hash`. -/
def nullHash : Hash := Vector.replicate 32 0

inductive TxIn where
  | gen (height : UInt64)
  | other
  deriving DecidableEq, Repr

inductive OutputTarget where
  | toKey
  | toTaggedKey
  | other
  deriving DecidableEq, Repr

structure TxOut where
  amount : UInt64
  target : OutputTarget
  deriving DecidableEq, Repr

/-- The transaction that pays the miner. -/
structure MinerTx where
  version : UInt64 := 0
  unlockTime : UInt64 := 0
  vin : List TxIn := []
  vout : List TxOut := []
  rctType : UInt8 := 0
  deriving DecidableEq, Repr

structure Block extends BlockVersions where
  timestamp : UInt64 := 0
  prevId : Hash := nullHash
  nonce : UInt32 := 0
  minerTx : MinerTx := {}
  txHashes : List Hash := []
  deriving DecidableEq, Repr

/-- `get_block_height`: what the miner transaction says, and zero when it says nothing. -/
def getBlockHeight (b : Block) : UInt64 :=
  match b.minerTx.vin with
  | [.gen height] => height
  | _ => 0

/-- `get_outs_money_amount`: the sum of the outputs, modulo `2 ^ 64`. -/
def getOutsMoneyAmount (tx : MinerTx) : UInt64 := (tx.vout.map (·.amount)).foldl (· + ·) 0

/-! ## Checks -/

/-- `check_outs_overflow`, with the sum so far. -/
def checkOutsOverflow : UInt64 → List TxOut → Bool
  | _, [] => true
  | money, o :: outs =>
    if money > o.amount + money then false else checkOutsOverflow (money + o.amount) outs

/-- `check_output_types`. -/
def checkOutputTypes (tx : MinerTx) (hfVersion : UInt8) : Bool :=
  tx.vout.all fun o =>
    if hfVersion > 15 then o.target == .toTaggedKey
    else if hfVersion < 15 then o.target == .toKey
    else (o.target == .toKey || o.target == .toTaggedKey) &&
      some o.target == (tx.vout.head?.map (·.target))

/-- `prevalidate_miner_transaction`. -/
def prevalidateMinerTransaction (b : Block) (height : UInt64) (hfVersion : UInt8) : Bool :=
  match b.minerTx.vin with
  | [.gen genHeight] =>
    if !(b.minerTx.version > 1 || hfVersion < 12) then false
    else if hfVersion ≥ 12 && b.minerTx.version ≥ 2 && b.minerTx.rctType ≠ 0 then false
    else if genHeight ≠ height then false
    else if b.minerTx.unlockTime ≠ height + 10 then false
    else checkOutsOverflow 0 b.minerTx.vout && checkOutputTypes b.minerTx hfVersion
  | _ => false

/-- The loop of `is_valid_decomposed_amount`; twenty digits are enough. -/
def stripZeros : Nat → UInt64 → UInt64
  | 0, amount => amount
  | fuel + 1, amount => if amount % 10 = 0 then stripZeros fuel (amount / 10) else amount

/-- `is_valid_decomposed_amount`. -/
def isValidDecomposedAmount (amount : UInt64) : Bool :=
  if amount = 0 then false else stripZeros 20 amount < 10

/-- `validate_miner_transaction`: the base reward that is left in the caller's hands, or
    `none` when the transaction is refused. -/
def validateMinerTransaction (b : Block) (medianWeight cumulativeBlockWeight fee
    alreadyGeneratedCoins : UInt64) (version : UInt8) : Option UInt64 :=
  let moneyInUse := getOutsMoneyAmount b.minerTx
  if version = 3 && !(b.minerTx.vout.all fun o => isValidDecomposedAmount o.amount) then none
  else
    match getBlockReward medianWeight cumulativeBlockWeight alreadyGeneratedCoins version with
    | none => none
    | some base =>
      if base + fee < moneyInUse then none
      else if version < 2 || version ≥ 13 then
        if base + fee ≠ moneyInUse then none else some base
      else if moneyInUse - fee ≤ base then some (moneyInUse - fee)
      else none

/-- The forks that ask for the exact reward. -/
theorem exactCoinbase {version : UInt8} (hversion : version < 2 ∨ 13 ≤ version) :
    (decide (version < 2) || decide (version ≥ 13)) = true := by
  rcases hversion with hlt | hge
  · simp [hlt]
  · simp [hge]

/-- Under an exact fork the base reward is what the outputs hold beyond the fees. -/
theorem validateMinerTransaction_exact {b : Block} {medianWeight weight fee generated base : UInt64}
    {version : UInt8} (hversion : version < 2 ∨ 13 ≤ version)
    (h : validateMinerTransaction b medianWeight weight fee generated version = some base) :
    base = getOutsMoneyAmount b.minerTx - fee := by
  have hexact := exactCoinbase hversion
  unfold validateMinerTransaction at h
  simp only [hexact, if_true] at h
  split at h
  · exact absurd h (by simp)
  split at h
  · exact absurd h (by simp)
  split at h
  · exact absurd h (by simp)
  split at h
  · exact absurd h (by simp)
  rename_i hsum
  rw [← Option.some.inj h, ← not_not.mp hsum, UInt64.add_sub_cancel]

end RandomLite.Monero
