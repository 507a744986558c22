-- SUMMARY: Configuration constants and the transaction and block structures of the prototype chain.
import Mathlib.Data.List.Basic

/-!
# Basic structures

`cryptonote_config.h` and `cryptonote_core/cryptonote_basic.h`. The field defaults
are those of value initialisation, so `({} : Block)` is `block b{}`. `std::array`
becomes `Vector`, `std::vector` becomes `List`.
-/

namespace RandomLite

/-! ## Configuration -/

/-- `DIFFICULTY_TARGET_V2`: 150 seconds. -/
def difficultyTargetV2 : UInt64 := 150

/-- `DIFFICULTY_WINDOW_V2`: passed to the retarget, which does not look at it. -/
def difficultyWindowV2 : Nat := 720

/-- `CRYPTONOTE_BLOCK_FUTURE_TIME_LIMIT`: two hours. -/
def cryptonoteBlockFutureTimeLimit : UInt64 := 2 * 60 * 60

/-- `SEED_HASH_EPOCH_BLOCKS`. -/
def seedHashEpochBlocks : UInt64 := 1440

/-- `SEED_HASH_LAG_BLOCKS`. -/
def seedHashLagBlocks : UInt64 := 64

/-- `CRYPTONOTE_MINIMUM_MIXIN_V3`: the ring size less one. -/
def cryptonoteMinimumMixinV3 : Nat := 15

/-- `COIN_UNITS`: 12 decimals. -/
def coinUnits : UInt64 := 1000000000000

/-- `EMISSION_SPEED_FACTOR_PER_MINUTE`. -/
def emissionSpeedFactorPerMinute : UInt64 := 20

/-- `CRYPTONOTE_DEFAULT_TX_SPENDABLE_AGE`. -/
def cryptonoteDefaultTxSpendableAge : UInt64 := 10

def genesisNonce : UInt32 := 10001
def genesisTimestamp : UInt64 := 1788461926

/-! ## Transactions and blocks -/

abbrev CryptoHash := Vector UInt8 32
abbrev PublicKey := Vector UInt8 32
abbrev KeyImage := Vector UInt8 32

/-- A 32-byte array of zeros. -/
def zeroHash : CryptoHash := Vector.replicate 32 0

structure TxinToKey where
  amount : UInt64 := 0
  keyOffsets : List UInt64 := []
  kImage : KeyImage := zeroHash
  deriving DecidableEq, Repr

structure TxoutToKey where
  key : PublicKey := zeroHash
  deriving DecidableEq, Repr

structure TxOut where
  amount : UInt64 := 0
  target : TxoutToKey := {}
  deriving DecidableEq, Repr

structure RctSignatures where
  type : UInt8 := 0
  txnFee : UInt64 := 0
  pseudoOuts : List PublicKey := []
  bulletproofPlusBytes : List UInt8 := []
  clsagSignatures : List UInt8 := []
  deriving DecidableEq, Repr

structure Transaction where
  version : UInt8 := 0
  unlockTime : UInt64 := 0
  vin : List TxinToKey := []
  vout : List TxOut := []
  extra : List UInt8 := []
  rctSignatures : RctSignatures := {}
  hash : CryptoHash := zeroHash
  deriving DecidableEq, Repr

structure BlockHeader where
  majorVersion : UInt8 := 0
  minorVersion : UInt8 := 0
  timestamp : UInt64 := 0
  prevId : CryptoHash := zeroHash
  nonce : UInt32 := 0
  deriving DecidableEq, Repr

structure Block extends BlockHeader where
  minerTx : Transaction := {}
  txHashes : List CryptoHash := []
  hash : CryptoHash := zeroHash
  deriving DecidableEq, Repr

/-- The key images a transaction spends. -/
def Transaction.keyImages (tx : Transaction) : List KeyImage := tx.vin.map (·.kImage)

end RandomLite
