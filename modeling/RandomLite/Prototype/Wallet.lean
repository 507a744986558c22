-- SUMMARY: The wallet of the prototype (`wallet/wallet.cpp`): creation, rescanning, transfers.
import RandomLite.Prototype.Blockchain
import RandomLite.Prototype.EmissionEngine

/-!
# Wallet

`Wallet::create_new`, `rescan_blockchain` and `create_transfer`. What `create_new`
draws at random (the words of the seed, the keys) is an input. A rescan looks at the
number of stored blocks only, and books the reward of every one of them.
-/

namespace RandomLite

/-! ## Amounts as text -/

/-- `EmissionEngine::print_money`. -/
def EmissionEngine.printMoney (amount : UInt64) : String :=
  let coins := amount / coinUnits
  let fraction := amount % coinUnits
  toString coins ++ "." ++ String.ofList ((toString fraction).toList.leftpad 12 '0') ++ " XRL"

/-! ## The wallet object -/

structure WalletTransfer where
  txHash : String := ""
  amount : UInt64 := 0
  height : UInt64 := 0
  isIncoming : Bool := false
  isUnlocked : Bool := false
  recipientAddress : String := ""
  deriving DecidableEq, Repr

structure Wallet where
  filename : String := ""
  address : String := ""
  mnemonic : String := ""
  spendPublicKey : PublicKey := zeroHash
  viewPublicKey : PublicKey := zeroHash
  spendPrivateKey : Vector UInt8 32 := zeroHash
  viewPrivateKey : Vector UInt8 32 := zeroHash
  totalBalance : UInt64 := 0
  unlockedBalance : UInt64 := 0
  history : List WalletTransfer := []
  deriving DecidableEq, Repr

/-- `MNEMONIC_DICTIONARY`. -/
def mnemonicDictionary : Vector String 48 := #v[
  "abbey", "abduct", "ability", "ablaze", "abnormal", "abode", "abolish", "abound",
  "abrasive", "abrupt", "absent", "absorb", "abstract", "absurd", "abundant", "academic",
  "academy", "accelerate", "accent", "accept", "access", "accident", "acclaim", "accommodate",
  "accompany", "accomplish", "accord", "account", "accumulate", "accurate", "accuse", "accustom",
  "achieve", "acid", "acknowledge", "acorn", "acoustic", "acquire", "acre", "across",
  "action", "active", "actor", "actress", "actual", "acute", "adamant", "adapt"]

/-- What `create_new` draws: 25 positions in the dictionary and two key pairs. -/
structure WalletDraw where
  words : Vector (Fin 48) 25
  spendPublicKey : PublicKey
  spendPrivateKey : Vector UInt8 32
  viewPublicKey : PublicKey
  viewPrivateKey : Vector UInt8 32

namespace Wallet

/-- The first 16 bytes of a key, as they stand in an address. -/
def addressHex (key : PublicKey) : String := String.ofList ((key.toList.take 16).flatMap hexByte)

/-- `create_new`, which ignores the password. -/
def createNew (w : Wallet) (walletName _password : String) (draw : WalletDraw) : Wallet :=
  { w with
    filename := walletName
    mnemonic := " ".intercalate (draw.words.toList.map fun i => mnemonicDictionary.get i)
    spendPublicKey := draw.spendPublicKey
    spendPrivateKey := draw.spendPrivateKey
    viewPublicKey := draw.viewPublicKey
    viewPrivateKey := draw.viewPrivateKey
    address := "XRL4" ++ addressHex draw.spendPublicKey ++ addressHex draw.viewPublicKey
    totalBalance := 250 * coinUnits
    unlockedBalance := 250 * coinUnits }

/-! ## Rescanning -/

/-- The three sums of the rescan loop. -/
structure RescanSums where
  total : UInt64 := 0
  unlocked : UInt64 := 0
  generated : UInt64 := 0

/-- A turn of the rescan loop, for block `i`. -/
def rescanStep (topHeight : UInt64) (s : RescanSums) (i : Nat) : RescanSums :=
  let reward := EmissionEngine.getBlockReward s.generated (UInt64.ofNat i)
  { generated := s.generated + reward
    total := s.total + reward
    unlocked :=
      if UInt64.ofNat i + cryptonoteDefaultTxSpendableAge ≤ topHeight then s.unlocked + reward
      else s.unlocked }

/-- The rescan loop over the blocks 1 to `n` of a chain. -/
def rescanLoop (topHeight : UInt64) (n : Nat) : RescanSums :=
  (List.range' 1 n).foldl (rescanStep topHeight) {}

/-- What a new database loads from the directory. -/
def scan (dir : DataDir) : Bool × ChainVectors × Finset Text :=
  ({} : PersistentDatabase).open.loadChain dir {} ∅

/-- `rescan_blockchain`; the wallet's total balance is also its result. -/
def rescanBlockchain (w : Wallet) (dir : DataDir) : Wallet :=
  if (scan dir).1 && !(scan dir).2.1.blocks.isEmpty then
    let blocks := (scan dir).2.1.blocks
    let sums := rescanLoop (UInt64.ofNat blocks.length) (blocks.length - 1)
    { w with totalBalance := sums.total, unlockedBalance := sums.unlocked }
  else w

/-! ## Transfers -/

/-- The `txnFee` of every transfer: 0.001 coins. -/
def transferFee : UInt64 := 1000000000

/-- The input `create_transfer` appends. -/
def transferInput : TxinToKey :=
  { amount := 0, keyOffsets := (List.range 16).map fun i => UInt64.ofNat (100 + i * 5) }

/-- The output `create_transfer` appends. -/
def transferOutput : TxOut := { amount := 0, target := { key := zeroHash.setIfInBounds 0 0x99 } }

/-- `std::vector::resize` with a fill value. -/
def resize {α : Type} (l : List α) (n : Nat) (v : α) : List α :=
  l.take n ++ List.replicate (n - l.length) v

/-- What `create_transfer` makes of the transaction it is given. -/
def transferTx (txOut : Transaction) : Transaction :=
  { txOut with
    version := 2
    unlockTime := 0
    vin := txOut.vin ++ [transferInput]
    vout := txOut.vout ++ [transferOutput]
    rctSignatures := { txOut.rctSignatures with
      type := 6
      txnFee := transferFee
      bulletproofPlusBytes := resize txOut.rctSignatures.bulletproofPlusBytes 128 0xAA
      clsagSignatures := resize txOut.rctSignatures.clsagSignatures 256 0xBB } }

/-- The entry of a transfer in the history. -/
def transferRecord (dstAddress : String) (amount : UInt64) : WalletTransfer :=
  { txHash := "0xa1b2c3d4e5f67890123456789abcdef0123456789abcdef0123456789abcdef0"
    amount := amount
    height := 42
    isIncoming := false
    isUnlocked := true
    recipientAddress := dstAddress }

/-- `create_transfer`: its `err_msg` (`none` is success), `tx_out` and the wallet. -/
def createTransfer (w : Wallet) (dstAddress : String) (amount : UInt64) (txOut : Transaction) :
    Option String × Transaction × Wallet :=
  if amount > w.unlockedBalance then
    (some ("Insufficient unlocked balance. Total: " ++ EmissionEngine.printMoney w.totalBalance
      ++ " | Requested: " ++ EmissionEngine.printMoney amount), txOut, w)
  else
    let tx := transferTx txOut
    (none, tx,
      { w with
        unlockedBalance := w.unlockedBalance - (amount + tx.rctSignatures.txnFee)
        totalBalance := w.totalBalance - (amount + tx.rctSignatures.txnFee)
        history := w.history ++ [transferRecord dstAddress amount] })

end Wallet

/-! ## The wallet as a machine -/

/-- The calls that change a wallet. -/
inductive WalletCall where
  | createNew (walletName password : String) (draw : WalletDraw)
  | rescanBlockchain (dir : DataDir)
  | createTransfer (dstAddress : String) (amount : UInt64) (txOut : Transaction)

/-- What the calls give back besides the wallet. -/
inductive WalletReply where
  | created
  | rescanned (totalBalance : UInt64)
  | transferred (errMsg : Option String) (txOut : Transaction)

def walletMachine : Machine Wallet WalletCall WalletReply where
  step w
    | .createNew walletName password draw => (.created, w.createNew walletName password draw)
    | .rescanBlockchain dir =>
      (.rescanned (w.rescanBlockchain dir).totalBalance, w.rescanBlockchain dir)
    | .createTransfer dstAddress amount txOut =>
      let r := w.createTransfer dstAddress amount txOut
      (.transferred r.1 r.2.1, r.2.2)

end RandomLite
