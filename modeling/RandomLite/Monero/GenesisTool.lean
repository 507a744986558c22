-- SUMMARY: The genesis tool (`genesis_tool/genesis_tool.cpp`) and `generate_genesis_block`: the node reads the transaction the tool printed and accepts it as a miner transaction.
import RandomLite.Monero.BlockTemplate
import RandomLite.Monero.TransactionFormat
import RandomLite.Monero.TxExtra

/-!
# Genesis

The tool builds the genesis transaction from a seed and prints it in hexadecimal; a
node reads the printed text when it sets up its first block. The keys that are
derived from the seed are arbitrary.
-/

namespace RandomLite.Monero

open Format (TransactionPrefix Transaction RctFormat)

/-! ## Hexadecimal text -/

/-- The digits of `write_hex`. -/
def hexLetter (digit : Nat) : Char := "0123456789abcdef".toList.getD digit '0'

/-- `buff_to_hex_nodelimer`. -/
def buffToHexNodelimer (src : List UInt8) : List Char :=
  src.flatMap fun byte => [hexLetter (byte.toNat / 16), hexLetter (byte.toNat % 16)]

/-- `epee::misc_utils::parse::isx`: the value of a digit in either case, else `0xff`. -/
def isx (c : Char) : Nat :=
  if '0' ≤ c ∧ c ≤ '9' then c.toNat - '0'.toNat
  else if 'A' ≤ c ∧ c ≤ 'F' then c.toNat - 'A'.toNat + 10
  else if 'a' ≤ c ∧ c ≤ 'f' then c.toNat - 'a'.toNat + 10
  else 0xff

/-- `parse_hexstr_to_binbuff`. -/
def parseHexstrToBinbuff : List Char → Option (List UInt8)
  | [] => some []
  | [_] => none
  | high :: low :: rest =>
    if isx high = 0xff then none
    else if isx low = 0xff then none
    else
      match parseHexstrToBinbuff rest with
      | none => none
      | some bytes => some (UInt8.ofNat (isx high <<< 4 ||| isx low) :: bytes)

theorem isx_hexLetter {digit : Nat} (h : digit < 16) : isx (hexLetter digit) = digit := by
  have hall : ∀ digit < 16, isx (hexLetter digit) = digit := by decide
  exact hall digit h

/-- What was printed is read back. -/
theorem parseHexstrToBinbuff_buffToHexNodelimer (src : List UInt8) :
    parseHexstrToBinbuff (buffToHexNodelimer src) = some src := by
  induction src with
  | nil => rfl
  | cons byte src ih =>
    have hbyte := byte.toNat_lt
    have hhigh : isx (hexLetter (byte.toNat / 16)) = byte.toNat / 16 := isx_hexLetter (by omega)
    have hlow : isx (hexLetter (byte.toNat % 16)) = byte.toNat % 16 := isx_hexLetter (by omega)
    have hjoin : (byte.toNat / 16) <<< 4 ||| byte.toNat % 16 = byte.toNat := by
      have hsplit := Nat.div_add_mod byte.toNat 16
      have hlt : byte.toNat % 16 < 2 ^ 4 := Nat.mod_lt _ (by decide)
      rw [Nat.shiftLeft_eq, Nat.mul_comm, ← Nat.two_pow_add_eq_or_of_lt hlt]
      exact hsplit
    unfold buffToHexNodelimer at ih ⊢
    rw [List.flatMap_cons, List.cons_append, List.cons_append, List.nil_append,
      parseHexstrToBinbuff, hhigh, hlow, if_neg (by omega), if_neg (by omega), ih]
    dsimp only
    rw [hjoin, UInt8.ofNat_toNat]

/-! ## The tool -/

/-- The key functions the tool calls. -/
structure GenesisPrimitives where
  hashToScalar : List Char → SecretKey
  /-- `generate_keys` with the secret key to recover. -/
  generateKeys : SecretKey → Keypair
  generateKeyDerivation : PublicKey → SecretKey → Option KeyDerivation
  derivePublicKey : KeyDerivation → Nat → PublicKey → Option PublicKey

/-- `derive_keypair_from_seed`. -/
def GenesisPrimitives.deriveKeypairFromSeed (G : GenesisPrimitives) (seed : List Char) : Keypair :=
  G.generateKeys (G.hashToScalar seed)

/-- The three key pairs of a seed. -/
structure GenesisKeys where
  spend : Keypair
  view : Keypair
  txkey : Keypair

def GenesisPrimitives.keysOfSeed (G : GenesisPrimitives) (seed : List Char) : GenesisKeys where
  spend := G.deriveKeypairFromSeed (seed ++ ":spend".toList)
  view := G.deriveKeypairFromSeed (seed ++ ":view".toList)
  txkey := G.deriveKeypairFromSeed (seed ++ ":txkey".toList)

/-- What `main` of the tool builds and prints: the transaction, and the text of
    `GENESIS_TX`; `none` where it gives up. -/
def genesisTool {ρ : Type} (R : RctFormat ρ) (G : GenesisPrimitives) (seed : List Char) :
    Option (Transaction ρ × List Char) :=
  let keys := G.keysOfSeed seed
  match sortTxExtra (addTxPubKeyToExtra [] keys.txkey.pub), getBlockReward 0 0 0 1,
    G.generateKeyDerivation keys.view.pub keys.txkey.sec with
  | some extra, some blockReward, some derivation =>
    match G.derivePublicKey derivation 0 keys.spend.pub with
    | none => none
    | some outEphPublicKey =>
      let tx : Transaction ρ :=
        { version := 1
          unlockTime := 10
          vin := [.gen 0]
          vout := [⟨blockReward, .toKey outEphPublicKey⟩]
          extra := extra
          rctSignatures := R.init }
      some (tx, buffToHexNodelimer (tx.toBlob R))
  | _, _, _ => none

/-! ## The node -/

/-- An input as the checks of a miner transaction look at it. -/
def Format.TxIn.toMinerTx : Format.TxIn → Monero.TxIn
  | .gen height => .gen height
  | _ => .other

/-- The type of a target. -/
def Format.TxOutTarget.kind : Format.TxOutTarget → OutputTarget
  | .toKey _ => .toKey
  | .toTaggedKey _ _ => .toTaggedKey
  | _ => .other

/-- A transaction as the checks of a miner transaction look at it. -/
def Format.Transaction.toMinerTx {ρ : Type} (R : RctFormat ρ) (tx : Transaction ρ) : MinerTx where
  version := tx.version
  unlockTime := tx.unlockTime
  vin := tx.vin.map Format.TxIn.toMinerTx
  vout := tx.vout.map fun o => ⟨o.amount, o.target.kind⟩
  rctType := R.type tx.rctSignatures

/-- `find_nonce_for_given_block`; `passes` is the test of a block, and the last nonce is not
    tried. -/
def findNonceForGivenBlock (passes : Block → Bool) : Nat → Block → Block
  | 0, bl => bl
  | fuel + 1, bl =>
    if passes bl then bl
    else findNonceForGivenBlock passes fuel { bl with nonce := bl.nonce + 1 }

/-- `generate_genesis_block`: the block, and its miner transaction in full. -/
def generateGenesisBlock {ρ : Type} (R : RctFormat ρ) (passes : Block → Bool)
    (genesisTx : List Char) (nonce : UInt32) : Option (Block × Transaction ρ) :=
  match parseHexstrToBinbuff genesisTx with
  | none => none
  | some txBl =>
    match Format.parseAndValidateTxFromBlob R txBl with
    | none => none
    | some minerTx =>
      let bl : Block :=
        { majorVersion := 1
          minorVersion := 0
          timestamp := 0
          nonce := nonce
          minerTx := minerTx.toMinerTx R }
      some (findNonceForGivenBlock passes (0xffffffff - nonce).toNat bl, minerTx)

/-- Only the nonce is looked for. -/
theorem findNonceForGivenBlock_minerTx (passes : Block → Bool) (fuel : Nat) (bl : Block) :
    (findNonceForGivenBlock passes fuel bl).minerTx = bl.minerTx := by
  induction fuel generalizing bl with
  | zero => rfl
  | succ fuel ih =>
    unfold findNonceForGivenBlock
    split
    · rfl
    · exact ih _

/-! ## The genesis transaction -/

/-- The amount of the only output. -/
def genesisReward : UInt64 := baseReward 0 1

theorem getBlockReward_genesis : getBlockReward 0 0 0 1 = some genesisReward := by
  decide +kernel

/-- A transaction of the shape the tool builds. -/
def genesisTransaction {ρ : Type} (R : RctFormat ρ) (outKey txPubKey : PublicKey) :
    Transaction ρ where
  version := 1
  unlockTime := 10
  vin := [.gen 0]
  vout := [⟨genesisReward, .toKey outKey⟩]
  extra := addTxPubKeyToExtra [] txPubKey
  rctSignatures := R.init

section Genesis

variable {ρ : Type} (R : RctFormat ρ)

theorem genesisTool_eq {G : GenesisPrimitives} {seed : List Char} {derivation : KeyDerivation}
    {outKey : PublicKey}
    (hderivation : G.generateKeyDerivation (G.keysOfSeed seed).view.pub
      (G.keysOfSeed seed).txkey.sec = some derivation)
    (houtKey : G.derivePublicKey derivation 0 (G.keysOfSeed seed).spend.pub = some outKey) :
    genesisTool R G seed =
      let tx := genesisTransaction R outKey (G.keysOfSeed seed).txkey.pub
      some (tx, buffToHexNodelimer (tx.toBlob R)) := by
  unfold genesisTool
  dsimp only
  rw [sortTxExtra_pubKey, getBlockReward_genesis, hderivation]
  dsimp only
  rw [houtKey]
  rfl

variable (outKey txPubKey : PublicKey)

theorem genesisTransaction_fits : (genesisTransaction R outKey txPubKey).Fits where
  vin_length := Nat.one_lt_two_pow (by decide)
  vout_length := Nat.one_lt_two_pow (by decide)
  extra_length := by
    have hlen : (addTxPubKeyToExtra [] txPubKey).length = 33 := by simp [addTxPubKeyToExtra]
    unfold genesisTransaction
    dsimp only
    rw [hlen]
    decide
  vin := by
    intro i hi
    obtain rfl := List.mem_singleton.mp hi
    trivial
  vout := by
    intro o ho
    obtain rfl := List.mem_singleton.mp ho
    trivial

/-- It is read back, with a list of signatures for its input. -/
theorem parse_genesisTransaction :
    Format.parseAndValidateTxFromBlob R ((genesisTransaction R outKey txPubKey).toBlob R) =
      some { genesisTransaction R outKey txPubKey with signatures := [[]] } := by
  have hparse := Format.Transaction.parse_toBlob_unsigned R (genesisTransaction_fits R outKey txPubKey)
    rfl rfl rfl (by
      intro i hi
      obtain rfl := List.mem_singleton.mp hi
      rfl) rfl
  unfold Format.parseAndValidateTxFromBlob
  rw [hparse]
  rfl

/-- Its list of signatures takes no bytes. -/
theorem toBlob_genesisTransaction :
    Format.Transaction.toBlob R { genesisTransaction R outKey txPubKey with signatures := [[]] } =
      (genesisTransaction R outKey txPubKey).toBlob R := rfl

/-- It is far from the zone in which weight is penalised. -/
theorem genesisTransaction_weight_le :
    Format.Transaction.getTransactionWeight R
      { genesisTransaction R outKey txPubKey with signatures := [[]] } ≤ 200 := by
  have hweight : Format.Transaction.getTransactionWeight R
      { genesisTransaction R outKey txPubKey with signatures := [[]] } =
        (getVarintData 1 ++ (getVarintData 10 ++
          (saveContainer Format.TxIn.save [.gen 0] ++
            (saveContainer Format.TxOut.save [⟨genesisReward, .toKey outKey⟩] ++
              saveContainer (fun byte => [byte]) (addTxPubKeyToExtra [] txPubKey)))) ++ []).length :=
    rfl
  have hversion := length_getVarintData_le 1
  have hunlock := length_getVarintData_le 10
  have hvin := length_saveContainer_le Format.TxIn.save [.gen 0]
  have hvout := length_saveContainer_le Format.TxOut.save [⟨genesisReward, .toKey outKey⟩]
  have hextra := length_saveContainer_le (fun byte => [byte]) (addTxPubKeyToExtra [] txPubKey)
  have hinput : ([.gen 0].flatMap Format.TxIn.save).length = 1 + (getVarintData 0).length := by
    simp [Format.TxIn.save, Nat.add_comm]
  have houtput : ([⟨genesisReward, .toKey outKey⟩].flatMap Format.TxOut.save).length =
      (getVarintData genesisReward).length + 33 := by
    simp [Format.TxOut.save, Format.TxOutTarget.save]
  have hbytes : ((addTxPubKeyToExtra [] txPubKey).flatMap fun byte => [byte]).length = 33 := by
    simp [addTxPubKeyToExtra]
  have hheight := length_getVarintData_le 0
  have hamount := length_getVarintData_le genesisReward
  rw [hweight]
  simp only [List.length_append, List.length_nil]
  omega

/-! ## The genesis block -/

/-- What the tool builds by hand is a miner transaction for the first block. -/
theorem genesisTransaction_pays (signatures : List (List Format.Signature)) :
    (Format.Transaction.toMinerTx R
      { genesisTransaction R outKey txPubKey with signatures }).Pays 0 1 genesisReward where
  version_eq := rfl
  unlockTime_eq := rfl
  vin_eq := rfl
  rctType_eq := R.type_init
  target_eq := by
    intro o ho
    obtain rfl := List.mem_singleton.mp ho
    rfl
  sum_eq := by
    apply ExactSum.cons_iff.mpr
    rw [List.map_nil, List.map_nil, List.map_nil, List.sum_nil, Nat.add_zero]

/-- The node reads the text that was printed, and looks for a nonce. -/
theorem generateGenesisBlock_eq (passes : Block → Bool) (nonce : UInt32) :
    ∃ bl, generateGenesisBlock R passes
        (buffToHexNodelimer ((genesisTransaction R outKey txPubKey).toBlob R)) nonce =
        some (bl, { genesisTransaction R outKey txPubKey with signatures := [[]] }) ∧
      bl.minerTx = Format.Transaction.toMinerTx R
        { genesisTransaction R outKey txPubKey with signatures := [[]] } := by
  unfold generateGenesisBlock
  rw [parseHexstrToBinbuff_buffToHexNodelimer]
  dsimp only
  rw [parse_genesisTransaction]
  exact ⟨_, rfl, findNonceForGivenBlock_minerTx passes _ _⟩

/-- On an empty chain a light block is paid in full. -/
theorem getBlockReward_empty {weight : Nat} (h : weight ≤ 200) :
    getBlockReward (UInt64.ofNat (({} : TemplateNode).rewardMedian 1)) (UInt64.ofNat weight)
      ({} : TemplateNode).db.topGeneratedCoins 1 = some genesisReward := by
  have hmedian : ({} : TemplateNode).rewardMedian 1 = 0 := by
    simp [TemplateNode.rewardMedian, TemplateNode.getLastNBlocksWeights, median]
  have hlight : UInt64.ofNat weight ≤ 20000 := by
    rw [UInt64.le_iff_toNat_le, UInt64.toNat_ofNat_of_lt' (Nat.lt_of_le_of_lt h (by decide))]
    exact Nat.le_trans h (by decide)
  rw [hmedian]
  unfold getBlockReward
  dsimp only
  rw [if_pos (show UInt64.ofNat 0 < getMinBlockWeight 1 by decide),
    if_pos (show UInt64.ofNat weight ≤ getMinBlockWeight 1 from hlight)]
  rfl

/-- The text the tool prints for a seed, as a node takes it: the transaction is read back,
    with a list of no signatures for its input, and the block that holds it passes both checks
    of its miner transaction with nothing to spare. -/
theorem genesisTool_accepted {G : GenesisPrimitives} {seed : List Char}
    {derivation : KeyDerivation} {outKey : PublicKey}
    (hderivation : G.generateKeyDerivation (G.keysOfSeed seed).view.pub
      (G.keysOfSeed seed).txkey.sec = some derivation)
    (houtKey : G.derivePublicKey derivation 0 (G.keysOfSeed seed).spend.pub = some outKey)
    (passes : Block → Bool) (nonce : UInt32) :
    ∃ tx genesisTx bl parsed,
      genesisTool R G seed = some (tx, genesisTx) ∧
      generateGenesisBlock R passes genesisTx nonce = some (bl, parsed) ∧
      tx.signatures = [] ∧ parsed = { tx with signatures := [[]] } ∧
      parsed.toBlob R = tx.toBlob R ∧
      bl.minerTx = parsed.toMinerTx R ∧
      prevalidateMinerTransaction bl (UInt64.ofNat ({} : TemplateNode).db.height) 1 = true ∧
      validateMinerTransaction bl (UInt64.ofNat (({} : TemplateNode).rewardMedian 1))
        (UInt64.ofNat (parsed.getTransactionWeight R)) 0 ({} : TemplateNode).db.topGeneratedCoins
        1 = some (getOutsMoneyAmount bl.minerTx) := by
  have htool := genesisTool_eq R hderivation houtKey
  obtain ⟨bl, hblock, hminerTx⟩ :=
    generateGenesisBlock_eq R outKey (G.keysOfSeed seed).txkey.pub passes nonce
  have hpays := genesisTransaction_pays R outKey (G.keysOfSeed seed).txkey.pub [[]]
  rw [← hminerTx] at hpays
  have hreward := getBlockReward_empty
    (genesisTransaction_weight_le R outKey (G.keysOfSeed seed).txkey.pub)
  have hamount : genesisReward = rewardWithFee genesisReward 0 1 := (UInt64.add_zero _).symm
  rw [hamount] at hpays
  obtain ⟨hvalid, hexact⟩ := hpays.validate (.inl (by decide)) hreward
  rw [UInt64.add_zero] at hexact
  rw [hexact] at hvalid
  exact ⟨_, _, bl, _, htool, hblock, rfl, rfl, toBlob_genesisTransaction R outKey _, hminerTx,
    hpays.prevalidate, hvalid⟩

/-- What is read back is not identical to what was built. -/
theorem genesisTool_ne {G : GenesisPrimitives} {seed : List Char} {derivation : KeyDerivation}
    {outKey : PublicKey}
    (hderivation : G.generateKeyDerivation (G.keysOfSeed seed).view.pub
      (G.keysOfSeed seed).txkey.sec = some derivation)
    (houtKey : G.derivePublicKey derivation 0 (G.keysOfSeed seed).spend.pub = some outKey)
    (passes : Block → Bool) (nonce : UInt32) :
    ¬ ∀ tx genesisTx, genesisTool R G seed = some (tx, genesisTx) →
      ∃ bl, generateGenesisBlock R passes genesisTx nonce = some (bl, tx) := by
  intro hidentical
  obtain ⟨bl, hblock⟩ := hidentical _ _ (genesisTool_eq R hderivation houtKey)
  obtain ⟨bl', hread, -⟩ :=
    generateGenesisBlock_eq R outKey (G.keysOfSeed seed).txkey.pub passes nonce
  rw [hread] at hblock
  obtain ⟨-, hsame⟩ := Prod.mk.inj (Option.some.inj hblock)
  cases congrArg Transaction.signatures hsame

end Genesis

/-! ## The genesis transaction of the test network -/

/-- Ring signatures of `RCTTypeNull`. -/
def nullRct : RctFormat Unit where
  init := ()
  type _ := 0
  type_init := rfl
  save _ _ _ := ([0], true)
  load _ _ := do
    let type ← ByteReader.byte
    ByteReader.require (type = 0)
  expand _ rct := some rct
  weightClawback _ _ := 0

/-- The 32 bytes of a number, the highest first. -/
def keyOfNat (digits : Nat) : Vector UInt8 32 :=
  Vector.ofFn fun i => UInt8.ofNat (digits >>> (8 * (31 - i.val)))

def testnetSeed : List Char := "RandomLite-XRL-Testnet-Genesis".toList

def testnetKeys : GenesisKeys where
  spend := ⟨
    keyOfNat 0x1d9f1eea1e852a45852c8776602b1687c5ef6125ed79720a77f8d9919e2c7b28,
    keyOfNat 0x22868c7d366c5ecf493ab442838143432e4ab07a1c3b80e3216bf00d2fb75704⟩
  view := ⟨
    keyOfNat 0x807eb1dd7d53fbd745f8ec7f09a9acda2c509930ce3e43b36a1b9fb38c9a6a73,
    keyOfNat 0x802cb600617f87ab8684e83a1ae23d69a559a42d258c85cebd00b4fa300cea08⟩
  txkey := ⟨
    keyOfNat 0x2e5354c4be6fe1230b6c2f19219cfc964674867f4be79ffc498257b9e2c41781,
    keyOfNat 0xb6c9b0fe1af715d70b583f0f6af4c5bd41cade035a452a8954ebdecc44b1b709⟩

/-- The key functions where they are called for the seed of the test network. -/
def testnetPrimitives : GenesisPrimitives where
  hashToScalar text :=
    if text = testnetSeed ++ ":spend".toList then testnetKeys.spend.sec
    else if text = testnetSeed ++ ":view".toList then testnetKeys.view.sec
    else testnetKeys.txkey.sec
  generateKeys recovery :=
    if recovery = testnetKeys.spend.sec then testnetKeys.spend
    else if recovery = testnetKeys.view.sec then testnetKeys.view
    else testnetKeys.txkey
  generateKeyDerivation _ _ :=
    some (keyOfNat 0xc480c4c5b0152ea80d682023347b3850dbf0f1fdab67727f35a7a516e6f22571)
  derivePublicKey _ _ _ :=
    some (keyOfNat 0x657e3508743d4ae74ad501239d22a97490aedd73d78f41e54059b9c1a2621d3d)

/-- `GENESIS_TX` of the test network. -/
def testnetGenesisTx : List Char :=
  ("010a01ff0001b3e7a0f7d9fe0302657e3508743d4ae74ad501239d22a97490aedd73d78f41e54059b9c1a2621d" ++
    "3d21012e5354c4be6fe1230b6c2f19219cfc964674867f4be79ffc498257b9e2c41781").toList

/-- The tool prints it. -/
theorem genesisTool_testnet :
    (genesisTool nullRct testnetPrimitives testnetSeed).map (·.2) = some testnetGenesisTx := by
  decide +kernel

/-- The test network has the genesis block that the tool was run for. -/
theorem genesisTool_accepted_sample : ∃ tx bl parsed,
    genesisTool nullRct testnetPrimitives testnetSeed = some (tx, testnetGenesisTx) ∧
    generateGenesisBlock nullRct (fun _ => true) testnetGenesisTx 0x58524c54 =
      some (bl, parsed) ∧
    parsed = { tx with signatures := [[]] } ∧
    prevalidateMinerTransaction bl 0 1 = true ∧
    validateMinerTransaction bl (UInt64.ofNat (({} : TemplateNode).rewardMedian 1))
      (UInt64.ofNat (parsed.getTransactionWeight nullRct)) 0 0 1 =
      some (getOutsMoneyAmount bl.minerTx) := by
  obtain ⟨tx, genesisTx, bl, parsed, htool, hblock, -, hparsed, -, -, hprevalid, hvalid⟩ :=
    @genesisTool_accepted Unit nullRct testnetPrimitives testnetSeed _ _ rfl rfl
      (fun _ => true) 0x58524c54
  have hprinted := genesisTool_testnet
  rw [htool] at hprinted
  have htext : genesisTx = testnetGenesisTx := Option.some.inj hprinted
  rw [htext] at htool hblock
  exact ⟨tx, bl, parsed, htool, hblock, hparsed, hprevalid, hvalid⟩

/-- What is read back is not identical to what the tool built: the tool leaves the list of
    signatures empty. -/
theorem genesisTool_not_identical :
    ¬ ∀ (G : GenesisPrimitives) (seed : List Char) (tx : Transaction Unit)
      (genesisTx : List Char) (passes : Block → Bool) (nonce : UInt32),
      genesisTool nullRct G seed = some (tx, genesisTx) →
        ∃ bl, generateGenesisBlock nullRct passes genesisTx nonce = some (bl, tx) := by
  intro hidentical
  refine @genesisTool_ne Unit nullRct testnetPrimitives testnetSeed _ _ rfl rfl
    (fun _ => true) 0 ?_
  intro tx genesisTx htool
  exact hidentical testnetPrimitives testnetSeed tx genesisTx (fun _ => true) 0 htool

end RandomLite.Monero
