-- SUMMARY: The balances of a wallet over any run: when transfers are exact, and when rescans forget them.
import RandomLite.Prototype.BlockFile
import RandomLite.Prototype.Wallet

/-!
# Balances of a wallet

A rescan sets both balances from the stored chain, a transfer lowers both by the
amount and the fee. The guard of a transfer compares the amount alone with the
unlocked balance, and a rescan knows nothing of earlier transfers; both shape the
conditions below. Mined totals are summed without a machine word (`minedAfter`).
-/

namespace RandomLite

/-! ## What a rescan books -/

namespace EmissionEngine

/-- The rewards of the blocks 1 to `n` in exact arithmetic. -/
def minedAfter : Nat → Nat
  | 0 => 0
  | n + 1 => minedAfter n + (blockReward (n + 1)).toNat

theorem minedAfter_mono {m n : Nat} (h : m ≤ n) : minedAfter m ≤ minedAfter n := by
  induction h with
  | refl => exact Nat.le_refl _
  | step _ ih => exact ih.trans (Nat.le_add_right _ _)

theorem toNat_generatedAfter_eq_mod (n : Nat) :
    (generatedAfter n).toNat = minedAfter n % 2 ^ 64 := by
  induction n with
  | zero => rfl
  | succ n ih =>
    have hreward : getBlockReward (generatedAfter n) (UInt64.ofNat (n + 1)) = blockReward (n + 1) := rfl
    rw [generatedAfter, minedAfter, UInt64.toNat_add, ih, hreward, Nat.mod_add_mod]

end EmissionEngine

namespace Wallet

open EmissionEngine

theorem rescanLoop_succ (topHeight : UInt64) (n : Nat) :
    rescanLoop topHeight (n + 1) = rescanStep topHeight (rescanLoop topHeight n) (n + 1) := by
  unfold rescanLoop
  rw [List.range'_1_concat, List.foldl_concat, Nat.add_comm 1]

theorem rescanLoop_generated (topHeight : UInt64) (n : Nat) :
    (rescanLoop topHeight n).generated = generatedAfter n := by
  induction n with
  | zero => rfl
  | succ n ih => rw [rescanLoop_succ, generatedAfter, ← ih]; rfl

/-- The total and the coins generated are one sum. -/
theorem rescanLoop_total (topHeight : UInt64) (n : Nat) :
    (rescanLoop topHeight n).total = generatedAfter n := by
  induction n with
  | zero => rfl
  | succ n ih =>
    have hgen := rescanLoop_generated topHeight n
    rw [rescanLoop_succ, generatedAfter, ← hgen]
    simp only [rescanStep, ih, hgen]

/-- What is unlocked is part of what was mined. -/
theorem rescanLoop_unlocked_le (topHeight : UInt64) {n : Nat} (h : minedAfter n < 2 ^ 64) :
    (rescanLoop topHeight n).unlocked.toNat ≤ minedAfter n := by
  induction n with
  | zero => exact Nat.le_refl _
  | succ n ih =>
    have hle := ih ((minedAfter_mono (Nat.le_succ n)).trans_lt h)
    have hreward : getBlockReward (rescanLoop topHeight n).generated (UInt64.ofNat (n + 1)) =
        blockReward (n + 1) := by
      rw [rescanLoop_generated]
      rfl
    rw [minedAfter] at h ⊢
    rw [rescanLoop_succ]
    simp only [rescanStep, hreward]
    split
    · rw [UInt64.toNat_add, Nat.mod_eq_of_lt (by omega)]
      omega
    · omega

end Wallet

/-- The blocks a rescan of the directory finds. -/
def DataDir.storedBlocks (dir : DataDir) : Nat := (Wallet.scan dir).2.1.blocks.length

/-- The rewards mined on the chain of the directory. -/
def DataDir.minedTotal (dir : DataDir) : Nat := EmissionEngine.minedAfter (dir.storedBlocks - 1)

theorem Wallet.scan_eq {dir : DataDir} {bytes : List UInt8} (h : dir.blocksDat = some bytes) :
    scan dir = (true, recordVectors 0 (completeRecords recordSize bytes),
      ∅ ∪ (nonEmptyLines (dir.keyImagesDat.getD [])).toFinset) :=
  PersistentDatabase.loadChain_eq rfl h {} ∅

theorem DataDir.storedBlocks_eq {dir : DataDir} {bytes : List UInt8}
    (h : dir.blocksDat = some bytes) : dir.storedBlocks = bytes.length / recordSize := by
  unfold storedBlocks
  rw [Wallet.scan_eq h]
  simp [recordVectors]

namespace Wallet

open EmissionEngine

/-! ## One call -/

/-- A rescan sets both balances when there is a chain, and leaves the wallet otherwise. -/
theorem rescanBlockchain_eq (w : Wallet) (dir : DataDir) :
    w.rescanBlockchain dir =
      if 0 < dir.storedBlocks then
        { w with
          totalBalance := generatedAfter (dir.storedBlocks - 1)
          unlockedBalance :=
            (rescanLoop (UInt64.ofNat dir.storedBlocks) (dir.storedBlocks - 1)).unlocked }
      else w := by
  unfold rescanBlockchain
  cases hfile : dir.blocksDat with
  | none => simp [DataDir.storedBlocks, scan, PersistentDatabase.loadChain, PersistentDatabase.open, hfile]
  | some bytes =>
    have hscan : (scan dir).1 = true := by rw [scan_eq hfile]
    simp only [hscan, Bool.true_and, Bool.not_eq_eq_eq_not, Bool.not_true, List.isEmpty_eq_false_iff,
      ← List.length_pos_iff, rescanLoop_total]
    rfl

/-- The balance a transfer of `amount` takes, in exact arithmetic. -/
def cost (amount : UInt64) : Nat := amount.toNat + transferFee.toNat

theorem cost_pos (amount : UInt64) : 0 < cost amount := by
  have hfee : transferFee.toNat = 1000000000 := by decide
  unfold cost
  omega

/-- The subtraction of a transfer is exact where there is enough. -/
theorem toNat_sub_cost {balance amount : UInt64} (h : cost amount ≤ balance.toNat) :
    (balance - (amount + transferFee)).toNat = balance.toNat - cost amount := by
  have hlt := balance.toNat_lt
  have hsum : (amount + transferFee).toNat = cost amount := by
    rw [UInt64.toNat_add]
    exact Nat.mod_eq_of_lt (by unfold cost at h; omega)
  have hle : amount + transferFee ≤ balance := by
    rw [UInt64.le_iff_toNat_le, hsum]
    exact h
  rw [UInt64.toNat_sub_of_le _ _ hle, hsum]

theorem createTransfer_of_covered {w : Wallet} {amount : UInt64} (h : amount ≤ w.unlockedBalance)
    (dstAddress : String) (txOut : Transaction) :
    w.createTransfer dstAddress amount txOut =
      (none, transferTx txOut,
        { w with
          unlockedBalance := w.unlockedBalance - (amount + transferFee)
          totalBalance := w.totalBalance - (amount + transferFee)
          history := w.history ++ [transferRecord dstAddress amount] }) := by
  unfold createTransfer
  rw [if_neg (UInt64.not_lt.mpr h)]
  rfl

theorem createTransfer_of_not_covered {w : Wallet} {amount : UInt64}
    (h : ¬ amount ≤ w.unlockedBalance) (dstAddress : String) (txOut : Transaction) :
    ∃ errMsg, w.createTransfer dstAddress amount txOut = (some errMsg, txOut, w) := by
  unfold createTransfer
  rw [if_pos (UInt64.not_le.mp h)]
  exact ⟨_, rfl⟩

/-! ## Safety of the balances -/

/-- The state of a new object: both balances are zero, the keys are indeterminate. -/
def constructed (spendPublicKey viewPublicKey spendPrivateKey viewPrivateKey : Vector UInt8 32) :
    Wallet :=
  { spendPublicKey, viewPublicKey, spendPrivateKey, viewPrivateKey }

/-- The unlocked balance is part of the total balance. -/
def Ordered (w : Wallet) : Prop := w.unlockedBalance ≤ w.totalBalance

/-- A transfer does what it reports: success takes exactly the amount and the fee off
    both balances, a failure changes nothing. -/
def ExactTransfer (w : Wallet) : WalletCall → Prop
  | .createTransfer dstAddress amount txOut =>
    let r := w.createTransfer dstAddress amount txOut
    (r.1 = none →
      r.2.2.unlockedBalance.toNat + cost amount = w.unlockedBalance.toNat ∧
        r.2.2.totalBalance.toNat + cost amount = w.totalBalance.toNat) ∧
    (r.1 ≠ none →
      r.2.2.unlockedBalance = w.unlockedBalance ∧ r.2.2.totalBalance = w.totalBalance ∧
        r.2.2.history = w.history ∧ r.2.1 = txOut)
  | _ => True

/-- A transfer whose amount is covered has its fee covered too. -/
def FeeCovered (w : Wallet) : WalletCall → Prop
  | .createTransfer _ amount _ =>
    amount ≤ w.unlockedBalance → cost amount ≤ w.unlockedBalance.toNat
  | _ => True

/-- An exact transfer keeps the balances ordered, and only a transfer that the balance
    covers with its fee is exact. -/
theorem exact_and_ordered_iff {w : Wallet} (h : w.Ordered) {c : WalletCall}
    (hmined : ∀ dir, c = .rescanBlockchain dir → dir.minedTotal < 2 ^ 64) :
    w.ExactTransfer c ∧ (walletMachine.step w c).2.Ordered ↔ w.FeeCovered c := by
  cases c with
  | createNew walletName password draw => exact iff_of_true ⟨trivial, UInt64.le_refl _⟩ trivial
  | rescanBlockchain dir =>
    refine iff_of_true ⟨trivial, ?_⟩ trivial
    simp only [walletMachine, rescanBlockchain_eq]
    split
    · have hfits : minedAfter (dir.storedBlocks - 1) < 2 ^ 64 := hmined dir rfl
      have hle := rescanLoop_unlocked_le (UInt64.ofNat dir.storedBlocks) hfits
      unfold Ordered
      rwa [UInt64.le_iff_toNat_le, toNat_generatedAfter_eq_mod, Nat.mod_eq_of_lt hfits]
    · exact h
  | createTransfer dstAddress amount txOut =>
    simp only [ExactTransfer, FeeCovered, walletMachine]
    by_cases hcov : amount ≤ w.unlockedBalance
    · rw [createTransfer_of_covered hcov]
      have hle : w.unlockedBalance.toNat ≤ w.totalBalance.toNat := UInt64.le_iff_toNat_le.mp h
      constructor
      · rintro ⟨hexact, -⟩ -
        obtain ⟨hunlocked, -⟩ := hexact.1 rfl
        exact Nat.le.intro ((Nat.add_comm _ _).trans hunlocked)
      · intro hfee
        have hunlocked := toNat_sub_cost (hfee hcov)
        have htotal := toNat_sub_cost ((hfee hcov).trans hle)
        refine ⟨⟨fun _ => ⟨?_, ?_⟩, fun hfail => absurd rfl hfail⟩, ?_⟩
        · rw [hunlocked, Nat.sub_add_cancel (hfee hcov)]
        · rw [htotal, Nat.sub_add_cancel ((hfee hcov).trans hle)]
        · unfold Ordered
          rw [UInt64.le_iff_toNat_le, hunlocked, htotal]
          exact Nat.sub_le_sub_right hle _
    · obtain ⟨errMsg, heq⟩ := createTransfer_of_not_covered hcov dstAddress txOut
      rw [heq]
      refine iff_of_true ⟨⟨fun hok => ?_, fun _ => ⟨rfl, rfl, rfl, rfl⟩⟩, h⟩ fun hc => absurd hc hcov
      exact absurd hok (Option.some_ne_none errMsg)

/-- In every run over chains whose mined totals fit in 64 bits, the balances stay ordered
    and all transfers are exact, exactly when every covered amount has its fee covered. -/
theorem balances_safe_iff (spendPublicKey viewPublicKey spendPrivateKey viewPrivateKey : Vector UInt8 32)
    (calls : List WalletCall)
    (hmined : ∀ dir, .rescanBlockchain dir ∈ calls → dir.minedTotal < 2 ^ 64) :
    let w := constructed spendPublicKey viewPublicKey spendPrivateKey viewPrivateKey
    walletMachine.Throughout Ordered w calls ∧ walletMachine.Meets ExactTransfer w calls ↔
      walletMachine.Meets FeeCovered w calls :=
  Machine.throughout_and_meets_iff (J := fun _ => True) calls trivial (UInt64.le_refl 0)
    (fun _ _ _ _ => trivial) fun _ _ hc _ hord =>
      exact_and_ordered_iff hord fun dir heq => hmined dir (heq ▸ hc)

/-- A draw with all keys zero and the first word of the dictionary throughout. -/
def sampleDraw : WalletDraw :=
  { words := Vector.replicate 25 0
    spendPublicKey := zeroHash
    spendPrivateKey := zeroHash
    viewPublicKey := zeroHash
    viewPrivateKey := zeroHash }

/-- A directory with eleven blocks: the genesis block and ten that follow it in time. -/
def sampleDir : DataDir :=
  { blocksDat := some (chainRecords 0 ((List.range 11).map fun i =>
      ({ genesisBlock with timestamp := genesisTimestamp + UInt64.ofNat (150 * i) }, 1))).flatten }

theorem storedBlocks_sampleDir : sampleDir.storedBlocks = 11 := by
  rw [DataDir.storedBlocks_eq rfl, length_flatten_chainRecords, List.length_map, List.length_range]
  rfl

/-- A new wallet scans the eleven blocks and sends a coin. -/
def scannedCalls : List WalletCall :=
  [.createNew "w" "p" sampleDraw, .rescanBlockchain sampleDir, .createTransfer "XRL4" coinUnits {}]

theorem balances_safe_iff_sample :
    let w := constructed zeroHash zeroHash zeroHash zeroHash
    walletMachine.Throughout Ordered w scannedCalls ∧
        walletMachine.Meets ExactTransfer w scannedCalls ↔
      walletMachine.Meets FeeCovered w scannedCalls := by
  refine balances_safe_iff zeroHash zeroHash zeroHash zeroHash scannedCalls ?_
  intro dir hdir
  have heq : dir = sampleDir := by simpa [scannedCalls] using hdir
  rw [heq, DataDir.minedTotal, storedBlocks_sampleDir]
  decide +kernel

/-- A new wallet sends all it has, with nothing left for the fee. -/
def drainingCalls : List WalletCall :=
  [.createNew "w" "p" sampleDraw, .createTransfer "XRL4" (250 * coinUnits) {}]

/-- Its balances end up near 2^64. -/
theorem balances_not_safe :
    ¬ ∀ (spendPublicKey viewPublicKey spendPrivateKey viewPrivateKey : Vector UInt8 32)
      (calls : List WalletCall),
      (∀ dir, .rescanBlockchain dir ∈ calls → dir.minedTotal < 2 ^ 64) →
        let w := constructed spendPublicKey viewPublicKey spendPrivateKey viewPrivateKey
        walletMachine.Throughout Ordered w calls ∧ walletMachine.Meets ExactTransfer w calls := by
  intro h
  have hmined : ∀ dir, .rescanBlockchain dir ∈ drainingCalls → dir.minedTotal < 2 ^ 64 := by
    simp [drainingCalls]
  have hmeets := (balances_safe_iff zeroHash zeroHash zeroHash zeroHash _ hmined).mp
    (h zeroHash zeroHash zeroHash zeroHash _ hmined)
  have hfee := hmeets.2.1 (UInt64.le_refl _)
  revert hfee
  decide

/-! ## Rescans and transfers of one chain -/

/-- What the transfers among the calls cost. -/
def spentBy : List WalletCall → Nat
  | [] => 0
  | .createTransfer _ amount _ :: rest => cost amount + spentBy rest
  | _ :: rest => spentBy rest

/-- The calls of a run over one chain: rescans of it and transfers that succeed. -/
def OverChain (dir : DataDir) (w : Wallet) : WalletCall → Prop
  | .createNew .. => False
  | .rescanBlockchain dir' => dir' = dir
  | .createTransfer _ amount _ => amount ≤ w.unlockedBalance

def IsTransfer : WalletCall → Prop
  | .createTransfer .. => True
  | _ => False

def IsRescan : WalletCall → Prop
  | .rescanBlockchain _ => True
  | _ => False

/-- No rescan comes after a transfer. -/
def RescansFirst (calls : List WalletCall) : Prop :=
  calls.Pairwise fun a b => IsTransfer a → ¬ IsRescan b

/-- What holds before any call, and of every later prefix. -/
theorem forall_prefix_cons_iff {c : WalletCall} {rest : List WalletCall}
    {P : List WalletCall → Prop} (hnil : P []) :
    (∀ before, before <+: c :: rest → P before) ↔ ∀ before, before <+: rest → P (c :: before) := by
  constructor
  · exact fun h before hbefore => h (c :: before) ((List.prefix_cons_inj c).mpr hbefore)
  · intro h before hbefore
    rcases List.prefix_cons_iff.mp hbefore with rfl | ⟨tail, rfl, htail⟩
    · exact hnil
    · exact h tail htail

/-- A rescan finds what was mined, when that fits in 64 bits. -/
theorem totalBalance_rescan (w : Wallet) {dir : DataDir} (hchain : 0 < dir.storedBlocks)
    (hfits : dir.minedTotal < 2 ^ 64) :
    (w.rescanBlockchain dir).totalBalance.toNat = dir.minedTotal := by
  rw [rescanBlockchain_eq, if_pos hchain, toNat_generatedAfter_eq_mod]
  exact Nat.mod_eq_of_lt hfits

/-- What the balance is after a transfer that succeeds. -/
theorem totalBalance_transfer {w : Wallet} {amount : UInt64} (hcov : amount ≤ w.unlockedBalance)
    (hle : cost amount ≤ w.totalBalance.toNat) (dstAddress : String) (txOut : Transaction) :
    (walletMachine.step w (.createTransfer dstAddress amount txOut)).2.totalBalance.toNat +
      cost amount = w.totalBalance.toNat := by
  have hnext : (walletMachine.step w (.createTransfer dstAddress amount txOut)).2.totalBalance =
      w.totalBalance - (amount + transferFee) := by
    simp only [walletMachine, createTransfer_of_covered hcov]
  rw [hnext, toNat_sub_cost hle]
  exact Nat.sub_add_cancel hle

theorem rescansFirst_rescan_cons_iff {dir : DataDir} {rest : List WalletCall} :
    RescansFirst (.rescanBlockchain dir :: rest) ↔ RescansFirst rest := by
  unfold RescansFirst
  rw [List.pairwise_cons]
  exact and_iff_right fun _ _ htransfer => htransfer.elim

/-- After a transfer no rescan may come. -/
theorem rescansFirst_transfer_cons_iff {dstAddress : String} {amount : UInt64} {txOut : Transaction}
    {rest : List WalletCall} :
    RescansFirst (.createTransfer dstAddress amount txOut :: rest) ↔
      (∀ c ∈ rest, ¬ IsRescan c) ∧ RescansFirst rest := by
  unfold RescansFirst
  rw [List.pairwise_cons]
  refine and_congr_left fun _ => ?_
  exact ⟨fun h c hc => h c hc trivial, fun h c hc _ => h c hc⟩

/-- After every call the total balance is what was mined less what was spent, exactly
    when all that is spent was mined and no rescan follows a transfer. -/
theorem balance_tracked_iff {dir : DataDir} (hchain : 0 < dir.storedBlocks)
    (hfits : dir.minedTotal < 2 ^ 64) (calls : List WalletCall) {w : Wallet} {spent : Nat}
    (hw : w.totalBalance.toNat + spent = dir.minedTotal)
    (hcalls : walletMachine.Meets (OverChain dir) w calls) :
    (∀ before, before <+: calls →
        (walletMachine.final w before).totalBalance.toNat + (spent + spentBy before) =
          dir.minedTotal) ↔
      spent + spentBy calls ≤ dir.minedTotal ∧ (0 < spent → ∀ c ∈ calls, ¬ IsRescan c) ∧
        RescansFirst calls := by
  induction calls generalizing w spent with
  | nil =>
    refine iff_of_true ?_ ⟨Nat.le.intro ((Nat.add_comm _ _).trans hw), by simp, .nil⟩
    intro before hbefore
    rw [List.prefix_nil.mp hbefore]
    exact hw
  | cons c rest ih =>
    obtain ⟨hc, hrest⟩ := hcalls
    rw [forall_prefix_cons_iff (by exact hw)]
    simp only [Machine.final_cons]
    cases c with
    | createNew walletName password draw => exact hc.elim
    | rescanBlockchain dir' =>
      obtain rfl : dir' = dir := hc
      have htotal := totalBalance_rescan w hchain hfits
      rcases Nat.eq_zero_or_pos spent with rfl | hspent
      · rw [show spentBy (.rescanBlockchain dir' :: rest) = spentBy rest from rfl,
          rescansFirst_rescan_cons_iff]
        have hiff := ih (show _ + 0 = _ from htotal) hrest
        refine hiff.trans (and_congr_right fun _ => ?_)
        simp
      · constructor
        · intro h
          have hnow := h [] List.nil_prefix
          simp only [Machine.final_nil, walletMachine, htotal] at hnow
          omega
        · rintro ⟨-, hnone, -⟩
          exact absurd trivial (hnone hspent (.rescanBlockchain dir') List.mem_cons_self)
    | createTransfer dstAddress amount txOut =>
      have hcov : amount ≤ w.unlockedBalance := hc
      have hcost := cost_pos amount
      rw [rescansFirst_transfer_cons_iff]
      by_cases hle : cost amount ≤ w.totalBalance.toNat
      · have htotal := totalBalance_transfer hcov hle dstAddress txOut
        have hsum : (walletMachine.step w (.createTransfer dstAddress amount txOut)).2.totalBalance.toNat +
            (spent + cost amount) = dir.minedTotal := by omega
        have hiff := ih hsum hrest
        simp only [spentBy, ← Nat.add_assoc] at hiff ⊢
        refine hiff.trans (and_congr_right fun _ => ?_)
        constructor
        · rintro ⟨hnone, hfirst⟩
          have hrescan := hnone (by omega)
          exact ⟨fun _ => List.forall_mem_cons.mpr ⟨id, hrescan⟩, hrescan, hfirst⟩
        · rintro ⟨-, hrescan, hfirst⟩
          exact ⟨fun _ => hrescan, hfirst⟩
      · constructor
        · intro h
          have hnow := h [] List.nil_prefix
          simp only [Machine.final_nil, spentBy] at hnow
          omega
        · rintro ⟨henough, -⟩
          simp only [spentBy] at henough
          omega

/-- A run that begins with a rescan of a chain, and goes on with rescans of it and
    transfers, keeps the total balance at what was mined less what was spent exactly when
    the mined total fits in 64 bits, covers what is spent, and no rescan follows a transfer. -/
theorem balance_of_rescan_run_iff (w : Wallet) {dir : DataDir} (hchain : 0 < dir.storedBlocks)
    {calls : List WalletCall}
    (hcalls : walletMachine.Meets (OverChain dir) (w.rescanBlockchain dir) calls) :
    (∀ before, before <+: calls →
        (walletMachine.final (w.rescanBlockchain dir) before).totalBalance.toNat + spentBy before =
          dir.minedTotal) ↔
      dir.minedTotal < 2 ^ 64 ∧ spentBy calls ≤ dir.minedTotal ∧ RescansFirst calls := by
  rcases Nat.lt_or_ge dir.minedTotal (2 ^ 64) with hfits | hlarge
  · have htotal : (w.rescanBlockchain dir).totalBalance.toNat + 0 = dir.minedTotal :=
      totalBalance_rescan w hchain hfits
    have hiff := balance_tracked_iff hchain hfits calls htotal hcalls
    simp only [Nat.zero_add, Nat.lt_irrefl, false_implies, true_and] at hiff
    exact hiff.trans (and_iff_right hfits).symm
  · constructor
    · intro h
      have hstart := h [] List.nil_prefix
      have hlt := (w.rescanBlockchain dir).totalBalance.toNat_lt
      simp only [Machine.final_nil, spentBy] at hstart
      omega
    · rintro ⟨hfits, -⟩
      exact absurd hfits (Nat.not_lt.mpr hlarge)

/-- One coin is sent from the eleven blocks, and the chain is scanned again. -/
def forgetfulCalls : List WalletCall :=
  [.createTransfer "XRL4" coinUnits {}, .rescanBlockchain sampleDir]

theorem forgetfulCalls_overChain (w : Wallet) :
    walletMachine.Meets (OverChain sampleDir) (w.rescanBlockchain sampleDir) forgetfulCalls := by
  refine ⟨?_, rfl, trivial⟩
  show coinUnits ≤ (w.rescanBlockchain sampleDir).unlockedBalance
  rw [rescanBlockchain_eq, storedBlocks_sampleDir, if_pos (by decide)]
  show coinUnits ≤ (rescanLoop (UInt64.ofNat 11) (11 - 1)).unlocked
  decide +kernel

theorem balance_of_rescan_run_iff_sample :
    (∀ before, before <+: forgetfulCalls →
        (walletMachine.final (({} : Wallet).rescanBlockchain sampleDir) before).totalBalance.toNat +
          spentBy before = sampleDir.minedTotal) ↔
      sampleDir.minedTotal < 2 ^ 64 ∧ spentBy forgetfulCalls ≤ sampleDir.minedTotal ∧
        RescansFirst forgetfulCalls :=
  balance_of_rescan_run_iff {} (by rw [storedBlocks_sampleDir]; decide) (forgetfulCalls_overChain {})

/-- The second scan gives back the coin that was sent. -/
theorem rescan_resurrects :
    ¬ ∀ (w : Wallet) (dir : DataDir) (calls : List WalletCall), 0 < dir.storedBlocks →
      walletMachine.Meets (OverChain dir) (w.rescanBlockchain dir) calls →
        ∀ before, before <+: calls →
          (walletMachine.final (w.rescanBlockchain dir) before).totalBalance.toNat +
            spentBy before = dir.minedTotal := by
  intro h
  have hchain : 0 < sampleDir.storedBlocks := by
    rw [storedBlocks_sampleDir]
    decide
  have htracked := h {} sampleDir forgetfulCalls hchain (forgetfulCalls_overChain {})
  have hcond := (balance_of_rescan_run_iff {} hchain (forgetfulCalls_overChain {})).mp htracked
  exact (List.pairwise_cons.mp hcond.2.2).1 _ List.mem_cons_self trivial trivial

end Wallet

end RandomLite
