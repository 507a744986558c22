-- SUMMARY: Which keys of the seed epochs a node hands to the RandomX manager, over every run with restarts.
import RandomLite.Prototype.Restart

/-!
# Seed epochs

`add_new_block` hands over the key of an epoch when the block that leaves 63 to go
arrives, and at no other time; `init` hands over the genesis seed alone. So an epoch
gets its key from the session that sees that one block, and a node that is started
again between that block and the boundary enters the epoch without it.
-/

namespace RandomLite

/-! ## Keys -/

/-- The key a call hands over. -/
def RandomXCall.key : RandomXCall → String
  | .initDataset key _ => key
  | .preallocateNextEpoch nextKey _ => nextKey

/-- The key of an epoch. -/
def epochKey (k : Nat) : String := "randomlite_seed_epoch_" ++ toString k

/-- How often the calls hand over a key. -/
def handedOver (key : String) (calls : List RandomXCall) : Nat :=
  calls.countP fun c => c.key == key

theorem epochKey_toList (k : Nat) :
    (epochKey k).toList = "randomlite_seed_epoch_".toList ++ Nat.toDigits 10 k := by
  unfold epochKey
  rw [String.toList_append, show toString k = Nat.repr k from rfl, Nat.toList_repr]

theorem epochKey_injective : Function.Injective epochKey := by
  intro j k h
  have hlists := congrArg String.toList h
  rw [epochKey_toList, epochKey_toList, List.append_cancel_left_eq] at hlists
  have hvalues := congrArg (Nat.ofDigitChars 10 · 0) hlists
  simpa using hvalues

theorem epochKey_ne {key : String} (h : ¬ "randomlite_seed_epoch_".toList <+: key.toList)
    (k : Nat) : key ≠ epochKey k := by
  rintro rfl
  apply h
  rw [epochKey_toList]
  exact List.prefix_append _ _

@[simp] theorem handedOver_nil (key : String) : handedOver key [] = 0 := rfl

@[simp] theorem handedOver_append (key : String) (cs cs' : List RandomXCall) :
    handedOver key (cs ++ cs') = handedOver key cs + handedOver key cs' :=
  List.countP_append

/-- The genesis seed is no key of an epoch. -/
@[simp] theorem handedOver_genesis (k : Nat) :
    handedOver (epochKey k) [.initDataset "randomlite_genesis_seed" 22] = 0 := by
  have hne : "randomlite_genesis_seed" ≠ epochKey k := epochKey_ne (by decide) k
  simp [handedOver, RandomXCall.key, hne]

/-- Neither is the default seed of `calculate_hash`. -/
@[simp] theorem handedOver_default (k : Nat) :
    handedOver (epochKey k) [.initDataset "randomlite_seed_v1" 17] = 0 := by
  have hne : "randomlite_seed_v1" ≠ epochKey k := epochKey_ne (by decide) k
  simp [handedOver, RandomXCall.key, hne]

theorem handedOver_preallocate (j k size : Nat) :
    handedOver (epochKey j) [.preallocateNextEpoch (epochKey k) size] =
      if k = j then 1 else 0 := by
  by_cases h : k = j
  · simp [handedOver, RandomXCall.key, h]
  · have hne : epochKey k ≠ epochKey j := fun heq => h (epochKey_injective heq)
    simp [handedOver, RandomXCall.key, h, hne]

/-! ## What a call hands over -/

/-- `std::vector::max_size` is at most this. -/
def vectorMaxSize : Nat := 2 ^ 63 - 1

theorem Blockchain.getCurrentSeedEpoch_toNat {c : Blockchain}
    (h : c.blocks.length ≤ vectorMaxSize) :
    c.getCurrentSeedEpoch.toNat = c.blocks.length / 1440 := by
  unfold vectorMaxSize at h
  have hlt : c.blocks.length < UInt64.size := by
    unfold UInt64.size
    omega
  unfold getCurrentSeedEpoch getCurrentHeight seedHashEpochBlocks
  rw [UInt64.toNat_div, UInt64.toNat_ofNat_of_lt' hlt]
  rfl

/-- `new` is what a call adds to the calls on the manager, while the chain grows from
    `size` to `size'` blocks: the keys of the epochs whose block with 63 to go came. -/
def HandsOver (new : List RandomXCall) (size size' : Nat) : Prop :=
  size' ≤ vectorMaxSize → ∀ j, handedOver (epochKey j) new =
    if size + 63 < 1440 * j ∧ 1440 * j ≤ size' + 63 then 1 else 0

theorem HandsOver.nil (size : Nat) : HandsOver [] size size := by
  intro _ j
  rw [handedOver_nil, if_neg (by omega)]

theorem HandsOver.append {new new' : List RandomXCall} {size size' size'' : Nat}
    (h : HandsOver new size size') (h' : HandsOver new' size' size'')
    (hle : size ≤ size') (hle' : size' ≤ size'') : HandsOver (new ++ new') size size'' := by
  intro hsize j
  rw [handedOver_append, h (hle'.trans hsize) j, h' hsize j]
  split_ifs <;> omega

/-- The default seed that `calculate_hash` may initialise. -/
theorem RandomXManager.ensureInitialized_calls (m : RandomXManager) (size : Nat) :
    ∃ new, m.ensureInitialized.calls = m.calls ++ new ∧ HandsOver new size size := by
  unfold ensureInitialized
  split
  · exact ⟨[], (List.append_nil _).symm, .nil size⟩
  · refine ⟨_, rfl, ?_⟩
    intro _ j
    rw [handedOver_default, if_neg (by omega)]

/-- Step 4 of `add_new_block`, on the chain with the block pushed. -/
theorem Node.preallocateSeed_calls (c : Blockchain) (m : RandomXManager) {size : Nat}
    (hlen : c.blocks.length = size + 1) :
    ∃ new, (preallocateSeed (UInt64.ofNat size) c m).calls = m.calls ++ new ∧
      HandsOver new size (size + 1) := by
  by_cases hmax : size + 1 ≤ vectorMaxSize
  · have hsize : size < 2 ^ 63 - 1 := hmax
    have hlt : size < UInt64.size := by
      unfold UInt64.size
      omega
    have hdue : (UInt64.ofNat size + seedHashLagBlocks) % seedHashEpochBlocks = 0 ↔
        (size + 64) % 1440 = 0 := by
      unfold seedHashLagBlocks seedHashEpochBlocks
      rw [← UInt64.toNat_inj, UInt64.toNat_mod, UInt64.toNat_add,
        UInt64.toNat_ofNat_of_lt' hlt]
      have hsum : (size + (64 : UInt64).toNat) % 2 ^ 64 = size + 64 :=
        Nat.mod_eq_of_lt (by rw [show (64 : UInt64).toNat = 64 from rfl]; omega)
      rw [hsum]
      exact Iff.rfl
    have hepoch : (c.getCurrentSeedEpoch + 1).toNat = (size + 1) / 1440 + 1 := by
      have hk := Blockchain.getCurrentSeedEpoch_toNat (hlen ▸ hmax)
      rw [hlen] at hk
      rw [UInt64.toNat_add, hk]
      exact Nat.mod_eq_of_lt (by rw [show (1 : UInt64).toNat = 1 from rfl]; omega)
    unfold preallocateSeed
    split
    · rename_i htrigger
      have hmod := hdue.mp htrigger
      refine ⟨_, rfl, ?_⟩
      intro _ j
      -- The index is computed after the push: it is that of the epoch 63 blocks ahead.
      rw [hepoch, show "randomlite_seed_epoch_" ++ toString ((size + 1) / 1440 + 1) =
        epochKey ((size + 1) / 1440 + 1) from rfl, handedOver_preallocate]
      split_ifs <;> omega
    · rename_i htrigger
      have hmod := mt hdue.mpr htrigger
      refine ⟨[], (List.append_nil _).symm, ?_⟩
      intro _ j
      rw [handedOver_nil, if_neg (by omega)]
  · -- No vector is that long; what is handed over then does not matter.
    have hprefix : m.calls <+: (preallocateSeed (UInt64.ofNat size) c m).calls := by
      unfold preallocateSeed
      split
      · exact List.prefix_append _ _
      · exact List.prefix_refl _
    obtain ⟨new, hnew⟩ := hprefix
    exact ⟨new, hnew.symm, fun h => absurd h hmax⟩

/-- `add_new_block` on the manager: a refused block may bring in the default seed. -/
theorem Node.addNewBlock_randomx (P : Platform) (n : Node) (b : Block) (now : UInt64)
    (io : AppendOutcome) :
    let n' := (n.addNewBlock P b now io).2
    (n'.chain.blocks = n.chain.blocks ∧
      (n'.randomx = n.randomx ∨ n'.randomx = n.randomx.ensureInitialized)) ∨
    (n'.chain.blocks = n.chain.blocks ++ [b] ∧
      n'.randomx = preallocateSeed n.chain.getCurrentHeight n'.chain
        n.randomx.ensureInitialized) := by
  intro n'
  unfold n' addNewBlock
  split
  · exact .inl ⟨rfl, .inl rfl⟩
  split
  · exact .inl ⟨rfl, .inl rfl⟩
  split
  · exact .inl ⟨rfl, .inl rfl⟩
  split
  · exact .inl ⟨rfl, .inl rfl⟩
  dsimp only
  split
  · exact .inr ⟨rfl, rfl⟩
  · exact .inl ⟨rfl, .inr rfl⟩

theorem Node.addNewBlock_calls (P : Platform) (n : Node) (b : Block) (now : UInt64)
    (io : AppendOutcome) :
    let n' := (n.addNewBlock P b now io).2
    ∃ new, n'.randomx.calls = n.randomx.calls ++ new ∧
      n.chain.blocks.length ≤ n'.chain.blocks.length ∧
      HandsOver new n.chain.blocks.length n'.chain.blocks.length := by
  intro n'
  obtain ⟨seed, hseed, hnone⟩ :=
    n.randomx.ensureInitialized_calls n.chain.blocks.length
  rcases n.addNewBlock_randomx P b now io with ⟨hblocks, hsame | hinit⟩ | ⟨hblocks, hpush⟩
  · refine ⟨[], ?_, ?_⟩
    · rw [List.append_nil, hsame]
    · rw [hblocks]
      exact ⟨Nat.le_refl _, .nil _⟩
  · refine ⟨seed, ?_, ?_⟩
    · rw [hinit, hseed]
    · rw [hblocks]
      exact ⟨Nat.le_refl _, hnone⟩
  · have hlen : n'.chain.blocks.length = n.chain.blocks.length + 1 := by
      rw [hblocks, List.length_append, List.length_singleton]
    obtain ⟨new, hnew, hover⟩ :=
      preallocateSeed_calls n'.chain n.randomx.ensureInitialized hlen
    refine ⟨seed ++ new, ?_, ?_⟩
    · rw [hpush, ← List.append_assoc, ← hseed]
      exact hnew
    · rw [hlen]
      exact ⟨Nat.le_succ _, hnone.append hover (Nat.le_refl _) (Nat.le_succ _)⟩

@[simp] theorem Node.init_calls (io : AppendOutcome) (n : Node) :
    (n.init io).randomx.calls =
      n.randomx.calls ++ [.initDataset "randomlite_genesis_seed" 22] := by
  unfold init
  dsimp only
  split <;> rfl

/-! ## Sessions -/

/-- A node together with what its last `init` found: the number of blocks on the chain
    when it returned, and the number of calls on the manager made before it. -/
structure Session where
  node : Node
  blocksAtInit : Nat
  callsBeforeInit : Nat

namespace Session

/-- The calls on the manager since the last `init`, its own included. -/
def callsSinceInit (s : Session) : List RandomXCall := s.node.randomx.calls.drop s.callsBeforeInit

/-- A session that has just begun on a node, in a process with the calls made before. -/
def begun (node : Node) (callsBeforeInit : Nat) : Session where
  node := node
  blocksAtInit := node.chain.blocks.length
  callsBeforeInit := callsBeforeInit

def started (dir : DataDir) (io : AppendOutcome) : Session := begun (Node.started dir io) 0

end Session

/-- The chain under arbitrary calls, with its sessions. -/
def sessionMachine (P : Platform) : Machine Session Call Reply where
  step s c :=
    let (r, node) := (chainMachine P).step s.node c
    match c with
    | .init _ => (r, .begun node s.node.randomx.calls.length)
    | .restart _ => (r, .begun node 0)
    | _ => (r, { s with node := node })

/-- It is the chain machine with a note kept beside it. -/
theorem sessionMachine_agreement (P : Platform) :
    Machine.Agreement (sessionMachine P) (chainMachine P) fun s n => s.node = n := by
  rintro s _ c rfl
  cases c <;> exact ⟨rfl, rfl⟩

/-- A shutdown leaves nothing behind for the process after it but the files. -/
theorem sessionMachine_shutdown_restart (P : Platform) (s : Session) (io : AppendOutcome) :
    (sessionMachine P).final s [.shutdown, .restart io] = .begun (s.node.restart io) 0 := rfl

namespace Session

/-- The key of the current epoch was handed over exactly once since the last `init`. -/
def SeedHandedOver (s : Session) : Prop :=
  1 ≤ s.node.chain.getCurrentSeedEpoch.toNat →
    handedOver (epochKey s.node.chain.getCurrentSeedEpoch.toNat) s.callsSinceInit = 1

/-- What a session has handed over: the keys of the epochs whose block with 63 to go
    came in this session. -/
structure SeedInvariant (s : Session) : Prop where
  callsBeforeInit_le : s.callsBeforeInit ≤ s.node.randomx.calls.length
  blocksAtInit_le : s.blocksAtInit ≤ s.node.chain.blocks.length
  handsOver : HandsOver s.callsSinceInit s.blocksAtInit s.node.chain.blocks.length

namespace SeedInvariant

variable {s : Session}

/-- A session begins with the genesis seed. -/
theorem begun {node : Node} {k : Nat} {before : List RandomXCall} (hk : before.length = k)
    (hcalls : node.randomx.calls = before ++ [.initDataset "randomlite_genesis_seed" 22]) :
    (Session.begun node k).SeedInvariant := by
  have hsince : (Session.begun node k).callsSinceInit =
      [.initDataset "randomlite_genesis_seed" 22] := by
    unfold callsSinceInit Session.begun
    rw [hcalls, ← hk, List.drop_left]
  refine ⟨?_, Nat.le_refl _, ?_⟩
  · unfold Session.begun
    rw [hcalls, ← hk, List.length_append]
    exact Nat.le_add_right _ _
  · intro _ j
    rw [hsince, handedOver_genesis]
    symm
    apply if_neg
    rintro ⟨hlow, hhigh⟩
    exact absurd (hlow.trans_le hhigh) (Nat.lt_irrefl _)

theorem started (dir : DataDir) (io : AppendOutcome) : (Session.started dir io).SeedInvariant :=
  begun List.length_nil (Node.init_calls io _)

/-- Within a session the calls on the manager are added to those made before. -/
theorem continued (h : s.SeedInvariant) {n : Node} {new : List RandomXCall}
    (hcalls : n.randomx.calls = s.node.randomx.calls ++ new)
    (hle : s.node.chain.blocks.length ≤ n.chain.blocks.length)
    (hover : HandsOver new s.node.chain.blocks.length n.chain.blocks.length) :
    ({ s with node := n } : Session).SeedInvariant := by
  have hsince : ({ s with node := n } : Session).callsSinceInit = s.callsSinceInit ++ new := by
    unfold callsSinceInit
    rw [hcalls, List.drop_append_of_le_length h.callsBeforeInit_le]
  refine ⟨?_, h.blocksAtInit_le.trans hle, ?_⟩
  · rw [hcalls, List.length_append]
    exact h.callsBeforeInit_le.trans (Nat.le_add_right _ _)
  · rw [hsince]
    exact h.handsOver.append hover h.blocksAtInit_le hle

theorem unchanged (h : s.SeedInvariant) {n : Node}
    (hcalls : n.randomx.calls = s.node.randomx.calls)
    (hblocks : n.chain.blocks = s.node.chain.blocks) :
    ({ s with node := n } : Session).SeedInvariant := by
  refine h.continued (List.append_nil _ ▸ hcalls : n.randomx.calls = _ ++ []) ?_ ?_
  · rw [hblocks]
  · rw [hblocks]
    exact .nil _

theorem step (P : Platform) (h : s.SeedInvariant) (c : Call) :
    ((sessionMachine P).step s c).2.SeedInvariant := by
  cases c with
  | addTx tx now => exact h.unchanged rfl rfl
  | verifyTransaction tx currentHeight => exact h.unchanged rfl rfl
  | addNewBlock b now io =>
    obtain ⟨new, hcalls, hle, hover⟩ := s.node.addNewBlock_calls P b now io
    exact h.continued hcalls hle hover
  | shutdown => exact h.unchanged rfl rfl
  | init io => exact begun rfl (Node.init_calls io s.node)
  | restart io => exact begun List.length_nil (Node.init_calls io _)

theorem run (P : Platform) (dir : DataDir) (io : AppendOutcome) (calls : List Call) :
    ((sessionMachine P).final (.started dir io) calls).SeedInvariant := by
  refine Machine.final_induction calls (started dir io) ?_
  intro s c _ h
  exact h.step P c

theorem seedHandedOver_iff (h : s.SeedInvariant)
    (hmax : s.node.chain.blocks.length ≤ vectorMaxSize) :
    s.SeedHandedOver ↔ s.node.chain.blocks.length < 1440 ∨
      s.blocksAtInit + 64 ≤ 1440 * (s.node.chain.blocks.length / 1440) := by
  unfold SeedHandedOver
  rw [Blockchain.getCurrentSeedEpoch_toNat hmax, h.handsOver hmax]
  split
  · rename_i hin
    exact iff_of_true (fun _ => rfl) (.inr (by omega))
  · rename_i hout
    constructor
    · intro hnone
      by_contra hepoch
      have hzero := hnone (by omega)
      exact absurd hzero (by decide)
    · intro hearly hepoch
      exact absurd hout (by omega)

/-- A session that begins with 1440 blocks on the chain misses the key of its epoch. -/
theorem not_seedHandedOver_of_begun {node : Node} {k : Nat}
    (h : (Session.begun node k).SeedInvariant) (hlen : node.chain.blocks.length = 1440) :
    ¬ (Session.begun node k).SeedHandedOver := by
  have hmax : (Session.begun node k).node.chain.blocks.length ≤ vectorMaxSize := by
    rw [show (Session.begun node k).node.chain.blocks.length = 1440 from hlen]
    decide
  rw [h.seedHandedOver_iff hmax]
  unfold Session.begun
  dsimp only
  rw [hlen]
  decide

end SeedInvariant

/-- In every state of every run, the key of the current epoch was handed over exactly once
    since the last `init` if and only if this is epoch zero or that `init` left at least 64
    blocks to the boundary. -/
theorem seedHandedOver_of_run_iff (P : Platform) (dir : DataDir) (io : AppendOutcome)
    (calls : List Call) :
    let s := (sessionMachine P).final (.started dir io) calls
    s.node.chain.blocks.length ≤ vectorMaxSize →
      (s.SeedHandedOver ↔ s.node.chain.blocks.length < 1440 ∨
        s.blocksAtInit + 64 ≤ 1440 * (s.node.chain.blocks.length / 1440)) := by
  intro s hmax
  exact (SeedInvariant.run P dir io calls).seedHandedOver_iff hmax

end Session

/-! ## Up to the first boundary, and a restart on it -/

/-- A hash field with the simulated hash zero. -/
def easyHash : CryptoHash := Vector.ofFn fun i => 0 - UInt8.ofNat (i.val * 7)

/-- Blocks 150 seconds apart that pass the test at every difficulty. -/
def easyBlock : Nat → Block
  | 0 => genesisBlock
  | k + 1 =>
    { timestamp := (easyBlock k).timestamp + 150
      prevId := (easyBlock k).hash
      hash := easyHash }

/-- The submission of the first blocks, each at its own time, with complete writes. -/
def easyCalls (m : Nat) : List Call :=
  (List.range m).map fun k =>
    .addNewBlock (easyBlock (k + 1)) (easyBlock (k + 1)).timestamp (.wrote recordSize)

theorem easyBlock_timestamp {k : Nat} (hk : k ≤ 2 ^ 32) :
    (easyBlock k).timestamp.toNat = genesisTimestamp.toNat + 150 * k := by
  have hgenesis : genesisTimestamp.toNat = 1788461926 := rfl
  induction k with
  | zero => rfl
  | succ k ih =>
    have hprevious := ih (by omega)
    rw [easyBlock, UInt64.toNat_add, hprevious, hgenesis,
      show (150 : UInt64).toNat = 150 from rfl]
    omega

/-- Zero is a hash for every difficulty. -/
theorem checkPowHash_easyHash {d : UInt64} (hd : 1 ≤ d) :
    checkPowHash (Platform.shipped.randomx easyHash) d = true := by
  have hzero : powHashValue (Platform.shipped.randomx easyHash) = 0 := by decide +kernel
  rw [checkPowHash_iff, hzero, Nat.zero_mul]
  refine ⟨?_, Nat.zero_le _⟩
  rintro rfl
  exact absurd hd (by decide)

/-- On its predecessor such a block keeps the rules. -/
theorem admissible_easyBlock {c : Blockchain} {k : Nat} (hk : k < 2 ^ 32)
    (htop : c.blocks.getLast? = some (easyBlock k)) :
    c.Admissible .shipped (easyBlock (k + 1)) (easyBlock (k + 1)).timestamp := by
  have hgenesis : genesisTimestamp.toNat = 1788461926 := rfl
  have hbefore := easyBlock_timestamp (k := k) (by omega)
  have hafter := easyBlock_timestamp (k := k + 1) hk
  refine ⟨⟨easyBlock k, htop, rfl, ?_⟩, ?_, ?_⟩
  · rw [UInt64.lt_iff_toNat_lt, hbefore, hafter]
    omega
  · rw [UInt64.le_iff_toNat_le, UInt64.toNat_add, hafter,
      show cryptonoteBlockFutureTimeLimit.toNat = 7200 from rfl]
    omega
  · exact checkPowHash_easyHash (one_le_nextDifficultyLwma3 _ _ _ _ _)

/-- They all make it onto the chain and into the file. -/
theorem easyCalls_final {m : Nat} (hm : m ≤ 2 ^ 32) :
    let n := (chainMachine .shipped).final (Node.started {} (.wrote recordSize)) (easyCalls m)
    n.chain.blocks.length = m + 1 ∧ n.chain.blocks.getLast? = some (easyBlock m) ∧
      n.Persisted := by
  have hio : (AppendOutcome.wrote recordSize).Complete := by decide
  induction m with
  | zero => exact ⟨rfl, rfl, Node.Persisted.started hio⟩
  | succ m ih =>
    obtain ⟨hlen, htop, hpersisted⟩ := ih (by omega)
    intro n
    have hadm := admissible_easyBlock (k := m) (by omega) htop
    have hn : n = (((chainMachine .shipped).final (Node.started {} (.wrote recordSize))
        (easyCalls m)).addNewBlock .shipped (easyBlock (m + 1)) (easyBlock (m + 1)).timestamp
        (.wrote recordSize)).2 := by
      unfold n easyCalls
      rw [List.range_succ, List.map_append, Machine.final_append]
      rfl
    refine ⟨?_, ?_, ?_⟩
    · rw [hn, Node.addNewBlock_of_admissible hadm]
      simp [Node.commitBlock, hlen]
    · rw [hn, Node.addNewBlock_of_admissible hadm]
      simp [Node.commitBlock]
    · rw [hn]
      exact hpersisted.addNewBlock _ _ hio

namespace Session

/-- The session they are taken in, at its end. -/
def easySession (m : Nat) : Session :=
  (sessionMachine .shipped).final (.started {} (.wrote recordSize)) (easyCalls m)

theorem easySession_node (m : Nat) : (easySession m).node =
    (chainMachine .shipped).final (Node.started {} (.wrote recordSize)) (easyCalls m) :=
  (sessionMachine_agreement .shipped).final_related rfl (easyCalls m)

/-- No `init` comes between. -/
theorem easySession_blocksAtInit (m : Nat) : (easySession m).blocksAtInit = 1 := by
  have hstart : (Session.started {} (.wrote recordSize)).blocksAtInit = 1 := by decide +kernel
  refine Machine.final_induction (I := fun s : Session => s.blocksAtInit = 1) _ hstart ?_
  intro s c hc hs
  obtain ⟨k, -, rfl⟩ := List.mem_map.mp hc
  exact hs

/-- Block 1440 of a session that began with the genesis block finds the key of epoch 1
    handed over, exactly once. -/
theorem seedHandedOver_of_run_iff_sample :
    (easySession 1439).node.chain.getCurrentSeedEpoch = 1 ∧ (easySession 1439).SeedHandedOver := by
  have hlen : (easySession 1439).node.chain.blocks.length = 1440 := by
    rw [easySession_node]
    exact (easyCalls_final (m := 1439) (by omega)).1
  have hmax : (easySession 1439).node.chain.blocks.length ≤ vectorMaxSize := by
    rw [hlen]
    decide
  have hearly : (easySession 1439).blocksAtInit + 64 ≤
      1440 * ((easySession 1439).node.chain.blocks.length / 1440) := by
    rw [hlen, easySession_blocksAtInit]
    decide
  refine ⟨?_, ?_⟩
  · unfold Blockchain.getCurrentSeedEpoch Blockchain.getCurrentHeight
    rw [hlen]
    decide
  · have hrun := seedHandedOver_of_run_iff .shipped {} (.wrote recordSize) (easyCalls 1439)
    rw [show (sessionMachine .shipped).final (Session.started {} (.wrote recordSize))
      (easyCalls 1439) = easySession 1439 from rfl] at hrun
    exact (hrun hmax).mpr (.inr hearly)

end Session

/-- A node that took 1439 blocks and was started again is in epoch 1, whose key the
    process before it had been given. -/
theorem Session.not_seedHandedOver :
    ¬ ∀ (P : Platform) (dir : DataDir) (io : AppendOutcome) (calls : List Call),
      let s := (sessionMachine P).final (.started dir io) calls
      s.node.chain.blocks.length ≤ vectorMaxSize → s.SeedHandedOver := by
  intro h
  have hrun := h .shipped {} (.wrote recordSize)
    (easyCalls 1439 ++ [.shutdown, .restart (.wrote recordSize)])
  have hnode := easySession_node 1439
  rw [Machine.final_append,
    show (sessionMachine .shipped).final (Session.started {} (.wrote recordSize))
      (easyCalls 1439) = easySession 1439 from rfl] at hrun
  generalize easySession 1439 = s at hnode hrun
  obtain ⟨hlen, _, hpersisted⟩ := easyCalls_final (m := 1439) (by omega)
  rw [← hnode] at hlen hpersisted
  rw [sessionMachine_shutdown_restart] at hrun
  have hsame := (hpersisted.restart_eq (.wrote recordSize)).1
  have hblocks : (s.node.restart (.wrote recordSize)).chain.blocks.length = 1440 := by
    have hmap := congrArg List.length hsame.blocks_eq
    rw [List.length_map, List.length_map, hlen] at hmap
    exact hmap.symm
  have hbegun : (Session.begun (s.node.restart (.wrote recordSize)) 0).SeedInvariant :=
    Session.SeedInvariant.begun List.length_nil (Node.init_calls _ _)
  have hmax : (s.node.restart (.wrote recordSize)).chain.blocks.length ≤ vectorMaxSize := by
    rw [hblocks]
    decide
  exact hbegun.not_seedHandedOver_of_begun hblocks (hrun hmax)

end RandomLite
