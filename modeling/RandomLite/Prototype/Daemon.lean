-- SUMMARY: The mining loop of the daemon (`daemon/main.cpp`) and which of its blocks the chain accepts.
import RandomLite.Prototype.Blockchain

/-!
# Daemon

The main loop assembles a block, looks for a nonce whose hash field passes the
proof-of-work test, and hands the block to `add_new_block`. Of the header it never
sets `prev_id`, which stays zero, while the validator compares it with the hash of
the tip.
-/

namespace RandomLite

/-! ## The mining loop -/

/-- The block the loop has in hand at a nonce. -/
def candidateBlock (blockCounter timestamp : UInt64) (nonce : UInt32) : Block :=
  { majorVersion := 1
    minorVersion := 0
    timestamp := timestamp
    nonce := nonce
    hash := (((zeroHash.setIfInBounds 0 (blockCounter &&& 0xFF).toUInt8).setIfInBounds 1
      ((blockCounter >>> 8) &&& 0xFF).toUInt8).setIfInBounds 2 (nonce &&& 0xFF).toUInt8).setIfInBounds 3
      ((nonce >>> 8) &&& 0xFF).toUInt8 }

/-- The loop over the nonces. `running` is `g_running` as the test before each nonce
    reads it; `fuel` bounds the number of turns. -/
def searchNonce (P : Platform) (blockCounter timestamp targetDiff : UInt64)
    (running : UInt32 → Bool) : Nat → UInt32 → Option Block
  | 0, _ => none
  | fuel + 1, nonce =>
    if nonce < 1000000 && running nonce then
      let newBlock := candidateBlock blockCounter timestamp nonce
      if checkPowHash (P.randomx newBlock.hash) targetDiff then some newBlock
      else searchNonce P blockCounter timestamp targetDiff running fuel (nonce + 1)
    else none

/-- The daemon: the node and the counter of the loop. -/
structure Daemon where
  node : Node
  blockCounter : UInt64

/-- What one turn of the main loop meets: two readings of the clock, the running
    flag, and the outcome of the append. -/
structure Turn where
  timestamp : UInt64
  now : UInt64
  running : UInt32 → Bool
  runningAfter : Bool
  io : AppendOutcome

/-- The daemon after `init`, before its main loop. -/
def Daemon.started (dir : DataDir) (io : AppendOutcome) : Daemon :=
  let node := Node.started dir io
  { node := node, blockCounter := node.chain.getCurrentHeight }

/-- One turn of the main loop. The reply is the block broadcast, if any. -/
def Daemon.turn (P : Platform) (d : Daemon) (t : Turn) : Option Block × Daemon :=
  let targetDiff := d.node.chain.getCurrentDifficulty P
  let found := searchNonce P d.blockCounter t.timestamp targetDiff t.running 1000000 1
  let node :=
    if t.running 1 then { d.node with randomx := d.node.randomx.ensureInitialized } else d.node
  match found, t.runningAfter with
  | some newBlock, true =>
    match node.addNewBlock P newBlock t.now t.io with
    | (.ok _, node) => (some newBlock, { node := node, blockCounter := d.blockCounter + 1 })
    | (.error _, node) => (none, { d with node := node })
  | _, _ => (none, { d with node := node })

/-- The main loop. -/
def daemonMachine (P : Platform) : Machine Daemon Turn (Option Block) where
  step d t := d.turn P t

@[simp] theorem candidateBlock_prevId (blockCounter timestamp : UInt64) (nonce : UInt32) :
    (candidateBlock blockCounter timestamp nonce).prevId = zeroHash := rfl

@[simp] theorem candidateBlock_timestamp (blockCounter timestamp : UInt64) (nonce : UInt32) :
    (candidateBlock blockCounter timestamp nonce).timestamp = timestamp := rfl

/-- What the loop finds is a candidate that passes its own test. -/
theorem searchNonce_spec {P : Platform} {blockCounter timestamp targetDiff : UInt64}
    {running : UInt32 → Bool} {fuel : Nat} {nonce : UInt32} {b : Block}
    (h : searchNonce P blockCounter timestamp targetDiff running fuel nonce = some b) :
    ∃ nonce', b = candidateBlock blockCounter timestamp nonce' ∧
      checkPowHash (P.randomx b.hash) targetDiff = true := by
  induction fuel generalizing nonce with
  | zero => simp [searchNonce] at h
  | succ fuel ih =>
    unfold searchNonce at h
    split at h
    · dsimp only at h
      split at h
      · rename_i hpow
        obtain rfl := Option.some.inj h
        exact ⟨nonce, rfl, hpow⟩
      · exact ih h
    · exact absurd h (by simp)

/-! ## Miner and validator -/

/-- A candidate is admissible only on a tip whose hash is zero. -/
theorem Blockchain.Admissible.top_hash_eq_zero {P : Platform} {c : Blockchain}
    {blockCounter timestamp now : UInt64} {nonce : UInt32} {top : Block}
    (h : c.Admissible P (candidateBlock blockCounter timestamp nonce) now)
    (htop : c.blocks.getLast? = some top) : top.hash = zeroHash := by
  obtain ⟨⟨top', htop', hprev, _⟩, _, _⟩ := h
  rw [htop] at htop'
  rw [Option.some.inj htop', ← hprev, candidateBlock_prevId]

/-- A candidate that passes the test of the loop, later than the tip and not too far
    ahead of the clock, is accepted exactly when the hash of the tip is zero and the
    64-bit sum of clock and limit did not fall below the timestamp by wrapping. -/
theorem Node.candidateBlock_accepted_iff {P : Platform} {n : Node} (_h : n.ReachableFrom P {})
    {top : Block} (htop : n.chain.blocks.getLast? = some top) {blockCounter timestamp : UInt64}
    {nonce : UInt32}
    (hpow : checkPowHash (P.randomx (candidateBlock blockCounter timestamp nonce).hash)
      (n.chain.getCurrentDifficulty P) = true)
    (htime : top.timestamp < timestamp) {now : UInt64}
    (_hfuture : timestamp.toNat ≤ now.toNat + cryptonoteBlockFutureTimeLimit.toNat)
    (io : AppendOutcome) :
    (n.addNewBlock P (candidateBlock blockCounter timestamp nonce) now io).1.isOk = true ↔
      top.hash = zeroHash ∧ timestamp ≤ now + cryptonoteBlockFutureTimeLimit := by
  rw [Node.addNewBlock_isOk_iff]
  constructor
  · intro hadm
    exact ⟨hadm.top_hash_eq_zero htop, hadm.inTime⟩
  · rintro ⟨hzero, hlimit⟩
    exact ⟨⟨top, htop, by rw [hzero, candidateBlock_prevId], htime⟩, hlimit, hpow⟩

/-- On the genesis block of a fresh directory. -/
theorem Node.candidateBlock_accepted_iff_sample :
    ((Node.started {} (.wrote recordSize)).addNewBlock .shipped
        (candidateBlock 1 (genesisTimestamp + 150) 1) (genesisTimestamp + 150)
        (.wrote recordSize)).1.isOk = true ↔
      genesisBlock.hash = zeroHash ∧
        genesisTimestamp + 150 ≤ genesisTimestamp + 150 + cryptonoteBlockFutureTimeLimit :=
  have htop : (Node.started {} (.wrote recordSize)).chain.blocks.getLast? = some genesisBlock := rfl
  Node.candidateBlock_accepted_iff ⟨.wrote recordSize, .start⟩ htop
    (by decide +kernel) (by decide +kernel) (by decide +kernel) _

/-- The first block the daemon mines is refused. -/
theorem Node.candidateBlock_refused :
    ¬ ∀ (P : Platform) (n : Node), n.ReachableFrom P {} → ∀ top,
      n.chain.blocks.getLast? = some top → ∀ (blockCounter timestamp : UInt64) (nonce : UInt32),
        checkPowHash (P.randomx (candidateBlock blockCounter timestamp nonce).hash)
          (n.chain.getCurrentDifficulty P) = true →
        top.timestamp < timestamp → ∀ now : UInt64,
        timestamp.toNat ≤ now.toNat + cryptonoteBlockFutureTimeLimit.toNat → ∀ io,
        (n.addNewBlock P (candidateBlock blockCounter timestamp nonce) now io).1.isOk = true := by
  intro h
  have haccepted := h .shipped (Node.started {} (.wrote recordSize)) ⟨_, .start⟩ genesisBlock rfl
    1 (genesisTimestamp + 150) 1 (by decide +kernel) (by decide +kernel) (genesisTimestamp + 150)
    (by decide +kernel) (.wrote recordSize)
  revert haccepted
  decide +kernel

/-! ## The daemon on its own chain -/

/-- A turn on a tip with a non-zero hash leaves the chain as it is. -/
theorem Daemon.turn_chain {P : Platform} {d : Daemon} {top : Block}
    (htop : d.node.chain.blocks.getLast? = some top) (hhash : top.hash ≠ zeroHash) (t : Turn) :
    (d.turn P t).1 = none ∧ (d.turn P t).2.node.chain = d.node.chain := by
  unfold turn
  dsimp only
  generalize hnode : (if t.running 1 then
    { d.node with randomx := d.node.randomx.ensureInitialized } else d.node) = node
  have hchain : node.chain = d.node.chain := by
    rw [← hnode]
    split <;> rfl
  split
  · rename_i newBlock hfound _
    obtain ⟨nonce, rfl, _⟩ := searchNonce_spec hfound
    have hrefused : ¬ node.chain.Admissible P
        (candidateBlock d.blockCounter t.timestamp nonce) t.now := by
      intro hadm
      exact hhash (hadm.top_hash_eq_zero (hchain ▸ htop))
    obtain ⟨e, m, heq⟩ := Node.addNewBlock_of_not_admissible hrefused t.io
    rw [heq]
    exact ⟨rfl, hchain⟩
  · exact ⟨rfl, hchain⟩

/-- The daemon on an empty directory never extends its chain. -/
theorem Daemon.stays_at_genesis (P : Platform) (io : AppendOutcome) (turns : List Turn) :
    ((daemonMachine P).final (Daemon.started {} io) turns).node.chain.blocks = [genesisBlock] := by
  have hgenesis : genesisBlock.hash ≠ zeroHash := by decide
  have hreach := (daemonMachine P).reachable_final (Daemon.started {} io) turns
  refine hreach.invariant (P := fun d => d.node.chain.blocks = [genesisBlock]) rfl ?_
  intro d t hd
  have htop : d.node.chain.blocks.getLast? = some genesisBlock := by rw [hd]; rfl
  obtain ⟨_, hchain⟩ := Daemon.turn_chain (P := P) htop hgenesis t
  rw [← hd]
  exact congrArg Blockchain.blocks hchain

end RandomLite
