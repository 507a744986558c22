-- SUMMARY: The RandomX manager of the prototype and its simulated hash (`crypto/randomx-monero.cpp`).
import RandomLite.Prototype.CryptonoteBasic

/-!
# RandomX manager

`RandomXManager` is a process-wide object: a flag, and here also the keys that
were handed to it, in order. The hash is the simulation the prototype ships; the
theorems about the chain hold for an arbitrary function in its place.
-/

namespace RandomLite

/-- A call that hands a dataset key to the manager, with the size passed along. -/
inductive RandomXCall where
  | initDataset (key : String) (keySize : Nat)
  | preallocateNextEpoch (nextKey : String) (keySize : Nat)
  deriving DecidableEq, Repr

structure RandomXManager where
  initialized : Bool := false
  /-- The keys handed over so far, oldest first. -/
  calls : List RandomXCall := []
  deriving DecidableEq, Repr

namespace RandomXManager

def initDataset (m : RandomXManager) (key : String) (keySize : Nat) : RandomXManager :=
  { initialized := true, calls := m.calls ++ [.initDataset key keySize] }

def preallocateNextEpoch (m : RandomXManager) (nextKey : String) (keySize : Nat) :
    RandomXManager :=
  { m with calls := m.calls ++ [.preallocateNextEpoch nextKey keySize] }

/-- What `calculate_hash` does to the manager: it initialises a default seed when
    no dataset is there. -/
def ensureInitialized (m : RandomXManager) : RandomXManager :=
  if m.initialized then m else m.initDataset "randomlite_seed_v1" 17

def shutdown (m : RandomXManager) : RandomXManager := { m with initialized := false }

end RandomXManager

/-- The output of `calculate_hash`: every input byte, plus seven times its position,
    folded into the output by exclusive or; the first byte is then cleared. -/
def calculateHash (input : List UInt8) : CryptoHash :=
  let output := input.zipIdx.foldl (fun (out : CryptoHash) (x : UInt8 × Nat) =>
    let j : Fin 32 := Fin.ofNat 32 x.2
    out.set j (out[j] ^^^ (x.1 + UInt8.ofNat (x.2 * 7)))) zeroHash
  output.set 0 0

end RandomLite
