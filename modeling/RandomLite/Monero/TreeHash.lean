-- SUMMARY: The hash tree over the transactions of a block (`crypto/tree-hash.c`): its branches verify, and its root binds the hashes of a list of known length.
import RandomLite.Library.Loops
import RandomLite.Library.MerkleTree
import RandomLite.Monero.MinerTransaction
import Mathlib.Data.List.Induction

/-!
# Tree hash

`tree_hash` works on one buffer: it hashes as many pairs at the end of the list as leave a
power of two, and then halves the buffer in place. `tree_branch` follows one place of the
list through the same loops. A read or a write outside the buffer, and a failed assertion,
give no result here.
-/

namespace RandomLite.Monero

variable (cnFastHash : List UInt8 → Hash)

/-! ## The loops -/

/-- `cn_fast_hash` of two hashes that lie side by side. -/
def hashPair (a b : Hash) : Hash := cnFastHash (a.toList ++ b.toList)

/-- The loop of `tree_hash_cnt`. -/
def doubleUpTo (count : Nat) : Nat → Nat → Nat
  | 0, pow => pow
  | fuel + 1, pow => if pow < count then doubleUpTo count fuel (pow <<< 1) else pow

/-- `tree_hash_cnt`, with its assertions. -/
def treeHashCnt (count : Nat) : Option Nat :=
  if 3 ≤ count ∧ count ≤ 0x10000000 then some (doubleUpTo count 28 2 >>> 1) else none

/-- One round of the loops of `tree_hash`: the pair at `i` is hashed into place `j`. -/
def hashRound (src : List Hash) (i j : Nat) (ints : List Hash) : Option (List Hash) := do
  let a ← src[i]?
  let b ← src[i + 1]?
  if j < ints.length then some (ints.set j (hashPair cnFastHash a b)) else none

/-- The buffer: the first hashes, and zeros where pairs are hashed to. -/
def initialInts (hashes : List Hash) (cnt : Nat) : List Hash :=
  hashes.take (2 * cnt - hashes.length) ++
    List.replicate (cnt - (2 * cnt - hashes.length)) nullHash

/-- `tree_hash`. -/
def treeHash (hashes : List Hash) : Option Hash :=
  match hashes with
  | [] => none
  | [a] => some a
  | [a, b] => some (hashPair cnFastHash a b)
  | hashes => do
    let cnt ← treeHashCnt hashes.length
    let first := 2 * cnt - hashes.length
    let ints ← Loops.forRange (cnt - first)
      (fun k ints => hashRound cnFastHash hashes (first + 2 * k) (first + k) ints)
      (initialInts hashes cnt)
    let ints ← Loops.whileHalves (fun cnt ints => Loops.forRange cnt
      (fun k ints => hashRound cnFastHash ints (2 * k) k ints) ints) cnt cnt ints
    let a ← ints[0]?
    let b ← ints[1]?
    return hashPair cnFastHash a b

/-- A place that is followed up the tree, and the turns it took. -/
structure PathState where
  idx : Nat
  path : UInt32
  deriving DecidableEq, Repr

/-- One round of the loops of `tree_path`. -/
def PathState.round (i j : Nat) (s : PathState) : PathState :=
  if s.idx = i ∨ s.idx = i + 1 then
    { path := (s.path <<< 1) ||| (if s.idx = i then 0 else 1), idx := j }
  else s

/-- The last turn, at the root. -/
def PathState.last (s : PathState) : PathState :=
  if s.idx = 0 ∨ s.idx = 1 then
    { path := (s.path <<< 1) ||| (if s.idx = 0 then 0 else 1), idx := 0 }
  else s

/-- `tree_path`. -/
def treePath (count idx : Nat) : Option UInt32 :=
  if count = 0 then none
  else if count = 1 then some 0
  else if count = 2 then some (if idx = 0 then 0 else 1)
  else do
    let cnt ← treeHashCnt count
    let first := 2 * cnt - count
    let s ← Loops.forRange (cnt - first)
      (fun k s => some (s.round (first + 2 * k) (first + k))) { idx, path := 0 }
    let s ← Loops.whileHalves (fun cnt s =>
      Loops.forRange cnt (fun k s => some (PathState.round (2 * k) k s)) s) cnt cnt s
    return s.last.path

/-- The state of `tree_branch`. -/
structure BranchState extends PathState where
  ints : List Hash
  branch : List Hash

/-- The branch once the pair at `i` is met: the hash beside the place that is followed is
    noted if that is in the pair. -/
def BranchState.note (src : List Hash) (i : Nat) (s : BranchState) : Option (List Hash) :=
  if s.idx = i ∨ s.idx = i + 1 then
    (src[if s.idx = i then i + 1 else i]?).map fun beside => s.branch ++ [beside]
  else some s.branch

/-- One round of the loops of `tree_branch`. -/
def BranchState.round (src : List Hash) (i j : Nat) (s : BranchState) : Option BranchState := do
  let branch ← s.note src i
  let ints ← hashRound cnFastHash src i j s.ints
  return { toPathState := s.toPathState.round i j, ints, branch }

/-- The first loop of `tree_branch`, over the pairs at the end of the list. -/
def bottomLoop (hashes : List Hash) (cnt idx : Nat) : Option BranchState :=
  let first := 2 * cnt - hashes.length
  Loops.forRange (cnt - first)
    (fun k s => s.round cnFastHash hashes (first + 2 * k) (first + k))
    { idx, path := 0, ints := initialInts hashes cnt, branch := [] }

/-- The loops of `tree_branch` that halve the buffer. -/
def halvingLoops (cnt : Nat) (s : BranchState) : Option BranchState :=
  Loops.whileHalves (fun cnt s => Loops.forRange cnt
    (fun k s => BranchState.round cnFastHash s.ints (2 * k) k s) s) cnt cnt s

/-- `tree_branch`: the hashes beside the path of a hash, from below, and the path. -/
def treeBranch (hashes : List Hash) (hash : Hash) : Option (List Hash × UInt32) :=
  let idx := hashes.idxOf hash
  if hashes.length = 0 ∨ idx = hashes.length then none
  else
    match hashes with
    | [_] => some ([], 0)
    | [a, b] => some ([if idx = 0 then b else a], if idx = 0 then 0 else 1)
    | hashes => do
      let cnt ← treeHashCnt hashes.length
      let s ← bottomLoop cnFastHash hashes cnt idx
      let s ← halvingLoops cnFastHash cnt s
      let branch ← s.note s.ints 0
      return (branch, s.last.path)

/-- `tree_branch_hash`; a shift by 32 or more is undefined. -/
def treeBranchHash (hash : Hash) (branch : List Hash) (depth : Nat) (path : UInt32) : Option Hash :=
  Loops.forRange depth (fun d partialHash => do
    let beside ← branch[d]?
    if 32 ≤ depth - d - 1 then none
    else if (path >>> UInt32.ofNat (depth - d - 1)) &&& 1 ≠ 0 then
      some (hashPair cnFastHash beside partialHash)
    else some (hashPair cnFastHash partialHash beside)) hash

/-- `is_branch_in_tree`. -/
def isBranchInTree (hash root : Hash) (branch : List Hash) (depth : Nat) (path : UInt32) :
    Option Bool :=
  (treeBranchHash cnFastHash hash branch depth path).map (· == root)

/-! ## The count -/

theorem doubleUpTo_eq {count fuel i : Nat} (hlow : i ≤ Nat.clog 2 count)
    (hhigh : Nat.clog 2 count ≤ i + fuel) : doubleUpTo count fuel (2 ^ i) = 2 ^ Nat.clog 2 count := by
  induction fuel generalizing i with
  | zero =>
    obtain rfl : i = Nat.clog 2 count := Nat.le_antisymm hlow hhigh
    rfl
  | succ fuel ih =>
    unfold doubleUpTo
    split
    · rename_i hlt
      have hmore := (Nat.lt_clog_iff_pow_lt (by decide)).mpr hlt
      rw [Nat.shiftLeft_eq, Nat.pow_one, ← Nat.pow_succ]
      exact ih hmore (by omega)
    · rename_i hge
      have hle := (Nat.clog_le_iff_le_pow (by decide)).mpr (Nat.not_lt.mp hge)
      rw [Nat.le_antisymm hlow hle]

open MerkleTree in
/-- The count is the greatest power of two below the number of hashes. -/
theorem treeHashCnt_eq {count : Nat} (hlow : 3 ≤ count) (hhigh : count ≤ 2 ^ 28) :
    1 ≤ levels count ∧ levels count ≤ 27 ∧ treeHashCnt count = some (2 ^ levels count) := by
  have hmany : 1 < Nat.clog 2 count := (Nat.lt_clog_iff_pow_lt (by decide)).mpr hlow
  have hfew : Nat.clog 2 count ≤ 28 := (Nat.clog_le_iff_le_pow (by decide)).mpr hhigh
  have hloop : doubleUpTo count 28 (2 ^ 1) = 2 ^ Nat.clog 2 count :=
    doubleUpTo_eq hmany.le (by omega)
  refine ⟨?_, ?_, ?_⟩
  · unfold levels
    omega
  · unfold levels
    omega
  · obtain ⟨k, hk⟩ := Nat.exists_eq_add_of_lt hmany
    rw [treeHashCnt, if_pos ⟨hlow, hhigh⟩, show (2 : Nat) = 2 ^ 1 from rfl, hloop, levels, hk,
      Nat.shiftRight_eq_div_pow, Nat.add_sub_cancel, Nat.pow_succ, Nat.pow_one,
      Nat.mul_div_cancel _ (by decide)]

/-! ## One level -/

section Level

variable {cnFastHash} {src : List Hash} {i j : Nat} {a b : Hash}

/-- A round writes the hash of its pair behind what was written before, and leaves what
    comes after. -/
theorem hashRound_spec (cnFastHash : List UInt8 → Hash) {ints : List Hash}
    (ha : src[i]? = some a) (hb : src[i + 1]? = some b) (hj : j < ints.length) :
    ∃ ints', hashRound cnFastHash src i j ints = some ints' ∧ ints'.length = ints.length ∧
      ints'.take (j + 1) = ints.take j ++ [hashPair cnFastHash a b] ∧
      ints'.drop (j + 1) = ints.drop (j + 1) := by
  refine ⟨ints.set j (hashPair cnFastHash a b), ?_, List.length_set, ?_, ?_⟩
  · simp [hashRound, ha, hb, hj]
  · rw [List.take_succ_eq_append_getElem (by rw [List.length_set]; exact hj),
      List.take_set_of_le (Nat.le_refl j), List.getElem_set_self]
  · exact List.drop_set_of_lt (Nat.lt_succ_self j)

/-- What the rounds of one level do to a place that is followed, once they have passed it. -/
def PathState.above (first : Nat) (s : PathState) : PathState :=
  if s.idx < first then s
  else
    { idx := first + (s.idx - first) / 2
      path := (s.path <<< 1) ||| (if (s.idx - first) % 2 = 1 then 1 else 0) }

theorem PathState.round_of_elsewhere {first k : Nat} {s : PathState}
    (h : s.idx < first + 2 * k ∨ first + 2 * (k + 1) ≤ s.idx) :
    s.round (first + 2 * k) (first + k) = s := by
  have hnot : ¬ (s.idx = first + 2 * k ∨ s.idx = first + 2 * k + 1) := by omega
  rw [PathState.round, if_neg hnot]

theorem PathState.round_of_here {first k : Nat} {s : PathState} (hlow : first + 2 * k ≤ s.idx)
    (hhigh : s.idx < first + 2 * (k + 1)) :
    s.round (first + 2 * k) (first + k) = s.above first := by
  have hplace : first + (s.idx - first) / 2 = first + k := by omega
  have hhere : s.idx = first + 2 * k ∨ s.idx = first + 2 * k + 1 := by omega
  have hpaired : ¬ s.idx < first := by omega
  rw [PathState.round, if_pos hhere, PathState.above, if_neg hpaired, hplace]
  by_cases heven : s.idx = first + 2 * k
  · have hturn : ¬ (s.idx - first) % 2 = 1 := by omega
    rw [if_pos heven, if_neg hturn]
  · have hturn : (s.idx - first) % 2 = 1 := by omega
    rw [if_neg heven, if_pos hturn]

theorem PathState.above_idx {first : Nat} {s : PathState} (hpaired : first ≤ s.idx) :
    (s.above first).idx = first + (s.idx - first) / 2 := by
  rw [PathState.above, if_neg (Nat.not_lt.mpr hpaired)]

variable (cnFastHash) in
/-- After `k` rounds of a level over the hashes `L`, begun in `s₀`. -/
structure BranchState.InLevel (s : BranchState) (L : List Hash) (first : Nat) (s₀ : BranchState)
    (beside : Hash) (k : Nat) : Prop where
  length_ints : s.ints.length = s₀.ints.length
  done : s.ints.take (first + k) =
    MerkleTree.levelUp (hashPair cnFastHash) first (L.take (first + 2 * k))
  rest : s.ints.drop (first + k) = s₀.ints.drop (first + k)
  place : s.toPathState =
    if first ≤ s₀.idx ∧ s₀.idx < first + 2 * k then s₀.toPathState.above first
    else s₀.toPathState
  branch : s.branch =
    if first ≤ s₀.idx ∧ s₀.idx < first + 2 * k then s₀.branch ++ [beside] else s₀.branch

/-- What one round notes and where it takes the place that is followed. -/
theorem BranchState.InLevel.follow {L : List Hash} {first k : Nat} {s₀ s : BranchState}
    {beside : Hash} (h : s.InLevel cnFastHash L first s₀ beside k)
    (hbeside : first ≤ s₀.idx → src[MerkleTree.besidePlace first s₀.idx]? = some beside ∨
      ¬ (first + 2 * k ≤ s₀.idx ∧ s₀.idx < first + 2 * (k + 1))) :
    s.note src (first + 2 * k) =
        some (if first ≤ s₀.idx ∧ s₀.idx < first + 2 * (k + 1) then s₀.branch ++ [beside]
          else s₀.branch) ∧
      s.toPathState.round (first + 2 * k) (first + k) =
        if first ≤ s₀.idx ∧ s₀.idx < first + 2 * (k + 1) then s₀.toPathState.above first
        else s₀.toPathState := by
  have hplace := h.place
  have hbranch := h.branch
  unfold BranchState.note
  by_cases hpassed : first ≤ s₀.idx ∧ s₀.idx < first + 2 * k
  · have hstill : first ≤ s₀.idx ∧ s₀.idx < first + 2 * (k + 1) := by omega
    rw [if_pos hpassed] at hplace hbranch
    have hidx : s.idx = first + (s₀.idx - first) / 2 := by
      rw [hplace, PathState.above_idx hpassed.1]
    have hnot : ¬ (s.idx = first + 2 * k ∨ s.idx = first + 2 * k + 1) := by omega
    rw [if_neg hnot, if_pos hstill, if_pos hstill, PathState.round_of_elsewhere (by omega)]
    exact ⟨congrArg some hbranch, hplace⟩
  · rw [if_neg hpassed] at hplace hbranch
    have hidx : s.idx = s₀.idx := by rw [hplace]
    by_cases hhere : first + 2 * k ≤ s₀.idx ∧ s₀.idx < first + 2 * (k + 1)
    · have hpass : first ≤ s₀.idx ∧ s₀.idx < first + 2 * (k + 1) := by omega
      have hmeet : s.idx = first + 2 * k ∨ s.idx = first + 2 * k + 1 := by omega
      have hsrc := (hbeside hpass.1).resolve_right (not_not.mpr hhere)
      have hother : (if s.idx = first + 2 * k then first + 2 * k + 1 else first + 2 * k) =
          MerkleTree.besidePlace first s₀.idx := by
        rw [MerkleTree.besidePlace, hidx]
        split <;> split <;> omega
      rw [if_pos hmeet, if_pos hpass, if_pos hpass, hother, hsrc, hbranch,
        PathState.round_of_here (by omega) (by omega), hplace]
      exact ⟨rfl, rfl⟩
    · have hnot : ¬ (s.idx = first + 2 * k ∨ s.idx = first + 2 * k + 1) := by omega
      have hnever : ¬ (first ≤ s₀.idx ∧ s₀.idx < first + 2 * (k + 1)) := by omega
      rw [if_neg hnot, if_neg hnever, if_neg hnever, PathState.round_of_elsewhere (by omega)]
      exact ⟨congrArg some hbranch, hplace⟩

/-- One round of a level. -/
theorem BranchState.InLevel.round {L : List Hash} {first n k : Nat} {s₀ s : BranchState}
    {beside : Hash} (h : s.InLevel cnFastHash L first s₀ beside k) (hlen : L.length = first + 2 * n)
    (hints : first + n ≤ s₀.ints.length) (hk : k < n)
    (hsrc : ∀ p, first + 2 * k ≤ p → p < L.length → src[p]? = L[p]?)
    (hbeside : first ≤ s₀.idx → L[MerkleTree.besidePlace first s₀.idx]? = some beside) :
    ∃ s', s.round cnFastHash src (first + 2 * k) (first + k) = some s' ∧
      s'.InLevel cnFastHash L first s₀ beside (k + 1) := by
  obtain ⟨a, ha⟩ : ∃ a, L[first + 2 * k]? = some a := ⟨_, List.getElem?_eq_getElem (by omega)⟩
  obtain ⟨b, hb⟩ : ∃ b, L[first + 2 * k + 1]? = some b := ⟨_, List.getElem?_eq_getElem (by omega)⟩
  have hlength := h.length_ints
  have hroom : first + k < s.ints.length := by omega
  obtain ⟨ints, hround, hsame, hdone, hrest⟩ := hashRound_spec cnFastHash
    ((hsrc _ (by omega) (by omega)).trans ha) ((hsrc _ (by omega) (by omega)).trans hb) hroom
  have hnote : first ≤ s₀.idx → src[MerkleTree.besidePlace first s₀.idx]? = some beside ∨
      ¬ (first + 2 * k ≤ s₀.idx ∧ s₀.idx < first + 2 * (k + 1)) := by
    intro hpaired
    by_cases hhere : first + 2 * k ≤ s₀.idx ∧ s₀.idx < first + 2 * (k + 1)
    · refine .inl ((hsrc _ ?_ ?_).trans (hbeside hpaired))
      · unfold MerkleTree.besidePlace
        split <;> omega
      · unfold MerkleTree.besidePlace
        split <;> omega
    · exact .inr hhere
  obtain ⟨hbranch, hplace⟩ := h.follow hnote
  refine ⟨⟨s.toPathState.round (first + 2 * k) (first + k), ints, _⟩, ?_, ?_, ?_, ?_, hplace, rfl⟩
  · unfold BranchState.round
    rw [hbranch, hround]
    rfl
  · exact hsame.trans hlength
  · rw [← Nat.add_assoc, hdone, h.done, MerkleTree.levelUp_take_succ _ ha hb]
  · have hdrop := congrArg (List.drop 1) h.rest
    rw [List.drop_drop, List.drop_drop] at hdrop
    rw [← Nat.add_assoc, hrest, hdrop]

end Level

/-! ## All levels -/

section Levels

open MerkleTree

variable {cnFastHash} {ts : List (MerkleTree Hash)} {hash : Hash}

/-- The path that stands for turns, from below. -/
def pathOf (turns : List Bool) : UInt32 :=
  turns.foldl (fun path turn => (path <<< 1) ||| (if turn then 1 else 0)) 0

theorem pathOf_concat (turns : List Bool) (turn : Bool) :
    pathOf (turns ++ [turn]) = (pathOf turns <<< 1) ||| (if turn then 1 else 0) := by
  rw [pathOf, List.foldl_append]
  rfl

variable (cnFastHash) in
/-- The buffer holds the roots of the trees of a level, and the branch and the path of the
    state open the tree at the place that is followed. -/
structure BranchState.Follows (s : BranchState) (ts : List (MerkleTree Hash)) (hash : Hash) :
    Prop where
  length_le : ts.length ≤ s.ints.length
  roots : s.ints.take ts.length = ts.map (root (hashPair cnFastHash))
  opens : ∃ steps, OpensAt (hashPair cnFastHash) ts s.idx steps hash ∧
    s.branch = steps.map Prod.snd ∧ s.path = pathOf (steps.map Prod.fst)

/-- A loop that runs one level over the roots of some trees leads to the trees paired. -/
theorem BranchState.follows_levelUp {first n : Nat} {s₀ : BranchState} {steps : List (Step Hash)}
    (body : Nat → BranchState → Option BranchState) (hlen : ts.length = first + 2 * n)
    (hints : first + n ≤ s₀.ints.length)
    (hstart : s₀.ints.take first = (ts.map (root (hashPair cnFastHash))).take first)
    (ho : OpensAt (hashPair cnFastHash) ts s₀.idx steps hash)
    (hbranch : s₀.branch = steps.map Prod.snd) (hpath : s₀.path = pathOf (steps.map Prod.fst))
    (hbody : ∀ k s beside, s.InLevel cnFastHash (ts.map (root (hashPair cnFastHash))) first s₀
      beside k → ∃ src, body k s = s.round cnFastHash src (first + 2 * k) (first + k) ∧
        ∀ p, first + 2 * k ≤ p → p < ts.length →
          src[p]? = (ts.map (root (hashPair cnFastHash)))[p]?) :
    ∃ s, Loops.forRange n body s₀ = some s ∧ s.ints.length = s₀.ints.length ∧
      s.Follows cnFastHash (levelUp node first ts) hash := by
  have hroots : (ts.map (root (hashPair cnFastHash))).length = first + 2 * n := by
    rw [List.length_map, hlen]
  have hlt : s₀.idx < first + 2 * n := by
    obtain ⟨t, ht, -⟩ := ho
    rw [← hlen]
    exact (List.getElem?_eq_some_iff.mp ht).1
  -- The hash beside the place, and the steps with it.
  obtain ⟨beside, hbeside, hopens⟩ : ∃ beside,
      (first ≤ s₀.idx →
        (ts.map (root (hashPair cnFastHash)))[besidePlace first s₀.idx]? = some beside) ∧
      OpensAt (hashPair cnFastHash) (levelUp node first ts) (s₀.toPathState.above first).idx
        (if first ≤ s₀.idx then steps ++ [(decide ((s₀.idx - first) % 2 = 1), beside)]
          else steps) hash := by
    by_cases hpaired : first ≤ s₀.idx
    · obtain ⟨beside, hbeside, hup⟩ := ho.levelUp_of_le _ hlen hpaired
      refine ⟨beside, fun _ => hbeside, ?_⟩
      rw [PathState.above_idx hpaired, if_pos hpaired]
      exact hup
    · refine ⟨nullHash, fun h => absurd h hpaired, ?_⟩
      rw [PathState.above, if_pos (Nat.not_le.mp hpaired), if_neg hpaired]
      exact ho.levelUp_of_lt _ (Nat.not_le.mp hpaired)
  have hloop : ∃ s, Loops.forRange n body s₀ = some s ∧
      s.InLevel cnFastHash (ts.map (root (hashPair cnFastHash))) first s₀ beside n := by
    refine Loops.forRange_spec (fun k (s : BranchState) => s.InLevel cnFastHash
      (ts.map (root (hashPair cnFastHash))) first s₀ beside k) ⟨rfl, ?_, rfl, ?_, ?_⟩ ?_
    · rw [Nat.mul_zero, Nat.add_zero, hstart, levelUp, List.take_take, Nat.min_self,
        List.drop_take, Nat.sub_self, List.take_zero]
      exact (List.append_nil _).symm
    · rw [if_neg (by omega)]
    · rw [if_neg (by omega)]
    · intro k s hk hlevel
      obtain ⟨src, hround, hsrc⟩ := hbody k s beside hlevel
      rw [hround]
      refine hlevel.round hroots hints hk (fun p hp hpl => hsrc p hp ?_) hbeside
      rwa [List.length_map] at hpl
  obtain ⟨s, hrun, hdone⟩ := hloop
  refine ⟨s, hrun, hdone.length_ints, ?_, ?_, ?_⟩
  · rw [length_levelUp node hlen, hdone.length_ints]
    exact hints
  · rw [length_levelUp node hlen, hdone.done, List.take_of_length_le (by omega),
      map_root_levelUp]
  · have hplace := hdone.place
    have hnoted := hdone.branch
    by_cases hpaired : first ≤ s₀.idx
    · rw [if_pos ⟨hpaired, hlt⟩] at hplace hnoted
      rw [if_pos hpaired] at hopens
      refine ⟨_, hplace ▸ hopens, ?_, ?_⟩
      · rw [hnoted, hbranch, List.map_append]
        rfl
      · rw [hplace, PathState.above, if_neg (by omega), List.map_append]
        simp only [hpath, List.map_cons, List.map_nil, pathOf_concat, decide_eq_true_eq]
    · rw [if_neg (by omega)] at hplace hnoted
      rw [if_neg hpaired, PathState.above, if_pos (Nat.not_le.mp hpaired)] at hopens
      exact ⟨steps, hplace ▸ hopens, hnoted.trans hbranch, by rw [hplace]; exact hpath⟩

/-- One halving of the buffer. -/
theorem BranchState.Follows.halve {n : Nat} {s : BranchState} (h : s.Follows cnFastHash ts hash)
    (hlen : ts.length = 2 * n) :
    ∃ s', Loops.forRange n (fun k s => s.round cnFastHash s.ints (2 * k) k) s = some s' ∧
      s'.Follows cnFastHash (pairUp node ts) hash := by
  obtain ⟨steps, ho, hbranch, hpath⟩ := h.opens
  have hlength := h.length_le
  have hroots := h.roots
  have hlen' : ts.length = 0 + 2 * n := by omega
  have hbody : ∀ k (s' : BranchState) beside,
      s'.InLevel cnFastHash (ts.map (root (hashPair cnFastHash))) 0 s beside k →
      ∃ src, s'.round cnFastHash s'.ints (2 * k) k = s'.round cnFastHash src (0 + 2 * k) (0 + k) ∧
        ∀ p, 0 + 2 * k ≤ p → p < ts.length →
          src[p]? = (ts.map (root (hashPair cnFastHash)))[p]? := by
    intro k s' beside hlevel
    refine ⟨s'.ints, by rw [Nat.zero_add, Nat.zero_add], ?_⟩
    intro p hp hpl
    -- What a round reads has not been written over.
    have hrest := congrArg (fun ints => ints[p - k]?) hlevel.rest
    simp only [List.getElem?_drop] at hrest
    rw [show 0 + k + (p - k) = p by omega] at hrest
    rw [hrest, ← hroots, List.getElem?_take_of_lt hpl]
  obtain ⟨s', hrun, -, hfollows⟩ :=
    BranchState.follows_levelUp _ hlen' (by omega) rfl ho hbranch hpath hbody
  rw [levelUp_zero] at hfollows
  exact ⟨s', hrun, hfollows⟩

theorem bottomLoop_spec (cnFastHash : List UInt8 → Hash) {hashes : List Hash} {idx : Nat}
    (hne : hashes ≠ [])
    (hhash : hashes[idx]? = some hash) :
    ∃ s, bottomLoop cnFastHash hashes (2 ^ levels hashes.length) idx = some s ∧
      s.Follows cnFastHash (bottom hashes) hash := by
  obtain ⟨hlow, hhigh⟩ := two_pow_levels_le (List.length_pos_iff.mpr hne)
  have hroots : (hashes.map leaf).map (root (hashPair cnFastHash)) = hashes := by
    rw [List.map_map]
    exact List.map_id hashes
  generalize hcnt : 2 ^ levels hashes.length = cnt at hlow hhigh
  have hlen : (hashes.map leaf).length =
      2 * cnt - hashes.length + 2 * (cnt - (2 * cnt - hashes.length)) := by
    rw [List.length_map]
    omega
  have hroom : (initialInts hashes cnt).length = cnt := by
    rw [initialInts, List.length_append, List.length_take, List.length_replicate]
    omega
  have hroom' : (initialInts hashes cnt).length =
      2 * cnt - hashes.length + (cnt - (2 * cnt - hashes.length)) := by omega
  have hfront : (initialInts hashes cnt).take (2 * cnt - hashes.length) =
      ((hashes.map leaf).map (root (hashPair cnFastHash))).take (2 * cnt - hashes.length) := by
    have hshort : 2 * cnt - hashes.length ≤ (hashes.take (2 * cnt - hashes.length)).length := by
      rw [List.length_take]
      omega
    rw [hroots, initialInts, List.take_append_of_le_length hshort, List.take_take, Nat.min_self]
  have hopens : OpensAt (hashPair cnFastHash) (hashes.map leaf) idx [] hash := by
    refine ⟨leaf hash, ?_, .leaf hash⟩
    rw [List.getElem?_map, hhash]
    rfl
  have hloop : ∃ s, bottomLoop cnFastHash hashes cnt idx = some s ∧
      s.ints.length = (initialInts hashes cnt).length ∧ s.Follows cnFastHash
        (levelUp node (2 * cnt - hashes.length) (hashes.map leaf)) hash :=
    BranchState.follows_levelUp _ hlen hroom'.ge hfront hopens rfl rfl
      (fun _ _ _ _ => ⟨hashes, rfl, fun _ _ _ => by rw [hroots]⟩)
  obtain ⟨s, hrun, -, hfollows⟩ := hloop
  refine ⟨s, hrun, ?_⟩
  rw [bottom, hcnt]
  exact hfollows

/-- The loops of `tree_branch` over three hashes or more lead to the two trees below the
    root of the tree over the hashes. -/
theorem branchLoops_spec (cnFastHash : List UInt8 → Hash) {hashes : List Hash} {idx : Nat}
    (hmany : 1 ≤ levels hashes.length)
    (hne : hashes ≠ []) (hhash : hashes[idx]? = some hash) :
    ∃ s s' l r, bottomLoop cnFastHash hashes (2 ^ levels hashes.length) idx = some s ∧
      halvingLoops cnFastHash (2 ^ levels hashes.length) s = some s' ∧
      ofLeaves hashes = some (node l r) ∧ s'.Follows cnFastHash [l, r] hash := by
  have hlength (i : Nat) (hi : i ≤ levels hashes.length) :
      ((pairUp node)^[levels hashes.length - i] (bottom hashes)).length = 2 ^ i := by
    refine length_iterate_pairUp node ?_
    rw [length_bottom hne, Nat.add_sub_cancel' hi]
  obtain ⟨s, hbottom, hstart⟩ := bottomLoop_spec cnFastHash hne hhash
  have hhalves : ∃ s', halvingLoops cnFastHash (2 ^ levels hashes.length) s = some s' ∧
      s'.Follows cnFastHash ((pairUp node)^[levels hashes.length - 1] (bottom hashes)) hash := by
    refine Loops.whileHalves_spec (fun i (s : BranchState) => s.Follows cnFastHash
      ((pairUp node)^[levels hashes.length - i] (bottom hashes)) hash)
      Nat.lt_two_pow_self.le ?_ ?_ hmany
    · rw [Nat.sub_self]
      exact hstart
    · intro i s _ hi h
      obtain ⟨s', hrun, hup⟩ := h.halve ((hlength _ hi).trans Nat.pow_succ')
      refine ⟨s', hrun, ?_⟩
      rw [← Function.iterate_succ_apply' (pairUp node),
        show (levels hashes.length - (i + 1)).succ = levels hashes.length - i by omega] at hup
      exact hup
  obtain ⟨s', hrun, hlast⟩ := hhalves
  obtain ⟨l, r, hlr⟩ := List.length_eq_two.mp (hlength 1 hmany)
  rw [hlr] at hlast
  exact ⟨s, s', l, r, hbottom, hrun, ofLeaves_eq_node hlr hmany, hlast⟩

end Levels

/-! ## Paths -/

theorem toNat_pathOf_concat {turns : List Bool} (hlen : turns.length < 32) (turn : Bool)
    (hlt : (pathOf turns).toNat < 2 ^ turns.length) :
    (pathOf (turns ++ [turn])).toNat = 2 * (pathOf turns).toNat + turn.toNat := by
  have hpow : 2 ^ turns.length ≤ 2 ^ 31 := Nat.pow_le_pow_right (by decide) (by omega)
  have hshift : (pathOf turns <<< 1).toNat = 2 * (pathOf turns).toNat := by
    rw [UInt32.toNat_shiftLeft, show (1 : UInt32).toNat % 32 = 1 from rfl, Nat.shiftLeft_eq,
      Nat.mod_eq_of_lt (by omega), Nat.pow_one, Nat.mul_comm]
  have hbit : (if turn then 1 else 0 : UInt32).toNat = turn.toNat := by
    cases turn <;> rfl
  have hor := Nat.two_pow_add_eq_or_of_lt (i := 1) (b := turn.toNat) (Bool.toNat_lt turn)
    (pathOf turns).toNat
  rw [pathOf_concat, UInt32.toNat_or, hshift, hbit, ← hor]

theorem toNat_pathOf_lt {turns : List Bool} (hlen : turns.length ≤ 32) :
    (pathOf turns).toNat < 2 ^ turns.length := by
  induction turns using List.reverseRecOn with
  | nil => decide
  | append_singleton turns turn ih =>
    rw [List.length_append] at hlen
    have hlt := ih (by omega)
    have hturn := turn.toNat_le
    rw [toNat_pathOf_concat hlen turn hlt, List.length_append, List.length_singleton, Nat.pow_succ]
    omega

/-- The turns are read off the path from its upper end. -/
theorem testBit_pathOf {turns : List Bool} (hlen : turns.length ≤ 32) {d : Nat} {turn : Bool}
    (hd : turns[d]? = some turn) : (pathOf turns).toNat.testBit (turns.length - d - 1) = turn := by
  induction turns using List.reverseRecOn with
  | nil => cases hd
  | append_singleton turns last ih =>
    rw [List.length_append, List.length_singleton] at hlen
    have hconcat := toNat_pathOf_concat hlen last (toNat_pathOf_lt (by omega))
    rw [hconcat, List.length_append, List.length_singleton]
    rcases Nat.lt_or_ge d turns.length with hfront | hlast
    · have hhalf : (2 * (pathOf turns).toNat + last.toNat) / 2 = (pathOf turns).toNat := by
        have hle := last.toNat_le
        omega
      rw [List.getElem?_append_left hfront] at hd
      rw [show turns.length + 1 - d - 1 = turns.length - d - 1 + 1 by omega, Nat.testBit_succ, hhalf,
        ih (by omega) hd]
    · have hdlt := (List.getElem?_eq_some_iff.mp hd).1
      rw [List.length_append, List.length_singleton] at hdlt
      obtain rfl : d = turns.length := by omega
      rw [List.getElem?_concat_length] at hd
      rw [show turns.length + 1 - turns.length - 1 = 0 by omega, Nat.testBit_zero,
        ← Option.some.inj hd]
      cases last <;> simp

theorem shiftRight_and_one_ne_zero (path : UInt32) {e : Nat} (he : e < 32) :
    (path >>> UInt32.ofNat e) &&& 1 ≠ 0 ↔ path.toNat.testBit e = true := by
  have hamount : (UInt32.ofNat e).toNat % 32 = e := by
    rw [UInt32.toNat_ofNat']
    omega
  rw [ne_eq, ← UInt32.toNat_inj, UInt32.toNat_and, UInt32.toNat_shiftRight, hamount, Nat.testBit,
    show (1 : UInt32).toNat = 1 from rfl, show (0 : UInt32).toNat = 0 from rfl, Nat.and_comm]
  simp

section Verify

open MerkleTree

variable {cnFastHash}

/-- `tree_branch_hash` climbs along the steps that the branch and the path stand for. -/
theorem treeBranchHash_eq (hash : Hash) {steps : List (Step Hash)} (hlen : steps.length ≤ 32) :
    treeBranchHash cnFastHash hash (steps.map Prod.snd) steps.length
      (pathOf (steps.map Prod.fst)) = some (climb (hashPair cnFastHash) hash steps) := by
  have hturns : (steps.map Prod.fst).length = steps.length := List.length_map _
  have hloop : ∃ s, treeBranchHash cnFastHash hash (steps.map Prod.snd) steps.length
      (pathOf (steps.map Prod.fst)) = some s ∧
        s = climb (hashPair cnFastHash) hash (steps.take steps.length) := by
    refine Loops.forRange_spec
      (fun d s => s = climb (hashPair cnFastHash) hash (steps.take d)) rfl ?_
    rintro d s hd rfl
    have hbit : (pathOf (steps.map Prod.fst)).toNat.testBit (steps.length - d - 1) =
        (steps[d]).1 := by
      have hget : (steps.map Prod.fst)[d]? = some (steps[d]).1 := by
        simp [hd]
      have htest := testBit_pathOf (hturns.trans_le hlen) hget
      rwa [hturns] at htest
    have hroom : steps.length - d - 1 < 32 := by omega
    have hturn := shiftRight_and_one_ne_zero (pathOf (steps.map Prod.fst)) hroom
    rw [hbit] at hturn
    have hbeside : (steps.map Prod.snd)[d]? = some (steps[d]).2 := by
      simp [hd]
    rw [List.take_succ_eq_append_getElem hd, climb_append]
    refine ⟨_, ?_, rfl⟩
    rw [hbeside]
    simp only [Option.bind_eq_bind, Option.bind_some]
    rw [if_neg (Nat.not_le.mpr hroom)]
    split
    · rename_i hset
      have hright : (steps[d]).1 = true := by simpa using hturn.mp hset
      simp only [climb, Step.pair]
      rw [if_pos hright]
    · rename_i hclear
      have hleft : ¬ (steps[d]).1 = true := by simpa using mt hturn.mpr hclear
      simp only [climb, Step.pair]
      rw [if_neg hleft]
  obtain ⟨s, hrun, rfl⟩ := hloop
  rw [hrun, List.take_length]

/-! ## The three functions -/

/-- What the loops come to, in the buffer and at the place. -/
theorem BranchState.Follows.root_eq {s : BranchState} {l r : MerkleTree Hash} {hash : Hash}
    (h : s.Follows cnFastHash [l, r] hash) :
    s.ints[0]? = some (l.root (hashPair cnFastHash)) ∧
      s.ints[1]? = some (r.root (hashPair cnFastHash)) := by
  have hroots := h.roots
  have hread (i : Nat) (hi : i < 2) := congrArg (fun ints => ints[i]?) hroots
  simp only [List.length_cons, List.length_nil, List.map_cons, List.map_nil] at hread
  have hzero := hread 0 (by decide)
  have hone := hread 1 (by decide)
  rw [List.getElem?_take_of_lt (by decide)] at hzero hone
  exact ⟨hzero, hone⟩

/-- The last turn of `tree_branch` completes the opening. -/
theorem BranchState.Follows.last_spec {s : BranchState} {l r : MerkleTree Hash} {hash : Hash}
    (h : s.Follows cnFastHash [l, r] hash) :
    ∃ steps, Opens (hashPair cnFastHash) (node l r) steps hash ∧
      s.note s.ints 0 = some (steps.map Prod.snd) ∧
      s.last.path = pathOf (steps.map Prod.fst) := by
  obtain ⟨hzero, hone⟩ := h.root_eq
  obtain ⟨steps, ⟨t, ht, ho⟩, hbranch, hpath⟩ := h.opens
  have hplace : s.idx < 2 := (List.getElem?_eq_some_iff.mp ht).1
  rcases (by omega : s.idx = 0 ∨ s.idx = 1) with hidx | hidx
  · rw [hidx] at ht
    obtain rfl : l = t := Option.some.inj ht
    refine ⟨_, ho.left, ?_, ?_⟩
    · rw [BranchState.note, if_pos (.inl hidx), if_pos hidx, hone, hbranch, List.map_append]
      rfl
    · rw [PathState.last, if_pos (.inl hidx), List.map_append, List.map_singleton, pathOf_concat]
      simp only [hidx, hpath]
      rfl
  · rw [hidx] at ht
    obtain rfl : r = t := Option.some.inj ht
    have hnot : ¬ s.idx = 0 := by omega
    refine ⟨_, ho.right, ?_, ?_⟩
    · rw [BranchState.note, if_pos (.inr hidx), if_neg hnot, hzero, hbranch, List.map_append]
      rfl
    · rw [PathState.last, if_pos (.inr hidx), List.map_append, List.map_singleton, pathOf_concat]
      simp only [if_neg hnot, hpath]
      rfl

/-- The loops of `tree_hash` are those of `tree_branch` without the place. -/
theorem treeHash_of_loops {hashes : List Hash} (hlow : 3 ≤ hashes.length) {cnt idx : Nat}
    (hcnt : treeHashCnt hashes.length = some cnt) {s s' : BranchState} {a b : Hash}
    (hbottom : bottomLoop cnFastHash hashes cnt idx = some s)
    (hhalves : halvingLoops cnFastHash cnt s = some s') (ha : s'.ints[0]? = some a)
    (hb : s'.ints[1]? = some b) : treeHash cnFastHash hashes = some (hashPair cnFastHash a b) := by
  have hround {src : List Hash} {i j : Nat} {s s' : BranchState}
      (h : s.round cnFastHash src i j = some s') :
      hashRound cnFastHash src i j s.ints = some s'.ints := by
    obtain ⟨branch, -, h⟩ := Option.bind_eq_some_iff.mp h
    obtain ⟨ints, hints, h⟩ := Option.bind_eq_some_iff.mp h
    rw [hints, ← Option.some.inj h]
  have hfirst : Loops.forRange (cnt - (2 * cnt - hashes.length))
      (fun k ints => hashRound cnFastHash hashes (2 * cnt - hashes.length + 2 * k)
        (2 * cnt - hashes.length + k) ints) (initialInts hashes cnt) = some s.ints :=
    Loops.forRange_simulates BranchState.ints (fun _ _ _ h => hround h) hbottom
  have hlevel (cnt : Nat) (s s' : BranchState)
      (h : Loops.forRange cnt (fun k s => s.round cnFastHash s.ints (2 * k) k) s = some s') :
      Loops.forRange cnt (fun k ints => hashRound cnFastHash ints (2 * k) k ints) s.ints =
        some s'.ints := by
    refine Loops.forRange_simulates BranchState.ints (fun k s s' hstep => ?_) h
    exact hround hstep
  have hrest : Loops.whileHalves (fun cnt ints => Loops.forRange cnt
      (fun k ints => hashRound cnFastHash ints (2 * k) k ints) ints) cnt cnt s.ints =
        some s'.ints :=
    Loops.whileHalves_simulates BranchState.ints hlevel hhalves
  match hashes, hlow with
  | c :: d :: e :: rest, _ =>
    simp only [treeHash, hcnt]
    change (Loops.forRange _ _ _).bind _ = _
    rw [hfirst]
    change (Loops.whileHalves _ _ _ _).bind _ = _
    rw [hrest]
    simp [ha, hb]

/-- The loops of `tree_path` are those of `tree_branch` without the hashes. -/
theorem treePath_of_loops {hashes : List Hash} (hlow : 3 ≤ hashes.length) {cnt idx : Nat}
    (hcnt : treeHashCnt hashes.length = some cnt) {s s' : BranchState}
    (hbottom : bottomLoop cnFastHash hashes cnt idx = some s)
    (hhalves : halvingLoops cnFastHash cnt s = some s') :
    treePath hashes.length idx = some s'.last.path := by
  have hround {src : List Hash} {i j : Nat} {s s' : BranchState}
      (h : s.round cnFastHash src i j = some s') :
      some (s.toPathState.round i j) = some s'.toPathState := by
    obtain ⟨branch, -, h⟩ := Option.bind_eq_some_iff.mp h
    obtain ⟨ints, -, h⟩ := Option.bind_eq_some_iff.mp h
    rw [← Option.some.inj h]
  have hfirst : Loops.forRange (cnt - (2 * cnt - hashes.length))
      (fun k s => some (PathState.round (2 * cnt - hashes.length + 2 * k)
        (2 * cnt - hashes.length + k) s)) { idx, path := 0 } = some s.toPathState :=
    Loops.forRange_simulates BranchState.toPathState (fun _ _ _ h => hround h) hbottom
  have hlevel (cnt : Nat) (s s' : BranchState)
      (h : Loops.forRange cnt (fun k s => s.round cnFastHash s.ints (2 * k) k) s = some s') :
      Loops.forRange cnt (fun k s => some (PathState.round (2 * k) k s)) s.toPathState =
        some s'.toPathState := by
    refine Loops.forRange_simulates BranchState.toPathState (fun k s s' hstep => ?_) h
    exact hround hstep
  have hrest : Loops.whileHalves (fun cnt s => Loops.forRange cnt
      (fun k s => some (PathState.round (2 * k) k s)) s) cnt cnt s.toPathState =
        some s'.toPathState :=
    Loops.whileHalves_simulates BranchState.toPathState hlevel hhalves
  unfold treePath
  rw [if_neg (by omega), if_neg (by omega), if_neg (by omega), hcnt]
  change (Loops.forRange _ _ _).bind _ = _
  rw [hfirst]
  change (Loops.whileHalves _ _ _ _).bind _ = _
  rw [hrest]
  rfl

theorem treeBranch_of_loops {hashes : List Hash} (hlow : 3 ≤ hashes.length) {hash : Hash}
    (hmem : hash ∈ hashes) {cnt : Nat} (hcnt : treeHashCnt hashes.length = some cnt)
    {s s' : BranchState} (hbottom : bottomLoop cnFastHash hashes cnt (hashes.idxOf hash) = some s)
    (hhalves : halvingLoops cnFastHash cnt s = some s') {branch : List Hash}
    (hnote : s'.note s'.ints 0 = some branch) :
    treeBranch cnFastHash hashes hash = some (branch, s'.last.path) := by
  have hfound : ¬ (hashes.length = 0 ∨ hashes.idxOf hash = hashes.length) := by
    have hlt := List.idxOf_lt_length_of_mem hmem
    omega
  match hashes, hlow with
  | c :: d :: e :: rest, _ =>
    simp only [treeBranch]
    rw [if_neg hfound]
    simp only [hcnt, hbottom, hhalves, hnote, Option.bind_eq_bind, Option.bind_some]
    rfl

/-- The three functions on the list of a tree: its root, and an opening of the leaf. -/
theorem treeBranch_spec (cnFastHash : List UInt8 → Hash) {hashes : List Hash} {hash : Hash}
    (hhigh : hashes.length ≤ 2 ^ 28) (hmem : hash ∈ hashes) :
    ∃ t steps, ofLeaves hashes = some t ∧ Opens (hashPair cnFastHash) t steps hash ∧
      treeHash cnFastHash hashes = some (t.root (hashPair cnFastHash)) ∧
      treeBranch cnFastHash hashes hash =
        some (steps.map Prod.snd, pathOf (steps.map Prod.fst)) ∧
      treePath hashes.length (hashes.idxOf hash) = some (pathOf (steps.map Prod.fst)) := by
  match hashes, hmem, hhigh with
  | [a], hmem, _ =>
    obtain rfl : hash = a := List.mem_singleton.mp hmem
    exact ⟨leaf hash, [], rfl, .leaf hash, rfl, by simp [treeBranch]; rfl, rfl⟩
  | [a, b], hmem, _ =>
    by_cases hfirst : a = hash
    · subst hfirst
      refine ⟨node (leaf a) (leaf b), _, rfl, (Opens.leaf a).left, rfl, ?_, ?_⟩
      · simp [treeBranch, root, pathOf]
      · simp [treePath, pathOf]
    · obtain rfl : hash = b := by
        rcases List.mem_cons.mp hmem with h | h
        · exact absurd h.symm hfirst
        · exact List.mem_singleton.mp h
      have hidx : [a, hash].idxOf hash = 1 := by
        rw [List.idxOf_cons_ne _ hfirst, List.idxOf_cons_self]
      refine ⟨node (leaf a) (leaf hash), _, rfl, (Opens.leaf hash).right, rfl, ?_, ?_⟩
      · simp [treeBranch, hidx, root, pathOf]
      · simp [treePath, hidx, pathOf]
  | c :: d :: e :: rest, hmem, hhigh =>
    have hlow : 3 ≤ (c :: d :: e :: rest).length := by simp
    generalize c :: d :: e :: rest = hashes at hmem hhigh hlow ⊢
    obtain ⟨hone, -, hcnt⟩ := treeHashCnt_eq hlow hhigh
    have hhash : hashes[hashes.idxOf hash]? = some hash := by
      rw [List.getElem?_eq_getElem (List.idxOf_lt_length_of_mem hmem), List.getElem_idxOf]
    obtain ⟨s, s', l, r, hbottom, hhalves, htree, hfollows⟩ :=
      branchLoops_spec cnFastHash hone (List.ne_nil_of_mem hmem) hhash
    obtain ⟨hzero, hone⟩ := hfollows.root_eq
    obtain ⟨steps, hopens, hnote, hpath⟩ := hfollows.last_spec
    refine ⟨node l r, steps, htree, hopens, ?_, ?_, ?_⟩
    · exact treeHash_of_loops hlow hcnt hbottom hhalves hzero hone
    · rw [← hpath]
      exact treeBranch_of_loops hlow hmem hcnt hbottom hhalves hnote
    · rw [← hpath]
      exact treePath_of_loops hlow hcnt hbottom hhalves

end Verify

/-! ## What the functions guarantee -/

section Guarantees

open MerkleTree

variable {cnFastHash}

def pairBytes (p : Hash × Hash) : List UInt8 := p.1.toList ++ p.2.toList

variable (cnFastHash) in
/-- The byte strings that `tree_hash` hashes. -/
def treeInputs (hashes : List Hash) : List (List UInt8) :=
  ((ofLeaves hashes).toList.flatMap (pairs (hashPair cnFastHash))).map pairBytes

/-- The steps that a branch and a path stand for. -/
def branchSteps (branch : List Hash) (path : UInt32) : List (Step Hash) :=
  branch.mapIdx fun d beside =>
    (decide ((path >>> UInt32.ofNat (branch.length - d - 1)) &&& 1 ≠ 0), beside)

variable (cnFastHash) in
/-- The byte strings that `tree_branch_hash` hashes. -/
def branchInputs (hash : Hash) (branch : List Hash) (path : UInt32) : List (List UInt8) :=
  (climbPairs (hashPair cnFastHash) hash (branchSteps branch path)).map pairBytes

/-- Two different byte strings of the lists have one hash. -/
def Collision (cnFastHash : List UInt8 → Hash) (xs ys : List (List UInt8)) : Prop :=
  ∃ x ∈ xs, ∃ y ∈ ys, x ≠ y ∧ cnFastHash x = cnFastHash y

theorem collision_of_collide {ps qs : List (Hash × Hash)} (h : Collide (hashPair cnFastHash) ps qs) :
    Collision cnFastHash (ps.map pairBytes) (qs.map pairBytes) := by
  obtain ⟨p, hp, q, hq, hne, heq⟩ := h
  refine ⟨_, List.mem_map_of_mem hp, _, List.mem_map_of_mem hq, fun hbytes => hne ?_, heq⟩
  obtain ⟨hfst, hsnd⟩ := List.append_inj hbytes (by simp)
  exact Prod.ext (Vector.toList_inj.mp hfst) (Vector.toList_inj.mp hsnd)

theorem branchSteps_eq {steps : List (Step Hash)} (hlen : steps.length ≤ 32) :
    branchSteps (steps.map Prod.snd) (pathOf (steps.map Prod.fst)) = steps := by
  apply List.ext_getElem?
  intro d
  rw [branchSteps, List.getElem?_mapIdx, List.getElem?_map]
  cases hstep : steps[d]? with
  | none => rfl
  | some step =>
    obtain ⟨turn, beside⟩ := step
    have hd := (List.getElem?_eq_some_iff.mp hstep).1
    have hget : (steps.map Prod.fst)[d]? = some turn := by rw [List.getElem?_map, hstep]; rfl
    have hbit := testBit_pathOf (by rw [List.length_map]; exact hlen) hget
    have hturn := shiftRight_and_one_ne_zero (pathOf (steps.map Prod.fst))
      (e := steps.length - d - 1) (by omega)
    rw [List.length_map] at hbit
    rw [hbit] at hturn
    simp only [Option.map_some, List.length_map, hturn, Bool.decide_eq_true]

theorem treeHash_bounds {hashes : List Hash} {root : Hash}
    (h : treeHash cnFastHash hashes = some root) : hashes ≠ [] ∧ hashes.length ≤ 2 ^ 28 := by
  match hashes, h with
  | [a], _ => exact ⟨List.cons_ne_nil _ _, by simp⟩
  | [a, b], _ => exact ⟨List.cons_ne_nil _ _, by simp⟩
  | c :: d :: e :: rest, h =>
    refine ⟨List.cons_ne_nil _ _, ?_⟩
    obtain ⟨cnt, hcnt, -⟩ := Option.bind_eq_some_iff.mp h
    unfold treeHashCnt at hcnt
    split at hcnt
    · rename_i hle
      exact hle.2
    · cases hcnt

theorem treeHash_eq {hashes : List Hash} {root : Hash}
    (h : treeHash cnFastHash hashes = some root) :
    ∃ t, ofLeaves hashes = some t ∧ root = t.root (hashPair cnFastHash) := by
  obtain ⟨hne, hhigh⟩ := treeHash_bounds h
  obtain ⟨hash, hmem⟩ := List.exists_mem_of_ne_nil _ hne
  obtain ⟨t, steps, htree, -, hroot, -⟩ := treeBranch_spec cnFastHash hhigh hmem
  exact ⟨t, htree, Option.some.inj (h.symm.trans hroot)⟩

/-- The branch of any hash of a list is made, takes the path of `tree_path`, and verifies
    against the root. -/
theorem isBranchInTree_treeBranch (cnFastHash : List UInt8 → Hash) {hashes : List Hash}
    {hash : Hash} (hhigh : hashes.length ≤ 2 ^ 28) (hmem : hash ∈ hashes) :
    ∃ root branch path, treeHash cnFastHash hashes = some root ∧
      treeBranch cnFastHash hashes hash = some (branch, path) ∧
      treePath hashes.length (hashes.idxOf hash) = some path ∧ branch.length ≤ 28 ∧
      isBranchInTree cnFastHash hash root branch branch.length path = some true := by
  obtain ⟨t, steps, htree, hopens, hroot, hbranch, hpath⟩ := treeBranch_spec cnFastHash hhigh hmem
  have hdepth := (hopens.length_le).trans (depth_ofLeaves_le htree)
  have hlevels : levels hashes.length ≤ 27 := by
    have hclog : Nat.clog 2 hashes.length ≤ 28 := (Nat.clog_le_iff_le_pow (by decide)).mpr hhigh
    unfold levels
    omega
  refine ⟨_, _, _, hroot, hbranch, hpath, ?_, ?_⟩
  · rw [List.length_map]
    omega
  · rw [isBranchInTree, List.length_map, treeBranchHash_eq hash (by omega), hopens.climb_eq]
    simp

/-- A hash of one repeated byte. -/
def byteHash (byte : UInt8) : Hash := Vector.ofFn fun _ => byte

/-- A hash that tells short lists of bytes apart, for the runs on fixed inputs. -/
def sumHash (bytes : List UInt8) : Hash :=
  byteHash (bytes.foldl (fun sum byte => 3 * sum + byte) 1)

/-- The leaves of a block of five transactions. -/
def fiveLeaves : List Hash := [1, 2, 3, 4, 5].map byteHash

theorem isBranchInTree_treeBranch_sample :
    ∃ root branch path, treeHash sumHash fiveLeaves = some root ∧
      treeBranch sumHash fiveLeaves (byteHash 4) = some (branch, path) ∧
      treePath fiveLeaves.length (fiveLeaves.idxOf (byteHash 4)) = some path ∧
      branch.length ≤ 28 ∧
      isBranchInTree sumHash (byteHash 4) root branch branch.length path = some true :=
  isBranchInTree_treeBranch sumHash (by decide) (by decide +kernel)

/-- A branch of the same depth and path that verifies against the root is the branch that
    `tree_branch` makes, and for the same hash, unless two of the hashed byte strings
    collide. -/
theorem treeBranch_binds {hashes branch branch' : List Hash} {hash hash' root : Hash}
    {path : UInt32} (hroot : treeHash cnFastHash hashes = some root)
    (hbranch : treeBranch cnFastHash hashes hash = some (branch, path))
    (hlen : branch'.length = branch.length)
    (haccept : isBranchInTree cnFastHash hash' root branch' branch'.length path = some true) :
    hash' = hash ∧ branch' = branch ∨
      Collision cnFastHash (branchInputs cnFastHash hash' branch' path)
        (treeInputs cnFastHash hashes) := by
  have hhigh := (treeHash_bounds hroot).2
  have hmem : hash ∈ hashes := by
    by_contra hnot
    unfold treeBranch at hbranch
    rw [if_pos (.inr (List.idxOf_eq_length_iff.mpr hnot))] at hbranch
    cases hbranch
  obtain ⟨t, steps, htree, hopens, hroot', hbranch', -⟩ := treeBranch_spec cnFastHash hhigh hmem
  obtain ⟨rfl, rfl⟩ := Prod.mk.inj (Option.some.inj (hbranch.symm.trans hbranch'))
  obtain rfl := Option.some.inj (hroot.symm.trans hroot')
  have hdepth := (hopens.length_le).trans (depth_ofLeaves_le htree)
  have hlevels : levels hashes.length ≤ 27 := by
    have hclog : Nat.clog 2 hashes.length ≤ 28 := (Nat.clog_le_iff_le_pow (by decide)).mpr hhigh
    unfold levels
    omega
  -- The branch with the turns of the path.
  have hturns : branch'.length = (steps.map Prod.fst).length := by
    rw [hlen, List.length_map, List.length_map]
  obtain ⟨steps', hfst, hsnd⟩ : ∃ steps' : List (Step Hash),
      steps'.map Prod.fst = steps.map Prod.fst ∧ steps'.map Prod.snd = branch' :=
    ⟨(steps.map Prod.fst).zip branch', List.map_fst_zip hturns.ge, List.map_snd_zip hturns.le⟩
  have hshort : steps'.length ≤ 32 := by
    have hcount := congrArg List.length hfst
    rw [List.length_map, List.length_map] at hcount
    omega
  rw [← hfst, ← hsnd, List.length_map, isBranchInTree, treeBranchHash_eq hash' hshort] at haccept
  have hclimb : climb (hashPair cnFastHash) hash' steps' = t.root (hashPair cnFastHash) := by
    simpa using haccept
  rcases hopens.eq_or_collide _ hfst hclimb with ⟨rfl, rfl⟩ | hcollide
  · exact .inl ⟨rfl, hsnd.symm⟩
  · refine .inr ?_
    have hinputs := collision_of_collide hcollide
    rw [branchInputs, ← hfst, ← hsnd, branchSteps_eq hshort, treeInputs, htree]
    simpa using hinputs

-- The sum takes the leaves 4 and 8 for one, and the leaves 1 and 5.
theorem treeBranch_binds_sample :
    ∃ branch path, treeBranch sumHash fiveLeaves (byteHash 4) = some (branch, path) ∧
      (byteHash 8 = byteHash 4 ∧ branch = branch ∨
        Collision sumHash (branchInputs sumHash (byteHash 8) branch path)
          (treeInputs sumHash fiveLeaves)) := by
  obtain ⟨root, hroot⟩ : ∃ root, treeHash sumHash fiveLeaves = some root :=
    Option.isSome_iff_exists.mp (by decide +kernel)
  obtain ⟨⟨branch, path⟩, hbranch⟩ : ∃ b, treeBranch sumHash fiveLeaves (byteHash 4) = some b :=
    Option.isSome_iff_exists.mp (by decide +kernel)
  have haccept : ((treeHash sumHash fiveLeaves).bind fun root =>
      (treeBranch sumHash fiveLeaves (byteHash 4)).bind fun b =>
        isBranchInTree sumHash (byteHash 8) root b.1 b.1.length b.2) = some true := by
    decide +kernel
  rw [hroot, Option.bind_some, hbranch, Option.bind_some] at haccept
  exact ⟨branch, path, hbranch, treeBranch_binds hroot hbranch rfl haccept⟩

/-- The root binds the hashes of a list of known length, unless two of the hashed byte
    strings collide. -/
theorem treeHash_binds {hashes hashes' : List Hash} {root : Hash}
    (h : treeHash cnFastHash hashes = some root) (h' : treeHash cnFastHash hashes' = some root)
    (hlen : hashes.length = hashes'.length) :
    hashes = hashes' ∨
      Collision cnFastHash (treeInputs cnFastHash hashes) (treeInputs cnFastHash hashes') := by
  obtain ⟨t, ht, hroot⟩ := treeHash_eq h
  obtain ⟨t', ht', hroot'⟩ := treeHash_eq h'
  refine (leaves_eq_or_collide (hashPair cnFastHash) hlen ht ht' (hroot.symm.trans hroot')).imp_right
    fun hcollide => ?_
  rw [treeInputs, treeInputs, ht, ht']
  simpa using collision_of_collide hcollide

theorem treeHash_binds_sample :
    fiveLeaves = [5, 2, 3, 4, 1].map byteHash ∨
      Collision sumHash (treeInputs sumHash fiveLeaves)
        (treeInputs sumHash ([5, 2, 3, 4, 1].map byteHash)) := by
  obtain ⟨root, hroot⟩ : ∃ root, treeHash sumHash fiveLeaves = some root :=
    Option.isSome_iff_exists.mp (by decide +kernel)
  have hsame : treeHash sumHash ([5, 2, 3, 4, 1].map byteHash) = treeHash sumHash fiveLeaves := by
    decide +kernel
  exact treeHash_binds hroot (hsame.trans hroot) rfl

/-- The length has to be known: a pair may stand for its hash. -/
theorem treeHash_three_eq_two (cnFastHash : List UInt8 → Hash) (a b c : Hash) :
    treeHash cnFastHash [a, b, c] = treeHash cnFastHash [a, hashPair cnFastHash b c] := by
  have hcnt : treeHashCnt 3 = some 2 := by decide
  simp [treeHash, hcnt, Loops.forRange, Loops.whileHalves, hashRound, initialInts, List.range_succ]

end Guarantees

end RandomLite.Monero
