-- SUMMARY: Hash trees: roots, openings of leaves, and what a root binds when no two hashed pairs collide.
import Mathlib.Data.List.Basic
import Mathlib.Data.Nat.Log
import Mathlib.Logic.Function.Iterate
import Mathlib.Tactic.Ring

/-!
# Hash trees

Binary trees with values at the leaves, whose nodes are hashed from below by a function of
two values. A root binds the leaves, and an opening of the root binds the leaf at its
place, unless two of the pairs that were hashed collide. Levels of trees are paired from
the left until one tree is left.
-/

inductive MerkleTree (α : Type*) where
  | leaf (a : α)
  | node (l r : MerkleTree α)

namespace MerkleTree

variable {α β : Type*}

/-- The leaves from left to right. -/
def leaves : MerkleTree α → List α
  | leaf a => [a]
  | node l r => l.leaves ++ r.leaves

def map (f : α → β) : MerkleTree α → MerkleTree β
  | leaf a => leaf (f a)
  | node l r => node (l.map f) (r.map f)

/-- The tree without its values. -/
def shape (t : MerkleTree α) : MerkleTree Unit := t.map fun _ => ()

variable (h : α → α → α)

def root : MerkleTree α → α
  | leaf a => a
  | node l r => h l.root r.root

/-- The pairs that are hashed on the way to the root. -/
def pairs : MerkleTree α → List (α × α)
  | leaf _ => []
  | node l r => (l.root h, r.root h) :: (l.pairs ++ r.pairs)

/-- Two lists of pairs hold two different pairs of one hash. -/
def Collide (ps qs : List (α × α)) : Prop :=
  ∃ p ∈ ps, ∃ q ∈ qs, p ≠ q ∧ h p.1 p.2 = h q.1 q.2

theorem Collide.mono {ps ps' qs qs' : List (α × α)} (hc : Collide h ps qs)
    (hps : ∀ p ∈ ps, p ∈ ps') (hqs : ∀ q ∈ qs, q ∈ qs') : Collide h ps' qs' := by
  obtain ⟨p, hp, q, hq, hne, heq⟩ := hc
  exact ⟨p, hps p hp, q, hqs q hq, hne, heq⟩

/-! ## What a root binds -/

/-- Trees of one shape and one root have the same leaves, or two of their pairs collide. -/
theorem eq_or_collide [DecidableEq α] {t t' : MerkleTree α} (hshape : t.shape = t'.shape)
    (hroot : t.root h = t'.root h) : t = t' ∨ Collide h (t.pairs h) (t'.pairs h) := by
  induction t generalizing t' with
  | leaf a =>
    cases t' with
    | leaf a' => exact .inl (congrArg leaf hroot)
    | node l' r' => cases hshape
  | node l r ihl ihr =>
    cases t' with
    | leaf a' => cases hshape
    | node l' r' =>
      obtain ⟨hl, hr⟩ := MerkleTree.node.inj hshape
      by_cases hpair : (l.root h, r.root h) = (l'.root h, r'.root h)
      · obtain ⟨hlroot, hrroot⟩ := Prod.mk.inj hpair
        rcases ihl hl hlroot with rfl | hc
        · rcases ihr hr hrroot with rfl | hc
          · exact .inl rfl
          · refine .inr (hc.mono h ?_ ?_) <;> simp +contextual [pairs]
        · refine .inr (hc.mono h ?_ ?_) <;> simp +contextual [pairs]
      · exact .inr ⟨_, List.mem_cons_self, _, List.mem_cons_self, hpair, hroot⟩

/-! ## Openings -/

/-- One step up: whether the value stands on the right, and the value beside it. -/
abbrev Step (α : Type*) := Bool × α

/-- The pair that is hashed in a step. -/
def Step.pair (s : Step α) (a : α) : α × α := if s.1 then (s.2, a) else (a, s.2)

/-- What is hashed up from a value along the steps. -/
def climb : α → List (Step α) → α
  | a, [] => a
  | a, s :: steps => climb (h (s.pair a).1 (s.pair a).2) steps

/-- The pairs that are hashed along the steps. -/
def climbPairs : α → List (Step α) → List (α × α)
  | _, [] => []
  | a, s :: steps => s.pair a :: climbPairs (h (s.pair a).1 (s.pair a).2) steps

/-- The steps lead from the leaf of that value to the root. -/
inductive Opens : MerkleTree α → List (Step α) → α → Prop
  | leaf (a : α) : Opens (leaf a) [] a
  | left {l r : MerkleTree α} {steps : List (Step α)} {a : α} :
      Opens l steps a → Opens (node l r) (steps ++ [(false, r.root h)]) a
  | right {l r : MerkleTree α} {steps : List (Step α)} {a : α} :
      Opens r steps a → Opens (node l r) (steps ++ [(true, l.root h)]) a

@[simp] theorem climb_append (a : α) (steps steps' : List (Step α)) :
    climb h a (steps ++ steps') = climb h (climb h a steps) steps' := by
  induction steps generalizing a with
  | nil => rfl
  | cons s steps ih => exact ih _

@[simp] theorem climbPairs_append (a : α) (steps steps' : List (Step α)) :
    climbPairs h a (steps ++ steps') =
      climbPairs h a steps ++ climbPairs h (climb h a steps) steps' := by
  induction steps generalizing a with
  | nil => rfl
  | cons s steps ih => exact congrArg _ (ih _)

/-- An opening is climbed to the root. -/
theorem Opens.climb_eq {t : MerkleTree α} {steps : List (Step α)} {a : α}
    (ho : Opens h t steps a) : climb h a steps = t.root h := by
  induction ho with
  | leaf a => rfl
  | @left l r steps a _ ih =>
    rw [climb_append, ih]
    rfl
  | @right l r steps a _ ih =>
    rw [climb_append, ih]
    rfl

/-- Steps that take the turns of an opening and lead to its root start at its leaf and take
    its values, or two of the pairs collide. -/
theorem Opens.eq_or_collide [DecidableEq α] {t : MerkleTree α} {steps steps' : List (Step α)}
    {a a' : α} (ho : Opens h t steps a) (hturns : steps'.map Prod.fst = steps.map Prod.fst)
    (hroot : climb h a' steps' = t.root h) :
    a' = a ∧ steps' = steps ∨ Collide h (climbPairs h a' steps') (t.pairs h) := by
  induction ho generalizing steps' with
  | leaf a =>
    obtain rfl : steps' = [] := List.map_eq_nil_iff.mp hturns
    exact .inl ⟨hroot, rfl⟩
  | @left l r steps a _ ih =>
    rw [List.map_append] at hturns
    obtain ⟨front, last, rfl, hfront, hlast⟩ := List.map_eq_append_iff.mp hturns
    obtain ⟨⟨turn, b⟩, rest, rfl, hturn, hrest⟩ := List.map_eq_cons_iff.mp hlast
    obtain rfl : rest = [] := List.map_eq_nil_iff.mp hrest
    obtain rfl : turn = false := hturn
    rw [climb_append] at hroot
    by_cases hpair : (climb h a' front, b) = (l.root h, r.root h)
    · obtain ⟨hclimb, rfl⟩ := Prod.mk.inj hpair
      rcases ih hfront hclimb with ⟨rfl, rfl⟩ | hc
      · exact .inl ⟨rfl, rfl⟩
      · refine .inr (hc.mono h ?_ ?_) <;> simp +contextual [pairs]
    · exact .inr ⟨(climb h a' front, b), by simp [climbPairs, Step.pair], _, List.mem_cons_self,
        hpair, hroot⟩
  | @right l r steps a _ ih =>
    rw [List.map_append] at hturns
    obtain ⟨front, last, rfl, hfront, hlast⟩ := List.map_eq_append_iff.mp hturns
    obtain ⟨⟨turn, b⟩, rest, rfl, hturn, hrest⟩ := List.map_eq_cons_iff.mp hlast
    obtain rfl : rest = [] := List.map_eq_nil_iff.mp hrest
    obtain rfl : turn = true := hturn
    rw [climb_append] at hroot
    by_cases hpair : (b, climb h a' front) = (l.root h, r.root h)
    · obtain ⟨rfl, hclimb⟩ := Prod.mk.inj hpair
      rcases ih hfront hclimb with ⟨rfl, rfl⟩ | hc
      · exact .inl ⟨rfl, rfl⟩
      · refine .inr (hc.mono h ?_ ?_) <;> simp +contextual [pairs]
    · exact .inr ⟨(b, climb h a' front), by simp [climbPairs, Step.pair], _, List.mem_cons_self,
        hpair, hroot⟩

/-- The length of the longest way from the root to a leaf. -/
def depth : MerkleTree α → Nat
  | leaf _ => 0
  | node l r => max l.depth r.depth + 1

theorem Opens.length_le {t : MerkleTree α} {steps : List (Step α)} {a : α} (ho : Opens h t steps a) :
    steps.length ≤ t.depth := by
  induction ho with
  | leaf a => exact Nat.le_refl 0
  | @left l r steps a _ ih =>
    rw [List.length_append]
    exact Nat.succ_le_succ (ih.trans (Nat.le_max_left _ _))
  | @right l r steps a _ ih =>
    rw [List.length_append]
    exact Nat.succ_le_succ (ih.trans (Nat.le_max_right _ _))

/-! ## Levels -/

/-- Neighbours are paired from the left; one that is left over stays. -/
def pairUp (f : α → α → α) : List α → List α
  | a :: b :: rest => f a b :: pairUp f rest
  | rest => rest

theorem length_pairUp (f : α → α → α) {n : Nat} {as : List α} (hlen : as.length = 2 * n) :
    (pairUp f as).length = n := by
  induction n generalizing as with
  | zero =>
    rw [List.length_eq_zero_iff.mp hlen]
    rfl
  | succ n ih =>
    match as, hlen with
    | a :: b :: rest, hlen =>
      simp only [List.length_cons] at hlen
      rw [pairUp, List.length_cons, ih (by omega)]

theorem pairUp_concat (f : α → α → α) {n : Nat} {as : List α} (hlen : as.length = 2 * n) (a b : α) :
    pairUp f (as ++ [a, b]) = pairUp f as ++ [f a b] := by
  induction n generalizing as with
  | zero =>
    rw [List.length_eq_zero_iff.mp hlen]
    rfl
  | succ n ih =>
    match as, hlen with
    | c :: d :: rest, hlen =>
      simp only [List.length_cons] at hlen
      rw [List.cons_append, List.cons_append, pairUp, ih (by omega)]
      rfl

theorem map_pairUp {f : α → α → α} {g : β → β → β} {φ : α → β}
    (hφ : ∀ a b, φ (f a b) = g (φ a) (φ b)) (as : List α) :
    (pairUp f as).map φ = pairUp g (as.map φ) := by
  induction as using pairUp.induct with
  | case1 a b rest ih =>
    rw [pairUp, List.map_cons, ih, hφ]
    rfl
  | case2 rest hrest =>
    match rest, hrest with
    | [], _ => rfl
    | [a], _ => rfl
    | a :: b :: rest, hrest => exact absurd rfl (hrest a b rest)

/-- Pairing does not change which leaves there are, nor their order. -/
theorem flatMap_leaves_pairUp (ts : List (MerkleTree α)) :
    (pairUp node ts).flatMap leaves = ts.flatMap leaves := by
  induction ts using pairUp.induct with
  | case1 l r rest ih =>
    rw [pairUp, List.flatMap_cons, ih]
    simp [leaves]
  | case2 rest hrest =>
    match rest, hrest with
    | [], _ => rfl
    | [a], _ => rfl
    | a :: b :: rest, hrest => exact absurd rfl (hrest a b rest)

theorem depth_pairUp_le {d : Nat} {ts : List (MerkleTree α)} (hd : ∀ t ∈ ts, t.depth ≤ d) :
    ∀ t ∈ pairUp node ts, t.depth ≤ d + 1 := by
  induction ts using pairUp.induct with
  | case1 l r rest ih =>
    obtain ⟨hl, hr, hrest⟩ := List.forall_mem_cons.mp hd |>.imp_right List.forall_mem_cons.mp
    refine List.forall_mem_cons.mpr ⟨Nat.succ_le_succ (Nat.max_le.mpr ⟨hl, hr⟩), ih hrest⟩
  | case2 rest hrest =>
    intro t ht
    rw [pairUp.eq_2 _ _ hrest] at ht
    exact Nat.le_succ_of_le (hd t ht)

theorem getElem?_pairUp {f : α → α → α} {as : List α} {i : Nat} {a b : α}
    (ha : as[2 * i]? = some a) (hb : as[2 * i + 1]? = some b) :
    (pairUp f as)[i]? = some (f a b) := by
  induction i generalizing as with
  | zero =>
    match as, ha, hb with
    | a :: b :: rest, ha, hb =>
      cases ha
      cases hb
      rfl
  | succ i ih =>
    match as, ha, hb with
    | _ :: _ :: rest, ha, hb =>
      have ha' : rest[2 * i]? = some a := ha
      exact ih ha' hb
    | [_], ha, hb => simp at hb
    | [], ha, hb => simp at hb

/-- One level up, past the first `s` values. -/
def levelUp (f : α → α → α) (s : Nat) (as : List α) : List α := as.take s ++ pairUp f (as.drop s)

theorem levelUp_zero (f : α → α → α) (as : List α) : levelUp f 0 as = pairUp f as := by
  rw [levelUp, List.take_zero, List.drop_zero, List.nil_append]

theorem length_levelUp (f : α → α → α) {s n : Nat} {as : List α} (hlen : as.length = s + 2 * n) :
    (levelUp f s as).length = s + n := by
  have hdrop : (as.drop s).length = 2 * n := by
    rw [List.length_drop]
    omega
  rw [levelUp, List.length_append, length_pairUp f hdrop, List.length_take]
  omega

theorem map_levelUp {f : α → α → α} {g : β → β → β} {φ : α → β}
    (hφ : ∀ a b, φ (f a b) = g (φ a) (φ b)) (s : Nat) (as : List α) :
    (levelUp f s as).map φ = levelUp g s (as.map φ) := by
  rw [levelUp, levelUp, List.map_append, map_pairUp hφ, List.map_take, List.map_drop]

/-- Two more values that are paired. -/
theorem levelUp_take_succ (f : α → α → α) {s k : Nat} {as : List α} {a b : α}
    (ha : as[s + 2 * k]? = some a) (hb : as[s + 2 * k + 1]? = some b) :
    levelUp f s (as.take (s + 2 * (k + 1))) = levelUp f s (as.take (s + 2 * k)) ++ [f a b] := by
  obtain ⟨hlt, hfirst⟩ := List.getElem?_eq_some_iff.mp hb
  obtain ⟨_, hsecond⟩ := List.getElem?_eq_some_iff.mp ha
  have htake : as.take (s + 2 * (k + 1)) = as.take (s + 2 * k) ++ [a, b] := by
    rw [show s + 2 * (k + 1) = s + 2 * k + 1 + 1 by omega, List.take_succ_eq_append_getElem hlt,
      List.take_succ_eq_append_getElem (by omega), hfirst, hsecond, List.append_assoc]
    rfl
  have hlen : (as.take (s + 2 * k)).length = s + 2 * k := by
    rw [List.length_take]
    omega
  have hpaired : ((as.take (s + 2 * k)).drop s).length = 2 * k := by
    rw [List.length_drop]
    omega
  rw [htake, levelUp, levelUp, List.take_append_of_le_length (by omega),
    List.drop_append_of_le_length (by omega), pairUp_concat f hpaired, List.append_assoc]

/-- Hashing a level up gives the roots of the trees paired. -/
theorem map_root_levelUp (s : Nat) (ts : List (MerkleTree α)) :
    (levelUp node s ts).map (root h) = levelUp h s (ts.map (root h)) :=
  map_levelUp (fun _ _ => rfl) s ts

theorem flatMap_leaves_levelUp (s : Nat) (ts : List (MerkleTree α)) :
    (levelUp node s ts).flatMap leaves = ts.flatMap leaves := by
  rw [levelUp, List.flatMap_append, flatMap_leaves_pairUp, ← List.flatMap_append,
    List.take_append_drop]

/-- The place in a pair of the value beside place `i`, when pairs begin at `s`. -/
def besidePlace (s i : Nat) : Nat := if (i - s) % 2 = 0 then i + 1 else i - 1

/-- The tree at a place of the list is opened by the steps. -/
def OpensAt (ts : List (MerkleTree α)) (i : Nat) (steps : List (Step α)) (a : α) : Prop :=
  ∃ t, ts[i]? = some t ∧ Opens h t steps a

/-- A tree that is not paired stays open. -/
theorem OpensAt.levelUp_of_lt {ts : List (MerkleTree α)} {s i : Nat} {steps : List (Step α)} {a : α}
    (ho : OpensAt h ts i steps a) (hi : i < s) : OpensAt h (levelUp node s ts) i steps a := by
  obtain ⟨t, ht, ho⟩ := ho
  refine ⟨t, ?_, ho⟩
  have hlt := (List.getElem?_eq_some_iff.mp ht).1
  rw [levelUp, List.getElem?_append_left (by rw [List.length_take]; omega),
    List.getElem?_take_of_lt hi]
  exact ht

/-- A tree that is paired is opened with one step more. -/
theorem OpensAt.levelUp_of_le {ts : List (MerkleTree α)} {s n i : Nat} {steps : List (Step α)}
    {a : α} (ho : OpensAt h ts i steps a) (hlen : ts.length = s + 2 * n) (hi : s ≤ i) :
    ∃ b, (ts.map (root h))[besidePlace s i]? = some b ∧
      OpensAt h (levelUp node s ts) (s + (i - s) / 2)
        (steps ++ [(decide ((i - s) % 2 = 1), b)]) a := by
  obtain ⟨t, ht, ho⟩ := ho
  have hlt := (List.getElem?_eq_some_iff.mp ht).1
  obtain ⟨j, rfl⟩ := Nat.exists_eq_add_of_le hi
  rw [Nat.add_sub_cancel_left]
  have htake : (ts.take s).length = s := by
    rw [List.length_take]
    omega
  have hplace {u : MerkleTree α} (hu : (pairUp node (ts.drop s))[j / 2]? = some u) :
      (levelUp node s ts)[s + j / 2]? = some u := by
    rw [levelUp, List.getElem?_append_right (by omega), htake, Nat.add_sub_cancel_left]
    exact hu
  rcases Nat.mod_two_eq_zero_or_one j with hj | hj
  · have hbeside : besidePlace s (s + j) = s + j + 1 := by
      rw [besidePlace, Nat.add_sub_cancel_left, if_pos hj]
    obtain ⟨r, hr⟩ : ∃ r, ts[s + j + 1]? = some r :=
      ⟨_, List.getElem?_eq_getElem (by omega)⟩
    refine ⟨r.root h, by rw [hbeside, List.getElem?_map, hr]; rfl, node t r, hplace ?_, ?_⟩
    · refine getElem?_pairUp ?_ ?_
      · rw [List.getElem?_drop, show s + 2 * (j / 2) = s + j by omega]
        exact ht
      · rw [List.getElem?_drop, show s + (2 * (j / 2) + 1) = s + j + 1 by omega]
        exact hr
    · rw [show decide (j % 2 = 1) = false by simp [hj]]
      exact ho.left
  · have hbeside : besidePlace s (s + j) = s + j - 1 := by
      rw [besidePlace, Nat.add_sub_cancel_left, if_neg (by omega)]
    obtain ⟨l, hl⟩ : ∃ l, ts[s + j - 1]? = some l :=
      ⟨_, List.getElem?_eq_getElem (by omega)⟩
    refine ⟨l.root h, by rw [hbeside, List.getElem?_map, hl]; rfl, node l t, hplace ?_, ?_⟩
    · refine getElem?_pairUp ?_ ?_
      · rw [List.getElem?_drop, show s + 2 * (j / 2) = s + j - 1 by omega]
        exact hl
      · rw [List.getElem?_drop, show s + (2 * (j / 2) + 1) = s + j by omega]
        exact ht
    · rw [show decide (j % 2 = 1) = true by simp [hj]]
      exact ho.right

/-! ## The tree over a list -/

/-- How often the lowest level but one of a tree over `count` leaves is paired. -/
def levels (count : Nat) : Nat := Nat.clog 2 count - 1

theorem two_pow_levels_le {count : Nat} (hpos : 1 ≤ count) :
    2 ^ levels count ≤ count ∧ count ≤ 2 * 2 ^ levels count := by
  unfold levels
  rcases Nat.lt_or_ge 1 count with hmore | hone
  · have hclog : 0 < Nat.clog 2 count := Nat.clog_pos (by decide) hmore
    have hlow : 2 ^ (Nat.clog 2 count).pred < count := Nat.pow_pred_clog_lt_self (by decide) hmore
    have hhigh : count ≤ 2 ^ Nat.clog 2 count := Nat.le_pow_clog (by decide) count
    obtain ⟨k, hk⟩ := Nat.exists_eq_add_of_lt hclog
    rw [hk, Nat.zero_add, Nat.pred_succ] at hlow
    rw [hk, Nat.zero_add] at hhigh ⊢
    rw [Nat.add_sub_cancel]
    refine ⟨hlow.le, hhigh.trans_eq ?_⟩
    ring
  · obtain rfl : count = 1 := Nat.le_antisymm hone hpos
    decide

/-- The lowest level but one: as many leaves at its right end are paired as it takes to
    leave a power of two. -/
def bottom (as : List α) : List (MerkleTree α) :=
  levelUp node (2 * 2 ^ levels as.length - as.length) (as.map leaf)

/-- The tree over a list that is not empty. -/
def ofLeaves (as : List α) : Option (MerkleTree α) :=
  ((pairUp node)^[levels as.length] (bottom as)).head?

theorem length_iterate_pairUp (f : α → α → α) {k i : Nat} {as : List α}
    (hlen : as.length = 2 ^ (i + k)) : ((pairUp f)^[k] as).length = 2 ^ i := by
  induction k generalizing as with
  | zero => exact hlen
  | succ k ih =>
    rw [Function.iterate_succ_apply]
    refine ih (length_pairUp f ?_)
    rw [hlen]
    ring

theorem flatMap_leaves_iterate (k : Nat) (ts : List (MerkleTree α)) :
    ((pairUp node)^[k] ts).flatMap leaves = ts.flatMap leaves := by
  induction k generalizing ts with
  | zero => rfl
  | succ k ih => rw [Function.iterate_succ_apply, ih, flatMap_leaves_pairUp]

theorem map_iterate_pairUp {f : α → α → α} {g : β → β → β} {φ : α → β}
    (hφ : ∀ a b, φ (f a b) = g (φ a) (φ b)) (k : Nat) (as : List α) :
    ((pairUp f)^[k] as).map φ = (pairUp g)^[k] (as.map φ) := by
  induction k generalizing as with
  | zero => rfl
  | succ k ih => rw [Function.iterate_succ_apply, ih, map_pairUp hφ, Function.iterate_succ_apply]

/-- The two trees below the root, when there are at least two leaves. -/
theorem ofLeaves_eq_node {as : List α} {l r : MerkleTree α}
    (hlevels : (pairUp node)^[levels as.length - 1] (bottom as) = [l, r])
    (hmany : 1 ≤ levels as.length) : ofLeaves as = some (node l r) := by
  obtain ⟨k, hk⟩ := Nat.exists_eq_add_of_le' hmany
  rw [hk, Nat.add_sub_cancel] at hlevels
  rw [ofLeaves, hk, Function.iterate_succ_apply', hlevels]
  rfl

theorem length_bottom {as : List α} (hne : as ≠ []) : (bottom as).length = 2 ^ levels as.length := by
  obtain ⟨hlow, hhigh⟩ := two_pow_levels_le (List.length_pos_iff.mpr hne)
  rw [bottom, length_levelUp (n := as.length - 2 ^ levels as.length) node]
  · omega
  · rw [List.length_map]
    omega

theorem flatMap_leaves_bottom (as : List α) : (bottom as).flatMap leaves = as := by
  rw [bottom, flatMap_leaves_levelUp, List.flatMap_map]
  exact List.flatMap_singleton' as

/-- There is such a tree, with the values of the list at its leaves. -/
theorem ofLeaves_eq {as : List α} (hne : as ≠ []) :
    ∃ t, ofLeaves as = some t ∧ (pairUp node)^[levels as.length] (bottom as) = [t] ∧
      t.leaves = as := by
  have hlen : ((pairUp node)^[levels as.length] (bottom as)).length = 2 ^ 0 :=
    length_iterate_pairUp node (by rw [length_bottom hne, Nat.zero_add])
  obtain ⟨t, ht⟩ := List.length_eq_one_iff.mp hlen
  refine ⟨t, by rw [ofLeaves, ht]; rfl, ht, ?_⟩
  have hleaves := flatMap_leaves_iterate (levels as.length) (bottom as)
  rwa [ht, flatMap_leaves_bottom, List.flatMap_singleton] at hleaves

theorem depth_ofLeaves_le {as : List α} {t : MerkleTree α} (ht : ofLeaves as = some t) :
    t.depth ≤ levels as.length + 1 := by
  have hbottom : ∀ t ∈ bottom as, t.depth ≤ 1 := by
    have hleaf : ∀ t ∈ as.map leaf, t.depth ≤ 0 := by
      simp [depth]
    intro t ht
    rcases List.mem_append.mp ht with hfront | hpaired
    · exact Nat.le_succ_of_le (hleaf t (List.mem_of_mem_take hfront))
    · exact depth_pairUp_le (fun t ht => hleaf t (List.mem_of_mem_drop ht)) t hpaired
  have hiterate (k : Nat) : ∀ t ∈ (pairUp node)^[k] (bottom as), t.depth ≤ k + 1 := by
    induction k with
    | zero => exact hbottom
    | succ k ih =>
      rw [Function.iterate_succ_apply']
      exact depth_pairUp_le ih
  exact hiterate _ t (List.mem_of_head? ht)

theorem map_bottom (f : α → β) (as : List α) :
    (bottom as).map (MerkleTree.map f) = bottom (as.map f) := by
  rw [bottom, map_levelUp (g := node) (fun _ _ => rfl), bottom, List.length_map, List.map_map,
    List.map_map]
  rfl

/-- The shape of the tree depends on the number of leaves only. -/
theorem shape_ofLeaves {as : List α} {t : MerkleTree α} (ht : ofLeaves as = some t) :
    ofLeaves (List.replicate as.length ()) = some t.shape := by
  have hmap := congrArg (Option.map shape) ht
  rw [ofLeaves, ← List.head?_map] at hmap
  unfold shape at hmap
  rw [map_iterate_pairUp (g := node) (fun _ _ => rfl), map_bottom] at hmap
  have hunit : (as.map fun _ => ()) = List.replicate as.length () := List.map_const' ..
  rw [hunit] at hmap
  rw [ofLeaves, List.length_replicate]
  exact hmap

/-- The root of the tree over a list binds the list, among lists of its length, unless two
    of the pairs that are hashed collide. -/
theorem leaves_eq_or_collide [DecidableEq α] {as as' : List α} (hlen : as.length = as'.length)
    {t t' : MerkleTree α} (ht : ofLeaves as = some t) (ht' : ofLeaves as' = some t')
    (hroot : t.root h = t'.root h) : as = as' ∨ Collide h (t.pairs h) (t'.pairs h) := by
  have hshape : t.shape = t'.shape := by
    have hs := shape_ofLeaves ht
    rw [hlen, shape_ofLeaves ht'] at hs
    exact (Option.some.inj hs).symm
  have hleaves {bs : List α} {u : MerkleTree α} (hu : ofLeaves bs = some u) : u.leaves = bs := by
    rcases eq_or_ne bs [] with rfl | hne
    · cases hu
    · obtain ⟨u', hu', -, heq⟩ := ofLeaves_eq hne
      rw [hu] at hu'
      rwa [Option.some.inj hu']
  refine (eq_or_collide h hshape hroot).imp_left fun heq => ?_
  rw [← hleaves ht, ← hleaves ht', heq]

end MerkleTree
