-- SUMMARY: Nodes that name their parent by an identifier, and values grown from the root along the parents.
import Mathlib.Data.Set.Defs

/-!
# Parent trees

Blocks, commits and log entries name what they extend by an identifier. A value that
starts at the root and grows at every node is then fixed by the identifier alone, as
long as identifiers tell nodes apart: `Carries.functional`. A value that only grows
is never smaller at a node than at its parent: `Carries.parent_le`.
-/

/-- Nodes that name themselves and their parent. -/
structure ParentTree (Node Id : Type*) where
  nodes : Set Node
  id : Node → Id
  parent : Node → Id
  root : Id

namespace ParentTree

variable {Node Id Value : Type*} {T : ParentTree Node Id} {grow : Node → Value → Value}
  {start : Value}

/-- Identifiers tell nodes apart, and none of them is the root's. -/
structure WellNamed (T : ParentTree Node Id) : Prop where
  injective : ∀ n ∈ T.nodes, ∀ m ∈ T.nodes, T.id n = T.id m → n = m
  ne_root : ∀ n ∈ T.nodes, T.id n ≠ T.root

/-- The identifier `i` carries the value grown from the root along its ancestors. -/
inductive Carries (T : ParentTree Node Id) (grow : Node → Value → Value) (start : Value) :
    Id → Value → Prop where
  | root : Carries T grow start T.root start
  | child {n : Node} {v : Value} (hn : n ∈ T.nodes) (h : Carries T grow start (T.parent n) v) :
      Carries T grow start (T.id n) (grow n v)

namespace Carries

/-- What a node carries was grown from what its parent carries. -/
theorem of_node (hT : T.WellNamed) {n : Node} (hn : n ∈ T.nodes) {v : Value}
    (h : T.Carries grow start (T.id n) v) :
    ∃ w, T.Carries grow start (T.parent n) w ∧ v = grow n w := by
  generalize hi : T.id n = i at h
  cases h with
  | root => exact absurd hi (hT.ne_root n hn)
  | child hm hparent =>
    cases hT.injective n hn _ hm hi
    exact ⟨_, hparent, rfl⟩

theorem functional (hT : T.WellNamed) {i : Id} {v w : Value} (hv : T.Carries grow start i v)
    (hw : T.Carries grow start i w) : v = w := by
  induction hv generalizing w with
  | root =>
    generalize hi : T.root = i at hw
    cases hw with
    | root => rfl
    | child hn _ => exact absurd hi.symm (hT.ne_root _ hn)
  | child hn _ ih =>
    obtain ⟨w', hw', rfl⟩ := of_node hT hn hw
    rw [ih hw']

/-- A property that the start has and growing keeps holds of everything carried. -/
theorem invariant {P : Value → Prop} (hstart : P start) (hgrow : ∀ n v, P v → P (grow n v))
    {i : Id} {v : Value} (h : T.Carries grow start i v) : P v := by
  induction h with
  | root => exact hstart
  | child _ _ ih => exact hgrow _ _ ih

/-- A value that only grows is never smaller at a node than at its parent. -/
theorem parent_le [LE Value] {P : Value → Prop} (hstart : P start)
    (hkeep : ∀ n v, P v → P (grow n v)) (hle : ∀ n v, P v → v ≤ grow n v) (hT : T.WellNamed)
    {n : Node} (hn : n ∈ T.nodes) {v w : Value} (hv : T.Carries grow start (T.parent n) v)
    (hw : T.Carries grow start (T.id n) w) : v ≤ w := by
  obtain ⟨v', hv', rfl⟩ := of_node hT hn hw
  cases functional hT hv hv'
  exact hle n v (invariant hstart hkeep hv)

end Carries

end ParentTree
