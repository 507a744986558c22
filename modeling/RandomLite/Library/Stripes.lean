-- SUMMARY: Stripes that take turns: the stripe of a position, and the first position of a stripe from a given one on.
import Mathlib.Data.Nat.ModEq
import Mathlib.Order.Bounds.Defs
import Mathlib.Tactic.Ring

/-!
# Stripes

Positions come in runs of `size`, and `count` stripes take the runs in turn. The first
position of stripe `k` that is not before a given one is `next`; up to the first position of
the next stripe in turn, the stripe does not change.
-/

namespace Stripes

/-- The stripe of a position. -/
def stripe (size count position : Nat) : Nat := position / size % count

/-- The first number from `q` on that leaves remainder `k`. -/
def nextResidue (count k q : Nat) : Nat :=
  (q / count + if q % count ≤ k then 0 else 1) * count + k

/-- The first position from `position` on in stripe `k`. -/
def next (size count k position : Nat) : Nat :=
  if stripe size count position = k then position
  else nextResidue count k (position / size) * size

variable {size count k position p q : Nat}

theorem nextResidue_mod (hk : k < count) : nextResidue count k q % count = k := by
  rw [nextResidue, Nat.mul_add_mod_self_right, Nat.mod_eq_of_lt hk]

theorem le_nextResidue (hk : k < count) : q ≤ nextResidue count k q := by
  have hq : q / count * count + q % count = q := Nat.div_add_mod' q count
  have hmod : q % count < count := Nat.mod_lt q (Nat.zero_lt_of_lt hk)
  unfold nextResidue
  split
  · rw [Nat.add_zero]
    omega
  · rw [Nat.add_mul, Nat.one_mul]
    omega

theorem nextResidue_le (hp : q ≤ p) (hmod : p % count = k) : nextResidue count k q ≤ p := by
  have hq : q / count * count + q % count = q := Nat.div_add_mod' q count
  have hp' : p / count * count + k = p := hmod ▸ Nat.div_add_mod' p count
  have hdiv : q / count ≤ p / count := Nat.div_le_div_right hp
  have hround : (q / count + if q % count ≤ k then 0 else 1) ≤ p / count := by
    split
    · exact hdiv
    · -- In the round of `q` itself the remainder `k` has already passed.
      rename_i hpassed
      refine Nat.succ_le_of_lt (Nat.lt_of_le_of_ne hdiv fun heq => ?_)
      rw [heq] at hq
      omega
  calc nextResidue count k q ≤ p / count * count + k :=
        Nat.add_le_add_right (Nat.mul_le_mul_right count hround) k
    _ = p := hp'

/-- The remainder after that of `q` is left by the number after `q`. -/
theorem nextResidue_succ (hcount : 1 < count) :
    nextResidue count ((q % count + 1) % count) q = q + 1 := by
  have hlt : (q % count + 1) % count < count := Nat.mod_lt _ (Nat.zero_lt_of_lt hcount)
  refine Nat.le_antisymm (nextResidue_le (Nat.le_succ q) (Nat.mod_add_mod q count 1).symm) ?_
  refine Nat.succ_le_of_lt (Nat.lt_of_le_of_ne (le_nextResidue hlt) fun heq => ?_)
  -- Were it `q` itself, the remainder and the one after it would be the same.
  have hsame : q % count = (q % count + 1) % count := by
    conv_lhs => rw [heq]
    exact nextResidue_mod hlt
  rcases Nat.lt_or_ge (q % count + 1) count with hin | hwrap
  · rw [Nat.mod_eq_of_lt hin] at hsame
    omega
  · have hlast : q % count + 1 = count :=
      Nat.le_antisymm (Nat.mod_lt q (Nat.zero_lt_of_lt hcount)) hwrap
    rw [hlast, Nat.mod_self] at hsame
    omega

/-- `next` is the first position of its stripe. -/
theorem next_isLeast (hsize : 0 < size) (hk : k < count) :
    IsLeast {p | position ≤ p ∧ stripe size count p = k} (next size count k position) := by
  unfold next
  split
  · rename_i hin
    exact ⟨⟨le_rfl, hin⟩, fun p hp => hp.1⟩
  · rename_i hout
    have hmod : nextResidue count k (position / size) % count = k := nextResidue_mod hk
    constructor
    · constructor
      · have hle : position / size ≤ nextResidue count k (position / size) := le_nextResidue hk
        have hne : position / size ≠ nextResidue count k (position / size) := fun heq =>
          hout (by rw [stripe, heq, hmod])
        have hlt : position / size < nextResidue count k (position / size) :=
          Nat.lt_of_le_of_ne hle hne
        exact ((Nat.div_lt_iff_lt_mul hsize).mp hlt).le
      · rw [stripe, Nat.mul_div_cancel _ hsize, hmod]
    · intro p hp
      have hdiv : position / size ≤ p / size := Nat.div_le_div_right hp.1
      calc nextResidue count k (position / size) * size ≤ p / size * size :=
            Nat.mul_le_mul_right size (nextResidue_le hdiv hp.2)
        _ ≤ p := Nat.div_mul_le_self p size

/-- Up to the first position of the next stripe in turn the stripe is the same. -/
theorem stripe_eq_of_lt_next (hsize : 0 < size) (hcount : 1 < count) (hle : position ≤ p)
    (hlt : p < next size count ((stripe size count position + 1) % count) position) :
    stripe size count p = stripe size count position := by
  have hpos : 0 < count := Nat.zero_lt_of_lt hcount
  have hturn : stripe size count position ≠ (stripe size count position + 1) % count := by
    intro heq
    have hmod := nextResidue_succ (q := stripe size count position) hcount
    have hself : stripe size count position % count = stripe size count position :=
      Nat.mod_eq_of_lt (Nat.mod_lt _ hpos)
    have hle' := nextResidue_le (p := stripe size count position) le_rfl (hself.trans heq)
    rw [hself] at hmod
    omega
  unfold next at hlt
  rw [if_neg hturn] at hlt
  have hnext : nextResidue count ((stripe size count position + 1) % count) (position / size) =
      position / size + 1 := nextResidue_succ hcount
  rw [hnext] at hlt
  have hup : p / size < position / size + 1 := (Nat.div_lt_iff_lt_mul hsize).mpr hlt
  have hdown : position / size ≤ p / size := Nat.div_le_div_right hle
  rw [stripe, stripe, Nat.le_antisymm (Nat.le_of_lt_succ hup) hdown]

end Stripes
