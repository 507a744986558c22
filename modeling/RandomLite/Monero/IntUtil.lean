-- SUMMARY: The 128-bit helpers of the production node (`int-util.h`, `int-util.cpp`): a product from half words, and long division.
import Mathlib.Tactic.Ring
import RandomLite.Library.MachineWords

/-!
# 128-bit helpers

`mul128` builds a product of two words from four products of half words and two
carries. `div128_64` divides with a 128-bit integer type. Both are exact.
-/

namespace RandomLite.Monero

/-- A 128-bit number in two words. -/
structure Words where
  hi : UInt64
  lo : UInt64
  deriving DecidableEq, Repr

/-- The number two words stand for. -/
def Words.toNat (w : Words) : Nat := w.hi.toNat * 2 ^ 64 + w.lo.toNat

/-- A number that fits in one word leaves the other empty. -/
theorem Words.of_toNat_lt {w : Words} (h : w.toNat < 2 ^ 64) : w.hi = 0 ∧ w.lo.toNat = w.toNat := by
  unfold toNat at h ⊢
  have hzero : w.hi.toNat = 0 := by omega
  refine ⟨UInt64.toNat_inj.mp hzero, ?_⟩
  rw [hzero, Nat.zero_mul, Nat.zero_add]

/-! ## Multiplication -/

/-- `hi_dword`. -/
def hiDword (val : UInt64) : UInt64 := val >>> 32

/-- `lo_dword`. -/
def loDword (val : UInt64) : UInt64 := val &&& 0xFFFFFFFF

/-- `mul128`: `none` when its assertion fails. -/
def mul128 (multiplier multiplicand : UInt64) : Option Words :=
  let a := hiDword multiplier
  let b := loDword multiplier
  let c := hiDword multiplicand
  let d := loDword multiplicand
  let ac := a * c
  let ad := a * d
  let bc := b * c
  let bd := b * d
  let adbc := ad + bc
  let adbcCarry := carry adbc ad
  let productLo := bd + (adbc <<< 32)
  let productLoCarry := carry productLo bd
  let productHi := ac + (adbc >>> 32) + (adbcCarry <<< 32) + productLoCarry
  if ac ≤ productHi then some { hi := productHi, lo := productLo } else none

theorem toNat_dwords (val : UInt64) :
    val.toNat = (hiDword val).toNat * 2 ^ 32 + (loDword val).toNat ∧
      (hiDword val).toNat < 2 ^ 32 ∧ (loDword val).toNat < 2 ^ 32 := by
  have hlt := val.toNat_lt
  unfold hiDword loDword
  rw [toNat_shiftRight_half, toNat_and_half]
  omega

/-- The long multiplication in half words, with the carries out of the two sums. -/
theorem dwords_mul {x y ac ad bc bd adbc k p lo l a b c d : Nat} (hx : x = a * 2 ^ 32 + b)
    (hy : y = c * 2 ^ 32 + d) (hac : ac = a * c) (had : ad = a * d) (hbc : bc = b * c)
    (hbd : bd = b * d) (hadbc : adbc + 2 ^ 64 * k = ad + bc)
    (hp : p = adbc / 2 ^ 32) (hlo : lo + 2 ^ 64 * l = bd + adbc % 2 ^ 32 * 2 ^ 32) :
    (ac + p + k * 2 ^ 32 + l) * 2 ^ 64 + lo = x * y := by
  have hxy : x * y = ac * 2 ^ 64 + (ad + bc) * 2 ^ 32 + bd := by
    rw [hx, hy, hac, had, hbc, hbd]
    ring
  omega

/-- `mul128` is exact, and its assertion holds. -/
theorem mul128_exact (multiplier multiplicand : UInt64) :
    ∃ product, mul128 multiplier multiplicand = some product ∧
      product.toNat = multiplier.toNat * multiplicand.toNat := by
  obtain ⟨hx, ha, hb⟩ := toNat_dwords multiplier
  obtain ⟨hy, hc, hd⟩ := toNat_dwords multiplicand
  have hac := toNat_mul_of_lt (mul_lt_word ha hc)
  have had := toNat_mul_of_lt (mul_lt_word ha hd)
  have hbc := toNat_mul_of_lt (mul_lt_word hb hc)
  have hbd := toNat_mul_of_lt (mul_lt_word hb hd)
  unfold mul128
  dsimp only
  generalize hiDword multiplier * hiDword multiplicand = ac at *
  generalize hiDword multiplier * loDword multiplicand = ad at *
  generalize loDword multiplier * hiDword multiplicand = bc at *
  generalize loDword multiplier * loDword multiplicand = bd at *
  have hadbc := toNat_add_carry ad bc
  have hlo := toNat_add_carry bd ((ad + bc) <<< 32)
  rw [toNat_shiftLeft_half] at hlo
  have hproduct := dwords_mul hx hy hac had hbc hbd hadbc (toNat_shiftRight_half (ad + bc)) hlo
  -- The product of two words leaves room for every sum in the high word.
  have hroom : multiplier.toNat * multiplicand.toNat < 2 ^ 64 * 2 ^ 64 :=
    Nat.mul_lt_mul'' multiplier.toNat_lt multiplicand.toNat_lt
  generalize multiplier.toNat * multiplicand.toNat = product at *
  have hcarry : (carry (ad + bc) ad).toNat < 2 ^ 32 := by
    unfold carry
    split <;> decide
  have hshift : (carry (ad + bc) ad <<< 32).toNat = (carry (ad + bc) ad).toNat * 2 ^ 32 := by
    rw [toNat_shiftLeft_half, Nat.mod_eq_of_lt hcarry]
  generalize hlow : bd + (ad + bc) <<< 32 = low at *
  have hfirst := toNat_add_of_lt (a := ac) (b := (ad + bc) >>> 32) (by omega)
  have hsecond := toNat_add_of_lt (a := ac + (ad + bc) >>> 32) (b := carry (ad + bc) ad <<< 32)
    (by omega)
  have hthird := toNat_add_of_lt (a := ac + (ad + bc) >>> 32 + carry (ad + bc) ad <<< 32)
    (b := carry low bd) (by omega)
  rw [hshift, hfirst] at hsecond
  rw [hsecond] at hthird
  refine ⟨_, if_pos ?_, ?_⟩
  · rw [UInt64.le_iff_toNat_le, hthird]
    omega
  · unfold Words.toNat
    rw [hthird]
    exact hproduct

/-! ## Division -/

/-- What `div128_64` writes to its four pointers. -/
structure DivResult where
  quotient : Words
  remainder : Words
  deriving DecidableEq, Repr

/-- The two words of a 128-bit integer. -/
def wordsOf (n : BitVec 128) : Words :=
  { hi := .ofBitVec ((n >>> 64).setWidth 64), lo := .ofBitVec (n.setWidth 64) }

/-- `div128_64`: `none` when the division by zero throws. -/
def div128_64 (dividend : Words) (divisor : UInt64) : Option DivResult :=
  let n : BitVec 128 := (dividend.hi.toBitVec.setWidth 128 <<< 64) ||| dividend.lo.toBitVec.setWidth 128
  let m : BitVec 128 := divisor.toBitVec.setWidth 128
  if divisor = 0 then none
  else some { quotient := wordsOf (n / m), remainder := wordsOf (n % m) }

theorem toNat_wordsOf (n : BitVec 128) : (wordsOf n).toNat = n.toNat := by
  have hlt := n.isLt
  simp only [wordsOf, Words.toNat, UInt64.toNat_ofBitVec, BitVec.toNat_setWidth,
    BitVec.toNat_ushiftRight, Nat.shiftRight_eq_div_pow]
  omega

/-- `div128_64` is exact for every divisor but zero. -/
theorem div128_64_exact (dividend : Words) {divisor : UInt64} (h : divisor ≠ 0) :
    ∃ r, div128_64 dividend divisor = some r ∧
      r.quotient.toNat = dividend.toNat / divisor.toNat ∧
      r.remainder.toNat = dividend.toNat % divisor.toNat := by
  have hhi := dividend.hi.toNat_lt
  have hlo := dividend.lo.toNat_lt
  have hn : ((dividend.hi.toBitVec.setWidth 128 <<< 64) |||
      dividend.lo.toBitVec.setWidth 128).toNat = dividend.toNat := by
    have hor := Nat.shiftLeft_add_eq_or_of_lt hlo dividend.hi.toNat
    simp only [BitVec.toNat_or, BitVec.toNat_shiftLeft, BitVec.toNat_setWidth,
      UInt64.toNat_toBitVec]
    rw [Nat.shiftLeft_eq] at hor ⊢
    rw [Nat.mod_eq_of_lt (by omega : dividend.hi.toNat < 2 ^ 128), Nat.mod_eq_of_lt (by omega),
      Nat.mod_eq_of_lt (by omega), ← hor]
    rfl
  have hm : (divisor.toBitVec.setWidth 128).toNat = divisor.toNat := by
    have hdivisor := divisor.toNat_lt
    rw [BitVec.toNat_setWidth, UInt64.toNat_toBitVec]
    exact Nat.mod_eq_of_lt (by omega)
  refine ⟨_, if_neg h, ?_, ?_⟩
  · rw [toNat_wordsOf, BitVec.toNat_udiv, hn, hm]
  · rw [toNat_wordsOf, BitVec.toNat_umod, hn, hm]

end RandomLite.Monero
