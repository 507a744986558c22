-- SUMMARY: The arithmetic of a C++ `double`, as an interface, over exact rationals, and with binary64 rounding.
import Mathlib.Algebra.Order.Field.Rat
import Mathlib.Data.Rat.Floor

/-!
# Double arithmetic

A program over `double` uses casts from and to 64-bit integers, literals,
multiplication, division and comparison. `DoubleArith` is that interface, so that
a model can be read over any arithmetic: over exact rationals, or over rationals
rounded after every operation the way IEEE binary64 rounds, to nearest with ties
to even.
-/

/-- The operations of `double` a program uses. -/
structure DoubleArith where
  Double : Type
  /-- `static_cast<double>` of an unsigned 64-bit integer. -/
  ofUInt64 : UInt64 → Double
  /-- `static_cast<uint64_t>`, truncating. -/
  toUInt64 : Double → UInt64
  /-- The value of a decimal literal. -/
  literal : ℚ → Double
  mul : Double → Double → Double
  div : Double → Double → Double
  lt : Double → Double → Bool

namespace DoubleArith

/-- `std::min(x, y)`: the first argument unless the second is smaller. -/
def min (D : DoubleArith) (x y : D.Double) : D.Double := if D.lt y x then y else x

/-- `std::max(x, y)`: the first argument unless the second is larger. -/
def max (D : DoubleArith) (x y : D.Double) : D.Double := if D.lt x y then y else x

/-- Rationals with every result rounded by `round`. Casting a value outside the
    range of `uint64_t` is undefined behaviour in C++; the zero stands for it. -/
def rounded (round : ℚ → ℚ) : DoubleArith where
  Double := ℚ
  ofUInt64 n := round n.toNat
  toUInt64 q := if 0 ≤ q ∧ q < 2 ^ 64 then UInt64.ofNat ⌊q⌋.toNat else 0
  literal := round
  mul x y := round (x * y)
  div x y := round (x / y)
  lt x y := decide (x < y)

section

variable (round : ℚ → ℚ)

/-- The rational a rounded value is. -/
def toRat (x : (rounded round).Double) : ℚ := x

@[simp] theorem toRat_ofUInt64 (n : UInt64) :
    toRat round ((rounded round).ofUInt64 n) = round n.toNat := rfl

@[simp] theorem toRat_literal (q : ℚ) :
    toRat round ((rounded round).literal q) = round q := rfl

@[simp] theorem toRat_mul (x y : (rounded round).Double) :
    toRat round ((rounded round).mul x y) = round (toRat round x * toRat round y) := rfl

@[simp] theorem toRat_div (x y : (rounded round).Double) :
    toRat round ((rounded round).div x y) = round (toRat round x / toRat round y) := rfl

/-- `std::min` is the smaller of the two. -/
@[simp] theorem toRat_min (x y : (rounded round).Double) :
    toRat round ((rounded round).min x y) = Min.min (toRat round x) (toRat round y) := by
  have hlt : (rounded round).lt y x = decide (toRat round y < toRat round x) := rfl
  simp only [DoubleArith.min, hlt, decide_eq_true_eq]
  split
  · rename_i h
    exact (min_eq_right h.le).symm
  · rename_i h
    exact (min_eq_left (not_lt.mp h)).symm

/-- `std::max` is the larger of the two. -/
@[simp] theorem toRat_max (x y : (rounded round).Double) :
    toRat round ((rounded round).max x y) = Max.max (toRat round x) (toRat round y) := by
  have hlt : (rounded round).lt x y = decide (toRat round x < toRat round y) := rfl
  simp only [DoubleArith.max, hlt, decide_eq_true_eq]
  split
  · rename_i h
    exact (max_eq_right h.le).symm
  · rename_i h
    exact (max_eq_left (not_lt.mp h)).symm

/-- A conversion in range truncates. -/
theorem toNat_toUInt64 {x : (rounded round).Double} (h : 0 ≤ toRat round x)
    (h' : toRat round x < 2 ^ 64) :
    ((rounded round).toUInt64 x).toNat = ⌊toRat round x⌋.toNat := by
  have hconv : (rounded round).toUInt64 x =
      if 0 ≤ toRat round x ∧ toRat round x < 2 ^ 64 then UInt64.ofNat ⌊toRat round x⌋.toNat
      else 0 := rfl
  have hfloor : ⌊toRat round x⌋ < 2 ^ 64 := by
    rw [Int.floor_lt]
    exact_mod_cast h'
  rw [hconv, if_pos ⟨h, h'⟩, UInt64.toNat_ofNat', Nat.mod_eq_of_lt]
  omega

/-- Whatever is converted, the result is at most the value, if that is in range. -/
theorem toUInt64_le {x : (rounded round).Double} (h : 0 ≤ toRat round x) :
    (((rounded round).toUInt64 x).toNat : ℚ) ≤ toRat round x := by
  by_cases h' : toRat round x < 2 ^ 64
  · rw [toNat_toUInt64 round h h']
    have hnonneg := Int.floor_nonneg.mpr h
    calc ((⌊toRat round x⌋.toNat : Nat) : ℚ) = ((⌊toRat round x⌋.toNat : ℤ) : ℚ) := by norm_cast
      _ = (⌊toRat round x⌋ : ℚ) := by rw [Int.toNat_of_nonneg hnonneg]
      _ ≤ toRat round x := Int.floor_le _
  · have hconv : (rounded round).toUInt64 x =
        if 0 ≤ toRat round x ∧ toRat round x < 2 ^ 64 then UInt64.ofNat ⌊toRat round x⌋.toNat
        else 0 := rfl
    rw [hconv, if_neg (fun hboth => h' hboth.2)]
    exact_mod_cast h

end

/-- Exact rational arithmetic. -/
def exact : DoubleArith := rounded id

/-- The integer nearest to `q`, the even one of two equally near. -/
def roundHalfEven (q : ℚ) : ℤ :=
  if q - ⌊q⌋ < 1 / 2 then ⌊q⌋
  else if 1 / 2 < q - ⌊q⌋ then ⌊q⌋ + 1
  else if ⌊q⌋ % 2 = 0 then ⌊q⌋ else ⌊q⌋ + 1

/-- The exponent `e` with `2 ^ e ≤ q < 2 ^ (e + 1)`, for positive `q`. -/
def binaryExponent (q : ℚ) : ℤ :=
  let k : ℤ := (Nat.log2 q.num.natAbs : ℤ) - Nat.log2 q.den
  if (2 : ℚ) ^ k ≤ q then k else k - 1

/-- The distance between neighbouring binary64 numbers around `q`: 53 bits of
    significand, and no exponent below that of the subnormal numbers. -/
def binary64Ulp (q : ℚ) : ℚ := 2 ^ (Max.max (binaryExponent |q|) (-1022) - 52)

/-- Rounding to the nearest binary64 number. No overflow to infinity is modelled. -/
def roundBinary64 (q : ℚ) : ℚ :=
  if q = 0 then 0 else roundHalfEven (q / binary64Ulp q) * binary64Ulp q

/-- IEEE binary64 with round to nearest, ties to even. -/
def binary64 : DoubleArith := rounded roundBinary64

end DoubleArith
