-- SUMMARY: Amounts as text (`print_money`, `parse_money`) and the amounts that come back unchanged.
import RandomLite.Library.Binary64Binades
import RandomLite.Library.DecimalText
import RandomLite.Prototype.Wallet

/-!
# Amounts as text

`print_money` prints twelve decimals in integer arithmetic. `parse_money` reads a
`double`, multiplies by `COIN_UNITS` and truncates. Two roundings lie in between, to
the quotient and to the product, and a result that ends up below the amount loses a
unit. `ReadsBack` says in integers for which amounts none is lost or gained.
-/

namespace RandomLite

open DoubleArith

namespace EmissionEngine

/-- `parse_money`: `none` when `std::stod` finds no number. -/
def parseMoney (D : DoubleArith) (str : String) : Option UInt64 := do
  let val ← stod D str
  some (D.toUInt64 (D.mul val (D.ofUInt64 coinUnits)))

/-! ## Through the text -/

theorem toNat_coinUnits : coinUnits.toNat = 10 ^ 12 := by
  decide

theorem printMoney_eq (amount : UInt64) :
    printMoney amount = String.ofList (fixedPoint 12 amount.toNat ++ " XRL".toList) := by
  have hcoins : (toString (amount / coinUnits)).toList =
      Nat.toDigits 10 (amount.toNat / 10 ^ 12) := by
    rw [← toNat_coinUnits, ← UInt64.toNat_div]
    exact Nat.toList_repr
  have hfraction : (toString (amount % coinUnits)).toList =
      Nat.toDigits 10 (amount.toNat % 10 ^ 12) := by
    rw [← toNat_coinUnits, ← UInt64.toNat_mod]
    exact Nat.toList_repr
  unfold printMoney
  dsimp only
  apply String.toList_inj.mp
  rw [hfraction]
  simp only [String.toList_append, String.toList_ofList, hcoins, fixedPoint]
  simp

/-- The text carries the amount exactly; the rest is arithmetic of doubles. -/
theorem parseMoney_printMoney (D : DoubleArith) (x : UInt64) :
    parseMoney D (printMoney x) =
      some (D.toUInt64 (D.mul (D.literal ((x.toNat : ℚ) / 10 ^ 12)) (D.ofUInt64 coinUnits))) := by
  rw [printMoney_eq]
  unfold parseMoney
  rw [show " XRL".toList = ' ' :: ['X', 'R', 'L'] from rfl, stod_fixedPoint D (by decide)]
  rfl

/-! ## Through the doubles -/

/-- The rounded product, in units of `2 ^ -s`, for an amount of `n` such units. -/
@[irreducible] def productUnits (n : Nat) : Nat :=
  let p := nearestEven n 1000000000000 * 1000000000000
  if p < 2 ^ 92 then nearestEven p (2 ^ 39) * 2 ^ 39 else nearestEven p (2 ^ 40) * 2 ^ 40

/-- The quotient of an amount scaled up to 53 bits lies between two powers of two. -/
theorem nearestEven_bounds {n : Nat} (hlow : 2 ^ 52 * 1000000000000 ≤ n) (hhigh : n < 2 ^ 53 * 1000000000000) :
    2 ^ 52 ≤ nearestEven n 1000000000000 ∧ nearestEven n 1000000000000 ≤ 2 ^ 53 := by
  have hle : n / 1000000000000 ≤ nearestEven n 1000000000000 ∧
      nearestEven n 1000000000000 ≤ n / 1000000000000 + 1 := by
    unfold nearestEven
    split
    · omega
    split
    · omega
    split <;> omega
  omega

theorem roundBinary64_product {n s : Nat} (hlow : 2 ^ 52 * 1000000000000 ≤ n)
    (hhigh : n < 2 ^ 53 * 1000000000000) (hs : s ≤ 1000) :
    roundBinary64 (roundBinary64 ((n : ℚ) / 2 ^ s / 10 ^ 12) * 10 ^ 12) =
      (productUnits n : ℚ) / 2 ^ s := by
  have hscale (a : ℚ) : a / 2 ^ s = a * 2 ^ (-(s : ℤ)) := by
    rw [zpow_neg, zpow_natCast, div_eq_mul_inv]
  obtain ⟨hklow, hkhigh⟩ := nearestEven_bounds hlow hhigh
  have hquotient : roundBinary64 ((n : ℚ) / 2 ^ s / 10 ^ 12) =
      nearestEven n 1000000000000 * 2 ^ (-(s : ℤ)) := by
    have hratio := roundBinary64_ratio (z := -(s : ℤ)) (by omega) hlow hhigh
    rw [hscale, ← hratio]
    push_cast
    ring_nf
  have hproduct : (nearestEven n 1000000000000 : ℚ) * 2 ^ (-(s : ℤ)) * 10 ^ 12 =
      ((nearestEven n 1000000000000 * 1000000000000 : Nat) : ℚ) * 2 ^ (-(s : ℤ)) := by
    push_cast
    ring
  have hunit (j : Nat) (p : Nat) : (p : ℚ) * 2 ^ (-(s : ℤ)) =
      (p : ℚ) / (2 ^ j : Nat) * 2 ^ ((j : ℤ) - s) := by
    rw [sub_eq_add_neg, zpow_add₀ two_ne_zero, zpow_natCast]
    push_cast
    field_simp
  have hround (j p : Nat) (hplow : 2 ^ 52 * 2 ^ j ≤ p) (hphigh : p < 2 ^ 53 * 2 ^ j) :
      roundBinary64 ((p : ℚ) * 2 ^ (-(s : ℤ))) =
        ((nearestEven p (2 ^ j) * 2 ^ j : Nat) : ℚ) * 2 ^ (-(s : ℤ)) := by
    rw [hunit j p, roundBinary64_ratio (by omega) hplow hphigh, hunit j]
    push_cast
    field_simp
  rw [hquotient, hproduct, hscale, productUnits]
  split
  · exact hround 39 _ (by omega) (by omega)
  · exact hround 40 _ (by omega) (by omega)

/-- A printed amount is read back when the product stays within its unit. -/
theorem readsBack_iff_productUnits {x : UInt64} (hx : x ≠ 0) {n s : Nat} (hn : n = x.toNat * 2 ^ s)
    (hlow : 2 ^ 52 * 1000000000000 ≤ n) (hhigh : n < 2 ^ 53 * 1000000000000) (hs : s ≤ 1000) :
    parseMoney .binary64 (printMoney x) = some x ↔
      n ≤ productUnits n ∧ productUnits n < n + 2 ^ s := by
  have hpow : 0 < 2 ^ s := by positivity
  have hunits : (x.toNat : ℚ) = (n : ℚ) / 2 ^ s := by
    rw [hn]
    push_cast
    field_simp
  have hcoins : roundBinary64 ((coinUnits.toNat : Nat) : ℚ) = 10 ^ 12 := by
    rw [toNat_coinUnits, roundBinary64_natCast (by decide)]
    norm_cast
  rw [parseMoney_printMoney, Option.some_inj]
  have hproduct : toRat roundBinary64 (binary64.mul (binary64.literal ((x.toNat : ℚ) / 10 ^ 12))
      (binary64.ofUInt64 coinUnits)) = (productUnits n : ℚ) / 2 ^ s := by
    rw [← roundBinary64_product hlow hhigh hs, ← hunits, ← hcoins]
    rfl
  refine (toUInt64_eq_iff roundBinary64 hproduct hx).trans ?_
  rw [Nat.div_eq_iff hpow, hn]
  omega

end EmissionEngine

end RandomLite
