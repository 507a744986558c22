-- SUMMARY: Which amounts survive printing and parsing: where the rounded product lands, in integers.
import RandomLite.Prototype.MoneyText

/-!
# Round trip of amounts

The rounded product is a multiple of `2 ^ 39` or `2 ^ 40` units near the amount. In the
upper of its two binades the rounding of the product undoes that of the quotient; in the
lower it may go to the neighbour below, or, for a large amount, to the one above.
-/

namespace RandomLite

open DoubleArith

namespace EmissionEngine

/-! ## Where the product lands -/

section

variable {n p : Nat}

theorem productUnits_of_lt (hp : nearestEven n 1000000000000 * 1000000000000 = p)
    (hlt : p < 2 ^ 92) : productUnits n = 2 ^ 39 * nearestEven p (2 ^ 39) := by
  unfold productUnits
  rw [hp, Nat.mul_comm]
  exact if_pos hlt

theorem productUnits_of_le (hp : nearestEven n 1000000000000 * 1000000000000 = p)
    (hle : 2 ^ 92 ≤ p) : productUnits n = 2 ^ 40 * nearestEven p (2 ^ 40) := by
  unfold productUnits
  rw [hp, Nat.mul_comm]
  exact if_neg (Nat.not_lt.mpr hle)

/-- A quotient rounded down takes the remainder off the amount. -/
theorem quotient_down (h : n % 1000000000000 < 500000000000) :
    nearestEven n 1000000000000 * 1000000000000 + n % 1000000000000 = n := by
  have hquot : nearestEven n 1000000000000 = n / 1000000000000 := by
    unfold nearestEven
    rw [if_pos (by omega)]
  rw [hquot]
  omega

/-- A quotient rounded up adds what is missing from the remainder. -/
theorem quotient_up (h : 500000000000 < n % 1000000000000) :
    ∃ t, t + n % 1000000000000 = 1000000000000 ∧
      nearestEven n 1000000000000 * 1000000000000 = n + t := by
  have hrest : n % 1000000000000 < 1000000000000 := Nat.mod_lt _ (by decide)
  obtain ⟨t, ht⟩ := Nat.exists_eq_add_of_le' hrest.le
  have hquot : nearestEven n 1000000000000 = n / 1000000000000 + 1 := by
    unfold nearestEven
    rw [if_neg (by omega), if_pos (by omega)]
  refine ⟨t, ht.symm, ?_⟩
  rw [hquot]
  omega

end

/-! ## The lower binade -/

/-- `n` is a whole number of units of the lower binade. -/
structure WholeUnits (n y : Nat) : Prop where
  eq : n = 2 ^ 39 * y

section

variable {n y : Nat} (hhigh : n + 2 ^ 39 ≤ 2 ^ 92)
include hhigh

/-- A remainder below half takes the product down by as much. -/
theorem productUnits_down (h : n % 1000000000000 < 500000000000) :
    ∃ p, p + n % 1000000000000 = n ∧ productUnits n = 2 ^ 39 * nearestEven p (2 ^ 39) := by
  have hp := quotient_down h
  exact ⟨_, hp, productUnits_of_lt rfl (by omega)⟩

/-- A remainder above half takes it up to the next whole quotient. -/
theorem productUnits_up (h : 500000000000 < n % 1000000000000) :
    ∃ p t, t + n % 1000000000000 = 1000000000000 ∧ p = n + t ∧
      productUnits n = 2 ^ 39 * nearestEven p (2 ^ 39) := by
  obtain ⟨t, ht, hp⟩ := quotient_up h
  exact ⟨_, t, ht, hp, productUnits_of_lt rfl (by omega)⟩

variable (hn : WholeUnits n y)
include hn

/-- A remainder close to a whole quotient is rounded away again. -/
theorem productUnits_near (h : n % 1000000000000 < 2 ^ 38 ∨
    1000000000000 < n % 1000000000000 + 2 ^ 38) : productUnits n = n := by
  rcases h with hdown | hup
  · obtain ⟨p, hp, hunits⟩ := productUnits_down hhigh (by omega)
    rw [hunits, nearestEven_below_near (hp.trans hn.eq) (by omega), hn.eq]
  · obtain ⟨p, t, ht, hp, hunits⟩ := productUnits_up hhigh (by omega)
    rw [hunits, nearestEven_above_near (hn.eq ▸ hp) (by omega), hn.eq]

theorem productUnits_below (h : 2 ^ 38 < n % 1000000000000)
    (h' : n % 1000000000000 < 500000000000) : productUnits n + 2 ^ 39 = n := by
  obtain ⟨p, hp, hunits⟩ := productUnits_down hhigh h'
  have hfar := nearestEven_below_far (hp.trans hn.eq) (by omega) (by omega)
  rw [hunits, hn.eq, ← hfar]
  exact (Nat.mul_succ _ _).symm

theorem productUnits_above (h : 500000000000 < n % 1000000000000)
    (h' : n % 1000000000000 + 2 ^ 38 < 1000000000000) : productUnits n = n + 2 ^ 39 := by
  obtain ⟨p, t, ht, hp, hunits⟩ := productUnits_up hhigh h
  rw [hunits, nearestEven_above_far (hn.eq ▸ hp) (by omega) (by omega), Nat.mul_succ, hn.eq]

/-- A remainder of half a unit goes to the even neighbour. -/
theorem productUnits_tie (h : n % 1000000000000 = 2 ^ 38 ∨
    n % 1000000000000 + 2 ^ 38 = 1000000000000) :
    productUnits n = n ∧ y % 2 = 0 ∨ productUnits n ≠ n ∧ y % 2 = 1 := by
  have hunit : 0 < 2 ^ 39 := by positivity
  have htwice : 2 * 2 ^ 38 = 2 ^ 39 := by norm_num
  have hne (k : Nat) (hk : k ≠ y) : 2 ^ 39 * k ≠ n := fun heq =>
    hk (Nat.eq_of_mul_eq_mul_left hunit (heq.trans hn.eq))
  rcases h with hdown | hup
  · obtain ⟨p, hp, hunits⟩ := productUnits_down hhigh (by rw [hdown]; norm_num)
    rw [hdown, hn.eq] at hp
    rcases nearestEven_below_tie hunit hp htwice with ⟨heq, heven⟩ | ⟨heq, hodd⟩
    · exact .inl ⟨by rw [hunits, heq, hn.eq], heven⟩
    · refine .inr ⟨hunits ▸ hne _ ?_, hodd⟩
      rw [← heq]
      exact (Nat.lt_succ_self _).ne
  · have hlarge : 500000000000 + 2 ^ 38 < n % 1000000000000 + 2 ^ 38 := by
      rw [hup]
      norm_num
    obtain ⟨p, t, ht, hp, hunits⟩ := productUnits_up hhigh (Nat.lt_of_add_lt_add_right hlarge)
    have hhalf : t = 2 ^ 38 := Nat.add_right_cancel (ht.trans (hup.symm.trans (Nat.add_comm _ _)))
    rw [hhalf, hn.eq] at hp
    rcases nearestEven_above_tie hunit hp htwice with ⟨heq, heven⟩ | ⟨heq, hodd⟩
    · exact .inl ⟨by rw [hunits, heq, hn.eq], heven⟩
    · refine .inr ⟨hunits ▸ hne _ ?_, hodd⟩
      rw [heq]
      exact Nat.succ_ne_self y

omit hhigh in
/-- Half of the coin unit is no remainder of a multiple of `2 ^ 39`. -/
theorem remainder_ne_half : n % 1000000000000 ≠ 500000000000 := by
  intro h
  have hdvd : 2 ^ 12 ∣ n := by
    rw [hn.eq]
    exact (pow_dvd_pow 2 (by norm_num)).mul_right y
  rw [← Nat.dvd_mod_iff (show 2 ^ 12 ∣ 1000000000000 by norm_num), h] at hdvd
  norm_num at hdvd

omit hhigh in
/-- Where a remainder can lie. -/
theorem remainder_cases :
    (n % 1000000000000 < 2 ^ 38 ∨ 1000000000000 < n % 1000000000000 + 2 ^ 38) ∨
    (n % 1000000000000 = 2 ^ 38 ∨ n % 1000000000000 + 2 ^ 38 = 1000000000000) ∨
    (2 ^ 38 < n % 1000000000000 ∧ n % 1000000000000 < 500000000000) ∨
    500000000000 < n % 1000000000000 ∧ n % 1000000000000 + 2 ^ 38 < 1000000000000 := by
  have hhalf := remainder_ne_half hn
  omega

/-- Which amounts of whole units the lower binade leaves where they are. -/
theorem productUnits_eq_self_iff : productUnits n = n ↔
    n % 1000000000000 < 2 ^ 38 ∨ 1000000000000 < n % 1000000000000 + 2 ^ 38 ∨
      (n % 1000000000000 = 2 ^ 38 ∨ n % 1000000000000 + 2 ^ 38 = 1000000000000) ∧ y % 2 = 0 := by
  rcases remainder_cases hn with hnear | htie | ⟨hlarge, hdown⟩ | ⟨hup, hsmall⟩
  · exact iff_of_true (productUnits_near hhigh hn hnear) (by tauto)
  · rcases productUnits_tie hhigh hn htie with ⟨heq, heven⟩ | ⟨hne, hodd⟩
    · exact iff_of_true heq (.inr (.inr ⟨htie, heven⟩))
    · refine iff_of_false hne ?_
      omega
  · have hbelow := productUnits_below hhigh hn hlarge hdown
    refine iff_of_false (by omega) ?_
    omega
  · have habove := productUnits_above hhigh hn hup hsmall
    refine iff_of_false (by omega) ?_
    omega

/-- An amount that spans two units takes in the neighbour above. -/
theorem productUnits_within_iff {width : Nat} (heven : y % 2 = 0) (hwidth : 2 ^ 40 ≤ width) :
    (n ≤ productUnits n ∧ productUnits n < n + width) ↔
      n % 1000000000000 ≤ 2 ^ 38 ∨ 500000000000 < n % 1000000000000 := by
  rcases remainder_cases hn with hnear | htie | ⟨hlarge, hdown⟩ | ⟨hup, hsmall⟩
  · rw [productUnits_near hhigh hn hnear]
    refine iff_of_true ⟨Nat.le_refl n, by omega⟩ ?_
    omega
  · rcases productUnits_tie hhigh hn htie with ⟨heq, -⟩ | ⟨-, hodd⟩
    · rw [heq]
      refine iff_of_true ⟨Nat.le_refl n, by omega⟩ ?_
      omega
    · rw [heven] at hodd
      cases hodd
  · have hbelow := productUnits_below hhigh hn hlarge hdown
    refine iff_of_false (by omega) ?_
    omega
  · rw [productUnits_above hhigh hn hup hsmall]
    exact iff_of_true ⟨by omega, by omega⟩ (.inr hup)

end

/-! ## The upper binade -/

theorem dvd_productUnits (n : Nat) : 2 ^ 39 ∣ productUnits n := by
  rcases Nat.lt_or_ge (nearestEven n 1000000000000 * 1000000000000) (2 ^ 92) with hlt | hle
  · rw [productUnits_of_lt rfl hlt]
    exact Nat.dvd_mul_right _ _
  · rw [productUnits_of_le rfl hle]
    exact ((pow_dvd_pow 2 (by norm_num)).mul_right _)

/-- The power itself: its quotient is rounded down, and the product back up. -/
theorem productUnits_two_pow {n : Nat} (heq : n = 2 ^ 92) : productUnits n = n := by
  have hrest : n % 1000000000000 = 99596496896 := by
    rw [heq]
    norm_num
  have hp := quotient_down (n := n) (by rw [hrest]; norm_num)
  rw [hrest] at hp
  have hnear : nearestEven (nearestEven n 1000000000000 * 1000000000000) (2 ^ 39) = 2 ^ 53 :=
    nearestEven_below_near (hp.trans (heq.trans (by norm_num))) (by norm_num)
  rw [productUnits_of_lt rfl (by omega), hnear, heq]
  norm_num

section

variable {n : Nat} (hlow : 2 ^ 92 ≤ n)
include hlow

theorem dvd_of_productUnits_eq (h : productUnits n = n) : 2 ^ 40 ∣ n := by
  rcases Nat.lt_or_ge (nearestEven n 1000000000000 * 1000000000000) (2 ^ 92) with hlt | hle
  · -- A product in the lower binade is at most the power between the two.
    have hmost : nearestEven (nearestEven n 1000000000000 * 1000000000000) (2 ^ 39) ≤ 2 ^ 53 :=
      nearestEven_le (by positivity) (by omega)
    have hunits := productUnits_of_lt rfl hlt
    have heq : n = 2 ^ 92 := by omega
    rw [heq]
    exact pow_dvd_pow 2 (by norm_num)
  · rw [← h, productUnits_of_le rfl hle]
    exact Nat.dvd_mul_right _ _

theorem productUnits_of_dvd (hdvd : 2 ^ 40 ∣ n) : productUnits n = n := by
  obtain ⟨y, hn⟩ := hdvd
  have hhalf : n % 1000000000000 ≠ 500000000000 :=
    remainder_ne_half (y := 2 * y) ⟨hn.trans (by ring)⟩
  rcases Nat.lt_or_ge (n % 1000000000000) 500000000000 with hdown | hup
  · have hp := quotient_down hdown
    rcases Nat.lt_or_ge (nearestEven n 1000000000000 * 1000000000000) (2 ^ 92) with hlt | hle
    · exact productUnits_two_pow (by omega)
    · rw [productUnits_of_le rfl hle, nearestEven_below_near (hp.trans hn) (by omega), hn]
  · obtain ⟨t, ht, hp⟩ := quotient_up (lt_of_le_of_ne hup hhalf.symm)
    rw [productUnits_of_le hp (hlow.trans (Nat.le_add_right n t)),
      nearestEven_above_near (congrArg (· + t) hn) (by omega), hn]

/-- In the upper binade exactly the amounts of 53 bits stay where they are. -/
theorem productUnits_eq_self_iff_dvd : productUnits n = n ↔ 2 ^ 40 ∣ n :=
  ⟨dvd_of_productUnits_eq hlow, productUnits_of_dvd hlow⟩

end

/-! ## The amounts that are read back -/

/-- The amount shifted up until it takes 64 bits. -/
def leading (x : Nat) : Nat := x * 2 ^ (63 - Nat.log2 x)

/-- What is left over when the amount, scaled to 53 bits before the point in the lower
    binade, is divided by the coin unit. -/
def overhang (x : Nat) : Nat := leading x * 2 ^ 28 % 1000000000000

/-- The amounts that survive. In the upper binade these are the amounts of 53 bits. In the
    lower one the remainder of the first rounding must be undone by the second, or raise
    an amount so small that the cast removes the excess. -/
def ReadsBack (x : Nat) : Prop :=
  x = 0 ∨
    if leading x < 2 ^ 24 * 1000000000000 then 2 ^ 11 ∣ leading x
    else if x < 2 ^ 52 then overhang x ≤ 2 ^ 38 ∨ 500000000000 < overhang x
    else 2 ^ 11 ∣ leading x ∧
      (overhang x < 2 ^ 38 ∨ 1000000000000 < overhang x + 2 ^ 38 ∨
        (overhang x = 2 ^ 38 ∨ overhang x + 2 ^ 38 = 1000000000000) ∧ 2 ^ 12 ∣ leading x)

theorem leading_bounds {x : Nat} (hx : x ≠ 0) (hlt : x < 2 ^ 64) :
    Nat.log2 x ≤ 63 ∧ 2 ^ 63 ≤ leading x ∧ leading x < 2 ^ 64 := by
  have hlog : Nat.log2 x ≤ 63 := Nat.le_of_lt_succ ((Nat.log2_lt hx).mpr hlt)
  have hsplit : (2 : Nat) ^ 63 = 2 ^ Nat.log2 x * 2 ^ (63 - Nat.log2 x) := by
    rw [← pow_add, Nat.add_sub_cancel' hlog]
  refine ⟨hlog, ?_, ?_⟩
  · rw [hsplit]
    exact Nat.mul_le_mul_right _ (Nat.log2_self_le hx)
  · calc leading x < 2 ^ (Nat.log2 x + 1) * 2 ^ (63 - Nat.log2 x) :=
          Nat.mul_lt_mul_of_pos_right Nat.lt_log2_self (by positivity)
      _ = 2 ^ 64 := by rw [← pow_add]; congr 1; omega

theorem leading_mul_two_pow (x j : Nat) :
    leading x * 2 ^ j = x * 2 ^ (63 - Nat.log2 x + j) := by
  rw [leading, pow_add, Nat.mul_assoc]

/-- The scaled amount is whole amounts of its own scale. -/
theorem dvd_leading_mul_two_pow (x j : Nat) :
    2 ^ (63 - Nat.log2 x + j) ∣ leading x * 2 ^ j := by
  rw [leading_mul_two_pow]
  exact Nat.dvd_mul_left _ _

theorem two_pow_add_dvd_mul_iff (n i j : Nat) : 2 ^ (i + j) ∣ n * 2 ^ j ↔ 2 ^ i ∣ n := by
  rw [pow_add]
  exact Nat.mul_dvd_mul_iff_right (Nat.two_pow_pos j)

theorem leading_room {x : Nat} (hlt : leading x < 2 ^ 64) (hdvd : 2 ^ 11 ∣ leading x) :
    leading x * 2 ^ 28 + 2 ^ 39 ≤ 2 ^ 92 := by
  obtain ⟨z, hz⟩ := hdvd
  omega

/-- Two multiples of a number less than that apart are the same. -/
theorem within_iff_eq {a b d : Nat} (ha : d ∣ a) (hb : d ∣ b) (hd : 0 < d) :
    (a ≤ b ∧ b < a + d) ↔ b = a := by
  constructor
  · rintro ⟨hle, hlt⟩
    obtain ⟨k, rfl⟩ := Nat.exists_eq_add_of_le hle
    have hk := Nat.eq_zero_of_dvd_of_lt ((Nat.dvd_add_right ha).mp hb) (by omega)
    rw [hk, Nat.add_zero]
  · rintro rfl
    exact ⟨Nat.le_refl b, Nat.lt_add_of_pos_right hd⟩

section

variable {x : Nat} (hx : x ≠ 0) (hlt : x < 2 ^ 64)
include hx hlt

/-- The upper binade. -/
theorem within_iff_of_leading_lt (hlead : leading x < 2 ^ 24 * 1000000000000) :
    (leading x * 2 ^ 29 ≤ productUnits (leading x * 2 ^ 29) ∧
      productUnits (leading x * 2 ^ 29) < leading x * 2 ^ 29 + 2 ^ (63 - Nat.log2 x + 29)) ↔
        2 ^ 11 ∣ leading x := by
  obtain ⟨hlog, hlow, hhigh⟩ := leading_bounds hx hlt
  have hbinade : 2 ^ 92 ≤ leading x * 2 ^ 29 := by omega
  have hwhole : 2 ^ 40 ∣ leading x * 2 ^ 29 ↔ 2 ^ 11 ∣ leading x :=
    two_pow_add_dvd_mul_iff (leading x) 11 29
  have hamount := dvd_leading_mul_two_pow x 29
  rw [← hwhole, ← productUnits_eq_self_iff_dvd hbinade]
  rcases Nat.lt_or_ge (63 - Nat.log2 x + 29) 40 with hnarrow | hwide
  · refine within_iff_eq hamount ?_ (by positivity)
    exact (pow_dvd_pow 2 (by omega)).trans (dvd_productUnits _)
  · -- The amount spans several units, and is a multiple of one.
    have hself : productUnits (leading x * 2 ^ 29) = leading x * 2 ^ 29 :=
      productUnits_of_dvd hbinade ((pow_dvd_pow 2 hwide).trans hamount)
    rw [hself]
    exact iff_of_true ⟨Nat.le_refl _, Nat.lt_add_of_pos_right (by positivity)⟩ rfl

/-- The lower binade. -/
theorem within_iff_of_le_leading :
    (leading x * 2 ^ 28 ≤ productUnits (leading x * 2 ^ 28) ∧
      productUnits (leading x * 2 ^ 28) < leading x * 2 ^ 28 + 2 ^ (63 - Nat.log2 x + 28)) ↔
        if x < 2 ^ 52 then overhang x ≤ 2 ^ 38 ∨ 500000000000 < overhang x
        else 2 ^ 11 ∣ leading x ∧
          (overhang x < 2 ^ 38 ∨ 1000000000000 < overhang x + 2 ^ 38 ∨
            (overhang x = 2 ^ 38 ∨ overhang x + 2 ^ 38 = 1000000000000) ∧ 2 ^ 12 ∣ leading x) := by
  obtain ⟨hlog, hlow, hhigh⟩ := leading_bounds hx hlt
  unfold overhang
  split
  · rename_i hsmall
    have hlog' : Nat.log2 x < 52 := (Nat.log2_lt hx).mpr hsmall
    have hmult : 2 ^ 12 ∣ leading x := (pow_dvd_pow 2 (by omega)).mul_left x
    have hroom := leading_room hhigh ((pow_dvd_pow 2 (by norm_num)).trans hmult)
    obtain ⟨y, hy⟩ := hmult
    have hunits : WholeUnits (leading x * 2 ^ 28) (2 * y) := ⟨by rw [hy]; ring⟩
    refine productUnits_within_iff hroom hunits (Nat.mul_mod_right 2 y) ?_
    exact Nat.pow_le_pow_right (by norm_num) (by omega)
  · rename_i hlarge
    have hlog' : 52 ≤ Nat.log2 x := (Nat.le_log2 hx).mpr (Nat.not_lt.mp hlarge)
    have hproduct : 2 ^ (63 - Nat.log2 x + 28) ∣ productUnits (leading x * 2 ^ 28) :=
      (pow_dvd_pow 2 (by omega)).trans (dvd_productUnits _)
    have hwhole : 2 ^ 39 ∣ leading x * 2 ^ 28 ↔ 2 ^ 11 ∣ leading x :=
      two_pow_add_dvd_mul_iff (leading x) 11 28
    rw [within_iff_eq (dvd_leading_mul_two_pow x 28) hproduct (by positivity)]
    by_cases hdvd : 2 ^ 11 ∣ leading x
    · have hroom := leading_room hhigh hdvd
      obtain ⟨y, hy⟩ := hdvd
      have hunits : WholeUnits (leading x * 2 ^ 28) y := ⟨by rw [hy]; ring⟩
      have heven : y % 2 = 0 ↔ 2 ^ 12 ∣ leading x := by
        rw [hy, Nat.mul_comm, ← Nat.dvd_iff_mod_eq_zero]
        exact (two_pow_add_dvd_mul_iff y 1 11).symm
      rw [productUnits_eq_self_iff hroom hunits, heven]
      exact (and_iff_right ⟨y, hy⟩).symm
    · refine iff_of_false (fun heq => hdvd ?_) (fun h => hdvd h.1)
      rw [← hwhole, ← heq]
      exact dvd_productUnits _

end

theorem parseMoney_printMoney_zero : parseMoney .binary64 (printMoney 0) = some 0 := by
  have hround : roundBinary64 0 = 0 := if_pos rfl
  have hquotient : ((0 : UInt64).toNat : ℚ) / 10 ^ 12 = 0 := by
    rw [UInt64.toNat_zero, Nat.cast_zero, zero_div]
  have hproduct : toRat roundBinary64
      (binary64.mul (binary64.literal 0) (binary64.ofUInt64 coinUnits)) =
        roundBinary64 (roundBinary64 0 * roundBinary64 coinUnits.toNat) := rfl
  rw [hround, zero_mul, hround] at hproduct
  rw [parseMoney_printMoney, hquotient, Option.some_inj]
  apply UInt64.toNat_inj.mp
  refine (toNat_toUInt64 roundBinary64 hproduct.ge (hproduct.trans_lt (by norm_num))).trans ?_
  rw [hproduct, Int.floor_zero]
  rfl

/-- A printed amount is parsed to itself exactly when it reads back. -/
theorem parseMoney_printMoney_iff (x : UInt64) :
    parseMoney .binary64 (printMoney x) = some x ↔ ReadsBack x.toNat := by
  by_cases hzero : x = 0
  · rw [hzero]
    exact iff_of_true parseMoney_printMoney_zero (.inl rfl)
  have hx : x.toNat ≠ 0 := fun h => hzero (UInt64.toNat_inj.mp h)
  have hlt := x.toNat_lt
  obtain ⟨hlog, hlow, hhigh⟩ := leading_bounds hx hlt
  have hscale := leading_mul_two_pow x.toNat
  unfold ReadsBack
  rw [or_iff_right hx]
  split
  · rename_i hlead
    rw [← within_iff_of_leading_lt hx hlt hlead]
    exact readsBack_iff_productUnits hzero (hscale 29) (by omega) (by omega) (by omega)
  · rename_i hlead
    rw [← within_iff_of_le_leading hx hlt]
    exact readsBack_iff_productUnits hzero (hscale 28) (by omega) (by omega) (by omega)

/-- An amount of 61 units comes back as 60. -/
theorem parseMoney_printMoney_ne :
    ¬ ∀ x : UInt64, parseMoney .binary64 (printMoney x) = some x := by
  intro h
  have hlost : parseMoney .binary64 (printMoney 61) = some 60 := by decide +kernel
  rw [h 61] at hlost
  revert hlost
  decide

end EmissionEngine

end RandomLite
