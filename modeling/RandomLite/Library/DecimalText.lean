-- SUMMARY: Decimal numbers as text: `std::stod`, and what it makes of a printed fixed-point number.
import Mathlib.Tactic.FieldSimp
import RandomLite.Library.Binary64

/-!
# Decimal text

`stod` reads the longest decimal number at the front of a text: spaces, a sign, digits,
a point with digits, and an exponent. A number printed with a fixed number of digits
after the point is read back exactly, before it is rounded to a `double`.
-/

/-! ## Scanning -/

/-- The characters skipped in front of a number. -/
def isSpace (c : Char) : Bool := c == ' ' || (9 ≤ c.toNat && c.toNat ≤ 13)

/-- The digits at the front of a text, and what follows them. -/
def scanDigits (s : List Char) : List Char × List Char :=
  (s.takeWhile Char.isDigit, s.dropWhile Char.isDigit)

/-- Whether a sign in front is a minus, and what follows it. -/
def scanSign : List Char → Bool × List Char
  | [] => (false, [])
  | c :: s => if c == '-' then (true, s) else if c == '+' then (false, s) else (false, c :: s)

/-- The digits after a point, if there is one, and what follows them. -/
def scanFraction : List Char → List Char × List Char
  | [] => ([], [])
  | c :: s => if c == '.' then scanDigits s else ([], c :: s)

/-- The exponent after an `e`, if there is one. -/
def scanExponent : List Char → Int
  | [] => 0
  | c :: s =>
    if c == 'e' || c == 'E' then
      let (negative, s) := scanSign s
      let exponent : Int := Nat.ofDigitChars 10 (scanDigits s).1 0
      if negative then -exponent else exponent
    else 0

/-- `std::stod` for decimal numbers: `none` when there is none. The hexadecimal form, the
    words for infinity and NaN, and `std::out_of_range` are left out. -/
def stod (D : DoubleArith) (str : String) : Option D.Double :=
  let (negative, s) := scanSign (str.toList.dropWhile isSpace)
  let (whole, s) := scanDigits s
  let (fraction, s) := scanFraction s
  if whole.isEmpty && fraction.isEmpty then none
  else
    let digits : ℚ := (Nat.ofDigitChars 10 (whole ++ fraction) 0 : Nat)
    let value := digits * 10 ^ (scanExponent s - fraction.length)
    some (D.literal (if negative then -value else value))

/-- A text whose first character, if any, is no digit. -/
def NoDigitFirst (s : List Char) : Prop := ∀ c ∈ s.head?, c.isDigit = false

theorem noDigitFirst_cons {c : Char} (h : c.isDigit = false) (s : List Char) :
    NoDigitFirst (c :: s) := by
  rintro _ ⟨⟩
  exact h

theorem scanDigits_append {ds s : List Char} (hds : ∀ c ∈ ds, c.isDigit = true)
    (hs : NoDigitFirst s) : scanDigits (ds ++ s) = (ds, s) := by
  have hnone : s.takeWhile Char.isDigit = [] ∧ s.dropWhile Char.isDigit = s := by
    cases s with
    | nil => exact ⟨rfl, rfl⟩
    | cons c s =>
      have hc := hs c rfl
      exact ⟨List.takeWhile_cons_of_neg (by simp [hc]), List.dropWhile_cons_of_neg (by simp [hc])⟩
  unfold scanDigits
  rw [List.takeWhile_append_of_pos hds, List.dropWhile_append_of_pos hds, hnone.1, hnone.2,
    List.append_nil]

theorem isSpace_of_isDigit {c : Char} (h : c.isDigit = true) : isSpace c = false := by
  have hrange : 48 ≤ c.toNat ∧ c.toNat ≤ 57 := by
    simpa [Char.isDigit, UInt32.le_iff_toNat_le] using h
  have hne : c ≠ ' ' := by
    rintro rfl
    cases h
  simp only [isSpace, Bool.or_eq_false_iff, beq_eq_false_iff_ne, Bool.and_eq_false_iff,
    decide_eq_false_iff_not]
  exact ⟨hne, .inr (by omega)⟩

theorem scanSign_of_isDigit {c : Char} (h : c.isDigit = true) (s : List Char) :
    scanSign (c :: s) = (false, c :: s) := by
  have hminus : c ≠ '-' := by
    rintro rfl
    cases h
  have hplus : c ≠ '+' := by
    rintro rfl
    cases h
  simp [scanSign, hminus, hplus]

/-- What `stod` makes of the pieces it has scanned, for a number without a minus. -/
theorem stod_of_scan (D : DoubleArith) {str : String} {front middle back whole fraction : List Char}
    (hsign : scanSign (str.toList.dropWhile isSpace) = (false, front))
    (hwhole : scanDigits front = (whole, middle)) (hne : whole ≠ [])
    (hfraction : scanFraction middle = (fraction, back)) :
    stod D str = some (D.literal ((Nat.ofDigitChars 10 (whole ++ fraction) 0 : Nat) *
      10 ^ (scanExponent back - fraction.length))) := by
  unfold stod
  simp [hsign, hwhole, hfraction, hne]

/-! ## Fixed-point numbers -/

/-- `n / 10 ^ w`, printed with `w` digits after the point. -/
def fixedPoint (w n : Nat) : List Char :=
  Nat.toDigits 10 (n / 10 ^ w) ++ '.' :: (Nat.toDigits 10 (n % 10 ^ w)).leftpad w '0'

theorem isDigit_of_mem_leftpad {w n : Nat} {c : Char}
    (h : c ∈ (Nat.toDigits 10 n).leftpad w '0') : c.isDigit = true := by
  rcases List.mem_append.mp h with hzero | hdigit
  · rw [List.eq_of_mem_replicate hzero]
    rfl
  · exact Nat.isDigit_of_mem_toDigits (by decide) (by decide) hdigit

/-- The digits after the point, as many as there should be. -/
theorem length_leftpad_fraction {w : Nat} (hw : 0 < w) (n : Nat) :
    ((Nat.toDigits 10 (n % 10 ^ w)).leftpad w '0').length = w := by
  have hlt : n % 10 ^ w < 10 ^ w := Nat.mod_lt n (Nat.pow_pos (by decide))
  rw [List.length_leftpad, Nat.max_eq_left]
  exact (Nat.length_toDigits_le_iff (by decide) hw).mpr hlt

/-- The digits before and after the point are those of the number. -/
theorem ofDigitChars_fixedPoint {w : Nat} (hw : 0 < w) (n : Nat) :
    Nat.ofDigitChars 10 (Nat.toDigits 10 (n / 10 ^ w) ++
      (Nat.toDigits 10 (n % 10 ^ w)).leftpad w '0') 0 = n := by
  have hfraction : Nat.ofDigitChars 10 ((Nat.toDigits 10 (n % 10 ^ w)).leftpad w '0') 0 =
      n % 10 ^ w := by
    unfold List.leftpad
    rw [Nat.ofDigitChars_append, Nat.ofDigitChars_replicate_zero, Nat.mul_zero,
      Nat.ofDigitChars_ten_toDigits]
  rw [Nat.ofDigitChars_append, Nat.ofDigitChars_ten_toDigits,
    Nat.ofDigitChars_eq_ofDigitChars_zero, hfraction, length_leftpad_fraction hw, Nat.div_add_mod]

/-- The text of a number, with a space after it, is read as the number. -/
theorem stod_fixedPoint (D : DoubleArith) {w : Nat} (hw : 0 < w) (n : Nat) (rest : List Char) :
    stod D (String.ofList (fixedPoint w n ++ ' ' :: rest)) =
      some (D.literal ((n : ℚ) / 10 ^ w)) := by
  have hdigit : ∀ c ∈ Nat.toDigits 10 (n / 10 ^ w), c.isDigit = true := fun c hc =>
    Nat.isDigit_of_mem_toDigits (by decide) (by decide) hc
  have hne : Nat.toDigits 10 (n / 10 ^ w) ≠ [] :=
    List.ne_nil_of_length_pos Nat.length_toDigits_pos
  have hsign : scanSign ((String.ofList (fixedPoint w n ++ ' ' :: rest)).toList.dropWhile isSpace) =
      (false, fixedPoint w n ++ ' ' :: rest) := by
    obtain ⟨c, cs, hfirst⟩ := List.exists_cons_of_ne_nil hne
    have hc : c.isDigit = true := hdigit c (hfirst ▸ List.mem_cons_self)
    rw [String.toList_ofList, fixedPoint, hfirst, List.cons_append, List.cons_append,
      List.dropWhile_cons_of_neg (by simp [isSpace_of_isDigit hc])]
    exact scanSign_of_isDigit hc _
  have hwhole : scanDigits (fixedPoint w n ++ ' ' :: rest) =
      (Nat.toDigits 10 (n / 10 ^ w),
        '.' :: ((Nat.toDigits 10 (n % 10 ^ w)).leftpad w '0' ++ ' ' :: rest)) := by
    rw [fixedPoint, List.append_assoc, List.cons_append]
    exact scanDigits_append hdigit (noDigitFirst_cons rfl _)
  have hfraction : scanFraction ('.' :: ((Nat.toDigits 10 (n % 10 ^ w)).leftpad w '0' ++
      ' ' :: rest)) = ((Nat.toDigits 10 (n % 10 ^ w)).leftpad w '0', ' ' :: rest) :=
    scanDigits_append (fun _ => isDigit_of_mem_leftpad) (noDigitFirst_cons rfl _)
  have hexponent : scanExponent (' ' :: rest) = 0 := rfl
  rw [stod_of_scan D hsign hwhole hne hfraction, ofDigitChars_fixedPoint hw, hexponent,
    length_leftpad_fraction hw, zero_sub, zpow_neg, zpow_natCast, div_eq_mul_inv]
