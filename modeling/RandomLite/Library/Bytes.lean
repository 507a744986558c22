-- SUMMARY: Little-endian integers, byte strings cut into records of a fixed size, and running sums.
import Mathlib.Data.List.Basic
import Mathlib.Tactic.Ring

/-!
# Byte-level data

What a program that writes plain integers to a file rests on: the little-endian
image of a number and its inverse, and the complete fixed-size records a byte
string is cut into, a shorter rest being ignored. Cumulative columns are kept as
running sums.
-/

/-! ## Little-endian integers -/

/-- The `w` low bytes of `n`, least significant first. -/
def leBytes : Nat → Nat → List UInt8
  | 0, _ => []
  | w + 1, n => UInt8.ofNat n :: leBytes w (n / 256)

/-- The number a little-endian byte string stands for. -/
def leValue : List UInt8 → Nat
  | [] => 0
  | b :: bs => b.toNat + 256 * leValue bs

@[simp] theorem length_leBytes (w n : Nat) : (leBytes w n).length = w := by
  induction w generalizing n with
  | zero => rfl
  | succ w ih => simp [leBytes, ih]

theorem leValue_leBytes (w n : Nat) : leValue (leBytes w n) = n % 256 ^ w := by
  induction w generalizing n with
  | zero => simp [leBytes, leValue, Nat.mod_one]
  | succ w ih =>
    have hbyte : (UInt8.ofNat n).toNat = n % 256 := by simp
    rw [leBytes, leValue, hbyte, ih, Nat.pow_succ, Nat.mul_comm (256 ^ w), Nat.mod_mul]

theorem leValue_lt (bs : List UInt8) : leValue bs < 256 ^ bs.length := by
  induction bs with
  | nil => simp [leValue]
  | cons b bs ih =>
    have hb : b.toNat < 256 := b.toNat_lt
    simp only [leValue, List.length_cons, Nat.pow_succ]
    omega

/-- A byte string is determined by its length and its value. -/
theorem leBytes_leValue (bs : List UInt8) : leBytes bs.length (leValue bs) = bs := by
  induction bs with
  | nil => rfl
  | cons b bs ih =>
    have hb : b.toNat < 256 := b.toNat_lt
    have hmod : UInt8.ofNat (b.toNat + 256 * leValue bs) = b := by
      apply UInt8.toNat_inj.mp
      simp only [UInt8.toNat_ofNat']
      omega
    have hdiv : (b.toNat + 256 * leValue bs) / 256 = leValue bs := by omega
    simp only [List.length_cons, leValue, leBytes, hmod, hdiv, ih]

theorem leValue_inj {as bs : List UInt8} (hlen : as.length = bs.length)
    (h : leValue as = leValue bs) : as = bs := by
  rw [← leBytes_leValue as, ← leBytes_leValue bs, hlen, h]

theorem leValue_append (as bs : List UInt8) :
    leValue (as ++ bs) = leValue as + 256 ^ as.length * leValue bs := by
  induction as with
  | nil => simp [leValue]
  | cons a as ih =>
    simp only [List.cons_append, leValue, List.length_cons, ih, Nat.pow_succ]
    ring

/-! ## Assembling an integer from bytes -/

/-- The first `w` bytes shifted to their places and joined by `|`, the way a loop
    over a byte array assembles a 64-bit integer. -/
def orBytes (bs : List UInt8) (w : Nat) : UInt64 :=
  (List.range w).foldl (fun acc i => acc ||| (bs.getD i 0).toUInt64 <<< UInt64.ofNat (i * 8)) 0

theorem orBytes_succ (bs : List UInt8) (w : Nat) :
    orBytes bs (w + 1) = orBytes bs w ||| (bs.getD w 0).toUInt64 <<< UInt64.ofNat (w * 8) := by
  simp [orBytes, List.range_succ]

/-- No bit of a byte is shifted out of the word. -/
theorem toNat_shifted_byte (b : UInt8) {w : Nat} (hw : w < 8) :
    (b.toUInt64 <<< UInt64.ofNat (w * 8)).toNat = 256 ^ w * b.toNat := by
  have hb := b.toNat_lt
  have hpow : 256 ^ w = 2 ^ (w * 8) := by rw [Nat.mul_comm, Nat.pow_mul]
  have hmod : (UInt64.ofNat (w * 8)).toNat = w * 8 := by
    rw [UInt64.toNat_ofNat', Nat.mod_eq_of_lt (by omega)]
  rw [UInt64.toNat_shiftLeft, hmod, Nat.mod_eq_of_lt (by omega : w * 8 < 64),
    UInt8.toNat_toUInt64, Nat.shiftLeft_eq, hpow, Nat.mul_comm]
  apply Nat.mod_eq_of_lt
  calc 2 ^ (w * 8) * b.toNat < 2 ^ (w * 8) * 2 ^ 8 := Nat.mul_lt_mul_of_pos_left hb (Nat.two_pow_pos _)
    _ = 2 ^ (w * 8 + 8) := by rw [Nat.pow_add]
    _ ≤ 2 ^ 64 := Nat.pow_le_pow_right (by omega) (by omega)

/-- Up to eight bytes are joined to their little-endian value: the places do not
    overlap. -/
theorem toNat_orBytes {bs : List UInt8} {w : Nat} (hw : w ≤ 8) (hlen : w ≤ bs.length) :
    (orBytes bs w).toNat = leValue (bs.take w) := by
  induction w with
  | zero => rfl
  | succ w ih =>
    have hget : bs.getD w 0 = bs[w] := by
      rw [List.getD_eq_getElem?_getD, List.getElem?_eq_getElem (by omega), Option.getD_some]
    have hwidth : (bs.take w).length = w := by
      rw [List.length_take]
      omega
    have hlow : leValue (bs.take w) < 2 ^ (w * 8) := by
      have hlt := leValue_lt (bs.take w)
      rwa [hwidth, show 256 = 2 ^ 8 from rfl, ← Nat.pow_mul, Nat.mul_comm] at hlt
    have hpow : 256 ^ w = 2 ^ (w * 8) := by rw [Nat.mul_comm, Nat.pow_mul]
    calc (orBytes bs (w + 1)).toNat
        = leValue (bs.take w) ||| 2 ^ (w * 8) * bs[w].toNat := by
          rw [orBytes_succ, UInt64.toNat_or, ih (by omega) (by omega),
            toNat_shifted_byte _ (by omega), hget, hpow]
      _ = 2 ^ (w * 8) * bs[w].toNat + leValue (bs.take w) := by
          rw [Nat.or_comm, ← Nat.two_pow_add_eq_or_of_lt hlow]
      _ = leValue (bs.take (w + 1)) := by
          rw [List.take_succ_eq_append_getElem (by omega), leValue_append, hwidth, hpow]
          simp only [leValue]
          ring

/-! ## Fixed-size records -/

/-- The complete records of `n` elements at the front of `l`; a shorter rest is
    dropped. -/
def completeRecords {α : Type*} (n : Nat) (l : List α) : List (List α) :=
  (List.range (l.length / n)).map fun i => (l.drop (n * i)).take n

namespace completeRecords

variable {α : Type*} {n : Nat}

@[simp] theorem length_eq (n : Nat) (l : List α) :
    (completeRecords n l).length = l.length / n := by
  simp [completeRecords]

theorem length_of_mem {l r : List α} (h : r ∈ completeRecords n l) : r.length = n := by
  simp only [completeRecords, List.mem_map, List.mem_range] at h
  obtain ⟨i, hi, rfl⟩ := h
  have hend : n * (i + 1) ≤ l.length :=
    (Nat.mul_le_mul_left n hi).trans (Nat.mul_div_le l.length n)
  rw [Nat.mul_succ] at hend
  rw [List.length_take, List.length_drop]
  omega

/-- A rest shorter than a record holds none. -/
theorem of_length_lt {l : List α} (h : l.length < n) : completeRecords n l = [] := by
  simp [completeRecords, Nat.div_eq_of_lt h]

theorem append_left (hn : 0 < n) {r : List α} (hr : r.length = n) (l : List α) :
    completeRecords n (r ++ l) = r :: completeRecords n l := by
  have hcount : (r ++ l).length / n = l.length / n + 1 := by
    rw [List.length_append, hr, Nat.add_comm, Nat.add_div_right _ hn]
  simp only [completeRecords, hcount, List.range_succ_eq_map, List.map_cons, List.map_map]
  congr 1
  · simp [← hr]
  · apply List.map_congr_left
    intro i _
    have hdrop : (r ++ l).drop (n * (i + 1)) = l.drop (n * i) := by
      rw [show n * (i + 1) = r.length + n * i by rw [hr]; ring, List.drop_append]
      simp
    simp [Function.comp, hdrop]

/-- Records written one after another are cut apart again, whatever follows them. -/
theorem flatten_append (hn : 0 < n) {rs : List (List α)} (hrs : ∀ r ∈ rs, r.length = n)
    (l : List α) : completeRecords n (rs.flatten ++ l) = rs ++ completeRecords n l := by
  induction rs with
  | nil => simp
  | cons r rs ih =>
    have htail : ∀ r' ∈ rs, r'.length = n := fun r' h => hrs r' (List.mem_cons_of_mem _ h)
    rw [List.flatten_cons, List.append_assoc, append_left hn (hrs r List.mem_cons_self), ih htail]
    rfl

/-- A list of whole records is the records it is cut into. -/
theorem flatten_eq_of_dvd (hn : 0 < n) {l : List α} (h : n ∣ l.length) :
    (completeRecords n l).flatten = l := by
  obtain ⟨k, hk⟩ := h
  induction k generalizing l with
  | zero =>
    have hnil : l = [] := List.length_eq_zero_iff.mp (by simpa using hk)
    subst hnil
    simp [completeRecords]
  | succ k ih =>
    rw [Nat.mul_succ] at hk
    have hfirst : (l.take n).length = n := by
      rw [List.length_take]
      omega
    have hrest : (l.drop n).length = n * k := by
      rw [List.length_drop]
      omega
    have hcut := append_left hn hfirst (l.drop n)
    rw [List.take_append_drop] at hcut
    rw [hcut, List.flatten_cons, ih hrest, List.take_append_drop]

/-- What follows whole records is cut on its own. -/
theorem append_of_dvd (hn : 0 < n) {l : List α} (h : n ∣ l.length) (l' : List α) :
    completeRecords n (l ++ l') = completeRecords n l ++ completeRecords n l' := by
  have hcut : completeRecords n ((completeRecords n l).flatten ++ l') =
      completeRecords n l ++ completeRecords n l' :=
    flatten_append hn (fun _ hr => length_of_mem hr) l'
  rwa [flatten_eq_of_dvd hn h] at hcut

/-- An element of a record, by its position in the list. -/
theorem getElem?_record (l : List α) (i j : Nat) (hj : j < n) :
    ((l.drop (n * i)).take n)[j]? = l[n * i + j]? := by
  rw [List.getElem?_take_of_lt hj, List.getElem?_drop]

/-- Two lists of equally many records agree on the records without their first `k`
    elements exactly when they agree at every position past `k` in a record. -/
theorem map_drop_eq_iff (hn : 0 < n) (k : Nat) {l l' : List α} (hlen : l.length / n = l'.length / n) :
    (completeRecords n l).map (List.drop k) = (completeRecords n l').map (List.drop k) ↔
      ∀ q, q < n * (l'.length / n) → k ≤ q % n → l[q]? = l'[q]? := by
  simp only [completeRecords, List.map_map, hlen]
  constructor
  · intro h q hq hk
    have hi : q / n < l'.length / n := Nat.div_lt_of_lt_mul hq
    have hrecord := congrArg (fun rs => rs[q / n]?) h
    simp only [List.getElem?_map, List.getElem?_range hi, Option.map_some, Function.comp,
      Option.some.injEq] at hrecord
    have hcell := congrArg (fun r => r[q % n - k]?) hrecord
    have hmod : q % n < n := Nat.mod_lt q hn
    simp only [List.getElem?_drop, Nat.add_sub_cancel' hk] at hcell
    rwa [getElem?_record l _ _ hmod, getElem?_record l' _ _ hmod, Nat.div_add_mod] at hcell
  · intro h
    apply List.map_congr_left
    intro i hi
    rw [List.mem_range] at hi
    apply List.ext_getElem?
    intro j
    simp only [Function.comp, List.getElem?_drop]
    by_cases hj : k + j < n
    · rw [getElem?_record l i _ hj, getElem?_record l' i _ hj]
      apply h
      · calc n * i + (k + j) < n * (i + 1) := by rw [Nat.mul_succ]; omega
          _ ≤ n * (l'.length / n) := Nat.mul_le_mul_left n hi
      · rw [Nat.mul_add_mod, Nat.mod_eq_of_lt hj]
        omega
    · rw [List.getElem?_eq_none (by simp; omega), List.getElem?_eq_none (by simp; omega)]

end completeRecords

/-! ## Running sums -/

/-- The sums `acc + x₀`, `acc + x₀ + x₁`, … of a list of increments. -/
def runningSums {α : Type*} [Add α] : α → List α → List α
  | _, [] => []
  | acc, x :: xs => (acc + x) :: runningSums (acc + x) xs

namespace runningSums

variable {α : Type*}

@[simp] theorem length_eq [Add α] (acc : α) (xs : List α) :
    (runningSums acc xs).length = xs.length := by
  induction xs generalizing acc with
  | nil => rfl
  | cons x xs ih => simp [runningSums, ih]

/-- Appending an increment appends it to the last sum. -/
theorem append_singleton [Add α] (acc : α) (xs : List α) (x : α) :
    runningSums acc (xs ++ [x]) =
      runningSums acc xs ++ [(runningSums acc xs).getLastD acc + x] := by
  induction xs generalizing acc with
  | nil => rfl
  | cons y ys ih =>
    simp only [List.cons_append, runningSums, ih, List.getLastD_cons]

theorem append [Add α] (acc : α) (xs ys : List α) :
    runningSums acc (xs ++ ys) =
      runningSums acc xs ++ runningSums ((runningSums acc xs).getLastD acc) ys := by
  induction xs generalizing acc with
  | nil => rfl
  | cons x xs ih =>
    simp only [List.cons_append, runningSums, ih, List.getLastD_cons]

instance : IsLeftCancelAdd UInt64 where
  add_left_cancel a _ _ h := (UInt64.add_right_inj a).mp h

/-- The increments can be read off the sums. -/
theorem inj [Add α] [IsLeftCancelAdd α] {acc : α} {xs ys : List α}
    (h : runningSums acc xs = runningSums acc ys) : xs = ys := by
  induction xs generalizing acc ys with
  | nil =>
    cases ys with
    | nil => rfl
    | cons y ys => simp [runningSums] at h
  | cons x xs ih =>
    cases ys with
    | nil => simp [runningSums] at h
    | cons y ys =>
      simp only [runningSums, List.cons.injEq] at h
      obtain ⟨hhead, htail⟩ := h
      have hxy : x = y := add_left_cancel hhead
      subst hxy
      rw [ih htail]

/-- Each sum is the one before it plus the increment at its index. -/
theorem getElem?_succ [Add α] {acc : α} {xs : List α} {i : Nat} {a b : α}
    (ha : (runningSums acc xs)[i]? = some a) (hb : (runningSums acc xs)[i + 1]? = some b) :
    ∃ x, xs[i + 1]? = some x ∧ b = a + x := by
  induction xs generalizing acc i with
  | nil => simp [runningSums] at ha
  | cons x xs ih =>
    cases i with
    | zero =>
      cases xs with
      | nil => simp [runningSums] at hb
      | cons y ys =>
        simp only [runningSums, List.getElem?_cons_zero, List.getElem?_cons_succ,
          Option.some.injEq] at ha hb
        exact ⟨y, rfl, by rw [← hb, ← ha]⟩
    | succ i =>
      simp only [runningSums, List.getElem?_cons_succ] at ha hb ⊢
      exact ih ha hb

/-- Sums of 64-bit increments are the exact sums modulo `2 ^ 64`. -/
theorem map_ofNat (acc : Nat) (xs : List Nat) :
    runningSums (UInt64.ofNat acc) (xs.map UInt64.ofNat) =
      (List.range xs.length).map fun i => UInt64.ofNat (acc + (xs.take (i + 1)).sum) := by
  induction xs generalizing acc with
  | nil => rfl
  | cons x xs ih =>
    rw [List.map_cons, runningSums, ← UInt64.ofNat_add, ih, List.length_cons,
      List.range_succ_eq_map, List.map_cons, List.map_map]
    simp [Function.comp_def, Nat.add_assoc]

/-- Sums of 64-bit increments whose exact total fits do not wrap. -/
theorem toNat_eq {acc : UInt64} {xs : List UInt64}
    (hfits : acc.toNat + (xs.map UInt64.toNat).sum < 2 ^ 64) {i : Nat} {a : UInt64}
    (ha : (runningSums acc xs)[i]? = some a) :
    a.toNat = acc.toNat + ((xs.take (i + 1)).map UInt64.toNat).sum := by
  induction xs generalizing acc i with
  | nil => simp [runningSums] at ha
  | cons x xs ih =>
    simp only [List.map_cons, List.sum_cons] at hfits
    have hadd : (acc + x).toNat = acc.toNat + x.toNat := by
      rw [UInt64.toNat_add, Nat.mod_eq_of_lt (by omega)]
    cases i with
    | zero =>
      simp only [runningSums, List.getElem?_cons_zero, Option.some.injEq] at ha
      simp [← ha, hadd]
    | succ i =>
      simp only [runningSums, List.getElem?_cons_succ] at ha
      rw [ih (by omega) ha, hadd]
      simp only [List.take_succ_cons, List.map_cons, List.sum_cons]
      omega

/-- Under the same bound, neighbouring sums differ by their increment exactly. -/
theorem toNat_succ {acc : UInt64} {xs : List UInt64}
    (hfits : acc.toNat + (xs.map UInt64.toNat).sum < 2 ^ 64) {i : Nat} {a b x : UInt64}
    (ha : (runningSums acc xs)[i]? = some a) (hb : (runningSums acc xs)[i + 1]? = some b)
    (hx : xs[i + 1]? = some x) : b.toNat = a.toNat + x.toNat := by
  rw [toNat_eq hfits ha, toNat_eq hfits hb, List.take_add_one (i := i + 1), hx]
  simp
  omega

end runningSums
