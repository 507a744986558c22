-- SUMMARY: Variable-length integers of every width (`common/varint.h`): what is accepted is what is written, but for a number cut short by the end of the input.
import RandomLite.Library.ByteWriter
import RandomLite.Monero.Serialization

/-!
# Canonical varints

`read_varint` refuses overlong numbers and numbers beyond the width of its type, so a
number has one form. It does not notice the end of its input: a number whose last byte says
there is more is taken as it stands.
-/

namespace RandomLite.Monero

/-- `read_varint` of an integer of `bits` bits. -/
def readVarintOf (bits : Nat) (bytes : List UInt8) : Int × UInt64 := readVarintLoop bits bytes 0 0 0

/-- `serialize_uvarint` of a loading archive, into an integer of `bits` bits. -/
def serializeUvarint (bits : Nat) : ByteReader UInt64 := fun bytes =>
  let (read, v) := readVarintOf bits bytes
  if 1 ≤ read then some (v, bytes.drop read.toNat) else none

@[simp] theorem serializeUvarint_nil (bits : Nat) : serializeUvarint bits [] = none := rfl

@[simp] theorem serializeVarint_nil : serializeVarint [] = none := rfl

/-- A byte that says there is more. -/
def Continues (byte : UInt8) : Prop := 128 ≤ byte.toNat

/-- A number cut short: bytes that all say there is more and are read as a number, which is
    written as `full`. -/
def CutVarint (cut full : List UInt8) : Prop :=
  ∃ bits v, serializeUvarint bits cut = some (v, []) ∧ (∀ b ∈ cut, Continues b) ∧
    full = getVarintData v

/-! ## What is written is read -/

section Reads

variable {bits : Nat} {i : UInt64}

/-- A narrow reader does with a number of its width what the widest does. -/
theorem readVarintLoop_narrow (hbits : bits ≤ 64) {fuel place : Nat} (hfuel : fuel + place = 10)
    (hfits : i.toNat * 2 ^ (7 * place) < 2 ^ bits) (hnonzero : 7 * place = 0 ∨ i ≠ 0)
    (rest : List UInt8) (read : Nat) (write : UInt64) :
    readVarintLoop bits (writeVarint fuel i ++ rest) (7 * place) read write =
      readVarintLoop 64 (writeVarint fuel i ++ rest) (7 * place) read write := by
  have hwide : i.toNat * 2 ^ (7 * place) < 2 ^ 64 :=
    hfits.trans_le (Nat.pow_le_pow_right (by decide) hbits)
  induction fuel generalizing place i read write with
  | zero =>
    obtain rfl : place = 10 := by omega
    have hne : i ≠ 0 := hnonzero.resolve_left (by decide)
    have hpos : 0 < i.toNat := Nat.pos_of_ne_zero fun hz => hne (UInt64.toNat_inj.mp hz)
    omega
  | succ fuel ih =>
    by_cases hmore : i ≥ 0x80
    · have hlarge : 128 ≤ i.toNat := UInt64.le_iff_toNat_le.mp hmore
      have hwritten : writeVarint (fuel + 1) i =
          ((i &&& 0x7f) ||| 0x80).toUInt8 :: writeVarint fuel (i >>> 7) := if_pos hmore
      have hparts := add_next_place i.toNat place
      have hroom : 7 * place + 7 < bits := by
        apply (Nat.pow_lt_pow_iff_right (by decide : 1 < 2)).mp
        calc 2 ^ (7 * place + 7) = 128 * 2 ^ (7 * place) := by ring
          _ ≤ i.toNat * 2 ^ (7 * place) := Nat.mul_le_mul_right _ hlarge
          _ < 2 ^ bits := hfits
      have hleft : (i >>> 7).toNat * 2 ^ (7 * (place + 1)) < 2 ^ bits := by
        rw [toNat_shiftRight_seven]
        omega
      have hagain : i >>> 7 ≠ 0 := by
        intro hzero
        have hnat := congrArg UInt64.toNat hzero
        rw [toNat_shiftRight_seven, UInt64.toNat_zero] at hnat
        omega
      have hnarrow : ¬ bits ≤ 7 * place + 7 := by omega
      have hword : ¬ 64 ≤ 7 * place + 7 := by omega
      rw [hwritten, List.cons_append, readVarintLoop, readVarintLoop]
      simp only [ge_iff_le, hnarrow, hword, decide_false, Bool.false_and, Bool.false_eq_true,
        if_false]
      rw [show 7 * place + 7 = 7 * (place + 1) from rfl, ih (by omega) hleft (.inr hagain)
        (read + 1) _ (hleft.trans_le (Nat.pow_le_pow_right (by decide) hbits))]
    · have hsmall : i.toNat < 128 := by
        rw [ge_iff_le, UInt64.le_iff_toNat_le, Nat.not_le] at hmore
        exact hmore
      have hwritten : writeVarint (fuel + 1) i = [i.toUInt8] := if_neg hmore
      have hbyte : i.toUInt8.toNat = i.toNat := by
        rw [UInt64.toNat_toUInt8]
        exact Nat.mod_eq_of_lt (by omega)
      have hends : i.toUInt8 &&& 0x80 = 0 := (and_eighth_bit _).mpr (by rw [hbyte]; exact hsmall)
      have hroom {w : Nat} (h : i.toNat * 2 ^ (7 * place) < 2 ^ w) :
          ¬ 2 ^ (w - 7 * place) ≤ i.toUInt8.toNat := by
        rw [hbyte, Nat.not_le]
        by_cases hle : 7 * place ≤ w
        · rw [← Nat.mul_lt_mul_right (Nat.two_pow_pos (7 * place)), ← Nat.pow_add,
            Nat.sub_add_cancel hle]
          exact h
        · have hpow : 2 ^ w < 2 ^ (7 * place) :=
            Nat.pow_lt_pow_right (by decide) (Nat.not_le.mp hle)
          have hzero : i.toNat = 0 := by
            by_contra hne
            have hone := Nat.le_mul_of_pos_left (2 ^ (7 * place)) (Nat.pos_of_ne_zero hne)
            omega
          rw [hzero]
          exact Nat.two_pow_pos _
      have hnarrow := hroom hfits
      have hword := hroom hwide
      rw [hwritten, List.cons_append, readVarintLoop, readVarintLoop]
      simp only [ge_iff_le, hnarrow, hword, decide_false, Bool.and_false, Bool.false_eq_true,
        if_false, hends, if_true]

/-- A number is read back by a reader of its width. -/
theorem serializeUvarint_reads (hbits : bits ≤ 64) (hi : i.toNat < 2 ^ bits) :
    ByteReader.Reads (serializeUvarint bits) (getVarintData i) i := by
  intro rest
  have hfits : i.toNat * 2 ^ (7 * 0) < 2 ^ bits := by
    rw [Nat.mul_zero, Nat.pow_zero, Nat.mul_one]
    exact hi
  have hnarrow := readVarintLoop_narrow hbits (Nat.add_zero 10) hfits (.inl rfl) rest 0 0
  have hword : readVarintOf bits (getVarintData i ++ rest) =
      readVarint (getVarintData i ++ rest) := hnarrow
  have hread := serializeVarint_reads i rest
  unfold serializeUvarint
  unfold serializeVarint at hread
  rw [hword]
  exact hread

end Reads

/-! ## What is read was written -/

section Undoes

variable {bits : Nat}

/-- What a byte that is accepted is, and what the loop does with it. -/
theorem readVarintLoop_accepted (hpos : 0 < bits) {byte : UInt8} {bs : List UInt8}
    {shift read : Nat} {write v : UInt64} {n : Int}
    (hrun : readVarintLoop bits (byte :: bs) shift read write = (n, v)) (hn : 0 ≤ n) :
    byte.toNat % 128 * 2 ^ shift < 2 ^ bits ∧ shift < bits ∧ (shift = 0 ∨ byte ≠ 0) ∧
      if byte.toNat < 128 then
        n = ((read + 1 : Nat) : Int) ∧
          v = write ||| (byte &&& 0x7f).toUInt64 <<< UInt64.ofNat shift
      else
        readVarintLoop bits bs (shift + 7) (read + 1)
          (write ||| (byte &&& 0x7f).toUInt64 <<< UInt64.ofNat shift) = (n, v) := by
  rw [readVarintLoop] at hrun
  split at hrun
  · cases hrun
    exact absurd hn (by decide)
  rename_i hroom
  split at hrun
  · cases hrun
    exact absurd hn (by decide)
  rename_i hcanonical
  have hroom : shift + 7 < bits ∨ byte.toNat < 2 ^ (bits - shift) := by
    simp only [ge_iff_le, Bool.and_eq_true, decide_eq_true_eq, not_and, Nat.not_le] at hroom
    exact (Nat.lt_or_ge (shift + 7) bits).imp_right hroom
  have hnonzero : shift = 0 ∨ byte ≠ 0 := by
    simp only [Bool.and_eq_true, decide_eq_true_eq, not_and, not_not] at hcanonical
    exact (em (byte = 0)).symm.symm.imp hcanonical id
  have hbelow : shift < bits := by
    rcases hroom with hlt | hlt
    · omega
    · by_contra hge
      rw [Nat.sub_eq_zero_of_le (Nat.not_lt.mp hge), Nat.pow_zero] at hlt
      rcases hnonzero with hshift | hne
      · omega
      · exact hne (UInt8.toNat_inj.mp (Nat.lt_one_iff.mp hlt))
  refine ⟨?_, hbelow, hnonzero, ?_⟩
  · have hmod := Nat.mod_lt byte.toNat (by decide : 0 < 128)
    rcases hroom with hlt | hlt
    · calc byte.toNat % 128 * 2 ^ shift
          < 128 * 2 ^ shift := Nat.mul_lt_mul_of_pos_right hmod (Nat.two_pow_pos _)
        _ = 2 ^ (shift + 7) := by ring
        _ ≤ 2 ^ bits := Nat.pow_le_pow_right (by decide) (Nat.le_of_lt hlt)
    · calc byte.toNat % 128 * 2 ^ shift
          < 2 ^ (bits - shift) * 2 ^ shift :=
            Nat.mul_lt_mul_of_pos_right ((Nat.mod_le _ _).trans_lt hlt) (Nat.two_pow_pos _)
        _ = 2 ^ bits := by rw [← Nat.pow_add, Nat.sub_add_cancel (Nat.le_of_lt hbelow)]
  · split at hrun
    · rename_i hends
      rw [if_pos ((and_eighth_bit byte).mp hends)]
      obtain ⟨hread, hv⟩ := Prod.mk.inj hrun
      exact ⟨hread.symm, hv.symm⟩
    · rename_i hmore
      rw [if_neg (fun hlt => hmore ((and_eighth_bit byte).mpr hlt))]
      exact hrun

/-- A byte that says there is more is the first of a larger number. -/
theorem writeVarint_continued {byte : UInt8} (hmore : 128 ≤ byte.toNat) {fuel : Nat} {i j : UInt64}
    (hj : j ≠ 0) (hi : i.toNat = byte.toNat % 128 + 128 * j.toNat) :
    writeVarint (fuel + 1) i = byte :: writeVarint fuel j := by
  have hbyte := byte.toNat_lt
  have hpos : 0 < j.toNat := Nat.pos_of_ne_zero fun hz => hj (UInt64.toNat_inj.mp hz)
  have hlarge : i ≥ 0x80 := by
    rw [ge_iff_le, UInt64.le_iff_toNat_le]
    change 128 ≤ i.toNat
    omega
  have hfirst : ((i &&& 0x7f) ||| 0x80).toUInt8 = byte := by
    apply UInt8.toNat_inj.mp
    rw [toNat_continued]
    omega
  have hrest : i >>> 7 = j := by
    apply UInt64.toNat_inj.mp
    rw [toNat_shiftRight_seven]
    omega
  rw [writeVarint, if_pos hlarge, hfirst, hrest]

theorem add_lt_two_pow {low d s w : Nat} (hlow : low < 2 ^ s) (hs : s ≤ w)
    (hd : d * 2 ^ s < 2 ^ w) : low + d * 2 ^ s < 2 ^ w := by
  have hpow : 2 ^ w = 2 ^ (w - s) * 2 ^ s := by rw [← Nat.pow_add, Nat.sub_add_cancel hs]
  rw [hpow] at hd ⊢
  have hlt := Nat.lt_of_mul_lt_mul_right hd
  calc low + d * 2 ^ s < 2 ^ s + d * 2 ^ s := Nat.add_lt_add_right hlow _
    _ = (d + 1) * 2 ^ s := by ring
    _ ≤ 2 ^ (w - s) * 2 ^ s := Nat.mul_le_mul_right _ hlt

/-- What the loop makes of its input: a written number in its place, or bytes that all say
    there is more. -/
theorem readVarintLoop_cases (hpos : 0 < bits) (hbits : bits ≤ 64) {bs : List UInt8}
    {place read : Nat} {write v : UInt64} {n : Int} (hwrite : write.toNat < 2 ^ (7 * place))
    (hwidth : write.toNat < 2 ^ bits)
    (hrun : readVarintLoop bits bs (7 * place) read write = (n, v)) (hn : 0 ≤ n) :
    v.toNat < 2 ^ bits ∧
    ((∃ i rest, place < 10 ∧ bs = writeVarint (10 - place) i ++ rest ∧
        n = ((read + (writeVarint (10 - place) i).length : Nat) : Int) ∧ (place = 0 ∨ i ≠ 0) ∧
        v.toNat = write.toNat + i.toNat * 2 ^ (7 * place)) ∨
      n = ((read + bs.length : Nat) : Int) ∧ ∀ b ∈ bs, Continues b) := by
  induction bs generalizing place read write with
  | nil =>
    cases hrun
    exact ⟨hwidth, .inr ⟨by simp, by simp⟩⟩
  | cons byte bs ih =>
    obtain ⟨hfits, hbelow, hnonzero, hstep⟩ := readVarintLoop_accepted hpos hrun hn
    have hplaced := toNat_placed (by omega : 7 * place < 64) hwrite
      (hfits.trans_le (Nat.pow_le_pow_right (by decide) hbits))
    obtain ⟨fuel, hfuel⟩ : ∃ fuel, 10 - place = fuel + 1 := ⟨9 - place, by omega⟩
    have hplacedWidth := add_lt_two_pow hwrite (Nat.le_of_lt hbelow) hfits
    split at hstep
    · rename_i hends
      obtain ⟨rfl, rfl⟩ := hstep
      have hsmall : byte.toUInt64.toNat = byte.toNat := UInt8.toNat_toUInt64 byte
      have hone : ¬ byte.toUInt64 ≥ 0x80 := by
        rw [ge_iff_le, UInt64.le_iff_toNat_le, hsmall]
        exact Nat.not_le.mpr hends
      have hwritten : writeVarint (10 - place) byte.toUInt64 = [byte] := by
        rw [hfuel, writeVarint, if_neg hone]
        simp
      rw [← hplaced] at hplacedWidth
      rw [Nat.mod_eq_of_lt hends] at hfits hplaced
      refine ⟨hplacedWidth, .inl ⟨byte.toUInt64, bs, by omega, ?_, ?_, ?_, ?_⟩⟩
      · rw [hwritten]
        rfl
      · rw [hwritten]
        rfl
      · refine hnonzero.imp (by omega) fun hne hzero => hne ?_
        apply UInt8.toNat_inj.mp
        rw [← hsmall, hzero]
        rfl
      · rw [hplaced, hsmall]
    · rename_i hmore
      have hnext := add_place_lt hwrite (Nat.mod_lt byte.toNat (by decide : 0 < 128))
      rw [← hplaced] at hnext hplacedWidth
      obtain ⟨hfit, ⟨j, rest, hplace, rfl, hlen, hj, hv⟩ | ⟨hlen, hall⟩⟩ :=
        ih hnext hplacedWidth hstep
      · have hj : j ≠ 0 := hj.resolve_left (by omega)
        have hjpos : 0 < j.toNat := Nat.pos_of_ne_zero fun hz => hj (UInt64.toNat_inj.mp hz)
        have hsum : (byte.toNat % 128 + 128 * j.toNat) * 2 ^ (7 * place) =
            byte.toNat % 128 * 2 ^ (7 * place) + j.toNat * 2 ^ (7 * (place + 1)) := by
          ring
        have hword : byte.toNat % 128 + 128 * j.toNat < 2 ^ 64 := by
          have hone := Nat.le_mul_of_pos_right (byte.toNat % 128 + 128 * j.toNat)
            (Nat.two_pow_pos (7 * place))
          have hlt := v.toNat_lt
          omega
        have hi : (UInt64.ofNat (byte.toNat % 128 + 128 * j.toNat)).toNat =
            byte.toNat % 128 + 128 * j.toNat := UInt64.toNat_ofNat_of_lt' hword
        have hfuel' : 10 - (place + 1) = fuel := by omega
        rw [hfuel'] at hlen ⊢
        have hwritten : writeVarint (fuel + 1) (UInt64.ofNat (byte.toNat % 128 + 128 * j.toNat)) =
            byte :: writeVarint fuel j := writeVarint_continued (Nat.not_lt.mp hmore) hj hi
        refine ⟨hfit, .inl ⟨UInt64.ofNat (byte.toNat % 128 + 128 * j.toNat), rest, by omega,
          ?_, ?_, .inr ?_, ?_⟩⟩
        · rw [hfuel, hwritten]
          rfl
        · rw [hfuel, hwritten, hlen, List.length_cons]
          congr 1
          omega
        · intro hzero
          rw [hzero, UInt64.toNat_zero] at hi
          omega
        · rw [hi, hv, hplaced, hsum]
          omega
      · refine ⟨hfit, .inr ⟨?_, ?_⟩⟩
        · rw [hlen, List.length_cons]
          congr 1
          omega
        · intro b hb
          rcases List.mem_cons.mp hb with rfl | hb
          · exact Nat.not_lt.mp hmore
          · exact hall b hb

open ByteReader (Undoes Exactly)

/-- A number that is accepted has its one form, or is that form cut short. -/
theorem serializeUvarint_undoes (hpos : 0 < bits) (hbits : bits ≤ 64) :
    Undoes CutVarint (serializeUvarint bits) fun v p =>
      p = getVarintData v ∧ v.toNat < 2 ^ bits := by
  intro bs v rest hread
  have haccepted := hread
  unfold serializeUvarint at hread
  generalize hrun : readVarintOf bits bs = run at hread
  obtain ⟨n, w⟩ := run
  dsimp only at hread
  split at hread
  · rename_i hn
    cases hread
    have hzero : (0 : UInt64).toNat < 2 ^ (7 * 0) := by decide
    obtain ⟨hfits, hcases⟩ := readVarintLoop_cases hpos hbits hzero (Nat.two_pow_pos bits) hrun
      (by omega)
    refine ⟨getVarintData v, ⟨rfl, hfits⟩, ?_⟩
    rcases hcases with ⟨i, rest, -, rfl, hlen, -, hv⟩ | ⟨hlen, hall⟩
    · have hi : v = i := by
        apply UInt64.toNat_inj.mp
        rw [hv]
        simp
      subst hi
      have hcount : n.toNat = (getVarintData v).length := by
        rw [hlen, Nat.zero_add]
        rfl
      rw [hcount]
      exact .inl (congrArg _ (List.drop_left).symm)
    · have hcount : n.toNat = bs.length := by omega
      rw [hcount, List.drop_length] at haccepted ⊢
      have hne : bs ≠ [] := by
        rintro rfl
        simp at hlen
        omega
      exact .inr ⟨rfl, [], bs, getVarintData v, rfl, rfl, hne, bits, v, haccepted, hall, rfl⟩
  · cases hread

theorem serializeVarint_undoes :
    Undoes CutVarint serializeVarint fun v p => p = getVarintData v :=
  (serializeUvarint_undoes (by decide) (Nat.le_refl 64)).mono fun _ _ h => h.1

/-- The elements of a container, once their number is known. -/
theorem loadElements_undoes {α : Type} {Cut : List UInt8 → List UInt8 → Prop}
    {load : ByteReader α} {save : α → List UInt8} (h : Undoes Cut load fun a p => p = save a)
    (cnt : UInt64) :
    Undoes Cut (do
        let remainingBytes ← ByteReader.remaining
        ByteReader.require (cnt.toNat ≤ remainingBytes)
        ByteReader.times load cnt.toNat) fun v p =>
      v.length = cnt.toNat ∧ p = v.flatMap save := by
  have hwritten := h.mono (U := fun a p => Written.all (save a) = Written.all p)
    fun a p hp => by rw [hp]
  refine Undoes.bind_exactly Exactly.remaining fun n _ hnone => ?_
  refine Undoes.bind_exactly (Exactly.require _) fun _ _ ⟨hnone', _⟩ => ?_
  subst hnone hnone'
  refine (hwritten.times cnt.toNat).mono fun v q ⟨hlen, hq⟩ => ⟨hlen, ?_⟩
  rw [Written.each_all] at hq
  exact (Prod.mk.inj hq).1.symm

/-- Elements that are written in one form make containers that are. -/
theorem loadContainer_undoes {α : Type} {load : ByteReader α} {save : α → List UInt8}
    (h : Undoes CutVarint load fun a p => p = save a) :
    Undoes CutVarint (loadContainer load) fun v p =>
      p = saveContainer save v ∧ v.length < 2 ^ 64 := by
  refine serializeVarint_undoes.bind fun cnt p hp => ?_
  refine (loadElements_undoes h cnt).mono fun v q ⟨hlen, hq⟩ => ⟨?_, ?_⟩
  · rw [saveContainer, hlen, UInt64.ofNat_toNat, hp, hq]
  · rw [hlen]
    exact cnt.toNat_lt

end Undoes

end RandomLite.Monero
