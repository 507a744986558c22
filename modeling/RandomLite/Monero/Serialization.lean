-- SUMMARY: Variable-length integers (`common/varint.h`) and the binary archive (`serialization/binary_archive.h`), with what its readers make of what its writers wrote.
import RandomLite.Library.ByteReader
import RandomLite.Monero.MinerTxConstruction

/-!
# Serialization

`read_varint`, and the binary archive of the production node as far as transactions
and addresses use it. A saving archive is a function to bytes; a loading archive is a
reader, and a reader that fails is an archive that is no longer good.
-/

namespace RandomLite.Monero

/-! ## Variable-length integers -/

/-- `EVARINT_OVERFLOW`. -/
def evarintOverflow : Int := -1

/-- `EVARINT_REPRESENT`. -/
def evarintRepresent : Int := -2

/-- The loop of `read_varint`: the number of bytes read or an error code, and what was
    written so far. A string that ends early is no error. -/
def readVarintLoop (bits : Nat) : List UInt8 → Nat → Nat → UInt64 → Int × UInt64
  | [], _, read, write => (read, write)
  | byte :: rest, shift, read, write =>
    if shift + 7 ≥ bits && byte.toNat ≥ 2 ^ (bits - shift) then (evarintOverflow, write)
    else if byte = 0 && shift ≠ 0 then (evarintRepresent, write)
    else
      let write := write ||| (byte &&& 0x7f).toUInt64 <<< UInt64.ofNat shift
      if byte &&& 0x80 = 0 then (read + 1, write)
      else readVarintLoop bits rest (shift + 7) (read + 1) write

/-- `read_varint` of a 64-bit integer. -/
def readVarint (bytes : List UInt8) : Int × UInt64 := readVarintLoop 64 bytes 0 0 0

/-- `get_varint_data`. -/
def getVarintData (v : UInt64) : List UInt8 := writeVarint 10 v

/-- `serialize_varint` of a loading archive. -/
def serializeVarint : ByteReader UInt64 := fun bytes =>
  let (read, v) := readVarint bytes
  if 1 ≤ read then some (v, bytes.drop read.toNat) else none

section Varint

variable {i : UInt64}

/-- The low seven bits with the bit that says there is more. -/
theorem toNat_continued (i : UInt64) :
    ((i &&& 0x7f) ||| 0x80).toUInt8.toNat = i.toNat % 128 + 128 := by
  have hlow : (i &&& 0x7f).toNat = i.toNat % 128 := by
    rw [UInt64.toNat_and, show (0x7f : UInt64).toNat = 2 ^ 7 - 1 from rfl,
      Nat.and_two_pow_sub_one_eq_mod]
  have hlt : i.toNat % 128 < 2 ^ 7 := Nat.mod_lt _ (by decide)
  rw [UInt64.toNat_toUInt8, UInt64.toNat_or, hlow,
    show (0x80 : UInt64).toNat = 2 ^ 7 * 1 from rfl, Nat.or_comm, ← Nat.two_pow_add_eq_or_of_lt hlt]
  omega

theorem toNat_shiftRight_seven (i : UInt64) : (i >>> 7).toNat = i.toNat / 128 := by
  rw [UInt64.toNat_shiftRight, show (7 : UInt64).toNat % 64 = 7 from rfl,
    Nat.shiftRight_eq_div_pow]

/-- The seven bits of a byte put in their place beside the bits below it. -/
theorem toNat_placed {write : UInt64} {byte : UInt8} {shift : Nat} (hshift : shift < 64)
    (hwrite : write.toNat < 2 ^ shift) (hfits : byte.toNat % 128 * 2 ^ shift < 2 ^ 64) :
    (write ||| (byte &&& 0x7f).toUInt64 <<< UInt64.ofNat shift).toNat =
      write.toNat + byte.toNat % 128 * 2 ^ shift := by
  have hlow : (byte &&& 0x7f).toUInt64.toNat = byte.toNat % 128 := by
    rw [UInt8.toNat_toUInt64, UInt8.toNat_and, show (0x7f : UInt8).toNat = 2 ^ 7 - 1 from rfl,
      Nat.and_two_pow_sub_one_eq_mod]
  have hamount : (UInt64.ofNat shift).toNat % 64 = shift := by
    rw [UInt64.toNat_ofNat']
    omega
  rw [UInt64.toNat_or, UInt64.toNat_shiftLeft, hamount, hlow, Nat.shiftLeft_eq,
    Nat.mod_eq_of_lt hfits, Nat.mul_comm, Nat.or_comm, ← Nat.two_pow_add_eq_or_of_lt hwrite,
    Nat.add_comm]

/-- The eighth bit says whether there is more. -/
theorem and_eighth_bit (byte : UInt8) : byte &&& 0x80 = 0 ↔ byte.toNat < 128 := by
  have hall : ∀ n < 256, n &&& 128 = 0 ↔ n < 128 := by decide +kernel
  rw [← UInt8.toNat_inj, UInt8.toNat_and]
  exact hall byte.toNat byte.toNat_lt

/-- A byte that says there is more. -/
theorem readVarintLoop_more {byte : UInt8} {shift : Nat} (hshift : shift + 7 < 64)
    (hbyte : 128 ≤ byte.toNat) (rest : List UInt8) (read : Nat) (write : UInt64) :
    readVarintLoop 64 (byte :: rest) shift read write =
      readVarintLoop 64 rest (shift + 7) (read + 1)
        (write ||| (byte &&& 0x7f).toUInt64 <<< UInt64.ofNat shift) := by
  have hne : byte ≠ 0 := by
    rintro rfl
    simp at hbyte
  have hmore : ¬ byte &&& 0x80 = 0 := by
    rw [and_eighth_bit]
    omega
  have hroom : ¬ 64 ≤ shift + 7 := by omega
  rw [readVarintLoop, if_neg (by simp [hroom]), if_neg (by simp [hne]), if_neg hmore]

/-- A byte that ends the number. -/
theorem readVarintLoop_last {byte : UInt8} {shift : Nat} (hbyte : byte.toNat < 128)
    (hroom : byte.toNat < 2 ^ (64 - shift)) (hnonzero : shift = 0 ∨ byte ≠ 0)
    (rest : List UInt8) (read : Nat) (write : UInt64) :
    readVarintLoop 64 (byte :: rest) shift read write =
      (((read + 1 : Nat) : Int), write ||| (byte &&& 0x7f).toUInt64 <<< UInt64.ofNat shift) := by
  have hends : byte &&& 0x80 = 0 := (and_eighth_bit byte).mpr hbyte
  have hfits : ¬ 2 ^ (64 - shift) ≤ byte.toNat := Nat.not_le.mpr hroom
  have hcanonical : ¬ (byte = 0 ∧ shift ≠ 0) := by
    rintro ⟨hzero, hne⟩
    rcases hnonzero with h | h
    · exact hne h
    · exact h hzero
  rw [readVarintLoop, if_neg (by simp [hfits]), if_neg (by simpa using hcanonical), if_pos hends]
  rfl

/-- The low seven bits of a number in their place, and the rest one place further. -/
theorem add_next_place (n place : Nat) :
    n % 128 * 2 ^ (7 * place) + n / 128 * 2 ^ (7 * (place + 1)) = n * 2 ^ (7 * place) := by
  have hsplit := Nat.mod_add_div n 128
  calc n % 128 * 2 ^ (7 * place) + n / 128 * 2 ^ (7 * (place + 1))
      = (n % 128 + 128 * (n / 128)) * 2 ^ (7 * place) := by ring
    _ = n * 2 ^ (7 * place) := by rw [hsplit]

/-- Where a number of more than seven bits still fits, there is a next place. -/
theorem next_place_lt {n place : Nat} (hlarge : 128 ≤ n) (hfits : n * 2 ^ (7 * place) < 2 ^ 64) :
    7 * place + 7 < 64 := by
  apply (Nat.pow_lt_pow_iff_right (by decide : 1 < 2)).mp
  calc 2 ^ (7 * place + 7) = 128 * 2 ^ (7 * place) := by ring
    _ ≤ n * 2 ^ (7 * place) := Nat.mul_le_mul_right _ hlarge
    _ < 2 ^ 64 := hfits

/-- Seven more bits stay below the next place. -/
theorem add_place_lt {low d place : Nat} (hlow : low < 2 ^ (7 * place)) (hd : d < 128) :
    low + d * 2 ^ (7 * place) < 2 ^ (7 * (place + 1)) :=
  calc low + d * 2 ^ (7 * place) < 2 ^ (7 * place) + d * 2 ^ (7 * place) :=
        Nat.add_lt_add_right hlow _
    _ = (d + 1) * 2 ^ (7 * place) := by ring
    _ ≤ 128 * 2 ^ (7 * place) := Nat.mul_le_mul_right _ hd
    _ = 2 ^ (7 * (place + 1)) := by ring

/-- The loop adds the last seven bits of a number in their place. -/
theorem readVarintLoop_small {shift : Nat} (hshift : shift < 64) (hsmall : i.toNat < 128)
    {write : UInt64} (hwrite : write.toNat < 2 ^ shift) (hfits : i.toNat * 2 ^ shift < 2 ^ 64)
    (hnonzero : shift = 0 ∨ i ≠ 0) (rest : List UInt8) (read : Nat) :
    readVarintLoop 64 (i.toUInt8 :: rest) shift read write =
      (((read + 1 : Nat) : Int), UInt64.ofNat (write.toNat + i.toNat * 2 ^ shift)) := by
  have hbyte : i.toUInt8.toNat = i.toNat := by
    rw [UInt64.toNat_toUInt8]
    exact Nat.mod_eq_of_lt (by omega)
  have hroom : i.toUInt8.toNat < 2 ^ (64 - shift) := by
    rw [hbyte, ← Nat.mul_lt_mul_right (Nat.two_pow_pos shift), ← Nat.pow_add,
      Nat.sub_add_cancel (Nat.le_of_lt hshift)]
    exact hfits
  have hcanonical : shift = 0 ∨ i.toUInt8 ≠ 0 := by
    refine hnonzero.imp_right ?_
    intro hne hzero
    have hnat := congrArg UInt8.toNat hzero
    rw [hbyte] at hnat
    exact hne (UInt64.toNat_inj.mp hnat)
  have hbits : i.toUInt8.toNat % 128 = i.toNat := by rw [hbyte, Nat.mod_eq_of_lt hsmall]
  have hfits' : i.toUInt8.toNat % 128 * 2 ^ shift < 2 ^ 64 := by
    rw [hbits]
    exact hfits
  have hplaced := toNat_placed hshift hwrite hfits'
  rw [hbits] at hplaced
  rw [readVarintLoop_last (by omega) hroom hcanonical, ← hplaced, UInt64.ofNat_toNat]

/-- It adds seven bits of a number with more in their place, and goes on. -/
theorem readVarintLoop_continued {shift : Nat} (hshift : shift + 7 < 64)
    {write : UInt64} (hwrite : write.toNat < 2 ^ shift) (hfits : i.toNat % 128 * 2 ^ shift < 2 ^ 64)
    (rest : List UInt8) (read : Nat) :
    readVarintLoop 64 (((i &&& 0x7f) ||| 0x80).toUInt8 :: rest) shift read write =
      readVarintLoop 64 rest (shift + 7) (read + 1)
        (UInt64.ofNat (write.toNat + i.toNat % 128 * 2 ^ shift)) := by
  have hbyte := toNat_continued i
  have hbits : ((i &&& 0x7f) ||| 0x80).toUInt8.toNat % 128 = i.toNat % 128 := by omega
  have hfits' : ((i &&& 0x7f) ||| 0x80).toUInt8.toNat % 128 * 2 ^ shift < 2 ^ 64 := by
    rw [hbits]
    exact hfits
  have hplaced := toNat_placed (by omega) hwrite hfits'
  rw [hbits] at hplaced
  rw [readVarintLoop_more hshift (by omega), ← hplaced, UInt64.ofNat_toNat]

/-- The loop reads back what the loop of `write_varint` writes, from any place on. -/
theorem readVarintLoop_writeVarint {fuel place : Nat} (hfuel : fuel + place = 10)
    (read : Nat) {write : UInt64} (hwrite : write.toNat < 2 ^ (7 * place))
    (hfits : i.toNat * 2 ^ (7 * place) < 2 ^ 64) (hnonzero : 7 * place = 0 ∨ i ≠ 0)
    (rest : List UInt8) :
    readVarintLoop 64 (writeVarint fuel i ++ rest) (7 * place) read write =
      (((read + (writeVarint fuel i).length : Nat) : Int),
        UInt64.ofNat (write.toNat + i.toNat * 2 ^ (7 * place))) := by
  induction fuel generalizing place i read write with
  | zero =>
    -- Ten bytes have taken all 64 bits.
    obtain rfl : place = 10 := by omega
    have hne : i ≠ 0 := hnonzero.resolve_left (by decide)
    have hpos : 0 < i.toNat := Nat.pos_of_ne_zero fun hz => hne (UInt64.toNat_inj.mp hz)
    omega
  | succ fuel ih =>
    have hplace : 7 * place < 64 := by omega
    by_cases hmore : i ≥ 0x80
    · have hlarge : 128 ≤ i.toNat := UInt64.le_iff_toNat_le.mp hmore
      have hwritten : writeVarint (fuel + 1) i =
          ((i &&& 0x7f) ||| 0x80).toUInt8 :: writeVarint fuel (i >>> 7) := if_pos hmore
      have hparts := add_next_place i.toNat place
      have hroom := next_place_lt hlarge hfits
      have hnext := add_place_lt hwrite (Nat.mod_lt i.toNat (by decide : 0 < 128))
      have hnext' : (UInt64.ofNat (write.toNat + i.toNat % 128 * 2 ^ (7 * place))).toNat =
          write.toNat + i.toNat % 128 * 2 ^ (7 * place) :=
        UInt64.toNat_ofNat_of_lt'
          (hnext.trans_le (Nat.pow_le_pow_right (by decide) (Nat.le_of_lt hroom)))
      have hleft : (i >>> 7).toNat * 2 ^ (7 * (place + 1)) < 2 ^ 64 := by
        rw [toNat_shiftRight_seven]
        omega
      have hagain : i >>> 7 ≠ 0 := by
        intro hzero
        have hnat := congrArg UInt64.toNat hzero
        rw [toNat_shiftRight_seven, UInt64.toNat_zero] at hnat
        omega
      rw [hwritten, List.cons_append, readVarintLoop_continued hroom hwrite (by omega),
        show 7 * place + 7 = 7 * (place + 1) from rfl,
        ih (by omega) (read + 1) (by rw [hnext']; exact hnext) hleft (.inr hagain),
        List.length_cons]
      refine Prod.ext ?_ ?_
      · dsimp only
        rw [Nat.add_right_comm, Nat.add_assoc]
      · dsimp only
        rw [hnext', toNat_shiftRight_seven, Nat.add_assoc, hparts]
    · have hsmall : i.toNat < 128 := by
        rw [ge_iff_le, UInt64.le_iff_toNat_le, Nat.not_le] at hmore
        exact hmore
      have hwritten : writeVarint (fuel + 1) i = [i.toUInt8] := if_neg hmore
      rw [hwritten, List.singleton_append,
        readVarintLoop_small hplace hsmall hwrite hfits hnonzero]
      rfl

/-- `read_varint` reads back what `write_varint` wrote, and how many bytes that was. -/
theorem readVarint_getVarintData (i : UInt64) (rest : List UInt8) :
    readVarint (getVarintData i ++ rest) = (((getVarintData i).length : Int), i) := by
  have hstart : (0 : UInt64).toNat < 2 ^ (7 * 0) := by decide
  have hfits : i.toNat * 2 ^ (7 * 0) < 2 ^ 64 := by
    rw [Nat.mul_zero, Nat.pow_zero, Nat.mul_one]
    exact i.toNat_lt
  have hloop := readVarintLoop_writeVarint (Nat.add_zero 10) 0 hstart hfits (.inl rfl) rest
  unfold readVarint getVarintData
  rw [Nat.mul_zero] at hloop
  rw [hloop]
  simp

theorem getVarintData_ne_nil (i : UInt64) : getVarintData i ≠ [] := by
  unfold getVarintData writeVarint
  split
  · exact List.cons_ne_nil _ _
  · exact List.cons_ne_nil _ _

theorem length_getVarintData_le (i : UInt64) : (getVarintData i).length ≤ 10 := by
  have hall : ∀ fuel (i : UInt64), (writeVarint fuel i).length ≤ fuel := by
    intro fuel
    induction fuel with
    | zero => exact fun _ => Nat.le_refl 0
    | succ fuel ih =>
      intro i
      unfold writeVarint
      split
      · exact Nat.succ_le_succ (ih _)
      · exact Nat.succ_le_succ (Nat.zero_le _)
  exact hall 10 i

theorem serializeVarint_reads (i : UInt64) :
    ByteReader.Reads serializeVarint (getVarintData i) i := by
  intro rest
  have hpos := List.length_pos_of_ne_nil (getVarintData_ne_nil i)
  unfold serializeVarint
  rw [readVarint_getVarintData]
  dsimp only
  rw [if_pos (by omega), Int.toNat_natCast, List.drop_left]

end Varint

/-! ## Containers and strings -/

section Containers

variable {α : Type}

/-- `do_serialize_container` of a saving archive. -/
def saveContainer (save : α → List UInt8) (v : List α) : List UInt8 :=
  getVarintData (UInt64.ofNat v.length) ++ v.flatMap save

/-- `do_serialize_container` of a loading archive: there must be a byte left for every
    element. -/
def loadContainer (load : ByteReader α) : ByteReader (List α) := do
  let cnt ← serializeVarint
  let remainingBytes ← ByteReader.remaining
  ByteReader.require (cnt.toNat ≤ remainingBytes)
  ByteReader.times load cnt.toNat

/-- `do_serialize` of a string to a saving archive. -/
def saveString (str : List UInt8) : List UInt8 := getVarintData (UInt64.ofNat str.length) ++ str

/-- `do_serialize` of a string from a loading archive. -/
def loadString : ByteReader (List UInt8) := do
  let size ← serializeVarint
  let remainingBytes ← ByteReader.remaining
  ByteReader.require (size.toNat ≤ remainingBytes)
  ByteReader.blob size.toNat

/-- Elements of at least one byte each. -/
theorem length_le_length_flatMap {save : α → List UInt8} {v : List α}
    (h : ∀ a ∈ v, save a ≠ []) : v.length ≤ (v.flatMap save).length := by
  induction v with
  | nil => exact Nat.le_refl _
  | cons a v ih =>
    have hfirst := List.length_pos_of_ne_nil (h a List.mem_cons_self)
    have hrest := ih fun b hb => h b (List.mem_cons_of_mem _ hb)
    rw [List.flatMap_cons, List.length_append, List.length_cons]
    omega

/-- A container whose elements are read back is read back. -/
theorem loadContainer_reads {save : α → List UInt8} {load : ByteReader α} {v : List α}
    (hlen : v.length < 2 ^ 64) (hload : ∀ a ∈ v, load.Reads (save a) a)
    (hne : ∀ a ∈ v, save a ≠ []) : (loadContainer load).Reads (saveContainer save v) v := by
  have hcount : (UInt64.ofNat v.length).toNat = v.length := UInt64.toNat_ofNat_of_lt' hlen
  have hroom := length_le_length_flatMap hne
  unfold loadContainer saveContainer
  refine (serializeVarint_reads _).bind ?_
  apply ByteReader.Reads.remaining_bind
  intro n hn
  rw [hcount]
  have hchecked := ByteReader.Reads.require (c := decide (v.length ≤ n))
    (decide_eq_true (hroom.trans hn))
  exact hchecked.bind (ByteReader.Reads.times hload)

theorem loadString_reads {str : List UInt8} (hlen : str.length < 2 ^ 64) :
    loadString.Reads (saveString str) str := by
  have hcount : (UInt64.ofNat str.length).toNat = str.length := UInt64.toNat_ofNat_of_lt' hlen
  unfold loadString saveString
  refine (serializeVarint_reads _).bind ?_
  apply ByteReader.Reads.remaining_bind
  intro n hn
  rw [hcount]
  have hchecked := ByteReader.Reads.require (c := decide (str.length ≤ n)) (decide_eq_true hn)
  exact hchecked.bind (ByteReader.Reads.blob str)

theorem length_saveContainer_le (save : α → List UInt8) (v : List α) :
    (saveContainer save v).length ≤ 10 + (v.flatMap save).length := by
  unfold saveContainer
  rw [List.length_append]
  exact Nat.add_le_add_right (length_getVarintData_le _) _

theorem length_flatMap_le_saveContainer (save : α → List UInt8) (v : List α) :
    (v.flatMap save).length ≤ (saveContainer save v).length := by
  unfold saveContainer
  rw [List.length_append]
  exact Nat.le_add_left _ _

theorem length_le_length_saveString (str : List UInt8) : str.length ≤ (saveString str).length := by
  unfold saveString
  rw [List.length_append]
  exact Nat.le_add_left _ _

end Containers

end RandomLite.Monero
