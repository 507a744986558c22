-- SUMMARY: The base 58 code of addresses (`common/base58.cpp`): what is encoded is decoded again.
import RandomLite.Library.BlockCode
import RandomLite.Monero.Serialization

/-!
# Base 58

Blocks of eight bytes are written as eleven letters, a shorter last block as
fewer; an address is a tag, its data and four bytes of a hash over both. Strings are
lists of characters; the hash is a parameter.
-/

namespace RandomLite.Monero.Base58

/-! ## Tables -/

def alphabet : List Char := "123456789ABCDEFGHJKLMNPQRSTUVWXYZabcdefghijkmnopqrstuvwxyz".toList

def alphabetSize : Nat := 58

/-- `encoded_block_sizes`. -/
def encodedBlockSizes (size : Nat) : Nat := [0, 2, 3, 5, 6, 7, 9, 10, 11].getD size 0

def fullBlockSize : Nat := 8

def fullEncodedBlockSize : Nat := 11

def addrChecksumSize : Nat := 4

/-- A letter of the alphabet. -/
def letter (digit : Nat) : Char := alphabet.getD digit '1'

/-- `m_data` of `reverse_alphabet`. -/
def reverseAlphabetData : List Int :=
  alphabet.zipIdx.foldl (fun data (x : Char × Nat) => data.set (x.1.toNat - '1'.toNat) x.2)
    (List.replicate ('z'.toNat - '1'.toNat + 1) (-1))

/-- `reverse_alphabet`; a letter before the first one has an index past the end. -/
def reverseAlphabet (l : Char) : Int :=
  if l.toNat < '1'.toNat then -1 else reverseAlphabetData.getD (l.toNat - '1'.toNat) (-1)

/-- `m_data` of `decoded_block_sizes`. -/
def decodedBlockSizesData : List Int :=
  (List.range (fullBlockSize + 1)).foldl (fun data i => data.set (encodedBlockSizes i) i)
    (List.replicate (encodedBlockSizes fullBlockSize + 1) (-1))

/-- `decoded_block_sizes`. -/
def decodedBlockSizes (encodedBlockSize : Nat) : Int := decodedBlockSizesData.getD encodedBlockSize (-1)

/-! ## Blocks -/

/-- `uint_8be_to_64`. -/
def uint8beTo64 (data : List UInt8) : Nat := digitsValue 256 (data.map UInt8.toNat)

/-- `uint_64_to_8be`. -/
def uint64To8be (num size : Nat) : List UInt8 := (fixedDigits 256 size num).map UInt8.ofNat

/-- The loop of `encode_block`, with the number of places before the next; a digit with no
    place left would be written outside of the result. -/
def encodeDigits : Nat → Nat → List Char → Option (List Char)
  | 0, num, res => if 0 < num then none else some res
  | i + 1, num, res =>
    if 0 < num then encodeDigits i (num / alphabetSize) (res.set i (letter (num % alphabetSize)))
    else some res

/-- `encode_block`, on the part of the result that is the block's. -/
def encodeBlock (block : List UInt8) : Option (List Char) :=
  let size := encodedBlockSizes block.length
  encodeDigits size (uint8beTo64 block) (List.replicate size (letter 0))

/-- The loop of `decode_block`, from the last letter to the first. -/
def decodeDigits : List Char → Nat → Nat → Option Nat
  | [], resNum, _ => some resNum
  | l :: rest, resNum, order =>
    let digit := reverseAlphabet l
    if digit < 0 then none
    else
      let product := order * digit.toNat
      let tmp := (resNum + product % 2 ^ 64) % 2 ^ 64
      if tmp < resNum || product / 2 ^ 64 ≠ 0 then none
      else decodeDigits rest tmp (order * alphabetSize % 2 ^ 64)

/-- `decode_block`. -/
def decodeBlock (block : List Char) : Option (List UInt8) :=
  let resSize := decodedBlockSizes block.length
  if resSize ≤ 0 then none
  else
    match decodeDigits block.reverse 0 1 with
    | none => none
    | some resNum =>
      if resSize.toNat < fullBlockSize && 2 ^ (8 * resSize.toNat) ≤ resNum then none
      else some (uint64To8be resNum resSize.toNat)

/-! ## Strings -/

/-- `encode`. -/
def encode (data : List UInt8) : Option (List Char) :=
  mapBlocks encodeBlock fullBlockSize (data.length / fullBlockSize) data

/-- `decode`. -/
def decode (enc : List Char) : Option (List UInt8) :=
  if enc.isEmpty then some []
  else if decodedBlockSizes (enc.length % fullEncodedBlockSize) < 0 then none
  else mapBlocks decodeBlock fullEncodedBlockSize (enc.length / fullEncodedBlockSize) enc

/-- `encode_addr`. -/
def encodeAddr (cnFastHash : List UInt8 → Hash) (tag : UInt64) (data : List UInt8) :
    Option (List Char) :=
  let buf := getVarintData tag ++ data
  encode (buf ++ (cnFastHash buf).toList.take addrChecksumSize)

/-- `decode_addr`: the tag and the data. -/
def decodeAddr (cnFastHash : List UInt8 → Hash) (addr : List Char) :
    Option (UInt64 × List UInt8) :=
  match decode addr with
  | none => none
  | some addrData =>
    if addrData.length ≤ addrChecksumSize then none
    else
      let body := addrData.take (addrData.length - addrChecksumSize)
      let checksum := addrData.drop (addrData.length - addrChecksumSize)
      if (cnFastHash body).toList.take addrChecksumSize ≠ checksum then none
      else
        let (read, tag) := readVarint body
        if read ≤ 0 then none else some (tag, body.drop read.toNat)

/-! ## Blocks are read back -/

theorem reverseAlphabet_letter {d : Nat} (hd : d < 58) : reverseAlphabet (letter d) = d := by
  have hall : ∀ d < 58, reverseAlphabet (letter d) = d := by decide +kernel
  exact hall d hd

theorem decodedBlockSizes_encodedBlockSizes {k : Nat} (hk : k ≤ 8) :
    decodedBlockSizes (encodedBlockSizes k) = k := by
  have hall : ∀ k ≤ 8, decodedBlockSizes (encodedBlockSizes k) = k := by decide
  exact hall k hk

/-- A block has as many letters as its number needs. -/
theorem pow_le_pow_encodedBlockSizes {k : Nat} (hk : k ≤ 8) :
    256 ^ k ≤ 58 ^ encodedBlockSizes k := by
  have hall : ∀ k ≤ 8, 256 ^ k ≤ 58 ^ encodedBlockSizes k := by decide
  exact hall k hk

theorem lt_of_mem_map_toNat (block : List UInt8) : ∀ d ∈ block.map UInt8.toNat, d < 256 := by
  intro d hd
  obtain ⟨byte, _, rfl⟩ := List.mem_map.mp hd
  exact byte.toNat_lt

theorem uint8beTo64_lt (block : List UInt8) : uint8beTo64 block < 256 ^ block.length := by
  have hlt := digitsValue_lt (lt_of_mem_map_toNat block)
  rwa [List.length_map] at hlt

theorem uint64To8be_uint8beTo64 (block : List UInt8) :
    uint64To8be (uint8beTo64 block) block.length = block := by
  have hdigits := fixedDigits_digitsValue (lt_of_mem_map_toNat block)
  rw [List.length_map] at hdigits
  unfold uint64To8be uint8beTo64
  rw [hdigits, List.map_map]
  simp [Function.comp_def]

/-- The loop writes the digits that are left and keeps what stands behind them. -/
theorem encodeDigits_eq {i num : Nat} {res : List Char} (hnum : num < 58 ^ i)
    (hlen : i ≤ res.length) (hzeros : res.take i = List.replicate i (letter 0)) :
    encodeDigits i num res = some ((fixedDigits 58 i num).map letter ++ res.drop i) := by
  induction i generalizing num res with
  | zero =>
    obtain rfl : num = 0 := Nat.lt_one_iff.mp hnum
    rfl
  | succ i ih =>
    unfold encodeDigits
    split
    · have hrest : num / alphabetSize < 58 ^ i := by
        rw [Nat.pow_succ'] at hnum
        exact Nat.div_lt_of_lt_mul hnum
      have hbefore : (res.set i (letter (num % alphabetSize))).take i =
          List.replicate i (letter 0) := by
        have htake := congrArg (List.take i) hzeros
        rw [List.take_take, List.take_replicate] at htake
        rw [List.take_set_of_le (Nat.le_refl i)]
        simpa using htake
      have hbehind : (res.set i (letter (num % alphabetSize))).drop i =
          letter (num % alphabetSize) :: res.drop (i + 1) := by
        rw [List.drop_eq_getElem_cons (by rw [List.length_set]; omega), List.getElem_set_self,
          List.drop_set_of_lt (Nat.lt_succ_self i)]
      rw [ih hrest (by rw [List.length_set]; omega) hbefore, hbehind, fixedDigits]
      simp [alphabetSize]
    · rename_i hzero
      obtain rfl : num = 0 := Nat.eq_zero_of_not_pos hzero
      rw [fixedDigits_zero, List.map_replicate, ← hzeros, List.take_append_drop]

theorem encodeBlock_eq {block : List UInt8} (hlen : block.length ≤ 8) :
    encodeBlock block =
      some ((fixedDigits 58 (encodedBlockSizes block.length) (uint8beTo64 block)).map letter) := by
  have hnum : uint8beTo64 block < 58 ^ encodedBlockSizes block.length :=
    Nat.lt_of_lt_of_le (uint8beTo64_lt block) (pow_le_pow_encodedBlockSizes hlen)
  unfold encodeBlock
  dsimp only
  rw [encodeDigits_eq hnum (by simp) (by simp)]
  simp

/-- The loop adds up the digits, as long as the sum and the orders it needs fit. -/
theorem decodeDigits_eq {ds : List Nat} (hds : ∀ d ∈ ds, d < 58) {resNum order : Nat}
    (horder : ∀ j < ds.length, order * 58 ^ j < 2 ^ 64)
    (hfits : resNum + order * digitsValue 58 ds.reverse < 2 ^ 64) :
    decodeDigits (ds.map letter) resNum order =
      some (resNum + order * digitsValue 58 ds.reverse) := by
  induction ds generalizing resNum order with
  | nil => rfl
  | cons d ds ih =>
    have hd : d < 58 := hds d List.mem_cons_self
    have hsplit : order * digitsValue 58 (d :: ds).reverse =
        order * d + order * 58 * digitsValue 58 ds.reverse := by
      rw [List.reverse_cons, digitsValue_concat]
      ring
    rw [hsplit] at hfits ⊢
    have hproduct : order * d < 2 ^ 64 := by omega
    have hsum : resNum + order * d < 2 ^ 64 := by omega
    have hnext : decodeDigits (ds.map letter) (resNum + order * d) (order * 58 % 2 ^ 64) =
        some (resNum + order * d + order * 58 * digitsValue 58 ds.reverse) := by
      cases ds with
      | nil => rfl
      | cons e ds =>
        have hmore : order * 58 < 2 ^ 64 := by simpa using horder 1 (by simp)
        rw [Nat.mod_eq_of_lt hmore]
        refine ih (fun x hx => hds x (List.mem_cons_of_mem _ hx)) ?_ (by omega)
        intro j hj
        have hj' := horder (j + 1) (Nat.succ_lt_succ hj)
        rwa [Nat.pow_succ', ← Nat.mul_assoc] at hj'
    rw [List.map_cons, decodeDigits, reverseAlphabet_letter hd]
    dsimp only
    rw [if_neg (by omega), Int.toNat_natCast, Nat.mod_eq_of_lt hproduct, Nat.mod_eq_of_lt hsum,
      if_neg (by simpa using hproduct), alphabetSize, hnext, Nat.add_assoc]

/-- `decode_block` undoes `encode_block`. -/
theorem decodeBlock_encodeBlock {block : List UInt8} (hne : block ≠ []) (hlen : block.length ≤ 8) :
    ∃ c, encodeBlock block = some c ∧ c.length = encodedBlockSizes block.length ∧
      decodeBlock c = some block := by
  have hpos : 0 < block.length := List.length_pos_of_ne_nil hne
  have hvalue := uint8beTo64_lt block
  have hword : 256 ^ block.length ≤ 2 ^ 64 := by
    calc 256 ^ block.length ≤ 256 ^ 8 := Nat.pow_le_pow_right (by decide) hlen
      _ = 2 ^ 64 := by decide
  have hsize : encodedBlockSizes block.length ≤ 11 := by
    have hall : ∀ k ≤ 8, encodedBlockSizes k ≤ 11 := by decide
    exact hall _ hlen
  refine ⟨_, encodeBlock_eq hlen, by simp, ?_⟩
  have hdecoded := @decodeDigits_eq
    (fixedDigits 58 (encodedBlockSizes block.length) (uint8beTo64 block)).reverse
    (by
      intro d hd
      exact lt_of_mem_fixedDigits (by decide) (List.mem_reverse.mp hd))
    0 1
    (by
      intro j hj
      rw [List.length_reverse, length_fixedDigits] at hj
      rw [Nat.one_mul]
      calc 58 ^ j ≤ 58 ^ 10 := Nat.pow_le_pow_right (by decide) (by omega)
        _ < 2 ^ 64 := by decide)
    (by
      rw [List.reverse_reverse, digitsValue_fixedDigits, Nat.zero_add, Nat.one_mul]
      have hmod := Nat.mod_le (uint8beTo64 block) (58 ^ encodedBlockSizes block.length)
      omega)
  rw [List.reverse_reverse, digitsValue_fixedDigits, Nat.zero_add, Nat.one_mul,
    Nat.mod_eq_of_lt (Nat.lt_of_lt_of_le hvalue (pow_le_pow_encodedBlockSizes hlen))] at hdecoded
  have hroom : ¬ 2 ^ (8 * block.length) ≤ uint8beTo64 block := by
    rw [Nat.pow_mul]
    exact Nat.not_le.mpr hvalue
  unfold decodeBlock
  dsimp only
  rw [List.length_map, length_fixedDigits, decodedBlockSizes_encodedBlockSizes hlen,
    if_neg (by omega), ← List.map_reverse, hdecoded]
  dsimp only
  rw [Int.toNat_natCast, if_neg (by simp [hroom]), uint64To8be_uint8beTo64]

theorem blockCode : BlockCode encodeBlock decodeBlock fullBlockSize encodedBlockSizes where
  pos := by decide
  decode_encode _ hne hlen := decodeBlock_encodeBlock hne hlen
  width_zero := rfl
  width_pos := by
    have hall : ∀ k ≤ 8, 0 < k → 0 < encodedBlockSizes k := by decide
    intro k hpos hk
    exact hall k hk hpos
  width_lt := by
    have hall : ∀ k < 8, encodedBlockSizes k < encodedBlockSizes 8 := by decide
    exact hall

/-! ## Strings are read back -/

/-- `decode` undoes `encode`. -/
theorem decode_encode (data : List UInt8) :
    ∃ enc, encode data = some enc ∧ decode enc = some data := by
  obtain ⟨enc, hencode, hlen, hmod, hdecode⟩ := blockCode.mapBlocks_decode_encode data
  refine ⟨enc, hencode, ?_⟩
  have hshort : data.length % fullBlockSize ≤ 8 := Nat.le_of_lt (Nat.mod_lt _ (by decide))
  have hwidth : encodedBlockSizes fullBlockSize = fullEncodedBlockSize := rfl
  rw [hwidth] at hmod hdecode
  unfold decode
  split
  · rename_i hempty
    rw [List.isEmpty_iff] at hempty
    subst hempty
    exact hdecode
  · rw [hmod, decodedBlockSizes_encodedBlockSizes hshort, if_neg (by omega)]
    exact hdecode

/-- The first letter is the leading digit of the first block. -/
theorem head?_encode {data : List UInt8} (hlen : 8 ≤ data.length) {enc : List Char}
    (h : encode data = some enc) :
    enc.head? = some (letter (uint8beTo64 (data.take 8) / 58 ^ 10 % 58)) := by
  obtain ⟨k, hk⟩ : ∃ k, data.length / fullBlockSize = k + 1 :=
    Nat.exists_eq_add_one.mpr (Nat.div_pos hlen (by decide))
  unfold encode at h
  rw [hk] at h
  obtain ⟨first, others, hfirst, rfl⟩ := mapBlocks_first h
  have hfull : (data.take 8).length = 8 := by
    rw [List.length_take]
    omega
  rw [show fullBlockSize = 8 from rfl, encodeBlock_eq (Nat.le_of_eq hfull), hfull,
    show encodedBlockSizes 8 = 10 + 1 from rfl, fixedDigits_succ] at hfirst
  obtain rfl := Option.some.inj hfirst
  rfl

/-- `decode_addr` undoes `encode_addr`, whatever the hash. -/
theorem decodeAddr_encodeAddr (cnFastHash : List UInt8 → Hash) (tag : UInt64)
    (data : List UInt8) :
    ∃ addr, encodeAddr cnFastHash tag data = some addr ∧
      decodeAddr cnFastHash addr = some (tag, data) := by
  obtain ⟨addr, hencode, hdecode⟩ := decode_encode (getVarintData tag ++ data ++
    (cnFastHash (getVarintData tag ++ data)).toList.take addrChecksumSize)
  refine ⟨addr, hencode, ?_⟩
  have hpos := List.length_pos_of_ne_nil (getVarintData_ne_nil tag)
  have hread := readVarint_getVarintData tag data
  generalize hchecksum : (cnFastHash (getVarintData tag ++ data)).toList.take addrChecksumSize =
    checksum at hdecode
  have hfour : checksum.length = addrChecksumSize := by
    rw [← hchecksum, List.length_take, Vector.length_toList]
    rfl
  have hlen : (getVarintData tag ++ data ++ checksum).length - addrChecksumSize =
      (getVarintData tag ++ data).length := by
    rw [List.length_append, hfour, Nat.add_sub_cancel]
  unfold decodeAddr
  rw [hdecode]
  dsimp only
  rw [if_neg (by rw [List.length_append, List.length_append, hfour]; omega), hlen, List.take_left, List.drop_left,
    hchecksum, if_neg (fun h => h rfl), hread]
  dsimp only
  rw [if_neg (by omega), Int.toNat_natCast, List.drop_left]

end RandomLite.Monero.Base58
