-- SUMMARY: Addresses as strings (`cryptonote_basic/cryptonote_basic_impl.cpp`): every address is read back on its own network and on no other, and testnet addresses begin with `X`.
import RandomLite.Monero.Base58

/-!
# Addresses

`get_account_address_as_str`, `get_account_integrated_address_as_str` and
`get_account_address_from_str` with the prefixes of the networks. The hash of the
checksum and the test of a public key are parameters.
-/

namespace RandomLite.Monero

/-! ## Networks -/

/-- `network_type`. -/
inductive NetworkType where
  | mainnet
  | testnet
  | stagenet
  | fakechain
  | undefined
  deriving DecidableEq, Repr

/-- The address prefixes of a `config_t`. -/
structure AddressPrefixes where
  publicAddress : UInt64
  publicIntegratedAddress : UInt64
  publicSubaddress : UInt64
  deriving DecidableEq, Repr

/-- All prefixes of a network. -/
def AddressPrefixes.all (config : AddressPrefixes) : List UInt64 :=
  [config.publicAddress, config.publicIntegratedAddress, config.publicSubaddress]

/-- `get_config`: `none` where it throws. -/
def getConfig : NetworkType → Option AddressPrefixes
  | .mainnet => some ⟨18, 19, 42⟩
  | .testnet => some ⟨0x1b4, 0x1b5, 0x1b6⟩
  | .stagenet => some ⟨24, 25, 36⟩
  | .fakechain => some ⟨18, 19, 42⟩
  | .undefined => none

/-- The networks that addresses are made for. -/
def publicNetworks : List NetworkType := [.mainnet, .testnet, .stagenet]

/-! ## Addresses as strings -/

abbrev Hash8 := Vector UInt8 8

/-- `integrated_address`. -/
structure IntegratedAddress where
  adr : AccountPublicAddress
  paymentId : Hash8
  deriving DecidableEq, Repr

/-- The blob of an `account_public_address`. -/
def AccountPublicAddress.toBlob (adr : AccountPublicAddress) : List UInt8 :=
  adr.spendPublicKey.toList ++ adr.viewPublicKey.toList

/-- The blob of an `integrated_address`. -/
def IntegratedAddress.toBlob (iadr : IntegratedAddress) : List UInt8 :=
  iadr.adr.toBlob ++ iadr.paymentId.toList

def AccountPublicAddress.serialize : ByteReader AccountPublicAddress := do
  let spendPublicKey ← ByteReader.array 32
  let viewPublicKey ← ByteReader.array 32
  return ⟨spendPublicKey, viewPublicKey⟩

def IntegratedAddress.serialize : ByteReader IntegratedAddress := do
  let adr ← AccountPublicAddress.serialize
  let paymentId ← ByteReader.array 8
  return ⟨adr, paymentId⟩

/-- `get_account_address_as_str`. -/
def getAccountAddressAsStr (cnFastHash : List UInt8 → Hash) (nettype : NetworkType)
    (subaddress : Bool) (adr : AccountPublicAddress) : Option (List Char) :=
  match getConfig nettype with
  | none => none
  | some config =>
    let addressPrefix := if subaddress then config.publicSubaddress else config.publicAddress
    Base58.encodeAddr cnFastHash addressPrefix adr.toBlob

/-- `get_account_integrated_address_as_str`. -/
def getAccountIntegratedAddressAsStr (cnFastHash : List UInt8 → Hash) (nettype : NetworkType)
    (adr : AccountPublicAddress) (paymentId : Hash8) : Option (List Char) :=
  match getConfig nettype with
  | none => none
  | some config =>
    Base58.encodeAddr cnFastHash config.publicIntegratedAddress
      (IntegratedAddress.toBlob ⟨adr, paymentId⟩)

/-- `address_parse_info`. -/
structure AddressParseInfo where
  address : AccountPublicAddress
  isSubaddress : Bool
  hasPaymentId : Bool
  paymentId : Hash8
  deriving DecidableEq, Repr

/-- `get_account_address_from_str` on what the caller's `info` holds: `none` where it
    returns false or throws. -/
def getAccountAddressFromStr (cnFastHash : List UInt8 → Hash) (checkKey : PublicKey → Bool)
    (info : AddressParseInfo) (nettype : NetworkType) (str : List Char) :
    Option AddressParseInfo :=
  match getConfig nettype, Base58.decodeAddr cnFastHash str with
  | some config, some (addressPrefix, data) =>
    let parsed :=
      if config.publicIntegratedAddress = addressPrefix then
        (IntegratedAddress.serialize.parse data).map fun iadr =>
          { info with
            isSubaddress := false
            hasPaymentId := true
            address := iadr.adr
            paymentId := iadr.paymentId }
      else if config.publicAddress = addressPrefix then
        (AccountPublicAddress.serialize.parse data).map fun adr =>
          { info with isSubaddress := false, hasPaymentId := false, address := adr }
      else if config.publicSubaddress = addressPrefix then
        (AccountPublicAddress.serialize.parse data).map fun adr =>
          { info with isSubaddress := true, hasPaymentId := false, address := adr }
      else none
    match parsed with
    | none => none
    | some info =>
      if !checkKey info.address.spendPublicKey || !checkKey info.address.viewPublicKey then none
      else some info
  | _, _ => none

/-! ## Kinds of addresses -/

/-- The kinds of addresses, an integrated one with its payment id. -/
inductive AddressKind where
  | standard
  | subaddress
  | integrated (paymentId : Hash8)
  deriving DecidableEq, Repr

namespace AddressKind

/-- The string of an address of a kind. -/
def addressAsStr (kind : AddressKind) (cnFastHash : List UInt8 → Hash) (nettype : NetworkType)
    (adr : AccountPublicAddress) : Option (List Char) :=
  match kind with
  | standard => getAccountAddressAsStr cnFastHash nettype false adr
  | subaddress => getAccountAddressAsStr cnFastHash nettype true adr
  | integrated paymentId => getAccountIntegratedAddressAsStr cnFastHash nettype adr paymentId

/-- What a string of a kind is read as: the payment id is the caller's unless the address
    has one. -/
def parseInfo (kind : AddressKind) (adr : AccountPublicAddress) (info : AddressParseInfo) :
    AddressParseInfo where
  address := adr
  isSubaddress := kind = .subaddress
  hasPaymentId := kind ≠ .standard ∧ kind ≠ .subaddress
  paymentId := match kind with
    | integrated paymentId => paymentId
    | _ => info.paymentId

/-- The prefix of a kind. -/
def addressPrefix (kind : AddressKind) (config : AddressPrefixes) : UInt64 :=
  match kind with
  | standard => config.publicAddress
  | subaddress => config.publicSubaddress
  | integrated _ => config.publicIntegratedAddress

/-- The blob behind the prefix. -/
def blob (kind : AddressKind) (adr : AccountPublicAddress) : List UInt8 :=
  match kind with
  | integrated paymentId => IntegratedAddress.toBlob ⟨adr, paymentId⟩
  | _ => adr.toBlob

theorem addressAsStr_eq (kind : AddressKind) (cnFastHash : List UInt8 → Hash)
    {nettype : NetworkType} {config : AddressPrefixes} (hconfig : getConfig nettype = some config)
    (adr : AccountPublicAddress) :
    kind.addressAsStr cnFastHash nettype adr =
      Base58.encodeAddr cnFastHash (kind.addressPrefix config) (kind.blob adr) := by
  cases kind <;>
    simp [addressAsStr, getAccountAddressAsStr, getAccountIntegratedAddressAsStr, hconfig,
      addressPrefix, blob]

end AddressKind

/-! ## Blobs are read back -/

theorem AccountPublicAddress.serialize_reads (adr : AccountPublicAddress) :
    AccountPublicAddress.serialize.Reads adr.toBlob adr := by
  unfold toBlob serialize
  have hview := (ByteReader.Reads.array adr.viewPublicKey).bind_pure
    (f := fun viewPublicKey => (⟨adr.spendPublicKey, viewPublicKey⟩ : AccountPublicAddress))
  exact (ByteReader.Reads.array adr.spendPublicKey).bind hview

theorem IntegratedAddress.serialize_reads (iadr : IntegratedAddress) :
    IntegratedAddress.serialize.Reads iadr.toBlob iadr := by
  unfold toBlob serialize
  have hpaymentId := (ByteReader.Reads.array iadr.paymentId).bind_pure
    (f := fun paymentId => (⟨iadr.adr, paymentId⟩ : IntegratedAddress))
  exact iadr.adr.serialize_reads.bind hpaymentId

/-! ## Strings on their own network and on others -/

/-- A string whose prefix is none of the network's is refused. -/
theorem getAccountAddressFromStr_of_other {cnFastHash : List UInt8 → Hash}
    {checkKey : PublicKey → Bool} {nettype : NetworkType} {config : AddressPrefixes}
    (hconfig : getConfig nettype = some config) {str : List Char} {tag : UInt64}
    {data : List UInt8} (hstr : Base58.decodeAddr cnFastHash str = some (tag, data))
    (hother : tag ∉ config.all) (info : AddressParseInfo) :
    getAccountAddressFromStr cnFastHash checkKey info nettype str = none := by
  have hnone : ∀ p ∈ config.all, p ≠ tag := fun p hp heq => hother (heq ▸ hp)
  have hstandard := hnone config.publicAddress (by simp [AddressPrefixes.all])
  have hintegrated := hnone config.publicIntegratedAddress (by simp [AddressPrefixes.all])
  have hsubaddress := hnone config.publicSubaddress (by simp [AddressPrefixes.all])
  simp [getAccountAddressFromStr, hconfig, hstr, hintegrated, hstandard, hsubaddress]

/-- A string of a kind is read back on a network with its prefixes. -/
theorem getAccountAddressFromStr_of_kind {cnFastHash : List UInt8 → Hash}
    {checkKey : PublicKey → Bool} {nettype : NetworkType} {config : AddressPrefixes}
    (hconfig : getConfig nettype = some config) (hdistinct : config.all.Nodup)
    {adr : AccountPublicAddress} (hspend : checkKey adr.spendPublicKey = true)
    (hview : checkKey adr.viewPublicKey = true) (kind : AddressKind) {str : List Char}
    (hstr : Base58.decodeAddr cnFastHash str = some (kind.addressPrefix config, kind.blob adr))
    (info : AddressParseInfo) :
    getAccountAddressFromStr cnFastHash checkKey info nettype str =
      some (kind.parseInfo adr info) := by
  have hintegrated : config.publicIntegratedAddress ≠ config.publicAddress := by
    rintro heq
    simp [AddressPrefixes.all, heq] at hdistinct
  have hsubaddress : config.publicIntegratedAddress ≠ config.publicSubaddress := by
    rintro heq
    simp [AddressPrefixes.all, heq] at hdistinct
  have hboth : config.publicAddress ≠ config.publicSubaddress := by
    rintro heq
    simp [AddressPrefixes.all, heq] at hdistinct
  unfold getAccountAddressFromStr
  rw [hconfig, hstr]
  cases kind with
  | standard =>
    have hparse := adr.serialize_reads.parse_eq
    simp [AddressKind.addressPrefix, AddressKind.blob, AddressKind.parseInfo, hintegrated, hparse,
      hspend, hview]
  | subaddress =>
    have hparse := adr.serialize_reads.parse_eq
    simp [AddressKind.addressPrefix, AddressKind.blob, AddressKind.parseInfo, hsubaddress, hboth,
      hparse, hspend, hview]
  | integrated paymentId =>
    have hparse := (IntegratedAddress.serialize_reads ⟨adr, paymentId⟩).parse_eq
    simp [AddressKind.addressPrefix, AddressKind.blob, AddressKind.parseInfo, hparse, hspend,
      hview]

/-! ## The first letter -/

/-- The first letter of a string whose first eight bytes begin with `front` and go on with
    zeros. -/
def firstLetter (front : List UInt8) : Char :=
  Base58.letter (Base58.uint8beTo64 front * 256 ^ (8 - front.length) / 58 ^ 10 % 58)

/-- The bytes decide the first letter: it is the same when they are followed by ones. -/
def FixesFirstLetter (front : List UInt8) : Prop :=
  front.length ≤ 8 ∧
    ((Base58.uint8beTo64 front + 1) * 256 ^ (8 - front.length) - 1) / 58 ^ 10 =
      Base58.uint8beTo64 front * 256 ^ (8 - front.length) / 58 ^ 10

instance (front : List UInt8) : Decidable (FixesFirstLetter front) := by
  unfold FixesFirstLetter
  infer_instance

/-- Whatever follows such bytes. -/
theorem head?_encode_of_fixes {front rest : List UInt8} (h : FixesFirstLetter front)
    (hlen : 8 ≤ (front ++ rest).length) {enc : List Char}
    (henc : Base58.encode (front ++ rest) = some enc) : enc.head? = some (firstLetter front) := by
  obtain ⟨hshort, hsame⟩ := h
  have htake : (front ++ rest).take 8 = front ++ rest.take (8 - front.length) := by
    rw [List.take_append, List.take_of_length_le hshort]
  have hrest : (rest.take (8 - front.length)).length = 8 - front.length := by
    rw [List.length_append] at hlen
    rw [List.length_take]
    omega
  have htail := Base58.uint8beTo64_lt (rest.take (8 - front.length))
  rw [hrest] at htail
  have hvalue : Base58.uint8beTo64 ((front ++ rest).take 8) =
      Base58.uint8beTo64 front * 256 ^ (8 - front.length) +
        Base58.uint8beTo64 (rest.take (8 - front.length)) := by
    unfold Base58.uint8beTo64
    rw [htake, List.map_append, digitsValue_append, List.length_map, hrest]
  have hsucc : (Base58.uint8beTo64 front + 1) * 256 ^ (8 - front.length) =
      Base58.uint8beTo64 front * 256 ^ (8 - front.length) + 256 ^ (8 - front.length) := by
    ring
  -- The value lies between those with zeros and with ones, which have the same leading digit.
  have hdigit : Base58.uint8beTo64 ((front ++ rest).take 8) / 58 ^ 10 =
      Base58.uint8beTo64 front * 256 ^ (8 - front.length) / 58 ^ 10 := by
    rw [hvalue]
    apply Nat.le_antisymm
    · rw [← hsame, hsucc]
      exact Nat.div_le_div_right (by omega)
    · exact Nat.div_le_div_right (Nat.le_add_right _ _)
  rw [Base58.head?_encode hlen henc, hdigit]
  rfl

namespace AddressKind

theorem blob_length (kind : AddressKind) (adr : AccountPublicAddress) :
    64 ≤ (kind.blob adr).length := by
  cases kind <;> simp [blob, IntegratedAddress.toBlob, AccountPublicAddress.toBlob]

/-- The first letter of an address is that of its prefix. -/
theorem head?_addressAsStr {kind : AddressKind} {cnFastHash : List UInt8 → Hash}
    {nettype : NetworkType} {config : AddressPrefixes} (hconfig : getConfig nettype = some config)
    (hfixes : FixesFirstLetter (getVarintData (kind.addressPrefix config)))
    {adr : AccountPublicAddress} {str : List Char}
    (hstr : kind.addressAsStr cnFastHash nettype adr = some str) :
    str.head? = some (firstLetter (getVarintData (kind.addressPrefix config))) := by
  have hblob := kind.blob_length adr
  rw [kind.addressAsStr_eq cnFastHash hconfig, Base58.encodeAddr, List.append_assoc] at hstr
  refine head?_encode_of_fixes hfixes ?_ hstr
  rw [List.length_append, List.length_append]
  omega

end AddressKind

/-! ## Every address on every network -/

/-- The prefixes of a network are pairwise different. -/
theorem getConfig_nodup {nettype : NetworkType} {config : AddressPrefixes}
    (h : getConfig nettype = some config) : config.all.Nodup := by
  cases nettype <;> cases h <;> decide

/-- No prefix serves two public networks. -/
theorem getConfig_apart {nettype other : NetworkType} (hnettype : nettype ∈ publicNetworks)
    (hother : other ∈ publicNetworks) (hne : other ≠ nettype) {config config' : AddressPrefixes}
    (h : getConfig nettype = some config) (h' : getConfig other = some config') :
    ∀ tag ∈ config.all, tag ∉ config'.all := by
  have hfake : NetworkType.fakechain ∉ publicNetworks := by decide
  have hall : (config.all.all fun tag => !config'.all.contains tag) = true := by
    cases nettype <;> cases h <;> cases other <;> cases h' <;>
      first
      | exact absurd rfl hne
      | exact absurd hnettype hfake
      | exact absurd hother hfake
      | rfl
  intro tag htag hmem
  have hnot := List.all_eq_true.mp hall tag htag
  rw [List.contains_iff_mem.mpr hmem] at hnot
  cases hnot

/-- Every prefix decides the first letter, and it is `X` on testnet alone. -/
theorem getConfig_firstLetter {nettype : NetworkType} {config : AddressPrefixes}
    (h : getConfig nettype = some config) :
    ∀ tag ∈ config.all, FixesFirstLetter (getVarintData tag) ∧
      (firstLetter (getVarintData tag) = 'X' ↔ nettype = .testnet) := by
  have hall : (config.all.all fun tag => decide (FixesFirstLetter (getVarintData tag) ∧
      (firstLetter (getVarintData tag) = 'X' ↔ nettype = .testnet))) = true := by
    cases nettype <;> cases h <;> decide +kernel
  intro tag htag
  exact of_decide_eq_true (List.all_eq_true.mp hall tag htag)

theorem AddressKind.addressPrefix_mem (kind : AddressKind) (config : AddressPrefixes) :
    kind.addressPrefix config ∈ config.all := by
  cases kind <;> simp [addressPrefix, AddressPrefixes.all]

/-- Every address of every kind has a string on every public network. On that network the
    string is read as the same address and kind, on the other public networks it is
    refused; and it begins with `X` exactly on testnet. -/
theorem address_round_trip (cnFastHash : List UInt8 → Hash) (checkKey : PublicKey → Bool)
    {nettype : NetworkType} (hnettype : nettype ∈ publicNetworks) (kind : AddressKind)
    {adr : AccountPublicAddress} (hspend : checkKey adr.spendPublicKey = true)
    (hview : checkKey adr.viewPublicKey = true) :
    ∃ str, kind.addressAsStr cnFastHash nettype adr = some str ∧
      (∀ info, getAccountAddressFromStr cnFastHash checkKey info nettype str =
        some (kind.parseInfo adr info)) ∧
      (∀ other ∈ publicNetworks, other ≠ nettype → ∀ info,
        getAccountAddressFromStr cnFastHash checkKey info other str = none) ∧
      (str.head? = some 'X' ↔ nettype = .testnet) := by
  have hdefined : ∀ n ∈ publicNetworks, ∃ config, getConfig n = some config := by
    intro n hn
    cases n with
    | mainnet => exact ⟨_, rfl⟩
    | testnet => exact ⟨_, rfl⟩
    | stagenet => exact ⟨_, rfl⟩
    | fakechain => exact ⟨_, rfl⟩
    | undefined => exact absurd hn (by decide)
  obtain ⟨config, hconfig⟩ := hdefined nettype hnettype
  obtain ⟨str, hencode, hdecode⟩ :=
    Base58.decodeAddr_encodeAddr cnFastHash (kind.addressPrefix config) (kind.blob adr)
  have hstr : kind.addressAsStr cnFastHash nettype adr = some str :=
    (kind.addressAsStr_eq cnFastHash hconfig adr).trans hencode
  have hmem := kind.addressPrefix_mem config
  obtain ⟨hfixes, hletter⟩ := getConfig_firstLetter hconfig _ hmem
  refine ⟨str, hstr, ?_, ?_, ?_⟩
  · intro info
    exact getAccountAddressFromStr_of_kind hconfig (getConfig_nodup hconfig) hspend hview kind
      hdecode info
  · intro other hother hne info
    obtain ⟨config', hconfig'⟩ := hdefined other hother
    have hapart := getConfig_apart hnettype hother hne hconfig hconfig' _ hmem
    exact getAccountAddressFromStr_of_other hconfig' hdecode hapart info
  · rw [AddressKind.head?_addressAsStr hconfig hfixes hstr, Option.some_inj]
    exact hletter

/-- A subaddress on testnet. -/
theorem address_round_trip_sample :
    ∃ str, getAccountAddressAsStr (fun _ => nullHash) .testnet true ⟨nullHash, nullHash⟩ = some str ∧
      str.head? = some 'X' := by
  obtain ⟨str, hstr, _, _, hletter⟩ := @address_round_trip (fun _ => nullHash) (fun _ => true)
    .testnet (by decide) .subaddress ⟨nullHash, nullHash⟩ rfl rfl
  exact ⟨str, hstr, hletter.mpr rfl⟩

end RandomLite.Monero
