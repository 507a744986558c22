-- SUMMARY: Transaction ids (`cryptonote_basic/cryptonote_format_utils.cpp`): what two transactions with one id have in common.
import RandomLite.Monero.CanonicalFormat
import RandomLite.Monero.TreeHash

/-!
# Transaction ids

A transaction of version 1 is hashed as a whole. One of version 2 is hashed in three parts,
so that a node without the prunable part can check the rest: its id is the hash of the three
hashes.
-/

namespace RandomLite.Monero

variable {cnFastHash : List UInt8 → Hash} {xs ys : List (List UInt8)}

theorem Collision.mono {xs' ys' : List (List UInt8)} (h : Collision cnFastHash xs ys)
    (hx : xs ⊆ xs') (hy : ys ⊆ ys') : Collision cnFastHash xs' ys' := by
  obtain ⟨x, hx', y, hy', hne, heq⟩ := h
  exact ⟨x, hx hx', y, hy hy', hne, heq⟩

theorem eq_or_collision {x y : List UInt8} (hx : x ∈ xs) (hy : y ∈ ys)
    (heq : cnFastHash x = cnFastHash y) : x = y ∨ Collision cnFastHash xs ys := by
  by_cases hsame : x = y
  · exact .inl hsame
  · exact .inr ⟨x, hx, y, hy, hsame, heq⟩

namespace Format

open Written (all)

variable (cnFastHash : List UInt8 → Hash) (scalarmultInvEight : ScalarmultInvEight)

/-! ## Parts -/

/-- `tx_to_blob`. -/
def txToBlob (tx : Transaction RctSig) : List UInt8 := tx.toBlob (ringCt scalarmultInvEight)

/-- `prefix_size`, an `unsigned int`, as saving leaves it behind in a transaction that has not
    been saved before. -/
def Transaction.prefixSize (tx : Transaction RctSig) : Nat :=
  let (front, ok) := tx.toTransactionPrefix.save
  if ok then front.length % 2 ^ 32 else 0

/-- `unprunable_size`, an `unsigned int`, as saving leaves it behind: where saving stops before,
    it is zero. -/
def Transaction.unprunableSize (tx : Transaction RctSig) : Nat :=
  let (front, ok) := tx.toTransactionPrefix.save
  if !ok then 0
  else if tx.version = 1 then front.length % 2 ^ 32
  else if tx.vin.isEmpty then 0
  else
    let (base, ok) := tx.rctSignatures.saveBase tx.vin.length tx.vout.length
    if ok then (front.length + base.length) % 2 ^ 32 else 0

/-- `get_transaction_prefix_hash`. -/
def getTransactionPrefixHash (tx : TransactionPrefix) : Hash := cnFastHash tx.save.1

/-- `calculate_transaction_prunable_hash` of a transaction and its blob. -/
def calculateTransactionPrunableHash (tx : Transaction RctSig) (blob : List UInt8) : Option Hash :=
  if tx.version = 1 then none
  else if tx.unprunableSize ≠ 0 then
    if blob.length < tx.unprunableSize then none
    else if tx.version = 2 then some (cnFastHash (blob.drop tx.unprunableSize))
    else none
  else
    let (bytes, ok) := tx.rctSignatures.p.save tx.rctSignatures.type tx.vin.length tx.vout.length
      tx.mixin
    if ok then some (cnFastHash bytes) else none

/-- The bytes between the prefix and the prunable part. -/
def Transaction.baseBytes (tx : Transaction RctSig) (blob : List UInt8) : List UInt8 :=
  (blob.drop tx.prefixSize).take (tx.unprunableSize - tx.prefixSize)

def threeHashes (a b c : Hash) : List UInt8 := a.toList ++ (b.toList ++ c.toList)

/-- The third of the three hashes. -/
def thirdHash (tx : Transaction RctSig) (blob : List UInt8) : Option Hash :=
  if tx.rctSignatures.type = rctTypeNull then some nullHash
  else calculateTransactionPrunableHash cnFastHash tx blob

/-- `calculate_transaction_hash`. -/
def calculateTransactionHash (tx : Transaction RctSig) : Option Hash :=
  if tx.pruned then none
  else if tx.version = 1 then some (cnFastHash (txToBlob scalarmultInvEight tx))
  else
    let blob := txToBlob scalarmultInvEight tx
    if tx.prefixSize ≤ tx.unprunableSize ∧ tx.unprunableSize ≤ blob.length then
      (thirdHash cnFastHash tx blob).map fun prunable =>
        cnFastHash (threeHashes (getTransactionPrefixHash cnFastHash tx.toTransactionPrefix)
          (cnFastHash (tx.baseBytes blob)) prunable)
    else none

/-- The byte strings that are hashed for the id of a transaction. -/
def Transaction.hashInputs (tx : Transaction RctSig) : List (List UInt8) :=
  let blob := txToBlob scalarmultInvEight tx
  if tx.version = 1 then [blob]
  else
    [tx.toTransactionPrefix.save.1, tx.baseBytes blob, blob.drop tx.unprunableSize] ++
      ((thirdHash cnFastHash tx blob).toList.map fun prunable =>
        threeHashes (getTransactionPrefixHash cnFastHash tx.toTransactionPrefix)
          (cnFastHash (tx.baseBytes blob)) prunable)

/-! ## What an id binds -/

variable {cnFastHash scalarmultInvEight} {tx tx' : Transaction RctSig}

theorem threeHashes_inj {a b c a' b' c' : Hash} (h : threeHashes a b c = threeHashes a' b' c') :
    a = a' ∧ b = b' ∧ c = c' := by
  obtain ⟨ha, hrest⟩ := List.append_inj h (by simp)
  obtain ⟨hb, hc⟩ := List.append_inj hrest (by simp)
  exact ⟨Vector.toList_inj.mp ha, Vector.toList_inj.mp hb, Vector.toList_inj.mp hc⟩

/-- The parts of a transaction that is saved whole. -/
structure Transaction.InParts (tx : Transaction RctSig) (blob p b q : List UInt8) : Prop where
  front : tx.toTransactionPrefix.save = all p
  base : tx.rctSignatures.saveBase tx.vin.length tx.vout.length = all b
  prunable : tx.rctSignatures.savePrunable tx.toTransactionPrefix false = all q
  blob_eq : blob = p ++ (b ++ q)

theorem Transaction.saved_front (hsaved : (tx.save (ringCt scalarmultInvEight)).2 = true) :
    tx.toTransactionPrefix.save = all tx.toTransactionPrefix.save.1 := by
  by_cases hok : tx.toTransactionPrefix.save.2 = true
  · exact Prod.ext rfl hok
  · unfold save at hsaved
    simp [hok] at hsaved

theorem Transaction.exists_parts (hversion : tx.version = 2) (hvin : tx.vin ≠ [])
    (hpruned : tx.pruned = false) (hsaved : (tx.save (ringCt scalarmultInvEight)).2 = true) :
    ∃ p b q, tx.InParts (txToBlob scalarmultInvEight tx) p b q := by
  have hone : tx.version ≠ 1 := by rw [hversion]; decide
  have hfront := Transaction.saved_front hsaved
  have hall := Transaction.save_ringCt (ringCt scalarmultInvEight) hfront hone hvin
  rw [hpruned] at hall
  have hblob : tx.save (ringCt scalarmultInvEight) = all (txToBlob scalarmultInvEight tx) :=
    Prod.ext rfl hsaved
  rw [hall] at hblob
  obtain ⟨p, s, hp, hs, heq⟩ := Written.andThen_eq_all_iff.mp hblob
  obtain ⟨b, q, hb, hq, rfl⟩ := Written.andThen_eq_all_iff.mp hs
  exact ⟨p, b, q, hfront.trans hp, hb, hq, heq⟩

namespace Transaction.InParts

variable {blob p b q : List UInt8}

theorem length_eq (h : tx.InParts blob p b q) :
    blob.length = p.length + (b.length + q.length) := by
  rw [h.blob_eq, List.length_append, List.length_append]

theorem prefixSize (h : tx.InParts blob p b q) (hsize : blob.length < 2 ^ 32) :
    tx.prefixSize = p.length := by
  have hlen := h.length_eq
  unfold Transaction.prefixSize
  rw [h.front]
  exact Nat.mod_eq_of_lt (by omega)

theorem unprunableSize (h : tx.InParts blob p b q) (hsize : blob.length < 2 ^ 32)
    (hversion : tx.version = 2) (hvin : tx.vin ≠ []) :
    tx.unprunableSize = p.length + b.length := by
  have hlen := h.length_eq
  unfold Transaction.unprunableSize
  rw [h.front, h.base]
  simp only [all, hversion, List.isEmpty_iff, hvin, Bool.not_true, Bool.false_eq_true, if_false,
    if_true, (by decide : ¬ (2 : UInt64) = 1)]
  exact Nat.mod_eq_of_lt (by omega)

theorem baseBytes (h : tx.InParts blob p b q) (hsize : blob.length < 2 ^ 32)
    (hversion : tx.version = 2) (hvin : tx.vin ≠ []) : tx.baseBytes blob = b := by
  rw [Transaction.baseBytes, h.prefixSize hsize, h.unprunableSize hsize hversion hvin, h.blob_eq,
    List.drop_left, Nat.add_sub_cancel_left, List.take_left]

theorem drop_unprunableSize (h : tx.InParts blob p b q) (hsize : blob.length < 2 ^ 32)
    (hversion : tx.version = 2) (hvin : tx.vin ≠ []) : blob.drop tx.unprunableSize = q := by
  rw [h.unprunableSize hsize hversion hvin, h.blob_eq, ← List.append_assoc, ← List.length_append,
    List.drop_left]

/-- The base begins with the type. -/
theorem base_head (h : tx.InParts blob p b q) : b.head? = some tx.rctSignatures.type := by
  obtain ⟨r, s, hr, -, heq⟩ := Written.andThen_eq_all_iff.mp h.base
  rw [heq, ← (Prod.mk.inj hr).1]
  rfl

theorem thirdHash_eq (cnFastHash : List UInt8 → Hash) (h : tx.InParts blob p b q)
    (hsize : blob.length < 2 ^ 32) (hversion : tx.version = 2) (hvin : tx.vin ≠ []) :
    thirdHash cnFastHash tx blob =
      some (if tx.rctSignatures.type = rctTypeNull then nullHash else cnFastHash q) := by
  unfold thirdHash
  split
  · rfl
  · have hbytes := h.unprunableSize hsize hversion hvin
    have hbase : b ≠ [] := by
      rintro rfl
      cases h.base_head
    have hpos := List.length_pos_of_ne_nil hbase
    have hlen : ¬ blob.length < tx.unprunableSize := by
      rw [hbytes, h.length_eq]
      omega
    have hnonzero : tx.unprunableSize ≠ 0 := by omega
    unfold calculateTransactionPrunableHash
    rw [if_neg (by rw [hversion]; decide), if_pos hnonzero, if_neg hlen, if_pos hversion,
      h.drop_unprunableSize hsize hversion hvin]

/-- Without signatures there is nothing to prune. -/
theorem prunable_nil (h : tx.InParts blob p b q)
    (hnull : tx.rctSignatures.type = rctTypeNull) : q = [] := by
  have hq := h.prunable
  unfold RctSig.savePrunable at hq
  rw [if_neg (by simp [hnull])] at hq
  exact (Prod.mk.inj hq).1.symm

end Transaction.InParts

theorem Transaction.saved_version (hsaved : (tx.save (ringCt scalarmultInvEight)).2 = true) :
    tx.version = 1 ∨ tx.version = 2 := by
  unfold save TransactionPrefix.save at hsaved
  by_cases hbad : (tx.version = 0 || currentTransactionVersion < tx.version) = true
  · simp [hbad] at hsaved
  · simp only [Bool.or_eq_true, decide_eq_true_eq, not_or, UInt64.not_lt] at hbad
    obtain ⟨hzero, hle⟩ := hbad
    rw [UInt64.le_iff_toNat_le] at hle
    have hne : tx.version.toNat ≠ 0 := fun h => hzero (UInt64.toNat_inj.mp h)
    change tx.version.toNat ≤ 2 at hle
    rcases (by omega : tx.version.toNat = 1 ∨ tx.version.toNat = 2) with h | h
    · exact .inl (UInt64.toNat_inj.mp h)
    · exact .inr (UInt64.toNat_inj.mp h)

/-- A transaction of version 2 without inputs has no id. -/
theorem calculateTransactionHash_inputless
    (hsize : (txToBlob scalarmultInvEight tx).length < 2 ^ 32) (hversion : tx.version = 2)
    (hvin : tx.vin = []) :
    calculateTransactionHash cnFastHash scalarmultInvEight tx = none := by
  have hone : tx.version ≠ 1 := by rw [hversion]; decide
  have hfront := TransactionPrefix.save_eq_all hversion
  have hsome : tx.toTransactionPrefix.save.1 ≠ [] := by
    unfold TransactionPrefix.save
    split
    · exact getVarintData_ne_nil _
    · exact fun hnil => getVarintData_ne_nil _ (List.append_eq_nil_iff.mp hnil).1
  have hpos := List.length_pos_of_ne_nil hsome
  have hsave := Transaction.save_inputless (ringCt scalarmultInvEight) hfront hone hvin
  have hblob : txToBlob scalarmultInvEight tx = tx.toTransactionPrefix.save.1 := by
    rw [txToBlob, Transaction.toBlob, hsave]
    rfl
  rw [hblob] at hsize
  have hfirst : tx.prefixSize = tx.toTransactionPrefix.save.1.length := by
    unfold Transaction.prefixSize
    rw [hfront]
    exact Nat.mod_eq_of_lt hsize
  have hsecond : tx.unprunableSize = 0 := by
    unfold Transaction.unprunableSize
    rw [hfront]
    simp [all, hone, hvin]
  have hless : ¬ (tx.prefixSize ≤ tx.unprunableSize ∧
      tx.unprunableSize ≤ (txToBlob scalarmultInvEight tx).length) := by omega
  unfold calculateTransactionHash
  rw [if_neg hone]
  simp only [hless, if_false, ite_self]

/-- The id of a transaction of version 2 that is saved whole. -/
theorem calculateTransactionHash_eq (cnFastHash : List UInt8 → Hash) {p b q : List UInt8}
    (hparts : tx.InParts (txToBlob scalarmultInvEight tx) p b q)
    (hsize : (txToBlob scalarmultInvEight tx).length < 2 ^ 32) (hversion : tx.version = 2)
    (hvin : tx.vin ≠ []) (hpruned : tx.pruned = false) :
    ∃ third, thirdHash cnFastHash tx (txToBlob scalarmultInvEight tx) = some third ∧
      third = (if tx.rctSignatures.type = rctTypeNull then nullHash else cnFastHash q) ∧
      calculateTransactionHash cnFastHash scalarmultInvEight tx =
        some (cnFastHash (threeHashes (cnFastHash p) (cnFastHash b) third)) ∧
      tx.hashInputs cnFastHash scalarmultInvEight =
        [p, b, q, threeHashes (cnFastHash p) (cnFastHash b) third] := by
  have hone : tx.version ≠ 1 := by rw [hversion]; decide
  have hthird := hparts.thirdHash_eq cnFastHash hsize hversion hvin
  have hhead : getTransactionPrefixHash cnFastHash tx.toTransactionPrefix = cnFastHash p := by
    rw [getTransactionPrefixHash, hparts.front]
    rfl
  have hbounds : tx.prefixSize ≤ tx.unprunableSize ∧
      tx.unprunableSize ≤ (txToBlob scalarmultInvEight tx).length := by
    have hlen := hparts.length_eq
    rw [hparts.prefixSize hsize, hparts.unprunableSize hsize hversion hvin]
    omega
  refine ⟨_, hthird, rfl, ?_, ?_⟩
  · unfold calculateTransactionHash
    simp only [hpruned, Bool.false_eq_true, if_false, if_neg hone, if_pos hbounds, hthird,
      hhead, hparts.baseBytes hsize hversion hvin, Option.map_some]
  · unfold Transaction.hashInputs
    simp only [if_neg hone, hthird, hhead, hparts.baseBytes hsize hversion hvin,
      hparts.drop_unprunableSize hsize hversion hvin, hparts.front]
    rfl

/-- Two transactions whose three hashes have one hash have one blob, or there is a collision. -/
theorem Transaction.InParts.eq_or_collision {blob blob' p b q p' b' q' : List UInt8}
    {third third' : Hash} (hparts : tx.InParts blob p b q) (hparts' : tx'.InParts blob' p' b' q')
    (hthird : third = if tx.rctSignatures.type = rctTypeNull then nullHash else cnFastHash q)
    (hthird' : third' = if tx'.rctSignatures.type = rctTypeNull then nullHash else cnFastHash q')
    (heq : cnFastHash (threeHashes (cnFastHash p) (cnFastHash b) third) =
      cnFastHash (threeHashes (cnFastHash p') (cnFastHash b') third')) :
    blob = blob' ∨
      Collision cnFastHash [p, b, q, threeHashes (cnFastHash p) (cnFastHash b) third]
        [p', b', q', threeHashes (cnFastHash p') (cnFastHash b') third'] := by
  by_cases hcollision : Collision cnFastHash
      [p, b, q, threeHashes (cnFastHash p) (cnFastHash b) third]
      [p', b', q', threeHashes (cnFastHash p') (cnFastHash b') third']
  · exact .inr hcollision
  have hsame {x y : List UInt8} (hx : x ∈ [p, b, q, threeHashes (cnFastHash p) (cnFastHash b) third])
      (hy : y ∈ [p', b', q', threeHashes (cnFastHash p') (cnFastHash b') third'])
      (h : cnFastHash x = cnFastHash y) : x = y :=
    (Monero.eq_or_collision hx hy h).resolve_right hcollision
  obtain ⟨hp, hb, hq⟩ := threeHashes_inj (hsame (by simp) (by simp) heq)
  obtain rfl := hsame (by simp) (by simp) hp
  obtain rfl := hsame (by simp) (by simp) hb
  -- The bases agree, and with them the types.
  have htype : tx.rctSignatures.type = tx'.rctSignatures.type :=
    Option.some.inj (hparts.base_head.symm.trans hparts'.base_head)
  have hrest : q = q' := by
    by_cases hnull : tx.rctSignatures.type = rctTypeNull
    · rw [hparts.prunable_nil hnull, hparts'.prunable_nil (htype ▸ hnull)]
    · rw [hthird, hthird', ← htype, if_neg hnull, if_neg hnull] at hq
      exact hsame (by simp) (by simp) hq
  left
  rw [hparts.blob_eq, hparts'.blob_eq, hrest]

theorem not_pruned_of_hash {id : Hash}
    (h : calculateTransactionHash cnFastHash scalarmultInvEight tx = some id) :
    tx.pruned = false := by
  cases hp : tx.pruned with
  | false => rfl
  | true => simp [calculateTransactionHash, hp] at h

theorem vin_ne_nil_of_hash {id : Hash}
    (hsize : (txToBlob scalarmultInvEight tx).length < 2 ^ 32) (hversion : tx.version = 2)
    (h : calculateTransactionHash cnFastHash scalarmultInvEight tx = some id) : tx.vin ≠ [] := by
  intro hnil
  rw [calculateTransactionHash_inputless hsize hversion hnil] at h
  cases h

/-- Two saved transactions of one version with one id have one blob, or two of the byte strings
    that were hashed collide. -/
theorem calculateTransactionHash_binds {id : Hash}
    (hsize : (txToBlob scalarmultInvEight tx).length < 2 ^ 32)
    (hsize' : (txToBlob scalarmultInvEight tx').length < 2 ^ 32)
    (hsaved : (tx.save (ringCt scalarmultInvEight)).2 = true)
    (hsaved' : (tx'.save (ringCt scalarmultInvEight)).2 = true)
    (hversion : tx.version = tx'.version)
    (h : calculateTransactionHash cnFastHash scalarmultInvEight tx = some id)
    (h' : calculateTransactionHash cnFastHash scalarmultInvEight tx' = some id) :
    txToBlob scalarmultInvEight tx = txToBlob scalarmultInvEight tx' ∨
      Collision cnFastHash (tx.hashInputs cnFastHash scalarmultInvEight)
        (tx'.hashInputs cnFastHash scalarmultInvEight) := by
  have hpruned := not_pruned_of_hash h
  have hpruned' := not_pruned_of_hash h'
  rcases Transaction.saved_version hsaved with hone | htwo
  · have hone' : tx'.version = 1 := hversion ▸ hone
    unfold calculateTransactionHash at h h'
    rw [hpruned, if_neg Bool.false_ne_true, if_pos hone] at h
    rw [hpruned', if_neg Bool.false_ne_true, if_pos hone'] at h'
    refine eq_or_collision ?_ ?_ (Option.some.inj (h.trans h'.symm))
    · simp [Transaction.hashInputs, hone]
    · simp [Transaction.hashInputs, hone']
  · have htwo' : tx'.version = 2 := hversion ▸ htwo
    have hvin := vin_ne_nil_of_hash hsize htwo h
    have hvin' := vin_ne_nil_of_hash hsize' htwo' h'
    obtain ⟨p, b, q, hparts⟩ := Transaction.exists_parts htwo hvin hpruned hsaved
    obtain ⟨p', b', q', hparts'⟩ := Transaction.exists_parts htwo' hvin' hpruned' hsaved'
    obtain ⟨third, -, hthird, hid, hinputs⟩ :=
      calculateTransactionHash_eq cnFastHash hparts hsize htwo hvin hpruned
    obtain ⟨third', -, hthird', hid', hinputs'⟩ :=
      calculateTransactionHash_eq cnFastHash hparts' hsize' htwo' hvin' hpruned'
    rw [hinputs, hinputs']
    rw [hid] at h
    rw [hid'] at h'
    exact hparts.eq_or_collision hparts' hthird hthird' (Option.some.inj (h.trans h'.symm))

/-- An accepted transaction of version 2 that has an id is saved as the blob it came from. -/
theorem save_of_parse_of_hash {blob : List UInt8} {id : Hash}
    (hsize : (txToBlob scalarmultInvEight tx).length < 2 ^ 32) (hversion : tx.version = 2)
    (hparse : parseAndValidateTxFromBlob (ringCt scalarmultInvEight) blob = some tx)
    (h : calculateTransactionHash cnFastHash scalarmultInvEight tx = some id) :
    tx.save (ringCt scalarmultInvEight) = all blob := by
  obtain ⟨p, hsave, rfl | ⟨-, hone | hnil⟩⟩ := save_of_parseAndValidate scalarmultInvEight hparse
  · exact hsave
  · rw [hversion] at hone
    cases hone
  · exact absurd hnil (vin_ne_nil_of_hash hsize hversion h)

/-- Two accepted blobs of one version 2 id are one blob, or there is a collision: the id covers
    the prunable part as well. -/
theorem blob_eq_of_hash {blob blob' : List UInt8} {id : Hash}
    (hsize : (txToBlob scalarmultInvEight tx).length < 2 ^ 32)
    (hsize' : (txToBlob scalarmultInvEight tx').length < 2 ^ 32) (hversion : tx.version = 2)
    (hversion' : tx'.version = 2)
    (hparse : parseAndValidateTxFromBlob (ringCt scalarmultInvEight) blob = some tx)
    (hparse' : parseAndValidateTxFromBlob (ringCt scalarmultInvEight) blob' = some tx')
    (h : calculateTransactionHash cnFastHash scalarmultInvEight tx = some id)
    (h' : calculateTransactionHash cnFastHash scalarmultInvEight tx' = some id) :
    blob = blob' ∨
      Collision cnFastHash (tx.hashInputs cnFastHash scalarmultInvEight)
        (tx'.hashInputs cnFastHash scalarmultInvEight) := by
  have hsave := save_of_parse_of_hash hsize hversion hparse h
  have hsave' := save_of_parse_of_hash hsize' hversion' hparse' h'
  have hbinds := calculateTransactionHash_binds hsize hsize' (congrArg Prod.snd hsave)
    (congrArg Prod.snd hsave') (hversion.trans hversion'.symm) h h'
  have hblob : txToBlob scalarmultInvEight tx = blob := congrArg Prod.fst hsave
  have hblob' : txToBlob scalarmultInvEight tx' = blob' := congrArg Prod.fst hsave'
  rwa [hblob, hblob'] at hbinds

/-- A miner transaction at a height, with one byte of extra. -/
def genBlob (height extra : UInt8) : List UInt8 := [2, 60, 1, 0xff, height, 0, 1, extra, 0]

-- The sum does not tell the two blobs apart.
theorem blob_eq_of_hash_sample :
    ∃ tx tx' id, parseAndValidateTxFromBlob (ringCt some) (genBlob 0 27) = some tx ∧
      parseAndValidateTxFromBlob (ringCt some) (genBlob 1 0) = some tx' ∧
      calculateTransactionHash sumHash some tx = some id ∧
      calculateTransactionHash sumHash some tx' = some id ∧
      (genBlob 0 27 = genBlob 1 0 ∨
        Collision sumHash (tx.hashInputs sumHash some) (tx'.hashInputs sumHash some)) := by
  have hids : ∃ tx tx', parseAndValidateTxFromBlob (ringCt some) (genBlob 0 27) = some tx ∧
      parseAndValidateTxFromBlob (ringCt some) (genBlob 1 0) = some tx' ∧
      ((txToBlob some tx).length < 2 ^ 32 ∧ (txToBlob some tx').length < 2 ^ 32) ∧
      (tx.version = 2 ∧ tx'.version = 2) ∧
      ∃ id, calculateTransactionHash sumHash some tx = some id ∧
        calculateTransactionHash sumHash some tx' = some id := by
    refine ⟨_, _, rfl, rfl, by decide +kernel, by decide +kernel, ?_⟩
    exact ⟨_, rfl, by decide +kernel⟩
  obtain ⟨tx, tx', hparse, hparse', ⟨hsize, hsize'⟩, ⟨hversion, hversion'⟩, id, hid, hid'⟩ := hids
  exact ⟨tx, tx', id, hparse, hparse', hid, hid',
    blob_eq_of_hash hsize hsize' hversion hversion' hparse hparse' hid hid'⟩

end Format

end RandomLite.Monero
