-- SUMMARY: The address of a wallet and its keys: which key pairs `create_new` gives one address.
import RandomLite.Prototype.KeyImageFile
import RandomLite.Prototype.WalletBalance

/-!
# Addresses and keys

An address is four letters and the text of 16 bytes of each public key. The other 16
bytes of a key leave no trace in it.
-/

namespace RandomLite

namespace Wallet

/-- The bytes of a key that reach the address, and those that do not. -/
def shownBytes (key : PublicKey) : List UInt8 := key.toList.take 16

def hiddenBytes (key : PublicKey) : List UInt8 := key.toList.drop 16

theorem eq_iff_shown_hidden (k l : PublicKey) :
    k = l ↔ shownBytes k = shownBytes l ∧ hiddenBytes k = hiddenBytes l := by
  constructor
  · rintro rfl
    exact ⟨rfl, rfl⟩
  · rintro ⟨hshown, hhidden⟩
    apply Vector.toList_inj.mp
    rw [← List.take_append_drop 16 k.toList, ← List.take_append_drop 16 l.toList]
    exact congrArg₂ (· ++ ·) hshown hhidden

theorem toList_addressHex (key : PublicKey) :
    (addressHex key).toList = (shownBytes key).flatMap hexByte := by
  unfold addressHex
  rw [String.toList_ofList]
  rfl

theorem length_addressHex (key : PublicKey) : (addressHex key).toList.length = 32 := by
  have hshown : (shownBytes key).length = 16 := by simp [shownBytes]
  rw [toList_addressHex, hexByte_fixedWidth.length_flatMap, hshown]

/-- Half an address determines the bytes it shows. -/
theorem addressHex_eq_iff (k l : PublicKey) :
    addressHex k = addressHex l ↔ shownBytes k = shownBytes l := by
  rw [← String.toList_inj, toList_addressHex, toList_addressHex]
  exact (hexByte_fixedWidth.flatMap_injective (by decide)).eq_iff

/-- Two wallets get one address exactly when their keys agree in the bytes it shows. -/
theorem createNew_address_eq_iff (v w : Wallet) (name name' password password' : String)
    (draw draw' : WalletDraw) :
    (v.createNew name password draw).address = (w.createNew name' password' draw').address ↔
      shownBytes draw.spendPublicKey = shownBytes draw'.spendPublicKey ∧
        shownBytes draw.viewPublicKey = shownBytes draw'.viewPublicKey := by
  rw [← addressHex_eq_iff, ← addressHex_eq_iff]
  simp only [createNew]
  constructor
  · intro h
    have htext := congrArg String.toList h
    simp only [String.toList_append, List.append_assoc] at htext
    obtain ⟨hspend, hview⟩ := List.append_inj (List.append_cancel_left htext)
      ((length_addressHex _).trans (length_addressHex _).symm)
    exact ⟨String.toList_inj.mp hspend, String.toList_inj.mp hview⟩
  · rintro ⟨hspend, hview⟩
    rw [hspend, hview]

/-- An address determines the keys of two draws exactly when they differ in a byte it
    shows, or in none it does not show. -/
theorem createNew_determines_iff (v w : Wallet) (name name' password password' : String)
    (draw draw' : WalletDraw) :
    ((v.createNew name password draw).address = (w.createNew name' password' draw').address →
        (draw.spendPublicKey, draw.viewPublicKey) =
          (draw'.spendPublicKey, draw'.viewPublicKey)) ↔
      (shownBytes draw.spendPublicKey ≠ shownBytes draw'.spendPublicKey ∨
        shownBytes draw.viewPublicKey ≠ shownBytes draw'.viewPublicKey) ∨
      hiddenBytes draw.spendPublicKey = hiddenBytes draw'.spendPublicKey ∧
        hiddenBytes draw.viewPublicKey = hiddenBytes draw'.viewPublicKey := by
  rw [createNew_address_eq_iff, Prod.mk.injEq, eq_iff_shown_hidden, eq_iff_shown_hidden]
  constructor
  · intro h
    refine or_iff_not_imp_left.mpr fun hdiff => ?_
    rw [not_or, not_not, not_not] at hdiff
    obtain ⟨⟨-, hspend⟩, -, hview⟩ := h hdiff
    exact ⟨hspend, hview⟩
  · rintro (hdiff | ⟨hspend, hview⟩) ⟨hshownSpend, hshownView⟩
    · rcases hdiff with hdiff | hdiff
      · exact absurd hshownSpend hdiff
      · exact absurd hshownView hdiff
    · exact ⟨⟨hshownSpend, hspend⟩, hshownView, hview⟩

/-- The sample draw with another spend key. -/
def spendKeyDraw (spendPublicKey : PublicKey) : WalletDraw :=
  { sampleDraw with spendPublicKey := spendPublicKey }

/-- Two key pairs share an address. -/
theorem createNew_not_determines :
    ¬ ∀ (v w : Wallet) (name name' password password' : String) (draw draw' : WalletDraw),
      (v.createNew name password draw).address = (w.createNew name' password' draw').address →
        (draw.spendPublicKey, draw.viewPublicKey) =
          (draw'.spendPublicKey, draw'.viewPublicKey) := by
  intro h
  -- The keys differ in their last byte.
  have hkeys := h {} {} "a" "b" "" "" (spendKeyDraw zeroHash)
    (spendKeyDraw (zeroHash.setIfInBounds 31 1))
    ((createNew_address_eq_iff _ _ _ _ _ _ _ _).mpr (by decide))
  revert hkeys
  decide

end Wallet

end RandomLite
