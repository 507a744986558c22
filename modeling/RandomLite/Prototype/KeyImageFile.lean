-- SUMMARY: The key image file: what `save_key_image` leaves for `load_chain`, and what a chain on it refuses.
import Mathlib.Data.Finset.Lattice.Lemmas
import RandomLite.Library.TextLines
import RandomLite.Prototype.DoubleSpend

/-!
# Key image file

`save_key_image` prints one line for an image, `load_chain` takes the lines that are
not empty, and `verify_transaction` prints the image again to look it up. The text of
an image is 64 digits, none of them an end of line, and determines the image.
-/

namespace RandomLite

/-! ## Hexadecimal text -/

theorem hexDigit_inj {m n : Nat} (hm : m < 16) (hn : n < 16) (h : hexDigit m = hexDigit n) :
    m = n := by
  have hall : ∀ i j : Fin 16, hexDigit i = hexDigit j → i = j := by decide
  exact congrArg Fin.val (hall ⟨m, hm⟩ ⟨n, hn⟩ h)

theorem hexDigit_ne_newline {n : Nat} (hn : n < 16) : hexDigit n ≠ '\n' := by
  have hall : ∀ i : Fin 16, hexDigit i ≠ '\n' := by decide
  exact hall ⟨n, hn⟩

/-- A byte takes two digits, and they determine it. -/
theorem hexByte_fixedWidth : FixedWidth hexByte 2 where
  length _ := rfl
  injective := by
    intro a b h
    have ha := a.toNat_lt
    have hb := b.toNat_lt
    obtain ⟨hhigh, htail⟩ := List.cons.inj h
    have hlow := (List.cons.inj htail).1
    have hdiv := hexDigit_inj (by omega) (by omega) hhigh
    have hmod := hexDigit_inj (by omega) (by omega) hlow
    apply UInt8.toNat_inj.mp
    omega

theorem newline_notMem_flatMap_hexByte (bytes : List UInt8) : '\n' ∉ bytes.flatMap hexByte := by
  intro h
  obtain ⟨b, -, hb⟩ := List.mem_flatMap.mp h
  have hlt := b.toNat_lt
  rcases List.mem_cons.mp hb with hhigh | hlow
  · exact hexDigit_ne_newline (by omega) hhigh.symm
  · exact hexDigit_ne_newline (by omega) (List.mem_singleton.mp hlow).symm

/-- The text of a key image determines it. -/
theorem keyImageHex_injective : Function.Injective keyImageHex := by
  intro k l h
  exact Vector.toList_inj.mp (hexByte_fixedWidth.flatMap_injective (by decide) h)

@[simp] theorem length_keyImageHex (k : KeyImage) : (keyImageHex k).length = 64 := by
  unfold keyImageHex
  rw [hexByte_fixedWidth.length_flatMap, Vector.length_toList]

theorem keyImageHex_ne_nil (k : KeyImage) : keyImageHex k ≠ [] := by
  intro h
  have hlen := length_keyImageHex k
  rw [h] at hlen
  cases hlen

/-! ## Saving and loading -/

/-- Calls of `save_key_image` one after another, each writing its whole line. -/
def PersistentDatabase.saveKeyImages (db : PersistentDatabase) (dir : DataDir)
    (saved : List KeyImage) : DataDir :=
  saved.foldl (fun dir k => (db.saveKeyImage dir (keyImageHex k) (.wrote 65)).2) dir

/-- The calls append a line for every image and leave the block file alone. -/
theorem PersistentDatabase.saveKeyImages_eq {db : PersistentDatabase} (hopen : db.opened = true)
    (dir : DataDir) (saved : List KeyImage) :
    (db.saveKeyImages dir saved).blocksDat = dir.blocksDat ∧
      (db.saveKeyImages dir saved).keyImagesDat.getD [] =
        dir.keyImagesDat.getD [] ++ linesText '\n' (saved.map keyImageHex) := by
  induction saved generalizing dir with
  | nil => simp [saveKeyImages, linesText]
  | cons k rest ih =>
    have hline : (keyImageHex k ++ ['\n']).take 65 = keyImageHex k ++ ['\n'] :=
      List.take_of_length_le (by simp)
    have hsave : (db.saveKeyImage dir (keyImageHex k) (.wrote 65)).2 =
        { dir with
          keyImagesDat := some (dir.keyImagesDat.getD [] ++ (keyImageHex k ++ ['\n'])) } := by
      simp only [saveKeyImage, hopen, if_true, hline]
    obtain ⟨hblocks, hkeys⟩ := ih (db.saveKeyImage dir (keyImageHex k) (.wrote 65)).2
    unfold saveKeyImages at hblocks hkeys ⊢
    rw [List.foldl_cons]
    refine ⟨hblocks.trans (by rw [hsave]), hkeys.trans ?_⟩
    rw [hsave]
    simp [linesText]

/-- The lines of the file are the texts of the images. -/
theorem nonEmptyLines_linesText (saved : List KeyImage) :
    nonEmptyLines (linesText '\n' (saved.map keyImageHex)) = saved.map keyImageHex := by
  apply filter_splitOn_linesText
  · intro line hline
    obtain ⟨k, -, rfl⟩ := List.mem_map.mp hline
    exact newline_notMem_flatMap_hexByte _
  · intro line hline
    obtain ⟨k, -, rfl⟩ := List.mem_map.mp hline
    exact keyImageHex_ne_nil k

theorem mem_keyImageHexes {saved : List KeyImage} {k : KeyImage} :
    keyImageHex k ∈ (saved.map keyImageHex).toFinset ↔ k ∈ saved := by
  rw [List.mem_toFinset, List.mem_map_of_injective keyImageHex_injective]

/-- A directory with a block file and no key images yet. -/
structure DataDir.WithoutKeyImages (dir : DataDir) : Prop where
  blocksDat : dir.blocksDat.isSome
  keyImagesDat : dir.keyImagesDat.getD [] = []

/-- The images a directory holds after the calls are the saved ones. -/
theorem PersistentDatabase.savedKeyImages_saveKeyImages {db : PersistentDatabase}
    (hopen : db.opened = true) {dir : DataDir} (h : dir.WithoutKeyImages) (saved : List KeyImage) :
    (db.saveKeyImages dir saved).savedKeyImages = (saved.map keyImageHex).toFinset := by
  obtain ⟨hblocks, hkeys⟩ := db.saveKeyImages_eq hopen dir saved
  unfold DataDir.savedKeyImages
  rw [hblocks, if_pos h.blocksDat, hkeys, h.keyImagesDat, List.nil_append, nonEmptyLines_linesText]

/-- `load_chain` takes what `init` takes. -/
theorem PersistentDatabase.loadChain_savedKeyImages {db : PersistentDatabase}
    (hopen : db.opened = true) {dir : DataDir} (hblocks : dir.blocksDat.isSome) (v : ChainVectors)
    (spent : Finset Text) :
    (db.loadChain dir v spent).1 = true ∧
      (db.loadChain dir v spent).2.2 = spent ∪ dir.savedKeyImages := by
  obtain ⟨bytes, hfile⟩ := Option.isSome_iff_exists.mp hblocks
  rw [loadChain_eq hopen hfile, DataDir.savedKeyImages, if_pos hblocks]
  exact ⟨rfl, rfl⟩

/-- Saved key images load as exactly that set, and a chain started on the directory
    refuses a well-formed transaction exactly when it spends one of them. -/
theorem Node.started_saveKeyImages {db : PersistentDatabase} (hopen : db.opened = true)
    {dir : DataDir} (h : dir.WithoutKeyImages) (saved : List KeyImage) (io : AppendOutcome) :
    (∀ v, (db.loadChain (db.saveKeyImages dir saved) v ∅).1 = true ∧
        (db.loadChain (db.saveKeyImages dir saved) v ∅).2.2 = (saved.map keyImageHex).toFinset) ∧
      (∀ k, keyImageHex k ∈ (saved.map keyImageHex).toFinset ↔ k ∈ saved) ∧
      ∀ (tx : Transaction) (currentHeight : UInt64), tx.WellFormed →
        ((Node.started (db.saveKeyImages dir saved) io).chain.verifyTransaction tx currentHeight =
          false ↔ ∃ k ∈ tx.keyImages, k ∈ saved) := by
  have hsaved := db.savedKeyImages_saveKeyImages hopen h saved
  refine ⟨fun v => ?_, fun k => mem_keyImageHexes, fun tx currentHeight hwf => ?_⟩
  · have hblocks : (db.saveKeyImages dir saved).blocksDat.isSome := by
      rw [(db.saveKeyImages_eq hopen dir saved).1]
      exact h.blocksDat
    rw [← hsaved, ← Finset.empty_union (db.saveKeyImages dir saved).savedKeyImages]
    exact db.loadChain_savedKeyImages hopen hblocks v ∅
  · have hspent : (Node.started (db.saveKeyImages dir saved) io).chain.spentKeyImages =
        (saved.map keyImageHex).toFinset := by
      unfold Node.started
      rw [init_spentKeyImages, hsaved]
      exact Finset.empty_union _
    rw [Bool.eq_false_iff, ne_eq, Blockchain.verifyTransaction_iff, Blockchain.Unspent, hspent]
    simp only [hwf, true_and, mem_keyImageHexes, not_forall, not_not, exists_prop]

/-- Two images saved in three calls, beside the file of a genesis block. -/
def savedSample : List KeyImage := [zeroHash, genesisBlock.hash, zeroHash]

def savedSampleDir : DataDir :=
  ({ opened := true } : PersistentDatabase).saveKeyImages
    { blocksDat := some (blockRecord genesisBlock 0 1) } savedSample

theorem Node.started_saveKeyImages_sample :
    (∀ v, (({ opened := true } : PersistentDatabase).loadChain savedSampleDir v ∅).1 = true ∧
        (({ opened := true } : PersistentDatabase).loadChain savedSampleDir v ∅).2.2 =
          (savedSample.map keyImageHex).toFinset) ∧
      (∀ k, keyImageHex k ∈ (savedSample.map keyImageHex).toFinset ↔ k ∈ savedSample) ∧
      ∀ (tx : Transaction) (currentHeight : UInt64), tx.WellFormed →
        ((Node.started savedSampleDir .openFails).chain.verifyTransaction tx currentHeight =
          false ↔ ∃ k ∈ tx.keyImages, k ∈ savedSample) :=
  Node.started_saveKeyImages rfl ⟨rfl, rfl⟩ savedSample .openFails

end RandomLite
