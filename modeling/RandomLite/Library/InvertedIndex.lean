-- SUMMARY: An inverted index: for every key the names listed under it, and the relation that the index holds.
import Mathlib.Data.List.Nodup
import RandomLite.Library.KeyedTable

/-!
# Inverted indices

A table from keys to sets of names, without empty sets. `Indexes` says that the table holds a
relation between keys and names; adding and removing a name under some keys changes the
relation by these pairs.
-/

namespace RandomLite.InvertedIndex

open KeyedTable

variable {I K : Type} [Ord I] [DecidableEq K]

/-- The names under a key. -/
def listed (t : Std.TreeMap I (List K)) (k : I) : List K := t.getD k []

def add (t : Std.TreeMap I (List K)) (k : I) (id : K) : Std.TreeMap I (List K) :=
  if id ∈ listed t k then t else t.insert k (id :: listed t k)

def remove (t : Std.TreeMap I (List K)) (k : I) (id : K) : Std.TreeMap I (List K) :=
  if (listed t k).erase id = [] then t.erase k else t.insert k ((listed t k).erase id)

def addAll (t : Std.TreeMap I (List K)) (keys : List I) (id : K) : Std.TreeMap I (List K) :=
  keys.foldl (fun t k => add t k id) t

def removeAll (t : Std.TreeMap I (List K)) (keys : List I) (id : K) : Std.TreeMap I (List K) :=
  keys.foldl (fun t k => remove t k id) t

/-- The index holds exactly the pairs of a relation. -/
structure Indexes (t : Std.TreeMap I (List K)) (R : I → K → Prop) : Prop where
  nodup : ∀ k, (listed t k).Nodup
  ne_nil : ∀ k ∈ t, listed t k ≠ []
  mem_iff : ∀ k id, id ∈ listed t k ↔ R k id

variable [DecidableEq I] [Std.TransOrd I] [Std.LawfulEqOrd I] {t : Std.TreeMap I (List K)} {k : I} {id : K}
  {R : I → K → Prop}

omit [DecidableEq K] in
theorem listed_insert (k k' : I) (names : List K) :
    listed (t.insert k names) k' = if k = k' then names else listed t k' := by
  unfold listed
  rw [Std.TreeMap.getD_insert]
  exact if_congr Std.compare_eq_iff_eq rfl rfl

omit [DecidableEq K] in
theorem listed_erase (k k' : I) :
    listed (t.erase k) k' = if k = k' then [] else listed t k' := by
  unfold listed
  rw [Std.TreeMap.getD_erase]
  exact if_congr Std.compare_eq_iff_eq rfl rfl

omit [DecidableEq K] [DecidableEq I] [Std.LawfulEqOrd I] in
theorem listed_of_notMem (h : k ∉ t) : listed t k = [] :=
  Std.TreeMap.getD_eq_fallback h

omit [DecidableEq I] in
theorem listed_add_of_ne {k' : I} (h : k ≠ k') : listed (add t k id) k' = listed t k' := by
  classical
  unfold add
  split
  · rfl
  · rw [listed_insert, if_neg h]

omit [DecidableEq I] in
theorem listed_remove_of_ne {k' : I} (h : k ≠ k') :
    listed (remove t k id) k' = listed t k' := by
  classical
  unfold remove
  split
  · rw [listed_erase, if_neg h]
  · rw [listed_insert, if_neg h]

theorem mem_listed_add (k' : I) (id' : K) :
    id' ∈ listed (add t k id) k' ↔ id' ∈ listed t k' ∨ k' = k ∧ id' = id := by
  unfold add
  split
  · rename_i hin
    refine ⟨.inl, ?_⟩
    rintro (hold | ⟨rfl, rfl⟩)
    · exact hold
    · exact hin
  · rw [listed_insert]
    by_cases heq : k = k'
    · rw [if_pos heq, List.mem_cons, heq]
      tauto
    · rw [if_neg heq]
      exact ⟨.inl, fun h => h.resolve_right fun hne => heq hne.1.symm⟩

namespace Indexes

omit [DecidableEq K] [DecidableEq I] [Std.TransOrd I] [Std.LawfulEqOrd I] in
theorem congr {R' : I → K → Prop} (h : Indexes t R) (hR : ∀ k id, R k id ↔ R' k id) :
    Indexes t R' :=
  ⟨h.nodup, h.ne_nil, fun k id => (h.mem_iff k id).trans (hR k id)⟩

omit [DecidableEq K] [DecidableEq I] [Std.LawfulEqOrd I] in
theorem empty : Indexes ({} : Std.TreeMap I (List K)) fun _ _ => False where
  nodup := fun k => by
    rw [listed_of_notMem Std.TreeMap.not_mem_emptyc]
    exact List.nodup_nil
  ne_nil := fun k hk => absurd hk Std.TreeMap.not_mem_emptyc
  mem_iff := fun k id => by
    rw [listed_of_notMem Std.TreeMap.not_mem_emptyc]
    exact iff_of_false List.not_mem_nil fun hfalse => hfalse

theorem add (h : Indexes t R) (k : I) (id : K) :
    Indexes (add t k id) fun k' id' => R k' id' ∨ k' = k ∧ id' = id where
  nodup := fun k' => by
    unfold InvertedIndex.add
    split
    · exact h.nodup k'
    · rename_i hnew
      rw [listed_insert]
      split
      · exact List.nodup_cons.mpr ⟨hnew, h.nodup k⟩
      · exact h.nodup k'
  ne_nil := fun k' hk' => by
    unfold InvertedIndex.add at hk' ⊢
    split
    · rename_i hin
      rw [if_pos hin] at hk'
      exact h.ne_nil k' hk'
    · rename_i hnew
      rw [if_neg hnew, mem_insert_iff] at hk'
      rw [listed_insert]
      split
      · exact List.cons_ne_nil _ _
      · rename_i hne
        exact h.ne_nil k' (hk'.resolve_left hne)
  mem_iff := fun k' id' => by rw [mem_listed_add, h.mem_iff]

theorem remove (h : Indexes t R) (k : I) (id : K) :
    Indexes (remove t k id) fun k' id' => R k' id' ∧ ¬ (k' = k ∧ id' = id) where
  nodup := fun k' => by
    unfold InvertedIndex.remove
    split
    · rw [listed_erase]
      split
      · exact List.nodup_nil
      · exact h.nodup k'
    · rw [listed_insert]
      split
      · exact (h.nodup k).erase id
      · exact h.nodup k'
  ne_nil := fun k' hk' => by
    unfold InvertedIndex.remove at hk' ⊢
    split
    · rename_i hlast
      rw [if_pos hlast, mem_erase_iff] at hk'
      rw [listed_erase, if_neg hk'.1]
      exact h.ne_nil k' hk'.2
    · rename_i hrest
      rw [if_neg hrest, mem_insert_iff] at hk'
      rw [listed_insert]
      split
      · exact hrest
      · rename_i hne
        exact h.ne_nil k' (hk'.resolve_left hne)
  mem_iff := fun k' id' => by
    unfold InvertedIndex.remove
    have hmem : ∀ x, x ∈ (listed t k).erase id ↔ R k x ∧ x ≠ id := fun x => by
      rw [(h.nodup k).mem_erase_iff, h.mem_iff, and_comm]
    split
    · rename_i hlast
      rw [listed_erase]
      by_cases heq : k = k'
      · rw [if_pos heq, ← heq, ← hlast, hmem]
        tauto
      · rw [if_neg heq, h.mem_iff]
        exact ⟨fun hin => ⟨hin, fun hboth => heq hboth.1.symm⟩, And.left⟩
    · rw [listed_insert]
      by_cases heq : k = k'
      · rw [if_pos heq, ← heq, hmem]
        tauto
      · rw [if_neg heq, h.mem_iff]
        exact ⟨fun hin => ⟨hin, fun hboth => heq hboth.1.symm⟩, And.left⟩

theorem addAll (h : Indexes t R) (keys : List I) (id : K) :
    Indexes (addAll t keys id) fun k' id' => R k' id' ∨ k' ∈ keys ∧ id' = id := by
  induction keys generalizing t R with
  | nil => exact h.congr fun k' id' => by simp
  | cons k keys ih =>
    refine (ih (h.add k id)).congr fun k' id' => ?_
    rw [List.mem_cons]
    tauto

theorem removeAll (h : Indexes t R) (keys : List I) (id : K) :
    Indexes (removeAll t keys id) fun k' id' => R k' id' ∧ ¬ (k' ∈ keys ∧ id' = id) := by
  induction keys generalizing t R with
  | nil => exact h.congr fun k' id' => by simp
  | cons k keys ih =>
    refine (ih (h.remove k id)).congr fun k' id' => ?_
    rw [List.mem_cons]
    tauto

end Indexes

end RandomLite.InvertedIndex
