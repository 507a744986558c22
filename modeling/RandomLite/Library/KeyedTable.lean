-- SUMMARY: Tables ordered by key: lookup after an update, and a measure summed over the rows.
import Mathlib

/-!
# Keyed tables

`Std.TreeMap` with lawful keys. A measure of the rows is summed over the table; one insertion
or erasure changes the sum by the measure of the row.
-/

namespace RandomLite.KeyedTable

variable {α β : Type} [Ord α] [Std.TransOrd α] [Std.LawfulEqOrd α] {t : Std.TreeMap α β}
  {k a : α} {v x : β}

/-! ## Lookup -/

theorem getElem?_insert_iff :
    (t.insert k v)[a]? = some x ↔ k = a ∧ v = x ∨ k ≠ a ∧ t[a]? = some x := by
  rw [Std.TreeMap.getElem?_insert]
  by_cases h : k = a
  · rw [if_pos (Std.compare_eq_iff_eq.mpr h), Option.some_inj]
    tauto
  · rw [if_neg (fun heq => h (Std.compare_eq_iff_eq.mp heq))]
    tauto

theorem getElem?_erase_iff : (t.erase k)[a]? = some x ↔ k ≠ a ∧ t[a]? = some x := by
  rw [Std.TreeMap.getElem?_erase]
  by_cases h : k = a
  · rw [if_pos (Std.compare_eq_iff_eq.mpr h)]
    exact ⟨fun hnone => (nomatch hnone), fun hne => absurd h hne.1⟩
  · rw [if_neg (fun heq => h (Std.compare_eq_iff_eq.mp heq))]
    tauto

theorem mem_insert_iff : a ∈ t.insert k v ↔ k = a ∨ a ∈ t := by
  rw [Std.TreeMap.mem_insert, Std.compare_eq_iff_eq]

theorem mem_erase_iff : a ∈ t.erase k ↔ k ≠ a ∧ a ∈ t := by
  rw [Std.TreeMap.mem_erase, ne_eq, Std.compare_eq_iff_eq]

omit [Std.LawfulEqOrd α] in
theorem mem_iff_exists : a ∈ t ↔ ∃ x, t[a]? = some x := by
  rw [Std.TreeMap.mem_iff_isSome_getElem?, Option.isSome_iff_exists]

/-! ## Sums over the rows -/

theorem nodup_keys_toList : (t.toList.map Prod.fst).Nodup :=
  List.pairwise_map.mpr (Std.TreeMap.distinct_keys_toList.imp fun hne heq =>
    hne (Std.compare_eq_iff_eq.mpr heq))

theorem nodup_toList : t.toList.Nodup := nodup_keys_toList.of_map

theorem nodup_cons_erase : ((k, v) :: (t.erase k).toList).Nodup :=
  List.nodup_cons.mpr ⟨fun hin =>
    (getElem?_erase_iff.mp (Std.TreeMap.mem_toList_iff_getElem?_eq_some.mp hin)).1 rfl, nodup_toList⟩

/-- A row is added to the others. -/
theorem toList_insert_perm :
    (t.insert k v).toList.Perm ((k, v) :: (t.erase k).toList) := by
  refine (List.perm_ext_iff_of_nodup nodup_toList nodup_cons_erase).mpr ?_
  rintro ⟨a, x⟩
  rw [List.mem_cons, Std.TreeMap.mem_toList_iff_getElem?_eq_some,
    Std.TreeMap.mem_toList_iff_getElem?_eq_some, getElem?_insert_iff, getElem?_erase_iff,
    Prod.mk.injEq, eq_comm (a := a), eq_comm (a := x)]

theorem toList_perm_erase (h : t[k]? = some v) :
    t.toList.Perm ((k, v) :: (t.erase k).toList) := by
  refine (List.perm_ext_iff_of_nodup nodup_toList nodup_cons_erase).mpr ?_
  rintro ⟨a, x⟩
  rw [List.mem_cons, Std.TreeMap.mem_toList_iff_getElem?_eq_some,
    Std.TreeMap.mem_toList_iff_getElem?_eq_some, getElem?_erase_iff, Prod.mk.injEq]
  constructor
  · intro hx
    by_cases heq : k = a
    · rw [← heq] at hx ⊢
      exact .inl ⟨rfl, Option.some.inj (hx.symm.trans h)⟩
    · exact .inr ⟨heq, hx⟩
  · rintro (⟨rfl, rfl⟩ | ⟨-, hx⟩)
    · exact h
    · exact hx

/-- The sum of a measure over the rows. -/
def total (m : β → Nat) (t : Std.TreeMap α β) : Nat := (t.toList.map fun row => m row.2).sum

variable {m : β → Nat}

theorem total_of_some (h : t[k]? = some v) : total m t = m v + total m (t.erase k) :=
  ((toList_perm_erase h).map fun row : α × β => m row.2).sum_eq

theorem total_insert : total m (t.insert k v) = m v + total m (t.erase k) :=
  (toList_insert_perm.map fun row : α × β => m row.2).sum_eq

/-- Tables with the same rows have the same total. -/
theorem total_congr {t' : Std.TreeMap α β} (h : ∀ (a : α) (x : β), t[a]? = some x ↔ t'[a]? = some x) :
    total m t = total m t' := by
  have hperm : t.toList.Perm t'.toList := by
    refine (List.perm_ext_iff_of_nodup nodup_toList nodup_toList).mpr ?_
    rintro ⟨a, x⟩
    rw [Std.TreeMap.mem_toList_iff_getElem?_eq_some, Std.TreeMap.mem_toList_iff_getElem?_eq_some]
    exact h a x
  exact (hperm.map fun row => m row.2).sum_eq

theorem total_erase_of_none (h : t[k]? = none) : total m (t.erase k) = total m t := by
  refine total_congr fun a x => ?_
  rw [getElem?_erase_iff]
  refine ⟨fun hx => hx.2, fun hx => ⟨fun heq => ?_, hx⟩⟩
  rw [← heq, h] at hx
  cases hx

/-- A measure summed over some keys is at most its total. -/
theorem sum_le_total {keys : List α} {w : α → Nat}
    (hkeys : ∀ k ∈ keys, ∃ v, t[k]? = some v ∧ w k = m v) (hnodup : keys.Nodup) :
    (keys.map w).sum ≤ total m t := by
  induction keys generalizing t with
  | nil => exact Nat.zero_le _
  | cons k keys ih =>
    obtain ⟨hk, hrest⟩ := List.nodup_cons.mp hnodup
    obtain ⟨v, hv, hw⟩ := hkeys k List.mem_cons_self
    have htail := ih (t := t.erase k) (fun k' hk' => by
      obtain ⟨v', hv', hw'⟩ := hkeys k' (List.mem_cons_of_mem _ hk')
      exact ⟨v', getElem?_erase_iff.mpr ⟨fun heq => hk (heq ▸ hk'), hv'⟩, hw'⟩) hrest
    rw [List.map_cons, List.sum_cons, total_of_some hv, hw]
    omega

end RandomLite.KeyedTable
