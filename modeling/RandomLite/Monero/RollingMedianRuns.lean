-- SUMMARY: The rolling median over whole runs: whatever was inserted and cleared, it is the plain median of the last items.
import Mathlib.Data.List.Perm.Lattice
import Mathlib.Data.List.Rotate
import RandomLite.Monero.RollingMedian

/-!
# Runs of the rolling median

The ring, read from its oldest item on, is the window of the items inserted since the
state was cleared. The median of the two heaps is the one that `misc_utils::median`
finds by sorting that window.
-/

namespace RandomLite.Monero.RollingMedian

/-! ## Clearing -/

section Clear

variable {α : Type} {m : RollingMedian α} {n j : Nat}

theorem fillPattern_inj {i j : Nat} (h : fillPattern i = fillPattern j) : i = j := by
  rcases Nat.mod_two_eq_zero_or_one i with hi | hi
  · rcases Nat.mod_two_eq_zero_or_one j with hj | hj
    · rw [fillPattern_even hi, fillPattern_even hj] at h
      omega
    · rw [fillPattern_even hi, fillPattern_odd hj] at h
      omega
  · rcases Nat.mod_two_eq_zero_or_one j with hj | hj
    · rw [fillPattern_odd hi, fillPattern_even hj] at h
      omega
    · rw [fillPattern_odd hi, fillPattern_odd hj] at h
      omega

theorem fill_frame (n : Nat) (m : RollingMedian α) :
    (fill n m).data = m.data ∧ (fill n m).N = m.N ∧ (fill n m).idx = m.idx ∧
      (fill n m).minCt = m.minCt ∧ (fill n m).maxCt = m.maxCt ∧ (fill n m).sz = m.sz := by
  induction n generalizing m with
  | zero => exact ⟨rfl, rfl, rfl, rfl, rfl, rfl⟩
  | succ n ih =>
    unfold fill
    exact ih _

/-- The loop leaves what it has passed alone. -/
theorem fill_passed (m : RollingMedian α) (h : n ≤ j) :
    (fill n m).pos j = m.pos j ∧ (fill n m).heap (fillPattern j) = m.heap (fillPattern j) := by
  induction n generalizing m with
  | zero => exact ⟨rfl, rfl⟩
  | succ n ih =>
    unfold fill
    obtain ⟨hpos, hheap⟩ := ih { m with
      pos := Function.update m.pos n (fillPattern n)
      heap := Function.update m.heap (fillPattern n) n } (by omega)
    have hne : j ≠ n := by omega
    rw [hpos, hheap]
    exact ⟨Function.update_of_ne hne _ _,
      Function.update_of_ne (fun heq => hne (fillPattern_inj heq)) _ _⟩

theorem fill_spec (m : RollingMedian α) (h : j < n) :
    (fill n m).pos j = fillPattern j ∧ (fill n m).heap (fillPattern j) = j := by
  induction n generalizing m with
  | zero => exact absurd h (Nat.not_lt_zero j)
  | succ n ih =>
    unfold fill
    rcases Nat.lt_succ_iff_lt_or_eq.mp h with hlt | rfl
    · exact ih _ hlt
    · obtain ⟨hpos, hheap⟩ := fill_passed { m with
        pos := Function.update m.pos j (fillPattern j)
        heap := Function.update m.heap (fillPattern j) j } (Nat.le_refl j)
      rw [hpos, hheap]
      exact ⟨Function.update_self _ _ _, Function.update_self _ _ _⟩

theorem clear_N (m : RollingMedian α) : m.clear.N = m.N := (fill_frame m.N _).2.1

theorem clear_sz (m : RollingMedian α) : m.clear.sz = 0 := (fill_frame m.N _).2.2.2.2.2

variable [LinearOrder α]

/-- A cleared state is sound, whatever the memory held. -/
theorem clear_sound (h : 0 < m.N) : m.clear.Sound := by
  obtain ⟨-, hN, hidx, hmin, hmax, hsz⟩ :=
    fill_frame m.N { m with idx := 0, minCt := 0, maxCt := 0, sz := 0 }
  change m.clear.N = m.N at hN
  change m.clear.idx = 0 at hidx
  change m.clear.minCt = 0 at hmin
  change m.clear.maxCt = 0 at hmax
  change m.clear.sz = 0 at hsz
  have htable {j : Nat} (hj : j < m.N) : m.clear.pos j = fillPattern j ∧
      m.clear.heap (fillPattern j) = j := fill_spec _ hj
  have hzero : m.clear.pos 0 = 0 ∧ m.clear.heap 0 = 0 := htable h
  refine ⟨⟨by omega, by omega, by omega, fun _ => by rw [hidx, hsz], by omega, by omega,
    fun i hlo hhi => ?_, fun j hj => ?_, fun j hj hjN => htable (by omega)⟩, fun s j hj hle => ?_⟩
  · obtain rfl : i = 0 := by omega
    rw [hzero.2, hsz]
    exact ⟨Nat.one_pos, hzero.1⟩
  · obtain rfl : j = 0 := by omega
    rw [hzero.1]
    exact ⟨by omega, by omega, hzero.2⟩
  · have hcount : m.clear.count s = 0 := by
      cases s with
      | min => exact hmin
      | max => exact hmax
    omega

end Clear

/-! ## The window -/

section Window

variable {α : Type} {m m' : RollingMedian α}

/-- The items in the ring. -/
def items (m : RollingMedian α) : List α := (List.range m.sz).map m.data

/-- The items from the oldest on. -/
def window (m : RollingMedian α) : List α := m.items.rotate m.idx

theorem length_items (m : RollingMedian α) : m.items.length = m.sz := by
  rw [items, List.length_map, List.length_range]

theorem length_window (m : RollingMedian α) : m.window.length = m.sz := by
  rw [window, List.length_rotate, length_items]

theorem Rearranged.window_eq (h : m.Rearranged m') : m'.window = m.window := by
  rw [window, window, items, items, h.data_eq, h.sz_eq, h.idx_eq]

/-- The window slides on by the item that is put. -/
theorem Layout.window_written (h : m.Layout) (v : α) :
    (m.written v).window = (m.window ++ [v]).rtake m.N := by
  have hlen : (m.window ++ [v]).length = m.sz + 1 := by
    rw [List.length_append, length_window, List.length_singleton]
  have hsz := h.sz_le
  change ((List.range (min (m.sz + 1) m.N)).map (Function.update m.data m.idx v)).rotate
    ((m.idx + 1) % m.N) = _
  rcases Nat.lt_or_eq_of_le hsz with hlt | hfull
  · have hidx := h.idx_eq hlt
    have hwindow : m.window = m.items := by
      rw [window, hidx, ← length_items, List.rotate_length]
    have hitems : (List.range (m.sz + 1)).map (Function.update m.data m.sz v) = m.items ++ [v] := by
      rw [List.range_succ, List.map_append, List.map_singleton, Function.update_self, items]
      congr 1
      refine List.map_congr_left fun j hj => Function.update_of_ne ?_ _ _
      exact Nat.ne_of_lt (List.mem_range.mp hj)
    rw [SlidingWindow.of_length_le (hlen.trans_le hlt), hidx, Nat.min_eq_left hlt, hitems, hwindow]
    have hnext : m.sz + 1 ≤ m.N := hlt
    rcases Nat.lt_or_eq_of_le hnext with hroom | hlast
    · rw [Nat.mod_eq_of_lt hroom]
      have hlen' : (m.items ++ [v]).length = m.sz + 1 := by
        rw [List.length_append, length_items, List.length_singleton]
      rw [← hlen', List.rotate_length]
    · rw [← hlast, Nat.mod_self, List.rotate_zero]
  · have hidx : m.idx < m.items.length := by
      rw [length_items, hfull]
      exact h.idx_lt
    have hset : (List.range m.N).map (Function.update m.data m.idx v) = m.items.set m.idx v := by
      refine List.ext_getElem (by simp [items, hfull]) fun j hj _ => ?_
      rw [List.getElem_set]
      simp only [items, List.getElem_map, List.getElem_range, Function.update_apply]
      simp only [eq_comm]
    have hlen' : (m.items.set m.idx v).length = m.N := by
      rw [List.length_set, length_items, hfull]
    have hslid : (m.items.set m.idx v).rotate (m.idx + 1) =
        m.items.drop (m.idx + 1) ++ (m.items.take m.idx ++ [v]) := by
      have hfront : (m.items.take m.idx ++ [v]).length = m.idx + 1 := by
        rw [List.length_append, List.length_take_of_le hidx.le, List.length_singleton]
      rw [List.set_eq_take_append_cons_drop, if_pos hidx, List.append_cons, ← hfront,
        List.rotate_append_length_eq, hfront]
    have hdropped : (m.window ++ [v]).rtake m.N =
        m.items.drop (m.idx + 1) ++ m.items.take m.idx ++ [v] := by
      rw [List.rtake, hlen, hfull, Nat.add_sub_cancel_left, window,
        List.rotate_eq_drop_append_take hidx.le, List.drop_eq_getElem_cons hidx]
      rfl
    rw [Nat.min_eq_right (by omega), hset, ← hlen', List.rotate_mod, hslid, hlen', hdropped,
      List.append_assoc]

end Window

/-! ## The median -/

section Sides

variable {α : Type} {m : RollingMedian α}

/-- The items of a side, from the median on. -/
def side (s : HeapSide) (m : RollingMedian α) : List α :=
  (List.range (m.count s)).map fun i => m.keys s (i + 1)

/-- The places of the heap that are in use. -/
def places (m : RollingMedian α) : List Int :=
  (List.range m.maxCt).map (fun i => -((i + 1 : Nat) : Int)) ++
    0 :: (List.range m.minCt).map (fun i => ((i + 1 : Nat) : Int))

theorem mem_places {i : Int} : i ∈ m.places ↔ -m.maxCt ≤ i ∧ i ≤ m.minCt := by
  simp only [places, List.mem_append, List.mem_cons, List.mem_map, List.mem_range]
  refine ⟨?_, fun ⟨hlo, hhi⟩ => ?_⟩
  · rintro (⟨j, hj, rfl⟩ | rfl | ⟨j, hj, rfl⟩) <;> omega
  · rcases Int.lt_trichotomy i 0 with hneg | rfl | hpos
    · exact .inl ⟨i.natAbs - 1, by omega, by omega⟩
    · exact .inr (.inl rfl)
    · exact .inr (.inr ⟨i.natAbs - 1, by omega, by omega⟩)

theorem nodup_places (m : RollingMedian α) : m.places.Nodup := by
  refine List.nodup_append'.mpr ⟨List.nodup_range.map ?_, List.nodup_cons.mpr ⟨?_, ?_⟩, ?_⟩
  · intro i j h
    simp only at h
    omega
  · simp only [List.mem_map, not_exists, not_and]
    omega
  · refine List.nodup_range.map ?_
    intro i j h
    simp only at h
    omega
  · intro i hi hi'
    simp only [List.mem_cons, List.mem_map] at hi hi'
    obtain ⟨j, -, rfl⟩ := hi
    rcases hi' with hzero | ⟨k, -, hk⟩ <;> omega

variable [LinearOrder α]

/-- The heap holds the items of the ring, with the median between its sides. -/
theorem Sound.perm (h : m.Sound) (hsz : 0 < m.sz) :
    m.items.Perm (m.side .max ++ m.keys .min 0 :: m.side .min) := by
  have hmap : m.side .max ++ m.keys .min 0 :: m.side .min = (m.places.map m.heap).map m.data := by
    simp only [side, places, keys, key, HeapSide.place, count, List.map_append, List.map_cons,
      List.map_map, Function.comp_def]
    rfl
  rw [hmap]
  have hused : m.sz ⊔ 1 = m.sz := by omega
  refine List.Perm.map _ ((List.perm_ext_iff_of_nodup List.nodup_range ?_).mpr fun j => ?_)
  · refine (nodup_places m).map_on fun i hi j hj heq => ?_
    obtain ⟨hi', hi⟩ := h.layout.live i (mem_places.mp hi).1 (mem_places.mp hi).2
    obtain ⟨hj', hj⟩ := h.layout.live j (mem_places.mp hj).1 (mem_places.mp hj).2
    rw [← hi, heq, hj]
  · rw [List.mem_range, List.mem_map]
    refine ⟨fun hj => ?_, ?_⟩
    · obtain ⟨hlo, hhi, hback⟩ := h.layout.used j (hused.symm ▸ hj)
      exact ⟨m.pos j, mem_places.mpr ⟨hlo, hhi⟩, hback⟩
    · rintro ⟨i, hi, rfl⟩
      obtain ⟨hlive, -⟩ := h.layout.live i (mem_places.mp hi).1 (mem_places.mp hi).2
      exact hused ▸ hlive

theorem Sound.side_min (h : m.Sound) : ∀ b ∈ m.side .min, m.keys .min 0 ≤ b := by
  intro b hb
  obtain ⟨i, hi, rfl⟩ := List.mem_map.mp hb
  exact not_lt.mp ((h.ordered .min).root_le (i + 1) (List.mem_range.mp hi))

theorem Sound.side_max (h : m.Sound) : ∀ a ∈ m.side .max, a ≤ m.keys .min 0 := by
  intro a ha
  obtain ⟨i, hi, rfl⟩ := List.mem_map.mp ha
  exact not_lt.mp ((h.ordered .max).root_le (i + 1) (List.mem_range.mp hi))

end Sides

variable {m : RollingMedian Nat}

theorem getMid_comm (a b : Nat) : getMid a b = getMid b a := by
  unfold getMid
  rw [Nat.add_comm (a / 2), Nat.add_comm (a - 2 * (a / 2))]

/-- The median of the heaps is that of the items, sorted. -/
theorem Sound.median_eq (h : m.Sound) (hsz : 0 < m.sz) : m.median = Monero.median m.items := by
  have hperm := h.perm hsz
  have hbelow := h.side_max
  have habove := h.side_min
  have hminCt := h.layout.minCt_eq
  have hmaxCt := h.layout.maxCt_eq
  have hlen : (m.side .max).length = m.maxCt := by
    rw [side, List.length_map, List.length_range]
    rfl
  have hmid := MiddleElement.getD_insertionSort hperm hbelow habove 0
  rw [hlen] at hmid
  have hplain : Monero.median m.items =
      if m.sz = 0 then 0
      else if m.sz % 2 = 1 then (m.items.insertionSort (· ≤ ·)).getD (m.sz / 2) 0
      else getMid ((m.items.insertionSort (· ≤ ·)).getD (m.sz / 2 - 1) 0)
        ((m.items.insertionSort (· ≤ ·)).getD (m.sz / 2) 0) := by
    rw [Monero.median, length_items]
  rw [hplain, if_neg hsz.ne', ← hmaxCt, hmid]
  change (if m.minCt < m.maxCt then getMid (m.keys .min 0) (m.keys .max 1) else m.keys .min 0) = _
  split
  · rename_i heven
    -- An even number of items: the one before the middle is the first of the lower side.
    obtain ⟨k, hk⟩ : ∃ k, m.maxCt = k + 1 := ⟨m.maxCt - 1, by omega⟩
    have hside : m.side .max = m.keys .max 1 :: (List.range k).map fun i => m.keys .max (i + 1 + 1) := by
      rw [side, show m.count .max = k + 1 from hk, List.range_succ_eq_map, List.map_cons,
        List.map_map]
      rfl
    rw [hside] at hperm hbelow
    have htop : ∀ a ∈ (List.range k).map fun i => m.keys .max (i + 1 + 1), a ≤ m.keys .max 1 := by
      intro a ha
      obtain ⟨i, hi, rfl⟩ := List.mem_map.mp ha
      have hi' := List.mem_range.mp hi
      exact not_lt.mp ((h.ordered .max).child_le (i + 1 + 1) (by omega)
        (by change _ ≤ m.maxCt; omega))
    have hpred := MiddleElement.getD_insertionSort_pred hperm htop
      (hbelow _ List.mem_cons_self) habove 0
    rw [List.length_map, List.length_range] at hpred
    rw [if_neg (by omega), hk, Nat.add_sub_cancel, hpred, getMid_comm]
  · rename_i hodd
    rw [if_pos (by omega)]

theorem median_perm {v w : List Nat} (h : v.Perm w) : Monero.median v = Monero.median w := by
  have hsorted : v.insertionSort (· ≤ ·) = w.insertionSort (· ≤ ·) :=
    List.Perm.eq_of_pairwise' (List.pairwise_insertionSort (· ≤ ·) _)
      (List.pairwise_insertionSort (· ≤ ·) _) ((List.perm_insertionSort _ v).trans
        (h.trans (List.perm_insertionSort _ w).symm))
  unfold Monero.median
  rw [hsorted, h.length_eq]

/-! ## Runs -/

/-- A call that changes the state. -/
inductive Call where
  | insert (v : Nat)
  | clear
  deriving DecidableEq, Repr

/-- The state under calls one after another. -/
def machine : Machine (RollingMedian Nat) Call Unit where
  step m
    | .insert v => ((), m.insert v)
    | .clear => ((), m.clear)

/-- What the state is for: the last `N` items since it was cleared. -/
def windowMachine (N : Nat) : Machine (List Nat) Call Unit where
  step w
    | .insert v => ((), (w ++ [v]).rtake N)
    | .clear => ((), [])

/-- A sound state whose window is this list. -/
structure Holds (N : Nat) (m : RollingMedian Nat) (w : List Nat) : Prop where
  sound : m.Sound
  N_eq : m.N = N
  window_eq : m.window = w

variable {N : Nat} {w : List Nat}

theorem holds_clear (hN : 0 < m.N) : Holds m.N m.clear [] where
  sound := clear_sound hN
  N_eq := m.clear_N
  window_eq := List.eq_nil_of_length_eq_zero ((length_window _).trans m.clear_sz)

theorem Holds.insert (h : Holds N m w) (v : Nat) : Holds N (m.insert v) ((w ++ [v]).rtake N) := by
  obtain ⟨hmoved, hsound⟩ := h.sound.insert v
  refine ⟨hsound, hmoved.N_eq.trans h.N_eq, ?_⟩
  rw [hmoved.window_eq, h.sound.layout.window_written, h.window_eq, h.N_eq]

/-- Every call does to the state what it does to the window. -/
theorem Holds.step (h : Holds N m w) (c : Call) :
    Holds N (machine.step m c).2 ((windowMachine N).step w c).2 := by
  cases c with
  | insert v => exact h.insert v
  | clear =>
    have hcleared := holds_clear h.sound.layout.N_pos
    rw [h.N_eq] at hcleared
    exact hcleared

theorem Holds.run (h : Holds N m w) (calls : List Call) :
    Holds N (machine.final m calls) ((windowMachine N).final w calls) := by
  induction calls generalizing m w with
  | nil => exact h
  | cons c calls ih =>
    rw [Machine.final_cons, Machine.final_cons]
    exact ih (h.step c)

theorem Holds.median_eq (h : Holds N m w) (hne : w ≠ []) : m.median = Monero.median w := by
  have hsz : 0 < m.sz := by
    rw [← length_window, h.window_eq]
    exact List.length_pos_iff.mpr hne
  rw [h.sound.median_eq hsz, ← h.window_eq]
  exact median_perm (List.rotate_perm _ _).symm

theorem Holds.size_eq (h : Holds N m w) : m.sz = w.length := by
  rw [← length_window, h.window_eq]

/-- After any calls on a state that was constructed on any memory, the median that is kept is
    the median of the last items since the last clearing. -/
theorem median_run (hN : 0 < m.N) (calls : List Call)
    (hne : (windowMachine m.N).final [] calls ≠ []) :
    (machine.final m.clear calls).median =
      Monero.median ((windowMachine m.N).final [] calls) :=
  ((holds_clear hN).run calls).median_eq hne

/-- A state for four items, on memory that is all zero. -/
def sampleMedian : RollingMedian Nat where
  data _ := 0
  pos _ := 0
  heap _ := 0
  N := 4

theorem median_run_sample :
    (machine.final sampleMedian.clear
        [.insert 9, .clear, .insert 5, .insert 1, .insert 7, .insert 3, .insert 8]).median =
      Monero.median [1, 7, 3, 8] :=
  median_run (m := sampleMedian) (by decide)
    [.insert 9, .clear, .insert 5, .insert 1, .insert 7, .insert 3, .insert 8]
    (by decide)

end RandomLite.Monero.RollingMedian
