-- SUMMARY: The median of a sliding window, kept in two heaps around it (`epee/rolling_median.h`): it is the median of the last items.
import Mathlib.Data.Int.Interval
import RandomLite.Library.Machine
import RandomLite.Library.MiddleElement
import RandomLite.Library.SiftHeap
import RandomLite.Library.SlidingWindow
import RandomLite.Monero.BlockTemplate

/-!
# Rolling median

A ring of the last items, and a heap of their places in the ring: place 0 of the heap is
the median, the places above it are a heap of the greater items, those below it a heap of
the lesser ones. The two sides are mirror images; what they share is said of a `HeapSide`.
-/

namespace RandomLite.Monero

/-- `rolling_median_t`. -/
structure RollingMedian (α : Type) where
  /-- Circular queue of values. -/
  data : Nat → α
  /-- Index into `heap` for each value. -/
  pos : Nat → Int
  /-- Max/median/min heap holding indexes into `data`. -/
  heap : Int → Nat
  N : Nat
  idx : Nat := 0
  minCt : Nat := 0
  maxCt : Nat := 0
  sz : Nat := 0

/-- The heap above the median, or the one below it. -/
inductive HeapSide where
  | min
  | max
  deriving DecidableEq, Repr

namespace HeapSide

def other : HeapSide → HeapSide
  | min => max
  | max => min

/-- The place in the heap of a place counted from the median. -/
def place : HeapSide → Nat → Int
  | min, i => i
  | max, i => -i

/-- The order of the side: its first item is nearest the median. -/
def Less {α : Type} [LT α] : HeapSide → α → α → Prop
  | min, a, b => a < b
  | max, a, b => b < a

end HeapSide

namespace RollingMedian

variable {α : Type}

/-! ## Ring and heap -/

/-- The item at a place of the heap. -/
def key (m : RollingMedian α) (i : Int) : α := m.data (m.heap i)

/-- `mmexchange`. -/
def mmexchange (m : RollingMedian α) (i j : Int) : RollingMedian α :=
  let t := m.heap i
  let heap := Function.update (Function.update m.heap i (m.heap j)) j t
  let pos := Function.update (Function.update m.pos (heap i) i) (heap j) j
  { m with heap, pos }

/-- The number of items on a side. -/
def count (s : HeapSide) (m : RollingMedian α) : Nat :=
  match s with
  | .min => m.minCt
  | .max => m.maxCt

/-- The item put into the ring. -/
def put (m : RollingMedian α) (v : α) : RollingMedian α :=
  { m with
    data := Function.update m.data m.idx v
    idx := (m.idx + 1) % m.N
    sz := min (m.sz + 1) m.N }

/-- The place in the heap of each place of the ring at first: median, max, min, max, ... -/
def fillPattern (n : Nat) : Int := ((n + 1) / 2 : Nat) * (if n % 2 = 1 then -1 else 1)

/-- The loop of `clear`. -/
def fill : Nat → RollingMedian α → RollingMedian α
  | 0, m => m
  | n + 1, m =>
    fill n { m with
      pos := Function.update m.pos n (fillPattern n)
      heap := Function.update m.heap (fillPattern n) n }

/-- `clear`. -/
def clear (m : RollingMedian α) : RollingMedian α :=
  fill m.N { m with idx := 0, minCt := 0, maxCt := 0, sz := 0 }

section Order

variable [LinearOrder α]

/-! ## Sifts -/

/-- `mmless`. -/
def mmless (m : RollingMedian α) (i j : Int) : Bool := m.data (m.heap i) < m.data (m.heap j)

/-- `mmCmpExch`. -/
def mmCmpExch (m : RollingMedian α) (i j : Int) : RollingMedian α × Bool :=
  if m.mmless i j then (m.mmexchange i j, true) else (m, false)

/-- The comparison of a child or sibling with an item, on a side. -/
def before (s : HeapSide) (m : RollingMedian α) (i j : Nat) : Bool :=
  match s with
  | .min => m.mmless i j
  | .max => m.mmless (-j) (-i)

/-- The exchange with a parent, on a side. -/
def cmpExch (s : HeapSide) (m : RollingMedian α) (i j : Nat) : RollingMedian α × Bool :=
  match s with
  | .min => m.mmCmpExch i j
  | .max => m.mmCmpExch (-j) (-i)

/-- The loop that sifts down from a place. -/
def sortDown (s : HeapSide) : Nat → RollingMedian α → Nat → RollingMedian α
  | 0, m, _ => m
  | fuel + 1, m, i =>
    let i := i * 2
    if i ≤ m.count s then
      let i := if i < m.count s ∧ m.before s (i + 1) i then i + 1 else i
      match m.cmpExch s i (i / 2) with
      | (m, true) => sortDown s fuel m i
      | (m, false) => m
    else m

/-- The loop that sifts up from a place, and the place it gets to. -/
def sortUp (s : HeapSide) : Nat → RollingMedian α → Nat → RollingMedian α × Nat
  | 0, m, i => (m, i)
  | fuel + 1, m, i =>
    if 0 < i then
      match m.cmpExch s i (i / 2) with
      | (m, true) => sortUp s fuel m (i / 2)
      | (m, false) => (m, i)
    else (m, i)

/-- `minSortDown`. -/
def minSortDown (m : RollingMedian α) (i : Nat) : RollingMedian α := sortDown .min m.minCt m i

/-- `maxSortDown`, of the place that many below the median. -/
def maxSortDown (m : RollingMedian α) (i : Nat) : RollingMedian α := sortDown .max m.maxCt m i

/-- `minSortUp`, with whether the median changed. -/
def minSortUp (m : RollingMedian α) (i : Nat) : RollingMedian α × Bool :=
  let (m, i) := sortUp .min i m i
  (m, i = 0)

/-- `maxSortUp`, of the place that many below the median. -/
def maxSortUp (m : RollingMedian α) (i : Nat) : RollingMedian α × Bool :=
  let (m, i) := sortUp .max i m i
  (m, i = 0)

/-! ## Inserting -/

/-- What `insert` does last in the heap above the median. -/
def settleMin (m : RollingMedian α) (p : Nat) : RollingMedian α :=
  match m.minSortUp p with
  | (m, true) =>
    match m.mmCmpExch 0 (-1) with
    | (m, true) => m.maxSortDown 1
    | (m, false) => m
  | (m, false) => m

/-- What it does last in the heap below the median. -/
def settleMax (m : RollingMedian α) (p : Nat) : RollingMedian α :=
  match m.maxSortUp p with
  | (m, true) =>
    if m.minCt ≠ 0 then
      match m.mmCmpExch 1 0 with
      | (m, true) => m.minSortDown 1
      | (m, false) => m
    else m
  | (m, false) => m

/-- What it does of the heap below a new median. -/
def settleRootMax (m : RollingMedian α) : RollingMedian α :=
  if m.maxCt ≠ 0 then
    match m.maxSortUp 1 with
    | (m, true) => m.maxSortDown 1
    | (m, false) => m
  else m

/-- What it does of the heap above a new median. -/
def settleRootMin (m : RollingMedian α) : RollingMedian α :=
  if m.minCt ≠ 0 then
    match m.minSortUp 1 with
    | (m, true) => m.minSortDown 1
    | (m, false) => m
  else m

/-- `insert`. -/
def insert (m : RollingMedian α) (v : α) : RollingMedian α :=
  let p := m.pos m.idx
  let old := m.data m.idx
  let m := m.put v
  if 0 < p then
    if m.minCt < (m.N - 1) / 2 then settleMin { m with minCt := m.minCt + 1 } p.natAbs
    else if old < v then m.minSortDown p.natAbs
    else m.settleMin p.natAbs
  else if p < 0 then
    if m.maxCt < m.N / 2 then settleMax { m with maxCt := m.maxCt + 1 } p.natAbs
    else if v < old then m.maxSortDown p.natAbs
    else m.settleMax p.natAbs
  else m.settleRootMax.settleRootMin

end Order

/-- `median`. -/
def median (m : RollingMedian Nat) : Nat :=
  let v := m.data (m.heap 0)
  if m.minCt < m.maxCt then getMid v (m.data (m.heap (-1))) else v

/-! ## The two tables -/

/-- The ring, its two counts and the tables between it and the heap, which are inverse to each
    other. The median's place is used from the start. -/
structure Layout (m : RollingMedian α) : Prop where
  N_pos : 0 < m.N
  idx_lt : m.idx < m.N
  sz_le : m.sz ≤ m.N
  idx_eq : m.sz < m.N → m.idx = m.sz
  minCt_eq : m.minCt = (m.sz - 1) / 2
  maxCt_eq : m.maxCt = m.sz / 2
  live : ∀ i : Int, -m.maxCt ≤ i → i ≤ m.minCt → m.heap i < m.sz ⊔ 1 ∧ m.pos (m.heap i) = i
  used : ∀ j, j < m.sz ⊔ 1 → -m.maxCt ≤ m.pos j ∧ m.pos j ≤ m.minCt ∧ m.heap (m.pos j) = j
  free : ∀ j, m.sz ⊔ 1 ≤ j → j < m.N → m.pos j = fillPattern j ∧ m.heap (fillPattern j) = j

/-- A state with the same items in the ring, in places that are in order. -/
structure Rearranged (m m' : RollingMedian α) : Prop where
  data_eq : m'.data = m.data
  N_eq : m'.N = m.N
  idx_eq : m'.idx = m.idx
  minCt_eq : m'.minCt = m.minCt
  maxCt_eq : m'.maxCt = m.maxCt
  sz_eq : m'.sz = m.sz
  layout : m'.Layout

variable {m m' : RollingMedian α} {s : HeapSide} {i j n c : Nat}

theorem Layout.rearranged (h : m.Layout) : m.Rearranged m := ⟨rfl, rfl, rfl, rfl, rfl, rfl, h⟩

theorem Rearranged.trans {m₁ m₂ m₃ : RollingMedian α} (h : m₁.Rearranged m₂)
    (h' : m₂.Rearranged m₃) : m₁.Rearranged m₃ where
  data_eq := h'.data_eq.trans h.data_eq
  N_eq := h'.N_eq.trans h.N_eq
  idx_eq := h'.idx_eq.trans h.idx_eq
  minCt_eq := h'.minCt_eq.trans h.minCt_eq
  maxCt_eq := h'.maxCt_eq.trans h.maxCt_eq
  sz_eq := h'.sz_eq.trans h.sz_eq
  layout := h'.layout

theorem Rearranged.count_eq (h : m.Rearranged m') (s : HeapSide) : m'.count s = m.count s := by
  cases s with
  | min => exact h.minCt_eq
  | max => exact h.maxCt_eq

theorem mmexchange_heap (m : RollingMedian α) (i j : Int) :
    (m.mmexchange i j).heap = m.heap ∘ Equiv.swap i j := by
  rw [Equiv.swap_comm, Equiv.comp_swap_eq_update]
  rfl

theorem mmexchange_key (m : RollingMedian α) (i j x : Int) :
    (m.mmexchange i j).key x = m.key (Equiv.swap i j x) := by
  rw [key, mmexchange_heap]
  rfl

/-- An exchange of two places in use keeps the tables inverse to each other. -/
theorem Layout.mmexchange (h : m.Layout) {i j : Int} (hi : -m.maxCt ≤ i ∧ i ≤ m.minCt)
    (hj : -m.maxCt ≤ j ∧ j ≤ m.minCt) : m.Rearranged (m.mmexchange i j) := by
  obtain ⟨hil, hip⟩ := h.live i hi.1 hi.2
  obtain ⟨hjl, hjp⟩ := h.live j hj.1 hj.2
  have hheap := m.mmexchange_heap i j
  have hpos : ∀ x, (m.mmexchange i j).pos x =
      if x = m.heap i then j else if x = m.heap j then i else m.pos x := by
    intro x
    have hi' : (m.mmexchange i j).heap i = m.heap j := by
      rw [hheap, Function.comp_apply, Equiv.swap_apply_left]
    have hj' : (m.mmexchange i j).heap j = m.heap i := by
      rw [hheap, Function.comp_apply, Equiv.swap_apply_right]
    change Function.update (Function.update m.pos ((m.mmexchange i j).heap i) i)
      ((m.mmexchange i j).heap j) j x = _
    rw [hi', hj']
    simp only [Function.update_apply]
  refine ⟨rfl, rfl, rfl, rfl, rfl, rfl, ⟨h.N_pos, h.idx_lt, h.sz_le, h.idx_eq, h.minCt_eq,
    h.maxCt_eq, fun x hlo hhi => ?_, fun x hx => ?_, fun x hx hN => ?_⟩⟩
  · obtain ⟨hxl, hxp⟩ := h.live x hlo hhi
    rw [hpos, hheap, Function.comp_apply]
    rcases eq_or_ne x i with rfl | hxi
    · rw [Equiv.swap_apply_left]
      refine ⟨hjl, ?_⟩
      split
      · rename_i hsame
        rw [← hjp, hsame, hip]
      · exact if_pos rfl
    rcases eq_or_ne x j with rfl | hxj
    · rw [Equiv.swap_apply_right]
      exact ⟨hil, if_pos rfl⟩
    · have hni : m.heap x ≠ m.heap i := fun heq => hxi (by rw [← hxp, heq, hip])
      have hnj : m.heap x ≠ m.heap j := fun heq => hxj (by rw [← hxp, heq, hjp])
      rw [Equiv.swap_apply_of_ne_of_ne hxi hxj, if_neg hni, if_neg hnj]
      exact ⟨hxl, hxp⟩
  · obtain ⟨hlo, hhi, hback⟩ := h.used x hx
    rw [hpos, hheap, Function.comp_apply]
    split
    · rename_i hxi
      rw [Equiv.swap_apply_right]
      exact ⟨hj.1, hj.2, hxi.symm⟩
    split
    · rename_i hxj
      rw [Equiv.swap_apply_left]
      exact ⟨hi.1, hi.2, hxj.symm⟩
    · rename_i hxi hxj
      have hni : m.pos x ≠ i := fun heq => hxi (by rw [← heq, hback])
      have hnj : m.pos x ≠ j := fun heq => hxj (by rw [← heq, hback])
      rw [Equiv.swap_apply_of_ne_of_ne hni hnj]
      exact ⟨hlo, hhi, hback⟩
  · obtain ⟨hfree, hback⟩ := h.free x hx hN
    have hxi : x ≠ m.heap i := fun heq => absurd hil (by rw [← heq]; exact Nat.not_lt.mpr hx)
    have hxj : x ≠ m.heap j := fun heq => absurd hjl (by rw [← heq]; exact Nat.not_lt.mpr hx)
    have hni : fillPattern x ≠ i := fun heq => hxi (by rw [← heq, hback])
    have hnj : fillPattern x ≠ j := fun heq => hxj (by rw [← heq, hback])
    rw [hpos, hheap, Function.comp_apply, if_neg hxi, if_neg hxj,
      Equiv.swap_apply_of_ne_of_ne hni hnj]
    exact ⟨hfree, hback⟩

/-! ## The two sides -/

/-- The items of a side by their place, from the median on. -/
def keys (s : HeapSide) (m : RollingMedian α) (i : Nat) : α := m.key (s.place i)

theorem Layout.place_live (h : m.Layout) (hi : i ≤ m.count s) :
    -m.maxCt ≤ s.place i ∧ s.place i ≤ m.minCt := by
  have hsides := h.minCt_eq
  cases s with
  | min =>
    have hle : i ≤ m.minCt := hi
    exact ⟨by simp only [HeapSide.place]; omega, by simp only [HeapSide.place]; omega⟩
  | max =>
    have hle : i ≤ m.maxCt := hi
    exact ⟨by simp only [HeapSide.place]; omega, by simp only [HeapSide.place]; omega⟩

theorem place_inj (h : s.place i = s.place j) : i = j := by
  cases s with
  | min => exact Int.ofNat_inj.mp h
  | max => exact Int.ofNat_inj.mp (Int.neg_inj.mp h)

theorem place_other_ne (hi : 0 < i) : s.other.place i ≠ s.place j := by
  cases s with
  | min => simp only [HeapSide.other, HeapSide.place]; omega
  | max => simp only [HeapSide.other, HeapSide.place]; omega

theorem keys_zero (s : HeapSide) (m : RollingMedian α) : m.keys s.other 0 = m.keys s 0 := by
  cases s with
  | min => rfl
  | max => rfl

/-- What an exchange on a side does to the items of both. -/
theorem keys_mmexchange {a b : Int} (hswap : Equiv.swap a b = Equiv.swap (s.place i) (s.place j)) :
    (m.mmexchange a b).keys s = SiftHeap.exchange (m.keys s) i j ∧
      ∀ x, 0 < x → (m.mmexchange a b).keys s.other x = m.keys s.other x := by
  refine ⟨funext fun x => ?_, fun x hx => ?_⟩
  · rw [keys, mmexchange_key, hswap]
    rcases eq_or_ne x i with rfl | hxi
    · rw [Equiv.swap_apply_left, SiftHeap.exchange_left]
      rfl
    rcases eq_or_ne x j with rfl | hxj
    · rw [Equiv.swap_apply_right, SiftHeap.exchange_right]
      rfl
    · rw [Equiv.swap_apply_of_ne_of_ne (fun h => hxi (place_inj h)) fun h => hxj (place_inj h),
        SiftHeap.exchange_other hxi hxj]
      rfl
  · rw [keys, mmexchange_key, hswap,
      Equiv.swap_apply_of_ne_of_ne (place_other_ne hx) (place_other_ne hx)]
    rfl

section Order

variable [LinearOrder α]

instance (s : HeapSide) : IsStrictTotalOrder α s.Less := by
  cases s with
  | min => exact inferInstanceAs (IsStrictTotalOrder α (· < ·))
  | max => exact inferInstanceAs (IsStrictTotalOrder α (· > ·))

theorem before_iff : m.before s i j = true ↔ s.Less (m.keys s i) (m.keys s j) := by
  cases s with
  | min => exact decide_eq_true_iff
  | max => exact decide_eq_true_iff

/-- A comparison with its exchange, on a side. -/
theorem Layout.cmpExch (h : m.Layout) (hi : i ≤ m.count s) (hj : j ≤ m.count s) :
    (m.cmpExch s i j = (m, false) ∧ ¬ s.Less (m.keys s i) (m.keys s j)) ∨
      ∃ m', m.cmpExch s i j = (m', true) ∧ s.Less (m.keys s i) (m.keys s j) ∧ m.Rearranged m' ∧
        m'.keys s = SiftHeap.exchange (m.keys s) i j ∧
        ∀ x, 0 < x → m'.keys s.other x = m.keys s.other x := by
  have hil := h.place_live hi
  have hjl := h.place_live hj
  cases hbefore : m.before s i j with
  | false =>
    have hnot := mt before_iff.mpr (by rw [hbefore]; exact Bool.false_ne_true)
    refine .inl ⟨?_, hnot⟩
    cases s with
    | min => exact if_neg (by rw [show m.mmless i j = false from hbefore]; exact Bool.false_ne_true)
    | max =>
      exact if_neg (by rw [show m.mmless (-j) (-i) = false from hbefore]; exact Bool.false_ne_true)
  | true =>
    have hless := before_iff.mp hbefore
    refine .inr ?_
    cases s with
    | min =>
      exact ⟨_, if_pos hbefore, hless, h.mmexchange hil hjl, keys_mmexchange rfl⟩
    | max =>
      exact ⟨_, if_pos hbefore, hless, h.mmexchange hjl hil, keys_mmexchange (Equiv.swap_comm _ _)⟩

/-! ## The loops -/

/-- The lesser of the two children, as the loop picks it. -/
theorem lesser_child
    (hc : c = if i * 2 < m.count s ∧ m.before s (i * 2 + 1) (i * 2) then i * 2 + 1 else i * 2) :
    ∀ j, 0 < j → j ≤ m.count s → j / 2 = i → ¬ s.Less (m.keys s j) (m.keys s c) := by
  intro j _ hle hchild
  split at hc
  · rename_i hright
    rcases (by omega : j = i * 2 ∨ j = c) with rfl | rfl
    · rw [hc]
      exact fun hless => asymm hless (before_iff.mp hright.2)
    · exact irrefl _
  · rename_i hleft
    rcases (by omega : j = c ∨ j = i * 2 + 1) with rfl | rfl
    · exact irrefl _
    · rw [hc]
      exact fun hless => hleft ⟨by omega, before_iff.mpr hless⟩

theorem sortDown_spec {fuel : Nat} (h : m.Layout) (hi : 0 < i) (hfuel : m.count s < fuel + i)
    (hkeys : SiftHeap.SiftsDown s.Less (m.count s) (m.keys s) i) :
    m.Rearranged (sortDown s fuel m i) ∧
      SiftHeap.Ordered s.Less (m.count s) ((sortDown s fuel m i).keys s) ∧
      (sortDown s fuel m i).keys s 0 = m.keys s 0 ∧
      ∀ x, 0 < x → (sortDown s fuel m i).keys s.other x = m.keys s.other x := by
  induction fuel generalizing m i with
  | zero => exact ⟨h.rearranged, hkeys.leaf (by omega), rfl, fun _ _ => rfl⟩
  | succ fuel ih =>
    unfold sortDown
    dsimp only
    split
    · rename_i hle
      generalize hc : (if i * 2 < m.count s ∧ m.before s (i * 2 + 1) (i * 2) = true
        then i * 2 + 1 else i * 2) = c
      have hparent : c / 2 = i := by
        rw [← hc]
        split
        · omega
        · omega
      have hcount : c ≤ m.count s := by
        rw [← hc]
        split
        · omega
        · exact hle
      have hlesser := lesser_child hc.symm
      rcases h.cmpExch hcount (hparent ▸ (Nat.div_le_self c 2).trans hcount : i ≤ m.count s) with
        ⟨hstays, hnot⟩ | ⟨m', hmoves, hless, hmoved, hkeys', hother⟩
      · rw [hparent, hstays]
        exact ⟨h.rearranged, hkeys.stop hlesser hnot, rfl, fun _ _ => rfl⟩
      · rw [hparent, hmoves]
        have hnext := hkeys.down hi hparent hcount hlesser hless
        rw [← hkeys', ← hmoved.count_eq s] at hnext
        obtain ⟨hmoved', hordered, hroot, hrest⟩ :=
          ih hmoved.layout (by omega) (by rw [hmoved.count_eq]; omega) hnext
        refine ⟨hmoved.trans hmoved', ?_, ?_, fun x hx => (hrest x hx).trans (hother x hx)⟩
        · rw [← hmoved.count_eq s]
          exact hordered
        · rw [hroot, hkeys', SiftHeap.exchange_other (by omega) (by omega)]
    · rename_i hleaf
      exact ⟨h.rearranged, hkeys.leaf (by omega), rfl, fun _ _ => rfl⟩

theorem sortUp_zero (fuel : Nat) (m : RollingMedian α) : sortUp s fuel m 0 = (m, 0) := by
  cases fuel with
  | zero => rfl
  | succ fuel =>
    unfold sortUp
    exact if_neg (Nat.lt_irrefl 0)

theorem sortUp_spec {fuel : Nat} (h : m.Layout) (hi : i ≤ m.count s) (hfuel : i ≤ fuel)
    (hkeys : SiftHeap.SiftsUp s.Less (m.count s) (m.keys s) i) :
    m.Rearranged (sortUp s fuel m i).1 ∧
      SiftHeap.Ordered s.Less (m.count s) ((sortUp s fuel m i).1.keys s) ∧
      (∀ x, 0 < x → (sortUp s fuel m i).1.keys s.other x = m.keys s.other x) ∧
      ((sortUp s fuel m i).2 ≠ 0 → (sortUp s fuel m i).1.keys s 0 = m.keys s 0) ∧
      ((sortUp s fuel m i).2 = 0 → (sortUp s fuel m i).1.keys s 0 = m.keys s i ∧
        (0 < i → (sortUp s fuel m i).1.keys s 1 = m.keys s 0)) := by
  induction fuel generalizing m i with
  | zero =>
    obtain rfl := Nat.le_zero.mp hfuel
    exact ⟨h.rearranged, hkeys.root, fun _ _ => rfl, fun _ => rfl,
      fun _ => ⟨rfl, fun hpos => absurd hpos (Nat.lt_irrefl 0)⟩⟩
  | succ fuel ih =>
    unfold sortUp
    split
    · rename_i hpos
      have hup : i / 2 < i := Nat.div_lt_self hpos (by decide)
      rcases h.cmpExch hi (hup.le.trans hi) with
        ⟨hstays, hnot⟩ | ⟨m', hmoves, hless, hmoved, hkeys', hother⟩
      · rw [hstays]
        exact ⟨h.rearranged, hkeys.others.stop hnot, fun _ _ => rfl, fun _ => rfl,
          fun hzero => absurd hzero (Nat.ne_of_gt hpos)⟩
      · rw [hmoves]
        dsimp only
        have hnext := hkeys.up hpos hi hless
        rw [← hkeys', ← hmoved.count_eq s] at hnext
        obtain ⟨hmoved', hordered, hrest, hroot, hchanged⟩ :=
          ih hmoved.layout (by rw [hmoved.count_eq]; exact hup.le.trans hi) (by omega) hnext
        refine ⟨hmoved.trans hmoved', ?_, fun x hx => (hrest x hx).trans (hother x hx),
          fun hne => ?_, fun hzero => ?_⟩
        · rw [← hmoved.count_eq s]
          exact hordered
        · have htop : i / 2 ≠ 0 := by
            intro htop
            rw [htop, sortUp_zero] at hne
            exact hne rfl
          rw [hroot hne, hkeys', SiftHeap.exchange_other (by omega) (by omega)]
        · obtain ⟨hroot', hone⟩ := hchanged hzero
          refine ⟨by rw [hroot', hkeys', SiftHeap.exchange_right], fun _ => ?_⟩
          rcases Nat.eq_zero_or_pos (i / 2) with htop | htop
          · have hlast : i = 1 := by omega
            subst hlast
            rw [htop, sortUp_zero, hkeys']
            exact SiftHeap.exchange_left 1 0
          · rw [hone htop, hkeys', SiftHeap.exchange_other (by omega) (by omega)]
    · rename_i hzero
      obtain rfl := Nat.eq_zero_of_not_pos hzero
      exact ⟨h.rearranged, hkeys.root, fun _ _ => rfl, fun _ => rfl,
        fun _ => ⟨rfl, fun hpos => absurd hpos (Nat.lt_irrefl 0)⟩⟩

/-! ## Around the median -/

/-- The tables, with both sides in order. -/
structure Sound (m : RollingMedian α) : Prop where
  layout : m.Layout
  ordered : ∀ s, SiftHeap.Ordered s.Less (m.count s) (m.keys s)

theorem less_other {a b : α} : s.other.Less a b ↔ s.Less b a := by
  cases s with
  | min => exact Iff.rfl
  | max => exact Iff.rfl

theorem other_other (s : HeapSide) : s.other.other = s := by
  cases s with
  | min => rfl
  | max => rfl

theorem Rearranged.sound (h : m.Rearranged m')
    (hs : SiftHeap.Ordered s.Less (m.count s) (m'.keys s))
    (hother : SiftHeap.Ordered s.other.Less (m.count s.other) (m'.keys s.other)) : m'.Sound := by
  refine ⟨h.layout, fun side => ?_⟩
  rw [h.count_eq]
  have hside : side = s ∨ side = s.other := by
    cases s <;> cases side <;> simp [HeapSide.other]
  rcases hside with rfl | rfl
  · exact hs
  · exact hother

/-- The median exchanged with the first item of a side, if it is to be, and that sifted down. -/
def sinkRoot (s : HeapSide) (m : RollingMedian α) : RollingMedian α :=
  match m.cmpExch s 1 0 with
  | (m, true) => sortDown s (m.count s) m 1
  | (m, false) => m

theorem sinkRoot_spec (h : m.Layout) (hcount : 0 < m.count s)
    (hkeys : SiftHeap.OrderedBut s.Less (m.count s) (m.keys s) 1) :
    (sinkRoot s m = m ∧ SiftHeap.Ordered s.Less (m.count s) (m.keys s)) ∨
      m.Rearranged (sinkRoot s m) ∧
        SiftHeap.Ordered s.Less (m.count s) ((sinkRoot s m).keys s) ∧
        s.Less (m.keys s 1) (m.keys s 0) ∧ (sinkRoot s m).keys s 0 = m.keys s 1 ∧
        ∀ x, 0 < x → (sinkRoot s m).keys s.other x = m.keys s.other x := by
  unfold sinkRoot
  rcases h.cmpExch hcount (Nat.zero_le _) with
    ⟨hstays, hnot⟩ | ⟨m', hmoves, hless, hmoved, hkeys', hother⟩
  · rw [hstays]
    exact .inl ⟨rfl, hkeys.stop hnot⟩
  · rw [hmoves]
    have hnext := hkeys.down hless
    rw [← hkeys', ← hmoved.count_eq s] at hnext
    obtain ⟨hmoved', hordered, hroot, hrest⟩ :=
      sortDown_spec hmoved.layout Nat.one_pos (Nat.lt_succ_self _) hnext
    refine .inr ⟨hmoved.trans hmoved', ?_, hless, ?_, fun x hx => (hrest x hx).trans (hother x hx)⟩
    · rw [← hmoved.count_eq s]
      exact hordered
    · exact hroot.trans (by rw [hkeys', SiftHeap.exchange_right])

/-- A side whose median changed for one that does not come after its first item. -/
theorem ordered_of_root (h : SiftHeap.OrderedBut s.Less n (m.keys s) 1)
    (hsame : ∀ x, 0 < x → m'.keys s x = m.keys s x)
    (hroot : 0 < n → ¬ s.Less (m.keys s 1) (m'.keys s 0)) :
    SiftHeap.Ordered s.Less n (m'.keys s) := by
  rcases Nat.eq_zero_or_pos n with rfl | hpos
  · exact fun j hj hle => absurd hle (Nat.not_le.mpr hj)
  · refine (h.congr hsame).stop ?_
    rw [hsame 1 Nat.one_pos]
    exact hroot hpos

/-- An item sifted up on one side, and what then becomes of the median. -/
def settle (s : HeapSide) (m : RollingMedian α) (p : Nat) : RollingMedian α :=
  let r := sortUp s p m p
  if r.2 = 0 ∧ r.1.count s.other ≠ 0 then sinkRoot s.other r.1 else r.1

theorem settle_sound {p : Nat} (h : m.Layout) (hpos : 0 < p) (hp : p ≤ m.count s)
    (hkeys : SiftHeap.SiftsUp s.Less (m.count s) (m.keys s) p)
    (hother : SiftHeap.Ordered s.other.Less (m.count s.other) (m.keys s.other)) :
    m.Rearranged (settle s m p) ∧ (settle s m p).Sound := by
  obtain ⟨hmoved, hordered, hrest, hroot, hchanged⟩ := sortUp_spec h hp (Nat.le_refl p) hkeys
  unfold settle
  dsimp only
  generalize sortUp s p m p = r at hmoved hordered hrest hroot hchanged ⊢
  obtain ⟨m₁, e⟩ := r
  dsimp only at hmoved hordered hrest hroot hchanged ⊢
  rw [← hmoved.count_eq] at hordered hother
  split
  · rename_i hcase
    obtain ⟨hzero, hcount⟩ := hcase
    obtain ⟨hroot₁, hone⟩ := hchanged hzero
    rcases sinkRoot_spec hmoved.layout (Nat.pos_of_ne_zero hcount)
        ((hother.but 1).congr hrest) with
      ⟨hsame, ho⟩ | ⟨hmoved', ho, hless, hroot', hrest'⟩
    · rw [hsame]
      exact ⟨hmoved, hmoved.layout.rearranged.sound hordered ho⟩
    · refine ⟨hmoved.trans hmoved', hmoved'.sound ?_ ho⟩
      rw [other_other] at hrest'
      -- The old median is the first item of the side now, and no item of the other is beyond it.
      refine ordered_of_root (hordered.but 1) hrest' fun _ => ?_
      have hfirst := hother 1 Nat.one_pos (Nat.pos_of_ne_zero hcount)
      rw [less_other, show 1 / 2 = 0 from rfl, keys_zero] at hfirst
      rw [hone hpos, ← keys_zero s (sinkRoot s.other m₁), hroot', hrest 1 Nat.one_pos]
      exact hfirst
  · rename_i hcase
    refine ⟨hmoved, hmoved.layout.rearranged.sound hordered ?_⟩
    refine ordered_of_root (hother.but 1) hrest fun hcount => ?_
    have hne : e ≠ 0 := fun hzero => hcase ⟨hzero, Nat.ne_of_gt hcount⟩
    rw [keys_zero, hroot hne, ← keys_zero]
    exact hother 1 Nat.one_pos hcount

/-- A sift up from the first item of a side is one exchange. -/
theorem sortUp_one (s : HeapSide) (m : RollingMedian α) :
    sortUp s 1 m 1 = ((m.cmpExch s 1 0).1, if (m.cmpExch s 1 0).2 = true then 0 else 1) := by
  unfold sortUp
  rw [if_pos Nat.one_pos, show 1 / 2 = 0 from rfl]
  generalize m.cmpExch s 1 0 = r
  obtain ⟨m', exchanged⟩ := r
  cases exchanged with
  | false => rfl
  | true => rfl

theorem settleRootMax_eq (m : RollingMedian α) :
    m.settleRootMax = if m.maxCt ≠ 0 then sinkRoot .max m else m := by
  unfold settleRootMax maxSortUp sinkRoot
  rw [sortUp_one]
  generalize m.cmpExch .max 1 0 = r
  obtain ⟨m', exchanged⟩ := r
  cases exchanged with
  | false => rfl
  | true => rfl

theorem settleRootMin_eq (m : RollingMedian α) :
    m.settleRootMin = if m.minCt ≠ 0 then sinkRoot .min m else m := by
  unfold settleRootMin minSortUp sinkRoot
  rw [sortUp_one]
  generalize m.cmpExch .min 1 0 = r
  obtain ⟨m', exchanged⟩ := r
  cases exchanged with
  | false => rfl
  | true => rfl

theorem sortUp_maxCt (s : HeapSide) (fuel : Nat) (m : RollingMedian α) (i : Nat) :
    (sortUp s fuel m i).1.maxCt = m.maxCt := by
  induction fuel generalizing m i with
  | zero => rfl
  | succ fuel ih =>
    have hexchange : (m.cmpExch s i (i / 2)).1.maxCt = m.maxCt := by
      unfold RollingMedian.cmpExch mmCmpExch
      split <;> split <;> rfl
    unfold sortUp
    generalize m.cmpExch s i (i / 2) = r at hexchange ⊢
    obtain ⟨m', exchanged⟩ := r
    split
    · cases exchanged with
      | false => exact hexchange
      | true => exact (ih m' (i / 2)).trans hexchange
    · rfl

theorem settleMin_eq {p : Nat} (hcount : m.maxCt ≠ 0) : m.settleMin p = settle .min m p := by
  rw [← sortUp_maxCt .min p m p] at hcount
  unfold settleMin minSortUp settle sinkRoot
  generalize sortUp .min p m p = r at hcount ⊢
  obtain ⟨m', e⟩ := r
  dsimp only at hcount ⊢
  cases e with
  | zero => exact (if_pos ⟨rfl, hcount⟩).symm
  | succ e => exact (if_neg fun h => Nat.succ_ne_zero e h.1).symm

theorem settleMax_eq (m : RollingMedian α) (p : Nat) : m.settleMax p = settle .max m p := by
  unfold settleMax maxSortUp settle sinkRoot
  generalize sortUp .max p m p = r
  obtain ⟨m', e⟩ := r
  dsimp only
  cases e with
  | zero =>
    by_cases hcount : m'.minCt ≠ 0
    · exact (if_pos hcount).trans (if_pos ⟨rfl, hcount⟩).symm
    · exact (if_neg hcount).trans (if_neg fun h => hcount h.2).symm
  | succ e => exact (if_neg fun h => Nat.succ_ne_zero e h.1).symm

/-- What settling a new median on a side does. -/
theorem sinkRoot_cases (h : m.Layout)
    (hkeys : SiftHeap.OrderedBut s.Less (m.count s) (m.keys s) 1) :
    ((if m.count s ≠ 0 then sinkRoot s m else m) = m ∧
        SiftHeap.Ordered s.Less (m.count s) (m.keys s)) ∨
      ∃ m', (if m.count s ≠ 0 then sinkRoot s m else m) = m' ∧ m.Rearranged m' ∧ 0 < m.count s ∧
        SiftHeap.Ordered s.Less (m.count s) (m'.keys s) ∧
        s.Less (m.keys s 1) (m.keys s 0) ∧ m'.keys s 0 = m.keys s 1 ∧
        ∀ x, 0 < x → m'.keys s.other x = m.keys s.other x := by
  by_cases hcount : m.count s ≠ 0
  · rw [if_pos hcount]
    have hpos := Nat.pos_of_ne_zero hcount
    rcases sinkRoot_spec h hpos hkeys with hsame | ⟨hmoved, hordered, hless, hroot, hother⟩
    · exact .inl hsame
    · exact .inr ⟨_, rfl, hmoved, hpos, hordered, hless, hroot, hother⟩
  · rw [if_neg hcount]
    refine .inl ⟨rfl, fun j hj hle => absurd hle ?_⟩
    rw [not_not.mp hcount]
    exact Nat.not_le.mpr hj

/-- A new median is settled on one side after the other. -/
theorem settleRoot_sound (h : m.Layout)
    (hkeys : ∀ s, SiftHeap.OrderedBut s.Less (m.count s) (m.keys s) 1)
    (hcross : 0 < m.minCt → 0 < m.maxCt → ¬ m.keys .min 1 < m.keys .max 1) :
    m.Rearranged (m.settleRootMax.settleRootMin) ∧ (m.settleRootMax.settleRootMin).Sound := by
  rw [settleRootMin_eq, settleRootMax_eq]
  rcases sinkRoot_cases h (hkeys .max) with
    ⟨hsame, hmax⟩ | ⟨m₁, hm₁, hmoved, hmaxCt, hmax, hless, hroot, hother⟩
  · rw [show (if m.maxCt ≠ 0 then sinkRoot .max m else m) = m from hsame]
    rcases sinkRoot_cases h (hkeys .min) with
      ⟨hsame', hmin⟩ | ⟨m₂, hm₂, hmoved₂, hminCt, hmin, -, hroot₂, hother₂⟩
    · rw [show (if m.minCt ≠ 0 then sinkRoot .min m else m) = m from hsame']
      exact ⟨h.rearranged, h.rearranged.sound hmin hmax⟩
    · rw [show (if m.minCt ≠ 0 then sinkRoot .min m else m) = m₂ from hm₂]
      refine ⟨hmoved₂, hmoved₂.sound hmin ?_⟩
      refine ordered_of_root (hkeys .max) hother₂ fun hmaxCt => ?_
      rw [keys_zero, hroot₂]
      exact hcross hminCt hmaxCt
  · rw [show (if m.maxCt ≠ 0 then sinkRoot .max m else m) = m₁ from hm₁]
    have hmin₁ : SiftHeap.OrderedBut HeapSide.min.Less (m₁.count .min) (m₁.keys .min) 1 := by
      rw [hmoved.count_eq]
      exact (hkeys .min).congr hother
    rcases sinkRoot_cases hmoved.layout hmin₁ with
      ⟨hsame', hmin⟩ | ⟨m₂, -, -, hminCt, -, hless₂, -, -⟩
    · rw [show (if m₁.minCt ≠ 0 then sinkRoot .min m₁ else m₁) = m₁ from hsame']
      rw [hmoved.count_eq] at hmin
      exact ⟨hmoved, hmoved.sound hmin hmax⟩
    · -- The median came from below: nothing above it is less.
      rw [hmoved.count_eq] at hminCt
      rw [show m₁.keys .min 0 = m₁.keys .max 0 from rfl, hroot,
        show m₁.keys .min 1 = m.keys .min 1 from hother 1 Nat.one_pos] at hless₂
      exact absurd hless₂ (hcross hminCt hmaxCt)

end Order

/-! ## The item that is put -/

theorem fillPattern_odd (h : n % 2 = 1) : fillPattern n = -((n + 1) / 2 : Nat) := by
  rw [fillPattern, if_pos h, Int.mul_neg_one]

theorem fillPattern_even (h : n % 2 = 0) : fillPattern n = (n / 2 : Nat) := by
  have hhalf : (n + 1) / 2 = n / 2 := by omega
  rw [fillPattern, if_neg (by omega), mul_one, hhalf]

/-- The state once the item is in the ring, with the side counted in where it is new. -/
def written (m : RollingMedian α) (v : α) : RollingMedian α :=
  { m.put v with
    minCt := (min (m.sz + 1) m.N - 1) / 2
    maxCt := min (m.sz + 1) m.N / 2 }

theorem written_eq {v : α} {a b : Nat} (hmin : a = (min (m.sz + 1) m.N - 1) / 2)
    (hmax : b = min (m.sz + 1) m.N / 2) :
    { m.put v with minCt := a, maxCt := b } = m.written v := by
  subst hmin hmax
  rfl

theorem Layout.pos_idx_new (h : m.Layout) (hsz : 0 < m.sz) (hlt : m.sz < m.N) :
    m.pos m.idx = fillPattern m.sz ∧ m.heap (fillPattern m.sz) = m.sz := by
  rw [h.idx_eq hlt]
  exact h.free m.sz (by omega) hlt

theorem Layout.idx_used (h : m.Layout) (hfull : ¬ (0 < m.sz ∧ m.sz < m.N)) :
    m.idx < m.sz ⊔ 1 := by
  have hlt := h.idx_lt
  have hle := h.sz_le
  rcases Nat.eq_zero_or_pos m.sz with hzero | hpos
  · have hN := h.N_pos
    rw [h.idx_eq (by omega)]
    omega
  · omega

theorem Layout.written (h : m.Layout) (v : α) : (m.written v).Layout := by
  have hN := h.N_pos
  have hsz := h.sz_le
  have hminCt := h.minCt_eq
  have hmaxCt := h.maxCt_eq
  have hidx : min (m.sz + 1) m.N < m.N → (m.idx + 1) % m.N = min (m.sz + 1) m.N := by
    intro hlt
    rw [h.idx_eq (by omega), Nat.mod_eq_of_lt (by omega)]
    omega
  suffices htables : (∀ i : Int, -(min (m.sz + 1) m.N / 2 : Nat) ≤ i →
        i ≤ ((min (m.sz + 1) m.N - 1) / 2 : Nat) →
        m.heap i < min (m.sz + 1) m.N ⊔ 1 ∧ m.pos (m.heap i) = i) ∧
      (∀ j, j < min (m.sz + 1) m.N ⊔ 1 → -(min (m.sz + 1) m.N / 2 : Nat) ≤ m.pos j ∧
        m.pos j ≤ ((min (m.sz + 1) m.N - 1) / 2 : Nat) ∧ m.heap (m.pos j) = j) ∧
      ∀ j, min (m.sz + 1) m.N ⊔ 1 ≤ j → j < m.N →
        m.pos j = fillPattern j ∧ m.heap (fillPattern j) = j from
    ⟨hN, Nat.mod_lt _ hN, Nat.min_le_right _ _, hidx, rfl, rfl, htables.1, htables.2.1,
      htables.2.2⟩
  by_cases hnew : 0 < m.sz ∧ m.sz < m.N
  · obtain ⟨hpos, hlt⟩ := hnew
    obtain ⟨hfree, hback⟩ := h.free m.sz (by omega) hlt
    have hnext : min (m.sz + 1) m.N = m.sz + 1 := by omega
    have hplace : ∀ i : Int, -((m.sz + 1) / 2 : Nat) ≤ i → i ≤ ((m.sz + 1 - 1) / 2 : Nat) →
        i = fillPattern m.sz ∨ -m.maxCt ≤ i ∧ i ≤ m.minCt := by
      intro i hlo hhi
      rcases Nat.mod_two_eq_zero_or_one m.sz with heven | hodd
      · rw [fillPattern_even heven]
        omega
      · rw [fillPattern_odd hodd]
        omega
    rw [hnext]
    refine ⟨fun i hlo hhi => ?_, fun j hj => ?_, fun j hj hjN => h.free j (by omega) hjN⟩
    · rcases hplace i hlo hhi with rfl | ⟨hlo', hhi'⟩
      · rw [hback]
        exact ⟨by omega, hfree⟩
      · obtain ⟨hlive, hinv⟩ := h.live i hlo' hhi'
        exact ⟨by omega, hinv⟩
    · rcases (by omega : j = m.sz ∨ j < m.sz ⊔ 1) with rfl | hj'
      · rw [hfree]
        refine ⟨?_, ?_, hback⟩
        · rcases Nat.mod_two_eq_zero_or_one m.sz with heven | hodd
          · rw [fillPattern_even heven]
            omega
          · rw [fillPattern_odd hodd]
        · rcases Nat.mod_two_eq_zero_or_one m.sz with heven | hodd
          · rw [fillPattern_even heven]
            omega
          · rw [fillPattern_odd hodd]
            omega
      · obtain ⟨hlo, hhi, hinv⟩ := h.used j hj'
        exact ⟨by omega, by omega, hinv⟩
  · have hsame : min (m.sz + 1) m.N ⊔ 1 = m.sz ⊔ 1 := by omega
    have hmin : (min (m.sz + 1) m.N - 1) / 2 = m.minCt := by omega
    have hmax : min (m.sz + 1) m.N / 2 = m.maxCt := by omega
    rw [hsame, hmin, hmax]
    exact ⟨h.live, h.used, h.free⟩

/-- The items after the item is put: it is at the place of its index. -/
theorem Layout.written_keys (h : m.Layout) (v : α) (hi : i ≤ (m.written v).count s) :
    (m.written v).keys s i = if s.place i = m.pos m.idx then v else m.keys s i := by
  have hlay := h.written v
  obtain ⟨hlo, hhi⟩ := hlay.place_live hi
  obtain ⟨-, hinv⟩ := hlay.live _ hlo hhi
  have hidx : m.idx < (m.written v).sz ⊔ 1 := by
    have hlt := h.idx_lt
    have hidx := h.idx_eq
    change m.idx < min (m.sz + 1) m.N ⊔ 1
    omega
  obtain ⟨-, -, hback⟩ := hlay.used _ hidx
  change Function.update m.data m.idx v (m.heap (s.place i)) = _
  change m.pos (m.heap (s.place i)) = s.place i at hinv
  change m.heap (m.pos m.idx) = m.idx at hback
  split
  · rename_i hplace
    rw [hplace, hback, Function.update_self]
  · rename_i hplace
    refine Function.update_of_ne (fun heq => hplace ?_) _ _
    rw [← hinv, heq]

/-- The counts after the item is put on a side. -/
theorem Layout.written_count (h : m.Layout) (v : α) (hn : 0 < n)
    (hpos : m.pos m.idx = s.place n) :
    (m.written v).count s.other = m.count s.other ∧ n ≤ (m.written v).count s ∧
      (m.sz < m.N → n = m.count s + 1 ∧ (m.written v).count s = m.count s + 1) ∧
      (m.N ≤ m.sz → n ≤ m.count s ∧ (m.written v).count s = m.count s) := by
  have hsz := h.sz_le
  have hminCt := h.minCt_eq
  have hmaxCt := h.maxCt_eq
  have hplaced : (m.sz < m.N → s.place n = fillPattern m.sz) ∧
      (m.N ≤ m.sz → -m.maxCt ≤ s.place n ∧ s.place n ≤ m.minCt) := by
    refine ⟨fun hlt => ?_, fun hle => ?_⟩
    · have hsome : 0 < m.sz := by
        rcases Nat.eq_zero_or_pos m.sz with hzero | hsome
        · obtain ⟨hlo, hhi, -⟩ := h.used m.idx (h.idx_used (by omega))
          rw [hpos] at hlo hhi
          cases s with
          | min =>
            simp only [HeapSide.place] at hlo hhi
            omega
          | max =>
            simp only [HeapSide.place] at hlo hhi
            omega
        · exact hsome
      rw [← hpos]
      exact (h.pos_idx_new hsome hlt).1
    · obtain ⟨hlo, hhi, -⟩ := h.used m.idx (h.idx_used (by omega))
      rw [hpos] at hlo hhi
      exact ⟨hlo, hhi⟩
  obtain ⟨hnew, hold⟩ := hplaced
  have hparity : m.sz < m.N →
      m.sz % 2 = 0 ∧ s.place n = (m.sz / 2 : Nat) ∨
        m.sz % 2 = 1 ∧ s.place n = -((m.sz + 1) / 2 : Nat) := by
    intro hlt
    rcases Nat.mod_two_eq_zero_or_one m.sz with heven | hodd
    · exact .inl ⟨heven, (hnew hlt).trans (fillPattern_even heven)⟩
    · exact .inr ⟨hodd, (hnew hlt).trans (fillPattern_odd hodd)⟩
  clear hnew
  cases s with
  | min =>
    change min (m.sz + 1) m.N / 2 = m.maxCt ∧ n ≤ (min (m.sz + 1) m.N - 1) / 2 ∧
      (m.sz < m.N → n = m.minCt + 1 ∧ (min (m.sz + 1) m.N - 1) / 2 = m.minCt + 1) ∧
      (m.N ≤ m.sz → n ≤ m.minCt ∧ (min (m.sz + 1) m.N - 1) / 2 = m.minCt)
    simp only [HeapSide.place] at hparity hold
    omega
  | max =>
    change (min (m.sz + 1) m.N - 1) / 2 = m.minCt ∧ n ≤ min (m.sz + 1) m.N / 2 ∧
      (m.sz < m.N → n = m.maxCt + 1 ∧ min (m.sz + 1) m.N / 2 = m.maxCt + 1) ∧
      (m.N ≤ m.sz → n ≤ m.maxCt ∧ min (m.sz + 1) m.N / 2 = m.maxCt)
    simp only [HeapSide.place] at hparity hold
    omega

section Order

variable [LinearOrder α]

/-- The item put on a side has to be sifted up, where it is new or not beyond the item it
    replaces, or down. The other side is in order. -/
theorem Sound.written_side (h : m.Sound) (v : α) (hn : 0 < n) (hpos : m.pos m.idx = s.place n) :
    SiftHeap.Ordered s.other.Less ((m.written v).count s.other) ((m.written v).keys s.other) ∧
      (m.sz < m.N ∨ ¬ s.Less (m.data m.idx) v →
        SiftHeap.SiftsUp s.Less ((m.written v).count s) ((m.written v).keys s) n) ∧
      (m.N ≤ m.sz → s.Less (m.data m.idx) v →
        SiftHeap.SiftsDown s.Less ((m.written v).count s) ((m.written v).keys s) n) := by
  obtain ⟨hcount, hle, hnew, hold⟩ := h.layout.written_count v hn hpos
  have hkey {i : Nat} (hi : i ≤ (m.written v).count s) :
      (m.written v).keys s i = if i = n then v else m.keys s i := by
    rw [h.layout.written_keys v hi, hpos]
    simp only [show s.place i = s.place n ↔ i = n from ⟨place_inj, fun heq => by rw [heq]⟩]
  have hother {i : Nat} (hi : i ≤ (m.written v).count s.other) :
      (m.written v).keys s.other i = m.keys s.other i := by
    rw [h.layout.written_keys v hi, hpos]
    refine if_neg fun heq => ?_
    have hsame := heq.symm
    rcases Nat.eq_zero_or_pos i with rfl | hi'
    · have hzero : s.other.place 0 = s.place 0 := by cases s <;> rfl
      rw [hzero] at hsame
      exact absurd (place_inj hsame) hn.ne'
    · exact place_other_ne hi' heq
  have hreplaced : m.N ≤ m.sz → m.keys s n = m.data m.idx := by
    intro hfull
    obtain ⟨-, -, hback⟩ := h.layout.used m.idx (h.layout.idx_used (by omega))
    rw [hpos] at hback
    rw [keys, key, hback]
  have hordered := h.ordered s
  have hbelow : ∀ j, 0 < j → j ≤ (m.written v).count s → j ≠ n → j / 2 ≠ n →
      ¬ s.Less ((m.written v).keys s j) ((m.written v).keys s (j / 2)) := by
    intro j hj hjn hne hne'
    have hjold : j ≤ m.count s := by omega
    rw [hkey hjn, hkey (by omega), if_neg hne, if_neg hne']
    exact hordered j hj hjold
  refine ⟨fun j hj hjn => ?_, fun hup => ⟨fun j hj hjn hne => ?_, fun _ j hj hjn hchild => ?_⟩,
    fun hfull hdown => ⟨fun j hj hjn hne => ?_, fun j hj hjn hchild => ?_⟩⟩
  · rw [hother hjn, hother (by omega)]
    exact h.ordered s.other j hj (hcount ▸ hjn)
  · by_cases hchild : j / 2 = n
    · -- A child in use: the item replaced was before it.
      have hfull : m.N ≤ m.sz := by
        by_contra hlt
        obtain ⟨hlast, hcount'⟩ := hnew (by omega)
        omega
      obtain ⟨-, hcount'⟩ := hold hfull
      have hle' := hup.resolve_left (by omega)
      rw [hkey hjn, hkey (by omega), if_neg hne, if_pos hchild]
      have hj' := hordered j hj (by omega)
      rw [hchild, hreplaced hfull] at hj'
      exact SiftHeap.not_less_trans hj' hle'
    · exact hbelow j hj hjn hne hchild
  · have hfull : m.N ≤ m.sz := by
      by_contra hlt
      obtain ⟨hlast, hcount'⟩ := hnew (by omega)
      omega
    obtain ⟨hnold, hcount'⟩ := hold hfull
    rw [hkey hjn, hkey (by omega), if_neg (by omega), if_neg (by omega)]
    have hj' := hordered j hj (by omega)
    have hn' := hordered n hn hnold
    rw [hchild] at hj'
    exact SiftHeap.not_less_trans hj' hn'
  · obtain ⟨hnold, hcount'⟩ := hold hfull
    by_cases hjn' : j = n
    · rw [hkey hjn, hkey (by omega), if_pos hjn', if_neg (by omega), hjn']
      have hn' := hordered n hn hnold
      rw [hreplaced hfull] at hn'
      exact SiftHeap.not_less_trans (fun hless => asymm hless hdown) hn'
    · exact hbelow j hj hjn hjn' hne
  · obtain ⟨hnold, hcount'⟩ := hold hfull
    rw [hkey hjn, hkey (by omega), if_neg (by omega), if_neg (by omega)]
    have hj' := hordered j hj (by omega)
    have hn' := hordered n hn hnold
    rw [hchild] at hj'
    exact SiftHeap.not_less_trans hj' hn'

/-- A sift down on a side. -/
theorem sortDown_sound (h : m.Layout) (hn : 0 < n)
    (hkeys : SiftHeap.SiftsDown s.Less (m.count s) (m.keys s) n)
    (hother : SiftHeap.Ordered s.other.Less (m.count s.other) (m.keys s.other)) :
    m.Rearranged (sortDown s (m.count s) m n) ∧ (sortDown s (m.count s) m n).Sound := by
  have hfuel : m.count s < m.count s + n := by omega
  obtain ⟨hmoved, hordered, hroot, hrest⟩ := sortDown_spec h hn hfuel hkeys
  refine ⟨hmoved, hmoved.sound hordered (ordered_of_root (hother.but 1) hrest fun hcount => ?_)⟩
  rw [keys_zero, hroot, ← keys_zero]
  exact hother 1 Nat.one_pos hcount

/-- What `insert` does of an item that is put on a side. -/
theorem Sound.settle_or_sink (h : m.Sound) (v : α) (hn : 0 < n) (hpos : m.pos m.idx = s.place n) :
    (m.sz < m.N ∨ ¬ s.Less (m.data m.idx) v →
        (m.written v).Rearranged (settle s (m.written v) n) ∧ (settle s (m.written v) n).Sound) ∧
      (m.N ≤ m.sz → s.Less (m.data m.idx) v →
        (m.written v).Rearranged (sortDown s ((m.written v).count s) (m.written v) n) ∧
          (sortDown s ((m.written v).count s) (m.written v) n).Sound) := by
  obtain ⟨hother, hup, hdown⟩ := h.written_side v hn hpos
  obtain ⟨-, hle, -, -⟩ := h.layout.written_count v hn hpos
  exact ⟨fun hcase => settle_sound (h.layout.written v) hn hle (hup hcase) hother,
    fun hfull hcase => sortDown_sound (h.layout.written v) hn (hdown hfull hcase) hother⟩

/-- An item put at the median. -/
theorem Sound.written_root (h : m.Sound) (v : α) (hpos : m.pos m.idx = 0) :
    m.put v = m.written v ∧ (m.written v).Rearranged (m.written v).settleRootMax.settleRootMin ∧
      (m.written v).settleRootMax.settleRootMin.Sound := by
  have hlay := h.layout
  have hsz := hlay.sz_le
  have hused : ¬ (0 < m.sz ∧ m.sz < m.N) := by
    intro hnew
    obtain ⟨hfree, -⟩ := hlay.pos_idx_new hnew.1 hnew.2
    rw [hpos] at hfree
    rcases Nat.mod_two_eq_zero_or_one m.sz with heven | hodd
    · rw [fillPattern_even heven] at hfree
      omega
    · rw [fillPattern_odd hodd] at hfree
      omega
  have hmin : m.minCt = (min (m.sz + 1) m.N - 1) / 2 := by
    have := hlay.minCt_eq
    have := hlay.N_pos
    omega
  have hmax : m.maxCt = min (m.sz + 1) m.N / 2 := by
    have := hlay.maxCt_eq
    have := hlay.N_pos
    omega
  have hput : m.put v = m.written v := written_eq hmin hmax
  have hcount (s : HeapSide) : (m.written v).count s = m.count s := by
    cases s with
    | min => exact hmin.symm
    | max => exact hmax.symm
  have hkey {s : HeapSide} {i : Nat} (hi : 0 < i) (hle : i ≤ m.count s) :
      (m.written v).keys s i = m.keys s i := by
    rw [hlay.written_keys v ((hcount s).symm ▸ hle), hpos]
    refine if_neg fun hzero => ?_
    cases s with
    | min =>
      simp only [HeapSide.place] at hzero
      omega
    | max =>
      simp only [HeapSide.place] at hzero
      omega
  refine ⟨hput, settleRoot_sound (hlay.written v) (fun s j hj hjn hne => ?_) fun hminCt hmaxCt => ?_⟩
  · rw [hcount] at hjn
    rw [hkey hj hjn, hkey (by omega) (by omega)]
    exact h.ordered s j hj hjn
  · have habove : 1 ≤ m.count .min := by
      rw [← hcount]
      exact hminCt
    have hbelow : 1 ≤ m.count .max := by
      rw [← hcount]
      exact hmaxCt
    rw [hkey Nat.one_pos habove, hkey Nat.one_pos hbelow]
    have hup : ¬ m.keys .min 1 < m.keys .min 0 := h.ordered .min 1 Nat.one_pos habove
    have hdown : ¬ m.keys .max 0 < m.keys .max 1 := h.ordered .max 1 Nat.one_pos hbelow
    exact fun hless => hup (hless.trans_le (not_lt.mp hdown))

/-- An insertion rearranges the state with the item put in, and leaves it in order. -/
theorem Sound.insert (h : m.Sound) (v : α) :
    (m.written v).Rearranged (m.insert v) ∧ (m.insert v).Sound := by
  have hlay := h.layout
  have hsz := hlay.sz_le
  have hminCt := hlay.minCt_eq
  have hmaxCt := hlay.maxCt_eq
  have hwrittenMin : (m.written v).minCt = (min (m.sz + 1) m.N - 1) / 2 := rfl
  have hwrittenMax : (m.written v).maxCt = min (m.sz + 1) m.N / 2 := rfl
  have hput (hfull : m.N ≤ m.sz) : m.put v = m.written v :=
    written_eq (by omega : m.minCt = _) (by omega : m.maxCt = _)
  unfold RollingMedian.insert
  dsimp only
  split
  · rename_i hpos
    have hplace : m.pos m.idx = HeapSide.min.place (m.pos m.idx).natAbs := by
      simp only [HeapSide.place]
      omega
    have hn : 0 < (m.pos m.idx).natAbs := by omega
    obtain ⟨hsettle, hsink⟩ := h.settle_or_sink v hn hplace
    obtain ⟨hmax, -, hnew, hold⟩ := hlay.written_count v hn hplace
    change (m.written v).maxCt = m.maxCt at hmax
    change m.sz < m.N → _ = m.minCt + 1 ∧ (m.written v).minCt = m.minCt + 1 at hnew
    change m.N ≤ m.sz → _ ≤ m.minCt ∧ (m.written v).minCt = m.minCt at hold
    have hsettled : (m.written v).settleMin (m.pos m.idx).natAbs =
        settle .min (m.written v) (m.pos m.idx).natAbs := by
      refine settleMin_eq ?_
      rw [hmax]
      omega
    rcases Nat.lt_or_ge m.sz m.N with hlt | hfull
    · obtain ⟨-, hcount⟩ := hnew hlt
      have hwritten : { m.put v with minCt := m.minCt + 1 } = m.written v :=
        written_eq hcount.symm hmax.symm
      rw [if_pos (by change m.minCt < (m.N - 1) / 2; omega)]
      change (m.written v).Rearranged (settleMin { m.put v with minCt := m.minCt + 1 } _) ∧
        (settleMin { m.put v with minCt := m.minCt + 1 } _).Sound
      rw [hwritten, hsettled]
      exact hsettle (.inl hlt)
    · rw [if_neg (by change ¬ m.minCt < (m.N - 1) / 2; omega), hput hfull]
      split
      · rename_i hbeyond
        exact hsink hfull hbeyond
      · rename_i hwithin
        rw [hsettled]
        exact hsettle (.inr hwithin)
  split
  · rename_i hpos
    have hplace : m.pos m.idx = HeapSide.max.place (m.pos m.idx).natAbs := by
      simp only [HeapSide.place]
      omega
    have hn : 0 < (m.pos m.idx).natAbs := by omega
    obtain ⟨hsettle, hsink⟩ := h.settle_or_sink v hn hplace
    obtain ⟨hmin, -, hnew, hold⟩ := hlay.written_count v hn hplace
    change (m.written v).minCt = m.minCt at hmin
    change m.sz < m.N → _ = m.maxCt + 1 ∧ (m.written v).maxCt = m.maxCt + 1 at hnew
    change m.N ≤ m.sz → _ ≤ m.maxCt ∧ (m.written v).maxCt = m.maxCt at hold
    rcases Nat.lt_or_ge m.sz m.N with hlt | hfull
    · obtain ⟨-, hcount⟩ := hnew hlt
      have hwritten : { m.put v with maxCt := m.maxCt + 1 } = m.written v :=
        written_eq hmin.symm hcount.symm
      rw [if_pos (by change m.maxCt < m.N / 2; omega)]
      change (m.written v).Rearranged (settleMax { m.put v with maxCt := m.maxCt + 1 } _) ∧
        (settleMax { m.put v with maxCt := m.maxCt + 1 } _).Sound
      rw [hwritten, settleMax_eq]
      exact hsettle (.inl hlt)
    · rw [if_neg (by change ¬ m.maxCt < m.N / 2; omega), hput hfull]
      split
      · rename_i hbeyond
        exact hsink hfull hbeyond
      · rename_i hwithin
        rw [settleMax_eq]
        exact hsettle (.inr hwithin)
  · obtain ⟨hwritten, hsound⟩ := h.written_root v (by omega)
    rw [hwritten]
    exact hsound

end Order

end RollingMedian

end RandomLite.Monero
