-- SUMMARY: Writers of byte strings that may stop short, and readers that accept nothing but what a writer wrote.
import RandomLite.Library.ByteReader

/-!
# Byte writers

A writer leaves bytes and says whether it wrote all of them. A reader reads a writer back
when it takes what was written, whatever follows; it undoes the writer when it takes nothing
else. Some formats are lax at the very end of their input: a reader then undoes its writer
but for inputs that are what was written with the end cut short.
-/

/-- What has been written, and whether that is all. -/
abbrev Written := List UInt8 × Bool

namespace Written

variable {α : Type}

def all (bs : List UInt8) : Written := (bs, true)

def stop : Written := ([], false)

/-- One writer after the other, unless the first has stopped. -/
def andThen (w w' : Written) : Written := if w.2 then (w.1 ++ w'.1, w'.2) else w

/-- Stops when the condition fails. -/
def check (c : Bool) (w : Written) : Written := if c then w else stop

def each (save : α → Written) : List α → Written
  | [] => all []
  | a :: as => (save a).andThen (each save as)

@[simp] theorem all_andThen (bs : List UInt8) (w : Written) :
    (all bs).andThen w = (bs ++ w.1, w.2) := rfl

theorem andThen_eq_all_iff {w w' : Written} {bs : List UInt8} :
    w.andThen w' = all bs ↔ ∃ p q, w = all p ∧ w' = all q ∧ bs = p ++ q := by
  obtain ⟨p, ok⟩ := w
  obtain ⟨q, ok'⟩ := w'
  cases ok with
  | true => simp [andThen, all, eq_comm, and_left_comm, and_comm]
  | false => simp [andThen, all]

theorem check_eq_all_iff {c : Bool} {w : Written} {bs : List UInt8} :
    check c w = all bs ↔ c = true ∧ w = all bs := by
  cases c <;> simp [check, stop, all]

theorem each_all (save : α → List UInt8) (as : List α) :
    each (fun a => all (save a)) as = all (as.flatMap save) := by
  induction as with
  | nil => rfl
  | cons a as ih => rw [each, ih, all_andThen, List.flatMap_cons, all, all]

theorem each_map {β : Type} (f : α → β) (save : β → Written) (as : List α) :
    each save (as.map f) = each (fun a => save (f a)) as := by
  induction as with
  | nil => rfl
  | cons a as ih => rw [List.map_cons, each, each, ih]

end Written

namespace ByteReader

open Written (all)

variable {α β : Type}

/-! ## Reading back -/

/-- Two strings that one reader reads, with equal ends or not, hold one value. -/
theorem Reads.append_inj {r : ByteReader α} {bs bs' rest rest' : List UInt8} {a a' : α}
    (h : Reads r bs a) (h' : Reads r bs' a') (heq : bs ++ rest = bs' ++ rest') :
    a = a' ∧ rest = rest' := by
  have hread := h rest
  rw [heq, h' rest'] at hread
  exact Prod.mk.inj (Option.some.inj hread.symm)

/-- What was written, if it is all, is read back. -/
def ReadsBack (r : ByteReader α) (w : Written) (a : α) : Prop :=
  ∀ bs, w = all bs → Reads r bs a

namespace ReadsBack

theorem of_reads {r : ByteReader α} {bs : List UInt8} {a : α} (h : Reads r bs a) :
    ReadsBack r (all bs) a := by
  rintro _ heq
  rwa [← (Prod.mk.inj heq).1]

theorem bind {r : ByteReader α} {f : α → ByteReader β} {w w' : Written} {a : α} {b : β}
    (h : ReadsBack r w a) (h' : ReadsBack (f a) w' b) :
    ReadsBack (r >>= f) (w.andThen w') b := by
  intro bs heq
  obtain ⟨p, q, hp, hq, rfl⟩ := Written.andThen_eq_all_iff.mp heq
  exact (h p hp).bind (h' q hq)

theorem bind_pure {r : ByteReader α} {f : α → β} {w : Written} {a : α} (h : ReadsBack r w a) :
    ReadsBack (r >>= fun a => pure (f a)) w (f a) :=
  fun bs heq => (h bs heq).bind_pure

/-- A writer that checks something has found it true. -/
theorem check {r : ByteReader α} {c : Bool} {w : Written} {a : α}
    (h : c = true → ReadsBack r w a) : ReadsBack r (w.check c) a := by
  intro bs heq
  obtain ⟨hc, hw⟩ := Written.check_eq_all_iff.mp heq
  exact h hc bs hw

/-- A condition that the reader checks takes no bytes. -/
theorem require {f : Unit → ByteReader β} {c : Bool} {w : Written} {b : β} (hc : c = true)
    (h : ReadsBack (f ()) w b) : ReadsBack (ByteReader.require c >>= f) w b :=
  fun bs heq => (Reads.require hc).bind (h bs heq)

theorem stop {r : ByteReader α} {a : α} : ReadsBack r Written.stop a := by
  intro bs heq
  cases (Prod.mk.inj heq).2

/-- A given number of things, each read back as its stored form. -/
theorem times {r : ByteReader α} {save : α → Written} {store : α → α} {as : List α}
    (h : ∀ a ∈ as, ReadsBack r (save a) (store a)) :
    ReadsBack (ByteReader.times r as.length) (Written.each save as) (as.map store) := by
  induction as with
  | nil => exact of_reads (Reads.pure [])
  | cons a as ih =>
    have hrest := ih fun b hb => h b (List.mem_cons_of_mem _ hb)
    exact (h a List.mem_cons_self).bind hrest.bind_pure

end ReadsBack

/-! ## Undoing -/

/-- `bs` is `p` but for its end: where `p` has `full`, it has no more than `cut`. -/
def CutShort (Cut : List UInt8 → List UInt8 → Prop) (bs p : List UInt8) : Prop :=
  ∃ front cut full, bs = front ++ cut ∧ p = front ++ full ∧ cut ≠ [] ∧ Cut cut full

section CutShort

variable {Cut : List UInt8 → List UInt8 → Prop} {bs p : List UInt8}

theorem CutShort.append (h : CutShort Cut bs p) (front : List UInt8) :
    CutShort Cut (front ++ bs) (front ++ p) := by
  obtain ⟨front', cut, full, rfl, rfl, hne, hcut⟩ := h
  exact ⟨front ++ front', cut, full, (List.append_assoc _ _ _).symm,
    (List.append_assoc _ _ _).symm, hne, hcut⟩

theorem CutShort.ne_nil (h : CutShort Cut bs p) : bs ≠ [] := by
  obtain ⟨front, cut, full, rfl, -, hne, -⟩ := h
  exact List.append_ne_nil_of_right_ne_nil front hne

theorem not_cutShort_false : ¬ CutShort (fun _ _ => False) bs p :=
  fun ⟨_, _, _, _, _, _, hfalse⟩ => hfalse

end CutShort

/-- Whatever the reader takes is a front of the input that `W` allows for the value; or it
    takes the whole of an input that is such a string cut short. -/
def Undoes (Cut : List UInt8 → List UInt8 → Prop) (r : ByteReader α)
    (W : α → List UInt8 → Prop) : Prop :=
  ∀ bs a rest, r bs = some (a, rest) →
    ∃ p, W a p ∧ (bs = p ++ rest ∨ rest = [] ∧ CutShort Cut bs p)

/-- A reader that undoes its writer without exception. -/
abbrev Exactly (r : ByteReader α) (W : α → List UInt8 → Prop) : Prop :=
  Undoes (fun _ _ => False) r W

section Undoes

variable {Cut : List UInt8 → List UInt8 → Prop} {r : ByteReader α} {f : α → ByteReader β}
  {V : α → List UInt8 → Prop} {W : β → List UInt8 → Prop}

theorem bind_eq_some {bs rest : List UInt8} {b : β} (h : (r >>= f) bs = some (b, rest)) :
    ∃ a mid, r bs = some (a, mid) ∧ f a mid = some (b, rest) := by
  obtain ⟨⟨a, mid⟩, hr, hf⟩ := Option.bind_eq_some_iff.mp h
  exact ⟨a, mid, hr, hf⟩

theorem Exactly.front (h : Exactly r V) {bs rest : List UInt8} {a : α}
    (hread : r bs = some (a, rest)) : ∃ p, bs = p ++ rest ∧ V a p := by
  obtain ⟨p, hV, hfront | ⟨-, hcut⟩⟩ := h bs a rest hread
  · exact ⟨p, hfront, hV⟩
  · exact (not_cutShort_false hcut).elim

namespace Undoes

theorem mono {U : α → List UInt8 → Prop} (h : Undoes Cut r V) (hV : ∀ a p, V a p → U a p) :
    Undoes Cut r U := by
  intro bs a rest hread
  obtain ⟨p, hVp, hp⟩ := h bs a rest hread
  exact ⟨p, hV a p hVp, hp⟩

theorem of_exactly (h : Exactly r V) : Undoes Cut r V := by
  intro bs a rest hread
  obtain ⟨p, hp, hV⟩ := h.front hread
  exact ⟨p, hV, .inl hp⟩

protected theorem pure {b : β} (h : W b []) : Undoes Cut (pure b) W := by
  intro bs _ rest hread
  cases hread
  exact ⟨[], h, .inl rfl⟩

theorem fail : Undoes Cut (ByteReader.fail : ByteReader α) V := fun _ _ _ hread => nomatch hread

/-- Nothing is left of nothing, and nothing was cut of it. -/
theorem nil_of_nil (h : Undoes Cut r V) {a : α} {rest : List UInt8}
    (hread : r [] = some (a, rest)) : rest = [] ∧ V a [] := by
  obtain ⟨p, hV, hp | ⟨-, hcut⟩⟩ := h [] a rest hread
  · obtain ⟨rfl, rfl⟩ := List.append_eq_nil_iff.mp hp.symm
    exact ⟨rfl, hV⟩
  · exact absurd rfl hcut.ne_nil

/-- The rest of what is read, behind a front that is known. -/
theorem behind {b : β} {p mid rest : List UInt8}
    (h : Undoes Cut (f a) fun b q => W b (p ++ q)) (hread : f a mid = some (b, rest)) :
    ∃ q, W b q ∧ (p ++ mid = q ++ rest ∨ rest = [] ∧ CutShort Cut (p ++ mid) q) := by
  obtain ⟨q, hW, rfl | ⟨hrest, hcut⟩⟩ := h mid b rest hread
  · exact ⟨p ++ q, hW, .inl (List.append_assoc _ _ _).symm⟩
  · exact ⟨p ++ q, hW, .inr ⟨hrest, hcut.append p⟩⟩

/-- One reader after the other; what was cut short leaves nothing to the second. -/
theorem bind (h : Undoes Cut r V)
    (h' : ∀ a p, V a p → Undoes Cut (f a) fun b q => W b (p ++ q)) :
    Undoes Cut (r >>= f) W := by
  intro bs b rest hread
  obtain ⟨a, mid, hr, hf⟩ := bind_eq_some hread
  obtain ⟨p, hV, rfl | ⟨rfl, hcut⟩⟩ := h bs a mid hr
  · exact (h' a p hV).behind hf
  · obtain ⟨hrest, hW⟩ := (h' a p hV).nil_of_nil hf
    rw [List.append_nil] at hW
    exact ⟨p, hW, .inr ⟨hrest, hcut⟩⟩

/-- After a reader without exceptions. -/
theorem bind_exactly (h : Exactly r V)
    (h' : ∀ a p, V a p → Undoes Cut (f a) fun b q => W b (p ++ q)) : Undoes Cut (r >>= f) W :=
  (of_exactly h).bind h'

/-- What cannot go on at the end of the input closes the exceptions of what comes before. -/
theorem bind_closed {Cut' : List UInt8 → List UInt8 → Prop} (h : Undoes Cut' r V)
    (hnil : ∀ a bs, r bs = some (a, []) → f a [] = none)
    (h' : ∀ a p, V a p → Undoes Cut (f a) fun b q => W b (p ++ q)) : Undoes Cut (r >>= f) W := by
  intro bs b rest hread
  obtain ⟨a, mid, hr, hf⟩ := bind_eq_some hread
  obtain ⟨p, hV, rfl | ⟨rfl, -⟩⟩ := h bs a mid hr
  · exact (h' a p hV).behind hf
  · rw [hnil a bs hr] at hf
    cases hf

/-- The last reader may leave the result to a function. -/
theorem bind_pure {g : α → β} (h : Undoes Cut r V) (h' : ∀ a p, V a p → W (g a) p) :
    Undoes Cut (r >>= fun a => pure (g a)) W :=
  h.bind fun a p hV => Undoes.pure (by rw [List.append_nil]; exact h' a p hV)

/-- A given number of things. -/
theorem times {save : α → Written} (h : Undoes Cut r fun a p => save a = all p) (n : Nat) :
    Undoes Cut (ByteReader.times r n) fun as p =>
      as.length = n ∧ Written.each save as = all p := by
  induction n with
  | zero => exact Undoes.pure ⟨rfl, rfl⟩
  | succ n ih =>
    refine h.bind fun a p hp => ih.bind_pure fun as q ⟨hlen, hq⟩ => ?_
    refine ⟨congrArg (· + 1) hlen, ?_⟩
    rw [Written.each, hp, hq]
    rfl

end Undoes

namespace Exactly

theorem byte : Exactly ByteReader.byte fun b p => p = [b] := by
  intro bs b rest hread
  cases bs with
  | nil => cases hread
  | cons c bs =>
    cases hread
    exact ⟨[b], rfl, .inl rfl⟩

theorem blob (n : Nat) : Exactly (ByteReader.blob n) fun bs p => p = bs ∧ bs.length = n := by
  intro bs a rest hread
  unfold ByteReader.blob at hread
  split at hread
  · rename_i hle
    cases hread
    exact ⟨bs.take n, ⟨rfl, List.length_take_of_le hle⟩,
      .inl (List.take_append_drop n bs).symm⟩
  · cases hread

theorem array (n : Nat) :
    Exactly (ByteReader.array n) fun (v : Vector UInt8 n) p => p = v.toList := by
  intro bs v rest hread
  unfold ByteReader.array at hread
  split at hread
  · rename_i hle
    cases hread
    refine ⟨bs.take n, ?_, .inl (List.take_append_drop n bs).symm⟩
    apply List.ext_getElem
    · simp [hle]
    · intro i hi _
      have hlt : i < bs.length := by
        rw [List.length_take] at hi
        omega
      simp [List.getD_eq_getElem?_getD, hlt]
  · cases hread

theorem require (c : Bool) : Exactly (ByteReader.require c) fun _ p => p = [] ∧ c = true := by
  intro bs _ rest hread
  unfold ByteReader.require at hread
  split at hread
  · cases hread
    exact ⟨[], ⟨rfl, ‹_›⟩, .inl rfl⟩
  · cases hread

theorem remaining : Exactly ByteReader.remaining fun _ p => p = [] := by
  intro bs n rest hread
  cases hread
  exact ⟨[], rfl, .inl rfl⟩

end Exactly

theorem parse_eq_some {bs : List UInt8} {a : α} :
    r.parse bs = some a ↔ r bs = some (a, []) := by
  unfold parse
  split
  · rename_i hread
    rw [hread]
    simp
  · rename_i hnot
    constructor
    · intro h
      cases h
    · intro h
      exact absurd h (hnot a)

end Undoes

end ByteReader
