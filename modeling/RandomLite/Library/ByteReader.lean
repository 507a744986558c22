-- SUMMARY: Readers that take their input from the front of a byte string, and what it means that one reads back what was written.
import Mathlib.Data.List.Basic
import Mathlib.Tactic.Ring

/-!
# Byte readers

A reader takes what it needs from the front of a byte string and leaves the rest, or
fails. `Reads r bs a` says that `r` reads `a` from the bytes `bs`, whatever follows them;
it is kept by the ways readers are put together, so a format is read back field by field.
-/

/-- A reader of byte strings. -/
abbrev ByteReader (α : Type) := StateT (List UInt8) Option α

namespace ByteReader

variable {α β : Type}

/-- The next byte. -/
def byte : ByteReader UInt8
  | [] => none
  | b :: bs => some (b, bs)

/-- The next `n` bytes. -/
def blob (n : Nat) : ByteReader (List UInt8) := fun bs =>
  if n ≤ bs.length then some (bs.take n, bs.drop n) else none

/-- The next `n` bytes, as an array. -/
def array (n : Nat) : ByteReader (Vector UInt8 n) := fun bs =>
  if n ≤ bs.length then some (Vector.ofFn fun i => bs.getD i 0, bs.drop n) else none

/-- The number of bytes left. -/
def remaining : ByteReader Nat := fun bs => some (bs.length, bs)

/-- Fails on everything. -/
def fail : ByteReader α := fun _ => none

/-- Fails unless the condition holds. -/
def require (c : Bool) : ByteReader Unit := fun bs => if c then some ((), bs) else none

/-- `n` times the same reader. -/
def times (r : ByteReader α) : Nat → ByteReader (List α)
  | 0 => pure []
  | n + 1 => do
    let a ← r
    let as ← times r n
    return a :: as

/-- What a reader makes of a whole byte string; it must not leave anything. -/
def parse (r : ByteReader α) (bs : List UInt8) : Option α :=
  match r bs with
  | some (a, []) => some a
  | _ => none

/-- The reader reads `a` from the bytes, whatever follows them. -/
def Reads (r : ByteReader α) (bs : List UInt8) (a : α) : Prop :=
  ∀ rest, r (bs ++ rest) = some (a, rest)

namespace Reads

protected theorem pure (a : α) : Reads (pure a) [] a := fun _ => rfl

protected theorem bind {r : ByteReader α} {f : α → ByteReader β} {bs bs' : List UInt8} {a : α}
    {b : β} (h : Reads r bs a) (h' : Reads (f a) bs' b) : Reads (r >>= f) (bs ++ bs') b := by
  intro rest
  rw [List.append_assoc]
  change (r (bs ++ (bs' ++ rest))).bind (fun p => f p.1 p.2) = _
  rw [h, Option.bind_some]
  exact h' rest

/-- What follows may take nothing. -/
theorem bind_nil {r : ByteReader α} {f : α → ByteReader β} {bs : List UInt8} {a : α} {b : β}
    (h : Reads r bs a) (hf : Reads (f a) [] b) : Reads (r >>= f) bs b := by
  have hbind := h.bind hf
  rwa [List.append_nil] at hbind

/-- The last reader may leave the result to a function. -/
theorem bind_pure {r : ByteReader α} {f : α → β} {bs : List UInt8} {a : α} (h : Reads r bs a) :
    Reads (r >>= fun a => pure (f a)) bs (f a) :=
  h.bind_nil (Reads.pure (f a))

theorem byte (b : UInt8) : Reads ByteReader.byte [b] b := fun _ => rfl

theorem blob (bs : List UInt8) : Reads (ByteReader.blob bs.length) bs bs := by
  intro rest
  unfold ByteReader.blob
  rw [if_pos (by simp), List.take_left, List.drop_left]

theorem array {n : Nat} (v : Vector UInt8 n) : Reads (ByteReader.array n) v.toList v := by
  intro rest
  have hlen : v.toList.length = n := Vector.length_toList
  unfold ByteReader.array
  rw [if_pos (by rw [List.length_append, hlen]; exact Nat.le_add_right _ _)]
  have hdrop : (v.toList ++ rest).drop n = rest := List.drop_left' hlen
  have hvec : (Vector.ofFn fun i : Fin n => (v.toList ++ rest).getD i 0) = v := by
    apply Vector.ext
    intro i hi
    rw [Vector.getElem_ofFn, List.getD_eq_getElem?_getD,
      List.getElem?_append_left (by rw [hlen]; exact hi)]
    simp [hi]
  rw [hdrop, hvec]

/-- A condition on what was read takes no bytes. -/
theorem require {c : Bool} (h : c = true) : Reads (ByteReader.require c) [] () := by
  intro rest
  unfold ByteReader.require
  rw [h]
  rfl

/-- A check on the number of bytes left, when at least the bytes that follow are there. -/
theorem remaining_bind {f : Nat → ByteReader β} {bs : List UInt8} {b : β}
    (h : ∀ n, bs.length ≤ n → Reads (f n) bs b) :
    Reads (ByteReader.remaining >>= f) bs b := by
  intro rest
  exact h (bs ++ rest).length (by simp) rest

theorem times {r : ByteReader α} {write : α → List UInt8} {as : List α}
    (h : ∀ a ∈ as, Reads r (write a) a) :
    Reads (ByteReader.times r as.length) (as.flatMap write) as := by
  induction as with
  | nil => exact Reads.pure []
  | cons a as ih =>
    have hrest := ih fun b hb => h b (List.mem_cons_of_mem _ hb)
    exact (h a List.mem_cons_self).bind hrest.bind_pure

/-- The whole of what was written. -/
theorem parse_eq {r : ByteReader α} {bs : List UInt8} {a : α} (h : Reads r bs a) :
    ByteReader.parse r bs = some a := by
  have hread := h []
  rw [List.append_nil] at hread
  unfold ByteReader.parse
  rw [hread]

end Reads

end ByteReader
