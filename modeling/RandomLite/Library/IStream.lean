-- SUMMARY: An input file stream with `peek`, `read` and `gcount`, and what reading fixed-size fields from it yields.
import Mathlib.Data.List.Basic
import Mathlib.Tactic.Ring

/-!
# Input streams

The unformatted input functions of a standard C++ stream over the bytes of a
file. A short `read` stores what is left, sets `eofbit` and `failbit`, and
reports the number of bytes stored through `gcount`; once a state bit is set
every later operation stores nothing and reports zero.
-/

/-- An input stream: the bytes not yet read, the two state bits, and the count
    of the last unformatted read. -/
structure IStream where
  rest : List UInt8
  eofbit : Bool := false
  failbit : Bool := false
  gcount : Nat := 0

namespace IStream

/-- `good()`: no state bit is set. -/
def good (s : IStream) : Bool := !s.eofbit && !s.failbit

/-- `peek()`: the next byte without taking it, or `none` for `EOF`. -/
def peek (s : IStream) : Option UInt8 × IStream :=
  if s.good then
    match s.rest with
    | [] => (none, { s with eofbit := true, gcount := 0 })
    | b :: _ => (some b, { s with gcount := 0 })
  else
    (none, { s with failbit := true, gcount := 0 })

/-- `read(buf, n)`: the bytes stored into the buffer. -/
def read (n : Nat) (s : IStream) : List UInt8 × IStream :=
  if s.good then
    (s.rest.take n,
      { rest := s.rest.drop n
        eofbit := decide (s.rest.length < n)
        failbit := decide (s.rest.length < n)
        gcount := (s.rest.take n).length })
  else
    ([], { s with failbit := true, gcount := 0 })

/-- A stream with no state bit set, over the given bytes. -/
def opened (bytes : List UInt8) (gcount : Nat) : IStream :=
  { rest := bytes, gcount := gcount }

@[simp] theorem gcount_opened (bytes : List UInt8) (c : Nat) : (opened bytes c).gcount = c := rfl

@[simp] theorem peek_opened_nil (c : Nat) : (opened [] c).peek.1 = none := rfl

@[simp] theorem peek_opened_cons (b : UInt8) (bs : List UInt8) (c : Nat) :
    (opened (b :: bs) c).peek = (some b, opened (b :: bs) 0) := rfl

/-- A read that the stream can serve in full. -/
theorem read_opened {n : Nat} {bytes : List UInt8} (c : Nat) (h : n ≤ bytes.length) :
    (opened bytes c).read n = (bytes.take n, opened (bytes.drop n) n) := by
  have hnot : ¬ bytes.length < n := by omega
  simp [read, opened, good, hnot, h]

/-- A read past the end stores fewer bytes than asked for and breaks the stream. -/
theorem read_opened_short {n : Nat} {bytes : List UInt8} (c : Nat) (h : bytes.length < n) :
    ((opened bytes c).read n).2.good = false ∧ ((opened bytes c).read n).2.gcount < n := by
  simp only [read, opened, good, h]
  simp
  omega

/-- A broken stream reports that nothing was read, and stays broken. -/
theorem read_broken {s : IStream} (n : Nat) (h : s.good = false) :
    (s.read n).2.good = false ∧ (s.read n).2.gcount = 0 := by
  simp only [read, h]
  simp [good]

/-- Reading never gives bytes back. -/
theorem length_rest_read (n : Nat) (s : IStream) : (s.read n).2.rest.length ≤ s.rest.length := by
  unfold read
  split
  · rw [List.length_drop]
    omega
  · exact Nat.le_refl _

/-- The stream after reading fields of the given widths one after another. -/
def readFields : List Nat → IStream → IStream
  | [], s => s
  | w :: ws, s => readFields ws (s.read w).2

theorem readFields_broken {s : IStream} {ws : List Nat} (hws : ws ≠ []) (h : s.good = false) :
    (readFields ws s).gcount = 0 := by
  induction ws generalizing s with
  | nil => exact absurd rfl hws
  | cons w ws ih =>
    have hread := read_broken w h
    cases ws with
    | nil => exact hread.2
    | cons w' ws => exact ih (by simp) hread.1

/-- Whichever of the fields a too short file is cut in, the count of the last
    read falls short of the last field's width. -/
theorem gcount_readFields_short {ws : List Nat} {last : Nat} {bytes : List UInt8} (c : Nat)
    (hlast : 0 < last) (h : bytes.length < ws.sum + last) :
    (readFields (ws ++ [last]) (opened bytes c)).gcount < last := by
  induction ws generalizing bytes c with
  | nil =>
    have hshort : bytes.length < last := by simpa using h
    exact (read_opened_short c hshort).2
  | cons w ws ih =>
    simp only [List.cons_append, readFields]
    by_cases hw : w ≤ bytes.length
    · -- This field is complete, so the cut is in a later one.
      rw [read_opened c hw]
      apply ih
      simp only [List.sum_cons] at h
      simp only [List.length_drop]
      omega
    · have hbroken := (read_opened_short c (Nat.lt_of_not_le hw)).1
      rw [readFields_broken (by simp) hbroken]
      exact hlast

end IStream
