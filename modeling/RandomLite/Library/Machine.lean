-- SUMMARY: Deterministic machines with replies: runs, trace invariants, reachability, and agreement of two machines.
import Mathlib.Logic.Basic
import Mathlib.Data.List.Basic

/-!
# Machines

A component that answers calls is a deterministic step function from a state and
an input to a reply and a new state. A *run* feeds it a list of inputs. The two
induction principles everything else rests on are stated here once: an invariant
of the replies given so far (`Machine.run_induction`), and an invariant of the
reachable states (`Machine.Reachable.invariant`). `Machine.Agreement` is the
relation between two machines that no sequence of inputs can tell apart. `Since`
is the past-time operator for traces: something happened, and nothing undid it.
-/

/-- A deterministic machine that answers every input with a reply. -/
structure Machine (State Input Reply : Type*) where
  step : State → Input → Reply × State

namespace Machine

variable {State State' Input Reply : Type*}

/-- The replies to a list of inputs, in order, and the state they lead to. -/
def run (M : Machine State Input Reply) : State → List Input → List Reply × State
  | s, [] => ([], s)
  | s, i :: is =>
    let (r, s') := M.step s i
    let (rs, s'') := M.run s' is
    (r :: rs, s'')

/-- The replies of a run. -/
def replies (M : Machine State Input Reply) (s : State) (is : List Input) : List Reply :=
  (M.run s is).1

/-- The state a run ends in. -/
def final (M : Machine State Input Reply) (s : State) (is : List Input) : State :=
  (M.run s is).2

variable {M : Machine State Input Reply}

@[simp] theorem replies_nil (s : State) : M.replies s [] = [] := rfl
@[simp] theorem final_nil (s : State) : M.final s [] = s := rfl

@[simp] theorem replies_cons (s : State) (i : Input) (is : List Input) :
    M.replies s (i :: is) = (M.step s i).1 :: M.replies (M.step s i).2 is := rfl

@[simp] theorem final_cons (s : State) (i : Input) (is : List Input) :
    M.final s (i :: is) = M.final (M.step s i).2 is := rfl

theorem final_append (s : State) (is js : List Input) :
    M.final s (is ++ js) = M.final (M.final s is) js := by
  induction is generalizing s with
  | nil => rfl
  | cons i is ih => exact ih _

@[simp] theorem length_replies (s : State) (is : List Input) :
    (M.replies s is).length = is.length := by
  induction is generalizing s with
  | nil => rfl
  | cons i is ih => simp [ih]

/-! ## Trace invariants -/

/-- An assertion about the replies so far and the current state that the start
    satisfies and every step on one of the inputs keeps holds at the end of the run. -/
theorem run_induction {I : List (Input × Reply) → State → Prop} {s : State} (is : List Input)
    (hstart : I [] s)
    (hstep : ∀ tr s, ∀ i ∈ is, I tr s → I (tr ++ [(i, (M.step s i).1)]) (M.step s i).2) :
    I (is.zip (M.replies s is)) (M.final s is) := by
  -- The induction is on the inputs; the trace already seen is a prefix to carry along.
  suffices h : ∀ (tr : List (Input × Reply)) (s : State), I tr s →
      I (tr ++ is.zip (M.replies s is)) (M.final s is) by
    simpa using h [] s hstart
  induction is with
  | nil => intro tr s h; simpa using h
  | cons i is ih =>
    intro tr s h
    have hnext := hstep tr s i List.mem_cons_self h
    simpa using ih (fun tr s j hj => hstep tr s j (List.mem_cons_of_mem _ hj)) _ _ hnext

/-- The same for an assertion about the state alone. -/
theorem final_induction {I : State → Prop} {s : State} (is : List Input) (hstart : I s)
    (hstep : ∀ s, ∀ i ∈ is, I s → I (M.step s i).2) : I (M.final s is) :=
  run_induction (I := fun _ s => I s) is hstart fun _ => hstep

/-! ## Reachability -/

/-- The states some run leads to. -/
inductive Reachable (M : Machine State Input Reply) (s : State) : State → Prop where
  | start : Reachable M s s
  | step {t : State} (h : Reachable M s t) (i : Input) : Reachable M s (M.step t i).2

namespace Reachable

/-- A property that holds at the start and is kept by every step holds of every
    reachable state. -/
theorem invariant {P : State → Prop} {s t : State} (h : Reachable M s t)
    (hstart : P s) (hstep : ∀ u i, P u → P (M.step u i).2) : P t := by
  induction h with
  | start => exact hstart
  | step _ i ih => exact hstep _ i ih

theorem trans {s t u : State} (hst : Reachable M s t) (htu : Reachable M t u) :
    Reachable M s u := by
  induction htu with
  | start => exact hst
  | step _ i ih => exact ih.step i

end Reachable

theorem reachable_final (s : State) (is : List Input) : Reachable M s (M.final s is) := by
  induction is generalizing s with
  | nil => exact .start
  | cons i is ih => exact (Reachable.start.step i).trans (ih _)

/-! ## Whole runs -/

/-- `P` holds of every state the run passes through. -/
def Throughout (M : Machine State Input Reply) (P : State → Prop) : State → List Input → Prop
  | s, [] => P s
  | s, i :: is => P s ∧ M.Throughout P (M.step s i).2 is

/-- Every step of the run meets `C`, a condition on the state before it and its input. -/
def Meets (M : Machine State Input Reply) (C : State → Input → Prop) : State → List Input → Prop
  | _, [] => True
  | s, i :: is => C s i ∧ M.Meets C (M.step s i).2 is

theorem Throughout.head {P : State → Prop} {s : State} {is : List Input}
    (h : M.Throughout P s is) : P s := by
  cases is with
  | nil => exact h
  | cons i is => exact h.1

/-- Where `C` says exactly when a step does `E` and keeps `P`, a run does `E` and keeps `P`
    throughout exactly when all its steps meet `C`. The invariant `J` holds in any case. -/
theorem throughout_and_meets_iff {J P : State → Prop} {C E : State → Input → Prop} {s : State}
    (is : List Input) (hJ : J s) (hP : P s) (hkeep : ∀ s, ∀ i ∈ is, J s → J (M.step s i).2)
    (hstep : ∀ s, ∀ i ∈ is, J s → P s → (E s i ∧ P (M.step s i).2 ↔ C s i)) :
    M.Throughout P s is ∧ M.Meets E s is ↔ M.Meets C s is := by
  induction is generalizing s with
  | nil => exact iff_of_true ⟨hP, trivial⟩ trivial
  | cons i is ih =>
    have hnext := ih (hkeep s i List.mem_cons_self hJ)
    have hiff := hstep s i List.mem_cons_self hJ hP
    have htail (hP' : P (M.step s i).2) := hnext hP'
      (fun s j hj => hkeep s j (List.mem_cons_of_mem _ hj))
      fun s j hj => hstep s j (List.mem_cons_of_mem _ hj)
    constructor
    · rintro ⟨⟨-, hrest⟩, hE, hErest⟩
      exact ⟨hiff.mp ⟨hE, hrest.head⟩, (htail hrest.head).mp ⟨hrest, hErest⟩⟩
    · rintro ⟨hC, hrest⟩
      obtain ⟨hE, hP'⟩ := hiff.mpr hC
      obtain ⟨hall, hErest⟩ := (htail hP').mpr hrest
      exact ⟨⟨hP, hall⟩, hE, hErest⟩

@[simp] theorem meets_true (s : State) (is : List Input) : M.Meets (fun _ _ => True) s is := by
  induction is generalizing s with
  | nil => trivial
  | cons i is ih => exact ⟨trivial, ih _⟩

/-- The same where only `P` is asked for. -/
theorem throughout_iff_meets {J P : State → Prop} {C : State → Input → Prop} {s : State}
    (is : List Input) (hJ : J s) (hP : P s) (hkeep : ∀ s i, J s → J (M.step s i).2)
    (hstep : ∀ s i, J s → P s → (P (M.step s i).2 ↔ C s i)) :
    M.Throughout P s is ↔ M.Meets C s is := by
  have h := throughout_and_meets_iff (E := fun _ _ => True) is hJ hP (fun s i _ => hkeep s i)
    fun s i _ hJ hP => by simpa using hstep s i hJ hP
  simpa using h

/-! ## Agreement -/

/-- Two machines agree along `R` when related states give every input the same
    reply and stay related. -/
def Agreement (M : Machine State Input Reply) (M' : Machine State' Input Reply)
    (R : State → State' → Prop) : Prop :=
  ∀ s s' i, R s s' → (M.step s i).1 = (M'.step s' i).1 ∧ R (M.step s i).2 (M'.step s' i).2

namespace Agreement

variable {M' : Machine State' Input Reply} {R : State → State' → Prop}

/-- Agreeing machines answer every list of inputs alike. -/
theorem replies_eq (hagree : Agreement M M' R) {s : State} {s' : State'} (h : R s s')
    (is : List Input) : M.replies s is = M'.replies s' is := by
  induction is generalizing s s' with
  | nil => rfl
  | cons i is ih =>
    obtain ⟨hreply, hnext⟩ := hagree s s' i h
    rw [replies_cons, replies_cons, hreply, ih hnext]

/-- Agreeing machines stay related along every run. -/
theorem final_related (hagree : Agreement M M' R) {s : State} {s' : State'} (h : R s s')
    (is : List Input) : R (M.final s is) (M'.final s' is) := by
  induction is generalizing s s' with
  | nil => exact h
  | cons i is ih => exact ih (hagree s s' i h).2

end Agreement

end Machine

/-! ## Since -/

/-- Some element of the list satisfies `P`, and all later ones satisfy `Q`. -/
def Since {α : Type*} (P Q : α → Prop) (l : List α) : Prop :=
  ∃ before a after, l = before ++ a :: after ∧ P a ∧ ∀ b ∈ after, Q b

namespace Since

variable {α : Type*} {P Q : α → Prop}

@[simp] theorem not_nil : ¬ Since P Q [] := by
  rintro ⟨before, a, after, heq, -⟩
  simp at heq

/-- The last element either starts it or keeps it up. -/
theorem concat_iff {l : List α} {c : α} : Since P Q (l ++ [c]) ↔ P c ∨ Since P Q l ∧ Q c := by
  constructor
  · rintro ⟨before, a, after, heq, hP, hQ⟩
    rcases List.eq_nil_or_concat after with rfl | ⟨after, d, rfl⟩
    · obtain ⟨-, hca⟩ := List.append_inj' heq rfl
      obtain ⟨rfl, -⟩ := List.cons.inj hca
      exact .inl hP
    · rw [List.concat_eq_append, ← List.cons_append, ← List.append_assoc] at heq
      obtain ⟨rfl, hcd⟩ := List.append_inj' heq rfl
      obtain ⟨rfl, -⟩ := List.cons.inj hcd
      refine .inr ⟨⟨before, a, after, rfl, hP, fun b hb => hQ b ?_⟩, hQ c ?_⟩
      · simp [hb]
      · simp
  · rintro (hP | ⟨⟨before, a, after, rfl, hP, hQ⟩, hc⟩)
    · exact ⟨l, c, [], rfl, hP, by simp⟩
    · refine ⟨before, a, after ++ [c], by simp, hP, fun b hb => ?_⟩
      rcases List.mem_append.mp hb with hb | hb
      · exact hQ b hb
      · rwa [List.mem_singleton.mp hb]

end Since
