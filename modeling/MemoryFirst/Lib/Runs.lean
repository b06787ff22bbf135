/-
Runs of a deterministic machine: a step function that takes a state and
an input and gives a state and an answer, driven by a list of inputs.

The file names no machine. `exec` is the state a run ends in, `trace`
the inputs of the run paired with the answers they got, and `Guarded`
says that a condition held each time an input was taken, in the state
it was taken in.

# How a proof uses it

A property of whole runs is proved by one of the two rules and a step
lemma: `exec_inv` for an invariant of the state, `exec_sim` for a
relation between the state and the history so far. Both are guarded;
`guarded_true` discharges the guard of an unconditional invariant.
`guarded_iff` turns the recursive guard into the statement about every
split of the input list that a reader would write.
-/
import Mathlib.Init

namespace MemoryFirst.Lib

variable {σ ι ο : Type*} (step : σ → ι → σ × ο)

-- ===== the run

/-- The state after the inputs of `l`, started at `s`. -/
def exec (s : σ) : List ι → σ
  | [] => s
  | i :: l => exec (step s i).1 l

/-- The inputs of a run, each with its answer. -/
def trace (s : σ) : List ι → List (ι × ο)
  | [] => []
  | i :: l => (i, (step s i).2) :: trace (step s i).1 l

/-- Every input met `guard` in the state it was taken in. -/
def Guarded (guard : σ → ι → Prop) (s : σ) : List ι → Prop
  | [] => True
  | i :: l => guard s i ∧ Guarded guard (step s i).1 l

instance Guarded.decidable (guard : σ → ι → Prop) [∀ s i, Decidable (guard s i)] :
    ∀ (s : σ) (l : List ι), Decidable (Guarded step guard s l)
  | _, [] => isTrue trivial
  | s, i :: l =>
    have : Decidable (Guarded step guard (step s i).1 l) := Guarded.decidable guard _ l
    inferInstanceAs (Decidable (_ ∧ _))

variable {step} (s : σ)

@[simp] theorem exec_nil : exec step s [] = s := rfl

@[simp] theorem exec_cons (i : ι) (l : List ι) :
    exec step s (i :: l) = exec step (step s i).1 l := rfl

@[simp] theorem trace_nil : trace step s [] = [] := rfl

theorem exec_append (l l' : List ι) : exec step s (l ++ l') = exec step (exec step s l) l' := by
  induction l generalizing s with
  | nil => rfl
  | cons i l ih => exact ih _

theorem trace_append (l l' : List ι) :
    trace step s (l ++ l') = trace step s l ++ trace step (exec step s l) l' := by
  induction l generalizing s with
  | nil => rfl
  | cons i l ih =>
    show (i, _) :: trace step (step s i).1 (l ++ l') = _
    rw [ih]
    rfl

theorem mem_snoc {α : Type*} {l : List α} {a x : α} : x ∈ l ++ [a] ↔ x ∈ l ∨ x = a := by
  rw [List.mem_append, List.mem_singleton]

theorem forall_mem_snoc {α : Type*} {l : List α} {a : α} {p : α → Prop} :
    (∀ x ∈ l ++ [a], p x) ↔ (∀ x ∈ l, p x) ∧ p a := by
  simp only [mem_snoc, or_imp, forall_and, forall_eq]

variable {l : List ι} {s : σ} {guard : σ → ι → Prop}

theorem mem_of_mem_trace {e : ι × ο} (h : e ∈ trace step s l) : e.1 ∈ l := by
  induction l generalizing s with
  | nil => cases h
  | cons i l ih =>
    rcases List.mem_cons.1 h with rfl | h
    · exact List.mem_cons_self
    · exact List.mem_cons_of_mem i (ih h)

-- ===== the guards

theorem guarded_append (s : σ) (l l' : List ι) : Guarded step guard s (l ++ l') ↔
      Guarded step guard s l ∧ Guarded step guard (exec step s l) l' := by
  induction l generalizing s with
  | nil => simp [Guarded]
  | cons i l ih => simp [Guarded, ih, and_assoc]

/-- A guarded run, split at any of its inputs. -/
theorem guarded_iff : Guarded step guard s l ↔
      ∀ pre i post, l = pre ++ i :: post → guard (exec step s pre) i := by
  constructor
  · rintro h pre i post rfl
    exact ((guarded_append s pre (i :: post)).1 h).2.1
  · intro h
    induction l generalizing s with
    | nil => trivial
    | cons i l ih =>
      refine ⟨h [] i l rfl, ih ?_⟩
      rintro pre j post rfl
      exact h (i :: pre) j post rfl

theorem guarded_and {guard' : σ → ι → Prop} (h : Guarded step guard s l)
    (h' : Guarded step guard' s l) :
    Guarded step (fun s i => guard s i ∧ guard' s i) s l := by
  induction l generalizing s with
  | nil => trivial
  | cons i l ih => exact ⟨⟨h.1, h'.1⟩, ih h.2 h'.2⟩

theorem guarded_true (s : σ) (l : List ι) : Guarded step (fun _ _ => True) s l := by
  induction l generalizing s with
  | nil => trivial
  | cons i l ih => exact ⟨trivial, ih _⟩

-- ===== the two rules

/-- What holds at the start and survives every guarded step holds at the
end of every guarded run. -/
theorem exec_inv (inv : σ → Prop) (hstep : ∀ s i, inv s → guard s i → inv (step s i).1) (hs : inv s)
    (hg : Guarded step guard s l) : inv (exec step s l) := by
  induction l generalizing s with
  | nil => exact hs
  | cons i l ih => exact ih (hstep s i hs hg.1) hg.2

/-- A relation between state and history that every guarded step extends
holds between the end of a guarded run and its whole history. -/
theorem exec_sim (rel : σ → List (ι × ο) → Prop) (hstep : ∀ s h i, rel s h → guard s i →
      rel (step s i).1 (h ++ [(i, (step s i).2)])) {h : List (ι × ο)}
    (hs : rel s h) (hg : Guarded step guard s l) :
    rel (exec step s l) (h ++ trace step s l) := by
  induction l generalizing s h with
  | nil => simpa using hs
  | cons i l ih =>
    have hnext := ih (hstep s h i hs hg.1) hg.2
    rw [List.append_assoc] at hnext
    exact hnext

end MemoryFirst.Lib
