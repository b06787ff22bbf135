/-
Loops that may run forever, executed with fuel.

The file names no program. A loop body either goes round again with a
new state or leaves the loop; `loop body n` goes round at most `n` times
and gives nothing if that was not enough.

# How a proof uses it

`loop_returns` turns a measure that every round lowers into one result
for all large amounts of fuel. `loop_rule` is the rule of the invariant:
what every round keeps, and what leaving the loop makes of it.
-/
import Mathlib.Init

namespace MemoryFirst.Lib

variable {σ : Type*}

/-- What the body of a loop decides. -/
inductive Flow (σ : Type*) where
  | again (s : σ)
  | exit (s : σ)

def loop (body : σ → Flow σ) : Nat → σ → Option σ
  | 0, _ => none
  | n + 1, s =>
    match body s with
    | .again s' => loop body n s'
    | .exit s' => some s'

variable {body : σ → Flow σ} {s s' : σ}

theorem loop_of_exit (h : body s = .exit s') (n : Nat) : loop body (n + 1) s = some s' := by
  rw [loop, h]

theorem loop_of_again (h : body s = .again s') (n : Nat) :
    loop body (n + 1) s = loop body n s' := by
  rw [loop, h]

/-- A loop whose rounds all lower a measure returns, and its result does
not depend on how much fuel there is beyond the measure. -/
theorem loop_returns (measure : σ → Nat)
    (hdown : ∀ s s', body s = .again s' → measure s' < measure s) (s : σ) :
    ∃ s', ∀ n, measure s < n → loop body n s = some s' := by
  induction hm : measure s using Nat.strongRecOn generalizing s with
  | ind m ih =>
    subst hm
    cases hbody : body s with
    | exit s' =>
      refine ⟨s', fun n hn => ?_⟩
      obtain ⟨n, rfl⟩ := Nat.exists_eq_add_one.2 (Nat.zero_lt_of_lt hn)
      exact loop_of_exit hbody n
    | again s₁ =>
      have hlt := hdown s s₁ hbody
      obtain ⟨s', hs'⟩ := ih (measure s₁) hlt s₁ rfl
      refine ⟨s', fun n hn => ?_⟩
      obtain ⟨n, rfl⟩ := Nat.exists_eq_add_one.2 (Nat.zero_lt_of_lt hn)
      rw [loop_of_again hbody]
      exact hs' n (by omega)

/-- What holds at the start and is kept by every round is there when the
loop is left. -/
theorem loop_rule (inv post : σ → Prop) (hagain : ∀ s s', inv s → body s = .again s' → inv s')
    (hexit : ∀ s s', inv s → body s = .exit s' → post s') {n : Nat} (hs : inv s)
    (h : loop body n s = some s') : post s' := by
  induction n generalizing s with
  | zero => cases h
  | succ n ih =>
    cases hbody : body s with
    | exit s₁ =>
      rw [loop_of_exit hbody] at h
      cases h
      exact hexit s _ hs hbody
    | again s₁ =>
      rw [loop_of_again hbody] at h
      exact ih (hagain s s₁ hs hbody) h

end MemoryFirst.Lib
