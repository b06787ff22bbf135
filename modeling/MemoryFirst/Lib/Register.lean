/-
A register guarded by versions, which forgets its version when it is
emptied.

The file names no application. A register holds a value, which has a
version, or nothing. A put is taken when the register is empty or holds a
smaller version, and a delete empties a register that holds no larger
version. The version that guards the register is in the register: once it
is empty, any put is taken.

# How a proof uses it

`run` applies a list of writes. `run_eq_some` is the good case: a put
above every delete and every other put is what the register holds in the
end, whatever the order. `run_eq_none_iff` says when the register ends
empty: every put has a delete that is not below it after it.
-/
import Mathlib.Data.List.Basic

namespace MemoryFirst.Lib.Register

/-- A write to a register. -/
inductive Write (α : Type) where
  | put (value : α)
  | delete (version : Nat)
  deriving DecidableEq

variable {α : Type} (version : α → Nat)

/-- The register after one write. -/
def apply : Option α → Write α → Option α
  | none, .put x => some x
  | some y, .put x => if version y < version x then some x else some y
  | none, .delete _ => none
  | some y, .delete v => if version y ≤ v then none else some y

/-- The register after a list of writes. -/
def run (r : Option α) (writes : List (Write α)) : Option α :=
  writes.foldl (apply version) r

/-- Every put among the writes has a delete that is not below it after
it. -/
def Cleared : List (Write α) → Prop
  | [] => True
  | .put x :: writes => (∃ v, .delete v ∈ writes ∧ version x ≤ v) ∧ Cleared writes
  | .delete _ :: writes => Cleared writes

/-- The writes among which `x` is the highest. -/
def Below (x : α) : Write α → Prop
  | .put y => version y < version x ∨ y = x
  | .delete v => v < version x

variable {version} {writes : List (Write α)} {x : α} {r : Option α}

/-- What a register holds after a write was held before or is put. -/
theorem apply_eq_some {w : Write α} (h : apply version r w = some x) : r = some x ∨ w = .put x := by
  rcases r with _ | y <;> rcases w with z | v <;> simp only [apply] at h
  · cases h
    exact Or.inr rfl
  · cases h
  · split at h
    · cases h
      exact Or.inr rfl
    · exact Or.inl h
  · split at h
    · cases h
    · exact Or.inl h

/-- What an empty register holds in the end was put. -/
theorem put_mem_of_run (h : run version r writes = some x) : r = some x ∨ .put x ∈ writes := by
  induction writes generalizing r with
  | nil => exact Or.inl h
  | cons w writes ih =>
    rcases ih h with hheld | hmem
    · rcases apply_eq_some hheld with hold | rfl
      · exact Or.inl hold
      · exact Or.inr List.mem_cons_self
    · exact Or.inr (List.mem_cons_of_mem w hmem)

/-- What is held, or put, above the rest is held in the end. -/
theorem run_eq_some (hbelow : ∀ w ∈ writes, Below version x w)
    (hr : ∀ y, r = some y → Below version x (.put y))
    (hmem : r = some x ∨ .put x ∈ writes) :
    run version r writes = some x := by
  induction writes generalizing r with
  | nil =>
    rcases hmem with hheld | hnone
    · exact hheld
    · cases hnone
  | cons w writes ih =>
    obtain ⟨hw, hrest⟩ := List.forall_mem_cons.1 hbelow
    refine ih hrest ?_ ?_
    · intro y hy
      rcases apply_eq_some hy with hold | rfl
      · exact hr y hold
      · exact hw
    · rcases hmem with rfl | hmem
      · left
        rcases w with z | v
        · refine (if_neg ?_ : apply version (some x) (.put z) = some x)
          rcases hw with hlt | rfl <;> omega
        · exact if_neg (Nat.not_le.2 hw)
      rcases List.mem_cons.1 hmem with rfl | hmem
      · left
        rcases r with _ | y
        · rfl
        · rcases hr y rfl with hlt | rfl
          · exact if_pos hlt
          · exact if_neg (by omega)
      · exact Or.inr hmem

/-- A register ends empty exactly when every put, and what it held at
first, has a later delete that is not below it. -/
theorem run_eq_none_iff : run version r writes = none ↔
    (∀ y, r = some y → ∃ v, .delete v ∈ writes ∧ version y ≤ v) ∧ Cleared version writes := by
  induction writes generalizing r with
  | nil => rcases r with _ | y <;> simp [run, Cleared]
  | cons w writes ih =>
    show run version (apply version r w) writes = none ↔ _
    rw [ih]
    rcases r with _ | y <;> rcases w with x | v
    · simp [apply, Cleared]
    · simp [apply, Cleared]
    · -- the larger of the two versions is the one to be cleared
      by_cases hlt : version y < version x
      · have hless : (∃ v, .delete v ∈ writes ∧ version x ≤ v) →
            ∃ v, Write.delete v ∈ writes ∧ version y ≤ v :=
          fun ⟨v, hv, hle⟩ => ⟨v, hv, by omega⟩
        simp only [apply, hlt, if_true, Cleared, Option.some.injEq,
          forall_eq', List.mem_cons, reduceCtorEq, false_or]
        exact (and_iff_right_of_imp fun h => hless h.1).symm
      have hless : (∃ v, .delete v ∈ writes ∧ version y ≤ v) →
          ∃ v, Write.delete v ∈ writes ∧ version x ≤ v :=
        fun ⟨v, hv, hle⟩ => ⟨v, hv, by omega⟩
      simp only [apply, hlt, if_false, Cleared, Option.some.injEq,
        forall_eq', List.mem_cons, reduceCtorEq, false_or]
      exact and_congr_right fun h => (and_iff_right (hless h)).symm
    · by_cases hle : version y ≤ v
      · simp [apply, hle, Cleared]
      · simp [apply, hle, Cleared]

end MemoryFirst.Lib.Register
