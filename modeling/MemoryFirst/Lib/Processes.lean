/-
A list of processes that take steps one at a time: process `p` is entry
`p` of the list, a step replaces its entry, and a new process is added at
the end. Numbers of processes never change.

The lemmas read the list after such a change. The file names no process.
-/
import Mathlib.Algebra.Order.BigOperators.Group.List
import Mathlib.Algebra.Order.Ring.Nat

namespace MemoryFirst.Lib

open List

variable {α : Type*} {procs : List α} {p q : Nat} {a b : α}

/-- After a step of process `p` an entry is the new one, or another
process's old one. -/
theorem getElem?_set_cases (h : (procs.set p a)[q]? = some b) :
    (q = p ∧ b = a) ∨ (q ≠ p ∧ procs[q]? = some b) := by
  by_cases hq : q = p
  · subst hq
    rw [getElem?_set_self'] at h
    cases hold : procs[q]? with
    | none => rw [hold] at h; cases h
    | some old =>
      rw [hold] at h
      exact Or.inl ⟨rfl, (Option.some.inj h).symm⟩
  · rw [getElem?_set_ne (Ne.symm hq)] at h
    exact Or.inr ⟨hq, h⟩

/-- The process that took the step has its new entry. -/
theorem getElem?_set_new (hp : procs[p]? = some b) : (procs.set p a)[p]? = some a := by
  rw [getElem?_set_self', hp]
  rfl

/-- The others keep theirs. -/
theorem getElem?_set_other (hq : procs[q]? = some b) (hne : p ≠ q) :
    (procs.set p a)[q]? = some b := by
  rw [getElem?_set_ne hne]
  exact hq

/-- An entry after a process was added is an old one or the new one. -/
theorem getElem?_append_cases (h : (procs ++ [a])[q]? = some b) : procs[q]? = some b ∨ b = a := by
  rcases Nat.lt_or_ge q procs.length with hq | hq
  · rw [getElem?_append_left hq] at h
    exact Or.inl h
  · rw [getElem?_append_right hq] at h
    exact Or.inr (mem_singleton.1 (mem_of_getElem? h))

theorem getElem?_append_old (hq : procs[q]? = some b) : (procs ++ [a])[q]? = some b := by
  obtain ⟨hlt, -⟩ := List.getElem?_eq_some_iff.1 hq
  rw [List.getElem?_append_left hlt]
  exact hq

section

variable (hp : procs[p]? = some a)
include hp

/-- How many processes have a property, across a step of one of them. -/
theorem countP_set_add (f : α → Bool) :
    (procs.set p b).countP f + (if f a then 1 else 0)
      = procs.countP f + (if f b then 1 else 0) := by
  obtain ⟨hlt, hget⟩ := List.getElem?_eq_some_iff.1 hp
  have hpos : f a = true → 0 < procs.countP f := by
    intro hf
    exact List.countP_pos_iff.2 ⟨a, List.mem_of_getElem? hp, hf⟩
  rw [List.countP_set hlt, hget]
  cases hf : f a with
  | true =>
    have hcount := hpos hf
    simp only [if_true]
    omega
  | false => simp

/-- What the processes hold together, across a step of one of them. -/
theorem sum_map_set_add (f : α → Nat) :
    ((procs.set p b).map f).sum + f a = (procs.map f).sum + f b := by
  induction procs generalizing p with
  | nil => cases hp
  | cons c procs ih =>
    cases p with
    | zero =>
      cases hp
      simp only [set_cons_zero, map_cons, sum_cons]
      omega
    | succ p =>
      have hrest := ih (p := p) hp
      simp only [set_cons_succ, map_cons, sum_cons]
      omega

/-- One process holds no more than all together. -/
theorem le_sum_map (f : α → Nat) : f a ≤ (procs.map f).sum :=
  single_le_sum (fun _ _ => Nat.zero_le _) _ (mem_map_of_mem (mem_of_getElem? hp))

/-- Where one process alone has entries, the processes' lists together
are its own. -/
theorem flatMap_eq_of_others_nil {β : Type*} (f : α → List β)
    (hothers : ∀ q b, q ≠ p → procs[q]? = some b → f b = []) :
    procs.flatMap f = f a := by
  induction procs generalizing p with
  | nil => cases hp
  | cons c procs ih =>
    rw [flatMap_cons]
    cases p with
    | zero =>
      cases hp
      have hrest : procs.flatMap f = [] := by
        refine flatMap_eq_nil_iff.2 fun b hb => ?_
        obtain ⟨q, hq⟩ := mem_iff_getElem?.1 hb
        exact hothers (q + 1) b (by omega) hq
      rw [hrest, append_nil]
    | succ p =>
      have hhead : f c = [] := hothers 0 c (Ne.symm (by omega)) rfl
      rw [hhead, nil_append]
      refine ih hp fun q b hq hb => ?_
      exact hothers (q + 1) b (fun h => hq (by omega)) hb

end

end MemoryFirst.Lib
