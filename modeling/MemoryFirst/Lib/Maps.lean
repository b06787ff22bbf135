/-
Finite maps as association lists: changing many keys at once, and the
weight of a map.

The file names no application. `eraseAll` and `insertAll` run over a
list of keys or pairs, and say what a lookup finds afterwards. `weight f`
adds up `f` over the values; with `f` constantly one it is the number of
keys. A loop that takes entries from a map, or makes them lighter, ends
because the weight does.
-/
import Mathlib.Data.List.AList
import Mathlib.Algebra.Order.BigOperators.Group.List
import Mathlib.Algebra.Order.Ring.Nat

namespace MemoryFirst.Lib

open List

variable {κ β : Type} [DecidableEq κ]

-- ===== many keys

variable (m : AList fun _ : κ => β)

/-- Forgets each of the keys. -/
def eraseAll (ks : List κ) : AList fun _ : κ => β :=
  ks.foldl (fun m k => m.erase k) m

/-- Enters each of the pairs, later ones over earlier ones. -/
def insertAll (ps : List (κ × β)) : AList fun _ : κ => β :=
  ps.foldl (fun m p => m.insert p.1 p.2) m

theorem lookup_eraseAll (ks : List κ) (k : κ) :
    (eraseAll m ks).lookup k = if k ∈ ks then none else m.lookup k := by
  induction ks generalizing m with
  | nil => rfl
  | cons k' ks ih =>
    show (eraseAll (m.erase k') ks).lookup k = _
    rw [ih]
    by_cases hk : k = k'
    · subst hk
      rw [AList.lookup_erase, ite_self, if_pos mem_cons_self]
    · rw [AList.lookup_erase_ne hk]
      simp only [mem_cons, hk, false_or]

/-- No key has two values. -/
def SingleValued (ps : List (κ × β)) : Prop :=
  ∀ k v v', (k, v) ∈ ps → (k, v') ∈ ps → v = v'

theorem lookup_insertAll {ps : List (κ × β)} (hps : SingleValued ps)
    (m : AList fun _ : κ => β) (k : κ) (v : β) :
    (insertAll m ps).lookup k = some v ↔
      (k, v) ∈ ps ∨ (∀ v', (k, v') ∉ ps) ∧ m.lookup k = some v := by
  induction ps generalizing m with
  | nil => simp [insertAll]
  | cons p ps ih =>
    obtain ⟨k', w⟩ := p
    have hrest : SingleValued ps := fun k v v' h h' =>
      hps k v v' (mem_cons_of_mem _ h) (mem_cons_of_mem _ h')
    show (insertAll (m.insert k' w) ps).lookup k = some v ↔ _
    rw [ih hrest]
    by_cases hk : k = k'
    · subst hk
      -- a later pair for the key has the same value
      have hsame : ∀ v', (k, v') ∈ ps → v' = w := fun v' h =>
        hps k v' w (mem_cons_of_mem _ h) mem_cons_self
      rw [AList.lookup_insert]
      simp only [mem_cons, Prod.mk.injEq, true_and, Option.some.injEq, not_or]
      constructor
      · intro h
        rcases h with h | ⟨-, rfl⟩
        · exact Or.inl (Or.inr h)
        · exact Or.inl (Or.inl rfl)
      · intro h
        rcases h with (rfl | h) | ⟨hno, -⟩
        · by_cases hmem : (k, v) ∈ ps
          · exact Or.inl hmem
          · refine Or.inr ⟨fun v' h => hmem ?_, rfl⟩
            rw [← hsame v' h]
            exact h
        · exact Or.inl h
        · exact absurd rfl (hno w).1
    · rw [AList.lookup_insert_ne hk]
      simp only [mem_cons, Prod.mk.injEq, hk, false_and, false_or]

-- ===== weight

omit [DecidableEq κ] in
/-- The sum of `f` over the values. -/
def weight (f : β → Nat) (m : AList fun _ : κ => β) : Nat :=
  (m.entries.map fun e => f e.2).sum

variable {f : β → Nat} {m : AList fun _ : κ => β} {k : κ} {v : β}

omit [DecidableEq κ] in
theorem weight_one (m : AList fun _ : κ => β) : weight (fun _ => 1) m = m.entries.length := by
  simp [weight]

theorem sum_kerase {l : List (Sigma fun _ : κ => β)} (h : l.dlookup k = some v) :
    (l.map fun e => f e.2).sum = f v + ((l.kerase k).map fun e => f e.2).sum := by
  induction l with
  | nil => cases h
  | cons e l ih =>
    obtain ⟨k', w⟩ := e
    by_cases hk : k = k'
    · subst hk
      rw [dlookup_cons_eq] at h
      cases h
      have hrest : (⟨k, v⟩ :: l).kerase k = l := kerase_cons_eq rfl
      rw [hrest, map_cons, sum_cons]
    have hne : k ≠ (⟨k', w⟩ : Sigma fun _ : κ => β).1 := hk
    rw [dlookup_cons_ne _ _ hne] at h
    rw [kerase_cons_ne hne, map_cons, sum_cons, ih h, map_cons, sum_cons]
    omega

/-- A value that is taken out takes its weight with it. -/
theorem weight_erase (h : m.lookup k = some v) : weight f m = f v + weight f (m.erase k) :=
  sum_kerase h

theorem weight_erase_none (h : m.lookup k = none) : weight f (m.erase k) = weight f m := by
  have hk : k ∉ m.entries.keys := AList.lookup_eq_none.1 h
  show ((m.entries.kerase k).map _).sum = _
  rw [kerase_of_notMem_keys hk]
  rfl

variable (f : β → Nat) (m : AList fun _ : κ => β) (k : κ)

theorem weight_erase_le : weight f (m.erase k) ≤ weight f m := by
  cases h : m.lookup k with
  | none => rw [weight_erase_none h]
  | some v =>
    rw [weight_erase h]
    omega

theorem weight_insert (v : β) : weight f (m.insert k v) = f v + weight f (m.erase k) := by
  rfl

end MemoryFirst.Lib
