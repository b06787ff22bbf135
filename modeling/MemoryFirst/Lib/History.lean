/-
Histories whose entries belong to keys: the last entry of a key, across
an entry that is added at the end.

The file names no kind of entry: `key` reads the key of one.
-/
import Mathlib.Data.List.Induction

namespace MemoryFirst.Lib

open List

variable {α K : Type*} [DecidableEq K] {key : α → K} {k : K} {x : α}

/-- The last entry of `k`. -/
def lastOf (key : α → K) (history : List α) (k : K) : Option α :=
  (history.filter fun x => decide (key x = k)).getLast?

theorem lastOf_append (history more : List α) (k : K) : lastOf key (history ++ more) k
      = (lastOf key more k).or (lastOf key history k) := by
  unfold lastOf
  rw [filter_append, getLast?_append]

theorem lastOf_concat (history : List α) (x : α) (k : K) : lastOf key (history ++ [x]) k
      = if key x = k then some x else lastOf key history k := by
  by_cases hk : key x = k
  · simp [lastOf, hk]
  · simp [lastOf, hk]

variable {history : List α}

theorem lastOf_mem (h : lastOf key history k = some x) : x ∈ history ∧ key x = k := by
  have hmem := mem_of_getLast? h
  simpa using hmem

theorem lastOf_eq_none_iff : lastOf key history k = none ↔ ∀ x ∈ history, key x ≠ k := by
  unfold lastOf
  simp

/-- Entries of other keys change nothing. -/
theorem lastOf_append_other {more : List α} (h : ∀ x ∈ more, key x ≠ k) :
    lastOf key (history ++ more) k = lastOf key history k := by
  rw [lastOf_append, lastOf_eq_none_iff.2 h, Option.none_or]

/-- A key with an entry has a last one. -/
theorem exists_lastOf (key : α → K) (hx : x ∈ history) :
    ∃ y, lastOf key history (key x) = some y := by
  cases h : lastOf key history (key x) with
  | none => exact absurd rfl (lastOf_eq_none_iff.1 h x hx)
  | some y => exact ⟨y, rfl⟩

/-- The history up to and from the last entry of a key. -/
theorem lastOf_split (h : lastOf key history k = some x) :
    ∃ front back, history = front ++ x :: back ∧ ∀ y ∈ back, key y ≠ k := by
  induction history using reverseRecOn with
  | nil => cases h
  | append_singleton history z ih =>
    rw [lastOf_concat] at h
    by_cases hk : key z = k
    · rw [if_pos hk] at h
      cases h
      exact ⟨history, [], rfl, nofun⟩
    rw [if_neg hk] at h
    obtain ⟨front, back, rfl, hback⟩ := ih h
    refine ⟨front, back ++ [z], by simp, ?_⟩
    intro y hy
    rcases mem_append.1 hy with hold | hnew
    · exact hback y hold
    · cases mem_singleton.1 hnew
      exact hk

/-- Where the entries of a key are related along the history, each is
related to the last one. -/
theorem lastOf_related {R : α → α → Prop} {y : α}
    (h : history.Pairwise fun a b => key a = key b → R a b) (hx : x ∈ history)
    (hlast : lastOf key history (key x) = some y) : x = y ∨ R x y := by
  obtain ⟨-, hkey⟩ := lastOf_mem hlast
  obtain ⟨front, back, rfl, hback⟩ := lastOf_split hlast
  rcases mem_append.1 hx with hfront | hrest
  · exact Or.inr ((pairwise_append.1 h).2.2 x hfront y mem_cons_self hkey.symm)
  · rcases mem_cons.1 hrest with heq | hmem
    · exact Or.inl heq
    · exact absurd rfl (hback x hmem)

end MemoryFirst.Lib
