/-
Posting lists: a finite map from keys to the lists of the items filed
under them, as an inverted index keeps it.

An item is filed under a key at most once, and a key without items is
not kept. The file names no application. `m.Files keys` says that `m` is
the index of the items with the keys `keys`; an index is kept by filing
an item anew whenever its keys change (`Files.refile`).
-/
import Mathlib.Data.List.AList

namespace MemoryFirst.Lib

open Function List

/-- The items filed under each key. -/
abbrev Postings (κ ι : Type) := AList fun _ : κ => List ι

namespace Postings

variable {κ ι : Type} [DecidableEq κ]

/-- The items filed under a key. -/
def ids (m : Postings κ ι) (k : κ) : List ι := (m.lookup k).getD []

/-- No item is filed twice under one key. -/
def Distinct (m : Postings κ ι) : Prop := ∀ k, (m.ids k).Nodup

@[simp] theorem ids_empty (k : κ) : ids (∅ : Postings κ ι) k = [] := rfl

theorem distinct_empty : Distinct (∅ : Postings κ ι) :=
  fun _ => nodup_nil

/-- Each item is filed once under each of its keys and nowhere else. -/
structure Files (m : Postings κ ι) (keys : ι → List κ) : Prop where
  distinct : m.Distinct
  mem_iff : ∀ k i, i ∈ m.ids k ↔ k ∈ keys i

theorem files_empty : Files (∅ : Postings κ ι) fun _ => [] :=
  ⟨distinct_empty, fun k i => by simp⟩

variable [DecidableEq ι] (m : Postings κ ι)

/-- Files an item under a key, unless it is there. -/
def add (k : κ) (i : ι) : Postings κ ι :=
  m.insert k (if i ∈ m.ids k then m.ids k else m.ids k ++ [i])

/-- Takes an item from under a key. -/
def remove (k : κ) (i : ι) : Postings κ ι :=
  match m.lookup k with
  | none => m
  | some l =>
    let l := l.filter (· ≠ i)
    if l = [] then m.erase k else m.insert k l

/-- Files an item under each of the keys. -/
def addAll (ks : List κ) (i : ι) : Postings κ ι :=
  ks.foldl (fun m k => m.add k i) m

/-- Takes an item from under each of the keys. -/
def removeAll (ks : List κ) (i : ι) : Postings κ ι :=
  ks.foldl (fun m k => m.remove k i) m

variable {m : Postings κ ι} {k k' : κ} {i j : ι}

section

variable (m : Postings κ ι) (k : κ) (i : ι) (k' : κ)

theorem ids_add : (m.add k i).ids k' = if k' = k then
      (if i ∈ m.ids k then m.ids k else m.ids k ++ [i]) else m.ids k' := by
  unfold add
  by_cases h : k' = k
  · subst h
    simp [ids]
  · rw [if_neg h, ids, AList.lookup_insert_ne h, ids]

theorem ids_remove : (m.remove k i).ids k' = if k' = k then (m.ids k).filter (· ≠ i)
      else m.ids k' := by
  unfold remove
  cases hl : m.lookup k with
  | none =>
    by_cases h : k' = k
    · subst h
      simp [ids, hl]
    · rw [if_neg h]
  | some l =>
    have hk : m.ids k = l := by
      rw [ids, hl]
      rfl
    simp only [hk]
    by_cases h : k' = k
    · subst h
      rw [if_pos rfl]
      split
      case isTrue hnil => rw [hnil, ids, AList.lookup_erase]; rfl
      case isFalse => rw [ids, AList.lookup_insert]; rfl
    rw [if_neg h]
    split
    · rw [ids, AList.lookup_erase_ne h, ids]
    · rw [ids, AList.lookup_insert_ne h, ids]

end

theorem mem_ids_add : j ∈ (m.add k i).ids k' ↔ j ∈ m.ids k' ∨ (k' = k ∧ j = i) := by
  rw [ids_add]
  by_cases h : k' = k
  · subst h
    rw [if_pos rfl]
    by_cases hi : i ∈ m.ids k'
    · rw [if_pos hi]
      refine ⟨Or.inl, ?_⟩
      rintro (hj | ⟨-, rfl⟩)
      · exact hj
      · exact hi
    · rw [if_neg hi]
      simp
  · simp [h]

theorem mem_ids_remove : j ∈ (m.remove k i).ids k' ↔ j ∈ m.ids k' ∧ ¬ (k' = k ∧ j = i) := by
  rw [ids_remove]
  by_cases h : k' = k
  · subst h
    simp
  · simp [h]

theorem Distinct.add (h : m.Distinct) (k : κ) (i : ι) : (m.add k i).Distinct := by
  intro k'
  rw [ids_add]
  split
  case isFalse => exact h k'
  case isTrue =>
    split
    case isTrue => exact h k
    case isFalse hi =>
      exact nodup_append.2 ⟨h k, nodup_singleton i, fun a ha b hb => by
          rw [mem_singleton.1 hb]
          rintro rfl
          exact hi ha⟩

theorem Distinct.remove (h : m.Distinct) (k : κ) (i : ι) : (m.remove k i).Distinct := by
  intro k'
  rw [ids_remove]
  split
  · exact (h k).filter _
  · exact h k'

section

variable (m : Postings κ ι) (ks : List κ) (i : ι) (k : κ) (j : ι)

theorem mem_ids_addAll : j ∈ (m.addAll ks i).ids k ↔ j ∈ m.ids k ∨ (k ∈ ks ∧ j = i) := by
  induction ks generalizing m with
  | nil => simp [addAll]
  | cons k' ks ih =>
    show j ∈ ((m.add k' i).addAll ks i).ids k ↔ _
    rw [ih, mem_ids_add, mem_cons]
    tauto

theorem mem_ids_removeAll : j ∈ (m.removeAll ks i).ids k ↔ j ∈ m.ids k ∧ ¬ (k ∈ ks ∧ j = i) := by
  induction ks generalizing m with
  | nil => simp [removeAll]
  | cons k' ks ih =>
    show j ∈ ((m.remove k' i).removeAll ks i).ids k ↔ _
    rw [ih, mem_ids_remove, mem_cons]
    tauto

end

theorem Distinct.addAll (h : m.Distinct) (ks : List κ) (i : ι) : (m.addAll ks i).Distinct := by
  induction ks generalizing m with
  | nil => exact h
  | cons k ks ih => exact ih (h.add k i)

theorem Distinct.removeAll (h : m.Distinct) (ks : List κ) (i : ι) :
    (m.removeAll ks i).Distinct := by
  induction ks generalizing m with
  | nil => exact h
  | cons k ks ih => exact ih (h.remove k i)

-- ===== the postings of items

variable {keys : ι → List κ}

/-- An item whose keys change is taken from under the old ones and filed
under the new ones. -/
theorem Files.refile (h : m.Files keys) (i : ι)
    (ks : List κ) : ((m.removeAll (keys i) i).addAll ks i).Files (update keys i ks) := by
  refine ⟨(h.distinct.removeAll (keys i) i).addAll ks i, fun k j => ?_⟩
  rw [mem_ids_addAll, mem_ids_removeAll, h.mem_iff]
  by_cases hj : j = i
  · subst hj
    rw [update_self]
    tauto
  · rw [update_of_ne hj]
    tauto

/-- An item that gets more keys is filed under all of them. -/
theorem Files.extend (h : m.Files keys) {i : ι} {ks : List κ} (hsub : ∀ k ∈ keys i, k ∈ ks) :
    (m.addAll ks i).Files (update keys i ks) := by
  refine ⟨h.distinct.addAll ks i, fun k j => ?_⟩
  rw [mem_ids_addAll, h.mem_iff]
  by_cases hj : j = i
  · subst hj
    rw [update_self]
    tauto
  · rw [update_of_ne hj]
    tauto

/-- An item that was filed nowhere. -/
theorem Files.file (h : m.Files keys) {i : ι} (hnew : keys i = [])
    (ks : List κ) : (m.addAll ks i).Files (update keys i ks) := by
  apply h.extend
  intro k hk
  rw [hnew] at hk
  cases hk

end Postings

end MemoryFirst.Lib
