/-
Maps that iterate in the order of their keys, as sorted lists.

The file names no application. A `SortedMap` carries the proof that its
keys increase strictly, so that it has each key once and two maps with
the same values are equal (`ext_find?`); with `Unit` values it is a set.
-/
import Mathlib.Data.List.Find
import Mathlib.Data.List.Nodup
import Mathlib.Data.List.Perm.Basic
import Mathlib.Order.Defs.Unbundled

namespace MemoryFirst.Lib

open List

variable {κ β : Type}

/-- Entries with strictly increasing keys. -/
structure SortedMap (κ β : Type) [LT κ] where
  entries : List (κ × β)
  sorted : entries.Pairwise fun a b => a.1 < b.1
  deriving DecidableEq

namespace SortedMap

variable [LT κ] {m m' : SortedMap κ β}

def empty : SortedMap κ β := ⟨[], .nil⟩

def size (m : SortedMap κ β) : Nat := m.entries.length

def keys (m : SortedMap κ β) : List κ := m.entries.map Prod.fst

theorem nodup_keys [Std.Irrefl fun a b : κ => a < b] (m : SortedMap κ β) : m.keys.Nodup := by
  refine pairwise_map.2 (m.sorted.imp fun {a b} hlt heq => ?_)
  rw [heq] at hlt
  exact Std.Irrefl.irrefl _ hlt

variable [DecidableEq κ]

section

variable (m : SortedMap κ β)

def find? (k : κ) : Option β :=
  (m.entries.find? fun e => decide (e.1 = k)).map Prod.snd

def erase (k : κ) : SortedMap κ β :=
  ⟨m.entries.filter fun e => decide (e.1 ≠ k), m.sorted.filter _⟩

theorem find?_erase (k k' : κ) : (m.erase k).find? k' = if k' = k then none else m.find? k' := by
  unfold find? erase
  rw [find?_filter]
  by_cases hk : k' = k
  · rw [if_pos hk, find?_eq_none.2]
    · rfl
    · intro e _
      simp [hk]
  rw [if_neg hk]
  congr 1
  apply find?_congr
  intro e _
  by_cases he : e.1 = k'
  · simp [he, hk]
  · simp [he]

end

variable {l : List (κ × β)} {v : β} {k : κ}

theorem find?_eq_some [Std.Irrefl fun a b : κ => a < b] :
    m.find? k = some v ↔ (k, v) ∈ m.entries := by
  unfold find?
  constructor
  · intro h
    obtain ⟨⟨k', v'⟩, hfind, rfl⟩ := Option.map_eq_some_iff.1 h
    have hk : k' = k := by simpa using find?_some hfind
    exact hk ▸ mem_of_find?_eq_some hfind
  · intro hmem
    obtain ⟨e, he⟩ : ∃ e, m.entries.find? (fun e => decide (e.1 = k)) = some e := by
      rw [← Option.isSome_iff_exists, find?_isSome]
      exact ⟨_, hmem, decide_eq_true rfl⟩
    have hk : e.1 = k := by simpa using find?_some he
    have hsame : e = (k, v) := inj_on_of_nodup_map m.nodup_keys
      (mem_of_find?_eq_some he) hmem hk
    rw [he, hsame]
    rfl

/-- Maps that have the same values are equal. -/
theorem ext_find? [IsTrans κ fun a b => a < b]
    [Std.Irrefl fun a b : κ => a < b] (h : ∀ k, m.find? k = m'.find? k) : m = m' := by
  have hperm : m.entries.Perm m'.entries := by
    refine (perm_ext_iff_of_nodup m.nodup_keys.of_map m'.nodup_keys.of_map).2 fun e => ?_
    rw [← find?_eq_some, ← find?_eq_some, h]
  have hanti : ∀ a b : κ × β, a ∈ m.entries → b ∈ m'.entries →
      a.1 < b.1 → b.1 < a.1 → a = b := fun a b _ _ hab hba =>
    absurd (IsTrans.trans _ _ _ hab hba) (Std.Irrefl.irrefl a.1)
  have heq : m.entries = m'.entries := hperm.eq_of_pairwise hanti m.sorted m'.sorted
  cases m
  cases m'
  subst heq
  rfl

-- ===== insertion

variable [DecidableLT κ]

/-- Insertion in one pass; an entry of the same key is replaced. -/
def insertEntry (k : κ) (v : β) : List (κ × β) → List (κ × β)
  | [] => [(k, v)]
  | e :: l =>
    if k < e.1 then (k, v) :: e :: l
    else if k = e.1 then (k, v) :: l
    else e :: insertEntry k v l

theorem mem_insertEntry {e : κ × β} (h : e ∈ insertEntry k v l) : e = (k, v) ∨ e ∈ l := by
  induction l with
  | nil => exact Or.inl (mem_singleton.1 h)
  | cons e' l ih =>
    rw [insertEntry] at h
    split at h
    next => exact mem_cons.1 h
    next =>
      split at h
      next =>
        rcases mem_cons.1 h with h | h
        · exact Or.inl h
        · exact Or.inr (mem_cons_of_mem _ h)
      next =>
        rcases mem_cons.1 h with h | h
        · exact Or.inr (mem_cons.2 (Or.inl h))
        · exact (ih h).imp_right (mem_cons_of_mem _)

variable [IsTrans κ fun a b => a < b] [Std.Trichotomous fun a b : κ => a < b]

theorem sorted_insertEntry (k : κ) (v : β) (h : l.Pairwise fun a b => a.1 < b.1) :
    (insertEntry k v l).Pairwise fun a b => a.1 < b.1 := by
  induction l with
  | nil => exact pairwise_singleton ..
  | cons e l ih =>
    obtain ⟨hfirst, hrest⟩ := pairwise_cons.1 h
    rw [insertEntry]
    split
    next hlt =>
      refine pairwise_cons.2 ⟨fun e' he' => ?_, h⟩
      rcases mem_cons.1 he' with rfl | he'
      · exact hlt
      · exact IsTrans.trans _ _ _ hlt (hfirst e' he')
    next hge =>
      split
      next heq =>
        refine pairwise_cons.2 ⟨fun e' he' => ?_, hrest⟩
        rw [heq]
        exact hfirst e' he'
      next hne =>
        refine pairwise_cons.2 ⟨fun e' he' => ?_, ih hrest⟩
        rcases mem_insertEntry he' with rfl | he'
        · -- the key is neither below nor equal to the first one
          apply Decidable.byContradiction
          intro hnot
          exact hne (Std.Trichotomous.trichotomous _ _ hge hnot)
        · exact hfirst e' he'

variable (m : SortedMap κ β)

def insert (k : κ) (v : β) : SortedMap κ β :=
  ⟨insertEntry k v m.entries, sorted_insertEntry k v m.sorted⟩

def insertMany (entries : List (κ × β)) : SortedMap κ β :=
  entries.foldl (fun m e => m.insert e.1 e.2) m

theorem find?_insert (k k' : κ) (v : β) :
    (m.insert k v).find? k' = if k' = k then some v else m.find? k' := by
  show ((insertEntry k v m.entries).find? _).map Prod.snd
    = if k' = k then some v else (m.entries.find? _).map Prod.snd
  induction m.entries with
  | nil =>
    by_cases hk : k' = k
    · simp [insertEntry, hk]
    · simp [insertEntry, hk, Ne.symm hk]
  | cons e l ih =>
    rw [insertEntry]
    split
    next =>
      by_cases hk : k' = k
      · simp [hk]
      · simp [hk, Ne.symm hk]
    next =>
      split
      next heq =>
        by_cases hk : k' = k
        · simp [hk]
        · simp [hk, Ne.symm hk, ← heq]
      next hne =>
        by_cases he : e.1 = k'
        · have hk : k' ≠ k := fun hk => hne (hk ▸ he.symm)
          simp [he, hk]
        · simp [he, ih]

/-- Inserting entries that agree with `f`. -/
theorem find?_insertMany {f : κ → Option β} (hl : ∀ e ∈ l, f e.1 = some e.2)
    (m : SortedMap κ β) (k : κ) : (m.insertMany l).find? k
      = if k ∈ l.map Prod.fst then f k else m.find? k := by
  induction l generalizing m with
  | nil => rfl
  | cons e l ih =>
    show ((m.insert e.1 e.2).insertMany l).find? k = _
    rw [ih (fun e he => hl e (mem_cons_of_mem _ he)), find?_insert, map_cons]
    by_cases hk : k = e.1
    · have hf := hl e mem_cons_self
      simp [hk, hf]
    · simp only [mem_cons, hk, false_or, if_false]

theorem of_find?_insertMany {m : SortedMap κ β} (h : (m.insertMany l).find? k = some v) :
    (k, v) ∈ l ∨ m.find? k = some v := by
  induction l generalizing m with
  | nil => exact Or.inr h
  | cons e l ih =>
    rcases ih h with hl | hm
    · exact Or.inl (mem_cons_of_mem _ hl)
    rw [find?_insert] at hm
    split at hm
    next hk =>
      cases hm
      rw [hk]
      exact Or.inl mem_cons_self
    next => exact Or.inr hm

-- the order of byte strings, under names of its own
instance isTrans_bytes : IsTrans (List UInt8) fun a b => a < b := inferInstance

instance trichotomous_bytes : Std.Trichotomous fun a b : List UInt8 => a < b := inferInstance

end SortedMap

end MemoryFirst.Lib
