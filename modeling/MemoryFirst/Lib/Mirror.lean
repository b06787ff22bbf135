/-
Two maps that mirror each other: a forward map, from where an item's
links stand to what they point at, and an inverted index, from links to
the items that have them.

The file names no application. A `Linking` says where a link of an item
stands in the forward map and what it points at; an item has at most one
link at each place (`OneEach`). `Mirrors` says that both maps are those
of the links the items have; they stay so when an item's links are taken
away (`Mirrors.unfile`) and when an item gets more of them
(`Mirrors.file`), in that order also when they change
(`Mirrors.refile`).
-/
import MemoryFirst.Lib.Maps
import MemoryFirst.Lib.Postings

namespace MemoryFirst.Lib

open Function List

/-- The place of an item's link, and its target. A place belongs to one
item, and there a link is known by its target. -/
structure Linking (ι ε κ τ : Type) where
  place : ι → ε → κ
  target : ε → τ
  owner : ∀ {i j e e'}, place i e = place j e' → i = j
  known : ∀ {i e e'}, place i e = place i e' → target e = target e' → e = e'

namespace Linking

variable {ι ε κ τ : Type} [DecidableEq ι] [DecidableEq ε] [DecidableEq κ] (L : Linking ι ε κ τ)

omit [DecidableEq ι] [DecidableEq ε] [DecidableEq κ]

/-- The places of an item's links, each with the target. -/
def pairs (i : ι) (links : List ε) : List (κ × τ) :=
  links.map fun e => (L.place i e, L.target e)

/-- No two links of an item stand at one place. -/
def OneEach (i : ι) (links : List ε) : Prop :=
  SingleValued (L.pairs i links)

theorem mem_pairs {i j : ι} {e : ε} {links : List ε} :
    (L.place j e, L.target e) ∈ L.pairs i links ↔ j = i ∧ e ∈ links := by
  simp only [pairs, mem_map, Prod.mk.injEq]
  constructor
  · intro h
    obtain ⟨e', he', hplace, htarget⟩ := h
    obtain rfl := L.owner hplace
    rw [← L.known hplace htarget]
    exact ⟨rfl, he'⟩
  · intro h
    obtain ⟨rfl, he⟩ := h
    exact ⟨e, he, rfl, rfl⟩

variable [DecidableEq ι] [DecidableEq ε] [DecidableEq κ]
  {forward : AList fun _ : κ => τ} {reverse : Postings ε ι}
  {links : ι → List ε}

/-- Both maps are those of the links of the items. -/
structure Mirrors (forward : AList fun _ : κ => τ)
    (reverse : Postings ε ι) (links : ι → List ε) : Prop where
  files : reverse.Files links
  forward_iff : ∀ i e, forward.lookup (L.place i e) = some (L.target e) ↔ e ∈ links i

variable {L}

omit [DecidableEq ι] in
theorem mirrors_empty : L.Mirrors (∅ : AList fun _ : κ => τ) (∅ : Postings ε ι) fun _ => [] :=
  ⟨Postings.files_empty, fun i e => by simp⟩

section

variable (h : L.Mirrors forward reverse links)

include h

/-- An item's links are taken away. -/
theorem Mirrors.unfile (i : ι) : L.Mirrors (eraseAll forward ((links i).map (L.place i)))
      (reverse.removeAll (links i) i) (update links i []) := by
  refine ⟨h.files.refile i [], fun j e => ?_⟩
  rw [lookup_eraseAll]
  by_cases hj : j = i
  · subst hj
    rw [update_self]
    simp only [not_mem_nil, iff_false]
    split
    case isTrue => simp
    case isFalse hplace =>
      intro hold
      have hmem := (h.forward_iff j e).1 hold
      exact hplace (mem_map_of_mem hmem)
  · rw [update_of_ne hj, ← h.forward_iff]
    have hplace : L.place j e ∉ (links i).map (L.place i) := by
      intro hmem
      obtain ⟨e', -, heq⟩ := mem_map.1 hmem
      exact hj (L.owner heq.symm)
    rw [if_neg hplace]

variable {new : List ε}

/-- An item that has its old links among the new ones. -/
theorem Mirrors.file {i : ι} (hsub : ∀ e ∈ links i, e ∈ new) (hnew : L.OneEach i new) :
    L.Mirrors (insertAll forward (L.pairs i new)) (reverse.addAll new i)
      (update links i new) := by
  refine ⟨h.files.extend hsub, fun j e => ?_⟩
  rw [lookup_insertAll hnew, L.mem_pairs]
  by_cases hj : j = i
  · subst hj
    rw [update_self]
    constructor
    · intro hcases
      rcases hcases with ⟨-, he⟩ | ⟨-, hold⟩
      · exact he
      · exact hsub e ((h.forward_iff j e).1 hold)
    · intro he
      exact Or.inl ⟨rfl, he⟩
  · rw [update_of_ne hj, ← h.forward_iff]
    constructor
    · intro hcases
      rcases hcases with ⟨hsame, -⟩ | ⟨-, hold⟩
      · exact absurd hsame hj
      · exact hold
    · intro hold
      refine Or.inr ⟨fun t ht => ?_, hold⟩
      obtain ⟨e', -, heq⟩ := mem_map.1 ht
      exact hj (L.owner (Prod.mk.inj heq).1.symm)

/-- An item whose links change: the old ones are taken away, then the new
ones are filed. -/
theorem Mirrors.refile {i : ι} (hnew : L.OneEach i new) :
    L.Mirrors (insertAll (eraseAll forward ((links i).map (L.place i))) (L.pairs i new))
      ((reverse.removeAll (links i) i).addAll new i)
      (update links i new) := by
  have hsub : ∀ e ∈ update links i [] i, e ∈ new := by
    intro e he
    rw [update_self] at he
    cases he
  have hfile := (h.unfile i).file hsub hnew
  rw [update_idem] at hfile
  exact hfile

end

end Linking

end MemoryFirst.Lib
