/-
Keyed records laid over a partial function, the last one of each key
winning: what a log means to whoever replays it.

The file names no log. A record has a key and a value; `overlay` applies
a list of records in order. Replaying a part of a log onto the effect of
the rest, or a log from which superseded records were dropped, comes
down to the laws below.
-/
import Mathlib.Logic.Function.Basic
import Mathlib.Data.List.Induction

namespace MemoryFirst.Lib

open Function List

variable {ρ κ ν : Type*} [DecidableEq κ] (key : ρ → κ) (val : ρ → ν)

/-- The records of `l` written over `f` one after another. -/
def overlay (f : κ → Option ν) (l : List ρ) : κ → Option ν :=
  l.foldl (fun f r => update f (key r) (some (val r))) f

variable (f : κ → Option ν)

@[simp] theorem overlay_nil : overlay key val f [] = f := rfl

@[simp] theorem overlay_cons (r : ρ) (l : List ρ) : overlay key val f (r :: l)
      = overlay key val (update f (key r) (some (val r))) l := rfl

theorem overlay_append (l l' : List ρ) : overlay key val f (l ++ l')
      = overlay key val (overlay key val f l) l' :=
  foldl_append

theorem overlay_snoc (l : List ρ) (r : ρ) : overlay key val f (l ++ [r])
      = update (overlay key val f l) (key r) (some (val r)) := by
  rw [overlay_append]
  rfl

variable {key val} {l : List ρ} {k : κ}

/-- A key no record has keeps its value. -/
theorem overlay_apply_of_forall_ne (h : ∀ r ∈ l, key r ≠ k) (f : κ → Option ν) :
    overlay key val f l k = f k := by
  induction l generalizing f with
  | nil => rfl
  | cons r l ih =>
    rw [overlay_cons, ih (fun x hx => h x (mem_cons_of_mem r hx))]
    exact update_of_ne (h r mem_cons_self).symm _ _

/-- Where the key has a record, what was below does not show. -/
theorem overlay_apply_of_mem (h : ∃ r ∈ l, key r = k) (f g : κ → Option ν) :
    overlay key val f l k = overlay key val g l k := by
  induction l generalizing f g with
  | nil =>
    obtain ⟨r, hr, -⟩ := h
    cases hr
  | cons r l ih =>
    rw [overlay_cons, overlay_cons]
    by_cases hl : ∃ x ∈ l, key x = k
    · exact ih hl _ _
    have hne : ∀ x ∈ l, key x ≠ k := fun x hx he => hl ⟨x, hx, he⟩
    obtain ⟨x, hx, hkx⟩ := h
    rcases mem_cons.1 hx with rfl | hx
    · rw [overlay_apply_of_forall_ne hne, overlay_apply_of_forall_ne hne,
        ← hkx, update_self, update_self]
    · exact absurd hkx (hne x hx)

/-- A record that is superseded later may be dropped. -/
theorem overlay_update_of_mem (h : ∃ r ∈ l, key r = k) (f : κ → Option ν) (v : Option ν) :
    overlay key val (update f k v) l = overlay key val f l := by
  funext k'
  by_cases hk : ∃ r ∈ l, key r = k'
  · exact overlay_apply_of_mem hk _ _
  have hne : ∀ r ∈ l, key r ≠ k' := fun r hr he => hk ⟨r, hr, he⟩
  rw [overlay_apply_of_forall_ne hne, overlay_apply_of_forall_ne hne]
  refine update_of_ne ?_ _ _
  intro he
  subst he
  exact hk h

/-- A key has a value after the records iff it had one before or one of
the records is its own. -/
theorem overlay_isSome_iff (f : κ → Option ν) : (overlay key val f l k).isSome ↔
      (f k).isSome ∨ ∃ r ∈ l, key r = k := by
  induction l generalizing f with
  | nil => simp
  | cons r l ih =>
    rw [overlay_cons, ih]
    by_cases hk : key r = k
    · subst hk
      simp
    · rw [update_of_ne (Ne.symm hk)]
      simp [hk]

/-- Every value comes from below or from a record. -/
theorem overlay_eq_some {v : ν} {f : κ → Option ν} (h : overlay key val f l k = some v) :
    f k = some v ∨ ∃ r ∈ l, key r = k ∧ val r = v := by
  induction l generalizing f with
  | nil => exact Or.inl h
  | cons r l ih =>
    rw [overlay_cons] at h
    rcases ih h with h | ⟨x, hx, hv⟩
    · by_cases hk : k = key r
      · subst hk
        rw [update_self] at h
        exact Or.inr ⟨r, mem_cons_self, rfl, Option.some.inj h⟩
      · rw [update_of_ne hk] at h
        exact Or.inl h
    · exact Or.inr ⟨x, mem_cons_of_mem r hx, hv⟩

/-- Where no key occurs twice, the records are the values. -/
theorem overlay_eq_some_iff_of_nodup (h : (l.map key).Nodup) {v : ν} :
    overlay key val (fun _ => none) l k = some v ↔ ∃ r ∈ l, key r = k ∧ val r = v := by
  induction l using reverseRecOn with
  | nil => simp
  | append_singleton l r ih =>
    rw [map_append, map_singleton, nodup_append] at h
    obtain ⟨hl, -, hne⟩ := h
    rw [overlay_snoc]
    by_cases hk : key r = k
    · have hno : ∀ x ∈ l, key x ≠ k := fun x hx he =>
        hne (key x) (mem_map_of_mem hx) (key r) (by simp) (he.trans hk.symm)
      subst hk
      rw [update_self]
      constructor
      · intro hv
        exact ⟨r, by simp, rfl, Option.some.inj hv⟩
      · rintro ⟨x, hx, hkx, hv⟩
        rcases mem_append.1 hx with hx | hx
        · exact absurd hkx (hno x hx)
        · rw [mem_singleton.1 hx] at hv
          rw [hv]
    · rw [update_of_ne (Ne.symm hk), ih hl]
      simp only [mem_append, mem_singleton]
      constructor
      · rintro ⟨x, hx, hv⟩
        exact ⟨x, Or.inl hx, hv⟩
      · rintro ⟨x, hx | rfl, hkx, hv⟩
        · exact ⟨x, hx, hkx, hv⟩
        · exact absurd hkx hk

end MemoryFirst.Lib
