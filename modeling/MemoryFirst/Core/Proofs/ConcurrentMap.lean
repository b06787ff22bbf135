/-
What the `ConcurrentMap` table keeps, whatever is called, and when it is
a finite map.

# Two layers of invariant

- `Coherent`: tags and entries agree, every entry sits on its own key's
  probe path with no empty slot before it, and `len` counts the occupied
  slots. EVERY call keeps it.
- `Single`: no key occupies two slots. Lookups, removals and inserts of
  absent keys keep it. An insert of a PRESENT key keeps it only when no
  tombstone lies before that key on its probe path: `insert_inner` claims
  the first tombstone it meets and never looks further for the key, so a
  `Shadowed` key is inserted a second time. `insertInner_shadowed` is
  that defect, one step of it.

With both in force the table is the finite map of its entries
(`get_eq_some_iff`, `mem_forEach_iff`), which is what the run theorem of
`MapRuns.lean` is built from.

# Method

`SlotView` says once what a slot can look like to a probing key, each
loop body is evaluated on the four views, and `insertInner_cases` /
`removeWhere_cases` invert the two loops. No later proof unfolds a loop.
-/
import MemoryFirst.Core.ConcurrentMap
import Mathlib.Data.Finset.Card
import Mathlib.Data.Finset.Range
import Mathlib.Data.Nat.Find

namespace MemoryFirst.Core.ConcurrentMap

open Lib Function List

variable {K V : Type}

-- ===== probe paths

/-- The slot a probe for `key` visits after `n` steps. -/
def slot (m : ConcurrentMap K V) (key : K) (n : Nat) : Nat :=
  trail m.nextSlot 0 (m.h1 key) n

variable (m : ConcurrentMap K V) (key : K)

theorem slot_le_mask (n : Nat) : m.slot key n ≤ m.mask := by
  cases n with
  | zero => exact Nat.and_le_right
  | succ n =>
    rw [slot, trail_snoc]
    exact Nat.and_le_right

theorem h2_toNat_le : (m.h2 key).toNat ≤ 127 := by
  exact Nat.and_le_right

/-- A tag is never the empty marker. -/
theorem h2_ne_empty : m.h2 key ≠ META_EMPTY := by
  intro h
  have hle := m.h2_toNat_le key
  rw [h] at hle
  exact absurd hle (by decide)

/-- A tag is never the tombstone marker. -/
theorem h2_ne_tombstone : m.h2 key ≠ META_TOMBSTONE := by
  intro h
  have hle := m.h2_toNat_le key
  rw [h] at hle
  exact absurd hle (by decide)

-- ===== the invariants

/-- The slots that hold an entry. -/
def occupied (m : ConcurrentMap K V) : Finset Nat :=
  (Finset.range m.capacity).filter fun i => (m.entries i).isSome

variable {m : ConcurrentMap K V} {key : K} {i : Nat} {v : V}

@[simp] theorem mem_occupied : i ∈ m.occupied ↔ i < m.capacity ∧ (m.entries i).isSome := by
  simp [occupied]

/-- What every reachable table satisfies. -/
structure Coherent (m : ConcurrentMap K V) : Prop where
  mask_lt : m.mask < m.capacity
  tagged : ∀ {i e}, m.entries i = some e → m.slotMeta i = m.h2 e.key
  free : ∀ {i}, m.entries i = none → m.slotMeta i = META_EMPTY ∨ m.slotMeta i = META_TOMBSTONE
  reach : ∀ {i e}, m.entries i = some e → ∃ n ≤ m.probeLimit,
    m.slot e.key n = i ∧ ∀ a < n, m.slotMeta (m.slot e.key a) ≠ META_EMPTY
  len_eq : m.len = m.occupied.card

section

variable (m : ConcurrentMap K V)

/-- No key occupies two slots. -/
def Single : Prop :=
  ∀ i j e f, m.entries i = some e → m.entries j = some f → e.key = f.key → i = j

/-- Some slot holds the pair. -/
def Stored (key : K) (v : V) : Prop :=
  ∃ i, m.entries i = some ⟨key, v⟩

/-- A tombstone lies before the first slot on `key`'s path that holds
`key`. -/
def Shadowed (key : K) : Prop :=
  ∃ a b, a < b ∧ b ≤ m.probeLimit ∧ m.slotMeta (m.slot key a) = META_TOMBSTONE
    ∧ (∃ v, m.entries (m.slot key b) = some ⟨key, v⟩)
    ∧ ∀ c < b, ∀ v, m.entries (m.slot key c) ≠ some ⟨key, v⟩

end

variable {e : Entry K V}

section

variable (hc : Coherent m) (h : m.entries i = some e)

include hc h

/-- Occupied slots are slots of the table. -/
theorem Coherent.lt_capacity : i < m.capacity := by
  obtain ⟨n, -, rfl, -⟩ := hc.reach h
  exact Nat.lt_of_le_of_lt (m.slot_le_mask _ _) hc.mask_lt

/-- The first time a probe for an entry's key meets the entry. -/
theorem Coherent.reach_first : ∃ n ≤ m.probeLimit, m.slot e.key n = i ∧ ∀ a < n, m.slot e.key a ≠ i
        ∧ m.slotMeta (m.slot e.key a) ≠ META_EMPTY := by
  obtain ⟨n, hn, hi, hpath⟩ := hc.reach h
  have hex : ∃ k, m.slot e.key k = i := ⟨n, hi⟩
  have hle : Nat.find hex ≤ n := Nat.find_min' hex hi
  refine ⟨Nat.find hex, by omega, Nat.find_spec hex, fun a ha => ?_⟩
  exact ⟨Nat.find_min hex ha, hpath a (by omega)⟩

end

variable {n : Nat}

/-- A key that no slot of its path up to an empty one holds is absent. -/
theorem Coherent.absent_of_empty (hc : Coherent m)
    (hpath : ∀ a < n, ∀ w, m.entries (m.slot key a) ≠ some ⟨key, w⟩)
    (hemp : m.entries (m.slot key n) = none)
    (ht : m.slotMeta (m.slot key n) = META_EMPTY) (w : V) :
    ¬ m.Stored key w := by
  rintro ⟨i, hi⟩
  obtain ⟨b, -, hb, hfull⟩ := hc.reach hi
  rcases Nat.lt_trichotomy b n with hlt | heq | hgt
  · exact hpath b hlt w (hb ▸ hi)
  · subst heq
    rw [hb] at hemp
    rw [hemp] at hi
    cases hi
  · exact hfull n hgt ht

variable {w : V}

/-- When an insert claims a slot for a key that is present, the slot it
claims is a tombstone before the key's own slot. -/
theorem Coherent.shadowed_of_claim (hc : Coherent m) (hfree : m.entries (m.slot key n) = none)
    (hbusy : ∀ a < n, ∃ e, m.entries (m.slot key a) = some e
      ∧ e.key ≠ key) (hst : m.Stored key w) : m.Shadowed key := by
  obtain ⟨i, hi⟩ := hst
  obtain ⟨b₀, hb₀, rfl, hpath⟩ := hc.reach hi
  have hex : ∃ b, ∃ v, m.entries (m.slot key b) = some ⟨key, v⟩ := ⟨b₀, w, hi⟩
  classical
  have hle : Nat.find hex ≤ b₀ := Nat.find_min' hex ⟨w, hi⟩
  obtain ⟨v, hv⟩ := Nat.find_spec hex
  -- the key's first own slot lies past slot n, which is no empty slot
  have hlt : n < Nat.find hex := by
    rcases Nat.lt_trichotomy n (Nat.find hex) with h | h | h
    · exact h
    · rw [← h, hfree] at hv
      cases hv
    obtain ⟨e, he, hk⟩ := hbusy _ h
    rw [he] at hv
    cases hv
    exact absurd rfl hk
  have htomb : m.slotMeta (m.slot key n) = META_TOMBSTONE := by
    rcases hc.free hfree with h | h
    · exact absurd h (hpath n (by omega))
    · exact h
  refine ⟨n, Nat.find hex, hlt, by omega, htomb, ⟨v, hv⟩, ?_⟩
  intro c hcb v' hv'
  exact Nat.find_min hex hcb ⟨v', hv'⟩

-- ===== what a probe sees

/-- The four things a slot can be to a probe for `key`. -/
inductive SlotView (m : ConcurrentMap K V) (key : K) (i : Nat) : Prop
  | own (v : V) (h : m.entries i = some ⟨key, v⟩)
  | other (e : Entry K V) (h : m.entries i = some e) (hk : e.key ≠ key)
  | empty (h : m.entries i = none) (ht : m.slotMeta i = META_EMPTY)
  | tombstone (h : m.entries i = none) (ht : m.slotMeta i = META_TOMBSTONE)

variable [DecidableEq K]

theorem Coherent.slotView (hc : Coherent m) (key : K) (i : Nat) : SlotView m key i := by
  cases h : m.entries i with
  | none =>
    rcases hc.free h with ht | ht
    · exact .empty h ht
    · exact .tombstone h ht
  | some e =>
    by_cases hk : e.key = key
    · subst hk
      exact .own e.value h
    · exact .other e h hk

theorem getVisit_own (hc : Coherent m) (h : m.entries i = some ⟨key, v⟩) :
    m.getVisit key i = some (some v) := by
  have ht := hc.tagged h
  simp [getVisit, h, ht]

theorem getVisit_other (hc : Coherent m) (h : m.entries i = some e)
    (hk : e.key ≠ key) : m.getVisit key i = none := by
  have ht : m.slotMeta i ≠ META_EMPTY := by
    rw [hc.tagged h]
    exact m.h2_ne_empty _
  simp [getVisit, h, hk, ht]

theorem getVisit_empty (ht : m.slotMeta i = META_EMPTY) : m.getVisit key i = some none := by
  simp [getVisit, ht, (m.h2_ne_empty key).symm]

theorem getVisit_tombstone (ht : m.slotMeta i = META_TOMBSTONE) : m.getVisit key i = none := by
  simp [getVisit, ht, (m.h2_ne_tombstone key).symm,
    show META_TOMBSTONE ≠ META_EMPTY by decide]

theorem insertVisit_own (hc : Coherent m) (h : m.entries i = some ⟨key, w⟩) : m.insertVisit key v i
      = some (m.replaceAt i key v, .replaced, some ⟨key, w⟩) := by
  have ht := hc.tagged h
  simp [insertVisit, h, ht]

theorem insertVisit_other (h : m.entries i = some e) (hk : e.key ≠ key) :
    m.insertVisit key v i = none := by
  simp [insertVisit, h, hk]

theorem insertVisit_free (hc : Coherent m) (h : m.entries i = none) :
    m.insertVisit key v i = some (m.claimAt i key v, .inserted, none) := by
  have ht := hc.free h
  have hne : m.slotMeta i ≠ m.h2 key := by
    rcases ht with ht | ht <;> rw [ht]
    · exact (m.h2_ne_empty key).symm
    · exact (m.h2_ne_tombstone key).symm
  simp [insertVisit, h, ht, hne]

/-- The removal loop looks for the key as `get` does. -/
theorem removeVisit_eq (accept : V → Bool) (i : Nat) : m.removeVisit key accept i
      = (m.getVisit key i).map fun old => old.elim (m, none) fun v =>
        if accept v then (m.buryAt i, some ⟨key, v⟩) else (m, none) := by
  unfold removeVisit getVisit
  split
  · cases m.entries i with
    | none => rfl
    | some e =>
      dsimp only
      split
      case isTrue hk =>
        subst hk
        simp only [Option.map_some, Option.elim_some]
        split <;> rfl
      case isFalse => rfl
  · split <;> rfl

-- ===== lookups

/-- `get` is the probe of its own visit function. -/
theorem get_eq_probe (m : ConcurrentMap K V) (key : K) :
    m.get key = m.probeKey key (m.getVisit key) none := by
  simp [get, getWithHash, Option.map_map, comp_def]

section

variable (hc : Coherent m)

include hc

/-- A loop that looks for the key as `get` does finds an entry of it, or
there is none. -/
theorem search_cases {α : Type} (key : K) (missing : α) {f : Nat → Option V → α}
    (hmissing : ∀ i, f i none = missing) :
    (∃ i w, m.entries i = some ⟨key, w⟩
        ∧ m.probeKey key (fun i => (m.getVisit key i).map (f i)) missing = f i (some w))
      ∨ (∀ w, ¬ m.Stored key w)
        ∧ m.probeKey key (fun i => (m.getVisit key i).map (f i)) missing = missing := by
  -- a slot the loop passes over does not hold the key
  have hpassed : ∀ i, (m.getVisit key i).map (f i) = none → ∀ w, m.entries i ≠ some ⟨key, w⟩ := by
    intro i h w hw
    rw [getVisit_own hc hw] at h
    cases h
  rcases probe_cases (fun i => (m.getVisit key i).map (f i)) m.probeLimit 0 (m.h1 key) with
    ⟨n, r, hn, hhit⟩ | hnone
  · rw [probeKey, probe_hit hhit hn]
    have hans : (m.getVisit key (m.slot key n)).map (f (m.slot key n)) = some r := hhit.answer
    cases hc.slotView key (m.slot key n) with
    | own w hw =>
      rw [getVisit_own hc hw] at hans
      exact Or.inl ⟨_, w, hw, (Option.some.inj hans).symm⟩
    | other e he hk => rw [getVisit_other hc he hk] at hans; cases hans
    | empty hf ht =>
      rw [getVisit_empty ht] at hans
      refine Or.inr ⟨hc.absent_of_empty (fun a ha => hpassed _ (hhit.before a ha)) hf ht, ?_⟩
      exact (Option.some.inj hans).symm.trans (hmissing _)
    | tombstone hf ht => rw [getVisit_tombstone ht] at hans; cases hans
  · refine Or.inr ⟨fun w => ?_, probe_miss hnone⟩
    rintro ⟨i, hi⟩
    obtain ⟨b, hb, hbi, -⟩ := hc.reach hi
    rw [← hbi] at hi
    exact hpassed _ (hnone b hb) w hi

/-- A value `get` returns is stored under the key in some slot. -/
theorem entries_of_get (h : m.get key = some v) : m.Stored key v := by
  have hcases := search_cases hc key none (f := fun _ old => old) fun _ => rfl
  simp only [Option.map_id', ← get_eq_probe, h] at hcases
  rcases hcases with ⟨i, w, hw, heq⟩ | ⟨-, heq⟩
  · cases heq
    exact ⟨i, hw⟩
  · cases heq

/-- On a coherent, duplicate-free table `get` reads the entry of the
key, wherever it sits. -/
theorem get_eq_some_iff (hs : Single m) :
    m.get key = some v ↔ m.Stored key v := by
  refine ⟨entries_of_get hc, ?_⟩
  rintro ⟨i, hi⟩
  obtain ⟨n, hn, hslot, hpath⟩ := hc.reach_first hi
  rw [get_eq_probe, probeKey]
  refine probe_hit (n := n) ⟨fun a ha => ?_, ?_⟩ hn
  · obtain ⟨hne, hemp⟩ := hpath a ha
    cases hc.slotView key (m.slot key a) with
    | own w h => exact absurd (hs _ _ _ _ h hi rfl) hne
    | other e h hk => exact getVisit_other hc h hk
    | empty h ht => exact absurd ht hemp
    | tombstone h ht => exact getVisit_tombstone ht
  · rw [← hslot] at hi
    exact getVisit_own hc hi

-- ===== the two loops, inverted

/-- Everything `insert_inner` can do. The slots before the one it stops
at all hold entries of other keys. -/
inductive InsertCases (m : ConcurrentMap K V) (key : K) (v : V) : Prop
  | replaced (n : Nat) (w : V) (hown : m.entries (m.slot key n) = some ⟨key, w⟩)
      (hbusy : ∀ a < n, ∃ e, m.entries (m.slot key a) = some e ∧ e.key ≠ key)
      (heq : m.insertInner key v = (m.replaceAt (m.slot key n) key v, .replaced, some ⟨key, w⟩))
  | inserted (n : Nat) (hn : n ≤ m.probeLimit) (hfree : m.entries (m.slot key n) = none)
      (hbusy : ∀ a < n, ∃ e, m.entries (m.slot key a) = some e ∧ e.key ≠ key)
      (heq : m.insertInner key v = (m.claimAt (m.slot key n) key v, .inserted, none))
  | full (hbusy : ∀ a ≤ m.probeLimit, ∃ e, m.entries (m.slot key a) = some e ∧ e.key ≠ key)
      (heq : m.insertInner key v = (m, .full, none))

/-- A slot `insert_inner` passes over holds an entry of another key. -/
theorem insertVisit_eq_none (h : m.insertVisit key v i = none) :
    ∃ e, m.entries i = some e ∧ e.key ≠ key := by
  cases hc.slotView key i with
  | own w hw => rw [insertVisit_own hc hw] at h; cases h
  | other e he hk => exact ⟨e, he, hk⟩
  | empty hf | tombstone hf => rw [insertVisit_free hc hf] at h; cases h

theorem insertInner_cases (key : K) (v : V) : InsertCases m key v := by
  rcases probe_cases (m.insertVisit key v) m.probeLimit 0 (m.h1 key)
    with ⟨n, r, hn, hhit⟩ | hnone
  · have heq : m.insertInner key v = r := probe_hit hhit hn
    have hans : m.insertVisit key v (m.slot key n) = some r := hhit.answer
    have hbusy : ∀ a < n, ∃ e, m.entries (m.slot key a) = some e
        ∧ e.key ≠ key := fun a ha => insertVisit_eq_none hc (hhit.before a ha)
    cases hc.slotView key (m.slot key n) with
    | own w hw =>
      rw [insertVisit_own hc hw] at hans
      exact .replaced n w hw hbusy (by rw [heq]; exact (Option.some.inj hans).symm)
    | other e he hk => rw [insertVisit_other he hk] at hans; cases hans
    | empty hf | tombstone hf =>
      rw [insertVisit_free hc hf] at hans
      exact .inserted n hn hf hbusy (by rw [heq]; exact (Option.some.inj hans).symm)
  · exact .full (fun a ha => insertVisit_eq_none hc (hnone a ha)) (probe_miss hnone)

/-- Everything the removal loop can do. -/
inductive RemoveCases (m : ConcurrentMap K V) (key : K) (accept : V → Bool) : Prop
  | buried (i : Nat) (w : V) (hown : m.entries i = some ⟨key, w⟩) (hacc : accept w = true)
      (heq : m.removeWhere key accept = (m.buryAt i, some ⟨key, w⟩))
  | refused (i : Nat) (w : V) (hown : m.entries i = some ⟨key, w⟩) (hacc : accept w = false)
      (heq : m.removeWhere key accept = (m, none))
  | absent (habs : ∀ w, ¬ m.Stored key w) (heq : m.removeWhere key accept = (m, none))

theorem removeWhere_cases (key : K) (accept : V → Bool) :
    RemoveCases m key accept := by
  have hcases := search_cases hc key (m, none) (f := fun i old => old.elim (m, none) fun v =>
    if accept v then (m.buryAt i, some (Entry.mk key v)) else (m, none)) fun _ => rfl
  simp only [← removeVisit_eq] at hcases
  rcases hcases with ⟨i, w, hw, heq⟩ | ⟨habs, heq⟩
  · cases hacc : accept w with
    | true => exact .buried i w hw hacc (heq.trans (if_pos hacc))
    | false => exact .refused i w hw hacc (heq.trans (if_neg (by simp [hacc])))
  · exact .absent habs heq

end

-- ===== slot updates keep coherence

section

omit [DecidableEq K]

variable (k : K) (n : Nat)

variable {k : K} {x : V} {n : Nat}

theorem occupied_replaceAt (h : m.entries i = some e) :
    (m.replaceAt i key v).occupied = m.occupied := by
  ext j
  by_cases hj : j = i
  · subst hj
    simp [replaceAt, h]
  · simp [replaceAt, hj]

theorem occupied_claimAt (hi : i < m.capacity) :
    (m.claimAt i key v).occupied = Insert.insert i m.occupied := by
  ext j
  by_cases hj : j = i
  · subst hj
    simp [claimAt, hi]
  · simp [claimAt, hj]

theorem occupied_buryAt : (m.buryAt i).occupied = m.occupied.erase i := by
  ext j
  by_cases hj : j = i
  · subst hj
    simp [buryAt]
  · simp [buryAt, hj]

attribute [local simp] replaceAt claimAt buryAt

theorem Coherent.replaceAt (hc : Coherent m) (h : m.entries i = some ⟨key, w⟩) :
    Coherent (m.replaceAt i key v) where
  mask_lt := hc.mask_lt
  tagged {j e} he := by
    by_cases hj : j = i
    · subst hj
      have hke : e = ⟨key, v⟩ := by
        simpa [eq_comm] using he
      subst hke
      exact hc.tagged (e := ⟨key, w⟩) h
    · exact hc.tagged (by simpa [hj] using he)
  free {j} he := by
    by_cases hj : j = i
    · subst hj
      simp at he
    · exact hc.free (by simpa [hj] using he)
  reach {j e} he := by
    by_cases hj : j = i
    · subst hj
      have hke : e = ⟨key, v⟩ := by
        simpa [eq_comm] using he
      subst hke
      exact hc.reach (e := ⟨key, w⟩) h
    · exact hc.reach (by simpa [hj] using he)
  len_eq := by
    rw [occupied_replaceAt h]
    exact hc.len_eq

theorem Coherent.claimAt (hc : Coherent m) (hn : n ≤ m.probeLimit)
    (hfree : m.entries (m.slot key n) = none)
    (hbusy : ∀ a < n, ∃ e, m.entries (m.slot key a) = some e
      ∧ e.key ≠ key) : Coherent (m.claimAt (m.slot key n) key v) where
  mask_lt := hc.mask_lt
  tagged {j e} he := by
    by_cases hj : j = m.slot key n
    · subst hj
      have hke : e = ⟨key, v⟩ := by
        simpa [eq_comm] using he
      subst hke
      simp [h2]
    · have he' : m.entries j = some e := by
        simpa [hj] using he
      simpa [hj, h2] using hc.tagged he'
  free {j} he := by
    by_cases hj : j = m.slot key n
    · subst hj
      simp at he
    · have he' : m.entries j = none := by
        simpa [hj] using he
      simpa [hj] using hc.free he'
  reach {j e} he := by
    -- the claimed slot now carries a tag, every other tag is unchanged
    have hpath : ∀ x, m.slotMeta x ≠ META_EMPTY →
        (m.claimAt (m.slot key n) key v).slotMeta x ≠ META_EMPTY := by
      intro x hx
      by_cases hxn : x = m.slot key n
      · subst hxn
        simpa using m.h2_ne_empty key
      · simpa [hxn] using hx
    by_cases hj : j = m.slot key n
    · subst hj
      have hke : e = ⟨key, v⟩ := by
        simpa [eq_comm] using he
      subst hke
      refine ⟨n, hn, rfl, fun a ha => hpath _ ?_⟩
      obtain ⟨e, he, -⟩ := hbusy a ha
      show m.slotMeta (m.slot key a) ≠ META_EMPTY
      rw [hc.tagged he]
      exact m.h2_ne_empty _
    · have he' : m.entries j = some e := by
        simpa [hj] using he
      obtain ⟨b, hb, hbj, hfull⟩ := hc.reach he'
      exact ⟨b, hb, hbj, fun a ha => hpath _ (hfull a ha)⟩
  len_eq := by
    have hlt : m.slot key n < m.capacity :=
      Nat.lt_of_le_of_lt (m.slot_le_mask _ _) hc.mask_lt
    have hout : m.slot key n ∉ m.occupied := by simp [hfree]
    rw [occupied_claimAt hlt, Finset.card_insert_of_notMem hout]
    exact congrArg (· + 1) hc.len_eq

theorem Coherent.buryAt (hc : Coherent m) (h : m.entries i = some e) : Coherent (m.buryAt i) where
  mask_lt := hc.mask_lt
  tagged {j f} hf := by
    by_cases hj : j = i
    · subst hj
      simp at hf
    · have hf' : m.entries j = some f := by
        simpa [hj] using hf
      simpa [hj, h2] using hc.tagged hf'
  free {j} hf := by
    by_cases hj : j = i
    · subst hj
      exact Or.inr (by simp)
    · have hf' : m.entries j = none := by
        simpa [hj] using hf
      simpa [hj] using hc.free hf'
  reach {j f} hf := by
    -- a tombstone is not an empty slot: no path through it is cut
    have hpath : ∀ x, m.slotMeta x ≠ META_EMPTY → (m.buryAt i).slotMeta x ≠ META_EMPTY := by
      intro x hx
      by_cases hxi : x = i
      · subst hxi
        simp [show META_TOMBSTONE ≠ META_EMPTY by decide]
      · simpa [hxi] using hx
    by_cases hj : j = i
    · subst hj
      simp at hf
    have hf' : m.entries j = some f := by
      simpa [hj] using hf
    obtain ⟨b, hb, hbj, hfull⟩ := hc.reach hf'
    exact ⟨b, hb, hbj, fun a ha => hpath _ (hfull a ha)⟩
  len_eq := by
    have hin : i ∈ m.occupied := by
      simp [hc.lt_capacity h, h]
    rw [occupied_buryAt, Finset.card_erase_of_mem hin]
    exact congrArg (· - 1) hc.len_eq

-- ===== ... and what they store

/-- Slot `i` is the one slot that may hold `key`: the key's own slot, or
a free slot when the key is absent. -/
structure OwnSlot (m : ConcurrentMap K V) (key : K) (i : Nat) : Prop where
  only : ∀ j e, m.entries j = some e → e.key = key → j = i
  own : ∀ e, m.entries i = some e → e.key = key

theorem Single.ownSlot (hs : Single m) (h : m.entries i = some ⟨key, w⟩) : OwnSlot m key i where
  only _ _ he hk := hs _ _ _ _ he h hk
  own e he := by
    rw [h] at he
    cases he
    rfl

theorem OwnSlot.of_absent (hfree : m.entries i = none)
    (habs : ∀ w, ¬ m.Stored key w) : OwnSlot m key i where
  only j e he hk := by
    subst hk
    exact absurd ⟨j, he⟩ (habs e.value)
  own e he := by
    rw [hfree] at he
    cases he

/-- The entries after a replacement; a claim writes the same entries. -/
theorem entries_replaceAt_eq_some {j : Nat} : (m.replaceAt i key v).entries j = some e ↔
      (j = i ∧ e = ⟨key, v⟩) ∨ (j ≠ i ∧ m.entries j = some e) := by
  by_cases hj : j = i
  · subst hj
    simp [eq_comm]
  · simp [hj]

theorem entries_buryAt_eq_some {j : Nat} :
    (m.buryAt i).entries j = some e ↔ j ≠ i ∧ m.entries j = some e := by
  by_cases hj : j = i
  · subst hj
    simp
  · simp [hj]

theorem Single.replaceAt (hs : Single m) (ho : OwnSlot m key i) : Single (m.replaceAt i key v) := by
  intro a b e f he hf hk
  rw [entries_replaceAt_eq_some] at he hf
  rcases he with ⟨rfl, rfl⟩ | ⟨-, he⟩ <;>
    rcases hf with ⟨rfl, rfl⟩ | ⟨-, hf⟩
  · rfl
  · exact (ho.only _ _ hf hk.symm).symm
  · exact ho.only _ _ he hk
  · exact hs _ _ _ _ he hf hk

theorem Single.claimAt (hs : Single m) (ho : OwnSlot m key i) : Single (m.claimAt i key v) :=
  hs.replaceAt (v := v) ho

theorem Single.buryAt (hs : Single m) : Single (m.buryAt i) := by
  intro a b e f he hf hk
  exact hs _ _ _ _ (entries_buryAt_eq_some.1 he).2 (entries_buryAt_eq_some.1 hf).2 hk

theorem stored_replaceAt (ho : OwnSlot m key i) : (m.replaceAt i key v).Stored k x ↔
      (k = key ∧ x = v) ∨ (k ≠ key ∧ m.Stored k x) := by
  simp only [Stored, entries_replaceAt_eq_some]
  constructor
  · rintro ⟨j, ⟨-, he⟩ | ⟨hj, he⟩⟩
    · cases he
      exact Or.inl ⟨rfl, rfl⟩
    · exact Or.inr ⟨fun hk => hj (ho.only j _ he hk), j, he⟩
  · rintro (⟨rfl, rfl⟩ | ⟨hk, j, he⟩)
    · exact ⟨i, Or.inl ⟨rfl, rfl⟩⟩
    · refine ⟨j, Or.inr ⟨?_, he⟩⟩
      rintro rfl
      exact hk (ho.own _ he)

theorem stored_claimAt (ho : OwnSlot m key i) : (m.claimAt i key v).Stored k x ↔
      (k = key ∧ x = v) ∨ (k ≠ key ∧ m.Stored k x) :=
  stored_replaceAt ho

theorem stored_buryAt (ho : OwnSlot m key i) :
    (m.buryAt i).Stored k x ↔ k ≠ key ∧ m.Stored k x := by
  simp only [Stored, entries_buryAt_eq_some]
  constructor
  · rintro ⟨j, hj, he⟩
    exact ⟨fun hk => hj (ho.only j _ he hk), j, he⟩
  · rintro ⟨hk, j, he⟩
    refine ⟨j, ?_, he⟩
    rintro rfl
    exact hk (ho.own _ he)

end

-- ===== the tombstone shadow

/-- An insert of a shadowed key claims a slot before the key's own, and
the key is then stored twice. -/
theorem insertInner_shadowed (hc : Coherent m) (hsh : m.Shadowed key) (v : V) :
    ¬ Single (m.insertInner key v).1 := by
  obtain ⟨a, b, hab, hb, htomb, ⟨w, hw⟩, hfirst⟩ := hsh
  have hnone : m.entries (m.slot key a) = none := by
    cases h : m.entries (m.slot key a) with
    | none => rfl
    | some e =>
      rw [hc.tagged h] at htomb
      exact absurd htomb (m.h2_ne_tombstone _)
  cases insertInner_cases hc key v with
  | replaced n w' hown hbusy heq =>
    have han : a < n := by
      by_contra hlt
      exact hfirst n (by omega) w' hown
    obtain ⟨e, he, -⟩ := hbusy a han
    rw [hnone] at he
    cases he
  | inserted n hn hfree hbusy heq =>
    rw [heq]
    intro hs
    have hne : m.slot key b ≠ m.slot key n := by
      intro h
      rw [h, hfree] at hw
      cases hw
    refine hne (hs _ _ ⟨key, w⟩ ⟨key, v⟩ ?_ ?_ rfl)
    · exact entries_replaceAt_eq_some.2 (Or.inr ⟨hne, hw⟩)
    · exact entries_replaceAt_eq_some.2 (Or.inl ⟨rfl, rfl⟩)
  | full hbusy heq =>
    obtain ⟨e, he, -⟩ := hbusy a (by omega)
    rw [hnone] at he
    cases he

-- ===== iteration

section

variable (hc : Coherent m)

include hc

omit [DecidableEq K]

/-- On a coherent table the tag test of `for_each` never hides an
entry. -/
theorem forEach_eq : m.forEach = (List.range m.capacity).filterMap fun i =>
      (m.entries i).map fun e => (e.key, e.value) := by
  refine filterMap_congr fun i _ => ?_
  cases h : m.entries i with
  | none => simp
  | some e =>
    have ht := hc.tagged h
    simp [ht, m.h2_ne_empty, m.h2_ne_tombstone]

theorem mem_forEach_iff {k : K} {v : V} : (k, v) ∈ m.forEach ↔ m.Stored k v := by
  rw [forEach_eq hc]
  simp only [mem_filterMap, mem_range, Option.map_eq_some_iff, Prod.mk.injEq, Stored]
  constructor
  · rintro ⟨i, -, e, he, rfl, rfl⟩
    exact ⟨i, he⟩
  · rintro ⟨i, hi⟩
    exact ⟨i, hc.lt_capacity hi, _, hi, rfl, rfl⟩

theorem nodup_forEach_keys (hs : Single m) : (m.forEach.map Prod.fst).Nodup := by
  rw [forEach_eq hc, map_filterMap]
  refine List.Nodup.filterMap ?_ nodup_range
  intro i j k hi hj
  simp only [Option.map_map, Option.mem_def, Option.map_eq_some_iff, comp_apply] at hi hj
  obtain ⟨e, he, rfl⟩ := hi
  obtain ⟨f, hf, hk⟩ := hj
  exact hs _ _ _ _ he hf hk.symm

theorem length_forEach : m.forEach.length = m.len := by
  rw [forEach_eq hc, hc.len_eq, length_filterMap_eq_countP, countP_eq_length_filter]
  simp [occupied, Finset.card_def, Multiset.range]

end

end MemoryFirst.Core.ConcurrentMap
