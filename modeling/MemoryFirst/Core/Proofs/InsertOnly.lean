/-
`ConcurrentMap` where nothing is ever removed: no tombstones, so no key
is ever shadowed and every insert acts on a finite map.

# Which keys fit

Whether an insert finds a slot depends on the keys stored before and on
their order, never on the values. `placeKeys` asks it of a list of keys,
in order, with the table's own `can_insert_or_replace`, and `SameKeys`
carries the answer between tables that differ in their values only.
-/
import MemoryFirst.Core.MapRuns

namespace MemoryFirst.Core.ConcurrentMap

variable {K V W : Type}

/-- What a table keeps while nothing is removed from it. -/
structure InsertOnly (m : ConcurrentMap K V) : Prop where
  coherent : Coherent m
  single : Single m
  no_tombstone : ∀ i, m.slotMeta i ≠ META_TOMBSTONE

theorem InsertOnly.not_shadowed {m : ConcurrentMap K V} (h : InsertOnly m)
    (key : K) : ¬ m.Shadowed key := by
  rintro ⟨a, -, -, -, ht, -⟩
  exact h.no_tombstone _ ht

variable (hash : K → UInt64) (cap : Nat)

theorem insertOnly_new : InsertOnly (withHasherAndCapacity hash cap : ConcurrentMap K V) where
  coherent := coherent_new hash cap
  single := by
    intro i j e f he
    cases he
  no_tombstone i := by
    show META_EMPTY ≠ META_TOMBSTONE
    decide

-- ===== tables of one shape

/-- Two tables of one geometry that hold the same keys in the same
slots. -/
structure SameKeys (m : ConcurrentMap K V) (m' : ConcurrentMap K W) : Prop where
  mask : m.mask = m'.mask
  probeLimit : m.probeLimit = m'.probeLimit
  hashBuilder : m.hashBuilder = m'.hashBuilder
  slotMeta : m.slotMeta = m'.slotMeta
  keys : ∀ i, (m.entries i).map Entry.key = (m'.entries i).map Entry.key

section

variable {m : ConcurrentMap K V} {m' : ConcurrentMap K W}

section

variable (h : SameKeys m m')

include h

theorem SameKeys.h1_eq (key : K) : m.h1 key = m'.h1 key := by
  rw [h1, h1, h.mask, h.hashBuilder]

theorem SameKeys.h2_eq (key : K) : m.h2 key = m'.h2 key := by
  rw [h2, h2, h.hashBuilder]

theorem SameKeys.nextSlot_eq : m.nextSlot = m'.nextSlot := by
  funext len i
  rw [nextSlot, nextSlot, h.mask]

section

variable (i : Nat) (key : K) (v : V) (w : W)

/-- Writing the same key into the same slot keeps the tables alike. -/
theorem SameKeys.claimAt : SameKeys (m.claimAt i key v) (m'.claimAt i key w) where
  mask := h.mask
  probeLimit := h.probeLimit
  hashBuilder := h.hashBuilder
  slotMeta := by
    show Function.update m.slotMeta i _ = Function.update m'.slotMeta i _
    rw [h.slotMeta, h.h2_eq]
  keys j := by
    by_cases hj : j = i
    · subst hj
      simp [ConcurrentMap.claimAt]
    · simpa [ConcurrentMap.claimAt, hj] using h.keys j

theorem SameKeys.replaceAt : SameKeys (m.replaceAt i key v) (m'.replaceAt i key w) where
  mask := h.mask
  probeLimit := h.probeLimit
  hashBuilder := h.hashBuilder
  slotMeta := h.slotMeta
  keys j := by
    by_cases hj : j = i
    · subst hj
      simp [ConcurrentMap.replaceAt]
    · simpa [ConcurrentMap.replaceAt, hj] using h.keys j

end

end

theorem sameKeys_new : SameKeys (withHasherAndCapacity hash cap : ConcurrentMap K V)
      (withHasherAndCapacity hash cap : ConcurrentMap K W) :=
  ⟨rfl, rfl, rfl, rfl, fun _ => rfl⟩

end

variable [DecidableEq K]

theorem InsertOnly.get_new :
    (withHasherAndCapacity hash cap : ConcurrentMap K V).get = fun _ => none := by
  funext k
  refine get_eq_none_of_absent (coherent_new hash cap) ?_
  rintro w ⟨i, hi⟩
  cases hi

section

variable {m : ConcurrentMap K V} (h : InsertOnly m) (key : K) (v : V)

include h

theorem InsertOnly.insert : InsertOnly (m.insert key v).1 where
  coherent := insertInner_coherent h.coherent key v
  single := (insertInner_spec h.coherent h.single (h.not_shadowed key) v).single
  no_tombstone i := by
    show (m.insertInner key v).1.slotMeta i ≠ META_TOMBSTONE
    cases insertInner_cases h.coherent key v with
    | replaced _ _ _ _ heq | full _ heq =>
      rw [heq]
      exact h.no_tombstone i
    | inserted n hn hfree hbusy heq =>
      rw [heq]
      by_cases hi : i = m.slot key n
      · subst hi
        simpa [claimAt] using m.h2_ne_tombstone key
      · simpa [claimAt, hi] using h.no_tombstone i

/-- An insert that finds a slot updates the contents. -/
theorem InsertOnly.get_insert (hroom : (m.insert key v).2 ≠ .full) :
    (m.insert key v).1.get = Function.update m.get key (some v) := by
  have hspec := (insertInner_spec h.coherent h.single (h.not_shadowed key) v).get_eq
  have hne : (m.insertInner key v).2.1 ≠ .full := hroom
  rw [if_neg hne] at hspec
  exact hspec

/-- The old value an insert returns is the one stored before. -/
theorem InsertOnly.insertReturningOld_eq : m.insertReturningOld key v
      = ((m.insert key v).1, (m.insert key v).2, m.get key) := by
  have hold := (insertInner_spec h.coherent h.single (h.not_shadowed key) v).old_eq
  show ((m.insertInner key v).1, (m.insertInner key v).2.1,
    (m.insertInner key v).2.2.map Entry.value) = _
  rw [hold]
  rfl

end

/-- Inserts and reads are safe calls. -/
theorem InsertOnly.guarded [BEq V] {m : ConcurrentMap K V} (h : InsertOnly m)
    {calls : List (Call K V)}
    (hcalls : ∀ c ∈ calls, (∃ k v, c = .insert k v) ∨ ∃ k, c = .get k) :
    Lib.Guarded call SafeCall m calls := by
  induction calls generalizing m with
  | nil => trivial
  | cons c calls ih =>
    have hrest := fun c hc => hcalls c (List.mem_cons_of_mem _ hc)
    rcases hcalls c List.mem_cons_self with ⟨k, v, rfl⟩ | ⟨k, rfl⟩
    · exact ⟨h.not_shadowed k, ih (h.insert k v) hrest⟩
    · exact ⟨trivial, ih h hrest⟩

-- ===== finding a slot

section

variable (m : ConcurrentMap K V) (key : K) (v : V)

/-- At every slot the dry run stops exactly when the insert does, and an
insert that stops at a slot is not full. -/
theorem canInsertVisit_rel (i : Nat) :
    (m.canInsertVisit key i = none ∧ m.insertVisit key v i = none)
      ∨ ∃ b r, m.canInsertVisit key i = some b ∧ m.insertVisit key v i = some r
        ∧ (b = true ↔ r.2.1 ≠ .full) := by
  unfold canInsertVisit insertVisit
  split
  · cases m.entries i with
    | none => exact Or.inl ⟨rfl, rfl⟩
    | some e =>
      simp only
      split
      · exact Or.inr ⟨_, _, rfl, rfl, by simp⟩
      · exact Or.inl ⟨rfl, rfl⟩
  · split
    · cases m.entries i with
      | none => exact Or.inr ⟨_, _, rfl, rfl, by simp⟩
      | some e => exact Or.inl ⟨rfl, rfl⟩
    · exact Or.inl ⟨rfl, rfl⟩

/-- `can_insert_or_replace` says whether the insert would find a slot. -/
theorem canInsertOrReplace_iff : m.canInsertOrReplace key = true ↔ (m.insert key v).2 ≠ .full :=
  Lib.probe_rel (canInsertVisit_rel m key v) (by simp) _ _ _

end

-- ===== which keys fit

section

variable {m : ConcurrentMap K V} {m' : ConcurrentMap K W}

section

variable (h : SameKeys m m') (key : K)

include h

theorem SameKeys.canInsertOrReplace_eq : m.canInsertOrReplace key = m'.canInsertOrReplace key := by
  have hvisit : m.canInsertVisit key = m'.canInsertVisit key := by
    funext i
    have hk := h.keys i
    unfold canInsertVisit
    rw [h.slotMeta, h.h2_eq]
    cases he : m.entries i <;> cases he' : m'.entries i <;>
      simp_all
  rw [canInsertOrReplace, canInsertOrReplace, probeKey, probeKey,
    h.nextSlot_eq, h.h1_eq, h.probeLimit, hvisit]

/-- At every slot the two inserts do alike. -/
theorem SameKeys.insertVisit (v : V) (w : W) (i : Nat) :
    (m.insertVisit key v i = none ∧ m'.insertVisit key w i = none)
      ∨ ∃ r r', m.insertVisit key v i = some r
        ∧ m'.insertVisit key w i = some r' ∧ SameKeys r.1 r'.1 := by
  have hk := h.keys i
  unfold ConcurrentMap.insertVisit
  rw [h.slotMeta, h.h2_eq]
  split
  · cases he : m.entries i <;> cases he' : m'.entries i <;>
      rw [he, he'] at hk
    · exact Or.inl ⟨rfl, rfl⟩
    · cases hk
    · cases hk
    have hkey := Option.some.inj hk
    simp only
    rw [hkey]
    split
    · exact Or.inr ⟨_, _, rfl, rfl, h.replaceAt i key v w⟩
    · exact Or.inl ⟨rfl, rfl⟩
  · split
    · cases he : m.entries i <;> cases he' : m'.entries i <;>
        rw [he, he'] at hk
      · exact Or.inr ⟨_, _, rfl, rfl, h.claimAt i key v w⟩
      · cases hk
      · cases hk
      · exact Or.inl ⟨rfl, rfl⟩
    · exact Or.inl ⟨rfl, rfl⟩

/-- Inserting one key into both keeps them alike. -/
theorem SameKeys.insert (v : V) (w : W) : SameKeys (m.insert key v).1 (m'.insert key w).1 := by
  rw [ConcurrentMap.insert, ConcurrentMap.insert, insertInner, insertInner,
    probeKey, probeKey, h.nextSlot_eq, h.h1_eq, h.probeLimit]
  exact Lib.probe_rel (h.insertVisit key v w) h _ _ _

end

end

/-- The keys find slots one after another in the given table. -/
def placeKeys : List K → ConcurrentMap K Unit → Bool
  | [], _ => true
  | k :: ks, m => m.canInsertOrReplace k && placeKeys ks (m.insert k ()).1

variable (hash : K → UInt64) (cap : Nat) (keys : List K)

/-- The keys find slots one after another in a fresh table. -/
def Placeable : Prop :=
  placeKeys keys (withHasherAndCapacity hash cap) = true

/-- The table after all the keys were inserted. -/
def keyTable : ConcurrentMap K Unit :=
  keys.foldl (fun m k => (m.insert k ()).1) (withHasherAndCapacity hash cap)

instance (hash : K → UInt64) (cap : Nat) (keys : List K) : Decidable (Placeable hash cap keys) :=
  inferInstanceAs (Decidable (_ = true))

theorem placeKeys_append (keys keys' : List K) (m : ConcurrentMap K Unit) :
    placeKeys (keys ++ keys') m = (placeKeys keys m
      && placeKeys keys' (keys.foldl (fun m k => (m.insert k ()).1) m)) := by
  induction keys generalizing m with
  | nil => rfl
  | cons x keys ih =>
    rw [List.cons_append, placeKeys, placeKeys, ih, List.foldl_cons, Bool.and_assoc]

/-- One key more fits when it fits behind the others. -/
theorem placeable_append (keys : List K)
    (k : K) : Placeable hash cap (keys ++ [k]) ↔ Placeable hash cap keys
        ∧ (keyTable hash cap keys).canInsertOrReplace k = true := by
  rw [Placeable, Placeable, keyTable, placeKeys_append, Bool.and_eq_true]
  simp only [placeKeys, Bool.and_true]

theorem Placeable.of_append {hash : K → UInt64} {cap : Nat}
    {keys keys' : List K} (h : Placeable hash cap (keys ++ keys')) :
    Placeable hash cap keys := by
  rw [Placeable, placeKeys_append, Bool.and_eq_true] at h
  exact h.1

theorem keyTable_append (keys : List K)
    (k : K) : keyTable hash cap (keys ++ [k]) = ((keyTable hash cap keys).insert k ()).1 := by
  simp [keyTable]

end MemoryFirst.Core.ConcurrentMap
