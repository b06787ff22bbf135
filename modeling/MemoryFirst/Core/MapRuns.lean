/-
`ConcurrentMap` against the finite map it stands for, over whole
sequences of calls.

# The specification

The contents a client expects are read off the history alone: `content`
folds the calls with the replies they got, so that a key's value is the
one of its last insert that did not report `full`, unless a removal that
reported success came after it. `RefinesMap` says that a table shows
exactly such contents through `get`, `len` and `for_each` and stores no
key twice, and `ReplyFits` that a reply is the one the contents demand.

# The result

`runRefines_iff`: the table refines the finite map along a call sequence
exactly when no insert of the sequence is of a `Shadowed` key, a key with
a tombstone before it on its probe path. Shadowed inserts are possible
(two colliding keys, the first one removed, the second written again),
so the map does not refine a finite map unconditionally.
-/
import MemoryFirst.Lib.Runs
import MemoryFirst.Core.Proofs.ConcurrentMap
import Mathlib.Data.Set.Card

namespace MemoryFirst.Core.ConcurrentMap

open Lib Function List

variable {K V : Type}

-- ===== calls

inductive Call (K V : Type) where
  | insert (key : K) (value : V)
  | insertReturningOld (key : K) (value : V)
  | remove (key : K)
  | removeIfValue (key : K) (expected : V)
  | get (key : K)
  deriving DecidableEq, Repr

inductive Reply (V : Type) where
  | outcome (o : InsertOutcome)
  | outcomeOld (o : InsertOutcome) (old : Option V)
  | removed (b : Bool)
  | value (v : Option V)
  deriving DecidableEq, Repr

/-- One call on the table. -/
def call [DecidableEq K] [BEq V] (m : ConcurrentMap K V) : Call K V → ConcurrentMap K V × Reply V
  | .insert key value =>
    let (m', o) := m.insert key value
    (m', .outcome o)
  | .insertReturningOld key value =>
    let (m', o, old) := m.insertReturningOld key value
    (m', .outcomeOld o old)
  | .remove key =>
    let (m', b) := m.remove key
    (m', .removed b)
  | .removeIfValue key expected =>
    let (m', b) := m.removeIfValue key expected
    (m', .removed b)
  | .get key => (m, .value (m.get key))

-- ===== the specification

/-- What an answered call does to the expected contents. -/
def effect [DecidableEq K] (s : K → Option V) : Call K V × Reply V → K → Option V
  | (.insert key value, .outcome o) =>
    if o = .full then s else update s key (some value)
  | (.insertReturningOld key value, .outcomeOld o _) =>
    if o = .full then s else update s key (some value)
  | (.remove key, .removed true) => update s key none
  | (.removeIfValue key _, .removed true) => update s key none
  | _ => s

/-- The contents a history leaves behind, from an empty map. -/
def content [DecidableEq K] (history : List (Call K V × Reply V)) : K → Option V :=
  history.foldl effect fun _ => none

/-- The reply the contents demand. -/
def ReplyFits [BEq V] (s : K → Option V) : Call K V → Reply V → Prop
  | .insert key _, .outcome o => o = .replaced ↔ (s key).isSome
  | .insertReturningOld key _, .outcomeOld o old =>
    (o = .replaced ↔ (s key).isSome) ∧ old = s key
  | .remove key, .removed b => b = (s key).isSome
  | .removeIfValue key expected, .removed b => b = (s key).any (· == expected)
  | .get key, .value v => v = s key
  | _, _ => False

/-- The table shows exactly the contents `s`. -/
structure RefinesMap [DecidableEq K] (m : ConcurrentMap K V) (s : K → Option V) : Prop where
  get_eq : ∀ k, m.get k = s k
  one_slot : Single m
  finite : {k | (s k).isSome}.Finite
  len_eq : m.len = {k | (s k).isSome}.ncard
  each_once : (m.forEach.map Prod.fst).Nodup
  each_iff : ∀ k v, (k, v) ∈ m.forEach ↔ s k = some v

/-- Along the whole sequence the table refines the contents of its
history, and every reply fits them. -/
def RunRefines [DecidableEq K] [BEq V] (hash : K → UInt64) (cap : Nat)
    (calls : List (Call K V)) : Prop :=
  let start := withHasherAndCapacity hash cap
  ∀ pre post, calls = pre ++ post →
    RefinesMap (exec call start pre) (content (trace call start pre))
      ∧ ∀ c rest, post = c :: rest → ReplyFits (content (trace call start pre)) c
          (call (exec call start pre) c).2

/-- The call is not an insert of a shadowed key. -/
def SafeCall (m : ConcurrentMap K V) : Call K V → Prop
  | .insert key _ => ¬ m.Shadowed key
  | .insertReturningOld key _ => ¬ m.Shadowed key
  | _ => True

-- ===== one call

variable (hash : K → UInt64)

/-- The empty table is coherent, whatever the hasher and the capacity. -/
theorem coherent_new (cap : Nat) :
    Coherent (withHasherAndCapacity hash cap : ConcurrentMap K V) where
  mask_lt := by
    simp only [withHasherAndCapacity]
    omega
  tagged h := by cases h
  free _ := Or.inl rfl
  reach h := by cases h
  len_eq := by simp [occupied, withHasherAndCapacity]

variable [DecidableEq K] {m : ConcurrentMap K V} {key : K}

section

variable (hc : Coherent m)
include hc

theorem insertInner_coherent (key : K) (v : V) :
    Coherent (m.insertInner key v).1 := by
  cases insertInner_cases hc key v with
  | replaced n w hown hbusy heq => rw [heq]; exact hc.replaceAt hown
  | inserted n hn hfree hbusy heq => rw [heq]; exact hc.claimAt hn hfree hbusy
  | full hbusy heq => rw [heq]; exact hc

theorem removeWhere_coherent (key : K) (accept : V → Bool) :
    Coherent (m.removeWhere key accept).1 := by
  cases removeWhere_cases hc key accept with
  | buried i w hown hacc heq => rw [heq]; exact hc.buryAt hown
  | refused _ _ _ _ heq | absent _ heq => rw [heq]; exact hc

/-- Every call keeps the table coherent. -/
theorem call_coherent [BEq V] (c : Call K V) : Coherent (m.call c).1 := by
  cases c with
  | insert key v | insertReturningOld key v => exact insertInner_coherent hc key v
  | remove key | removeIfValue key _ => exact removeWhere_coherent hc key _
  | get key => exact hc

/-- A table whose entries are exactly the graph of `s` reads as `s`. -/
theorem get_eq_of_stored (hs : Single m) {s : K → Option V}
    (h : ∀ k v, m.Stored k v ↔ s k = some v) : m.get = s := by
  funext k
  ext v
  rw [get_eq_some_iff hc hs, h]

theorem get_eq_none_of_absent (habs : ∀ w, ¬ m.Stored key w) :
    m.get key = none := by
  cases h : m.get key with
  | none => rfl
  | some w => exact absurd (entries_of_get hc h) (habs w)

/-- Writing the key's own slot reads as an update of the contents. -/
theorem get_of_stored_update {m' : ConcurrentMap K V}
    (hs : Single m) {v : V} (hc' : Coherent m') (hs' : Single m')
    (hst : ∀ k x, m'.Stored k x ↔ (k = key ∧ x = v) ∨ (k ≠ key ∧ m.Stored k x)) :
    m'.get = update m.get key (some v) := by
  refine get_eq_of_stored hc' hs' fun k x => ?_
  rw [hst, ← get_eq_some_iff hc hs]
  by_cases hk : k = key
  · subst hk
    simp [eq_comm]
  · simp [hk]

end

/-- What an insert does to a duplicate-free table, as its client sees
it. -/
structure InsertSpec (m : ConcurrentMap K V) (key : K) (v : V) : Prop where
  single : Single (m.insertInner key v).1
  replaced_iff : (m.insertInner key v).2.1 = .replaced ↔ (m.get key).isSome
  old_eq : (m.insertInner key v).2.2.map Entry.value = m.get key
  get_eq : (m.insertInner key v).1.get =
    if (m.insertInner key v).2.1 = .full then m.get
    else update m.get key (some v)

theorem insertInner_spec (hc : Coherent m) (hs : Single m)
    (hsafe : ¬ m.Shadowed key) (v : V) : InsertSpec m key v := by
  have hc' := insertInner_coherent hc key v
  cases insertInner_cases hc key v with
  | replaced n w hown hbusy heq =>
    have hget : m.get key = some w := (get_eq_some_iff hc hs).2 ⟨_, hown⟩
    have ho := hs.ownSlot hown
    rw [heq] at hc'
    refine ⟨?_, ?_, ?_, ?_⟩ <;> rw [heq]
    · exact hs.replaceAt ho
    · simp [hget]
    · simp [hget]
    · exact get_of_stored_update hc hs hc' (hs.replaceAt ho) fun k x => stored_replaceAt ho
  | inserted n hn hfree hbusy heq =>
    have habs : ∀ w, ¬ m.Stored key w := fun w hst =>
      hsafe (hc.shadowed_of_claim hfree hbusy hst)
    have hget := get_eq_none_of_absent hc habs
    have ho := OwnSlot.of_absent hfree habs
    rw [heq] at hc'
    refine ⟨?_, ?_, ?_, ?_⟩ <;> rw [heq]
    · exact hs.claimAt ho
    · simp [hget]
    · simp [hget]
    · exact get_of_stored_update hc hs hc' (hs.claimAt ho) fun k x => stored_claimAt ho
  | full hbusy heq =>
    have habs : ∀ w, ¬ m.Stored key w := by
      rintro w ⟨i, hi⟩
      obtain ⟨b, hb, rfl, -⟩ := hc.reach hi
      obtain ⟨e, he, hk⟩ := hbusy b hb
      rw [he] at hi
      cases hi
      exact hk rfl
    have hget := get_eq_none_of_absent hc habs
    refine ⟨?_, ?_, ?_, ?_⟩ <;> rw [heq]
    · exact hs
    · simp [hget]
    · simp [hget]
    · rfl

/-- What a removal does to a duplicate-free table, as its client sees
it. -/
structure RemoveSpec (m : ConcurrentMap K V) (key : K) (accept : V → Bool) : Prop where
  single : Single (m.removeWhere key accept).1
  removed_eq : (m.removeWhere key accept).2.isSome = (m.get key).any accept
  get_eq : (m.removeWhere key accept).1.get =
    if (m.removeWhere key accept).2.isSome then
      update m.get key none
    else m.get

theorem removeWhere_spec (hc : Coherent m) (hs : Single m) (key : K)
    (accept : V → Bool) : RemoveSpec m key accept := by
  have hc' := removeWhere_coherent hc key accept
  cases removeWhere_cases hc key accept with
  | buried i w hown hacc heq =>
    have hget : m.get key = some w := (get_eq_some_iff hc hs).2 ⟨_, hown⟩
    rw [heq] at hc'
    refine ⟨?_, ?_, ?_⟩ <;> rw [heq]
    · exact hs.buryAt
    · simp [hget, hacc]
    · refine get_eq_of_stored hc' hs.buryAt fun k x => ?_
      rw [stored_buryAt (hs.ownSlot hown), ← get_eq_some_iff hc hs]
      by_cases hk : k = key
      · subst hk
        simp
      · simp [hk]
  | refused i w hown hacc heq =>
    have hget : m.get key = some w := (get_eq_some_iff hc hs).2 ⟨_, hown⟩
    refine ⟨?_, ?_, ?_⟩ <;> rw [heq]
    · exact hs
    · simp [hget, hacc]
    · rfl
  | absent habs heq =>
    have hget := get_eq_none_of_absent hc habs
    refine ⟨?_, ?_, ?_⟩ <;> rw [heq]
    · exact hs
    · simp [hget]
    · rfl

-- ===== whole runs

/-- The relation a safe run keeps between the table and its history. -/
structure Models (m : ConcurrentMap K V) (history : List (Call K V × Reply V)) : Prop where
  coherent : Coherent m
  single : Single m
  get_eq : m.get = content history

theorem content_append (history : List (Call K V × Reply V)) (e : Call K V × Reply V) :
    content (history ++ [e]) = effect (content history) e := by
  simp [content]

theorem effect_remove (s : K → Option V) (key : K) (b : Bool) : effect s (.remove key, .removed b) =
      if b then update s key none else s := by
  cases b <;> rfl

theorem effect_removeIfValue (s : K → Option V) (key : K) (e : V)
    (b : Bool) : effect s (.removeIfValue key e, .removed b) =
      if b then update s key none else s := by
  cases b <;> rfl

/-- The present keys are the keys `for_each` lists. -/
theorem keys_eq_forEach (hc : Coherent m) (hs : Single m) : {k | (m.get k).isSome}
      = ↑(m.forEach.map Prod.fst).toFinset := by
  ext k
  simp [Option.isSome_iff_exists, mem_forEach_iff hc, get_eq_some_iff hc hs]

theorem finite_keys (hc : Coherent m) (hs : Single m) : {k | (m.get k).isSome}.Finite := by
  rw [keys_eq_forEach hc hs]
  exact Finset.finite_toSet _

/-- The relation gives everything a client can observe of the table. -/
theorem Models.refinesMap {history : List (Call K V × Reply V)}
    (hm : Models m history) : RefinesMap m (content history) := by
  rw [← hm.get_eq]
  have hnd := nodup_forEach_keys hm.coherent hm.single
  refine ⟨fun _ => rfl, hm.single, finite_keys hm.coherent hm.single, ?_, hnd, ?_⟩
  · rw [keys_eq_forEach hm.coherent hm.single, Set.ncard_coe_finset,
      toFinset_card_of_nodup hnd, length_map,
      length_forEach hm.coherent]
  · intro k v
    rw [mem_forEach_iff hm.coherent, get_eq_some_iff hm.coherent hm.single]

section

variable [BEq V] {history : List (Call K V × Reply V)}

section

variable (hm : Models m history) {c : Call K V} (hsafe : m.SafeCall c)

include hm hsafe

/-- A safe call gets the reply the contents demand. -/
theorem Models.replyFits : ReplyFits (content history) c (m.call c).2 := by
  rw [← hm.get_eq]
  cases c with
  | insert key v => exact (insertInner_spec hm.coherent hm.single hsafe v).replaced_iff
  | insertReturningOld key v =>
    have hspec := insertInner_spec hm.coherent hm.single hsafe v
    exact ⟨hspec.replaced_iff, hspec.old_eq⟩
  | remove key =>
    have hspec := removeWhere_spec hm.coherent hm.single key fun _ => true
    show (m.removeWhere key fun _ => true).2.isSome = (m.get key).isSome
    rw [hspec.removed_eq]
    cases m.get key <;> rfl
  | removeIfValue key e => exact (removeWhere_spec hm.coherent hm.single key _).removed_eq
  | get key => rfl

/-- A safe call keeps the relation. -/
theorem Models.call : Models (m.call c).1 (history ++ [(c, (m.call c).2)]) := by
  refine ⟨call_coherent hm.coherent c, ?_, ?_⟩
  · cases c with
    | insert _ v | insertReturningOld _ v =>
      exact (insertInner_spec hm.coherent hm.single hsafe v).single
    | remove key => exact (removeWhere_spec hm.coherent hm.single key _).single
    | removeIfValue key e => exact (removeWhere_spec hm.coherent hm.single key _).single
    | get key => exact hm.single
  · rw [content_append, ← hm.get_eq]
    cases c with
    | insert _ v | insertReturningOld _ v =>
      exact (insertInner_spec hm.coherent hm.single hsafe v).get_eq
    | remove key =>
      exact (removeWhere_spec hm.coherent hm.single key _).get_eq.trans (effect_remove _ _ _).symm
    | removeIfValue key e =>
      exact (removeWhere_spec hm.coherent hm.single key _).get_eq.trans
        (effect_removeIfValue _ _ _ _).symm
    | get key => rfl

end

/-- Every run keeps the table coherent. -/
theorem run_coherent (cap : Nat) (calls : List (Call K V)) :
    Coherent (exec call (withHasherAndCapacity hash cap) calls) :=
  exec_inv Coherent (fun _ c hc _ => call_coherent hc c)
    (coherent_new hash cap) (guarded_true _ _)

/-- A run of safe calls keeps the relation to its whole history. -/
theorem run_models (cap : Nat) {calls : List (Call K V)}
    (hsafe : Guarded call SafeCall (withHasherAndCapacity hash cap) calls) :
    Models (exec call (withHasherAndCapacity hash cap) calls)
      (trace call (withHasherAndCapacity hash cap) calls) := by
  have hc := coherent_new (V := V) hash cap
  have hstart : Models (withHasherAndCapacity hash cap : ConcurrentMap K V) [] := by
    refine ⟨hc, ?_, ?_⟩
    · intro i j e f he
      cases he
    funext k
    refine get_eq_none_of_absent hc ?_
    rintro w ⟨i, hi⟩
    cases hi
  have hrun := exec_sim Models (fun _ _ _ hm hs => hm.call hs) hstart hsafe
  rwa [nil_append] at hrun

theorem runRefines_of_guarded (cap : Nat) {calls : List (Call K V)}
    (hsafe : Guarded call SafeCall (withHasherAndCapacity hash cap) calls) :
    RunRefines hash cap calls := by
  rintro pre post rfl
  rw [guarded_append] at hsafe
  have hm := run_models hash cap hsafe.1
  refine ⟨hm.refinesMap, ?_⟩
  rintro c rest rfl
  exact hm.replyFits hsafe.2.1

/-- An unsafe call stores its key twice. -/
theorem not_single_of_unsafe (hc : Coherent m) {c : Call K V}
    (hun : ¬ m.SafeCall c) : ¬ Single (m.call c).1 := by
  cases c with
  | insert key v => exact insertInner_shadowed hc (not_not.1 hun) v
  | insertReturningOld key v => exact insertInner_shadowed hc (not_not.1 hun) v
  | remove _ | removeIfValue _ _ | get _ => exact absurd trivial hun

end

/-- The table refines the finite map along a call sequence exactly when
no insert of the sequence is of a shadowed key. -/
theorem runRefines_iff [BEq V] (hash : K → UInt64) (cap : Nat) (calls : List (Call K V)) :
    RunRefines hash cap calls ↔ ∀ pre c post, calls = pre ++ c :: post →
        SafeCall (Lib.exec call (withHasherAndCapacity hash cap) pre) c := by
  constructor
  · rintro h pre c post rfl
    by_contra hun
    -- the state after the unsafe call holds a key in two slots
    have hafter := (h (pre ++ [c]) post (by simp)).1.one_slot
    rw [exec_append] at hafter
    exact not_single_of_unsafe (run_coherent hash cap pre) hun hafter
  · exact fun h => runRefines_of_guarded hash cap (guarded_iff.2 h)

/-- Two colliding keys, the first removed and the second written again:
the write claims the tombstone and reports a fresh insert of a key that
is present. -/
theorem shadowed_reinsert_breaks_map : ¬ RunRefines (fun _ : Nat => 0) 8
      [.insert 1 10, .insert 2 20, .remove 1, .insert 2 21] := by
  intro h
  have hfit := (h [.insert 1 10, .insert 2 20, .remove 1] [.insert 2 21]
    rfl).2 (.insert 2 21) [] rfl
  have hiff : InsertOutcome.inserted = InsertOutcome.replaced ↔ true = true := hfit
  exact absurd (hiff.2 rfl) (by decide)

end MemoryFirst.Core.ConcurrentMap
