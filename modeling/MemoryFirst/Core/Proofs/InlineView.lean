/-
The boxed table a clean inline map stands for.

# The view

`view` forgets versions and lock words and keeps the table of
`ConcurrentMap.lean`: the two maps probe alike, and what the inline map
does at a slot is what the boxed one does there. Every result about the
boxed table then speaks about the inline one. `update`, which the boxed
map does not have, is added to it as `rewrite`.

# The result

`call_shows`: a call on a clean map with a coherent view leaves a clean
map, its view is the one the call leaves of the view, and it gets the
reply the view gives.
-/
import MemoryFirst.Core.Proofs.InlineMap

namespace MemoryFirst.Core.InlineU64Map

open ConcurrentMap Function

open ConcurrentMap (Coherent)

-- ===== the view

variable (hashBuilder : UInt64 → UInt64)

/-- The boxed map's tag of a slot. -/
def tagView (word : UInt16) (key : UInt64) : UInt8 :=
  if word = EMPTY then META_EMPTY
  else if word = TOMBSTONE then META_TOMBSTONE
  else (hashBuilder key >>> 57).toUInt8 &&& Core.H2_MASK

/-- The boxed map's entry of a slot. -/
def entryView (word : UInt16) (key value : UInt64) : Option (Entry UInt64 UInt64) :=
  if word = EMPTY ∨ word = TOMBSTONE then none else some ⟨key, value⟩

def view (m : InlineU64Map) : ConcurrentMap UInt64 UInt64 where
  capacity := m.capacity
  mask := m.mask
  probeLimit := m.probeLimit
  slotMeta i := tagView m.hashBuilder (m.slotMeta i) (m.keys i)
  entries i := entryView (m.slotMeta i) (m.keys i) (m.values i)
  len := m.len.toNat
  hashBuilder := m.hashBuilder

variable {m : InlineU64Map} {i : Nat} {r : Request} {word : UInt16} {key : UInt64}

theorem tagView_of_tagged (h : Tagged (m.h2 key) word) :
    tagView m.hashBuilder word key = m.view.h2 key := by
  unfold tagView
  rw [if_neg (h.ne_empty (isTag_h2 m key)), if_neg (h.ne_tombstone (isTag_h2 m key))]
  rfl

theorem entryView_of_tagged (h : Tagged (m.h2 key) word) (value : UInt64) :
    entryView word key value = some ⟨key, value⟩ := by
  unfold entryView
  rw [if_neg]
  intro hfree
  exact hfree.elim (h.ne_empty (isTag_h2 m key)) (h.ne_tombstone (isTag_h2 m key))

/-- Writing a slot writes the slot of the view. -/
theorem view_writeAt (m : InlineU64Map) (i : Nat) (word : UInt16) (key value len : UInt64) :
    view (m.writeAt i word key value len) =
      { m.view with
        slotMeta := update m.view.slotMeta i
          (tagView m.hashBuilder word key)
        entries := update m.view.entries i
          (entryView word key value)
        len := len.toNat } := by
  have htag : (view (m.writeAt i word key value len)).slotMeta = update m.view.slotMeta i
        (tagView m.hashBuilder word key) := by
    funext j
    by_cases hj : j = i
    · subst hj
      simp [view, writeAt]
    · simp [view, writeAt, hj]
  have hentry : (view (m.writeAt i word key value len)).entries
      = update m.view.entries i (entryView word key value) := by
    funext j
    by_cases hj : j = i
    · subst hj
      simp [view, writeAt]
    · simp [view, writeAt, hj]
  rw [← htag, ← hentry]
  rfl

/-- The counter does not wrap around: it counts slots of the table. -/
theorem len_succ (hc : Clean m) (hco : Coherent m.view) : (m.len + 1).toNat = m.len.toNat + 1 := by
  have hlen : m.len.toNat = m.view.occupied.card := hco.len_eq
  have hcard : m.view.occupied.card ≤ m.capacity := by
    have h := Finset.card_filter_le (Finset.range m.capacity) fun i => (m.view.entries i).isSome
    rwa [Finset.card_range] at h
  have hcap := hc.capacity_lt
  show (m.len.toNat + 1) % 2 ^ 64 = m.len.toNat + 1
  omega

variable {e : Entry UInt64 UInt64}

theorem len_pred (hco : Coherent m.view) (h : m.view.entries i = some e) :
    (m.len - 1).toNat = m.len.toNat - 1 := by
  have hmem : i ∈ m.view.occupied := by
    rw [mem_occupied, h]
    exact ⟨hco.lt_capacity h, rfl⟩
  have hpos : 0 < m.view.occupied.card := Finset.card_pos.2 ⟨i, hmem⟩
  have hlen : m.len.toNat = m.view.occupied.card := hco.len_eq
  refine UInt64.toNat_sub_of_le _ _ (UInt64.le_iff_toNat_le.2 ?_)
  show 1 ≤ m.len.toNat
  omega

theorem view_claimAt (hc : Clean m) (hco : Coherent m.view) (i : Nat) (r : Request) :
    view (m.claimAt i r) = m.view.claimAt i r.key r.value := by
  have hword := (isTag_h2 m r.key).tagged_firstWord (m.slotMeta i)
  unfold claimAt
  rw [view_writeAt, tagView_of_tagged hword, entryView_of_tagged hword, len_succ hc hco]
  rfl

theorem view_rewriteAt (h : Tagged (m.h2 r.key) (m.slotMeta i)) (hk : m.keys i = r.key) :
    view (m.rewriteAt i r) = m.view.replaceAt i r.key r.value := by
  have hword := (isTag_h2 m r.key).tagged_nextWord (m.slotMeta i)
  have hsame : m.view.slotMeta i = m.view.h2 r.key := by
    rw [← tagView_of_tagged h, ← hk]
    rfl
  unfold rewriteAt
  rw [view_writeAt, hk, tagView_of_tagged hword, entryView_of_tagged hword,
    ← hsame, update_eq_self]
  rfl

theorem view_buryAt (hco : Coherent m.view) (h : m.view.entries i = some e) :
    view (m.buryAt i) = m.view.buryAt i := by
  unfold buryAt
  rw [view_writeAt, len_pred hco h]
  rfl

theorem Clean.writeAt (hc : Clean m) (value len : UInt64)
    (hword : word = TOMBSTONE ∨ Tagged (m.h2 key) word) :
    Clean (m.writeAt i word key value len) := by
  refine ⟨fun j => ?_, hc.capacity_lt⟩
  show update m.slotMeta i word j = EMPTY ∨ update m.slotMeta i word j = TOMBSTONE
    ∨ Tagged (m.h2 (update m.keys i key j)) (update m.slotMeta i word j)
  by_cases hj : j = i
  · subst hj
    rw [update_self, update_self]
    exact Or.inr hword
  · rw [update_of_ne hj, update_of_ne hj]
    exact hc.slots j

theorem Clean.claimAt (hc : Clean m) (i : Nat) (r : Request) : Clean (m.claimAt i r) :=
  hc.writeAt _ _ (Or.inr ((isTag_h2 m r.key).tagged_firstWord _))

theorem Clean.rewriteAt (hc : Clean m) (hk : m.keys i = r.key) : Clean (m.rewriteAt i r) := by
  refine hc.writeAt _ _ (Or.inr ?_)
  rw [hk]
  exact (isTag_h2 m r.key).tagged_nextWord _

theorem Clean.buryAt (hc : Clean m) (i : Nat) : Clean (m.buryAt i) :=
  hc.writeAt _ _ (Or.inl rfl)

-- ===== what a slot shows

section

theorem view_empty (h : m.slotMeta i = EMPTY) :
    m.view.entries i = none ∧ m.view.slotMeta i = META_EMPTY := by
  simp [view, entryView, tagView, h]

theorem view_tombstone (h : m.slotMeta i = TOMBSTONE) :
    m.view.entries i = none ∧ m.view.slotMeta i = META_TOMBSTONE := by
  have hne : TOMBSTONE ≠ EMPTY := by decide
  simp [view, entryView, tagView, h, hne]

theorem view_entry (h : Tagged (m.h2 (m.keys i)) (m.slotMeta i)) :
    m.view.entries i = some ⟨m.keys i, m.values i⟩ :=
  entryView_of_tagged h _

end

-- ===== update, on the table

variable (t : ConcurrentMap UInt64 UInt64)

/-- The body of `update`'s loop at slot `i` of a boxed table. -/
def rewriteVisit (key value : UInt64)
    (i : Nat) : Option (ConcurrentMap UInt64 UInt64 × Option UInt64) :=
  (t.getVisit key i).map fun old =>
    (if old.isSome then t.replaceAt i key value else t, old)

def rewrite (key value : UInt64) : ConcurrentMap UInt64 UInt64 × Option UInt64 :=
  t.probeKey key (rewriteVisit t key value) (t, none)

/-- One call on the view. -/
def tableCall : Request → ConcurrentMap UInt64 UInt64 × Reply
  | .get key => (t, .value (t.get key))
  | .insert key value =>
    let (t', o) := t.insert key.val value
    (t', .outcome o)
  | .insertReturningOld key value =>
    let (t', o, old) := t.insertReturningOld key.val value
    (t', .outcomeOld o old)
  | .remove key =>
    let (t', old) := t.removeOwned key.val
    (t', .value old)
  | .removeIfValue key expected =>
    let (t', b) := t.removeIfValue key.val expected
    (t', .removed b)
  | .update key value =>
    let (t', old) := rewrite t key value
    (t', .value old)

-- ===== slot by slot

/-- A result of the inline map and the one of its view. -/
structure Shows (x : InlineU64Map × Reply)
    (t : ConcurrentMap UInt64 UInt64) (reply : Reply) : Prop where
  view_eq : view x.1 = t
  reply_eq : x.2 = reply
  clean : Clean x.1

/-- Two loop bodies at a slot go on together or answer alike. -/
def Alike {α : Type} (m : InlineU64Map) (r : Request)
    (table : α → ConcurrentMap UInt64 UInt64) (reply : α → Reply) (i : Nat)
    (answer : Option α) : Prop :=
  (m.visitAlone r i = none ∧ answer = none) ∨ ∃ x y, m.visitAlone r i = some x ∧ answer = some y
      ∧ Shows x (table y) (reply y)

section

theorem visitAlone_claim (h : m.slotMeta i = EMPTY ∨ m.slotMeta i = TOMBSTONE)
    (hr : r.inserts = true) :
    m.visitAlone r i = some (m.claimAt i r, r.claimed) := by
  unfold visitAlone
  rw [if_pos h, if_pos hr]

theorem visitAlone_empty (h : m.slotMeta i = EMPTY) (hr : r.inserts = false) :
    m.visitAlone r i = some (m, r.missed) := by
  unfold visitAlone
  rw [if_pos (Or.inl h), hr, if_neg Bool.false_ne_true, if_pos h]

theorem visitAlone_tombstone (h : m.slotMeta i = TOMBSTONE)
    (hr : r.inserts = false) : m.visitAlone r i = none := by
  have hne : m.slotMeta i ≠ EMPTY := by rw [h]; decide
  unfold visitAlone
  rw [if_pos (Or.inr h), hr, if_neg Bool.false_ne_true, if_neg hne]

theorem visitAlone_tagged (h : Tagged (m.h2 (m.keys i)) (m.slotMeta i)) : m.visitAlone r i
      = if m.keys i = r.key then some (m.ownAlone i r) else none := by
  unfold visitAlone
  rw [if_neg]
  intro hfree
  exact hfree.elim (h.ne_empty (isTag_h2 m _)) (h.ne_tombstone (isTag_h2 m _))

/-- What an insert replies, by what the table's loop found. -/
def insertReply (r : Request) (y : ConcurrentMap UInt64 UInt64 × InsertOutcome
      × Option (Entry UInt64 UInt64)) : Reply :=
  match r with
  | .insertReturningOld _ _ => .outcomeOld y.2.1 (y.2.2.map Entry.value)
  | _ => .outcome y.2.1

section

variable (hc : Clean m) (hco : Coherent m.view)

include hc hco

theorem alike_insert (hr : r.inserts = true) :
    Alike m r Prod.fst (insertReply r) i (m.view.insertVisit r.key r.value i) := by
  cases hc.slotView r.key i with
  | empty h =>
    refine Or.inr ⟨_, _, visitAlone_claim (Or.inl h) hr, insertVisit_free hco (view_empty h).1,
      view_claimAt hc hco i r, ?_, hc.claimAt i r⟩
    cases r <;> first | exact Bool.noConfusion hr | rfl
  | tombstone h =>
    refine Or.inr ⟨_, _, visitAlone_claim (Or.inr h) hr, insertVisit_free hco (view_tombstone h).1,
      view_claimAt hc hco i r, ?_, hc.claimAt i r⟩
    cases r <;> first | exact Bool.noConfusion hr | rfl
  | own h hk =>
    have hentry := view_entry (hk.symm ▸ h)
    rw [hk] at hentry
    have hvisit := visitAlone_tagged (r := r) (hk.symm ▸ h)
    rw [if_pos hk] at hvisit
    have hown : m.ownAlone i r = (m.rewriteAt i r, r.replaced (some (m.values i))) := by
      cases r <;> first | exact Bool.noConfusion hr | rfl
    rw [hown] at hvisit
    refine Or.inr ⟨_, _, hvisit, insertVisit_own hco hentry,
      view_rewriteAt h hk, ?_, hc.rewriteAt hk⟩
    cases r <;> first | exact Bool.noConfusion hr | rfl
  | other h hk =>
    refine Or.inl ⟨?_, insertVisit_other (view_entry h) hk⟩
    rw [visitAlone_tagged h, if_neg hk]

/-- A loop of the table that looks for the key as `get` does. -/
theorem alike_search {α : Type} {table : α → ConcurrentMap UInt64 UInt64} {reply : α → Reply}
    {f : Option UInt64 → α} (hr : r.inserts = false)
    (hmissed : Shows (m, r.missed) (table (f none)) (reply (f none)))
    (hown : Tagged (m.h2 r.key) (m.slotMeta i) → m.keys i = r.key →
      m.view.entries i = some ⟨r.key, m.values i⟩ →
      Shows (m.ownAlone i r) (table (f (some (m.values i)))) (reply (f (some (m.values i))))) :
    Alike m r table reply i ((m.view.getVisit r.key i).map f) := by
  cases hc.slotView r.key i with
  | empty h =>
    rw [getVisit_empty (view_empty h).2]
    exact Or.inr ⟨_, _, visitAlone_empty h hr, rfl, hmissed⟩
  | tombstone h =>
    rw [getVisit_tombstone (view_tombstone h).2]
    exact Or.inl ⟨visitAlone_tombstone h hr, rfl⟩
  | own h hk =>
    have hentry := view_entry (hk.symm ▸ h)
    rw [hk] at hentry
    rw [getVisit_own hco hentry]
    refine Or.inr ⟨_, _, ?_, rfl, hown h hk hentry⟩
    rw [visitAlone_tagged (hk.symm ▸ h), if_pos hk]
  | other h hk =>
    rw [getVisit_other hco (view_entry h) hk]
    refine Or.inl ⟨?_, rfl⟩
    rw [visitAlone_tagged h, if_neg hk]

theorem alike_get (key : Key) :
    Alike m (.get key) (fun _ => m.view) Reply.value i (m.view.getVisit key i) := by
  have h : Alike m (.get key) (fun _ => m.view) Reply.value i _ :=
    alike_search (f := id) hc hco rfl ⟨rfl, rfl, hc⟩ fun _ _ _ => ⟨rfl, rfl, hc⟩
  rwa [Option.map_id] at h

theorem alike_update (key : Key) (value : UInt64) :
    Alike m (.update key value) Prod.fst (fun y => .value y.2) i
      (rewriteVisit m.view key value i) := by
  refine alike_search hc hco (r := .update key value) rfl ⟨rfl, rfl, hc⟩ fun h hk _ => ?_
  exact ⟨view_rewriteAt (r := .update key value) h hk, rfl, hc.rewriteAt hk⟩

end

/-- The reply of a removal, by what the table's loop took out. -/
def removeReply (r : Request) (y : ConcurrentMap UInt64 UInt64 × Option (Entry UInt64 UInt64)) :
    Reply :=
  match r with
  | .removeIfValue _ _ => .removed y.2.isSome
  | _ => .value (y.2.map Entry.value)

/-- The values a removal takes out. -/
def accepts (r : Request) (value : UInt64) : Bool :=
  match r with
  | .removeIfValue _ expected => value == expected
  | _ => true

section

variable (hc : Clean m) (hco : Coherent m.view) (hr : r.removes = true)

include hc hco hr

/-- At its own key a removal does what the table's does. -/
theorem ownAlone_remove (hentry : m.view.entries i = some ⟨r.key, m.values i⟩) :
    let y := if accepts r (m.values i)
      then (m.view.buryAt i, some ⟨r.key, m.values i⟩) else (m.view, none)
    Shows (m.ownAlone i r) y.1 (removeReply r y) := by
  cases r with
  | remove key => exact ⟨view_buryAt hco hentry, rfl, hc.buryAt i⟩
  | removeIfValue key expected =>
    by_cases hv : m.values i = expected
    · simp only [ownAlone, accepts, hv, if_true, beq_self_eq_true]
      exact ⟨view_buryAt hco hentry, rfl, hc.buryAt i⟩
    · simp only [ownAlone, accepts, hv, if_false, beq_eq_false_iff_ne.2 hv, Bool.false_eq_true]
      exact ⟨rfl, rfl, hc⟩
  | _ => exact Bool.noConfusion hr

theorem alike_remove :
    Alike m r Prod.fst (removeReply r) i (m.view.removeVisit r.key (accepts r) i) := by
  have hins : r.inserts = false := by
    cases r <;> first | exact Bool.noConfusion hr | rfl
  rw [removeVisit_eq]
  refine alike_search hc hco hins ⟨rfl, ?_, hc⟩ fun _ _ hentry => ownAlone_remove hc hco hr hentry
  cases r <;> first | exact Bool.noConfusion hr | rfl

end

end

-- ===== whole calls

/-- Loops with bodies that are alike end alike. -/
theorem call_of_alike {α : Type} (hc : Clean m)
    {table : α → ConcurrentMap UInt64 UInt64} {reply : α → Reply}
    {visit : Nat → Option α} {exhausted : α}
    (hvisit : ∀ i, Alike m r table reply i (visit i))
    (hex : Shows (m, r.missed) (table exhausted) (reply exhausted)) :
    ∃ x, m.call r = (x.1, some x.2) ∧ Shows x (table (m.view.probeKey r.key visit exhausted))
        (reply (m.view.probeKey r.key visit exhausted)) := by
  refine ⟨_, call_eq_probe hc r, ?_⟩
  let rel : InlineU64Map × Reply → α → Prop := fun x y => Shows x (table y) (reply y)
  exact Lib.probe_rel hvisit hex _ _ _

/-- A call does on the map what it does on the view, and returns. -/
theorem call_shows (hc : Clean m) (hco : Coherent m.view) (r : Request) :
    ∃ x, m.call r = (x.1, some x.2) ∧ Shows x (tableCall m.view r).1 (tableCall m.view r).2 := by
  cases r with
  | get key =>
    have h := call_of_alike hc (fun i => alike_get (i := i) hc hco key) ⟨rfl, rfl, hc⟩
    show ∃ x, _ ∧ Shows x m.view (.value (m.view.get key))
    rw [get_eq_probe]
    exact h
  | insert _ _ | insertReturningOld _ _ =>
    exact call_of_alike hc (fun i => alike_insert (i := i) hc hco rfl) ⟨rfl, rfl, hc⟩
  | remove _ | removeIfValue _ _ =>
    exact call_of_alike hc (fun i => alike_remove (i := i) hc hco rfl) ⟨rfl, rfl, hc⟩
  | update key value =>
    exact call_of_alike hc (fun i => alike_update (i := i) hc hco key value) ⟨rfl, rfl, hc⟩

end MemoryFirst.Core.InlineU64Map
