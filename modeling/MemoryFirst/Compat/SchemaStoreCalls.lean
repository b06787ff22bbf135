/-
Runs of the schema store: calls in any order, on any of its collections.

# Calls

A `SchemaCall` is one call of the store. The writes may meet a full map
and the flushes any backend, so that `full` and `backend` are part of the
call.

# What a call can do

`Step` says it once for all calls: the store is the same but for touches
and flushed tombstones, or it has one more collection, or one document of
one collection was written or deleted (`perform_step`). A call that
answers an error leaves the store the same (`perform_error`).
-/
import MemoryFirst.Compat.Proofs.SchemaStore

namespace MemoryFirst.Compat

open Lib Core Store WriteBehindCache Collection Function List

inductive SchemaCall where
  | registerCollection (schema : Schema)
  | create (collection : String) (full : Bool) (document : SchemaValue)
  | upsert (collection : String) (full : Bool) (document : SchemaValue)
  | loadClean (collection : String) (full : Bool) (document : SchemaValue)
  | update (collection : String) (full : Bool) (key : SchemaKey)
      (update : SchemaValue → SchemaValue)
  | delete (collection : String) (full : Bool) (key : SchemaKey)
  | get (collection : String) (key : SchemaKey)
  | includeOne (collection : String) (key : SchemaKey) (field : String)
  | includeReverse (target : String) (key : SchemaKey) (source field : String)
  | flushCollectionIdle (collection : String) (backend : List (FlushRecord SchemaKey SchemaValue) →
        Except String Unit) (idleTicks maxRecords : Nat)

/-- A call that brings a document along. -/
def SchemaCall.Brings (call : SchemaCall) (name : String) (document : SchemaValue) : Prop :=
  ∃ full, call = .create name full document
    ∨ call = .upsert name full document ∨ call = .loadClean name full document

namespace SchemaStore

/-- One call, and whether it answered an error. -/
def perform (s : SchemaStore) : SchemaCall → SchemaStore × SchemaResult Unit
  | .registerCollection schema => s.registerCollection schema
  | .create collection full document =>
    let (s, result) := s.create collection full document
    (s, result.map fun _ => ())
  | .upsert collection full document =>
    let (s, result) := s.upsert collection full document
    (s, result.map fun _ => ())
  | .loadClean collection full document =>
    let (s, result) := s.loadClean collection full document
    (s, result.map fun _ => ())
  | .update collection full key update =>
    let (s, result) := s.update collection full key update
    (s, result.map fun _ => ())
  | .delete collection full key =>
    let (s, result) := s.delete collection full key
    (s, result.map fun _ => ())
  | .get collection key =>
    let (s, result) := s.get collection key
    (s, result.map fun _ => ())
  | .includeOne collection key field =>
    let (s, result) := s.includeOne collection key field
    (s, result.map fun _ => ())
  | .includeReverse target key source field =>
    let (s, result) := s.includeReverse target key source field
    (s, result.map fun _ => ())
  | .flushCollectionIdle collection backend idleTicks maxRecords =>
    let (s, _, _) := s.flushCollectionIdle collection backend idleTicks maxRecords
    -- a refused batch is the backend's error, not the store's
    (s, .ok ())

/-- The store after the calls, from an empty one. -/
def after (hashBuilder : SchemaKey → UInt64) (dirtyShards : Nat)
    (calls : List SchemaCall) : SchemaStore :=
  exec perform (withHasherAndConfig hashBuilder dirtyShards) calls

end SchemaStore

-- ===== what leaves things alone

namespace Collection

variable {h h' h₁ : Collection}

/-- The same documents and maps: only the cache's own state differs. -/
def Same (h h' : Collection) : Prop :=
  ∃ inner : WriteBehindCache SchemaKey SchemaValue,
    inner.values = h.inner.values ∧ h' = { h with inner := inner }

theorem Same.refl (h : Collection) : h.Same h := ⟨h.inner, rfl, rfl⟩

theorem Same.trans (hs : h.Same h₁) (hs' : h₁.Same h') : h.Same h' := by
  obtain ⟨inner, hv, rfl⟩ := hs
  obtain ⟨inner', hv', rfl⟩ := hs'
  exact ⟨inner', hv'.trans hv, rfl⟩

theorem Quiet.same (hq : h.Quiet h') : h.Same h' := by
  obtain ⟨inner, hs, rfl⟩ := hq
  exact ⟨inner, hs.values_eq, rfl⟩

theorem Same.documents_eq (hs : h.Same h') : h'.documents = h.documents := by
  obtain ⟨inner, hv, rfl⟩ := hs
  exact hv

/-- Those of the keys that are alive, with their documents. -/
def alive (h : Collection) (keys : List SchemaKey) : List SchemaReverseInclude :=
  keys.filterMap fun key => (h.documents key).map fun document => ⟨key, document⟩

variable {document : SchemaValue} {keys : List SchemaKey}

theorem mem_alive {key : SchemaKey} : ⟨key, document⟩ ∈ h.alive keys ↔
      key ∈ keys ∧ h.documents key = some document := by
  unfold alive
  simp only [mem_filterMap, Option.map_eq_some_iff]
  constructor
  · intro hmem
    obtain ⟨key', hkey', document', hdocument, heq⟩ := hmem
    cases heq
    exact ⟨hkey', hdocument⟩
  · intro hmem
    exact ⟨key, hmem.1, document, hmem.2, rfl⟩

theorem nodup_alive (hnodup : keys.Nodup) :
    ((h.alive keys).map SchemaReverseInclude.key).Nodup := by
  refine hnodup.sublist ?_
  clear hnodup
  unfold alive
  induction keys with
  | nil => exact .slnil
  | cons key keys ih =>
    cases hkey : h.documents key with
    | none =>
      rw [filterMap_cons_none (by rw [hkey]; rfl)]
      exact ih.cons _
    | some document =>
      rw [filterMap_cons_some (by rw [hkey]; rfl), map_cons]
      exact ih.cons_cons _

end Collection

namespace SchemaStore

variable {s s' s₁ : SchemaStore} {name : String}

/-- The same collections, each with the same documents and maps. -/
def Same (s s' : SchemaStore) : Prop :=
  ∀ name, (s.collections name = none ∧ s'.collections name = none)
    ∨ ∃ h h', s.collections name = some h ∧ s'.collections name = some h' ∧ h.Same h'

theorem Same.refl (s : SchemaStore) : s.Same s := by
  intro name
  cases hh : s.collections name with
  | none => exact Or.inl ⟨rfl, rfl⟩
  | some h => exact Or.inr ⟨h, h, rfl, rfl, .refl h⟩

theorem Same.trans (hs : s.Same s₁) (hs' : s₁.Same s') : s.Same s' := by
  intro name
  rcases hs name with ⟨hnone, hnone₁⟩ | ⟨h, h₁, hh, hh₁, hsame⟩
  · rcases hs' name with ⟨-, hnone'⟩ | ⟨h₁, -, hh₁, -, -⟩
    · exact Or.inl ⟨hnone, hnone'⟩
    · rw [hnone₁] at hh₁
      cases hh₁
  rcases hs' name with ⟨hnone₁, -⟩ | ⟨h₁', h', hh₁', hh', hsame'⟩
  · rw [hh₁] at hnone₁
    cases hnone₁
  · obtain rfl := Option.some.inj (hh₁.symm.trans hh₁')
    exact Or.inr ⟨h, h', hh, hh', hsame.trans hsame'⟩

variable {h' : Collection}

/-- What is registered afterwards was registered before. -/
theorem Same.collection (hs : s.Same s') (hh' : s'.collections name = some h') :
    ∃ h, s.collections name = some h ∧ h.Same h' := by
  rcases hs name with ⟨-, hnone⟩ | ⟨h, h₁, hh, hh₁, hsame⟩
  · rw [hh'] at hnone
    cases hnone
  · obtain rfl := Option.some.inj (hh₁.symm.trans hh')
    exact ⟨h, hh, hsame⟩

@[simp] theorem set_self (s : SchemaStore) (name : String)
    (h : Collection) : (s.set name h).collections name = some h :=
  update_self ..

theorem set_of_ne {other : String} (hne : other ≠ name) (h : Collection) :
    (s.set name h).collections other = s.collections other :=
  update_of_ne hne _ _

variable {h : Collection} {call : SchemaCall}

theorem same_set (hh : s.collections name = some h)
    (hsame : h.Same h') : s.Same (s.set name h') := by
  intro name'
  by_cases hname : name' = name
  · subst hname
    exact Or.inr ⟨h, h', hh, set_self .., hsame⟩
  · rw [set_of_ne hname]
    exact Same.refl s name'

theorem collection_eq_ok : s.collection name = .ok h ↔ s.collections name = some h := by
  unfold collection
  cases s.collections name with
  | none => simp
  | some h => simp

/-- A call on a collection that is not registered, or on one that is. -/
theorem withCollection_cases {α : Type} (s : SchemaStore) (name : String)
    (f : Collection → Collection × SchemaResult α) :
    (∃ e, s.withCollection name f = (s, .error e)) ∨ ∃ h, s.collections name = some h
        ∧ s.withCollection name f = (s.set name (f h).1, (f h).2) := by
  unfold withCollection collection
  cases hh : s.collections name with
  | none => exact Or.inl ⟨_, rfl⟩
  | some h => exact Or.inr ⟨h, rfl, rfl⟩

/-- A read touches its collection and returns the document. -/
theorem get_eq (hh : s.collections name = some h) (key : SchemaKey) : s.get name key
      = (s.set name { h with inner := (h.inner.get key).1 }, .ok (h.documents key)) := by
  simp only [get, withCollection, collection_eq_ok.2 hh, Collection.get_eq]

theorem same_touch (hh : s.collections name = some h) (key : SchemaKey) :
    s.Same (s.set name { h with inner := (h.inner.get key).1 }) :=
  same_set hh (quiet_touch h key).same

theorem same_get (s : SchemaStore) (name : String) (key : SchemaKey) :
    s.Same (s.get name key).1 := by
  rcases s.withCollection_cases name fun h =>
      ((h.get key).1, .ok (h.get key).2) with ⟨e, heq⟩ | ⟨h, hh, -⟩
  · rw [show s.get name key = _ from heq]
    exact Same.refl s
  · rw [get_eq hh]
    exact same_touch hh key

/-- The sources that are alive, each with its document. -/
theorem includeSources_eq (hh : s.collections name = some h)
    (keys : List SchemaKey) : s.Same (s.includeSources name keys).1
      ∧ (s.includeSources name keys).2 = .ok (h.alive keys) := by
  unfold alive
  induction keys generalizing s h with
  | nil => exact ⟨Same.refl s, rfl⟩
  | cons key keys ih =>
    have htouch := same_touch hh key
    have hdocuments := (quiet_touch h key).documents_eq
    -- the rest is read from the touched collection
    obtain ⟨hrest, hout⟩ := ih (set_self s name { h with
      inner := (h.inner.get key).1 })
    rw [hdocuments] at hout
    unfold includeSources
    rw [get_eq hh]
    simp only
    generalize includeSources _ name keys = rest at hrest hout
    obtain ⟨s₂, out⟩ := rest
    obtain rfl := hout
    cases hkey : h.documents key with
    | none =>
      rw [filterMap_cons_none (by rw [hkey]; rfl)]
      exact ⟨htouch.trans hrest, rfl⟩
    | some document =>
      rw [filterMap_cons_some (by rw [hkey]; rfl)]
      exact ⟨htouch.trans hrest, rfl⟩

theorem same_includeReverse (s : SchemaStore) (target : String)
    (key : SchemaKey) (source field : String) :
    s.Same (s.includeReverse target key source field).1 := by
  unfold includeReverse
  split
  next => exact Same.refl s
  next h hh =>
    split
    next => exact Same.refl s
    next =>
      split
      case isTrue => exact Same.refl s
      case isFalse =>
        split
        next => exact Same.refl s
        next => exact (includeSources_eq (collection_eq_ok.1 hh) _).1

theorem same_includeOne (s : SchemaStore) (name : String) (key : SchemaKey)
    (field : String) : s.Same (s.includeOne name key field).1 := by
  unfold includeOne
  split
  next => exact Same.refl s
  next h hh =>
    have htouch := same_touch (collection_eq_ok.1 hh) key
    split
    next => exact Same.refl s
    next idx f hfield =>
      split
      next => exact Same.refl s
      next =>
        simp only [Collection.get_eq]
        cases h.documents key with
        | none => exact htouch
        | some document =>
          simp only
          split
          next => exact htouch
          next referenceKey hforward =>
            have hread := htouch.trans (same_get _ f.reference.collection referenceKey)
            split
            next heq =>
              rw [heq] at hread
              exact hread
            next heq =>
              rw [heq] at hread
              exact hread

theorem same_flush {ε : Type} (s : SchemaStore) (name : String)
    (backend : List (FlushRecord SchemaKey SchemaValue) → Except ε Unit)
    (idleTicks maxRecords : Nat) :
    s.Same (s.flushCollectionIdle name backend idleTicks maxRecords).1 := by
  unfold flushCollectionIdle
  cases hh : s.collection name with
  | error e => exact Same.refl s
  | ok h =>
    refine same_set (collection_eq_ok.1 hh) ⟨_, ?_, rfl⟩
    exact values_flushRange h.inner _ backend idleTicks maxRecords

-- ===== the steps

/-- What a call can do. A document is written over a live one, or by a
call that brings it along; a delete that does nothing has failed. -/
inductive Step (s : SchemaStore) (call : SchemaCall) : SchemaStore → SchemaResult Unit → Prop
  | same {s' : SchemaStore} {result : SchemaResult Unit} (hs : s.Same s')
      (hdelete : ∀ name full key, call = .delete name full key →
        ∃ e, result = .error e) : Step s call s' result
  | registered {schema : Schema} (valid : schema.validate = .ok ())
      (new : s.collections schema.name = none)
      (hcall : call = .registerCollection schema) :
      Step s call (s.set schema.name (Collection.new schema s.hashBuilder s.dirtyShards)) (.ok ())
  | stored {name : String} {h : Collection} {key : SchemaKey}
      {document : SchemaValue} {dirty : Bool}
      {inner : WriteBehindCache SchemaKey SchemaValue}
      (hh : s.collections name = some h)
      (hs : h.Stores key document dirty inner)
      (hcall : call.Brings name document ∨ (h.documents key).isSome)
      (hdelete : ∀ name full key, call ≠ .delete name full key) :
      Step s call (s.set name (h.refiled inner key document)) (.ok ())
  | deleted {name : String} {full : Bool} {h : Collection} {key : SchemaKey}
      {inner : WriteBehindCache SchemaKey SchemaValue}
      (hh : s.collections name = some h)
      (hwrote : Wrote h.inner inner key none .delete true)
      (hcall : call = .delete name full key) :
      Step s call (s.set name (h.unfiled inner key)) (.ok ())

/-- Every collection has the fields of a valid schema. -/
def Declared (s : SchemaStore) : Prop :=
  ∀ name h, s.collections name = some h → h.Declared

/-- The calls that bring a document along are one call on its
collection. -/
theorem step_putInto {document : SchemaValue} (hd : s.Declared) {name : String} {full dirty : Bool}
    {mode : PutMode}
    (hcall : call.Brings name document) : Step s call
      (s.withCollection name fun h => h.putInto full document dirty mode).1
      ((s.withCollection name fun h =>
        h.putInto full document dirty mode).2.map fun _ => ()) := by
  have hdelete : ∀ name full key, call ≠ .delete name full key := by
    intro name full key heq
    obtain ⟨full', rfl | rfl | rfl⟩ := hcall <;> cases heq
  rcases s.withCollection_cases name fun h =>
      h.putInto full document dirty mode with ⟨e, heq⟩ | ⟨h, hh, heq⟩
  · rw [heq]
    exact .same (Same.refl s) fun _ _ _ heq => absurd heq (hdelete _ _ _)
  rw [heq]
  rcases putInto_cases (hd name h hh) full document dirty mode
    with ⟨h', e, hput, hq⟩ | ⟨key, inner, version, hput, hs⟩
  · rw [hput]
    exact .same (same_set hh hq.same) fun _ _ _ heq => absurd heq (hdelete _ _ _)
  · rw [hput]
    exact .stored hh hs (Or.inl hcall) hdelete

/-- Every call takes one of the steps. -/
theorem perform_step (hd : s.Declared) (call : SchemaCall) :
    Step s call (s.perform call).1 (s.perform call).2 := by
  cases call with
  | registerCollection schema =>
    show Step s _ (s.registerCollection schema).1 (s.registerCollection schema).2
    unfold registerCollection
    cases hvalid : schema.validate with
    | error e => exact .same (Same.refl s) (by simp)
    | ok _ =>
      by_cases hnew : (s.collections schema.name).isSome
      · simp only [hnew, if_true]
        exact .same (Same.refl s) (by simp)
      · simp only [hnew]
        exact .registered hvalid (by simpa using hnew) rfl
  | create name full document => exact step_putInto hd ⟨full, Or.inl rfl⟩
  | upsert name full document => exact step_putInto hd ⟨full, Or.inr (Or.inl rfl)⟩
  | loadClean name full document => exact step_putInto hd ⟨full, Or.inr (Or.inr rfl)⟩
  | update name full key update =>
    show Step s _ (s.withCollection name fun h => h.update full key update).1
      ((s.withCollection name fun h => h.update full key update).2.map fun _ => ())
    rcases s.withCollection_cases name fun h => h.update full key update
      with ⟨e, heq⟩ | ⟨h, hh, heq⟩
    · rw [heq]
      exact .same (Same.refl s) (by simp)
    rw [heq]
    rcases update_cases (hd name h hh) full key update with
      ⟨h', e, hupdate, hq⟩ | ⟨old, inner, version, hold, hupdate, hs⟩
    · rw [hupdate]
      exact .same (same_set hh hq.same) (by simp)
    · rw [hupdate]
      exact .stored hh hs (Or.inr (by simp [hold])) (by simp)
  | delete name full key =>
    show Step s _ (s.withCollection name fun h => h.delete full key).1
      ((s.withCollection name fun h => h.delete full key).2.map fun _ => ())
    rcases s.withCollection_cases name fun h => h.delete full key with
      ⟨e, heq⟩ | ⟨h, hh, heq⟩
    · rw [heq]
      exact .same (Same.refl s) fun _ _ _ _ => ⟨e, rfl⟩
    rw [heq]
    rcases delete_cases (hd name h hh) full key with
      ⟨h', e, hdelete, hq⟩ | ⟨inner, version, hdelete, hwrote⟩
    · rw [hdelete]
      exact .same (same_set hh hq.same) fun _ _ _ _ => ⟨e, rfl⟩
    · rw [hdelete]
      exact .deleted hh hwrote rfl
  | get name key => exact .same (same_get s name key) (by simp)
  | includeOne name key field => exact .same (same_includeOne s name key field) (by simp)
  | includeReverse target key source field =>
    exact .same (same_includeReverse s target key source field) (by simp)
  | flushCollectionIdle name backend idleTicks maxRecords =>
    exact .same (same_flush s name backend idleTicks maxRecords) (by simp)

/-- A call that fails leaves the documents and the maps as they were. -/
theorem Step.same_of_error {e : SchemaStoreError} (h : Step s call s' (.error e)) : s.Same s' := by
  cases h with
  | same hs hdelete => exact hs

/-- A declared collection under a name keeps the store declared. -/
theorem Declared.set (hd : s.Declared) {name : String} {h : Collection} (hh : h.Declared) :
    (s.set name h).Declared := by
  intro other h' hh'
  by_cases hname : other = name
  · subst hname
    rw [set_self] at hh'
    cases hh'
    exact hh
  · rw [set_of_ne hname] at hh'
    exact hd other h' hh'

theorem Step.declared (hd : s.Declared) {result : SchemaResult Unit}
    (h : Step s call s' result) : s'.Declared := by
  cases h with
  | same hs hdelete =>
    intro name h' hh'
    obtain ⟨h, hh, inner, -, rfl⟩ := hs.collection hh'
    exact (hd name h hh).touch inner
  | registered valid new hcall => exact hd.set ⟨valid, rfl, rfl⟩
  | @stored name h key document dirty inner hh hs hcall hdelete =>
    have hown := hd name h hh
    exact hd.set ⟨hown.valid, hown.indexed_eq, hown.reference_eq⟩
  | @deleted name full h key inner hh hwrote hcall =>
    have hown := hd name h hh
    exact hd.set ⟨hown.valid, hown.indexed_eq, hown.reference_eq⟩

end SchemaStore

end MemoryFirst.Compat
