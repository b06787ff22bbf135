/-
The reference maps of the schema store against its documents, over every
run.

# What the maps should say

`Mirrored` says of a collection that `include_one` reports, for each
reference field with a target, the key the live document holds there, and
that `include_reverse` returns the live documents that hold the asked
key, each once.

# What a delete leaves behind

`delete` takes a document out of the indexes but not out of the reference
maps. While the key is dead nothing shows: one read finds no document and
the other passes the key over. A document put under the key later finds
the old one's entries. `buried` remembers the last deleted document of
each key, and the maps are those of the documents that are alive or
buried (`Kept`). A document that is put under the key of a buried one and
holds what that one held in every field keeps this; any other does not
(`stale_reference_reported`).
-/
import MemoryFirst.Compat.SchemaStoreCalls

namespace MemoryFirst.Compat

open Lib Core Store WriteBehindCache SchemaStore Function List

-- ===== the specification

/-- The document holds the key in the reference field. -/
def Holds (schema : Schema) (document : SchemaValue) (f : ReferenceField)
    (target : SchemaKey) : Prop :=
  HasKey ReferenceField.name
    (fun f value => primaryKeyFromValue schema.name f.name f.fieldType value)
    document f target

/-- Both reads of references agree with the documents of the collection,
for the fields whose target can be read. -/
structure Mirrored (s : SchemaStore) (name : String) (h : Collection) : Prop where
  forward : ∀ f ∈ h.referenceFields, ∀ target, s.referenceTarget name f = .ok target → ∀ key t,
      (∃ found, (s.includeOne name key f.name).2 = .ok (some found) ∧ found.referenceKey = some t)
      ↔ ∃ d, h.documents key = some d ∧ Holds h.schema d f t
  reverse : ∀ f ∈ h.referenceFields, ∀ target, s.referenceTarget name f = .ok target → ∀ t,
      ∃ out, (s.includeReverse f.reference.collection t name f.name).2 = .ok out
        ∧ (out.map SchemaReverseInclude.key).Nodup
        ∧ ∀ key d, ⟨key, d⟩ ∈ out ↔ h.documents key = some d ∧ Holds h.schema d f t

-- ===== the run

/-- The store, and the last deleted document of each key. -/
structure Burials where
  store : SchemaStore
  buried : String → SchemaKey → Option SchemaValue

namespace Burials

variable (w : Burials)

/-- What a delete that succeeds buries. -/
def bury (call : SchemaCall) (result : SchemaResult Unit) :
    String → SchemaKey → Option SchemaValue :=
  match call, result with
  | .delete name _ key, .ok _ =>
    match (w.store.collections name).bind (·.documents key) with
    | none => w.buried
    | some document => update w.buried name
        (update (w.buried name) key (some document))
  | _, _ => w.buried

def step (call : SchemaCall) : Burials × SchemaResult Unit :=
  let (store, result) := w.store.perform call
  (⟨store, w.bury call result⟩, result)

def init (hashBuilder : SchemaKey → UInt64) (dirtyShards : Nat) : Burials :=
  ⟨.withHasherAndConfig hashBuilder dirtyShards, fun _ _ => none⟩

/-- The document holds every reference of the one buried under its key,
unless a live document is there. -/
def Renews (name : String) (document : SchemaValue) : Prop :=
  match w.store.collections name with
  | none => True
  | some h =>
    match extractPrimaryKey h.schema document with
    | .error _ => True
    | .ok key => h.documents key = none →
        ∀ e ∈ entriesOf (referenceEntries h.schema) (w.buried name key),
          e ∈ referenceEntries h.schema document

instance (w : Burials) (name : String) (document : SchemaValue) :
    Decidable (w.Renews name document) :=
  match hh : w.store.collections name with
  | none => isTrue (by simp [Renews, hh])
  | some h =>
    match hkey : extractPrimaryKey h.schema document with
    | .error _ => isTrue (by simp [Renews, hh, hkey])
    | .ok key => decidable_of_iff (h.documents key = none →
        ∀ e ∈ entriesOf (referenceEntries h.schema) (w.buried name key),
          e ∈ referenceEntries h.schema document)
        (by simp [Renews, hh, hkey])

/-- Every call that brings a document along renews the references buried
under its key. -/
def Renewing : SchemaCall → Prop
  | .create name _ document => w.Renews name document
  | .upsert name _ document => w.Renews name document
  | .loadClean name _ document => w.Renews name document
  | _ => True

instance (w : Burials) : ∀ call, Decidable (w.Renewing call)
  | .create name _ document => inferInstanceAs (Decidable (w.Renews name document))
  | .upsert name _ document => inferInstanceAs (Decidable (w.Renews name document))
  | .loadClean name _ document => inferInstanceAs (Decidable (w.Renews name document))
  | .registerCollection _ => isTrue trivial
  | .update .. => isTrue trivial
  | .delete .. => isTrue trivial
  | .get .. => isTrue trivial
  | .includeOne .. => isTrue trivial
  | .includeReverse .. => isTrue trivial
  | .flushCollectionIdle .. => isTrue trivial

end Burials

-- ===== the invariant

/-- A document has at most one key in each reference field. -/
theorem oneEach_referenceEntries (schema : Schema) (document : SchemaValue)
    (source : SchemaKey) : (entryLinks SchemaKey).OneEach source
      (referenceEntries schema document) := by
  apply oneEach_entryLinks
  intro idx t t' ht ht'
  obtain ⟨j, f, hj, hf, hkey⟩ := mem_entriesFrom.1 ht
  obtain ⟨j', f', hj', hf', hkey'⟩ := mem_entriesFrom.1 ht'
  obtain rfl : j = j' := by omega
  rw [hf] at hf'
  cases hf'
  exact hkey.unique hkey'

namespace ReferenceMaps

variable {m : ReferenceMaps} {entries : SchemaKey → List (Entry SchemaKey)}

section

variable (h : m.Mirrors entries) {source : SchemaKey} {new : List (Entry SchemaKey)}

include h

theorem Mirrors.refile (hnew : (entryLinks SchemaKey).OneEach source new) :
    ((m.removeAll (entries source) source).insertAll new source).Mirrors
      (update entries source new) := by
  rw [removeAll_eq, insertAll_eq]
  exact Linking.Mirrors.refile h hnew

theorem Mirrors.file (hsub : ∀ e ∈ entries source, e ∈ new)
    (hnew : (entryLinks SchemaKey).OneEach source new) :
    (m.insertAll new source).Mirrors (update entries source new) := by
  rw [insertAll_eq]
  exact Linking.Mirrors.file h hsub hnew

end

end ReferenceMaps

/-- The references of the documents that are alive or buried. -/
def Collection.held (h : Collection) (buried : SchemaKey → Option SchemaValue) (key : SchemaKey) :
    List (Entry SchemaKey) :=
  entriesOf (referenceEntries h.schema) ((h.documents key).or (buried key))

namespace Burials

variable {w : Burials}

/-- The reference maps are those of the documents alive or buried, and
nothing is buried where no collection is. -/
structure Kept (w : Burials) : Prop where
  declared : w.store.Declared
  mirrors : ∀ name h, w.store.collections name = some h →
    h.references.Mirrors (h.held (w.buried name))
  fresh : ∀ name, w.store.collections name = none → ∀ key, w.buried name key = none

theorem kept_init (hashBuilder : SchemaKey → UInt64) (dirtyShards : Nat) :
    (init hashBuilder dirtyShards).Kept :=
  ⟨nofun, nofun, fun _ _ _ => rfl⟩

variable {h : Collection} {call : SchemaCall} {key : SchemaKey} {name : String}

/-- One collection changes, and the burials of the others stay. -/
theorem Kept.set (hk : w.Kept) {buried : String → SchemaKey → Option SchemaValue}
    (hdeclared : (w.store.set name h).Declared)
    (hown : h.references.Mirrors (h.held (buried name)))
    (hother : ∀ other, other ≠ name → buried other = w.buried other) :
    Kept ⟨w.store.set name h, buried⟩ := by
  refine ⟨hdeclared, ?_, ?_⟩
  · intro name' h' hh'
    by_cases hname : name' = name
    · subst hname
      rw [set_self] at hh'
      cases hh'
      exact hown
    rw [set_of_ne hname] at hh'
    show h'.references.Mirrors (h'.held (buried name'))
    rw [hother name' hname]
    exact hk.mirrors name' h' hh'
  · intro name' hnone key
    have hname : name' ≠ name := by
      intro heq
      subst heq
      rw [set_self] at hnone
      cases hnone
    rw [set_of_ne hname] at hnone
    show buried name' key = none
    rw [hother name' hname]
    exact hk.fresh name' hnone key

variable {document : SchemaValue} {inner : WriteBehindCache SchemaKey SchemaValue}

/-- A document stored over a live one, or over a buried one whose
references it holds. -/
theorem Kept.mirrors_refiled (hk : w.Kept)
    (hh : w.store.collections name = some h) {dirty : Bool} (hs : h.Stores key document dirty inner)
    (hrenews : h.documents key = none →
      ∀ e ∈ entriesOf (referenceEntries h.schema) (w.buried name key),
        e ∈ referenceEntries h.schema document) :
    (h.refiled inner key document).references.Mirrors
      ((h.refiled inner key document).held (w.buried name)) := by
  have hmirrors := hk.mirrors name h hh
  have hone := oneEach_referenceEntries h.schema document key
  have hheld : (h.refiled inner key document).held (w.buried name)
      = update (h.held (w.buried name)) key (referenceEntries h.schema document) := by
    have hdocuments : (h.refiled inner key document).documents
        = update h.documents key (some document) :=
      hs.wrote.values_eq
    funext k
    by_cases hkey : k = key
    · subst hkey
      simp only [Collection.held, hdocuments, update_self]
      rfl
    · simp only [Collection.held, hdocuments, update_of_ne hkey]
      rfl
  rw [hheld]
  cases hold : h.documents key with
  | some old =>
    have hentries : h.held (w.buried name) key
        = entriesOf (referenceEntries h.schema) (h.documents key) := by
      simp [Collection.held, hold]
    have hrefiled := hmirrors.refile hone
    rw [hentries] at hrefiled
    exact hrefiled
  | none =>
    have hentries : h.held (w.buried name) key
        = entriesOf (referenceEntries h.schema) (w.buried name key) := by
      simp [Collection.held, hold]
    have hsub : ∀ e ∈ h.held (w.buried name) key, e ∈ referenceEntries h.schema document := by
      rw [hentries]
      exact hrenews hold
    have hfiled := hmirrors.file hsub hone
    show ReferenceMaps.Mirrors ((h.references.removeAll
      (entriesOf (referenceEntries h.schema) (h.documents key)) key).insertAll _ key) _
    rw [hold]
    exact hfiled

/-- What the guard says of a document that is brought along and stored. -/
theorem Renewing.renews (hg : w.Renewing call)
    (hh : w.store.collections name = some h) (hown : extractPrimaryKey h.schema document = .ok key)
    (hcall : call.Brings name document ∨ (h.documents key).isSome)
    (hdead : h.documents key = none) :
    ∀ e ∈ entriesOf (referenceEntries h.schema) (w.buried name key),
      e ∈ referenceEntries h.schema document := by
  have hrenews : w.Renews name document := by
    rcases hcall with ⟨full, rfl | rfl | rfl⟩ | hlive
    · exact hg
    · exact hg
    · exact hg
    · rw [hdead] at hlive
      cases hlive
  unfold Renews at hrenews
  simp only [hh, hown] at hrenews
  exact hrenews hdead

/-- Burying moves a document from the live to the buried ones. -/
theorem held_deleted {full : Bool} (hh : w.store.collections name = some h)
    (hwrote : Wrote h.inner inner key none .delete true) :
    (h.unfiled inner key).held (w.bury (.delete name full key) (.ok ()) name)
      = h.held (w.buried name) := by
  have hdocuments : (h.unfiled inner key).documents
      = update h.documents key none := hwrote.values_eq
  funext k
  unfold Collection.held bury
  simp only [hh, Option.bind_some, hdocuments]
  by_cases hk : k = key
  · subst hk
    cases hold : h.documents k with
    | none =>
      simp only [update_self, Option.none_or]
      rfl
    | some old =>
      simp only [update_self, Option.none_or, Option.some_or]
      rfl
  · rw [update_of_ne hk]
    cases h.documents key with
    | none => rfl
    | some old =>
      simp only [update_self, update_of_ne hk]
      rfl

variable {result : SchemaResult Unit}

theorem bury_other {other : String} {full : Bool} (hne : other ≠ name) :
    w.bury (.delete name full key) result other = w.buried other := by
  cases result with
  | error e => rfl
  | ok u =>
    simp only [bury]
    cases (w.store.collections name).bind (·.documents key) with
    | none => rfl
    | some document => exact update_of_ne hne _ _

/-- Only a delete that succeeds buries anything. -/
theorem bury_same (hdelete : ∀ name full key, call = .delete name full key →
      ∃ e, result = .error e) : w.bury call result = w.buried := by
  unfold bury
  split
  next name full key u =>
    obtain ⟨e, he⟩ := hdelete name full key rfl
    cases he
  next => rfl

theorem Kept.step (hk : w.Kept) (hg : w.Renewing call) : (w.step call).1.Kept := by
  have hstep := perform_step hk.declared call
  have hdeclared := hstep.declared hk.declared
  show Kept ⟨(w.store.perform call).1, w.bury call (w.store.perform call).2⟩
  generalize (w.store.perform call).1 = s' at *
  generalize (w.store.perform call).2 = result at *
  cases hstep with
  | same hs hdelete =>
    rw [bury_same hdelete]
    refine ⟨hdeclared, ?_, ?_⟩
    · intro name h' hh'
      obtain ⟨h, hh, hsame⟩ := hs.collection hh'
      have hdocuments := hsame.documents_eq
      obtain ⟨inner, -, rfl⟩ := hsame
      have hheld : Collection.held { h with inner := inner } (w.buried name)
          = h.held (w.buried name) := by
        funext k
        simp only [Collection.held, hdocuments]
      rw [hheld]
      exact hk.mirrors name h hh
    · intro name hnone
      rcases hs name with ⟨hnone, -⟩ | ⟨h, h', -, hh', -⟩
      · exact hk.fresh name hnone
      · rw [show s'.collections name = none from hnone] at hh'
        cases hh'
  | @registered schema valid new hcall =>
    subst hcall
    refine hk.set hdeclared ?_ fun _ _ => rfl
    -- nothing was buried under the name, and no document is there
    have hheld : (Collection.new schema w.store.hashBuilder
        w.store.dirtyShards).held (w.buried schema.name) = fun _ => [] := by
      funext k
      simp only [Collection.held, hk.fresh schema.name new k]
      rfl
    show ReferenceMaps.Mirrors ⟨∅, ∅⟩ ((Collection.new schema
      w.store.hashBuilder w.store.dirtyShards).held (w.buried schema.name))
    rw [hheld]
    exact Linking.mirrors_empty
  | stored hh hs hcall hdelete =>
    rw [bury_same fun name full key heq => absurd heq (hdelete _ _ _)]
    refine hk.set hdeclared ?_ fun _ _ => rfl
    exact hk.mirrors_refiled hh hs (hg.renews hh hs.own hcall)
  | deleted hh hwrote hcall =>
    subst hcall
    refine hk.set hdeclared ?_ fun other hne => bury_other hne
    rw [held_deleted hh hwrote]
    exact hk.mirrors _ _ hh

end Burials

-- ===== the reads

variable {h : Collection} {f : ReferenceField} {name : String}

/-- A reference field has a position among the fields of the
collection. -/
theorem Collection.Declared.referencePosition (hd : h.Declared) (hf : f ∈ h.referenceFields) :
    ∃ idx, (referenceFieldsOf h.schema)[idx]? = some f
      ∧ h.referenceField f.name = some (idx, f) := by
  rw [hd.reference_eq] at hf
  obtain ⟨idx, hidx⟩ := mem_iff_getElem?.1 hf
  have hnames : ((referenceFieldsOf h.schema).map ReferenceField.name).Nodup := by
    refine pairwise_map.2 ((pairwise_map.1 (Schema.valid_fields hd.valid).2.1).filterMap _ ?_)
    intro f g hne x hx y hy
    obtain ⟨r, -, rfl⟩ := Option.map_eq_some_iff.1 hx
    obtain ⟨r', -, rfl⟩ := Option.map_eq_some_iff.1 hy
    exact hne
  refine ⟨idx, hidx, ?_⟩
  unfold Collection.referenceField
  rw [hd.reference_eq, find?_zipIdx_name hnames hidx]
  rfl

/-- The entry of a document in a field is the key it holds there. -/
theorem mem_referenceEntries_iff {document : SchemaValue} {schema : Schema} {idx : Nat}
    (hidx : (referenceFieldsOf schema)[idx]? = some f)
    {t : SchemaKey} :
    (⟨idx, t⟩ : Entry SchemaKey) ∈ referenceEntries schema document ↔
      Holds schema document f t := by
  unfold referenceEntries
  rw [mem_entriesFrom]
  constructor
  · intro hmem
    obtain ⟨j, g, hj, hg, hkey⟩ := hmem
    rw [Nat.zero_add] at hj
    subst hj
    rw [hidx] at hg
    cases hg
    exact hkey
  · intro hkey
    exact ⟨idx, f, (Nat.zero_add idx).symm, hidx, hkey⟩

variable {target : Collection} {s : SchemaStore}

/-- A target that can be read is registered. -/
theorem SchemaStore.referenceTarget_eq_ok (h : s.referenceTarget name f = .ok target) :
    s.collections f.reference.collection = some target := by
  unfold referenceTarget at h
  cases ht : s.collections f.reference.collection with
  | none =>
    rw [ht] at h
    cases h
  | some target' =>
    rw [ht] at h
    simp only at h
    split at h
    next => cases h
    next =>
      split at h
      case isTrue => cases h
      case isFalse => exact congrArg some (Except.ok.inj h)

/-- `include_one` answers with what the forward map has for a live
source. -/
theorem SchemaStore.includeOne_eq (hh : s.collections name = some h) {idx : Nat}
    (hfield : h.referenceField f.name = some (idx, f))
    (htarget : s.referenceTarget name f = .ok target) (key : SchemaKey) :
    ∃ referenced, (s.includeOne name key f.name).2 = .ok ((h.documents key).map fun document =>
        ⟨document, h.references.forward.lookup ⟨idx, key⟩, referenced⟩) := by
  unfold includeOne
  rw [collection_eq_ok.2 hh]
  simp only [hfield, htarget, Collection.get_eq]
  cases h.documents key with
  | none => exact ⟨none, rfl⟩
  | some document =>
    simp only
    cases hforward : h.references.forward.lookup ⟨idx, key⟩ with
    | none => exact ⟨none, by simp⟩
    | some referenceKey =>
      -- the target is still registered after the touch of the source
      have hsame := same_touch hh key
      have hreg := referenceTarget_eq_ok htarget
      rcases hsame f.reference.collection with
        ⟨hnone, -⟩ | ⟨-, target', -, hreg', -⟩
      · rw [hreg] at hnone
        cases hnone
      · simp only [get_eq hreg' referenceKey]
        exact ⟨_, rfl⟩

theorem Burials.Kept.mirrored {w : Burials} (hk : w.Kept)
    (hh : w.store.collections name = some h) : Mirrored w.store name h := by
  have hd := hk.declared name h hh
  have hm := hk.mirrors name h hh
  refine ⟨?_, ?_⟩
  · intro f hf target htarget key t
    obtain ⟨idx, hidx, hfield⟩ := hd.referencePosition hf
    obtain ⟨referenced, hone⟩ := includeOne_eq hh hfield htarget key
    rw [hone]
    have hforward := hm.forward_iff key ⟨idx, t⟩
    cases hdoc : h.documents key with
    | none => simp
    | some d =>
      have hheld : h.held (w.buried name) key = referenceEntries h.schema d := by
        simp [Collection.held, hdoc, entriesOf]
      rw [hheld, mem_referenceEntries_iff hidx] at hforward
      constructor
      · intro hfound
        obtain ⟨found, hfound, hreference⟩ := hfound
        cases hfound
        exact ⟨d, rfl, hforward.1 hreference⟩
      · intro hholds
        obtain ⟨d', hd', hholds⟩ := hholds
        cases hd'
        exact ⟨_, rfl, hforward.2 hholds⟩
  · intro f hf target htarget t
    obtain ⟨idx, hidx, hfield⟩ := hd.referencePosition hf
    have hout := (includeSources_eq hh (h.references.reverse.ids ⟨idx, t⟩)).2
    refine ⟨h.alive (h.references.reverse.ids ⟨idx, t⟩), ?_,
      Collection.nodup_alive (hm.files.distinct ⟨idx, t⟩), ?_⟩
    · unfold includeReverse
      rw [collection_eq_ok.2 hh]
      simp only [hfield, ne_eq, not_true_eq_false, if_false, htarget]
      exact hout
    · intro key d
      rw [Collection.mem_alive, hm.files.mem_iff]
      constructor
      · intro hfound
        obtain ⟨hentry, hlive⟩ := hfound
        rw [Collection.held, hlive, Option.some_or] at hentry
        exact ⟨hlive, (mem_referenceEntries_iff hidx).1 hentry⟩
      · intro hfound
        obtain ⟨hlive, hholds⟩ := hfound
        refine ⟨?_, hlive⟩
        rw [Collection.held, hlive, Option.some_or]
        exact (mem_referenceEntries_iff hidx).2 hholds

/-- Teams, and players that may belong to one. -/
def teams : Schema :=
  { name := "teams"
    fields := [{ SchemaField.new "id" .int64 with primary := true }]
    enableNestedFields := false
    defaultSortField := none }

def players : Schema :=
  { name := "players"
    fields := [
      { SchemaField.new "id" .int64 with primary := true },
      { SchemaField.new "team" .int64 with
        optional := true, reference := some ⟨"teams", "id"⟩ }]
    enableNestedFields := false
    defaultSortField := none }

def player (id : Int64) (team : SchemaValue) : SchemaValue :=
  .object [("id", .int64 id), ("team", team)]

/-- A player leaves and comes back to the given team. -/
def returnTo (team : SchemaValue) : List SchemaCall :=
  [.registerCollection teams, .registerCollection players,
    .create "players" false (player 1 (.int64 7)),
    .update "players" false (.int64 1) fun _ => player 1 (.int64 8),
    .delete "players" false (.int64 1), .create "players" false (player 1 team)]

/-- The store a player came back to without a team. -/
def teamless : SchemaStore :=
  (exec Burials.step (Burials.init (fun _ => 0) 1) (returnTo .null)).store

end MemoryFirst.Compat
