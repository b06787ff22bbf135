/-
Snapshots of the raw store: what they hold, and that loading one builds
a store that holds the same.

# Two directions

A snapshot is `Keyed` when no collection is in it twice and no key twice
in a collection; the snapshot of a sound store is (`keyed_rawSnapshot`),
and holds the store's contents. Loading a keyed snapshot inserts its
records one by one; it succeeds exactly when they find room in tables
sized for them, and the store it builds is sound and holds what the
snapshot does (`fromRawSnapshot_cases`).
-/
import MemoryFirst.Store.Proofs.Raw

namespace MemoryFirst.Store

open Core (ConcurrentMap InsertOutcome)
open Core.ConcurrentMap (InsertOnly SameKeys Placeable keyTable)
open Lib List

/-- What a record of a snapshot leaves in the store. -/
def RawSnapshotRecord.stored (r : RawSnapshotRecord) : RawRecord :=
  ⟨r.value, r.version⟩

namespace RawStoreSnapshot

/-- The snapshot has this record under the collection's name and key. -/
def Holds (snapshot : RawStoreSnapshot) (a : String × RawKey) (x : RawRecord) : Prop :=
  ∃ c ∈ snapshot.collections, c.name = a.1 ∧ ∃ r ∈ c.records, r.key = a.2 ∧ r.stored = x

/-- No collection twice, and no key twice in one. -/
structure Keyed (snapshot : RawStoreSnapshot) : Prop where
  names : (snapshot.collections.map RawCollectionSnapshot.name).Nodup
  keys : ∀ c ∈ snapshot.collections, (c.records.map RawSnapshotRecord.key).Nodup

end RawStoreSnapshot

namespace MfsStore

-- ===== taking a snapshot

section

variable {c : RawCollection} (hc : c.Sound)

theorem perm_snapshotRecords (c : RawCollection) : (snapshotRecords c).Perm
      (c.records.forEach.map fun e => ⟨e.1, e.2.value, e.2.version⟩) :=
  perm_insertionSort _ _

include hc

theorem nodup_snapshotRecords : ((snapshotRecords c).map RawSnapshotRecord.key).Nodup := by
  have hp := (perm_snapshotRecords c).map RawSnapshotRecord.key
  rw [hp.nodup_iff, map_map]
  exact Core.ConcurrentMap.nodup_forEach_keys hc.table.coherent hc.table.single

variable {r : RawSnapshotRecord}

theorem mem_snapshotRecords : r ∈ snapshotRecords c ↔ c.records.get r.key = some r.stored := by
  rw [(perm_snapshotRecords c).mem_iff, mem_map,
    Core.ConcurrentMap.get_eq_some_iff hc.table.coherent hc.table.single]
  constructor
  · rintro ⟨⟨k, x⟩, hmem, rfl⟩
    exact (Core.ConcurrentMap.mem_forEach_iff hc.table.coherent).1 hmem
  · intro h
    exact ⟨(r.key, r.stored), (Core.ConcurrentMap.mem_forEach_iff hc.table.coherent).2 h, rfl⟩

end

section

variable {s : MfsStore}

theorem perm_rawSnapshot (s : MfsStore) :
    s.rawSnapshot.collections.Perm (s.collections.entries.map fun e =>
      (⟨e.1, snapshotRecords e.2⟩ : RawCollectionSnapshot)) :=
  perm_insertionSort _ _

variable {c : RawCollectionSnapshot}

theorem mem_rawSnapshot : c ∈ s.rawSnapshot.collections ↔
      ∃ live, s.collections.lookup c.name = some live ∧ c.records = snapshotRecords live := by
  rw [(perm_rawSnapshot s).mem_iff, mem_map]
  constructor
  · rintro ⟨⟨name, live⟩, hmem, rfl⟩
    exact ⟨live, AList.mem_lookup_iff.2 hmem, rfl⟩
  · rintro ⟨live, hl, hr⟩
    refine ⟨⟨c.name, live⟩, AList.mem_lookup_iff.1 hl, ?_⟩
    rw [← hr]

theorem names_rawSnapshot (s : MfsStore) :
    (s.rawSnapshot.collections.map RawCollectionSnapshot.name).Perm s.collections.keys := by
  refine ((perm_rawSnapshot s).map _).trans ?_
  rw [map_map]
  exact List.Perm.refl _

theorem Sound.keyed_rawSnapshot (hs : s.Sound) : s.rawSnapshot.Keyed where
  names := (names_rawSnapshot s).nodup_iff.2 s.collections.keys_nodup
  keys c hmem := by
    obtain ⟨live, hl, hr⟩ := mem_rawSnapshot.1 hmem
    rw [hr]
    exact nodup_snapshotRecords (hs.collections _ _ hl)

/-- A snapshot holds what the store does. -/
theorem Sound.holds_rawSnapshot (hs : s.Sound) {a : String × RawKey} {x : RawRecord} :
    s.rawSnapshot.Holds a x ↔ s.contents a = some x := by
  unfold RawStoreSnapshot.Holds contents
  constructor
  · rintro ⟨c, hmem, hname, r, hr, hkey, rfl⟩
    obtain ⟨live, hl, hrecords⟩ := mem_rawSnapshot.1 hmem
    rw [hrecords, mem_snapshotRecords (hs.collections _ _ hl)] at hr
    rw [← hname, hl, Option.bind_some, ← hkey]
    exact hr
  · intro h
    obtain ⟨live, hl, hget⟩ := Option.bind_eq_some_iff.1 h
    refine ⟨⟨a.1, snapshotRecords live⟩, mem_rawSnapshot.2 ⟨live, hl, rfl⟩,
      rfl, ⟨a.2, x.value, x.version⟩, ?_, rfl, rfl⟩
    exact (mem_snapshotRecords (hs.collections _ _ hl)).2 hget

end

-- ===== loading a snapshot

section

variable {hash : RawKey → UInt64} {config : MfsStoreConfig}

/-- A collection with the records of a list, inserted in order. -/
structure Filled (hash : RawKey → UInt64) (capacity : Nat)
    (records : List RawSnapshotRecord) (c : RawCollection) : Prop where
  sound : c.Sound
  get_eq : c.records.get = overlay RawSnapshotRecord.key
    RawSnapshotRecord.stored (fun _ => none) records
  table : SameKeys c.records (keyTable hash capacity (records.map RawSnapshotRecord.key))

theorem filled_new (hash : RawKey → UInt64) (capacity : Nat) :
    Filled hash capacity [] (newCollection hash capacity) :=
  ⟨RawCollection.sound_new hash capacity, InsertOnly.get_new hash capacity,
    Core.ConcurrentMap.sameKeys_new hash capacity⟩

variable {capacity : Nat}

/-- One record more of a key that is not there yet. -/
theorem Filled.snoc {r : RawSnapshotRecord} {records : List RawSnapshotRecord}
    {c : RawCollection} (h : Filled hash capacity records c)
    (hroom : c.records.canInsertOrReplace r.key = true) :
    Filled hash capacity (records ++ [r]) (c.afterInsert r.key r.stored) where
  sound := h.sound.afterInsert hroom r.stored
  get_eq := by
    rw [RawCollection.get_afterInsert h.sound.table hroom, h.get_eq, overlay_snoc]
  table := by
    rw [map_append, map_singleton, Core.ConcurrentMap.keyTable_append]
    exact h.table.insert r.key _ ()

/-- The records of a snapshot are loaded exactly when they find room. -/
theorem loadRecords_cases (collection : String) {done todo : List RawSnapshotRecord}
    {c : RawCollection}
    (h : Filled hash capacity done c)
    (hfits : Placeable hash capacity (done.map RawSnapshotRecord.key))
    (hnodup : ((done ++ todo).map RawSnapshotRecord.key).Nodup) :
    (Placeable hash capacity ((done ++ todo).map RawSnapshotRecord.key)
        ∧ ∃ c', loadRecords collection todo c = .ok c' ∧ Filled hash capacity (done ++ todo) c')
      ∨ (¬ Placeable hash capacity ((done ++ todo).map RawSnapshotRecord.key)
        ∧ loadRecords collection todo c = .error (.collectionCapacityFull collection)) := by
  induction todo generalizing done c with
  | nil =>
    rw [append_nil]
    exact Or.inl ⟨hfits, c, rfl, h⟩
  | cons r todo ih =>
    have hsplit : done ++ r :: todo = (done ++ [r]) ++ todo := by simp
    have hone := Core.ConcurrentMap.placeable_append hash capacity
      (done.map RawSnapshotRecord.key) r.key
    rw [← h.table.canInsertOrReplace_eq] at hone
    have hkeys : done.map RawSnapshotRecord.key ++ [r.key]
        = (done ++ [r]).map RawSnapshotRecord.key := by simp
    rw [hkeys] at hone
    have hiff := Core.ConcurrentMap.canInsertOrReplace_iff c.records r.key
      (⟨r.value, r.version⟩ : RawRecord)
    have hload : loadRecords collection (r :: todo) c
        = if c.records.canInsertOrReplace r.key = true then
            loadRecords collection todo (c.afterInsert r.key r.stored)
          else .error (.collectionCapacityFull collection) := by
      -- the key is not there yet, so the count moves with the value
      have habsent : c.records.get r.key = none := by
        rw [h.get_eq, overlay_apply_of_forall_ne]
        intro x hx he
        rw [map_append, nodup_append] at hnodup
        exact hnodup.2.2 _ (mem_map_of_mem hx) _ (by simp) he
      have hcount : countAfter c.recordCount r.value.isSome
          ((c.records.get r.key).bind RawRecord.value).isSome
          = c.recordCount + if r.value.isSome then 1 else 0 := by
        rw [habsent]
        cases r.value <;> rfl
      unfold RawCollection.afterInsert
      rw [loadRecords, show r.stored = ⟨r.value, r.version⟩ from rfl, hcount]
      generalize c.records.insert r.key ⟨r.value, r.version⟩ = out
        at hiff ⊢
      obtain ⟨records, outcome⟩ := out
      cases outcome with
      | full => rw [if_neg (fun hc => hiff.1 hc rfl)]
      | inserted | replaced => rw [if_pos (hiff.2 (by simp))]
    rw [hload, hsplit]
    split
    case isTrue hroom =>
      rw [hsplit] at hnodup
      exact ih (h.snoc hroom) (hone.2 ⟨hfits, hroom⟩) hnodup
    case isFalse hno =>
      refine Or.inr ⟨fun hp => hno (hone.1 ?_).2, rfl⟩
      rw [map_append] at hp
      exact hp.of_append

/-- A collection loaded from its snapshot. -/
abbrev Loaded (hash : RawKey → UInt64) (config : MfsStoreConfig)
    (c : RawCollectionSnapshot) (loaded : RawCollection) : Prop :=
  Filled hash (snapshotCapacity config c) c.records loaded

/-- The keys of the collection find room in the table sized for it. -/
def LoadFits (hash : RawKey → UInt64) (config : MfsStoreConfig)
    (c : RawCollectionSnapshot) : Prop :=
  Placeable hash (snapshotCapacity config c) (c.records.map RawSnapshotRecord.key)

instance (hash : RawKey → UInt64) (config : MfsStoreConfig)
    (c : RawCollectionSnapshot) : Decidable (LoadFits hash config c) :=
  inferInstanceAs (Decidable (Placeable _ _ _))

variable {cs : List RawCollectionSnapshot} {snapshot : RawStoreSnapshot}

theorem loadCollections_cases (hash : RawKey → UInt64)
    (config : MfsStoreConfig) {m : AList fun _ : String => RawCollection}
    (hnames : (cs.map RawCollectionSnapshot.name).Nodup)
    (habsent : ∀ c ∈ cs, c.name ∉ m)
    (hkeys : ∀ c ∈ cs, (c.records.map RawSnapshotRecord.key).Nodup) :
    FitsOrFull (∀ c ∈ cs, LoadFits hash config c) (loadCollections hash config cs m) fun m' =>
      (∀ name, name ∉ cs.map RawCollectionSnapshot.name → m'.lookup name = m.lookup name)
        ∧ ∀ c ∈ cs, ∃ loaded, m'.lookup c.name = some loaded ∧ Loaded hash config c loaded := by
  induction cs generalizing m with
  | nil => exact Or.inl ⟨by simp, m, rfl, fun _ _ => rfl, by simp⟩
  | cons c cs ih =>
    rw [map_cons, nodup_cons] at hnames
    have hload := loadRecords_cases c.name (filled_new hash (snapshotCapacity config c)) rfl
      (hkeys c mem_cons_self)
    rw [loadCollections, if_neg (habsent c mem_cons_self)]
    rcases hload with ⟨hfits, loaded, heq, hloaded⟩ | ⟨hno, heq⟩
    · rw [heq, ok_bind]
      have hrest : ∀ x ∈ cs, x.name ∉ m.insert c.name loaded := by
        intro x hx hmem
        rcases (AList.mem_insert m).1 hmem with he | hmem
        · exact hnames.1 (he ▸ mem_map_of_mem hx)
        · exact habsent x (mem_cons_of_mem c hx) hmem
      rcases ih hnames.2 hrest (fun x hx => hkeys x (mem_cons_of_mem c hx)) with
        ⟨hall, m', heq', hother, hown⟩ | ⟨hno, name, heq'⟩
      · refine Or.inl ⟨forall_mem_cons.2 ⟨hfits, hall⟩, m', heq', ?_, ?_⟩
        · intro name hname
          rw [map_cons, mem_cons, not_or] at hname
          rw [hother name hname.2, AList.lookup_insert_ne hname.1]
        · refine forall_mem_cons.2 ⟨⟨loaded, ?_, hloaded⟩, hown⟩
          rw [hother _ hnames.1, AList.lookup_insert]
      · exact Or.inr ⟨fun h => hno fun x hx => h x (mem_cons_of_mem c hx), name, heq'⟩
    · rw [heq]
      exact Or.inr ⟨fun h => hno (h c mem_cons_self), c.name, rfl⟩

/-- The tables of a store loaded from a snapshot. -/
def snapshotBase (config : MfsStoreConfig) (snapshot : RawStoreSnapshot) : TableBase := fun name =>
  match snapshot.collections.find? fun c => c.name = name with
  | some c => (snapshotCapacity config c, c.records.map RawSnapshotRecord.key)
  | none => (config.rawInitialCapacity, [])

theorem find?_name_eq_some {c : RawCollectionSnapshot}
    (hnames : (cs.map RawCollectionSnapshot.name).Nodup) (hc : c ∈ cs) :
    cs.find? (fun x => x.name = c.name) = some c := by
  cases h : cs.find? fun x => x.name = c.name with
  | none =>
    rw [find?_eq_none] at h
    exact absurd (by simp) (h c hc)
  | some x =>
    have hname : x.name = c.name := by
      simpa using find?_some h
    rw [inj_on_of_nodup_map hnames (mem_of_find?_eq_some h) hc hname]

variable {name : String}

theorem find?_name_eq_none (h : name ∉ cs.map RawCollectionSnapshot.name) :
    cs.find? (fun x => x.name = name) = none := by
  rw [find?_eq_none]
  intro x hx hname
  simp only [decide_eq_true_eq] at hname
  exact h (hname ▸ mem_map_of_mem hx)

/-- Loading fits if every collection of the snapshot does. -/
theorem logFits_snapshotBase (hnames :
      (snapshot.collections.map RawCollectionSnapshot.name).Nodup) :
    LogFits hash (snapshotBase config snapshot) [] ↔
      ∀ c ∈ snapshot.collections, LoadFits hash config c := by
  constructor
  · intro h c hc
    have hname := h c.name
    simp only [snapshotBase, find?_name_eq_some hnames hc] at hname
    simpa [keysOf, LoadFits] using hname
  · intro h name
    unfold snapshotBase
    cases hf : snapshot.collections.find? fun c => c.name = name with
    | none => rfl
    | some c =>
      have hfits := h c (mem_of_find?_eq_some hf)
      simpa [keysOf, LoadFits] using hfits

theorem snapshotBase_of_not_mem {config : MfsStoreConfig}
    (h : name ∉ snapshot.collections.map RawCollectionSnapshot.name) :
    snapshotBase config snapshot name = (config.rawInitialCapacity, []) := by
  rw [snapshotBase, find?_name_eq_none h]

/-- Only the collections of the snapshot and of the log have keys to
place. -/
instance (hash : RawKey → UInt64) (config : MfsStoreConfig)
    (snapshot : RawStoreSnapshot) (rs : List RawWalRecord) :
    Decidable (LogFits hash (snapshotBase config snapshot) rs) :=
  decidable_of_iff (∀ name ∈ snapshot.collections.map
        RawCollectionSnapshot.name ++ rs.map RawWalRecord.collection,
      Placeable hash (snapshotBase config snapshot name).1
        ((snapshotBase config snapshot name).2 ++ keysOf name rs)) <| by
    constructor
    · intro h name
      by_cases hname : name ∈ snapshot.collections.map
          RawCollectionSnapshot.name ++ rs.map RawWalRecord.collection
      · exact h name hname
      rw [List.mem_append, not_or] at hname
      have hkeys : keysOf name rs = [] := by
        unfold keysOf
        rw [List.map_eq_nil_iff, List.filter_eq_nil_iff]
        intro r hr he
        exact hname.2 (List.mem_map.2 ⟨r, hr, of_decide_eq_true he⟩)
      rw [snapshotBase_of_not_mem hname.1, hkeys]
      rfl
    · exact fun h name _ => h name

/-- A store that holds a snapshot, loaded over a WAL file. -/
structure LoadedStore (hash : RawKey → UInt64) (config : MfsStoreConfig)
    (snapshot : RawStoreSnapshot) (file : Option (List UInt8))
    (synced : Nat) (s : MfsStore) : Prop where
  sound : s.Sound
  config_eq : s.config = config
  file_eq : s.file = file
  synced_eq : s.synced = synced
  writer_eq : s.writer = none
  holds : ∀ a x, s.contents a = some x ↔ snapshot.Holds a x
  names : ∀ name, name ∈ s.collections ↔ name ∈ snapshot.collections.map RawCollectionSnapshot.name
  tables : s.TablesOf hash (snapshotBase config snapshot) []

section

variable (hkeyed : snapshot.Keyed) {m : AList fun _ : String => RawCollection}
  (hother : ∀ name, name ∉ snapshot.collections.map RawCollectionSnapshot.name →
    m.lookup name = none)
  (hown : ∀ c ∈ snapshot.collections, ∃ loaded, m.lookup c.name = some loaded
    ∧ Loaded hash config c loaded)

include hother hown

theorem mem_loaded_iff (name : String) : name ∈ m ↔
    name ∈ snapshot.collections.map RawCollectionSnapshot.name := by
  constructor
  · intro hm
    by_contra hno
    have hsome := AList.lookup_isSome.2 hm
    rw [hother name hno] at hsome
    cases hsome
  · intro hm
    obtain ⟨c, hc, rfl⟩ := mem_map.1 hm
    obtain ⟨loaded, hl, -⟩ := hown c hc
    exact AList.lookup_isSome.1 (by rw [hl]; rfl)

/-- Every collection of the loaded store comes from the snapshot. -/
theorem loaded_of_lookup {loaded : RawCollection} (hl : m.lookup name = some loaded) :
    ∃ c ∈ snapshot.collections, c.name = name ∧ Loaded hash config c loaded := by
  have hmem : name ∈ m := AList.lookup_isSome.1 (by rw [hl]; rfl)
  obtain ⟨c, hc, rfl⟩ := mem_map.1 ((mem_loaded_iff hother hown name).1 hmem)
  obtain ⟨loaded', hl', hfilled⟩ := hown c hc
  rw [hl] at hl'
  obtain rfl := Option.some.inj hl'
  exact ⟨c, hc, rfl, hfilled⟩

include hkeyed

theorem loadedStore_of_collections (hlimit : snapshot.collections.length ≤ config.maxCollections)
    (nextCollectionId : Nat) (file : Option (List UInt8)) (synced : Nat) :
    LoadedStore hash config snapshot file synced
      ⟨config, m, nextCollectionId, none, false, file, synced⟩ := by
  refine ⟨⟨fun name c hc => ?_, ?_⟩, rfl, rfl, rfl, rfl, fun a x => ?_,
    mem_loaded_iff hother hown, fun name => ?_⟩
  · obtain ⟨_, _, _, hfilled⟩ := loaded_of_lookup hother hown hc
    exact hfilled.sound
  · have hsub : m.keys ⊆ snapshot.collections.map RawCollectionSnapshot.name :=
      fun name hname => (mem_loaded_iff hother hown name).1 hname
    have hle := (subperm_of_subset m.keys_nodup hsub).length_le
    rw [length_map] at hle
    exact Nat.le_trans hle hlimit
  · constructor
    · intro h
      obtain ⟨loaded, hl, hget⟩ := Option.bind_eq_some_iff.1 h
      obtain ⟨c, hc, hname, hfilled⟩ := loaded_of_lookup hother hown hl
      rw [hfilled.get_eq, overlay_eq_some_iff_of_nodup (hkeyed.keys c hc)] at hget
      exact ⟨c, hc, hname, hget⟩
    · rintro ⟨c, hc, hname, hr⟩
      obtain ⟨loaded, hl, hfilled⟩ := hown c hc
      rw [hname] at hl
      show (m.lookup a.1).bind _ = _
      rw [hl, Option.bind_some, hfilled.get_eq, overlay_eq_some_iff_of_nodup (hkeyed.keys c hc)]
      exact hr
  · show SameKeys (((m.lookup name).getD _)).records _
    by_cases hname : name ∈ snapshot.collections.map RawCollectionSnapshot.name
    · obtain ⟨c, hc, rfl⟩ := mem_map.1 hname
      obtain ⟨loaded, hl, hfilled⟩ := hown c hc
      have htable := hfilled.table
      simpa [hl, snapshotBase, find?_name_eq_some hkeyed.names hc, keysOf] using htable
    · simp only [hother name hname, Option.getD_none, snapshotBase, find?_name_eq_none hname]
      exact Core.ConcurrentMap.sameKeys_new hash _

end

/-- Loading a keyed snapshot succeeds exactly when it finds room. -/
theorem fromRawSnapshot_cases (hash : RawKey → UInt64)
    (hvalid : validateStoreConfig config = .ok ()) (hkeyed : snapshot.Keyed)
    (hlimit : snapshot.collections.length ≤ config.maxCollections)
    (file : Option (List UInt8)) (synced : Nat) :
    FitsOrFull (LogFits hash (snapshotBase config snapshot) [])
      (fromRawSnapshot hash config snapshot file synced)
      (LoadedStore hash config snapshot file synced) := by
  unfold fromRawSnapshot
  rw [hvalid, ok_bind, if_neg (by omega), logFits_snapshotBase hkeyed.names]
  have hempty : ∀ c ∈ snapshot.collections,
      c.name ∉ (∅ : AList fun _ : String => RawCollection) := by
    intro c _ hmem
    cases hmem
  rcases loadCollections_cases hash config hkeyed.names hempty hkeyed.keys
    with ⟨hall, m', heq, hother, hown⟩ | ⟨hno, name, heq⟩
  · rw [heq]
    exact Or.inl ⟨hall, _, rfl, loadedStore_of_collections hkeyed hother hown hlimit _ _ _⟩
  · rw [heq]
    exact Or.inr ⟨hno, name, rfl⟩

end

end MfsStore

end MemoryFirst.Store
