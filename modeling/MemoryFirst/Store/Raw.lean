/-
`mfs-store/src/store/raw.rs`, executed by one thread: the collections of
the raw store, its write path with the WAL in front of the table, and
the snapshots checkpoints are made of.

# State

`MfsStore` is the store together with the file at its WAL path. Calls
return the store they leave behind also when they fail: a write that was
refused after its WAL append has still appended. A collection's table is
the `ConcurrentMap` of the core crate over an arbitrary hasher; nothing
is ever removed from it, a delete stores a record without a value.

# Hooks

The schema layer passes a preflight check into the write path and acts
on its result once the write succeeded. The check is a parameter here
and its result is handed back with the write's.

`synced` counts the bytes of the WAL file known to be on disk; it plays
no part in what a running store does.
-/
import MemoryFirst.Store.Wal
import Mathlib.Data.List.AList
import Mathlib.Data.List.Sort

namespace MemoryFirst.Store

open Core (ConcurrentMap InsertOutcome)
open Lib (utf8)
open Wal (RawWalSegmentWriter)

structure RawRecord where
  value : Option RawValue
  version : DocumentVersion
  deriving DecidableEq, Repr

/-- A collection: its table and the number of its live records. -/
structure RawCollection where
  records : ConcurrentMap RawKey RawRecord
  recordCount : Nat

structure MfsStore where
  config : MfsStoreConfig
  collections : AList fun _ : String => RawCollection
  nextCollectionId : Nat
  writer : Option RawWalSegmentWriter
  walDirty : Bool
  file : Option (List UInt8)
  synced : Nat

/-- The writes that get into the log. -/
def DurabilityMode.logged : DurabilityMode → Bool
  | .memoryOnly => false
  | .snapshotOnly => false
  | .walAsync => true
  | .walGroupCommit => true
  | .walSync => true

variable (hash : RawKey → UInt64)

namespace MfsStore

variable (config : MfsStoreConfig)

def validateStoreConfig : StoreResult Unit :=
  if config.maxCollections = 0 then
    .error (.invalidConfig "max_collections" "must be greater than zero")
  else if config.rawInitialCapacity = 0 then
    .error (.invalidConfig "raw_initial_capacity"
      "must be greater than zero")
  else if config.durability.logged ∧ config.hasWalPath = false then
    .error (.invalidConfig "wal_path" "required for WAL durability modes")
  else .ok ()

/-- `open_memory`, over the WAL file its path leads to. -/
def openMemory (file : Option (List UInt8)) (synced : Nat) : StoreResult MfsStore := do
  validateStoreConfig config
  return ⟨config, ∅, 1, none, false, file, synced⟩

/-- `raw_collection`. -/
def rawCollection (s : MfsStore) (collection : String) : StoreResult RawCollection :=
  match s.collections.lookup collection with
  | some c => .ok c
  | none => .error (.collectionNotFound collection)

/-- The store with one collection's state replaced. -/
def setCollection (s : MfsStore) (name : String) (c : RawCollection) : MfsStore :=
  { s with collections := s.collections.insert name c }

section

/-- `RawCollection::with_capacity`. -/
def newCollection (capacity : Nat) : RawCollection :=
  ⟨ConcurrentMap.withHasherAndCapacity hash capacity, 0⟩

def createRawCollection (s : MfsStore) (name : String) : MfsStore × StoreResult Nat :=
  if name ∈ s.collections then
    (s, .error (.collectionAlreadyExists name))
  else if s.config.maxCollections ≤ s.collections.entries.length then
    (s, .error (.collectionLimitExceeded s.config.maxCollections))
  else
    ({ s with
        nextCollectionId := s.nextCollectionId + 1
        collections := s.collections.insert name
          (newCollection hash s.config.rawInitialCapacity) },
      .ok s.nextCollectionId)

end

-- ===== durability

section

variable (crc32c : List UInt8 → UInt32) (s : MfsStore)

/-- The writer, opened over the file if it is not open yet. -/
def ensureWriter : MfsStore × StoreResult RawWalSegmentWriter :=
  match s.writer with
  | some w => (s, .ok w)
  | none =>
    if s.config.hasWalPath then
      let (file, opened) := Wal.openWriter crc32c s.file
      let s := { s with
        file := file
        -- a cut tail is synced before anything is appended behind it
        synced := if file = s.file then s.synced
          else ((file.getD []).length) }
      match opened with
      | .error e => (s, .error e)
      | .ok w => ({ s with writer := some w }, .ok w)
    else
      (s, .error (.invalidConfig "wal_path"
        "required for WAL durability modes"))

def appendRawWal (collection : String) (key : RawKey)
    (value : Option RawValue) (version : DocumentVersion) (sync : Bool) :
    MfsStore × StoreResult Lsn :=
  match ensureWriter crc32c s with
  | (s, .error e) => (s, .error e)
  | (s, .ok w) =>
    let (w, bytes, result) := match value with
      | some v => Wal.appendPutVersioned crc32c w (s.file.getD []) collection key v version
      | none => Wal.appendDeleteVersioned crc32c w (s.file.getD []) collection key version
    let s := { s with writer := some w, file := some bytes }
    match result with
    | .error e => (s, .error e)
    | .ok lsn =>
      if sync then
        ({ s with walDirty := false, synced := bytes.length }, .ok lsn)
      else ({ s with walDirty := true }, .ok lsn)

def acknowledgeWrite (mode : DurabilityMode)
    (collection : String) (key : RawKey) (value : Option RawValue)
    (version : DocumentVersion) :
    MfsStore × StoreResult WriteAcknowledgement :=
  match mode with
  | .memoryOnly => (s, .ok .memoryOnly)
  | .snapshotOnly => (s, .ok .snapshotOnly)
  | .walAsync =>
    let (s, r) := appendRawWal crc32c s collection key value version false
    (s, r.map .walBuffered)
  | .walGroupCommit =>
    let (s, r) := appendRawWal crc32c s collection key value version true
    (s, r.map .walGroupCommitted)
  | .walSync =>
    let (s, r) := appendRawWal crc32c s collection key value version true
    (s, r.map .walSynced)

def syncWal : MfsStore × StoreResult Unit :=
  if s.walDirty = false then (s, .ok ())
  else
    match s.writer with
    | some _ => ({ s with walDirty := false, synced := (s.file.getD []).length }, .ok ())
    | none =>
      if s.config.hasWalPath = false ∨ s.file = none then (s, .ok ())
      else
        match ensureWriter crc32c s with
        | (s, .error e) => (s, .error e)
        | (s, .ok _) =>
          ({ s with walDirty := false, synced := (s.file.getD []).length }, .ok ())

def compactWal : MfsStore × StoreResult (Option RawWalCompactionStats) :=
  if s.config.hasWalPath = false then (s, .ok none)
  else
    let s := if s.writer.isSome then
        { s with synced := (s.file.getD []).length }
      else s
    let s := { s with writer := none, walDirty := false }
    match s.file with
    | none => (s, .ok none)
    | some _ =>
      match Wal.compactRawWal crc32c s.file with
      | (_, .error e) => (s, .error e)
      | (file, .ok stats) =>
        let s := { s with file := file, synced := (file.getD []).length }
        match ensureWriter crc32c s with
        | (s, .error e) => (s, .error e)
        | (s, .ok _) => (s, .ok (some stats))

end

-- ===== writes

/-- The live-record count after a record of the given liveness replaced
one of the other. -/
def countAfter (recordCount : Nat) (isPut wasLive : Bool) : Nat :=
  match isPut, wasLive with
  | true, false => recordCount + 1
  | false, true => recordCount - 1
  | _, _ => recordCount

section

variable (crc32c : List UInt8 → UInt32)

/-- `write_with_hooks` on a named collection. -/
def writeWithHooks {π : Type} (s : MfsStore) (collection : String)
    (key : RawKey) (value : Option RawValue) (options : WriteOptions)
    (preflight : Option RawValue → DocumentVersion → StoreResult π) :
    MfsStore × StoreResult (WriteResult × π) :=
  match s.rawCollection collection with
  | .error e => (s, .error e)
  | .ok c =>
    let oldRecord := c.records.get key
    let actual := (oldRecord.map RawRecord.version).getD 0
    if options.expectedVersion.isSome ∧ options.expectedVersion ≠ some actual then
      (s, .error (.conflict collection key (options.expectedVersion.getD 0) actual))
    else
      let oldValue := oldRecord.bind RawRecord.value
      match preflight oldValue actual with
      | .error e => (s, .error e)
      | .ok plan =>
        let version := wrappingSucc actual
        if c.records.canInsertOrReplace key = false then
          (s, .error (.collectionCapacityFull collection))
        else
          let durability := options.effectiveDurability s.config.durability
          match acknowledgeWrite crc32c s durability collection key value version with
          | (s, .error e) => (s, .error e)
          | (s, .ok ack) =>
            match c.records.insert key ⟨value, version⟩ with
            | (_, .full) => (s, .error (.collectionCapacityFull collection))
            | (records, _) =>
              (s.setCollection collection ⟨records, countAfter c.recordCount value.isSome
                    oldValue.isSome⟩,
                .ok (⟨version, ack.lsn, ack⟩, plan))

/-- The check of an unhooked write. -/
def noPreflight (_ : Option RawValue) (_ : DocumentVersion) : StoreResult Unit :=
  .ok ()

variable (s : MfsStore) (collection : String) (key : RawKey)

def putRaw (value : RawValue) (options : WriteOptions) : MfsStore × StoreResult WriteResult :=
  let (s, r) := writeWithHooks crc32c s collection key (some value) options noPreflight
  (s, r.map Prod.fst)

def deleteRaw (options : WriteOptions) : MfsStore × StoreResult WriteResult :=
  let (s, r) := writeWithHooks crc32c s collection key none options noPreflight
  (s, r.map Prod.fst)

end

variable (s : MfsStore) (collection : String)

/-- `get_raw`: a record without a value is not there. -/
def getRaw (key : RawKey) : StoreResult (Option ReadResult) := do
  let c ← s.rawCollection collection
  return (c.records.get key).bind fun r => r.value.map fun v => ⟨v, r.version⟩

def collectionCount : StoreResult Nat := do
  let c ← s.rawCollection collection
  return c.recordCount

-- ===== replay

section

/-- `insert_replay_record_locked`: the record is stored as it is, no
version is compared. -/
def insertReplayRecord (c : RawCollection) (collection : String)
    (key : RawKey) (value : Option RawValue) (version : DocumentVersion) :
    StoreResult RawCollection :=
  match c.records.insertReturningOld key ⟨value, version⟩ with
  | (_, .full, _) => .error (.collectionCapacityFull collection)
  | (records, _, old) =>
    .ok ⟨records, countAfter c.recordCount value.isSome (old.bind RawRecord.value).isSome⟩

variable (s : MfsStore) (collection : String)

/-- `apply_raw_replay_record` where no schema is declared. -/
def applyRawReplayRecord (key : RawKey) (value : Option RawValue) (version : DocumentVersion) :
    StoreResult MfsStore := do
  let c ← s.rawCollection collection
  let c ← insertReplayRecord c collection key value version
  return s.setCollection collection c

/-- `ensure_raw_collection`. -/
def ensureRawCollection : StoreResult MfsStore :=
  match createRawCollection hash s collection with
  | (s, .ok _) => .ok s
  | (s, .error (.collectionAlreadyExists _)) => .ok s
  | (s, .error (.collectionLimitExceeded max)) =>
    match s.rawCollection collection with
    | .ok _ => .ok s
    | .error _ => .error (.collectionLimitExceeded max)
  | (_, .error e) => .error e

/-- `apply_raw_record`. -/
def applyRawRecord (s : MfsStore) (r : RawWalRecord) : StoreResult MfsStore := do
  let s ← ensureRawCollection hash s r.collection
  match r.op, r.value with
  | .put, none => throw (Wal.corrupt r.lsn .malformedRecord)
  | .put, some v => applyRawReplayRecord s r.collection r.key (some v) r.version
  | .delete, _ => applyRawReplayRecord s r.collection r.key none r.version

variable (crc32c : List UInt8 → UInt32) (file : Option (List UInt8))

/-- `replay_raw_wal`. -/
def replayInto (s : MfsStore) : StoreResult (MfsStore × RawWalReplayStats) := do
  let (s, scan) ← Wal.scanRecordsWithOffsets crc32c (applyRawRecord hash) file s
  return (s, scan.stats)

/-- The callback of `replay_after`: only records above the LSN count. -/
def applyAfter (afterLsn : Lsn) (acc : MfsStore × RawWalReplayStats)
    (r : RawWalRecord) : StoreResult (MfsStore × RawWalReplayStats) :=
  if afterLsn < r.lsn then do
    let s ← applyRawRecord hash acc.1 r
    return (s, ⟨acc.2.records + 1, r.lsn⟩)
  else .ok acc

/-- `replay_raw_wal_after`. -/
def replayAfter (s : MfsStore) (afterLsn : Lsn) : StoreResult (MfsStore × RawWalReplayStats) := do
  let (acc, _) ← Wal.scanRecordsWithOffsets crc32c (applyAfter hash afterLsn) file (s, ⟨0, 0⟩)
  return acc

end

-- ===== snapshots

end MfsStore

structure RawSnapshotRecord where
  key : RawKey
  value : Option RawValue
  version : DocumentVersion
  deriving DecidableEq, Repr

structure RawCollectionSnapshot where
  name : String
  records : List RawSnapshotRecord
  deriving DecidableEq, Repr

structure RawStoreSnapshot where
  collections : List RawCollectionSnapshot
  deriving DecidableEq, Repr

namespace MfsStore

/-- `snapshot_records`: the table's entries in key order. -/
def snapshotRecords (c : RawCollection) : List RawSnapshotRecord :=
  (c.records.forEach.map fun e => ⟨e.1, e.2.value, e.2.version⟩).insertionSort
    fun a b => a.key ≤ b.key

/-- `raw_snapshot`: the collections in the byte order of their names. -/
def rawSnapshot (s : MfsStore) : RawStoreSnapshot :=
  ⟨(s.collections.entries.map fun e =>
      (⟨e.1, snapshotRecords e.2⟩ : RawCollectionSnapshot)).insertionSort
    fun a b => utf8 a.name ≤ utf8 b.name⟩

section

/-- The table of one collection of a snapshot, filled record by record,
with the number of live records among them. -/
def loadRecords (collection : String) :
    List RawSnapshotRecord → RawCollection → StoreResult RawCollection
  | [], c => .ok c
  | r :: rs, c =>
    match c.records.insert r.key ⟨r.value, r.version⟩ with
    | (_, .full) => .error (.collectionCapacityFull collection)
    | (records, _) => loadRecords collection rs
        ⟨records, c.recordCount + if r.value.isSome then 1 else 0⟩

/-- The capacity a collection of a snapshot is loaded with. -/
def snapshotCapacity (config : MfsStoreConfig) (c : RawCollectionSnapshot) : Nat :=
  max (max config.rawInitialCapacity (min (c.records.length * 2) Core.usizeMax)) 1

def loadCollections (config : MfsStoreConfig) :
    List RawCollectionSnapshot → (AList fun _ : String => RawCollection) →
      StoreResult (AList fun _ : String => RawCollection)
  | [], m => .ok m
  | c :: cs, m =>
    if c.name ∈ m then .error (.collectionAlreadyExists c.name)
    else do
      let loaded ← loadRecords c.name c.records (newCollection hash (snapshotCapacity config c))
      loadCollections config cs (m.insert c.name loaded)

/-- `from_raw_snapshot`, over the WAL file the configuration leads to. -/
def fromRawSnapshot (config : MfsStoreConfig) (snapshot : RawStoreSnapshot)
    (file : Option (List UInt8)) (synced : Nat) : StoreResult MfsStore := do
  validateStoreConfig config
  if config.maxCollections < snapshot.collections.length then
    throw (.collectionLimitExceeded config.maxCollections)
  else do
    let collections ← loadCollections hash config snapshot.collections ∅
    return ⟨config, collections, collections.entries.length + 1, none, false, file, synced⟩

end

end MfsStore

end MemoryFirst.Store
