/-
`mfs-compat/src/object_store.rs`: `MfsMutableObjectStore`, its values,
metadata and dirty queues, and its flush.

# Steps and calls

A write changes the value under the lock of the key's value shard and
then marks the key under the locks of its metadata and dirty shards:
`edited` and `markDirty` are these two steps. The calls of this file
execute them one after the other; `ObjectThreads.lean` lets calls
interleave between them. In the same way a flush is `drain`, the backend
and `finish`.

# What is idealised

Value and metadata shards are one finite map each, since a key's shard
only decides which lock guards it; the dirty shards are separate queues,
in the order in which the flush drains them. The clocks are natural
numbers: the 64-bit counters do not wrap within any run of a process.
`expire` visits the keys in the order of the hash maps' iterators, which
is a parameter.
-/
import Mathlib.Data.List.AList
import Mathlib.Data.List.Sort
import MemoryFirst.Compat.ObjectCommands
import MemoryFirst.Store.Types

namespace MemoryFirst.Compat

open Lib Store Core

def DEFAULT_MUTATION_LOCKS : Nat := 1024

structure MutableObjectMeta where
  version : Nat
  lastTouch : Nat
  expiresAt : Nat
  ttiTicks : Nat
  tombstone : Bool
  deriving DecidableEq, Repr

/-- `MutableObjectExpiryMeta`: the metadata of a value. -/
structure MutableObjectExpiryMeta where
  version : Nat
  lastTouch : Nat
  expiresAt : Nat
  ttiTicks : Nat
  deriving DecidableEq, Repr

structure MfsMutableObjectStore where
  shards : AList fun _ : Key => MutableObjectValue
  metadataShards : AList fun _ : Key => MutableObjectMeta
  dirtyShards : Nat → List (DirtyEntry Key)
  clock : Nat
  writeClock : Nat
  hashBuilder : Key → UInt64

/-- A record handed to a flush backend. -/
abbrev ObjectFlushRecord := FlushRecord Key MfsValue

/-- An order in which the iterators visit keys. -/
structure VisitOrder where
  visit : List Key → List Key
  perm : ∀ keys, (visit keys).Perm keys

namespace MfsMutableObjectStore

/-- The number of shards, of each kind. -/
def shardCount : Nat := nextPowerOfTwo DEFAULT_MUTATION_LOCKS

def withHasher (hashBuilder : Key → UInt64) : MfsMutableObjectStore where
  shards := ∅
  metadataShards := ∅
  dirtyShards := fun _ => []
  clock := 1
  writeClock := 0
  hashBuilder := hashBuilder

variable (s : MfsMutableObjectStore)

def shardIdx (key : Key) : Nat :=
  (s.hashBuilder key).toNat &&& (shardCount - 1)

def value? (key : Key) : Option MutableObjectValue :=
  s.shards.lookup key

def currentMeta (key : Key) : Option MutableObjectMeta :=
  s.metadataShards.lookup key

/-- All queued entries, shard after shard. -/
def pending : List (DirtyEntry Key) :=
  (List.range shardCount).flatMap s.dirtyShards

-- ===== marking

def setQueue (idx : Nat) (queue : List (DirtyEntry Key)) : MfsMutableObjectStore :=
  { s with dirtyShards := Function.update s.dirtyShards idx queue }

/-- To the back of the queue of the key's shard. -/
def pushDirty (entry : DirtyEntry Key) : MfsMutableObjectStore :=
  let idx := s.shardIdx entry.key
  s.setQueue idx (s.dirtyShards idx ++ [entry])

/-- `advance_clock_past`. -/
def advanceClockPast (version : Nat) : MfsMutableObjectStore :=
  { s with clock := max s.clock (min (version + 1) u64Max) }

def advanceWriteClock (version : Nat) : MfsMutableObjectStore :=
  { s with writeClock := max s.writeClock version }

variable (key : Key)

def setMeta (m : MutableObjectMeta) : MfsMutableObjectStore :=
  { s with metadataShards := s.metadataShards.insert key m }

/-- `mark_dirty_with_expiry`, with the version it is given. -/
def markDirtyWithExpiry (version : Nat) (op : Operation) (expiresAt ttiTicks : Nat) :
    MfsMutableObjectStore :=
  let s := s.setMeta key ⟨version, version, expiresAt, ttiTicks,
    decide (op = .delete)⟩
  (s.pushDirty ⟨key, version, version, op⟩).advanceWriteClock version

/-- `mark_dirty_put_with_expiry`, `mark_dirty_put` where both limits are
zero, and `mark_dirty_delete`: the version is one tick of the clock. -/
def markDirty (op : Operation) (ttlTicks ttiTicks : Nat) : MfsMutableObjectStore × Nat :=
  let version := s.clock
  let expiresAt := if ttlTicks = 0 then 0 else min (version + ttlTicks) u64Max
  ({ s with clock := version + 1 }.markDirtyWithExpiry key version op expiresAt ttiTicks, version)

def markDirtyDelete : MfsMutableObjectStore × Nat :=
  s.markDirty key .delete 0 0

def markCleanDelete : MfsMutableObjectStore :=
  { s with metadataShards := s.metadataShards.erase key }

def removeValue : MfsMutableObjectStore :=
  { s with shards := s.shards.erase key }

def insertValue (value : MutableObjectValue) : MfsMutableObjectStore :=
  { s with shards := s.shards.insert key value }

-- ===== expiry

def isExpired (m : MutableObjectMeta) (now : Nat) : Bool :=
  decide (m.expiresAt ≠ 0 ∧ m.expiresAt ≤ now ∨ m.ttiTicks ≠ 0 ∧ m.ttiTicks ≤ now - m.lastTouch)

def expireKeyIfNeeded (key : Key) : MfsMutableObjectStore × Bool :=
  match s.currentMeta key with
  | none => (s, false)
  | some m =>
    if m.tombstone ∨ ¬ isExpired m s.clock then (s, false)
    else (((s.removeValue key).markDirtyDelete key).1, true)

/-- `expire`: the keys that are expired now, one after the other. -/
def expire (order : VisitOrder) : MfsMutableObjectStore × Nat :=
  let keys := order.visit (s.metadataShards.keys.filter fun key =>
    (s.currentMeta key).any fun m => !m.tombstone && isExpired m s.clock)
  keys.foldl (fun (s, expired) key =>
    let (s, b) := s.expireKeyIfNeeded key
    (s, if b then expired + 1 else expired)) (s, 0)

def recordTouch (key : Key) : MfsMutableObjectStore :=
  let tick := s.clock
  let s := { s with clock := tick + 1 }
  match s.currentMeta key with
  | none => s
  | some m => s.setMeta key { m with lastTouch := tick }

/-- `expiry_meta`. -/
def expiryMeta (key : Key) : Option MutableObjectExpiryMeta :=
  match s.currentMeta key with
  | none => none
  | some m =>
    if m.tombstone then none
    else some ⟨m.version, m.lastTouch, m.expiresAt, m.ttiTicks⟩

-- ===== calls

/-- The value shard after a change. -/
def edited (key : Key) : Change → MfsMutableObjectStore
  | .keep _ => s
  | .store value _ => s.insertValue key value
  | .remove _ => s.removeValue key

/-- The expiry step of an edit. -/
def beforeEdit (edit : Edit) : MfsMutableObjectStore :=
  if edit.expiresFirst then (s.expireKeyIfNeeded edit.key).1 else s

/-- A writing command: expire, change the value, mark. -/
def write (edit : Edit) : MfsMutableObjectStore × Except ObjectStoreError ObjectReply :=
  let s := s.beforeEdit edit
  match edit.change (s.value? edit.key) with
  | .error e => (s, .error e)
  | .ok (.keep reply) => (s, .ok reply)
  | .ok (.store value reply) =>
    let (s, version) := (s.insertValue edit.key value).markDirty edit.key
      .put edit.ttlTicks edit.ttiTicks
    (s, .ok (reply version))
  | .ok (.remove reply) =>
    let (s, version) := (s.removeValue edit.key).markDirtyDelete edit.key
    (s, .ok (reply version))

/-- A reading command: expire, look, and touch what was found. -/
def read (look : Look) : MfsMutableObjectStore × Except ObjectStoreError ObjectReply :=
  match s.expireKeyIfNeeded look.key with
  | (s, true) => (s, .ok look.expired)
  | (s, false) =>
    let value := s.value? look.key
    (if look.touches ∧ value.isSome then s.recordTouch look.key else s, look.observe value)

def request : Request → MfsMutableObjectStore × Except ObjectStoreError ObjectReply
  | .done reply => (s, reply)
  | .write edit => s.write edit
  | .read look => s.read look

-- ===== flush

/-- `drain_dirty`, from the shards that are left: the oldest entries of
each until there are enough. -/
def drainShards (maxRecords : Nat) : List Nat → MfsMutableObjectStore → List (DirtyEntry Key) →
      MfsMutableObjectStore × List (DirtyEntry Key)
  | [], s, drained => (s, drained)
  | idx :: range, s, drained =>
    let room := maxRecords - drained.length
    let queue := s.dirtyShards idx
    let s := s.setQueue idx (queue.drop room)
    let drained := drained ++ queue.take room
    if drained.length = maxRecords then (s, drained)
    else drainShards maxRecords range s drained

def drainDirty (maxRecords : Nat) : MfsMutableObjectStore × List (DirtyEntry Key) :=
  if maxRecords = 0 then (s, [])
  else drainShards maxRecords (List.range shardCount) s []

/-- What a flush does with an entry it drained. -/
inductive Disposition where
  | drop
  | defer
  | flush (record : ObjectFlushRecord)
  deriving DecidableEq

/-- The body of the loop over the drained entries. No writer is between
its steps then, so the metadata that is read a second time to confirm a
put are the ones read before. -/
def dispose (idleTicks : Nat) (entry : DirtyEntry Key) : Disposition :=
  match s.currentMeta entry.key with
  | none => .drop
  | some m =>
    if m.version ≠ entry.version then .drop
    else if s.clock - max m.lastTouch entry.pushedAt < idleTicks then
      .defer
    else
      match entry.op with
      | .put =>
        if m.tombstone then .drop
        else
          match s.value? entry.key with
          | none => .drop
          | some value => .flush ⟨entry.key, some value.toMfsValue, entry.version, .put⟩
      | .delete =>
        if m.tombstone then
          .flush ⟨entry.key, none, entry.version, .delete⟩
        else .drop

/-- The three lists a flush sorts its entries into. -/
structure Batch where
  records : List ObjectFlushRecord
  flushed : List (DirtyEntry Key)
  deferred : List (DirtyEntry Key)
  deriving DecidableEq

def Batch.add (idleTicks : Nat) (b : Batch) (entry : DirtyEntry Key) : Batch :=
  match s.dispose idleTicks entry with
  | .drop => b
  | .defer => { b with deferred := b.deferred ++ [entry] }
  | .flush record =>
    { b with
      records := b.records ++ [record], flushed := b.flushed ++ [entry] }

/-- The first part of `flush_idle`, under the lifecycle lock. -/
def drain (idleTicks maxRecords : Nat) : MfsMutableObjectStore × Batch :=
  let (s, drained) := s.drainDirty maxRecords
  (s, drained.foldl (Batch.add s idleTicks) ⟨[], [], []⟩)

variable (entries : List (DirtyEntry Key))

def requeueDirty : MfsMutableObjectStore :=
  entries.foldl pushDirty s

/-- The body of `cleanup_after_flush`: a delivered delete takes its
tombstone out. -/
def cleanupEntry (entry : DirtyEntry Key) : MfsMutableObjectStore :=
  if entry.op ≠ .delete then s
  else
    match s.currentMeta entry.key with
    | none => s
    | some m =>
      if m.version ≠ entry.version ∨ ¬ m.tombstone then s
      else (s.removeValue entry.key).markCleanDelete entry.key

def cleanupAfterFlush : MfsMutableObjectStore :=
  entries.foldl cleanupEntry s

/-- The last part of `flush_idle`, by what the backend answered. Without
records the backend was not called. -/
def finish (batch : Batch) (accepted : Bool) : MfsMutableObjectStore :=
  if accepted then
    (s.cleanupAfterFlush batch.flushed).requeueDirty batch.deferred
  else s.requeueDirty (batch.flushed ++ batch.deferred)

/-- `flush_idle`. The middle component is the batch the backend was
handed, `none` when it was not called. -/
def flushIdle {ε : Type} (s : MfsMutableObjectStore)
    (backend : List ObjectFlushRecord → Except ε Unit)
    (idleTicks maxRecords : Nat) :
    MfsMutableObjectStore × Option (List ObjectFlushRecord) × Except ε Nat :=
  let (s, batch) := s.drain idleTicks maxRecords
  if batch.records = [] then (s.requeueDirty batch.deferred, none, .ok 0)
  else
    match backend batch.records with
    | .ok () => (s.finish batch true, some batch.records, .ok batch.records.length)
    | .error e => (s.finish batch false, some batch.records, .error e)

-- ===== snapshots and loading

/-- `snapshot_records`: the live values, by key. -/
def snapshotRecords : List ObjectFlushRecord :=
  let records := s.shards.entries.filterMap fun e =>
    match s.currentMeta e.1 with
    | none => none
    | some m =>
      if m.tombstone ∨ isExpired m s.clock then none
      else some (⟨e.1, some e.2.toMfsValue, m.version, .put⟩ : ObjectFlushRecord)
  records.insertionSort fun a b => a.key ≤ b.key

def durableHighWaterMark : Nat := s.writeClock

/-- `try_load_clean_with_expiry_meta`; a value that does not validate is
not loaded. -/
def tryLoadCleanWithExpiryMeta (key : Key) (value : MfsValue) (m : MutableObjectExpiryMeta) :
    MfsMutableObjectStore × Except ObjectStoreError Nat :=
  match MutableObjectValue.fromMfsValue value with
  | .error e => (s, .error e)
  | .ok value =>
    let s := (s.insertValue key value).setMeta key
      ⟨m.version, m.lastTouch, m.expiresAt, m.ttiTicks, false⟩
    ((s.advanceClockPast (max m.version m.lastTouch)).advanceWriteClock m.version, .ok m.version)

def tryLoadCleanVersioned (key : Key) (value : MfsValue) (version : Nat) :
    MfsMutableObjectStore × Except ObjectStoreError Nat :=
  s.tryLoadCleanWithExpiryMeta key value ⟨version, version, 0, 0⟩

def loadCleanDeleteVersioned (key : Key) (version : Nat) : MfsMutableObjectStore :=
  let s := (s.removeValue key).markCleanDelete key
  (s.advanceClockPast version).advanceWriteClock version

end MfsMutableObjectStore

end MemoryFirst.Compat
