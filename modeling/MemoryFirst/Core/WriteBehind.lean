/-
`mfs-core/src/writeback.rs`, executed by one thread: the write-behind
cache, its dirty queues and its flusher.

# What is modelled

Writes (`put`, `delete`, `load_clean` and their `try_`/`_arc`/pinned
forms are all `writeWithPin` at fixed arguments), reads with their
sampled touch, the drain loop, the flush with its requeue and cleanup
arms. The backend is whatever `Result` it returns for the batch handed
to it.

# What is idealised

The map is the finite map `ConcurrentMap` stands for (`MapRuns.lean`
says when it is one), so an insert never reports `Full`, and a dirty
queue is an unbounded FIFO, so `push_dirty_with_backoff` is a plain push
and the flusher wakeup is left out. The clock is a natural number: the
64-bit counter does not wrap within any run of a process. Eviction and
compaction are not part of this file.
-/
import MemoryFirst.Core.ConcurrentMap

namespace MemoryFirst.Core

open Function List

inductive Operation where
  | put
  | delete
  deriving DecidableEq, Repr

structure FlushRecord (K V : Type) where
  key : K
  value : Option V
  version : Nat
  op : Operation
  deriving DecidableEq, Repr

structure DirtyEntry (K : Type) where
  key : K
  version : Nat
  pushedAt : Nat
  op : Operation
  deriving DecidableEq, Repr

/-- The value stored in the map; `value = none` is a tombstone awaiting
its flush. -/
structure ValueRecord (V : Type) where
  value : Option V
  version : Nat
  lastTouch : Nat
  deriving DecidableEq, Repr

structure WriteBehindCache (K V : Type) where
  map : K → Option (ValueRecord V)
  dirtyShards : Nat → List (DirtyEntry K)
  shardCount : Nat
  clock : Nat
  hashBuilder : K → UInt64

/-- `SAMPLE_MASK`: reads of keys whose low hash bits are zero advance the
clock. -/
def SAMPLE_MASK : UInt64 := 63

namespace WriteBehindCache

variable {K V ε : Type}

/-- `with_hasher_and_config`; `shards` is `config.dirty_shards`. -/
def withHasherAndConfig (hashBuilder : K → UInt64) (shards : Nat) : WriteBehindCache K V :=
  { map := fun _ => none
    dirtyShards := fun _ => []
    shardCount := nextPowerOfTwo (max shards 1)
    clock := 1
    hashBuilder := hashBuilder }

variable (c : WriteBehindCache K V)

def dirtyShardIdx (key : K) : Nat :=
  (c.hashBuilder key).toNat &&& (c.shardCount - 1)

/-- `push_dirty_with_backoff`: to the tail of the shard's queue. -/
def pushDirty (shardIdx : Nat) (entry : DirtyEntry K) : WriteBehindCache K V :=
  { c with
    dirtyShards := update c.dirtyShards shardIdx
      (c.dirtyShards shardIdx ++ [entry]) }

/-- The cache once the shard's queue has been popped down to `rest`. -/
def setShard (shardIdx : Nat) (rest : List (DirtyEntry K)) : WriteBehindCache K V :=
  { c with dirtyShards := update c.dirtyShards shardIdx rest }

variable [DecidableEq K]

-- ===== writes

variable (c : WriteBehindCache K V) (key : K)

/-- `write_with_pin`: one clock tick is the version of the write. -/
def writeWithPin (value : Option V)
    (op : Operation) (queueDirty : Bool) : WriteBehindCache K V × Nat :=
  let tick := c.clock
  let version := tick
  let c := { c with
    clock := tick + 1
    map := update c.map key (some ⟨value, version, tick⟩) }
  let c := if queueDirty then
      c.pushDirty (c.dirtyShardIdx key) ⟨key, version, tick, op⟩
    else c
  (c, version)

def put (value : V) : WriteBehindCache K V × Nat :=
  c.writeWithPin key (some value) .put true

def loadClean (value : V) : WriteBehindCache K V × Nat :=
  c.writeWithPin key (some value) .put false

def delete : WriteBehindCache K V × Nat :=
  c.writeWithPin key none .delete true

-- ===== reads

/-- `record_touch`: a sampled read takes a tick and stores it. -/
def recordTouch (record : ValueRecord V) : WriteBehindCache K V :=
  if c.hashBuilder key &&& SAMPLE_MASK = 0 then
    { c with
      clock := c.clock + 1
      map := update c.map key
        (some { record with lastTouch := c.clock }) }
  else c

/-- `get`: a live value, with its touch. A tombstone is not touched. -/
def get : WriteBehindCache K V × Option V :=
  match c.map key with
  | none => (c, none)
  | some record =>
    match record.value with
    | none => (c, none)
    | some value => (c.recordTouch key record, some value)

-- ===== flush

/-- The running state of `drain_eligible_shards`. -/
structure Drain (K V : Type) where
  cache : WriteBehindCache K V
  records : List (FlushRecord K V)
  drained : List (Nat × DirtyEntry K)

/-- One popped entry: back to the tail while too young, into the batch
while the map still holds its version, dropped otherwise. -/
def drainEntry (now idleTicks shardIdx : Nat) (d : Drain K V) (entry : DirtyEntry K) : Drain K V :=
  if now - entry.pushedAt < idleTicks then
    { d with cache := d.cache.pushDirty shardIdx entry }
  else
    match d.cache.map entry.key with
    | some record =>
      if record.version = entry.version then
        { d with
          records := d.records ++
            [⟨entry.key, record.value, entry.version, entry.op⟩]
          drained := d.drained ++ [(shardIdx, entry)] }
      else d
    | none => d

/-- The inner loop, at most as many pops as the queue was long; `true`
when the batch is full and the outer loop breaks too. -/
def drainShard (now idleTicks maxRecords shardIdx : Nat) : Nat → Drain K V → Drain K V × Bool
  | 0, d => (d, false)
  | n + 1, d =>
    if maxRecords ≤ d.records.length then (d, true)
    else
      match d.cache.dirtyShards shardIdx with
      | [] => (d, false)
      | entry :: rest =>
        drainShard now idleTicks maxRecords shardIdx n (drainEntry now idleTicks shardIdx
            { d with cache := d.cache.setShard shardIdx rest } entry)

/-- The outer loop over the shards of the range. -/
def drainShards (now idleTicks maxRecords : Nat) : List Nat → Drain K V → Drain K V
  | [], d => d
  | shardIdx :: range, d =>
    match drainShard now idleTicks maxRecords shardIdx (d.cache.dirtyShards shardIdx).length d with
    | (d', true) => d'
    | (d', false) => drainShards now idleTicks maxRecords range d'

variable (c : WriteBehindCache K V)

def drainEligibleShards (range : List Nat) (idleTicks maxRecords : Nat) : Drain K V :=
  drainShards c.clock idleTicks maxRecords range ⟨c, [], []⟩

variable (drained : List (Nat × DirtyEntry K))

def requeue : WriteBehindCache K V :=
  drained.foldl (fun c p => c.pushDirty p.1 p.2) c

/-- The body of `cleanup_after_flush`: a delivered delete takes its own
tombstone out of the map. -/
def cleanupEntry (entry : DirtyEntry K) : WriteBehindCache K V :=
  if entry.op = .delete then
    match c.map entry.key with
    | some record =>
      if record.version = entry.version ∧ record.value = none then
        { c with map := update c.map entry.key none }
      else c
    | none => c
  else c

def cleanupAfterFlush : WriteBehindCache K V :=
  drained.foldl (fun c p => c.cleanupEntry p.2) c

/-- Drain, flush, clean up or requeue: the body `flush_idle` and
`flush_shard_idle` share. The middle component is the batch the backend
was handed, `none` when it was not called. -/
def flushRange (range : List Nat) (backend : List (FlushRecord K V) → Except ε Unit)
    (idleTicks maxRecords : Nat) :
    WriteBehindCache K V × Option (List (FlushRecord K V)) × Except ε Nat :=
  let d := c.drainEligibleShards range idleTicks maxRecords
  if d.records = [] then (d.cache, none, .ok 0)
  else
    match backend d.records with
    | .ok () =>
      (d.cache.cleanupAfterFlush d.drained, some d.records, .ok d.records.length)
    | .error e => (d.cache.requeue d.drained, some d.records, .error e)

def flushIdle (backend : List (FlushRecord K V) → Except ε Unit) (idleTicks maxRecords : Nat) :
    WriteBehindCache K V × Option (List (FlushRecord K V)) × Except ε Nat :=
  c.flushRange (List.range c.shardCount) backend idleTicks maxRecords

/-- `flush_shard_idle`; `none` is the failed assertion on the index. -/
def flushShardIdle (shardIdx : Nat) (backend : List (FlushRecord K V) → Except ε Unit)
    (idleTicks maxRecords : Nat) : Option (WriteBehindCache K V
      × Option (List (FlushRecord K V)) × Except ε Nat) :=
  if shardIdx < c.shardCount then
    some (c.flushRange [shardIdx] backend idleTicks maxRecords)
  else none

end WriteBehindCache

end MemoryFirst.Core
