/-
`mfs-core/src/writeback.rs` with any number of threads: writers and
flushers of one `WriteBehindCache`, one shared access at a time.

# Atomic steps

A write takes a clock tick, inserts its record into the map and pushes
its entry onto a dirty queue: `WriterPc`. A flush loads the clock, then
per shard the queue length and one popped entry after another, looks
each entry's record up, calls the backend and cleans up or requeues:
`FlusherPc`. Every access to the clock, the map or a queue is one step;
what a thread does between two of them is local and happens with the
first. The action lists are exactly the sequentially consistent
interleavings; a thread that makes several calls is several of the
processes here.

# What is idealised

As in `WriteBehind.lean` the map is the finite map `ConcurrentMap`
stands for, with atomic operations; an insert may answer `Full`, at any
time. The clock is a natural number. A queue is a FIFO with the source's
capacity: a push to a full one spins, which here is a step that changes
nothing. The wakeup of the flusher thread is left out, and so are reads,
which change neither records nor queues.

# Histories

`landed` is the list of the writes whose record went into the map, and
`accepted` that of the records of the batches the backend accepted.
-/
import MemoryFirst.Core.WriteBehind

namespace MemoryFirst.Core

inductive WriteBehindError where
  | capacityFull
  deriving DecidableEq, Repr

namespace WriteBehindCache

variable {K V ε : Type}

-- ===== writers

/-- The points of `write_with_pin`, each named for the access that comes
next. -/
inductive WriterPc
  | tick
  | insert (version : Nat)
  | push (version : Nat)
  | done (result : Except WriteBehindError Nat)

structure Writer (K V : Type) where
  key : K
  value : Option V
  op : Operation
  queueDirty : Bool
  pc : WriterPc

/-- A write whose record went into the map. -/
structure Landed (K V : Type) where
  key : K
  value : Option V
  version : Nat
  op : Operation
  queueDirty : Bool
  deriving DecidableEq

def putCall (key : K) (value : V) : Writer K V :=
  ⟨key, some value, .put, true, .tick⟩

def loadCleanCall (key : K) (value : V) : Writer K V :=
  ⟨key, some value, .put, false, .tick⟩

def deleteCall (key : K) : Writer K V :=
  ⟨key, none, .delete, true, .tick⟩

-- ===== flushers

/-- The points of `flush_idle` and `flush_shard_idle`. `range` are the
shards still to come, `left` the pops still allowed at this one. -/
inductive FlusherPc (K ε : Type)
  | clock (range : List Nat)
  | snapshot (shardIdx : Nat) (range : List Nat)
  | pop (shardIdx left : Nat) (range : List Nat)
  | pushYoung (shardIdx left : Nat) (range : List Nat) (entry : DirtyEntry K)
  | lookup (shardIdx left : Nat) (range : List Nat) (entry : DirtyEntry K)
  | flush
  | cleanup (entry : DirtyEntry K) (rest : List (Nat × DirtyEntry K))
  | remove (entry : DirtyEntry K) (rest : List (Nat × DirtyEntry K))
  | requeue (shardIdx : Nat) (entry : DirtyEntry K) (rest : List (Nat × DirtyEntry K)) (error : ε)
  | done (result : Except ε Nat)

structure Flusher (K V ε : Type) where
  idleTicks : Nat
  maxRecords : Nat
  now : Nat
  records : List (FlushRecord K V)
  drained : List (Nat × DirtyEntry K)
  pc : FlusherPc K ε

variable (records : List (FlushRecord K V))

/-- The end of the drain: nothing to flush, or the backend's turn. -/
def finishDrain : FlusherPc K ε :=
  match records with
  | [] => .done (.ok 0)
  | _ :: _ => .flush

/-- The head of the loop over the shards. -/
def nextShard : List Nat → FlusherPc K ε
  | [] => finishDrain records
  | shardIdx :: range => .snapshot shardIdx range

/-- The head of the loop over one shard's queue. -/
def nextPop (maxRecords shardIdx left : Nat) (range : List Nat)
    (records : List (FlushRecord K V)) : FlusherPc K ε :=
  match left with
  | 0 => nextShard records range
  | left + 1 =>
    if maxRecords ≤ records.length then finishDrain records
    else .pop shardIdx left range

/-- The head of the cleanup loop: only deletes read the map. -/
def nextCleanup (flushed : Nat) : List (Nat × DirtyEntry K) → FlusherPc K ε
  | [] => .done (.ok flushed)
  | (_, entry) :: rest =>
    if entry.op = .delete then .cleanup entry rest
    else nextCleanup flushed rest

/-- The head of the requeue loop. -/
def nextRequeue (error : ε) : List (Nat × DirtyEntry K) → FlusherPc K ε
  | [] => .done (.error error)
  | (shardIdx, entry) :: rest => .requeue shardIdx entry rest error

/-- A flush call over the shards `range`. -/
def flushCall (range : List Nat) (idleTicks maxRecords : Nat) : Flusher K V ε :=
  ⟨idleTicks, maxRecords, 0, [], [], .clock range⟩

-- ===== the world

structure World (K V ε : Type) where
  cache : WriteBehindCache K V
  queueCapacity : Nat
  writers : List (Writer K V)
  flushers : List (Flusher K V ε)
  landed : List (Landed K V)
  accepted : List (FlushRecord K V)

/-- A push goes through unless the queue is full. -/
def tryPush (c : WriteBehindCache K V) (capacity shardIdx : Nat)
    (entry : DirtyEntry K) : Option (WriteBehindCache K V) :=
  if (c.dirtyShards shardIdx).length < capacity then
    some (c.pushDirty shardIdx entry)
  else none

variable [DecidableEq K] (c : WriteBehindCache K V) (capacity : Nat)

/-- One access of a write; `full` is the map's answer to an insert. -/
def writerStep (writer : Writer K V) (full : Bool) :
    WriteBehindCache K V × WriterPc × List (Landed K V) :=
  match writer.pc with
  | .tick => ({ c with clock := c.clock + 1 }, .insert c.clock, [])
  | .insert version =>
    if full then (c, .done (.error .capacityFull), [])
    else
      ({ c with
          map := Function.update c.map writer.key
            (some ⟨writer.value, version, version⟩) },
        if writer.queueDirty then .push version else .done (.ok version),
        [⟨writer.key, writer.value, version, writer.op, writer.queueDirty⟩])
  | .push version =>
    match tryPush c capacity (c.dirtyShardIdx writer.key)
        ⟨writer.key, version, version, writer.op⟩ with
    | some c' => (c', .done (.ok version), [])
    | none => (c, .push version, [])
  | .done result => (c, .done result, [])

/-- One access of a flush; `backend` is the backend's answer to the
batch. The last component are the records it accepted. -/
def flusherStep (f : Flusher K V ε) (backend : Except ε Unit) :
    WriteBehindCache K V × Flusher K V ε × List (FlushRecord K V) :=
  match f.pc with
  | .clock range => (c, { f with now := c.clock, pc := nextShard f.records range }, [])
  | .snapshot shardIdx range =>
    (c, { f with
      pc := nextPop f.maxRecords shardIdx
        (c.dirtyShards shardIdx).length range f.records }, [])
  | .pop shardIdx left range =>
    match c.dirtyShards shardIdx with
    | [] => (c, { f with pc := nextShard f.records range }, [])
    | entry :: rest =>
      (c.setShard shardIdx rest,
        { f with
          pc := if f.now - entry.pushedAt < f.idleTicks then
              .pushYoung shardIdx left range entry
            else .lookup shardIdx left range entry }, [])
  | .pushYoung shardIdx left range entry =>
    match tryPush c capacity shardIdx entry with
    | some c' =>
      (c', { f with
        pc := nextPop f.maxRecords shardIdx left range f.records }, [])
    | none => (c, f, [])
  | .lookup shardIdx left range entry =>
    let stale : Flusher K V ε :=
      { f with pc := nextPop f.maxRecords shardIdx left range f.records }
    match c.map entry.key with
    | some record =>
      if record.version = entry.version then
        let records := f.records ++ [⟨entry.key, record.value, entry.version, entry.op⟩]
        (c, { f with
          records := records
          drained := f.drained ++ [(shardIdx, entry)]
          pc := nextPop f.maxRecords shardIdx left range records }, [])
      else (c, stale, [])
    | none => (c, stale, [])
  | .flush =>
    match backend with
    | .ok () => (c, { f with pc := nextCleanup f.records.length f.drained }, f.records)
    | .error e => (c, { f with pc := nextRequeue e f.drained }, [])
  | .cleanup entry rest =>
    let next : FlusherPc K ε := nextCleanup f.records.length rest
    match c.map entry.key with
    | some record =>
      if record.version = entry.version ∧ record.value.isNone then
        (c, { f with pc := .remove entry rest }, [])
      else (c, { f with pc := next }, [])
    | none => (c, { f with pc := next }, [])
  | .remove entry rest =>
    ({ c with map := Function.update c.map entry.key none },
      { f with pc := nextCleanup f.records.length rest }, [])
  | .requeue shardIdx entry rest e =>
    match tryPush c capacity shardIdx entry with
    | some c' => (c', { f with pc := nextRequeue e rest }, [])
    | none => (c, f, [])
  | .done _ => (c, f, [])

inductive Action (K V ε : Type)
  | put (key : K) (value : V)
  | loadClean (key : K) (value : V)
  | delete (key : K)
  | flushIdle (idleTicks maxRecords : Nat)
  | flushShardIdle (shardIdx idleTicks maxRecords : Nat)
  | writer (p : Nat) (full : Bool)
  | flusher (p : Nat) (backend : Except ε Unit)

/-- One step of the world: a call begins, or one of those under way takes
its next access. A shard index out of range panics, so that the call
never begins. -/
def worldStep (w : World K V ε) : Action K V ε → World K V ε × Unit
  | .put key value => ({ w with writers := w.writers ++ [putCall key value] }, ())
  | .loadClean key value =>
    ({ w with writers := w.writers ++ [loadCleanCall key value] }, ())
  | .delete key => ({ w with writers := w.writers ++ [deleteCall key] }, ())
  | .flushIdle idleTicks maxRecords =>
    ({ w with
      flushers := w.flushers ++
        [flushCall (List.range w.cache.shardCount) idleTicks maxRecords] },
      ())
  | .flushShardIdle shardIdx idleTicks maxRecords =>
    if shardIdx < w.cache.shardCount then
      ({ w with
        flushers := w.flushers ++
          [flushCall [shardIdx] idleTicks maxRecords] }, ())
    else (w, ())
  | .writer p full =>
    match w.writers[p]? with
    | none => (w, ())
    | some writer =>
      let (c, pc, landed) := writerStep w.cache w.queueCapacity writer full
      ({ w with
        cache := c
        writers := w.writers.set p { writer with pc := pc }
        landed := w.landed ++ landed }, ())
  | .flusher p backend =>
    match w.flushers[p]? with
    | none => (w, ())
    | some f =>
      let (c, f', accepted) := flusherStep w.cache w.queueCapacity f backend
      ({ w with
        cache := c
        flushers := w.flushers.set p f'
        accepted := w.accepted ++ accepted }, ())

/-- A cache nobody has used yet; `queueCapacity` is
`config.dirty_queue_capacity`. -/
def fresh (hashBuilder : K → UInt64) (shards queueCapacity : Nat) : World K V ε :=
  { cache := withHasherAndConfig hashBuilder shards
    queueCapacity := max queueCapacity 64
    writers := []
    flushers := []
    landed := []
    accepted := [] }

end WriteBehindCache

end MemoryFirst.Core
