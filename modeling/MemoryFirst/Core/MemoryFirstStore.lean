/-
`MemoryFirstStore` of `mfs-core/src/lib.rs`: slots with a version and a
dirty flag, and flushers that collect a batch of dirty slots, hand it to a
backend and then mark it flushed, which evicts the slots or makes them
clean.

# Steps

A call of `put`, `load_clean` or `delete` is one step. A `flush_idle` is
three, `collect_idle_dirty`, `flush` of the backend and
`mark_flushed_and_evict`, and any number of flushers can be between them,
each with its batch. `get` and `peek` hand out a clone of a value's `Arc`,
which its holder drops some time later; a backend that keeps clones is
such a holder too.

# What is idealised

The sharded tables are one finite map `slots`. A table is iterated in an
order the hash table does not specify: the order is an argument of
`collectIdleDirty`, any list of keys without repetition (`Iteration`).
Versions and the clock are natural numbers.

# Numbers of writes

Every write takes a clock tick of its own, `write` in its slot and in the
records collected from it. The code has no such field. For a put it names
the allocation of the value's `Arc`, whose strong count the flush reads;
beyond that it only tells writes apart in the histories.
-/
import MemoryFirst.Core.WriteBehind

namespace MemoryFirst.Core

open Function List

structure Slot (V : Type) where
  value : Option V
  version : Nat
  lastTouch : Nat
  dirty : Bool
  deleted : Bool
  write : Nat
  deriving DecidableEq, Repr

structure MemoryFirstStore (K V : Type) where
  slots : K → Option (Slot V)
  clock : Nat
  hashBuilder : K → UInt64

namespace Slot

variable {V : Type}

def put (value : V) (version tick : Nat) (dirty : Bool) : Slot V :=
  { value := some value
    version := version
    lastTouch := tick
    dirty := dirty
    deleted := false
    write := tick }

def delete (version tick : Nat) : Slot V :=
  { value := none
    version := version
    lastTouch := tick
    dirty := true
    deleted := true
    write := tick }

end Slot

namespace MemoryFirstStore

variable {K V ε : Type}

/-- A flush record with the write it was collected from. -/
structure Batched (K V : Type) where
  record : FlushRecord K V
  write : Nat
  deriving DecidableEq, Repr

/-- The order in which the tables are iterated. -/
structure Iteration (K : Type) where
  keys : List K
  nodup : keys.Nodup

/-- The iteration of a store with one key. -/
def Iteration.single (key : K) : Iteration K :=
  ⟨[key], List.pairwise_singleton _ _⟩

variable (hashBuilder : K → UInt64)

/-- `with_hasher_and_config`. -/
def withHasherAndConfig : MemoryFirstStore K V :=
  { slots := fun _ => none
    clock := 1
    hashBuilder := hashBuilder }

variable [DecidableEq K]

-- ===== writes

variable (s : MemoryFirstStore K V) (key : K)

def insertWith (buildSlot : Nat → Nat → Slot V) : MemoryFirstStore K V × Nat :=
  let tick := s.clock
  let nextVersion := match s.slots key with
    | some existing => existing.version + 1
    | none => 1
  ({ s with
      clock := tick + 1
      slots := update s.slots key
        (some (buildSlot nextVersion tick)) }, nextVersion)

def put (value : V) : MemoryFirstStore K V × Nat :=
  s.insertWith key fun version tick => Slot.put value version tick true

def loadClean (value : V) : MemoryFirstStore K V × Nat :=
  s.insertWith key fun version tick => Slot.put value version tick false

def delete : MemoryFirstStore K V × Nat :=
  s.insertWith key fun version tick => Slot.delete version tick

-- ===== reads

/-- `record_touch`: a sampled read takes a tick and stores it. -/
def recordTouch (slot : Slot V) : MemoryFirstStore K V :=
  if s.hashBuilder key &&& SAMPLE_MASK = 0 then
    { s with
      clock := s.clock + 1
      slots := update s.slots key
        (some { slot with lastTouch := s.clock }) }
  else s

/-- `peek`; the second component is the cloned `Arc`. -/
def peek : Option V × Option Nat :=
  match s.slots key with
  | none => (none, none)
  | some slot =>
    if slot.deleted then (none, none)
    else (slot.value, slot.value.map fun _ => slot.write)

def get : MemoryFirstStore K V × Option V × Option Nat :=
  match s.slots key with
  | none => (s, none, none)
  | some slot =>
    if slot.deleted then (s, none, none)
    else (s.recordTouch key slot, slot.value, slot.value.map fun _ => slot.write)

-- ===== flush

/-- The record collected from a slot. -/
def Batched.ofSlot (key : K) (slot : Slot V) : Batched K V :=
  { record := ⟨key, slot.value, slot.version,
      if slot.deleted then .delete else .put⟩
    write := slot.write }

/-- The loop of `collect_idle_dirty`; `strongCount` is `Arc::strong_count`
of the value of a slot. -/
def collectLoop (s : MemoryFirstStore K V) (strongCount : Slot V → Nat)
    (idleTicks maxRecords : Nat) :
    List K → List (Batched K V) → List (Batched K V)
  | [], records => records
  | key :: keys, records =>
    if maxRecords ≤ records.length then records
    else
      match s.slots key with
      | none => collectLoop s strongCount idleTicks maxRecords keys records
      | some slot =>
        if slot.dirty = false ∨ s.clock - slot.lastTouch < idleTicks
            ∨ (slot.value.isSome ∧ strongCount slot ≠ 1) then
          collectLoop s strongCount idleTicks maxRecords keys records
        else
          collectLoop s strongCount idleTicks maxRecords keys (records ++ [Batched.ofSlot key slot])

def collectIdleDirty (s : MemoryFirstStore K V) (strongCount : Slot V → Nat) (order : Iteration K)
    (idleTicks maxRecords : Nat) : List (Batched K V) :=
  collectLoop s strongCount idleTicks maxRecords order.keys []

/-- One record of `mark_flushed_and_evict`. -/
def markRecord (strongCount : Slot V → Nat) (s : MemoryFirstStore K V × Nat) (b : Batched K V) :
    MemoryFirstStore K V × Nat :=
  match s.1.slots b.record.key with
  | none => s
  | some slot =>
    if slot.version ≠ b.record.version then s
    else if (slot.value.isSome ∧ b.record.op = .put ∧ strongCount slot ≤ 2)
        ∨ (slot.value.isNone ∧ b.record.op = .delete) then
      ({ s.1 with
          slots := update s.1.slots b.record.key none }, s.2 + 1)
    else
      ({ s.1 with
          slots := update s.1.slots b.record.key
            (some { slot with dirty := false }) }, s.2)

def markFlushedAndEvict (s : MemoryFirstStore K V)
    (strongCount : Slot V → Nat) (records : List (Batched K V)) :
    MemoryFirstStore K V × Nat :=
  records.foldl (markRecord strongCount) (s, 0)

-- ===== the world

/-- The points of `flush_idle` after its batch was collected. -/
inductive FlusherPc (ε : Type)
  | flush
  | mark
  | done (result : Except ε Nat)

structure Flusher (K V ε : Type) where
  records : List (Batched K V)
  pc : FlusherPc ε

/-- The records a flusher holds. -/
def Flusher.held (f : Flusher K V ε) : List (Batched K V) :=
  match f.pc with
  | .done _ => []
  | _ => f.records

/-- A write, as the histories keep it. -/
structure Write (K V : Type) where
  key : K
  value : Option V
  dirty : Bool
  write : Nat
  deriving DecidableEq, Repr

structure World (K V ε : Type) where
  store : MemoryFirstStore K V
  readers : List Nat
  flushers : List (Flusher K V ε)
  writes : List (Write K V)
  accepted : List (Batched K V)

variable (w : World K V ε)

omit [DecidableEq K] in
/-- `Arc::strong_count` of the value of a slot: the slot's own, one per
collected record of it, and one per clone handed out. -/
def World.strongCount (slot : Slot V) : Nat :=
  1 + (w.flushers.flatMap Flusher.held).countP (fun b => decide (b.write = slot.write))
    + w.readers.count slot.write

inductive Action (K V ε : Type)
  | put (key : K) (value : V)
  | loadClean (key : K) (value : V)
  | delete (key : K)
  | get (key : K)
  | peek (key : K)
  | drop (write : Nat)
  | collect (order : Iteration K) (idleTicks maxRecords : Nat)
  | flush (p : Nat) (backend : Except ε Unit)
  | mark (p : Nat)

/-- The world after a write. -/
def World.wrote (s : MemoryFirstStore K V) (key : K)
    (value : Option V) (dirty : Bool) : World K V ε :=
  { w with
    store := s
    writes := w.writes ++ [⟨key, value, dirty, w.store.clock⟩] }

def worldStep : Action K V ε → World K V ε × Unit
  | .put key value => (w.wrote (w.store.put key value).1 key (some value) true, ())
  | .loadClean key value =>
    (w.wrote (w.store.loadClean key value).1 key (some value) false, ())
  | .delete key => (w.wrote (w.store.delete key).1 key none true, ())
  | .get key =>
    let (s, _, arc) := w.store.get key
    ({ w with store := s, readers := arc.toList ++ w.readers }, ())
  | .peek key => ({ w with readers := (w.store.peek key).2.toList ++ w.readers }, ())
  | .drop write => ({ w with readers := w.readers.erase write }, ())
  | .collect order idleTicks maxRecords =>
    let records := w.store.collectIdleDirty w.strongCount order idleTicks maxRecords
    ({ w with
      flushers := w.flushers ++
        [⟨records, if records.isEmpty then .done (.ok 0) else .flush⟩] },
      ())
  | .flush p backend =>
    match w.flushers[p]? with
    | some ⟨records, .flush⟩ =>
      match backend with
      | .ok () =>
        ({ w with
          flushers := w.flushers.set p ⟨records, .mark⟩
          accepted := w.accepted ++ records }, ())
      | .error e =>
        ({ w with
          flushers := w.flushers.set p ⟨records, .done (.error e)⟩ },
          ())
    | _ => (w, ())
  | .mark p =>
    match w.flushers[p]? with
    | some ⟨records, .mark⟩ =>
      let (s, evicted) := w.store.markFlushedAndEvict w.strongCount records
      ({ w with
        store := s
        flushers := w.flushers.set p ⟨records, .done (.ok evicted)⟩ },
        ())
    | _ => (w, ())

/-- A store nobody has used yet. -/
def fresh : World K V ε :=
  { store := withHasherAndConfig hashBuilder
    readers := []
    flushers := []
    writes := []
    accepted := [] }

end MemoryFirstStore

end MemoryFirst.Core
