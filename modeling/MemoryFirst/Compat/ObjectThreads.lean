/-
`MfsMutableObjectStore` with any number of threads: commands, expiry
sweeps and flushes of one store, one atomic step at a time.

# Atomic steps

A writing command changes the value under the lock of its key's value
shard and then marks the key: `change` and `mark` are these two steps of
a `Thread`. It holds the lifecycle lock for reading from the first to the
second. Letting a key expire, draining the queues and finishing a flush
hold it for writing, so these are one step each, taken when no thread is
about to mark (`Quiet`); otherwise they wait, which here is a step that
changes nothing. A read looks at the value in one step and touches the
key in another, without the lifecycle lock.

A flush is three steps: drain, the call of the backend, and finish; the
middle one takes no lock of the store. A sweep is any number of steps
`expireKey`.

# The backend

It accepts a batch, or refuses it after it has taken some of its records:
`received` is the list of all records it has taken.

# What is tracked

`written` are the keys that were ever marked. A mark leaves metadata
behind, so these are the keys that ever had any.
-/
import MemoryFirst.Compat.MutableObjectStore

namespace MemoryFirst.Compat.ObjectThreads

open Lib Store Core MfsMutableObjectStore

/-- The points of a command, each named for the step that comes next. -/
inductive Thread where
  | expireWrite (edit : Edit)
  | change (edit : Edit)
  | mark (key : Key) (op : Operation) (ttlTicks ttiTicks : Nat) (reply : Nat → ObjectReply)
  | expireRead (look : Look)
  | look (look : Look)
  | touch (key : Key) (reply : Except ObjectStoreError ObjectReply)
  | done (reply : Except ObjectStoreError ObjectReply)

/-- The points of a flush after its drain. -/
inductive Flusher where
  | flush (batch : Batch)
  | finish (batch : Batch) (accepted : Bool)
  deriving DecidableEq

structure World where
  store : MfsMutableObjectStore
  threads : List Thread
  flushers : List Flusher
  received : List ObjectFlushRecord
  written : Key → Bool

def World.init (hashBuilder : Key → UInt64) : World :=
  { store := withHasher hashBuilder
    threads := []
    flushers := []
    received := []
    written := fun _ => false }

/-- Where a command begins. -/
def Thread.start : Request → Thread
  | .done reply => .done reply
  | .write edit => if edit.expiresFirst then .expireWrite edit else .change edit
  | .read request => .expireRead request

/-- What a thread is about to mark; it holds the lifecycle lock then. -/
def Thread.marks : Thread → Option (Key × Operation)
  | .mark key op _ _ _ => some (key, op)
  | _ => none

def Thread.returned : Thread → Bool
  | .done _ => true
  | _ => false

/-- No thread is about to mark. -/
def Quiet (threads : List Thread) : Prop :=
  ∀ t ∈ threads, t.marks = none

instance (threads : List Thread) : Decidable (Quiet threads) :=
  inferInstanceAs (Decidable (∀ t ∈ threads, t.marks = none))

-- ===== threads

variable (s : MfsMutableObjectStore)

/-- The value step of a writing command. -/
def changed (edit : Edit) : MfsMutableObjectStore × Thread :=
  match edit.change (s.value? edit.key) with
  | .error e => (s, .done (.error e))
  | .ok (.keep reply) => (s, .done (.ok reply))
  | .ok (.store value reply) =>
    (s.insertValue edit.key value, .mark edit.key .put edit.ttlTicks edit.ttiTicks reply)
  | .ok (.remove reply) => (s.removeValue edit.key, .mark edit.key .delete 0 0 reply)

/-- One step of a thread; `quiet` tells whether the lifecycle lock can be
taken for writing. -/
def threadStep (quiet : Bool) : Thread → MfsMutableObjectStore × Thread
  | .expireWrite edit =>
    if quiet then ((s.expireKeyIfNeeded edit.key).1, .change edit)
    else (s, .expireWrite edit)
  | .change edit => changed s edit
  | .mark key op ttlTicks ttiTicks reply =>
    let (s, version) := s.markDirty key op ttlTicks ttiTicks
    (s, .done (.ok (reply version)))
  | .expireRead look =>
    if quiet then
      match s.expireKeyIfNeeded look.key with
      | (s, true) => (s, .done (.ok look.expired))
      | (s, false) => (s, .look look)
    else (s, .expireRead look)
  | .look look =>
    let value := s.value? look.key
    if look.touches ∧ value.isSome then
      (s, .touch look.key (look.observe value))
    else (s, .done (look.observe value))
  | .touch key reply => (s.recordTouch key, .done reply)
  | .done reply => (s, .done reply)

-- ===== the world

inductive Action where
  | call (request : Request)
  | thread (p : Nat)
  | expireKey (key : Key)
  | drain (idleTicks maxRecords : Nat)
  /-- The answer of the backend to flush `p`: `.error n` refuses the batch
  after its first `n` records were taken. -/
  | answer (p : Nat) (outcome : Except Nat Unit)
  | finish (p : Nat)

/-- A new store, with the keys written so far. -/
def World.setStore (w : World) (s : MfsMutableObjectStore) : World :=
  { w with
    store := s
    written := fun k => w.written k || (s.currentMeta k).isSome }

/-- Without records the backend is not called. -/
def Flusher.drained (batch : Batch) : Flusher :=
  if batch.records = [] then .finish batch true else .flush batch

/-- The records of a batch that the backend takes. -/
def taken (batch : Batch) : Except Nat Unit → List ObjectFlushRecord
  | .ok () => batch.records
  | .error n => batch.records.take n

def worldStep (w : World) : Action → World × Unit
  | .call request => ({ w with threads := w.threads ++ [Thread.start request] }, ())
  | .thread p =>
    match w.threads[p]? with
    | none => (w, ())
    | some t =>
      let (s, t') := threadStep w.store (decide (Quiet w.threads)) t
      ({ w.setStore s with threads := w.threads.set p t' }, ())
  | .expireKey key =>
    if Quiet w.threads then
      (w.setStore (w.store.expireKeyIfNeeded key).1, ())
    else (w, ())
  | .drain idleTicks maxRecords =>
    if Quiet w.threads then
      let (s, batch) := w.store.drain idleTicks maxRecords
      ({ w.setStore s with
        flushers := w.flushers ++ [Flusher.drained batch] }, ())
    else (w, ())
  | .answer p outcome =>
    match w.flushers[p]? with
    | some (.flush batch) =>
      ({ w with
        flushers := w.flushers.set p (.finish batch outcome.isOk)
        received := w.received ++ taken batch outcome }, ())
    | _ => (w, ())
  | .finish p =>
    match w.flushers[p]? with
    | some (.finish batch accepted) =>
      if Quiet w.threads then
        ({ w.setStore (w.store.finish batch accepted) with
          flushers := w.flushers.eraseIdx p }, ())
      else (w, ())
    | _ => (w, ())

-- ===== crossings

/-- A thread is about to mark the key. -/
def Marking (threads : List Thread) (k : Key) (op : Operation) : Prop :=
  ∃ t ∈ threads, t.marks = some (k, op)

instance (threads : List Thread) (k : Key) (op : Operation) : Decidable (Marking threads k op) :=
  inferInstanceAs (Decidable (∃ t ∈ threads, t.marks = some (k, op)))

def removes : Except ObjectStoreError Change → Bool
  | .ok (.remove _) => true
  | _ => false

/-- No value is removed while another command has stored one under the
key and not marked it yet, and flushes do not overlap. The second holds
of flushes with one backend, which `flush_idle` borrows mutably. -/
def NoCrossing (w : World) : Action → Prop
  | .thread p =>
    match w.threads[p]? with
    | some (.change edit) =>
      removes (edit.change (w.store.value? edit.key)) = true → ¬ Marking w.threads edit.key .put
    | _ => True
  | .drain _ _ => w.flushers = []
  | _ => True

instance (w : World) (action : Action) : Decidable (NoCrossing w action) :=
  match action with
  | .thread p =>
    match h : w.threads[p]? with
    | some (.change edit) =>
      decidable_of_iff (removes (edit.change (w.store.value? edit.key)) = true →
          ¬ Marking w.threads edit.key .put)
        (by simp only [NoCrossing, h])
    | none => isTrue (by simp only [NoCrossing, h])
    | some (.expireWrite _) => isTrue (by simp only [NoCrossing, h])
    | some (.mark _ _ _ _ _) => isTrue (by simp only [NoCrossing, h])
    | some (.expireRead _) => isTrue (by simp only [NoCrossing, h])
    | some (.look _) => isTrue (by simp only [NoCrossing, h])
    | some (.touch _ _) => isTrue (by simp only [NoCrossing, h])
    | some (.done _) => isTrue (by simp only [NoCrossing, h])
  | .drain _ _ => inferInstanceAs (Decidable (w.flushers = []))
  | .call _ | .expireKey _ | .answer _ _ | .finish _ => inferInstanceAs (Decidable True)

end MemoryFirst.Compat.ObjectThreads
