/-
`mfs-compat/src/flush_worker.rs`: producers, the queue of jobs, and the
worker thread that commits queued records in batches.

# Steps

`enqueue` sends its record and then counts it, two steps. A barrier sends
its job and waits for the answer. `stop` drops the only sender. The worker
takes one step per receive, per call of the backend and per answer
(`WorkerPc`); what it decides between two of them is local and happens
with the first. Sends to a closed queue, or after the worker has returned
and dropped the receiver, fail.

Waits can end by timeout at any time. The backend commits a batch or
refuses it, all or nothing.

# What is idealised

Records are of any type: the worker never looks into one. Durations are
natural numbers. `queued` is a wrapping 64-bit counter, as in the source:
the worker can subtract a record before its producer has added it.

# What is tracked

`enqueued` are the records sent, in the order of the sends, and
`committed` those of the batches the backend committed. A barrier
remembers how many records were enqueued before it and how many were
committed when it was answered.
-/
import Mathlib.Init

namespace MemoryFirst.Compat

structure FlushConfig where
  batchMax : Nat
  interval : Nat
  backoffMax : Nat
  deriving DecidableEq, Repr

/-- Why an operation of the worker failed. A thread that could not be
started has no queue. -/
inductive FlushWorkerError where
  | workerStopped
  | workerDropped
  | barrierTimeout
  deriving DecidableEq, Repr

namespace FlushWorker

variable {ρ : Type}

/-- A job; `ack` is the number of the barrier that waits for the answer. -/
inductive FlushJob (ρ : Type) where
  | record (record : ρ)
  | barrier (ack : Nat)
  deriving DecidableEq, Repr

def FlushJob.record? : FlushJob ρ → Option ρ
  | .record r => some r
  | .barrier _ => none

/-- The points of the worker's loop, each named for what comes next. -/
inductive WorkerPc where
  | collect
  | receive
  | flush
  | answer
  | stopped
  deriving DecidableEq, Repr

structure Worker (ρ : Type) where
  pending : List ρ
  barrier : Option Nat
  backoff : Nat
  closed : Bool
  pc : WorkerPc
  deriving DecidableEq, Repr

/-- A call of `barrier`. -/
structure Barrier where
  before : Nat
  answered : Option Nat
  result : Option (Except FlushWorkerError Unit)
  deriving Repr

structure World (ρ : Type) where
  sender : Bool
  channel : List (FlushJob ρ)
  worker : Worker ρ
  uncounted : Nat
  queued : UInt64
  enqueued : List ρ
  committed : List ρ
  barriers : List Barrier

variable (config : FlushConfig)

/-- `spawn_with_config`. -/
def spawn : World ρ where
  sender := true
  channel := []
  worker := ⟨[], none, config.interval, false, .collect⟩
  uncounted := 0
  queued := 0
  enqueued := []
  committed := []
  barriers := []

-- ===== producers

variable (w : World ρ)

/-- A send goes through while there are a sender and a receiver. -/
def World.accepts : Prop :=
  w.sender = true ∧ w.worker.pc ≠ .stopped

instance (w : World ρ) : Decidable w.accepts :=
  inferInstanceAs (Decidable (_ ∧ _))

def enqueue (record : ρ) : World ρ × Option (Except FlushWorkerError Unit) :=
  if w.accepts then
    ({ w with
      channel := w.channel ++ [.record record]
      enqueued := w.enqueued ++ [record]
      uncounted := w.uncounted + 1 }, some (.ok ()))
  else (w, some (.error .workerStopped))

/-- A producer adds the record it has sent to the count. -/
def count : World ρ :=
  if w.uncounted = 0 then w
  else { w with uncounted := w.uncounted - 1, queued := w.queued + 1 }

/-- `barrier`, up to the send of its job. -/
def barrier : World ρ × Option (Except FlushWorkerError Unit) :=
  if w.accepts then
    ({ w with
      channel := w.channel ++ [.barrier w.barriers.length]
      barriers := w.barriers ++ [⟨w.enqueued.length, none, none⟩] }, none)
  else (w, some (.error .workerStopped))

/-- The worker or the queue still holds the sender of the answer. -/
def World.holds (ack : Nat) : Prop :=
  w.worker.barrier = some ack ∨ ack ∈ w.channel.filterMap fun
    | .barrier ack => some ack
    | .record _ => none

instance (w : World ρ) (ack : Nat) : Decidable (w.holds ack) :=
  inferInstanceAs (Decidable (_ ∨ _))

/-- The end of the wait in `barrier_with_timeout`, if it ends now. -/
def awaited (ack : Nat) (call : Barrier) (timedOut : Bool) :
    Option (Except FlushWorkerError Unit) :=
  if timedOut then some (.error .barrierTimeout)
  else if call.answered.isSome then some (.ok ())
  else if w.holds ack then none
  else some (.error .workerDropped)

def await (ack : Nat) (timedOut : Bool) : World ρ × Option (Except FlushWorkerError Unit) :=
  match w.barriers[ack]? with
  | none => (w, none)
  | some call =>
    match call.result with
    | some _ => (w, none)
    | none =>
      let result := awaited w ack call timedOut
      ({ w with
        barriers := w.barriers.modify ack fun call =>
          { call with result := result } }, result)

/-- `stop` and the destructor, as far as the queue is concerned. -/
def close : World ρ := { w with sender := false }

-- ===== worker

/-- What follows the collection of a batch. -/
def Worker.collected (worker : Worker ρ) : Worker ρ :=
  { worker with
    pc :=
      if worker.pending.isEmpty ∧ worker.barrier = none then
        if worker.closed then .stopped else .receive
      else if worker.pending.isEmpty then .answer
      else .flush }

def Worker.take (worker : Worker ρ) : FlushJob ρ → Worker ρ
  | .record record => { worker with pending := worker.pending ++ [record] }
  | .barrier ack => { worker with barrier := some ack }

/-- The body of the collecting loop, or its end. -/
def collect : World ρ :=
  if w.worker.pending.length < config.batchMax ∧ w.worker.barrier = none then
    match w.channel with
    | job :: rest => { w with channel := rest, worker := w.worker.take job }
    | [] =>
      if w.sender then { w with worker := w.worker.collected }
      else
        { w with worker := { w.worker with closed := true }.collected }
  else { w with worker := w.worker.collected }

/-- `recv_timeout` with nothing at hand. -/
def receive (timedOut : Bool) : World ρ :=
  if timedOut then { w with worker := { w.worker with pc := .collect } }
  else
    match w.channel with
    | job :: rest =>
      { w with
        channel := rest
        worker := { w.worker.take job with pc := .collect } }
    | [] =>
      if w.sender then w
      else
        { w with worker := { w.worker with closed := true, pc := .collect } }

/-- A refused batch, put back record by record from its end. -/
def putBack (batch pending : List ρ) : List ρ :=
  batch.reverse.foldl (fun pending record => record :: pending) pending

/-- The call of the backend with everything pending. -/
def flush (accepted : Bool) : World ρ :=
  let batch := w.worker.pending
  if accepted then
    { w with
      committed := w.committed ++ batch
      queued := w.queued - UInt64.ofNat batch.length
      worker := { w.worker with
        pending := [], backoff := config.interval, pc := .answer } }
  else
    { w with
      worker := { w.worker with
        pending := putBack batch []
        backoff := min (w.worker.backoff * 2) config.backoffMax
        pc := .collect } }

/-- The answer of the barrier in hand, and the end of the loop's body. -/
def answer : World ρ :=
  let worker : Worker ρ :=
    { w.worker with
      barrier := none
      pc := if w.worker.closed then .stopped else .collect }
  match w.worker.barrier with
  | none => { w with worker := worker }
  | some ack =>
    { w with
      worker := worker
      barriers := w.barriers.modify ack fun call =>
        { call with answered := some w.committed.length } }

/-- One step of the worker; `input` tells whether a wait times out or a
batch is accepted. -/
def workerStep (input : Bool) : World ρ :=
  match w.worker.pc with
  | .collect => collect config w
  | .receive => receive w input
  | .flush => flush config w input
  | .answer => answer w
  | .stopped => w

inductive Action (ρ : Type) where
  | enqueue (record : ρ)
  | count
  | barrier
  | await (ack : Nat) (timedOut : Bool)
  | close
  | worker (input : Bool)

def worldStep : Action ρ → World ρ × Option (Except FlushWorkerError Unit)
  | .enqueue record => enqueue w record
  | .count => (count w, none)
  | .barrier => barrier w
  | .await ack timedOut => await w ack timedOut
  | .close => (close w, none)
  | .worker input => (workerStep config w input, none)

end FlushWorker

end MemoryFirst.Compat
