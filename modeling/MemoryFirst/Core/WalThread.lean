/-
`mfs-core/src/durability.rs`: the two backends that give the log to a
thread of its own, `AsyncWalBackend` and `GroupCommitWalBackend`.

# Processes

Callers and the WAL thread exchange messages over one bounded FIFO
channel. Every call is a process: it blocks in `send` until the channel
has room, then, if it wants a reply, in `recv` on its own rendezvous
channel. A thread that makes several calls is several of these processes,
one after the other.

The channel is its history: the messages ever accepted, in channel order,
and how many of them the WAL thread has taken. Dropping the receiver
drops the messages behind that point.

# The WAL thread

`run_async_wal_thread` and `run_group_commit_wal_thread` have one shape:
take a flush, merge what is queued behind it until a control message, an
empty queue or a limit, write the merged batch, sync it or not, reply to
the merged flushes, handle the control message. `Protocol` holds what
they differ in. A phase is a point of that loop between two effects, and
every phase leaves the file as it stands on disk visible to the others.

Leaving the loop drops a control message that was not handled, then the
`BufWriter`, then the receiver, in this order.

# Failures

Each step of the thread gets an `Io`: whether the operating system fails
the operation the step makes, and how many bytes it moves. A write that
fails has taken a part of its bytes into the buffer; a flush that fails
has moved a part of the buffer to the file; dropping a `BufWriter` tries
to move the rest once more.
-/
import MemoryFirst.Core.Proofs.Wal

namespace MemoryFirst.Core.Wal

-- ===== the file

/-- The errors the two backends pass around. -/
inductive IoError
  | os (message : String)
  | other (message : String)
  | brokenPipe (message : String)
  deriving DecidableEq, Repr

abbrev IoResult := Except IoError Unit

/-- What the operating system does with a step's file operation. -/
structure Io where
  error : Option IoError
  taken : Nat
  spilled : Nat
  deriving DecidableEq, Repr

/-- A backend and its file: the backend's bytes are those its `BufWriter`
was given, and `written` of them have left the buffer. -/
structure LogFile where
  wal : WalBackend
  written : Nat
  synced_le : wal.synced ≤ written
  written_le : written ≤ wal.file.length
  deriving DecidableEq

/-- What is in the file. -/
def LogFile.bytes (f : LogFile) : List UInt8 :=
  f.wal.file.take f.written

/-- The buffer moves to the file up to byte `n`. -/
def LogFile.spill (f : LogFile) (n : Nat) : LogFile :=
  { f with
    written := max f.written (min n f.wal.file.length)
    synced_le := Nat.le_trans f.synced_le (Nat.le_max_left _ _)
    written_le := Nat.max_le.2 ⟨f.written_le, Nat.min_le_right _ _⟩ }

section

variable {K V : Type} (codec : WalCodec K V) (crc32c : List UInt8 → UInt32) (b : WalBackend)
  (records : List (FlushRecord K V))

theorem synced_writeRecords : (writeRecords codec crc32c b records).synced = b.synced := by
  induction records generalizing b with
  | nil => rfl
  | cons r records ih => exact ih (writeRecord codec crc32c b r)

theorem length_le_writeRecords :
    b.file.length ≤ (writeRecords codec crc32c b records).file.length := by
  rw [file_writeRecords, List.length_append]
  omega

end

section

variable {K V : Type} (codec : WalCodec K V) (crc32c : List UInt8 → UInt32) (f : LogFile)

/-- `write_records`, all of it or the first `io.taken` bytes. -/
def LogFile.writeRecords (records : List (FlushRecord K V)) (io : Io) : LogFile × IoResult :=
  match io.error with
  | none =>
    (LogFile.spill
      { wal := Wal.writeRecords codec crc32c f.wal records
        written := f.written
        synced_le := by
          rw [synced_writeRecords]
          exact f.synced_le
        written_le := Nat.le_trans f.written_le
          (length_le_writeRecords codec crc32c f.wal records) }
      io.spilled, .ok ())
  | some e =>
    (LogFile.spill
      { wal := { f.wal with
          file := f.wal.file
            ++ (encodeFile crc32c codec records).take io.taken }
        written := f.written
        synced_le := f.synced_le
        written_le := Nat.le_trans f.written_le (by
          rw [List.length_append]
          exact Nat.le_add_right _ _) }
      io.spilled, .error e)

/-- `sync_now`: everything buffered goes to the file and is synced, or
one of the two fails. -/
def LogFile.syncNow (io : Io) : LogFile × IoResult :=
  match io.error with
  | none =>
    ({ wal := Wal.syncNow f.wal
       written := f.wal.file.length
       synced_le := Nat.le_refl _
       written_le := Nat.le_refl _ }, .ok ())
  | some e => (f.spill io.spilled, .error e)

/-- `BufWriter`'s drop: one more attempt, its failure ignored, and the
rest of the buffer is gone. -/
def LogFile.drop (io : Io) : LogFile :=
  let f := f.spill io.spilled
  { wal := { f.wal with file := f.bytes }
    written := f.written
    synced_le := f.synced_le
    written_le := by
      unfold LogFile.bytes
      rw [List.length_take]
      exact Nat.le_min.2 ⟨Nat.le_refl _, f.written_le⟩ }

end

-- ===== processes

/-- `WalCommand` and `GroupWalCommand`, their reply channels apart. -/
inductive Command (K V : Type)
  | flush (records : List (FlushRecord K V))
  | sync
  | shutdown
  deriving DecidableEq, Repr

def Command.isEmpty {K V : Type} : Command K V → Bool
  | .flush [] => true
  | _ => false

/-- A command in the channel, with the call whose reply channel it
carries. -/
structure Message (K V : Type) where
  command : Command K V
  ack : Nat
  deriving DecidableEq, Repr

def Message.records {K V : Type} (m : Message K V) : List (FlushRecord K V) :=
  match m.command with
  | .flush records => records
  | _ => []

/-- A call is blocked in `send`, blocked in `recv`, or has returned: at
once behind an accepted batch, with the thread's reply, or with a broken
pipe. -/
inductive CallState
  | sending
  | waiting
  | enqueued
  | replied (result : IoResult)
  | broken (error : IoError)
  deriving DecidableEq

structure Call (K V : Type) where
  command : Command K V
  state : CallState
  deriving DecidableEq

/-- The two backends. -/
inductive Protocol
  | async
  | group (maxGroupRecords : Nat)
  deriving DecidableEq, Repr

/-- A flush waits for the thread's reply. -/
def Protocol.acknowledged : Protocol → Bool
  | .async => false
  | .group _ => true

/-- Merging stops at this many records. -/
def Protocol.full : Protocol → Nat → Bool
  | .async, _ => false
  | .group maxGroupRecords, n => maxGroupRecords ≤ n

def Protocol.stopped : Protocol → IoError
  | .async => .brokenPipe "async WAL thread stopped"
  | .group _ => .brokenPipe "group WAL thread stopped"

/-- What the thread returns after a control message met the error `e`. -/
def Protocol.controlError {K V : Type} : Protocol → Command K V → IoError → IoError
  | .async, .shutdown, _ => .other "async WAL shutdown sync failed"
  | .async, _, _ => .other "async WAL sync failed"
  | .group _, _, e => e

section

variable {K V : Type} (p : Protocol) (m : Message K V)

/-- Whether a message carries a reply channel. -/
def Protocol.replies : Bool :=
  match m.command with
  | .flush _ => p.acknowledged
  | _ => true

def Protocol.acksOf : List Nat :=
  if p.replies m then [m.ack] else []

end

/-- A written batch is synced: always, or at the configured sizes
(`maybe_sync`). -/
def Protocol.syncs (p : Protocol) (b : WalBackend) : Bool :=
  p.acknowledged || decide (b.config.syncThresholdBytes ≤ b.pendingBytes)
    || decide (b.config.syncThresholdRecords ≤ b.pendingRecords)

/-- Where the WAL thread is. -/
inductive Phase (K V : Type)
  | opening
  | receiving
  | gathering (batch : List (FlushRecord K V)) (acks : List Nat)
  | writing (batch : List (FlushRecord K V)) (acks : List Nat) (next : Option (Message K V))
  | syncing (acks : List Nat) (next : Option (Message K V))
  | replying (acks : List Nat) (result : IoResult) (next : Option (Message K V))
  | control (m : Message K V)
  | controlReply (m : Message K V) (result : IoResult)
  | finalSync
  | leaving (held : Option (Message K V)) (result : IoResult)
  | dropping (result : IoResult)
  | closing (result : IoResult)
  | exited (result : IoResult)
  deriving DecidableEq

structure World (K V : Type) where
  calls : List (Call K V)
  accepted : List (Message K V)
  taken : Nat
  disconnected : Bool
  phase : Phase K V
  log : LogFile
  deriving DecidableEq

section

variable {K V : Type}

/-- The message at the front of the channel. -/
def World.next (w : World K V) : Option (Message K V) :=
  w.accepted[w.taken]?

/-- The call `c`, if it waits for its reply, returns. -/
def settle (calls : List (Call K V)) (c : Nat) (state : CallState) : List (Call K V) :=
  match calls[c]? with
  | some ⟨command, .waiting⟩ => calls.set c ⟨command, state⟩
  | _ => calls

/-- The rendezvous of a reply with the call that waits for it. Without
such a call the thread stays blocked in `send`. -/
def World.reply (w : World K V) (c : Nat) (result : IoResult) (phase : Phase K V) : World K V :=
  match w.calls[c]? with
  | some ⟨_, .waiting⟩ =>
    { w with calls := settle w.calls c (.replied result), phase := phase }
  | _ => w

variable (p : Protocol) (calls : List (Call K V))

/-- A reply channel is dropped unused: `recv` fails. -/
def dropAck (c : Nat) : List (Call K V) :=
  settle calls c (.broken p.stopped)

def dropMessages (messages : List (Message K V)) : List (Call K V) :=
  (messages.flatMap p.acksOf).foldl (dropAck p) calls

variable (codec : WalCodec K V) (crc32c : List UInt8 → UInt32) (p : Protocol) (w : World K V)

/-- One step of the WAL thread. -/
def threadStep (io : Io) : World K V :=
  match w.phase with
  | .opening =>
    match io.error with
    | none => { w with phase := .receiving }
    | some e => { w with phase := .closing (.error e) }
  | .receiving =>
    match w.next with
    | none => if w.disconnected then { w with phase := .finalSync } else w
    | some m =>
      match m.command with
      | .flush records =>
        { w with
          taken := w.taken + 1
          phase := .gathering records (p.acksOf m) }
      | _ => { w with taken := w.taken + 1, phase := .control m }
  | .gathering batch acks =>
    if p.full batch.length then
      { w with phase := .writing batch acks none }
    else
      match w.next with
      | none => { w with phase := .writing batch acks none }
      | some m =>
        match m.command with
        | .flush records =>
          { w with
            taken := w.taken + 1
            phase := .gathering (batch ++ records)
              (acks ++ p.acksOf m) }
        | _ =>
          { w with
            taken := w.taken + 1
            phase := .writing batch acks (some m) }
  | .writing batch acks next =>
    let (log, result) := w.log.writeRecords codec crc32c batch io
    match result with
    | .ok _ => { w with log := log, phase := .syncing acks next }
    | .error e =>
      { w with log := log, phase := .replying acks (.error e) next }
  | .syncing acks next =>
    if p.syncs w.log.wal then
      let (log, result) := w.log.syncNow io
      { w with log := log, phase := .replying acks result next }
    else { w with phase := .replying acks (.ok ()) next }
  | .replying (c :: acks) result next => w.reply c result (.replying acks result next)
  | .replying [] result next =>
    match result, next with
    | .error e, _ => { w with phase := .leaving next (.error e) }
    | .ok _, none => { w with phase := .receiving }
    | .ok _, some m => { w with phase := .control m }
  | .control m =>
    let (log, result) := w.log.syncNow io
    { w with log := log, phase := .controlReply m result }
  | .controlReply m result =>
    w.reply m.ack result (match result with
      | .error e => .leaving none (.error (p.controlError m.command e))
      | .ok _ =>
        match m.command with
        | .shutdown => .leaving none (.ok ())
        | _ => .receiving)
  | .finalSync =>
    let (log, result) := w.log.syncNow io
    { w with log := log, phase := .leaving none result }
  | .leaving held result =>
    { w with
      calls := dropMessages p w.calls held.toList
      phase := .dropping result }
  | .dropping result =>
    { w with log := w.log.drop io, phase := .closing result }
  | .closing result =>
    { w with
      calls := dropMessages p w.calls (w.accepted.drop w.taken)
      phase := .exited result }
  | .exited _ => w

/-- `run_async_wal_thread`. -/
def runAsyncWalThread : World K V → Io → World K V :=
  threadStep codec crc32c .async

/-- `run_group_commit_wal_thread`, as `open` starts it. -/
def runGroupCommitWalThread (maxGroupRecords : Nat) : World K V → Io → World K V :=
  threadStep codec crc32c (.group (max maxGroupRecords 1))

-- ===== the calls

def Phase.isExited : Phase K V → Bool
  | .exited _ => true
  | _ => false

/-- A call starts. An empty flush returns without a message, and no call
starts once every sender is gone. -/
def World.call (command : Command K V) : World K V :=
  if w.disconnected || command.isEmpty then w
  else { w with calls := w.calls ++ [⟨command, .sending⟩] }

/-- The `send` of call `c`: refused once the receiver is gone, blocked
while the channel is full. -/
def World.send (capacity : Nat) (w : World K V) (c : Nat) : World K V :=
  match w.calls[c]? with
  | some ⟨command, .sending⟩ =>
    if w.phase.isExited then
      { w with calls := w.calls.set c ⟨command, .broken p.stopped⟩ }
    else if max capacity 1 ≤ w.accepted.length - w.taken then w
    else
      { w with
        calls := w.calls.set c ⟨command,
          if p.replies ⟨command, c⟩ then .waiting else .enqueued⟩
        accepted := w.accepted ++ [⟨command, c⟩] }
  | _ => w

def CallState.isReturned : CallState → Bool
  | .sending => false
  | .waiting => false
  | _ => true

/-- The last sender goes: no call is under way. -/
def World.disconnect : World K V :=
  if w.calls.all fun call => call.state.isReturned then
    { w with disconnected := true }
  else w

inductive Action (K V : Type)
  | call (command : Command K V)
  | send (c : Nat)
  | disconnect
  | thread (io : Io)
  deriving DecidableEq

/-- Any process takes a step. One that cannot leaves everything as it
is. -/
def protocolStep (capacity : Nat) (w : World K V) (a : Action K V) : World K V × Unit :=
  match a with
  | .call command => (w.call command, ())
  | .send c => (w.send p capacity c, ())
  | .disconnect => (w.disconnect, ())
  | .thread io => (threadStep codec crc32c p w io, ())

/-- A backend as `open` returns it, over a file that may hold a log. -/
def started (config : WalConfig) (file : List UInt8) : World K V where
  calls := []
  accepted := []
  taken := 0
  disconnected := false
  phase := .opening
  log :=
    { wal := openBackend config file 0
      written := file.length
      synced_le := Nat.zero_le _
      written_le := Nat.le_refl _ }

end

end MemoryFirst.Core.Wal
