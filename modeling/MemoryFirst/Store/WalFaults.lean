/-
The WAL path of the raw store over a file system that may fail
(`mfs-store/src/store/wal.rs` and `raw.rs`, their `io::Result`s).

# Faults

Each call is given at most one fault, the operation that fails and the
message it fails with; an operation the call does not get to does not
fail. Under `Faulty` stand the functions of `Wal.lean` and `Raw.lean`
under their own names with the failing operations put in; without a
fault they are those functions (`Proofs` below, `*_none`).

# What a failed write leaves

The segment's bytes are counted as in `Wal.lean`: what the `BufWriter`
has taken is in the file. A `write_all` that fails has handed some of
the frame over and not the rest, so a failed append leaves a proper
front part of it. A failed flush keeps the unwritten part in the buffer,
and a failed sync changes nothing: after both the whole frame is there.
-/
import MemoryFirst.Store.Raw

namespace MemoryFirst.Store

open Wal (RawWalSegmentWriter)

/-- The operations of the WAL path that can fail. -/
inductive FaultPoint where
  /-- Reading an existing segment. -/
  | scan (operation : String)
  | openSegment
  | statSegment
  | truncateTail
  | syncTruncation
  /-- Writing a record, once so many of its bytes are taken. -/
  | write (taken : Nat)
  | flush
  | syncData
  /-- Writing the compacted segment, up to and including the rename. -/
  | rewrite (operation : String)
  | syncDirectory
  deriving DecidableEq, Repr

structure IoFault where
  point : FaultPoint
  message : String
  deriving DecidableEq, Repr

namespace Faulty

variable (fault : Option IoFault)

/-- The outcome of an operation. -/
def perform (point : FaultPoint) (operation : String) : StoreResult Unit :=
  match fault with
  | none => .ok ()
  | some f =>
    if f.point = point then .error (.walIo operation f.message) else .ok ()

/-- The scan of a segment, if there is one. -/
def performScan (file : Option (List UInt8)) : StoreResult Unit :=
  match fault, file with
  | some ⟨.scan operation, message⟩, some _ => .error (.walIo operation message)
  | _, _ => .ok ()

/-- The `write_all` during which a write stops after `taken` bytes of a
frame whose payload has the given length. -/
def writeOperation (payloadLen taken : Nat) : String :=
  if taken < 4 then "write raw WAL magic"
  else if taken < HEADER_LEN then "write raw WAL length"
  else if taken < HEADER_LEN + payloadLen then "write raw WAL payload"
  else "write raw WAL checksum"

section

variable (crc32c : List UInt8 → UInt32) (fault : Option IoFault) (file : Option (List UInt8))

/-- `RawWalSegmentWriter::open`. -/
def openWriter : Option (List UInt8) × StoreResult RawWalSegmentWriter :=
  match performScan fault file with
  | .error e => (file, .error e)
  | .ok _ =>
  match Wal.appendStateForPath crc32c file with
  | .error e => (file, .error e)
  | .ok state =>
  match perform fault .openSegment "open raw WAL segment" with
  | .error e => (file, .error e)
  | .ok _ =>
  let bytes := file.getD []
  let writer : RawWalSegmentWriter := ⟨state.nextLsn, state.recordVersions⟩
  match perform fault .statSegment "stat raw WAL segment" with
  | .error e => (some bytes, .error e)
  | .ok _ =>
  if bytes.length ≤ state.lastGoodOffset then (some bytes, .ok writer)
  else
    match perform fault .truncateTail "truncate raw WAL torn tail" with
    | .error e => (some bytes, .error e)
    | .ok _ =>
    let bytes := bytes.take state.lastGoodOffset
    match perform fault .syncTruncation "sync raw WAL torn-tail truncation" with
    | .error e => (some bytes, .error e)
    | .ok _ => (some bytes, .ok writer)

/-- `append_record` for a record whose version is not tracked. -/
def appendRecord (w : RawWalSegmentWriter) (bytes : List UInt8)
    (collection : String) (op : Operation) (key : RawKey)
    (value : Option RawValue) (version : DocumentVersion) :
    RawWalSegmentWriter × List UInt8 × StoreResult Lsn :=
  let lsn := w.nextLsn
  let w := { w with nextLsn := saturatingSucc w.nextLsn }
  match Wal.emitEncoded crc32c ⟨lsn, version, collection, op, key, value⟩
    with
  | .error e => (w, bytes, .error e)
  | .ok encoded =>
    match fault with
    | some ⟨.write taken, message⟩ =>
      -- the last byte is the one that is never taken
      let taken := min taken (encoded.length - 1)
      (w, bytes ++ encoded.take taken, .error (.walIo (writeOperation
          (encoded.length - HEADER_LEN - CHECKSUM_LEN) taken) message))
    | _ => (w, bytes ++ encoded, .ok lsn)

/-- `sync_now`. -/
def syncNow : StoreResult Unit := do
  perform fault .flush "flush raw WAL segment"
  perform fault .syncData "sync raw WAL segment"

variable (s : MfsStore)

def ensureWriter : MfsStore × StoreResult RawWalSegmentWriter :=
  match s.writer with
  | some w => (s, .ok w)
  | none =>
    if s.config.hasWalPath then
      let (file, opened) := openWriter crc32c fault s.file
      match opened with
      | .error e => ({ s with file := file }, .error e)
      | .ok w =>
        ({ s with
            file := file
            synced := if file = s.file then s.synced
              else (file.getD []).length
            writer := some w }, .ok w)
    else
      (s, .error (.invalidConfig "wal_path"
        "required for WAL durability modes"))

def appendRawWal (collection : String) (key : RawKey)
    (value : Option RawValue) (version : DocumentVersion) (sync : Bool) :
    MfsStore × StoreResult Lsn :=
  match ensureWriter crc32c fault s with
  | (s, .error e) => (s, .error e)
  | (s, .ok w) =>
    let op : Operation := if value.isSome then .put else .delete
    let (w, bytes, result) := appendRecord crc32c fault w
      (s.file.getD []) collection op key value version
    let s := { s with writer := some w, file := some bytes }
    match result with
    | .error e => (s, .error e)
    | .ok lsn =>
      if sync then
        match syncNow fault with
        | .error e => (s, .error e)
        | .ok _ => ({ s with walDirty := false, synced := bytes.length }, .ok lsn)
      else ({ s with walDirty := true }, .ok lsn)

def acknowledgeWrite (mode : DurabilityMode)
    (collection : String) (key : RawKey) (value : Option RawValue)
    (version : DocumentVersion) :
    MfsStore × StoreResult WriteAcknowledgement :=
  match mode with
  | .memoryOnly => (s, .ok .memoryOnly)
  | .snapshotOnly => (s, .ok .snapshotOnly)
  | .walAsync =>
    let (s, r) := appendRawWal crc32c fault s collection key value version false
    (s, r.map .walBuffered)
  | .walGroupCommit =>
    let (s, r) := appendRawWal crc32c fault s collection key value version true
    (s, r.map .walGroupCommitted)
  | .walSync =>
    let (s, r) := appendRawWal crc32c fault s collection key value version true
    (s, r.map .walSynced)

def syncWal : MfsStore × StoreResult Unit :=
  if s.walDirty = false then (s, .ok ())
  else
    match s.writer with
    | some _ =>
      match syncNow fault with
      | .error e => (s, .error e)
      | .ok _ =>
        ({ s with
            walDirty := false
            synced := (s.file.getD []).length }, .ok ())
    | none =>
      if s.config.hasWalPath = false ∨ s.file = none then (s, .ok ())
      else
        match ensureWriter crc32c fault s with
        | (s, .error e) => (s, .error e)
        | (s, .ok _) =>
          match syncNow fault with
          | .error e => (s, .error e)
          | .ok _ =>
            ({ s with
                walDirty := false
                synced := (s.file.getD []).length }, .ok ())

/-- `compact_raw_wal` on an existing segment. The compacted segment takes
the place of the old one before the directory is synced. -/
def compactRawWal : Option (List UInt8) × StoreResult RawWalCompactionStats :=
  match performScan fault file with
  | .error e => (file, .error e)
  | .ok _ =>
  match Wal.compactRawWal crc32c file with
  | (file, .error e) => (file, .error e)
  | (compacted, .ok stats) =>
    match fault with
    | some ⟨.rewrite operation, message⟩ => (file, .error (.walIo operation message))
    | _ =>
      match perform fault .syncDirectory "sync raw WAL parent directory" with
      | .error e => (compacted, .error e)
      | .ok _ => (compacted, .ok stats)

def compactWal : MfsStore × StoreResult (Option RawWalCompactionStats) :=
  if s.config.hasWalPath = false then (s, .ok none)
  else
    match if s.writer.isSome then syncNow fault else .ok () with
    | .error e => (s, .error e)
    | .ok _ =>
    let s := if s.writer.isSome then
        { s with synced := (s.file.getD []).length }
      else s
    let s := { s with writer := none, walDirty := false }
    match s.file with
    | none => (s, .ok none)
    | some _ =>
      match compactRawWal crc32c fault s.file with
      | (file, .error e) => ({ s with file := file }, .error e)
      | (file, .ok stats) =>
        let s := { s with file := file, synced := (file.getD []).length }
        match ensureWriter crc32c fault s with
        | (s, .error e) => (s, .error e)
        | (s, .ok _) => (s, .ok (some stats))

variable (collection : String) (key : RawKey)

/-- `write_with_hooks` without hooks, on a named collection. -/
def write (value : Option RawValue) (options : WriteOptions) : MfsStore × StoreResult WriteResult :=
  match s.rawCollection collection with
  | .error e => (s, .error e)
  | .ok c =>
    let oldRecord := c.records.get key
    let actual := (oldRecord.map RawRecord.version).getD 0
    if options.expectedVersion.isSome ∧ options.expectedVersion ≠ some actual then
      (s, .error (.conflict collection key (options.expectedVersion.getD 0) actual))
    else
      let oldValue := oldRecord.bind RawRecord.value
      let version := wrappingSucc actual
      if c.records.canInsertOrReplace key = false then
        (s, .error (.collectionCapacityFull collection))
      else
        let durability := options.effectiveDurability s.config.durability
        match acknowledgeWrite crc32c fault s durability collection key value version with
        | (s, .error e) => (s, .error e)
        | (s, .ok ack) =>
          match c.records.insert key ⟨value, version⟩ with
          | (_, .full) => (s, .error (.collectionCapacityFull collection))
          | (records, _) =>
            (s.setCollection collection ⟨records, MfsStore.countAfter c.recordCount value.isSome
                  oldValue.isSome⟩,
              .ok ⟨version, ack.lsn, ack⟩)

def putRaw (value : RawValue) (options : WriteOptions) : MfsStore × StoreResult WriteResult :=
  write crc32c fault s collection key (some value) options

def deleteRaw (options : WriteOptions) : MfsStore × StoreResult WriteResult :=
  write crc32c fault s collection key none options

end

end Faulty

end MemoryFirst.Store
