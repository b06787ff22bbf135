/-
`mfs-store/src/store/wal.rs`: the raw WAL segment, its record format,
the scanner, the appending writer and the compaction.

# Files

A segment is the list of its bytes, `none` while the file is absent.
What the writer holds in its `BufWriter` is counted as part of the file:
a crash that loses it is a truncation, and truncations are explicit.
Absent and empty files scan alike.

# The scanner

`nextFrame` is the body of the loop up to the decoded record: `ok none`
is the `break` of a torn tail. The loop itself hands each record to a
callback that may fail; it runs on fuel, and every frame is at least
twelve bytes long, so the file's length is enough
(`Proofs/Wal.lean`).

The checksum is a parameter: `crc32c` and `crc32c_append` in sequence
compute it over the concatenation of the parts.
-/
import MemoryFirst.Store.Types

namespace MemoryFirst.Store

open Lib

/-- `u32::from_le_bytes(*b"MFSW")`. -/
def RAW_WAL_RECORD_MAGIC : Nat := leNat [0x4D, 0x46, 0x53, 0x57]
def RAW_WAL_FORMAT_VERSION : Nat := 2
def RAW_WAL_MAX_PAYLOAD_BYTES : Nat := 64 * 1024 * 1024
def RAW_WAL_MAX_FIELD_BYTES : Nat := 64 * 1024 * 1024
def HEADER_LEN : Nat := 8
def CHECKSUM_LEN : Nat := 4
def OP_PUT : Nat := 1
def OP_DELETE : Nat := 2

structure RawWalRecord where
  lsn : Lsn
  version : DocumentVersion
  collection : String
  op : Operation
  key : RawKey
  value : Option RawValue
  deriving DecidableEq, Repr

structure RawWalReplayStats where
  records : Nat
  lastLsn : Lsn
  deriving DecidableEq, Repr

structure RawWalScan where
  stats : RawWalReplayStats
  lastGoodOffset : Nat
  deriving DecidableEq, Repr

structure RawWalCompactionStats where
  recordsBefore : Nat
  recordsAfter : Nat
  lastLsn : Lsn
  deriving DecidableEq, Repr

namespace Wal

variable (offset : Nat)

def corrupt (kind : WalCorruptionKind) : StoreError :=
  .walCorruption offset kind

-- ===== the payload

def validateFieldLen (len : Nat) : StoreResult Unit :=
  if RAW_WAL_MAX_FIELD_BYTES < len ∨ 2 ^ 32 - 1 < len then
    .error (corrupt 0 .fieldTooLarge)
  else .ok ()

def opCode : Operation → Nat
  | .put => OP_PUT
  | .delete => OP_DELETE

def writeLenPrefixed (bytes : List UInt8) : List UInt8 :=
  leBytes 4 bytes.length ++ bytes

/-- The bytes of a payload whose fields passed their length checks. -/
def payloadBytes (r : RawWalRecord) : List UInt8 :=
  leBytes 2 RAW_WAL_FORMAT_VERSION ++ leBytes 8 r.lsn
    ++ leBytes 8 r.version ++ writeLenPrefixed (utf8 r.collection)
    ++ leBytes 1 (opCode r.op) ++ writeLenPrefixed r.key
    ++ writeLenPrefixed (r.value.getD [])

def encodePayload (r : RawWalRecord) : StoreResult (List UInt8) := do
  validateFieldLen (utf8 r.collection).length
  validateFieldLen r.key.length
  match r.value with
  | some value => validateFieldLen value.length
  | none => pure ()
  match r.op, r.value with
  | .put, some _ => pure (payloadBytes r)
  | .delete, none => pure (payloadBytes r)
  | _, _ => throw (corrupt 0 .malformedRecord)

def readBytes : Parser StoreError (List UInt8) := do
  let len ← readNat (corrupt offset .malformedRecord) 4
  if RAW_WAL_MAX_FIELD_BYTES < len then
    throw (corrupt offset .fieldTooLarge)
  else takeBytes (corrupt offset .malformedRecord) len

/-- The operation a code stands for. -/
def opOfCode (offset code : Nat) : StoreResult Operation :=
  if code = OP_PUT then .ok .put
  else if code = OP_DELETE then .ok .delete
  else .error (corrupt offset .unknownOperation)

/-- The collection name: non-empty UTF-8. -/
def collectionOfBytes (bytes : List UInt8) : StoreResult String :=
  match fromUtf8 bytes with
  | none => .error (corrupt offset .malformedRecord)
  | some name =>
    if name = "" then .error (corrupt offset .malformedRecord)
    else .ok name

/-- The stored value: a delete has none and must have no bytes. -/
def valueOfBytes (op : Operation) (bytes : List UInt8) : StoreResult (Option RawValue) :=
  match op with
  | .put => .ok (some bytes)
  | .delete =>
    if bytes = [] then .ok none
    else .error (corrupt offset .malformedRecord)

def readPayload : Parser StoreError RawWalRecord := do
  let version ← readNat (corrupt offset .malformedRecord) 2
  if version ≠ RAW_WAL_FORMAT_VERSION then
    throw (corrupt offset .unknownFormatVersion)
  else do
    let lsn ← readNat (corrupt offset .malformedRecord) 8
    let recordVersion ← readNat (corrupt offset .malformedRecord) 8
    let collectionBytes ← readBytes offset
    let collection ← liftM (collectionOfBytes offset collectionBytes)
    let code ← readNat (corrupt offset .malformedRecord) 1
    let op ← liftM (opOfCode offset code)
    let key ← readBytes offset
    let valueBytes ← readBytes offset
    let value ← liftM (valueOfBytes offset op valueBytes)
    return ⟨lsn, recordVersion, collection, op, key, value⟩

/-- `decode_payload`: the whole payload is one record. -/
def decodePayload (payload : List UInt8) (offset : Nat) : StoreResult RawWalRecord := do
  let (record, rest) ← (readPayload offset).run payload
  if rest ≠ [] then throw (corrupt offset .malformedRecord)
  else return record

-- ===== the frame

/-- What a record's checksum covers. -/
def framePrefix (payload : List UInt8) : List UInt8 :=
  leBytes 4 RAW_WAL_RECORD_MAGIC ++ leBytes 4 payload.length ++ payload

section

variable (crc32c : List UInt8 → UInt32)

/-- The bytes `emit_encoded` writes for a payload. -/
def frame (payload : List UInt8) : List UInt8 :=
  framePrefix payload ++ leBytes 4 (crc32c (framePrefix payload)).toNat

def emitEncoded (r : RawWalRecord) : StoreResult (List UInt8) := do
  let payload ← encodePayload r
  if 2 ^ 32 - 1 < payload.length then
    throw (corrupt 0 .payloadTooLarge)
  else return frame crc32c payload

/-- One pass of the scanning loop over the unread bytes `rest` that start
at offset `start`: the record and the length of its frame, or `none` at
the end of the log and at a torn tail. -/
def nextFrame (start : Nat) (rest : List UInt8) : StoreResult (Option (RawWalRecord × Nat)) :=
  if rest.length < HEADER_LEN then .ok none
  else if leNat (rest.take 4) ≠ RAW_WAL_RECORD_MAGIC then
    .error (corrupt start .badMagic)
  else
    let payloadLen := leNat ((rest.drop 4).take 4)
    let recordLen := HEADER_LEN + payloadLen + CHECKSUM_LEN
    if rest.length < recordLen then .ok none
    else if RAW_WAL_MAX_PAYLOAD_BYTES < payloadLen then
      .error (corrupt start .payloadTooLarge)
    else
      let covered := rest.take (HEADER_LEN + payloadLen)
      let storedCrc := leNat ((rest.drop (HEADER_LEN + payloadLen)).take CHECKSUM_LEN)
      if (crc32c covered).toNat ≠ storedCrc then
        if recordLen = rest.length then .ok none
        else .error (corrupt start .checksumMismatch)
      else do
        let record ← decodePayload ((rest.drop HEADER_LEN).take payloadLen) start
        return some (record, recordLen)

/-- The scanning loop. `σ` is what the callback accumulates. -/
def scanLoop {σ : Type} (onRecord : σ → RawWalRecord → StoreResult σ) :
    Nat → Nat → List UInt8 → RawWalReplayStats → σ → StoreResult (σ × RawWalScan)
  | 0, start, _, stats, s => .ok (s, ⟨stats, start⟩)
  | fuel + 1, start, rest, stats, s => do
    match ← nextFrame crc32c start rest with
    | none => return (s, ⟨stats, start⟩)
    | some (record, recordLen) =>
      if record.lsn ≤ stats.lastLsn then
        throw (corrupt start .nonMonotonicLsn)
      else do
        let s ← onRecord s record
        scanLoop onRecord fuel (start + recordLen)
          (rest.drop recordLen) ⟨stats.records + 1, record.lsn⟩ s

/-- `scan_records_with_offsets`, the callback threaded through. -/
def scanRecordsWithOffsets {σ : Type}
    (onRecord : σ → RawWalRecord → StoreResult σ) (file : Option (List UInt8))
    (s : σ) : StoreResult (σ × RawWalScan) :=
  match file with
  | none => .ok (s, ⟨⟨0, 0⟩, 0⟩)
  | some bytes => scanLoop crc32c onRecord (bytes.length + 1) 0 bytes ⟨0, 0⟩ s

variable (file : Option (List UInt8))

def readRecords : StoreResult (List RawWalRecord) := do
  let (records, _) ← scanRecordsWithOffsets crc32c (fun records r => .ok (records ++ [r])) file []
  return records

-- ===== the writer

/-- The appending writer: the next LSN and the version table of the
self-versioning appends. -/
structure RawWalSegmentWriter where
  nextLsn : Lsn
  recordVersions : String × RawKey → Option DocumentVersion

structure RawWalAppendState where
  nextLsn : Lsn
  lastGoodOffset : Nat
  recordVersions : String × RawKey → Option DocumentVersion

/-- What the opening scan remembers of the records it passes. -/
structure OpenScan where
  lastLsn : Lsn
  recordVersions : String × RawKey → Option DocumentVersion

def OpenScan.note (s : OpenScan) (r : RawWalRecord) : OpenScan :=
  ⟨r.lsn, Function.update s.recordVersions (r.collection, r.key) (some r.version)⟩

def appendStateForPath : StoreResult RawWalAppendState :=
  match file with
  | none => .ok ⟨1, 0, fun _ => none⟩
  | some _ => do
    let (s, scan) ← scanRecordsWithOffsets crc32c
      (fun s r => .ok (OpenScan.note s r)) file ⟨0, fun _ => none⟩
    return ⟨max (saturatingSucc s.lastLsn) 1, scan.lastGoodOffset, s.recordVersions⟩

/-- `RawWalSegmentWriter::open`: the file afterwards and the writer. The
file is created when absent and cut to the last whole record. -/
def openWriter : Option (List UInt8) × StoreResult RawWalSegmentWriter :=
  match appendStateForPath crc32c file with
  | .error e => (file, .error e)
  | .ok state =>
    (some ((file.getD []).take state.lastGoodOffset), .ok ⟨state.nextLsn, state.recordVersions⟩)

variable (w : RawWalSegmentWriter)

/-- `append_record`: the LSN is taken before the record is encoded, so a
rejected record uses one up. -/
def appendRecord (bytes : List UInt8) (collection : String) (op : Operation) (key : RawKey)
    (value : Option RawValue) (version : DocumentVersion)
    (trackVersion : Bool) :
    RawWalSegmentWriter × List UInt8 × StoreResult Lsn :=
  let lsn := w.nextLsn
  let w := { w with nextLsn := saturatingSucc w.nextLsn }
  match emitEncoded crc32c ⟨lsn, version, collection, op, key, value⟩ with
  | .error e => (w, bytes, .error e)
  | .ok encoded =>
    let w := if trackVersion then
        { w with
          recordVersions := Function.update w.recordVersions
            (collection, key) (some version) }
      else w
    (w, bytes ++ encoded, .ok lsn)

def nextRecordVersion (collection : String) (key : RawKey) : DocumentVersion :=
  wrappingSucc ((w.recordVersions (collection, key)).getD 0)

variable (bytes : List UInt8) (collection : String) (key : RawKey)

def appendPut (value : RawValue) : RawWalSegmentWriter × List UInt8 × StoreResult Lsn :=
  appendRecord crc32c w bytes collection .put key (some value)
    (nextRecordVersion w collection key) true

def appendDelete : RawWalSegmentWriter × List UInt8 × StoreResult Lsn :=
  appendRecord crc32c w bytes collection .delete key none (nextRecordVersion w collection key) true

def appendPutVersioned (value : RawValue) (version : DocumentVersion) :
    RawWalSegmentWriter × List UInt8 × StoreResult Lsn :=
  appendRecord crc32c w bytes collection .put key (some value) version false

def appendDeleteVersioned (version : DocumentVersion) :
    RawWalSegmentWriter × List UInt8 × StoreResult Lsn :=
  appendRecord crc32c w bytes collection .delete key none version false

-- ===== compaction

/-- The records a compaction keeps: the newest of each collection and
key, in their original order. -/
def newestRecords : List RawWalRecord → List RawWalRecord
  | [] => []
  | r :: rs =>
    if rs.any fun r' => r'.collection = r.collection ∧ r'.key = r.key then
      newestRecords rs
    else r :: newestRecords rs

/-- `append_record_exact` over the retained records: the bytes of the
rewritten segment. -/
def rewriteRecords : List RawWalRecord → StoreResult (List UInt8)
  | [] => .ok []
  | r :: rs => do
    let encoded ← emitEncoded crc32c r
    let rest ← rewriteRecords rs
    return encoded ++ rest

/-- `compact_raw_wal`: the segment afterwards and the statistics. The
rewrite replaces the file only once it is complete. -/
def compactRawWal : Option (List UInt8) × StoreResult RawWalCompactionStats :=
  match file with
  | none => (none, .ok ⟨0, 0, 0⟩)
  | some _ =>
    match readRecords crc32c file with
    | .error e => (file, .error e)
    | .ok records =>
      let retained := newestRecords records
      match rewriteRecords crc32c retained with
      | .error e => (file, .error e)
      | .ok bytes =>
        (some bytes, .ok ⟨records.length, retained.length,
          (retained.getLast?.map RawWalRecord.lsn).getD 0⟩)

end

end Wal

end MemoryFirst.Store
