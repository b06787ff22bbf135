/-
`mfs-store/src/store/checkpoint.rs`: the checkpoint format, writing a
checkpoint of a store, and recovery from the latest checkpoint and the
WAL behind it.

A checkpoint directory maps the LSN in a file's name to the file's
bytes; a rename over an existing checkpoint replaces it. Paths occur in
the source's errors only as text and are left out, as is everything a
file system error would produce.
-/
import MemoryFirst.Store.Raw

namespace MemoryFirst.Store

open Lib

namespace Checkpoint

/-- `u32::from_le_bytes(*b"MFSC")`. -/
def RAW_CHECKPOINT_MAGIC : Nat := leNat [0x4D, 0x46, 0x53, 0x43]
def RAW_CHECKPOINT_FORMAT_VERSION : Nat := 1
def HEADER_LEN : Nat := 14
def CHECKSUM_LEN : Nat := 4
def MAX_CHECKPOINT_PAYLOAD_BYTES : Nat := 512 * 1024 * 1024
def MAX_CHECKPOINT_FIELD_BYTES : Nat := 64 * 1024 * 1024
def MIN_COLLECTION_PAYLOAD_BYTES : Nat := 12
def MIN_RECORD_PAYLOAD_BYTES : Nat := 13
def RECORD_TOMBSTONE : Nat := 0
def RECORD_VALUE : Nat := 1

structure RawCheckpointCollectionMetadata where
  name : String
  recordCount : Nat
  deriving DecidableEq, Repr

structure RawCheckpointMetadata where
  formatVersion : Nat
  checkpointLsn : Lsn
  engineMaxCollections : Nat
  engineRawInitialCapacity : Nat
  collectionCount : Nat
  recordCount : Nat
  collections : List RawCheckpointCollectionMetadata
  deriving DecidableEq, Repr

structure DecodedRawCheckpoint where
  metadata : RawCheckpointMetadata
  snapshot : RawStoreSnapshot
  deriving DecidableEq, Repr

def corrupt (kind : CheckpointCorruptionKind) : StoreError :=
  .checkpointCorruption kind

variable (c : RawCollectionSnapshot)

def collectionMetadata : RawCheckpointCollectionMetadata :=
  ⟨c.name, c.records.length⟩

def metadataForSnapshot (config : MfsStoreConfig) (checkpointLsn : Lsn)
    (snapshot : RawStoreSnapshot) : RawCheckpointMetadata :=
  let collections := snapshot.collections.map collectionMetadata
  { formatVersion := RAW_CHECKPOINT_FORMAT_VERSION
    checkpointLsn := checkpointLsn
    engineMaxCollections := config.maxCollections
    engineRawInitialCapacity := config.rawInitialCapacity
    collectionCount := collections.length
    recordCount :=
      (collections.map RawCheckpointCollectionMetadata.recordCount).sum
    collections := collections }

-- ===== encoding

def writeLenPrefixed (bytes : List UInt8) : StoreResult (List UInt8) :=
  if MAX_CHECKPOINT_FIELD_BYTES < bytes.length then
    .error (corrupt .fieldTooLarge)
  else .ok (leBytes 4 bytes.length ++ bytes)

def writeRecord (r : RawSnapshotRecord) : StoreResult (List UInt8) := do
  let key ← writeLenPrefixed r.key
  match r.value with
  | some value => do
    let bytes ← writeLenPrefixed value
    return leBytes 8 r.version ++ key ++ leBytes 1 RECORD_VALUE ++ bytes
  | none => return leBytes 8 r.version ++ key ++ leBytes 1 RECORD_TOMBSTONE

/-- The parts of a list, written one after another. -/
def writeAll {α : Type} (write : α → StoreResult (List UInt8)) : List α → StoreResult (List UInt8)
  | [] => .ok []
  | a :: l => do
    let bytes ← write a
    let rest ← writeAll write l
    return bytes ++ rest

def writeCollection : StoreResult (List UInt8) := do
  let name ← writeLenPrefixed (utf8 c.name)
  let records ← writeAll writeRecord c.records
  return name ++ leBytes 8 c.records.length ++ records

/-- The payload of a checkpoint, before its size is checked. -/
def writePayload (metadata : RawCheckpointMetadata)
    (snapshot : RawStoreSnapshot) : StoreResult (List UInt8) := do
  if 2 ^ 32 - 1 < snapshot.collections.length then
    throw (corrupt .fieldTooLarge)
  else do
    let collections ← writeAll writeCollection snapshot.collections
    return leBytes 8 metadata.checkpointLsn ++ leBytes 8 metadata.engineMaxCollections
      ++ leBytes 8 metadata.engineRawInitialCapacity
      ++ leBytes 4 snapshot.collections.length
      ++ leBytes 8 metadata.recordCount ++ collections

/-- What a checkpoint's checksum covers. -/
def checkpointPrefix (payload : List UInt8) : List UInt8 :=
  leBytes 4 RAW_CHECKPOINT_MAGIC ++ leBytes 2 RAW_CHECKPOINT_FORMAT_VERSION
    ++ leBytes 8 payload.length ++ payload

variable (crc32c : List UInt8 → UInt32)

def encodeCheckpoint (metadata : RawCheckpointMetadata) (snapshot : RawStoreSnapshot) :
    StoreResult (List UInt8) := do
  let payload ← writePayload metadata snapshot
  if MAX_CHECKPOINT_PAYLOAD_BYTES < payload.length then
    throw (corrupt .payloadTooLarge)
  else return checkpointPrefix payload ++ leBytes 4 (crc32c (checkpointPrefix payload)).toNat

-- ===== decoding

/-- A number of the payload; running out of bytes is a malformed
checkpoint. -/
def readNum (k : Nat) : Parser StoreError Nat :=
  readNat (corrupt .malformedCheckpoint) k

def readBytes : Parser StoreError (List UInt8) := do
  let len ← readNum 4
  if MAX_CHECKPOINT_FIELD_BYTES < len then throw (corrupt .fieldTooLarge)
  else takeBytes (corrupt .malformedCheckpoint) len

/-- A collection name: non-empty UTF-8. -/
def nameOfBytes (bytes : List UInt8) : StoreResult String :=
  match fromUtf8 bytes with
  | none => .error (corrupt .malformedCheckpoint)
  | some name =>
    if name = "" then .error (corrupt .malformedCheckpoint)
    else .ok name

/-- `validate_collection_count` and `validate_record_count`: a count of
items of a minimal size must fit the unread payload. -/
def validateCount (minBytes count : Nat) : Parser StoreError Unit :=
  roomFor (corrupt .malformedCheckpoint) minBytes count

def readValue (marker : Nat) : Parser StoreError (Option RawValue) :=
  if marker = RECORD_TOMBSTONE then return none
  else if marker = RECORD_VALUE then do
    let value ← readBytes
    return some value
  else throw (corrupt .malformedCheckpoint)

def readRecord : Parser StoreError RawSnapshotRecord := do
  let version ← readNum 8
  if version = 0 then throw (corrupt .malformedCheckpoint)
  else do
    let key ← readBytes
    let marker ← readNum 1
    let value ← readValue marker
    return ⟨key, value, version⟩

/-- The loop over the collections. `decoded` counts the records so far
and may never pass the stated total. -/
def readCollections (recordCount : Nat) :
    Nat → Nat → Parser StoreError (List RawCollectionSnapshot × Nat)
  | 0, decoded => return ([], decoded)
  | n + 1, decoded => do
    let nameBytes ← readBytes
    let name ← liftM (nameOfBytes nameBytes)
    let count ← readNum 8
    validateCount MIN_RECORD_PAYLOAD_BYTES count
    if recordCount < decoded + count then
      throw (corrupt .malformedCheckpoint)
    else do
      let records ← readMany readRecord count
      let (rest, total) ← readCollections recordCount n (decoded + count)
      return (⟨name, records⟩ :: rest, total)

def readPayload (version : Nat) : Parser StoreError (DecodedRawCheckpoint × Nat) := do
  let checkpointLsn ← readNum 8
  let engineMaxCollections ← readNum 8
  let engineRawInitialCapacity ← readNum 8
  let collectionCount ← readNum 4
  let recordCount ← readNum 8
  validateCount MIN_COLLECTION_PAYLOAD_BYTES collectionCount
  validateCount MIN_RECORD_PAYLOAD_BYTES recordCount
  let (collections, decoded) ← readCollections recordCount collectionCount 0
  return (⟨{ formatVersion := version
             checkpointLsn := checkpointLsn
             engineMaxCollections := engineMaxCollections
             engineRawInitialCapacity := engineRawInitialCapacity
             collectionCount := collectionCount
             recordCount := recordCount
             collections := collections.map collectionMetadata },
    ⟨collections⟩⟩, decoded)

def decodePayload (version : Nat) (payload : List UInt8) : StoreResult DecodedRawCheckpoint := do
  let ((decoded, records), rest) ← (readPayload version).run payload
  if rest ≠ [] ∨ records ≠ decoded.metadata.recordCount then
    throw (corrupt .malformedCheckpoint)
  else return decoded

def decodeCheckpoint (bytes : List UInt8) : StoreResult DecodedRawCheckpoint :=
  if bytes.length < HEADER_LEN + CHECKSUM_LEN then
    .error (corrupt .malformedCheckpoint)
  else if leNat (bytes.take 4) ≠ RAW_CHECKPOINT_MAGIC then
    .error (corrupt .badMagic)
  else
    let version := leNat ((bytes.drop 4).take 2)
    if version ≠ RAW_CHECKPOINT_FORMAT_VERSION then
      .error (corrupt .unknownFormatVersion)
    else
      let payloadLen := leNat ((bytes.drop 6).take 8)
      if MAX_CHECKPOINT_PAYLOAD_BYTES < payloadLen then
        .error (corrupt .payloadTooLarge)
      else if bytes.length ≠ HEADER_LEN + payloadLen + CHECKSUM_LEN then
        .error (corrupt .malformedCheckpoint)
      else
        let storedCrc := leNat ((bytes.drop (HEADER_LEN + payloadLen)).take CHECKSUM_LEN)
        if (crc32c (bytes.take (HEADER_LEN + payloadLen))).toNat ≠ storedCrc then
          .error (corrupt .checksumMismatch)
        else decodePayload version ((bytes.drop HEADER_LEN).take payloadLen)

-- ===== writing and recovering

/-- A checkpoint directory: the file of each LSN. -/
abbrev CheckpointDir := AList fun _ : Lsn => List UInt8

section

variable (hash : RawKey → UInt64) (dir : CheckpointDir)

def writeRawCheckpointToDir (s : MfsStore) (checkpointLsn : Lsn) :
    CheckpointDir × StoreResult RawCheckpointMetadata :=
  let snapshot := s.rawSnapshot
  let metadata := metadataForSnapshot s.config checkpointLsn snapshot
  match encodeCheckpoint crc32c metadata snapshot with
  | .error e => (dir, .error e)
  | .ok bytes => (dir.insert checkpointLsn bytes, .ok metadata)

/-- One directory entry against the best checkpoint so far: an
undecodable one is passed over, a larger LSN replaces. -/
def betterCheckpoint (best : Option DecodedRawCheckpoint)
    (bytes : List UInt8) : Option DecodedRawCheckpoint :=
  match decodeCheckpoint crc32c bytes with
  | .error _ => best
  | .ok decoded =>
    match best with
    | none => some decoded
    | some current =>
      if current.metadata.checkpointLsn < decoded.metadata.checkpointLsn then some decoded
      else best

def latestCheckpoint : Option DecodedRawCheckpoint :=
  dir.entries.foldl (fun best e => betterCheckpoint crc32c best e.2) none

structure RawCheckpointLoad where
  metadata : RawCheckpointMetadata
  engine : MfsStore

variable (config : MfsStoreConfig) (file : Option (List UInt8))

def loadLatestRawCheckpoint (synced : Nat) : StoreResult (Option RawCheckpointLoad) :=
  match latestCheckpoint crc32c dir with
  | none => .ok none
  | some decoded => do
    let engine ← MfsStore.fromRawSnapshot hash config decoded.snapshot file synced
    return some ⟨decoded.metadata, engine⟩

structure RawRecovery where
  engine : MfsStore
  checkpoint : Option RawCheckpointMetadata
  wal : RawWalReplayStats

def recoverRawCheckpointThenWal (synced : Nat) : StoreResult RawRecovery := do
  let loaded ← loadLatestRawCheckpoint crc32c hash dir config file synced
  match loaded with
  | some load => do
    let (engine, wal) ← MfsStore.replayAfter hash crc32c file load.engine
      load.metadata.checkpointLsn
    return ⟨engine, some load.metadata, wal⟩
  | none => do
    let engine ← MfsStore.openMemory config file synced
    let (engine, wal) ← MfsStore.replayAfter hash crc32c file engine 0
    return ⟨engine, none, wal⟩

end

end Checkpoint

end MemoryFirst.Store
