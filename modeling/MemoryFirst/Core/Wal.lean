/-
`mfs-core/src/durability.rs`: the write-ahead log of the core crate, its
record format, the appending backend and the replay.

# Files

The log is the list of its bytes. What the backend's `BufWriter` holds is
counted as part of the file: a crash that loses it is a truncation, and
truncations are explicit. `synced` counts the bytes known to be on disk;
it plays no part in what the backend does.

# Codecs

Keys and values are of any types; a `WalCodec` turns them into bytes and
back. `encode_key` and `encode_value` append to the buffer they are
given: a codec is the bytes it appends. Lengths are stored in 32 bits by
an `as u32` cast, which keeps the low 32 bits, as `leBytes 4` does.

# Replay

`nextRecord` is the body of the loop: `none` is any of its `break`s. The
records go to a callback that cannot fail, so the replay is the list of
them, with the bytes it stopped in front of.

The checksum is a parameter: `crc32c` and `crc32c_append` in sequence
compute it over the concatenation of the parts.
-/
import MemoryFirst.Core.WriteBehind
import MemoryFirst.Lib.Packets

namespace MemoryFirst.Core

open Lib

namespace Wal

/-- "MFWP". -/
def RECORD_MAGIC : Nat := 0x4D465750
def MAX_REPLAY_PAYLOAD_BYTES : Nat := 128 * 1024 * 1024

structure WalCodec (K V : Type) where
  encodeKey : K → List UInt8
  encodeValue : V → List UInt8
  decodeKey : List UInt8 → Option K
  decodeValue : List UInt8 → Option V

/-- Decoding inverts encoding, for every key and every value. -/
structure WalCodec.Lawful {K V : Type} (codec : WalCodec K V) : Prop where
  key : ∀ k, codec.decodeKey (codec.encodeKey k) = some k
  value : ∀ v, codec.decodeValue (codec.encodeValue v) = some v

/-- `U64Codec`: eight bytes, least significant first. -/
def decodeU64 (bytes : List UInt8) : Option UInt64 :=
  if bytes.length ≠ 8 then none else some (UInt64.ofNat (leNat bytes))

def U64Codec : WalCodec UInt64 UInt64 where
  encodeKey k := leBytes 8 k.toNat
  encodeValue v := leBytes 8 v.toNat
  decodeKey := decodeU64
  decodeValue := decodeU64

structure WalConfig where
  syncThresholdBytes : Nat
  syncThresholdRecords : Nat
  deriving DecidableEq, Repr

structure WalBackend where
  config : WalConfig
  file : List UInt8
  synced : Nat
  pendingBytes : Nat
  pendingRecords : Nat
  deriving DecidableEq, Repr

/-- A record as the replay hands it out. -/
structure ReplayRecord (K V : Type) where
  key : K
  value : Option V
  version : Nat
  op : Operation
  deriving DecidableEq, Repr

-- ===== the record

section

variable {K V : Type} (codec : WalCodec K V)

def opByte : Operation → UInt8
  | .put => 0
  | .delete => 1

/-- A length, cast to `u32`, and the bytes. -/
def writeSized (bytes : List UInt8) : List UInt8 :=
  leBytes 4 bytes.length ++ bytes

/-- The payload `write_record` puts together. A record without a value
has a value of length zero. -/
def payloadBytes (r : FlushRecord K V) : List UInt8 :=
  opByte r.op :: (leBytes 8 r.version ++ writeSized (codec.encodeKey r.key) ++ match r.value with
      | some v => writeSized (codec.encodeValue v)
      | none => leBytes 4 0)

def opOfByte (b : Nat) : Except Unit Operation :=
  if b = 0 then .ok .put else if b = 1 then .ok .delete else .error ()

/-- What a decoder returns, as a step that may stop the decoding. -/
def decoded {α : Type} (a : Option α) : Except Unit α :=
  match a with
  | some a => .ok a
  | none => .error ()

/-- A value of length zero is no value. -/
def readValue : Parser Unit (Option V) := do
  let len ← readNat () 4
  if len = 0 then return none
  else do
    let bytes ← takeBytes () len
    let v ← liftM (decoded (codec.decodeValue bytes))
    return some v

def readPayload : Parser Unit (ReplayRecord K V) := do
  let code ← readNat () 1
  let op ← liftM (opOfByte code)
  let version ← readNat () 8
  let keyLen ← readNat () 4
  let keyBytes ← takeBytes () keyLen
  let key ← liftM (decoded (codec.decodeKey keyBytes))
  let value ← readValue codec
  return ⟨key, value, version, op⟩

def decodePayload (payload : List UInt8) : Option (ReplayRecord K V) :=
  match (readPayload codec).run payload with
  | .error _ => none
  | .ok (record, rest) => if rest = [] then some record else none

-- ===== the backend

variable (crc32c : List UInt8 → UInt32)

/-- The bytes of one record in the log. -/
def recordBytes (r : FlushRecord K V) : List UInt8 :=
  packet RECORD_MAGIC crc32c (payloadBytes codec r)

/-- `WalBackend::open`: appends to whatever the file holds. -/
def openBackend (config : WalConfig) (file : List UInt8) (synced : Nat) : WalBackend :=
  ⟨config, file, synced, 0, 0⟩

variable (b : WalBackend)

def syncNow : WalBackend :=
  { b with synced := b.file.length, pendingBytes := 0, pendingRecords := 0 }

def maybeSync : WalBackend :=
  if b.config.syncThresholdBytes ≤ b.pendingBytes
      ∨ b.config.syncThresholdRecords ≤ b.pendingRecords then syncNow b
  else b

def writeRecord (r : FlushRecord K V) : WalBackend :=
  { b with
    file := b.file ++ recordBytes codec crc32c r
    pendingBytes := b.pendingBytes + (recordBytes codec crc32c r).length
    pendingRecords := b.pendingRecords + 1 }

variable (records : List (FlushRecord K V))

def writeRecords : WalBackend :=
  records.foldl (writeRecord codec crc32c) b

def flush : WalBackend :=
  maybeSync (writeRecords codec crc32c b records)

-- ===== the replay

/-- One pass of the replaying loop over the unread bytes: the record and
the bytes behind it. -/
def nextRecord (rest : List UInt8) : Option (ReplayRecord K V × List UInt8) :=
  if rest.length < 8 then none
  else if leNat (rest.take 4) ≠ RECORD_MAGIC then none
  else
    let payloadLen := leNat ((rest.drop 4).take 4)
    if MAX_REPLAY_PAYLOAD_BYTES < payloadLen then none
    else if rest.length < 8 + payloadLen + 4 then none
    else
      let storedCrc := leNat ((rest.drop (8 + payloadLen)).take 4)
      if (crc32c (rest.take (8 + payloadLen))).toNat ≠ storedCrc then none
      else
        (decodePayload codec ((rest.drop 8).take payloadLen)).map
          fun record => (record, rest.drop (8 + payloadLen + 4))

/-- The loop: the records in order, and where it stopped. Every record is
at least twelve bytes long, so the file's length is enough fuel. -/
def replayLoop : Nat → List UInt8 → List (ReplayRecord K V) × List UInt8
  | 0, rest => ([], rest)
  | fuel + 1, rest =>
    match nextRecord codec crc32c rest with
    | none => ([], rest)
    | some (record, rest') =>
      (record :: (replayLoop fuel rest').1, (replayLoop fuel rest').2)

def replay (file : List UInt8) : List (ReplayRecord K V) × List UInt8 :=
  replayLoop codec crc32c (file.length + 1) file

end

end Wal

end MemoryFirst.Core
