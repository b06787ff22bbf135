/-
`mfs-store/src/value.rs`: the values of the object stores and their byte
format.

A `BTreeMap` is a `SortedMap` and a `BTreeSet` one without values; an
`f64` is its bits. The decoder runs over the bytes that are left, with
the errors and limits of the source. `encodeLen` is the cast of a length
to `u32`: the encoder panics on a longer collection.
-/
import MemoryFirst.Core.Wal
import MemoryFirst.Lib.SortedMap
import MemoryFirst.Store.SchemaValue

namespace MemoryFirst.Store

open Lib

def MAX_ENCODED_VALUE_BYTES : Nat := 64 * 1024 * 1024
def MAX_COLLECTION_ITEMS : Nat := 1048576
def MAX_BLOB_BYTES : Nat := 64 * 1024 * 1024

inductive ValueTag where
  | bytes
  | string
  | integer
  | list
  | hash
  | set
  | sortedSet
  | json
  | stream
  | null
  deriving DecidableEq, Repr

structure SortedSetEntry where
  score : UInt64
  member : List UInt8
  deriving DecidableEq, Repr

structure StreamId where
  millis : UInt64
  sequence : UInt64
  deriving DecidableEq, Repr

/-- A `BTreeMap` from byte strings to byte strings. -/
abbrev Fields := SortedMap (List UInt8) (List UInt8)

/-- A `BTreeSet` of byte strings. -/
abbrev Members := SortedMap (List UInt8) Unit

structure StreamEntry where
  id : StreamId
  fields : Fields
  deriving DecidableEq

inductive MfsValue where
  | bytes (bytes : List UInt8)
  | string (value : String)
  | integer (value : Int64)
  | list (values : List (List UInt8))
  | hash (fields : Fields)
  | set (members : Members)
  | sortedSet (entries : List SortedSetEntry)
  | json (bytes : List UInt8)
  | stream (entries : List StreamEntry)
  | null
  deriving DecidableEq

namespace MfsValue

def tag : MfsValue → ValueTag
  | .bytes _ => .bytes
  | .string _ => .string
  | .integer _ => .integer
  | .list _ => .list
  | .hash _ => .hash
  | .set _ => .set
  | .sortedSet _ => .sortedSet
  | .json _ => .json
  | .stream _ => .stream
  | .null => .null

-- ===== encoding

/-- `value.tag() as u8`. -/
def tagByte : ValueTag → UInt8
  | .bytes => 0
  | .string => 1
  | .integer => 2
  | .list => 3
  | .hash => 4
  | .set => 5
  | .sortedSet => 6
  | .json => 7
  | .stream => 8
  | .null => 9

def encodeLen (len : Nat) : List UInt8 := leBytes 4 len

def encodeBytes (bytes : List UInt8) : List UInt8 :=
  encodeLen bytes.length ++ bytes

def encodeField (field : List UInt8 × List UInt8) : List UInt8 :=
  encodeBytes field.1 ++ encodeBytes field.2

def encodeFields (fields : Fields) : List UInt8 :=
  encodeLen fields.size ++ fields.entries.flatMap encodeField

def encodeBody : MfsValue → List UInt8
  | .bytes b => encodeBytes b
  | .json b => encodeBytes b
  | .string value => encodeBytes (utf8 value)
  | .integer value => leBytes 8 value.toUInt64.toNat
  | .list values => encodeLen values.length ++ values.flatMap encodeBytes
  | .hash fields => encodeFields fields
  | .set members => encodeLen members.size ++ members.keys.flatMap encodeBytes
  | .sortedSet entries => encodeLen entries.length ++ entries.flatMap
      fun entry => leBytes 8 entry.score.toNat ++ encodeBytes entry.member
  | .stream entries => encodeLen entries.length ++ entries.flatMap
      fun entry => leBytes 8 entry.id.millis.toNat
        ++ leBytes 8 entry.id.sequence.toNat ++ encodeFields entry.fields
  | .null => []

def encodeValue (value : MfsValue) : List UInt8 :=
  tagByte value.tag :: encodeBody value

-- ===== decoding

/-- The errors of the decoder, by `io::ErrorKind`. -/
inductive DecodeError where
  | invalidData (message : String)
  | unexpectedEof (message : String)
  | invalidUtf8
  deriving DecidableEq, Repr

abbrev ValueParser := Parser DecodeError

def readU8 : ValueParser Nat :=
  readNat (.unexpectedEof "tag truncated") 1

/-- `read_exact` of `k` bytes, as a number. -/
def readExact (k : Nat) : ValueParser Nat :=
  readNat (.unexpectedEof "fixed field truncated") k

def readCount (minBytesPerItem : Nat) : ValueParser Nat := do
  let count ← readExact 4
  if MAX_COLLECTION_ITEMS < count then
    throw (.invalidData "MfsValue collection exceeds item limit")
  else do
    roomFor (.unexpectedEof "MfsValue collection length exceeds remaining payload")
      minBytesPerItem count
    return count

def readBytes : ValueParser (List UInt8) := do
  let len ← readExact 4
  if MAX_BLOB_BYTES < len then
    throw (.invalidData "MfsValue byte field exceeds decoder limit")
  else takeBytes (.unexpectedEof "bytes truncated") len

def readField : ValueParser (List UInt8 × List UInt8) := do
  let field ← readBytes
  let value ← readBytes
  return (field, value)

/-- Fields are inserted as they are read. -/
def readFieldMap : ValueParser Fields := do
  let count ← readCount 8
  let fields ← readMany readField count
  return SortedMap.empty.insertMany fields

def readEntry : ValueParser SortedSetEntry := do
  let n ← readExact 8
  let score := UInt64.ofNat n
  if f64IsFinite score then do
    let member ← readBytes
    return ⟨score, member⟩
  else throw (.invalidData "sorted set score must be finite")

def readStreamEntry : ValueParser StreamEntry := do
  let millis ← readExact 8
  let sequence ← readExact 8
  let fields ← readFieldMap
  return ⟨⟨UInt64.ofNat millis, UInt64.ofNat sequence⟩, fields⟩

/-- The value behind a tag. -/
def readBody (tag : Nat) : ValueParser MfsValue :=
  match tag with
  | 0 => do
    let bytes ← readBytes
    return .bytes bytes
  | 1 => do
    let bytes ← readBytes
    match fromUtf8 bytes with
    | some value => return .string value
    | none => throw .invalidUtf8
  | 2 => do
    let n ← readExact 8
    return .integer (UInt64.ofNat n).toInt64
  | 3 => do
    let count ← readCount 4
    let values ← readMany readBytes count
    return .list values
  | 4 => do
    let fields ← readFieldMap
    return .hash fields
  | 5 => do
    let count ← readCount 4
    let values ← readMany readBytes count
    return .set (SortedMap.empty.insertMany (values.map fun v => (v, ())))
  | 6 => do
    let count ← readCount 12
    let entries ← readMany readEntry count
    return .sortedSet entries
  | 7 => do
    let bytes ← readBytes
    return .json bytes
  | 8 => do
    let count ← readCount 20
    let entries ← readMany readStreamEntry count
    return .stream entries
  | 9 => return .null
  | _ => throw (.invalidData "unknown MfsValue tag")

def readValue : ValueParser MfsValue := do
  let tag ← readU8
  readBody tag

def decodeValue (bytes : List UInt8) : Except DecodeError MfsValue :=
  if MAX_ENCODED_VALUE_BYTES < bytes.length then
    .error (.invalidData "MfsValue payload exceeds decoder limit")
  else
    match readValue.run bytes with
    | .error e => .error e
    | .ok (value, rest) =>
      if rest = [] then .ok value
      else .error (.invalidData "trailing MfsValue bytes")

/-- `MfsValueCodec`. A key is its own encoding. -/
def codec : Core.Wal.WalCodec (List UInt8) MfsValue where
  encodeKey := id
  encodeValue := encodeValue
  decodeKey := some
  decodeValue := fun bytes => (decodeValue bytes).toOption

end MfsValue

end MemoryFirst.Store
