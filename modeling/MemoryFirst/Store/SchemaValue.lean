/-
`mfs-store/src/schema_value.rs`: document values, their validation
against a schema, path updates and the binary codec.

# Representation

An object is the list of its fields in the byte order of their names, as
`BTreeMap` iterates them; `insertField` keeps the order and `ordered`
says that a value has it at every level. An `f64` is its bits: whether
they are finite and the conversion from integers are computed, the
addition of two floats is a parameter.

A setter that borrows the object mutably is a function that returns the
object it leaves behind with its result. The decoder runs on the number
of nesting levels it has left.
-/
import MemoryFirst.Store.Schema

namespace MemoryFirst.Store

open Lib

def MAX_SCHEMA_VALUE_BYTES : Nat := 64 * 1024 * 1024
def MAX_SCHEMA_COLLECTION_ITEMS : Nat := 1048576
def MAX_SCHEMA_BLOB_BYTES : Nat := 64 * 1024 * 1024
def MAX_SCHEMA_VALUE_DEPTH : Nat := 64

inductive SchemaValueKind where
  | null
  | string
  | int32
  | int64
  | float
  | bool
  | object
  | array
  | json
  | bytes
  deriving DecidableEq, Repr

/-- `Display` of a kind. -/
def SchemaValueKind.text : SchemaValueKind → String
  | .null => "null"
  | .string => "string"
  | .int32 => "int32"
  | .int64 => "int64"
  | .float => "float"
  | .bool => "bool"
  | .object => "object"
  | .array => "array"
  | .json => "json"
  | .bytes => "bytes"

inductive SchemaValue where
  | null
  | string (value : String)
  | int32 (value : Int32)
  | int64 (value : Int64)
  | float (bits : UInt64)
  | bool (value : Bool)
  | object (fields : List (String × SchemaValue))
  | array (values : List SchemaValue)
  | json (bytes : List UInt8)
  | bytes (bytes : List UInt8)

abbrev SchemaObject := List (String × SchemaValue)

-- ===== equality

section

mutual

/-- The same value; floats are compared by their bits. -/
def SchemaValue.beq : SchemaValue → SchemaValue → Bool
  | .null, .null => true
  | .string v, .string v' => decide (v = v')
  | .int32 v, .int32 v' => decide (v = v')
  | .int64 v, .int64 v' => decide (v = v')
  | .float v, .float v' => decide (v = v')
  | .bool v, .bool v' => decide (v = v')
  | .object l, .object l' => SchemaValue.beqFields l l'
  | .array l, .array l' => SchemaValue.beqItems l l'
  | .json v, .json v' => decide (v = v')
  | .bytes v, .bytes v' => decide (v = v')
  | _, _ => false

def SchemaValue.beqFields : List (String × SchemaValue) → List (String × SchemaValue) → Bool
  | [], [] => true
  | (n, v) :: l, (n', v') :: l' =>
    decide (n = n') && v.beq v' && SchemaValue.beqFields l l'
  | _, _ => false

def SchemaValue.beqItems : List SchemaValue → List SchemaValue → Bool
  | [], [] => true
  | v :: l, v' :: l' => v.beq v' && SchemaValue.beqItems l l'
  | _, _ => false

end

attribute [local simp] SchemaValue.beq SchemaValue.beqFields SchemaValue.beqItems

mutual

theorem SchemaValue.beq_iff : ∀ v v' : SchemaValue, v.beq v' = true ↔ v = v'
  | .null, v' | .string _, v' | .int32 _, v' | .int64 _, v' | .float _, v' | .bool _, v'
  | .json _, v' | .bytes _, v' => by cases v' <;> simp
  | .object l, v' => by cases v' <;> simp [SchemaValue.beqFields_iff l]
  | .array l, v' => by cases v' <;> simp [SchemaValue.beqItems_iff l]

theorem SchemaValue.beqFields_iff : ∀ l l' : List (String × SchemaValue),
    SchemaValue.beqFields l l' = true ↔ l = l'
  | [], l' => by cases l' <;> simp
  | (n, v) :: l, l' => by
    cases l' with
    | nil => simp
    | cons f' l' =>
      obtain ⟨n', v'⟩ := f'
      simp [v.beq_iff v', beqFields_iff l l']

theorem SchemaValue.beqItems_iff : ∀ l l' : List SchemaValue,
    SchemaValue.beqItems l l' = true ↔ l = l'
  | [], l' => by cases l' <;> simp
  | v :: l, l' => by
    cases l' with
    | nil => simp
    | cons v' l' => simp [v.beq_iff v', SchemaValue.beqItems_iff l l']

end

instance : DecidableEq SchemaValue := fun v v' =>
  decidable_of_iff _ (v.beq_iff v')

end

inductive SchemaValueError where
  | invalidSchema (error : SchemaError)
  | rootMustBeObject (actual : SchemaValueKind)
  | missingRequiredField (name : String)
  | nullNotAllowed (name : String)
  | typeMismatch (name expected : String) (actual : SchemaValueKind)
  | int32OutOfRange (name : String) (value : Int64)
  | nonFiniteFloat (name : String)
  | valueNestingTooDeep (name : String)
  | collectionTooLarge (name : String) (len : Nat)
  | blobTooLarge (name : String) (len : Nat)
  | encodedValueTooLarge (len : Nat)
  | fieldPathNotObject (path segment : String) (actual : SchemaValueKind)
  | notIncrementable (path : String) (actual : SchemaValueKind)
  | numericOverflow (path : String)
  deriving DecidableEq

/-- `Display` of a value error. -/
def SchemaValueError.text : SchemaValueError → String
  | .invalidSchema error => "invalid schema: " ++ error.text
  | .rootMustBeObject actual => "schema document root must be object, got " ++ actual.text
  | .missingRequiredField name => "missing required field `" ++ name ++ "`"
  | .nullNotAllowed name => "field `" ++ name ++ "` cannot be null"
  | .typeMismatch name expected actual =>
    "field `" ++ name ++ "` expected " ++ expected ++ ", got "
      ++ actual.text
  | .int32OutOfRange name value => "field `" ++ name ++ "` int32 value "
      ++ toString value.toInt ++ " is out of range"
  | .nonFiniteFloat name => "field `" ++ name ++ "` float must be finite"
  | .valueNestingTooDeep name => "field `" ++ name ++ "` exceeds max schema value nesting"
  | .collectionTooLarge name len => "field `" ++ name
      ++ "` collection length " ++ toString len ++ " exceeds limit"
  | .blobTooLarge name len => "field `" ++ name ++ "` byte length "
      ++ toString len ++ " exceeds limit"
  | .encodedValueTooLarge len =>
    "encoded schema value length " ++ toString len ++ " exceeds limit"
  | .fieldPathNotObject path segment actual => "field path `" ++ path
      ++ "`: segment `" ++ segment ++ "` is " ++ actual.text
      ++ ", not an object"
  | .notIncrementable path actual => "field `" ++ path ++ "` is "
      ++ actual.text ++ " which is not incrementable"
  | .numericOverflow path => "numeric overflow on field `" ++ path ++ "`"

-- ===== floats

/-- `f64::is_finite`: the exponent is not all ones. -/
def f64IsFinite (bits : UInt64) : Bool :=
  bits.toNat / 2 ^ 52 % 2 ^ 11 ≠ 2 ^ 11 - 1

/-- `m / 2 ^ k`, rounded to nearest, ties to even. -/
def roundShift (m k : Nat) : Nat :=
  let q := m / 2 ^ k
  let r := m % 2 ^ k
  if 2 ^ k < 2 * r ∨ (2 * r = 2 ^ k ∧ q % 2 = 1) then q + 1 else q

/-- `n as f64`: a significand of 53 bits under the exponent of the
leading one. A significand that is rounded up to `2 ^ 53` carries into
the exponent. -/
def f64OfInt (n : Int) : UInt64 :=
  let m := n.natAbs
  let sign := if n < 0 then 2 ^ 63 else 0
  if m = 0 then 0
  else
    let e := m.log2
    let significand := if e ≤ 52 then m * 2 ^ (52 - e)
      else roundShift m (e - 52)
    UInt64.ofNat (sign + (e + 1023) * 2 ^ 52 + (significand - 2 ^ 52))

-- ===== objects

def getField (name : String) : SchemaObject → Option SchemaValue
  | [] => none
  | (n, v) :: fields => if n = name then some v else getField name fields

/-- `BTreeMap::insert`. -/
def insertField (name : String) (value : SchemaValue) : SchemaObject → SchemaObject
  | [] => [(name, value)]
  | (n, v) :: fields =>
    if n = name then (name, value) :: fields
    else if utf8 name < utf8 n then (name, value) :: (n, v) :: fields
    else (n, v) :: insertField name value fields

variable (name : String)

/-- `BTreeMap::remove`. -/
def removeField (fields : SchemaObject) : SchemaObject :=
  fields.filter fun f => f.1 ≠ name

namespace SchemaValue

def kind : SchemaValue → SchemaValueKind
  | .null => .null
  | .string _ => .string
  | .int32 _ => .int32
  | .int64 _ => .int64
  | .float _ => .float
  | .bool _ => .bool
  | .object _ => .object
  | .array _ => .array
  | .json _ => .json
  | .bytes _ => .bytes

/-- `tag() as u8`. -/
def tag : SchemaValue → UInt8
  | .null => 0
  | .string _ => 1
  | .int32 _ => 2
  | .int64 _ => 3
  | .float _ => 4
  | .bool _ => 5
  | .object _ => 6
  | .array _ => 7
  | .json _ => 8
  | .bytes _ => 9

def asObject : SchemaValue → Option SchemaObject
  | .object fields => some fields
  | _ => none

end SchemaValue

/-- `resolve_path` along the segments of a path. -/
def resolveSegments : List String → SchemaObject → Option SchemaValue
  | [], _ => none
  | [last], fields => getField last fields
  | s :: rest, fields =>
    match getField s fields with
    | some (.object nested) => resolveSegments rest nested
    | _ => none

def resolvePath (fields : SchemaObject) (path : String) : Option SchemaValue :=
  resolveSegments (segments path) fields

variable (v : SchemaValue)

def SchemaValue.field (path : String) : Option SchemaValue := do
  let fields ← v.asObject
  resolvePath fields path

-- ===== updates

/-- Follows the parents of a path, creating the objects that are missing,
and lets `update` act on the object at their end. -/
def updateSegments (path : String) (update : String → SchemaObject →
      SchemaObject × Except SchemaValueError Unit) :
    List String → SchemaObject → SchemaObject × Except SchemaValueError Unit
  | [], fields => (fields, .ok ())
  | [last], fields => update last fields
  | s :: rest, fields =>
    match getField s fields with
    | none =>
      let (nested, r) := updateSegments path update rest []
      (insertField s (.object nested) fields, r)
    | some (.object nested) =>
      let (nested, r) := updateSegments path update rest nested
      (insertField s (.object nested) fields, r)
    | some other => (fields, .error (.fieldPathNotObject path s other.kind))

def setFieldImpl (fields : SchemaObject) (path : String)
    (value : SchemaValue) : SchemaObject × Except SchemaValueError Unit :=
  updateSegments path (fun last fields => (insertField last value fields, .ok ()))
    (segments path) fields

/-- `unset_field_impl` along the segments of the path. -/
def unsetSegments : List String → SchemaObject → SchemaObject × Bool
  | [], fields => (fields, false)
  | [last], fields => (removeField last fields, (getField last fields).isSome)
  | s :: rest, fields =>
    match getField s fields with
    | some (.object nested) =>
      let (nested, removed) := unsetSegments rest nested
      (insertField s (.object nested) fields, removed)
    | _ => (fields, false)

def unsetFieldImpl (fields : SchemaObject) (path : String) : SchemaObject × Bool :=
  unsetSegments (segments path) fields

/-- `i64::checked_add`. -/
def checkedAdd (a b : Int64) : Option Int64 :=
  let sum := a.toInt + b.toInt
  if -2 ^ 63 ≤ sum ∧ sum < 2 ^ 63 then some (Int64.ofInt sum) else none

/-- `i32::try_from`. -/
def tryFromInt64 (a : Int64) : Option Int32 :=
  if -2 ^ 31 ≤ a.toInt ∧ a.toInt < 2 ^ 31 then some (Int32.ofInt a.toInt)
  else none

section

variable (f64Add : UInt64 → UInt64 → UInt64)

/-- The value an increment leaves in place of `value`. -/
def incremented (path : String) (delta : Int64) (value : SchemaValue) :
    Except SchemaValueError SchemaValue :=
  match value with
  | .int32 v =>
    match (checkedAdd v.toInt64 delta).bind tryFromInt64 with
    | some sum => .ok (.int32 sum)
    | none => .error (.numericOverflow path)
  | .int64 v =>
    match checkedAdd v delta with
    | some sum => .ok (.int64 sum)
    | none => .error (.numericOverflow path)
  | .float bits => .ok (.float (f64Add bits (f64OfInt delta.toInt)))
  | other => .error (.notIncrementable path other.kind)

def applyIncrementImpl (fields : SchemaObject) (path : String)
    (delta : Int64) : SchemaObject × Except SchemaValueError Unit :=
  updateSegments path (fun last fields =>
      match getField last fields with
      | none => (insertField last (.int64 delta) fields, .ok ())
      | some value =>
        match incremented f64Add path delta value with
        | .ok value => (insertField last value fields, .ok ())
        | .error e => (fields, .error e))
    (segments path) fields

end

namespace SchemaValue

def setField (path : String) (value : SchemaValue) : SchemaValue × Except SchemaValueError Unit :=
  match v with
  | .object fields =>
    let (fields, r) := setFieldImpl fields path value
    (.object fields, r)
  | v => (v, .error (.rootMustBeObject v.kind))

def unsetField (path : String) : SchemaValue × Bool :=
  match v with
  | .object fields =>
    let (fields, removed) := unsetFieldImpl fields path
    (.object fields, removed)
  | v => (v, false)

def applyIncrement (f64Add : UInt64 → UInt64 → UInt64) (v : SchemaValue)
    (path : String) (delta : Int64) :
    SchemaValue × Except SchemaValueError Unit :=
  match v with
  | .object fields =>
    let (fields, r) := applyIncrementImpl f64Add fields path delta
    (.object fields, r)
  | v => (v, .error (.rootMustBeObject v.kind))

end SchemaValue

-- ===== validation

def joinPath (parent name : String) : String :=
  if parent = "" then name else parent ++ "." ++ name

/-- `{name}[{idx}]`. -/
def itemPath (idx : Nat) : String :=
  name ++ "[" ++ toString idx ++ "]"

def typeMismatch (expected : SchemaFieldType)
    (actual : SchemaValue) : Except SchemaValueError Unit :=
  .error (.typeMismatch name expected.typeName actual.kind)

mutual

def validateValueType (expected : SchemaFieldType) (value : SchemaValue)
    (name : String) : Except SchemaValueError Unit :=
  match expected with
  | .string =>
    match value with
    | .string _ => .ok ()
    | _ => typeMismatch name .string value
  | .int32 =>
    match value with
    | .int32 _ => .ok ()
    | .int64 v =>
      if (tryFromInt64 v).isSome then .ok ()
      else .error (.int32OutOfRange name v)
    | _ => typeMismatch name .int32 value
  | .int64 =>
    match value with
    | .int32 _ => .ok ()
    | .int64 _ => .ok ()
    | _ => typeMismatch name .int64 value
  | .float =>
    match value with
    | .int32 _ => .ok ()
    | .int64 _ => .ok ()
    | .float bits =>
      if f64IsFinite bits then .ok () else .error (.nonFiniteFloat name)
    | _ => typeMismatch name .float value
  | .bool =>
    match value with
    | .bool _ => .ok ()
    | _ => typeMismatch name .bool value
  | .object fields =>
    match value with
    | .object object => validateFields fields object name
    | _ => typeMismatch name (.object fields) value
  | .array inner =>
    match value with
    | .array values => values.zipIdx.forM fun (v, idx) =>
      validateValueType inner v (itemPath name idx)
    | _ => typeMismatch name (.array inner) value
  | .json => .ok ()
  | .bytes =>
    match value with
    | .bytes _ => .ok ()
    | _ => typeMismatch name .bytes value

def validateFields (fields : List SchemaField) (object : SchemaObject)
    (parent : String) : Except SchemaValueError Unit :=
  match fields with
  | [] => .ok ()
  | f :: fields => do
    validateField f object parent
    validateFields fields object parent

/-- One field of `validate_fields`. -/
def validateField (f : SchemaField) (object : SchemaObject)
    (parent : String) : Except SchemaValueError Unit :=
  match f with
  | ⟨name, fieldType, _, optional, _, _, _, _, _, _⟩ =>
    match resolvePath object name with
    | none =>
      if optional then .ok ()
      else .error (.missingRequiredField (joinPath parent name))
    | some .null =>
      if optional then .ok ()
      else .error (.nullNotAllowed (joinPath parent name))
    | some value => validateValueType fieldType value (joinPath parent name)

end

-- ===== the length

/-- `checked_add_len` on `usize`. -/
def checkedAddLen (left right : Nat) : Except SchemaValueError Nat :=
  if 2 ^ 64 - 1 < left + right then
    .error (.encodedValueTooLarge (2 ^ 64 - 1))
  else .ok (left + right)

def encodedRawBytesLen (name : String) (len : Nat) : Except SchemaValueError Nat :=
  if MAX_SCHEMA_BLOB_BYTES < len then .error (.blobTooLarge name len)
  else checkedAddLen 4 len

def encodedBlobLen (name : String) (len : Nat) : Except SchemaValueError Nat := do
  let raw ← encodedRawBytesLen name len
  checkedAddLen 1 raw

mutual

def encodedLen (value : SchemaValue) (name : String) (depth : Nat) : Except SchemaValueError Nat :=
  if MAX_SCHEMA_VALUE_DEPTH < depth then .error (.valueNestingTooDeep name)
  else
    match value with
    | .null => .ok 1
    | .string v => encodedBlobLen name (utf8 v).length
    | .int32 _ => .ok (1 + 4)
    | .int64 _ => .ok (1 + 8)
    | .float bits =>
      if f64IsFinite bits then .ok (1 + 8)
      else .error (.nonFiniteFloat name)
    | .bool _ => .ok (1 + 1)
    | .json v => encodedBlobLen name v.length
    | .bytes v => encodedBlobLen name v.length
    | .array values =>
      if MAX_SCHEMA_COLLECTION_ITEMS < values.length then
        .error (.collectionTooLarge name values.length)
      else encodedItemsLen values name depth 0 (1 + 4)
    | .object fields =>
      if MAX_SCHEMA_COLLECTION_ITEMS < fields.length then
        .error (.collectionTooLarge name fields.length)
      else encodedFieldsLen fields name depth (1 + 4)

/-- The loop over the items of an array, `idx` of them behind it. -/
def encodedItemsLen (values : List SchemaValue) (name : String)
    (depth idx total : Nat) : Except SchemaValueError Nat :=
  match values with
  | [] => .ok total
  | v :: values => do
    let len ← encodedLen v (itemPath name idx) (depth + 1)
    let total ← checkedAddLen total len
    encodedItemsLen values name depth (idx + 1) total

def encodedFieldsLen (fields : List (String × SchemaValue))
    (name : String) (depth total : Nat) : Except SchemaValueError Nat :=
  match fields with
  | [] => .ok total
  | (field, v) :: fields => do
    let raw ← encodedRawBytesLen (joinPath name field) (utf8 field).length
    let total ← checkedAddLen total raw
    let len ← encodedLen v (joinPath name field) (depth + 1)
    let total ← checkedAddLen total len
    encodedFieldsLen fields name depth total

end

def validateCodecSafe (value : SchemaValue) : Except SchemaValueError Unit := do
  let len ← encodedLen value "" 0
  failIf (MAX_SCHEMA_VALUE_BYTES < len) (.encodedValueTooLarge len)

def validateDocument (schema : Schema) (value : SchemaValue) : Except SchemaValueError Unit := do
  match schema.validate with
  | .error e => throw (.invalidSchema e)
  | .ok _ =>
    match value with
    | .object object => do
      validateFields schema.fields object ""
      validateCodecSafe value
    | _ => throw (.rootMustBeObject value.kind)

-- ===== encoding

/-- `encode_bytes`. -/
def encodeBytes (bytes : List UInt8) : List UInt8 :=
  leBytes 4 bytes.length ++ bytes

mutual

/-- `encode_schema_value_unchecked`, the bytes behind the tag. -/
def encodeBody : SchemaValue → List UInt8
  | .null => []
  | .string v => encodeBytes (utf8 v)
  | .int32 v => leBytes 4 v.toUInt32.toNat
  | .int64 v => leBytes 8 v.toUInt64.toNat
  | .float bits => leBytes 8 bits.toNat
  | .bool v => [if v then 1 else 0]
  | .object fields => leBytes 4 fields.length ++ encodeFields fields
  | .array values => leBytes 4 values.length ++ encodeItems values
  | .json v => encodeBytes v
  | .bytes v => encodeBytes v

def encodeFields : List (String × SchemaValue) → List UInt8
  | [] => []
  | (name, v) :: fields =>
    encodeBytes (utf8 name) ++ v.tag :: encodeBody v ++ encodeFields fields

def encodeItems : List SchemaValue → List UInt8
  | [] => []
  | v :: values => v.tag :: encodeBody v ++ encodeItems values

end

/-- `encode_schema_value_unchecked`, and `encode_schema_value` of a value
that passes its check. -/
def encodeSchemaValue (v : SchemaValue) : List UInt8 := v.tag :: encodeBody v

-- ===== decoding

/-- The errors of the decoder, by `io::ErrorKind`. The text of a UTF-8
error is the standard library's. -/
inductive SchemaDecodeError where
  | invalidData (message : String)
  | unexpectedEof (message : String)
  | invalidUtf8
  deriving DecidableEq, Repr

abbrev SchemaParser := Parser SchemaDecodeError

def readU8 : SchemaParser Nat :=
  readNat (.unexpectedEof "tag truncated") 1

/-- `read_exact` of `k` bytes, as a number. -/
def readExact (k : Nat) : SchemaParser Nat :=
  readNat (.unexpectedEof "fixed field truncated") k

def readCount (minBytesPerItem : Nat) : SchemaParser Nat := do
  let count ← readExact 4
  if MAX_SCHEMA_COLLECTION_ITEMS < count then
    throw (.invalidData "SchemaValue collection exceeds item limit")
  else do
    roomFor (.unexpectedEof "SchemaValue collection length exceeds remaining payload")
      minBytesPerItem count
    return count

def readSchemaBytes : SchemaParser (List UInt8) := do
  let len ← readExact 4
  if MAX_SCHEMA_BLOB_BYTES < len then
    throw (.invalidData "SchemaValue byte field exceeds decoder limit")
  else takeBytes (.unexpectedEof "bytes truncated") len

def readText : SchemaParser String := do
  let bytes ← readSchemaBytes
  match fromUtf8 bytes with
  | some s => return s
  | none => throw .invalidUtf8

def readBool : SchemaParser Bool := do
  let b ← readU8
  if b = 0 then return false
  else if b = 1 then return true
  else throw (.invalidData "SchemaValue bool must be 0 or 1")

def readFloat : SchemaParser UInt64 := do
  let n ← readExact 8
  let bits := UInt64.ofNat n
  if f64IsFinite bits then return bits
  else throw (.invalidData "SchemaValue float must be finite")

/-- The loop over the fields of an object. -/
def readFields (readValue : SchemaParser SchemaValue) :
    Nat → SchemaObject → SchemaParser SchemaObject
  | 0, fields => return fields
  | n + 1, fields => do
    let name ← readText
    if (getField name fields).isSome then
      throw (.invalidData "SchemaValue object contains duplicate field")
    else do
      let value ← readValue
      readFields readValue n (insertField name value fields)

/-- The value behind a tag. -/
def readBody (readValue : SchemaParser SchemaValue) (tag : Nat) : SchemaParser SchemaValue :=
  match tag with
  | 0 => return .null
  | 1 => do
    let s ← readText
    return .string s
  | 2 => do
    let n ← readExact 4
    return .int32 (UInt32.ofNat n).toInt32
  | 3 => do
    let n ← readExact 8
    return .int64 (UInt64.ofNat n).toInt64
  | 4 => do
    let bits ← readFloat
    return .float bits
  | 5 => do
    let b ← readBool
    return .bool b
  | 6 => do
    let count ← readCount 5
    let fields ← readFields readValue count []
    return .object fields
  | 7 => do
    let count ← readCount 1
    let values ← readMany readValue count
    return .array values
  | 8 => do
    let bytes ← readSchemaBytes
    return .json bytes
  | 9 => do
    let bytes ← readSchemaBytes
    return .bytes bytes
  | _ => throw (.invalidData "unknown SchemaValue tag")

/-- `decode_schema_value_at`, with `levels` levels of nesting left. -/
def decodeSchemaValueAt : Nat → SchemaParser SchemaValue
  | 0 => throw (.invalidData "SchemaValue nesting exceeds decoder limit")
  | levels + 1 => do
    let tag ← readU8
    readBody (decodeSchemaValueAt levels) tag

def decodeSchemaValue (bytes : List UInt8) : Except SchemaDecodeError SchemaValue :=
  if MAX_SCHEMA_VALUE_BYTES < bytes.length then
    .error (.invalidData "SchemaValue payload exceeds decoder limit")
  else do
    let (value, rest) ←
      (decodeSchemaValueAt (MAX_SCHEMA_VALUE_DEPTH + 1)).run bytes
    if rest = [] then .ok value
    else .error (.invalidData "trailing SchemaValue bytes")

-- ===== order

/-- The names of an object in strictly increasing byte order. -/
def namesOrdered (fields : SchemaObject) : Bool :=
  decide ((fields.map fun f => utf8 f.1).Pairwise (· < ·))

mutual

/-- Every object in the value is in order, as `BTreeMap` keeps it. -/
def SchemaValue.ordered : SchemaValue → Bool
  | .object fields => namesOrdered fields && fieldsOrdered fields
  | .array values => itemsOrdered values
  | _ => true

def fieldsOrdered : List (String × SchemaValue) → Bool
  | [] => true
  | (_, v) :: fields => v.ordered && fieldsOrdered fields

def itemsOrdered : List SchemaValue → Bool
  | [] => true
  | v :: values => v.ordered && itemsOrdered values

end

abbrev OrderedValue := { v : SchemaValue // v.ordered = true }

end MemoryFirst.Store
