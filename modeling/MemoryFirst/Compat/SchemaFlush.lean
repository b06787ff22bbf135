/-
`mfs-compat/src/schema_flush.rs` and `schema_flush_sqlite.rs`: the
statements a batch of flush records is planned into, and the SQLite copy
that executes them.

# Statements and their meaning

A statement is the data its text and its bound values carry. An upsert
goes by the primary column first: a row with the same primary value is
replaced if its LSN is smaller and is left alone otherwise. What is then
written must not share a unique value or its `mfs_key` with another row,
or the statement fails and the transaction with it. A NULL is not the
same as anything.

# What is left out

`REFERENCES` is not enforced, as the source says. The schemas a copy is
asked to ensure are there from the start, one to a collection, with their
tables empty. Failures of the database itself roll the transaction back.
-/
import MemoryFirst.Core.WriteBehind
import MemoryFirst.Store.SchemaValue

namespace MemoryFirst.Compat

open Lib Core Store

structure SchemaFlushRecord where
  collection : String
  key : List UInt8
  op : Operation
  document : Option SchemaValue
  lsn : Nat
  deriving DecidableEq

inductive SqlValue where
  | null
  | integer (value : Int)
  | real (bits : UInt64)
  | text (value : String)
  | blob (bytes : List UInt8)
  deriving DecidableEq

inductive SchemaFlushError where
  | invalidSchema (message : String)
  | missingDocument (collection : String)
  | missingPrimaryField (collection : String)
  | reservedColumnName (collection field column : String)
  | duplicateColumnName (collection first second column : String)
  | missingField (collection field : String)
  | typeMismatch (field expected : String)
  | nonFiniteFloat (field : String)
  | lsnTooLarge (lsn : Nat)
  | encodeValue (field : String) (error : SchemaValueError)
  | encodeDocument (error : SchemaValueError)
  deriving DecidableEq

-- ===== columns

/-- What a statement uses of a column. -/
structure SqlColumn where
  columnName : String
  primary : Bool
  unique : Bool

def columnName (name : String) : String :=
  String.ofList (name.toList.map fun ch =>
    if ch.isAlphanum || ch = '_' then ch else '_')

def sqlType : SchemaFieldType → String
  | .string => "TEXT"
  | .int32 | .int64 | .bool => "INTEGER"
  | .float => "REAL"
  | .bytes | .object _ | .array _ | .json => "BLOB"

def sqlColumn (field : SchemaField) : SqlColumn :=
  ⟨columnName field.name, field.primary, field.unique⟩

/-- The loop of `sql_columns`; `seen` has the field of each column. -/
def sqlColumnsFrom (collection : String) : List (String × String) → List SchemaField →
      Except SchemaFlushError (List SqlColumn)
  | _, [] => .ok []
  | seen, field :: fields =>
    let column := sqlColumn field
    if column.columnName ∈ ["mfs_key", "mfs_lsn", "doc"] then
      .error (.reservedColumnName collection field.name column.columnName)
    else
      match seen.lookup column.columnName with
      | some first => .error (.duplicateColumnName collection first field.name column.columnName)
      | none => do
        let columns ← sqlColumnsFrom collection ((column.columnName, field.name) :: seen) fields
        return column :: columns

def sqlColumns (schema : Schema) : Except SchemaFlushError (List SqlColumn) := do
  schema.validate.mapError fun e => .invalidSchema e.text
  sqlColumnsFrom schema.name [] (schema.fields.filter SchemaField.stored)

-- ===== values

def encodeValueBlob (field : String) (value : SchemaValue) : Except SchemaFlushError SqlValue := do
  (validateCodecSafe value).mapError (.encodeValue field)
  return .blob (encodeSchemaValue value)

def encodeDocument (document : SchemaValue) : Except SchemaFlushError (List UInt8) := do
  (validateCodecSafe document).mapError .encodeDocument
  return encodeSchemaValue document

def lsnToI64 (lsn : Nat) : Except SchemaFlushError Nat :=
  if lsn < 2 ^ 63 then .ok lsn else .error (.lsnTooLarge lsn)

def sqlValueForField (field : SchemaField) (value : SchemaValue) :
    Except SchemaFlushError SqlValue :=
  match field.fieldType, value with
  | _, .null => .ok .null
  | .string, .string v => .ok (.text v)
  | .int32, .int32 v => .ok (.integer v.toInt)
  | .int32, .int64 v =>
    match tryFromInt64 v with
    | some v => .ok (.integer v.toInt)
    | none => .error (.typeMismatch field.name "int32")
  | .int64, .int32 v => .ok (.integer v.toInt)
  | .int64, .int64 v => .ok (.integer v.toInt)
  | .bool, .bool v => .ok (.integer (if v then 1 else 0))
  | .float, .int32 v => .ok (.real (f64OfInt v.toInt))
  | .float, .int64 v => .ok (.real (f64OfInt v.toInt))
  | .float, .float bits =>
    if f64IsFinite bits then .ok (.real bits)
    else .error (.nonFiniteFloat field.name)
  | .bytes, .bytes v => .ok (.blob v)
  | .json, .json v => .ok (.blob v)
  | .object _, .object v => encodeValueBlob field.name (.object v)
  | .array _, .array v => encodeValueBlob field.name (.array v)
  | .json, value => encodeValueBlob field.name value
  | _, _ => .error (.typeMismatch field.name (sqlType field.fieldType))

/-- The value of one column of a document. -/
def fieldValue (collection : String) (document : SchemaValue)
    (field : SchemaField) : Except SchemaFlushError SqlValue :=
  match document.field field.name with
  | some value => sqlValueForField field value
  | none =>
    if field.optional then .ok .null
    else .error (.missingField collection field.name)

/-- A row: the values of the schema's columns and the last three. -/
structure SqlRow where
  values : List SqlValue
  doc : List UInt8
  key : List UInt8
  lsn : Nat
  deriving DecidableEq

def upsertValues (schema : Schema) (record : SchemaFlushRecord) : Except SchemaFlushError SqlRow :=
  match record.document with
  | none => .error (.missingDocument record.collection)
  | some document => do
    let values ← (schema.fields.filter SchemaField.stored).mapM
      (fieldValue record.collection document)
    let doc ← encodeDocument document
    let lsn ← lsnToI64 record.lsn
    return ⟨values, doc, record.key, lsn⟩

-- ===== statements

inductive SqlStatement where
  | upsert (columns : List SqlColumn) (row : SqlRow)
  | delete (key : List UInt8) (lsn : Nat)

variable (schema : Schema) (record : SchemaFlushRecord)

/-- `upsert_sql` with `upsert_values`. -/
def upsertSql : Except SchemaFlushError SqlStatement := do
  let columns ← sqlColumns schema
  failIf (columns.any SqlColumn.primary = false) (.missingPrimaryField schema.name)
  let row ← upsertValues schema record
  return .upsert columns row

/-- `delete_sql` with `delete_values`. -/
def deleteSql : Except SchemaFlushError SqlStatement := do
  schema.validate.mapError fun e => .invalidSchema e.text
  let lsn ← lsnToI64 record.lsn
  return .delete record.key lsn

/-- What the database takes for the same value: the two zeros are. -/
def SqlValue.same : SqlValue → SqlValue → Bool
  | .null, _ => false
  | .real a, .real b => a = b || (a.toNat % 2 ^ 63 = 0 && b.toNat % 2 ^ 63 = 0)
  | a, b => a = b

variable (columns : List SqlColumn)

/-- Two rows share the value of one of the columns chosen. -/
def shareColumn (on : SqlColumn → Bool) (a b : SqlRow) : Bool :=
  (columns.zip (a.values.zip b.values)).any fun (c, x, y) => on c && x.same y

/-- `PRIMARY KEY`, `UNIQUE` and the unique `mfs_key`. -/
def violates (a b : SqlRow) : Bool :=
  shareColumn columns (fun c => c.primary || c.unique) a b || a.key = b.key

/-- A statement on the rows of its table; nothing where it fails. -/
def execute (t : List SqlRow) : SqlStatement → Option (List SqlRow)
  | .upsert columns row =>
    let conflict := shareColumn columns SqlColumn.primary row
    if (t.find? conflict).any fun old => !(old.lsn < row.lsn) then some t
    else
      let others := t.filter fun r => !conflict r
      if others.any (violates columns row) then none
      else some (row :: others)
  | .delete key lsn => some (t.filter fun r => !(r.key = key && r.lsn ≤ lsn))

-- ===== the copy

inductive SqliteFlushError where
  | sqlite
  | schema (error : SchemaFlushError)
  | missingSchema (collection : String)
  deriving DecidableEq

structure SqliteFlushBackend where
  schemas : String → Option Schema
  tables : String → List SqlRow
  watermark : Nat

variable (schemas : String → Option Schema)

/-- The statement of a record. -/
def planRecord (record : SchemaFlushRecord) : Except SqliteFlushError SqlStatement :=
  match schemas record.collection with
  | none => .error (.missingSchema record.collection)
  | some schema =>
    match record.op with
    | .put => (upsertSql schema record).mapError .schema
    | .delete => (deleteSql schema record).mapError .schema

/-- The statements of a transaction, one after another, each with the
table it is for. -/
def executeAll : (String → List SqlRow) → List (String × SqlStatement) →
    Except SqliteFlushError (String → List SqlRow)
  | tables, [] => .ok tables
  | tables, (table, statement) :: planned =>
    match execute (tables table) statement with
    | none => .error .sqlite
    | some rows => executeAll (Function.update tables table rows) planned

namespace SqliteFlushBackend

/-- A new copy, with its schemas ensured. -/
def ready : SqliteFlushBackend :=
  ⟨schemas, fun _ => [], 0⟩

def maxLsn (batch : List SchemaFlushRecord) : Nat :=
  (batch.map SchemaFlushRecord.lsn).foldl max 0

variable (b : SqliteFlushBackend) (batch : List SchemaFlushRecord)

/-- What the batch writes. -/
def transaction : Except SqliteFlushError SqliteFlushBackend := do
  -- every statement is planned before the first is executed
  let planned ← batch.mapM fun record => do
    let statement ← planRecord b.schemas record
    return (record.collection, statement)
  let tables ← executeAll b.tables planned
  let candidate ← (lsnToI64 (maxLsn batch)).mapError .schema
  return { b with tables := tables, watermark := max b.watermark candidate }

/-- `flush_records`: a batch that fails leaves the copy as it was. -/
def flushRecords : SqliteFlushBackend × Except SqliteFlushError Unit :=
  if batch.isEmpty then (b, .ok ())
  else
    match b.transaction batch with
    | .ok b => (b, .ok ())
    | .error e => (b, .error e)

end SqliteFlushBackend

end MemoryFirst.Compat
