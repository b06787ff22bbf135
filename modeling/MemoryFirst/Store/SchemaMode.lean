/-
`mfs-store/src/store/schema_mode.rs` and the store-level parts of
`index.rs`: documents under a schema in the raw store, executed by one
thread.

# State

`Engine` is the whole of `MfsStore`: the raw store and the indexes of
the schemas declared on it. A schema's indexes are installed when its
collection is created or, empty, by the first call that names it.

A call returns the engine it leaves behind also when it fails. Locks
play no part in one thread; the retries of `update_schema` do, since a
conflict can come from a changed primary key.
-/
import MemoryFirst.Store.SchemaIndex
import Mathlib.Data.List.Infix

namespace MemoryFirst.Store

open Lib

inductive FieldUpdate where
  | set (field : String) (value : SchemaValue)
  | unset (field : String)
  | increment (field : String) (delta : Int64)

/-- The path an update names. -/
def FieldUpdate.field : FieldUpdate → String
  | .set field _ => field
  | .unset field => field
  | .increment field _ => field

structure SchemaReadResult where
  document : SchemaValue
  version : DocumentVersion
  deriving DecidableEq

structure SchemaLookupResult where
  primaryKey : RawKey
  document : SchemaValue
  version : DocumentVersion
  deriving DecidableEq

structure Engine where
  raw : MfsStore
  schemaIndexes : AList fun _ : String => SchemaCollectionIndexes

namespace Engine

variable (e : Engine)

/-- The schema declared for a collection. -/
def schemaOf (collection : String) : Option Schema :=
  (e.schemaIndexes.lookup collection).map SchemaCollectionIndexes.schema

/-- The engine with the indexes of one collection replaced. -/
def setIndexes (name : String) (st : SchemaCollectionIndexes) : Engine :=
  { e with schemaIndexes := e.schemaIndexes.insert name st }

def installSchemaIndexes (schema : Schema)
    (indexes : SchemaCollectionIndexes) : Engine × StoreResult Unit :=
  match e.schemaIndexes.lookup schema.name with
  | some existing =>
    if existing.schema ≠ schema then
      (e, .error (.schemaDeclarationMismatch schema.name))
    else (e, .ok ())
  | none => (e.setIndexes schema.name indexes, .ok ())

def ensureSchemaIndexes (schema : Schema) : Engine × StoreResult SchemaCollectionIndexes :=
  match validateSchema schema with
  | .error err => (e, .error err)
  | .ok _ =>
    match e.schemaIndexes.lookup schema.name with
    | some existing =>
      if existing.schema ≠ schema then
        (e, .error (.schemaDeclarationMismatch schema.name))
      else (e, .ok existing)
    | none =>
      match SchemaCollectionIndexes.new schema with
      | .error err => (e, .error err)
      | .ok indexes => (e.setIndexes schema.name indexes, .ok indexes)

/-- Goes on with the indexes of the schema, if they can be had. -/
def withIndexes {α : Type} (e : Engine) (schema : Schema)
    (rest : Engine → SchemaCollectionIndexes → Engine × StoreResult α) :
    Engine × StoreResult α :=
  match e.ensureSchemaIndexes schema with
  | (e, .error err) => (e, .error err)
  | (e, .ok st) => rest e st

def createSchemaCollection (hash : RawKey → UInt64) (e : Engine)
    (schema : Schema) : Engine × StoreResult Nat :=
  match validateSchema schema with
  | .error err => (e, .error err)
  | .ok _ =>
    match SchemaCollectionIndexes.new schema with
    | .error err => (e, .error err)
    | .ok indexes =>
      match e.raw.createRawCollection hash schema.name with
      | (raw, .error err) => ({ e with raw := raw }, .error err)
      | (raw, .ok id) =>
        match installSchemaIndexes { e with raw := raw } schema indexes with
        | (e, .error err) => (e, .error err)
        | (e, .ok _) => (e, .ok id)

-- ===== writes

/-- The document that is about to be replaced. -/
def oldDocument (schema : Schema) (oldRaw : Option RawValue) : StoreResult (Option SchemaValue) :=
  match oldRaw with
  | some raw => do
    let document ← decodeSchemaRawValue schema raw
    return some document
  | none => .ok none

section

variable (crc32c : List UInt8 → UInt32) (e : Engine) (schema : Schema)

/-- A raw write under the indexes `st`: what `prepare` plans before it is
applied after it. -/
def writeIndexed (st : SchemaCollectionIndexes) (key : RawKey) (value : Option RawValue)
    (options : WriteOptions)
    (prepare : Option SchemaValue → StoreResult SchemaIndexWritePlan) :
    Engine × StoreResult WriteResult :=
  match e.raw.writeWithHooks crc32c schema.name key value options (fun oldRaw _ => do
        let old ← oldDocument schema oldRaw
        prepare old) with
  | (raw, .error err) => ({ e with raw := raw }, .error err)
  | (raw, .ok (result, plan)) =>
    (setIndexes { e with raw := raw } schema.name (st.applyWrite key plan), .ok result)

def putSchema (document : SchemaValue)
    (options : WriteOptions) : Engine × StoreResult WriteResult :=
  match schemaDocumentRawKey schema document with
  | .error err => (e, .error err)
  | .ok key =>
    match validateDocument schema document with
    | .error err => (e, .error (schemaDocumentError schema err))
    | .ok _ => e.withIndexes schema fun e st =>
      e.writeIndexed crc32c schema st key (some (encodeSchemaValue document)) options fun old =>
          st.preparePut e.raw e.schemaOf key old document

def deleteSchema (primaryKey : SchemaValue)
    (options : WriteOptions) : Engine × StoreResult WriteResult :=
  match schemaPrimaryKeyRawKey schema primaryKey with
  | .error err => (e, .error err)
  | .ok key => e.withIndexes schema fun e st =>
    e.writeIndexed crc32c schema st key none options fun old =>
      st.prepareDelete e.schemaOf old

end

-- ===== reads

def getSchemaByRawKey (e : Engine) (schema : Schema) (key : RawKey) :
    StoreResult (Option SchemaReadResult) := do
  match ← e.raw.getRaw schema.name key with
  | none => return none
  | some raw => do
    let document ← decodeSchemaRawValue schema raw.value
    return some ⟨document, raw.version⟩

def getSchema (e : Engine) (schema : Schema) (primaryKey : SchemaValue) :
    Engine × StoreResult (Option SchemaReadResult) :=
  match schemaPrimaryKeyRawKey schema primaryKey with
  | .error err => (e, .error err)
  | .ok key => e.withIndexes schema fun e _ => (e, e.getSchemaByRawKey schema key)

/-- The loop of `lookup_schema` over the listed keys. -/
def lookupDocuments (e : Engine) (schema : Schema)
    (st : SchemaCollectionIndexes) (field : IndexedField)
    (queryKey : SchemaExactIndexKey) :
    List RawKey → StoreResult (List SchemaLookupResult)
  | [] => .ok []
  | key :: keys => do
    match ← e.getSchemaByRawKey schema key with
    | none => lookupDocuments e schema st field queryKey keys
    | some read => do
      let listed ← st.documentMatchesIndex field queryKey read.document
      let own ← if listed then do
          let own ← schemaDocumentRawKey schema read.document
          pure (decide (own = key))
        else pure false
      let rest ← lookupDocuments e schema st field queryKey keys
      return if own then ⟨key, read.document, read.version⟩ :: rest
        else rest

def lookupSchema (e : Engine) (schema : Schema) (field : String) (value : SchemaValue) :
    Engine × StoreResult (List SchemaLookupResult) :=
  e.withIndexes schema fun e st => (e, do
    let (indexedField, queryKey, keys) ← st.lookupKeys field value
    let out ← e.lookupDocuments schema st indexedField queryKey keys
    return out.insertionSort fun a b => a.primaryKey ≤ b.primaryKey)

-- ===== rebuilding

/-- The documents of a snapshot that are filed under their own key. -/
def snapshotDocuments (schema : Schema) :
    List RawSnapshotRecord → StoreResult (List (RawKey × SchemaValue))
  | [] => .ok []
  | r :: records =>
    match r.value with
    | none => snapshotDocuments schema records
    | some value => do
      let document ← decodeSchemaRawValue schema value
      let key ← schemaDocumentRawKey schema document
      let rest ← snapshotDocuments schema records
      return if key = r.key then (r.key, document) :: rest else rest

def rebuildSchemaIndexes (e : Engine) (schema : Schema) : Engine × StoreResult Nat :=
  e.withIndexes schema fun e st =>
    match e.raw.rawSnapshot.collections.find? fun c =>
        c.name = schema.name with
    | none => (e, .error (.collectionNotFound schema.name))
    | some collection =>
      match snapshotDocuments schema collection.records with
      | .error err => (e, .error err)
      | .ok documents =>
        match st.rebuildFromDocuments e.schemaOf documents with
        | .error err => (e, .error err)
        | .ok rebuilt => (e.setIndexes schema.name rebuilt, .ok documents.length)

-- ===== updates

/-- Whether a message has a text in it. -/
def textContains (message text : String) : Bool :=
  decide (text.toList <:+: message.toList)

def mapIncrementError (field : String) (err : SchemaValueError) : StoreError :=
  let msg := err.text
  if textContains msg "overflow" || textContains msg "NumericOverflow" then
    .numericOverflow field
  else if textContains msg "incrementable"
      || textContains msg "NotIncrementable" then
    match err with
    | .notIncrementable _ actual => .updateTypeMismatch field "numeric" actual
    | _ => .updateTypeMismatch field "numeric" .null
  else .invalidUpdatePath field "invalid for increment"

section

variable (f64Add : UInt64 → UInt64 → UInt64)

/-- One update; the primary field itself may not be named. -/
def applyUpdate (primary : SchemaField) (document : SchemaValue)
    (update : FieldUpdate) : StoreResult SchemaValue :=
  if update.field = primary.name then .error .primaryKeyUpdateForbidden
  else
    match update with
    | .set field value =>
      match document.setField field value with
      | (_, .error _) => .error (.invalidUpdatePath field
          "path traverses non-object or is otherwise invalid")
      | (document, .ok _) => .ok document
    | .unset field => .ok (document.unsetField field).1
    | .increment field delta =>
      match document.applyIncrement f64Add field delta with
      | (_, .error err) => .error (mapIncrementError field err)
      | (document, .ok _) => .ok document

/-- The document an update puts in place of `current`. -/
def updatedDocument (schema : Schema) (current : SchemaValue)
    (updates : List FieldUpdate) : StoreResult SchemaValue := do
  let copy ← (decodeSchemaValue (encodeSchemaValue current)).mapError (.schemaDecode schema.name)
  let primary ← primaryField schema
  let mutated ← updates.foldlM (applyUpdate f64Add primary) copy
  (validateDocument schema mutated).mapError (schemaDocumentError schema)
  return mutated

/-- The retry loop of `update_schema`, with `attempts` attempts left. -/
def updateLoop (crc32c : List UInt8 → UInt32) (schema : Schema)
    (primaryKey : SchemaValue) (updates : List FieldUpdate)
    (options : WriteOptions) : Nat → Engine → Engine × StoreResult WriteResult
  | 0, e => (e, .error (.documentNotFound schema.name))
  | attempts + 1, e =>
    match e.getSchema schema primaryKey with
    | (e, .error err) => (e, .error err)
    | (e, .ok none) => (e, .error (.documentNotFound schema.name))
    | (e, .ok (some current)) =>
      match updatedDocument f64Add schema current.document updates with
      | .error err => (e, .error err)
      | .ok mutated =>
        match e.putSchema crc32c schema mutated
            { options with
              expectedVersion := some current.version } with
        | (e, .ok result) => (e, .ok result)
        | (e, .error (.conflict _ _ _ _)) =>
          if attempts = 0 then
            (e, do
              let key ← schemaPrimaryKeyRawKey schema primaryKey
              .error (.conflict schema.name key current.version 0))
          else updateLoop crc32c schema primaryKey updates options attempts e
        | (e, .error err) => (e, .error err)

def updateSchema (crc32c : List UInt8 → UInt32) (e : Engine)
    (schema : Schema) (primaryKey : SchemaValue)
    (updates : List FieldUpdate) (options : WriteOptions) :
    Engine × StoreResult WriteResult :=
  updateLoop f64Add crc32c schema primaryKey updates options 3 e

end

end Engine

end MemoryFirst.Store
