/-
`mfs-store/src/store/index.rs` and `reference.rs`: what the store keeps
in memory beside a schema collection, executed by one thread.

# Entries

A document is filed under the entries of its indexed fields, and its
references under those of its reference fields: an entry is the position
of the field and the key of its value. The source has one map for each
field; here one map goes by the whole entry, and `indexes[i].get(k)` is
the list under `⟨i, k⟩`.

The functions take from the store what they read of it: the raw
collections, and the schemas that are declared (`schemaOf`).
-/
import MemoryFirst.Lib.Postings
import MemoryFirst.Store.Raw

namespace MemoryFirst.Store

open Lib

-- ===== primary keys

variable (schema : Schema)

def validateSchema : StoreResult Unit :=
  schema.validate.mapError (.schemaDefinition schema.name)

def schemaDocumentError (error : SchemaValueError) : StoreError :=
  .schemaDocument schema.name error

def ensureDocumentRoot (document : SchemaValue) : StoreResult Unit :=
  failIf (document.asObject.isSome = false)
    (schemaDocumentError schema (.rootMustBeObject document.kind))

def primaryField : StoreResult SchemaField :=
  match schema.primaryField with
  | some f => .ok f
  | none => .error (.schemaMissingPrimaryField schema.name)

def encodeI32Key (value : Int32) : RawKey :=
  1 :: leBytes 4 value.toUInt32.toNat

def encodeI64Key (value : Int64) : RawKey :=
  2 :: leBytes 8 value.toUInt64.toNat

def encodeKeyBytes (tag : UInt8) (bytes : List UInt8) : RawKey :=
  tag :: bytes

variable (primary : SchemaField) (value : SchemaValue)

def primaryKeyMismatch : StoreError :=
  .schemaPrimaryKeyTypeMismatch schema.name primary.name primary.fieldType.typeName value.kind

def primaryValueRawKey : StoreResult RawKey :=
  match primary.fieldType, value with
  | .string, .string v => .ok (encodeKeyBytes 0 (utf8 v))
  | .int32, .int32 v => .ok (encodeI32Key v)
  | .int32, .int64 v =>
    match tryFromInt64 v with
    | some v => .ok (encodeI32Key v)
    | none => .error (primaryKeyMismatch schema primary value)
  | .int64, .int32 v => .ok (encodeI64Key v.toInt64)
  | .int64, .int64 v => .ok (encodeI64Key v)
  | .bytes, .bytes v => .ok (encodeKeyBytes 3 v)
  | _, _ => .error (primaryKeyMismatch schema primary value)

def schemaDocumentRawKey (document : SchemaValue) : StoreResult RawKey := do
  validateSchema schema
  ensureDocumentRoot schema document
  let primary ← primaryField schema
  match document.field primary.name with
  | none => throw (.schemaMissingPrimaryKey schema.name primary.name)
  | some value => primaryValueRawKey schema primary value

def schemaPrimaryKeyRawKey (primaryKey : SchemaValue) : StoreResult RawKey := do
  validateSchema schema
  let primary ← primaryField schema
  primaryValueRawKey schema primary primaryKey

def decodeSchemaRawValue (raw : RawValue) : StoreResult SchemaValue := do
  let document ← (decodeSchemaValue raw).mapError (.schemaDecode schema.name)
  (validateDocument schema document).mapError (schemaDocumentError schema)
  return document

-- ===== entries

/-- The position of a field and the key of its value. -/
structure Entry (κ : Type) where
  fieldIdx : Nat
  key : κ
  deriving DecidableEq

/-- A field of a document; null counts as missing. -/
def presentValue (document : SchemaValue) (name : String) : Option SchemaValue :=
  match document.field name with
  | some .null => none
  | value => value

/-- The loop of both `document_entries`: the entries of the fields that
are present, the first field having position `idx`. -/
def documentEntriesFrom {φ κ : Type} (name : φ → String)
    (keyOf : φ → SchemaValue → StoreResult κ) (document : SchemaValue) :
    Nat → List φ → StoreResult (List (Entry κ))
  | _, [] => .ok []
  | idx, f :: fields =>
    match presentValue document (name f) with
    | none => documentEntriesFrom name keyOf document (idx + 1) fields
    | some value => do
      let key ← keyOf f value
      let rest ← documentEntriesFrom name keyOf document (idx + 1) fields
      return ⟨idx, key⟩ :: rest

-- ===== references

structure ReferenceField where
  name : String
  reference : Reference
  deriving DecidableEq

abbrev PreparedReferenceEntry := Entry RawKey

structure SchemaReferenceWritePlan where
  oldEntries : List PreparedReferenceEntry
  newEntries : List PreparedReferenceEntry

/-- `forward` has the target of each field and source, `reverse` the
sources of each field and target. -/
structure SchemaCollectionReferences where
  fields : List ReferenceField
  forward : AList fun _ : Entry RawKey => RawKey
  reverse : Postings PreparedReferenceEntry RawKey

namespace SchemaCollectionReferences

def new (schema : Schema) : SchemaCollectionReferences :=
  ⟨schema.fields.filterMap fun f => f.reference.map (⟨f.name, ·⟩), ∅, ∅⟩

section

variable (schemaOf : String → Option Schema) (schema : Schema)

def targetKeyFromValue (field : ReferenceField) (value : SchemaValue) : StoreResult RawKey :=
  match schemaOf field.reference.collection with
  | none => .error (.referenceTargetCollectionNotFound schema.name field.name
      field.reference.collection)
  | some target => do
    let primary ← primaryField target
    failIf (primary.name ≠ field.reference.field) (.referenceTargetNotPrimary schema.name field.name
        field.reference.collection field.reference.field)
    schemaPrimaryKeyRawKey target value

variable (r : SchemaCollectionReferences)

def documentEntries (document : SchemaValue) : StoreResult (List PreparedReferenceEntry) :=
  documentEntriesFrom ReferenceField.name (targetKeyFromValue schemaOf schema) document 0 r.fields

variable (old : Option SchemaValue)

/-- The entries of a document that may not be there. -/
def oldEntries : StoreResult (List PreparedReferenceEntry) :=
  match old with
  | some document => r.documentEntries schemaOf schema document
  | none => .ok []

def preparePut (new : SchemaValue) : StoreResult SchemaReferenceWritePlan := do
  let oldEntries ← r.oldEntries schemaOf schema old
  let newEntries ← r.documentEntries schemaOf schema new
  return ⟨oldEntries, newEntries⟩

def prepareDelete : StoreResult SchemaReferenceWritePlan := do
  let oldEntries ← r.oldEntries schemaOf schema old
  return ⟨oldEntries, []⟩

end

variable (sourceKey : RawKey) (r : SchemaCollectionReferences) (e : PreparedReferenceEntry)

/-- Takes a source from under one target. -/
def removeEntry : SchemaCollectionReferences :=
  { r with
    forward := r.forward.erase ⟨e.fieldIdx, sourceKey⟩
    reverse := r.reverse.remove e sourceKey }

/-- Files a source under one target. -/
def addEntry : SchemaCollectionReferences :=
  { r with
    forward := r.forward.insert ⟨e.fieldIdx, sourceKey⟩ e.key
    reverse := r.reverse.add e sourceKey }

def applyWrite (sourceKey : RawKey)
    (plan : SchemaReferenceWritePlan) : SchemaCollectionReferences :=
  plan.newEntries.foldl (addEntry sourceKey) (plan.oldEntries.foldl (removeEntry sourceKey) r)

/-- `empty_maps`. -/
def emptyMaps : SchemaCollectionReferences :=
  { r with forward := ∅, reverse := ∅ }

/-- `rebuild_document`, on the maps that are being rebuilt. -/
def rebuildDocument (schemaOf : String → Option Schema) (schema : Schema)
    (sourceKey : RawKey) (document : SchemaValue)
    (maps : SchemaCollectionReferences) :
    StoreResult SchemaCollectionReferences := do
  let entries ← maps.documentEntries schemaOf schema document
  return entries.foldl (addEntry sourceKey) maps

end SchemaCollectionReferences

-- ===== index keys

inductive SchemaExactIndexKey where
  | string (value : String)
  | int32 (value : Int32)
  | int64 (value : Int64)
  | float (bits : UInt64)
  | bool (value : Bool)
  | bytes (value : List UInt8)
  deriving DecidableEq

structure IndexedField where
  name : String
  fieldType : SchemaFieldType
  unique : Bool
  deriving DecidableEq

abbrev PreparedIndexEntry := Entry SchemaExactIndexKey

def isExactIndexType : SchemaFieldType → Bool
  | .string => true
  | .int32 => true
  | .int64 => true
  | .float => true
  | .bool => true
  | .bytes => true
  | _ => false

variable (collection field : String)

def indexKeyMismatch (expected : SchemaFieldType) (actual : SchemaValueKind) : StoreError :=
  .schemaIndexKeyTypeMismatch collection field expected.typeName actual

def indexKeyFromValue (fieldType : SchemaFieldType) (value : SchemaValue) :
    StoreResult SchemaExactIndexKey :=
  match fieldType, value with
  | .string, .string v => .ok (.string v)
  | .int32, .int32 v => .ok (.int32 v)
  | .int32, .int64 v =>
    match tryFromInt64 v with
    | some v => .ok (.int32 v)
    | none => .error (indexKeyMismatch collection field .int32 .int64)
  | .int64, .int32 v => .ok (.int64 v.toInt64)
  | .int64, .int64 v => .ok (.int64 v)
  | .float, .int32 v => .ok (.float (f64OfInt v.toInt))
  | .float, .int64 v => .ok (.float (f64OfInt v.toInt))
  | .float, .float bits =>
    if f64IsFinite bits then .ok (.float bits)
    else .error (indexKeyMismatch collection field .float .float)
  | .bool, .bool v => .ok (.bool v)
  | .bytes, .bytes v => .ok (.bytes v)
  | _, _ => .error (indexKeyMismatch collection field fieldType value.kind)

-- ===== indexes

structure SchemaIndexWritePlan where
  oldEntries : List PreparedIndexEntry
  newEntries : List PreparedIndexEntry
  referencePlan : SchemaReferenceWritePlan

structure SchemaCollectionIndexes where
  schema : Schema
  indexedFields : List IndexedField
  indexes : Postings PreparedIndexEntry RawKey
  references : SchemaCollectionReferences

/-- The indexed fields of a schema, which must have exact index types. -/
def indexedFieldsOf (collection : String) : List SchemaField → StoreResult (List IndexedField)
  | [] => .ok []
  | f :: fields =>
    if f.indexed || f.unique then
      if isExactIndexType f.fieldType then do
        let rest ← indexedFieldsOf collection fields
        return ⟨f.name, f.fieldType, f.unique⟩ :: rest
      else .error (.unsupportedExactIndex collection f.name)
    else indexedFieldsOf collection fields

namespace SchemaCollectionIndexes

def new (schema : Schema) : StoreResult SchemaCollectionIndexes := do
  validateSchema schema
  let indexedFields ← indexedFieldsOf schema.name schema.fields
  return ⟨schema, indexedFields, ∅, SchemaCollectionReferences.new schema⟩

/-- The index key of a value in a field of the collection. -/
def fieldKey (st : SchemaCollectionIndexes) (field : IndexedField)
    (value : SchemaValue) : StoreResult SchemaExactIndexKey :=
  indexKeyFromValue st.schema.name field.name field.fieldType value

def documentIndexEntries (st : SchemaCollectionIndexes)
    (document : SchemaValue) : StoreResult (List PreparedIndexEntry) :=
  documentEntriesFrom IndexedField.name st.fieldKey document 0 st.indexedFields

def documentMatchesIndex (st : SchemaCollectionIndexes)
    (field : IndexedField) (expectedKey : SchemaExactIndexKey)
    (document : SchemaValue) : StoreResult Bool :=
  match presentValue document field.name with
  | none => .ok false
  | some value => do
    let key ← st.fieldKey field value
    return decide (key = expectedKey)

def rawDocumentMatchesIndex (st : SchemaCollectionIndexes) (raw : MfsStore)
    (primaryKey : RawKey) (field : IndexedField)
    (expectedKey : SchemaExactIndexKey) : StoreResult Bool := do
  match ← raw.getRaw st.schema.name primaryKey with
  | none => return false
  | some read => do
    let document ← decodeSchemaRawValue st.schema read.value
    let key ← schemaDocumentRawKey st.schema document
    if key ≠ primaryKey then return false
    else st.documentMatchesIndex field expectedKey document

/-- The loop over the keys listed under one entry. -/
def validateUniqueKeys (st : SchemaCollectionIndexes) (raw : MfsStore)
    (primaryKey : RawKey) (field : IndexedField)
    (key : SchemaExactIndexKey) : List RawKey → StoreResult Unit
  | [] => .ok ()
  | existing :: keys =>
    if existing = primaryKey then
      validateUniqueKeys st raw primaryKey field key keys
    else do
      if ← st.rawDocumentMatchesIndex raw existing field key then
        throw (.uniqueIndexConflict st.schema.name field.name existing)
      else validateUniqueKeys st raw primaryKey field key keys

def validateUniqueConstraints (st : SchemaCollectionIndexes)
    (raw : MfsStore) (primaryKey : RawKey) :
    List PreparedIndexEntry → StoreResult Unit
  | [] => .ok ()
  | e :: entries => do
    match st.indexedFields[e.fieldIdx]? with
    | some field =>
      if field.unique then
        validateUniqueKeys st raw primaryKey field e.key (st.indexes.ids e)
      else pure ()
    | none => pure ()
    validateUniqueConstraints st raw primaryKey entries

variable (st : SchemaCollectionIndexes)

/-- The entries of a document that may not be there. -/
def oldEntries (old : Option SchemaValue) : StoreResult (List PreparedIndexEntry) :=
  match old with
  | some document => st.documentIndexEntries document
  | none => .ok []

def preparePut (raw : MfsStore) (schemaOf : String → Option Schema) (primaryKey : RawKey)
    (old : Option SchemaValue) (new : SchemaValue) :
    StoreResult SchemaIndexWritePlan := do
  let oldEntries ← st.oldEntries old
  let newEntries ← st.documentIndexEntries new
  st.validateUniqueConstraints raw primaryKey newEntries
  let referencePlan ← st.references.preparePut schemaOf st.schema old new
  return ⟨oldEntries, newEntries, referencePlan⟩

def prepareDelete (schemaOf : String → Option Schema) (old : Option SchemaValue) :
    StoreResult SchemaIndexWritePlan := do
  let oldEntries ← st.oldEntries old
  let referencePlan ← st.references.prepareDelete schemaOf st.schema old
  return ⟨oldEntries, [], referencePlan⟩

def applyWrite (primaryKey : RawKey) (plan : SchemaIndexWritePlan) : SchemaCollectionIndexes :=
  { st with
    indexes := (st.indexes.removeAll plan.oldEntries primaryKey).addAll
      plan.newEntries primaryKey
    references := st.references.applyWrite primaryKey plan.referencePlan }

/-- The position of an indexed field and the field. -/
def indexedField (field : String) : Option (Nat × IndexedField) :=
  (st.indexedFields.zipIdx.find? fun p => p.1.name = field).map fun p => (p.2, p.1)

def lookupKeys (field : String) (value : SchemaValue) :
    StoreResult (IndexedField × SchemaExactIndexKey × List RawKey) :=
  match st.indexedField field with
  | none => .error (.unindexedField st.schema.name field)
  | some (idx, indexedField) => do
    let key ← st.fieldKey indexedField value
    return (indexedField, key, st.indexes.ids ⟨idx, key⟩)

/-- The entries of one document, filed in the maps being rebuilt. -/
def rebuildEntries (st : SchemaCollectionIndexes) (primaryKey : RawKey) :
    List PreparedIndexEntry → Postings PreparedIndexEntry RawKey →
      StoreResult (Postings PreparedIndexEntry RawKey)
  | [], rebuilt => .ok rebuilt
  | e :: entries, rebuilt =>
    match st.indexedFields[e.fieldIdx]?, (rebuilt.ids e).find? (· ≠ primaryKey) with
    | some field, some existing =>
      if field.unique then
        .error (.uniqueIndexConflict st.schema.name field.name existing)
      else rebuildEntries st primaryKey entries (rebuilt.add e primaryKey)
    | _, _ => rebuildEntries st primaryKey entries (rebuilt.add e primaryKey)

def rebuildDocuments (st : SchemaCollectionIndexes) (schemaOf : String → Option Schema) :
    List (RawKey × SchemaValue) → Postings PreparedIndexEntry RawKey → SchemaCollectionReferences →
      StoreResult (Postings PreparedIndexEntry RawKey × SchemaCollectionReferences)
  | [], rebuilt, references => .ok (rebuilt, references)
  | (primaryKey, document) :: documents, rebuilt, references => do
    let entries ← st.documentIndexEntries document
    let rebuilt ← st.rebuildEntries primaryKey entries rebuilt
    let references ← references.rebuildDocument schemaOf st.schema primaryKey document
    rebuildDocuments st schemaOf documents rebuilt references

def rebuildFromDocuments (st : SchemaCollectionIndexes) (schemaOf : String → Option Schema)
    (documents : List (RawKey × SchemaValue)) :
    StoreResult SchemaCollectionIndexes := do
  let (rebuilt, references) ← st.rebuildDocuments schemaOf documents ∅ st.references.emptyMaps
  return { st with indexes := rebuilt, references := references }

end SchemaCollectionIndexes

end MemoryFirst.Store
