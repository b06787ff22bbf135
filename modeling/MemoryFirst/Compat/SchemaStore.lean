/-
`mfs-compat/src/schema_store.rs`: the schema-aware document store over
the write-behind cache, its exact indexes and its reference maps.

# What is modelled

Registration, the writes (`create`, `upsert`, `load_clean`, `update`,
`delete`) with every error they return, the reads (`get`, `lookup`,
`include_one`, `include_reverse`) and the flush of a collection. Calls
are taken one after another: a write holds the index lock of its
collection from its first read to its last change.

# Maps

The source keeps one index map per indexed field and a forward and a
reverse map per reference field. Here one map goes by the whole entry,
so that `indexes[i].get(k)` is the list under `⟨i, k⟩` and
`forward_references[i].get(s)` the target under `⟨i, s⟩`.

# What is idealised

The cache is the one of `Core/WriteBehind.lean`, whose map never fills
up. A store of a given capacity can: a write may be told `full`, which
stops it exactly when the map has no record of the key, since the insert
of a key that has one replaces it in place.
-/
import MemoryFirst.Store.SchemaIndex

namespace MemoryFirst.Compat

open Lib Core Store

-- ===== keys

inductive SchemaKey where
  | string (value : String)
  | int32 (value : Int32)
  | int64 (value : Int64)
  | bytes (value : List UInt8)
  deriving DecidableEq

/-- The index keys of this store have the variants of the exact index
keys of the raw store. -/
abbrev SchemaIndexKey := SchemaExactIndexKey

def SchemaKey.encoded : SchemaKey → List UInt8
  | .string value => encodeKeyBytes 0 (utf8 value)
  | .int32 value => 1 :: leBytes 4 value.toUInt32.toNat
  | .int64 value => 2 :: leBytes 8 value.toUInt64.toNat
  | .bytes value => encodeKeyBytes 3 value

-- ===== errors

inductive SchemaStoreError where
  | schema (error : SchemaError)
  | schemaValue (error : SchemaValueError)
  | collectionAlreadyRegistered (collection : String)
  | collectionNotFound (collection : String)
  | documentAlreadyExists (collection : String) (key : SchemaKey)
  | documentNotFound (collection : String) (key : SchemaKey)
  | storeFull (collection : String)
  | missingPrimaryField (collection : String)
  | missingPrimaryKey (collection field : String)
  | primaryKeyTypeMismatch (collection field expected : String) (actual : SchemaValueKind)
  | primaryKeyChanged (collection : String) (expected actual : SchemaKey)
  | referenceFieldNotFound (collection field : String)
  | referenceTargetCollectionNotFound (collection field targetCollection : String)
  | referenceTargetNotPrimary (collection field targetCollection targetField : String)
  | referenceTargetMismatch (collection field expectedCollection actualCollection : String)
  | uniqueViolation (collection field : String) (existing : SchemaKey)
  | unindexedField (collection field : String)
  | indexKeyTypeMismatch (collection field expected : String) (actual : SchemaValueKind)
  deriving DecidableEq

abbrev SchemaResult := Except SchemaStoreError

-- ===== keys of values

section

variable (collection field : String) (expected : SchemaFieldType) (actual : SchemaValueKind)

def primaryKeyMismatch : SchemaStoreError :=
  .primaryKeyTypeMismatch collection field expected.typeName actual

def indexKeyMismatch : SchemaStoreError :=
  .indexKeyTypeMismatch collection field expected.typeName actual

end

section

variable (collection field : String) (fieldType : SchemaFieldType) (value : SchemaValue)

def primaryKeyFromValue : SchemaResult SchemaKey :=
  match fieldType, value with
  | .string, .string v => .ok (.string v)
  | .int32, .int32 v => .ok (.int32 v)
  | .int32, .int64 v =>
    match tryFromInt64 v with
    | some v => .ok (.int32 v)
    | none => .error (primaryKeyMismatch collection field .int32 .int64)
  | .int64, .int32 v => .ok (.int64 v.toInt64)
  | .int64, .int64 v => .ok (.int64 v)
  | .bytes, .bytes v => .ok (.bytes v)
  | _, _ => .error (primaryKeyMismatch collection field fieldType value.kind)

def indexKeyFromValue : SchemaResult SchemaIndexKey :=
  match fieldType, value with
  | .string, .string v => .ok (.string v)
  | .int32, .int32 v => .ok (.int32 v)
  | .int32, .int64 v =>
    match tryFromInt64 v with
    | some v => .ok (.int32 v)
    | none => .error (indexKeyMismatch collection field .int32 .int64)
  | .int64, .int32 v => .ok (.int64 v.toInt64)
  | .int64, .int64 v => .ok (.int64 v)
  | .float, .int32 v => .ok (.float (f64OfInt v.toInt))
  | .float, .int64 v => .ok (.float (f64OfInt v.toInt))
  | .float, .float bits =>
    if f64IsFinite bits then .ok (.float bits)
    else .error (indexKeyMismatch collection field .float .float)
  | .bool, .bool v => .ok (.bool v)
  | .bytes, .bytes v => .ok (.bytes v)
  | _, _ => .error (indexKeyMismatch collection field fieldType value.kind)

end

def extractPrimaryKey (schema : Schema) (document : SchemaValue) : SchemaResult SchemaKey :=
  match schema.primaryField with
  | none => .error (.missingPrimaryField schema.name)
  | some primary =>
    match document.field primary.name with
    | none => .error (.missingPrimaryKey schema.name primary.name)
    | some value => primaryKeyFromValue schema.name primary.name primary.fieldType value

-- ===== the fields

/-- A reference field of a collection. -/
structure ReferenceField where
  name : String
  fieldType : SchemaFieldType
  reference : Reference
  deriving DecidableEq

def indexedFieldsOf (schema : Schema) : List IndexedField :=
  (schema.fields.filter fun f =>
    f.indexed && isExactIndexType f.fieldType).map fun f => ⟨f.name, f.fieldType, f.unique⟩

def referenceFieldsOf (schema : Schema) : List ReferenceField :=
  schema.fields.filterMap fun f =>
    f.reference.map fun reference => ⟨f.name, f.fieldType, reference⟩

section

variable {φ κ σ : Type} (name : φ → String)
  (keyOf : φ → SchemaValue → SchemaResult κ) (document : SchemaValue)

/-- The loop of `remove_from_indexes` and `remove_from_references`: a
field that is missing, null or without a key is passed over. -/
def removeFields (remove : Entry κ → σ → σ) : Nat → List φ → σ → σ
  | _, [], maps => maps
  | idx, f :: fields, maps =>
    match presentValue document (name f) with
    | none => removeFields remove (idx + 1) fields maps
    | some value =>
      match keyOf f value with
      | .error _ => removeFields remove (idx + 1) fields maps
      | .ok key => removeFields remove (idx + 1) fields (remove ⟨idx, key⟩ maps)

/-- The loop of `update_indexes_on_put` and `insert_references`: a value
without a key ends it, with what was filed so far. -/
def insertFields (insert : Entry κ → σ → σ) : Nat → List φ → σ → σ × SchemaResult Unit
  | _, [], maps => (maps, .ok ())
  | idx, f :: fields, maps =>
    match presentValue document (name f) with
    | none => insertFields insert (idx + 1) fields maps
    | some value =>
      match keyOf f value with
      | .error e => (maps, .error e)
      | .ok key => insertFields insert (idx + 1) fields (insert ⟨idx, key⟩ maps)

end

-- ===== the collections

/-- `forward` has the target of each field and source, `reverse` the
sources of each field and target. -/
structure ReferenceMaps where
  forward : AList fun _ : Entry SchemaKey => SchemaKey
  reverse : Postings (Entry SchemaKey) SchemaKey

namespace ReferenceMaps

variable (source : SchemaKey) (e : Entry SchemaKey) (m : ReferenceMaps)

def insert : ReferenceMaps :=
  ⟨m.forward.insert ⟨e.fieldIdx, source⟩ e.key, m.reverse.add e source⟩

def remove : ReferenceMaps :=
  ⟨m.forward.erase ⟨e.fieldIdx, source⟩, m.reverse.remove e source⟩

end ReferenceMaps

structure Collection where
  schema : Schema
  inner : WriteBehindCache SchemaKey SchemaValue
  indexedFields : List IndexedField
  indexes : Postings (Entry SchemaIndexKey) SchemaKey
  referenceFields : List ReferenceField
  references : ReferenceMaps

inductive PutMode where
  | create
  | upsert
  deriving DecidableEq, Repr

/-- A write that may be told that the map is full. The version's tick is
taken in any case. -/
def tryWrite (c : WriteBehindCache SchemaKey SchemaValue) (full : Bool)
    (key : SchemaKey) (value : Option SchemaValue) (op : Operation)
    (queueDirty : Bool) :
    WriteBehindCache SchemaKey SchemaValue × Option Nat :=
  if full ∧ (c.map key).isNone then ({ c with clock := c.clock + 1 }, none)
  else
    let (c, version) := c.writeWithPin key value op queueDirty
    (c, some version)

namespace Collection

def new (schema : Schema) (hashBuilder : SchemaKey → UInt64) (dirtyShards : Nat) : Collection :=
  { schema := schema
    inner := WriteBehindCache.withHasherAndConfig hashBuilder dirtyShards
    indexedFields := indexedFieldsOf schema
    indexes := ∅
    referenceFields := referenceFieldsOf schema
    references := ⟨∅, ∅⟩ }

variable (h : Collection)

def indexedField (name : String) : Option (Nat × IndexedField) :=
  (h.indexedFields.zipIdx.find? fun p => p.1.name = name).map fun p => (p.2, p.1)

def referenceField (name : String) : Option (Nat × ReferenceField) :=
  (h.referenceFields.zipIdx.find? fun p => p.1.name = name).map fun p => (p.2, p.1)

/-- The index key of a value in a field of the collection. -/
def indexKey (f : IndexedField) (value : SchemaValue) : SchemaResult SchemaIndexKey :=
  indexKeyFromValue h.schema.name f.name f.fieldType value

/-- The key a value of a reference field points to. -/
def targetKey (f : ReferenceField) (value : SchemaValue) : SchemaResult SchemaKey :=
  primaryKeyFromValue h.schema.name f.name f.fieldType value

/-- The document under a key, with the touch of the read. -/
def get (key : SchemaKey) : Collection × Option SchemaValue :=
  let (inner, value) := h.inner.get key
  ({ h with inner := inner }, value)

-- ===== indexes and reference maps

/-- The loop of `validate_unique_constraints` from position `idx` on. -/
def validateUniqueFields (h : Collection) (key : SchemaKey)
    (old : Option SchemaValue) (new : SchemaValue) :
    Nat → List IndexedField → SchemaResult Unit
  | _, [] => .ok ()
  | idx, f :: fields =>
    if f.unique then
      match presentValue new f.name with
      | none => validateUniqueFields h key old new (idx + 1) fields
      | some value => do
        let indexKey ← h.indexKey f value
        let keys := h.indexes.ids ⟨idx, indexKey⟩
        match keys.find? (· ≠ key) with
        | some existing => throw (.uniqueViolation h.schema.name f.name existing)
        | none => do
          failIf (old.isNone ∧ key ∈ keys) (.uniqueViolation h.schema.name f.name key)
          validateUniqueFields h key old new (idx + 1) fields
    else validateUniqueFields h key old new (idx + 1) fields

variable (key : SchemaKey)

def validateUniqueConstraints (old : Option SchemaValue) (new : SchemaValue) : SchemaResult Unit :=
  h.validateUniqueFields key old new 0 h.indexedFields

def removeFromIndexes (old : SchemaValue) : Collection :=
  { h with
    indexes := removeFields IndexedField.name h.indexKey old
      (fun e indexes => indexes.remove e key) 0 h.indexedFields h.indexes }

def removeFromReferences (sourceKey : SchemaKey) (document : SchemaValue) : Collection :=
  { h with
    references := removeFields ReferenceField.name h.targetKey document
      (ReferenceMaps.remove sourceKey) 0 h.referenceFields h.references }

def insertReferences (sourceKey : SchemaKey)
    (document : SchemaValue) : Collection × SchemaResult Unit :=
  let (references, result) := insertFields ReferenceField.name h.targetKey
    document (ReferenceMaps.insert sourceKey) 0 h.referenceFields
    h.references
  ({ h with references := references }, result)

/-- The first part of `update_indexes_on_put`: the maps forget the old
document. -/
def removeOld : Option SchemaValue → Collection
  | none => h
  | some old => (h.removeFromIndexes key old).removeFromReferences key old

def updateIndexesOnPut (old : Option SchemaValue) (new : SchemaValue) :
    Collection × SchemaResult Unit :=
  let h := h.removeOld key old
  let (indexes, result) := insertFields IndexedField.name h.indexKey new
    (fun e indexes => indexes.add e key) 0 h.indexedFields h.indexes
  let h := { h with indexes := indexes }
  match result with
  | .error e => (h, .error e)
  | .ok _ => h.insertReferences key new

-- ===== writes

variable (full : Bool) (key : SchemaKey)

/-- What `put_into` and `try_update` share: the write of the document and
the indexes behind it. The stored document is read back from the cache,
where the write has just put it. -/
def store (old : Option SchemaValue) (document : SchemaValue) (dirty : Bool) :
    Collection × SchemaResult Nat :=
  match tryWrite h.inner full key (some document) .put dirty with
  | (inner, none) => ({ h with inner := inner }, .error (.storeFull h.schema.name))
  | (inner, some version) =>
    let (h, stored) := { h with inner := inner }.get key
    let (h, result) := h.updateIndexesOnPut key old (stored.getD document)
    match result with
    | .error e => (h, .error e)
    | .ok _ => (h, .ok version)

def putInto (document : SchemaValue)
    (dirty : Bool) (mode : PutMode) : Collection × SchemaResult Nat :=
  match validateDocument h.schema document with
  | .error e => (h, .error (.schemaValue e))
  | .ok _ =>
    match extractPrimaryKey h.schema document with
    | .error e => (h, .error e)
    | .ok key =>
      let (h, old) := h.get key
      if mode = .create ∧ old.isSome then
        (h, .error (.documentAlreadyExists h.schema.name key))
      else
        match h.validateUniqueConstraints key old document with
        | .error e => (h, .error e)
        | .ok _ => h.store full key old document dirty

def tryUpdate (update : SchemaValue → SchemaValue) : Collection × SchemaResult (Option Nat) :=
  match h.get key with
  | (h, none) => (h, .ok none)
  | (h, some old) =>
    let next := update old
    match validateDocument h.schema next with
    | .error e => (h, .error (.schemaValue e))
    | .ok _ =>
      match extractPrimaryKey h.schema next with
      | .error e => (h, .error e)
      | .ok nextKey =>
        if nextKey ≠ key then
          (h, .error (.primaryKeyChanged h.schema.name key nextKey))
        else
          match h.validateUniqueConstraints key (some old) next with
          | .error e => (h, .error e)
          | .ok _ =>
            match h.store full key (some old) next true with
            | (h, .error e) => (h, .error e)
            | (h, .ok version) => (h, .ok (some version))

def update (update : SchemaValue → SchemaValue) : Collection × SchemaResult Nat :=
  match h.tryUpdate full key update with
  | (h, .error e) => (h, .error e)
  | (h, .ok none) => (h, .error (.documentNotFound h.schema.name key))
  | (h, .ok (some version)) => (h, .ok version)

/-- `delete`: the indexes forget the document, the reference maps are
left as they are. -/
def delete : Collection × SchemaResult Nat :=
  let (h, old) := h.get key
  let h := old.elim h (h.removeFromIndexes key)
  match tryWrite h.inner full key none .delete true with
  | (inner, none) => ({ h with inner := inner }, .error (.storeFull h.schema.name))
  | (inner, some version) => ({ h with inner := inner }, .ok version)

-- ===== reads

def lookup (field : String) (value : SchemaValue) : SchemaResult (List SchemaKey) :=
  match h.indexedField field with
  | none => .error (.unindexedField h.schema.name field)
  | some (idx, indexedField) => do
    let key ← h.indexKey indexedField value
    return h.indexes.ids ⟨idx, key⟩

end Collection

-- ===== the store

structure SchemaStore where
  collections : String → Option Collection
  hashBuilder : SchemaKey → UInt64
  dirtyShards : Nat

structure SchemaForwardInclude where
  document : SchemaValue
  referenceKey : Option SchemaKey
  referenced : Option SchemaValue
  deriving DecidableEq

structure SchemaReverseInclude where
  key : SchemaKey
  document : SchemaValue
  deriving DecidableEq

inductive SchemaFlushFailure (ε : Type) where
  | store (error : SchemaStoreError)
  | backend (error : ε)

namespace SchemaStore

def withHasherAndConfig (hashBuilder : SchemaKey → UInt64) (dirtyShards : Nat) : SchemaStore :=
  ⟨fun _ => none, hashBuilder, dirtyShards⟩

variable (s : SchemaStore)

def set (name : String) (h : Collection) : SchemaStore :=
  { s with collections := Function.update s.collections name (some h) }

def registerCollection (schema : Schema) : SchemaStore × SchemaResult Unit :=
  match schema.validate with
  | .error e => (s, .error (.schema e))
  | .ok _ =>
    if (s.collections schema.name).isSome then
      (s, .error (.collectionAlreadyRegistered schema.name))
    else
      (s.set schema.name (Collection.new schema s.hashBuilder s.dirtyShards), .ok ())

def collection (name : String) : SchemaResult Collection :=
  match s.collections name with
  | some h => .ok h
  | none => .error (.collectionNotFound name)

/-- A call on one collection. -/
def withCollection {α : Type} (s : SchemaStore) (name : String)
    (f : Collection → Collection × SchemaResult α) :
    SchemaStore × SchemaResult α :=
  match s.collection name with
  | .error e => (s, .error e)
  | .ok h =>
    let (h, result) := f h
    (s.set name h, result)

variable (name : String) (full : Bool) (document : SchemaValue)

def upsert : SchemaStore × SchemaResult Nat :=
  s.withCollection name fun h => h.putInto full document true .upsert

def put : SchemaStore × SchemaResult Nat :=
  s.upsert name full document

def create : SchemaStore × SchemaResult Nat :=
  s.withCollection name fun h => h.putInto full document true .create

def loadClean : SchemaStore × SchemaResult Nat :=
  s.withCollection name fun h => h.putInto full document false .upsert

def update (key : SchemaKey) (update : SchemaValue → SchemaValue) :
    SchemaStore × SchemaResult Nat :=
  s.withCollection name fun h => h.update full key update

def delete (key : SchemaKey) : SchemaStore × SchemaResult Nat :=
  s.withCollection name fun h => h.delete full key

def get (name : String) (key : SchemaKey) : SchemaStore × SchemaResult (Option SchemaValue) :=
  s.withCollection name fun h =>
    let (h, value) := h.get key
    (h, .ok value)

def lookup (name field : String) (value : SchemaValue) : SchemaResult (List SchemaKey) := do
  let h ← s.collection name
  h.lookup field value

/-- `reference_target`: the collection a reference field points into,
which must have the named field for its primary key. -/
def referenceTarget (name : String) (f : ReferenceField) : SchemaResult Collection :=
  match s.collections f.reference.collection with
  | none => .error (.referenceTargetCollectionNotFound name f.name f.reference.collection)
  | some target =>
    match target.schema.primaryField with
    | none => .error (.missingPrimaryField target.schema.name)
    | some primary =>
      if primary.name ≠ f.reference.field then
        .error (.referenceTargetNotPrimary name f.name f.reference.collection f.reference.field)
      else .ok target

def includeOne (s : SchemaStore) (name : String) (key : SchemaKey) (field : String) :
    SchemaStore × SchemaResult (Option SchemaForwardInclude) :=
  match s.collection name with
  | .error e => (s, .error e)
  | .ok h =>
    match h.referenceField field with
    | none => (s, .error (.referenceFieldNotFound name field))
    | some (idx, f) =>
      match s.referenceTarget name f with
      | .error e => (s, .error e)
      | .ok _ =>
        match h.get key with
        | (h, none) => (s.set name h, .ok none)
        | (h, some document) =>
          let s := s.set name h
          match h.references.forward.lookup ⟨idx, key⟩ with
          | none => (s, .ok (some ⟨document, none, none⟩))
          | some referenceKey =>
            -- the target may be the collection just touched
            match s.get f.reference.collection referenceKey with
            | (s, .ok referenced) =>
              (s, .ok (some ⟨document, some referenceKey, referenced⟩))
            | (s, .error e) => (s, .error e)

/-- The loop of `include_reverse` over the sources of a target. -/
def includeSources (s : SchemaStore) (name : String) :
    List SchemaKey → SchemaStore × SchemaResult (List SchemaReverseInclude)
  | [] => (s, .ok [])
  | key :: keys =>
    match s.get name key with
    | (s, .error e) => (s, .error e)
    | (s, .ok value) =>
      match s.includeSources name keys with
      | (s, .error e) => (s, .error e)
      | (s, .ok out) =>
        match value with
        | none => (s, .ok out)
        | some document => (s, .ok (⟨key, document⟩ :: out))

def includeReverse (s : SchemaStore) (target : String)
    (targetKey : SchemaKey) (source field : String) :
    SchemaStore × SchemaResult (List SchemaReverseInclude) :=
  match s.collection source with
  | .error e => (s, .error e)
  | .ok h =>
    match h.referenceField field with
    | none => (s, .error (.referenceFieldNotFound source field))
    | some (idx, f) =>
      if f.reference.collection ≠ target then
        (s, .error (.referenceTargetMismatch source field target f.reference.collection))
      else
        match s.referenceTarget source f with
        | .error e => (s, .error e)
        | .ok _ => s.includeSources source (h.references.reverse.ids ⟨idx, targetKey⟩)

/-- `flush_collection_idle`; the middle component is the batch the
backend was handed. -/
def flushCollectionIdle {ε : Type} (s : SchemaStore) (name : String)
    (backend : List (FlushRecord SchemaKey SchemaValue) → Except ε Unit)
    (idleTicks maxRecords : Nat) :
    SchemaStore × Option (List (FlushRecord SchemaKey SchemaValue))
      × Except (SchemaFlushFailure ε) Nat :=
  match s.collection name with
  | .error e => (s, none, .error (.store e))
  | .ok h =>
    match h.inner.flushIdle backend idleTicks maxRecords with
    | (inner, batch, result) =>
      (s.set name { h with inner := inner }, batch, result.mapError .backend)

end SchemaStore

end MemoryFirst.Compat
