/-
`mfs-store/src/schema.rs`: schema declarations and their validation.

The parsers of schemas and type names from text are left out, with the
errors only they raise. A field name is a path; its segments are what
lies between the dots (`segments`).
-/
import MemoryFirst.Lib.Bytes

namespace MemoryFirst.Store

open Lib

structure Reference where
  collection : String
  field : String
  deriving DecidableEq, Repr

mutual

inductive SchemaFieldType where
  | string
  | int32
  | int64
  | float
  | bool
  | object (fields : List SchemaField)
  | array (inner : SchemaFieldType)
  | json
  | bytes

structure SchemaField where
  name : String
  fieldType : SchemaFieldType
  primary : Bool
  optional : Bool
  indexed : Bool
  stored : Bool
  unique : Bool
  reference : Option Reference
  sort : Bool
  rangeIndex : Bool

end

structure Schema where
  name : String
  fields : List SchemaField
  enableNestedFields : Bool
  defaultSortField : Option String

/-- `SchemaField::new`. -/
def SchemaField.new (name : String) (fieldType : SchemaFieldType) : SchemaField :=
  { name := name
    fieldType := fieldType
    primary := false
    optional := false
    indexed := false
    stored := true
    unique := false
    reference := none
    sort := false
    rangeIndex := false }

-- ===== equality

section

mutual

def SchemaFieldType.beq : SchemaFieldType → SchemaFieldType → Bool
  | .string, .string => true
  | .int32, .int32 => true
  | .int64, .int64 => true
  | .float, .float => true
  | .bool, .bool => true
  | .object fields, .object fields' => SchemaField.beqAll fields fields'
  | .array inner, .array inner' => inner.beq inner'
  | .json, .json => true
  | .bytes, .bytes => true
  | _, _ => false

def SchemaField.beq : SchemaField → SchemaField → Bool
  | ⟨n, t, p, o, i, st, u, r, so, ra⟩, ⟨n', t', p', o', i', st', u', r', so', ra'⟩ =>
      t.beq t' && decide (n = n' ∧ p = p' ∧ o = o' ∧ i = i' ∧ st = st'
        ∧ u = u' ∧ r = r' ∧ so = so' ∧ ra = ra')

def SchemaField.beqAll : List SchemaField → List SchemaField → Bool
  | [], [] => true
  | f :: l, f' :: l' => f.beq f' && SchemaField.beqAll l l'
  | _, _ => false

end

attribute [local simp] SchemaFieldType.beq SchemaField.beqAll

mutual

theorem SchemaFieldType.beq_iff : ∀ t t' : SchemaFieldType, t.beq t' = true ↔ t = t'
  | .string, t' | .int32, t' | .int64, t' | .float, t' | .bool, t' | .json, t' | .bytes, t' => by
    cases t' <;> simp
  | .object fields, t' => by cases t' <;> simp [SchemaField.beqAll_iff fields]
  | .array inner, t' => by cases t' <;> simp [inner.beq_iff]

theorem SchemaField.beq_iff : ∀ f f' : SchemaField, f.beq f' = true ↔ f = f'
  | ⟨n, t, p, o, i, st, u, r, so, ra⟩, ⟨n', t', p', o', i', st', u', r', so', ra'⟩ => by
      simp only [SchemaField.beq, Bool.and_eq_true, decide_eq_true_eq,
        t.beq_iff t', SchemaField.mk.injEq]
      tauto

theorem SchemaField.beqAll_iff : ∀ l l' : List SchemaField, SchemaField.beqAll l l' = true ↔ l = l'
  | [], l' => by cases l' <;> simp
  | f :: l, l' => by
    cases l' with
    | nil => simp
    | cons f' l' => simp [f.beq_iff f', SchemaField.beqAll_iff l l']

end

instance : DecidableEq SchemaFieldType := fun t t' =>
  decidable_of_iff _ (t.beq_iff t')

instance : DecidableEq SchemaField := fun f f' =>
  decidable_of_iff _ (f.beq_iff f')

deriving instance DecidableEq for Schema

end

-- ===== errors

inductive SchemaError where
  | emptySchemaName
  | invalidSchemaName (name : String)
  | emptyFields
  | emptyFieldName
  | invalidFieldPath (name : String)
  | nestedFieldDisabled (name : String)
  | duplicateField (name : String)
  | missingPrimaryField
  | multiplePrimaryFields
  | primaryFieldOptional (name : String)
  | primaryFieldNotStored (name : String)
  | invalidPrimaryType (name : String)
  | unsupportedIndexType (name : String)
  | uniqueFieldNotIndexed (name : String)
  | uniqueFieldOptional (name : String)
  | sortFieldNotIndexed (name : String)
  | unsupportedSortType (name : String)
  | rangeFieldNotIndexed (name : String)
  | unsupportedRangeIndexType (name : String)
  | invalidReference (value : String)
  | unsupportedReferenceType (name : String)
  | objectFieldUsesOperationalFlag (name flag : String)
  | defaultSortFieldMissing (name : String)
  | defaultSortFieldNotSortable (name : String)
  deriving DecidableEq, Repr

/-- `Display` of a schema error. -/
def SchemaError.text : SchemaError → String
  | .emptySchemaName => "schema name is empty"
  | .invalidSchemaName name => "invalid schema name `" ++ name ++ "`"
  | .emptyFields => "schema must define at least one field"
  | .emptyFieldName => "field name is empty"
  | .invalidFieldPath name => "invalid field path `" ++ name ++ "`"
  | .nestedFieldDisabled name => "field `" ++ name
      ++ "` uses dot notation while nested fields are disabled"
  | .duplicateField name => "duplicate field `" ++ name ++ "`"
  | .missingPrimaryField => "schema must define one primary field"
  | .multiplePrimaryFields => "schema defines more than one primary field"
  | .primaryFieldOptional name => "primary field `" ++ name ++ "` cannot be optional"
  | .primaryFieldNotStored name => "primary field `" ++ name ++ "` must be stored"
  | .invalidPrimaryType name => "primary field `" ++ name ++ "` uses an unsupported type"
  | .unsupportedIndexType name =>
    "field `" ++ name ++ "` uses an unsupported indexed type"
  | .uniqueFieldNotIndexed name => "unique field `" ++ name ++ "` must be indexed"
  | .uniqueFieldOptional name => "unique field `" ++ name ++ "` cannot be optional"
  | .sortFieldNotIndexed name => "sort field `" ++ name ++ "` must be indexed"
  | .unsupportedSortType name => "field `" ++ name ++ "` uses an unsupported sort type"
  | .rangeFieldNotIndexed name => "range-index field `" ++ name ++ "` must be indexed"
  | .unsupportedRangeIndexType name =>
    "field `" ++ name ++ "` uses an unsupported range-index type"
  | .invalidReference value => "invalid reference `" ++ value ++ "`"
  | .unsupportedReferenceType name =>
    "field `" ++ name ++ "` uses an unsupported reference type"
  | .objectFieldUsesOperationalFlag name flag =>
    "object field `" ++ name ++ "` cannot use `" ++ flag ++ "`"
  | .defaultSortFieldMissing name => "default sort field `" ++ name ++ "` is missing"
  | .defaultSortFieldNotSortable name =>
    "default sort field `" ++ name ++ "` is not marked sortable"

-- ===== names

/-- `str::split('.')`. -/
def segments (path : String) : List String :=
  (path.toList.splitOn '.').map String.ofList

def isIdentifierSegment (segment : String) : Bool :=
  match segment.toList with
  | [] => false
  | first :: chars => (first.isAlpha || first == '_')
      && chars.all fun ch => ch.isAlphanum || ch == '_' || ch == '-'

def validateCollectionName (name : String) : Except SchemaError Unit := do
  failIf (name = "") .emptySchemaName
  failIf (isIdentifierSegment name = false) (.invalidSchemaName name)

def validateFieldName (name : String) : Except SchemaError Unit := do
  failIf (name = "") .emptyFieldName
  failIf ((segments name).any (fun s => !isIdentifierSegment s) = true) (.invalidFieldPath name)

-- ===== types

namespace SchemaFieldType

def isIndexable : SchemaFieldType → Bool
  | .string => true
  | .int32 => true
  | .int64 => true
  | .float => true
  | .bool => true
  | .bytes => true
  | .array (.array _) => false
  | .array inner => inner.isIndexable
  | .object _ => false
  | .json => false

def isSortable : SchemaFieldType → Bool
  | .object _ => false
  | .array _ => false
  | .json => false
  | _ => true

def isNumeric : SchemaFieldType → Bool
  | .int32 => true
  | .int64 => true
  | .float => true
  | _ => false

def isReferenceCompatible : SchemaFieldType → Bool
  | .string => true
  | .int32 => true
  | .int64 => true
  | .bytes => true
  | _ => false

/-- `schema_type_name`. -/
def typeName : SchemaFieldType → String
  | .string => "string"
  | .int32 => "int32"
  | .int64 => "int64"
  | .float => "float"
  | .bool => "bool"
  | .object _ => "object"
  | .array _ => "array"
  | .json => "json"
  | .bytes => "bytes"

end SchemaFieldType

-- ===== validation

/-- `Reference::validate`: any error of its two names is reported as one
of the reference. -/
def Reference.validate (r : Reference) : Except SchemaError Unit :=
  match validateCollectionName r.collection, validateFieldName r.field with
  | .ok _, .ok _ => .ok ()
  | _, _ => .error (.invalidReference (r.collection ++ "." ++ r.field))

mutual

def validateFieldType : SchemaFieldType → Except SchemaError Unit
  | .object fields => validateObjectFields [] fields
  | .array inner => validateFieldType inner
  | _ => .ok ()

/-- `validate_object_fields` behind the names in `seen`. -/
def validateObjectFields (seen : List String) : List SchemaField → Except SchemaError Unit
  | [] => .ok ()
  | f :: fields => do
    validateObjectField f
    failIf (f.name ∈ seen) (.duplicateField f.name)
    validateObjectFields (f.name :: seen) fields

def validateObjectField : SchemaField → Except SchemaError Unit
  | ⟨name, fieldType, primary, _, indexed, _, unique, reference, sort, rangeIndex⟩ => do
      validateFieldName name
      validateFieldType fieldType
      failIf (primary = true) (.objectFieldUsesOperationalFlag name "primary")
      failIf (indexed = true) (.objectFieldUsesOperationalFlag name "indexed")
      failIf (unique = true) (.objectFieldUsesOperationalFlag name "unique")
      failIf (sort = true) (.objectFieldUsesOperationalFlag name "sort")
      failIf (rangeIndex = true) (.objectFieldUsesOperationalFlag name "range_index")
      failIf (reference.isSome = true) (.objectFieldUsesOperationalFlag name "reference")

end

def validatePrimaryField (f : SchemaField) : Except SchemaError Unit := do
  failIf (f.optional = true) (.primaryFieldOptional f.name)
  failIf (f.stored = false) (.primaryFieldNotStored f.name)
  failIf (f.fieldType.isReferenceCompatible = false) (.invalidPrimaryType f.name)

/-- The checks of a field's reference, if it has one. -/
def validateReference (f : SchemaField) : Except SchemaError Unit :=
  match f.reference with
  | none => .ok ()
  | some r => do
    r.validate
    failIf (f.fieldType.isReferenceCompatible = false) (.unsupportedReferenceType f.name)

namespace Schema

def validateField (s : Schema) (f : SchemaField) : Except SchemaError Unit := do
  validateFieldName f.name
  failIf (s.enableNestedFields = false ∧ '.' ∈ f.name.toList) (.nestedFieldDisabled f.name)
  validateFieldType f.fieldType
  failIf (f.indexed = true ∧ f.fieldType.isIndexable = false) (.unsupportedIndexType f.name)
  failIf (f.unique = true ∧ f.indexed = false) (.uniqueFieldNotIndexed f.name)
  failIf (f.unique = true ∧ f.optional = true) (.uniqueFieldOptional f.name)
  failIf (f.sort = true ∧ f.indexed = false) (.sortFieldNotIndexed f.name)
  failIf (f.sort = true ∧ f.fieldType.isSortable = false) (.unsupportedSortType f.name)
  failIf (f.rangeIndex = true ∧ f.indexed = false) (.rangeFieldNotIndexed f.name)
  failIf (f.rangeIndex = true ∧ f.fieldType.isNumeric = false) (.unsupportedRangeIndexType f.name)
  validateReference f

/-- The loop over the fields: the names seen so far and the number of
primary fields. -/
def validateFields (s : Schema) (seen : List String) (primaryCount : Nat) :
    List SchemaField → Except SchemaError Nat
  | [] => .ok primaryCount
  | f :: fields => do
    s.validateField f
    failIf (f.name ∈ seen) (.duplicateField f.name)
    if f.primary then do
      validatePrimaryField f
      validateFields s (f.name :: seen) (primaryCount + 1) fields
    else validateFields s (f.name :: seen) primaryCount fields

variable (s : Schema)

def field (name : String) : Option SchemaField :=
  s.fields.find? fun f => f.name = name

def primaryField : Option SchemaField :=
  s.fields.find? SchemaField.primary

def validateDefaultSort : Except SchemaError Unit :=
  match s.defaultSortField with
  | none => .ok ()
  | some name =>
    match s.field name with
    | none => .error (.defaultSortFieldMissing name)
    | some f => failIf (f.sort = false) (.defaultSortFieldNotSortable name)

def validate : Except SchemaError Unit := do
  validateCollectionName s.name
  failIf (s.fields = []) .emptyFields
  let primaryCount ← s.validateFields [] 0 s.fields
  failIf (primaryCount = 0) .missingPrimaryField
  failIf (1 < primaryCount) .multiplePrimaryFields
  s.validateDefaultSort

end Schema

end MemoryFirst.Store
