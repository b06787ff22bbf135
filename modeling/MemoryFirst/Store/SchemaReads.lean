/-
`multi_get_schema` of `schema_mode.rs` and the includes of
`reference.rs`: calls that read several documents, executed by one
thread, and a store that answers them beside the calls of
`SchemaCalls`.

# Effects

These calls write nothing, but each schema they name, or come to through
a reference, is declared on the way (`storeCall_cases`). What every
effect of the other calls keeps is therefore kept here as well.
-/
import Mathlib.Logic.Relation
import MemoryFirst.Store.SchemaCalls

namespace MemoryFirst.Store

open Lib

-- ===== references

namespace SchemaCollectionReferences

section

variable (schemaOf : String → Option Schema) (r : SchemaCollectionReferences) (schema : Schema)

def referenceField (referenceField : String) : StoreResult (Nat × ReferenceField) :=
  match r.fields.zipIdx.find? fun p => p.1.name = referenceField with
  | some (field, idx) => .ok (idx, field)
  | none => .error (.referenceFieldNotFound schema.name referenceField)

variable (referenceField : String)

def referenceKeyFromDocument (document : SchemaValue) : StoreResult (Option RawKey) := do
  let (_, field) ← r.referenceField schema referenceField
  match presentValue document field.name with
  | none => return none
  | some value => do
    let key ← targetKeyFromValue schemaOf schema field value
    return some key

def referenceTargetSchema : StoreResult Schema := do
  let (_, field) ← r.referenceField schema referenceField
  match schemaOf field.reference.collection with
  | none => throw (.referenceTargetCollectionNotFound schema.name field.name
      field.reference.collection)
  | some target => do
    let primary ← primaryField target
    failIf (primary.name ≠ field.reference.field) (.referenceTargetNotPrimary schema.name field.name
        field.reference.collection field.reference.field)
    return target

def reverseReferenceKeys (targetKey : RawKey) : StoreResult (List RawKey) := do
  let (idx, _) ← r.referenceField schema referenceField
  return r.reverse.ids ⟨idx, targetKey⟩

def ensureReferenceTargets (targetSchema : Schema) : StoreResult Unit := do
  let (_, field) ← r.referenceField schema referenceField
  failIf (field.reference.collection ≠ targetSchema.name)
    (.referenceTargetMismatch schema.name referenceField targetSchema.name
      field.reference.collection)
  let primary ← primaryField targetSchema
  failIf (primary.name ≠ field.reference.field)
    (.referenceTargetNotPrimary schema.name referenceField
      field.reference.collection field.reference.field)

end

end SchemaCollectionReferences

structure SchemaForwardReferenceInclude where
  document : SchemaReadResult
  referenceKey : Option RawKey
  referenced : Option SchemaReadResult
  deriving DecidableEq

structure SchemaReverseReferenceInclude where
  primaryKey : RawKey
  document : SchemaReadResult
  deriving DecidableEq

-- ===== the calls

namespace Engine

/-- The loop of `multi_get_schema`, behind the raw keys in `seen`. -/
def multiGetLoop (schema : Schema) : List RawKey → List SchemaValue →
    Engine → Engine × StoreResult (List SchemaReadResult)
  | _, [], e => (e, .ok [])
  | seen, key :: keys, e =>
    match schemaPrimaryKeyRawKey schema key with
    | .error err => (e, .error err)
    | .ok rawKey =>
      if rawKey ∈ seen then multiGetLoop schema seen keys e
      else
        match e.getSchema schema key with
        | (e, .error err) => (e, .error err)
        | (e, .ok doc) =>
          match multiGetLoop schema (rawKey :: seen) keys e with
          | (e, .error err) => (e, .error err)
          | (e, .ok results) => (e, .ok (doc.toList ++ results))

def multiGetSchema (e : Engine) (schema : Schema) (keys : List SchemaValue) :
    Engine × StoreResult (List SchemaReadResult) :=
  if keys = [] then (e, .ok []) else multiGetLoop schema [] keys e

/-- What a forward include answers once the target key is known. -/
def includeTarget (e : Engine) (target : Schema) (targetKey : RawKey)
    (document : SchemaReadResult) :
    StoreResult (Option SchemaForwardReferenceInclude) := do
  let referenced ← e.getSchemaByRawKey target targetKey
  return some ⟨document, some targetKey, referenced⟩

def includeSchemaReference (e : Engine) (schema : Schema)
    (primaryKey : SchemaValue) (referenceField : String) :
    Engine × StoreResult (Option SchemaForwardReferenceInclude) :=
  e.withIndexes schema fun e state =>
    match schemaPrimaryKeyRawKey schema primaryKey with
    | .error err => (e, .error err)
    | .ok sourceKey =>
    match e.getSchemaByRawKey schema sourceKey with
    | .error err => (e, .error err)
    | .ok none => (e, .ok none)
    | .ok (some document) =>
    match state.references.referenceKeyFromDocument e.schemaOf state.schema
        referenceField document.document with
    | .error err => (e, .error err)
    | .ok none => (e, .ok (some ⟨document, none, none⟩))
    | .ok (some targetKey) =>
    match state.references.referenceTargetSchema e.schemaOf state.schema referenceField with
    | .error err => (e, .error err)
    | .ok target =>
      if target.name = schema.name then
        (e, e.includeTarget target targetKey document)
      else e.withIndexes target fun e _ => (e, e.includeTarget target targetKey document)

/-- The loop of `include_schema_reverse` over the listed keys. -/
def includeDocuments (e : Engine) (sourceSchema : Schema)
    (sourceState : SchemaCollectionIndexes) (referenceField : String)
    (targetKey : RawKey) :
    List RawKey → StoreResult (List SchemaReverseReferenceInclude)
  | [] => .ok []
  | key :: keys => do
    match ← e.getSchemaByRawKey sourceSchema key with
    | none => includeDocuments e sourceSchema sourceState referenceField targetKey keys
    | some document => do
      let own ← sourceState.references.referenceKeyFromDocument
        e.schemaOf sourceState.schema referenceField document.document
      let rest ← includeDocuments e sourceSchema sourceState referenceField targetKey keys
      return if own = some targetKey then ⟨key, document⟩ :: rest
        else rest

def includeSchemaReverse (e : Engine) (targetSchema : Schema)
    (targetPrimaryKey : SchemaValue) (sourceSchema : Schema)
    (referenceField : String) :
    Engine × StoreResult (List SchemaReverseReferenceInclude) :=
  e.withIndexes targetSchema fun e targetState =>
    if targetState.schema ≠ targetSchema then
      (e, .error (.schemaDeclarationMismatch targetSchema.name))
    else e.withIndexes sourceSchema fun e sourceState => (e, do
      sourceState.references.ensureReferenceTargets sourceState.schema referenceField targetSchema
      let targetKey ← schemaPrimaryKeyRawKey targetSchema targetPrimaryKey
      let keys ← sourceState.references.reverseReferenceKeys
        sourceState.schema referenceField targetKey
      let out ← e.includeDocuments sourceSchema sourceState referenceField targetKey keys
      return out.insertionSort fun a b => a.primaryKey ≤ b.primaryKey)

end Engine

inductive StoreCall where
  | schema (call : SchemaCall)
  | multiGetSchema (schema : Schema) (keys : List SchemaValue)
  | includeSchemaReference (schema : Schema) (primaryKey : SchemaValue) (referenceField : String)
  | includeSchemaReverse (targetSchema : Schema)
      (targetPrimaryKey : SchemaValue) (sourceSchema : Schema)
      (referenceField : String)

inductive StoreReply where
  | schema (reply : SchemaReply)
  | documents (result : StoreResult (List SchemaReadResult))
  | forward (result : StoreResult (Option SchemaForwardReferenceInclude))
  | reverse (result : StoreResult (List SchemaReverseReferenceInclude))

variable (crc32c : List UInt8 → UInt32) (hash : RawKey → UInt64) (f64Add : UInt64 → UInt64 → UInt64)

def storeCall (e : Engine) : StoreCall → Engine × StoreReply
  | .schema call =>
    let (e, r) := schemaCall crc32c hash f64Add e call
    (e, .schema r)
  | .multiGetSchema schema keys =>
    let (e, r) := e.multiGetSchema schema keys
    (e, .documents r)
  | .includeSchemaReference schema primaryKey referenceField =>
    let (e, r) := e.includeSchemaReference schema primaryKey referenceField
    (e, .forward r)
  | .includeSchemaReverse target targetPrimaryKey source referenceField =>
    let (e, r) := e.includeSchemaReverse target targetPrimaryKey source referenceField
    (e, .reverse r)

-- ===== the effects

namespace Engine

/-- Schemas are declared, one after another, and nothing else happens. -/
abbrev DeclaresAll : Engine → Engine → Prop :=
  Relation.ReflTransGen fun e e' => ∃ schema, e.Declares schema e'

variable {e : Engine}

theorem DeclaresAll.withIndexes {α : Type} {schema : Schema}
    {rest : Engine → SchemaCollectionIndexes → Engine × StoreResult α}
    (h : ∀ (e₁ : Engine) st, e₁.DeclaresAll (rest e₁ st).1) :
    e.DeclaresAll (e.withIndexes schema rest).1 :=
  withIndexes_rule (e.DeclaresAll ·.1) (fun _ => .refl)
    (fun e₁ st hdecl _ => .head ⟨schema, hdecl⟩ (h e₁ st))

theorem declaresAll_multiGetLoop (schema : Schema) (seen : List RawKey)
    (keys : List SchemaValue) (e : Engine) :
    e.DeclaresAll (multiGetLoop schema seen keys e).1 := by
  induction keys generalizing seen e with
  | nil => exact .refl
  | cons key keys ih =>
    rw [multiGetLoop]
    split
    next => exact .refl
    next rawKey hkey =>
      split
      case isTrue => exact ih seen e
      case isFalse =>
        obtain ⟨e₁, r, hget, hdecl, -⟩ := getSchema_cases e schema key
        have hrest := ih (rawKey :: seen) e₁
        rw [hget]
        cases r with
        | error err => exact .single ⟨schema, hdecl⟩
        | ok doc =>
          have hloop := Relation.ReflTransGen.head ⟨schema, hdecl⟩ hrest
          simp only
          split
          next heq =>
            rw [heq] at hloop
            exact hloop
          next heq =>
            rw [heq] at hloop
            exact hloop

theorem declaresAll_includeSchemaReference (e : Engine) (schema : Schema)
    (primaryKey : SchemaValue) (referenceField : String) :
    e.DeclaresAll (e.includeSchemaReference schema primaryKey referenceField).1 := by
  refine DeclaresAll.withIndexes fun e₁ st => ?_
  split
  next => exact .refl
  next =>
    split
    next => exact .refl
    next => exact .refl
    next =>
      split
      next => exact .refl
      next => exact .refl
      next =>
        split
        next => exact .refl
        next =>
          split
          case isTrue => exact .refl
          case isFalse => exact DeclaresAll.withIndexes fun e₂ st₂ => .refl

theorem declaresAll_includeSchemaReverse (e : Engine) (target : Schema)
    (targetPrimaryKey : SchemaValue) (source : Schema)
    (referenceField : String) :
    e.DeclaresAll (e.includeSchemaReverse target targetPrimaryKey source referenceField).1 := by
  refine DeclaresAll.withIndexes fun e₁ st => ?_
  split
  case isTrue => exact .refl
  case isFalse => exact DeclaresAll.withIndexes fun e₂ st₂ => .refl

end Engine

/-- A call is one of the schema calls, or only reads. -/
theorem storeCall_cases (e : Engine) (call : StoreCall) :
    (∃ c, call = .schema c ∧ storeCall crc32c hash f64Add e call
        = ((schemaCall crc32c hash f64Add e c).1, .schema (schemaCall crc32c hash f64Add e c).2))
      ∨ (∀ c, call ≠ .schema c) ∧ e.DeclaresAll (storeCall crc32c hash f64Add e call).1 := by
  cases call with
  | schema c => exact Or.inl ⟨c, rfl, rfl⟩
  | multiGetSchema schema keys =>
    refine Or.inr ⟨(fun c h => nomatch h), ?_⟩
    show e.DeclaresAll (e.multiGetSchema schema keys).1
    unfold Engine.multiGetSchema
    split
    case isTrue => exact .refl
    case isFalse => exact Engine.declaresAll_multiGetLoop schema [] keys e
  | includeSchemaReference schema primaryKey referenceField =>
    exact Or.inr ⟨(fun c h => nomatch h),
      e.declaresAll_includeSchemaReference schema primaryKey referenceField⟩
  | includeSchemaReverse target targetPrimaryKey source referenceField =>
    exact Or.inr ⟨(fun c h => nomatch h),
      e.declaresAll_includeSchemaReverse target targetPrimaryKey source referenceField⟩

end MemoryFirst.Store
