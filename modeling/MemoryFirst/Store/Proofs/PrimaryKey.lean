/-
Primary keys by what they say, against the bytes a document is stored
under.

A primary value denotes a text, a number or bytes; the width of a number
is not part of what it says. Under one schema, two values have the same
raw key exactly if they denote the same key (`rawKey_inj_iff`), and every
document that passes validation has a raw key (`rawKey_of_valid`): what
the validator asks of the primary field is what the encoder needs.
-/
import MemoryFirst.Store.Proofs.SchemaIndex

namespace MemoryFirst.Store

open Lib List

inductive PrimaryKey where
  | string (value : String)
  | int (value : Int)
  | bytes (value : List UInt8)
  deriving DecidableEq

/-- The key a primary value denotes. -/
def SchemaValue.denotes : SchemaValue → Option PrimaryKey
  | .string v => some (.string v)
  | .int32 v => some (.int v.toInt)
  | .int64 v => some (.int v.toInt)
  | .bytes v => some (.bytes v)
  | _ => none

/-- The key of a document. -/
def Schema.primaryKeyOf (schema : Schema) (document : SchemaValue) : Option PrimaryKey := do
  let primary ← schema.primaryField
  let value ← document.field primary.name
  value.denotes

-- ===== the raw keys

theorem encodeI32Key_inj {a b : Int32} (h : encodeI32Key a = encodeI32Key b) : a = b := by
  have hbytes := (cons.inj h).2
  have hbound : ∀ c : Int32, c.toUInt32.toNat < 256 ^ 4 := fun c => c.toUInt32.toNat_lt
  have hnat : a.toUInt32.toNat = b.toUInt32.toNat := by
    rw [← leNat_leBytes_of_lt (hbound a), ← leNat_leBytes_of_lt (hbound b), hbytes]
  rw [← a.toInt32_toUInt32, ← b.toInt32_toUInt32, UInt32.toNat_inj.1 hnat]

theorem encodeI64Key_inj {a b : Int64} (h : encodeI64Key a = encodeI64Key b) : a = b := by
  have hbytes := (cons.inj h).2
  have hbound : ∀ c : Int64, c.toUInt64.toNat < 256 ^ 8 := fun c => c.toUInt64.toNat_lt
  have hnat : a.toUInt64.toNat = b.toUInt64.toNat := by
    rw [← leNat_leBytes_of_lt (hbound a), ← leNat_leBytes_of_lt (hbound b), hbytes]
  rw [← a.toInt64_toUInt64, ← b.toInt64_toUInt64, UInt64.toNat_inj.1 hnat]

theorem tryFromInt64_toInt {a : Int64} {b : Int32}
    (h : tryFromInt64 a = some b) : b.toInt = a.toInt := by
  unfold tryFromInt64 at h
  split at h
  case isTrue hrange =>
    cases h
    exact Int32.toInt_ofInt_of_le hrange.1 hrange.2
  case isFalse => cases h

/-- The raw key of a value, by the type of the primary field: the tag and
the bytes of what the value denotes. -/
inductive KeyBytes : SchemaFieldType → PrimaryKey → RawKey → Prop
  | string (v : String) : KeyBytes .string (.string v) (encodeKeyBytes 0 (utf8 v))
  | int32 (v : Int32) : KeyBytes .int32 (.int v.toInt) (encodeI32Key v)
  | int64 (v : Int64) : KeyBytes .int64 (.int v.toInt) (encodeI64Key v)
  | bytes (v : List UInt8) : KeyBytes .bytes (.bytes v) (encodeKeyBytes 3 v)

variable {fields : List SchemaField} {k : RawKey} {s schema : Schema}
  {f : SchemaField} {value : SchemaValue} {p p' : PrimaryKey}

theorem KeyBytes.inj_iff {t : SchemaFieldType} {k' : RawKey} (h : KeyBytes t p k)
    (h' : KeyBytes t p' k') :
    k = k' ↔ p = p' := by
  cases h with
  | string v =>
    cases h' with
    | string v' =>
      rw [PrimaryKey.string.injEq]
      refine ⟨fun hk => utf8_inj (cons.inj hk).2, fun hv => ?_⟩
      rw [hv]
  | int32 v =>
    generalize hp : PrimaryKey.int v.toInt = p at *
    cases h' with
    | int32 v' =>
      rw [← hp, PrimaryKey.int.injEq, Int32.toInt_inj]
      refine ⟨encodeI32Key_inj, fun hv => ?_⟩
      rw [hv]
  | int64 v =>
    generalize hp : PrimaryKey.int v.toInt = p at *
    cases h' with
    | int64 v' =>
      rw [← hp, PrimaryKey.int.injEq, Int64.toInt_inj]
      refine ⟨encodeI64Key_inj, fun hv => ?_⟩
      rw [hv]
  | bytes v =>
    cases h' with
    | bytes v' =>
      rw [PrimaryKey.bytes.injEq]
      refine ⟨fun hk => (cons.inj hk).2, fun hv => ?_⟩
      rw [hv]

variable {primary : SchemaField}

theorem primaryValueRawKey_eq_ok (h : primaryValueRawKey schema primary value = .ok k) :
    ∃ p, value.denotes = some p ∧ KeyBytes primary.fieldType p k := by
  unfold primaryValueRawKey at h
  split at h
  next v ht =>
    cases h
    rw [ht]
    exact ⟨_, rfl, .string v⟩
  next v ht =>
    cases h
    rw [ht]
    exact ⟨_, rfl, .int32 v⟩
  next v ht =>
    split at h
    next small hsmall =>
      cases h
      rw [ht]
      refine ⟨_, rfl, ?_⟩
      rw [← tryFromInt64_toInt hsmall]
      exact .int32 small
    next => cases h
  next v ht =>
    cases h
    rw [ht]
    refine ⟨_, rfl, ?_⟩
    rw [← Int32.toInt_toInt64 v]
    exact .int64 v.toInt64
  next v ht =>
    cases h
    rw [ht]
    exact ⟨_, rfl, .int64 v⟩
  next v ht =>
    cases h
    rw [ht]
    exact ⟨_, rfl, .bytes v⟩
  next => cases h

-- ===== the schema

namespace Schema

variable {schema : Schema}

/-- The primary key `p` has the raw key `k` under the schema. -/
def RawKeyOf (schema : Schema) (p : PrimaryKey) (k : RawKey) : Prop :=
  ∃ primary, schema.primaryField = some primary ∧ KeyBytes primary.fieldType p k

theorem RawKeyOf.inj_iff {k k' : RawKey} (h : schema.RawKeyOf p k) (h' : schema.RawKeyOf p' k') :
    k = k' ↔ p = p' := by
  obtain ⟨primary, hprimary, hbytes⟩ := h
  obtain ⟨primary', hprimary', hbytes'⟩ := h'
  obtain rfl := Option.some.inj (hprimary.symm.trans hprimary')
  exact hbytes.inj_iff hbytes'

end Schema

theorem schemaPrimaryKeyRawKey_eq_ok (h : schemaPrimaryKeyRawKey schema value = .ok k) :
    ∃ p, value.denotes = some p ∧ schema.RawKeyOf p k := by
  obtain ⟨⟨⟩, -, h⟩ := bind_eq_ok.1 h
  obtain ⟨primary, hprimary, h⟩ := bind_eq_ok.1 h
  obtain ⟨p, hp, hbytes⟩ := primaryValueRawKey_eq_ok h
  exact ⟨p, hp, primary, primaryField_eq_ok.1 hprimary, hbytes⟩

variable {document : SchemaValue}

theorem schemaDocumentRawKey_eq_ok (h : schemaDocumentRawKey schema document = .ok k) :
    ∃ p, schema.primaryKeyOf document = some p ∧ schema.RawKeyOf p k := by
  obtain ⟨⟨⟩, -, h⟩ := bind_eq_ok.1 h
  obtain ⟨⟨⟩, -, h⟩ := bind_eq_ok.1 h
  obtain ⟨primary, hprimary, h⟩ := bind_eq_ok.1 h
  split at h
  next => cases h
  next value hvalue =>
    obtain ⟨p, hp, hbytes⟩ := primaryValueRawKey_eq_ok h
    have hprimary := primaryField_eq_ok.1 hprimary
    refine ⟨p, ?_, primary, hprimary, hbytes⟩
    simp only [Schema.primaryKeyOf, hprimary, hvalue, Option.bind_eq_bind, Option.bind_some, hp]

-- ===== validation

/-- A valid schema has a primary field, which is always present and of a
type that has keys. -/
theorem Schema.primary_of_valid (h : s.validate = .ok ()) :
    ∃ primary, s.primaryField = some primary ∧ primary ∈ s.fields ∧ primary.optional = false
      ∧ primary.fieldType.isReferenceCompatible = true := by
  obtain ⟨⟨f, hf, hp⟩, -, hall⟩ := valid_fields h
  cases hfind : s.primaryField with
  | none => exact absurd hp (find?_eq_none.1 hfind f hf)
  | some primary =>
    have hmem := mem_of_find?_eq_some hfind
    have hcheck := (hall primary hmem).2 (find?_some hfind)
    obtain ⟨⟨⟩, hoptional, hcheck⟩ := bind_eq_ok.1 hcheck
    obtain ⟨⟨⟩, -, hcheck⟩ := bind_eq_ok.1 hcheck
    refine ⟨primary, rfl, hmem, ?_, ?_⟩
    · exact Bool.eq_false_of_not_eq_true (failIf_eq_ok.1 hoptional)
    · exact Bool.eq_true_of_not_eq_false (failIf_eq_ok.1 hcheck)

variable {object : SchemaObject} {parent : String}

theorem validateField_of_mem (h : validateFields fields object parent = .ok ()) (hf : f ∈ fields) :
    validateField f object parent = .ok () := by
  induction fields with
  | nil => cases hf
  | cons g fields ih =>
    obtain ⟨⟨⟩, hown, h⟩ := bind_eq_ok.1 h
    rcases mem_cons.1 hf with rfl | hf
    · exact hown
    · exact ih h hf

/-- A field that is not optional is present, with a value of its type. -/
theorem validateField_required (hoptional : f.optional = false)
    (h : validateField f object parent = .ok ()) :
    ∃ value, resolvePath object f.name = some value
      ∧ validateValueType f.fieldType value (joinPath parent f.name) = .ok () := by
  obtain ⟨name, fieldType, primary, optional⟩ := f
  obtain rfl : optional = false := hoptional
  unfold validateField at h
  split at h
  next => cases h
  next => cases h
  next value hno hvalue => exact ⟨value, hvalue, h⟩

attribute [local simp] typeMismatch

/-- A value of a type that has keys has a key, and one of a type that has
exact indexes an index key. -/
theorem keys_of_validType {t : SchemaFieldType} {path : String}
    (h : validateValueType t value path = .ok ()) :
    (t.isReferenceCompatible = true → ∀ schema primary, primary.fieldType = t →
        ∃ k, primaryValueRawKey schema primary value = .ok k)
      ∧ (isExactIndexType t = true → ∀ collection field,
        ∃ key, indexKeyFromValue collection field t value = .ok key) := by
  unfold primaryValueRawKey indexKeyFromValue
  cases t with
  | int32 =>
    cases value with
    | int64 v => cases hsmall : tryFromInt64 v <;> simp_all [validateValueType]
    | _ => simp_all [validateValueType]
  | object _ | array _ | json => refine ⟨fun hno => ?_, fun hno => ?_⟩ <;> cases hno
  | _ => cases value <;> simp_all [validateValueType, SchemaFieldType.isReferenceCompatible]

/-- A document that passes validation has a raw key. -/
theorem rawKey_of_valid (h : validateDocument schema document = .ok ()) :
    ∃ k, schemaDocumentRawKey schema document = .ok k := by
  unfold validateDocument at h
  split at h
  next => cases h
  next hvalid =>
    split at h
    next object =>
      obtain ⟨⟨⟩, hfields, -⟩ := bind_eq_ok.1 h
      obtain ⟨primary, hprimary, hmem, hoptional, htype⟩ := Schema.primary_of_valid hvalid
      obtain ⟨value, hvalue, hown⟩ := validateField_required hoptional
        (validateField_of_mem hfields hmem)
      obtain ⟨k, hk⟩ := (keys_of_validType hown).1 htype schema primary rfl
      have hfield : (SchemaValue.object object).field primary.name = some value := hvalue
      refine ⟨k, ?_⟩
      simp only [schemaDocumentRawKey, validateSchema_eq_ok.2 hvalid,
        primaryField_eq_ok.2 hprimary, hfield, ok_bind]
      exact hk
    next => cases h

/-- The value of a field in a document that passed its validation. -/
theorem valueType_of_valid (h : validateDocument schema document = .ok ()) (hf : f ∈ schema.fields)
    (hvalue : presentValue document f.name = some value) :
    validateValueType f.fieldType value (joinPath "" f.name) = .ok () := by
  unfold validateDocument at h
  split at h
  next => cases h
  next =>
    split at h
    next object =>
      obtain ⟨⟨⟩, hfields, -⟩ := bind_eq_ok.1 h
      have hown := validateField_of_mem hfields hf
      obtain ⟨name, fieldType⟩ := f
      simp only [presentValue, SchemaValue.field, SchemaValue.asObject, Option.bind_eq_bind,
        Option.bind_some] at hvalue
      unfold validateField at hown
      split at hown
      next hnone =>
        rw [hnone] at hvalue
        cases hvalue
      next hnull =>
        rw [hnull] at hvalue
        cases hvalue
      next v hno hsome =>
        rw [hsome] at hvalue
        split at hvalue
        next => cases hvalue
        next =>
          cases hvalue
          exact hown
    next => cases h

end MemoryFirst.Store
