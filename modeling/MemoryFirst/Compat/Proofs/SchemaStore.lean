/-
What one call does to a collection of the schema store.

# Documents

`WriteBehindCache.values` is what readers see of the cache. Touches and
flushes leave it alone; a write changes it at its key.

# Entries

The four loops over the fields of a collection are folds over the entries
a document has in them (`entriesFrom`). The inserting loops can fail
half-way; they do not on a document that passed its validation, because
a value of an exact type has an index key and a value of a reference
type a target (`insertFields_eq`).

# One call

`Effect` is what a call can do to a collection: nothing but touches, the
write of a checked document with the maps refiled, or the removal of a
document with its index entries. Every write call has one of these
effects, and a call that fails has the first
(`putInto_effect`, `update_effect`, `delete_effect`).
-/
import MemoryFirst.Core.Proofs.WriteBehind
import MemoryFirst.Store.Proofs.PrimaryKey
import MemoryFirst.Store.Proofs.SchemaReference
import MemoryFirst.Compat.SchemaStore

namespace MemoryFirst.Core.WriteBehindCache

open Function List

variable {K V ε : Type} {c c' : WriteBehindCache K V}

-- ===== visible values

/-- The values readers see. -/
def values (c : WriteBehindCache K V) (k : K) : Option V :=
  (c.map k).bind ValueRecord.value

theorem Settles.values_eq (h : Settles c c' []) : c'.values = c.values := by
  funext k
  cases hr' : c'.map k with
  | some r' =>
    obtain ⟨r, hr, -, hval⟩ := h.map_mem k r' hr'
    simp [values, hr, hr', hval]
  | none =>
    cases hr : c.map k with
    | none => simp [values, hr, hr']
    | some r =>
      rcases h.map_kept k r hr with ⟨r', hkept, -⟩ | ⟨f, hf, -⟩
      · rw [hr'] at hkept
        cases hkept
      · cases hf

theorem Settles.tick (c : WriteBehindCache K V) : Settles c { c with clock := c.clock + 1 } [] where
  clock_le := Nat.le_succ _
  idx_eq := rfl
  queue_mem _ _ h := h
  map_mem _ r h := ⟨r, h, rfl, rfl⟩
  map_kept _ r h := Or.inl ⟨r, h, rfl⟩
  queue_kept _ _ h := Or.inl h

theorem Settles.trans {c₁ : WriteBehindCache K V} (h : Settles c c₁ [])
    (h' : Settles c₁ c' []) : Settles c c' [] where
  clock_le := h.clock_le.trans h'.clock_le
  idx_eq := h'.idx_eq.trans h.idx_eq
  queue_mem s e he := h.queue_mem s e (h'.queue_mem s e he)
  map_mem k r' hr' := by
    obtain ⟨r₁, hr₁, hv₁, hval₁⟩ := h'.map_mem k r' hr'
    obtain ⟨r, hr, hv, hval⟩ := h.map_mem k r₁ hr₁
    exact ⟨r, hr, hv.trans hv₁, hval.trans hval₁⟩
  map_kept k r hr := by
    rcases h.map_kept k r hr with ⟨r₁, hr₁, hv₁⟩ | ⟨f, hf, -⟩
    · rcases h'.map_kept k r₁ hr₁ with ⟨r', hr', hv'⟩ | ⟨f, hf, -⟩
      · exact Or.inl ⟨r', hr', hv'.trans hv₁⟩
      · cases hf
    · cases hf
  queue_kept s e he := by
    rcases h.queue_kept s e he with he₁ | ⟨f, hf, -⟩ | hstale
    · rcases h'.queue_kept s e he₁ with he' | ⟨f, hf, -⟩ | hstale
      · exact Or.inl he'
      · cases hf
      -- the map has kept the version the entry is behind
      refine Or.inr (Or.inr fun r hr => ?_)
      rcases h.map_kept e.key r hr with ⟨r₁, hr₁, hv₁⟩ | ⟨f, hf, -⟩
      · rw [← hv₁]
        exact hstale r₁ hr₁
      · cases hf
    · cases hf
    · exact Or.inr (Or.inr hstale)

variable [DecidableEq K]

section

variable (c : WriteBehindCache K V)

section

variable (key : K) (value : Option V) (op : Operation) (dirty : Bool)

@[simp] theorem map_writeWithPin : (c.writeWithPin key value op dirty).1.map
      = update c.map key (some ⟨value, c.clock, c.clock⟩) := by
  cases dirty <;> rfl

theorem values_writeWithPin :
    (c.writeWithPin key value op dirty).1.values = update c.values key value := by
  funext k
  by_cases hk : k = key
  · subst hk
    simp [values]
  · simp [values, hk]

end

theorem values_cleanupEntry (e : DirtyEntry K) : (c.cleanupEntry e).values = c.values := by
  unfold cleanupEntry
  split
  case isFalse => rfl
  case isTrue =>
    split
    next r hr =>
      split
      case isFalse => rfl
      case isTrue h =>
        funext k
        by_cases hk : k = e.key
        · subst hk
          simp [values, hr, h.2]
        · simp [values, hk]
    next => rfl

theorem values_cleanupAfterFlush (drained : List (Nat × DirtyEntry K)) :
    (c.cleanupAfterFlush drained).values = c.values := by
  induction drained generalizing c with
  | nil => rfl
  | cons p drained ih =>
    show ((c.cleanupEntry p.2).cleanupAfterFlush drained).values = _
    rw [ih, values_cleanupEntry]

/-- A flush takes only tombstones out of the map. -/
theorem values_flushRange (range : List Nat) (backend : List (FlushRecord K V) → Except ε Unit)
    (idleTicks maxRecords : Nat) :
    (c.flushRange range backend idleTicks maxRecords).1.values = c.values := by
  have hd := drainOf_drainEligibleShards c range idleTicks maxRecords
  unfold flushRange
  simp only
  generalize c.drainEligibleShards range idleTicks maxRecords = d at hd
  have hdrained : d.cache.values = c.values := by
    funext k
    simp only [values, hd.map_eq]
  split
  case isTrue => exact hdrained
  case isFalse =>
    split
    next =>
      rw [values_cleanupAfterFlush]
      exact hdrained
    next =>
      rw [← hdrained]
      funext k
      simp only [values, (requeue_spec d.cache d.drained).1]

end

/-- One write, with the touches of the reads around it. -/
def Wrote (c c' : WriteBehindCache K V) (key : K) (value : Option V)
    (op : Operation) (dirty : Bool) : Prop :=
  ∃ c₁, Settles c c₁ [] ∧ Settles (c₁.writeWithPin key value op dirty).1 c' []

theorem Wrote.values_eq {key : K} {value : Option V} {op : Operation}
    {dirty : Bool} (h : Wrote c c' key value op dirty) :
    c'.values = update c.values key value := by
  obtain ⟨c₁, hbefore, hafter⟩ := h
  rw [hafter.values_eq, values_writeWithPin, hbefore.values_eq]

end MemoryFirst.Core.WriteBehindCache

namespace MemoryFirst.Compat

open Lib Core Store WriteBehindCache

-- ===== entries

section

variable {φ κ σ : Type} (name : φ → String)
  (keyOf : φ → SchemaValue → SchemaResult κ) (document : SchemaValue)

/-- The entries a document has in the fields, the first of them at
position `idx`. -/
def entriesFrom : Nat → List φ → List (Entry κ)
  | _, [] => []
  | idx, f :: fields =>
    match presentValue document (name f) with
    | none => entriesFrom (idx + 1) fields
    | some value =>
      match keyOf f value with
      | .error _ => entriesFrom (idx + 1) fields
      | .ok key => ⟨idx, key⟩ :: entriesFrom (idx + 1) fields

/-- A document has a key in a field. -/
def HasKey (f : φ) (key : κ) : Prop :=
  ∃ value, presentValue document (name f) = some value ∧ keyOf f value = .ok key

variable {name keyOf document}

theorem HasKey.unique {f : φ} {key key' : κ} (h : HasKey name keyOf document f key)
    (h' : HasKey name keyOf document f key') : key = key' := by
  obtain ⟨v, hv, hkey⟩ := h
  obtain ⟨v', hv', hkey'⟩ := h'
  obtain rfl := Option.some.inj (hv.symm.trans hv')
  exact Except.ok.inj (hkey.symm.trans hkey')

theorem removeFields_eq (remove : Entry κ → σ → σ) (idx : Nat) (fields : List φ) (maps : σ) :
    removeFields name keyOf document remove idx fields maps
      = (entriesFrom name keyOf document idx fields).foldl (fun maps e => remove e maps) maps := by
  induction fields generalizing idx maps with
  | nil => rfl
  | cons f fields ih =>
    unfold removeFields entriesFrom
    cases presentValue document (name f) with
    | none => exact ih _ _
    | some value =>
      cases hkey : keyOf f value with
      | error _ | ok _ =>
        simp only [hkey]
        exact ih _ _

variable {fields : List φ}

theorem insertFields_eq (insert : Entry κ → σ → σ)
    (htyped : ∀ f ∈ fields, ∀ value, presentValue document (name f) = some value →
        ∃ key, keyOf f value = .ok key) (idx : Nat) (maps : σ) :
    insertFields name keyOf document insert idx fields maps
      = ((entriesFrom name keyOf document idx fields).foldl
        (fun maps e => insert e maps) maps, .ok ()) := by
  induction fields generalizing idx maps with
  | nil => rfl
  | cons f fields ih =>
    obtain ⟨hf, hrest⟩ := List.forall_mem_cons.1 htyped
    unfold insertFields entriesFrom
    cases hvalue : presentValue document (name f) with
    | none => exact ih hrest _ _
    | some value =>
      obtain ⟨key, hkey⟩ := hf value hvalue
      simp only [hkey]
      exact ih hrest _ _

theorem mem_entriesFrom {idx i : Nat} {key : κ} :
    (⟨i, key⟩ : Entry κ) ∈ entriesFrom name keyOf document idx fields ↔
      ∃ j f, i = idx + j ∧ fields[j]? = some f ∧ HasKey name keyOf document f key := by
  induction fields generalizing idx with
  | nil => simp [entriesFrom]
  | cons f fields ih =>
    rw [exists_position_cons, ← ih, entriesFrom]
    cases hvalue : presentValue document (name f) with
    | none => simp [HasKey, hvalue]
    | some value =>
      cases hkey : keyOf f value with
      | error e => simp [HasKey, hvalue, hkey]
      | ok own => simp [HasKey, hvalue, hkey, eq_comm]

end

-- ===== validated documents

variable {s schema : Schema} {f : SchemaField} {document value : SchemaValue} {t : SchemaFieldType}
  {path : String}

attribute [local simp] typeMismatch

/-- A value of an exact type has an index key, and one of a reference
type a primary key. -/
theorem keys_of_validType (h : validateValueType t value path = .ok ())
    (collection field : String) :
    (isExactIndexType t = true → ∃ key, indexKeyFromValue collection field t value = .ok key)
      ∧ (t.isReferenceCompatible = true →
        ∃ key, primaryKeyFromValue collection field t value = .ok key) := by
  unfold indexKeyFromValue primaryKeyFromValue
  cases t with
  | int32 =>
    cases value with
    | int64 v => cases hsmall : tryFromInt64 v <;> simp_all [validateValueType]
    | _ => simp_all [validateValueType]
  | object _ | array _ | json => refine ⟨fun hno => ?_, fun hno => ?_⟩ <;> cases hno
  | _ => cases value <;> simp_all [validateValueType, SchemaFieldType.isReferenceCompatible]

/-- What the check of a field leaves of its flags. -/
theorem flags_of_valid (h : s.validate = .ok ()) (hf : f ∈ s.fields) :
    (f.unique = true → f.indexed = true ∧ f.optional = false)
      ∧ (f.indexed = true → f.fieldType.isIndexable = true)
      ∧ (f.reference.isSome = true → f.fieldType.isReferenceCompatible = true) := by
  have h := ((Schema.valid_fields h).2.2 f hf).1
  simp only [Schema.validateField, bind_eq_ok, Unique.exists_iff, PUnit.default_eq_unit,
    failIf_eq_ok] at h
  obtain ⟨-, -, -, hindexable, hindexed, hoptional, -, -, -, -, h⟩ := h
  refine ⟨fun hu => ?_, fun hi => ?_, fun hr => ?_⟩
  · rw [hu] at hindexed hoptional
    exact ⟨Bool.eq_true_of_not_eq_false fun hno => hindexed ⟨rfl, hno⟩,
      Bool.eq_false_of_not_eq_true fun hyes => hoptional ⟨rfl, hyes⟩⟩
  · exact Bool.eq_true_of_not_eq_false fun hno => hindexable ⟨hi, hno⟩
  · obtain ⟨r, hr⟩ := Option.isSome_iff_exists.1 hr
    simp only [validateReference, hr] at h
    obtain ⟨⟨⟩, -, h⟩ := bind_eq_ok.1 h
    have hcompatible := failIf_eq_ok.1 h
    exact Bool.eq_true_of_not_eq_false hcompatible

theorem mem_indexedFieldsOf {f : IndexedField} :
    f ∈ indexedFieldsOf schema ↔ ∃ g ∈ schema.fields, g.indexed = true
      ∧ isExactIndexType g.fieldType = true
      ∧ f = ⟨g.name, g.fieldType, g.unique⟩ := by
  simp only [indexedFieldsOf, List.mem_map, List.mem_filter, Bool.and_eq_true, and_assoc,
    @eq_comm _ f]

theorem mem_referenceFieldsOf {f : ReferenceField} :
    f ∈ referenceFieldsOf schema ↔ ∃ g ∈ schema.fields, ∃ r,
      g.reference = some r ∧ f = ⟨g.name, g.fieldType, r⟩ := by
  simp only [referenceFieldsOf, List.mem_filterMap, Option.map_eq_some_iff, @eq_comm _ f]

theorem indexKeys_of_valid (h : validateDocument schema document = .ok ()) :
    ∀ f ∈ indexedFieldsOf schema, ∀ value, presentValue document f.name = some value →
        ∃ key, indexKeyFromValue schema.name f.name f.fieldType value = .ok key := by
  intro f hf value hvalue
  obtain ⟨g, hg, -, hexact, rfl⟩ := mem_indexedFieldsOf.1 hf
  exact (keys_of_validType (valueType_of_valid h hg hvalue) _ _).1 hexact

theorem targetKeys_of_valid (hschema : schema.validate = .ok ())
    (h : validateDocument schema document = .ok ()) :
    ∀ f ∈ referenceFieldsOf schema, ∀ value, presentValue document f.name = some value →
        ∃ key, primaryKeyFromValue schema.name f.name f.fieldType value = .ok key := by
  intro f hf value hvalue
  obtain ⟨g, hg, r, hr, rfl⟩ := mem_referenceFieldsOf.1 hf
  have hcompatible := (flags_of_valid hschema hg).2.2 (by simp [hr])
  exact (keys_of_validType (valueType_of_valid h hg hvalue) _ _).2 hcompatible

-- ===== the maps of documents

variable (schema : Schema) (document : SchemaValue)

/-- The index entries of a document. -/
def indexEntries : List (Entry SchemaIndexKey) :=
  entriesFrom IndexedField.name
    (fun f value => indexKeyFromValue schema.name f.name f.fieldType value)
    document 0 (indexedFieldsOf schema)

/-- The references of a document. -/
def referenceEntries : List (Entry SchemaKey) :=
  entriesFrom ReferenceField.name
    (fun f value => primaryKeyFromValue schema.name f.name f.fieldType value)
    document 0 (referenceFieldsOf schema)

/-- The entries of a document that may not be there. -/
def entriesOf {κ : Type} (entries : SchemaValue → List (Entry κ)) :
    Option SchemaValue → List (Entry κ)
  | none => []
  | some document => entries document

namespace ReferenceMaps

variable (m : ReferenceMaps) (entries : List (Entry SchemaKey)) (source : SchemaKey)

/-- Takes a source from under each of the entries. -/
def removeAll : ReferenceMaps :=
  entries.foldl (fun m e => m.remove source e) m

/-- Files a source under each of the entries. -/
def insertAll : ReferenceMaps :=
  entries.foldl (fun m e => m.insert source e) m

/-- Both maps are those of the entries the sources have. -/
def Mirrors (m : ReferenceMaps) (entries : SchemaKey → List (Entry SchemaKey)) : Prop :=
  (entryLinks SchemaKey).Mirrors m.forward m.reverse entries

variable (l : List (Entry SchemaKey))

theorem removeAll_eq : m.removeAll l source =
      ⟨eraseAll m.forward (l.map ((entryLinks SchemaKey).place source)),
        m.reverse.removeAll l source⟩ := by
  induction l generalizing m with
  | nil => rfl
  | cons e l ih => exact ih (m.remove source e)

theorem insertAll_eq : m.insertAll l source =
      ⟨Lib.insertAll m.forward ((entryLinks SchemaKey).pairs source l),
        m.reverse.addAll l source⟩ := by
  induction l generalizing m with
  | nil => rfl
  | cons e l ih => exact ih (m.insert source e)

end ReferenceMaps

namespace Collection

variable {h h' : Collection}

/-- The documents readers see. -/
def documents (h : Collection) : SchemaKey → Option SchemaValue :=
  h.inner.values

/-- The fields are those of a valid schema. -/
structure Declared (h : Collection) : Prop where
  valid : h.schema.validate = .ok ()
  indexed_eq : h.indexedFields = indexedFieldsOf h.schema
  reference_eq : h.referenceFields = referenceFieldsOf h.schema

/-- Every document has been checked against the schema and stands under
its own key. -/
structure Sound (h : Collection) : Prop extends Declared h where
  typed : ∀ k d, h.documents k = some d →
    validateDocument h.schema d = .ok () ∧ extractPrimaryKey h.schema d = .ok k

/-- Nothing but touches. -/
def Quiet (h h' : Collection) : Prop :=
  ∃ inner, Settles h.inner inner [] ∧ h' = { h with inner := inner }

section

variable (h : Collection) (inner : WriteBehindCache SchemaKey SchemaValue) (key : SchemaKey)

/-- The collection after a document was written over the one that was
under its key. -/
def refiled (document : SchemaValue) : Collection :=
  { h with
    inner := inner
    indexes := (h.indexes.removeAll
      (entriesOf (indexEntries h.schema) (h.documents key)) key).addAll
        (indexEntries h.schema document) key
    references := (h.references.removeAll
      (entriesOf (referenceEntries h.schema) (h.documents key)) key).insertAll
        (referenceEntries h.schema document) key }

/-- The collection after a document was deleted. -/
def unfiled : Collection :=
  { h with
    inner := inner
    indexes := h.indexes.removeAll
      (entriesOf (indexEntries h.schema) (h.documents key)) key }

end

/-- A checked document is written under its key. -/
structure Stores (h : Collection) (key : SchemaKey) (document : SchemaValue)
    (dirty : Bool) (inner : WriteBehindCache SchemaKey SchemaValue) :
    Prop where
  checked : validateDocument h.schema document = .ok ()
  own : extractPrimaryKey h.schema document = .ok key
  free : h.validateUniqueConstraints key (h.documents key) document = .ok ()
  wrote : Wrote h.inner inner key (some document) .put dirty

@[simp] theorem documents_with_inner (inner : WriteBehindCache SchemaKey SchemaValue) :
    ({ h with inner := inner } : Collection).documents = inner.values := rfl

theorem get_eq (h : Collection) (key : SchemaKey) :
    h.get key = ({ h with inner := (h.inner.get key).1 }, h.documents key) := by
  unfold get
  rw [← show (h.inner.get key).2 = h.documents key from get_snd h.inner key]

/-- A touched collection is declared like the one before. -/
theorem Declared.touch (hd : h.Declared) (inner : WriteBehindCache SchemaKey SchemaValue) :
    ({ h with inner := inner } : Collection).Declared :=
  ⟨hd.valid, hd.indexed_eq, hd.reference_eq⟩

theorem Quiet.refl (h : Collection) : h.Quiet h :=
  ⟨h.inner, Settles.refl _, rfl⟩

theorem quiet_touch (h : Collection) (key : SchemaKey) :
    h.Quiet { h with inner := (h.inner.get key).1 } :=
  ⟨_, settles_get h.inner key, rfl⟩

theorem Quiet.documents_eq (hq : h.Quiet h') : h'.documents = h.documents := by
  obtain ⟨inner, hs, rfl⟩ := hq
  exact hs.values_eq

-- ===== the map loops

theorem indexKey_eq (h : Collection) : h.indexKey = fun f value =>
    indexKeyFromValue h.schema.name f.name f.fieldType value := rfl

theorem targetKey_eq (h : Collection) : h.targetKey = fun f value =>
    primaryKeyFromValue h.schema.name f.name f.fieldType value := rfl

theorem removeFromIndexes_eq (hfields : h.indexedFields = indexedFieldsOf
    h.schema) (key : SchemaKey) (old : SchemaValue) :
    h.removeFromIndexes key old = { h with
      indexes := h.indexes.removeAll (indexEntries h.schema old) key } := by
  unfold removeFromIndexes
  rw [removeFields_eq, hfields]
  rfl

theorem removeFromReferences_eq (hfields : h.referenceFields
    = referenceFieldsOf h.schema) (key : SchemaKey) (old : SchemaValue) :
    h.removeFromReferences key old = { h with
      references :=
        h.references.removeAll (referenceEntries h.schema old) key } := by
  unfold removeFromReferences
  rw [removeFields_eq, hfields]
  rfl

variable (hd : h.Declared)

section

variable (key : SchemaKey) (old : Option SchemaValue)

include hd

theorem removeOld_eq : h.removeOld key old = { h with
      indexes := h.indexes.removeAll (entriesOf (indexEntries h.schema) old) key
      references := h.references.removeAll (entriesOf (referenceEntries h.schema) old) key } := by
  cases old with
  | none => rfl
  | some old =>
    show (h.removeFromIndexes key old).removeFromReferences key old = _
    rw [removeFromIndexes_eq hd.indexed_eq]
    exact removeFromReferences_eq (h := { h with
        indexes := h.indexes.removeAll (indexEntries h.schema old) key })
      hd.reference_eq key old

/-- The maps behind the write of a checked document. -/
theorem updateIndexesOnPut_eq {new : SchemaValue} (hnew : validateDocument h.schema new = .ok ()) :
    h.updateIndexesOnPut key old new = ({ h with
      indexes := (h.indexes.removeAll
        (entriesOf (indexEntries h.schema) old) key).addAll
          (indexEntries h.schema new) key
      references := (h.references.removeAll
        (entriesOf (referenceEntries h.schema) old) key).insertAll
          (referenceEntries h.schema new) key }, .ok ()) := by
  have hindex := insertFields_eq (fun e (indexes : Postings (Entry SchemaIndexKey) SchemaKey) =>
      indexes.add e key) (indexKeys_of_valid hnew) 0
    (h.indexes.removeAll (entriesOf (indexEntries h.schema) old) key)
  have htarget := insertFields_eq (ReferenceMaps.insert key) (targetKeys_of_valid hd.valid hnew) 0
    (h.references.removeAll (entriesOf (referenceEntries h.schema) old) key)
  unfold updateIndexesOnPut insertReferences
  simp only [removeOld_eq hd, indexKey_eq, targetKey_eq, hd.indexed_eq,
    hd.reference_eq, hindex, htarget]
  rfl

end

-- ===== the writes

theorem tryWrite_cases (c : WriteBehindCache SchemaKey SchemaValue)
    (full : Bool) (key : SchemaKey) (value : Option SchemaValue)
    (op : Operation) (dirty : Bool) :
    (tryWrite c full key value op dirty
        = ({ c with clock := c.clock + 1 }, none) ∧ c.map key = none)
      ∨ tryWrite c full key value op dirty = ((c.writeWithPin key value op dirty).1,
          some (c.writeWithPin key value op dirty).2) := by
  unfold tryWrite
  split
  case isTrue hfull => exact Or.inl ⟨rfl, Option.isNone_iff_eq_none.1 hfull.2⟩
  case isFalse => exact Or.inr rfl

section

variable (full : Bool) (key : SchemaKey)

include hd

variable {document : SchemaValue}

/-- The write of a checked document: refused by a full map, or done with
the maps behind it. -/
theorem store_cases (old : Option SchemaValue) (dirty : Bool)
    (hnew : validateDocument h.schema document = .ok ()) :
    (∃ h' e, h.store full key old document dirty = (h', .error e) ∧ h.Quiet h')
      ∨ ∃ inner version, h.store full key old document dirty = ({ h with
          inner := inner
          indexes := (h.indexes.removeAll
            (entriesOf (indexEntries h.schema) old) key).addAll
              (indexEntries h.schema document) key
          references := (h.references.removeAll
            (entriesOf (referenceEntries h.schema) old) key).insertAll
              (referenceEntries h.schema document) key }, .ok version)
        ∧ Settles (h.inner.writeWithPin key (some document) .put dirty).1 inner [] := by
  unfold store
  rcases tryWrite_cases h.inner full key (some document) .put dirty with
    ⟨hfull, -⟩ | hwrote
  · rw [hfull]
    exact Or.inl ⟨_, _, rfl, _, Settles.tick h.inner, rfl⟩
  rw [hwrote]
  refine Or.inr ⟨_, (h.inner.writeWithPin key (some document) .put dirty).2, ?_, settles_get _ key⟩
  simp only [get_eq, documents_with_inner, values_writeWithPin,
    Function.update_self, Option.getD_some]
  have hd' := hd.touch ((h.inner.writeWithPin key (some document) .put dirty).1.get key).1
  rw [updateIndexesOnPut_eq hd' key old hnew]

/-- A write of a checked document behind the read of the old one. -/
theorem store_touched_cases (dirty : Bool) (hchecked : validateDocument h.schema document = .ok ())
    (hown : extractPrimaryKey h.schema document = .ok key)
    (hfree : h.validateUniqueConstraints key (h.documents key) document = .ok ()) :
    (∃ h' e, { h with inner := (h.inner.get key).1 }.store full key
        (h.documents key) document dirty = (h', .error e) ∧ h.Quiet h')
      ∨ ∃ inner version, { h with inner := (h.inner.get key).1 }.store full
          key (h.documents key) document dirty
          = (h.refiled inner key document, .ok version)
        ∧ h.Stores key document dirty inner := by
  have htouch := settles_get h.inner key
  rcases store_cases (hd.touch (h.inner.get key).1) full key (h.documents key) dirty hchecked with
    ⟨h', e, heq, inner, hs, rfl⟩ | ⟨inner, version, heq, hs⟩
  · exact Or.inl ⟨_, e, heq, inner, htouch.trans hs, rfl⟩
  · exact Or.inr ⟨inner, version, heq, hchecked, hown, hfree, _, htouch, hs⟩

end

/-- The unique check reads the indexes, which a touch leaves alone. -/
theorem validateUniqueConstraints_touch (h : Collection)
    (inner : WriteBehindCache SchemaKey SchemaValue) (key : SchemaKey)
    (old : Option SchemaValue) (new : SchemaValue) :
    ({ h with inner := inner } : Collection).validateUniqueConstraints key
      old new = h.validateUniqueConstraints key old new := by
  have hloop : ∀ idx fields, ({ h with inner := inner } : Collection).validateUniqueFields key old
        new idx fields = h.validateUniqueFields key old new idx fields := by
    intro idx fields
    induction fields generalizing idx with
    | nil => rfl
    | cons f fields ih => simp only [validateUniqueFields, ih, indexKey_eq]
  exact hloop 0 h.indexedFields

section

variable (full : Bool)

include hd

/-- `put_into`: an error with nothing but touches, or the document stored
over the one under its key. -/
theorem putInto_cases (document : SchemaValue) (dirty : Bool) (mode : PutMode) :
    (∃ h' e, h.putInto full document dirty mode = (h', .error e) ∧ h.Quiet h')
      ∨ ∃ key inner version, h.putInto full document dirty mode
          = (h.refiled inner key document, .ok version)
        ∧ h.Stores key document dirty inner := by
  unfold putInto
  cases hchecked : validateDocument h.schema document with
  | error e => exact Or.inl ⟨h, _, rfl, .refl h⟩
  | ok _ =>
    cases hown : extractPrimaryKey h.schema document with
    | error e => exact Or.inl ⟨h, _, rfl, .refl h⟩
    | ok key =>
      simp only [get_eq]
      split
      case isTrue => exact Or.inl ⟨_, _, rfl, quiet_touch h key⟩
      case isFalse =>
        rw [validateUniqueConstraints_touch]
        cases hfree : h.validateUniqueConstraints key (h.documents key) document with
        | error e => exact Or.inl ⟨_, _, rfl, quiet_touch h key⟩
        | ok _ =>
          rcases store_touched_cases hd full key dirty hchecked hown hfree with hquiet | hstored
          · exact Or.inl hquiet
          · exact Or.inr ⟨key, hstored⟩

/-- `update`: an error with nothing but touches, or the changed document
stored over the old one. -/
theorem update_cases (key : SchemaKey) (update : SchemaValue → SchemaValue) :
    (∃ h' e, h.update full key update = (h', .error e) ∧ h.Quiet h')
      ∨ ∃ old inner version, h.documents key = some old ∧ h.update full key update
          = (h.refiled inner key (update old), .ok version)
        ∧ h.Stores key (update old) true inner := by
  unfold Collection.update tryUpdate
  rw [get_eq]
  cases hold : h.documents key with
  | none => exact Or.inl ⟨_, _, rfl, quiet_touch h key⟩
  | some old =>
    simp only
    cases hchecked : validateDocument h.schema (update old) with
    | error e => exact Or.inl ⟨_, _, rfl, quiet_touch h key⟩
    | ok _ =>
      cases hown : extractPrimaryKey h.schema (update old) with
      | error e => exact Or.inl ⟨_, _, rfl, quiet_touch h key⟩
      | ok nextKey =>
        simp only
        by_cases hsame : nextKey ≠ key
        · rw [if_pos hsame]
          exact Or.inl ⟨_, _, rfl, quiet_touch h key⟩
        rw [if_neg hsame, validateUniqueConstraints_touch]
        obtain rfl : nextKey = key := not_not.1 hsame
        cases hfree : h.validateUniqueConstraints nextKey (some old) (update old) with
        | error e => exact Or.inl ⟨_, _, rfl, quiet_touch h nextKey⟩
        | ok _ =>
          rw [← hold] at hfree
          rcases store_touched_cases hd full nextKey true hchecked hown hfree with
            ⟨h', e, heq, hq⟩ | ⟨inner, version, heq, hs⟩
          · rw [hold] at heq
            exact Or.inl ⟨h', e, by simp only [heq], hq⟩
          · rw [hold] at heq
            exact Or.inr ⟨old, inner, version, rfl, by simp only [heq], hs⟩

/-- `delete`: refused by a full map that never had the key, or done, with
the index entries of the document gone. -/
theorem delete_cases (key : SchemaKey) :
    (∃ h' e, h.delete full key = (h', .error e) ∧ h.Quiet h') ∨ ∃ inner version, h.delete full key
          = (h.unfiled inner key, .ok version)
        ∧ Wrote h.inner inner key none .delete true := by
  have htouch := settles_get h.inner key
  unfold delete
  simp only [get_eq]
  have hremoved : (h.documents key).elim { h with inner := (h.inner.get key).1 }
      ({ h with inner := (h.inner.get key).1 }.removeFromIndexes key)
      = h.unfiled (h.inner.get key).1 key := by
    unfold unfiled
    cases h.documents key with
    | none => rfl
    | some old =>
      exact removeFromIndexes_eq (hd.touch (h.inner.get key).1).indexed_eq key old
  rw [hremoved]
  rcases tryWrite_cases (h.unfiled (h.inner.get key).1 key).inner full key
      none .delete true with ⟨hfull, hnone⟩ | hwrote
  · rw [hfull]
    refine Or.inl ⟨_, _, rfl, _, htouch.trans (Settles.tick _), ?_⟩
    -- a key without a record has no document
    have hdead : h.documents key = none := by
      have hvalues := congrFun htouch.values_eq key
      rw [documents, ← hvalues]
      show (((h.inner.get key).1).map key).bind _ = none
      rw [show ((h.inner.get key).1).map key = none from hnone]
      rfl
    simp only [unfiled, hdead]
    rfl
  · rw [hwrote]
    exact Or.inr ⟨_, _, rfl, _, htouch, Settles.refl _⟩

end

end Collection

end MemoryFirst.Compat
