/-
What the functions of a collection's indexes compute: which entries a
document has, what a planned write checks and does, and what a rebuild
leaves.

# Entries

The loop over the indexed fields is described once
(`documentEntriesFrom_spec`), by the key a document has in one field
(`keyIn`). Whether a document matches an index entry is then a question
about that key (`documentMatchesIndex_eq`).

# Rebuilding

A rebuild that succeeds has filed every document under its entries, as
`Postings.Files` has it.
-/
import MemoryFirst.Store.Proofs.SchemaValue
import MemoryFirst.Store.SchemaIndex

namespace MemoryFirst.Store

open Lib Function List

-- ===== schemas

variable {schema : Schema}

theorem validateSchema_eq_ok : validateSchema schema = .ok () ↔ schema.validate = .ok () :=
  mapError_eq_ok

theorem primaryField_eq_ok {primary : SchemaField} :
    primaryField schema = .ok primary ↔ schema.primaryField = some primary := by
  unfold primaryField
  cases schema.primaryField with
  | none => simp
  | some p => simp

variable {fields : List SchemaField} {s : Schema}

/-- What the loop over the fields has checked. -/
theorem Schema.validateFields_eq_ok {seen : List String} {primaryCount n : Nat}
    (h : s.validateFields seen primaryCount fields = .ok n) :
    (n = primaryCount ∨ ∃ f ∈ fields, f.primary = true) ∧ (fields.map SchemaField.name).Nodup
      ∧ ∀ f ∈ fields, f.name ∉ seen ∧ s.validateField f = .ok ()
        ∧ (f.primary = true → validatePrimaryField f = .ok ()) := by
  induction fields generalizing seen primaryCount with
  | nil =>
    cases h
    exact ⟨Or.inl rfl, nodup_nil, nofun⟩
  | cons f fields ih =>
    obtain ⟨⟨⟩, hown, h⟩ := bind_eq_ok.1 h
    obtain ⟨⟨⟩, hseen, h⟩ := bind_eq_ok.1 h
    -- the names of the rest are checked against this one, too
    have hnext : ∃ count, (count = primaryCount ∨ f.primary = true)
        ∧ (f.primary = true → validatePrimaryField f = .ok ())
        ∧ s.validateFields (f.name :: seen) count fields = .ok n := by
      split at h
      case isTrue hp =>
        obtain ⟨⟨⟩, hprimary, h⟩ := bind_eq_ok.1 h
        exact ⟨_, Or.inr hp, fun _ => hprimary, h⟩
      case isFalse hp => exact ⟨_, Or.inl rfl, fun hyes => absurd hyes hp, h⟩
    obtain ⟨count, hcount, hprimary, h⟩ := hnext
    obtain ⟨hn, hnodup, hall⟩ := ih h
    refine ⟨?_, nodup_cons.2 ⟨fun hmem => ?_, hnodup⟩,
      forall_mem_cons.2 ⟨⟨failIf_eq_ok.1 hseen, hown, hprimary⟩, fun g hg => ?_⟩⟩
    · rw [exists_mem_cons_iff]
      grind
    · obtain ⟨g, hg, hname⟩ := mem_map.1 hmem
      exact (hall g hg).1 (hname ▸ mem_cons_self)
    · obtain ⟨hnew, hchecked⟩ := hall g hg
      exact ⟨fun hmem => hnew (mem_cons_of_mem _ hmem), hchecked⟩

/-- What a valid schema has passed: it has a primary field and names its
fields apart, and each of them has passed its own checks. -/
theorem Schema.valid_fields (h : s.validate = .ok ()) :
    (∃ f ∈ s.fields, f.primary = true) ∧ (s.fields.map SchemaField.name).Nodup
      ∧ ∀ f ∈ s.fields, s.validateField f = .ok ()
        ∧ (f.primary = true → validatePrimaryField f = .ok ()) := by
  obtain ⟨⟨⟩, -, h⟩ := bind_eq_ok.1 h
  obtain ⟨⟨⟩, -, h⟩ := bind_eq_ok.1 h
  obtain ⟨n, hfields, h⟩ := bind_eq_ok.1 h
  obtain ⟨⟨⟩, hcount, -⟩ := bind_eq_ok.1 h
  obtain ⟨hn, hnodup, hall⟩ := validateFields_eq_ok hfields
  exact ⟨hn.resolve_left (failIf_eq_ok.1 hcount), hnodup, fun f hf => (hall f hf).2⟩

/-- The fields with an index, as the index has them. -/
def Schema.indexed (s : Schema) : List IndexedField :=
  (s.fields.filter fun f => f.indexed || f.unique).map fun f => ⟨f.name, f.fieldType, f.unique⟩

theorem indexedFieldsOf_eq_ok {collection : String} {l : List IndexedField}
    (h : indexedFieldsOf collection fields = .ok l) :
    l = (fields.filter fun f => f.indexed || f.unique).map
      (fun f => ⟨f.name, f.fieldType, f.unique⟩)
      ∧ ∀ f ∈ l, isExactIndexType f.fieldType = true := by
  induction fields generalizing l with
  | nil =>
    cases h
    exact ⟨rfl, nofun⟩
  | cons f fields ih =>
    rw [indexedFieldsOf] at h
    split at h
    case isTrue hindexed =>
      split at h
      case isTrue hexact =>
        obtain ⟨rest, hrest, h⟩ := bind_eq_ok.1 h
        cases h
        obtain ⟨rfl, hall⟩ := ih hrest
        rw [filter_cons, if_pos hindexed, map_cons]
        exact ⟨rfl, forall_mem_cons.2 ⟨hexact, hall⟩⟩
      case isFalse => cases h
    case isFalse hindexed =>
      rw [filter_cons, if_neg hindexed]
      exact ih h

theorem Schema.nodup_indexed (h : s.validate = .ok ()) :
    (s.indexed.map IndexedField.name).Nodup := by
  rw [indexed, map_map]
  exact (valid_fields h).2.1.sublist (filter_sublist.map _)

variable {idx : Nat}

/-- Among fields named apart, the one found by its name. -/
theorem find?_zipIdx_name {φ : Type} {name : φ → String} {fields : List φ}
    (hnodup : (fields.map name).Nodup) {f : φ}
    (hf : fields[idx]? = some f) :
    (fields.zipIdx.find? fun p => name p.1 = name f) = some (f, idx) := by
  cases hfind : fields.zipIdx.find? fun p => name p.1 = name f with
  | none =>
    rw [List.find?_eq_none] at hfind
    have hno := hfind (f, idx) (List.mem_zipIdx_iff_getElem?.2 hf)
    simp at hno
  | some p =>
    obtain ⟨g, j⟩ := p
    have hname : name g = name f := by
      simpa using List.find?_some hfind
    have hg : fields[j]? = some g := List.mem_zipIdx_iff_getElem?.1
      (List.mem_of_find?_eq_some hfind)
    have hj : j = idx := by
      refine (List.getElem?_inj ?_ hnodup).1 ?_
      · rw [List.length_map]
        exact (List.getElem?_eq_some_iff.1 hg).1
      · rw [List.getElem?_map, List.getElem?_map, hf, hg]
        exact congrArg some hname
    subst hj
    rw [Option.some.inj (hg.symm.trans hf)]

-- ===== entries

/-- A position counted from `idx` is the first or one of the rest. -/
theorem exists_position_cons {φ : Type} {P : φ → Prop} {f : φ} {fields : List φ} {i : Nat} :
    (∃ j g, i = idx + j ∧ (f :: fields)[j]? = some g ∧ P g) ↔
      (i = idx ∧ P f) ∨ ∃ j g, i = idx + 1 + j ∧ fields[j]? = some g ∧ P g := by
  constructor
  · intro h
    obtain ⟨j, g, rfl, hg, hp⟩ := h
    cases j with
    | zero =>
      cases hg
      exact Or.inl ⟨rfl, hp⟩
    | succ j => exact Or.inr ⟨j, g, by omega, hg, hp⟩
  · intro h
    rcases h with ⟨rfl, hp⟩ | ⟨j, g, rfl, hg, hp⟩
    · exact ⟨0, f, rfl, rfl, hp⟩
    · exact ⟨j + 1, g, by omega, hg, hp⟩

section

variable {φ κ : Type} (name : φ → String)
  (keyOf : φ → SchemaValue → StoreResult κ) (document : SchemaValue)

/-- The key a document has in a field, none if the field is missing. -/
def keyIn (f : φ) : StoreResult (Option κ) :=
  match presentValue document (name f) with
  | none => .ok none
  | some value => (keyOf f value).map some

/-- The entries of a document are the keys it has in the fields. -/
theorem documentEntriesFrom_spec {fields : List φ} {entries : List (Entry κ)}
    (h : documentEntriesFrom name keyOf document idx fields = .ok entries) :
    (∀ f ∈ fields, ∃ o, keyIn name keyOf document f = .ok o)
      ∧ ∀ i key, (⟨i, key⟩ : Entry κ) ∈ entries ↔ ∃ j f, i = idx + j ∧ fields[j]? = some f
          ∧ keyIn name keyOf document f = .ok (some key) := by
  induction fields generalizing idx entries with
  | nil =>
    cases h
    refine ⟨fun f hf => ?_, fun i key => ⟨fun hmem => ?_, ?_⟩⟩
    · cases hf
    · cases hmem
    · rintro ⟨j, f, -, hf, -⟩
      cases hf
  | cons f fields ih =>
    rw [documentEntriesFrom] at h
    split at h
    next hnone =>
      have hf : keyIn name keyOf document f = .ok none := by
        simp only [keyIn, hnone]
      obtain ⟨hall, hmem⟩ := ih h
      refine ⟨forall_mem_cons.2 ⟨⟨_, hf⟩, hall⟩, fun i key => ?_⟩
      rw [hmem, exists_position_cons, hf]
      simp
    next value hvalue =>
      obtain ⟨own, hown, h⟩ := bind_eq_ok.1 h
      obtain ⟨rest, hrest, h⟩ := bind_eq_ok.1 h
      cases h
      have hf : keyIn name keyOf document f = .ok (some own) := by
        simp only [keyIn, hvalue, hown]
        rfl
      obtain ⟨hall, hmem⟩ := ih hrest
      refine ⟨forall_mem_cons.2 ⟨⟨_, hf⟩, hall⟩, fun i key => ?_⟩
      rw [mem_cons, hmem, exists_position_cons, hf, Entry.mk.injEq]
      simp [eq_comm]

/-- Fields that have keys where they are present have entries. -/
theorem documentEntriesFrom_of_keys {fields : List φ} (idx : Nat)
    (h : ∀ f ∈ fields, ∀ value, presentValue document (name f) = some value →
      ∃ key, keyOf f value = .ok key) :
    ∃ entries, documentEntriesFrom name keyOf document idx fields = .ok entries := by
  induction fields generalizing idx with
  | nil => exact ⟨[], rfl⟩
  | cons f fields ih =>
    obtain ⟨hown, h⟩ := forall_mem_cons.1 h
    obtain ⟨rest, hrest⟩ := ih (idx + 1) h
    rw [documentEntriesFrom]
    split
    next => exact ⟨rest, hrest⟩
    next value hvalue =>
      obtain ⟨key, hkey⟩ := hown value hvalue
      rw [hkey, hrest]
      exact ⟨_, rfl⟩

theorem mem_documentEntries {fields : List φ} {entries : List (Entry κ)}
    (h : documentEntriesFrom name keyOf document 0 fields = .ok entries) {key : κ} :
    (⟨idx, key⟩ : Entry κ) ∈ entries ↔ ∃ f, fields[idx]? = some f
      ∧ keyIn name keyOf document f = .ok (some key) := by
  rw [(documentEntriesFrom_spec _ _ _ h).2]
  simp only [Nat.zero_add]
  grind

end

namespace Schema

variable (schema : Schema)

/-- The index key of a value in a field of the schema. -/
def fieldKey (field : IndexedField) (value : SchemaValue) : StoreResult SchemaExactIndexKey :=
  indexKeyFromValue schema.name field.name field.fieldType value

variable (document : SchemaValue)

/-- The index key a document has in a field. -/
def documentKey (field : IndexedField) : StoreResult (Option SchemaExactIndexKey) :=
  keyIn IndexedField.name schema.fieldKey document field

/-- The entries a document has under the schema. -/
def entries : StoreResult (List PreparedIndexEntry) :=
  documentEntriesFrom IndexedField.name schema.fieldKey document 0 schema.indexed

/-- The entries of a stored value, none where it is no document. -/
def entriesAt (value : Option RawValue) : List PreparedIndexEntry :=
  match value with
  | none => []
  | some raw =>
    match decodeSchemaRawValue schema raw with
    | .error _ => []
    | .ok document => (schema.entries document).toOption.getD []

/-- A stored value that is a document, under its own key. -/
structure Stores (schema : Schema) (key : RawKey) (raw : RawValue)
    (document : SchemaValue) (entries : List PreparedIndexEntry) :
    Prop where
  decoded : decodeSchemaRawValue schema raw = .ok document
  own : schemaDocumentRawKey schema document = .ok key
  entries_eq : schema.entries document = .ok entries

variable {schema : Schema} {document : SchemaValue} {entries : List PreparedIndexEntry}

theorem mem_entries (h : schema.entries document = .ok entries) {key : SchemaExactIndexKey} :
    (⟨idx, key⟩ : PreparedIndexEntry) ∈ entries ↔ ∃ f, schema.indexed[idx]? = some f
        ∧ schema.documentKey document f = .ok (some key) :=
  mem_documentEntries _ _ _ h

theorem Stores.entriesAt_eq {key : RawKey} {raw : RawValue}
    (h : schema.Stores key raw document entries) :
    schema.entriesAt (some raw) = entries := by
  simp only [entriesAt, h.decoded, h.entries_eq]
  rfl

/-- What is written for a valid document reads back as the document. -/
theorem decodeSchemaRawValue_encode (hvalid : validateDocument schema document = .ok ())
    (hordered : document.ordered = true) :
    decodeSchemaRawValue schema (encodeSchemaValue document) = .ok document := by
  have hsafe : validateCodecSafe document = .ok () := by
    unfold validateDocument at hvalid
    split at hvalid
    next => cases hvalid
    next =>
      split at hvalid
      next =>
        obtain ⟨⟨⟩, -, hvalid⟩ := bind_eq_ok.1 hvalid
        exact hvalid
      next => cases hvalid
  simp only [decodeSchemaRawValue, decodeSchemaValue_encode hsafe hordered,
    Except.mapError, ok_bind, hvalid]
  rfl

theorem stores_encode {key : RawKey} (hkey : schemaDocumentRawKey schema document = .ok key)
    (hvalid : validateDocument schema document = .ok ())
    (hordered : document.ordered = true)
    (h : schema.entries document = .ok entries) :
    schema.Stores key (encodeSchemaValue document) document entries :=
  ⟨decodeSchemaRawValue_encode hvalid hordered, hkey, h⟩

end Schema

namespace SchemaCollectionIndexes

variable {st : SchemaCollectionIndexes}

/-- The indexes are those of a valid schema. -/
structure WellFormed (st : SchemaCollectionIndexes) : Prop where
  valid : st.schema.validate = .ok ()
  fields_eq : st.indexedFields = st.schema.indexed

theorem new_eq_ok (h : SchemaCollectionIndexes.new schema = .ok st) :
    st.schema = schema ∧ st.WellFormed ∧ st.indexes = ∅ := by
  obtain ⟨⟨⟩, hvalid, h⟩ := bind_eq_ok.1 h
  obtain ⟨fields, hfields, h⟩ := bind_eq_ok.1 h
  cases h
  exact ⟨rfl, ⟨validateSchema_eq_ok.1 hvalid, (indexedFieldsOf_eq_ok hfields).1⟩,
    rfl⟩

theorem WellFormed.documentIndexEntries_eq (h : st.WellFormed) (document : SchemaValue) :
    st.documentIndexEntries document = st.schema.entries document := by
  rw [documentIndexEntries, h.fields_eq]
  rfl

theorem documentMatchesIndex_eq (st : SchemaCollectionIndexes)
    (field : IndexedField) (key : SchemaExactIndexKey)
    (document : SchemaValue) :
    st.documentMatchesIndex field key document = (st.schema.documentKey document field).map
        fun o => decide (o = some key) := by
  unfold documentMatchesIndex Schema.documentKey keyIn
  cases presentValue document field.name with
  | none => rfl
  | some value =>
    have hkey : st.fieldKey field value = st.schema.fieldKey field value := rfl
    simp only [hkey]
    cases st.schema.fieldKey field value with
    | error e => rfl
    | ok own => simp [Except.map, pure, Except.pure]

-- ===== planned writes

variable {documents : List (RawKey × SchemaValue)} {raw : MfsStore}
  {key : RawKey} {rebuilt : SchemaCollectionIndexes}
  {schemaOf : String → Option Schema} {plan : SchemaIndexWritePlan} {old : Option SchemaValue}

theorem preparePut_eq_ok {new : SchemaValue}
    (h : st.preparePut raw schemaOf key old new = .ok plan) :
    st.oldEntries old = .ok plan.oldEntries ∧ st.documentIndexEntries new = .ok plan.newEntries
      ∧ st.validateUniqueConstraints raw key plan.newEntries = .ok () := by
  obtain ⟨oldEntries, hold, h⟩ := bind_eq_ok.1 h
  obtain ⟨newEntries, hnew, h⟩ := bind_eq_ok.1 h
  obtain ⟨⟨⟩, hunique, h⟩ := bind_eq_ok.1 h
  obtain ⟨referencePlan, -, h⟩ := bind_eq_ok.1 h
  cases h
  exact ⟨hold, hnew, hunique⟩

theorem prepareDelete_eq_ok (h : st.prepareDelete schemaOf old = .ok plan) :
    st.oldEntries old = .ok plan.oldEntries ∧ plan.newEntries = [] := by
  obtain ⟨oldEntries, hold, h⟩ := bind_eq_ok.1 h
  obtain ⟨referencePlan, -, h⟩ := bind_eq_ok.1 h
  cases h
  exact ⟨hold, rfl⟩

theorem validateUniqueKeys_eq_ok {field : IndexedField}
    {indexKey : SchemaExactIndexKey} {keys : List RawKey}
    (h : st.validateUniqueKeys raw key field indexKey keys = .ok ()) :
    ∀ other ∈ keys, other ≠ key →
      st.rawDocumentMatchesIndex raw other field indexKey = .ok false := by
  induction keys with
  | nil =>
    intro other hother
    cases hother
  | cons k keys ih =>
    rw [validateUniqueKeys] at h
    refine forall_mem_cons.2 ?_
    split at h
    case isTrue hk => exact ⟨fun hne => absurd hk hne, ih h⟩
    case isFalse =>
      obtain ⟨found, hfound, h⟩ := bind_eq_ok.1 h
      cases found with
      | true => cases h
      | false => exact ⟨fun _ => hfound, ih h⟩

variable {entries : List PreparedIndexEntry}

theorem validateUniqueConstraints_eq_ok
    (h : st.validateUniqueConstraints raw key entries = .ok ()) :
    ∀ e ∈ entries, ∀ f, st.indexedFields[e.fieldIdx]? = some f →
      f.unique = true → ∀ other ∈ st.indexes.ids e, other ≠ key →
        st.rawDocumentMatchesIndex raw other f e.key = .ok false := by
  induction entries with
  | nil =>
    intro e he
    cases he
  | cons e entries ih =>
    rw [validateUniqueConstraints] at h
    refine forall_mem_cons.2 ⟨fun f hf hunique => ?_, ih ?_⟩
    · simp only [hf, hunique, if_true] at h
      obtain ⟨⟨⟩, hown, -⟩ := bind_eq_ok.1 h
      exact validateUniqueKeys_eq_ok hown
    · split at h
      · split at h
        · obtain ⟨⟨⟩, -, h⟩ := bind_eq_ok.1 h
          exact h
        · exact h
      · exact h

-- ===== rebuilding

variable {m m' : Postings PreparedIndexEntry RawKey}

theorem rebuildEntries_eq_ok (h : st.rebuildEntries key entries m = .ok m') :
    m' = m.addAll entries key := by
  induction entries generalizing m with
  | nil =>
    cases h
    rfl
  | cons e entries ih =>
    rw [rebuildEntries] at h
    split at h
    · split at h
      · cases h
      · exact ih h
    · exact ih h

/-- The documents are filed one after another. `Files` says what of a
document has been filed so far, `own` what is to be filed, and `all` what
there is to file in the end. -/
theorem rebuildDocuments_rule {ε : Type} {references references' : SchemaCollectionReferences}
    (own : SchemaValue → StoreResult (List ε)) (all : RawKey → List ε)
    (Files : Postings PreparedIndexEntry RawKey → SchemaCollectionReferences →
      (RawKey → List ε) → Prop)
    (hfile : ∀ m r keys k document entries filed refs,
      st.documentIndexEntries document = .ok entries → st.rebuildEntries k entries m = .ok filed →
      r.rebuildDocument schemaOf st.schema k document = .ok refs → Files m r keys → keys k = [] →
      ∃ new, own document = .ok new ∧ Files filed refs (update keys k new))
    (hall : ∀ d ∈ documents, ∀ new, own d.2 = .ok new → all d.1 = new)
    (hnodup : (documents.map Prod.fst).Nodup)
    (hm : Files m references fun k => if k ∈ documents.map Prod.fst then [] else all k)
    (h : st.rebuildDocuments schemaOf documents m references = .ok (m', references')) :
    Files m' references' all := by
  induction documents generalizing m references with
  | nil =>
    cases h
    simpa using hm
  | cons d documents ih =>
    obtain ⟨k, document⟩ := d
    obtain ⟨entries, hentries, h⟩ := bind_eq_ok.1 h
    obtain ⟨filed, hfiled, h⟩ := bind_eq_ok.1 h
    obtain ⟨refs, hrefs, h⟩ := bind_eq_ok.1 h
    obtain ⟨hk, hnodup⟩ := nodup_cons.1 hnodup
    obtain ⟨hmine, hall⟩ := forall_mem_cons.1 hall
    obtain ⟨new, hnew, hm⟩ := hfile _ _ _ k document _ _ _ hentries hfiled hrefs hm (by simp)
    refine ih hall hnodup ?_ h
    convert hm using 1
    funext k'
    by_cases hk' : k' = k
    · subst hk'
      rw [update_self, if_neg hk, hmine new hnew]
    · simp only [update_of_ne hk', map_cons, mem_cons, hk', false_or]

section

variable (h : st.rebuildFromDocuments schemaOf documents = .ok rebuilt)

include h

theorem schema_rebuildFromDocuments : rebuilt.schema = st.schema := by
  obtain ⟨⟨m, references⟩, -, h⟩ := bind_eq_ok.1 h
  cases h
  rfl

theorem fields_rebuildFromDocuments : rebuilt.indexedFields = st.indexedFields := by
  obtain ⟨⟨m, references⟩, -, h⟩ := bind_eq_ok.1 h
  cases h
  rfl

end

-- ===== lookups

/-- With the fields named apart, the one that is found is the one meant. -/
theorem WellFormed.indexedField_eq (h : st.WellFormed) {f : IndexedField}
    (hf : st.schema.indexed[idx]? = some f) :
    st.indexedField f.name = some (idx, f) := by
  have hnodup := Schema.nodup_indexed h.valid
  rw [← h.fields_eq] at hf hnodup
  rw [indexedField, find?_zipIdx_name hnodup hf]
  rfl

end SchemaCollectionIndexes

end MemoryFirst.Store
