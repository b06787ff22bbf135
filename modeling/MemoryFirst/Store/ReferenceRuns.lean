/-
Runs of a store under schemas: the reference maps against the live
documents.

# The specification

`ReferencesExact e schema` speaks about the engine alone. A document
refers to a target in a field if the value it has there is a primary key
of the target collection, encoded as that collection's schema has it
(`Refers`); a missing value and a null refer to nothing. The forward map
sends a source to a target exactly if the source is listed under the
target, and exactly if the source's live document refers to it; and a
reverse include answers with exactly these documents.

# The result

`references_exact` holds of every run in which the collection was
created under its schema, whatever the calls and their outcomes were. A
source can refer to documents that are not there: the store checks that
the target collection is declared, not that it has the key. A valid
document lacks a key only through its references (`keys_of_valid`).
-/
import MemoryFirst.Store.DocumentRuns

namespace MemoryFirst.Store

open Lib SchemaCollectionReferences Engine MfsStore Schema List

-- ===== the specification

namespace Engine

variable (e : Engine)

/-- What the forward map of a field has for a source. -/
def forwardTarget (name field : String) (source : RawKey) : Option RawKey :=
  match e.schemaIndexes.lookup name with
  | none => none
  | some st =>
    match st.references.referenceField st.schema field with
    | .error _ => none
    | .ok (idx, _) => st.references.forward.lookup ⟨idx, source⟩

/-- What the reverse map of a field has for a target. -/
def reverseSources (name field : String) (target : RawKey) : List RawKey :=
  match e.schemaIndexes.lookup name with
  | none => []
  | some st =>
    match st.references.referenceField st.schema field with
    | .error _ => []
    | .ok (idx, _) => st.references.reverse.ids ⟨idx, target⟩

/-- The document has the target in the field. -/
def Refers (f : ReferenceField) (document : SchemaValue) (target : RawKey) : Prop :=
  ∃ value schema, presentValue document f.name = some value
    ∧ e.schemaOf f.reference.collection = some schema
    ∧ schemaPrimaryKeyRawKey schema value = .ok target

/-- The schema is declared, or can be. -/
def Admits (schema : Schema) : Prop :=
  e.schemaOf schema.name = some schema ∨ e.schemaOf schema.name = none
      ∧ ∃ st, SchemaCollectionIndexes.new schema = .ok st

end Engine

/-- The field refers to the primary field of the schema. -/
def ReferenceField.Targets (f : ReferenceField) (target : Schema) : Prop :=
  f.reference.collection = target.name ∧ ∃ primary, target.primaryField = some primary
      ∧ primary.name = f.reference.field

/-- The reference maps of the collection, and what reverse includes
answer, are as the live documents have it. -/
structure ReferencesExact (e : Engine) (schema : Schema) : Prop where
  mirrored : ∀ f ∈ schema.referenceFields, ∀ source target,
    (e.forwardTarget schema.name f.name source = some target ↔
        source ∈ e.reverseSources schema.name f.name target)
      ∧ (source ∈ e.reverseSources schema.name f.name target ↔
        ∃ d, LiveDocument e schema source d ∧ e.Refers f d.document target)
  once : ∀ f ∈ schema.referenceFields, ∀ target, (e.reverseSources schema.name f.name target).Nodup
  included : ∀ f ∈ schema.referenceFields, ∀ target value key, e.Admits target → f.Targets target →
    schemaPrimaryKeyRawKey target value = .ok key →
      ∃ out, (e.includeSchemaReverse target value schema f.name).2 = .ok out
        ∧ out.Pairwise (fun a b => a.primaryKey < b.primaryKey)
        ∧ ∀ r, r ∈ out ↔ LiveDocument e schema r.primaryKey r.document
          ∧ e.Refers f r.document.document key
  /-- There is an answer only where a target is given. -/
  rejected : ∀ f ∈ schema.referenceFields, ∀ target value out,
    (e.includeSchemaReverse target value schema f.name).2 = .ok out →
      e.Admits target ∧ f.Targets target ∧ ∃ key, schemaPrimaryKeyRawKey target value = .ok key

-- ===== reference fields

theorem Schema.nodup_referenceFields {s : Schema} (h : s.validate = .ok ()) :
    (s.referenceFields.map ReferenceField.name).Nodup := by
  refine pairwise_map.2 ((pairwise_map.1 (valid_fields h).2.1).filterMap _ ?_)
  intro f g hne x hx y hy
  obtain ⟨r, -, rfl⟩ := Option.map_eq_some_iff.1 hx
  obtain ⟨r', -, rfl⟩ := Option.map_eq_some_iff.1 hy
  exact hne

variable {st : SchemaCollectionIndexes} {f : ReferenceField}

section

variable {e : Engine} {schema : Schema} {idx : Nat}

/-- With the fields named apart, the one that is found is the one meant. -/
theorem Mirrored.referenceField_eq {schemaOf : String → Option Schema}
    {values : RawKey → Option RawValue} (h : Mirrored schemaOf values st)
    (hwf : st.WellFormed) (hf : st.schema.referenceFields[idx]? = some f) :
    st.references.referenceField st.schema f.name = .ok (idx, f) := by
  have hfind := find?_zipIdx_name (nodup_referenceFields hwf.valid) hf
  rw [referenceField, h.fields_eq, hfind]

variable {document : SchemaValue} {target : RawKey}

/-- Where the target of a field is found, it is the one referred to. -/
theorem Engine.refers_of_referenceKey
    (h : schema.referenceKey e.schemaOf document f = .ok (some target)) :
    e.Refers f document target := by
  unfold referenceKey keyIn at h
  split at h
  next => cases h
  next value hvalue =>
    cases hkey : targetKeyFromValue e.schemaOf schema f value with
    | error err =>
      rw [hkey] at h
      cases h
    | ok key =>
      rw [hkey] at h
      cases h
      unfold targetKeyFromValue at hkey
      split at hkey
      next => cases hkey
      next other hother =>
        obtain ⟨primary, -, hkey⟩ := bind_eq_ok.1 hkey
        obtain ⟨⟨⟩, -, hkey⟩ := bind_eq_ok.1 hkey
        exact ⟨value, other, hvalue, hother, hkey⟩

theorem Engine.Refers.referenceKey_eq {own : Option RawKey} (h : e.Refers f document target)
    (hok : schema.referenceKey e.schemaOf document f = .ok own) :
    own = some target := by
  obtain ⟨value, other, hvalue, hother, hkey⟩ := h
  cases own with
  | none =>
    simp only [referenceKey, keyIn, hvalue] at hok
    cases hown : targetKeyFromValue e.schemaOf schema f value with
    | error _ | ok _ =>
      rw [hown] at hok
      cases hok
  | some key =>
    obtain ⟨value', other', hvalue', hother', hkey'⟩ := refers_of_referenceKey hok
    obtain rfl := Option.some.inj (hvalue.symm.trans hvalue')
    obtain rfl := Option.some.inj (hother.symm.trans hother')
    exact congrArg some (Except.ok.inj (hkey'.symm.trans hkey))

end

-- ===== one collection

section

variable {e e' : Engine} {schema target : Schema} {idx : Nat} {d : SchemaReadResult}

/-- The references of a live document are all resolved. -/
theorem RefInv.entries (h : RefInv e) (hst : e.Installed schema st)
    {k : RawKey} (hd : LiveDocument e schema k d) :
    ∃ entries, schema.referenceEntries e.schemaOf d.document = .ok entries
      ∧ st.schema.referenceEntriesAt e.schemaOf (e.raw.valueAt (schema.name, k)) = entries := by
  obtain ⟨v, hv, hdecoded⟩ := hd
  obtain rfl := hst.schema_eq
  have hvalue := valueAt_of_live hv
  obtain ⟨entries, hentries⟩ :=
    (h _ st hst.lookup).resolved k v d.document hvalue hdecoded
  refine ⟨entries, hentries, ?_⟩
  rw [hvalue]
  exact referenceEntriesAt_eq hdecoded hentries

/-- What a live document refers to is the target computed for it. -/
theorem RefInv.refers_iff (h : RefInv e) (hst : e.Installed schema st)
    (hf : schema.referenceFields[idx]? = some f) {k : RawKey} (hd : LiveDocument e schema k d)
    (t : RawKey) :
    e.Refers f d.document t ↔ schema.referenceKey e.schemaOf d.document f = .ok (some t) := by
  refine ⟨fun hrefers => ?_, refers_of_referenceKey⟩
  obtain ⟨entries, hentries, -⟩ := h.entries hst hd
  obtain ⟨own, hown⟩ := (documentEntriesFrom_spec _ _ _ hentries).1 f (mem_of_getElem? hf)
  have hown : schema.referenceKey e.schemaOf d.document f = .ok own := hown
  rw [hown, hrefers.referenceKey_eq hown]

section

variable (h : RefInv e) (hinv : IndexInv e) (hst : e.Installed schema st)
  (hf : schema.referenceFields[idx]? = some f)

include h hinv hst hf

/-- The sources under a target are the documents that refer to it. -/
theorem RefInv.mem_sources (source t : RawKey) : source ∈ st.references.reverse.ids ⟨idx, t⟩ ↔
      ∃ d, LiveDocument e schema source d ∧ e.Refers f d.document t := by
  rw [(h _ st hst.lookup).mirrors.files.mem_iff]
  constructor
  · intro hmem
    rcases hinv.valueAt_cases hst source with hnone | ⟨v, d, -, -, hd, -⟩
    · simp [hnone, referenceEntriesAt] at hmem
    · obtain ⟨entries, hentries, hsame⟩ := h.entries hst hd
      rw [hsame] at hmem
      obtain ⟨g, hg, hkey⟩ := (mem_referenceEntries hentries).1 hmem
      obtain rfl := Option.some.inj (hf.symm.trans hg)
      exact ⟨_, hd, refers_of_referenceKey hkey⟩
  · rintro ⟨d, hd, hrefers⟩
    obtain ⟨entries, hentries, hsame⟩ := h.entries hst hd
    rw [hsame]
    exact (mem_referenceEntries hentries).2 ⟨f, hf, (h.refers_iff hst hf hd t).1 hrefers⟩

/-- The loop over sources whose documents all refer to the target. -/
theorem includeDocuments_eq {t : RawKey} (keys : List RawKey)
    (hkeys : ∀ k ∈ keys, ∃ d, LiveDocument e schema k d ∧ e.Refers f d.document t) :
    ∃ out, e.includeDocuments schema st f.name t keys = .ok out
      ∧ out.map SchemaReverseReferenceInclude.primaryKey = keys
      ∧ ∀ r ∈ out, LiveDocument e schema r.primaryKey r.document := by
  have hfield : st.references.referenceField st.schema f.name = .ok (idx, f) := by
    refine (h _ st hst.lookup).referenceField_eq (hinv.covered _ st hst.lookup).wellFormed ?_
    rw [hst.schema_eq]
    exact hf
  induction keys with
  | nil =>
    refine ⟨[], rfl, rfl, fun r hr => ?_⟩
    cases hr
  | cons k keys ih =>
    obtain ⟨⟨d, hlive, hrefers⟩, hrest⟩ := forall_mem_cons.1 hkeys
    obtain ⟨out, hout, houtKeys, hdocs⟩ := ih hrest
    have hown : st.references.referenceKeyFromDocument e.schemaOf
        st.schema f.name d.document = .ok (some t) := by
      have hkey := (h.refers_iff hst hf hlive t).1 hrefers
      rw [← hst.schema_eq] at hkey
      unfold referenceKey keyIn at hkey
      simp only [referenceKeyFromDocument, hfield, ok_bind]
      cases hvalue : presentValue d.document f.name with
      | none =>
        rw [hvalue] at hkey
        cases hkey
      | some value =>
        rw [hvalue] at hkey
        exact hkey
    refine ⟨⟨k, d⟩ :: out, ?_, ?_, ?_⟩
    · simp only [includeDocuments, hlive.read, ok_bind, hown, hout, if_true, pure, Except.pure]
    · rw [map_cons, houtKeys]
    · exact forall_mem_cons.2 ⟨hlive, hdocs⟩

end

theorem IndexInv.admits_iff (h : IndexInv e) (target : Schema) :
    e.Admits target ↔ ∃ e₁ st, e.ensureSchemaIndexes target = (e₁, .ok st)
      ∧ e.Declares target e₁ ∧ e₁.Installed target st := by
  constructor
  · intro hadmits
    rcases hadmits with hsome | ⟨hnone, st, hnew⟩
    · obtain ⟨st, hlookup, hschema⟩ := Option.map_eq_some_iff.1 hsome
      have hst : e.Installed target st := ⟨hlookup, hschema⟩
      exact ⟨e, st, h.ensure hst, .known, hst⟩
    have hlookup := Option.map_eq_none_iff.1 hnone
    obtain ⟨hschema, hwf, -⟩ := SchemaCollectionIndexes.new_eq_ok hnew
    have hvalid : validateSchema target = .ok () := by
      rw [← hschema]
      exact validateSchema_eq_ok.2 hwf.valid
    refine ⟨_, st, ?_, .new hlookup hnew, lookup_setIndexes .., hschema⟩
    simp only [ensureSchemaIndexes, hvalid, hlookup, hnew]
  · rintro ⟨e₁, st, -, hdecl, hst⟩
    cases hdecl with
    | known =>
      refine Or.inl ?_
      rw [schemaOf, hst.lookup, Option.map_some, hst.schema_eq]
    | new hnone hnew =>
      refine Or.inr ⟨?_, _, hnew⟩
      rw [schemaOf, hnone]
      rfl

/-- A reverse include asks the source's maps, once the target is there. -/
theorem IndexInv.include_eq (h : IndexInv e) (hst : e.Installed schema st)
    {e₁ : Engine} {st₁ : SchemaCollectionIndexes}
    (hensure : e.ensureSchemaIndexes target = (e₁, .ok st₁))
    (hdecl : e.Declares target e₁) (hst₁ : e₁.Installed target st₁)
    (value : SchemaValue) (field : String) :
    (e.includeSchemaReverse target value schema field).2 = do
      st.references.ensureReferenceTargets st.schema field target
      let key ← schemaPrimaryKeyRawKey target value
      let keys ← st.references.reverseReferenceKeys st.schema field key
      let out ← e₁.includeDocuments schema st field key keys
      return out.insertionSort fun a b => a.primaryKey ≤ b.primaryKey := by
  have hensure' := (h.declares hdecl).ensure (hst.declares hdecl)
  simp only [includeSchemaReverse, withIndexes, hensure,
    hst₁.schema_eq, ne_eq, not_true, if_false, hensure']

theorem ensureReferenceTargets_iff {r : SchemaCollectionReferences}
    (hfield : r.referenceField schema f.name = .ok (idx, f)) :
    r.ensureReferenceTargets schema f.name target = .ok () ↔ f.Targets target := by
  unfold ensureReferenceTargets
  rw [hfield, ok_bind]
  constructor
  · intro h
    obtain ⟨⟨⟩, hname, h⟩ := bind_eq_ok.1 h
    obtain ⟨primary, hprimary, h⟩ := bind_eq_ok.1 h
    exact ⟨not_not.1 (failIf_eq_ok.1 hname), primary,
      primaryField_eq_ok.1 hprimary, not_not.1 (failIf_eq_ok.1 h)⟩
  · rintro ⟨hname, primary, hprimary, hsame⟩
    refine bind_eq_ok.2 ⟨(), failIf_eq_ok.2 (not_not.2 hname), ?_⟩
    exact bind_eq_ok.2 ⟨primary, primaryField_eq_ok.2 hprimary, failIf_eq_ok.2 (not_not.2 hsame)⟩

/-- A mirrored collection has exact references. -/
theorem RefInv.exact (h : RefInv e) (hinv : IndexInv e)
    (hst : e.Installed schema st) : ReferencesExact e schema := by
  have hmirrored := h _ st hst.lookup
  have hwf := (hinv.covered _ st hst.lookup).wellFormed
  -- the position of a reference field, and what is found there
  have hfield : ∀ f ∈ schema.referenceFields, ∃ idx, schema.referenceFields[idx]? = some f
        ∧ st.references.referenceField st.schema f.name = .ok (idx, f) := by
    intro f hf
    obtain ⟨idx, hidx⟩ := mem_iff_getElem?.1 hf
    refine ⟨idx, hidx, hmirrored.referenceField_eq hwf ?_⟩
    rw [hst.schema_eq]
    exact hidx
  refine ⟨fun f hf source t => ?_, fun f hf t => ?_,
    fun f hf target value key hadmits htargets hkey => ?_,
    fun f hf target value out hout => ?_⟩
  · obtain ⟨idx, hidx, hnamed⟩ := hfield f hf
    simp only [forwardTarget, reverseSources, hst.lookup, hnamed]
    refine ⟨?_, h.mem_sources hinv hst hidx source t⟩
    rw [hmirrored.mirrors.forward_iff, hmirrored.mirrors.files.mem_iff]
  · obtain ⟨idx, hidx, hnamed⟩ := hfield f hf
    simp only [reverseSources, hst.lookup, hnamed]
    exact hmirrored.mirrors.files.distinct _
  · obtain ⟨idx, hidx, hnamed⟩ := hfield f hf
    obtain ⟨e₁, st₁, hensure, hdecl, hst₁⟩ := (hinv.admits_iff target).1 hadmits
    have hensured := (ensureReferenceTargets_iff hnamed).2 htargets
    have hkeys : st.references.reverseReferenceKeys st.schema f.name key
        = .ok (st.references.reverse.ids ⟨idx, key⟩) := by
      rw [reverseReferenceKeys, hnamed]
      rfl
    have h₁ := h.declares hinv hdecl
    have hinv₁ := hinv.declares hdecl
    have hsource₁ := hst.declares hdecl
    obtain ⟨out, hout, houtKeys, hdocs⟩ := includeDocuments_eq h₁ hinv₁
      hsource₁ hidx (st.references.reverse.ids ⟨idx, key⟩) fun k hk =>
        (h₁.mem_sources hinv₁ hsource₁ hidx k key).1 hk
    -- declaring the target changes neither the documents nor the maps
    simp only [LiveDocument, hdecl.raw_eq] at hdocs
    have hrows := sorted_rows _ houtKeys hdocs (by rintro ⟨⟩ ⟨⟩ ⟨⟩ ⟨⟩; rfl)
      (hmirrored.mirrors.files.distinct _) (h.mem_sources hinv hst hidx · key)
    refine ⟨_, ?_, hrows⟩
    rw [hinv.include_eq hst hensure hdecl hst₁]
    simp only [hensured, hkey, hkeys, hout, ok_bind]
    rfl
  · obtain ⟨idx, hidx, hnamed⟩ := hfield f hf
    rcases e.ensureSchemaIndexes_cases target with
      ⟨err, heq⟩ | ⟨e₁, st₁, hensure, hdecl, hst₁⟩
    · simp only [includeSchemaReverse, withIndexes, heq]
        at hout
      cases hout
    rw [hinv.include_eq hst hensure hdecl hst₁] at hout
    obtain ⟨⟨⟩, hensured, hout⟩ := bind_eq_ok.1 hout
    obtain ⟨key, hkey, -⟩ := bind_eq_ok.1 hout
    exact ⟨(hinv.admits_iff target).2 ⟨e₁, st₁, hensure, hdecl, hst₁⟩,
      (ensureReferenceTargets_iff hnamed).1 hensured, key, hkey⟩

end

-- ===== whole runs

/-- After any calls on a store that was opened empty, the references of a
collection created under a schema are exact. -/
theorem references_exact (crc32c : List UInt8 → UInt32) (hash : RawKey → UInt64)
    (f64Add : UInt64 → UInt64 → UInt64) (config : MfsStoreConfig)
    (file : Option (List UInt8)) (synced : Nat) (start : MfsStore)
    (hopen : openMemory config file synced = .ok start)
    (calls : List StoreCall) (schema : Schema) (id : Nat)
    (hcreated : (.schema (.createSchemaCollection schema), .schema (.created (.ok id)))
      ∈ trace (storeCall crc32c hash f64Add) (Engine.opened start) calls) :
    ReferencesExact (exec (storeCall crc32c hash f64Add) (Engine.opened start) calls) schema := by
  have hrun := MapRel.run crc32c hash f64Add hopen calls
  obtain ⟨-, st, hst⟩ := hrun.created schema id hcreated
  exact hrun.references.exact hrun.indexes hst

-- ===== the keys of a valid document

/-- A reference leads to the primary field of a declared schema, which
has the type of the field itself. -/
def Resolves (schemaOf : String → Option Schema) (f : SchemaField) (r : Reference) : Prop :=
  ∃ target primary, schemaOf r.collection = some target ∧ target.validate = .ok ()
    ∧ target.primaryField = some primary ∧ primary.name = r.field
    ∧ primary.fieldType = f.fieldType

/-- A valid document has all its index entries and its raw key, and it has
its targets if each of its references resolves. -/
theorem keys_of_valid (schemaOf : String → Option Schema) {schema : Schema}
    {document : SchemaValue} {st : SchemaCollectionIndexes}
    (hnew : SchemaCollectionIndexes.new schema = .ok st)
    (h : validateDocument schema document = .ok ()) :
    (∃ entries, st.documentIndexEntries document = .ok entries)
      ∧ (∃ k, schemaDocumentRawKey schema document = .ok k)
      ∧ ((∀ f ∈ schema.fields, ∀ r, f.reference = some r → presentValue document f.name ≠ none →
          Resolves schemaOf f r) →
        ∃ targets, st.references.documentEntries schemaOf schema document = .ok targets) := by
  obtain ⟨⟨⟩, -, hnew⟩ := bind_eq_ok.1 hnew
  obtain ⟨fields, hfields, hnew⟩ := bind_eq_ok.1 hnew
  cases hnew
  refine ⟨documentEntriesFrom_of_keys _ _ _ 0 fun f hf value hvalue => ?_, rawKey_of_valid h,
    fun hresolves => documentEntriesFrom_of_keys _ _ _ 0 fun f hf value hvalue => ?_⟩
  · obtain ⟨rfl, hexact⟩ := indexedFieldsOf_eq_ok hfields
    have htype := hexact f hf
    obtain ⟨g, hg, rfl⟩ := mem_map.1 hf
    have hown := valueType_of_valid h (mem_of_mem_filter hg) hvalue
    exact (keys_of_validType hown).2 htype _ _
  · obtain ⟨g, hg, hr⟩ := mem_filterMap.1 hf
    obtain ⟨r, href, rfl⟩ := Option.map_eq_some_iff.1 hr
    obtain ⟨target, primary, htarget, hvalid, hprimary, hname, htype⟩ :=
      hresolves g hg r href (by simp [hvalue])
    obtain ⟨primary', hprimary', -, -, hcompatible⟩ := Schema.primary_of_valid hvalid
    obtain rfl := Option.some.inj (hprimary.symm.trans hprimary')
    have hown := valueType_of_valid h hg hvalue
    rw [← htype] at hown
    obtain ⟨k, hk⟩ := (keys_of_validType hown).1 hcompatible target primary rfl
    refine ⟨k, ?_⟩
    simp only [targetKeyFromValue, schemaPrimaryKeyRawKey, htarget, primaryField_eq_ok.2 hprimary,
      validateSchema_eq_ok.2 hvalid, failIf_eq_ok.2 (not_not.2 hname), ok_bind]
    exact hk

-- ===== a collection

def companies : Schema :=
  ⟨"companies", [
    { SchemaField.new "id" .int64 with
      primary := true, indexed := true, unique := true }], false, none⟩

/-- People with an employer and a boss, either of which may be
missing. -/
def people : Schema :=
  ⟨"people", [
    { SchemaField.new "boss" .int64 with
      optional := true, reference := some ⟨"people", "id"⟩ },
    { SchemaField.new "employer" .int64 with
      optional := true, reference := some ⟨"companies", "id"⟩ },
    { SchemaField.new "id" .int64 with
      primary := true, indexed := true, unique := true }],
    false, none⟩

/-- The person `id` with a boss and an employer. -/
def person (id : Int64) (boss employer : SchemaValue)
    (h : boss.ordered = true) (h' : employer.ordered = true) :
    OrderedValue :=
  ⟨.object [("boss", boss), ("employer", employer), ("id", .int64 id)], ordered_object.2
      ⟨show [utf8 "boss", utf8 "employer", utf8 "id"].Pairwise (· < ·) by
        decide, by simp [h, h', SchemaValue.ordered]⟩⟩

theorem ordered_null : SchemaValue.null.ordered = true := rfl

/-- The employer of a valid person has no key before companies are
declared. -/
theorem undeclared_target_no_key :
    let document := (person 1 .null (.int64 7) ordered_null rfl).1
    validateDocument people document = .ok ()
      ∧ (SchemaCollectionIndexes.new people).toOption.map (fun st =>
          st.references.documentEntries (fun _ => none) people document)
        = some (.error (.referenceTargetCollectionNotFound "people" "employer" "companies")) := by
  decide +kernel

theorem keys_of_valid_people : ∃ st, SchemaCollectionIndexes.new people = .ok st
    ∧ ∃ targets, st.references.documentEntries (fun _ => some companies) people
      (person 1 .null (.int64 7) ordered_null rfl).1 = .ok targets := by
  refine ⟨_, rfl, (@keys_of_valid _ people _ _ rfl (by decide +kernel)).2.2 ?_⟩
  intro f hf r hr hpresent
  rcases hf with _ | ⟨_, _ | ⟨_, _ | ⟨_, hf⟩⟩⟩
  · exact absurd (by decide +kernel) hpresent
  · cases hr
    exact ⟨companies, _, rfl, by decide +kernel, rfl, rfl, rfl⟩
  · cases hr
  · cases hf

/-- Three people, one of them replaced, one changed by an update and one
deleted, calls that fail, and a rebuild. -/
def peopleCalls : List StoreCall :=
  [.schema (.createSchemaCollection people),
    .schema (.putSchema people (person 1 .null (.int64 7) ordered_null rfl) ⟨none, none⟩),
    .schema (.createSchemaCollection companies),
    .schema (.putSchema people (person 1 .null (.int64 7) ordered_null rfl) ⟨none, none⟩),
    .schema (.putSchema people (person 2 (.int64 1) (.int32 7) rfl rfl) ⟨none, none⟩),
    .schema (.putSchema people (person 3 (.int64 3) (.int64 7) rfl rfl) ⟨none, none⟩),
    .includeSchemaReverse companies (.int64 7) people "employer",
    .schema (.putSchema people (person 3 (.int64 1) (.int64 8) rfl rfl) ⟨none, none⟩),
    .schema
      (.putSchema people (person 2 (.string "a") .null (by decide) ordered_null) ⟨none, none⟩),
    .schema
      (.updateSchema people (.int64 2) [⟨.set "employer" (.int64 8), by decide⟩] ⟨none, none⟩),
    .schema (.deleteSchema people (.int64 1) ⟨none, none⟩),
    .schema (.rebuildSchemaIndexes people)]

/-- The engine those calls leave. -/
def peopleEngine : Engine :=
  exec (storeCall (fun _ => 7) (fun _ => 0) fun a _ => a)
    (Engine.opened (MfsStore.fresh ⟨4, 8, .memoryOnly, false⟩ none 0))
    peopleCalls

theorem references_exact_people : ReferencesExact peopleEngine people := by
  refine references_exact (fun _ => 7) (fun _ => 0) (fun a _ => a) ⟨4, 8, .memoryOnly, false⟩ none 0
    (fresh ⟨4, 8, .memoryOnly, false⟩ none 0) rfl peopleCalls
    people 1 ?_
  have hcreate : ((opened (fresh ⟨4, 8, .memoryOnly, false⟩
      none 0)).createSchemaCollection (fun _ => 0) people).2 = .ok 1 := by
    decide +kernel
  refine mem_cons.2 (Or.inl ?_)
  simp only [storeCall, schemaCall, hcreate]

/-- Both who are left work for the company 8, and for nobody else. -/
example : ((peopleEngine.includeSchemaReverse companies (.int32 8) people
      "employer").2.map fun out => out.map fun r => r.document.document.field "id")
      = .ok [some (.int64 2), some (.int64 3)]
    ∧ (peopleEngine.includeSchemaReverse companies (.int64 7) people "employer").2 = .ok [] := by
  decide +kernel

end MemoryFirst.Store
