/-
The references of a collection against the documents it holds.

# The maps

`Mirrors` says that both maps are those of the same entries: a source is
listed under the targets it has, and sent to the one it has in each
field. A write that takes a source's old entries away and files the new
ones keeps this (`Mirrors.refile`).

# Declared schemas

What a field refers to depends on the schema of the target collection.
Schemas are declared and never changed, so the references of a stored
document stay what they were when it was written (`Mirrored.mono`).

# One step

`RefInv` says of every declared collection that its maps mirror its live
documents. It is kept by every effect of a call, with the invariant of
the indexes beside it (`RefInv.step`).
-/
import MemoryFirst.Lib.Mirror
import MemoryFirst.Store.Proofs.SchemaMode
import MemoryFirst.Store.SchemaReads

namespace MemoryFirst.Store

open Lib SchemaCollectionReferences Engine Schema Function List

-- ===== the maps

/-- A source has at most one target in each field. -/
def OnePerField (entries : List PreparedReferenceEntry) : Prop :=
  ∀ idx t t', (⟨idx, t⟩ : PreparedReferenceEntry) ∈ entries →
    (⟨idx, t'⟩ : PreparedReferenceEntry) ∈ entries → t = t'

/-- The links of a source are its entries: the forward map has them by
field and source. -/
def entryLinks (κ : Type) : Linking κ (Entry κ) (Entry κ) κ where
  place source e := ⟨e.fieldIdx, source⟩
  target := Entry.key
  owner h := (Entry.mk.inj h).2
  known {_ e e'} h h' := by
    obtain ⟨idx, key⟩ := e
    obtain ⟨idx', key'⟩ := e'
    exact Entry.mk.injEq .. ▸ ⟨(Entry.mk.inj h).1, h'⟩

theorem oneEach_entryLinks {κ : Type} {l : List (Entry κ)}
    (h : ∀ idx t t', (⟨idx, t⟩ : Entry κ) ∈ l → (⟨idx, t'⟩ : Entry κ) ∈ l → t = t') (source : κ) :
    (entryLinks κ).OneEach source l := by
  intro place t t' ht ht'
  obtain ⟨⟨idx, u⟩, he, heq⟩ := mem_map.1 ht
  obtain ⟨⟨idx', u'⟩, he', heq'⟩ := mem_map.1 ht'
  cases heq
  cases heq'
  exact h idx u u' he he'

namespace SchemaCollectionReferences

variable {r : SchemaCollectionReferences} {entries : RawKey → List PreparedReferenceEntry}
  (source : RawKey) (l : List PreparedReferenceEntry)

theorem foldl_removeEntry (r : SchemaCollectionReferences) : l.foldl (removeEntry source) r =
      { r with
        forward := eraseAll r.forward
          (l.map ((entryLinks RawKey).place source))
        reverse := r.reverse.removeAll l source } := by
  induction l generalizing r with
  | nil => rfl
  | cons e l ih =>
    rw [foldl_cons, ih]
    rfl

theorem foldl_addEntry (r : SchemaCollectionReferences) : l.foldl (addEntry source) r = { r with
        forward := insertAll r.forward ((entryLinks RawKey).pairs source l)
        reverse := r.reverse.addAll l source } := by
  induction l generalizing r with
  | nil => rfl
  | cons e l ih =>
    rw [foldl_cons, ih]
    rfl

/-- Both maps are those of the entries of the sources. -/
structure Mirrors (r : SchemaCollectionReferences)
    (entries : RawKey → List PreparedReferenceEntry) : Prop where
  files : r.reverse.Files entries
  forward_iff : ∀ idx source target, r.forward.lookup ⟨idx, source⟩ = some target ↔
      (⟨idx, target⟩ : PreparedReferenceEntry) ∈ entries source

theorem mirrors_iff : r.Mirrors entries ↔ (entryLinks RawKey).Mirrors r.forward r.reverse entries :=
  ⟨fun h => ⟨h.files, fun source e => h.forward_iff e.fieldIdx source e.key⟩,
    fun h => ⟨h.files, fun idx source target => h.forward_iff source ⟨idx, target⟩⟩⟩

theorem mirrors_empty (h : r.forward = ∅) (h' : r.reverse = ∅) : r.Mirrors fun _ => [] := by
  rw [mirrors_iff, h, h']
  exact Linking.mirrors_empty

variable {new : List PreparedReferenceEntry}

/-- A source whose entries change: the old ones are taken away, then the
new ones are filed. -/
theorem Mirrors.refile (h : r.Mirrors entries) (source : RawKey) (hnew : OnePerField new) :
    (r.applyWrite source ⟨entries source, new⟩).Mirrors (update entries source new) := by
  unfold applyWrite
  rw [foldl_addEntry, foldl_removeEntry, mirrors_iff]
  exact (mirrors_iff.1 h).refile (oneEach_entryLinks hnew source)

/-- A source that had no entries. -/
theorem Mirrors.file (h : r.Mirrors entries) {source : RawKey}
    (hnone : entries source = []) (hnew : OnePerField new) : (new.foldl (addEntry source) r).Mirrors
      (update entries source new) := by
  have hfile := h.refile source hnew
  rw [hnone] at hfile
  exact hfile

end SchemaCollectionReferences

-- ===== the entries

/-- More schemas are declared, and none is changed. -/
def SchemasGrow (schemaOf schemaOf' : String → Option Schema) : Prop :=
  ∀ name schema, schemaOf name = some schema → schemaOf' name = some schema

theorem documentEntriesFrom_mono {φ κ : Type} {name : φ → String}
    {keyOf keyOf' : φ → SchemaValue → StoreResult κ}
    (hkeys : ∀ f v key, keyOf f v = .ok key → keyOf' f v = .ok key)
    {document : SchemaValue} {idx : Nat} {fields : List φ}
    {entries : List (Entry κ)}
    (h : documentEntriesFrom name keyOf document idx fields = .ok entries) :
    documentEntriesFrom name keyOf' document idx fields = .ok entries := by
  induction fields generalizing idx entries with
  | nil => exact h
  | cons f fields ih =>
    rw [documentEntriesFrom] at h ⊢
    split at h
    next => exact ih h
    next value hvalue =>
      obtain ⟨key, hkey, h⟩ := bind_eq_ok.1 h
      obtain ⟨rest, hrest, h⟩ := bind_eq_ok.1 h
      cases h
      simp only [hkeys f value key hkey, ih hrest, ok_bind]
      rfl

namespace Schema

variable (schemaOf : String → Option Schema) (schema : Schema)

/-- The fields with a reference, as the maps have them. -/
def referenceFields : List ReferenceField :=
  (SchemaCollectionReferences.new schema).fields

variable (document : SchemaValue)

/-- The targets a document has under the schema. -/
def referenceEntries : StoreResult (List PreparedReferenceEntry) :=
  documentEntriesFrom ReferenceField.name (targetKeyFromValue schemaOf schema) document
    0 schema.referenceFields

/-- The target a document has in a field. -/
def referenceKey (field : ReferenceField) : StoreResult (Option RawKey) :=
  keyIn ReferenceField.name (targetKeyFromValue schemaOf schema) document field

/-- The targets of a stored value, none where it is no document. -/
def referenceEntriesAt (value : Option RawValue) : List PreparedReferenceEntry :=
  match value with
  | none => []
  | some raw =>
    match decodeSchemaRawValue schema raw with
    | .error _ => []
    | .ok document => (schema.referenceEntries schemaOf document).toOption.getD []

variable {schemaOf schema} {document : SchemaValue} {entries : List PreparedReferenceEntry}

theorem referenceEntriesAt_eq {raw : RawValue} (hd : decodeSchemaRawValue schema raw = .ok document)
    (h : schema.referenceEntries schemaOf document = .ok entries) :
    schema.referenceEntriesAt schemaOf (some raw) = entries := by
  simp only [referenceEntriesAt, hd, h]
  rfl

section

variable (h : schema.referenceEntries schemaOf document = .ok entries)

include h

theorem mem_referenceEntries {idx : Nat} {key : RawKey} :
    (⟨idx, key⟩ : PreparedReferenceEntry) ∈ entries ↔ ∃ f, schema.referenceFields[idx]? = some f
        ∧ schema.referenceKey schemaOf document f = .ok (some key) :=
  mem_documentEntries _ _ _ h

theorem onePerField_referenceEntries : OnePerField entries := by
  intro idx t t' ht ht'
  obtain ⟨f, hf, hkey⟩ := (mem_referenceEntries h).1 ht
  obtain ⟨f', hf', hkey'⟩ := (mem_referenceEntries h).1 ht'
  obtain rfl := Option.some.inj (hf.symm.trans hf')
  exact Option.some.inj (Except.ok.inj (hkey.symm.trans hkey'))

end

variable {schemaOf' : String → Option Schema}

/-- A target that is found is found among more schemas. -/
theorem targetKeyFromValue_mono (hgrow : SchemasGrow schemaOf schemaOf')
    {field : ReferenceField} {value : SchemaValue} {key : RawKey}
    (h : targetKeyFromValue schemaOf schema field value = .ok key) :
    targetKeyFromValue schemaOf' schema field value = .ok key := by
  unfold targetKeyFromValue at h ⊢
  split at h
  next => cases h
  next target htarget =>
    rw [hgrow _ _ htarget]
    exact h

theorem referenceEntries_mono (hgrow : SchemasGrow schemaOf schemaOf')
    (h : schema.referenceEntries schemaOf document = .ok entries) :
    schema.referenceEntries schemaOf' document = .ok entries :=
  documentEntriesFrom_mono (fun _ _ _ hkey => targetKeyFromValue_mono hgrow hkey) h

end Schema

-- ===== one collection

/-- The maps of a collection are those of its live documents, whose
references are all to declared collections. -/
structure Mirrored (schemaOf : String → Option Schema)
    (values : RawKey → Option RawValue) (st : SchemaCollectionIndexes) :
    Prop where
  fields_eq : st.references.fields = st.schema.referenceFields
  resolved : ∀ k v document, values k = some v → decodeSchemaRawValue st.schema v = .ok document →
      ∃ entries, st.schema.referenceEntries schemaOf document = .ok entries
  mirrors : st.references.Mirrors fun k =>
    st.schema.referenceEntriesAt schemaOf (values k)

section

variable {schemaOf schemaOf' : String → Option Schema}
  {values : RawKey → Option RawValue} {st : SchemaCollectionIndexes}

/-- Declaring more schemas changes no reference of a stored document. -/
theorem Mirrored.mono (h : Mirrored schemaOf values st) (hgrow : SchemasGrow schemaOf schemaOf') :
    Mirrored schemaOf' values st := by
  have hsame : (fun k => st.schema.referenceEntriesAt schemaOf' (values k))
      = fun k => st.schema.referenceEntriesAt schemaOf (values k) := by
    funext k
    cases hv : values k with
    | none => rfl
    | some v =>
      cases hd : decodeSchemaRawValue st.schema v with
      | error err => simp only [referenceEntriesAt, hd]
      | ok document =>
        obtain ⟨entries, hentries⟩ := h.resolved k v document hv hd
        rw [referenceEntriesAt_eq hd hentries, referenceEntriesAt_eq hd
            (referenceEntries_mono hgrow hentries)]
  refine ⟨h.fields_eq, fun k v document hv hd => ?_, ?_⟩
  · obtain ⟨entries, hentries⟩ := h.resolved k v document hv hd
    exact ⟨entries, referenceEntries_mono hgrow hentries⟩
  · rw [hsame]
    exact h.mirrors

/-- Empty maps mirror a collection without live values. -/
theorem mirrored_new {schema : Schema} (h : SchemaCollectionIndexes.new schema = .ok st)
    (hnone : ∀ k, values k = none) : Mirrored schemaOf values st := by
  obtain ⟨⟨⟩, -, h⟩ := bind_eq_ok.1 h
  obtain ⟨fields, -, h⟩ := bind_eq_ok.1 h
  cases h
  refine ⟨rfl, fun k v document hv => ?_, ?_⟩
  · rw [hnone k] at hv
    cases hv
  · simp only [hnone]
    exact mirrors_empty rfl rfl

section

variable (hfields : st.references.fields = st.schema.referenceFields)

include hfields

variable {value : Option RawValue}

theorem referenceOldEntries_eq {old : Option SchemaValue}
    (hold : oldDocument st.schema value = .ok old)
    {entries : List PreparedReferenceEntry}
    (h : st.references.oldEntries schemaOf st.schema old = .ok entries) :
    entries = st.schema.referenceEntriesAt schemaOf value := by
  cases value with
  | none =>
    cases hold
    cases h
    rfl
  | some raw =>
    obtain ⟨document, hd, hold⟩ := bind_eq_ok.1 hold
    cases hold
    simp only [oldEntries, documentEntries, hfields] at h
    exact (referenceEntriesAt_eq hd h).symm

variable {plan : SchemaIndexWritePlan}

/-- A write plans to take away the references of what is stored and to
file those of what it stores. -/
theorem plan_references {e : Engine} {w : DocumentWrite} (h : (do
      let old ← oldDocument st.schema value
      st.prepare e w old) = .ok plan) :
    plan.referencePlan.oldEntries = st.schema.referenceEntriesAt e.schemaOf value
      ∧ match w.document with
        | none => plan.referencePlan.newEntries = []
        | some document => st.schema.referenceEntries e.schemaOf document
            = .ok plan.referencePlan.newEntries := by
  obtain ⟨old, hold, h⟩ := bind_eq_ok.1 h
  obtain ⟨key, document⟩ := w
  cases document with
  | none =>
    obtain ⟨oldIndex, -, h⟩ := bind_eq_ok.1 h
    obtain ⟨referencePlan, href, h⟩ := bind_eq_ok.1 h
    cases h
    obtain ⟨oldEntries, holdEntries, href⟩ := bind_eq_ok.1 href
    cases href
    exact ⟨referenceOldEntries_eq hfields hold holdEntries, rfl⟩
  | some document =>
    obtain ⟨oldIndex, -, h⟩ := bind_eq_ok.1 h
    obtain ⟨newIndex, -, h⟩ := bind_eq_ok.1 h
    obtain ⟨⟨⟩, -, h⟩ := bind_eq_ok.1 h
    obtain ⟨referencePlan, href, h⟩ := bind_eq_ok.1 h
    cases h
    obtain ⟨oldEntries, holdEntries, href⟩ := bind_eq_ok.1 href
    obtain ⟨newEntries, hnewEntries, href⟩ := bind_eq_ok.1 href
    cases href
    refine ⟨referenceOldEntries_eq hfields hold holdEntries, ?_⟩
    rw [documentEntries, hfields]
      at hnewEntries
    exact hnewEntries

end

end

-- ===== the invariant

/-- The maps of every declared collection mirror its live documents. -/
def RefInv (e : Engine) : Prop :=
  ∀ name st, e.schemaIndexes.lookup name = some st →
    Mirrored e.schemaOf (fun k => e.raw.valueAt (name, k)) st

section

variable {e e' : Engine} {schema : Schema} {raw : MfsStore} {st st' : SchemaCollectionIndexes}

theorem RefInv.opened (s : MfsStore) : RefInv (opened s) := by
  intro name st h
  cases h

theorem RefInv.declares (h : RefInv e) (hinv : IndexInv e)
    (hdecl : e.Declares schema e') : RefInv e' := by
  cases hdecl with
  | known => exact h
  | @new st hnone hnew =>
    have hgrow : SchemasGrow e.schemaOf (e.setIndexes schema.name st).schemaOf := by
      intro name s hs
      have hne : name ≠ schema.name := by
        rintro rfl
        rw [schemaOf, hnone] at hs
        cases hs
      rw [schemaOf, lookup_setIndexes_ne _ _ hne]
      exact hs
    intro name st' hst'
    rcases of_lookup_setIndexes hst' with ⟨rfl, rfl⟩ | ⟨-, hold⟩
    · exact mirrored_new hnew (hinv.undeclared _ hnone)
    · exact (h name st' hold).mono hgrow

/-- The records are the same. -/
theorem RefInv.sameRecords (h : RefInv e) (hc : raw.contents = e.raw.contents) :
    RefInv { e with raw := raw } := by
  intro name st hst
  have hmirrored := h name st hst
  simp only [← MfsStore.valueAt_of_contents_eq hc] at hmirrored
  exact hmirrored

/-- New indexes for a declared schema leave the schemas as they were. -/
theorem Engine.Installed.schemaOf_eq (hst : e.Installed schema st)
    (hschema : st'.schema = schema) (raw : MfsStore) :
    (setIndexes { e with raw := raw } schema.name st').schemaOf = e.schemaOf := by
  funext name
  unfold schemaOf
  by_cases hname : name = schema.name
  · subst hname
    rw [lookup_setIndexes, hst.lookup, Option.map_some, Option.map_some, hschema, hst.schema_eq]
  · rw [lookup_setIndexes_ne _ _ hname]

/-- Only the records of one collection, and its indexes, change. -/
theorem RefInv.set (h : RefInv e) (hst : e.Installed schema st) (hschema : st'.schema = schema)
    (hother : ∀ other, other ≠ schema.name → ∀ k, raw.valueAt (other, k) = e.raw.valueAt (other, k))
    (hmirrored : Mirrored e.schemaOf (fun k => raw.valueAt (schema.name, k)) st') :
    RefInv (setIndexes { e with raw := raw } schema.name st') := by
  intro name st'' hst''
  rw [hst.schemaOf_eq hschema]
  rcases of_lookup_setIndexes hst'' with
    ⟨rfl, rfl⟩ | ⟨hname, hold⟩
  · exact hmirrored
  have hvalues : (fun k => raw.valueAt (name, k))
      = fun k => e.raw.valueAt (name, k) := funext (hother name hname)
  show Mirrored e.schemaOf (fun k => raw.valueAt (name, k)) st''
  rw [hvalues]
  exact h name st'' hold

section

variable (h : RefInv e) (hinv : IndexInv e) (hst : e.Installed schema st)

include h hinv hst

/-- A write refiles its document. -/
theorem RefInv.written {plan : SchemaIndexWritePlan} {w : DocumentWrite} (hvalid : w.Valid schema)
    (hplan : (do
      let old ← oldDocument schema (e.raw.valueAt (schema.name, w.key))
      st.prepare e w old) = .ok plan) {version : DocumentVersion}
    (hc : raw.contents = update e.raw.contents
      (schema.name, w.key) (some ⟨w.value, version⟩)) :
    RefInv (setIndexes { e with raw := raw } schema.name (st.applyWrite w.key plan)) := by
  have hmirrored := h _ st hst.lookup
  have hvalue := MfsStore.valueAt_of_update hc
  obtain ⟨-, -, hstored, -⟩ := plan_entries
    (hinv.covered _ st hst.lookup).wellFormed hst.schema_eq hvalid hplan
  obtain rfl := hst.schema_eq
  obtain ⟨hold, hnew⟩ := plan_references hmirrored.fields_eq hplan
  -- what is filed is what the written value refers to
  have hwritten : OnePerField plan.referencePlan.newEntries
      ∧ st.schema.referenceEntriesAt e.schemaOf w.value = plan.referencePlan.newEntries
      ∧ ∀ v document, w.value = some v → decodeSchemaRawValue st.schema v = .ok document →
          ∃ entries, st.schema.referenceEntries e.schemaOf document = .ok entries := by
    cases hdoc : w.document with
    | none =>
      simp only [hdoc] at hnew
      have hnone : w.value = none := by
        rw [DocumentWrite.value, hdoc]
        rfl
      rw [hnew, hnone]
      refine ⟨fun idx t t' ht => ?_, rfl, fun v document hv => ?_⟩
      · cases ht
      · cases hv
    | some document =>
      simp only [hdoc] at hnew
      have hsome : w.value = some (encodeSchemaValue document) := by
        rw [DocumentWrite.value, hdoc]
        rfl
      obtain ⟨document', hdoc', hstores⟩ := hstored _ hsome
      obtain rfl := Option.some.inj (hdoc.symm.trans hdoc')
      rw [hsome, referenceEntriesAt_eq hstores.decoded hnew]
      refine ⟨onePerField_referenceEntries hnew, rfl, fun v d hv hd => ?_⟩
      cases hv
      obtain rfl := Except.ok.inj (hd.symm.trans hstores.decoded)
      exact ⟨_, hnew⟩
  obtain ⟨hone, hfiled, hresolved⟩ := hwritten
  have hown : ∀ k, raw.valueAt (st.schema.name, k)
      = update (fun k => e.raw.valueAt (st.schema.name, k)) w.key w.value k := by
    intro k
    rw [hvalue, update_apply]
    simp only [Prod.mk.injEq, true_and]
  refine h.set hst rfl (fun other ho k => ?_) ⟨?_, fun k v document hv hd => ?_, ?_⟩
  · rw [hvalue, if_neg (by simp [ho])]
  · show (st.references.applyWrite w.key plan.referencePlan).fields = _
    unfold applyWrite
    rw [foldl_addEntry, foldl_removeEntry]
    exact hmirrored.fields_eq
  · rw [hown] at hv
    by_cases hk : k = w.key
    · subst hk
      rw [update_self] at hv
      exact hresolved v document hv hd
    · rw [update_of_ne hk] at hv
      exact hmirrored.resolved k v document hv hd
  · have hmirrors := hmirrored.mirrors.refile w.key hone
    simp only [← hold] at hmirrors
    show (st.references.applyWrite w.key plan.referencePlan).Mirrors _
    convert hmirrors using 1
    funext k
    show st.schema.referenceEntriesAt e.schemaOf _ = _
    rw [hown]
    by_cases hk : k = w.key
    · subst hk
      rw [update_self, update_self, hfiled]
    · rw [update_of_ne hk, update_of_ne hk]

/-- A rebuild files what is stored. -/
theorem RefInv.rebuilt {documents : List (RawKey × SchemaValue)} {c : RawCollectionSnapshot}
    {rebuilt : SchemaCollectionIndexes}
    (hc : (e.raw.rawSnapshot.collections.find? fun c => c.name = schema.name) = some c)
    (hdocs : snapshotDocuments schema c.records = .ok documents)
    (hrebuilt : st.rebuildFromDocuments e.schemaOf documents = .ok rebuilt) :
    RefInv (e.setIndexes schema.name rebuilt) := by
  have hmirrored := h _ st hst.lookup
  obtain ⟨⟨m, references⟩, hloop, hrebuilt⟩ := bind_eq_ok.1 hrebuilt
  cases hrebuilt
  have hfiled := hinv.rebuild_rule hst hc hdocs
    (st.schema.referenceEntries e.schemaOf) (schema.referenceEntriesAt e.schemaOf)
    (fun _ r entries => r.fields = st.schema.referenceFields ∧ r.Mirrors entries)
    (fun m r keys k document entries filed refs _ _ hrefs hm hk => ?_)
    ⟨hmirrored.fields_eq, mirrors_empty rfl rfl⟩ rfl (fun v document new hd hnew => ?_) hloop
  · obtain rfl := hst.schema_eq
    exact h.set hst rfl (fun _ _ _ => rfl) ⟨hfiled.1, hmirrored.resolved, hfiled.2⟩
  · obtain ⟨own, hown, hrefs⟩ := bind_eq_ok.1 hrefs
    cases hrefs
    rw [documentEntries, hm.1] at hown
    refine ⟨own, hown, ?_, hm.2.file hk (onePerField_referenceEntries hown)⟩
    rw [foldl_addEntry]
    exact hm.1
  · rw [hst.schema_eq] at hnew
    exact referenceEntriesAt_eq hd hnew

end

/-- Every effect of a call keeps the invariant. -/
theorem RefInv.step {crc32c : List UInt8 → UInt32}
    {hash : RawKey → UInt64} {f64Add : UInt64 → UInt64 → UInt64}
    (h : RefInv e) (hinv : IndexInv e) {call : SchemaCall}
    {out : Engine × SchemaReply}
    (heffect : SchemaEffect crc32c hash f64Add e call out) :
    RefInv out.1 := by
  cases heffect with
  | quiet hdecl hack hnot => exact h.declares hinv hdecl
  | created hraw hdecl hst =>
    have hquiet := Quiet.create hash hinv.sound call.schema.name
    rw [hraw] at hquiet
    exact (h.sameRecords hquiet.contents_eq).declares
      (hinv.sameRecords hquiet.sound hquiet.contents_eq) hdecl
  | refused hdecl hst hw hopt heq hack hnot =>
    have hinv₁ := hinv.declares hdecl
    exact (h.declares hinv hdecl).sameRecords ((hinv₁.sound.writeWithHooks heq).2.1 _ rfl)
  | written hdecl hst hw hopt heq =>
    have hinv₁ := hinv.declares hdecl
    obtain ⟨hplan, hc, -⟩ := (hinv₁.sound.writeWithHooks heq).2.2 _ _ rfl
    exact (h.declares hinv hdecl).written hinv₁ hst (SchemaCall.attempt_valid hw) hplan hc
  | rebuilt hdecl hst hc hdocs hrebuilt =>
    exact (h.declares hinv hdecl).rebuilt (hinv.declares hdecl) hst hc hdocs hrebuilt

end

end MemoryFirst.Store
