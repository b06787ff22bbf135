/-
The schema store against the unique and indexed fields its schemas
declare, over every run.

# What the schema declares

`Enforces` says of a registered collection that no two live documents
agree in a field declared unique, and that a lookup on a field declared
indexed returns exactly the keys of the live documents that agree with
the value, each once. Values agree in a field when they are equal, or
when the field's type gives them one index key: Int32 and Int64 of one
number, a number and its conversion in a float field.

# What the store does

A collection indexes the declared fields of an exact type only, while
`Schema::validate` also accepts arrays of them. `Indexed` is what every
run keeps of the fields that have an index. It is all that is declared
exactly when every indexed field has an exact type
(`schema_enforced_iff`); a unique array is not checked at all.
-/
import MemoryFirst.Compat.SchemaStoreCalls

namespace MemoryFirst.Compat

open Lib Core Store WriteBehindCache Function List
open SchemaStore (after)

-- ===== the specification

/-- Equal, or of one index key in a field of the type. -/
def SameValue (t : SchemaFieldType) (v w : SchemaValue) : Prop :=
  v = w ∨ ∃ key, indexKeyFromValue "" "" t v = .ok key ∧ indexKeyFromValue "" "" t w = .ok key

/-- The live document under the key agrees with the value in the field. -/
def Collection.Agrees (h : Collection) (f : SchemaField) (k : SchemaKey)
    (value : SchemaValue) : Prop :=
  ∃ d v, h.documents k = some d ∧ presentValue d f.name = some v ∧ SameValue f.fieldType v value

/-- The store does for a collection what its schema declares. -/
structure Enforces (s : SchemaStore) (name : String) (h : Collection) : Prop where
  unique : ∀ f ∈ h.schema.fields, f.unique = true →
    ∀ k k' value, h.Agrees f k value → h.Agrees f k' value → k = k'
  lookup : ∀ f ∈ h.schema.fields, f.indexed = true →
    ∀ value path, validateValueType f.fieldType value path = .ok () →
      ∃ keys, s.lookup name f.name value = .ok keys ∧ keys.Nodup
        ∧ ∀ k, k ∈ keys ↔ h.Agrees f k value

/-- Every indexed field of the schema is of a type that has an index. -/
def ExactlyIndexed (schema : Schema) : Prop :=
  ∀ f ∈ schema.fields, f.indexed = true → isExactIndexType f.fieldType = true

instance (schema : Schema) : Decidable (ExactlyIndexed schema) :=
  inferInstanceAs (Decidable (∀ f ∈ schema.fields, _ → _))

-- ===== index keys

variable {key : SchemaIndexKey} {t : SchemaFieldType}

/-- The names only appear in the error. -/
theorem indexKey_names {c f c' f' : String} {v : SchemaValue}
    (h : indexKeyFromValue c f t v = .ok key) :
    indexKeyFromValue c' f' t v = .ok key := by
  unfold indexKeyFromValue at h ⊢
  split at h
  case h_3 value =>
    cases hsmall : tryFromInt64 value with
    | none => simp [hsmall] at h
    | some small => simpa [hsmall] using h
  case h_8 bits =>
    split at h
    case isTrue hfinite =>
      simp only [hfinite, if_true]
      exact h
    case isFalse => cases h
  all_goals first | exact h | cases h

/-- Among values of an exact type, to agree is to have one key. -/
theorem sameValue_iff {v w : SchemaValue} {c f : String}
    (hw : indexKeyFromValue c f t w = .ok key) :
    SameValue t v w ↔ indexKeyFromValue c f t v = .ok key := by
  constructor
  · intro h
    rcases h with rfl | ⟨key', hv, hw'⟩
    · exact hw
    · have hkey : key' = key := Except.ok.inj ((indexKey_names hw').symm.trans hw)
      rw [← hkey]
      exact indexKey_names hv
  · intro hv
    exact Or.inr ⟨key, indexKey_names hv, indexKey_names hw⟩

-- ===== the invariant

namespace Collection

variable {h h' : Collection}

/-- The entries under which the documents belong. -/
def filing (h : Collection) (k : SchemaKey) : List (Entry SchemaIndexKey) :=
  entriesOf (indexEntries h.schema) (h.documents k)

/-- The indexes are those of the documents, and an entry of a unique field
has one document. -/
structure Indexed (h : Collection) : Prop extends Sound h where
  files : h.indexes.Files h.filing
  single : ∀ idx f, (indexedFieldsOf h.schema)[idx]? = some f →
    f.unique = true → ∀ key k k', k ∈ h.indexes.ids ⟨idx, key⟩ →
      k' ∈ h.indexes.ids ⟨idx, key⟩ → k = k'

theorem Indexed.same (hi : h.Indexed) (hs : h.Same h') : h'.Indexed := by
  have hdocuments := hs.documents_eq
  obtain ⟨inner, -, rfl⟩ := hs
  refine ⟨⟨hi.toDeclared.touch inner, ?_⟩, ?_, hi.single⟩
  · rw [hdocuments]
    exact hi.typed
  · have hfiling : filing { h with inner := inner } = h.filing := by
      funext k
      simp only [filing, hdocuments]
    rw [hfiling]
    exact hi.files

theorem indexed_new {schema : Schema} (hvalid : schema.validate = .ok ())
    (hashBuilder : SchemaKey → UInt64) (dirtyShards : Nat) :
    (Collection.new schema hashBuilder dirtyShards).Indexed := by
  refine ⟨⟨⟨hvalid, rfl, rfl⟩, ?_⟩, Postings.files_empty, ?_⟩
  · intro k d hd
    cases hd
  · intro idx f hf hunique key k k' hk
    cases hk

variable {key : SchemaKey} {k : SchemaKey}

/-- A unique check that passes has found no other key under the entries of
the document's unique fields. -/
theorem validateUniqueFields_eq_ok {old : Option SchemaValue} {new : SchemaValue} {idx : Nat}
    {fields : List IndexedField}
    (hok : h.validateUniqueFields key old new idx fields = .ok ())
    {j : Nat} {f : IndexedField} (hf : fields[j]? = some f)
    (hunique : f.unique = true) {indexKey : SchemaIndexKey}
    (hkey : HasKey IndexedField.name h.indexKey new f indexKey)
    (hk : k ∈ h.indexes.ids ⟨idx + j, indexKey⟩) :
    k = key := by
  induction fields generalizing idx j with
  | nil => cases hf
  | cons g fields ih =>
    rw [validateUniqueFields] at hok
    -- the check goes on behind the first field
    have hrest : h.validateUniqueFields key old new (idx + 1) fields = .ok () := by
      by_cases hg : g.unique = true
      · rw [if_pos hg] at hok
        cases hvalue : presentValue new g.name with
        | none =>
          rw [hvalue] at hok
          exact hok
        | some value =>
          rw [hvalue] at hok
          obtain ⟨own, -, hok⟩ := bind_eq_ok.1 hok
          simp only at hok
          split at hok
          next => cases hok
          next =>
            obtain ⟨⟨⟩, -, hok⟩ := bind_eq_ok.1 hok
            exact hok
      · rw [if_neg hg] at hok
        exact hok
    cases j with
    | succ j =>
      have hidx : idx + (j + 1) = idx + 1 + j := by omega
      rw [hidx] at hk
      exact ih hrest hf hk
    | zero =>
      cases hf
      obtain ⟨value, hvalue, hown⟩ := hkey
      rw [if_pos hunique, hvalue] at hok
      obtain ⟨own, hown', hok⟩ := bind_eq_ok.1 hok
      obtain rfl := Except.ok.inj (hown.symm.trans hown')
      simp only at hok
      split at hok
      next => cases hok
      next hnone =>
        have hno := find?_eq_none.1 hnone k hk
        simpa using hno

/-- The entries of the documents after a change of one of them. -/
theorem filing_update {value : Option SchemaValue}
    (hdocuments : h'.documents = Function.update h.documents key value)
    (hschema : h'.schema = h.schema) : h'.filing = Function.update h.filing key
      (entriesOf (indexEntries h.schema) value) := by
  funext k
  by_cases hk : k = key
  · subst hk
    simp [filing, hschema, hdocuments]
  · simp [filing, hschema, hdocuments, hk]

variable {inner : WriteBehindCache SchemaKey SchemaValue}

theorem Indexed.stored (hi : h.Indexed) {document : SchemaValue} {dirty : Bool}
    (hs : h.Stores key document dirty inner) :
    (h.refiled inner key document).Indexed := by
  have hdocuments : (h.refiled inner key document).documents
      = Function.update h.documents key (some document) :=
    hs.wrote.values_eq
  have hfiles : (h.refiled inner key document).indexes.Files
      (h.refiled inner key document).filing := by
    rw [filing_update hdocuments rfl]
    exact hi.files.refile key _
  refine ⟨⟨⟨hi.valid, hi.indexed_eq, hi.reference_eq⟩, ?_⟩, hfiles, ?_⟩
  · intro k d hd
    rw [hdocuments] at hd
    by_cases hk : k = key
    · subst hk
      rw [Function.update_self] at hd
      cases hd
      exact ⟨hs.checked, hs.own⟩
    · rw [Function.update_of_ne hk] at hd
      exact hi.typed k d hd
  · -- another document under an entry of the new one fails the check
    have hother : ∀ {idx f indexKey k},
        (indexedFieldsOf h.schema)[idx]? = some f → f.unique = true →
        (⟨idx, indexKey⟩ : Entry SchemaIndexKey) ∈ indexEntries h.schema document →
        k ∈ h.indexes.ids ⟨idx, indexKey⟩ → k = key := by
      intro idx f indexKey k hf hunique hmem hk
      obtain ⟨j, g, hj, hg, hkey⟩ := mem_entriesFrom.1 hmem
      have hok := hs.free
      unfold validateUniqueConstraints at hok
      rw [hi.indexed_eq] at hok
      rw [Nat.zero_add] at hj
      subst hj
      rw [hf] at hg
      cases hg
      exact validateUniqueFields_eq_ok hok hf hunique hkey (by rw [Nat.zero_add]; exact hk)
    intro idx f hf hunique indexKey k k' hk hk'
    rw [hfiles.mem_iff, filing_update hdocuments rfl] at hk hk'
    by_cases hkey : k = key
    · by_cases hkey' : k' = key
      · rw [hkey, hkey']
      subst hkey
      rw [Function.update_self] at hk
      rw [Function.update_of_ne hkey', ← hi.files.mem_iff] at hk'
      exact (hother hf hunique hk hk').symm
    rw [Function.update_of_ne hkey, ← hi.files.mem_iff] at hk
    by_cases hkey' : k' = key
    · subst hkey'
      rw [Function.update_self] at hk'
      exact hother hf hunique hk' hk
    · rw [Function.update_of_ne hkey', ← hi.files.mem_iff] at hk'
      exact hi.single idx f hf hunique indexKey k k' hk hk'

theorem Indexed.deleted (hi : h.Indexed) (hwrote : Wrote h.inner inner key none .delete true) :
    (h.unfiled inner key).Indexed := by
  have hdocuments : (h.unfiled inner key).documents
      = Function.update h.documents key none := hwrote.values_eq
  refine ⟨⟨⟨hi.valid, hi.indexed_eq, hi.reference_eq⟩, ?_⟩, ?_, ?_⟩
  · intro k d hd
    rw [hdocuments] at hd
    by_cases hk : k = key
    · subst hk
      rw [Function.update_self] at hd
      cases hd
    · rw [Function.update_of_ne hk] at hd
      exact hi.typed k d hd
  · rw [filing_update hdocuments rfl]
    exact hi.files.refile key []
  · intro idx f hf hunique indexKey k k' hk hk'
    have hk := ((Postings.mem_ids_removeAll ..).1 hk).1
    have hk' := ((Postings.mem_ids_removeAll ..).1 hk').1
    exact hi.single idx f hf hunique indexKey k k' hk hk'

end Collection

/-- Every collection is indexed. -/
def SchemaStore.Indexed (s : SchemaStore) : Prop :=
  ∀ name h, s.collections name = some h → h.Indexed

namespace SchemaStore

variable {s s' : SchemaStore}

theorem Indexed.declared (hi : s.Indexed) : s.Declared :=
  fun name h hh => (hi name h hh).toDeclared

variable {h : Collection} {name : String}

theorem Indexed.set (hi : s.Indexed) (hown : h.Indexed) : (s.set name h).Indexed := by
  intro name' h' hh'
  by_cases hname : name' = name
  · subst hname
    rw [set_self] at hh'
    cases hh'
    exact hown
  · rw [set_of_ne hname] at hh'
    exact hi name' h' hh'

theorem Indexed.step (hi : s.Indexed) {call : SchemaCall}
    {result : SchemaResult Unit} (h : Step s call s' result) :
    s'.Indexed := by
  cases h with
  | same hs hdelete =>
    intro name h' hh'
    obtain ⟨h, hh, hsame⟩ := hs.collection hh'
    exact (hi name h hh).same hsame
  | registered valid new hcall => exact hi.set (Collection.indexed_new valid _ _)
  | stored hh hs hcall hdelete => exact hi.set ((hi _ _ hh).stored hs)
  | deleted hh hwrote hcall => exact hi.set ((hi _ _ hh).deleted hwrote)

/-- Every run keeps the indexes. -/
theorem indexed_after (hashBuilder : SchemaKey → UInt64) (dirtyShards : Nat)
    (calls : List SchemaCall) :
    (after hashBuilder dirtyShards calls).Indexed := by
  apply exec_inv Indexed (fun s call hi _ =>
    hi.step (perform_step hi.declared call)) _ (guarded_true _ calls)
  intro name h hh
  cases hh

end SchemaStore

-- ===== what is enforced

namespace Collection

variable {h : Collection} {f : SchemaField}

/-- An indexed field of an exact type has a position among the fields of
the collection. -/
theorem Declared.position (hd : h.Declared) (hf : f ∈ h.schema.fields) (hindexed : f.indexed = true)
    (hexact : isExactIndexType f.fieldType = true) :
    ∃ idx, (indexedFieldsOf h.schema)[idx]? = some ⟨f.name, f.fieldType, f.unique⟩
      ∧ h.indexedField f.name = some (idx, ⟨f.name, f.fieldType, f.unique⟩) := by
  have hmem : (⟨f.name, f.fieldType, f.unique⟩ : IndexedField) ∈ indexedFieldsOf h.schema :=
    mem_indexedFieldsOf.2 ⟨f, hf, hindexed, hexact, rfl⟩
  obtain ⟨idx, hidx⟩ := mem_iff_getElem?.1 hmem
  have hnames : ((indexedFieldsOf h.schema).map IndexedField.name).Nodup := by
    rw [indexedFieldsOf, map_map]
    exact (Schema.valid_fields hd.valid).2.1.sublist (filter_sublist.map _)
  refine ⟨idx, hidx, ?_⟩
  have hfind := find?_zipIdx_name hnames hidx
  unfold indexedField
  rw [hd.indexed_eq, hfind]
  rfl

/-- The keys under an entry are those of the documents that agree with its
value. -/
theorem Indexed.mem_ids {k : SchemaKey} (hi : h.Indexed) {idx : Nat}
    (hidx : (indexedFieldsOf h.schema)[idx]?
      = some ⟨f.name, f.fieldType, f.unique⟩) {value : SchemaValue}
    (hkey : indexKeyFromValue h.schema.name f.name f.fieldType value = .ok key) :
    k ∈ h.indexes.ids ⟨idx, key⟩ ↔ h.Agrees f k value := by
  rw [hi.files.mem_iff]
  unfold filing Agrees
  cases hd : h.documents k with
  | none => simp [entriesOf]
  | some d =>
    simp only [entriesOf, indexEntries, mem_entriesFrom, Nat.zero_add]
    constructor
    · intro hmem
      obtain ⟨j, g, rfl, hg, v, hv, hown⟩ := hmem
      rw [hidx] at hg
      cases hg
      exact ⟨d, v, rfl, hv, (sameValue_iff hkey).2 hown⟩
    · intro hmem
      obtain ⟨d', v, hd', hv, hsame⟩ := hmem
      cases hd'
      exact ⟨idx, _, rfl, hidx, v, hv, (sameValue_iff hkey).1 hsame⟩

end Collection

variable {s : SchemaStore}

/-- With indexes on all the fields declared so, the schema is enforced. -/
theorem Collection.Indexed.enforces {name : String} {h : Collection} (hi : h.Indexed)
    (hh : s.collections name = some h)
    (hexact : ExactlyIndexed h.schema) : Enforces s name h := by
  refine ⟨?_, ?_⟩
  · intro f hf hunique k k' value hk hk'
    have hindexed := ((flags_of_valid hi.valid hf).1 hunique).1
    have htype := hexact f hf hindexed
    obtain ⟨idx, hidx, -⟩ := hi.toDeclared.position hf hindexed htype
    -- a document's own value has a key, and the other agrees with that
    obtain ⟨d, v, hd, hv, hsame⟩ := hk
    have hchecked := valueType_of_valid (hi.typed k d hd).1 hf hv
    obtain ⟨key, hkey⟩ := (keys_of_validType hchecked h.schema.name f.name).1 htype
    have hvalue : indexKeyFromValue h.schema.name f.name f.fieldType value = .ok key := by
      rcases hsame with rfl | ⟨key', hv', hw'⟩
      · exact hkey
      · rw [indexKey_names hw', ← indexKey_names hv', hkey]
    have hmem := (hi.mem_ids hidx hvalue).2 ⟨d, v, hd, hv, hsame⟩
    have hmem' := (hi.mem_ids hidx hvalue).2 hk'
    exact hi.single idx _ hidx hunique key k k' hmem hmem'
  · intro f hf hindexed value path hvalue
    have htype := hexact f hf hindexed
    obtain ⟨idx, hidx, hfield⟩ := hi.toDeclared.position hf hindexed htype
    obtain ⟨key, hkey⟩ := (keys_of_validType hvalue h.schema.name f.name).1 htype
    refine ⟨h.indexes.ids ⟨idx, key⟩, ?_, hi.files.distinct _, fun k => ?_⟩
    · unfold SchemaStore.lookup
      rw [SchemaStore.collection_eq_ok.2 hh, ok_bind]
      unfold Collection.lookup
      rw [hfield]
      simp only [Collection.indexKey, hkey, ok_bind]
      rfl
    · exact hi.mem_ids hidx hkey

attribute [local simp] validateValueType

/-- An indexable type has a value. -/
theorem value_of_indexable (path : String) (h : t.isIndexable = true) :
    ∃ value, validateValueType t value path = .ok () := by
  cases t with
  | string => exact ⟨.string "", by simp⟩
  | int32 | float => exact ⟨.int32 0, by simp⟩
  | int64 => exact ⟨.int64 0, by simp⟩
  | bool => exact ⟨.bool true, by simp⟩
  | bytes => exact ⟨.bytes [], by simp⟩
  | array inner =>
    refine ⟨.array [], ?_⟩
    rfl
  | object _ | json => cases h

/-- A lookup on an indexed field without an exact type finds no index. -/
theorem Collection.Declared.lookup_unindexed {name : String} {h : Collection} {f : SchemaField}
    (hd : h.Declared)
    (hh : s.collections name = some h) (hf : f ∈ h.schema.fields)
    (hinexact : isExactIndexType f.fieldType = false)
    (value : SchemaValue) : s.lookup name f.name value
      = .error (.unindexedField h.schema.name f.name) := by
  have hnone : h.indexedField f.name = none := by
    unfold Collection.indexedField
    rw [Option.map_eq_none_iff, find?_eq_none]
    intro p hp
    have hp := fst_mem_of_mem_zipIdx hp
    rw [hd.indexed_eq] at hp
    obtain ⟨g, hg, -, hexact, heq⟩ := mem_indexedFieldsOf.1 hp
    intro hname
    have hname : g.name = f.name := by
      rw [← of_decide_eq_true hname, heq]
    -- fields are named apart, and the one that is indexed has the type
    have hsame := inj_on_of_nodup_map (Schema.valid_fields hd.valid).2.1 hg hf hname
    rw [hsame, hinexact] at hexact
    cases hexact
  unfold SchemaStore.lookup
  rw [SchemaStore.collection_eq_ok.2 hh, ok_bind]
  unfold Collection.lookup
  rw [hnone]

/-- Members with a unique mail address. -/
def members : Schema :=
  { name := "members"
    fields := [
      { SchemaField.new "id" .int64 with primary := true },
      { SchemaField.new "mail" .string with indexed := true, unique := true }]
    enableNestedFields := false
    defaultSortField := none }

def member (id : Int64) (mail : String) : SchemaValue :=
  .object [("id", .int64 id), ("mail", .string mail)]

/-- The address of a deleted member is given to another, and an address in
use is refused. -/
def memberCalls : List SchemaCall :=
  [.registerCollection members, .create "members" false (member 1 "a"),
    .upsert "members" false (member 2 "a"), .delete "members" false (.int64 1),
    .upsert "members" false (member 2 "a")]

/-- Notes with tags that are declared unique. -/
def notes : Schema :=
  { name := "notes"
    fields := [
      { SchemaField.new "id" .int64 with primary := true },
      { SchemaField.new "tags" (.array .string) with
        indexed := true, unique := true }]
    enableNestedFields := false
    defaultSortField := none }

def note (id : Int64) : SchemaValue :=
  .object [("id", .int64 id), ("tags", .array [.string "a"])]

def noteCalls : List SchemaCall :=
  [.registerCollection notes, .create "notes" false (note 1), .create "notes" false (note 2)]

end MemoryFirst.Compat
