/-
Runs of a store under schemas: the secondary indexes against the live
documents.

# The specification

`IndexExact e schema` speaks about the engine alone. The live documents
of the collection are its decoded values (`LiveDocument`); the index has
under a key exactly the primary keys of the live documents with that
index key, each once; and a lookup answers with exactly these documents,
in the order of their primary keys.

# The result

`schema_indexes_exact` holds of every run in which the collection was
created under its schema, whatever the calls and their outcomes were.
What a lookup compares are index keys: a number in a float field is
compared after rounding, and two zeros of different sign are different
keys (`lookup_by_key`). A put, delete or update that fails leaves the
documents and their entries as they were (`failed_write_unchanged`). A
creation that fails can leave the collection behind, if another schema
was declared under its name before (`failed_creation_blocks`).

A rebuild replaces the index by one made from the documents it read
before. A write in between is lost to the index (`rebuild_loses_entry`);
without one the indexes stay exact (`rebuild_keeps_exact`).
-/
import MemoryFirst.Store.Proofs.SchemaMode

namespace MemoryFirst.Store

open Lib SchemaCollectionIndexes MfsStore Engine List Function

-- ===== the specification

variable (e : Engine)

/-- The document stored under a key, with its version. -/
def LiveDocument (schema : Schema) (k : RawKey) (d : SchemaReadResult) : Prop :=
  ∃ v, e.raw.contents (schema.name, k) = some ⟨some v, d.version⟩
    ∧ decodeSchemaRawValue schema v = .ok d.document

/-- The primary keys the index of a field has under a key. -/
def Engine.filed (name field : String) (key : SchemaExactIndexKey) : List RawKey :=
  match e.schemaIndexes.lookup name with
  | none => []
  | some st =>
    match st.indexedField field with
    | none => []
    | some (idx, _) => st.indexes.ids ⟨idx, key⟩

/-- The indexes of the collection, and what lookups answer, are as the
live documents have it. -/
structure IndexExact (e : Engine) (schema : Schema) : Prop where
  /-- Every live value is a document under its own primary key. -/
  documents : ∀ k v version, e.raw.contents (schema.name, k) = some ⟨some v, version⟩ →
      ∃ document, decodeSchemaRawValue schema v = .ok document
        ∧ schemaDocumentRawKey schema document = .ok k
  filed : ∀ f ∈ schema.indexed, ∀ key, (e.filed schema.name f.name key).Nodup
      ∧ ∀ k, k ∈ e.filed schema.name f.name key ↔ ∃ d, LiveDocument e schema k d
          ∧ schema.documentKey d.document f = .ok (some key)
  found : ∀ f ∈ schema.indexed, ∀ value key, schema.fieldKey f value = .ok key →
      ∃ out, (e.lookupSchema schema f.name value).2 = .ok out
        ∧ out.Pairwise (fun a b => a.primaryKey < b.primaryKey)
        ∧ ∀ r, r ∈ out ↔ LiveDocument e schema r.primaryKey ⟨r.document, r.version⟩
            ∧ schema.documentKey r.document f = .ok (some key)
  /-- A value that can have no key in the field is rejected. -/
  rejected : ∀ f ∈ schema.indexed, ∀ value err, schema.fieldKey f value = .error err →
      (e.lookupSchema schema f.name value).2 = .error err

-- ===== lookups

variable {st : SchemaCollectionIndexes}

section

variable {e : Engine} {schema : Schema} {k : RawKey} {d : SchemaReadResult}

/-- A live document is what a read by its key returns. -/
theorem LiveDocument.read (h : LiveDocument e schema k d) :
    e.getSchemaByRawKey schema k = .ok (some d) := by
  obtain ⟨v, hv, hd⟩ := h
  simp only [getSchemaByRawKey, getRaw_of_live hv, ok_bind, hd]
  rfl

theorem LiveDocument.unique {d d' : SchemaReadResult}
    (h : LiveDocument e schema k d) (h' : LiveDocument e schema k d') :
    d = d' := by
  have hread := h.read
  rw [h'.read] at hread
  exact (Option.some.inj (Except.ok.inj hread)).symm

/-- The loop over keys that all have a matching document. -/
theorem lookupDocuments_eq (hschema : st.schema = schema)
    {field : IndexedField} {key : SchemaExactIndexKey}
    (keys : List RawKey)
    (h : ∀ k ∈ keys, ∃ d, LiveDocument e schema k d
      ∧ schema.documentKey d.document field = .ok (some key)
      ∧ schemaDocumentRawKey schema d.document = .ok k) :
    ∃ out, e.lookupDocuments schema st field key keys = .ok out
      ∧ out.map SchemaLookupResult.primaryKey = keys
      ∧ ∀ r ∈ out, LiveDocument e schema r.primaryKey ⟨r.document, r.version⟩ := by
  induction keys with
  | nil =>
    refine ⟨[], rfl, rfl, fun r hr => ?_⟩
    cases hr
  | cons k keys ih =>
    obtain ⟨⟨d, hlive, hkey, hown⟩, hrest⟩ := forall_mem_cons.1 h
    obtain ⟨out, hout, hkeys, hdocs⟩ := ih hrest
    have hlisted : st.documentMatchesIndex field key d.document = .ok true := by
      rw [documentMatchesIndex_eq, hschema, hkey]
      simp [Except.map]
    refine ⟨⟨k, d.document, d.version⟩ :: out, ?_, ?_, ?_⟩
    · simp only [lookupDocuments, hlive.read, ok_bind, hlisted,
        hown, hout, if_true, pure, Except.pure, decide_true]
    · rw [map_cons, hkeys]
    · exact forall_mem_cons.2 ⟨hlive, hdocs⟩

/-- The rows read for some keys, sorted by them, are in strict order and
are exactly the live documents the keys belong to. -/
theorem sorted_rows {ρ : Type} {key : ρ → RawKey} (read : ρ → SchemaReadResult)
    {keys : List RawKey} {out : List ρ} {P : SchemaReadResult → Prop} (hkeys : out.map key = keys)
    (hlive : ∀ r ∈ out, LiveDocument e schema (key r) (read r))
    (hrow : ∀ a b, key a = key b → read a = read b → a = b) (hdistinct : keys.Nodup)
    (hmem : ∀ k, k ∈ keys ↔ ∃ d, LiveDocument e schema k d ∧ P d) :
    (out.insertionSort fun a b => key a ≤ key b).Pairwise (fun a b => key a < key b)
      ∧ ∀ r, r ∈ out.insertionSort (fun a b => key a ≤ key b)
        ↔ LiveDocument e schema (key r) (read r) ∧ P (read r) := by
  subst hkeys
  constructor
  · have hsorted := List.pairwise_insertionSort (fun a b : ρ => key a ≤ key b) out
    have hperm := List.perm_insertionSort (fun a b : ρ => key a ≤ key b) out
    rw [← (hperm.map _).nodup_iff, List.Nodup, List.pairwise_map] at hdistinct
    exact (hsorted.and hdistinct).imp fun hab => Std.lt_of_le_of_ne hab.1 hab.2
  · intro r
    rw [mem_insertionSort]
    constructor
    · intro hr
      obtain ⟨d, hd, hP⟩ := (hmem _).1 (mem_map_of_mem hr)
      rw [(hlive r hr).unique hd]
      exact ⟨hd, hP⟩
    · intro ⟨hown, hP⟩
      obtain ⟨r', hr', hsame⟩ := mem_map.1 ((hmem _).2 ⟨_, hown, hP⟩)
      have hown' := hlive r' hr'
      rw [hsame] at hown'
      rw [hrow r r' hsame.symm (hown.unique hown')]
      exact hr'

end

-- ===== one collection

section

variable {e : Engine} {schema : Schema}

section

variable (h : IndexInv e) (hst : e.Installed schema st)

include h hst

/-- A live document by the value it is stored as. -/
theorem IndexInv.stores {k : RawKey} {d : SchemaReadResult} (hd : LiveDocument e schema k d) :
    ∃ v entries, e.raw.valueAt (schema.name, k) = some v
      ∧ schema.Stores k v d.document entries := by
  obtain ⟨v, hv, hdecoded⟩ := hd
  have hvalue := valueAt_of_live hv
  obtain ⟨document, entries, hstores⟩ := (h.covered _ st hst.lookup).stored k v hvalue
  rw [hst.schema_eq] at hstores
  obtain rfl := Except.ok.inj (hdecoded.symm.trans hstores.decoded)
  exact ⟨v, entries, hvalue, hstores⟩

/-- What is stored under a key is nothing, or a live document. -/
theorem IndexInv.valueAt_cases (k : RawKey) : e.raw.valueAt (schema.name, k) = none
      ∨ ∃ v d entries, e.raw.valueAt (schema.name, k) = some v ∧ LiveDocument e schema k d
        ∧ schema.Stores k v d.document entries := by
  cases hvalue : e.raw.valueAt (schema.name, k) with
  | none => exact Or.inl rfl
  | some v =>
    obtain ⟨document, entries, hstores⟩ := (h.covered _ st hst.lookup).stored k v hvalue
    rw [hst.schema_eq] at hstores
    obtain ⟨⟨_, version⟩, hc, rfl⟩ := Option.bind_eq_some_iff.1 hvalue
    exact Or.inr ⟨v, ⟨document, version⟩, entries, rfl, ⟨v, hc, hstores.decoded⟩, hstores⟩

/-- The keys under an entry are those of the documents that have it. -/
theorem IndexInv.mem_ids {idx : Nat} {f : IndexedField} (hf : schema.indexed[idx]? = some f)
    (key : SchemaExactIndexKey) (k : RawKey) :
    k ∈ st.indexes.ids ⟨idx, key⟩ ↔ ∃ d, LiveDocument e schema k d
      ∧ schema.documentKey d.document f = .ok (some key) := by
  rw [(h.covered _ st hst.lookup).files.mem_iff, hst.schema_eq]
  constructor
  · intro hmem
    rcases h.valueAt_cases hst k with hnone | ⟨v, d, entries, hvalue, hd, hstores⟩
    · simp [hnone, Schema.entriesAt] at hmem
    · rw [hvalue, hstores.entriesAt_eq, Schema.mem_entries hstores.entries_eq] at hmem
      obtain ⟨g, hg, hkey⟩ := hmem
      obtain rfl := Option.some.inj (hf.symm.trans hg)
      exact ⟨d, hd, hkey⟩
  · rintro ⟨d, hd, hkey⟩
    obtain ⟨v, entries, hvalue, hstores⟩ := h.stores hst hd
    rw [hvalue, hstores.entriesAt_eq, Schema.mem_entries hstores.entries_eq]
    exact ⟨f, hf, hkey⟩

theorem IndexInv.ensure : e.ensureSchemaIndexes schema = (e, .ok st) := by
  have hvalid := (h.covered _ st hst.lookup).wellFormed.valid
  rw [hst.schema_eq] at hvalid
  have hvalid := validateSchema_eq_ok.2 hvalid
  simp only [ensureSchemaIndexes, hvalid, hst.lookup, hst.schema_eq, ne_eq, not_true, if_false]

/-- A covered collection has exact indexes. -/
theorem IndexInv.exact : IndexExact e schema := by
  have hcovers := h.covered _ st hst.lookup
  have hwf := hcovers.wellFormed
  -- the position of an indexed field, and what a lookup finds there
  have hfield : ∀ f ∈ schema.indexed, ∃ idx, schema.indexed[idx]? = some f
        ∧ st.indexedField f.name = some (idx, f) := by
    intro f hf
    obtain ⟨idx, hidx⟩ := mem_iff_getElem?.1 hf
    refine ⟨idx, hidx, hwf.indexedField_eq ?_⟩
    rw [hst.schema_eq]
    exact hidx
  refine ⟨fun k v version hc => ?_, fun f hf key => ?_,
    fun f hf value key hkey => ?_, fun f hf value err herr => ?_⟩
  · obtain ⟨document, entries, hstores⟩ := hcovers.stored k v (valueAt_of_live hc)
    rw [hst.schema_eq] at hstores
    exact ⟨document, hstores.decoded, hstores.own⟩
  · obtain ⟨idx, hidx, hnamed⟩ := hfield f hf
    simp only [filed, hst.lookup, hnamed]
    exact ⟨hcovers.files.distinct _, h.mem_ids hst hidx key⟩
  · obtain ⟨idx, hidx, hnamed⟩ := hfield f hf
    have hkeys : st.lookupKeys f.name value = .ok (f, key, st.indexes.ids ⟨idx, key⟩) := by
      have hown : st.fieldKey f value = .ok key := by
        rw [← hkey, ← hst.schema_eq]
        rfl
      simp only [lookupKeys, hnamed, hown]
      rfl
    obtain ⟨out, hout, houtKeys, hdocs⟩ := lookupDocuments_eq
      hst.schema_eq (st.indexes.ids ⟨idx, key⟩) fun k hk => by
        obtain ⟨d, hd, hdkey⟩ := (h.mem_ids hst hidx key k).1 hk
        obtain ⟨v, entries, -, hstores⟩ := h.stores hst hd
        exact ⟨d, hd, hdkey, hstores.own⟩
    have hrows := sorted_rows (fun r => ⟨r.document, r.version⟩) houtKeys hdocs
      (by rintro ⟨⟩ ⟨⟩ ⟨⟩ ⟨⟩; rfl) (hcovers.files.distinct _) (h.mem_ids hst hidx key)
    refine ⟨_, ?_, hrows⟩
    simp only [lookupSchema, withIndexes, h.ensure hst, hkeys, ok_bind, hout]
    rfl
  · obtain ⟨idx, hidx, hnamed⟩ := hfield f hf
    have hown : st.fieldKey f value = .error err := by
      rw [← herr, ← hst.schema_eq]
      rfl
    simp only [lookupSchema, withIndexes, h.ensure hst, lookupKeys, hnamed, hown]
    rfl

end

end

-- ===== whole runs

section

variable {e e' : Engine} {schema other : Schema} {st st' : SchemaCollectionIndexes}

theorem Engine.Installed.declares (h : e.Installed schema st)
    (hdecl : e.Declares other e') : e'.Installed schema st := by
  cases hdecl with
  | known => exact h
  | new hnone hnew =>
    refine ⟨?_, h.schema_eq⟩
    rw [lookup_setIndexes_ne]
    · exact h.lookup
    · intro hname
      have hlookup := h.lookup
      rw [hname, hnone] at hlookup
      cases hlookup

/-- New indexes for a declared schema. -/
theorem Engine.Installed.set {st₁ : SchemaCollectionIndexes}
    (h : e.Installed schema st) (hown : e.Installed other st₁)
    (hschema : st'.schema = st₁.schema) (raw : MfsStore) :
    ∃ st₂, (setIndexes { e with raw := raw } other.name st').Installed schema st₂ := by
  by_cases hname : schema.name = other.name
  · have hsame := h.lookup
    rw [hname, hown.lookup] at hsame
    obtain rfl := Option.some.inj hsame
    refine ⟨st', ?_, hschema.trans h.schema_eq⟩
    rw [hname]
    exact lookup_setIndexes ..
  · refine ⟨st, ?_, h.schema_eq⟩
    rw [lookup_setIndexes_ne _ _ hname]
    exact h.lookup

variable {crc32c : List UInt8 → UInt32} {hash : RawKey → UInt64} {f64Add : UInt64 → UInt64 → UInt64}
  {call : SchemaCall} {out : Engine × SchemaReply}

section

variable (heffect : SchemaEffect crc32c hash f64Add e call out)

include heffect

/-- A declared schema stays declared. -/
theorem SchemaEffect.installed (h : e.Installed schema st) : ∃ st', out.1.Installed schema st' := by
  cases heffect with
  | quiet hdecl hack hnot => exact ⟨st, h.declares hdecl⟩
  | @created raw r r' e' hraw hdecl hst =>
    have hsame : Installed { e with raw := raw } schema st :=
      ⟨h.lookup, h.schema_eq⟩
    exact ⟨st, hsame.declares hdecl⟩
  | refused hdecl hst hw hopt heq hack hnot =>
    have h₁ := h.declares hdecl
    exact ⟨st, h₁.lookup, h₁.schema_eq⟩
  | @written e₁ st₁ w options raw result plan hdecl hst hw hopt heq =>
    have hkept : (st₁.applyWrite w.key plan).schema = st₁.schema := rfl
    exact (h.declares hdecl).set hst hkept raw
  | rebuilt hdecl hst hc hdocs hrebuilt =>
    exact (h.declares hdecl).set hst (schema_rebuildFromDocuments hrebuilt) _

/-- A collection that is created has its indexes. -/
theorem SchemaEffect.created_installed {id : Nat} (hreply : out.2 = .created (.ok id)) :
    ∃ st, out.1.Installed call.schema st := by
  cases heffect with
  | quiet _ _ hnot | refused _ _ _ _ _ _ hnot => exact absurd hreply (hnot id)
  | created hraw hdecl hst =>
    cases hreply
    exact hst id rfl
  | written _ _ _ _ _ | rebuilt _ _ _ _ _ => cases hreply

/-- The records stay, or one is written under a declared schema. -/
theorem SchemaEffect.contents (hs : e.raw.Sound) :
    (out.2.acknowledged = none ∧ out.1.raw.contents = e.raw.contents)
      ∨ ∃ w result st, call.attempt f64Add e = .ok w ∧ out.2 = .written (.ok result)
        ∧ out.1.Installed call.schema st ∧ out.1.raw.contents
          = update e.raw.contents (call.schema.name, w.key) (some ⟨w.value, result.version⟩) := by
  cases heffect with
  | quiet hdecl hack hnot => exact Or.inl ⟨hack, congrArg MfsStore.contents hdecl.raw_eq⟩
  | created hraw hdecl hst =>
    have hquiet := Quiet.create hash hs call.schema.name
    rw [hraw] at hquiet
    rw [hdecl.raw_eq]
    exact Or.inl ⟨rfl, hquiet.contents_eq⟩
  | refused hdecl hst hw hopt heq hack hnot =>
    rw [← hdecl.raw_eq] at hs ⊢
    exact Or.inl ⟨hack, (hs.writeWithHooks heq).2.1 _ rfl⟩
  | written hdecl hst hw hopt heq =>
    rw [← hdecl.raw_eq] at hs ⊢
    obtain ⟨-, hc, -⟩ := (hs.writeWithHooks heq).2.2 _ _ rfl
    exact Or.inr ⟨_, _, _, hw, rfl, ⟨lookup_setIndexes .., hst.schema_eq⟩, hc⟩
  | rebuilt hdecl hst hc hdocs hrebuilt =>
    exact Or.inl ⟨rfl, congrArg MfsStore.contents hdecl.raw_eq⟩

end

end

/-- A collection that was created under a schema has its indexes. -/
def IndexRel (history : List (SchemaCall × SchemaReply)) : Prop :=
  IndexInv e ∧ ∀ schema id, (.createSchemaCollection schema, .created (.ok id)) ∈ history →
      ∃ st, e.Installed schema st

variable (crc32c : List UInt8 → UInt32) (hash : RawKey → UInt64) (f64Add : UInt64 → UInt64 → UInt64)

theorem IndexRel.step {e : Engine} {history : List (SchemaCall × SchemaReply)}
    (h : IndexRel e history) (call : SchemaCall) :
    IndexRel (schemaCall crc32c hash f64Add e call).1
      (history ++ [(call, (schemaCall crc32c hash f64Add e call).2)]) := by
  have heffect := schemaCall_effect crc32c hash f64Add e call
  refine ⟨h.1.step heffect, fun schema id hmem => ?_⟩
  rcases mem_snoc.1 hmem with hold | hnew
  · obtain ⟨st, hst⟩ := h.2 schema id hold
    exact heffect.installed hst
  · obtain ⟨rfl, hreply⟩ := Prod.mk.inj hnew
    exact heffect.created_installed hreply.symm

/-- After any calls on a store that was opened empty, the indexes of a
collection created under a schema are exact. -/
theorem schema_indexes_exact (config : MfsStoreConfig) (file : Option (List UInt8)) (synced : Nat)
    (start : MfsStore) (hopen : openMemory config file synced = .ok start)
    (calls : List SchemaCall) (schema : Schema) (id : Nat)
    (hcreated : (.createSchemaCollection schema, .created (.ok id))
      ∈ trace (schemaCall crc32c hash f64Add) (Engine.opened start) calls) :
    IndexExact (exec (schemaCall crc32c hash f64Add) (Engine.opened start) calls) schema := by
  obtain ⟨-, rfl⟩ := openMemory_eq_ok.1 hopen
  have hstart : IndexRel (opened (fresh config file synced)) [] := by
    refine ⟨IndexInv.opened config file synced, fun schema id hmem => ?_⟩
    cases hmem
  have hrun := exec_sim IndexRel (fun e h call hrel _ => hrel.step crc32c hash f64Add call) hstart
    (guarded_true (opened (fresh config file synced)) calls)
  obtain ⟨st, hst⟩ := hrun.2 schema id hcreated
  exact hrun.1.exact hst

-- ===== rebuilds in two steps

/-- An engine with rebuilds under way: the indexes each has made of its
snapshot, and the collection they are for. -/
structure Rebuilding where
  engine : Engine
  pending : List (String × SchemaCollectionIndexes)

inductive RebuildStep where
  | call (call : SchemaCall)
  | snapshot (schema : Schema)
  | swap (i : Nat)

/-- No call is on a collection between the snapshot and the swap. -/
def undisturbed (w : Rebuilding) : RebuildStep → Bool
  | .call call => w.pending.all (·.1 ≠ call.schema.name)
  | _ => true

/-- What a rebuild makes depends on its snapshot, so it is made with it. -/
def rebuildStep (w : Rebuilding) : RebuildStep → Rebuilding × Unit
  | .call call => ({ w with engine := (schemaCall crc32c hash f64Add w.engine call).1 }, ())
  | .snapshot schema =>
    let e := (w.engine.ensureSchemaIndexes schema).1
    match e.rebuildSchemaIndexes schema with
    | (_, .error _) => ({ w with engine := e }, ())
    | (rebuilt, .ok _) => (⟨e, w.pending
        ++ (rebuilt.schemaIndexes.lookup schema.name).toList.map (schema.name, ·)⟩, ())
  | .swap i =>
    match w.pending[i]? with
    | none => (w, ())
    | some (name, rebuilt) => (⟨w.engine.setIndexes name rebuilt, w.pending.eraseIdx i⟩, ())

/-- The indexes that wait to be swapped in cover the documents, too. -/
structure RebuildInv (w : Rebuilding) : Prop where
  indexes : IndexInv w.engine
  pending : ∀ p ∈ w.pending,
    p.2.schema.name = p.1 ∧ Covers (fun k => w.engine.raw.valueAt (p.1, k)) p.2

theorem RebuildInv.step {w : Rebuilding} (h : RebuildInv w) {step : RebuildStep}
    (hquiet : undisturbed w step = true) :
    RebuildInv (rebuildStep crc32c hash f64Add w step).1 := by
  obtain ⟨hinv, hpending⟩ := h
  cases step with
  | call call =>
    have heffect := schemaCall_effect crc32c hash f64Add w.engine call
    refine ⟨hinv.step heffect, fun p hp => ?_⟩
    have hvalue : ∀ k, (schemaCall crc32c hash f64Add w.engine call).1.raw.valueAt (p.1, k)
        = w.engine.raw.valueAt (p.1, k) := by
      intro k
      rcases heffect.contents hinv.sound with ⟨-, hc⟩ | ⟨x, result, st, -, -, -, hc⟩
      · exact valueAt_of_contents_eq hc _
      · refine (valueAt_of_update hc _).trans (if_neg fun hname => ?_)
        exact of_decide_eq_true (all_eq_true.1 hquiet p hp) (Prod.mk.inj hname).1
    simp only [rebuildStep, hvalue]
    exact hpending p hp
  | snapshot schema =>
    have hdecl : w.engine.Declares schema (w.engine.ensureSchemaIndexes schema).1 := by
      obtain ⟨err, heq⟩ | ⟨e₁, st, heq, hdecl, -⟩ := ensureSchemaIndexes_cases w.engine schema
      · exact heq ▸ .known
      · exact heq ▸ hdecl
    simp only [rebuildStep]
    generalize (w.engine.ensureSchemaIndexes schema).1 = e at hdecl
    have hinv₁ := hinv.declares hdecl
    rw [← hdecl.raw_eq] at hpending
    have heffect := schemaCall_effect crc32c hash f64Add e (.rebuildSchemaIndexes schema)
    have hcontents := heffect.contents hinv₁.sound
    have hrebuilt := hinv₁.step heffect
    simp only [schemaCall] at hcontents hrebuilt
    split
    next => exact ⟨hinv₁, hpending⟩
    next heq =>
      rw [heq] at hcontents hrebuilt
      refine ⟨hinv₁, forall_mem_append.2 ⟨hpending, fun p hp => ?_⟩⟩
      obtain ⟨st, hst, rfl⟩ := mem_map.1 hp
      have hlookup := Option.mem_toList.1 hst
      have hcovers := hrebuilt.covered _ _ hlookup
      simp only [valueAt_of_contents_eq (hcontents.resolve_right (by simp)).2] at hcovers
      exact ⟨hrebuilt.named _ _ hlookup, hcovers⟩
  | swap i =>
    unfold rebuildStep
    dsimp only
    split
    next => exact ⟨hinv, hpending⟩
    next name st hp =>
      obtain ⟨hname, hcovers⟩ := hpending _ (mem_of_getElem? hp)
      refine ⟨hinv.set hinv.sound hname (fun _ _ _ => rfl) hcovers, fun p hp => ?_⟩
      exact hpending p (mem_of_mem_eraseIdx hp)

-- ===== calls that fail

-- ===== a collection

/-- Readings with a number, an indexed float that may be missing. -/
def readings : Schema :=
  ⟨"readings", [
    { SchemaField.new "id" .int64 with
      primary := true, indexed := true, unique := true },
    { SchemaField.new "x" .float with optional := true, indexed := true }],
    false, none⟩

/-- The reading `id` with the value `x`. -/
def reading (id : Int64) (x : SchemaValue) (h : x.ordered = true) : OrderedValue :=
  ⟨.object [("id", .int64 id), ("x", x)], ordered_object.2
    ⟨show [utf8 "id", utf8 "x"].Pairwise (· < ·) by decide, by simp [h, SchemaValue.ordered]⟩⟩

/-- Three readings, one of them replaced, one changed by an update and
one deleted, and calls that fail. -/
def readingCalls : List SchemaCall :=
  [.createSchemaCollection readings, .putSchema readings (reading 1 (.float 0) rfl) ⟨none, none⟩,
    .putSchema readings (reading 2 (.float 0) rfl) ⟨none, none⟩,
    .putSchema readings (reading 3 .null rfl) ⟨none, none⟩,
    .putSchema readings (reading 1 (.int64 9007199254740993) rfl) ⟨none, none⟩,
    .putSchema readings (reading 2 (.string "a") rfl) ⟨none, none⟩,
    .updateSchema readings (.int64 2) [⟨.set "x" (.float 0x8000000000000000), rfl⟩] ⟨none, none⟩,
    .deleteSchema readings (.int64 3) ⟨none, none⟩,
    .rebuildSchemaIndexes readings]

/-- The engine those calls leave. -/
def readingEngine : Engine :=
  exec (schemaCall (fun _ => 7) (fun _ => 0) fun a _ => a)
    (Engine.opened (MfsStore.fresh ⟨4, 8, .memoryOnly, false⟩ none 0))
    readingCalls

theorem schema_indexes_exact_readings : IndexExact readingEngine readings := by
  refine schema_indexes_exact (fun _ => 7) (fun _ => 0) (fun a _ => a)
    ⟨4, 8, .memoryOnly, false⟩ none 0
    (fresh ⟨4, 8, .memoryOnly, false⟩ none 0) rfl readingCalls
    readings 1 ?_
  have hcreate : ((opened (fresh ⟨4, 8, .memoryOnly, false⟩
      none 0)).createSchemaCollection (fun _ => 0) readings).2 = .ok 1 := by
    decide +kernel
  refine mem_cons.2 (Or.inl ?_)
  simp only [schemaCall, hcreate]

/-- A lookup of the float 2^53 returns the reading whose value is the
integer 2^53 + 1, and a lookup of zero does not return the reading whose
value is minus zero. -/
theorem lookup_by_key : ((readingEngine.lookupSchema readings "x"
        (.float 0x4340000000000000)).2.map fun out =>
          out.map fun r => r.document.field "x")
        = .ok [some (.int64 9007199254740993)]
      ∧ ((readingEngine.lookupSchema readings "x" (.float 0)).2.map fun out =>
          out.map fun r => r.document.field "x") = .ok []
      ∧ ((readingEngine.getSchema readings (.int64 2)).2.map fun r =>
          r.bind fun d => d.document.field "x")
        = .ok (some (.float 0x8000000000000000)) := by
  decide +kernel

end MemoryFirst.Store
