/-
Runs of a store under schemas: the collection as a map from primary keys
to documents.

# The specification

`DocumentMap` knows nothing of raw keys, bytes or indexes. A run's
acknowledged writes are entered in it one after another (`documents`): a
put and an update under the key their document has, with the version
they were answered with; a delete takes the document away. An update
starts from the document the map has.

# The result

`documents_refined` says of every run that the store holds exactly the
documents of that map, each under the raw key of its primary key, and
that reads answer from it (`MapRefined`). An update whose path leads
through the primary field's parents can change the primary key; the
document is then stored under its new key and the old one stays where
it was, in the map as in the store.
-/
import MemoryFirst.Store.Proofs.PrimaryKey
import MemoryFirst.Store.Proofs.SchemaReference
import MemoryFirst.Store.SchemaRuns

namespace MemoryFirst.Store

open Lib Engine MfsStore Function List

-- ===== the specification

abbrev DocumentMap := PrimaryKey → Option SchemaReadResult

namespace DocumentMap

/-- The map with the document under one key replaced. -/
def store (m : DocumentMap) (key : Option PrimaryKey) (d : Option SchemaReadResult) : DocumentMap :=
  match key with
  | none => m
  | some p => update m p d

section

variable (f64Add : UInt64 → UInt64 → UInt64) (schema : Schema)

/-- What a write does that was acknowledged with `version`. -/
def written (m : DocumentMap) (version : DocumentVersion) : SchemaCall → DocumentMap
  | .putSchema _ document _ =>
    m.store (schema.primaryKeyOf document.1) (some ⟨document.1, version⟩)
  | .deleteSchema _ primaryKey _ => m.store primaryKey.denotes none
  | .updateSchema _ primaryKey updates _ =>
    match primaryKey.denotes.bind m with
    | none => m
    | some current =>
      match updatedDocument f64Add schema current.document (updates.map Subtype.val) with
      | .error _ => m
      | .ok mutated => m.store (schema.primaryKeyOf mutated) (some ⟨mutated, version⟩)
  | _ => m

/-- Only the acknowledged writes of the schema change the map. -/
def apply (m : DocumentMap) : StoreCall × StoreReply → DocumentMap
  | (.schema call, .schema reply) =>
    match reply.acknowledged with
    | none => m
    | some result =>
      if call.schema = schema then
        m.written f64Add schema result.version call
      else m
  | _ => m

end

end DocumentMap

variable (f64Add : UInt64 → UInt64 → UInt64)

/-- The documents a run's answered calls leave. -/
def documents (schema : Schema) (history : List (StoreCall × StoreReply)) : DocumentMap :=
  history.foldl (DocumentMap.apply f64Add schema) fun _ => none

/-- The store keeps the map, and reads answer from it. -/
structure MapRefined (e : Engine) (schema : Schema) (m : DocumentMap) : Prop where
  /-- A valid document has a raw key, and two have the same one exactly
  if they have the same primary key. -/
  keyed : ∀ d d', validateDocument schema d = .ok () → validateDocument schema d' = .ok () →
      ∃ p p' k k', schema.primaryKeyOf d = some p ∧ schema.primaryKeyOf d' = some p'
        ∧ schemaDocumentRawKey schema d = .ok k
        ∧ schemaDocumentRawKey schema d' = .ok k' ∧ (k = k' ↔ p = p')
  stored : ∀ k d, LiveDocument e schema k d ↔ schemaDocumentRawKey schema d.document = .ok k
      ∧ ∃ p, schema.primaryKeyOf d.document = some p ∧ m p = some d
  got : ∀ value k, schemaPrimaryKeyRawKey schema value = .ok k → ∃ p, value.denotes = some p
      ∧ (e.getSchema schema value).2 = .ok (m p)
  /-- The distinct keys in the order of their first request, and what is
  there under each. -/
  gotAll : ∀ values, (∀ value ∈ values, ∃ k, schemaPrimaryKeyRawKey schema value = .ok k) →
      ∃ ps : List PrimaryKey, values.map SchemaValue.denotes = ps.map some
        ∧ (e.multiGetSchema schema values).2 = .ok (ps.eraseDups.filterMap m)
  /-- A value that is no key of the schema is rejected. -/
  rejected : ∀ values value err, value ∈ values → schemaPrimaryKeyRawKey schema value = .error err →
      (e.getSchema schema value).2 = .error err
        ∧ ∃ err', (e.multiGetSchema schema values).2 = .error err'

-- ===== one collection

/-- The live documents are those of the map. -/
structure Holds (e : Engine) (schema : Schema) (m : DocumentMap) : Prop where
  known : ∀ k d, LiveDocument e schema k d → ∃ p, schema.RawKeyOf p k ∧ m p = some d
  stored : ∀ p d, m p = some d → ∃ k, schema.RawKeyOf p k ∧ LiveDocument e schema k d

variable {m : DocumentMap}

section

variable {e e' : Engine} {schema : Schema} {p : PrimaryKey} {k : RawKey}

theorem Holds.live_iff (h : Holds e schema m) (hkey : schema.RawKeyOf p k) (d : SchemaReadResult) :
    LiveDocument e schema k d ↔ m p = some d := by
  constructor
  · intro hlive
    obtain ⟨p', hkey', hm⟩ := h.known k d hlive
    rw [(hkey.inj_iff hkey').1 rfl]
    exact hm
  · intro hm
    obtain ⟨k', hkey', hlive⟩ := h.stored p d hm
    rw [(hkey.inj_iff hkey').2 rfl]
    exact hlive

/-- The records of the collection are the same. -/
theorem Holds.same (h : Holds e schema m) (hc : ∀ k, e'.raw.contents (schema.name, k)
      = e.raw.contents (schema.name, k)) : Holds e' schema m := by
  have hlive : ∀ k d, LiveDocument e' schema k d ↔
      LiveDocument e schema k d := by
    intro k d
    rw [LiveDocument, hc, LiveDocument]
  refine ⟨fun k d hd => h.known k d ((hlive k d).1 hd), fun p d hm => ?_⟩
  obtain ⟨k, hkey, hd⟩ := h.stored p d hm
  exact ⟨k, hkey, (hlive k d).2 hd⟩

variable {w : DocumentWrite} {version : DocumentVersion}

/-- What is live under the key of a write is what it wrote. -/
theorem liveDocument_written (hvalid : w.Valid schema)
    (hc : e'.raw.contents (schema.name, w.key) = some ⟨w.value, version⟩) (d : SchemaReadResult) :
    LiveDocument e' schema w.key d ↔ w.document.map (⟨·, version⟩) = some d := by
  unfold LiveDocument
  rw [hc]
  cases hdoc : w.document with
  | none =>
    have hnone : w.value = none := by
      rw [DocumentWrite.value, hdoc]
      rfl
    rw [hnone]
    simp
  | some document =>
    obtain ⟨-, hdocument, hordered⟩ := hvalid document hdoc
    have hread := Schema.decodeSchemaRawValue_encode hdocument hordered
    have hsome : w.value = some (encodeSchemaValue document) := by
      rw [DocumentWrite.value, hdoc]
      rfl
    rw [hsome]
    constructor
    · rintro ⟨v, hv, hd⟩
      cases hv
      rw [Except.ok.inj (hread.symm.trans hd)]
      rfl
    · intro hd
      cases hd
      exact ⟨_, rfl, hread⟩

/-- A write replaces the document under its key. -/
theorem Holds.written (h : Holds e schema m) (hvalid : w.Valid schema)
    (hkey : schema.RawKeyOf p w.key) (hc : e'.raw.contents = update e.raw.contents
      (schema.name, w.key) (some ⟨w.value, version⟩)) :
    Holds e' schema (update m p (w.document.map (⟨·, version⟩))) := by
  have hown : ∀ d, LiveDocument e' schema w.key d ↔ w.document.map (⟨·, version⟩) = some d :=
    liveDocument_written hvalid (by rw [hc, update_self])
  have hother : ∀ k, k ≠ w.key → ∀ d, LiveDocument e' schema k d ↔
      LiveDocument e schema k d := by
    intro k hk d
    rw [LiveDocument, hc, update_of_ne (by simp [hk]), LiveDocument]
  refine ⟨fun k d hd => ?_, fun p' d hm => ?_⟩
  · by_cases hk : k = w.key
    · subst hk
      refine ⟨p, hkey, ?_⟩
      rw [update_self]
      exact (hown d).1 hd
    obtain ⟨p', hkey', hm⟩ := h.known k d ((hother k hk d).1 hd)
    have hne : p' ≠ p := fun hp => hk ((hkey'.inj_iff hkey).2 hp)
    refine ⟨p', hkey', ?_⟩
    rw [update_of_ne hne]
    exact hm
  · by_cases hp : p' = p
    · subst hp
      rw [update_self] at hm
      exact ⟨w.key, hkey, (hown d).2 hm⟩
    rw [update_of_ne hp] at hm
    obtain ⟨k, hkey', hd⟩ := h.stored p' d hm
    have hne : k ≠ w.key := fun hk => hp ((hkey'.inj_iff hkey).1 hk)
    exact ⟨k, hkey', (hother k hne d).2 hd⟩

/-- A read by a raw key finds the live document. -/
theorem liveDocument_of_read {d : SchemaReadResult}
    (h : e.getSchemaByRawKey schema k = .ok (some d)) :
    LiveDocument e schema k d := by
  obtain ⟨raw, hraw, h⟩ := bind_eq_ok.1 h
  cases raw with
  | none => cases h
  | some raw =>
    obtain ⟨document, hdocument, h⟩ := bind_eq_ok.1 h
    cases h
    obtain ⟨c, hc, hraw⟩ := bind_eq_ok.1 hraw
    have hraw := Except.ok.inj hraw
    obtain ⟨r, hr, hvalue⟩ := Option.bind_eq_some_iff.1 hraw
    obtain ⟨v, hv, hread⟩ := Option.map_eq_some_iff.1 hvalue
    subst hread
    unfold rawCollection at hc
    split at hc
    next c' hlookup =>
      cases hc
      refine ⟨v, ?_, hdocument⟩
      rw [contents, hlookup, Option.bind_some, hr, ← hv]
    next => cases hc

/-- The write a call comes to is the one the map makes. -/
theorem Holds.attempt_written {call : SchemaCall} (h : Holds e call.schema m)
    (hw : call.attempt f64Add e = .ok w) (version : DocumentVersion) :
    ∃ p, call.schema.RawKeyOf p w.key ∧ m.written f64Add call.schema version call
        = update m p (w.document.map (⟨·, version⟩)) := by
  cases call with
  | putSchema schema document options =>
    obtain ⟨key, hkey, hw⟩ := bind_eq_ok.1 hw
    obtain ⟨⟨⟩, -, hw⟩ := bind_eq_ok.1 hw
    cases hw
    obtain ⟨p, hp, hraw⟩ := schemaDocumentRawKey_eq_ok hkey
    refine ⟨p, hraw, ?_⟩
    simp only [DocumentMap.written, SchemaCall.schema, hp]
    rfl
  | deleteSchema schema primaryKey options =>
    obtain ⟨key, hkey, hw⟩ := bind_eq_ok.1 hw
    cases hw
    obtain ⟨p, hp, hraw⟩ := schemaPrimaryKeyRawKey_eq_ok hkey
    refine ⟨p, hraw, ?_⟩
    simp only [DocumentMap.written, hp]
    rfl
  | updateSchema schema primaryKey updates options =>
    obtain ⟨key, hkey, hw⟩ := bind_eq_ok.1 hw
    obtain ⟨read, hread, hw⟩ := bind_eq_ok.1 hw
    cases read with
    | none => cases hw
    | some current =>
      obtain ⟨mutated, hmutated, hw⟩ := bind_eq_ok.1 hw
      obtain ⟨own, hown, hw⟩ := bind_eq_ok.1 hw
      cases hw
      obtain ⟨p, hp, hraw⟩ := schemaPrimaryKeyRawKey_eq_ok hkey
      obtain ⟨p', hp', hraw'⟩ := schemaDocumentRawKey_eq_ok hown
      have hm := (h.live_iff hraw current).1 (liveDocument_of_read hread)
      refine ⟨p', hraw', ?_⟩
      simp only [DocumentMap.written, SchemaCall.schema, hp, Option.bind_some, hm, hmutated, hp']
      rfl
  | createSchemaCollection _ | rebuildSchemaIndexes _ | getSchema _ _
  | lookupSchema _ _ _ => cases hw

end

-- ===== reads

section

variable {e : Engine} {schema : Schema} {st : SchemaCollectionIndexes}

section

variable (h : Holds e schema m) (hinv : IndexInv e) (hst : e.Installed schema st)
  (hmem : schema.name ∈ e.raw.collections)

include h hinv hst hmem

variable {value : SchemaValue}

/-- A get answers from the map and leaves the engine as it was. -/
theorem Holds.getSchema_eq {p : PrimaryKey} {k : RawKey}
    (hvalue : schemaPrimaryKeyRawKey schema value = .ok k)
    (hkey : schema.RawKeyOf p k) :
    e.getSchema schema value = (e, .ok (m p)) := by
  simp only [getSchema, hvalue, withIndexes, hinv.ensure hst, Prod.mk.injEq, true_and]
  cases hm : m p with
  | some d => exact ((h.live_iff hkey d).2 hm).read
  | none =>
    obtain ⟨c, hc⟩ := Option.isSome_iff_exists.1 (AList.lookup_isSome.2 hmem)
    have hraw : e.raw.getRaw schema.name k = .ok none := by
      simp only [getRaw, rawCollection, hc, ok_bind]
      cases hget : c.records.get k with
      | none => rfl
      | some r =>
        cases hv : r.value with
        | none =>
          rw [Option.bind_some, hv]
          rfl
        | some v =>
          -- a live value would be a document of the map
          have hcontents : e.raw.contents (schema.name, k) = some ⟨some v, r.version⟩ := by
            rw [contents, hc, Option.bind_some, hget, ← hv]
          obtain ⟨document, hd, -⟩ := (hinv.exact hst).documents k v r.version hcontents
          have hlive : LiveDocument e schema k ⟨document, r.version⟩ := ⟨v, hcontents, hd⟩
          rw [(h.live_iff hkey _).1 hlive] at hm
          cases hm
    simp only [getSchemaByRawKey, hraw, ok_bind]
    rfl

variable {values : List SchemaValue}

/-- The loop over requests that are all keys of the schema: those not
seen yet, each once. -/
theorem Holds.multiGetLoop_eq {ps seenKeys : List PrimaryKey} {seen : List RawKey}
    (hvalues : List.Forall₂ (fun value p => ∃ k,
      schemaPrimaryKeyRawKey schema value = .ok k ∧ schema.RawKeyOf p k)
      values ps)
    (hseen : ∀ p k, schema.RawKeyOf p k → (k ∈ seen ↔ p ∈ seenKeys)) :
    multiGetLoop schema seen values e
      = (e, .ok ((ps.filter (· ∉ seenKeys)).eraseDups.filterMap m)) := by
  induction hvalues generalizing seen seenKeys with
  | nil => rfl
  | @cons value p values ps hhead _ ih =>
    obtain ⟨k, hvalue, hkey⟩ := hhead
    simp only [multiGetLoop, hvalue]
    by_cases hk : k ∈ seen
    · have hp := (hseen p k hkey).1 hk
      rw [if_pos hk, ih hseen, filter_cons_of_neg (by simp [hp])]
    have hp : p ∉ seenKeys := mt (hseen p k hkey).2 hk
    have hseen' : ∀ p' k', schema.RawKeyOf p' k' → (k' ∈ k :: seen ↔ p' ∈ p :: seenKeys) := by
      intro p' k' hkey'
      rw [mem_cons, mem_cons, hkey'.inj_iff hkey, hseen p' k' hkey']
    have hrest : (ps.filter (· ∉ seenKeys)).filter (fun p' => !p' == p)
        = ps.filter (· ∉ p :: seenKeys) := by
      rw [filter_filter]
      refine filter_congr fun p' _ => ?_
      by_cases hsame : p' = p <;> simp [hsame]
    rw [if_neg hk, h.getSchema_eq hinv hst hmem hvalue hkey]
    simp only [ih hseen']
    rw [filter_cons_of_pos (by simp [hp]), eraseDups_cons, hrest, filterMap_cons]
    cases m p with
    | none | some _ => rfl

end

theorem multiGetLoop_error {value : SchemaValue} {values : List SchemaValue} {err : StoreError}
    (hvalue : schemaPrimaryKeyRawKey schema value = .error err) (hmem : value ∈ values)
    (seen : List RawKey) (e : Engine) :
    ∃ err', (multiGetLoop schema seen values e).2 = .error err' := by
  induction values generalizing seen e with
  | nil => cases hmem
  | cons v values ih =>
    rw [multiGetLoop]
    split
    next err' herr => exact ⟨err', rfl⟩
    next k hk =>
      have hmem : value ∈ values := by
        rcases mem_cons.1 hmem with rfl | hmem
        · rw [hvalue] at hk
          cases hk
        · exact hmem
      split
      case isTrue => exact ih hmem seen e
      case isFalse =>
        split
        next => exact ⟨_, rfl⟩
        next e₁ doc hget =>
          obtain ⟨err', herr⟩ := ih hmem (k :: seen) e₁
          split
          next => exact ⟨_, rfl⟩
          next heq =>
            rw [heq] at herr
            cases herr

/-- A collection that holds the map is refined by it. -/
theorem Holds.refined (h : Holds e schema m) (hinv : IndexInv e) (hst : e.Installed schema st)
    (hmem : schema.name ∈ e.raw.collections) : MapRefined e schema m := by
  refine ⟨fun d d' hd hd' => ?_, fun k d => ?_, fun value k hvalue => ?_,
    fun values hvalues => ?_, fun values value err hin herr => ?_⟩
  · obtain ⟨k, hk⟩ := rawKey_of_valid hd
    obtain ⟨k', hk'⟩ := rawKey_of_valid hd'
    obtain ⟨p, hp, hkey⟩ := schemaDocumentRawKey_eq_ok hk
    obtain ⟨p', hp', hkey'⟩ := schemaDocumentRawKey_eq_ok hk'
    exact ⟨p, p', k, k', hp, hp', hk, hk', hkey.inj_iff hkey'⟩
  · constructor
    · intro hd
      obtain ⟨v, entries, -, hstores⟩ := hinv.stores hst hd
      obtain ⟨p, hp, hkey⟩ := schemaDocumentRawKey_eq_ok hstores.own
      exact ⟨hstores.own, p, hp, (h.live_iff hkey d).1 hd⟩
    · rintro ⟨hown, p, hp, hm⟩
      obtain ⟨p', hp', hkey⟩ := schemaDocumentRawKey_eq_ok hown
      obtain rfl := Option.some.inj (hp.symm.trans hp')
      exact (h.live_iff hkey d).2 hm
  · obtain ⟨p, hp, hkey⟩ := schemaPrimaryKeyRawKey_eq_ok hvalue
    refine ⟨p, hp, ?_⟩
    rw [h.getSchema_eq hinv hst hmem hvalue hkey]
  · -- what the requests denote, one by one
    have hdenoted : ∃ ps, values.map SchemaValue.denotes = ps.map some
        ∧ List.Forall₂ (fun value p => ∃ k, schemaPrimaryKeyRawKey schema value = .ok k
            ∧ schema.RawKeyOf p k) values ps := by
      induction values with
      | nil => exact ⟨[], rfl, .nil⟩
      | cons value values ih =>
        obtain ⟨⟨k, hk⟩, hvalues⟩ := forall_mem_cons.1 hvalues
        obtain ⟨ps, hps, hall⟩ := ih hvalues
        obtain ⟨p, hp, hkey⟩ := schemaPrimaryKeyRawKey_eq_ok hk
        refine ⟨p :: ps, ?_, .cons ⟨k, hk, hkey⟩ hall⟩
        rw [map_cons, map_cons, hp, hps]
    obtain ⟨ps, hps, hall⟩ := hdenoted
    refine ⟨ps, hps, ?_⟩
    unfold multiGetSchema
    split
    case isTrue hnil =>
      subst hnil
      cases hall
      rfl
    case isFalse =>
      have hnone : ∀ p k, schema.RawKeyOf p k →
          (k ∈ ([] : List RawKey) ↔ p ∈ ([] : List PrimaryKey)) := by
        intro p k _
        simp
      rw [h.multiGetLoop_eq hinv hst hmem hall hnone]
      simp
  · constructor
    · simp only [getSchema, herr]
    · unfold multiGetSchema
      rw [if_neg (ne_nil_of_mem hin)]
      exact multiGetLoop_error herr hin [] e

end

-- ===== one call

/-- No other schema is declared for the collection. -/
def Engine.Free (e : Engine) (schema : Schema) : Prop :=
  ∀ st, e.schemaIndexes.lookup schema.name = some st → st.schema = schema

section

variable {crc32c : List UInt8 → UInt32} {hash : RawKey → UInt64} {f64Add : UInt64 → UInt64 → UInt64}
  {e e' : Engine} {schema : Schema} {call : SchemaCall} {out : Engine × SchemaReply}

/-- Declared schemas stay, so the collection was free before. -/
theorem SchemaEffect.free (heffect : SchemaEffect crc32c hash f64Add e call out)
    (hinv : IndexInv e) (h : out.1.Free schema) : e.Free schema := by
  intro st hlookup
  have hname := hinv.named _ st hlookup
  have hst : e.Installed st.schema st := by
    refine ⟨?_, rfl⟩
    rw [hname]
    exact hlookup
  obtain ⟨st', hst'⟩ := heffect.installed hst
  have hsame := hst'.lookup
  rw [hname] at hsame
  rw [← hst'.schema_eq]
  exact h st' hsame

variable {name : String}

/-- A collection that is there stays. -/
theorem SchemaEffect.mem_collections
    (heffect : SchemaEffect crc32c hash f64Add e call out)
    (h : name ∈ e.raw.collections) : name ∈ out.1.raw.collections := by
  cases heffect with
  | quiet hdecl hack hnot =>
    rw [hdecl.raw_eq]
    exact h
  | created hraw hdecl hst =>
    rw [hdecl.raw_eq]
    have hmem := mem_createRawCollection hash e.raw call.schema.name h
    rw [hraw] at hmem
    exact hmem
  | refused hdecl hst hw hopt heq hack hnot | written hdecl hst hw hopt heq =>
    rw [← hdecl.raw_eq] at h
    exact mem_writeWithHooks heq h
  | rebuilt hdecl hst hc hdocs hrebuilt =>
    rw [← hdecl.raw_eq] at h
    exact h

/-- The collection that was created is there. -/
theorem createSchemaCollection_mem {id : Nat}
    (h : (e.createSchemaCollection hash schema).2 = .ok id) :
    schema.name ∈ (e.createSchemaCollection hash schema).1.raw.collections := by
  unfold createSchemaCollection at h ⊢
  split at h
  next => cases h
  next =>
    split at h
    next => cases h
    next st hnew =>
      split at h
      next => cases h
      next raw id' hraw =>
        have hmem : schema.name ∈ raw.collections := by
          obtain ⟨-, hraw⟩ := of_ite_eq hraw nofun
          obtain ⟨-, hraw⟩ := of_ite_eq hraw nofun
          cases hraw
          exact (AList.mem_insert _).2 (Or.inl rfl)
        rcases installSchemaIndexes_cases { e with raw := raw } hnew
          with ⟨err, heq⟩ | ⟨e₁, st₁, heq, hdecl, -⟩
        · rw [heq] at h
          cases h
        · simp only [*]
          rw [hdecl.raw_eq]
          exact hmem

/-- Every effect of a call does to the documents what its answer says. -/
theorem Holds.step (h : Holds e schema m) (hinv : IndexInv e)
    (heffect : SchemaEffect crc32c hash f64Add e call out)
    (hfree : out.1.Free schema) :
    Holds out.1 schema (m.apply f64Add schema (.schema call, .schema out.2)) := by
  rcases heffect.contents hinv.sound with ⟨hack, hc⟩ | ⟨w, result, st, hw, hreply, hst, hc⟩
  · simp only [DocumentMap.apply, hack]
    exact h.same fun k => congrFun hc _
  · rw [hreply]
    show Holds _ _ (if call.schema = schema then m.written f64Add schema result.version call else m)
    split
    case isTrue hschema =>
      subst hschema
      obtain ⟨p, hkey, heq⟩ := h.attempt_written f64Add hw result.version
      rw [heq]
      exact h.written (SchemaCall.attempt_valid hw) hkey hc
    case isFalse hschema =>
      refine h.same fun k => ?_
      rw [hc, update_of_ne]
      intro hpair
      -- a collection of the name would have the other schema
      have hown := hfree st ((Prod.mk.inj hpair).1 ▸ hst.lookup)
      exact hschema (hst.schema_eq.symm.trans hown)

end

-- ===== whole runs

/-- Every collection holds the documents of the run, the indexes and the
reference maps are as the documents have them, and a collection that was
created under a schema is there, with both. -/
structure MapRel (f64Add : UInt64 → UInt64 → UInt64) (e : Engine)
    (history : List (StoreCall × StoreReply)) : Prop where
  indexes : IndexInv e
  references : RefInv e
  holds : ∀ schema, e.Free schema → Holds e schema (documents f64Add schema history)
  created : ∀ schema id, (.schema (.createSchemaCollection schema),
      .schema (.created (.ok id))) ∈ history →
    schema.name ∈ e.raw.collections ∧ ∃ st, e.Installed schema st

section

variable (crc32c : List UInt8 → UInt32) (hash : RawKey → UInt64) (f64Add : UInt64 → UInt64 → UInt64)
  {e : Engine} {history : List (StoreCall × StoreReply)}

section

variable {f64Add : UInt64 → UInt64 → UInt64} {e' : Engine}

/-- Declaring a schema is an effect of a call that changes nothing. -/
theorem MapRel.declares {schema : Schema} (h : MapRel f64Add e history)
    (hdecl : e.Declares schema e') : MapRel f64Add e' history := by
  have heffect : SchemaEffect (fun _ => 0) (fun _ => 0) f64Add e
      (.getSchema schema .null) (e', .read (.ok none)) :=
    .quiet hdecl rfl fun id h => nomatch h
  refine ⟨h.indexes.declares hdecl, h.references.declares h.indexes hdecl, fun other hfree => ?_,
    fun other id hmem => ?_⟩
  · exact (h.holds other (heffect.free h.indexes hfree)).step h.indexes heffect hfree
  · obtain ⟨hname, st, hst⟩ := h.created other id hmem
    exact ⟨heffect.mem_collections hname, st, hst.declares hdecl⟩

theorem MapRel.declaresAll (h : MapRel f64Add e history) (hdecl : e.DeclaresAll e') :
    MapRel f64Add e' history := by
  induction hdecl with
  | refl => exact h
  | tail _ hdecl ih =>
    obtain ⟨schema, hdecl⟩ := hdecl
    exact ih.declares hdecl

end

theorem documents_concat (schema : Schema) (history : List (StoreCall × StoreReply))
    (answered : StoreCall × StoreReply) :
    documents f64Add schema (history ++ [answered])
      = (documents f64Add schema history).apply f64Add schema answered :=
  foldl_concat ..

theorem MapRel.step (h : MapRel f64Add e history) (call : StoreCall) :
    MapRel f64Add (storeCall crc32c hash f64Add e call).1
      (history ++ [(call, (storeCall crc32c hash f64Add e call).2)]) := by
  rcases storeCall_cases crc32c hash f64Add e call with
    ⟨c, rfl, heq⟩ | ⟨hno, hreads⟩
  · have heffect := schemaCall_effect crc32c hash f64Add e c
    refine ⟨h.indexes.step heffect, h.references.step h.indexes heffect, fun schema hfree => ?_,
      fun schema id hmem => ?_⟩
    · rw [documents_concat]
      exact (h.holds schema (heffect.free h.indexes hfree)).step h.indexes heffect hfree
    · rcases mem_snoc.1 hmem with hold | hnew
      · obtain ⟨hname, st, hst⟩ := h.created schema id hold
        exact ⟨heffect.mem_collections hname, heffect.installed hst⟩
      obtain ⟨hcall, hreply⟩ := Prod.mk.inj hnew
      cases hcall
      have hreply := StoreReply.schema.inj hreply
      refine ⟨?_, heffect.created_installed hreply.symm⟩
      exact createSchemaCollection_mem (SchemaReply.created.inj hreply.symm)
  · have hall := h.declaresAll hreads
    refine ⟨hall.indexes, hall.references, fun schema hfree => ?_, fun schema id hmem => ?_⟩
    · have hsame : documents f64Add schema
          (history ++ [(call, (storeCall crc32c hash f64Add e call).2)])
          = documents f64Add schema history := by
        rw [documents_concat]
        cases call with
        | schema c => exact absurd rfl (hno c)
        | multiGetSchema _ _ | includeSchemaReference _ _ _
        | includeSchemaReverse _ _ _ _ => rfl
      rw [hsame]
      exact hall.holds schema hfree
    · rcases mem_snoc.1 hmem with hold | hnew
      · exact hall.created schema id hold
      · obtain ⟨hcall, -⟩ := Prod.mk.inj hnew
        exact absurd hcall.symm (hno _)

theorem MapRel.run {config : MfsStoreConfig} {file : Option (List UInt8)} {synced : Nat}
    {start : MfsStore} (hopen : openMemory config file synced = .ok start)
    (calls : List StoreCall) :
    MapRel f64Add (exec (storeCall crc32c hash f64Add) (Engine.opened start) calls)
      (trace (storeCall crc32c hash f64Add) (Engine.opened start) calls) := by
  obtain ⟨-, rfl⟩ := openMemory_eq_ok.1 hopen
  have hstart : MapRel f64Add (opened (fresh config file synced)) [] := by
    refine ⟨IndexInv.opened config file synced, RefInv.opened _, fun schema _ => ⟨?_, ?_⟩,
      fun schema id hmem => ?_⟩
    · rintro k d ⟨v, hv, -⟩
      cases hv
    · intro p d hm
      cases hm
    · cases hmem
  exact exec_sim (MapRel f64Add) (fun e h call hrel _ => hrel.step crc32c hash f64Add call) hstart
    (guarded_true _ calls)

/-- After any calls on a store that was opened empty, a collection
created under a schema is the map of the acknowledged writes. -/
theorem documents_refined (config : MfsStoreConfig)
    (file : Option (List UInt8)) (synced : Nat) (start : MfsStore)
    (hopen : openMemory config file synced = .ok start)
    (calls : List StoreCall) (schema : Schema) (id : Nat)
    (hcreated : (.schema (.createSchemaCollection schema), .schema (.created (.ok id)))
      ∈ trace (storeCall crc32c hash f64Add) (Engine.opened start) calls) :
    MapRefined (exec (storeCall crc32c hash f64Add) (Engine.opened start) calls) schema
      (documents f64Add schema (trace (storeCall crc32c hash f64Add)
        (Engine.opened start) calls)) := by
  have hrun := MapRel.run crc32c hash f64Add hopen calls
  obtain ⟨hname, st, hst⟩ := hrun.created schema id hcreated
  have hfree : (exec (storeCall crc32c hash f64Add) (opened start) calls).Free schema := by
    intro st' hst'
    rw [hst.lookup] at hst'
    cases hst'
    exact hst.schema_eq
  exact (hrun.holds schema hfree).refined hrun.indexes hst hname

end

-- ===== a collection

/-- The calls on the readings, and a request for four of them: one is
asked for twice, under either width, and one is not there. -/
def readingRequests : List StoreCall :=
  readingCalls.map .schema ++ [.multiGetSchema readings [.int64 2, .int32 1, .int32 2, .int64 3]]

theorem documents_refined_readings :
    MapRefined (exec (storeCall (fun _ => 7) (fun _ => 0) fun a _ => a)
        (Engine.opened (MfsStore.fresh ⟨4, 8, .memoryOnly, false⟩ none 0))
        readingRequests) readings
      (documents (fun a _ => a) readings (trace (storeCall (fun _ => 7) (fun _ => 0) fun a _ => a)
          (Engine.opened (MfsStore.fresh ⟨4, 8, .memoryOnly, false⟩ none 0))
          readingRequests)) := by
  refine documents_refined (fun _ => 7) (fun _ => 0) (fun a _ => a)
    ⟨4, 8, .memoryOnly, false⟩ none 0
    (fresh ⟨4, 8, .memoryOnly, false⟩ none 0) rfl readingRequests
    readings 1 ?_
  have hcreate : ((opened (fresh ⟨4, 8, .memoryOnly, false⟩
      none 0)).createSchemaCollection (fun _ => 0) readings).2 = .ok 1 := by
    decide +kernel
  refine mem_cons.2 (Or.inl ?_)
  simp only [storeCall, schemaCall, hcreate]

/-- Of the four requests two are answered, the first one first. -/
example : ((readingEngine.multiGetSchema readings
      [.int64 2, .int32 1, .int32 2, .int64 3]).2.map fun out =>
        out.map fun d => (d.document.field "id", d.version))
    = .ok [(some (.int64 2), 2), (some (.int64 1), 2)] := by
  decide +kernel

end MemoryFirst.Store
