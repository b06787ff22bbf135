/-
Unique fields over restarts.

# The world

A store under schemas with its WAL and its checkpoint directory, as in
the crash runs. A recovery rebuilds the records and none of the indexes:
the first call that names a schema declares it with empty ones.

# The specification

`UniqueValues`: no two live documents have the same value in a unique
field. What is compared is the value as the field's type has it, the
index key, so that an `Int32` and an `Int64` of one number are the same.

# The result

A put looks for other holders of its values in the index alone. After a
recovery the index does not list the documents that are there, and a put
of a taken value goes through: `duplicate_after_recovery`. The field
stays unique in every run whose puts and updates find all documents
listed (`unique_values_kept`), as they are after
`rebuild_schema_indexes`.
-/
import MemoryFirst.Store.Proofs.StoreRecoveries
import MemoryFirst.Store.SchemaRuns

namespace MemoryFirst.Store

open Lib Wal Checkpoint SchemaCollectionIndexes MfsStore Engine Function List

-- ===== the world

/-- A running system: the store, or the error of its last recovery, and
what survives it. -/
structure SchemaWorld where
  engine : StoreResult Engine
  dir : CheckpointDir
  lastAcknowledged : Lsn

inductive SchemaAction where
  | call (call : SchemaCall)
  | checkpoint
  | crash (kept : Nat)

variable (crc32c : List UInt8 → UInt32)

section

variable (hash : RawKey → UInt64) (f64Add : UInt64 → UInt64 → UInt64)

/-- The LSN of the last acknowledged write, after one more answer. -/
def SchemaReply.lastLsn (last : Lsn) (reply : SchemaReply) : Lsn :=
  (reply.acknowledged.bind WriteResult.lsn).getD last

/-- A store that was not recovered takes no actions. -/
def schemaStep (w : SchemaWorld) (action : SchemaAction) : SchemaWorld × Unit :=
  match w.engine with
  | .error _ => (w, ())
  | .ok e =>
    match action with
    | .call call =>
      let (e, reply) := schemaCall crc32c hash f64Add e call
      ({ w with
          engine := .ok e
          lastAcknowledged := reply.lastLsn w.lastAcknowledged }, ())
    | .checkpoint =>
      ({ w with
          dir := (writeRawCheckpointToDir crc32c w.dir e.raw
            w.lastAcknowledged).1 }, ())
    | .crash kept =>
      let file := e.raw.survivingFile kept
      ({ w with
          engine := (recoverRawCheckpointThenWal crc32c hash w.dir
            e.raw.config file (file.getD []).length).map
              fun recovery => Engine.opened recovery.engine }, ())

/-- An opened store without checkpoints. -/
def SchemaWorld.opened (s : MfsStore) : SchemaWorld :=
  ⟨.ok (Engine.opened s), ∅, 0⟩

end

-- ===== the specification

/-- No two live documents have the same value in a unique field. -/
def UniqueValues (e : Engine) (schema : Schema) : Prop :=
  ∀ f ∈ schema.indexed, f.unique = true → ∀ key k k' d d',
    LiveDocument e schema k d → LiveDocument e schema k' d' →
    schema.documentKey d.document f = .ok (some key) →
    schema.documentKey d'.document f = .ok (some key) → k = k'

-- ===== the condition

/-- The keys the collection's index has under an entry. -/
def Engine.listed (e : Engine) (name : String) (x : PreparedIndexEntry) : List RawKey :=
  match e.schemaIndexes.lookup name with
  | none => []
  | some st => st.indexes.ids x

/-- The index lists every live document under its values in the unique
fields. -/
def Engine.Lists (e : Engine) (schema : Schema) : Prop :=
  ∀ c ∈ e.raw.rawSnapshot.collections, c.name = schema.name →
    ∀ r ∈ c.records, ∀ x ∈ schema.entriesAt r.value,
      ∀ f ∈ schema.indexed[x.fieldIdx]?, f.unique = true → r.key ∈ e.listed schema.name x

instance (e : Engine) (schema : Schema) : Decidable (e.Lists schema) :=
  inferInstanceAs (Decidable (∀ c ∈ e.raw.rawSnapshot.collections,
    c.name = schema.name → ∀ r ∈ c.records,
      ∀ x ∈ schema.entriesAt r.value, ∀ f ∈ schema.indexed[x.fieldIdx]?,
        f.unique = true → r.key ∈ e.listed schema.name x))

section

variable (f64Add : UInt64 → UInt64 → UInt64) (schema : Schema)

/-- What the code does not check before a call. -/
def SafeSchemaCall (e : Engine) (call : SchemaCall) : Prop :=
  (call.schema.name = schema.name → call.schema = schema) ∧ ∀ w ∈ (call.attempt f64Add e).toOption,
      -- no write goes to the log where others do not, or the other way
      (call.durability.getD e.raw.config.durability).logged = e.raw.config.durability.logged
        ∧ (e.raw.config.durability.logged = true →
          e.raw.SafeAppend crc32c call.schema.name w.key w.value)
        ∧ e.raw.versionAt (call.schema.name, w.key) < u64Max
        ∧ (w.document.isSome = true → call.schema = schema → e.Lists schema)

/-- What the code does not check before a call, a checkpoint or a
recovery. -/
def SafeSchemaAction (w : SchemaWorld) (action : SchemaAction) : Prop :=
  match w.engine with
  | .error _ => True
  | .ok e =>
    match action with
    | .call call => SafeSchemaCall crc32c f64Add schema e call
    | .checkpoint => w.lastAcknowledged ≤ lastLsn 0 (recordsIn crc32c e.raw.file)
    | .crash kept =>
      -- the WAL that is left reaches the latest checkpoint
      (recoveryStart (latestCheckpoint crc32c w.dir)).2
        ≤ lastLsn 0 (recordsIn crc32c (e.raw.survivingFile kept))

end

instance (crc32c : List UInt8 → UInt32)
    (f64Add : UInt64 → UInt64 → UInt64) (schema : Schema) (e : Engine)
    (call : SchemaCall) :
    Decidable (SafeSchemaCall crc32c f64Add schema e call) :=
  inferInstanceAs (Decidable (_ ∧ _))

instance (crc32c : List UInt8 → UInt32) (f64Add : UInt64 → UInt64 → UInt64) (schema : Schema)
    (w : SchemaWorld) (action : SchemaAction) :
    Decidable (SafeSchemaAction crc32c f64Add schema w action) := by
  unfold SafeSchemaAction
  split
  · infer_instance
  · split <;> infer_instance

-- ===== unique contents

/-- The value of the collection's record under a key. -/
def Contents.valueOf (c : Contents) (schema : Schema) (k : RawKey) : Option RawValue :=
  (c (schema.name, k)).bind RawRecord.value

open Contents (valueOf)

/-- Every value is a document under its own key, and no entry of a unique
field has two documents. -/
structure Distinct (schema : Schema) (c : Contents) : Prop where
  stored : ∀ k v, valueOf c schema k = some v →
    ∃ document entries, schema.Stores k v document entries
  unique : ∀ (x : PreparedIndexEntry) (f : IndexedField),
    schema.indexed[x.fieldIdx]? = some f → f.unique = true → ∀ k k',
      x ∈ schema.entriesAt (valueOf c schema k) →
      x ∈ schema.entriesAt (valueOf c schema k') → k = k'

variable {schema : Schema}

section

variable {c : Contents} {e : Engine}

theorem distinct_empty (schema : Schema) : Distinct schema fun _ => none := by
  constructor
  · intro k v hv
    cases hv
  · intro x f hf hunique k k' hmem
    cases hmem

variable {key : RawKey}

/-- Another collection is written. -/
theorem Distinct.other (h : Distinct schema c) {name : String} {r : RawRecord}
    (hname : name ≠ schema.name) :
    Distinct schema (update c (name, key) (some r)) := by
  have hvalue : ∀ k, valueOf (update c (name, key) (some r)) schema k
      = valueOf c schema k := by
    intro k
    unfold valueOf
    rw [update_of_ne]
    intro heq
    exact hname (Prod.mk.inj heq).1.symm
  constructor
  · intro k v hv
    rw [hvalue] at hv
    exact h.stored k v hv
  · intro x f hf hunique k k' hk hk'
    rw [hvalue] at hk hk'
    exact h.unique x f hf hunique k k' hk hk'

/-- A key of the collection is written, with a value none of whose unique
entries another document has. -/
theorem Distinct.write (h : Distinct schema c) {value : Option RawValue} {version : DocumentVersion}
    (hstored : ∀ v, value = some v → ∃ document entries, schema.Stores key v document entries)
    (hfree : ∀ x ∈ schema.entriesAt value, ∀ f,
      schema.indexed[x.fieldIdx]? = some f → f.unique = true →
        ∀ k, x ∈ schema.entriesAt (valueOf c schema k) → k = key) :
    Distinct schema (update c (schema.name, key) (some ⟨value, version⟩)) := by
  have hown : valueOf (update c (schema.name, key)
      (some ⟨value, version⟩)) schema key = value := by
    unfold valueOf
    rw [update_self]
    rfl
  have hother : ∀ k, k ≠ key → valueOf (update c
      (schema.name, key) (some ⟨value, version⟩)) schema k
      = valueOf c schema k := by
    intro k hk
    unfold valueOf
    rw [update_of_ne]
    intro heq
    exact hk (Prod.mk.inj heq).2
  constructor
  · intro k v hv
    by_cases hk : k = key
    · subst hk
      rw [hown] at hv
      exact hstored v hv
    · rw [hother k hk] at hv
      exact h.stored k v hv
  · intro x f hf hunique k k' hx hx'
    by_cases hk : k = key
    · subst hk
      by_cases hk' : k' = k
      · exact hk'.symm
      · rw [hown] at hx
        rw [hother k' hk'] at hx'
        exact (hfree x hx f hf hunique k' hx').symm
    rw [hother k hk] at hx
    by_cases hk' : k' = key
    · subst hk'
      rw [hown] at hx'
      exact hfree x hx' f hf hunique k hx
    · rw [hother k' hk'] at hx'
      exact h.unique x f hf hunique k k' hx hx'

/-- Distinct entries are distinct values. -/
theorem Distinct.uniqueValues (h : Distinct schema e.raw.contents) : UniqueValues e schema := by
  intro f hf hunique key k k' d d' hd hd' hkey hkey'
  obtain ⟨idx, hidx⟩ := mem_iff_getElem?.1 hf
  have hentry : ∀ k d, LiveDocument e schema k d →
      schema.documentKey d.document f = .ok (some key) →
      (⟨idx, key⟩ : PreparedIndexEntry) ∈ schema.entriesAt
        (valueOf e.raw.contents schema k) := by
    intro k d hd hkey
    obtain ⟨v, hv, hdecoded⟩ := hd
    have hvalue : valueOf e.raw.contents schema k = some v := valueAt_of_live hv
    obtain ⟨document, entries, hstores⟩ := h.stored k v hvalue
    obtain rfl := Except.ok.inj (hdecoded.symm.trans hstores.decoded)
    rw [hvalue, hstores.entriesAt_eq, Schema.mem_entries hstores.entries_eq]
    exact ⟨f, hidx, hkey⟩
  exact h.unique ⟨idx, key⟩ f hidx hunique k k' (hentry k d hd hkey) (hentry k' d' hd' hkey')

end

-- ===== one put

variable {st : SchemaCollectionIndexes}

section

variable {e e₁ : Engine} {f : IndexedField} {x : PreparedIndexEntry} {k : RawKey}
  {entries : List PreparedIndexEntry}

/-- A document that has the entry is one the check of the entry finds. -/
theorem rawDocumentMatchesIndex_of_stores (hschema : st.schema = schema)
    {raw : MfsStore} {v : RawValue} {document : SchemaValue}
    (hv : raw.valueAt (schema.name, k) = some v)
    (hstores : schema.Stores k v document entries) (hx : x ∈ entries)
    (hf : schema.indexed[x.fieldIdx]? = some f) :
    st.rawDocumentMatchesIndex raw k f x.key = .ok true := by
  subst hschema
  obtain ⟨g, hg, hkey⟩ := (Schema.mem_entries hstores.entries_eq).1
    (show (⟨x.fieldIdx, x.key⟩ : PreparedIndexEntry) ∈ entries from hx)
  obtain rfl := Option.some.inj (hf.symm.trans hg)
  obtain ⟨⟨_, version⟩, hrecord, rfl⟩ := Option.bind_eq_some_iff.1 hv
  have hmatch : st.documentMatchesIndex f x.key document = .ok true := by
    rw [documentMatchesIndex_eq, hkey]
    simp [Except.map]
  simp only [rawDocumentMatchesIndex, getRaw_of_live hrecord, ok_bind,
    hstores.decoded, hstores.own, ne_eq, not_true, if_false, hmatch]

/-- The listed documents are in the index a call then uses. -/
theorem Engine.Lists.mem_ids (h : e.Lists schema) (hs : e.raw.Sound)
    (hdecl : e.Declares schema e₁) (hst : e₁.Installed schema st)
    (hx : x ∈ schema.entriesAt (e.raw.valueAt (schema.name, k)))
    (hf : schema.indexed[x.fieldIdx]? = some f) (hunique : f.unique = true) :
    k ∈ st.indexes.ids x := by
  have hlisted : k ∈ e.listed schema.name x := by
    cases hc : e.raw.contents (schema.name, k) with
    | none =>
      rw [valueAt, hc] at hx
      cases hx
    | some record =>
      obtain ⟨c, hmem, hname, r, hr, hkey, hrecord⟩ := hs.holds_rawSnapshot.2 hc
      have hvalue : e.raw.valueAt (schema.name, k) = r.value := by
        rw [valueAt, hc, ← hrecord]
        rfl
      rw [hvalue] at hx
      have hkey : r.key = k := hkey
      rw [← hkey]
      exact h c hmem hname r hr x hx f hf hunique
  unfold listed at hlisted
  cases hdecl with
  | known =>
    rw [hst.lookup] at hlisted
    exact hlisted
  | new hnone hnew =>
    rw [hnone] at hlisted
    cases hlisted

/-- A put that finds all documents listed is of values nobody has. -/
theorem free_of_prepared {key : RawKey} (hi : Distinct schema e.raw.contents)
    (hs : e.raw.Sound) (hlists : e.Lists schema)
    (hdecl : e.Declares schema e₁) (hst : e₁.Installed schema st)
    (hwf : st.WellFormed) (h : st.validateUniqueConstraints e₁.raw key entries = .ok ())
    (hx : x ∈ entries) (hf : schema.indexed[x.fieldIdx]? = some f)
    (hunique : f.unique = true)
    (hk : x ∈ schema.entriesAt (valueOf e.raw.contents schema k)) : k = key := by
  by_contra hne
  have hids := hlists.mem_ids hs hdecl hst hk hf hunique
  have hfield : st.indexedFields[x.fieldIdx]? = some f := by
    rw [hwf.fields_eq, hst.schema_eq]
    exact hf
  have hfalse := validateUniqueConstraints_eq_ok h x hx f hfield hunique k hids hne
  cases hv : valueOf e.raw.contents schema k with
  | none =>
    rw [hv] at hk
    cases hk
  | some v =>
    obtain ⟨document, entries', hstores⟩ := hi.stored k v hv
    rw [hv, hstores.entriesAt_eq] at hk
    have hvalue : e₁.raw.valueAt (schema.name, k) = some v := by
      rw [hdecl.raw_eq]
      exact hv
    have htrue := rawDocumentMatchesIndex_of_stores hst.schema_eq hvalue hstores hk hf
    rw [hfalse] at htrue
    cases htrue

end

-- ===== the invariant

/-- The indexes are made for the schemas they are under. -/
def Declared (e : Engine) : Prop :=
  ∀ name st, e.schemaIndexes.lookup name = some st → st.WellFormed

variable {f64Add : UInt64 → UInt64 → UInt64} {crc32c : List UInt8 → UInt32}

section

variable {e e' : Engine}

theorem Declared.set (h : Declared e) (hwf : st.WellFormed) (name : String) (raw : MfsStore) :
    Declared (setIndexes { e with raw := raw } name st) := by
  intro other st' hst'
  rcases of_lookup_setIndexes hst' with ⟨rfl, rfl⟩ | ⟨-, hold⟩
  · exact hwf
  · exact h other st' hold

theorem Declared.declares (h : Declared e) (hdecl : e.Declares schema e') : Declared e' := by
  cases hdecl with
  | known => exact h
  | new hnone hnew => exact h.set (new_eq_ok hnew).2.1 _ e.raw

theorem Declared.step {hash : RawKey → UInt64} (h : Declared e) {call : SchemaCall}
    {out : Engine × SchemaReply}
    (heffect : SchemaEffect crc32c hash f64Add e call out) :
    Declared out.1 := by
  cases heffect with
  | quiet hdecl hack hnot => exact h.declares hdecl
  | @created raw r r' e' hraw hdecl hst =>
    have hsame : Declared { e with raw := raw } := h
    exact hsame.declares hdecl
  | refused hdecl hst hw hopt heq hack hnot =>
    have hsame := h.declares hdecl
    exact hsame
  | @written e₁ st w options raw result plan hdecl hst hw hopt heq =>
    have hwf := h.declares hdecl _ _ hst.lookup
    have hkept : (st.applyWrite w.key plan).WellFormed := ⟨hwf.valid, hwf.fields_eq⟩
    exact (h.declares hdecl).set hkept _ _
  | @rebuilt e₁ st rebuilt c documents hdecl hst hc hdocs hrebuilt =>
    have hwf := h.declares hdecl _ _ hst.lookup
    have hschema := schema_rebuildFromDocuments hrebuilt
    have hfields := fields_rebuildFromDocuments hrebuilt
    refine (h.declares hdecl).set ⟨?_, ?_⟩ _ e₁.raw
    · rw [hschema]
      exact hwf.valid
    · rw [hfields, hschema]
      exact hwf.fields_eq

end

/-- What a safe run keeps. -/
structure UniqueInv (crc32c : List UInt8 → UInt32) (config : MfsStoreConfig)
    (schema : Schema) (e : Engine) (dir : CheckpointDir) (last : Lsn)
    (rs ss : List RawWalRecord) : Prop where
  recovery : RecoveryInv (Distinct schema) crc32c config e.raw dir last rs ss
  declared : Declared e

-- ===== calls

section

variable {hash : RawKey → UInt64} {config : MfsStoreConfig} {e e₁ : Engine} {dir : CheckpointDir}
  {last : Lsn} {rs ss : List RawWalRecord} {call : SchemaCall}

/-- An unnamed schema is not valid, and no call on it does anything. -/
theorem schemaCall_unnamed (crc32c : List UInt8 → UInt32)
    (hash : RawKey → UInt64) (f64Add : UInt64 → UInt64 → UInt64)
    (e : Engine) (h : call.schema.name = "") :
    (schemaCall crc32c hash f64Add e call).1 = e
      ∧ (schemaCall crc32c hash f64Add e call).2.acknowledged = none := by
  obtain ⟨err, hinvalid⟩ : ∃ err, validateSchema call.schema = .error err := by
    refine ⟨.schemaDefinition call.schema.name .emptySchemaName, ?_⟩
    simp only [validateSchema, Schema.validate, validateCollectionName, h, failIf, if_true]
    rfl
  have hkey : ∀ primaryKey, schemaPrimaryKeyRawKey call.schema primaryKey = .error err := by
    intro primaryKey
    simp only [schemaPrimaryKeyRawKey, hinvalid]
    rfl
  have hensure : e.ensureSchemaIndexes call.schema = (e, .error err) := by
    simp only [ensureSchemaIndexes, hinvalid]
  cases call with
  | createSchemaCollection schema =>
    simp only [SchemaCall.schema] at hinvalid
    simp only [schemaCall, createSchemaCollection, hinvalid]
    exact ⟨trivial, rfl⟩
  | putSchema schema document options =>
    simp only [SchemaCall.schema] at hinvalid
    have hdocument : schemaDocumentRawKey schema document.1 = .error err := by
      simp only [schemaDocumentRawKey, hinvalid]
      rfl
    simp only [schemaCall, putSchema, hdocument]
    exact ⟨trivial, rfl⟩
  | deleteSchema schema primaryKey options =>
    simp only [SchemaCall.schema] at hkey
    simp only [schemaCall, deleteSchema, hkey]
    exact ⟨trivial, rfl⟩
  | updateSchema schema primaryKey updates options =>
    simp only [SchemaCall.schema] at hkey
    simp only [schemaCall, updateSchema, updateLoop, getSchema, hkey]
    exact ⟨trivial, rfl⟩
  | rebuildSchemaIndexes schema =>
    simp only [SchemaCall.schema] at hensure
    simp only [schemaCall, rebuildSchemaIndexes, withIndexes, hensure]
    exact ⟨trivial, rfl⟩
  | getSchema schema primaryKey =>
    simp only [SchemaCall.schema] at hkey
    simp only [schemaCall, getSchema, hkey]
    exact ⟨trivial, rfl⟩
  | lookupSchema schema field value =>
    simp only [SchemaCall.schema] at hensure
    simp only [schemaCall, lookupSchema, withIndexes, hensure]
    exact ⟨trivial, rfl⟩

variable {w : DocumentWrite}

/-- What a planned write leaves in the store is distinct. -/
theorem distinct_written (hi : Distinct schema e.raw.contents) (hs : e.raw.Sound)
    (hsame : call.schema.name = schema.name → call.schema = schema)
    (hdecl : e.Declares call.schema e₁)
    (hst : e₁.Installed call.schema st) (hwf : st.WellFormed) (hvalid : w.Valid call.schema)
    (hlists : w.document.isSome = true → call.schema = schema → e.Lists schema)
    {plan : SchemaIndexWritePlan}
    (hplan : (do
      let old ← oldDocument call.schema (e₁.raw.valueAt (call.schema.name, w.key))
      st.prepare e₁ w old) = .ok plan)
    (version : DocumentVersion) :
    Distinct schema (update e.raw.contents
      (call.schema.name, w.key) (some ⟨w.value, version⟩)) := by
  by_cases hname : call.schema.name = schema.name
  · obtain ⟨-, hnew, hstored, hunique⟩ := plan_entries hwf hst.schema_eq hvalid hplan
    have hschema := hsame hname
    rw [hschema] at hdecl hst hnew hstored ⊢
    refine hi.write ?_ ?_
    · intro v hv
      obtain ⟨document, -, hstores⟩ := hstored v hv
      exact ⟨document, _, hstores⟩
    · intro x hx f hf hfield k hk
      -- a delete has no entries, so this is a put
      cases hdocument : w.document with
      | none =>
        rw [DocumentWrite.value, hdocument] at hx
        cases hx
      | some document =>
        have hput : w.document.isSome = true := by
          rw [hdocument]
          rfl
        rw [← hnew] at hx
        exact free_of_prepared hi hs (hlists hput hschema) hdecl hst hwf
          (hunique hput) hx hf hfield hk
  · exact hi.other hname

section

variable (h : UniqueInv crc32c config schema e dir last rs ss)

include h

/-- A write under the indexes `st`, done or refused. -/
theorem UniqueInv.attempted (hash : RawKey → UInt64) (hpath : config.hasWalPath = true)
    (hsafe : SafeSchemaCall crc32c f64Add schema e call) (hdecl : e.Declares call.schema e₁)
    (hst : e₁.Installed call.schema st) (hw : call.attempt f64Add e = .ok w)
    {options : WriteOptions} (hopt : options.durability = call.durability) {raw : MfsStore}
    {result : StoreResult (WriteResult × SchemaIndexWritePlan)}
    (heq : e₁.writeDocument crc32c call.schema st w options = (raw, result)) :
    ∃ rs' ss', RecoveryInv (Distinct schema) crc32c config raw dir
      ((result.toOption.bind fun r => r.1.lsn).getD last) rs' ss' := by
  have hcrash := h.recovery.crash
  have hwf := h.declared.declares hdecl _ _ hst.lookup
  have hconfig := hcrash.config_eq
  obtain ⟨hsame, hwrite⟩ := hsafe
  have hcond := hwrite w (by rw [hw]; rfl)
  rw [hconfig, ← hopt] at hcond
  obtain ⟨hmode, happend, hversion, hlists⟩ := hcond
  let write : RawWrite := ⟨call.schema.name, w.key, w.value, options⟩
  -- what the write stores is distinct, if it was planned
  have hdistinct : ∀ plan version, (do
      let old ← oldDocument call.schema (e.raw.valueAt (call.schema.name, w.key))
      st.prepare e₁ w old) = .ok plan →
      Distinct schema (update e.raw.contents
        (call.schema.name, w.key) (some ⟨w.value, version⟩)) := by
    intro plan version hplan
    rw [← hdecl.raw_eq] at hplan
    exact distinct_written h.recovery.live hcrash.sound hsame hdecl hst hwf
      (SchemaCall.attempt_valid hw) hlists hplan version
  rw [writeDocument, hdecl.raw_eq] at heq
  have hplanned := (hcrash.sound.writeWithHooks heq).2.2
  cases hlogged : config.durability.logged with
  | true =>
    rw [← hconfig] at hpath hmode
    have hyes : (options.effectiveDurability e.raw.config.durability).logged = true := by
      rw [WriteOptions.effectiveDurability, hmode, hconfig, hlogged]
    rcases hcrash.logs.writeWithHooks hash hpath (happend hlogged) rfl hyes heq with
      ⟨err, rfl, hwal, hnot⟩ | ⟨lsn, version, plan, rfl, hw⟩
    · have hsync : RawCall.syncWal ≠ .createRawCollection "" := by simp
      exact ⟨rs, ss, h.recovery.quiet hsync (Quiet.of_walOnly hash .syncWal hcrash.sound hwal) hnot⟩
    have hw : Wrote crc32c hash rs e.raw raw (write.record lsn version) _ := hw
    refine ⟨_, _, h.recovery.write hlogged hw hversion ?_⟩
    rw [hw.contents_eq hcrash.sound]
    exact hdistinct plan version (hplanned _ plan rfl).1
  | false =>
    have hno : (write.mode e.raw).logged = false := by
      rw [RawWrite.mode, hconfig]
      exact hmode.trans hlogged
    rcases writeWithHooks_unlogged hash write hno heq with
      ⟨err, rfl, rfl⟩ | ⟨version, ack, plan, hack, hv, hmem, hroom, rfl, rfl⟩
    · exact ⟨rs, ss, h.recovery⟩
    refine ⟨rs, ss, h.recovery.unloggedWrite hlogged hv hmem hroom hversion ?_⟩
    rw [hcrash.sound.contents_withRecord hroom]
    exact hdistinct plan version (hplanned _ plan rfl).1

theorem UniqueInv.called (hash : RawKey → UInt64) (hpath : config.hasWalPath = true)
    (hsafe : SafeSchemaCall crc32c f64Add schema e call) :
    ∃ rs' ss', UniqueInv crc32c config schema (schemaCall crc32c hash f64Add e call).1 dir
      ((schemaCall crc32c hash f64Add e call).2.lastLsn last) rs' ss' := by
  by_cases hname : call.schema.name = ""
  · obtain ⟨hkept, hnone⟩ := schemaCall_unnamed crc32c hash f64Add e hname
    rw [hkept, SchemaReply.lastLsn, hnone]
    exact ⟨rs, ss, h⟩
  have hcrash := h.recovery.crash
  have heffect := schemaCall_effect crc32c hash f64Add e call
  have hdeclared := h.declared.step heffect
  generalize schemaCall crc32c hash f64Add e call = out
    at heffect hdeclared ⊢
  cases heffect with
  | quiet hdecl hack hnot =>
    rw [SchemaReply.lastLsn, hack]
    refine ⟨rs, ss, ?_, hdeclared⟩
    rw [hdecl.raw_eq]
    exact h.recovery
  | @created raw r r' e' hraw hdecl hst =>
    have hquiet := Quiet.create hash hcrash.sound call.schema.name
    have hnot := hcrash.logs.createRawCollection hash call.schema.name
    rw [hraw] at hquiet hnot
    refine ⟨rs, ss, ?_, hdeclared⟩
    rw [hdecl.raw_eq]
    refine h.recovery.quiet ?_ hquiet hnot
    intro heq
    exact hname (RawCall.createRawCollection.inj heq)
  | refused hdecl hst hw hopt heq hack hnot =>
    obtain ⟨rs', ss', hnext⟩ := h.attempted hash hpath hsafe hdecl hst hw hopt heq
    rw [SchemaReply.lastLsn, hack]
    exact ⟨rs', ss', hnext, hdeclared⟩
  | written hdecl hst hw hopt heq =>
    obtain ⟨rs', ss', hnext⟩ := h.attempted hash hpath hsafe hdecl hst hw hopt heq
    exact ⟨rs', ss', hnext, hdeclared⟩
  | @rebuilt e₁ st rebuilt c documents hdecl hst hc hdocs hrebuilt =>
    have hkept : RecoveryInv (Distinct schema) crc32c config e₁.raw dir
        last rs ss := by
      rw [hdecl.raw_eq]
      exact h.recovery
    exact ⟨rs, ss, hkept, hdeclared⟩

end

end

-- ===== whole runs

/-- The world is down, or its store keeps the invariant. -/
def UniqueRel (crc32c : List UInt8 → UInt32) (config : MfsStoreConfig)
    (schema : Schema) (w : SchemaWorld) : Prop :=
  ∀ e, w.engine = .ok e → ∃ rs ss, UniqueInv crc32c config schema e w.dir w.lastAcknowledged rs ss

variable {w : SchemaWorld}

/-- One safe action keeps the invariant. -/
theorem UniqueRel.step {crc32c : List UInt8 → UInt32} {f64Add : UInt64 → UInt64 → UInt64}
    (hash : RawKey → UInt64) {config : MfsStoreConfig}
    (hvalid : validateStoreConfig config = .ok ())
    (hpath : config.hasWalPath = true) {schema : Schema} (h : UniqueRel crc32c config schema w)
    {action : SchemaAction}
    (hsafe : SafeSchemaAction crc32c f64Add schema w action) :
    UniqueRel crc32c config schema (schemaStep crc32c hash f64Add w action).1 := by
  obtain ⟨engine, dir, last⟩ := w
  cases engine with
  | error err =>
    intro e he
    cases he
  | ok e =>
    obtain ⟨rs, ss, hi⟩ := h e rfl
    have hcrash := hi.recovery.crash
    cases action with
    | call call =>
      obtain ⟨rs', ss', hnext⟩ := hi.called hash hpath hsafe
      intro e' he'
      obtain rfl := Except.ok.inj he'
      exact ⟨rs', ss', hnext⟩
    | checkpoint =>
      simp only [SafeSchemaAction, hcrash.logs.recordsIn_eq] at hsafe
      intro e' he'
      obtain rfl := Except.ok.inj he'
      exact ⟨rs, ss, hi.recovery.checkpoint hsafe, hi.declared⟩
    | crash kept =>
      have hleft := (hcrash.logs.crashed kept).1.recordsIn_eq
      simp only [crashed] at hleft
      simp only [SafeSchemaAction, hleft] at hsafe
      intro e' he'
      simp only [schemaStep, hcrash.config_eq] at he'
      obtain ⟨recovery, heq, he'⟩ := bind_eq_ok.1 he'
      obtain rfl := Except.ok.inj he'
      refine ⟨_, _, hi.recovery.crashed hvalid hsafe heq, ?_⟩
      intro name st hst
      cases hst

-- ===== a collection

/-- Users with a number and an address nobody else has. -/
def users : Schema :=
  ⟨"users", [
    { SchemaField.new "id" .int64 with
      primary := true, indexed := true, unique := true },
    { SchemaField.new "mail" .string with indexed := true, unique := true }],
    false, none⟩

/-- The user `id` with the address `mail`. -/
def user (id : Int64) (mail : String) : OrderedValue :=
  ⟨.object [("id", .int64 id), ("mail", .string mail)], ordered_object.2
    ⟨show [utf8 "id", utf8 "mail"].Pairwise (· < ·) by decide, by simp [SchemaValue.ordered]⟩⟩

/-- Users are created and one is put, then there is a recovery. -/
def recoveredUsers : List SchemaAction :=
  [.call (.createSchemaCollection users),
    .call (.putSchema users (user 1 "a") ⟨none, none⟩), .crash 0]

/-- The world those actions and some more leave. -/
def usersAfter (actions : List SchemaAction) : SchemaWorld :=
  exec (schemaStep (fun _ => 7) (fun _ => 0) fun a _ => a)
    (SchemaWorld.opened (MfsStore.fresh ⟨4, 8, .walSync, true⟩ none 0))
    (recoveredUsers ++ actions)

/-- A world whose store is up. -/
theorem SchemaWorld.up (h : w.engine.toOption.isSome = true) : ∃ e, w.engine = .ok e := by
  obtain ⟨engine, dir, last⟩ := w
  cases engine with
  | error err => cases h
  | ok e => exact ⟨e, rfl⟩

/-- The index is rebuilt behind the recovery. The second user of an
address is then refused, one with another address is put, and there is a
checkpoint and a second recovery. -/
def rebuiltUsers : SchemaWorld :=
  usersAfter [.call (.rebuildSchemaIndexes users),
    .call (.putSchema users (user 2 "a") ⟨none, none⟩),
    .call (.putSchema users (user 3 "b") ⟨none, none⟩), .checkpoint,
    .crash 0]

/-- The second user of an address is put right behind the recovery. -/
def duplicateUsers : SchemaWorld :=
  usersAfter [.call (.putSchema users (user 2 "a") ⟨none, none⟩)]

end MemoryFirst.Store
