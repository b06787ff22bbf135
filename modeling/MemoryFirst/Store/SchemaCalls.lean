/-
The calls of a store under schemas, answered one by one, and what each
of them does.

# Values

The objects of the source are maps, so a value that is passed in has
its fields in order; the calls carry that with the value.

# Effects

`schemaCall_effect` is the only place that looks into the calls. A call
declares its schema if that is new, and beyond that does nothing,
creates a collection, attempts one write of a document, or rebuilds an
index (`SchemaEffect`). An update comes to the write of one document,
however often it is retried: `attempt` is the write a call comes to in
the state it is made in.
-/
import MemoryFirst.Store.Proofs.SchemaIndex
import MemoryFirst.Store.Proofs.WalErrors
import MemoryFirst.Store.SchemaMode

namespace MemoryFirst.Store

open Lib Engine

-- ===== the calls

/-- What an update sets is in order. -/
def FieldUpdate.ordered : FieldUpdate → Bool
  | .set _ value => value.ordered
  | _ => true

abbrev OrderedUpdate := { u : FieldUpdate // u.ordered = true }

inductive SchemaCall where
  | createSchemaCollection (schema : Schema)
  | putSchema (schema : Schema) (document : OrderedValue) (options : WriteOptions)
  | deleteSchema (schema : Schema) (primaryKey : SchemaValue) (options : WriteOptions)
  | updateSchema (schema : Schema) (primaryKey : SchemaValue)
      (updates : List OrderedUpdate) (options : WriteOptions)
  | rebuildSchemaIndexes (schema : Schema)
  | getSchema (schema : Schema) (primaryKey : SchemaValue)
  | lookupSchema (schema : Schema) (field : String) (value : SchemaValue)

inductive SchemaReply where
  | created (result : StoreResult Nat)
  | written (result : StoreResult WriteResult)
  | rebuilt (result : StoreResult Nat)
  | read (result : StoreResult (Option SchemaReadResult))
  | found (result : StoreResult (List SchemaLookupResult))

def SchemaCall.schema : SchemaCall → Schema
  | .createSchemaCollection schema => schema
  | .putSchema schema _ _ => schema
  | .deleteSchema schema _ _ => schema
  | .updateSchema schema _ _ _ => schema
  | .rebuildSchemaIndexes schema => schema
  | .getSchema schema _ => schema
  | .lookupSchema schema _ _ => schema

/-- The durability a write asks for. -/
def SchemaCall.durability : SchemaCall → Option DurabilityMode
  | .putSchema _ _ options => options.durability
  | .deleteSchema _ _ options => options.durability
  | .updateSchema _ _ _ options => options.durability
  | _ => none

section

variable (crc32c : List UInt8 → UInt32) (hash : RawKey → UInt64) (f64Add : UInt64 → UInt64 → UInt64)

def schemaCall (e : Engine) : SchemaCall → Engine × SchemaReply
  | .createSchemaCollection schema =>
    let (e, r) := e.createSchemaCollection hash schema
    (e, .created r)
  | .putSchema schema document options =>
    let (e, r) := e.putSchema crc32c schema document.1 options
    (e, .written r)
  | .deleteSchema schema primaryKey options =>
    let (e, r) := e.deleteSchema crc32c schema primaryKey options
    (e, .written r)
  | .updateSchema schema primaryKey updates options =>
    let (e, r) := Engine.updateSchema f64Add crc32c e schema primaryKey
      (updates.map Subtype.val) options
    (e, .written r)
  | .rebuildSchemaIndexes schema =>
    let (e, r) := e.rebuildSchemaIndexes schema
    (e, .rebuilt r)
  | .getSchema schema primaryKey =>
    let (e, r) := e.getSchema schema primaryKey
    (e, .read r)
  | .lookupSchema schema field value =>
    let (e, r) := e.lookupSchema schema field value
    (e, .found r)

end

/-- An opened store, on which nothing is declared. -/
def Engine.opened (s : MfsStore) : Engine := ⟨s, ∅⟩

-- ===== one document

/-- The document that is to be stored under a key, or none to delete
what is there. -/
structure DocumentWrite where
  key : RawKey
  document : Option SchemaValue

namespace DocumentWrite

/-- The stored bytes. -/
def value (w : DocumentWrite) : Option RawValue :=
  w.document.map encodeSchemaValue

/-- The document is under its own key and one of the schema's. -/
def Valid (schema : Schema) (w : DocumentWrite) : Prop :=
  ∀ document, w.document = some document → schemaDocumentRawKey schema document = .ok w.key
      ∧ validateDocument schema document = .ok ()
      ∧ document.ordered = true

end DocumentWrite

/-- What a put or a delete plans. -/
def SchemaCollectionIndexes.prepare (st : SchemaCollectionIndexes)
    (e : Engine) (w : DocumentWrite) (old : Option SchemaValue) :
    StoreResult SchemaIndexWritePlan :=
  match w.document with
  | some document => st.preparePut e.raw e.schemaOf w.key old document
  | none => st.prepareDelete e.schemaOf old

/-- The raw write of a document, with the plan made in front of it. -/
def Engine.writeDocument (crc32c : List UInt8 → UInt32) (e : Engine)
    (schema : Schema) (st : SchemaCollectionIndexes) (w : DocumentWrite)
    (options : WriteOptions) :
    MfsStore × StoreResult (WriteResult × SchemaIndexWritePlan) :=
  e.raw.writeWithHooks crc32c schema.name w.key w.value options fun oldRaw _ => do
      let old ← oldDocument schema oldRaw
      st.prepare e w old

/-- The write a call comes to, as far as the call itself decides it. -/
def SchemaCall.attempt (f64Add : UInt64 → UInt64 → UInt64) (e : Engine) :
    SchemaCall → StoreResult DocumentWrite
  | .putSchema schema document _ => do
    let key ← schemaDocumentRawKey schema document.1
    (validateDocument schema document.1).mapError (schemaDocumentError schema)
    return ⟨key, some document.1⟩
  | .deleteSchema schema primaryKey _ => do
    let key ← schemaPrimaryKeyRawKey schema primaryKey
    return ⟨key, none⟩
  | .updateSchema schema primaryKey updates _ => do
    let key ← schemaPrimaryKeyRawKey schema primaryKey
    match ← e.getSchemaByRawKey schema key with
    | none => throw (.documentNotFound schema.name)
    | some current => do
      let mutated ← updatedDocument f64Add schema current.document (updates.map Subtype.val)
      let key ← schemaDocumentRawKey schema mutated
      return ⟨key, some mutated⟩
  | call => throw (.documentNotFound call.schema.name)

-- ===== updates in order

variable {f64Add : UInt64 → UInt64 → UInt64}

theorem ordered_applyUpdate {primary : SchemaField}
    {document document' : SchemaValue} {update : FieldUpdate}
    (hd : document.ordered = true) (hu : update.ordered = true)
    (h : applyUpdate f64Add primary document update
      = .ok document') : document'.ordered = true := by
  obtain ⟨-, h⟩ := of_ite_eq h nofun
  cases update with
  | set field value =>
    have hset := SchemaValue.ordered_setField field hd hu
    simp only at h
    split at h
    next => cases h
    next heq =>
      cases h
      rw [heq] at hset
      exact hset
  | unset field =>
    cases h
    exact SchemaValue.ordered_unsetField field hd
  | increment field delta =>
    have hinc := SchemaValue.ordered_applyIncrement f64Add field delta hd
    simp only at h
    split at h
    next => cases h
    next heq =>
      cases h
      rw [heq] at hinc
      exact hinc

variable {schema : Schema} {updates : List OrderedUpdate}

/-- An updated document is valid and in order. -/
theorem updatedDocument_eq_ok {current mutated : SchemaValue}
    (h : updatedDocument f64Add schema current (updates.map Subtype.val) = .ok mutated) :
    validateDocument schema mutated = .ok () ∧ mutated.ordered = true := by
  obtain ⟨copy, hcopy, h⟩ := bind_eq_ok.1 h
  obtain ⟨primary, -, h⟩ := bind_eq_ok.1 h
  obtain ⟨result, hfold, h⟩ := bind_eq_ok.1 h
  obtain ⟨⟨⟩, hvalid, h⟩ := bind_eq_ok.1 h
  cases h
  refine ⟨mapError_eq_ok.1 hvalid, ?_⟩
  refine foldlM_inv (fun v => v.ordered = true) (fun a u a' hu ha hstep => ?_)
    (safe_of_decode (mapError_eq_ok.1 hcopy)).2 hfold
  obtain ⟨v, -, rfl⟩ := List.mem_map.1 hu
  exact ordered_applyUpdate ha v.2 hstep

variable {w : DocumentWrite} {call : SchemaCall}

theorem SchemaCall.attempt_valid {e : Engine} (h : call.attempt f64Add e = .ok w) :
    w.Valid call.schema := by
  cases call with
  | putSchema schema document options =>
    obtain ⟨key, hkey, h⟩ := bind_eq_ok.1 h
    obtain ⟨⟨⟩, hvalid, h⟩ := bind_eq_ok.1 h
    cases h
    intro d hd
    cases hd
    exact ⟨hkey, mapError_eq_ok.1 hvalid, document.2⟩
  | deleteSchema schema primaryKey options =>
    obtain ⟨key, hkey, h⟩ := bind_eq_ok.1 h
    cases h
    intro d hd
    cases hd
  | updateSchema schema primaryKey updates options =>
    obtain ⟨key, -, h⟩ := bind_eq_ok.1 h
    obtain ⟨read, -, h⟩ := bind_eq_ok.1 h
    cases read with
    | none => cases h
    | some current =>
      obtain ⟨mutated, hmutated, h⟩ := bind_eq_ok.1 h
      obtain ⟨key, hkey, h⟩ := bind_eq_ok.1 h
      cases h
      obtain ⟨hvalid, hordered⟩ := updatedDocument_eq_ok hmutated
      intro d hd
      cases hd
      exact ⟨hkey, hvalid, hordered⟩
  | createSchemaCollection _ | rebuildSchemaIndexes _ | getSchema _ _
  | lookupSchema _ _ _ => cases h

-- ===== declaring

namespace Engine

/-- The engine once the schema is declared; empty indexes are installed
if it is new. -/
inductive Declares (e : Engine) (schema : Schema) : Engine → Prop
  | known : Declares e schema e
  | new {st : SchemaCollectionIndexes} (hnone : e.schemaIndexes.lookup schema.name = none)
      (hnew : SchemaCollectionIndexes.new schema = .ok st) :
      Declares e schema (e.setIndexes schema.name st)

/-- The indexes of the schema. -/
structure Installed (e : Engine) (schema : Schema) (st : SchemaCollectionIndexes) : Prop where
  lookup : e.schemaIndexes.lookup schema.name = some st
  schema_eq : st.schema = schema

variable {e e' e'' : Engine}

theorem Declares.raw_eq (h : Declares e schema e') : e'.raw = e.raw := by
  cases h with
  | known | new _ _ => rfl

theorem lookup_setIndexes (e : Engine) (name : String) (st : SchemaCollectionIndexes) :
    (e.setIndexes name st).schemaIndexes.lookup name = some st :=
  AList.lookup_insert _

variable {name other : String}

theorem lookup_setIndexes_ne (e : Engine) (st : SchemaCollectionIndexes) (h : other ≠ name) :
    (e.setIndexes name st).schemaIndexes.lookup other = e.schemaIndexes.lookup other :=
  AList.lookup_insert_ne h

/-- What is under a name is what was set there, or was there before. -/
theorem of_lookup_setIndexes {st st' : SchemaCollectionIndexes}
    (h : (e.setIndexes name st).schemaIndexes.lookup other = some st') :
    other = name ∧ st' = st ∨ other ≠ name ∧ e.schemaIndexes.lookup other = some st' := by
  by_cases ho : other = name
  · subst ho
    rw [lookup_setIndexes] at h
    exact Or.inl ⟨rfl, (Option.some.inj h).symm⟩
  · rw [lookup_setIndexes_ne _ _ ho] at h
    exact Or.inr ⟨ho, h⟩

theorem Declares.trans (h : Declares e schema e')
    (h' : Declares e' schema e'') : Declares e schema e'' := by
  cases h' with
  | known => exact h
  | new hnone' hnew' =>
    cases h with
    | known => exact .new hnone' hnew'
    | new hnone hnew =>
      rw [lookup_setIndexes] at hnone'
      cases hnone'

theorem ensureSchemaIndexes_cases (e : Engine) (schema : Schema) :
    (∃ err, e.ensureSchemaIndexes schema = (e, .error err))
      ∨ ∃ e₁ st, e.ensureSchemaIndexes schema = (e₁, .ok st)
        ∧ Declares e schema e₁ ∧ Installed e₁ schema st := by
  unfold ensureSchemaIndexes
  split
  next => exact Or.inl ⟨_, rfl⟩
  next =>
    split
    next st hst =>
      split
      case isTrue => exact Or.inl ⟨_, rfl⟩
      case isFalse hsame => exact Or.inr ⟨e, st, rfl, .known, hst, not_not.1 hsame⟩
    next hnone =>
      split
      next => exact Or.inl ⟨_, rfl⟩
      next st hnew =>
        exact Or.inr ⟨_, st, rfl, .new hnone hnew, lookup_setIndexes ..,
          (SchemaCollectionIndexes.new_eq_ok hnew).1⟩

variable {st : SchemaCollectionIndexes}

theorem installSchemaIndexes_cases (e : Engine)
    (hnew : SchemaCollectionIndexes.new schema = .ok st) :
    (∃ err, e.installSchemaIndexes schema st = (e, .error err))
      ∨ ∃ e₁ st₁, e.installSchemaIndexes schema st = (e₁, .ok ())
        ∧ Declares e schema e₁ ∧ Installed e₁ schema st₁ := by
  unfold installSchemaIndexes
  split
  next existing hlookup =>
    split
    case isTrue => exact Or.inl ⟨_, rfl⟩
    case isFalse hsame =>
      exact Or.inr ⟨e, existing, rfl, .known, hlookup, not_not.1 hsame⟩
  next hnone =>
    exact Or.inr ⟨_, st, rfl, .new hnone hnew, lookup_setIndexes ..,
      (SchemaCollectionIndexes.new_eq_ok hnew).1⟩

theorem withIndexes_cases {α : Type} (e : Engine) (schema : Schema)
    (rest : Engine → SchemaCollectionIndexes → Engine × StoreResult α) :
    (∃ err, e.withIndexes schema rest = (e, .error err))
      ∨ ∃ e₁ st, Declares e schema e₁ ∧ Installed e₁ schema st
        ∧ e.withIndexes schema rest = rest e₁ st := by
  unfold withIndexes
  rcases ensureSchemaIndexes_cases e schema with
    ⟨err, heq⟩ | ⟨e₁, st, heq, hdecl, hst⟩
  · rw [heq]
    exact Or.inl ⟨err, rfl⟩
  · rw [heq]
    exact Or.inr ⟨e₁, st, hdecl, hst, rfl⟩

theorem withIndexes_rule {α : Type}
    {rest : Engine → SchemaCollectionIndexes → Engine × StoreResult α}
    (P : Engine × StoreResult α → Prop) (herr : ∀ err, P (e, .error err))
    (hok : ∀ e₁ st, Declares e schema e₁ → Installed e₁ schema st → P (rest e₁ st)) :
    P (e.withIndexes schema rest) := by
  rcases e.withIndexes_cases schema rest with ⟨err, heq⟩ | ⟨e₁, st, hdecl, hst, heq⟩
  · rw [heq]
    exact herr err
  · rw [heq]
    exact hok e₁ st hdecl hst

end Engine

-- ===== the effects

/-- The acknowledged write of an answer. -/
def SchemaReply.acknowledged : SchemaReply → Option WriteResult
  | .written (.ok result) => some result
  | _ => none

/-- What a call can do. -/
inductive SchemaEffect (crc32c : List UInt8 → UInt32)
    (hash : RawKey → UInt64) (f64Add : UInt64 → UInt64 → UInt64)
    (e : Engine) (call : SchemaCall) : Engine × SchemaReply → Prop
  /-- At most declare the schema. -/
  | quiet {e' : Engine} {reply : SchemaReply} (hdecl : e.Declares call.schema e')
      (hack : reply.acknowledged = none)
      (hnot : ∀ id, reply ≠ .created (.ok id)) :
      SchemaEffect crc32c hash f64Add e call (e', reply)
  /-- Create the collection of the schema, if it is not there. -/
  | created {raw : MfsStore} {r r' : StoreResult Nat} {e' : Engine}
      (hraw : e.raw.createRawCollection hash call.schema.name = (raw, r))
      (hdecl : Engine.Declares { e with raw := raw } call.schema e')
      (hst : ∀ id, r' = .ok id → ∃ st, e'.Installed call.schema st) :
      SchemaEffect crc32c hash f64Add e call (e', .created r')
  /-- Attempt a write in vain. -/
  | refused {e₁ : Engine} {st : SchemaCollectionIndexes}
      {w : DocumentWrite} {options : WriteOptions} {raw : MfsStore}
      {err : StoreError} {reply : SchemaReply}
      (hdecl : e.Declares call.schema e₁)
      (hst : e₁.Installed call.schema st)
      (hw : call.attempt f64Add e = .ok w)
      (hopt : options.durability = call.durability)
      (heq : e₁.writeDocument crc32c call.schema st w options
        = (raw, .error err)) (hack : reply.acknowledged = none)
      (hnot : ∀ id, reply ≠ .created (.ok id)) :
      SchemaEffect crc32c hash f64Add e call ({ e₁ with raw := raw }, reply)
  /-- Write a document, and its entries. -/
  | written {e₁ : Engine} {st : SchemaCollectionIndexes}
      {w : DocumentWrite} {options : WriteOptions} {raw : MfsStore}
      {result : WriteResult} {plan : SchemaIndexWritePlan}
      (hdecl : e.Declares call.schema e₁)
      (hst : e₁.Installed call.schema st)
      (hw : call.attempt f64Add e = .ok w)
      (hopt : options.durability = call.durability)
      (heq : e₁.writeDocument crc32c call.schema st w options = (raw, .ok (result, plan))) :
      SchemaEffect crc32c hash f64Add e call (setIndexes { e₁ with raw := raw } call.schema.name
          (st.applyWrite w.key plan), .written (.ok result))
  /-- Replace the index by one made of the stored documents. -/
  | rebuilt {e₁ : Engine} {st rebuilt : SchemaCollectionIndexes}
      {c : RawCollectionSnapshot} {documents : List (RawKey × SchemaValue)}
      (hdecl : e.Declares call.schema e₁)
      (hst : e₁.Installed call.schema st)
      (hc : (e₁.raw.rawSnapshot.collections.find? fun c =>
        c.name = call.schema.name) = some c)
      (hdocs : snapshotDocuments call.schema c.records = .ok documents)
      (hrebuilt : st.rebuildFromDocuments e₁.schemaOf documents = .ok rebuilt) :
      SchemaEffect crc32c hash f64Add e call (e₁.setIndexes call.schema.name rebuilt,
          .rebuilt (.ok documents.length))

section

variable {crc32c : List UInt8 → UInt32} {e : Engine} (hash : RawKey → UInt64)

theorem createSchemaCollection_effect (schema : Schema) :
    SchemaEffect crc32c hash f64Add e (.createSchemaCollection schema)
      (schemaCall crc32c hash f64Add e (.createSchemaCollection schema)) := by
  simp only [schemaCall, createSchemaCollection]
  split
  next => exact .quiet .known rfl (by simp)
  next =>
    split
    next => exact .quiet .known rfl (by simp)
    next st hnew =>
      split
      next raw err hraw => exact .created hraw .known (by simp)
      next raw id hraw =>
        rcases installSchemaIndexes_cases { e with raw := raw } hnew
          with ⟨err, heq⟩ | ⟨e₁, st₁, heq, hdecl, hst⟩
        · rw [heq]
          exact .created hraw .known (by simp)
        · rw [heq]
          exact .created hraw hdecl fun _ _ => ⟨st₁, hst⟩

variable {options : WriteOptions} {e₁ : Engine} {document : SchemaValue}
  {out : Engine × StoreResult WriteResult}

/-- A write under its indexes, attempted or done. -/
theorem writeIndexed_effect {st : SchemaCollectionIndexes} (hdecl : e.Declares call.schema e₁)
    (hst : e₁.Installed call.schema st)
    (hw : call.attempt f64Add e = .ok w)
    (hopt : options.durability = call.durability)
    (hout : e₁.writeIndexed crc32c call.schema st w.key w.value options (st.prepare e₁ w) = out) :
    SchemaEffect crc32c hash f64Add e call (out.1, .written out.2) := by
  subst hout
  unfold writeIndexed
  split
  next raw err heq => exact .refused hdecl hst hw hopt heq rfl (by simp)
  next raw result plan heq => exact .written hdecl hst hw hopt heq

theorem deleteSchema_effect (schema : Schema) (primaryKey : SchemaValue) (options : WriteOptions) :
    SchemaEffect crc32c hash f64Add e (.deleteSchema schema primaryKey options)
      (schemaCall crc32c hash f64Add e (.deleteSchema schema primaryKey options)) := by
  simp only [schemaCall, deleteSchema]
  cases hkey : schemaPrimaryKeyRawKey schema primaryKey with
  | error err => exact .quiet .known rfl (by simp)
  | ok key =>
    have hw : SchemaCall.attempt f64Add e
        (.deleteSchema schema primaryKey options) = .ok ⟨key, none⟩ := by
      simp only [SchemaCall.attempt, hkey]
      rfl
    exact withIndexes_rule (fun out => SchemaEffect crc32c hash f64Add e
        (.deleteSchema schema primaryKey options) (out.1, .written out.2))
      (fun err => .quiet .known rfl (by simp))
      (fun e₁ st hdecl hst => writeIndexed_effect hash hdecl hst hw rfl rfl)

theorem putSchema_cases (h : e.putSchema crc32c schema document options = out) :
    (∃ err, out = (e, .error err))
      ∨ ∃ e₁ st key, e.Declares schema e₁ ∧ e₁.Installed schema st
        ∧ schemaDocumentRawKey schema document = .ok key
        ∧ validateDocument schema document = .ok ()
        ∧ e₁.writeIndexed crc32c schema st key (DocumentWrite.value ⟨key, some document⟩) options
            (st.prepare e₁ ⟨key, some document⟩) = out := by
  subst h
  unfold putSchema
  split
  next => exact Or.inl ⟨_, rfl⟩
  next key hkey =>
    split
    next => exact Or.inl ⟨_, rfl⟩
    next hvalid =>
      rcases e.withIndexes_cases schema fun e st =>
          e.writeIndexed crc32c schema st key (some (encodeSchemaValue document)) options fun old =>
              st.preparePut e.raw e.schemaOf key old document with
        ⟨err, heq⟩ | ⟨e₁, st, hdecl, hst, heq⟩
      · exact Or.inl ⟨err, heq⟩
      · exact Or.inr ⟨e₁, st, key, hdecl, hst, hkey, hvalid, heq.symm⟩

theorem putSchema_effect (hash : RawKey → UInt64) (schema : Schema)
    (document : OrderedValue) (options : WriteOptions) :
    SchemaEffect crc32c hash f64Add e (.putSchema schema document options)
      (schemaCall crc32c hash f64Add e (.putSchema schema document options)) := by
  simp only [schemaCall]
  generalize hput : e.putSchema crc32c schema document.1 options = out
  rcases putSchema_cases hput with ⟨err, rfl⟩ | ⟨e₁, st, key, hdecl, hst, hkey, hvalid, hout⟩
  · exact .quiet .known rfl (by simp)
  have hw : SchemaCall.attempt f64Add e (.putSchema schema document options)
      = .ok ⟨key, some document.1⟩ := by
    simp only [SchemaCall.attempt, hkey, hvalid]
    rfl
  exact writeIndexed_effect hash (w := ⟨key, some document.1⟩) hdecl hst hw rfl hout

theorem getSchema_cases (e : Engine) (schema : Schema) (primaryKey : SchemaValue) :
    ∃ e₁ r, e.getSchema schema primaryKey = (e₁, r) ∧ e.Declares schema e₁
      ∧ ∀ read, r = .ok read → ∃ key, schemaPrimaryKeyRawKey schema primaryKey = .ok key
          ∧ e.getSchemaByRawKey schema key = .ok read := by
  unfold getSchema
  split
  next => exact ⟨e, _, rfl, .known, fun read h => by cases h⟩
  next key hkey =>
    rcases e.withIndexes_cases schema fun e _ =>
        (e, e.getSchemaByRawKey schema key) with
      ⟨err, heq⟩ | ⟨e₁, st, hdecl, hst, heq⟩
    · exact ⟨e, _, heq, .known, fun read h => by cases h⟩
    refine ⟨e₁, _, heq, hdecl, fun read h => ⟨key, hkey, ?_⟩⟩
    rw [← h]
    unfold getSchemaByRawKey
    rw [hdecl.raw_eq]

/-- One attempt of an update: it fails and leaves the engine as it was,
or it is a write that does not fail with a conflict. -/
theorem putSchema_attempt (call : SchemaCall) (h₁ : e.Declares call.schema e₁)
    (hw : ∀ key, schemaDocumentRawKey call.schema document = .ok key →
      call.attempt f64Add e = .ok ⟨key, some document⟩)
    (hput : e₁.putSchema crc32c call.schema document options = out)
    (hopt : options.durability = call.durability) :
    (∃ e₂ err, out = (e₂, .error err) ∧ e.Declares call.schema e₂)
      ∨ SchemaEffect crc32c hash f64Add e call (out.1, .written out.2)
        ∧ ∀ name key expected actual, out.2 ≠ .error (.conflict name key expected actual) := by
  rcases putSchema_cases hput with
    ⟨err, rfl⟩ | ⟨e₂, st, own, h₂, hst, hown, -, rfl⟩
  · exact Or.inl ⟨e₁, err, rfl, h₁⟩
  have h₂ := h₁.trans h₂
  by_cases hconflict : ∃ name key expected actual,
      (e₂.writeDocument crc32c call.schema st ⟨own, some document⟩
        options).2 = .error (.conflict name key expected actual)
  · obtain ⟨name, key, expected, actual, hc⟩ := hconflict
    have hraw : (e₂.writeDocument crc32c call.schema st ⟨own, some document⟩ options).1 = e₂.raw :=
      MfsStore.writeWithHooks_refused (Prod.ext rfl hc) (by rintro (⟨_, _, h⟩ | h) <;> cases h)
    have heq : e₂.writeDocument crc32c call.schema st ⟨own, some document⟩ options
        = (e₂.raw, .error (.conflict name key expected actual)) :=
      Prod.ext hraw hc
    refine Or.inl ⟨e₂, .conflict name key expected actual, ?_, h₂⟩
    unfold writeDocument at heq
    simp only [writeIndexed, heq]
  · refine Or.inr ⟨writeIndexed_effect hash (w := ⟨own, some document⟩)
      h₂ hst (hw own hown) hopt rfl, fun name key expected actual hc => ?_⟩
    refine hconflict ⟨name, key, expected, actual, ?_⟩
    unfold writeIndexed at hc
    unfold writeDocument
    split at hc
    next heq =>
      cases hc
      rw [heq]
    next => cases hc

/-- However often it is retried, an update is one attempt to write, in
the state it was called in. -/
theorem updateLoop_effect {primaryKey : SchemaValue} (attempts : Nat) {e₀ : Engine}
    (h₀ : e.Declares schema e₀) :
    SchemaEffect crc32c hash f64Add e (.updateSchema schema primaryKey updates options)
      ((updateLoop f64Add crc32c schema primaryKey (updates.map Subtype.val) options attempts e₀).1,
        .written (updateLoop f64Add crc32c schema primaryKey
          (updates.map Subtype.val) options attempts e₀).2) := by
  induction attempts generalizing e₀ with
  | zero => exact .quiet h₀ rfl (by simp)
  | succ attempts ih =>
    obtain ⟨e₁, r, hget, h₁, hread⟩ := getSchema_cases e₀ schema primaryKey
    have h₁ := h₀.trans h₁
    rw [updateLoop, hget]
    cases r with
    | error err => exact .quiet h₁ rfl (by simp)
    | ok read =>
    obtain ⟨key, hkey, hread⟩ := hread read rfl
    cases read with
    | none => exact .quiet h₁ rfl (by simp)
    | some current =>
    simp only
    cases hmutated : updatedDocument f64Add schema current.document (updates.map Subtype.val) with
    | error err => exact .quiet h₁ rfl (by simp)
    | ok mutated =>
    simp only
    have hw : ∀ own, schemaDocumentRawKey schema mutated = .ok own → SchemaCall.attempt f64Add e
          (.updateSchema schema primaryKey updates options)
          = .ok ⟨own, some mutated⟩ := by
      intro own hown
      have hraw : e.getSchemaByRawKey schema key = e₀.getSchemaByRawKey schema key := by
        unfold getSchemaByRawKey
        rw [h₀.raw_eq]
      simp only [SchemaCall.attempt, hkey, ok_bind, hraw, hread, hmutated, hown]
      rfl
    generalize hput : putSchema crc32c e₁ schema mutated _ = out
    rcases putSchema_attempt hash (.updateSchema schema primaryKey updates options) h₁ hw hput rfl
      with ⟨e₂, err, rfl, h₂⟩ | ⟨heffect, hno⟩
    · split
      next heq => cases heq
      next heq =>
        cases heq
        split
        · refine .quiet h₂ ?_ (by simp)
          cases schemaPrimaryKeyRawKey schema primaryKey <;> rfl
        · exact ih h₂
      next heq =>
        cases heq
        exact .quiet h₂ rfl (by simp)
    · split
      next => exact heffect
      next => exact absurd rfl (hno _ _ _ _)
      next => exact heffect

theorem rebuildSchemaIndexes_effect (schema : Schema) :
    SchemaEffect crc32c hash f64Add e (.rebuildSchemaIndexes schema)
      (schemaCall crc32c hash f64Add e (.rebuildSchemaIndexes schema)) := by
  refine withIndexes_rule (fun out => SchemaEffect crc32c hash f64Add e
      (.rebuildSchemaIndexes schema) (out.1, .rebuilt out.2))
    (fun err => .quiet .known rfl (by simp)) (fun e₁ st hdecl hst => ?_)
  split
  next => exact .quiet hdecl rfl (by simp)
  next c hc =>
    split
    next => exact .quiet hdecl rfl (by simp)
    next documents hdocs =>
      split
      next => exact .quiet hdecl rfl (by simp)
      next rebuilt hrebuilt => exact .rebuilt hdecl hst hc hdocs hrebuilt

/-- Every call does one of the five things. -/
theorem schemaCall_effect (crc32c : List UInt8 → UInt32)
    (hash : RawKey → UInt64) (f64Add : UInt64 → UInt64 → UInt64)
    (e : Engine) (call : SchemaCall) :
    SchemaEffect crc32c hash f64Add e call (schemaCall crc32c hash f64Add e call) := by
  cases call with
  | createSchemaCollection schema => exact createSchemaCollection_effect ..
  | putSchema schema document options => exact putSchema_effect ..
  | deleteSchema schema primaryKey options => exact deleteSchema_effect ..
  | updateSchema schema primaryKey updates options =>
    exact updateLoop_effect hash 3 .known
  | rebuildSchemaIndexes schema => exact rebuildSchemaIndexes_effect ..
  | getSchema schema primaryKey =>
    obtain ⟨e₁, r, heq, hdecl, -⟩ := getSchema_cases e schema primaryKey
    simp only [schemaCall, heq]
    exact .quiet hdecl rfl (by simp)
  | lookupSchema schema field value =>
    exact withIndexes_rule (fun out => SchemaEffect crc32c hash f64Add e
        (.lookupSchema schema field value) (out.1, .found out.2))
      (fun err => .quiet .known rfl (by simp)) (fun e₁ st hdecl _ => .quiet hdecl rfl (by simp))

end

end MemoryFirst.Store
