/-
The indexes of a store under schemas against what the store holds.

# The invariant

`Covers` says that the indexes of a collection are those of its live
values: each value is a document under its own key, and the keys are
filed under the entries of their documents. `IndexInv` says so of every
declared collection, and that there are no live values elsewhere.

# One step

Every effect of a call keeps the invariant (`IndexInv.step`). A write
plans to take its key from under the entries of the old document and to
file it under those of the new one (`plan_entries`), and a rebuild files
all documents of a snapshot.
-/
import MemoryFirst.Store.Proofs.Snapshot
import MemoryFirst.Store.RawCalls
import MemoryFirst.Store.SchemaCalls

namespace MemoryFirst.Store

open Lib SchemaCollectionIndexes Engine MfsStore Function List

-- ===== raw writes

variable {st : SchemaCollectionIndexes} {plan : SchemaIndexWritePlan} {schema : Schema}

namespace MfsStore

variable {s s' : MfsStore}

theorem valueAt_of_contents_eq (h : s'.contents = s.contents)
    (a : String × RawKey) : s'.valueAt a = s.valueAt a := by
  rw [valueAt, h, valueAt]

theorem valueAt_of_live {a : String × RawKey} {v : RawValue} {version : DocumentVersion}
    (h : s.contents a = some ⟨some v, version⟩) : s.valueAt a = some v := by
  rw [valueAt, h]
  rfl

theorem getRaw_of_live {name : String} {k : RawKey} {v : RawValue} {version : DocumentVersion}
    (h : s.contents (name, k) = some ⟨some v, version⟩) :
    s.getRaw name k = .ok (some ⟨v, version⟩) := by
  obtain ⟨c, hc, hget⟩ := Option.bind_eq_some_iff.1 h
  simp only [getRaw, rawCollection, hc, hget, ok_bind]
  rfl

theorem valueAt_of_update {a : String × RawKey} {r : RawRecord}
    (h : s'.contents = update s.contents a (some r))
    (b : String × RawKey) :
    s'.valueAt b = if b = a then r.value else s.valueAt b := by
  rw [valueAt, h]
  split
  case isTrue hb =>
    rw [hb, update_self]
    rfl
  case isFalse hb =>
    rw [update_of_ne hb]
    rfl

end MfsStore

-- ===== planned writes

section

variable {e : Engine} {w : DocumentWrite} {value : Option RawValue}

theorem oldEntries_eq (hwf : st.WellFormed) (hschema : st.schema = schema)
    {old : Option SchemaValue}
    (hold : oldDocument schema value = .ok old)
    {entries : List PreparedIndexEntry}
    (h : st.oldEntries old = .ok entries) :
    entries = schema.entriesAt value := by
  subst hschema
  cases value with
  | none =>
    cases hold
    cases h
    rfl
  | some raw =>
    obtain ⟨document, hd, hold⟩ := bind_eq_ok.1 hold
    cases hold
    simp only [oldEntries, hwf.documentIndexEntries_eq] at h
    simp only [Schema.entriesAt, hd, h]
    rfl

/-- A write plans to refile its key from the entries of what is stored to
those of what it stores. -/
theorem plan_entries (hwf : st.WellFormed) (hschema : st.schema = schema)
    (hvalid : w.Valid schema) (h : (do
      let old ← oldDocument schema value
      st.prepare e w old) = .ok plan) :
    plan.oldEntries = schema.entriesAt value ∧ plan.newEntries = schema.entriesAt w.value
      ∧ (∀ v, w.value = some v → ∃ document, w.document = some document
          ∧ schema.Stores w.key v document plan.newEntries)
      ∧ (w.document.isSome → st.validateUniqueConstraints e.raw w.key
        plan.newEntries = .ok ()) := by
  obtain ⟨old, hold, h⟩ := bind_eq_ok.1 h
  obtain ⟨key, document⟩ := w
  cases document with
  | none =>
    obtain ⟨holdEntries, hnew⟩ := prepareDelete_eq_ok h
    refine ⟨oldEntries_eq hwf hschema hold holdEntries, hnew, fun v hv => ?_, fun hsome => ?_⟩
    · cases hv
    · cases hsome
  | some document =>
    obtain ⟨holdEntries, hnew, hunique⟩ := preparePut_eq_ok h
    rw [hwf.documentIndexEntries_eq, hschema] at hnew
    obtain ⟨hkey, hdoc, hordered⟩ := hvalid document rfl
    have hstores := Schema.stores_encode hkey hdoc hordered hnew
    refine ⟨oldEntries_eq hwf hschema hold holdEntries,
      hstores.entriesAt_eq.symm, fun v hv => ?_, fun _ => hunique⟩
    cases hv
    exact ⟨document, rfl, hstores⟩

end

-- ===== snapshots

variable {documents : List (RawKey × SchemaValue)}

/-- The documents a rebuild reads: those stored under their own key. -/
theorem snapshotDocuments_eq_ok {records : List RawSnapshotRecord}
    (h : snapshotDocuments schema records = .ok documents) :
    (documents.map Prod.fst).Sublist (records.map RawSnapshotRecord.key)
      ∧ ∀ k document, (k, document) ∈ documents ↔ ∃ r ∈ records, r.key = k ∧ ∃ v, r.value = some v
          ∧ decodeSchemaRawValue schema v = .ok document
          ∧ schemaDocumentRawKey schema document = .ok k := by
  induction records generalizing documents with
  | nil =>
    cases h
    simp
  | cons r records ih =>
    rw [snapshotDocuments] at h
    simp only [exists_mem_cons_iff]
    split at h
    next hnone =>
      obtain ⟨hsub, hmem⟩ := ih h
      refine ⟨hsub.cons _, fun k document => ?_⟩
      rw [hmem, hnone]
      simp
    next v hv =>
      obtain ⟨own, hown, h⟩ := bind_eq_ok.1 h
      obtain ⟨key, hkey, h⟩ := bind_eq_ok.1 h
      obtain ⟨rest, hrest, h⟩ := bind_eq_ok.1 h
      cases h
      obtain ⟨hsub, hmem⟩ := ih hrest
      have hhead : ∀ k document, (r.key = k ∧ ∃ v, r.value = some v
          ∧ decodeSchemaRawValue schema v = .ok document
          ∧ schemaDocumentRawKey schema document = .ok k) ↔
          (r.key = k ∧ document = own ∧ key = k) := by
        intro k document
        constructor
        · rintro ⟨rfl, v', hv', hd, hk⟩
          obtain rfl := Option.some.inj (hv.symm.trans hv')
          obtain rfl := Except.ok.inj (hown.symm.trans hd)
          exact ⟨rfl, rfl, Except.ok.inj (hkey.symm.trans hk)⟩
        · rintro ⟨rfl, rfl, rfl⟩
          exact ⟨rfl, v, hv, hown, hkey⟩
      split
      case isTrue hk =>
        refine ⟨hsub.cons_cons _, fun k document => ?_⟩
        rw [mem_cons, hmem, hhead, Prod.mk.injEq, hk]
        constructor
        · rintro (⟨rfl, rfl⟩ | h)
          · exact Or.inl ⟨rfl, rfl, rfl⟩
          · exact Or.inr h
        · rintro (⟨rfl, rfl, -⟩ | h)
          · exact Or.inl ⟨rfl, rfl⟩
          · exact Or.inr h
      case isFalse hk =>
        refine ⟨hsub.cons _, fun k document => ?_⟩
        rw [hmem, hhead]
        constructor
        · exact Or.inr
        · rintro (⟨rfl, -, rfl⟩ | h)
          · exact absurd rfl hk
          · exact h

variable {c : RawCollectionSnapshot} {name : String}

/-- The snapshot of a collection has its live values. -/
theorem MfsStore.Sound.snapshot_value {s : MfsStore} (hs : s.Sound)
    (hc : (s.rawSnapshot.collections.find? fun c => c.name = name) = some c) :
    (c.records.map RawSnapshotRecord.key).Nodup
      ∧ ∀ k v, (∃ r ∈ c.records, r.key = k ∧ r.value = some v) ↔ s.valueAt (name, k) = some v := by
  have hmem := mem_of_find?_eq_some hc
  have hname : c.name = name := by simpa using find?_some hc
  obtain ⟨live, hlive, hrecords⟩ := mem_rawSnapshot.1 hmem
  rw [hname] at hlive
  have hsound := hs.collections name live hlive
  refine ⟨hs.keyed_rawSnapshot.keys c hmem, fun k v => ?_⟩
  simp only [valueAt, contents, hlive, Option.bind_some, hrecords, mem_snapshotRecords hsound,
    Option.bind_eq_some_iff]
  constructor
  · rintro ⟨r, hr, rfl, hv⟩
    exact ⟨r.stored, hr, hv⟩
  · rintro ⟨x, hx, hv⟩
    exact ⟨⟨k, x.value, x.version⟩, hx, rfl, hv⟩

-- ===== the invariant

/-- The indexes of a collection are those of its live values. -/
structure Covers (values : RawKey → Option RawValue) (st : SchemaCollectionIndexes) : Prop where
  wellFormed : st.WellFormed
  stored : ∀ k v, values k = some v → ∃ document entries, st.schema.Stores k v document entries
  files : st.indexes.Files fun k => st.schema.entriesAt (values k)

/-- So it is in every declared collection, and nothing is stored in any
other. -/
structure IndexInv (e : Engine) : Prop where
  sound : e.raw.Sound
  named : ∀ name st, e.schemaIndexes.lookup name = some st → st.schema.name = name
  covered : ∀ name st, e.schemaIndexes.lookup name = some st →
    Covers (fun k => e.raw.valueAt (name, k)) st
  undeclared : ∀ name, e.schemaIndexes.lookup name = none → ∀ k, e.raw.valueAt (name, k) = none

/-- Empty indexes cover a collection without live values. -/
theorem covers_new {st : SchemaCollectionIndexes} (h : new schema = .ok st)
    {values : RawKey → Option RawValue} (hnone : ∀ k, values k = none) :
    Covers values st := by
  obtain ⟨-, hwf, hempty⟩ := new_eq_ok h
  refine ⟨hwf, fun k v hv => ?_, ?_⟩
  · rw [hnone k] at hv
    cases hv
  · rw [hempty]
    simp only [hnone]
    exact Postings.files_empty

section

variable {e e' : Engine} {raw : MfsStore}

theorem IndexInv.opened (config : MfsStoreConfig) (file : Option (List UInt8)) (synced : Nat) :
    IndexInv (opened (fresh config file synced)) where
  sound := sound_fresh config file synced
  named name st h := by cases h
  covered name st h := by cases h
  undeclared name h k := rfl

section

variable (h : IndexInv e)

include h

/-- Only the records of one collection, and its indexes, change. -/
theorem IndexInv.set (hs : raw.Sound) (hname : st.schema.name = name)
    (hother : ∀ other, other ≠ name → ∀ k, raw.valueAt (other, k) = e.raw.valueAt (other, k))
    (hcovers : Covers (fun k => raw.valueAt (name, k)) st) :
    IndexInv (setIndexes { e with raw := raw } name st) := by
  refine ⟨hs, fun other st' hst' => ?_, fun other st' hst' => ?_, fun other hnone k => ?_⟩
  · rcases of_lookup_setIndexes hst' with ⟨rfl, rfl⟩ | ⟨-, hold⟩
    · exact hname
    · exact h.named other st' hold
  · rcases of_lookup_setIndexes hst' with ⟨rfl, rfl⟩ | ⟨ho, hold⟩
    · exact hcovers
    have hvalues : (fun k => raw.valueAt (other, k))
        = fun k => e.raw.valueAt (other, k) := funext (hother other ho)
    show Covers (fun k => raw.valueAt (other, k)) st'
    rw [hvalues]
    exact h.covered other st' hold
  · by_cases ho : other = name
    · subst ho
      rw [lookup_setIndexes] at hnone
      cases hnone
    · rw [lookup_setIndexes_ne _ _ ho] at hnone
      exact (hother other ho k).trans (h.undeclared other hnone k)

theorem IndexInv.declares (hdecl : e.Declares schema e') : IndexInv e' := by
  cases hdecl with
  | known => exact h
  | new hnone hnew =>
    exact h.set h.sound (by rw [(new_eq_ok hnew).1])
      (fun _ _ _ => rfl) (covers_new hnew (h.undeclared _ hnone))

/-- The records are the same. -/
theorem IndexInv.sameRecords (hs : raw.Sound) (hc : raw.contents = e.raw.contents) :
    IndexInv { e with raw := raw } := by
  have hvalue := valueAt_of_contents_eq hc
  refine ⟨hs, h.named, fun name st hst => ?_, fun name hnone k => ?_⟩
  · have hcovers := h.covered name st hst
    simp only [hvalue]
    exact hcovers
  · rw [hvalue]
    exact h.undeclared name hnone k

/-- A write refiles its key. -/
theorem IndexInv.written {plan : SchemaIndexWritePlan} (hst : e.Installed schema st)
    {w : DocumentWrite} (hvalid : w.Valid schema)
    (hplan : (do
      let old ← oldDocument schema (e.raw.valueAt (schema.name, w.key))
      st.prepare e w old) = .ok plan)
    (hs : raw.Sound) {version : DocumentVersion}
    (hc : raw.contents = update e.raw.contents
      (schema.name, w.key) (some ⟨w.value, version⟩)) :
    IndexInv (setIndexes { e with raw := raw } schema.name (st.applyWrite w.key plan)) := by
  have hcovers := h.covered _ st hst.lookup
  have hvalue := valueAt_of_update hc
  obtain ⟨hold, hnew, hstored, -⟩ := plan_entries hcovers.wellFormed hst.schema_eq hvalid hplan
  have hown : ∀ k, raw.valueAt (schema.name, k)
      = update (fun k => e.raw.valueAt (schema.name, k)) w.key w.value k := by
    intro k
    rw [hvalue, update_apply]
    simp only [Prod.mk.injEq, true_and]
  refine h.set hs (congrArg Schema.name hst.schema_eq)
    (fun other ho k => ?_) ⟨⟨hcovers.wellFormed.valid,
      hcovers.wellFormed.fields_eq⟩, fun k v hv => ?_, ?_⟩
  · rw [hvalue, if_neg (by simp [ho])]
  · rw [hown] at hv
    by_cases hk : k = w.key
    · subst hk
      rw [update_self] at hv
      obtain ⟨document, -, hstores⟩ := hstored v hv
      exact ⟨document, _, by rw [← hst.schema_eq] at hstores; exact hstores⟩
    · rw [update_of_ne hk] at hv
      exact hcovers.stored k v hv
  · have hfiles := hcovers.files.refile w.key plan.newEntries
    rw [hst.schema_eq, ← hold] at hfiles
    show Postings.Files (Postings.addAll _ _ _) _
    convert hfiles using 1
    funext k
    show st.schema.entriesAt _ = _
    rw [hown, hst.schema_eq]
    by_cases hk : k = w.key
    · subst hk
      rw [update_self, update_self, hnew]
    · rw [update_of_ne hk, update_of_ne hk]

section

variable (hst : e.Installed schema st)
  (hc : (e.raw.rawSnapshot.collections.find? fun c => c.name = schema.name) = some c)
  (hdocs : snapshotDocuments schema c.records = .ok documents)

include hst hc hdocs

/-- A rebuild files what is stored: all there is at the live values. -/
theorem IndexInv.rebuild_rule {ε : Type} (own : SchemaValue → StoreResult (List ε))
    (entriesAt : Option RawValue → List ε)
    (Files : Postings PreparedIndexEntry RawKey → SchemaCollectionReferences →
      (RawKey → List ε) → Prop)
    (hfile : ∀ m r keys k document entries filed refs,
      st.documentIndexEntries document = .ok entries → st.rebuildEntries k entries m = .ok filed →
      r.rebuildDocument e.schemaOf st.schema k document = .ok refs → Files m r keys → keys k = [] →
      ∃ new, own document = .ok new ∧ Files filed refs (update keys k new))
    (hempty : Files ∅ st.references.emptyMaps fun _ => []) (hnone : entriesAt none = [])
    (hsome : ∀ v document new, decodeSchemaRawValue schema v = .ok document →
      own document = .ok new → entriesAt (some v) = new)
    {m : Postings PreparedIndexEntry RawKey} {references : SchemaCollectionReferences}
    (hloop : st.rebuildDocuments e.schemaOf documents ∅ st.references.emptyMaps
      = .ok (m, references)) :
    Files m references fun k => entriesAt (e.raw.valueAt (schema.name, k)) := by
  obtain ⟨hnodup, hvalues⟩ := h.sound.snapshot_value hc
  obtain ⟨hsub, hmem⟩ := snapshotDocuments_eq_ok hdocs
  refine rebuildDocuments_rule own _ Files hfile (fun d hd new hnew => ?_) (hnodup.sublist hsub)
    ?_ hloop
  · obtain ⟨r, hr, hrk, v, hrv, hdecoded, -⟩ := (hmem d.1 d.2).1 hd
    rw [(hvalues d.1 v).1 ⟨r, hr, hrk, hrv⟩]
    exact hsome v d.2 new hdecoded hnew
  · -- what is not among the documents is not live
    convert hempty using 1
    funext k
    split
    · rfl
    next hk =>
      cases hv : e.raw.valueAt (schema.name, k) with
      | none => exact hnone
      | some v =>
        obtain ⟨document, entries, hstores⟩ := (h.covered _ st hst.lookup).stored k v hv
        rw [hst.schema_eq] at hstores
        obtain ⟨r, hr, hrk, hrv⟩ := (hvalues k v).2 hv
        exact absurd (mem_map_of_mem ((hmem k document).2
          ⟨r, hr, hrk, v, hrv, hstores.decoded, hstores.own⟩)) hk

theorem IndexInv.rebuilt {rebuilt : SchemaCollectionIndexes}
    (hrebuilt : st.rebuildFromDocuments e.schemaOf documents = .ok rebuilt) :
    IndexInv (e.setIndexes schema.name rebuilt) := by
  have hcovers := h.covered _ st hst.lookup
  have hwf := hcovers.wellFormed
  obtain ⟨⟨m, references⟩, hloop, hrebuilt⟩ := bind_eq_ok.1 hrebuilt
  cases hrebuilt
  have hfiles := h.rebuild_rule hst hc hdocs st.documentIndexEntries schema.entriesAt
    (fun m _ keys => m.Files keys) (fun m r keys k document entries filed refs hentries hfiled _
      hm hk => ?_) Postings.files_empty rfl (fun v document new hd hnew => ?_) hloop
  · obtain rfl := hst.schema_eq
    exact h.set h.sound rfl (fun _ _ _ => rfl) ⟨⟨hwf.valid, hwf.fields_eq⟩, hcovers.stored, hfiles⟩
  · obtain rfl := rebuildEntries_eq_ok hfiled
    exact ⟨entries, hentries, hm.file hk entries⟩
  · rw [hwf.documentIndexEntries_eq, hst.schema_eq] at hnew
    simp only [Schema.entriesAt, hd, hnew]
    rfl

end

end

/-- Every effect of a call keeps the invariant. -/
theorem IndexInv.step {crc32c : List UInt8 → UInt32}
    {hash : RawKey → UInt64} {f64Add : UInt64 → UInt64 → UInt64}
    (h : IndexInv e) {call : SchemaCall} {out : Engine × SchemaReply}
    (heffect : SchemaEffect crc32c hash f64Add e call out) :
    IndexInv out.1 := by
  cases heffect with
  | quiet hdecl hack hnot => exact h.declares hdecl
  | created hraw hdecl hst =>
    have hquiet := Quiet.create hash h.sound call.schema.name
    rw [hraw] at hquiet
    exact (h.sameRecords hquiet.sound hquiet.contents_eq).declares hdecl
  | refused hdecl hst hw hopt heq hack hnot =>
    have h₁ := h.declares hdecl
    obtain ⟨hs, hkept, -⟩ := h₁.sound.writeWithHooks heq
    exact h₁.sameRecords hs (hkept _ rfl)
  | written hdecl hst hw hopt heq =>
    have h₁ := h.declares hdecl
    obtain ⟨hs, -, hdone⟩ := h₁.sound.writeWithHooks heq
    obtain ⟨hplan, hc, -⟩ := hdone _ _ rfl
    exact h₁.written hst (SchemaCall.attempt_valid hw) hplan hs hc
  | rebuilt hdecl hst hc hdocs hrebuilt =>
    exact (h.declares hdecl).rebuilt hst hc hdocs hrebuilt

end

end MemoryFirst.Store
