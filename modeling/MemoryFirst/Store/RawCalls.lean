/-
The calls of a raw store, answered one by one, and what each of them
does to the store and to its log.

`rawCall_effect` is the only place that looks into the calls: over a
readable log a call leaves everything as it was, creates a collection,
writes a record with or without the log, or compacts the log
(`CallEffect`). The invariants of whole runs are derived from these
cases.
-/
import MemoryFirst.Store.Proofs.StoreLog

namespace MemoryFirst.Store

open Lib Wal MfsStore Function

-- ===== the calls

inductive RawCall where
  | createRawCollection (name : String)
  | putRaw (collection : String) (key : RawKey) (value : RawValue) (options : WriteOptions)
  | deleteRaw (collection : String) (key : RawKey) (options : WriteOptions)
  | syncWal
  | compactWal
  deriving DecidableEq

inductive RawReply where
  | created (result : StoreResult Nat)
  | written (result : StoreResult WriteResult)
  | synced (result : StoreResult Unit)
  | compacted (result : StoreResult (Option RawWalCompactionStats))

def RawReply.isOk : RawReply → Bool
  | .created r => r.isOk
  | .written r => r.isOk
  | .synced r => r.isOk
  | .compacted r => r.isOk

section

variable (crc32c : List UInt8 → UInt32) (hash : RawKey → UInt64)

def rawCall (s : MfsStore) : RawCall → MfsStore × RawReply
  | .createRawCollection name =>
    let (s, r) := s.createRawCollection hash name
    (s, .created r)
  | .putRaw collection key value options =>
    let (s, r) := s.putRaw crc32c collection key value options
    (s, .written r)
  | .deleteRaw collection key options =>
    let (s, r) := s.deleteRaw crc32c collection key options
    (s, .written r)
  | .syncWal =>
    let (s, r) := s.syncWal crc32c
    (s, .synced r)
  | .compactWal =>
    let (s, r) := s.compactWal crc32c
    (s, .compacted r)

end

/-- A put or a delete; the latter has no value. -/
structure RawWrite where
  collection : String
  key : RawKey
  value : Option RawValue
  options : WriteOptions

/-- The write a call makes. -/
def RawCall.write? : RawCall → Option RawWrite
  | .putRaw collection key value options => some ⟨collection, key, some value, options⟩
  | .deleteRaw collection key options => some ⟨collection, key, none, options⟩
  | _ => none

/-- The record of a write under the version and LSN it was given. -/
def RawWrite.record (w : RawWrite) (lsn : Lsn) (version : DocumentVersion) : RawWalRecord :=
  ⟨lsn, version, w.collection, opOf w.value, w.key, w.value⟩

/-- The durability mode of a write on the store. -/
def RawWrite.mode (w : RawWrite) (s : MfsStore) : DurabilityMode :=
  w.options.effectiveDurability s.config.durability

/-- The acknowledged write of an answered call. -/
def acknowledgedWrite : RawCall × RawReply → Option (RawWrite × WriteResult)
  | (call, .written (.ok result)) => call.write?.map fun w => (w, result)
  | _ => none

/-- The log after one more answered call. -/
def logStep (rs : List RawWalRecord) (e : RawCall × RawReply) : List RawWalRecord :=
  match acknowledgedWrite e with
  | some (w, result) =>
    match result.lsn with
    | some lsn => rs ++ [w.record lsn result.version]
    | none => rs
  | none =>
    match e with
    | (.compactWal, .compacted (.ok _)) => newestRecords rs
    | _ => rs

variable (history : List (RawCall × RawReply))

/-- The log a run leaves, from its calls and their answers. -/
def logOf : List RawWalRecord :=
  history.foldl logStep []

theorem logOf_append (e : RawCall × RawReply) :
    logOf (history ++ [e]) = logStep (logOf history) e := by
  simp [logOf]

theorem logStep_cases (rs : List RawWalRecord) (e : RawCall × RawReply) :
    logStep rs e = rs ∨ (∃ r, logStep rs e = rs ++ [r]) ∨ logStep rs e = newestRecords rs := by
  unfold logStep
  split
  · split
    · exact Or.inr (Or.inl ⟨_, rfl⟩)
    · exact Or.inl rfl
  · split
    · exact Or.inr (Or.inr rfl)
    · exact Or.inl rfl

/-- What a logged write needs to be read back, and the store does not
check. -/
def SafeLogged (crc32c : List UInt8 → UInt32) (s : MfsStore) (call : RawCall) : Prop :=
  ∀ w ∈ call.write?, (w.mode s).logged = true → s.SafeAppend crc32c w.collection w.key w.value

-- ===== the effects

/-- Nothing but an empty collection may have been added. -/
structure Quiet (hash : RawKey → UInt64) (s s' : MfsStore) (call : RawCall) : Prop where
  config_eq : s'.config = s.config
  sound : s'.Sound
  for_eq : ∀ name, s'.collectionFor hash name = s.collectionFor hash name
  keeps : ∀ name ∈ s.collections, name ∈ s'.collections
  new : ∀ name ∈ s'.collections, name ∈ s.collections ∨ call = .createRawCollection name

variable {s s' : MfsStore}

theorem Quiet.contents_eq {hash : RawKey → UInt64} {call : RawCall} (h : Quiet hash s s' call) :
    s'.contents = s.contents := by
  funext a
  rw [← collectionFor_get hash, h.for_eq, collectionFor_get]

variable (hash : RawKey → UInt64)

theorem Quiet.of_walOnly (call : RawCall) (hs : s.Sound) (h : s.WalOnly s') :
    Quiet hash s s' call := by
  refine ⟨h.config_eq, h.sound hs, fun name => h.collectionFor_eq name, ?_, ?_⟩
  · rw [h.collections_eq]
    exact fun _ hn => hn
  · rw [h.collections_eq]
    exact fun _ hn => Or.inl hn

/-- What a call can do to a store with the log `rs`. -/
inductive CallEffect (crc32c : List UInt8 → UInt32)
    (hash : RawKey → UInt64) (s : MfsStore) (rs : List RawWalRecord) :
    RawCall → MfsStore × RawReply → Prop
  /-- No write was acknowledged and no record changed. -/
  | quiet {call : RawCall} {s' : MfsStore} {reply : RawReply}
      (hreply : acknowledgedWrite (call, reply) = none)
      (hlog : logStep rs (call, reply) = rs)
      (hquiet : Quiet hash s s' call)
      (hnot : MfsStore.NotAppended crc32c rs s s') :
      CallEffect crc32c hash s rs call (s', reply)
  /-- A write that is in the log. -/
  | logged {call : RawCall} {w : RawWrite} (hcall : call.write? = some w)
      (hmode : (w.mode s).logged = true) {s' : MfsStore} {lsn : Lsn}
      {version : DocumentVersion}
      (hwrote : MfsStore.Wrote crc32c hash rs s s' (w.record lsn version) (w.mode s).syncs) :
      CallEffect crc32c hash s rs call (s', .written (.ok ⟨version, some lsn,
        (w.mode s).acknowledge lsn⟩))
  /-- A write that is in memory only. -/
  | unlogged {call : RawCall} {w : RawWrite} (hcall : call.write? = some w)
      (hmode : (w.mode s).logged = false) {version : DocumentVersion}
      {ack : WriteAcknowledgement} (hack : ack.lsn = none)
      (hversion : version = wrappingSucc (s.versionAt (w.collection, w.key)))
      (hmem : w.collection ∈ s.collections)
      (hroom : (s.collectionFor hash w.collection).records.canInsertOrReplace w.key = true) :
      CallEffect crc32c hash s rs call (s.withRecord hash (w.record 0 version),
          .written (.ok ⟨version, none, ack⟩))
  /-- The log was rewritten to the newest record of each key. -/
  | compacted {s' : MfsStore} {stats : Option RawWalCompactionStats} (hwal : s.WalOnly s')
      (hlogs : s'.Logs crc32c (newestRecords rs))
      (hsynced : s'.SyncedTo crc32c (newestRecords rs)) :
      CallEffect crc32c hash s rs .compactWal (s', .compacted (.ok stats))

section

variable {crc32c : List UInt8 → UInt32} {s : MfsStore} {rs : List RawWalRecord}

/-- A creation is refused, or adds an empty collection. -/
@[elab_as_elim]
theorem createRawCollection_rule {motive : MfsStore × StoreResult Nat → Prop}
    (s : MfsStore) (name : String) (refused : ∀ e, motive (s, .error e))
    (created : name ∉ s.collections → s.collections.keys.length < s.config.maxCollections →
      motive ({ s with
          nextCollectionId := s.nextCollectionId + 1
          collections := s.collections.insert name
            (newCollection hash s.config.rawInitialCapacity) },
        .ok s.nextCollectionId)) : motive (s.createRawCollection hash name) := by
  unfold createRawCollection
  rw [length_keys] at created
  split
  case isTrue => exact refused _
  case isFalse hmem =>
    split
    case isTrue => exact refused _
    case isFalse hlt => exact created hmem (Nat.not_le.1 hlt)

/-- A created collection is empty, where a replay would put one. -/
theorem Quiet.create (hs : s.Sound)
    (name : String) : Quiet hash s (s.createRawCollection hash name).1
      (.createRawCollection name) := by
  refine createRawCollection_rule hash s name
    (fun _ => Quiet.of_walOnly hash _ hs (WalOnly.refl s)) fun hmem hlt => ?_
  refine ⟨rfl, ⟨fun n c hc => ?_, ?_⟩, fun n => ?_, fun n hn => ?_, fun n hn => ?_⟩
  · by_cases hn : n = name
    · subst hn
      rw [AList.lookup_insert] at hc
      obtain rfl := Option.some.inj hc
      exact RawCollection.sound_new hash _
    · rw [AList.lookup_insert_ne hn] at hc
      exact hs.collections n c hc
  · rw [length_keys_insert, if_neg hmem]
    exact hlt
  · by_cases hn : n = name
    · subst hn
      simp [collectionFor, AList.lookup_eq_none.2 hmem]
    · simp [collectionFor, AList.lookup_insert_ne hn]
  · exact (AList.mem_insert _).2 (Or.inr hn)
  · rcases (AList.mem_insert _).1 hn with rfl | hn
    · exact Or.inr rfl
    · exact Or.inl hn

theorem MfsStore.Logs.createRawCollection (h : s.Logs crc32c rs) (name : String) :
    NotAppended crc32c rs s (s.createRawCollection hash name).1 := by
  refine createRawCollection_rule hash s name (fun _ => ?_) fun _ _ => ?_
  · exact ⟨h, fun _ _ hf => hf⟩
  · exact ⟨h.congr rfl rfl, fun _ _ hf => hf⟩

variable {call : RawCall} {w : RawWrite}

/-- Puts and deletes are one write path. -/
theorem rawCall_write (crc32c : List UInt8 → UInt32) (s : MfsStore) (h : call.write? = some w) :
    ∃ s' r, s.writeWithHooks crc32c w.collection w.key w.value w.options noPreflight = (s', r)
      ∧ rawCall crc32c hash s call = (s', .written (r.map Prod.fst)) := by
  cases call with
  | putRaw _ _ _ _ | deleteRaw _ _ _ =>
    cases h
    exact ⟨_, _, rfl, rfl⟩
  | createRawCollection _ | syncWal | compactWal => cases h

theorem acknowledgedWrite_ok (h : call.write? = some w) (result : WriteResult) :
    acknowledgedWrite (call, .written (.ok result)) = some (w, result) := by
  rw [acknowledgedWrite, h]
  rfl

theorem logStep_logged (rs : List RawWalRecord) (h : call.write? = some w)
    (lsn : Lsn) (version : DocumentVersion) (ack : WriteAcknowledgement) :
    logStep rs (call, .written (.ok ⟨version, some lsn, ack⟩)) = rs ++ [w.record lsn version] := by
  simp only [logStep, acknowledgedWrite_ok h]

theorem logStep_refused (h : call.write? = some w) (e : StoreError) :
    logStep rs (call, .written (.error e)) = rs := by
  cases call with
  | putRaw _ _ _ _ | deleteRaw _ _ _ => rfl
  | createRawCollection _ | syncWal | compactWal => cases h

/-- An unlogged write touches the collection alone. -/
theorem writeWithHooks_unlogged {π : Type} (w : RawWrite) (hmode : (w.mode s).logged = false)
    {preflight : Option RawValue → DocumentVersion → StoreResult π}
    {r : StoreResult (WriteResult × π)}
    (heq : s.writeWithHooks crc32c w.collection w.key w.value w.options preflight = (s', r)) :
    (∃ e, r = .error e ∧ s' = s)
      ∨ ∃ version ack plan, ack.lsn = none
        ∧ version = wrappingSucc (s.versionAt (w.collection, w.key))
        ∧ w.collection ∈ s.collections
        ∧ (s.collectionFor hash w.collection).records.canInsertOrReplace w.key = true
        ∧ s' = s.withRecord hash (w.record 0 version)
        ∧ r = .ok (⟨version, none, ack⟩, plan) := by
  cases writeWithHooks_cases heq with
  | refused e => exact Or.inl ⟨e, rfl, rfl⟩
  | unlogged hadm hrefused =>
    obtain ⟨-, ack, hok, -⟩ := acknowledgeWrite_unlogged hrefused hmode
    cases hok
  | @written c plan hadm s' ack hdone =>
    obtain ⟨rfl, _, ⟨⟩, hnone⟩ := acknowledgeWrite_unlogged hdone hmode
    refine Or.inr ⟨_, ack, plan, hnone, rfl, ?_, ?_, ?_, by rw [hnone]⟩
    · exact AList.lookup_isSome.1 (by rw [hadm.found]; rfl)
    · rw [collectionFor, hadm.found]
      exact hadm.room
    · exact setCollection_eq_withRecord (r := w.record 0 _) hadm.found

variable {name : String}

theorem mem_createRawCollection (s : MfsStore) (created : String) (h : name ∈ s.collections) :
    name ∈ (s.createRawCollection hash created).1.collections := by
  refine createRawCollection_rule hash s created (fun _ => h) fun _ _ => ?_
  exact (AList.mem_insert _).2 (Or.inr h)

section

variable {π : Type} {collection : String} {key : RawKey} {value : Option RawValue}
  {options : WriteOptions} {preflight : Option RawValue → DocumentVersion → StoreResult π}
  {r : StoreResult (WriteResult × π)}
  (h : s.writeWithHooks crc32c collection key value options preflight = (s', r))

include h

/-- A write that is done replaces one collection, one that fails none. -/
theorem writeWithHooks_collections : s'.collections = s.collections
      ∨ r.isOk = true ∧ ∃ c, s'.collections = s.collections.insert collection c := by
  cases writeWithHooks_cases h with
  | refused e => exact Or.inl rfl
  | unlogged hadm hack => exact Or.inl (acknowledgeWrite_walOnly hack).collections_eq
  | written hadm hack =>
    have hsame := (acknowledgeWrite_walOnly hack).collections_eq
    exact Or.inr ⟨rfl, _, congrArg (AList.insert collection _) hsame⟩

theorem mem_writeWithHooks (hmem : name ∈ s.collections) : name ∈ s'.collections := by
  rcases writeWithHooks_collections h with heq | ⟨-, c, heq⟩
  · rw [heq]
    exact hmem
  · rw [heq]
    exact (AList.mem_insert _).2 (Or.inr hmem)

/-- A write that fails leaves the records as they are; one that is done
was planned and has stored its own, whether it is logged or not. -/
theorem MfsStore.Sound.writeWithHooks (hs : s.Sound) : s'.Sound
      ∧ (∀ e, r = .error e → s'.contents = s.contents)
      ∧ ∀ result plan, r = .ok (result, plan) →
        preflight (s.valueAt (collection, key)) (s.versionAt (collection, key)) = .ok plan
        ∧ s'.contents = update s.contents (collection, key) (some ⟨value, result.version⟩)
        ∧ (∀ v, options.expectedVersion = some v → v = s.versionAt (collection, key))
        ∧ result.version = wrappingSucc (s.versionAt (collection, key)) := by
  cases writeWithHooks_cases h with
  | refused e => exact ⟨hs, fun _ _ => rfl, by simp⟩
  | unlogged hadm hack =>
    have hwal := acknowledgeWrite_walOnly hack
    exact ⟨hwal.sound hs, fun _ _ => hwal.contents_eq, by simp⟩
  | @written c plan hadm s' ack hack =>
    have hwal := acknowledgeWrite_walOnly hack
    have hs' := hwal.sound hs
    have hfound : s'.collections.lookup collection = some c := by
      rw [hwal.collections_eq]
      exact hadm.found
    have hroom : (s'.collectionFor (fun _ => 0)
        collection).records.canInsertOrReplace key = true := by
      rw [MfsStore.collectionFor, hfound]
      exact hadm.room
    have hmem : collection ∈ s'.collections := AList.lookup_isSome.1 (by rw [hfound]; rfl)
    -- the record is stored as a replay would store it, under any hasher
    have hstored : s'.setCollection collection (c.afterInsert key
          ⟨value, wrappingSucc (s.versionAt (collection, key))⟩)
        = s'.withRecord (fun _ => 0) ⟨0, wrappingSucc (s.versionAt
          (collection, key)), collection, opOf value, key, value⟩ :=
      setCollection_eq_withRecord (r := ⟨0, wrappingSucc (s.versionAt
        (collection, key)), collection, opOf value, key, value⟩) hfound
    rw [hstored]
    refine ⟨hs'.withRecord hroom (Or.inl hmem), by simp, fun _ _ hr => ?_⟩
    cases hr
    refine ⟨hadm.planned, ?_, hadm.expected, rfl⟩
    rw [hs'.contents_withRecord hroom, hwal.contents_eq]

end

/-- What a call does over a readable log, if its write is safe. -/
theorem rawCall_effect (h : s.Logs crc32c rs) (hs : s.Sound) (hpath : s.config.hasWalPath = true)
    (hsafe : SafeLogged crc32c s call) :
    CallEffect crc32c hash s rs call (rawCall crc32c hash s call) := by
  cases hwrite : call.write? with
  | some w =>
    obtain ⟨s', r, heq, hcall⟩ := rawCall_write hash crc32c s hwrite
    rw [hcall]
    cases hmode : (w.mode s).logged with
    | true =>
      rcases h.writeWithHooks hash hpath (hsafe w hwrite hmode) rfl hmode heq with
        ⟨e, rfl, hwal, hnot⟩ | ⟨lsn, version, plan, rfl, hw⟩
      · exact .quiet rfl (logStep_refused hwrite e) (Quiet.of_walOnly hash call hs hwal) hnot
      · exact .logged hwrite hmode hw
    | false =>
      rcases writeWithHooks_unlogged hash w hmode heq with
        ⟨e, rfl, rfl⟩ | ⟨version, ack, plan, hack, hv, hmem, hroom, rfl, rfl⟩
      · exact .quiet rfl (logStep_refused hwrite e)
          (Quiet.of_walOnly hash call hs (WalOnly.refl _))
          ⟨h, fun _ _ hf => hf⟩
      · exact .unlogged hwrite hmode hack hv hmem hroom
  | none =>
    cases call with
    | putRaw _ _ _ _ | deleteRaw _ _ _ => cases hwrite
    | createRawCollection name =>
      exact .quiet rfl rfl (Quiet.create hash hs name) (h.createRawCollection hash name)
    | syncWal =>
      have hwal := s.syncWal_walOnly crc32c
      obtain ⟨s', heq, hnot⟩ := h.syncWal hpath
      rw [heq] at hwal
      simp only [rawCall, heq]
      exact .quiet rfl rfl (Quiet.of_walOnly hash _ hs hwal) hnot
    | compactWal =>
      have hwal := s.compactWal_walOnly crc32c
      obtain ⟨s', stats, heq, hlogs, hsynced⟩ := h.compactWal hpath
      rw [heq] at hwal
      simp only [rawCall, heq]
      exact .compacted hwal hlogs hsynced

-- ===== the sequential specification

/-- An acknowledged write was expected to meet the version it met, has
the next one and is stored with it; no other call changes a record. -/
def Followed (s s' : MfsStore) (e : RawCall × RawReply) : Prop :=
  match acknowledgedWrite e with
  | none => s'.contents = s.contents
  | some (w, result) =>
    (∀ v, w.options.expectedVersion = some v → v = s.versionAt (w.collection, w.key))
    ∧ result.version = wrappingSucc (s.versionAt (w.collection, w.key))
    ∧ s'.contents = update s.contents (w.collection, w.key) (some ⟨w.value, result.version⟩)

theorem MfsStore.Sound.rawCall (hs : s.Sound) (crc32c : List UInt8 → UInt32) (call : RawCall) :
    (rawCall crc32c hash s call).1.Sound
      ∧ Followed s (rawCall crc32c hash s call).1 (call, (rawCall crc32c hash s call).2) := by
  cases hwrite : call.write? with
  | some w =>
    obtain ⟨s', r, heq, hcall⟩ := rawCall_write hash crc32c s hwrite
    rw [hcall]
    obtain ⟨hs', hkept, hdone⟩ := hs.writeWithHooks heq
    refine ⟨hs', ?_⟩
    cases r with
    | error e => exact hkept e rfl
    | ok x =>
      obtain ⟨-, hstored, hexpected, hversion⟩ := hdone x.1 x.2 rfl
      simp only [Followed, Except.map, acknowledgedWrite_ok hwrite]
      exact ⟨hexpected, hversion, hstored⟩
  | none =>
    cases call with
    | putRaw _ _ _ _ | deleteRaw _ _ _ => cases hwrite
    | createRawCollection name =>
      have hquiet := Quiet.create hash hs name
      exact ⟨hquiet.sound, hquiet.contents_eq⟩
    | syncWal =>
      have hwal := s.syncWal_walOnly crc32c
      exact ⟨hwal.sound hs, hwal.contents_eq⟩
    | compactWal =>
      have hwal := s.compactWal_walOnly crc32c
      exact ⟨hwal.sound hs, hwal.contents_eq⟩

end

end MemoryFirst.Store
