/-
The WAL under a running raw store: what the store's calls do to the log
in its file.

# The invariant

`Logs s rs` says that the file of the store is the log `rs`, possibly
with a torn tail while no writer has it open, and that the LSNs the
store will hand out are above those of `rs`. Opening the writer, syncing
and refused writes keep the log, an acknowledged write appends its
record, a compaction keeps the newest record of each key.

# What the writer does not check

An append keeps the log readable only if it is `SafeAppend`: the
collection is named, the record within the reader's limit and the LSN
counter below its maximum.
-/
import MemoryFirst.Store.Proofs.Raw

namespace MemoryFirst.Store

open Lib Wal Function List

/-- The logged writes that are on disk once acknowledged. -/
def DurabilityMode.syncs : DurabilityMode → Bool
  | .walGroupCommit => true
  | .walSync => true
  | _ => false

/-- The acknowledgement of a logged write. -/
def DurabilityMode.acknowledge (mode : DurabilityMode) (lsn : Lsn) : WriteAcknowledgement :=
  match mode with
  | .memoryOnly => .memoryOnly
  | .snapshotOnly => .snapshotOnly
  | .walAsync => .walBuffered lsn
  | .walGroupCommit => .walGroupCommitted lsn
  | .walSync => .walSynced lsn

theorem DurabilityMode.lsn_acknowledge {mode : DurabilityMode}
    (h : mode.logged = true) (lsn : Lsn) :
    (mode.acknowledge lsn).lsn = some lsn := by
  cases mode with
  | memoryOnly | snapshotOnly => cases h
  | walAsync | walGroupCommit | walSync => rfl

namespace MfsStore

/-- Only the WAL side of the store differs. -/
def WalOnly (s s' : MfsStore) : Prop :=
  s' = { s with
    writer := s'.writer
    walDirty := s'.walDirty
    file := s'.file
    synced := s'.synced }

theorem WalOnly.refl (s : MfsStore) : s.WalOnly s := rfl

variable {s s' : MfsStore}

theorem WalOnly.trans {s'' : MfsStore} (h : s.WalOnly s')
    (h' : s'.WalOnly s'') : s.WalOnly s'' := by
  rw [WalOnly, h] at h'
  exact h'

section

variable (h : s.WalOnly s')

include h

theorem WalOnly.config_eq : s'.config = s.config := by
  rw [h]

theorem WalOnly.collections_eq : s'.collections = s.collections := by
  rw [h]

theorem WalOnly.contents_eq : s'.contents = s.contents := by
  funext a
  rw [contents, contents, h.collections_eq]

theorem WalOnly.sound (hs : s.Sound) : s'.Sound := by
  refine ⟨fun name c hc => ?_, ?_⟩
  · rw [h.collections_eq] at hc
    exact hs.collections name c hc
  · rw [h.collections_eq, h.config_eq]
    exact hs.limit

end

section

variable (crc32c : List UInt8 → UInt32) (s : MfsStore)

theorem ensureWriter_walOnly : s.WalOnly (s.ensureWriter crc32c).1 := by
  unfold ensureWriter
  split
  · rfl
  split
  · obtain ⟨file, opened⟩ := openWriter crc32c s.file
    cases opened <;> rfl
  · rfl

theorem syncWal_walOnly : s.WalOnly (s.syncWal crc32c).1 := by
  have hopen := s.ensureWriter_walOnly crc32c
  unfold syncWal
  split
  · rfl
  split
  · rfl
  split
  · rfl
  split
  next s₁ e heq =>
    rw [heq] at hopen
    exact hopen
  next s₁ w heq =>
    rw [heq] at hopen
    exact hopen.trans rfl

theorem compactWal_walOnly : s.WalOnly (s.compactWal crc32c).1 := by
  unfold compactWal
  split
  · rfl
  generalize hs : (if s.writer.isSome = true then
    { s with synced := (s.file.getD []).length } else s) = s₁
  have h₁ : s.WalOnly s₁ := by
    subst hs
    split <;> rfl
  simp only
  split
  · exact h₁.trans rfl
  split
  · exact h₁.trans rfl
  next file stats heq =>
  have h₂ : s.WalOnly { s₁ with
      writer := none
      walDirty := false
      file := file
      synced := (file.getD []).length } := h₁.trans rfl
  have hopen := h₂.trans (ensureWriter_walOnly crc32c _)
  split
  next s₂ e heq₂ =>
    rw [heq₂] at hopen
    exact hopen
  next s₂ w heq₂ =>
    rw [heq₂] at hopen
    exact hopen

end

section

variable (crc32c : List UInt8 → UInt32)

/-- The store's file is the log `rs`, ready to be appended to. -/
structure Logs (s : MfsStore) (rs : List RawWalRecord) : Prop where
  log : Log rs
  below_max : ∀ r ∈ rs, r.lsn < u64Max
  file_eq : ∃ tail, (∀ start, nextFrame crc32c start tail = .ok none)
    ∧ s.file.getD [] = encodeFile crc32c rs ++ tail
  writer_ok : ∀ w, s.writer = some w →
    s.file = some (encodeFile crc32c rs) ∧ lastLsn 0 rs < w.nextLsn

variable (s : MfsStore)

/-- The LSN the store's next logged write gets. -/
def nextLsn : Lsn :=
  match (ensureWriter crc32c s).2 with
  | .ok w => w.nextLsn
  | .error _ => 0

/-- What the reader needs of an append and the writer does not check. -/
def SafeAppend (collection : String) (key : RawKey) (value : Option RawValue) : Prop :=
  collection ≠ ""
    ∧ payloadLen collection key value ≤ RAW_WAL_MAX_PAYLOAD_BYTES
    ∧ s.nextLsn crc32c < u64Max

instance (s : MfsStore) (collection : String) (key : RawKey) (value : Option RawValue) :
    Decidable (SafeAppend crc32c s collection key value) :=
  inferInstanceAs (Decidable (_ ∧ _ ∧ _))

variable (rs : List RawWalRecord)

/-- The first records of the log, all of whose bytes are on disk. -/
def SyncedTo : Prop :=
  (encodeFile crc32c rs).length ≤ s.synced

/-- No record of the log that was on disk is so no longer. -/
def KeepsSynced (s s' : MfsStore) : Prop :=
  ∀ front, front <+: rs → SyncedTo crc32c s front → SyncedTo crc32c s' front

end

section

variable {crc32c : List UInt8 → UInt32} {s : MfsStore} {rs : List RawWalRecord}

theorem length_encodeFile_le (crc32c : List UInt8 → UInt32)
    {front : List RawWalRecord} (h : front <+: rs) : (encodeFile crc32c front).length
      ≤ (encodeFile crc32c rs).length := by
  obtain ⟨rest, rfl⟩ := h
  rw [encodeFile_append, length_append]
  omega

theorem logs_fresh (crc32c : List UInt8 → UInt32) (config : MfsStoreConfig) :
    Logs crc32c (fresh config none 0) [] :=
  ⟨LogAfter.nil 0, nofun, ⟨[], nextFrame_nil crc32c, rfl⟩, nofun⟩

section

variable (h : Logs crc32c s rs)

include h

/-- An absent file holds no records. -/
theorem Logs.file_cases : (s.file = none ∧ rs = [])
      ∨ ∃ tail, Torn crc32c tail
        ∧ s.file = some (encodeFile crc32c rs ++ tail) := by
  obtain ⟨tail, htorn, heq⟩ := h.file_eq
  cases hfile : s.file with
  | none =>
    rw [hfile] at heq
    have hlen := congrArg length heq
    rw [length_append] at hlen
    have hle := length_le_encodeFile crc32c rs
    have hzero : ([] : List UInt8).length = 0 := rfl
    rw [Option.getD_none, hzero] at hlen
    exact Or.inl ⟨rfl, length_eq_zero_iff.1 (by omega)⟩
  | some bytes =>
    rw [hfile, Option.getD_some] at heq
    exact Or.inr ⟨tail, htorn, congrArg some heq⟩

/-- Opening the store's file yields its log. -/
theorem Logs.openWriter : openWriter crc32c s.file = (some (encodeFile crc32c rs),
      .ok ⟨nextLsnAfter rs, versionsOf rs⟩) := by
  rcases h.file_cases with ⟨hfile, rfl⟩ | ⟨tail, htorn, hfile⟩
  · rw [hfile]
    rfl
  · rw [hfile]
    exact openWriter_log crc32c htorn h.log

/-- Scanning the store's file hands the log to the callback. -/
theorem Logs.scan {σ : Type} (onRecord : σ → RawWalRecord → StoreResult σ) (acc : σ) :
    scanRecordsWithOffsets crc32c onRecord s.file acc = (do
          let acc ← rs.foldlM onRecord acc
          return (acc, ⟨⟨rs.length, lastLsn 0 rs⟩, (encodeFile crc32c rs).length⟩)) := by
  rcases h.file_cases with ⟨hfile, rfl⟩ | ⟨tail, htorn, hfile⟩
  · rw [hfile]
    rfl
  · rw [hfile]
    exact scan_log crc32c htorn h.log onRecord acc

/-- Reading the store's file yields its log. -/
theorem Logs.readRecords : readRecords crc32c s.file = .ok rs := by
  rcases h.file_cases with ⟨hfile, rfl⟩ | ⟨tail, htorn, hfile⟩
  · rw [hfile]
    rfl
  · rw [hfile]
    exact readRecords_log crc32c htorn h.log

end

/-- The store once its writer is open. -/
structure Opened (crc32c : List UInt8 → UInt32) (rs : List RawWalRecord)
    (s s' : MfsStore) (w : RawWalSegmentWriter) : Prop where
  writer_eq : s'.writer = some w
  file_eq : s'.file = some (encodeFile crc32c rs)
  below : lastLsn 0 rs < w.nextLsn
  synced : KeepsSynced crc32c rs s s'

theorem Logs.ensureWriter (h : Logs crc32c s rs) (hpath : s.config.hasWalPath = true) :
    ∃ s' w, s.ensureWriter crc32c = (s', .ok w) ∧ Opened crc32c rs s s' w := by
  unfold MfsStore.ensureWriter
  cases hw : s.writer with
  | some w =>
    obtain ⟨hfile, hlt⟩ := h.writer_ok w hw
    exact ⟨s, w, rfl, hw, hfile, hlt, fun _ _ hf => hf⟩
  | none =>
    simp only [if_pos hpath, h.openWriter]
    refine ⟨_, _, rfl, rfl, rfl, ?_, ?_⟩
    · exact lastLsn_lt_nextLsnAfter h.below_max
    · intro front hfront hsynced
      split
      case isTrue => exact hsynced
      case isFalse => exact length_encodeFile_le crc32c hfront

-- ===== appending

/-- The operation of a write: without a value it is a delete. -/
def opOf (value : Option RawValue) : Operation :=
  if value.isSome then .put else .delete

variable {w : RawWalSegmentWriter} {s₁ : MfsStore} {collection : String} {key : RawKey}
  {value : Option RawValue} {version : DocumentVersion}

/-- Puts and deletes go through one append. -/
theorem appendRawWal_of_opened (hopen : s.ensureWriter crc32c = (s₁, .ok w)) (sync : Bool) :
    s.appendRawWal crc32c collection key value version sync
      = match appendRecord crc32c w (s₁.file.getD []) collection
          (opOf value) key value version false with
        | (w, bytes, .error e) =>
          ({ s₁ with writer := some w, file := some bytes }, .error e)
        | (w, bytes, .ok lsn) =>
          ({ s₁ with
              writer := some w
              file := some bytes
              walDirty := !sync
              synced := if sync then bytes.length else s₁.synced },
            .ok lsn) := by
  unfold appendRawWal
  cases value with
  | none =>
    rw [show opOf none = .delete from rfl]
    simp only [hopen, appendDeleteVersioned]
    obtain ⟨w', bytes, result⟩ := appendRecord crc32c w
      (s₁.file.getD []) collection .delete key none version false
    cases result <;> cases sync <;> rfl
  | some v =>
    rw [show opOf (some v) = .put from rfl]
    simp only [hopen, appendPutVersioned]
    obtain ⟨w', bytes, result⟩ := appendRecord crc32c w
      (s₁.file.getD []) collection .put key (some v) version false
    cases result <;> cases sync <;> rfl

/-- The store once a record is appended to its log. -/
structure Appended (crc32c : List UInt8 → UInt32) (rs : List RawWalRecord)
    (s s' : MfsStore) (r : RawWalRecord) (sync : Bool) : Prop where
  logs : Logs crc32c s' (rs ++ [r])
  above : lastLsn 0 rs < r.lsn
  keeps : KeepsSynced crc32c rs s s'
  synced : sync = true → SyncedTo crc32c s' (rs ++ [r])

/-- The store once an append was refused. -/
structure NotAppended (crc32c : List UInt8 → UInt32)
    (rs : List RawWalRecord) (s s' : MfsStore) : Prop where
  logs : Logs crc32c s' rs
  keeps : KeepsSynced crc32c rs s s'

variable {mode : DurabilityMode} {s' : MfsStore}

theorem Logs.append (h : Logs crc32c s rs) {r : RawWalRecord}
    (hr : Readable r) (hlt : lastLsn 0 rs < r.lsn) (hmax : r.lsn < u64Max)
    (hfile : s'.file = some (encodeFile crc32c rs ++ recordBytes crc32c r))
    (hw : ∀ w, s'.writer = some w → r.lsn < w.nextLsn) :
    Logs crc32c s' (rs ++ [r]) := by
  have hbytes : encodeFile crc32c (rs ++ [r]) = encodeFile crc32c rs ++ recordBytes crc32c r := by
    simp [encodeFile]
  refine ⟨h.log.append hr hlt, ?_, ⟨[], nextFrame_nil crc32c, ?_⟩, ?_⟩
  · exact forall_mem_snoc.2 ⟨h.below_max, hmax⟩
  · rw [hfile, hbytes, append_nil]
    rfl
  · intro w hsome
    rw [lastLsn_append, hbytes]
    exact ⟨hfile, hw w hsome⟩

/-- A safe append is refused and keeps the log, or extends it. -/
theorem Logs.appendRawWal (h : Logs crc32c s rs)
    (hpath : s.config.hasWalPath = true) (hsafe : SafeAppend crc32c s collection key value)
    (hversion : version < 2 ^ 64) {sync : Bool} {r : StoreResult Lsn}
    (happend : s.appendRawWal crc32c collection key value version sync = (s', r)) :
    (∃ e, r = .error e ∧ NotAppended crc32c rs s s') ∨ ∃ lsn, r = .ok lsn
      ∧ Appended crc32c rs s s' ⟨lsn, version, collection, opOf value, key, value⟩ sync := by
  obtain ⟨s₁, w, hopen, ho⟩ := h.ensureWriter hpath
  obtain ⟨hnamed, hsize, hmax⟩ := hsafe
  simp only [nextLsn, hopen] at hmax
  have hgrow := lt_saturatingSucc hmax
  rw [appendRawWal_of_opened hopen, ho.file_eq, Option.getD_some] at happend
  rcases appendRecord_cases crc32c w (encodeFile crc32c rs) collection
      (opOf value) key value version false with ⟨e, heq⟩ | ⟨henc, heq⟩
  · rw [heq] at happend
    cases happend
    refine Or.inl ⟨e, rfl, ?_, ho.synced⟩
    refine ⟨h.log, h.below_max, ⟨[], nextFrame_nil crc32c, by simp⟩, ?_⟩
    intro w' hw'
    obtain rfl := Option.some.inj hw'
    exact ⟨rfl, Nat.lt_trans ho.below hgrow⟩
  have hr : Readable ⟨w.nextLsn, version, collection, opOf value, key, value⟩ :=
    ⟨Nat.lt_trans hmax (by decide), hversion, hnamed, henc.shape,
      henc.collection_le, henc.key_le, henc.value_le, by
        rw [length_payloadBytes]
        exact hsize⟩
  rw [heq] at happend
  cases happend
  refine Or.inr ⟨w.nextLsn, rfl, h.append hr ho.below hmax rfl ?_, ho.below, ?_, ?_⟩
  · intro w' hw'
    obtain rfl := Option.some.inj hw'
    exact hgrow
  · intro front hfront hsynced
    have hle := length_encodeFile_le crc32c hfront
    show _ ≤ if sync then _ else _
    split
    · rw [length_append]
      omega
    · exact ho.synced front hfront hsynced
  · intro hsync
    subst hsync
    rw [SyncedTo, encodeFile_append]
    simp [encodeFile]

-- ===== acknowledging

theorem appendRawWal_walOnly {sync : Bool} {r : StoreResult Lsn}
    (h : s.appendRawWal crc32c collection key value version sync = (s', r)) : s.WalOnly s' := by
  have hopen := s.ensureWriter_walOnly crc32c
  unfold appendRawWal at h
  split at h
  next s₁ e heq =>
    rw [heq] at hopen
    cases h
    exact hopen
  next s₁ w heq =>
    rw [heq] at hopen
    refine hopen.trans ?_
    simp only at h
    split at h
    · cases h
      rfl
    · split at h <;> cases h <;> rfl

theorem acknowledgeWrite_logged (h : mode.logged = true) :
    s.acknowledgeWrite crc32c mode collection key value version
      = ((s.appendRawWal crc32c collection key value version mode.syncs).1,
        (s.appendRawWal crc32c collection key value version
          mode.syncs).2.map mode.acknowledge) := by
  cases mode with
  | memoryOnly | snapshotOnly => cases h
  | walAsync | walGroupCommit | walSync => rfl

section

variable {r : StoreResult WriteAcknowledgement}
  (hack : s.acknowledgeWrite crc32c mode collection key value version = (s', r))

include hack

theorem acknowledgeWrite_unlogged (h : mode.logged = false) :
    s' = s ∧ ∃ ack, r = .ok ack ∧ ack.lsn = none := by
  cases mode with
  | memoryOnly | snapshotOnly =>
    cases hack
    exact ⟨rfl, _, rfl, rfl⟩
  | walAsync | walGroupCommit | walSync => cases h

theorem acknowledgeWrite_walOnly : s.WalOnly s' := by
  cases hmode : mode.logged with
  | false =>
    rw [(acknowledgeWrite_unlogged hack hmode).1]
    exact WalOnly.refl s
  | true =>
    rw [acknowledgeWrite_logged hmode] at hack
    rw [← (Prod.mk.inj hack).1]
    exact appendRawWal_walOnly rfl

end

-- ===== writing

/-- The version the store has at an address, 0 if there is no record. -/
def versionAt (s : MfsStore) (a : String × RawKey) : DocumentVersion :=
  ((s.contents a).map RawRecord.version).getD 0

/-- The value the store has at an address. -/
def valueAt (s : MfsStore) (a : String × RawKey) : Option RawValue :=
  (s.contents a).bind RawRecord.value

section

variable {π : Type} (s : MfsStore) (collection : String) (key : RawKey)
  (value : Option RawValue) (options : WriteOptions)
  (preflight : Option RawValue → DocumentVersion → StoreResult π)

/-- A write that passed all its checks. -/
structure Admitted (c : RawCollection) (plan : π) : Prop where
  found : s.collections.lookup collection = some c
  expected : ∀ v, options.expectedVersion = some v → v = s.versionAt (collection, key)
  planned : preflight (s.valueAt (collection, key)) (s.versionAt (collection, key)) = .ok plan
  room : c.records.canInsertOrReplace key = true

/-- The WAL's part in a write. -/
abbrev acknowledged (crc32c : List UInt8 → UInt32) : MfsStore × StoreResult WriteAcknowledgement :=
  s.acknowledgeWrite crc32c (options.effectiveDurability s.config.durability) collection key value
    (wrappingSucc (s.versionAt (collection, key)))

/-- The outcomes of a write: refused by a check, refused by the log, or
done. -/
inductive WriteCases (crc32c : List UInt8 → UInt32) :
    MfsStore × StoreResult (WriteResult × π) → Prop
  | refused (e : StoreError) : WriteCases crc32c (s, .error e)
  | unlogged {c : RawCollection} {plan : π}
      (hadm : Admitted s collection key options preflight c plan)
      {s' : MfsStore} {e : StoreError}
      (hack : acknowledged s collection key value options crc32c
        = (s', .error e)) : WriteCases crc32c (s', .error e)
  | written {c : RawCollection} {plan : π}
      (hadm : Admitted s collection key options preflight c plan)
      {s' : MfsStore} {ack : WriteAcknowledgement}
      (hack : acknowledged s collection key value options crc32c = (s', .ok ack)) :
      WriteCases crc32c (s'.setCollection collection (c.afterInsert key
          ⟨value, wrappingSucc (s.versionAt (collection, key))⟩),
        .ok (⟨wrappingSucc (s.versionAt (collection, key)), ack.lsn, ack⟩, plan))

variable {s collection key value options preflight} {crc32c : List UInt8 → UInt32}
  {out : MfsStore × StoreResult (WriteResult × π)}

theorem writeWithHooks_cases
    (h : s.writeWithHooks crc32c collection key value options preflight = out) :
    WriteCases s collection key value options preflight crc32c out := by
  rw [← h]
  unfold writeWithHooks rawCollection
  cases hc : s.collections.lookup collection with
  | none => exact .refused _
  | some c =>
    have hget : c.records.get key = s.contents (collection, key) := by
      rw [contents, hc]
      rfl
    have hversion : ((c.records.get key).map RawRecord.version).getD 0
        = s.versionAt (collection, key) := by
      rw [hget]
      rfl
    have hvalue : (c.records.get key).bind RawRecord.value = s.valueAt (collection, key) := by
      rw [hget]
      rfl
    simp only [hversion, hvalue]
    split
    case isTrue => exact .refused _
    case isFalse hexp =>
      split
      next => exact .refused _
      next plan hplan =>
        split
        case isTrue => exact .refused _
        case isFalse hroom =>
          have hroom : c.records.canInsertOrReplace key = true := by
            simpa using hroom
          have hadm : Admitted s collection key options preflight c
              plan := by
            refine ⟨hc, fun v hv => ?_, hplan, hroom⟩
            by_contra hne
            refine hexp ⟨by rw [hv]; rfl, fun he => hne ?_⟩
            rw [hv] at he
            exact Option.some.inj he
          split
          next s' e hack => exact .unlogged hadm hack
          next s' ack hack =>
            have hfree :=
              (Core.ConcurrentMap.canInsertOrReplace_iff c.records key
                ⟨value, wrappingSucc (s.versionAt (collection, key))⟩).1
                hroom
            split
            next heq =>
              rw [heq] at hfree
              exact absurd rfl hfree
            next records outcome _ heq =>
              have hwritten : WriteCases s collection key value options
                preflight crc32c _ := .written hadm hack
              rw [RawCollection.afterInsert, heq, hvalue] at hwritten
              exact hwritten

end

-- ===== syncing, compacting

theorem Logs.congr (h : Logs crc32c s rs) (hfile : s'.file = s.file)
    (hw : s'.writer = s.writer) : Logs crc32c s' rs := by
  refine ⟨h.log, h.below_max, ?_, ?_⟩
  · rw [hfile]
    exact h.file_eq
  · rw [hfile, hw]
    exact h.writer_ok

theorem Opened.logs (ho : Opened crc32c rs s s' w) (h : Logs crc32c s rs) : Logs crc32c s' rs := by
  refine ⟨h.log, h.below_max, ⟨[], nextFrame_nil crc32c, ?_⟩, ?_⟩
  · rw [ho.file_eq, append_nil]
    rfl
  · intro w' hw'
    rw [ho.writer_eq] at hw'
    obtain rfl := Option.some.inj hw'
    exact ⟨ho.file_eq, ho.below⟩

/-- Syncing succeeds and keeps the log. -/
theorem Logs.syncWal (h : Logs crc32c s rs) (hpath : s.config.hasWalPath = true) :
    ∃ s', s.syncWal crc32c = (s', .ok ()) ∧ NotAppended crc32c rs s s' := by
  have hsame : NotAppended crc32c rs s s := ⟨h, fun _ _ hf => hf⟩
  unfold MfsStore.syncWal
  split
  case isTrue => exact ⟨s, rfl, hsame⟩
  case isFalse =>
    cases hw : s.writer with
    | some w =>
      obtain ⟨hfile, -⟩ := h.writer_ok w hw
      refine ⟨_, rfl, h.congr rfl hw.symm, fun front hfront _ => ?_⟩
      rw [hfile]
      exact length_encodeFile_le crc32c hfront
    | none =>
      simp only
      split
      case isTrue => exact ⟨s, rfl, hsame⟩
      case isFalse =>
        obtain ⟨s₁, w, hopen, ho⟩ := h.ensureWriter hpath
        rw [hopen]
        refine ⟨_, rfl, (ho.logs h).congr rfl rfl, fun front hfront _ => ?_⟩
        rw [ho.file_eq]
        exact length_encodeFile_le crc32c hfront

/-- A compaction succeeds and leaves the newest records, synced. -/
theorem Logs.compactWal (h : Logs crc32c s rs) (hpath : s.config.hasWalPath = true) :
    ∃ s' stats, s.compactWal crc32c = (s', .ok stats) ∧ Logs crc32c s' (newestRecords rs)
      ∧ SyncedTo crc32c s' (newestRecords rs) := by
  have hsub := newestRecords_sublist rs
  have hlog := h.log.sublist hsub
  have hbelow : ∀ r ∈ newestRecords rs, r.lsn < u64Max :=
    fun r hr => h.below_max r (hsub.subset hr)
  unfold MfsStore.compactWal
  rw [if_neg (by rw [hpath]; decide)]
  generalize hs : (if s.writer.isSome = true then
    { s with synced := (s.file.getD []).length } else s) = s₁
  have hfile₁ : s₁.file = s.file := by
    subst hs
    split <;> rfl
  have hconfig₁ : s₁.config = s.config := by
    subst hs
    split <;> rfl
  have hread := h.readRecords
  rcases h.file_cases with ⟨hfile, rfl⟩ | ⟨tail, -, hfile⟩
  · simp only [hfile₁, hfile]
    refine ⟨_, _, rfl, ⟨hlog, hbelow, ⟨[], nextFrame_nil crc32c, rfl⟩, ?_⟩, Nat.zero_le _⟩
    intro w hw
    cases hw
  · rw [hfile] at hread
    simp only [hfile₁, hfile]
    simp only [compactRawWal, hread, rewriteRecords_log crc32c (fun r hr => hlog.readable r hr)]
    -- the rewritten segment is a log that no writer has open yet
    have hnew : Logs crc32c { s₁ with
        writer := none
        walDirty := false
        file := some (encodeFile crc32c (newestRecords rs))
        synced := (encodeFile crc32c (newestRecords rs)).length }
        (newestRecords rs) := by
      refine ⟨hlog, hbelow, ⟨[], nextFrame_nil crc32c, by simp⟩, ?_⟩
      intro w hw
      cases hw
    obtain ⟨s₂, w, hopen, ho⟩ := hnew.ensureWriter (by rw [← hpath, ← hconfig₁])
    simp only [Option.getD_some, hopen]
    exact ⟨_, _, rfl, ho.logs hnew, ho.synced _ (prefix_refl _) (Nat.le_refl _)⟩

-- ===== a logged write

/-- A logged write: its record is appended, then stored as its replay
would store it. -/
structure Wrote (crc32c : List UInt8 → UInt32) (hash : RawKey → UInt64)
    (rs : List RawWalRecord) (s s' : MfsStore) (r : RawWalRecord)
    (sync : Bool) : Prop where
  middle : ∃ s₁, s.WalOnly s₁ ∧ Appended crc32c rs s s₁ r sync ∧ s' = s₁.withRecord hash r
  mem : r.collection ∈ s.collections
  room : (s.collectionFor hash r.collection).records.canInsertOrReplace r.key = true
  version_eq : r.version = wrappingSucc (s.versionAt (r.collection, r.key))

section

variable {hash : RawKey → UInt64} {r : RawWalRecord} {sync : Bool}

theorem WalOnly.collectionFor_eq (h : s.WalOnly s₁) (name : String) :
    s₁.collectionFor hash name = s.collectionFor hash name := by
  rw [collectionFor, collectionFor, h.collections_eq, h.config_eq]

section

variable (h : Wrote crc32c hash rs s s' r sync)

include h

theorem Wrote.logs : Logs crc32c s' (rs ++ [r]) := by
  obtain ⟨s₁, -, happ, rfl⟩ := h.middle
  exact happ.logs.congr rfl rfl

theorem Wrote.above : lastLsn 0 rs < r.lsn := by
  obtain ⟨s₁, -, happ, -⟩ := h.middle
  exact happ.above

theorem Wrote.config_eq : s'.config = s.config := by
  obtain ⟨s₁, hwal, -, rfl⟩ := h.middle
  exact hwal.config_eq

theorem Wrote.mem_iff (name : String) : name ∈ s'.collections ↔ name ∈ s.collections := by
  obtain ⟨s₁, hwal, -, rfl⟩ := h.middle
  rw [mem_withRecord, hwal.collections_eq]
  constructor
  · rintro (rfl | hn)
    · exact h.mem
    · exact hn
  · exact Or.inr

theorem Wrote.sound (hs : s.Sound) : s'.Sound := by
  obtain ⟨s₁, hwal, -, rfl⟩ := h.middle
  refine (hwal.sound hs).withRecord ?_ (Or.inl ?_)
  · rw [hwal.collectionFor_eq]
    exact h.room
  · rw [hwal.collections_eq]
    exact h.mem

theorem Wrote.contents_eq (hs : s.Sound) : s'.contents
      = update s.contents (address r) (some (stored r)) := by
  obtain ⟨s₁, hwal, -, rfl⟩ := h.middle
  rw [← hwal.contents_eq]
  refine (hwal.sound hs).contents_withRecord ?_
  rw [hwal.collectionFor_eq]
  exact h.room

theorem Wrote.tablesOf {base : TableBase} (ht : s.TablesOf hash base rs) :
    s'.TablesOf hash base (rs ++ [r]) := by
  obtain ⟨s₁, hwal, -, rfl⟩ := h.middle
  refine TablesOf.withRecord (fun name => ?_) r
  rw [hwal.collectionFor_eq]
  exact ht name

end

end

/-- A safe logged write is refused and keeps store and log, or is done
on both. -/
theorem Logs.writeWithHooks {π : Type} (h : Logs crc32c s rs)
    (hash : RawKey → UInt64) (hpath : s.config.hasWalPath = true)
    (hsafe : SafeAppend crc32c s collection key value) {options : WriteOptions}
    (hmode : options.effectiveDurability s.config.durability = mode)
    (hlogged : mode.logged = true)
    {preflight : Option RawValue → DocumentVersion → StoreResult π}
    {s' : MfsStore} {r : StoreResult (WriteResult × π)}
    (heq : s.writeWithHooks crc32c collection key value options preflight = (s', r)) :
    (∃ e, r = .error e ∧ s.WalOnly s' ∧ NotAppended crc32c rs s s')
      ∨ ∃ lsn version plan, r = .ok (⟨version, some lsn, mode.acknowledge lsn⟩, plan)
        ∧ Wrote crc32c hash rs s s' ⟨lsn, version, collection, opOf value, key, value⟩
          mode.syncs := by
  have hversion : wrappingSucc (s.versionAt (collection, key)) < 2 ^ 64 :=
    Nat.mod_lt _ (by decide)
  obtain ⟨⟨s₁, r₁⟩, hout⟩ : ∃ out, s.appendRawWal crc32c collection key value
    (wrappingSucc (s.versionAt (collection, key))) mode.syncs = out := ⟨_, rfl⟩
  have hwal := appendRawWal_walOnly hout
  have happend := h.appendRawWal hpath hsafe hversion hout
  cases writeWithHooks_cases heq with
  | refused e => exact Or.inl ⟨e, rfl, WalOnly.refl s, h, fun _ _ hf => hf⟩
  | @unlogged c plan hadm s' e hrefused =>
    rw [acknowledged, hmode, acknowledgeWrite_logged hlogged, hout] at hrefused
    rcases happend with ⟨e', rfl, hnot⟩ | ⟨lsn, rfl, -⟩
    · cases hrefused
      exact Or.inl ⟨_, rfl, hwal, hnot⟩
    · cases hrefused
  | @written c plan hadm s' ack hdone =>
    rw [acknowledged, hmode, acknowledgeWrite_logged hlogged, hout] at hdone
    rcases happend with ⟨e', rfl, -⟩ | ⟨lsn, rfl, happ⟩
    · cases hdone
    cases hdone
    have hfound : s₁.collections.lookup collection = some c := by
      rw [hwal.collections_eq]
      exact hadm.found
    rw [DurabilityMode.lsn_acknowledge hlogged]
    refine Or.inr ⟨lsn, _, plan, rfl, ⟨s₁, hwal, happ, ?_⟩, ?_, ?_, rfl⟩
    · exact setCollection_eq_withRecord (r := ⟨lsn, wrappingSucc
        (s.versionAt (collection, key)), collection, opOf value, key,
        value⟩) hfound
    · exact AList.lookup_isSome.1 (by rw [hadm.found]; rfl)
    · rw [collectionFor, hadm.found]
      exact hadm.room

end

end MfsStore

end MemoryFirst.Store
