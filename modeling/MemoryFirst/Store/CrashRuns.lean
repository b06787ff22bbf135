/-
Crash and recovery cycles of a raw store with a WAL and a checkpoint
directory.

# The world

A store, its WAL file and a checkpoint directory. The store answers
calls; a checkpoint is written under the LSN of the last acknowledged
write; a crash keeps the synced bytes of the WAL and any number of the
bytes behind them, and is followed by a recovery from the directory and
what is left of the WAL, which then goes on taking calls.

# The specification

`durable` computes from the answers alone what must be there after any
number of crashes: the last acknowledged write of a key, if it was
acknowledged as on disk.

# The result

`durable_writes_kept` holds for the runs in which no crash leaves a WAL
that ends before the LSN of the latest checkpoint. A recovery skips the
records up to that LSN, and a WAL that ends before it hands the same
LSNs out again: `reused_lsn_lost`.
-/
import MemoryFirst.Store.CheckpointRuns

namespace MemoryFirst.Store

open Lib Wal Checkpoint MfsStore Function

-- ===== the world

/-- A running system: the store, or the error of its last recovery, and
what survives it. -/
structure CrashWorld where
  engine : StoreResult MfsStore
  dir : CheckpointDir
  lastAcknowledged : Lsn

inductive CrashAction where
  | call (call : RawCall)
  | checkpoint
  | crash (kept : Nat)
  deriving DecidableEq

/-- What a crash leaves of the WAL: the synced bytes, and those of the
rest that had reached the disk. -/
def MfsStore.survivingFile (s : MfsStore) (kept : Nat) : Option (List UInt8) :=
  s.file.map fun bytes => bytes.take (max kept s.synced)

/-- The LSN of the last acknowledged write, after one more answer. -/
def acknowledgedLsn (last : Lsn) (e : RawCall × RawReply) : Lsn :=
  match acknowledgedWrite e with
  | some (_, result) => result.lsn.getD last
  | none => last

variable (crc32c : List UInt8 → UInt32)

section

variable (hash : RawKey → UInt64)

/-- A store that was not recovered takes no actions. -/
def crashStep (w : CrashWorld) (action : CrashAction) : CrashWorld × Option RawReply :=
  match w.engine with
  | .error _ => (w, none)
  | .ok s =>
    match action with
    | .call call =>
      let (s, reply) := rawCall crc32c hash s call
      ({ w with
          engine := .ok s
          lastAcknowledged :=
            acknowledgedLsn w.lastAcknowledged (call, reply) },
        some reply)
    | .checkpoint =>
      ({ w with
          dir := (writeRawCheckpointToDir crc32c w.dir s
            w.lastAcknowledged).1 },
        none)
    | .crash kept =>
      let file := s.survivingFile kept
      ({ w with
          engine := (recoverRawCheckpointThenWal crc32c hash w.dir
            s.config file (file.getD []).length).map
              RawRecovery.engine },
        none)

/-- An opened store without checkpoints. -/
def CrashWorld.opened (s : MfsStore) : CrashWorld := ⟨.ok s, ∅, 0⟩

end

-- ===== the specification

/-- The acknowledgements that promise the write to be on disk. -/
def WriteAcknowledgement.onDisk : WriteAcknowledgement → Bool
  | .walGroupCommitted _ => true
  | .walSynced _ => true
  | _ => false

variable (d : String × RawKey → Option RawRecord)

/-- The promises after one more acknowledged write: its own, or none for
its key. -/
def promise (w : RawWrite) (result : WriteResult) : String × RawKey → Option RawRecord :=
  update d (w.collection, w.key)
    (if result.acknowledgement.onDisk then some ⟨w.value, result.version⟩
      else none)

variable (e : CrashAction × Option RawReply)

def durableStep : String × RawKey → Option RawRecord :=
  match e with
  | (.call call, some reply) =>
    match acknowledgedWrite (call, reply) with
    | some (w, result) => promise d w result
    | none => d
  | _ => d

variable (history : List (CrashAction × Option RawReply))

/-- The record of each key whose last acknowledged write was acknowledged
as on disk. -/
def durable : String × RawKey → Option RawRecord :=
  history.foldl durableStep fun _ => none

/-- The store is up and has every record it promised. -/
def NoneLost (w : CrashWorld) (history : List (CrashAction × Option RawReply)) : Prop :=
  ∃ s, w.engine = .ok s ∧ ∀ a x, durable history a = some x → s.contents a = some x

-- ===== the condition

/-- The records a reader finds in a WAL file. -/
def recordsIn (file : Option (List UInt8)) : List RawWalRecord :=
  (readRecords crc32c file).toOption.getD []

/-- What the code does not check before a call, a checkpoint or a
recovery. -/
def SafeAction (hash : RawKey → UInt64) (w : CrashWorld) (action : CrashAction) : Prop :=
  match w.engine with
  | .error _ => True
  | .ok s =>
    match action with
    | .call call => SafeLogged crc32c s call ∧ call ≠ .createRawCollection ""
        ∧ ∀ x ∈ call.write?, s.versionAt (x.collection, x.key) < u64Max
    | .checkpoint => w.lastAcknowledged ≤ lastLsn 0 (recordsIn crc32c s.file)
    | .crash kept =>
      let start := recoveryStart (latestCheckpoint crc32c w.dir)
      let rs := recordsIn crc32c (s.survivingFile kept)
      -- the WAL that is left reaches the latest checkpoint
      start.2 ≤ lastLsn 0 rs ∧ MfsStore.LogFits hash (snapshotBase s.config start.1)
          (after start.2 rs)

instance (crc32c : List UInt8 → UInt32) (s : MfsStore) (call : RawCall) :
    Decidable (SafeLogged crc32c s call) := by
  unfold SafeLogged
  infer_instance

instance (crc32c : List UInt8 → UInt32) (hash : RawKey → UInt64)
    (w : CrashWorld) (action : CrashAction) :
    Decidable (SafeAction crc32c hash w action) := by
  unfold SafeAction
  split
  · infer_instance
  · split <;> infer_instance

-- ===== the invariant

/-- A version as a checkpoint can store it. -/
def Versioned (x : RawRecord) : Prop := 0 < x.version ∧ x.version < 2 ^ 64

theorem versioned_wrappingSucc {old version : DocumentVersion}
    (h : old < u64Max) (hversion : version = wrappingSucc old)
    (value : Option RawValue) : Versioned ⟨value, version⟩ := by
  have hlt : old + 1 < 2 ^ 64 := Nat.lt_of_le_of_lt h (by decide)
  rw [hversion, Versioned, wrappingSucc, Nat.mod_eq_of_lt hlt]
  exact ⟨Nat.succ_pos _, hlt⟩

/-- Recovering from `snapshot` under `lsn` gives back what was promised,
whatever a crash leaves of the log `rs` behind its synced front `ss`. -/
structure Recoverable (d : String × RawKey → Option RawRecord)
    (s : MfsStore) (rs ss : List RawWalRecord) (snapshot : RawStoreSnapshot)
    (lsn : Lsn) (f : String × RawKey → Option RawRecord) : Prop where
  keyed : snapshot.Keyed
  holds : ∀ a x, f a = some x ↔ snapshot.Holds a x
  versioned : ∀ a x, f a = some x → Versioned x
  named : ∀ c ∈ snapshot.collections, c.name ∈ s.collections
  covered : ∀ r ∈ rs, r.lsn ≤ lsn →
    r.collection ∈ snapshot.collections.map RawCollectionSnapshot.name
  le_last : lsn ≤ lastLsn 0 rs
  recovers : ∀ front, ss <+: front → front <+: rs → lsn ≤ lastLsn 0 front → ∀ a x, d a = some x →
      overlayLog f (after lsn front) a = some x

/-- What a safe run keeps, for the log `rs` with the synced front `ss`
and the promises `d`. -/
structure CrashInv (crc32c : List UInt8 → UInt32)
    (config : MfsStoreConfig) (s : MfsStore) (dir : CheckpointDir)
    (lastAcknowledged : Lsn) (rs ss : List RawWalRecord)
    (d : String × RawKey → Option RawRecord) : Prop where
  config_eq : s.config = config
  sound : s.Sound
  logs : s.Logs crc32c rs
  front : ss <+: rs
  synced : s.SyncedTo crc32c ss
  live : ∀ a x, d a = some x → s.contents a = some x
  le_acknowledged : lastLsn 0 rs ≤ lastAcknowledged
  named : ∀ r ∈ rs, r.collection ∈ s.collections
  nonempty : ∀ name ∈ s.collections, name ≠ ""
  versioned : ∀ a x, s.contents a = some x → Versioned x
  logged : ∀ r ∈ rs, Versioned (MfsStore.stored r)
  dir_le : DirUpTo crc32c dir (recoveryStart (latestCheckpoint crc32c dir)).2
  start : ∃ f, Recoverable d s rs ss (recoveryStart (latestCheckpoint crc32c dir)).1
    (recoveryStart (latestCheckpoint crc32c dir)).2 f

section

variable {crc32c : List UInt8 → UInt32} {hash : RawKey → UInt64}
  {config : MfsStoreConfig} {s s' : MfsStore} {dir : CheckpointDir}
  {last : Lsn} {rs ss : List RawWalRecord}
  {d : String × RawKey → Option RawRecord}
  {snapshot : RawStoreSnapshot} {lsn : Lsn}
  {f : String × RawKey → Option RawRecord}

-- ===== quiet calls

theorem Recoverable.mono (h : Recoverable d s rs ss snapshot lsn f)
    (hnames : ∀ name ∈ s.collections, name ∈ s'.collections) :
    Recoverable d s' rs ss snapshot lsn f :=
  ⟨h.keyed, h.holds, h.versioned, fun c hc => hnames _ (h.named c hc),
    h.covered, h.le_last, h.recovers⟩

theorem CrashInv.quiet (h : CrashInv crc32c config s dir last rs ss d) {call : RawCall}
    (hcall : call ≠ .createRawCollection "") (hq : Quiet hash s s' call)
    (hnot : NotAppended crc32c rs s s') :
    CrashInv crc32c config s' dir last rs ss d := by
  refine ⟨hq.config_eq.trans h.config_eq, hq.sound, hnot.logs, h.front,
    hnot.keeps ss h.front h.synced, ?_, h.le_acknowledged,
    fun r hr => hq.keeps _ (h.named r hr), fun name hname => ?_, ?_,
    h.logged, h.dir_le, ?_⟩
  · rw [hq.contents_eq]
    exact h.live
  · rcases hq.new name hname with hold | hnew
    · exact h.nonempty name hold
    · rintro rfl
      exact hcall hnew
  · rw [hq.contents_eq]
    exact h.versioned
  · obtain ⟨f, hf⟩ := h.start
    exact ⟨f, hf.mono hq.keeps⟩

-- ===== acknowledged writes

variable {version : DocumentVersion} {w : RawWrite} {ack : WriteAcknowledgement}
  {result : WriteResult}

/-- What is promised of a key other than the written one was promised
before. -/
theorem promise_eq_some {a : String × RawKey} {x : RawRecord} (h : promise d w result a = some x) :
    (a = (w.collection, w.key) ∧ result.acknowledgement.onDisk = true
        ∧ x = ⟨w.value, result.version⟩)
      ∨ (a ≠ (w.collection, w.key) ∧ d a = some x) := by
  unfold promise at h
  by_cases ha : a = (w.collection, w.key)
  · rw [ha, update_self] at h
    split at h
    case isTrue hdisk => exact Or.inl ⟨ha, hdisk, (Option.some.inj h).symm⟩
    case isFalse => cases h
  · rw [update_of_ne ha] at h
    exact Or.inr ⟨ha, h⟩

/-- The mode that syncs acknowledges the write as on disk, and only it. -/
theorem onDisk_acknowledge (mode : DurabilityMode) (lsn : Lsn) :
    (mode.acknowledge lsn).onDisk = mode.syncs := by
  cases mode <;> rfl

theorem onDisk_of_lsn_none (h : ack.lsn = none) : ack.onDisk = false := by
  cases ack with
  | memoryOnly | snapshotOnly | walBuffered _ => rfl
  | walGroupCommitted _ | walSynced _ => cases h

/-- What an acknowledged write leaves in memory is what it promises. -/
theorem live_update {r : RawWalRecord} (hr : r = w.record r.lsn result.version)
    (hlive : ∀ a x, d a = some x → s.contents a = some x)
    (a : String × RawKey) (x : RawRecord) (hx : promise d w result a = some x) :
    update s.contents (address r) (some (stored r)) a = some x := by
  rw [hr]
  rcases promise_eq_some hx with ⟨rfl, -, rfl⟩ | ⟨hne, hd⟩
  · exact update_self ..
  · rw [update_of_ne (by exact hne)]
    exact hlive a x hd

theorem versioned_update {g : String × RawKey → Option RawRecord}
    (h : ∀ a x, g a = some x → Versioned x) {b : String × RawKey}
    {y : RawRecord} (hy : Versioned y) (a : String × RawKey) (x : RawRecord)
    (hx : update g b (some y) a = some x) : Versioned x := by
  by_cases hab : a = b
  · rw [hab, update_self] at hx
    rw [← Option.some.inj hx]
    exact hy
  · rw [update_of_ne hab] at hx
    exact h a x hx

/-- A logged write goes behind the snapshot. -/
theorem Recoverable.write (h : Recoverable d s rs ss snapshot lsn f)
    (hfront : ss <+: rs) {own : Lsn} {sync : Bool} (hack : ack.onDisk = sync)
    (hw : Wrote crc32c hash rs s s' (w.record own version) sync) :
    Recoverable (promise d w ⟨version, some own, ack⟩) s' (rs ++ [w.record own version])
      (if sync then rs ++ [w.record own version] else ss) snapshot lsn
      f := by
  have hlt : lsn < own := Nat.lt_of_le_of_lt h.le_last hw.above
  refine ⟨h.keyed, h.holds, h.versioned, fun c hc => ?_, fun r hr hle => ?_,
    ?_, fun front hss hrs hlast a x hx => ?_⟩
  · exact (hw.mem_iff _).2 (h.named c hc)
  · rcases mem_snoc.1 hr with hr | rfl
    · exact h.covered r hr hle
    · exact absurd hle (Nat.not_le.2 hlt)
  · rw [lastLsn_append]
    exact Nat.le_of_lt hlt
  rcases List.prefix_concat_iff.1 hrs with rfl | hrs
  · rw [after_append, if_pos (by exact hlt), overlayLog_snoc]
    rcases promise_eq_some hx with ⟨rfl, -, rfl⟩ | ⟨hne, hd⟩
    · exact update_self ..
    · rw [update_of_ne (by exact hne)]
      exact h.recovers rs hfront (List.prefix_refl rs) h.le_last a x hd
  -- the crash takes the record away, so it was not promised
  rcases promise_eq_some hx with ⟨-, hdisk, -⟩ | ⟨-, hd⟩
  · rw [show sync = true from hack.symm.trans hdisk, if_pos rfl] at hss
    have hlen := (hss.trans hrs).length_le
    exact absurd hlen (by simp)
  refine h.recovers front ?_ hrs hlast a x hd
  split at hss
  case isTrue => exact hfront.trans ((List.prefix_append rs _).trans hss)
  case isFalse => exact hss

section

variable (h : CrashInv crc32c config s dir last rs ss d)

include h

theorem CrashInv.write {own : Lsn} {sync : Bool} (hack : ack.onDisk = sync)
    (hw : Wrote crc32c hash rs s s' (w.record own version) sync)
    (hversion : s.versionAt (w.collection, w.key) < u64Max) :
    CrashInv crc32c config s' dir own (rs ++ [w.record own version])
      (if sync then rs ++ [w.record own version] else ss)
      (promise d w ⟨version, some own, ack⟩) := by
  have hnew : Versioned (stored (w.record own version)) :=
    versioned_wrappingSucc hversion hw.version_eq w.value
  refine ⟨hw.config_eq.trans h.config_eq, hw.sound h.sound, hw.logs, ?_, ?_,
    ?_, ?_, fun r hr => (hw.mem_iff _).2 ?_, fun name hname => ?_, ?_, ?_,
    h.dir_le, ?_⟩
  · split
    · exact List.prefix_refl _
    · exact h.front.trans (List.prefix_append _ _)
  · obtain ⟨s₁, -, happ, rfl⟩ := hw.middle
    split
    case isTrue hsync => exact happ.synced hsync
    case isFalse => exact happ.keeps ss h.front h.synced
  · rw [hw.contents_eq h.sound]
    exact live_update rfl h.live
  · rw [lastLsn_append]
    exact Nat.le_refl _
  · rcases mem_snoc.1 hr with hr | rfl
    · exact h.named r hr
    · exact hw.mem
  · exact h.nonempty name ((hw.mem_iff name).1 hname)
  · rw [hw.contents_eq h.sound]
    exact versioned_update h.versioned hnew
  · exact forall_mem_snoc.2 ⟨h.logged, hnew⟩
  · obtain ⟨f, hf⟩ := h.start
    exact ⟨f, hf.write h.front hack hw⟩

/-- A write in memory only takes the promise of its key back. -/
theorem CrashInv.unlogged (hack : ack.lsn = none)
    (hv : version = wrappingSucc (s.versionAt (w.collection, w.key)))
    (hmem : w.collection ∈ s.collections)
    (hroom : (s.collectionFor hash w.collection).records.canInsertOrReplace w.key = true)
    (hversion : s.versionAt (w.collection, w.key) < u64Max) :
    CrashInv crc32c config (s.withRecord hash (w.record 0 version)) dir last
      rs ss (promise d w ⟨version, none, ack⟩) := by
  have hnew : Versioned (stored (w.record 0 version)) :=
    versioned_wrappingSucc hversion hv w.value
  have hcontents := h.sound.contents_withRecord (r := w.record 0 version) hroom
  have hkeeps : ∀ name ∈ s.collections,
      name ∈ (s.withRecord hash (w.record 0 version)).collections :=
    fun name hname => (mem_withRecord s _ name).2 (Or.inr hname)
  have hpromised : ∀ a x, promise d w ⟨version, none, ack⟩ a = some x → d a = some x := by
    intro a x hx
    rcases promise_eq_some hx with ⟨-, hdisk, -⟩ | ⟨-, hd⟩
    · rw [onDisk_of_lsn_none hack] at hdisk
      cases hdisk
    · exact hd
  refine ⟨h.config_eq, h.sound.withRecord hroom (Or.inl hmem),
    h.logs.congr rfl rfl, h.front, h.synced, ?_, h.le_acknowledged,
    fun r hr => hkeeps _ (h.named r hr), fun name hname => ?_, ?_, h.logged,
    h.dir_le, ?_⟩
  · rw [hcontents]
    exact live_update rfl h.live
  · rcases (mem_withRecord s _ name).1 hname with rfl | hname
    · exact h.nonempty _ hmem
    · exact h.nonempty name hname
  · rw [hcontents]
    exact versioned_update h.versioned hnew
  · obtain ⟨f, hf⟩ := h.start
    have hmono := hf.mono hkeeps
    exact ⟨f, hmono.keyed, hmono.holds, hmono.versioned, hmono.named,
      hmono.covered, hmono.le_last, fun front hss hrs hlast a x hx =>
        hmono.recovers front hss hrs hlast a x (hpromised a x hx)⟩

-- ===== compacting

theorem CrashInv.compact (hwal : s.WalOnly s') (hlogs : s'.Logs crc32c (newestRecords rs))
    (hsynced : s'.SyncedTo crc32c (newestRecords rs)) :
    CrashInv crc32c config s' dir last (newestRecords rs) (newestRecords rs) d := by
  have hsub := (newestRecords_sublist rs).subset
  refine ⟨hwal.config_eq.trans h.config_eq, hwal.sound h.sound, hlogs,
    List.prefix_refl _, hsynced, ?_, ?_, fun r hr => ?_, ?_, ?_,
    fun r hr => h.logged r (hsub hr), h.dir_le, ?_⟩
  · rw [hwal.contents_eq]
    exact h.live
  · rw [lastLsn_newestRecords]
    exact h.le_acknowledged
  · rw [hwal.collections_eq]
    exact h.named r (hsub hr)
  · rw [hwal.collections_eq]
    exact h.nonempty
  · rw [hwal.contents_eq]
    exact h.versioned
  · obtain ⟨f, hf⟩ := h.start
    refine ⟨f, hf.keyed, hf.holds, hf.versioned, ?_, fun r hr => hf.covered r (hsub hr), ?_,
      fun front hss hrs hlast a x hx => ?_⟩
    · rw [hwal.collections_eq]
      exact hf.named
    · rw [lastLsn_newestRecords]
      exact hf.le_last
    · rw [hrs.eq_of_length_le hss.length_le, overlayLog_after_newestRecords h.logs.log]
      exact hf.recovers rs h.front (List.prefix_refl rs) hf.le_last a x hx

-- ===== calls, checkpoints

/-- One safe call keeps the invariant. -/
theorem CrashInv.call (hpath : config.hasWalPath = true) {call : RawCall}
    (hsafe : SafeLogged crc32c s call)
    (hcall : call ≠ .createRawCollection "")
    (hversion : ∀ x ∈ call.write?, s.versionAt (x.collection, x.key) < u64Max) :
    ∃ rs' ss', CrashInv crc32c config (rawCall crc32c hash s call).1 dir
      (acknowledgedLsn last (call, (rawCall crc32c hash s call).2)) rs' ss'
      (durableStep d (.call call, some (rawCall crc32c hash s call).2)) := by
  have hpath : s.config.hasWalPath = true := by rw [h.config_eq, hpath]
  have heffect := rawCall_effect hash h.logs h.sound hpath hsafe
  generalize rawCall crc32c hash s call = out at heffect ⊢
  cases heffect with
  | quiet hreply hstep hq hnot =>
    simp only [acknowledgedLsn, durableStep, hreply]
    exact ⟨rs, ss, h.quiet hcall hq hnot⟩
  | @logged _ w hwrite hmode s' own version hw =>
    simp only [acknowledgedLsn, durableStep, acknowledgedWrite_ok hwrite]
    exact ⟨_, _, h.write (onDisk_acknowledge (w.mode s) own) hw (hversion w hwrite)⟩
  | @unlogged _ w hwrite hmode version ack hack hv hmem hroom =>
    simp only [acknowledgedLsn, durableStep, acknowledgedWrite_ok hwrite]
    exact ⟨rs, ss, h.unlogged hack hv hmem hroom (hversion w hwrite)⟩
  | compacted hwal hlogs hsynced => exact ⟨_, _, h.compact hwal hlogs hsynced⟩

section

variable (hlast : last ≤ lastLsn 0 rs)

include hlast

/-- A checkpoint of the live store has what was promised, and is behind
every record of the log. -/
theorem CrashInv.recoverable_rawSnapshot : Recoverable d s rs ss s.rawSnapshot last s.contents := by
  have hnames : ∀ name, name ∈ s.rawSnapshot.collections.map
      RawCollectionSnapshot.name ↔ name ∈ s.collections :=
    fun name => (names_rawSnapshot s).mem_iff
  refine ⟨h.sound.keyed_rawSnapshot,
    fun a x => h.sound.holds_rawSnapshot.symm, h.versioned, fun c hc => ?_,
    fun r hr _ => ?_, hlast, fun front _ hrs _ a x hx => ?_⟩
  · exact (hnames c.name).1 (List.mem_map_of_mem hc)
  · exact (hnames r.collection).2 (h.named r hr)
  · have hnil : after last front = [] := by
      refine after_eq_nil (h.logs.log.sublist hrs.sublist) ?_
      exact Nat.le_trans (h.logs.log.lastLsn_le hrs) h.le_acknowledged
    rw [hnil]
    exact h.live a x hx

/-- A checkpoint that cannot be encoded changes nothing, and any other is
the one the next recovery starts from. -/
theorem CrashInv.checkpoint_start :
    (writeRawCheckpointToDir crc32c dir s last).1 = dir ∨ recoveryStart (latestCheckpoint crc32c
          (writeRawCheckpointToDir crc32c dir s last).1)
        = (s.rawSnapshot, last)
        ∧ DirUpTo crc32c (writeRawCheckpointToDir crc32c dir s last).1
          last := by
  unfold writeRawCheckpointToDir
  simp only
  split
  next => exact Or.inl rfl
  next bytes hencode =>
    obtain ⟨f, hf⟩ := h.start
    have hmax : last < u64Max := Nat.lt_of_le_of_lt hlast
      (lastLsn_lt_of_forall h.logs.below_max (by decide))
    have hdir : DirUpTo crc32c dir last := fun e he decoded hd =>
      Nat.le_trans (h.dir_le e he decoded hd) (Nat.le_trans hf.le_last h.le_acknowledged)
    obtain ⟨decoded, hdecode, hsnapshot, hown⟩ :=
      decodeCheckpoint_encoded crc32c hencode (storable_rawSnapshot h.sound h.nonempty h.versioned)
        (Nat.lt_trans hmax (by decide))
    obtain ⟨hlatest, hdir⟩ := latestCheckpoint_insert hdir hdecode hown
    refine Or.inr ⟨?_, hdir⟩
    rw [hlatest, recoveryStart, hsnapshot, hown]

theorem CrashInv.checkpoint : CrashInv crc32c config s (writeRawCheckpointToDir crc32c dir s last).1
      last rs ss d := by
  rcases h.checkpoint_start hlast with heq | ⟨hstart, hdir⟩
  · rw [heq]
    exact h
  refine ⟨h.config_eq, h.sound, h.logs, h.front, h.synced, h.live,
    h.le_acknowledged, h.named, h.nonempty, h.versioned, h.logged, ?_,
    s.contents, ?_⟩
  · rw [hstart]
    exact hdir
  · rw [hstart]
    exact h.recoverable_rawSnapshot hlast

end

-- ===== crashes

end

/-- The store's file after a crash, as a recovery finds it. -/
def MfsStore.crashed (s : MfsStore) (kept : Nat) : MfsStore :=
  { s with
    writer := none
    file := s.survivingFile kept
    synced := ((s.survivingFile kept).getD []).length }

theorem MfsStore.getD_survivingFile (s : MfsStore) (kept : Nat) : (s.survivingFile kept).getD []
      = (s.file.getD []).take (max kept s.synced) := by
  unfold survivingFile
  cases s.file with
  | none => exact List.take_nil.symm
  | some bytes => rfl

/-- A crash leaves the whole records in front of the cut. -/
theorem MfsStore.Logs.crashed (h : s.Logs crc32c rs) (kept : Nat) : (s.crashed kept).Logs crc32c
        (wholeWithin crc32c (max kept s.synced) rs)
      ∧ (s.crashed kept).SyncedTo crc32c (wholeWithin crc32c (max kept s.synced) rs) := by
  have hcut := wholeWithin_prefix crc32c (max kept s.synced) rs
  have hsub := hcut.sublist
  obtain ⟨tail, htorn, hfile⟩ := h.file_eq
  obtain ⟨tail', htorn', hleft⟩ := take_frames crc32c h.log.payload_lt htorn (max kept s.synced)
  rw [← hfile, ← getD_survivingFile] at hleft
  refine ⟨⟨h.log.sublist hsub, fun r hr => h.below_max r (hsub.subset hr),
    ⟨tail', htorn', hleft⟩, ?_⟩, ?_⟩
  · intro w hw
    cases hw
  · show _ ≤ ((s.survivingFile kept).getD []).length
    rw [hleft, List.length_append]
    omega

theorem MfsStore.Logs.recordsIn_eq (h : s.Logs crc32c rs) : recordsIn crc32c s.file = rs := by
  rw [recordsIn, h.readRecords]
  rfl

/-- The recovery behind a crash goes through if and only if the records
find room. -/
theorem CrashInv.recover_cases (hash : RawKey → UInt64)
    (h : CrashInv crc32c config s dir last rs ss d)
    (hvalid : validateStoreConfig config = .ok ()) (kept : Nat) :
    let start := recoveryStart (latestCheckpoint crc32c dir)
    let behind := after start.2 (wholeWithin crc32c (max kept s.synced) rs)
    let file := s.survivingFile kept
    let recovered := recoverRawCheckpointThenWal crc32c hash dir config file (file.getD []).length
    MfsStore.FitsOrFull (MfsStore.LogFits hash (snapshotBase config start.1) behind) recovered
      fun recovery =>
        RecoveredTo config start.1 behind file (file.getD []).length recovery.engine := by
  have hcut := wholeWithin_prefix crc32c (max kept s.synced) rs
  obtain ⟨hlogs, -⟩ := h.logs.crashed kept
  obtain ⟨f, hf⟩ := h.start
  exact Checkpoint.recover_cases hlogs hvalid rfl hf.keyed
    (by rw [← h.config_eq]; exact h.sound.limit) hf.named
    (fun r hr => h.named r (hcut.subset hr))

/-- A crash and the recovery behind it. -/
theorem CrashInv.crash (h : CrashInv crc32c config s dir last rs ss d)
    {kept lsn : Nat} {snapshot : RawStoreSnapshot} {left : List RawWalRecord} {s' : MfsStore}
    (hstart : recoveryStart (latestCheckpoint crc32c dir) = (snapshot, lsn))
    (hleft : wholeWithin crc32c (max kept s.synced) rs = left) (hreach : lsn ≤ lastLsn 0 left)
    (hrec : RecoveredTo config snapshot (after lsn left) (s.survivingFile kept)
      ((s.survivingFile kept).getD []).length s') :
    CrashInv crc32c config s' dir last left left d := by
  have hcut := wholeWithin_prefix crc32c (max kept s.synced) rs
  have hkept : ss <+: wholeWithin crc32c (max kept s.synced) rs :=
    prefix_wholeWithin crc32c h.front (Nat.le_trans h.synced (by omega))
  obtain ⟨hlogs, hsynced⟩ := h.logs.crashed kept
  obtain ⟨f, hf⟩ := h.start
  have hdir := h.dir_le
  rw [hstart] at hf hdir
  rw [hleft] at hcut hkept hlogs hsynced
  have hmem : ∀ r ∈ left, r ∈ rs := fun r hr => hcut.subset hr
  have hcontents := hrec.contents_eq f hf.holds
  -- a record up to the checkpoint has its collection in the snapshot
  have hnamed : ∀ r ∈ left, r.collection ∈ s'.collections := by
    intro r hr
    refine (hrec.names _).2 ?_
    by_cases hle : r.lsn ≤ lsn
    · exact Or.inl (hf.covered r (hmem r hr) hle)
    · exact Or.inr ⟨r, List.mem_filter.2 ⟨hr, decide_eq_true (Nat.not_le.1 hle)⟩, rfl⟩
  have hknown : ∀ name ∈ s'.collections, name ∈ s.collections := by
    intro name hname
    rcases (hrec.names name).1 hname with hn | ⟨r, hr, rfl⟩
    · obtain ⟨c, hc, rfl⟩ := List.mem_map.1 hn
      exact hf.named c hc
    · exact h.named r (hmem r (List.mem_of_mem_filter hr))
  refine ⟨hrec.config_eq, hrec.sound,
    hlogs.congr hrec.file_eq hrec.writer_eq, List.prefix_refl _, ?_,
    fun a x hx => ?_, ?_, hnamed,
    fun name hname => h.nonempty name (hknown name hname),
    fun a x hx => ?_, fun r hr => h.logged r (hmem r hr), ?_, f, ?_⟩
  · unfold SyncedTo at hsynced ⊢
    rw [hrec.synced_eq]
    exact hsynced
  · rw [hcontents]
    exact hf.recovers left hkept hcut hreach a x hx
  · exact Nat.le_trans (h.logs.log.lastLsn_le hcut) h.le_acknowledged
  · rw [hcontents] at hx
    rcases overlay_eq_some hx with hx | ⟨r, hr, -, rfl⟩
    · exact hf.versioned a x hx
    · exact h.logged r (hmem r (List.mem_of_mem_filter hr))
  · rw [hstart]
    exact hdir
  · rw [hstart]
    refine ⟨hf.keyed, hf.holds, hf.versioned, fun c hc => ?_,
      fun r hr => hf.covered r (hmem r hr), hreach,
      fun front hss hrs hle => hf.recovers front (hkept.trans hss) (hrs.trans hcut) hle⟩
    exact (hrec.names c.name).2 (Or.inl (List.mem_map_of_mem hc))

end

-- ===== whole runs

theorem durable_append : durable (history ++ [e]) = durableStep (durable history) e := by
  simp [durable]

/-- The world is up, and its store keeps the invariant. -/
def CrashRel (config : MfsStoreConfig)
    (w : CrashWorld) (history : List (CrashAction × Option RawReply)) :
    Prop :=
  ∃ s rs ss, w.engine = .ok s ∧ CrashInv crc32c config s w.dir w.lastAcknowledged rs ss
      (durable history)

/-- One safe action keeps the invariant. -/
theorem CrashRel.step {crc32c : List UInt8 → UInt32}
    (hash : RawKey → UInt64) {config : MfsStoreConfig}
    (hvalid : validateStoreConfig config = .ok ())
    (hpath : config.hasWalPath = true) {w : CrashWorld}
    {history : List (CrashAction × Option RawReply)}
    (h : CrashRel crc32c config w history) {action : CrashAction}
    (hsafe : SafeAction crc32c hash w action) :
    CrashRel crc32c config (crashStep crc32c hash w action).1
      (history ++ [(action, (crashStep crc32c hash w action).2)]) := by
  obtain ⟨s, rs, ss, hup, hi⟩ := h
  unfold CrashRel
  rw [durable_append]
  cases action with
  | call call =>
    simp only [SafeAction, hup] at hsafe
    obtain ⟨hlogged, hname, hversion⟩ := hsafe
    obtain ⟨rs', ss', hnext⟩ := hi.call hpath hlogged hname hversion
    simp only [crashStep, hup]
    exact ⟨_, rs', ss', rfl, hnext⟩
  | checkpoint =>
    simp only [SafeAction, hup, hi.logs.recordsIn_eq] at hsafe
    simp only [crashStep, hup]
    exact ⟨s, rs, ss, rfl, hi.checkpoint hsafe⟩
  | crash kept =>
    have hleft := (hi.logs.crashed kept).1.recordsIn_eq
    simp only [crashed] at hleft
    simp only [SafeAction, hup, hleft, hi.config_eq] at hsafe
    rcases hi.recover_cases hash hvalid kept with ⟨-, recovery, heq, hrec⟩ | ⟨hno, -⟩
    · simp only [crashStep, hup, hi.config_eq, heq]
      exact ⟨recovery.engine, _, _, rfl, hi.crash rfl rfl hsafe.1 hrec⟩
    · exact absurd hsafe.2 hno

variable (config : MfsStoreConfig)

/-- Nothing is logged and nothing promised yet. -/
theorem crashInv_opened : CrashInv crc32c config
      (fresh config none 0) ∅ 0 [] [] fun _ => none := by
  refine ⟨rfl, sound_fresh config none 0, logs_fresh crc32c config,
    List.prefix_refl _, Nat.zero_le _, nofun, Nat.le_refl _, nofun, nofun, nofun, nofun,
    dirUpTo_empty crc32c _, fun _ => none, ⟨List.nodup_nil, nofun⟩, fun a x => ⟨nofun, ?_⟩,
    nofun, nofun, nofun, Nat.le_refl _, nofun⟩
  rintro ⟨c, hc, -⟩
  cases hc

theorem crashRel_opened : CrashRel crc32c config
      (CrashWorld.opened (fresh config none 0)) [] :=
  ⟨_, [], [], rfl, crashInv_opened crc32c config⟩

/-- In every run whose actions are all safe, and so after every recovery
in it, the store has each record it acknowledged as on disk, unless a
later write of the key was acknowledged. -/
theorem durable_writes_kept (crc32c : List UInt8 → UInt32)
    (hash : RawKey → UInt64) (config : MfsStoreConfig)
    (hpath : config.hasWalPath = true) (start : MfsStore)
    (hopen : openMemory config none 0 = .ok start)
    (actions : List CrashAction)
    (hsafe : Guarded (crashStep crc32c hash) (SafeAction crc32c hash)
      (CrashWorld.opened start) actions) :
    NoneLost (exec (crashStep crc32c hash) (CrashWorld.opened start) actions)
      (trace (crashStep crc32c hash) (CrashWorld.opened start) actions) := by
  obtain ⟨hvalid, rfl⟩ := openMemory_eq_ok.1 hopen
  have hrun := exec_sim (CrashRel crc32c config)
    (fun w h action hrel hs => hrel.step hash hvalid hpath hs)
    (crashRel_opened crc32c config) hsafe
  obtain ⟨s, rs, ss, hup, hi⟩ := hrun
  exact ⟨s, hup, hi.live⟩

/-- A checkpoint of a synced write, a write that the crash takes away,
and a synced one after the recovery. -/
theorem durable_writes_kept_two_crashes : NoneLost (exec (crashStep (fun _ => 7) fun _ => 0)
        (CrashWorld.opened (MfsStore.fresh ⟨4, 8, .walSync, true⟩ none 0))
        [.call (.createRawCollection "a"), .call (.putRaw "a" [1] [2] ⟨none, none⟩), .checkpoint,
          .call (.putRaw "a" [5] [6] ⟨some .walAsync, none⟩), .crash 0,
          .call (.putRaw "a" [3] [4] ⟨none, none⟩), .crash 50])
      (trace (crashStep (fun _ => 7) fun _ => 0)
        (CrashWorld.opened (MfsStore.fresh ⟨4, 8, .walSync, true⟩ none 0))
        [.call (.createRawCollection "a"), .call (.putRaw "a" [1] [2] ⟨none, none⟩), .checkpoint,
          .call (.putRaw "a" [5] [6] ⟨some .walAsync, none⟩), .crash 0,
          .call (.putRaw "a" [3] [4] ⟨none, none⟩), .crash 50]) :=
  durable_writes_kept (fun _ => 7) (fun _ => 0) ⟨4, 8, .walSync, true⟩ rfl
    _ rfl _ (by decide +kernel)

/-- A checkpoint of a write that the first crash takes away, and a synced
write that gets its LSN. -/
def lossyRun : List CrashAction :=
  [.call (.createRawCollection "a"),
    .call (.putRaw "a" [1] [2] ⟨some .walAsync, none⟩), .checkpoint,
    .crash 0, .call (.putRaw "a" [3] [4] ⟨none, none⟩), .crash 0]

/-- The second recovery succeeds without the synced write, which is on
disk and has an LSN that the checkpoint is said to cover. -/
theorem reused_lsn_lost : durable (trace (crashStep (fun _ => 7) fun _ => 0)
        (CrashWorld.opened (MfsStore.fresh ⟨4, 8, .walSync, true⟩ none 0))
        lossyRun) ("a", [3]) = some ⟨some [4], 1⟩
      ∧ (exec (crashStep (fun _ => 7) fun _ => 0)
          (CrashWorld.opened (MfsStore.fresh ⟨4, 8, .walSync, true⟩ none 0))
          lossyRun).engine.map (fun s => s.contents ("a", [3]))
        = .ok none := by
  decide +kernel

end MemoryFirst.Store
