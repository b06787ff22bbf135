/-
A checkpoint taken anywhere in a run, and the log behind it, against the
live store at the end of the run.

# What agrees

Recovering from the checkpoint and the log, replaying the whole log, and
the live store hold the same records, versions and tombstones, and count
the same live records (`checkpoint_then_log_rebuilds`). They need not
have the same empty collections: creating a collection is not logged, so
one that was never written exists in the live store and in checkpoints
taken later, and nowhere else (`created_collection_not_recovered`).

# How

The run keeps `overlayLog (contents at the checkpoint) (log behind it)`
equal to the effect of the whole log: an append adds to both, and a
compaction removes a record behind the checkpoint only for a later one.
-/
import MemoryFirst.Store.Proofs.Checkpoint
import MemoryFirst.Store.RawRuns

namespace MemoryFirst.Store

open Lib Wal Checkpoint MfsStore

/-- The LSN of the last logged write of a run, 0 before the first. -/
def lastLogged (history : List (RawCall × RawReply)) : Lsn :=
  lastLsn 0 (logOf history)

/-- The two stores hold the same records, versions and tombstones and
count the same live ones; `s` has every collection that was written and
none that `live` has not. -/
structure SameRecords (live : MfsStore)
    (history : List (RawCall × RawReply)) (s : MfsStore) : Prop where
  contents_eq : s.contents = live.contents
  liveCount_eq : ∀ name, s.liveCount name = live.liveCount name
  collections : ∀ name ∈ s.collections, name ∈ live.collections
  written : ∀ e ∈ history, ∀ name, wroteTo e = some name → name ∈ s.collections

variable {crc32c : List UInt8 → UInt32} {config : MfsStoreConfig} {hash : RawKey → UInt64}

section

variable {s : MfsStore} {history : List (RawCall × RawReply)}

-- ===== collections

variable {rs : List RawWalRecord} {lsn : Lsn} {name : String}
  {f : String × RawKey → Option RawRecord}

section

variable (crc32c : List UInt8 → UInt32) (hash : RawKey → UInt64)

/-- No call removes a collection. -/
theorem mem_rawCall (s : MfsStore) (call : RawCall) (h : name ∈ s.collections) :
    name ∈ (rawCall crc32c hash s call).1.collections := by
  cases call with
  | createRawCollection created => exact mem_createRawCollection hash s created h
  | putRaw collection key value options =>
    have heq : s.writeWithHooks crc32c collection key (some value) options noPreflight = (_, _) :=
      rfl
    exact mem_writeWithHooks heq h
  | deleteRaw collection key options =>
    have heq : s.writeWithHooks crc32c collection key none options noPreflight = (_, _) := rfl
    exact mem_writeWithHooks heq h
  | syncWal =>
    show name ∈ (s.syncWal crc32c).1.collections
    rw [(s.syncWal_walOnly crc32c).collections_eq]
    exact h
  | compactWal =>
    show name ∈ (s.compactWal crc32c).1.collections
    rw [(s.compactWal_walOnly crc32c).collections_eq]
    exact h

theorem mem_exec_rawCall (calls : List RawCall) (h : name ∈ s.collections) :
    name ∈ (exec (rawCall crc32c hash) s calls).collections :=
  exec_inv (fun s => name ∈ s.collections) (fun s call hs _ => mem_rawCall crc32c hash s call hs) h
    (guarded_true s calls)

end

-- ===== the log

/-- The log behind `lsn`, laid over `f`, has the effect of the whole. -/
structure Splits (f : String × RawKey → Option RawRecord) (lsn : Lsn)
    (rs : List RawWalRecord) : Prop where
  effect : overlayLog f (after lsn rs) = overlayLog (fun _ => none) rs
  le_last : lsn ≤ lastLsn 0 rs

theorem Splits.self (hlog : Log rs) : Splits (overlayLog (fun _ => none) rs) (lastLsn 0 rs) rs := by
  refine ⟨?_, Nat.le_refl _⟩
  rw [after_eq_nil hlog (Nat.le_refl _)]
  rfl

theorem Splits.append (h : Splits f lsn rs) {r : RawWalRecord}
    (hr : lastLsn 0 rs < r.lsn) : Splits f lsn (rs ++ [r]) := by
  have hlt : lsn < r.lsn := Nat.lt_of_le_of_lt h.le_last hr
  refine ⟨?_, ?_⟩
  · rw [after_append, if_pos hlt, overlayLog_snoc, h.effect, overlayLog_snoc]
  · rw [lastLsn_append]
    exact Nat.le_of_lt hlt

theorem Splits.compact (h : Splits f lsn rs) (hlog : Log rs) : Splits f lsn (newestRecords rs) := by
  refine ⟨?_, ?_⟩
  · rw [overlayLog_after_newestRecords hlog, h.effect, overlayLog_newestRecords]
  · rw [lastLsn_newestRecords]
    exact h.le_last

/-- A checkpoint keeps splitting the log as the run goes on. -/
theorem Splits.run (hpath : config.hasWalPath = true) (hi : RawInv crc32c hash config s history)
    (h : Splits f lsn (logOf history)) {calls : List RawCall}
    (hsafe : Guarded (rawCall crc32c hash) (SafeCall crc32c) s calls) :
    Splits f lsn (logOf (history ++ trace (rawCall crc32c hash) s calls)) := by
  have hrun := exec_sim (fun s h => RawInv crc32c hash config s h ∧ Splits f lsn (logOf h))
    (fun s h call hrel hs => by
      obtain ⟨hi, hsplit⟩ := hrel
      have hnext := hi.call hpath hs
      refine ⟨hnext, ?_⟩
      have hlog := hnext.logs.log
      rw [logOf_append] at hlog ⊢
      rcases logStep_cases (logOf h) (call, (rawCall crc32c hash s call).2)
        with heq | ⟨r, heq⟩ | heq
      · rw [heq]
        exact hsplit
      · rw [heq] at hlog ⊢
        exact hsplit.append hlog.lastLsn_lt
      · rw [heq]
        exact hsplit.compact hi.logs.log)
    ⟨hi, h⟩ hsafe
  exact hrun.2

-- ===== the checkpoint

/-- What a run leaves can be stored in a checkpoint, if no collection
was created without a name. -/
theorem RawInv.storable (h : RawInv crc32c hash config s history)
    (hnamed : ∀ e ∈ history, e.1 ≠ .createRawCollection "") :
    Storable s.rawSnapshot := by
  refine storable_rawSnapshot h.sound (fun name hname => ?_) (fun a x hx => ?_)
  · obtain ⟨e, he, hcall⟩ := h.created name hname
    rintro rfl
    exact hnamed e he hcall
  · rw [h.contents_eq] at hx
    rcases overlay_eq_some hx with hnone | ⟨r, hr, -, rfl⟩
    · cases hnone
    · have hr' := h.versions r hr
      have hmax : r.lsn < 2 ^ 64 := Nat.lt_trans (h.logs.below_max r hr) (by decide)
      exact ⟨hr'.1, Nat.lt_of_le_of_lt hr'.2 hmax⟩

end

-- ===== the result

/-- A run with a checkpoint in it. -/
structure CheckpointedRun where
  config : MfsStoreConfig
  start : MfsStore
  before : List RawCall
  rest : List RawCall

namespace CheckpointedRun

variable (crc32c : List UInt8 → UInt32) (hash : RawKey → UInt64) (run : CheckpointedRun)

/-- The store at the checkpoint. -/
def middle : MfsStore := exec (rawCall crc32c hash) run.start run.before

/-- The LSN the checkpoint is written with. -/
def checkpointLsn : Lsn :=
  lastLogged (trace (rawCall crc32c hash) run.start run.before)

/-- The live store at the end. -/
def live : MfsStore :=
  exec (rawCall crc32c hash) run.start (run.before ++ run.rest)

def history : List (RawCall × RawReply) :=
  trace (rawCall crc32c hash) run.start (run.before ++ run.rest)

end CheckpointedRun

section

variable {s : MfsStore} {history : List (RawCall × RawReply)}

/-- A sound store with the contents of the live one and the collections
of its log. -/
theorem RawInv.sameRecords (h : RawInv crc32c hash config s history)
    {s' : MfsStore} (hs' : s'.Sound) (hcontents : s'.contents = s.contents)
    (hsub : ∀ name ∈ s'.collections, name ∈ s.collections)
    (hlog : ∀ r ∈ logOf history, r.collection ∈ s'.collections) :
    SameRecords s history s' := by
  refine ⟨hcontents, fun name => ?_, hsub, fun e he name hname => ?_⟩
  · rw [hs'.liveCount_eq, h.sound.liveCount_eq, hcontents]
  · obtain ⟨r, hr, rfl⟩ := h.wrote e he name hname
    exact hlog r hr

theorem MfsStore.mem_of_contents {a : String × RawKey}
    (h : (s.contents a).isSome) : a.1 ∈ s.collections := by
  obtain ⟨x, hx⟩ := Option.isSome_iff_exists.1 h
  obtain ⟨c, hc, -⟩ := Option.bind_eq_some_iff.1 hx
  exact AList.lookup_isSome.1 (by rw [hc]; rfl)

/-- A checkpoint of an earlier store `m`, under an LSN that splits the
log, recovers the live store. -/
theorem RawInv.recovers (h : RawInv crc32c hash config s history)
    (hvalid : validateStoreConfig config = .ok ()) {m : MfsStore}
    (hm : m.Sound) (hstore : Storable m.rawSnapshot)
    (hgrow : ∀ name ∈ m.collections, name ∈ s.collections) {lsn : Lsn}
    (hlsn : lsn < 2 ^ 64) (hsplit : Splits m.contents lsn (logOf history))
    {dir : CheckpointDir} {metadata : RawCheckpointMetadata}
    (hwritten : writeRawCheckpointToDir crc32c ∅ m lsn = (dir, .ok metadata))
    (hfits : LogFits hash (snapshotBase config m.rawSnapshot)
      (after lsn (logOf history))) :
    ∃ recovery, recoverRawCheckpointThenWal crc32c hash dir config s.file s.synced = .ok recovery
      ∧ SameRecords s history recovery.engine := by
  unfold writeRawCheckpointToDir at hwritten
  simp only at hwritten
  split at hwritten
  next => cases hwritten
  next bytes hencode =>
    cases hwritten
    obtain ⟨decoded, hdecode, hsnapshot, hown⟩ :=
      decodeCheckpoint_encoded crc32c hencode hstore hlsn
    have hstart : recoveryStart (latestCheckpoint crc32c
        ((∅ : CheckpointDir).insert lsn bytes)) = (m.rawSnapshot, lsn) := by
      rw [(latestCheckpoint_insert (dirUpTo_empty crc32c lsn) hdecode hown).1]
      show (decoded.snapshot, decoded.metadata.checkpointLsn) = _
      rw [hsnapshot, hown]
    have hnames : ∀ name, name ∈ m.rawSnapshot.collections.map RawCollectionSnapshot.name →
          name ∈ s.collections := fun name hname =>
      hgrow name ((names_rawSnapshot m).subset hname)
    rcases recover_cases h.logs hvalid hstart hm.keyed_rawSnapshot
        (by rw [← h.config_eq]; exact h.sound.limit)
        (fun c hc => hnames _ (List.mem_map_of_mem hc)) h.named with
      ⟨-, recovery, heq, hrec⟩ | ⟨hno, -⟩
    · refine ⟨recovery, heq, ?_⟩
      have hcontents : recovery.engine.contents = s.contents := by
        rw [hrec.contents_eq m.contents fun a x => hm.holds_rawSnapshot.symm,
          hsplit.effect, h.contents_eq]
      refine h.sameRecords hrec.sound hcontents (fun name hname => ?_) (fun r hr => ?_)
      · rcases (hrec.names name).1 hname with hn | ⟨r, hr, rfl⟩
        · exact hnames name hn
        · exact h.named r (List.mem_of_mem_filter hr)
      · -- the record, or one that superseded it, is in the contents
        have hsome : (s.contents (address r)).isSome := by
          rw [h.contents_eq]
          exact (overlay_isSome_iff _).2 (Or.inr ⟨r, hr, rfl⟩)
        rw [← hcontents] at hsome
        exact mem_of_contents hsome
    · exact absurd hfits hno

end

/-- Recovering from a checkpoint and the log behind it, and replaying the
whole log, both give the records, versions, tombstones and live counts
of the live store. -/
theorem checkpoint_then_log_rebuilds (crc32c : List UInt8 → UInt32)
    (hash : RawKey → UInt64) (run : CheckpointedRun)
    (hopen : openMemory run.config none 0 = .ok run.start)
    (hpath : run.config.hasWalPath = true)
    (hsafe : Guarded (rawCall crc32c hash) (SafeCall crc32c) run.start (run.before ++ run.rest))
    (hnamed : .createRawCollection "" ∉ run.before) (dir : CheckpointDir)
    (metadata : RawCheckpointMetadata)
    (hwritten : writeRawCheckpointToDir crc32c ∅ (run.middle crc32c hash)
      (run.checkpointLsn crc32c hash) = (dir, .ok metadata))
    (hfits : MfsStore.LogFits hash (snapshotBase run.config (run.middle crc32c hash).rawSnapshot)
      (after (run.checkpointLsn crc32c hash) (logOf (run.history crc32c hash))))
    (hwhole : MfsStore.LogFits hash (emptyBase run.config.rawInitialCapacity)
      (logOf (run.history crc32c hash))) :
    (∃ recovery, recoverRawCheckpointThenWal crc32c hash dir run.config
          (run.live crc32c hash).file (run.live crc32c hash).synced
          = .ok recovery
        ∧ SameRecords (run.live crc32c hash) (run.history crc32c hash) recovery.engine)
      ∧ ∃ whole stats, (MfsStore.fresh run.config (run.live crc32c hash).file
            (run.live crc32c hash).synced).replayInto hash crc32c
              (run.live crc32c hash).file = .ok (whole, stats)
        ∧ SameRecords (run.live crc32c hash) (run.history crc32c hash)
          whole := by
  have hvalid := (openMemory_eq_ok.1 hopen).1
  have hi : RawInv crc32c hash run.config (run.live crc32c hash) (run.history crc32c hash) :=
    raw_run_inv crc32c hash hpath hopen hsafe
  have hguard := (guarded_append run.start run.before run.rest).1 hsafe
  have him : RawInv crc32c hash run.config (run.middle crc32c hash)
      (trace (rawCall crc32c hash) run.start run.before) :=
    raw_run_inv crc32c hash hpath hopen hguard.1
  constructor
  · have hlsn : run.checkpointLsn crc32c hash < u64Max :=
      lastLsn_lt_of_forall him.logs.below_max (by decide)
    have hself := Splits.self him.logs.log
    rw [← him.contents_eq] at hself
    have hsplit := hself.run hpath him hguard.2
    rw [CheckpointedRun.middle, ← trace_append] at hsplit
    refine hi.recovers hvalid him.sound (him.storable ?_) ?_
      (Nat.lt_trans hlsn (by decide)) hsplit hwritten hfits
    · intro e he hcall
      exact hnamed (hcall ▸ mem_of_mem_trace he)
    · intro name hname
      have hkeep := mem_exec_rawCall crc32c hash run.rest hname
      rw [CheckpointedRun.middle, ← exec_append] at hkeep
      exact hkeep
  · rcases hi.replay_cases with ⟨-, ⟨whole, stats⟩, heq, hrep⟩ | ⟨hno, -⟩
    · refine ⟨whole, stats, heq, hi.sameRecords hrep.sound
        (hi.contents_replayed hrep) (fun name hname => ?_)
        (fun r hr => (hrep.names _).2 (Or.inr ⟨r, hr, rfl⟩))⟩
      rcases (hrep.names name).1 hname with hm | ⟨r, hr, rfl⟩
      · cases hm
      · exact hi.named r hr
    · exact absurd hwhole hno

/-- A put before the checkpoint, a put and a delete behind it. -/
def exampleRun : CheckpointedRun where
  config := ⟨4, 8, .walSync, true⟩
  start := MfsStore.fresh ⟨4, 8, .walSync, true⟩ none 0
  before := [.createRawCollection "a", .putRaw "a" [1] [2] ⟨none, none⟩]
  rest := [.putRaw "a" [3] [4] ⟨none, none⟩, .deleteRaw "a" [1] ⟨some .walAsync, none⟩]

/-- The checkpoint and the log behind it hold what the live store does. -/
theorem checkpoint_then_log_rebuilds_example : ∃ dir metadata,
      writeRawCheckpointToDir (fun _ => 7) ∅ (exampleRun.middle (fun _ => 7) fun _ => 0)
          (exampleRun.checkpointLsn (fun _ => 7) fun _ => 0)
        = (dir, .ok metadata)
      ∧ ∃ recovery, recoverRawCheckpointThenWal (fun _ => 7) (fun _ => 0)
          dir exampleRun.config (exampleRun.live (fun _ => 7) fun _ => 0).file
          (exampleRun.live (fun _ => 7) fun _ => 0).synced = .ok recovery
        ∧ SameRecords (exampleRun.live (fun _ => 7) fun _ => 0)
          (exampleRun.history (fun _ => 7) fun _ => 0)
          recovery.engine := by
  cases hw : writeRawCheckpointToDir (fun _ => 7) ∅ (exampleRun.middle (fun _ => 7) fun _ => 0)
      (exampleRun.checkpointLsn (fun _ => 7) fun _ => 0) with
  | mk dir result =>
    cases result with
    | error e =>
      have hok : (writeRawCheckpointToDir (fun _ => 7) ∅ (exampleRun.middle (fun _ => 7) fun _ => 0)
          (exampleRun.checkpointLsn (fun _ => 7) fun _ => 0)).2.isOk = true := by decide +kernel
      rw [hw] at hok
      cases hok
    | ok metadata =>
      refine ⟨dir, metadata, rfl, ?_⟩
      exact (checkpoint_then_log_rebuilds (fun _ => 7) (fun _ => 0)
        exampleRun rfl rfl (by decide +kernel) (by decide) dir metadata
        hw (logFits_of_mem ((logFits_snapshotBase (by decide +kernel)).2
            (by decide +kernel)) (by decide +kernel))
        (logFits_of_mem (fun _ => rfl) (by decide +kernel))).1

/-- A collection that was created and not written is in the live store,
and a recovery knows of no collection at all. -/
theorem created_collection_not_recovered : (exec (rawCall (fun _ => 7) fun _ => 0)
        (MfsStore.fresh ⟨4, 8, .walSync, true⟩ none 0)
        [.createRawCollection "a"]).collections.keys = ["a"]
      ∧ (recoverRawCheckpointThenWal (fun _ => 7) (fun _ => 0)
          (writeRawCheckpointToDir (fun _ => 7) ∅
            (MfsStore.fresh ⟨4, 8, .walSync, true⟩ none 0) 0).1
          ⟨4, 8, .walSync, true⟩
          (exec (rawCall (fun _ => 7) fun _ => 0) (MfsStore.fresh ⟨4, 8, .walSync, true⟩ none 0)
            [.createRawCollection "a"]).file 0).map
              (fun recovery => recovery.engine.collections.keys)
        = .ok [] := by
  decide +kernel

end MemoryFirst.Store
