/-
What the recoveries of a raw store can find.

# Possible recoveries

A crash cuts the log somewhere behind its synced front, so that one store
has many recoveries: `Recovers` is the set of their contents. A property
of the contents survives every crash if all of these have it.

# The invariant

`RecoveryInv P` says so of a property `P`, beside the invariant of the
crash runs. A write keeps it if the live contents keep `P` and either all
writes are logged, so that the recovery of the whole log is the live
store, or none is, so that there is no log.
-/
import MemoryFirst.Store.CrashRuns

namespace MemoryFirst.Store

open Lib Wal Checkpoint

/-- What a property of a store is about. -/
abbrev Contents := String × RawKey → Option RawRecord

/-- The contents a recovery can find, from the directory and a log `rs`
with the synced front `ss`. -/
def Recovers (crc32c : List UInt8 → UInt32) (dir : CheckpointDir)
    (rs ss : List RawWalRecord) (g : Contents) : Prop :=
  ∃ (f : Contents) (front : List RawWalRecord), (∀ a x, f a = some x ↔
      (recoveryStart (latestCheckpoint crc32c dir)).1.Holds a x)
    ∧ ss <+: front ∧ front <+: rs
    ∧ (recoveryStart (latestCheckpoint crc32c dir)).2 ≤ lastLsn 0 front
    ∧ g = MfsStore.overlayLog f (after (recoveryStart (latestCheckpoint crc32c dir)).2 front)

/-- The live store and all its recoveries have the property. -/
structure RecoveryInv (P : Contents → Prop) (crc32c : List UInt8 → UInt32) (config : MfsStoreConfig)
    (s : MfsStore) (dir : CheckpointDir) (last : Lsn)
    (rs ss : List RawWalRecord) : Prop where
  crash : CrashInv crc32c config s dir last rs ss fun _ => none
  live : P s.contents
  recovers : ∀ g, Recovers crc32c dir rs ss g → P g
  /-- With all writes logged, the whole log gives the live store back. -/
  logged : config.durability.logged = true → ∀ f : Contents, (∀ a x, f a = some x ↔
      (recoveryStart (latestCheckpoint crc32c dir)).1.Holds a x) →
    MfsStore.overlayLog f (after (recoveryStart (latestCheckpoint crc32c dir)).2 rs) = s.contents
  unlogged : config.durability.logged = false → rs = []

section

variable {P : Contents → Prop} {crc32c : List UInt8 → UInt32}
  {hash : RawKey → UInt64} {config : MfsStoreConfig} {s s' : MfsStore}
  {dir : CheckpointDir} {last : Lsn} {rs ss : List RawWalRecord}

/-- Fewer promises. -/
theorem CrashInv.forget {d : Contents} (h : CrashInv crc32c config s dir last rs ss d) :
    CrashInv crc32c config s dir last rs ss fun _ => none := by
  obtain ⟨f, hf⟩ := h.start
  refine ⟨h.config_eq, h.sound, h.logs, h.front, h.synced, nofun,
    h.le_acknowledged, h.named, h.nonempty, h.versioned, h.logged, h.dir_le,
    f, hf.keyed, hf.holds, hf.versioned, hf.named, hf.covered, hf.le_last,
    ?_⟩
  intro front _ _ _ a x hx
  cases hx

section

variable (h : RecoveryInv P crc32c config s dir last rs ss)

include h

theorem RecoveryInv.quiet {call : RawCall} (hcall : call ≠ .createRawCollection "")
    (hq : Quiet hash s s' call)
    (hnot : MfsStore.NotAppended crc32c rs s s') :
    RecoveryInv P crc32c config s' dir last rs ss := by
  refine ⟨h.crash.quiet hcall hq hnot, ?_, h.recovers, ?_, h.unlogged⟩
  · rw [hq.contents_eq]
    exact h.live
  · rw [hq.contents_eq]
    exact h.logged

variable {version : DocumentVersion}

/-- A logged write. The recoveries that find its record find the live
store, and the others were there before. -/
theorem RecoveryInv.write (hmode : config.durability.logged = true) {w : RawWrite} {own : Lsn}
    {sync : Bool}
    (hw : MfsStore.Wrote crc32c hash rs s s' (w.record own version) sync)
    (hversion : s.versionAt (w.collection, w.key) < u64Max)
    (hP : P s'.contents) :
    RecoveryInv P crc32c config s' dir own (rs ++ [w.record own version])
      (if sync then rs ++ [w.record own version] else ss) := by
  -- any acknowledgement of the right kind will do for the promises
  have hcrash : ∃ ack : WriteAcknowledgement, ack.onDisk = sync := by
    cases sync with
    | true => exact ⟨.walSynced own, rfl⟩
    | false => exact ⟨.memoryOnly, rfl⟩
  obtain ⟨ack, hack⟩ := hcrash
  obtain ⟨f₀, hf₀⟩ := h.crash.start
  have hlt : (recoveryStart (latestCheckpoint crc32c dir)).2 < own :=
    Nat.lt_of_le_of_lt hf₀.le_last hw.above
  have hwhole : ∀ f : Contents, (∀ a x, f a = some x ↔
      (recoveryStart (latestCheckpoint crc32c dir)).1.Holds a x) →
      MfsStore.overlayLog f (after (recoveryStart (latestCheckpoint crc32c dir)).2
          (rs ++ [w.record own version])) = s'.contents := by
    intro f hf
    rw [after_append, if_pos (by exact hlt), MfsStore.overlayLog_snoc,
      h.logged hmode f hf, hw.contents_eq h.crash.sound]
  refine ⟨(h.crash.write hack hw hversion).forget, hP, ?_, fun _ => hwhole, fun hno => ?_⟩
  · intro g hg
    obtain ⟨f, front, hf, hss, hrs, hlast, rfl⟩ := hg
    rcases List.prefix_concat_iff.1 hrs with rfl | hrs
    · rw [hwhole f hf]
      exact hP
    refine h.recovers _ ⟨f, front, hf, ?_, hrs, hlast, rfl⟩
    split at hss
    case isTrue => exact h.crash.front.trans ((List.prefix_append rs _).trans hss)
    case isFalse => exact hss
  · rw [hmode] at hno
    cases hno

/-- A write in memory only, where nothing is logged. -/
theorem RecoveryInv.unloggedWrite (hmode : config.durability.logged = false) {w : RawWrite}
    (hv : version = wrappingSucc (s.versionAt (w.collection, w.key)))
    (hmem : w.collection ∈ s.collections)
    (hroom : (s.collectionFor hash w.collection).records.canInsertOrReplace w.key = true)
    (hversion : s.versionAt (w.collection, w.key) < u64Max)
    (hP : P (s.withRecord hash (w.record 0 version)).contents) :
    RecoveryInv P crc32c config (s.withRecord hash (w.record 0 version)) dir
      last rs ss := by
  have hack : WriteAcknowledgement.memoryOnly.lsn = none := rfl
  have hcrash := h.crash.unlogged hack hv hmem hroom hversion
  refine ⟨hcrash.forget, hP, h.recovers, fun hyes => ?_, h.unlogged⟩
  rw [hmode] at hyes
  cases hyes

/-- A checkpoint: its recoveries all find the live store. -/
theorem RecoveryInv.checkpoint (hlast : last ≤ lastLsn 0 rs) : RecoveryInv P crc32c config s
      (writeRawCheckpointToDir crc32c dir s last).1 last rs ss := by
  have hcrash := h.crash.checkpoint hlast
  rcases h.crash.checkpoint_start hlast with heq | ⟨hstart, -⟩
  · rw [heq]
    exact h
  have hcontents : ∀ f : Contents, (∀ a x, f a = some x ↔
      s.rawSnapshot.Holds a x) → f = s.contents := by
    intro f hf
    funext a
    refine Option.ext fun x => ?_
    exact (hf a x).trans h.crash.sound.holds_rawSnapshot
  have hbehind : ∀ front, front <+: rs → after last front = [] := by
    intro front hrs
    refine after_eq_nil (h.crash.logs.log.sublist hrs.sublist) ?_
    exact Nat.le_trans (h.crash.logs.log.lastLsn_le hrs) h.crash.le_acknowledged
  refine ⟨hcrash, h.live, ?_, fun _ => ?_, h.unlogged⟩
  · intro g hg
    obtain ⟨f, front, hf, -, hrs, -, rfl⟩ := hg
    rw [hstart] at hf ⊢
    rw [hbehind front hrs, hcontents f hf]
    exact h.live
  · intro f hf
    rw [hstart] at hf ⊢
    rw [hbehind rs (List.prefix_refl rs)]
    exact hcontents f hf

end

/-- A crash is followed by one of the possible recoveries, unless that
runs out of room. -/
theorem RecoveryInv.crashed {hash : RawKey → UInt64} {recovery : RawRecovery}
    (h : RecoveryInv P crc32c config s dir last rs ss)
    (hvalid : MfsStore.validateStoreConfig config = .ok ()) {kept : Nat}
    (hreach : (recoveryStart (latestCheckpoint crc32c dir)).2
      ≤ lastLsn 0 (wholeWithin crc32c (max kept s.synced) rs))
    (heq : recoverRawCheckpointThenWal crc32c hash dir config (s.survivingFile kept)
      ((s.survivingFile kept).getD []).length = .ok recovery) :
    RecoveryInv P crc32c config recovery.engine dir last
      (wholeWithin crc32c (max kept s.synced) rs) (wholeWithin crc32c (max kept s.synced) rs) := by
  rcases h.crash.recover_cases hash hvalid kept with ⟨-, recovery₁, heq₁, hrec⟩ | ⟨-, name, heq₁⟩
  · obtain rfl := Except.ok.inj (heq₁.symm.trans heq)
    have hcut := wholeWithin_prefix crc32c (max kept s.synced) rs
    have hkept : ss <+: wholeWithin crc32c (max kept s.synced) rs :=
      prefix_wholeWithin crc32c h.crash.front
        (Nat.le_trans h.crash.synced (by omega))
    obtain ⟨f, hf⟩ := h.crash.start
    refine ⟨h.crash.crash rfl rfl hreach hrec, ?_, ?_, ?_, ?_⟩
    · rw [hrec.contents_eq f hf.holds]
      exact h.recovers _ ⟨f, _, hf.holds, hkept, hcut, hreach, rfl⟩
    · intro g hg
      obtain ⟨f', front, hf', hss, hrs, hlast, rfl⟩ := hg
      exact h.recovers _ ⟨f', front, hf', hkept.trans hss, hrs.trans hcut, hlast, rfl⟩
    · intro _ f' hf'
      exact (hrec.contents_eq f' hf').symm
    · intro hmode
      rw [h.unlogged hmode] at hcut ⊢
      exact List.prefix_nil.1 hcut
  · cases heq₁.symm.trans heq

theorem recoveryInv_opened (crc32c : List UInt8 → UInt32)
    (config : MfsStoreConfig) (hP : P fun _ => none) :
    RecoveryInv P crc32c config (MfsStore.fresh config none 0) ∅ 0 [] [] := by
  have hempty : ∀ f : Contents, (∀ a x, f a = some x ↔
      (recoveryStart (latestCheckpoint crc32c ∅)).1.Holds a x) →
      f = fun _ => none := by
    intro f hf
    funext a
    refine Option.eq_none_iff_forall_ne_some.2 fun x hx => ?_
    obtain ⟨c, hc, -⟩ := (hf a x).1 hx
    cases hc
  refine ⟨crashInv_opened crc32c config, hP, ?_, ?_, fun _ => rfl⟩
  · intro g hg
    obtain ⟨f, front, hf, -, hrs, -, rfl⟩ := hg
    rw [List.prefix_nil.1 hrs, hempty f hf]
    exact hP
  · intro _ f hf
    rw [hempty f hf]
    rfl

end

end MemoryFirst.Store
