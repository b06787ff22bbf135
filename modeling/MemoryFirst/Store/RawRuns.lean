/-
Runs of a raw store over its WAL, and what a replay of the WAL makes of
them.

# The run

A run is any list of the store's calls, made one after another on a
store that was opened over an absent WAL. `logOf` computes from the
calls and their answers the log the run should have left: one record for
each acknowledged write, the newest of each key after a compaction.

# The result

`raw_writes_survive`: if every write is logged, names its collection,
fits the reader's payload limit and finds the LSN counter below its
maximum, the log replays into a fresh store of the same configuration
exactly when its keys find room there in the order of the log, and then
every collection that was written is rebuilt. Without a compaction the
order is the one the live store saw, and there is always room.

A table keeps the keys where it first found room for them, and a
compaction moves a key's record to where it was last written; that is
why room in the live table is not enough in general.
-/
import MemoryFirst.Store.RawCalls

namespace MemoryFirst.Store

open Lib Wal MfsStore List

-- ===== the run

variable (e : RawCall × RawReply)

/-- The collection a call wrote to, if it was acknowledged. -/
def wroteTo : Option String :=
  (acknowledgedWrite e).map fun a => a.1.collection

variable (crc32c : List UInt8 → UInt32)

/-- What a replay needs of a call and the store does not check. -/
def SafeCall (s : MfsStore) (call : RawCall) : Prop :=
  ∀ w ∈ call.write?, (w.mode s).logged = true ∧ s.SafeAppend crc32c w.collection w.key w.value

instance (crc32c : List UInt8 → UInt32) (s : MfsStore) (call : RawCall) :
    Decidable (SafeCall crc32c s call) := by
  unfold SafeCall
  infer_instance

variable (hash : RawKey → UInt64)

/-- Replaying the WAL of `live` into a fresh store of its configuration
succeeds and rebuilds every collection the history wrote to. -/
def ReplayRebuilds (live : MfsStore) (history : List (RawCall × RawReply)) : Prop :=
  ∃ fresh recovered stats, openMemory live.config live.file live.synced = .ok fresh
      ∧ fresh.replayInto hash crc32c live.file = .ok (recovered, stats)
      ∧ ∀ e ∈ history, ∀ name, wroteTo e = some name → ∃ c c', live.collections.lookup name = some c
          ∧ recovered.collections.lookup name = some c'
          ∧ c'.records.get = c.records.get

/-- The acknowledged writes of a run survive a restart. -/
def RunSurvives (start : MfsStore) (calls : List RawCall) : Prop :=
  ReplayRebuilds crc32c hash (exec (rawCall crc32c hash) start calls)
    (trace (rawCall crc32c hash) start calls)

-- ===== the invariant

/-- What a safe run keeps. -/
structure RawInv (crc32c : List UInt8 → UInt32) (hash : RawKey → UInt64)
    (config : MfsStoreConfig) (s : MfsStore)
    (history : List (RawCall × RawReply)) : Prop where
  config_eq : s.config = config
  sound : s.Sound
  logs : s.Logs crc32c (logOf history)
  contents_eq : s.contents = overlayLog (fun _ => none) (logOf history)
  named : ∀ r ∈ logOf history, r.collection ∈ s.collections
  created : ∀ name ∈ s.collections, ∃ e ∈ history, e.1 = .createRawCollection name
  versions : ∀ r ∈ logOf history, 0 < r.version ∧ r.version ≤ r.lsn
  wrote : ∀ e ∈ history, ∀ name, wroteTo e = some name → ∃ r ∈ logOf history, r.collection = name
  uncompacted : (∀ e ∈ history, e.1 ≠ .compactWal) →
    s.TablesOf hash (emptyBase config.rawInitialCapacity) (logOf history)
      ∧ MfsStore.LogFits hash (emptyBase config.rawInitialCapacity) (logOf history)

section

variable {crc32c : List UInt8 → UInt32} {hash : RawKey → UInt64}
  {config : MfsStoreConfig} {s : MfsStore}
  {history : List (RawCall × RawReply)}

section

variable (h : RawInv crc32c hash config s history)

include h

theorem RawInv.created_append {name : String} (hname : name ∈ s.collections) :
    ∃ x ∈ history ++ [e], x.1 = .createRawCollection name := by
  obtain ⟨x, hx, he⟩ := h.created name hname
  exact ⟨x, mem_append_left _ hx, he⟩

/-- The versions of a logged run stay below its LSNs. -/
theorem RawInv.versionAt_le (a : String × RawKey) : s.versionAt a ≤ lastLsn 0 (logOf history) := by
  unfold versionAt
  cases ha : s.contents a with
  | none => exact Nat.zero_le _
  | some x =>
    rw [h.contents_eq] at ha
    rcases overlay_eq_some ha with ha | ⟨r, hr, -, rfl⟩
    · cases ha
    · exact Nat.le_trans (h.versions r hr).2 (h.logs.log.le_lastLsn.2 r hr)

variable {s' : MfsStore}

/-- A call that leaves the log and every record as they are. -/
theorem RawInv.quiet {call : RawCall} {reply : RawReply}
    (hreply : acknowledgedWrite (call, reply) = none)
    (hstep : logStep (logOf history) (call, reply) = logOf history)
    (hq : Quiet hash s s' call) (hlogs : s'.Logs crc32c (logOf history)) :
    RawInv crc32c hash config s' (history ++ [(call, reply)]) := by
  have hlog : logOf (history ++ [(call, reply)]) = logOf history := by
    rw [logOf_append, hstep]
  refine ⟨hq.config_eq.trans h.config_eq, hq.sound, ?_, ?_, ?_, ?_, ?_, ?_, ?_⟩
  · rw [hlog]
    exact hlogs
  · rw [hlog, ← h.contents_eq, hq.contents_eq]
  · rw [hlog]
    exact fun r hr => hq.keeps _ (h.named r hr)
  · intro name hname
    rcases hq.new name hname with hold | he
    · exact h.created_append _ hold
    · exact ⟨_, mem_append_right _ (mem_singleton.2 rfl), he⟩
  · rw [hlog]
    exact h.versions
  · rw [hlog]
    intro x hx name hname
    rcases mem_snoc.1 hx with hx | rfl
    · exact h.wrote x hx name hname
    · rw [wroteTo, hreply] at hname
      cases hname
  · rw [hlog]
    intro hno
    obtain ⟨ht, hf⟩ := h.uncompacted fun x hx => hno x (mem_append_left _ hx)
    refine ⟨fun name => ?_, hf⟩
    rw [hq.for_eq]
    exact ht name

/-- A logged write. -/
theorem RawInv.write {e : RawCall × RawReply} {r : RawWalRecord}
    {sync : Bool} (hstep : logStep (logOf history) e = logOf history ++ [r])
    (hname : ∀ name, wroteTo e = some name → r.collection = name)
    (hw : Wrote crc32c hash (logOf history) s s' r sync) :
    RawInv crc32c hash config s' (history ++ [e]) := by
  have hlog : logOf (history ++ [e]) = logOf history ++ [r] := by
    rw [logOf_append, hstep]
  refine ⟨hw.config_eq.trans h.config_eq, hw.sound h.sound, ?_, ?_, ?_, ?_, ?_, ?_, ?_⟩
  · rw [hlog]
    exact hw.logs
  · rw [hlog, hw.contents_eq h.sound, h.contents_eq, overlayLog_snoc]
  · rw [hlog]
    intro x hx
    rw [hw.mem_iff]
    rcases mem_snoc.1 hx with hx | rfl
    · exact h.named x hx
    · exact hw.mem
  · intro name hname
    exact h.created_append e ((hw.mem_iff name).1 hname)
  · rw [hlog]
    intro x hx
    rcases mem_snoc.1 hx with hx | rfl
    · exact h.versions x hx
    rw [hw.version_eq]
    have hlt : s.versionAt (x.collection, x.key) < x.lsn :=
      Nat.lt_of_le_of_lt (h.versionAt_le _) hw.above
    have hmax : x.lsn < 2 ^ 64 := Nat.lt_trans (hw.logs.below_max x (by simp)) (by decide)
    rw [wrappingSucc, Nat.mod_eq_of_lt (Nat.lt_of_le_of_lt hlt hmax)]
    exact ⟨Nat.succ_pos _, hlt⟩
  · rw [hlog]
    intro x hx name hn
    rcases mem_snoc.1 hx with hx | rfl
    · obtain ⟨y, hy, he⟩ := h.wrote x hx name hn
      exact ⟨y, mem_append_left _ hy, he⟩
    · exact ⟨r, by simp, hname name hn⟩
  · rw [hlog]
    intro hno
    obtain ⟨ht, hf⟩ := h.uncompacted fun x hx => hno x (mem_append_left _ hx)
    refine ⟨hw.tablesOf ht, (logFits_append _ _ _).2 ⟨hf, ?_⟩⟩
    have hslot := (ht r.collection).canInsertOrReplace_eq r.key
    rw [hw.room] at hslot
    exact hslot.symm

/-- A compaction. -/
theorem RawInv.compact {stats : Option RawWalCompactionStats} (hwal : s.WalOnly s')
    (hlogs : s'.Logs crc32c (newestRecords (logOf history))) :
    RawInv crc32c hash config s' (history ++ [(.compactWal, .compacted (.ok stats))]) := by
  have hlog : logOf (history ++ [(.compactWal, .compacted (.ok stats))])
      = newestRecords (logOf history) := by
    rw [logOf_append]
    rfl
  refine ⟨hwal.config_eq.trans h.config_eq, hwal.sound h.sound, ?_, ?_, ?_, ?_, ?_, ?_, ?_⟩
  · rw [hlog]
    exact hlogs
  · rw [hlog, hwal.contents_eq, h.contents_eq, overlayLog_newestRecords]
  · rw [hlog, hwal.collections_eq]
    exact fun r hr => h.named r ((newestRecords_sublist _).subset hr)
  · intro name hname
    rw [hwal.collections_eq] at hname
    exact h.created_append _ hname
  · rw [hlog]
    exact fun r hr => h.versions r ((newestRecords_sublist _).subset hr)
  · rw [hlog]
    intro x hx name hn
    rw [collection_mem_congr (overlayLog_newestRecords _ _)]
    rcases mem_snoc.1 hx with hx | rfl
    · exact h.wrote x hx name hn
    · cases hn
  · intro hno
    exact absurd rfl (hno _ (mem_append_right _ (mem_singleton.2 rfl)))

/-- One safe call keeps the invariant. -/
theorem RawInv.call (hpath : config.hasWalPath = true) {call : RawCall}
    (hsafe : SafeCall crc32c s call) :
    RawInv crc32c hash config (rawCall crc32c hash s call).1
      (history ++ [(call, (rawCall crc32c hash s call).2)]) := by
  have hpath : s.config.hasWalPath = true := by rw [h.config_eq, hpath]
  have heffect := rawCall_effect hash h.logs h.sound hpath (fun w hw _ => (hsafe w hw).2)
  generalize rawCall crc32c hash s call = out at heffect ⊢
  cases heffect with
  | quiet hreply hstep hq hnot => exact h.quiet hreply hstep hq hnot.logs
  | logged hcall hmode hw =>
    refine h.write (logStep_logged _ hcall _ _ _) (fun name hname => ?_) hw
    rw [wroteTo, acknowledgedWrite_ok hcall] at hname
    exact Option.some.inj hname
  | unlogged hcall hmode =>
    have hlogged := (hsafe _ hcall).1
    rw [hmode] at hlogged
    cases hlogged
  | compacted hwal hlogs hsynced => exact h.compact hwal hlogs

/-- What the log holds decides what its replay makes of it. -/
theorem RawInv.replay_cases :
    FitsOrFull (LogFits hash (emptyBase config.rawInitialCapacity) (logOf history))
      ((fresh config s.file s.synced).replayInto hash crc32c s.file) fun out =>
        (fresh config s.file s.synced).ReplayedTo (logOf history) out.1 := by
  have hconfig := h.config_eq
  subst hconfig
  have hscan := h.logs.scan (applyRawRecord hash) (fresh s.config s.file s.synced)
  unfold replayInto
  rw [hscan]
  have hown : ∀ name ∈ (fresh s.config s.file s.synced).collections,
      name ∈ s.collections.keys := by
    intro name hname
    cases hname
  rcases replay_log (sound_fresh s.config s.file s.synced) (tablesOf_empty hash rfl)
      (fun _ => rfl) (logOf history) (fun r hr => (h.logs.log.readable r hr).shape)
      h.sound.limit hown h.named with
    ⟨hfits, s', heq, hrep, -⟩ | ⟨hno, name, heq⟩
  · rw [heq]
    exact Or.inl ⟨hfits, _, rfl, hrep⟩
  · rw [heq]
    exact Or.inr ⟨hno, name, rfl⟩

/-- A replayed log holds what the live store does. -/
theorem RawInv.contents_replayed {file : Option (List UInt8)} {synced : Nat}
    (hrep : (fresh config file synced).ReplayedTo
      (logOf history) s') : s'.contents = s.contents := by
  rw [hrep.contents_eq, h.contents_eq]
  rfl

theorem RawInv.replay (hvalid : validateStoreConfig config = .ok ()) :
    ReplayRebuilds crc32c hash s history ↔
      LogFits hash (emptyBase config.rawInitialCapacity) (logOf history) := by
  have hopen : openMemory s.config s.file s.synced = .ok (fresh config s.file s.synced) :=
    openMemory_eq_ok.2 ⟨by rw [h.config_eq]; exact hvalid, by rw [h.config_eq]⟩
  constructor
  · rintro ⟨fresh, recovered, stats, hfresh, hreplay, -⟩
    rw [hopen] at hfresh
    cases hfresh
    rcases h.replay_cases with ⟨hfits, -⟩ | ⟨-, name, hfull⟩
    · exact hfits
    · rw [hfull] at hreplay
      cases hreplay
  · intro hfits
    rcases h.replay_cases with ⟨-, ⟨s', stats⟩, heq, hrep⟩ | ⟨hno, -⟩
    · refine ⟨_, s', stats, hopen, heq, ?_⟩
      intro e he name hname
      obtain ⟨r, hr, rfl⟩ := h.wrote e he name hname
      obtain ⟨c, hc⟩ := Option.isSome_iff_exists.1 (AList.lookup_isSome.2 (h.named r hr))
      obtain ⟨c', hc'⟩ := Option.isSome_iff_exists.1
        (AList.lookup_isSome.2 ((hrep.names r.collection).2 (Or.inr ⟨r, hr, rfl⟩)))
      refine ⟨c, c', hc, hc', funext fun k => ?_⟩
      have hk := congrFun (h.contents_replayed hrep) (r.collection, k)
      simpa only [contents, hc, hc', Option.bind_some] using hk
    · exact absurd hfits hno

end

end

-- ===== whole runs

theorem raw_run_inv (hash : RawKey → UInt64) {config : MfsStoreConfig}
    (hpath : config.hasWalPath = true) {start : MfsStore}
    (hopen : openMemory config none 0 = .ok start)
    {calls : List RawCall}
    (hsafe : Guarded (rawCall crc32c hash) (SafeCall crc32c) start calls) :
    RawInv crc32c hash config (exec (rawCall crc32c hash) start calls)
      (trace (rawCall crc32c hash) start calls) := by
  obtain ⟨-, rfl⟩ := openMemory_eq_ok.1 hopen
  have hstart : RawInv crc32c hash config (fresh config none 0) [] := by
    refine ⟨rfl, sound_fresh config none 0, logs_fresh crc32c config, rfl, nofun, nofun, nofun,
      ?_, fun _ => ⟨tablesOf_empty hash rfl, fun _ => rfl⟩⟩
    intro e he
    cases he
  have hrun := exec_sim (fun s h => RawInv crc32c hash config s h)
    (fun s h call hi hs => hi.call hpath hs) hstart hsafe
  rwa [nil_append] at hrun

/-- The acknowledged writes of a safe run survive a restart exactly when
the keys of the log fit a fresh table in the order of the log, and they
always do if the log was never compacted. -/
theorem raw_writes_survive (crc32c : List UInt8 → UInt32)
    (hash : RawKey → UInt64) (config : MfsStoreConfig)
    (hmode : config.durability = .walSync) (start : MfsStore)
    (hopen : openMemory config none 0 = .ok start)
    (calls : List RawCall)
    (hsafe : Guarded (rawCall crc32c hash) (SafeCall crc32c) start calls) :
    (RunSurvives crc32c hash start calls ↔ MfsStore.LogFits hash
          (emptyBase config.rawInitialCapacity)
          (logOf (trace (rawCall crc32c hash) start calls)))
      ∧ (.compactWal ∉ calls → RunSurvives crc32c hash start calls) := by
  have hvalid := (openMemory_eq_ok.1 hopen).1
  have hpath := hasWalPath_of_valid hvalid (by rw [hmode]; rfl)
  have hi := raw_run_inv crc32c hash hpath hopen hsafe
  have hiff := hi.replay hvalid
  refine ⟨hiff, fun hno => hiff.2 (hi.uncompacted fun e he hcall => ?_).2⟩
  exact hno (hcall ▸ mem_of_mem_trace he)

/-- A put, a delete and another put, of two keys. -/
theorem raw_writes_survive_three_writes : RunSurvives (fun _ => 7) (fun _ => 0)
      (MfsStore.fresh ⟨4, 8, .walSync, true⟩ none 0)
      [.createRawCollection "a", .putRaw "a" [1] [2] ⟨none, none⟩,
        .deleteRaw "a" [1] ⟨none, some 1⟩,
        .putRaw "a" [3] [4] ⟨some .walAsync, none⟩] :=
  (raw_writes_survive (fun _ => 7) (fun _ => 0) ⟨4, 8, .walSync, true⟩ rfl
    _ rfl _ (by decide +kernel)).2 (by decide)

/-- A collection without a name is created and written, every call is
answered with Ok, and the WAL does not replay. -/
theorem unnamed_collection_lost : (∀ e ∈ trace (rawCall (fun _ => 7) fun _ => 0)
        (MfsStore.fresh ⟨4, 8, .walSync, true⟩ none 0)
        [.createRawCollection "", .putRaw "" [1] [2] ⟨none, none⟩],
      e.2.isOk = true)
      ∧ ¬ RunSurvives (fun _ => 7) (fun _ => 0) (MfsStore.fresh ⟨4, 8, .walSync, true⟩ none 0)
        [.createRawCollection "", .putRaw "" [1] [2] ⟨none, none⟩] := by
  refine ⟨by decide +kernel, ?_⟩
  intro ⟨fresh, recovered, stats, hopen, hreplay, _⟩
  obtain ⟨-, rfl⟩ := openMemory_eq_ok.1 hopen
  have hfail : Except.isOk _ = true := congrArg Except.isOk hreplay
  exact absurd hfail (by decide +kernel)

end MemoryFirst.Store
