/-
Writes that fail, over whole runs of calls, I/O faults, checkpoints and
crashes.

# The machine

Every call comes with the fault its I/O meets, if any. The reply is what
the caller is told; `answered` reads off the acknowledged writes.

# The result

A failed write leaves the collections as they were, whatever failed. The
log is another matter. `rejected_writes_leave_nothing` holds for the runs
in which no write meets a failing flush or sync, and no logged write is
made with a writer whose last append failed: then whatever is recovered
from the WAL file, cut anywhere, was acknowledged. A write that is told
that its SYNC failed has its record in the log all the same, and the next
recovery brings back what was refused: `refused_put_recovered`.
-/
import MemoryFirst.Store.CompactionRuns
import MemoryFirst.Store.CrashRuns
import MemoryFirst.Store.Proofs.WalFaults

namespace MemoryFirst.Store

open Lib Checkpoint MfsStore List

-- ===== the machine

/-- A running system, as in `CrashWorld`, and whether its WAL writer was
left inside a record. -/
structure FaultWorld where
  engine : StoreResult MfsStore
  dir : CheckpointDir
  lastAcknowledged : Lsn
  jammed : Bool

inductive FaultAction where
  | call (call : RawCall) (fault : Option IoFault)
  | checkpoint
  | crash (kept : Nat)
  deriving DecidableEq

/-- Whether the writer stands inside a record once the call is answered:
an append that failed leaves it there until the segment is opened
again. -/
def jammedAfter (jammed : Bool) (s : MfsStore) : RawReply → Bool
  | .compacted (.ok (some _)) => false
  | .written (.error e) => (e.tornAppend || jammed) && s.writer.isSome
  | _ => jammed && s.writer.isSome

variable (crc32c : List UInt8 → UInt32)

section

variable (hash : RawKey → UInt64) (s : MfsStore)

def faultCall (fault : Option IoFault) : RawCall → MfsStore × RawReply
  | .createRawCollection name =>
    let (s, r) := s.createRawCollection hash name
    (s, .created r)
  | .putRaw collection key value options =>
    let (s, r) := Faulty.putRaw crc32c fault s collection key value options
    (s, .written r)
  | .deleteRaw collection key options =>
    let (s, r) := Faulty.deleteRaw crc32c fault s collection key options
    (s, .written r)
  | .syncWal =>
    let (s, r) := Faulty.syncWal crc32c fault s
    (s, .synced r)
  | .compactWal =>
    let (s, r) := Faulty.compactWal crc32c fault s
    (s, .compacted r)

/-- Without a fault a call is answered as by the store. -/
theorem faultCall_none (call : RawCall) :
    faultCall crc32c hash s none call = rawCall crc32c hash s call := by
  cases call with
  | createRawCollection name => rfl
  | putRaw collection key value options =>
    simp only [faultCall, rawCall, Faulty.putRaw, Faulty.write_none, MfsStore.putRaw]
  | deleteRaw collection key options =>
    simp only [faultCall, rawCall, Faulty.deleteRaw, Faulty.write_none, MfsStore.deleteRaw]
  | syncWal => simp only [faultCall, rawCall, Faulty.syncWal_none]
  | compactWal => simp only [faultCall, rawCall, Faulty.compactWal_none]

/-- A store that was not recovered takes no actions. -/
def faultStep (w : FaultWorld) (action : FaultAction) : FaultWorld × Option RawReply :=
  match w.engine with
  | .error _ => (w, none)
  | .ok s =>
    match action with
    | .call call fault =>
      let (s, reply) := faultCall crc32c hash s fault call
      ({ w with
          engine := .ok s
          lastAcknowledged :=
            acknowledgedLsn w.lastAcknowledged (call, reply)
          jammed := jammedAfter w.jammed s reply },
        some reply)
    | .checkpoint =>
      ({ w with
          dir := (writeRawCheckpointToDir crc32c w.dir s
            w.lastAcknowledged).1 },
        none)
    | .crash kept =>
      let file := s.survivingFile kept
      ({ w with
          engine := (recoverRawCheckpointThenWal crc32c hash w.dir
            s.config file (file.getD []).length).map RawRecovery.engine
          jammed := false },
        none)

def FaultWorld.opened : FaultWorld := ⟨.ok s, ∅, 0, false⟩

end

-- ===== the specification

/-- The acknowledged write of an answered action. -/
def answered : FaultAction × Option RawReply → Option (RawWrite × WriteResult)
  | (.call call _, some reply) => acknowledgedWrite (call, reply)
  | _ => none

variable (history : List (FaultAction × Option RawReply))

/-- Some acknowledged write stored `x` at `a`. -/
def WrittenIn (a : String × RawKey) (x : RawRecord) : Prop :=
  ∃ e ∈ history, ∃ w result, answered e = some (w, result)
    ∧ (w.collection, w.key) = a ∧ x = ⟨w.value, result.version⟩

variable (w : FaultWorld) (history : List (FaultAction × Option RawReply))

/-- Whatever is recovered from the WAL file, or from any front part of
it, into whatever empty store, was acknowledged. -/
def OnlyAcknowledged : Prop :=
  ∀ s, w.engine = .ok s → ∀ kept hash config synced start t stats,
    openMemory config (s.file.map (List.take kept)) synced = .ok start →
      start.replayInto hash crc32c (s.file.map (List.take kept)) = .ok (t, stats) →
      ∀ a x, t.contents a = some x → WrittenIn history a x

/-- The flush or the sync of a write would fail. -/
def failsSync : Option IoFault → Bool
  | some f => f.point = .flush ∨ f.point = .syncData
  | none => false

/-- What the code does not check or undo: no logged write behind a failed
append, and none whose flush or sync fails. -/
def SafeFault (action : FaultAction) : Prop :=
  match w.engine, action with
  | .ok s, .call call fault =>
    ∀ x ∈ call.write?, (x.mode s).logged = true → w.jammed = false
        ∧ ((x.mode s).syncs = true → failsSync fault = false)
  | _, _ => True

instance : (w : FaultWorld) → (action : FaultAction) → Decidable (SafeFault w action)
  | ⟨.ok s, _, _, jammed⟩, .call call fault =>
    inferInstanceAs (Decidable (∀ x ∈ call.write?, (x.mode s).logged = true → jammed = false
        ∧ ((x.mode s).syncs = true → failsSync fault = false)))
  | ⟨.ok _, _, _, _⟩, .checkpoint => isTrue trivial
  | ⟨.ok _, _, _, _⟩, .crash _ => isTrue trivial
  | ⟨.error _, _, _, _⟩, _ => isTrue trivial

-- ===== the invariant

/-- The record of an acknowledged write. -/
def RecordIn (r : RawWalRecord) : Prop :=
  ∃ e ∈ history, ∃ w result, answered e = some (w, result)
    ∧ result.lsn = some r.lsn ∧ r = w.record r.lsn result.version

/-- Every record in the WAL file of a store that is up was
acknowledged. -/
def FaultRel : Prop :=
  ∀ s, w.engine = .ok s → WalInv crc32c (RecordIn history) w.jammed s

section

variable {crc32c : List UInt8 → UInt32} {hash : RawKey → UInt64} {jammed : Bool}
  {history : List (FaultAction × Option RawReply)} {s : MfsStore} {fault : Option IoFault}
  {r : RawWalRecord}

theorem RecordIn.mono (h : RecordIn history r)
    (e : FaultAction × Option RawReply) : RecordIn (history ++ [e]) r := by
  obtain ⟨x, hx, hrest⟩ := h
  exact ⟨x, mem_append_left _ hx, hrest⟩

theorem WalInv.settle {A : RawWalRecord → Prop} (h : WalInv crc32c A jammed s) :
    WalInv crc32c A (jammed && s.writer.isSome) s := by
  obtain ⟨⟨tail, hframes, hclean⟩, hnext⟩ := h
  refine ⟨⟨tail, hframes, fun hw hj => hclean hw ?_⟩, hnext⟩
  rwa [hw, Bool.and_true] at hj

theorem syncNow_of_not_failsSync (h : failsSync fault = false) : Faulty.syncNow fault = .ok () := by
  cases fault with
  | none => rfl
  | some f =>
    simp only [failsSync, decide_eq_false_iff_not, not_or] at h
    unfold Faulty.syncNow Faulty.perform
    simp only
    rw [if_neg h.1, if_neg h.2]
    rfl

variable {s' : MfsStore}

/-- One put or delete, whichever reply it gets. -/
theorem FaultRel.write (h : WalInv crc32c (RecordIn history) jammed s)
    {call : RawCall} {x : RawWrite} (hx : call.write? = some x)
    (hsafe : (x.mode s).logged = true → jammed = false
      ∧ ((x.mode s).syncs = true → failsSync fault = false)) {result : StoreResult WriteResult}
    (hwrite : Faulty.write crc32c fault s x.collection x.key x.value
      x.options = (s', result)) : WalInv crc32c
      (RecordIn (history ++ [(.call call fault, some (.written result))]))
      (jammedAfter jammed s' (.written result)) s' := by
  have hlogged : (x.mode s).syncs = true → (x.mode s).logged = true := by
    cases x.mode s <;> simp [DurabilityMode.syncs, DurabilityMode.logged]
  rcases h.write fault (fun hl _ => (hsafe hl).1)
      (fun hs => syncNow_of_not_failsSync ((hsafe (hlogged hs)).2 hs))
      hwrite with ⟨e, rfl, hinv⟩ | ⟨res, rfl, hinv⟩
  · exact (hinv.mono fun r hr => hr.mono _).settle
  refine (hinv.mono fun r hr => ?_).settle
  rcases hr with hr | ⟨hlsn, heq⟩
  · exact hr.mono _
  · refine ⟨_, mem_append_right _ mem_cons_self, x, res, ?_, hlsn, heq⟩
    simp [answered, acknowledgedWrite, hx]

theorem FaultRel.call (h : WalInv crc32c (RecordIn history) jammed s) {call : RawCall}
    (hsafe : ∀ x ∈ call.write?, (x.mode s).logged = true →
      jammed = false ∧ ((x.mode s).syncs = true → failsSync fault = false)) :
    WalInv crc32c (RecordIn (history ++ [(.call call fault,
        some (faultCall crc32c hash s fault call).2)]))
      (jammedAfter jammed (faultCall crc32c hash s fault call).1
        (faultCall crc32c hash s fault call).2)
      (faultCall crc32c hash s fault call).1 := by
  have hmono := fun e => h.mono fun r hr => RecordIn.mono hr e
  cases call with
  | createRawCollection name =>
    have hsame : (s.createRawCollection hash name).1.file = s.file
        ∧ (s.createRawCollection hash name).1.writer = s.writer := by
      unfold createRawCollection
      split
      · exact ⟨rfl, rfl⟩
      · split <;> exact ⟨rfl, rfl⟩
    exact ((hmono _).congr hsame.1 hsame.2).settle
  | putRaw _ _ _ _ | deleteRaw _ _ _ => exact FaultRel.write h rfl (hsafe _ rfl) rfl
  | syncWal => exact ((hmono _).syncWal fault).settle
  | compactWal =>
    simp only [faultCall]
    obtain ⟨⟨s', result⟩, hout⟩ : ∃ out, Faulty.compactWal crc32c fault s = out := ⟨_, rfl⟩
    rw [hout]
    obtain ⟨hinv, hok⟩ := (hmono (.call .compactWal fault,
      some (.compacted result))).compactWal fault hout
    unfold jammedAfter
    split
    next stats heq =>
      cases heq
      exact hok stats rfl
    next heq => cases heq
    next => exact hinv.settle

/-- Replaying a record touches neither the file nor the writer. -/
theorem MfsStore.applyRawRecord_wal (h : applyRawRecord hash s r = .ok s') :
    s'.file = s.file ∧ s'.writer = s.writer := by
  have hensure : ∀ s₁, s.ensureRawCollection hash r.collection = .ok s₁ →
      s₁.file = s.file ∧ s₁.writer = s.writer := by
    intro s₁ h₁
    unfold ensureRawCollection createRawCollection at h₁
    by_cases hmem : r.collection ∈ s.collections
    · rw [if_pos hmem] at h₁
      cases h₁
      exact ⟨rfl, rfl⟩
    rw [if_neg hmem] at h₁
    by_cases hfull : s.config.maxCollections ≤ s.collections.entries.length
    · rw [if_pos hfull] at h₁
      dsimp only at h₁
      split at h₁
      · cases h₁
        exact ⟨rfl, rfl⟩
      · cases h₁
    · rw [if_neg hfull] at h₁
      cases h₁
      exact ⟨rfl, rfl⟩
  have hstore : ∀ s₁ value, applyRawReplayRecord s₁ r.collection r.key value r.version = .ok s' →
      s'.file = s₁.file ∧ s'.writer = s₁.writer := by
    intro s₁ value h₁
    obtain ⟨c, -, h₁⟩ := bind_eq_ok.1 h₁
    obtain ⟨c', -, h₁⟩ := bind_eq_ok.1 h₁
    cases h₁
    exact ⟨rfl, rfl⟩
  obtain ⟨s₁, h₁, h⟩ := bind_eq_ok.1 h
  obtain ⟨hfile, hwriter⟩ := hensure s₁ h₁
  rw [← hfile, ← hwriter]
  split at h
  · cases h
  · exact hstore s₁ _ h
  · exact hstore s₁ _ h

/-- A recovered store has the file it was recovered from, and no
writer. -/
theorem Checkpoint.recover_wal {dir : CheckpointDir}
    {config : MfsStoreConfig} {file : Option (List UInt8)} {synced : Nat}
    {recovery : RawRecovery}
    (h : recoverRawCheckpointThenWal crc32c hash dir config file synced = .ok recovery) :
    recovery.engine.file = file ∧ recovery.engine.writer = none := by
  rw [recover_eq] at h
  obtain ⟨s, hload, h⟩ := bind_eq_ok.1 h
  obtain ⟨⟨s', stats⟩, hreplay, h⟩ := bind_eq_ok.1 h
  cases h
  have hs : s.file = file ∧ s.writer = none := by
    obtain ⟨⟨⟩, -, hload⟩ := bind_eq_ok.1 hload
    split at hload
    case isTrue => cases hload
    case isFalse =>
      obtain ⟨m, -, hload⟩ := bind_eq_ok.1 hload
      cases hload
      exact ⟨rfl, rfl⟩
  obtain ⟨⟨acc, scan⟩, hscan, hout⟩ := bind_eq_ok.1 hreplay
  cases hout
  cases file with
  | none =>
    cases hscan
    exact hs
  | some bytes =>
    refine Wal.scanLoop_inv crc32c (fun acc => acc.1.file = some bytes ∧ acc.1.writer = none) ?_ hs
      hscan
    intro acc r acc' hacc hstep
    unfold applyAfter at hstep
    split at hstep
    case isTrue =>
      obtain ⟨s₁, h₁, hstep⟩ := bind_eq_ok.1 hstep
      cases hstep
      obtain ⟨hfile, hwriter⟩ := applyRawRecord_wal h₁
      exact ⟨hfile.trans hacc.1, hwriter.trans hacc.2⟩
    case isFalse =>
      cases hstep
      exact hacc

/-- One safe action keeps the invariant. -/
theorem FaultRel.step (hash : RawKey → UInt64) {w : FaultWorld}
    (h : FaultRel crc32c w history) {action : FaultAction}
    (hsafe : SafeFault w action) :
    FaultRel crc32c (faultStep crc32c hash w action).1
      (history ++ [(action, (faultStep crc32c hash w action).2)]) := by
  obtain ⟨engine, dir, last, jammed⟩ := w
  intro s' hup
  cases engine with
  | error e => cases hup
  | ok s =>
    have hinv := h s rfl
    cases action with
    | call call fault =>
      cases hup
      exact FaultRel.call hinv hsafe
    | checkpoint =>
      cases hup
      exact hinv.mono fun r hr => hr.mono _
    | crash kept =>
      simp only [faultStep] at hup ⊢
      cases hrec : recoverRawCheckpointThenWal crc32c hash dir s.config (s.survivingFile kept)
        ((s.survivingFile kept).getD []).length with
      | error e =>
        rw [hrec] at hup
        cases hup
      | ok recovery =>
        rw [hrec] at hup
        cases hup
        obtain ⟨hfile, hwriter⟩ := recover_wal hrec
        obtain ⟨⟨tail, hframes, -⟩, -⟩ := hinv
        obtain ⟨tail', hcut⟩ := hframes.take (max kept s.synced)
        have hleft : recovery.engine.file.getD [] = (s.file.getD []).take (max kept s.synced) := by
          rw [hfile, survivingFile]
          cases s.file with
          | none => simp
          | some bytes => rfl
        rw [← hleft] at hcut
        exact WalInv.of_closed (hcut.mono fun r hr => hr.mono _) hwriter false

end

-- ===== whole runs

/-- What a replay into an empty store recovers are records of the
file. -/
theorem MfsStore.replayInto_fresh {crc32c : List UInt8 → UInt32}
    {hash : RawKey → UInt64} {config : MfsStoreConfig}
    {file own : Option (List UInt8)} {synced : Nat} {start t : MfsStore}
    {stats : RawWalReplayStats}
    (hopen : openMemory config own synced = .ok start)
    (h : start.replayInto hash crc32c file = .ok (t, stats)) :
    ∃ rs, Wal.readRecords crc32c file = .ok rs ∧ t.contents = overlayLog (fun _ => none) rs := by
  obtain ⟨-, rfl⟩ := openMemory_eq_ok.1 hopen
  obtain ⟨surplus, hcounted⟩ :=
    (Started.empty hopen : Started hash _).countedUpTo
  obtain ⟨⟨t', scan⟩, hscan, hout⟩ := bind_eq_ok.1 h
  cases hout
  cases file with
  | none =>
    cases hscan
    exact ⟨[], rfl, rfl⟩
  | some bytes =>
    have hloop := hscan
    obtain ⟨rs, tail, hlog, rfl, htail⟩ :=
      Wal.scanLoop_eq_ok crc32c (by omega) hloop
    rw [Wal.scan_log crc32c htail hlog] at hscan
    obtain ⟨t'', hfold, hscan⟩ := bind_eq_ok.1 hscan
    cases hscan
    refine ⟨rs, Wal.readRecords_log crc32c htail hlog, ?_⟩
    rcases hcounted.replay (fun r hr => (hlog.readable r hr).shape) with
      ⟨e, he, -⟩ | ⟨t₁, ht₁, -, hcontents, -⟩
    · rw [he] at hfold
      cases hfold
    · rw [ht₁] at hfold
      cases hfold
      exact hcontents

/-- In every run in which no write meets a failing flush or sync and no
logged write follows a failed append of its writer: a put or delete that
returns an error, whatever failed, leaves records, versions and counts
as they were, and nothing is ever recovered from the WAL file that was
not acknowledged. -/
theorem rejected_writes_leave_nothing (crc32c : List UInt8 → UInt32)
    (hash : RawKey → UInt64) (config : MfsStoreConfig) (start : MfsStore)
    (hopen : openMemory config none 0 = .ok start)
    (actions : List FaultAction)
    (hsafe : Guarded (faultStep crc32c hash) SafeFault (FaultWorld.opened start) actions) :
    OnlyAcknowledged crc32c (exec (faultStep crc32c hash) (FaultWorld.opened start) actions)
        (trace (faultStep crc32c hash) (FaultWorld.opened start) actions)
      ∧ ∀ s, (exec (faultStep crc32c hash) (FaultWorld.opened start) actions).engine = .ok s →
        ∀ call fault s' e, faultCall crc32c hash s fault call = (s', .written (.error e)) →
          s'.contents = s.contents ∧ ∀ name, s'.collectionCount name = s.collectionCount name := by
  constructor
  · obtain ⟨-, rfl⟩ := openMemory_eq_ok.1 hopen
    have hstart : FaultRel crc32c (FaultWorld.opened (fresh config none 0)) [] := by
      intro s hs
      cases hs
      exact WalInv.of_closed Wal.framesOf_nil rfl false
    have hrun := exec_sim (FaultRel crc32c)
      (fun w h action hrel hs => hrel.step hash hs) hstart hsafe
    intro s hs kept hash' config' synced start' t stats hopen' hreplay a x hx
    obtain ⟨rs, hread, hcontents⟩ := replayInto_fresh hopen' hreplay
    rw [hcontents] at hx
    rcases overlay_eq_some hx with hx | ⟨r, hr, hkey, hval⟩
    · cases hx
    obtain ⟨⟨tail, hframes, -⟩, -⟩ := hrun s hs
    cases hfile : s.file with
    | none =>
      rw [hfile] at hread
      cases hread
      cases hr
    | some bytes =>
      rw [hfile, Option.map_some] at hread
      rw [hfile] at hframes
      obtain ⟨tail', hcut⟩ := hframes.take kept
      obtain ⟨e, he, w, result, hans, -, heq⟩ := hcut.read hread r hr
      rw [heq] at hkey hval
      exact ⟨e, he, w, result, hans, hkey, hval.symm⟩
  · intro s _ call fault s' e hcall
    have hwal : s.WalOnly s' := by
      cases call with
      | createRawCollection _ | syncWal | compactWal => cases hcall
      | putRaw _ _ _ _ | deleteRaw _ _ _ =>
        simp only [faultCall, Prod.mk.injEq, RawReply.written.injEq]
          at hcall
        refine Faulty.write_walOnly_of_error crc32c fault s (Prod.ext hcall.1 hcall.2)
    refine ⟨hwal.contents_eq, fun name => ?_⟩
    unfold collectionCount rawCollection
    rw [hwal.collections_eq]

/-- An append that fails inside the record, and the segment opened again
before the next one. -/
def tornRun : List FaultAction :=
  [.call (.createRawCollection "a") none, .call (.putRaw "a" [1] [2] ⟨none, none⟩) none,
    .call (.putRaw "a" [1] [3] ⟨none, none⟩) (some ⟨.write 20, "no space left on device"⟩),
    .call .compactWal none,
    .call (.putRaw "a" [1] [4] ⟨none, none⟩) none,
    .crash 0]

theorem rejected_writes_leave_nothing_torn : OnlyAcknowledged (fun _ => 7)
      (exec (faultStep (fun _ => 7) fun _ => 0)
        (FaultWorld.opened (MfsStore.fresh ⟨4, 8, .walSync, true⟩ none 0))
        tornRun)
      (trace (faultStep (fun _ => 7) fun _ => 0)
        (FaultWorld.opened (MfsStore.fresh ⟨4, 8, .walSync, true⟩ none 0))
        tornRun) :=
  (rejected_writes_leave_nothing (fun _ => 7) (fun _ => 0)
    ⟨4, 8, .walSync, true⟩ _ rfl tornRun (by decide +kernel)).1

/-- One put, and its sync fails. -/
def refusedRun : List FaultAction :=
  [.call (.createRawCollection "a") none, .call (.putRaw "a" [1] [2] ⟨none, none⟩)
      (some ⟨.syncData, "input/output error"⟩)]

/-- The put returns an error and is recovered from the WAL file. -/
theorem refused_put_recovered : ((trace (faultStep (fun _ => 7) fun _ => 0)
        (FaultWorld.opened (MfsStore.fresh ⟨4, 8, .walSync, true⟩ none 0))
        refusedRun).filterMap answered).length = 0
      ∧ ¬ OnlyAcknowledged (fun _ => 7) (exec (faultStep (fun _ => 7) fun _ => 0)
          (FaultWorld.opened (MfsStore.fresh ⟨4, 8, .walSync, true⟩ none 0))
          refusedRun)
        (trace (faultStep (fun _ => 7) fun _ => 0)
          (FaultWorld.opened (MfsStore.fresh ⟨4, 8, .walSync, true⟩ none 0))
          refusedRun) := by
  have hnone : ((trace (faultStep (fun _ => 7) fun _ => 0)
      (FaultWorld.opened (fresh ⟨4, 8, .walSync, true⟩ none 0))
      refusedRun).filterMap answered).length = 0 := by
    decide +kernel
  refine ⟨hnone, fun hall => ?_⟩
  -- the recovery, evaluated
  have hback : (exec (faultStep (fun _ => 7) fun _ => 0)
      (FaultWorld.opened (fresh ⟨4, 8, .walSync, true⟩ none 0))
      refusedRun).engine.bind (fun s =>
        ((fresh ⟨4, 8, .walSync, true⟩
            (s.file.map (take 100)) 0).replayInto (fun _ => 0)
          (fun _ => 7) (s.file.map (take 100))).map
          fun out => out.1.contents ("a", [1]))
      = .ok (some ⟨some [2], 1⟩) := by
    decide +kernel
  obtain ⟨s, hs, hback⟩ := bind_eq_ok.1 hback
  cases hreplay : (fresh ⟨4, 8, .walSync, true⟩
      (s.file.map (take 100)) 0).replayInto (fun _ => 0) (fun _ => 7)
      (s.file.map (take 100)) with
  | error e =>
    rw [hreplay] at hback
    cases hback
  | ok out =>
    obtain ⟨t, stats⟩ := out
    rw [hreplay] at hback
    obtain ⟨e, he, w, result, hans, -⟩ := hall s hs 100 (fun _ => 0)
      ⟨4, 8, .walSync, true⟩ 0 _ t stats rfl hreplay ("a", [1])
      ⟨some [2], 1⟩ (Except.ok.inj hback)
    have hmem := mem_filterMap.2 ⟨e, he, hans⟩
    cases hmem

end MemoryFirst.Store
