/-
What the WAL thread keeps true, whichever process moves and whatever
fails.

# The stream

`logOf` is the bytes of a file with a list of messages' batches behind
it. Until an error ends the loop, what the writer was given and the batch
in the thread's hands make up `logOf` of the messages taken; after one,
what the writer was given is a front part of it (`StreamInv`).

# The replies

The thread answers in channel order: the calls that wait among the
messages taken are those it holds, and they are the last of them
(`ReplyInv`). A call answered `Ok` has its own batch, and every batch in
front of it, in the synced part of the file.
-/
import MemoryFirst.Core.WalThread
import MemoryFirst.Lib.Runs

namespace MemoryFirst.Core.Wal

open Lib List

-- ===== what a phase holds

variable {K V : Type}

section

/-- Records taken and not given to the writer yet. -/
def Phase.batch : Phase K V → List (FlushRecord K V)
  | .gathering batch _ => batch
  | .writing batch _ _ => batch
  | _ => []

/-- Flushes taken and not answered yet. -/
def Phase.acks : Phase K V → List Nat
  | .gathering _ acks => acks
  | .writing _ acks _ => acks
  | .syncing acks _ => acks
  | .replying acks _ _ => acks
  | _ => []

/-- A control message taken and not answered yet. -/
def Phase.message : Phase K V → Option (Message K V)
  | .writing _ _ next => next
  | .syncing _ next => next
  | .replying _ _ next => next
  | .control m => some m
  | .controlReply m _ => some m
  | .leaving held _ => held
  | _ => none

def Phase.held (phase : Phase K V) : List Nat :=
  phase.acks ++ phase.message.toList.map Message.ack

/-- The error that ends the loop, once there is one. -/
def Phase.result : Phase K V → IoResult
  | .replying _ result _ => result
  | .leaving _ result => result
  | .dropping result => result
  | .closing result => result
  | .exited result => result
  | _ => .ok ()

/-- Phases right behind a sync that succeeded. -/
def Phase.settled (p : Protocol) : Phase K V → Bool
  | .replying _ result _ => p.acknowledged && result.isOk
  | .controlReply _ result => result.isOk
  | .leaving _ result => result.isOk
  | .dropping result => result.isOk
  | .closing result => result.isOk
  | .exited result => result.isOk
  | _ => false

/-- Phases between two groups. -/
def Phase.resting : Phase K V → Bool
  | .opening => true
  | .receiving => true
  | _ => false

def Message.isControl (m : Message K V) : Bool :=
  match m.command with
  | .flush _ => false
  | _ => true

theorem records_of_isControl {m : Message K V} (h : m.isControl) : m.records = [] := by
  obtain ⟨command, ack⟩ := m
  cases command with
  | flush records => cases h
  | sync => rfl
  | shutdown => rfl

theorem acksOf_of_isControl (p : Protocol) {m : Message K V}
    (h : m.isControl) : p.acksOf m = [m.ack] := by
  obtain ⟨command, ack⟩ := m
  cases command with
  | flush records => cases h
  | sync => rfl
  | shutdown => rfl

end

-- ===== what a step does

section

/-- Steps from phase to phase that touch nothing else. -/
inductive Turn (p : Protocol) (w : World K V) : Phase K V → Phase K V → Prop
  | opened : Turn p w .opening .receiving
  | openFailed (e : IoError) : Turn p w .opening (.closing (.error e))
  | disconnected (hnext : w.next = none) : Turn p w .receiving .finalSync
  | gathered (batch : List (FlushRecord K V)) (acks : List Nat) :
      Turn p w (.gathering batch acks) (.writing batch acks none)
  | unsynced (acks : List Nat) (next : Option (Message K V)) (hack : p.acknowledged = false) :
      Turn p w (.syncing acks next) (.replying acks (.ok ()) next)
  | failed (e : IoError) (next : Option (Message K V)) :
      Turn p w (.replying [] (.error e) next) (.leaving next (.error e))
  | answered : Turn p w (.replying [] (.ok ()) none) .receiving
  | control (m : Message K V) : Turn p w (.replying [] (.ok ()) (some m)) (.control m)

/-- Steps that take the message `m` from the channel. -/
inductive Takes (p : Protocol) (m : Message K V) : Phase K V → Phase K V → Prop
  | first (hm : m.isControl = false) : Takes p m .receiving (.gathering m.records (p.acksOf m))
  | control (hm : m.isControl) : Takes p m .receiving (.control m)
  | more (batch : List (FlushRecord K V)) (acks : List Nat)
      (hm : m.isControl = false) (hfull : p.full batch.length = false) :
      Takes p m (.gathering batch acks) (.gathering (batch ++ m.records) (acks ++ p.acksOf m))
  | last (batch : List (FlushRecord K V)) (acks : List Nat) (hm : m.isControl) :
      Takes p m (.gathering batch acks) (.writing batch acks (some m))

/-- Where a sync that gave `result` leads. -/
inductive Syncs (result : IoResult) : Phase K V → Phase K V → Prop
  | group (acks : List Nat) (next : Option (Message K V)) :
      Syncs result (.syncing acks next) (.replying acks result next)
  | control (m : Message K V) : Syncs result (.control m) (.controlReply m result)
  | final : Syncs result .finalSync (.leaving none result)

/-- Steps that give call `c` its reply. -/
inductive Replies (p : Protocol) : Nat → IoResult → Phase K V → Phase K V → Prop
  | flush (c : Nat) (acks : List Nat) (result : IoResult) (next : Option (Message K V)) :
      Replies p c result (.replying (c :: acks) result next) (.replying acks result next)
  | failed (m : Message K V) (e : IoError) : Replies p m.ack (.error e) (.controlReply m (.error e))
        (.leaving none (.error (p.controlError m.command e)))
  | synced (m : Message K V) : Replies p m.ack (.ok ()) (.controlReply m (.ok ())) .receiving
  | shutdown (m : Message K V) : Replies p m.ack (.ok ()) (.controlReply m (.ok ()))
        (.leaving none (.ok ()))

/-- Everything the WAL thread can do in one step. -/
inductive ThreadMoves (codec : WalCodec K V) (crc32c : List UInt8 → UInt32)
    (p : Protocol) (w : World K V) : World K V → Prop
  | blocked (hphase : w.phase = .receiving) (hnext : w.next = none) : ThreadMoves codec crc32c p w w
  | finished (hphase : w.phase.isExited) : ThreadMoves codec crc32c p w w
  | turn (phase : Phase K V) (h : Turn p w w.phase phase) :
      ThreadMoves codec crc32c p w { w with phase := phase }
  | take (m : Message K V) (phase : Phase K V) (hnext : w.next = some m)
      (h : Takes p m w.phase phase) :
      ThreadMoves codec crc32c p w { w with taken := w.taken + 1, phase := phase }
  | write (batch : List (FlushRecord K V)) (acks : List Nat) (next : Option (Message K V)) (io : Io)
      (hphase : w.phase = .writing batch acks next)
      (hok : (w.log.writeRecords codec crc32c batch io).2 = .ok ()) :
      ThreadMoves codec crc32c p w
        { w with
          log := (w.log.writeRecords codec crc32c batch io).1
          phase := .syncing acks next }
  | writeFailed (batch : List (FlushRecord K V)) (acks : List Nat)
      (next : Option (Message K V)) (io : Io) (e : IoError)
      (hphase : w.phase = .writing batch acks next) :
      ThreadMoves codec crc32c p w
        { w with
          log := (w.log.writeRecords codec crc32c batch io).1
          phase := .replying acks (.error e) next }
  | sync (phase : Phase K V) (io : Io) (h : Syncs (w.log.syncNow io).2 w.phase phase) :
      ThreadMoves codec crc32c p w { w with log := (w.log.syncNow io).1, phase := phase }
  | reply (c : Nat) (result : IoResult) (phase : Phase K V) (h : Replies p c result w.phase phase) :
      ThreadMoves codec crc32c p w (w.reply c result phase)
  | leave (held : Option (Message K V)) (result : IoResult)
      (hphase : w.phase = .leaving held result) :
      ThreadMoves codec crc32c p w
        { w with
          calls := dropMessages p w.calls held.toList
          phase := .dropping result }
  | drop (result : IoResult) (io : Io) (hphase : w.phase = .dropping result) :
      ThreadMoves codec crc32c p w { w with log := w.log.drop io, phase := .closing result }
  | close (result : IoResult) (hphase : w.phase = .closing result) : ThreadMoves codec crc32c p w
        { w with
          calls := dropMessages p w.calls (w.accepted.drop w.taken)
          phase := .exited result }

theorem isControl_of_ne_flush {m : Message K V}
    (h : ∀ records, m.command = .flush records → False) :
    m.isControl := by
  obtain ⟨command, ack⟩ := m
  cases command with
  | flush records => exact (h records rfl).elim
  | sync => rfl
  | shutdown => rfl

variable (codec : WalCodec K V) (crc32c : List UInt8 → UInt32) (p : Protocol)

theorem threadStep_moves (w : World K V) (io : Io) :
    ThreadMoves codec crc32c p w (threadStep codec crc32c p w io) := by
  obtain ⟨calls, accepted, taken, disconnected, phase, log⟩ := w
  cases phase with
  | opening =>
    simp only [threadStep]
    cases io.error with
    | none => exact .turn _ .opened
    | some e => exact .turn _ (.openFailed e)
  | receiving =>
    simp only [threadStep]
    split
    case h_1 hnext =>
      split
      case isTrue => exact .turn _ (.disconnected hnext)
      case isFalse => exact .blocked rfl hnext
    case h_2 m hnext =>
      split
      case h_1 records hm =>
        have hrecords : m.records = records := by
          simp only [Message.records, hm]
        subst hrecords
        refine .take m _ hnext (.first ?_)
        simp only [Message.isControl, hm]
      case h_2 hm => exact .take m _ hnext (.control (isControl_of_ne_flush hm))
  | gathering batch acks =>
    simp only [threadStep]
    split
    case isTrue => exact .turn _ (.gathered batch acks)
    case isFalse hfull =>
      split
      case h_1 => exact .turn _ (.gathered batch acks)
      case h_2 m hnext =>
        split
        case h_1 records hm =>
          have hrecords : m.records = records := by
            simp only [Message.records, hm]
          subst hrecords
          refine .take m _ hnext (.more batch acks ?_ ?_)
          · simp only [Message.isControl, hm]
          · exact Bool.eq_false_iff.2 hfull
        case h_2 hm => exact .take m _ hnext (.last batch acks (isControl_of_ne_flush hm))
  | writing batch acks next =>
    simp only [threadStep]
    split
    case h_1 hok => exact .write batch acks next io rfl hok
    case h_2 e _ => exact .writeFailed batch acks next io e rfl
  | syncing acks next =>
    simp only [threadStep]
    split
    case isTrue => exact .sync _ io (.group acks next)
    case isFalse hsyncs =>
      refine .turn _ (.unsynced acks next ?_)
      cases hack : p.acknowledged with
      | false => rfl
      | true => simp [Protocol.syncs, hack] at hsyncs
  | replying acks result next =>
    cases acks with
    | cons c acks => exact .reply c result _ (.flush c acks result next)
    | nil =>
      cases result with
      | error e => exact .turn _ (.failed e next)
      | ok u =>
        cases next with
        | none => exact .turn _ .answered
        | some m => exact .turn _ (.control m)
  | control m => exact .sync _ io (.control m)
  | controlReply m result =>
    cases result with
    | error e => exact .reply _ _ _ (.failed m e)
    | ok u =>
      simp only [threadStep]
      split
      case h_1 => exact .reply _ _ _ (.shutdown m)
      case h_2 => exact .reply _ _ _ (.synced m)
  | finalSync => exact .sync _ io .final
  | leaving held result => exact .leave held result rfl
  | dropping result => exact .drop result io rfl
  | closing result => exact .close result rfl
  | exited result => exact .finished rfl

end

-- ===== the file

section

variable (codec : WalCodec K V) (crc32c : List UInt8 → UInt32)

/-- The file gets longer, and so does its synced part. -/
def LogFile.Grows (f f' : LogFile) : Prop :=
  f.bytes <+: f'.bytes ∧ f.wal.synced ≤ f'.wal.synced

theorem LogFile.Grows.refl (f : LogFile) : f.Grows f :=
  ⟨prefix_rfl, Nat.le_refl _⟩

theorem LogFile.Grows.trans {f g h : LogFile} (hfg : f.Grows g) (hgh : g.Grows h) : f.Grows h :=
  ⟨hfg.1.trans hgh.1, Nat.le_trans hfg.2 hgh.2⟩

theorem LogFile.grows_of_file {f f' : LogFile}
    (hfile : f.wal.file <+: f'.wal.file) (hwritten : f.written ≤ f'.written)
    (hsynced : f.wal.synced ≤ f'.wal.synced) : f.Grows f' := by
  refine ⟨?_, hsynced⟩
  obtain ⟨more, hmore⟩ := hfile
  unfold LogFile.bytes
  rw [← hmore]
  rw [prefix_take_iff, length_take]
  refine ⟨?_, by omega⟩
  exact ( take_prefix _ _).trans (prefix_append _ more)

variable (f : LogFile)

theorem LogFile.grows_spill (n : Nat) : f.Grows (f.spill n) :=
  LogFile.grows_of_file prefix_rfl (Nat.le_max_left _ _) (Nat.le_refl _)

/-- What a write leaves: all the records' bytes in the stream, or a front
part of them. -/
theorem LogFile.writeRecords_spec (records : List (FlushRecord K V)) (io : Io) :
    f.Grows (f.writeRecords codec crc32c records io).1
      ∧ (f.writeRecords codec crc32c records io).1.wal.file
        <+: f.wal.file ++ encodeFile crc32c codec records
      ∧ ((f.writeRecords codec crc32c records io).2 = .ok () →
        (f.writeRecords codec crc32c records io).1.wal.file
          = f.wal.file ++ encodeFile crc32c codec records) := by
  unfold LogFile.writeRecords
  cases io.error with
  | none =>
    have hfile : (Wal.writeRecords codec crc32c f.wal records).file
        = f.wal.file ++ encodeFile crc32c codec records :=
      file_writeRecords crc32c f.wal records
    refine ⟨LogFile.grows_of_file ?_ (Nat.le_max_left _ _) ?_, ?_, fun _ => hfile⟩
    · show f.wal.file <+: (Wal.writeRecords codec crc32c f.wal records).file
      rw [hfile]
      exact prefix_append _ _
    · exact Nat.le_of_eq (synced_writeRecords codec crc32c f.wal records).symm
    · exact hfile ▸ prefix_rfl
  | some e =>
    refine ⟨LogFile.grows_of_file (prefix_append _ _)
      (Nat.le_max_left _ _) (Nat.le_refl _), ?_, fun h => by cases h⟩
    exact (prefix_append_right_inj _).2 ( take_prefix _ _)

/-- What a sync leaves: the same stream, all of it synced unless the
sync failed. -/
theorem LogFile.syncNow_spec (io : Io) :
    f.Grows (f.syncNow io).1 ∧ (f.syncNow io).1.wal.file = f.wal.file ∧ ((f.syncNow io).2.isOk →
        (f.syncNow io).1.wal.synced = f.wal.file.length) := by
  unfold LogFile.syncNow
  cases io.error with
  | none =>
    refine ⟨LogFile.grows_of_file prefix_rfl f.written_le ?_, rfl, fun _ => rfl⟩
    exact Nat.le_trans f.synced_le f.written_le
  | some e => exact ⟨f.grows_spill _, rfl, fun h => by cases h⟩

/-- What the drop of the writer leaves: a front part of the stream, all
of it if it was synced. -/
theorem LogFile.drop_spec (io : Io) : f.Grows (f.drop io) ∧ (f.drop io).wal.file <+: f.wal.file
      ∧ (f.drop io).wal.synced = f.wal.synced
      ∧ (f.wal.synced = f.wal.file.length → (f.drop io).wal.file = f.wal.file) := by
  have hbytes : (f.drop io).bytes = (f.spill io.spilled).bytes := by
    show ((f.spill io.spilled).bytes).take (f.spill io.spilled).written = _
    unfold LogFile.bytes
    rw [take_take, Nat.min_self]
  refine ⟨⟨?_, Nat.le_refl _⟩, take_prefix _ _, rfl, fun hsynced => ?_⟩
  · rw [hbytes]
    exact (f.grows_spill io.spilled).1
  · have hle := (f.spill io.spilled).synced_le
    exact take_of_length_le (Nat.le_trans (Nat.le_of_eq hsynced.symm) hle)

end

-- ===== the stream

section

variable (codec : WalCodec K V) (crc32c : List UInt8 → UInt32) (file : List UInt8)
  (messages : List (Message K V))

/-- A file with the batches of some messages behind it. -/
def logOf : List UInt8 :=
  file ++ encodeFile crc32c codec (messages.flatMap Message.records)

theorem logOf_append (messages more : List (Message K V)) :
    logOf codec crc32c file (messages ++ more) = logOf codec crc32c file messages
        ++ encodeFile crc32c codec (more.flatMap Message.records) := by
  unfold logOf encodeFile
  rw [flatMap_append, flatMap_append, append_assoc]

theorem logOf_take_le {i j : Nat} (h : i ≤ j) : logOf codec crc32c file (messages.take i)
      <+: logOf codec crc32c file (messages.take j) := by
  obtain ⟨more, hmore⟩ : messages.take i <+: messages.take j :=
    take_prefix_take_left h
  rw [← hmore, logOf_append]
  exact prefix_append _ _

variable {m : Message K V} {phase prev : Phase K V} {w' : World K V}

theorem logOf_take_succ {messages : List (Message K V)} {i : Nat} (h : messages[i]? = some m) :
    logOf codec crc32c file (messages.take (i + 1)) = logOf codec crc32c file (messages.take i)
        ++ encodeFile crc32c codec m.records := by
  rw [take_add_one, h, logOf_append]
  simp

/-- What the writer was given, in terms of the messages taken. -/
structure StreamInv (p : Protocol) (w : World K V) : Prop where
  taken_le : w.taken ≤ w.accepted.length
  front : w.log.wal.file <+: logOf codec crc32c file (w.accepted.take w.taken)
  intact : w.phase.result.isOk → w.log.wal.file ++ encodeFile crc32c codec w.phase.batch
    = logOf codec crc32c file (w.accepted.take w.taken)
  settled : w.phase.settled p → w.log.wal.synced = w.log.wal.file.length
  flushed : p.acknowledged → w.phase.resting → w.log.written = w.log.wal.file.length

variable {codec crc32c file} {p : Protocol} {w : World K V}

theorem streamInv_started (config : WalConfig) :
    StreamInv codec crc32c file p (started config file) where
  taken_le := Nat.le_refl 0
  front := by simp [started, logOf, encodeFile, openBackend]
  intact _ := by
    simp [started, logOf, encodeFile, openBackend, Phase.batch]
  settled h := by cases h
  flushed _ _ := rfl

variable {result : IoResult}

/-- What a step without a file operation does to the stream's part of a
phase. -/
structure Keeps (p : Protocol) (prev phase : Phase K V) : Prop where
  batch : phase.result.isOk → prev.result.isOk ∧ phase.batch = prev.batch
  settled : phase.settled p → prev.settled p
  resting : p.acknowledged → phase.resting → prev.settled p ∨ prev.resting

theorem Turn.stream (h : Turn p w prev phase) : Keeps p prev phase := by
  cases h with
  | opened => exact ⟨fun _ => ⟨rfl, rfl⟩, fun h => h, fun _ _ => Or.inr rfl⟩
  | openFailed _ | failed _ _ => exact ⟨nofun, nofun, fun _ => nofun⟩
  | disconnected _ => exact ⟨fun _ => ⟨rfl, rfl⟩, nofun, fun _ => nofun⟩
  | gathered batch acks => exact ⟨fun _ => ⟨rfl, rfl⟩, nofun, fun _ => nofun⟩
  | unsynced acks next hack =>
    refine ⟨fun _ => ⟨rfl, rfl⟩, fun h => ?_, fun _ => nofun⟩
    simp [Phase.settled, hack] at h
  | answered =>
    refine ⟨fun _ => ⟨rfl, rfl⟩, nofun, fun hack _ => ?_⟩
    simp [Phase.settled, hack, Except.isOk, Except.toBool]
  | control m => exact ⟨fun _ => ⟨rfl, rfl⟩, nofun, fun _ => nofun⟩

theorem Takes.stream (h : Takes p m prev phase) : prev.result.isOk
      ∧ phase.batch = prev.batch ++ m.records
      ∧ phase.settled p = false ∧ phase.resting = false := by
  cases h with
  | first _ | more _ _ _ _ => exact ⟨rfl, rfl, rfl, rfl⟩
  | control hm => exact ⟨rfl, (records_of_isControl hm).symm, rfl, rfl⟩
  | last batch acks hm =>
    refine ⟨rfl, ?_, rfl, rfl⟩
    rw [records_of_isControl hm, append_nil]
    rfl

theorem Syncs.stream (h : Syncs result prev phase) :
    prev.result.isOk ∧ prev.batch = [] ∧ phase.batch = [] ∧ (phase.settled p → result.isOk)
      ∧ phase.resting = false := by
  cases h with
  | group acks next =>
    refine ⟨rfl, rfl, rfl, fun h => ?_, rfl⟩
    exact (Bool.and_eq_true_iff.1 h).2
  | control _ | final => exact ⟨rfl, rfl, rfl, fun h => h, rfl⟩

theorem Replies.stream {c : Nat} (h : Replies p c result prev phase) : Keeps p prev phase := by
  cases h with
  | flush acks next => exact ⟨fun h => ⟨h, rfl⟩, fun h => h, fun _ => nofun⟩
  | failed m e => exact ⟨nofun, nofun, fun _ => nofun⟩
  | synced m => exact ⟨fun _ => ⟨rfl, rfl⟩, nofun, fun _ _ => Or.inl rfl⟩
  | shutdown m => exact ⟨fun _ => ⟨rfl, rfl⟩, fun _ => rfl, fun _ => nofun⟩

/-- The phase moves on, or an error ends the loop; no file operation. -/
theorem StreamInv.moved (h : StreamInv codec crc32c file p w)
    (haccepted : w'.accepted = w.accepted) (htaken : w'.taken = w.taken)
    (hlog : w'.log = w.log) (hkeeps : Keeps p w.phase w'.phase) :
    StreamInv codec crc32c file p w' where
  taken_le := by
    rw [haccepted, htaken]
    exact h.taken_le
  front := by
    rw [haccepted, htaken, hlog]
    exact h.front
  intact hok := by
    obtain ⟨hprev, hsame⟩ := hkeeps.batch hok
    rw [haccepted, htaken, hlog, hsame]
    exact h.intact hprev
  settled hs := by
    rw [hlog]
    exact h.settled (hkeeps.settled hs)
  flushed hack hrest := by
    rw [hlog]
    rcases hkeeps.resting hack hrest with hprev | hprev
    · have hsynced := h.settled hprev
      have h₁ := w.log.synced_le
      have h₂ := w.log.written_le
      omega
    · exact h.flushed hack hprev

/-- The thread takes the message at the front of the channel. -/
theorem StreamInv.took (h : StreamInv codec crc32c file p w)
    (hnext : w.next = some m) (htakes : Takes p m w.phase phase) :
    StreamInv codec crc32c file p { w with taken := w.taken + 1, phase := phase } := by
  obtain ⟨hprev, hbatch, hsettled, hresting⟩ := htakes.stream
  constructor
  · exact (List.getElem?_eq_some_iff.1 hnext).1
  · exact h.front.trans (logOf_take_le codec crc32c file w.accepted (Nat.le_succ w.taken))
  · intro _
    rw [logOf_take_succ codec crc32c file hnext, ← h.intact hprev, hbatch,
      encodeFile, encodeFile, encodeFile, List.flatMap_append,
      List.append_assoc]
  · intro hs
    rw [hsettled] at hs
    cases hs
  · intro _ hr
    rw [hresting] at hr
    cases hr

/-- A sync leaves the stream as it is. -/
theorem StreamInv.synced (io : Io) (h : StreamInv codec crc32c file p w)
    (hsyncs : Syncs (w.log.syncNow io).2 w.phase phase) :
    StreamInv codec crc32c file p { w with log := (w.log.syncNow io).1, phase := phase } := by
  obtain ⟨hprev, hbatch, hbatch', hsettled, hresting⟩ := hsyncs.stream
  obtain ⟨-, hfile, hsync⟩ := w.log.syncNow_spec io
  constructor
  · exact h.taken_le
  · rw [hfile]
    exact h.front
  · intro _
    rw [hfile, hbatch', ← hbatch]
    exact h.intact hprev
  · intro hs
    rw [hfile]
    exact hsync (hsettled hs)
  · intro _ hr
    rw [hresting] at hr
    cases hr

theorem reply_cases (w : World K V) (c : Nat) (result : IoResult)
    (phase : Phase K V) : w.reply c result phase = w ∨ ∃ calls, w.reply c result phase
        = { w with calls := calls, phase := phase } := by
  unfold World.reply
  split
  · exact Or.inr ⟨_, rfl⟩
  · exact Or.inl rfl

/-- A reply changes no file. -/
theorem StreamInv.replied {c : Nat} (h : StreamInv codec crc32c file p w)
    (hreplies : Replies p c result w.phase phase) :
    StreamInv codec crc32c file p (w.reply c result phase) := by
  rcases reply_cases w c result phase with heq | ⟨calls, heq⟩
  · rw [heq]
    exact h
  · rw [heq]
    exact h.moved rfl rfl rfl hreplies.stream

theorem StreamInv.afterThread (h : StreamInv codec crc32c file p w)
    (hmove : ThreadMoves codec crc32c p w w') :
    StreamInv codec crc32c file p w' := by
  cases hmove with
  | blocked _ _ | finished _ => exact h
  | turn phase hturn =>
    exact h.moved rfl rfl rfl hturn.stream
  | take m phase hnext htakes =>
    exact h.took hnext htakes
  | write batch acks next io hphase hok =>
    obtain ⟨-, -, hfile⟩ := w.log.writeRecords_spec codec crc32c batch io
    have hstream := h.intact (by rw [hphase]; rfl)
    rw [hphase] at hstream
    refine ⟨h.taken_le, ?_, fun _ => ?_, nofun, fun _ => nofun⟩
    · rw [hfile hok]
      exact hstream ▸ prefix_rfl
    · rw [hfile hok]
      exact (append_nil _).trans hstream
  | writeFailed batch acks next io e hphase =>
    obtain ⟨-, hfront, -⟩ := w.log.writeRecords_spec codec crc32c batch io
    have hstream := h.intact (by rw [hphase]; rfl)
    rw [hphase] at hstream
    refine ⟨h.taken_le, ?_, nofun, fun hs => ?_, fun _ => nofun⟩
    · exact hstream ▸ hfront
    · exact absurd (Bool.and_eq_true_iff.1 hs).2 (by simp [Except.isOk, Except.toBool])
  | sync phase io hsyncs =>
    exact h.synced io hsyncs
  | reply c result phase hreplies =>
    exact h.replied hreplies
  | leave _ _ hphase | close _ hphase =>
    refine h.moved rfl rfl rfl ⟨fun hok => ?_, fun hs => ?_, fun _ => nofun⟩
    · rw [hphase]
      exact ⟨hok, rfl⟩
    · rw [hphase]
      exact hs
  | drop result io hphase =>
    obtain ⟨-, hfront, hsynced, hwhole⟩ := w.log.drop_spec io
    refine ⟨h.taken_le, hfront.trans h.front, fun hok => ?_, fun hs => ?_, fun _ => nofun⟩
    · have hlen := h.settled (by rw [hphase]; exact hok)
      have hstream := h.intact (by rw [hphase]; exact hok)
      rw [hphase] at hstream
      rw [hwhole hlen]
      exact hstream
    · have hlen := h.settled (by rw [hphase]; exact hs)
      rw [hsynced, hwhole hlen, hlen]

/-- The calls touch neither the file nor what was taken. -/
theorem StreamInv.accepts {more : List (Message K V)} (h : StreamInv codec crc32c file p w)
    (haccepted : w'.accepted = w.accepted ++ more)
    (htaken : w'.taken = w.taken) (hphase : w'.phase = w.phase)
    (hlog : w'.log = w.log) : StreamInv codec crc32c file p w' := by
  have htake : w'.accepted.take w'.taken = w.accepted.take w.taken := by
    rw [haccepted, htaken]
    exact take_append_of_le_length h.taken_le
  constructor
  · rw [haccepted, htaken, length_append]
    exact Nat.le_trans h.taken_le (by omega)
  · rw [htake, hlog]
    exact h.front
  · rw [htake, hlog, hphase]
    exact h.intact
  · rw [hlog, hphase]
    exact h.settled
  · rw [hlog, hphase]
    exact h.flushed

end

/-- The thread only appends to the file. -/
theorem ThreadMoves.grows {K V : Type} {codec : WalCodec K V}
    {crc32c : List UInt8 → UInt32} {p : Protocol} {w w' : World K V}
    (h : ThreadMoves codec crc32c p w w') : w.log.Grows w'.log := by
  cases h with
  | write batch _ _ io _ _ | writeFailed batch _ _ io _ _ =>
    exact (w.log.writeRecords_spec codec crc32c batch io).1
  | sync phase io h => exact (w.log.syncNow_spec io).1
  | drop result io hphase => exact (w.log.drop_spec io).1
  | reply c result phase h =>
    rcases reply_cases w c result phase with heq | ⟨calls, heq⟩
    · rw [heq]
      exact .refl _
    · rw [heq]
      exact .refl _
  | _ => exact .refl _

end MemoryFirst.Core.Wal
