/-
Whole runs of callers and WAL thread: the invariants put together, and
the rule that carries them over every interleaving.

`ResultInv` says what an answer means for the file. `WorldInv` is all
that is kept; a step is either one of the thread's (`ThreadMoves`) or a
call's own (`CallMoves`), and `protocolRun_inv` needs nothing else.
-/
import MemoryFirst.Core.Proofs.WalReplies

namespace MemoryFirst.Core.Wal

open Lib List

variable {K V : Type}

-- ===== what an answer means

variable (codec : WalCodec K V)

section

variable (crc32c : List UInt8 → UInt32) (file : List UInt8)

structure ResultInv (p : Protocol) (w : World K V) : Prop where
  oks : ∀ i m, w.accepted[i]? = some m → stateIn w.calls m.ack = some (.replied (.ok ())) →
    (logOf codec crc32c file (w.accepted.take (i + 1))).length ≤ w.log.wal.synced
  fails : p.acknowledged = false → ∀ i m e, w.accepted[i]? = some m →
    stateIn w.calls m.ack = some (.replied (.error e)) →
    w.phase.result.isOk = false ∧ w.taken = i + 1

variable {codec crc32c file} {p : Protocol} {w : World K V} {w' : World K V}

/-- A step that gives no reply. -/
theorem ResultInv.kept (h : ResultInv codec crc32c file p w) (haccepted : w'.accepted = w.accepted)
    (hcalls : ∀ c r, stateIn w'.calls c = some (.replied r) → stateIn w.calls c = some (.replied r))
    (hsynced : w.log.wal.synced ≤ w'.log.wal.synced)
    (hresult : w.phase.result.isOk = false → w'.phase.result.isOk = false ∧ w'.taken = w.taken) :
    ResultInv codec crc32c file p w' := by
  constructor
  · intro i m hi hstate
    rw [haccepted] at hi ⊢
    exact Nat.le_trans (h.oks i m hi (hcalls _ _ hstate)) hsynced
  · intro hack i m e hi hstate
    rw [haccepted] at hi
    obtain ⟨hfailed, htaken⟩ := h.fails hack i m e hi (hcalls _ _ hstate)
    obtain ⟨hfailed', htaken'⟩ := hresult hfailed
    exact ⟨hfailed', htaken'.trans htaken⟩

/-- Everything taken is in the synced file when the thread says `Ok`. -/
theorem StreamInv.synced_length (h : StreamInv codec crc32c file p w)
    (hsettled : w.phase.settled p) (hok : w.phase.result.isOk)
    (hbatch : w.phase.batch = []) :
    (logOf codec crc32c file (w.accepted.take w.taken)).length = w.log.wal.synced := by
  have hstream := h.intact hok
  rw [hbatch] at hstream
  rw [h.settled hsettled, ← hstream]
  simp [encodeFile]

variable {c : Nat} {phase : Phase K V} {prev : Phase K V}

theorem Replies.settled (h : Replies p c (.ok ()) prev phase)
    (hacks : p.acknowledged = false → prev.acks = []) :
    prev.settled p ∧ prev.result.isOk ∧ prev.batch = [] := by
  cases h with
  | flush acks next =>
    refine ⟨?_, rfl, rfl⟩
    cases hack : p.acknowledged with
    | false => cases hacks hack
    | true =>
      show (p.acknowledged && true) = true
      rw [hack]
      rfl
  | synced _ | shutdown _ => exact ⟨rfl, rfl, rfl⟩

/-- A reply with an error, where flushes get none. -/
theorem Replies.failing {e : IoError} (h : Replies p c (.error e) prev phase)
    (hacks : prev.acks = []) :
    (∃ m, prev.message = some m ∧ m.ack = c) ∧ phase.result.isOk = false := by
  cases h with
  | flush acks next => cases hacks
  | failed m => exact ⟨⟨m, rfl, rfl⟩, rfl⟩

theorem ResultInv.replied {result : IoResult} (h : ResultInv codec crc32c file p w)
    (hstream : StreamInv codec crc32c file p w) (hreply : ReplyInv p w)
    (hreplies : Replies p c result w.phase phase) :
    ResultInv codec crc32c file p
      { w with
        calls := settle w.calls c (.replied result), phase := phase } := by
  obtain ⟨hheld, -⟩ := hreplies.replies
  have hin : c ∈ w.phase.held := hheld ▸ mem_cons_self
  constructor
  · intro i m hi hstate
    rw [stateIn_settle] at hstate
    split at hstate
    case isTrue hc =>
      cases hstate
      obtain ⟨hsettled, hok, hbatch⟩ := hreplies.settled hreply.acknowledged
      have hlt := hreply.lt_taken hi (hc.1 ▸ hin)
      rw [← hstream.synced_length hsettled hok hbatch]
      exact (logOf_take_le codec crc32c file w.accepted hlt).length_le
    case isFalse => exact h.oks i m hi hstate
  · intro hack i m e hi hstate
    rw [stateIn_settle] at hstate
    split at hstate
    case isTrue hc =>
      cases hstate
      obtain ⟨⟨m', hm', hack'⟩, hfailed⟩ := hreplies.failing (hreply.acknowledged hack)
      obtain ⟨-, j, htaken, hj⟩ := hreply.control m' hm'
      have hindex := hreply.index_inj hi hj (hc.1.trans hack'.symm)
      exact ⟨hfailed, hindex ▸ htaken⟩
    case isFalse =>
      -- an earlier error: then the thread does not reply any more
      obtain ⟨hfailed, htaken⟩ := h.fails hack i m e hi hstate
      refine ⟨?_, htaken⟩
      have hprev := hreplies.stream.1
      cases hnew : phase.result.isOk with
      | false => rfl
      | true =>
        rw [(hprev hnew).1] at hfailed
        cases hfailed

variable {calls : List (Call K V)}

/-- Nothing but a reply makes a call replied to. -/
theorem replied_of_dropMessages {messages : List (Message K V)} {r : IoResult}
    (h : stateIn (dropMessages p calls messages) c = some (.replied r)) :
    stateIn calls c = some (.replied r) := by
  rw [stateIn_dropMessages] at h
  split at h
  case isTrue => cases h
  case isFalse => exact h

theorem ResultInv.afterThread (h : ResultInv codec crc32c file p w)
    (hstream : StreamInv codec crc32c file p w) (hreply : ReplyInv p w)
    (hmove : ThreadMoves codec crc32c p w w') :
    ResultInv codec crc32c file p w' := by
  have hgrows := hmove.grows.2
  cases hmove with
  | blocked _ _ | finished _ => exact h
  | turn phase hturn =>
    refine h.kept rfl (fun _ _ hc => hc) hgrows fun hfailed => ⟨?_, rfl⟩
    cases hnew : phase.result.isOk with
    | false => rfl
    | true =>
      rw [(hturn.stream.1 hnew).1] at hfailed
      cases hfailed
  | take m phase hnext htakes =>
    refine h.kept rfl (fun _ _ hc => hc) hgrows fun hfailed => ?_
    rw [htakes.stream.1] at hfailed
    cases hfailed
  | write _ _ _ _ hphase _ | writeFailed _ _ _ _ _ hphase =>
    refine h.kept rfl (fun _ _ hc => hc) hgrows fun hfailed => ?_
    rw [hphase] at hfailed
    cases hfailed
  | sync phase io hsyncs =>
    refine h.kept rfl (fun _ _ hc => hc) hgrows fun hfailed => ?_
    rw [(hsyncs.stream (p := p)).1] at hfailed
    cases hfailed
  | reply c result phase hreplies =>
    obtain ⟨hheld, -⟩ := hreplies.replies
    have hwait := hreply.waiting c (hheld ▸ mem_cons_self)
    rw [reply_of_waiting hwait]
    exact h.replied hstream hreply hreplies
  | leave _ _ hphase | close _ hphase =>
    refine h.kept rfl (fun _ _ hc => replied_of_dropMessages hc) hgrows fun hfailed => ⟨?_, rfl⟩
    rw [hphase] at hfailed
    exact hfailed
  | drop result io hphase =>
    refine h.kept rfl (fun _ _ hc => hc) hgrows fun hfailed => ⟨?_, rfl⟩
    rw [hphase] at hfailed
    exact hfailed

end

-- ===== the run

section

variable (crc32c : List UInt8 → UInt32) (file : List UInt8) (p : Protocol)

structure WorldInv (w : World K V) : Prop where
  stream : StreamInv codec crc32c file p w
  reply : ReplyInv p w
  result : ResultInv codec crc32c file p w
  calls_nonempty : ∀ call ∈ w.calls, call.command.isEmpty = false
  nonempty : ∀ m ∈ w.accepted, m.command.isEmpty = false

variable {codec crc32c file p} {w : World K V}

theorem worldInv_started (config : WalConfig) :
    WorldInv codec crc32c file p (started config file) where
  stream := streamInv_started config
  reply := replyInv_started p config file
  result := ⟨fun _ _ hi => (by cases hi), fun _ _ _ _ hi => (by cases hi)⟩
  calls_nonempty _ h := by cases h
  nonempty _ h := by cases h

variable {c capacity : Nat} {w' : World K V}

section

variable {calls : List (Call K V)} (h : ∀ call ∈ calls, call.command.isEmpty = false)

include h

variable {command : Command K V} {state : CallState}

theorem nonempty_set (hc : calls[c]? = some ⟨command, state⟩)
    (state' : CallState) : ∀ call ∈ calls.set c ⟨command, state'⟩,
      call.command.isEmpty = false := by
  intro call hcall
  rcases mem_or_eq_of_mem_set hcall with hcall | hcall
  · exact h call hcall
  · rw [hcall]
    exact h ⟨command, state⟩ (mem_of_getElem? hc)

theorem nonempty_settle (c : Nat) (state : CallState) :
    ∀ call ∈ settle calls c state, call.command.isEmpty = false := by
  unfold settle
  split
  case h_1 command hc => exact nonempty_set h hc state
  case h_2 => exact h

theorem nonempty_dropMessages (messages : List (Message K V)) :
    ∀ call ∈ dropMessages p calls messages, call.command.isEmpty = false := by
  unfold dropMessages
  generalize messages.flatMap p.acksOf = acks
  induction acks generalizing calls with
  | nil => exact h
  | cons c acks ih => exact ih (nonempty_settle h c (.broken p.stopped))

end

/-- The thread takes no part in which calls there are. -/
theorem ThreadMoves.calls (hmove : ThreadMoves codec crc32c p w w') : w'.accepted = w.accepted
      ∧ ((∀ call ∈ w.calls, call.command.isEmpty = false) →
        ∀ call ∈ w'.calls, call.command.isEmpty = false)
      ∧ ∀ c state, stateIn w.calls c = some state → state.isAnswered →
        stateIn w'.calls c = some state := by
  cases hmove with
  | reply c result phase h =>
    unfold World.reply
    split
    case h_1 =>
      refine ⟨rfl, fun h => nonempty_settle h c _, fun d state hd hans => ?_⟩
      rw [stateIn_settle, if_neg, hd]
      rw [hd]
      rintro ⟨-, heq⟩
      cases heq
      cases hans
    case h_2 => exact ⟨rfl, fun h => h, fun _ _ h _ => h⟩
  | leave _ _ _ | close _ _ =>
    refine ⟨rfl, fun h => nonempty_dropMessages h _, fun d state hd hans => ?_⟩
    rw [stateIn_dropMessages, if_neg, hd]
    rw [hd]
    rintro ⟨-, heq⟩
    cases heq
    cases hans
  | _ => exact ⟨rfl, fun h => h, fun _ _ h _ => h⟩

theorem WorldInv.afterThread (h : WorldInv codec crc32c file p w)
    (hmove : ThreadMoves codec crc32c p w w') :
    WorldInv codec crc32c file p w' := by
  obtain ⟨haccepted, hcalls, -⟩ := hmove.calls
  refine ⟨h.stream.afterThread hmove, h.reply.afterThread hmove,
    h.result.afterThread h.stream h.reply hmove, hcalls h.calls_nonempty, ?_⟩
  rw [haccepted]
  exact h.nonempty

/-- What a call's own step can do: nothing to the thread, and to the
channel at most that its message is put at the end. -/
inductive CallMoves (p : Protocol) (w : World K V) : World K V → Prop
  | idle : CallMoves p w w
  | disconnect : CallMoves p w { w with disconnected := true }
  | start (command : Command K V) (h : command.isEmpty = false) :
      CallMoves p w { w with calls := w.calls ++ [⟨command, .sending⟩] }
  | refused (c : Nat) (command : Command K V) (h : w.calls[c]? = some ⟨command, .sending⟩) :
      CallMoves p w { w with calls := w.calls.set c ⟨command, .broken p.stopped⟩ }
  | accepted (c : Nat) (command : Command K V) (h : w.calls[c]? = some ⟨command, .sending⟩)
      (hexit : w.phase.isExited = false) :
      CallMoves p w
        { w with
          calls := w.calls.set c ⟨command,
            if p.replies ⟨command, c⟩ then .waiting else .enqueued⟩
          accepted := w.accepted ++ [⟨command, c⟩] }

theorem call_moves (w : World K V) (command : Command K V) : CallMoves p w (w.call command) := by
  unfold World.call
  split
  case isTrue => exact .idle
  case isFalse h =>
    refine .start command ?_
    rw [Bool.not_eq_true, Bool.or_eq_false_iff] at h
    exact h.2

theorem send_moves (capacity : Nat) (w : World K V) (c : Nat) :
    CallMoves p w (w.send p capacity c) := by
  unfold World.send
  split
  case h_1 command hcall =>
    split
    case isTrue => exact .refused c command hcall
    case isFalse hexit =>
      split
      case isTrue => exact .idle
      case isFalse => exact .accepted c command hcall (Bool.eq_false_iff.2 hexit)
  case h_2 => exact .idle

theorem disconnect_moves (w : World K V) : CallMoves p w w.disconnect := by
  unfold World.disconnect
  split
  case isTrue => exact .disconnect
  case isFalse => exact .idle

theorem stateIn_of_getElem? {calls : List (Call K V)} {call : Call K V}
    (h : calls[c]? = some call) : stateIn calls c = some call.state := by
  rw [stateIn, h]
  rfl

/-- Setting the state of a call that has not sent yet. -/
theorem stateIn_set_sending {command : Command K V} {calls : List (Call K V)}
    (h : calls[c]? = some ⟨command, .sending⟩) {new : CallState}
    (hnew : ∀ r, new ≠ .replied r) :
    (∀ d state, stateIn calls d = some state → state ≠ .sending →
      stateIn (calls.set c ⟨command, new⟩) d = some state)
    ∧ ∀ d r, stateIn (calls.set c ⟨command, new⟩) d = some (.replied r) →
      stateIn calls d = some (.replied r) := by
  have hsending := stateIn_of_getElem? h
  constructor
  · intro d state hd hne
    rw [stateIn_set h, if_neg, hd]
    rintro rfl
    rw [hsending] at hd
    exact hne (Option.some.inj hd).symm
  · intro d r hd
    rw [stateIn_set h] at hd
    split at hd
    case isTrue => exact absurd (Option.some.inj hd) (hnew r)
    case isFalse => exact hd

/-- The calls' steps, as the thread and the other calls see them. -/
theorem CallMoves.spec (hmove : CallMoves p w w') :
    w'.taken = w.taken ∧ w'.phase = w.phase ∧ w'.log = w.log
      ∧ (∃ more, w'.accepted = w.accepted ++ more)
      ∧ (∀ c state, stateIn w.calls c = some state → state ≠ .sending →
        stateIn w'.calls c = some state)
      ∧ ∀ c r, stateIn w'.calls c = some (.replied r) → stateIn w.calls c = some (.replied r) := by
  have hnil : ∃ more, w.accepted = w.accepted ++ more := ⟨[], (List.append_nil _).symm⟩
  cases hmove with
  | idle | disconnect => exact ⟨rfl, rfl, rfl, hnil, fun _ _ h _ => h, fun _ _ h => h⟩
  | start command hne =>
    refine ⟨rfl, rfl, rfl, hnil, fun c state hc _ => ?_, fun c r hc => ?_⟩
    · have hlt : c < w.calls.length := by
        obtain ⟨call, hcall, -⟩ := Option.map_eq_some_iff.1 hc
        exact (List.getElem?_eq_some_iff.1 hcall).1
      rw [stateIn_append, if_neg (by omega), hc]
    · rw [stateIn_append] at hc
      split at hc
      case isTrue => cases hc
      case isFalse => exact hc
  | refused c command hc => exact ⟨rfl, rfl, rfl, hnil, stateIn_set_sending hc nofun⟩
  | accepted c command hc hexit =>
    refine ⟨rfl, rfl, rfl, ⟨_, rfl⟩, stateIn_set_sending hc fun r => ?_⟩
    split <;> nofun

/-- Accepting a message changes no answer. -/
theorem ResultInv.accepts {m : Message K V} (h : ResultInv codec crc32c file p w)
    (haccepted : w'.accepted = w.accepted ++ [m])
    (hsent : ∀ r, stateIn w'.calls m.ack ≠ some (.replied r))
    (htaken : w'.taken = w.taken) (hphase : w'.phase = w.phase)
    (hlog : w'.log = w.log)
    (hcalls : ∀ c r, stateIn w'.calls c = some (.replied r) →
      stateIn w.calls c = some (.replied r)) :
    ResultInv codec crc32c file p w' := by
  have hold : ∀ i m' r, w'.accepted[i]? = some m' → stateIn w'.calls m'.ack = some (.replied r) →
      w.accepted[i]? = some m' ∧ i < w.accepted.length := by
    intro i m' r hi hstate
    rw [haccepted, getElem?_append] at hi
    split at hi
    case isTrue hlt => exact ⟨hi, hlt⟩
    case isFalse =>
      obtain rfl := mem_singleton.1 (mem_of_getElem? hi)
      exact absurd hstate (hsent r)
  constructor
  · intro i m' hi hstate
    obtain ⟨hi', hlt⟩ := hold i m' _ hi hstate
    rw [haccepted, take_append_of_le_length hlt, hlog]
    exact h.oks i m' hi' (hcalls _ _ hstate)
  · intro hack i m' e hi hstate
    obtain ⟨hi', -⟩ := hold i m' _ hi hstate
    rw [hphase, htaken]
    exact h.fails hack i m' e hi' (hcalls _ _ hstate)

theorem WorldInv.afterCall (h : WorldInv codec crc32c file p w)
    (hmove : CallMoves p w w') : WorldInv codec crc32c file p w' := by
  obtain ⟨htaken, hphase, hlog, ⟨more, hmore⟩, hkept, hreplied⟩ := hmove.spec
  have hstream := h.stream.accepts hmore htaken hphase hlog
  have hsame : w'.accepted = w.accepted → ReplyInv p w' ∧ ResultInv codec crc32c file p w' := by
    intro haccepted
    refine ⟨h.reply.calling haccepted htaken hphase hkept,
      h.result.kept haccepted hreplied ?_ fun hfailed => ?_⟩
    · rw [hlog]
    · rw [hphase]
      exact ⟨hfailed, htaken⟩
  cases hmove with
  | idle => exact h
  | disconnect =>
    exact ⟨hstream, (hsame rfl).1, (hsame rfl).2, h.calls_nonempty, h.nonempty⟩
  | start command hne =>
    exact ⟨hstream, (hsame rfl).1, (hsame rfl).2, forall_mem_snoc.2 ⟨h.calls_nonempty, hne⟩,
      h.nonempty⟩
  | refused c command hc =>
    exact ⟨hstream, (hsame rfl).1, (hsame rfl).2, nonempty_set h.calls_nonempty hc _, h.nonempty⟩
  | accepted c command hc hexit =>
    have hcalls := stateIn_set hc ⟨command,
      if p.replies ⟨command, c⟩ then .waiting else .enqueued⟩
    refine ⟨hstream, h.reply.accepts hexit (stateIn_of_getElem? hc) hcalls
      ?_ (fun hr => if_pos hr), h.result.accepts rfl ?_ rfl rfl rfl hreplied,
      nonempty_set h.calls_nonempty hc _, forall_mem_snoc.2 ⟨h.nonempty, ?_⟩⟩
    · split <;> nofun
    · intro r hr
      have hself := hcalls c
      rw [if_pos rfl] at hself
      rw [hself] at hr
      split at hr <;> cases hr
    · exact h.calls_nonempty _ (mem_of_getElem? hc)

/-- Every step is the thread's or a call's. -/
theorem protocolStep_moves (capacity : Nat) (w : World K V) (a : Action K V) :
    ThreadMoves codec crc32c p w (protocolStep codec crc32c p capacity w a).1
      ∨ CallMoves p w (protocolStep codec crc32c p capacity w a).1 := by
  cases a with
  | call command => exact Or.inr (call_moves w command)
  | send c => exact Or.inr (send_moves capacity w c)
  | disconnect => exact Or.inr (disconnect_moves w)
  | thread io => exact Or.inl (threadStep_moves codec crc32c p w io)

/-- The world after a run of any processes' steps. -/
def protocolRun (codec : WalCodec K V) (crc32c : List UInt8 → UInt32)
    (p : Protocol) (capacity : Nat) (w : World K V)
    (actions : List (Action K V)) : World K V :=
  exec (protocolStep codec crc32c p capacity) w actions

/-- What every step keeps, every run keeps. -/
theorem protocolRun_inv (inv : World K V → Prop)
    (hthread : ∀ w w', inv w → ThreadMoves codec crc32c p w w' → inv w')
    (hcall : ∀ w w', inv w → CallMoves p w w' → inv w') (hw : inv w)
    (actions : List (Action K V)) :
    inv (protocolRun codec crc32c p capacity w actions) := by
  refine exec_inv inv (fun w a hw _ => ?_) hw (guarded_true w actions)
  rcases protocolStep_moves capacity w a with hmove | hmove
  · exact hthread w _ hw hmove
  · exact hcall w _ hw hmove

theorem WorldInv.run (h : WorldInv codec crc32c file p w)
    (actions : List (Action K V)) : WorldInv codec crc32c file p
      (protocolRun codec crc32c p capacity w actions) :=
  protocolRun_inv _ (fun _ _ hw hmove => hw.afterThread hmove)
    (fun _ _ hw hmove => hw.afterCall hmove) h actions

/-- The file only grows along a run. -/
theorem grows_run (w : World K V) (actions : List (Action K V)) : w.log.Grows
      (protocolRun codec crc32c p capacity w actions).log := by
  refine protocolRun_inv (fun w' => w.log.Grows w'.log)
    (fun _ _ hw hmove => hw.trans hmove.grows) (fun _ _ hw hmove => ?_)
    (.refl _) actions
  rw [hmove.spec.2.2.1]
  exact hw

/-- An answer is final. -/
theorem answer_run {state : CallState} (h : stateIn w.calls c = some state)
    (hans : state.isAnswered) (actions : List (Action K V)) : stateIn
      (protocolRun codec crc32c p capacity w actions).calls c = some state := by
  refine protocolRun_inv (fun w' => stateIn w'.calls c = some state)
    (fun _ _ hw hmove => hmove.calls.2.2 c state hw hans)
    (fun _ _ hw hmove => ?_) h actions
  refine hmove.spec.2.2.2.2.1 c state hw ?_
  rintro rfl
  cases hans

end

end MemoryFirst.Core.Wal
