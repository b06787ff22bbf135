/-
Who answers whom: the bookkeeping of calls and replies around the WAL
thread, and what an answer says about the file.

# The order of the answers

Among the messages taken, those with a reply channel are answered from
the front: the ones behind are exactly those the thread holds. Together
with the distinct reply channels this says which calls wait at any time.

# What the thread's steps do to it

A step keeps the calls in the thread's hands, adds the one it takes, or
answers the first of them; the receiver's drop answers all that are left.
-/
import MemoryFirst.Core.Proofs.WalThread

namespace MemoryFirst.Core.Wal

open List


variable {K V : Type}

-- ===== the calls

def stateIn (calls : List (Call K V)) (c : Nat) : Option CallState :=
  (calls[c]?).map Call.state

def CallState.isAnswered : CallState → Bool
  | .replied _ => true
  | .broken _ => true
  | _ => false

variable {calls : List (Call K V)}

theorem stateIn_set {c : Nat} {call : Call K V}
    (h : calls[c]? = some call) (new : Call K V) (d : Nat) :
    stateIn (calls.set c new) d = if d = c then some new.state else stateIn calls d := by
  have hlt := (List.getElem?_eq_some_iff.1 h).1
  unfold stateIn
  rw [List.getElem?_set]
  by_cases hd : c = d
  · rw [if_pos hd, if_pos hlt, if_pos hd.symm]
    rfl
  · rw [if_neg hd, if_neg (Ne.symm hd)]

theorem stateIn_append (calls : List (Call K V)) (call : Call K V)
    (d : Nat) : stateIn (calls ++ [call]) d
      = if d = calls.length then some call.state else stateIn calls d := by
  unfold stateIn
  rw [getElem?_append]
  split
  case isTrue hlt => rw [if_neg (by omega)]
  case isFalse hge =>
    split
    case isTrue heq =>
      rw [heq, Nat.sub_self]
      rfl
    case isFalse hne =>
      rw [getElem?_eq_none (by simp; omega), getElem?_eq_none (by omega)]

theorem stateIn_settle (calls : List (Call K V)) (c : Nat)
    (state : CallState) (d : Nat) : stateIn (settle calls c state) d
      = if d = c ∧ stateIn calls d = some .waiting then some state
        else stateIn calls d := by
  unfold settle
  split
  case h_1 command hcall =>
    have hwait : stateIn calls c = some .waiting := by
      unfold stateIn
      rw [hcall]
      rfl
    rw [stateIn_set hcall]
    by_cases hd : d = c
    · rw [if_pos hd, if_pos ⟨hd, hd ▸ hwait⟩]
    · rw [if_neg hd, if_neg (fun h => hd h.1)]
  case h_2 hcall =>
    rw [if_neg]
    rintro ⟨rfl, hwait⟩
    obtain ⟨⟨command, state⟩, hsome, hstate⟩ := Option.map_eq_some_iff.1 hwait
    cases hstate
    exact hcall command hsome

/-- A reply finds the call that waits for it. -/
theorem reply_of_waiting {w : World K V} {c : Nat}
    (h : stateIn w.calls c = some .waiting) (result : IoResult)
    (phase : Phase K V) : w.reply c result phase
      = { w with
          calls := settle w.calls c (.replied result), phase := phase } := by
  obtain ⟨⟨command, state⟩, hsome, hstate⟩ := Option.map_eq_some_iff.1 h
  cases hstate
  unfold World.reply
  rw [hsome]

variable (p : Protocol)

theorem stateIn_dropMessages (calls : List (Call K V)) (messages : List (Message K V)) (d : Nat) :
    stateIn (dropMessages p calls messages) d
      = if d ∈ messages.flatMap p.acksOf ∧ stateIn calls d = some .waiting
        then some (.broken p.stopped) else stateIn calls d := by
  unfold dropMessages
  generalize messages.flatMap p.acksOf = acks
  induction acks generalizing calls with
  | nil => simp
  | cons c acks ih =>
    have hone := stateIn_settle calls c (.broken p.stopped) d
    rw [foldl_cons, ih, dropAck]
    by_cases hwait : stateIn calls d = some .waiting
    · by_cases hd : d = c
      · subst hd
        simp [hone, hwait]
      · rw [if_neg (fun h => hd h.1)] at hone
        simp [hone, hd]
    · rw [if_neg (fun h => hwait h.2)] at hone
      simp [hone, hwait]

theorem acksOf_sublist (messages : List (Message K V)) :
    (messages.flatMap p.acksOf).Sublist (messages.map Message.ack) := by
  induction messages with
  | nil => exact List.Sublist.refl []
  | cons m messages ih =>
    rw [flatMap_cons, map_cons]
    unfold Protocol.acksOf
    split
    case isTrue => exact ih.cons_cons m.ack
    case isFalse => exact ih.cons m.ack

theorem mem_acksOf {p : Protocol} {m : Message K V} (h : p.replies m) : m.ack ∈ p.acksOf m := by
  unfold Protocol.acksOf
  rw [if_pos h]
  exact mem_singleton.2 rfl

-- ===== the order of the answers

def Answered (calls : List (Call K V)) (c : Nat) : Prop :=
  ∃ state, stateIn calls c = some state ∧ state.isAnswered

/-- Which calls wait, and for what. -/
structure ReplyInv (p : Protocol) (w : World K V) : Prop where
  taken_le : w.taken ≤ w.accepted.length
  acks_nodup : (w.accepted.map Message.ack).Nodup
  sent : ∀ m ∈ w.accepted, ∃ state, stateIn w.calls m.ack = some state ∧ state ≠ .sending
  answered : ∃ front, (w.accepted.take w.taken).flatMap p.acksOf = front ++ w.phase.held
      ∧ ∀ c ∈ front, Answered w.calls c
  waiting : ∀ c ∈ w.phase.held, stateIn w.calls c = some .waiting
  queued : ∀ m ∈ w.accepted.drop w.taken, p.replies m →
    if w.phase.isExited then Answered w.calls m.ack
    else stateIn w.calls m.ack = some .waiting
  control : ∀ m, w.phase.message = some m →
    m.isControl ∧ ∃ i, w.taken = i + 1 ∧ w.accepted[i]? = some m
  acknowledged : p.acknowledged = false → w.phase.acks = []

theorem replyInv_started (config : WalConfig) (file : List UInt8) :
    ReplyInv p (started config file : World K V) where
  taken_le := Nat.le_refl 0
  acks_nodup := nodup_nil
  sent m hm := by cases hm
  answered := ⟨[], rfl, fun c hc => by cases hc⟩
  waiting c hc := by cases hc
  queued m hm := by cases hm
  control m hm := by cases hm
  acknowledged _ := rfl

section

variable {p : Protocol} {w : World K V} {result : IoResult} {m : Message K V}
  {phase prev : Phase K V} {w' : World K V}

/-- The same calls in the hands of both phases. -/
def SameHands (prev phase : Phase K V) : Prop :=
  phase.acks = prev.acks ∧ phase.message = prev.message ∧ phase.isExited = prev.isExited

theorem Turn.replies (h : Turn p w prev phase) : SameHands prev phase := by
  cases h <;> exact ⟨rfl, rfl, rfl⟩

theorem Takes.replies (h : Takes p m prev phase) : prev.isExited = false ∧ phase.isExited = false
      ∧ phase.held = prev.held ++ p.acksOf m
      ∧ (∀ m', phase.message = some m' → m' = m ∧ m.isControl)
      ∧ (p.acknowledged = false → prev.acks = [] → phase.acks = []) := by
  have hnone : m.isControl = false → p.acknowledged = false → p.acksOf m = [] := by
    intro hm hack
    obtain ⟨command, ack⟩ := m
    cases command with
    | flush records =>
      simp only [Protocol.acksOf, Protocol.replies, hack]
      rfl
    | sync | shutdown => cases hm
  cases h with
  | first hm =>
    refine ⟨rfl, rfl, append_nil _, nofun, fun hack _ => ?_⟩
    exact hnone hm hack
  | control hm =>
    refine ⟨rfl, rfl, (acksOf_of_isControl p hm).symm, fun m' heq => ?_, fun _ _ => rfl⟩
    cases heq
    exact ⟨rfl, hm⟩
  | more batch acks hm hfull =>
    refine ⟨rfl, rfl, ?_, nofun, fun hack hprev => ?_⟩
    · simp [Phase.held, Phase.acks, Phase.message]
    · rw [hnone hm hack, append_nil]
      exact hprev
  | last batch acks hm =>
    refine ⟨rfl, rfl, ?_, fun m' heq => ?_, fun _ hprev => hprev⟩
    · rw [acksOf_of_isControl p hm]
      simp [Phase.held, Phase.acks, Phase.message]
    · cases heq
      exact ⟨rfl, hm⟩

theorem Syncs.replies (h : Syncs result prev phase) : SameHands prev phase := by
  cases h <;> exact ⟨rfl, rfl, rfl⟩

theorem Replies.replies {c : Nat} (h : Replies p c result prev phase) :
    prev.held = [c] ++ phase.held ∧ prev.isExited = false ∧ phase.isExited = false
      ∧ (∀ m, phase.message = some m → prev.message = some m)
      ∧ (prev.acks = [] → phase.acks = []) := by
  cases h with
  | flush acks next => exact ⟨rfl, rfl, rfl, fun _ h => h, nofun⟩
  | failed _ _ | synced _ | shutdown _ => exact ⟨rfl, rfl, rfl, nofun, fun _ => rfl⟩

section

variable (h : ReplyInv p w)

include h

/-- A held call belongs to a message that was taken. -/
theorem ReplyInv.lt_taken {i : Nat} (hi : w.accepted[i]? = some m) (hc : m.ack ∈ w.phase.held) :
    i < w.taken := by
  by_contra hge
  obtain ⟨front, hacks, -⟩ := h.answered
  have htaken : m.ack ∈ (w.accepted.take w.taken).map Message.ack := by
    refine (acksOf_sublist p _).subset ?_
    rw [hacks]
    exact mem_append_right _ hc
  have hqueued : m.ack ∈ (w.accepted.drop w.taken).map Message.ack := by
    refine mem_map_of_mem (mem_iff_getElem?.2 ⟨i - w.taken, ?_⟩)
    rw [getElem?_drop, Nat.add_sub_cancel' (by omega)]
    exact hi
  have hnodup := h.acks_nodup
  rw [← take_append_drop w.taken w.accepted, map_append, nodup_append] at hnodup
  exact hnodup.2.2 _ htaken _ hqueued rfl

/-- Reply channels are distinct. -/
theorem ReplyInv.index_inj {i j : Nat} {m' : Message K V}
    (hi : w.accepted[i]? = some m) (hj : w.accepted[j]? = some m')
    (hack : m.ack = m'.ack) : i = j := by
  have hlt : i < (w.accepted.map Message.ack).length := by
    rw [List.length_map]
    exact (List.getElem?_eq_some_iff.1 hi).1
  refine (List.getElem?_inj hlt h.acks_nodup).1 ?_
  rw [List.getElem?_map, List.getElem?_map, hi, hj]
  exact congrArg some hack

/-- The phase moves on with the same calls in its hands. -/
theorem ReplyInv.moved (hcalls : w'.calls = w.calls)
    (haccepted : w'.accepted = w.accepted) (htaken : w'.taken = w.taken)
    (hsame : SameHands w.phase w'.phase) : ReplyInv p w' := by
  obtain ⟨hacks, hmessage, hexit⟩ := hsame
  have hheld : w'.phase.held = w.phase.held := by
    rw [Phase.held, Phase.held, hacks, hmessage]
  constructor
  · rw [haccepted, htaken]
    exact h.taken_le
  · rw [haccepted]
    exact h.acks_nodup
  · rw [haccepted, hcalls]
    exact h.sent
  · rw [haccepted, htaken, hheld, hcalls]
    exact h.answered
  · rw [hheld, hcalls]
    exact h.waiting
  · rw [haccepted, htaken, hcalls, hexit]
    exact h.queued
  · rw [haccepted, htaken, hmessage]
    exact h.control
  · rw [hacks]
    exact h.acknowledged

/-- The thread takes a message and holds the call it came from. -/
theorem ReplyInv.took (hnext : w.next = some m) (htakes : Takes p m w.phase phase) :
    ReplyInv p { w with taken := w.taken + 1, phase := phase } := by
  obtain ⟨hexit, hexit', hheld, hmessage, hacks⟩ := htakes.replies
  have hm : w.accepted[w.taken]? = some m := hnext
  have hdrop : w.accepted.drop w.taken = m :: w.accepted.drop (w.taken + 1) := by
    obtain ⟨hlt, hget⟩ := List.getElem?_eq_some_iff.1 hm
    rw [List.drop_eq_getElem_cons hlt, hget]
  refine ⟨(List.getElem?_eq_some_iff.1 hm).1, h.acks_nodup, h.sent, ?_, ?_, ?_, ?_,
    fun hack => hacks hack (h.acknowledged hack)⟩
  · obtain ⟨front, hfront, hdone⟩ := h.answered
    refine ⟨front, ?_, hdone⟩
    rw [List.take_add_one, hm, List.flatMap_append, hfront, hheld, List.append_assoc]
    simp
  · intro c hc
    rw [hheld] at hc
    rcases List.mem_append.1 hc with hc | hc
    · exact h.waiting c hc
    have hqueued := h.queued m (hdrop ▸ List.mem_cons_self)
    rw [hexit] at hqueued
    unfold Protocol.acksOf at hc
    split at hc
    case isTrue hreplies =>
      rw [List.mem_singleton.1 hc]
      exact hqueued hreplies
    case isFalse => cases hc
  · intro m' hm' hreplies
    have hqueued := h.queued m' (hdrop ▸ List.mem_cons_of_mem m hm') hreplies
    rw [hexit] at hqueued
    rw [hexit']
    exact hqueued
  · intro m' hm'
    obtain ⟨rfl, hcontrol⟩ := hmessage m' hm'
    exact ⟨hcontrol, w.taken, rfl, hm⟩

end

/-- Calls that return stay returned, and nobody but the waiting calls in
`acks` returns. -/
theorem ReplyInv.settled {acks : List Nat}
    (h : ReplyInv p w) (state : CallState) (hstate : state.isAnswered)
    (hcalls : ∀ d, stateIn calls d = if d ∈ acks ∧ stateIn w.calls d = some .waiting then some state
        else stateIn w.calls d) (hheld : w.phase.held = acks ++ phase.held)
    (hexit : w.phase.isExited = false) (hexit' : phase.isExited = false)
    (hmessage : ∀ m, phase.message = some m → w.phase.message = some m)
    (hacks : p.acknowledged = false → phase.acks = []) :
    ReplyInv p { w with calls := calls, phase := phase } := by
  obtain ⟨front, hfront, hdone⟩ := h.answered
  have hnodup : (front ++ w.phase.held).Nodup := by
    rw [← hfront]
    exact ((acksOf_sublist p _).trans ((take_sublist _ _).map _)).nodup h.acks_nodup
  rw [hheld] at hfront hnodup
  have hgone : ∀ c ∈ acks, stateIn calls c = some state := by
    intro c hc
    rw [hcalls, if_pos ⟨hc, h.waiting c (hheld ▸ mem_append_left _ hc)⟩]
  have hkept : ∀ c, c ∉ acks → stateIn calls c = stateIn w.calls c := by
    intro c hc
    rw [hcalls, if_neg (fun h => hc h.1)]
  refine ⟨h.taken_le, h.acks_nodup, ?_, ⟨front ++ acks, ?_, ?_⟩, ?_, ?_, ?_, hacks⟩
  · intro m hm
    by_cases hc : m.ack ∈ acks
    · refine ⟨state, hgone _ hc, ?_⟩
      rintro rfl
      cases hstate
    · rw [hkept _ hc]
      exact h.sent m hm
  · rw [hfront, append_assoc]
  · intro c hc
    by_cases hin : c ∈ acks
    · exact ⟨state, hgone c hin, hstate⟩
    · show ∃ st, stateIn calls c = some st ∧ _
      rw [hkept c hin]
      exact hdone c ((mem_append.1 hc).resolve_right hin)
  · intro c hc
    have hin : c ∉ acks := fun hin =>
      (nodup_append.1 (nodup_append.1 hnodup).2.1).2.2 c hin c hc rfl
    rw [hkept c hin]
    exact h.waiting c (hheld ▸ mem_append_right _ hc)
  · intro m hm hreplies
    change m ∈ w.accepted.drop w.taken at hm
    obtain ⟨j, hj⟩ := mem_iff_getElem?.1 hm
    rw [getElem?_drop] at hj
    have hin : m.ack ∉ acks := by
      intro hin
      have hlt := h.lt_taken hj (hheld ▸ mem_append_left _ hin)
      omega
    have hqueued := h.queued m hm hreplies
    rw [hexit] at hqueued
    rw [hexit', hkept _ hin]
    exact hqueued
  · intro m hm
    exact h.control m (hmessage m hm)

/-- The receiver is dropped: whoever is still queued gets a broken
pipe. -/
theorem ReplyInv.closed (h : ReplyInv p w) (hphase : w.phase = .closing result) : ReplyInv p
      { w with
        calls := dropMessages p w.calls (w.accepted.drop w.taken)
        phase := .exited result } := by
  have hstate : ∀ c, stateIn w.calls c ≠ some .waiting →
      stateIn (dropMessages p w.calls (w.accepted.drop w.taken)) c = stateIn w.calls c := by
    intro c hc
    rw [stateIn_dropMessages, if_neg (fun h => hc h.2)]
  have hkept : ∀ c, Answered w.calls c →
      Answered (dropMessages p w.calls (w.accepted.drop w.taken)) c := by
    rintro c ⟨state, hsome, hans⟩
    refine ⟨state, ?_, hans⟩
    rw [hstate c ?_, hsome]
    rw [hsome]
    rintro heq
    cases heq
    cases hans
  refine ⟨h.taken_le, h.acks_nodup, ?_, ?_, nofun, ?_, nofun, fun _ => rfl⟩
  · intro m hm
    rw [stateIn_dropMessages]
    split
    case isTrue => exact ⟨_, rfl, nofun⟩
    case isFalse => exact h.sent m hm
  · obtain ⟨front, hfront, hdone⟩ := h.answered
    rw [hphase] at hfront
    exact ⟨front, hfront, fun c hc => hkept c (hdone c hc)⟩
  · intro m hm hreplies
    have hwait := h.queued m hm hreplies
    rw [hphase] at hwait
    have hmem : m.ack ∈ (w.accepted.drop w.taken).flatMap p.acksOf :=
      mem_flatMap.2 ⟨m, hm, mem_acksOf hreplies⟩
    refine ⟨.broken p.stopped, ?_, rfl⟩
    rw [stateIn_dropMessages, if_pos ⟨hmem, hwait⟩]

theorem ReplyInv.afterThread {codec : WalCodec K V}
    {crc32c : List UInt8 → UInt32} (h : ReplyInv p w)
    (hmove : ThreadMoves codec crc32c p w w') : ReplyInv p w' := by
  cases hmove with
  | blocked _ _ | finished _ => exact h
  | turn phase hturn =>
    exact h.moved rfl rfl rfl hturn.replies
  | take m phase hnext htakes =>
    exact h.took hnext htakes
  | write _ _ _ _ hphase _ | writeFailed _ _ _ _ _ hphase | drop _ _ hphase =>
    refine h.moved rfl rfl rfl ⟨?_, ?_, ?_⟩ <;> rw [hphase] <;> rfl
  | sync phase io hsyncs =>
    exact h.moved rfl rfl rfl hsyncs.replies
  | reply c result phase hreplies =>
    obtain ⟨hheld, hexit, hexit', hmessage, hacks⟩ := hreplies.replies
    have hwait := h.waiting c (hheld ▸ mem_cons_self)
    rw [reply_of_waiting hwait]
    refine h.settled (.replied result) rfl (fun d => ?_) hheld hexit hexit' hmessage
      fun hack => hacks (h.acknowledged hack)
    rw [stateIn_settle]
    simp only [mem_singleton]
  | leave held result hphase =>
    have hacks : held.toList.flatMap p.acksOf = held.toList.map Message.ack := by
      cases held with
      | none => rfl
      | some m =>
        have hm := (h.control m (by rw [hphase]; rfl)).1
        simp [acksOf_of_isControl p hm]
    refine h.settled (.broken p.stopped) rfl
      (fun d => stateIn_dropMessages p _ _ d) ?_ ?_ rfl nofun (fun _ => rfl)
    · rw [hphase, hacks]
      exact (append_nil _).symm
    · rw [hphase]
      rfl
  | close result hphase => exact h.closed hphase

/-- Calls that are not in the channel yet are nobody's business. -/
theorem ReplyInv.calling (h : ReplyInv p w)
    (haccepted : w'.accepted = w.accepted) (htaken : w'.taken = w.taken)
    (hphase : w'.phase = w.phase)
    (hkept : ∀ c state, stateIn w.calls c = some state → state ≠ .sending →
      stateIn w'.calls c = some state) : ReplyInv p w' := by
  have hanswered : ∀ c, Answered w.calls c → Answered w'.calls c := by
    rintro c ⟨state, hstate, hans⟩
    refine ⟨state, hkept c state hstate ?_, hans⟩
    rintro rfl
    cases hans
  constructor
  · rw [haccepted, htaken]
    exact h.taken_le
  · rw [haccepted]
    exact h.acks_nodup
  · intro m hm
    rw [haccepted] at hm
    obtain ⟨state, hstate, hne⟩ := h.sent m hm
    exact ⟨state, hkept _ _ hstate hne, hne⟩
  · obtain ⟨front, hfront, hdone⟩ := h.answered
    rw [haccepted, htaken, hphase]
    exact ⟨front, hfront, fun c hc => hanswered c (hdone c hc)⟩
  · intro c hc
    rw [hphase] at hc
    exact hkept c _ (h.waiting c hc) nofun
  · intro m hm hreplies
    rw [haccepted, htaken] at hm
    have hqueued := h.queued m hm hreplies
    rw [hphase]
    split
    case isTrue hexit =>
      rw [if_pos hexit] at hqueued
      exact hanswered _ hqueued
    case isFalse hexit =>
      rw [if_neg hexit] at hqueued
      exact hkept _ _ hqueued nofun
  · rw [haccepted, htaken, hphase]
    exact h.control
  · rw [hphase]
    exact h.acknowledged

/-- A call's message enters the channel. -/
theorem ReplyInv.accepts {state : CallState} (h : ReplyInv p w) (hexit : w.phase.isExited = false)
    (hsending : stateIn w.calls m.ack = some .sending)
    (hcalls : ∀ d, stateIn calls d = if d = m.ack then some state else stateIn w.calls d)
    (hne : state ≠ .sending) (hwait : p.replies m → state = .waiting) :
    ReplyInv p { w with calls := calls, accepted := w.accepted ++ [m] } := by
  have hkept : ∀ c st, stateIn w.calls c = some st → st ≠ .sending → stateIn calls c = some st := by
    intro c st hst hsent
    rw [hcalls, if_neg ?_, hst]
    rintro rfl
    rw [hsending] at hst
    exact hsent (Option.some.inj hst).symm
  have hself : stateIn calls m.ack = some state := by
    rw [hcalls, if_pos rfl]
  have hfresh : m.ack ∉ w.accepted.map Message.ack := by
    intro hin
    obtain ⟨m', hm', hack⟩ := List.mem_map.1 hin
    obtain ⟨st, hst, hsent⟩ := h.sent m' hm'
    rw [hack, hsending] at hst
    exact hsent (Option.some.inj hst).symm
  have hcalling : ReplyInv p { w with calls := calls } := h.calling rfl rfl rfl hkept
  constructor
  · rw [List.length_append]
    exact Nat.le_trans h.taken_le (by omega)
  · rw [List.map_append, List.map_singleton]
    refine List.nodup_append.2 ⟨h.acks_nodup, by simp, fun c hc d hd => ?_⟩
    rw [List.mem_singleton.1 hd]
    exact fun heq => hfresh (heq ▸ hc)
  · intro m' hm'
    rcases List.mem_append.1 hm' with hm' | hm'
    · exact hcalling.sent m' hm'
    · rw [List.mem_singleton.1 hm']
      exact ⟨state, hself, hne⟩
  · rw [List.take_append_of_le_length h.taken_le]
    exact hcalling.answered
  · exact hcalling.waiting
  · intro m' hm' hreplies
    rw [List.drop_append_of_le_length h.taken_le] at hm'
    rcases List.mem_append.1 hm' with hm' | hm'
    · exact hcalling.queued m' hm' hreplies
    rw [List.mem_singleton.1 hm'] at hreplies ⊢
    rw [hexit, hself, hwait hreplies]
    exact rfl
  · intro m' hm'
    obtain ⟨hcontrol, i, htaken, hi⟩ := h.control m' hm'
    refine ⟨hcontrol, i, htaken, ?_⟩
    rw [List.getElem?_append_left (List.getElem?_eq_some_iff.1 hi).1, hi]
  · exact h.acknowledged

end

end MemoryFirst.Core.Wal
