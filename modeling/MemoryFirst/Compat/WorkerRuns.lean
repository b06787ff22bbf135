/-
The flush worker over every interleaving of its producers, the worker
thread and the answers of the backend.

# The invariant

What was enqueued is, in this order, what was committed, what is pending
and what the jobs still hold (`World.jobs`: the barrier in hand, then the
queue). A barrier among the jobs stands behind exactly the records that
were enqueued before it. The worker sees the queue closed only when it is
empty, and nothing can be sent from then on.

# The steps

Taking a record moves it from the jobs to the pending ones; taking a
barrier leaves the jobs as they are; a commit moves all that is pending;
a refused batch goes back where it was. An answer takes the barrier in
hand when nothing is pending, so everything before it is committed.
-/
import MemoryFirst.Compat.FlushWorker
import MemoryFirst.Lib.Runs
import Mathlib.Algebra.Ring.Nat

namespace MemoryFirst.Compat.FlushWorker

open Lib World List

variable {ρ : Type} {w : World ρ} {config : FlushConfig}

-- ===== the invariant

/-- The jobs the worker has still to deal with: a barrier it has taken,
and the queue. -/
def World.jobs (w : World ρ) : List (FlushJob ρ) :=
  w.worker.barrier.toList.map FlushJob.barrier ++ w.channel

/-- The records among jobs. -/
def records (jobs : List (FlushJob ρ)) : List ρ :=
  jobs.filterMap FlushJob.record?

@[simp] theorem records_nil : records ([] : List (FlushJob ρ)) = [] := rfl

@[simp] theorem records_record (r : ρ) (jobs : List (FlushJob ρ)) :
    records (.record r :: jobs) = r :: records jobs := rfl

@[simp] theorem records_barrier (ack : Nat) (jobs : List (FlushJob ρ)) :
    records (.barrier ack :: jobs) = records jobs := rfl

@[simp] theorem records_append (jobs more : List (FlushJob ρ)) :
    records (jobs ++ more) = records jobs ++ records more :=
  filterMap_append

/-- Each barrier among the jobs stands where it was sent: `handled`
records and those of the jobs before it were enqueued before it. -/
def Placed (barriers : List Barrier) (handled : Nat) (jobs : List (FlushJob ρ)) : Prop :=
  ∀ pre ack post, jobs = pre ++ .barrier ack :: post → ∃ call, barriers[ack]? = some call
      ∧ call.before = handled + (records pre).length

structure Inv (w : World ρ) : Prop where
  order : w.enqueued = w.committed ++ w.worker.pending ++ records w.jobs
  placed : Placed w.barriers (w.committed.length + w.worker.pending.length) w.jobs
  /-- An answered barrier was answered when everything before it was
  committed, and only such a barrier returns. -/
  answered : ∀ call ∈ w.barriers, ∀ n, call.answered = some n →
    call.before ≤ n ∧ n ≤ w.committed.length
  returned : ∀ call ∈ w.barriers, call.result = some (.ok ()) → ∃ n, call.answered = some n
  closed : w.worker.closed = true → w.sender = false ∧ w.channel = []
  answering : w.worker.pc = .answer → w.worker.pending = []
  receiving : w.worker.pc = .receive → w.worker.barrier = none
  stopped : w.worker.pc = .stopped →
    w.worker.closed = true ∧ w.worker.pending = [] ∧ w.worker.barrier = none

theorem inv_spawn (config : FlushConfig) : Inv (spawn config : World ρ) where
  order := rfl
  placed := by
    intro pre ack post h
    cases pre <;> cases h
  answered := nofun
  returned := nofun
  closed := nofun
  answering := nofun
  receiving := nofun
  stopped := nofun

-- ===== places

section

variable {barriers : List Barrier} {handled : Nat} {jobs : List (FlushJob ρ)}

/-- The first record is taken. -/
theorem Placed.record {r : ρ} (h : Placed barriers handled (.record r :: jobs)) :
    Placed barriers (handled + 1) jobs := by
  intro pre ack post hjobs
  obtain ⟨call, hcall, hbefore⟩ := h (.record r :: pre) ack post (by rw [hjobs, cons_append])
  refine ⟨call, hcall, ?_⟩
  rw [hbefore, records_record, length_cons]
  omega

variable {ack : Nat}

/-- The first barrier is answered. -/
theorem Placed.barrier (h : Placed barriers handled (.barrier ack :: jobs)) :
    Placed barriers handled jobs := by
  intro pre ack' post hjobs
  obtain ⟨call, hcall, hbefore⟩ := h (.barrier ack :: pre) ack' post
    (by rw [hjobs, cons_append])
  exact ⟨call, hcall, hbefore⟩

variable {job : FlushJob ρ}

/-- A job is sent behind the others. -/
theorem Placed.send (h : Placed barriers handled jobs) {barriers' : List Barrier}
    (hold : ∀ (ack : Nat) call, barriers[ack]? = some call → barriers'[ack]? = some call)
    (hnew : ∀ ack, job = .barrier ack → ∃ call, barriers'[ack]? = some call
        ∧ call.before = handled + (records jobs).length) :
    Placed barriers' handled (jobs ++ [job]) := by
  intro pre ack post hjobs
  -- the barrier is the new job, or one of the old
  rcases eq_nil_or_concat post with rfl | ⟨post, last, rfl⟩
  · obtain ⟨rfl, hjob⟩ := append_inj' hjobs rfl
    exact hnew ack (singleton_inj.1 hjob)
  have hsplit : jobs ++ [job] = (pre ++ .barrier ack :: post) ++ [last] := by
    rw [hjobs]
    simp
  obtain ⟨rfl, -⟩ := append_inj' hsplit rfl
  obtain ⟨call, hcall, hbefore⟩ := h pre ack post rfl
  exact ⟨call, hold ack call hcall, hbefore⟩

variable {f : Barrier → Barrier}

/-- Calls that keep what they remember keep the places. -/
theorem Placed.modify (h : Placed barriers handled jobs) (ack : Nat)
    (hf : ∀ call, (f call).before = call.before) :
    Placed (barriers.modify ack f) handled jobs := by
  intro pre ack' post hjobs
  obtain ⟨call, hcall, hbefore⟩ := h pre ack' post hjobs
  by_cases hack : ack = ack'
  · refine ⟨f call, ?_, (hf call).trans hbefore⟩
    simp [hack, hcall]
  · refine ⟨call, ?_, hbefore⟩
    simp [hack, hcall]

end

variable {call : Barrier}

/-- A call after one of them has changed. -/
theorem mem_modify {ack : Nat} {f : Barrier → Barrier} {barriers : List Barrier}
    (h : call ∈ barriers.modify ack f) :
    call ∈ barriers ∨ ∃ old, barriers[ack]? = some old ∧ call = f old := by
  obtain ⟨i, hi⟩ := mem_iff_getElem?.1 h
  rw [getElem?_modify] at hi
  cases hget : barriers[i]? with
  | none =>
    rw [hget] at hi
    cases hi
  | some old =>
    rw [hget] at hi
    by_cases hack : ack = i
    · simp only [hack, if_true, Option.map_eq_map, Option.map_some] at hi
      exact Or.inr ⟨old, hack ▸ hget, (Option.some.inj hi).symm⟩
    · simp only [hack, if_false, Option.map_eq_map, Option.map_some] at hi
      cases hi
      exact Or.inl (mem_of_getElem? hget)

-- ===== producers

/-- Nothing is sent to a queue that was seen closed. -/
theorem Inv.open_of_accepts (h : Inv w) (ha : w.accepts) : w.worker.closed = false := by
  cases hclosed : w.worker.closed with
  | false => rfl
  | true =>
    have hsender := (h.closed hclosed).1
    rw [ha.1] at hsender
    cases hsender

theorem inv_enqueue (h : Inv w) (r : ρ) : Inv (enqueue w r).1 := by
  unfold enqueue
  split
  next ha =>
    have hjobs : w.worker.barrier.toList.map FlushJob.barrier
        ++ (w.channel ++ [.record r]) = w.jobs ++ [.record r] :=
      (append_assoc ..).symm
    refine { h with order := ?_, placed := ?_, closed := ?_ }
    · simp only [jobs]
      rw [hjobs, h.order]
      simp
    · simp only [jobs]
      rw [hjobs]
      exact h.placed.send (fun _ _ hcall => hcall) nofun
    · intro hclosed
      rw [h.open_of_accepts ha] at hclosed
      cases hclosed
  next => exact h

theorem inv_count (h : Inv w) : Inv (count w) := by
  unfold count
  split
  · exact h
  · exact { h with }

theorem inv_barrier (h : Inv w) : Inv (barrier w).1 := by
  unfold barrier
  split
  next ha =>
    have hjobs : w.worker.barrier.toList.map FlushJob.barrier
        ++ (w.channel ++ [.barrier w.barriers.length])
        = w.jobs ++ [.barrier w.barriers.length] :=
      (List.append_assoc ..).symm
    refine
      { h with order := ?_, placed := ?_, answered := ?_, returned := ?_,
               closed := ?_ }
    · simp only [jobs]
      rw [hjobs, h.order]
      simp
    · simp only [jobs]
      rw [hjobs]
      refine h.placed.send (fun ack call hcall => ?_) fun ack hack => ?_
      · obtain ⟨hlt, -⟩ := List.getElem?_eq_some_iff.1 hcall
        rw [List.getElem?_append_left hlt]
        exact hcall
      · cases hack
        refine ⟨_, List.getElem?_concat_length, ?_⟩
        simp only [h.order, List.length_append]
    · exact forall_mem_snoc.2 ⟨h.answered, nofun⟩
    · exact forall_mem_snoc.2 ⟨h.returned, nofun⟩
    · intro hclosed
      rw [h.open_of_accepts ha] at hclosed
      cases hclosed
  next => exact h

/-- A wait ends well only with an answer. -/
theorem awaited_ok {ack : Nat} {timedOut : Bool} (h : awaited w ack call timedOut = some (.ok ())) :
    ∃ n, call.answered = some n := by
  unfold awaited at h
  split at h
  next => cases h
  next =>
    split at h
    next hsome => exact Option.isSome_iff_exists.1 hsome
    next => split at h <;> cases h

section

variable (h : Inv w)

include h

theorem inv_await (ack : Nat) (timedOut : Bool) : Inv (await w ack timedOut).1 := by
  unfold await
  cases hget : w.barriers[ack]? with
  | none => exact h
  | some call =>
    simp only
    split
    next => exact h
    next =>
      refine { h with placed := ?_, answered := ?_, returned := ?_ }
      · exact h.placed.modify ack fun _ => rfl
      · intro call' hcall n hn
        rcases mem_modify hcall with hcall | ⟨old, hold, rfl⟩
        · exact h.answered call' hcall n hn
        · exact h.answered old (mem_of_getElem? hold) n hn
      · intro call' hcall hok
        rcases mem_modify hcall with hcall | ⟨old, hold, rfl⟩
        · exact h.returned call' hcall hok
        · rw [hget] at hold
          cases hold
          exact awaited_ok hok

theorem inv_close : Inv (close w) :=
  { h with closed := fun hclosed => ⟨rfl, (h.closed hclosed).2⟩ }

-- ===== worker

/-- The decision after a collection changes the point only. -/
theorem inv_collected : Inv { w with worker := w.worker.collected } := by
  refine
    { h with answering := fun hpc => ?_, receiving := fun hpc => ?_,
             stopped := fun hpc => ?_ }
  · unfold Worker.collected at hpc ⊢
    split at hpc
    next => split at hpc <;> cases hpc
    next =>
      split at hpc
      next hempty => exact isEmpty_iff.1 hempty
      next => cases hpc
  · unfold Worker.collected at hpc ⊢
    split at hpc
    next hnone => exact hnone.2
    next => split at hpc <;> cases hpc
  · unfold Worker.collected at hpc ⊢
    split at hpc
    next hnone =>
      split at hpc
      next hclosed => exact ⟨hclosed, isEmpty_iff.1 hnone.1, hnone.2⟩
      next => cases hpc
    next => split at hpc <;> cases hpc

/-- A job is taken while no barrier is in hand. -/
theorem inv_take {job : FlushJob ρ} (hnone : w.worker.barrier = none) {rest : List (FlushJob ρ)}
    (hchannel : w.channel = job :: rest) :
    Inv { w with
      channel := rest
      worker := { w.worker.take job with pc := .collect } } := by
  have hopen : w.worker.closed = false := by
    cases hclosed : w.worker.closed with
    | false => rfl
    | true =>
      have hempty := (h.closed hclosed).2
      rw [hchannel] at hempty
      cases hempty
  have hjobs : w.jobs = job :: rest := by
    simp [jobs, hnone, hchannel]
  have horder := h.order
  have hplaced := h.placed
  rw [hjobs] at horder hplaced
  cases job with
  | record r =>
    refine
      { order := ?_, placed := ?_, answered := h.answered,
        returned := h.returned, closed := ?_, answering := nofun,
        receiving := nofun, stopped := nofun }
    · simp only [jobs, Worker.take, hnone]
      rw [horder]
      simp
    · simp only [jobs, Worker.take, hnone, length_append]
      exact hplaced.record
    · intro hclosed
      simp only [Worker.take, hopen, Bool.false_eq_true] at hclosed
  | barrier ack =>
    refine
      { order := ?_, placed := ?_, answered := h.answered,
        returned := h.returned, closed := ?_, answering := nofun,
        receiving := nofun, stopped := nofun }
    · simp only [jobs, Worker.take]
      rw [horder]
      simp
    · exact hplaced
    · intro hclosed
      simp only [Worker.take, hopen, Bool.false_eq_true] at hclosed

/-- The queue is found closed. -/
theorem inv_closed (hsender : w.sender = false) (hchannel : w.channel = []) {pc : WorkerPc}
    (hpc : pc = .collect) :
    Inv { w with worker := { w.worker with closed := true, pc := pc } } := by
  subst hpc
  exact
    { h with closed := fun _ => ⟨hsender, hchannel⟩, answering := nofun,
             receiving := nofun, stopped := nofun }

theorem inv_collect (hpc : w.worker.pc = .collect) : Inv (collect config w) := by
  unfold collect
  split
  next hcond =>
    split
    next job rest hchannel =>
      have htake := inv_take h hcond.2 hchannel
      have hsame : { w.worker.take job with pc := .collect } = w.worker.take job := by
        cases job <;> simp [Worker.take, ← hpc]
      rw [hsame] at htake
      exact htake
    next hchannel =>
      split
      next => exact inv_collected h
      next hsender =>
        have hclosed := inv_closed h (Bool.not_eq_true _ ▸ hsender) hchannel hpc
        exact inv_collected hclosed
  next => exact inv_collected h

theorem inv_receive (hpc : w.worker.pc = .receive)
    (timedOut : Bool) : Inv (receive w timedOut) := by
  unfold receive
  split
  next => exact { h with answering := nofun, receiving := nofun, stopped := nofun }
  next =>
    split
    next job rest hchannel => exact inv_take h (h.receiving hpc) hchannel
    next hchannel =>
      split
      next => exact h
      next hsender => exact inv_closed h (Bool.not_eq_true _ ▸ hsender) hchannel rfl

end

theorem putBack_eq (batch pending : List ρ) : putBack batch pending = batch ++ pending := by
  unfold putBack
  rw [foldl_reverse]
  induction batch with
  | nil => rfl
  | cons r batch ih => rw [foldr_cons, ih, cons_append]

theorem inv_flush (h : Inv w) (accepted : Bool) : Inv (flush config w accepted) := by
  unfold flush
  simp only
  split
  next =>
    refine
      { order := ?_, placed := ?_, answered := fun call hcall n hn => ?_,
        returned := h.returned, closed := h.closed,
        answering := fun _ => rfl, receiving := nofun, stopped := nofun }
    · rw [append_nil]
      exact h.order
    · simp only [length_append, length_nil, Nat.add_zero]
      exact h.placed
    · obtain ⟨hbefore, hle⟩ := h.answered call hcall n hn
      rw [length_append]
      omega
  next =>
    rw [putBack_eq, append_nil]
    exact { h with answering := nofun, receiving := nofun, stopped := nofun }

theorem inv_answer (h : Inv w) (hpc : w.worker.pc = .answer) : Inv (answer w) := by
  have hpending := h.answering hpc
  unfold answer
  cases hbarrier : w.worker.barrier with
  | none =>
    have horder := h.order
    have hplaced := h.placed
    simp only [jobs, hbarrier] at horder hplaced
    refine
      { order := horder, placed := hplaced, answered := h.answered,
        returned := h.returned, closed := h.closed,
        answering := fun _ => hpending, receiving := fun _ => rfl,
        stopped := fun hpc => ?_ }
    refine ⟨?_, hpending, rfl⟩
    simp only at hpc
    split at hpc
    next hclosed => exact hclosed
    next => cases hpc
  | some ack =>
    have hjobs : w.jobs = .barrier ack :: w.channel := by
      simp [jobs, hbarrier]
    have horder := h.order
    have hplaced := h.placed
    rw [hjobs] at horder hplaced
    obtain ⟨call, hcall, hbefore⟩ := hplaced [] ack w.channel rfl
    refine
      { order := horder, placed := ?_, answered := ?_, returned := ?_,
        closed := h.closed, answering := fun _ => hpending,
        receiving := fun _ => rfl, stopped := fun hpc => ?_ }
    · exact hplaced.barrier.modify ack fun _ => rfl
    · intro call' hmem n hn
      rcases mem_modify hmem with hmem | ⟨old, hold, rfl⟩
      · exact h.answered call' hmem n hn
      -- nothing is pending, so what came before is committed
      rw [hcall] at hold
      cases hold
      cases hn
      refine ⟨?_, Nat.le_refl _⟩
      rw [hbefore, hpending]
      simp
    · intro call' hmem hok
      rcases mem_modify hmem with hmem | ⟨old, hold, rfl⟩
      · exact h.returned call' hmem hok
      · exact ⟨_, rfl⟩
    · refine ⟨?_, hpending, rfl⟩
      simp only at hpc
      split at hpc
      next hclosed => exact hclosed
      next => cases hpc

theorem inv_worker (h : Inv w) (input : Bool) : Inv (workerStep config w input) := by
  unfold workerStep
  split
  next hpc => exact inv_collect h hpc
  next hpc => exact inv_receive h hpc input
  next => exact inv_flush h input
  next hpc => exact inv_answer h hpc
  next => exact h

theorem inv_step (h : Inv w) (action : Action ρ) : Inv (worldStep config w action).1 := by
  cases action with
  | enqueue r => exact inv_enqueue h r
  | count => exact inv_count h
  | barrier => exact inv_barrier h
  | await ack timedOut => exact inv_await h ack timedOut
  | close => exact inv_close h
  | worker input => exact inv_worker h input

theorem inv_run (config : FlushConfig) (actions : List (Action ρ)) :
    Inv (exec (worldStep config) (spawn config) actions) :=
  exec_inv Inv (fun _ action h _ => inv_step h action) (inv_spawn config) (guarded_true _ actions)

-- ===== the count

/-- The counter and the sends that were not counted yet make up what is
enqueued and not committed. -/
def Counted (w : World ρ) : Prop :=
  w.queued + UInt64.ofNat w.uncounted + UInt64.ofNat w.committed.length
    = UInt64.ofNat w.enqueued.length

theorem counted_step (h : Counted w) (action : Action ρ) :
    Counted (worldStep config w action).1 := by
  unfold Counted at h ⊢
  cases action with
  | enqueue r =>
    simp only [worldStep, enqueue]
    split
    · simp only [length_append, length_singleton, UInt64.ofNat_add, ← h]
      ac_rfl
    · exact h
  | count =>
    simp only [worldStep, count]
    split
    next => exact h
    next hsome =>
      obtain ⟨n, hn⟩ := Nat.exists_eq_succ_of_ne_zero hsome
      have hone : UInt64.ofNat 1 = 1 := rfl
      rw [hn, Nat.succ_eq_add_one, UInt64.ofNat_add, hone] at h
      simp only [hn, Nat.succ_eq_add_one, Nat.add_sub_cancel, ← h]
      ac_rfl
  | barrier =>
    simp only [worldStep, barrier]
    split <;> exact h
  | await ack timedOut =>
    simp only [worldStep, await]
    split
    · exact h
    · split <;> exact h
  | close => exact h
  | worker input =>
    simp only [worldStep, workerStep]
    split
    next =>
      unfold collect
      split
      · split
        · exact h
        · split <;> exact h
      · exact h
    next =>
      unfold receive
      split
      · exact h
      · split
        · exact h
        · split <;> exact h
    next =>
      unfold flush
      split
      · simp only [length_append, UInt64.ofNat_add, ← h]
        grind
      · exact h
    next =>
      unfold answer
      simp only
      split <;> exact h
    next => exact h

/-- `queued_records`, once every enqueue has returned. -/
theorem queued_of_counted (config : FlushConfig) (actions : List (Action ρ)) :
    let w := exec (worldStep config) (spawn config) actions
    w.uncounted = 0 → w.queued + UInt64.ofNat w.committed.length
        = UInt64.ofNat w.enqueued.length := by
  intro w hnone
  have h : Counted w := exec_inv Counted
    (fun _ action h _ => counted_step h action) rfl (guarded_true _ actions)
  unfold Counted at h
  rw [hnone] at h
  rw [← h]
  simp

-- ===== the count, commit and subtraction apart

/-- The world in finer steps: `lag` is the size of the batch that was
committed last, until the worker has subtracted it from the counter. -/
structure Lagging (ρ : Type) where
  world : World ρ
  lag : Nat

/-- `worldStep`, with the call of the backend and the `fetch_sub` after it
as two steps of the worker. -/
def lagStep (config : FlushConfig) (s : Lagging ρ) :
    Action ρ → Lagging ρ × Option (Except FlushWorkerError Unit)
  | .worker input =>
    if s.lag ≠ 0 then
      (⟨{ s.world with queued := s.world.queued - UInt64.ofNat s.lag }, 0⟩, none)
    else if s.world.worker.pc = .flush ∧ input = true then
      (⟨{ flush config s.world true with queued := s.world.queued },
        s.world.worker.pending.length⟩, none)
    else (⟨workerStep config s.world input, 0⟩, none)
  | action => ((worldStep config s.world action).map (⟨·, s.lag⟩) id)

/-- The world as it is once the worker has subtracted. -/
def Lagging.settled (s : Lagging ρ) : World ρ :=
  { s.world with queued := s.world.queued - UInt64.ofNat s.lag }

@[simp] theorem settled_zero : (Lagging.mk w 0).settled = w := by
  simp [Lagging.settled]

/-- A finer step is a step of the settled world, or one it does not see. -/
theorem settled_step (s : Lagging ρ) (action : Action ρ) :
    (lagStep config s action).1.settled = (worldStep config s.settled action).1
      ∨ (lagStep config s action).1.settled = s.settled := by
  obtain ⟨w, lag⟩ := s
  have hblind : (Lagging.mk w lag).settled.accepts ↔ w.accepts := Iff.rfl
  cases action with
  | enqueue r =>
    left
    simp only [lagStep, worldStep, enqueue, hblind]
    split <;> rfl
  | count =>
    left
    by_cases h : w.uncounted = 0
    · simp [lagStep, worldStep, count, Lagging.settled, h]
    · have hcomm : w.queued + 1 - UInt64.ofNat lag = w.queued - UInt64.ofNat lag + 1 := by grind
      simp [lagStep, worldStep, count, Lagging.settled, h, hcomm]
  | barrier =>
    left
    simp only [lagStep, worldStep, barrier, hblind]
    split <;> rfl
  | await ack timedOut =>
    left
    simp only [lagStep, worldStep, await, Lagging.settled]
    split
    · rfl
    · split <;> rfl
  | close => exact .inl rfl
  | worker input =>
    simp only [lagStep]
    split
    · right
      simp [Lagging.settled]
    · left
      have hlag : lag = 0 := by omega
      subst hlag
      split
      next h => simp [Lagging.settled, worldStep, workerStep, h, flush]
      next => simp [worldStep]

-- ===== result

/-- For every configuration and every interleaving: what is committed is
a front part of what was enqueued; a barrier that returned well was
answered when everything enqueued before it was committed; and the worker
has stopped only if the queue is closed and everything is committed. -/
theorem worker_commits_in_order (config : FlushConfig) (actions : List (Action ρ)) :
    let w := exec (worldStep config) (spawn config) actions
    w.committed <+: w.enqueued
    ∧ (∀ call ∈ w.barriers, call.result = some (.ok ()) →
        ∃ n, call.answered = some n ∧ call.before ≤ n ∧ n ≤ w.committed.length)
    ∧ (w.worker.pc = .stopped → w.sender = false ∧ w.committed = w.enqueued) := by
  intro w
  have h : Inv w := inv_run config actions
  refine ⟨?_, fun call hcall hok => ?_, fun hpc => ?_⟩
  · rw [h.order, append_assoc]
    exact prefix_append ..
  · obtain ⟨n, hn⟩ := h.returned call hcall hok
    obtain ⟨hbefore, hle⟩ := h.answered call hcall n hn
    exact ⟨n, hn, hbefore, hle⟩
  · obtain ⟨hclosed, hpending, hbarrier⟩ := h.stopped hpc
    obtain ⟨hsender, hchannel⟩ := h.closed hclosed
    have horder := h.order
    simp only [jobs, hpending, hbarrier, hchannel] at horder
    refine ⟨hsender, ?_⟩
    rw [horder]
    simp

end MemoryFirst.Compat.FlushWorker
