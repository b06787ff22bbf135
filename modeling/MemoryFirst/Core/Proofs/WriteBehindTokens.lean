/-
No landed write of the write-behind cache is flushed twice.

# Tokens

A write pushes one queue entry, and from then on that entry is at one
place: in the queue of its key's shard, with the writer about to push it,
or in the hands of one flusher. `tokens` counts the places of an entry
and `TokenInv.one` says there is at most one. Once the entry's record was
accepted there is none (`TokenInv.spent`).

# The stream

`stream` is what was delivered followed by what the flushers have
collected and not yet handed over. An access of a flusher leaves it as it
is, loses the collected part, or adds one record at the end
(`FlusherMoves.stream_cases`).

Everything here holds with any number of flushers.
-/
import MemoryFirst.Core.Proofs.WriteBehindThreads

namespace MemoryFirst.Core.WriteBehindCache

open Lib Function List

variable {K V ε : Type}

-- ===== the stream

/-- The records a flusher has collected and not yet handed over. -/
def collected (records : List (FlushRecord K V)) : FlusherPc K ε → List (FlushRecord K V)
  | .clock _ => records
  | .snapshot _ _ => records
  | .pop _ _ _ => records
  | .pushYoung _ _ _ _ => records
  | .lookup _ _ _ _ => records
  | .flush => records
  | _ => []

/-- What was delivered, then what is collected for delivery. -/
def stream (w : World K V ε) : List (FlushRecord K V) :=
  w.accepted ++ w.flushers.flatMap fun f => collected f.records f.pc

section

variable {records : List (FlushRecord K V)}

theorem Draining.collected_eq {pc : FlusherPc K ε}
    (h : Draining records pc) : collected records pc = records := by
  cases h with
  | done h => exact h.symm
  | _ => rfl

theorem collected_nextRequeue (e : ε) (rest : List (Nat × DirtyEntry K)) :
    collected records (nextRequeue e rest) = [] := by
  cases rest <;> rfl

theorem collected_nextCleanup (n : Nat) (rest : List (Nat × DirtyEntry K)) :
    collected records (nextCleanup n rest : FlusherPc K ε) = [] := by
  induction rest with
  | nil => rfl
  | cons x rest ih =>
    unfold nextCleanup
    split
    · rfl
    · exact ih

end

variable [DecidableEq K] {c c' : WriteBehindCache K V} {accepted : List (FlushRecord K V)}
  {f f' : Flusher K V ε}

/-- An access hands over or loses what was collected, or collects one
record, of the write the map shows. -/
theorem FlusherMoves.stream_cases (h : FlusherMoves c f c' f' accepted) :
    (accepted ++ collected f'.records f'.pc).Sublist (collected f.records f.pc)
      ∨ ∃ s left range entry r, f.pc = .lookup s left range entry
        ∧ c.map entry.key = some r ∧ r.version = entry.version
        ∧ c' = c ∧ accepted = []
        ∧ f'.drained = f.drained ++ [(s, entry)]
        ∧ collected f'.records f'.pc = collected f.records f.pc
          ++ [⟨entry.key, r.value, entry.version, entry.op⟩] := by
  cases h with
  | loads _ hpc | finds _ _ _ hpc =>
    rw [hpc, nil_append, (draining_nextShard _).collected_eq]
    exact Or.inl (List.Sublist.refl _)
  | measures _ _ hpc | returns _ _ _ _ hpc | drops _ _ _ _ hpc _ =>
    rw [hpc, nil_append, (draining_nextPop ..).collected_eq]
    exact Or.inl (List.Sublist.refl _)
  | pops s left range entry rest hpc hq pc hnext =>
    rw [hpc, nil_append]
    rcases hnext with rfl | rfl <;>
      exact Or.inl (List.Sublist.refl _)
  | collects s left range entry r hpc hr hv =>
    refine Or.inr ⟨s, left, range, entry, r, hpc, hr, hv, rfl, rfl, rfl, ?_⟩
    rw [hpc, (draining_nextPop ..).collected_eq]
    rfl
  | accepts hpc =>
    rw [hpc, collected_nextCleanup, append_nil]
    exact Or.inl (List.Sublist.refl _)
  | fails _ _ | requeues _ _ _ _ _ =>
    rw [collected_nextRequeue]
    exact Or.inl (nil_sublist _)
  | skips _ _ _ | removes _ _ _ =>
    rw [collected_nextCleanup]
    exact Or.inl (nil_sublist _)
  | aims entry rest r hpc hr hv hnone => exact Or.inl (nil_sublist _)
  | rests => exact Or.inl (List.Sublist.refl _)

-- ===== tokens

/-- The write is about to push the entry. -/
def Writer.pushes (a : Writer K V) (e : DirtyEntry K) : Bool :=
  match a.pc with
  | .push n => decide ((⟨a.key, n, n, a.op⟩ : DirtyEntry K) = e)
  | _ => false

/-- How often the entry is about. -/
def tokens (w : World K V ε) (e : DirtyEntry K) : Nat :=
  (w.cache.dirtyShards (w.cache.dirtyShardIdx e.key)).count e
    + w.writers.countP (fun a => a.pushes e)
    + (w.flushers.map fun f =>
        (hands f.drained f.pc).countP fun x => decide (x.2 = e)).sum

structure TokenInv (w : World K V ε) : Prop where
  queued_home : ∀ {s : Nat} {e : DirtyEntry K},
    e ∈ w.cache.dirtyShards s → s = w.cache.dirtyShardIdx e.key
  held_home : ∀ {p : Nat} {f : Flusher K V ε}, w.flushers[p]? = some f →
    ∀ x ∈ hands f.drained f.pc, x.1 = w.cache.dirtyShardIdx x.2.key
  one : ∀ e, tokens w e ≤ 1
  matched : ∀ {p : Nat} {f : Flusher K V ε}, w.flushers[p]? = some f →
    ∀ r ∈ collected f.records f.pc, ∃ x ∈ w.landed, r = x.recordOf
      ∧ x.entryOf ∈ f.drained.map Prod.snd
  sent : ∀ r ∈ w.accepted, ∃ x ∈ w.landed, r = x.recordOf
  spent : ∀ x ∈ w.landed, x.recordOf ∈ w.accepted → tokens w x.entryOf = 0

/-- An entry of no landed write is nowhere. -/
theorem ThreadInv.tokens_eq_zero {w : World K V ε} (hi : ThreadInv w)
    {e : DirtyEntry K} (hnone : ∀ x ∈ w.landed, e ≠ x.entryOf) :
    tokens w e = 0 := by
  have hqueue : (w.cache.dirtyShards (w.cache.dirtyShardIdx e.key)).count e = 0 := by
    refine List.count_eq_zero.2 fun hmem => ?_
    obtain ⟨x, hx, heq⟩ := hi.queued hmem
    exact hnone x hx heq
  have hwriters : w.writers.countP (fun a => a.pushes e) = 0 := by
    refine List.countP_eq_zero.2 fun a ha hpush => ?_
    obtain ⟨p, hp⟩ := List.mem_iff_getElem?.1 ha
    have hok := hi.writers hp
    unfold WriterOk at hok
    unfold Writer.pushes at hpush
    split at hpush
    next n hpc =>
      rw [hpc] at hok
      exact hnone _ hok (of_decide_eq_true hpush).symm
    next => cases hpush
  have hflushers : (w.flushers.map fun f =>
      (hands f.drained f.pc).countP fun x => decide (x.2 = e)).sum = 0 := by
    refine List.sum_eq_zero_iff_forall_eq_nat.2 fun n hn => ?_
    obtain ⟨f, hf, rfl⟩ := List.mem_map.1 hn
    obtain ⟨p, hp⟩ := List.mem_iff_getElem?.1 hf
    refine List.countP_eq_zero.2 fun x hx hxe => ?_
    have hcarried : e ∈ carried f.drained f.pc := by
      rw [carried_eq]
      exact List.mem_map.2 ⟨x, hx, of_decide_eq_true hxe⟩
    obtain ⟨y, hy, heq⟩ := (hi.flushers hp).carried_mem e hcarried
    exact hnone y hy heq
  unfold tokens
  omega

-- ===== what a step does to them

theorem count_pushDirty (c : WriteBehindCache K V) (s t : Nat)
    (e e' : DirtyEntry K) : ((c.pushDirty s e').dirtyShards t).count e = (c.dirtyShards t).count e
        + if s = t ∧ e' = e then 1 else 0 := by
  show (update c.dirtyShards s _ t).count e = _
  by_cases hst : t = s
  · subst hst
    rw [update_self, count_append, count_singleton]
    simp
  · rw [update_of_ne hst, if_neg (fun h => hst h.1.symm), Nat.add_zero]

/-- Between a queue and a flusher's hands no entry is doubled. -/
theorem HandMoves.count_add_le {l l' : List (Nat × DirtyEntry K)} (h : HandMoves c l c' l')
    (hhome : ∀ {s : Nat} {e : DirtyEntry K}, e ∈ c.dirtyShards s →
      s = c.dirtyShardIdx e.key) (e : DirtyEntry K) :
    (c'.dirtyShards (c.dirtyShardIdx e.key)).count e + l'.countP (fun x => decide (x.2 = e))
      ≤ (c.dirtyShards (c.dirtyShardIdx e.key)).count e + l.countP (fun x => decide (x.2 = e)) := by
  cases h with
  | takes s entry rest hq =>
    have hs : s = c.dirtyShardIdx entry.key :=
      hhome (by rw [hq]; exact mem_cons_self)
    show (update c.dirtyShards s rest _).count e + _ ≤ _
    rw [countP_cons]
    by_cases hst : c.dirtyShardIdx e.key = s
    · rw [hst, update_self, hq, count_cons]
      simp only [beq_iff_eq, decide_eq_true_eq]
      omega
    rw [update_of_ne hst]
    have hne : ¬ entry = e := by
      intro heq
      rw [heq] at hs
      exact hst hs.symm
    simp [hne]
  | returns s entry held' hheld =>
    rw [hheld, countP_cons, count_pushDirty]
    simp only [decide_eq_true_eq]
    split
    next hboth =>
      rw [if_pos hboth.2]
      omega
    next => omega
  | keeps _ _ hq hsub =>
    rw [hq]
    exact Nat.add_le_add_left (hsub.countP_le _) _

theorem FlusherMoves.dirtyShardIdx_eq (h : FlusherMoves c f c' f' accepted)
    (k : K) : c'.dirtyShardIdx k = c.dirtyShardIdx k := by
  cases h <;> rfl

theorem WriterMoves.dirtyShardIdx_eq {a : Writer K V} {full : Bool}
    {pc : WriterPc} {landed : List (Landed K V)}
    (h : WriterMoves c a full c' pc landed) (k : K) :
    c'.dirtyShardIdx k = c.dirtyShardIdx k := by
  cases h <;> rfl

section

variable {w : World K V ε} {p : Nat} {full : Bool} {landed : List (Landed K V)}
  {c : WriteBehindCache K V} {a : Writer K V} {pc : WriterPc}

variable (hf : w.flushers[p]? = some f) (h : FlusherMoves w.cache f c f' accepted)

include hf h in
/-- Where the flusher's entries go is all that changes. -/
theorem tokens_flushes_add (e : DirtyEntry K) :
    tokens (w.flushed p c f' accepted) e
        + ((w.cache.dirtyShards (w.cache.dirtyShardIdx e.key)).count e
          + (hands f.drained f.pc).countP fun x => decide (x.2 = e))
      = tokens w e + ((c.dirtyShards (w.cache.dirtyShardIdx e.key)).count e
          + (hands f'.drained f'.pc).countP fun x => decide (x.2 = e)) := by
  have hsum := sum_map_set_add (b := f') hf fun f =>
    (hands f.drained f.pc).countP fun x => decide (x.2 = e)
  unfold tokens
  dsimp only at hsum ⊢
  rw [h.dirtyShardIdx_eq]
  omega

include hf h in
theorem TokenInv.tokens_flushes_le (ht : TokenInv w) (hi : ThreadInv w) (e : DirtyEntry K) :
    tokens (w.flushed p c f' accepted) e ≤ tokens w e := by
  have hadd := tokens_flushes_add hf h e
  have hle := (h.handMoves (hi.flushers hf).drained_nil).count_add_le ht.queued_home e
  omega

/-- A write makes one new entry, and that when it lands. -/
theorem tokens_writes_le (ha : w.writers[p]? = some a)
    (h : WriterMoves w.cache a full c pc landed) (e : DirtyEntry K) :
    tokens (w.wrote p a c pc landed) e
      ≤ tokens w e + landed.countP (fun x => decide (x.entryOf = e)) := by
  have hsum := countP_set_add (b := { a with pc := pc }) ha fun a => a.pushes e
  unfold tokens
  dsimp only at hsum ⊢
  rw [h.dirtyShardIdx_eq]
  cases h with
  | ticks hpc =>
    have hnew : ({ a with pc := .insert w.cache.clock } : Writer K V).pushes e = false := rfl
    rw [hnew] at hsum
    simp only [countP_nil, Bool.false_eq_true, if_false] at hsum ⊢
    omega
  | refused n hpc =>
    have hnew : ({ a with pc := .done (.error .capacityFull) } : Writer K V).pushes e = false := rfl
    rw [hnew] at hsum
    simp only [countP_nil, Bool.false_eq_true, if_false] at hsum ⊢
    omega
  | lands n hpc hfull =>
    have hnew : ({ a with pc := (if a.queueDirty then .push n
          else .done (.ok n)) } : Writer K V).pushes e = true →
        (⟨a.key, a.value, n, a.op, a.queueDirty⟩ : Landed K V).entryOf = e := by
      cases a.queueDirty with
      | true => exact fun h => of_decide_eq_true h
      | false => nofun
    rw [countP_singleton]
    simp only [decide_eq_true_eq]
    generalize ({ a with pc := (if a.queueDirty then .push n
      else .done (.ok n)) } : Writer K V) = a' at hsum hnew
    have hle : (if a'.pushes e = true then 1 else 0) ≤ if (⟨a.key, a.value, n, a.op, a.queueDirty⟩ :
          Landed K V).entryOf = e then 1 else 0 := by
      by_cases hpush : a'.pushes e = true
      · rw [if_pos hpush, if_pos (hnew hpush)]
      · rw [if_neg hpush]
        omega
    omega
  | pushes n hpc =>
    have hold : a.pushes e = decide ((⟨a.key, n, n, a.op⟩ : DirtyEntry K) = e) := by
      unfold Writer.pushes
      rw [hpc]
    have hnew : ({ a with pc := .done (.ok n) } : Writer K V).pushes e = false := rfl
    rw [hold, hnew] at hsum
    rw [count_pushDirty]
    simp only [decide_eq_true_eq, countP_nil, Bool.false_eq_true, if_false] at hsum ⊢
    split
    next hboth =>
      rw [if_pos hboth.2] at hsum
      omega
    next => omega
  | rests =>
    have hsum : (w.writers.set p a).countP (fun a => a.pushes e) + (if a.pushes e then 1 else 0)
      = w.writers.countP (fun a => a.pushes e) + (if a.pushes e then 1 else 0) := hsum
    show _ + (w.writers.set p a).countP (fun a => a.pushes e) + _ ≤ _
    omega

/-- A write that lands brings a version no landed write has. -/
theorem ThreadInv.landed_fresh (hi : ThreadInv w)
    (ha : w.writers[p]? = some a) (h : WriterMoves w.cache a full c pc landed) :
    landed.length ≤ 1 ∧ ∀ y ∈ landed, ∀ x ∈ w.landed, x.version ≠ y.version := by
  cases h with
  | lands n hpc hfull =>
    have hok := hi.writers ha
    unfold WriterOk at hok
    rw [hpc] at hok
    refine ⟨Nat.le_refl 1, fun y hy x hx => ?_⟩
    cases mem_singleton.1 hy
    exact hok.2 x hx
  | ticks _ | refused _ _ | pushes _ _ | rests => exact ⟨Nat.zero_le 1, nofun⟩

variable {c' : WriteBehindCache K V}

theorem FlusherMoves.drained_sublist (h : FlusherMoves c f c' f' accepted) :
    f.drained.Sublist f'.drained := by
  cases h with
  | collects s left range entry r hpc hr hv => exact sublist_append_left _ _
  | _ => exact List.Sublist.refl _

/-- Records are accepted a batch at a time. -/
theorem FlusherMoves.accepted_cases (h : FlusherMoves c f c' f' accepted) :
    accepted = [] ∨ (c' = c ∧ f.pc = .flush ∧ accepted = f.records
      ∧ hands f'.drained f'.pc = []) := by
  cases h with
  | accepts hpc => exact Or.inr ⟨rfl, hpc, rfl, hands_nextCleanup _ _⟩
  | _ => exact Or.inl rfl

section

variable (ht : TokenInv w) (hi : ThreadInv w)

include ht hi

theorem TokenInv.writes (ha : w.writers[p]? = some a) (h : WriterMoves w.cache a full c pc landed) :
    TokenInv (w.wrote p a c pc landed) := by
  obtain ⟨hlength, hfresh⟩ := hi.landed_fresh ha h
  have hle := tokens_writes_le ha h
  have hidx := h.dirtyShardIdx_eq
  constructor
  · intro s e he
    cases h with
    | pushes n hpc =>
      rcases mem_pushDirty.1 he with hold | ⟨hs, rfl⟩
      · exact ht.queued_home hold
      · exact hs
    | ticks _ | refused _ _ | lands _ _ _ | rests => exact ht.queued_home he
  · intro q f hf x hx
    rw [hidx]
    exact ht.held_home hf x hx
  · intro e
    by_cases hnew : ∃ y ∈ landed, y.entryOf = e
    · obtain ⟨y, hy, rfl⟩ := hnew
      have hzero : tokens w y.entryOf = 0 := by
        refine hi.tokens_eq_zero fun x hx heq => ?_
        exact hfresh y hy x hx (congrArg DirtyEntry.version heq).symm
      have hcount := landed.countP_le_length (p := fun x => decide (x.entryOf = y.entryOf))
      have := hle y.entryOf
      omega
    · have hcount : landed.countP (fun x => decide (x.entryOf = e)) = 0 :=
        countP_eq_zero.2 fun y hy heq => hnew ⟨y, hy, of_decide_eq_true heq⟩
      have := hle e
      have := ht.one e
      omega
  · intro q f hf r hr
    obtain ⟨x, hx, heq, hmem⟩ := ht.matched hf r hr
    exact ⟨x, mem_append_left _ hx, heq, hmem⟩
  · intro r hr
    obtain ⟨x, hx, heq⟩ := ht.sent r hr
    exact ⟨x, mem_append_left _ hx, heq⟩
  · intro x hx hsent
    obtain ⟨y, hy, heq⟩ := ht.sent _ hsent
    have hversion : x.version = y.version := congrArg FlushRecord.version heq
    rcases mem_append.1 hx with hold | hnew
    · have hcount : landed.countP (fun z => decide (z.entryOf = x.entryOf)) = 0 := by
        refine countP_eq_zero.2 fun z hz hzx => ?_
        have hzx := congrArg DirtyEntry.version (of_decide_eq_true hzx)
        exact hfresh z hz x hold hzx.symm
      have := hle x.entryOf
      have := ht.spent x hold hsent
      omega
    · exact absurd hversion.symm (hfresh x hnew y hy)

include hf h in
theorem TokenInv.flushes : TokenInv (w.flushed p c f' accepted) := by
  have hhands := h.handMoves (hi.flushers hf).drained_nil
  have hidx := h.dirtyShardIdx_eq
  have hhome := ht.held_home hf
  constructor
  · intro s e he
    rw [hidx]
    generalize hands f'.drained f'.pc = l' at hhands
    cases hhands with
    | takes s' entry rest hq =>
      rcases mem_setShard.1 he with ⟨rfl, hmem⟩ | ⟨-, hold⟩
      · exact ht.queued_home (by rw [hq]; exact mem_cons_of_mem _ hmem)
      · exact ht.queued_home hold
    | returns s' entry held' hheld =>
      rcases mem_pushDirty.1 he with hold | ⟨rfl, rfl⟩
      · exact ht.queued_home hold
      · exact hhome (s, e) (by rw [hheld]; exact mem_cons_self)
    | keeps _ _ hq hsub =>
      rw [hq] at he
      exact ht.queued_home he
  · intro q g hg x hx
    rw [hidx]
    rcases getElem?_set_cases hg with ⟨rfl, rfl⟩ | ⟨-, hold⟩
    · generalize hands f.drained f.pc = l at hhands hhome
      generalize hands g.drained g.pc = l' at hhands hx
      cases hhands with
      | takes s' entry rest hq =>
        rcases mem_cons.1 hx with rfl | hmem
        · exact ht.queued_home (by rw [hq]; exact mem_cons_self)
        · exact hhome x hmem
      | returns s' entry held' hheld =>
        exact hhome x (by rw [hheld]; exact mem_cons_of_mem _ hx)
      | keeps _ _ hq hsub => exact hhome x (hsub.subset hx)
    · exact ht.held_home hold x hx
  · intro e
    exact Nat.le_trans (ht.tokens_flushes_le hf h hi e) (ht.one e)
  · intro q g hg r hr
    rcases getElem?_set_cases hg with ⟨rfl, rfl⟩ | ⟨-, hold⟩
    · rcases h.stream_cases with hsub | ⟨s, left, range, entry, m, hpc, hm,
        hv, -, -, hdrained, hcollected⟩
      · obtain ⟨x, hx, heq, hmem⟩ :=
          ht.matched hf r (hsub.subset (mem_append_right _ hr))
        exact ⟨x, hx, heq, (h.drained_sublist.map _).subset hmem⟩
      rw [hcollected] at hr
      rcases mem_append.1 hr with hold | hnew
      · obtain ⟨x, hx, heq, hmem⟩ := ht.matched hf r hold
        exact ⟨x, hx, heq, (h.drained_sublist.map _).subset hmem⟩
      obtain ⟨x, hlast, hentry, hrec⟩ := hi.current hf hpc hm hv
      refine ⟨x, (lastLanded_mem hlast).1, (mem_singleton.1 hnew).trans hrec, ?_⟩
      rw [hdrained, map_append, ← hentry]
      exact mem_append_right _ (mem_singleton.2 rfl)
    · exact ht.matched hold r hr
  · intro r hr
    rcases mem_append.1 hr with hold | hnew
    · exact ht.sent r hold
    rcases h.accepted_cases with hnil | ⟨-, hpc, hrecords, -⟩
    · rw [hnil] at hnew
      cases hnew
    · rw [hrecords] at hnew
      obtain ⟨x, hx, heq, -⟩ := ht.matched hf r (by rw [hpc]; exact hnew)
      exact ⟨x, hx, heq⟩
  · intro x hx hsent
    have hle := ht.tokens_flushes_le hf h hi x.entryOf
    rcases mem_append.1 hsent with hold | hnew
    · have := ht.spent x hx hold
      omega
    -- the batch held the entry and no longer does
    rcases h.accepted_cases with hnil | ⟨rfl, hpc, hrecords, hempty⟩
    · rw [hnil] at hnew
      cases hnew
    rw [hrecords] at hnew
    obtain ⟨y, hy, heq, hmem⟩ := ht.matched hf x.recordOf (by rw [hpc]; exact hnew)
    have hsame : x = y := hi.unique x hx y hy (congrArg FlushRecord.version heq)
    subst hsame
    obtain ⟨d, hd, hentry⟩ := mem_map.1 hmem
    have hpos : 0 < (hands f.drained f.pc).countP fun z => decide (z.2 = x.entryOf) := by
      rw [hpc]
      exact countP_pos_iff.2 ⟨d, hd, decide_eq_true hentry⟩
    have hadd := tokens_flushes_add hf h x.entryOf
    have hone := ht.one x.entryOf
    rw [hempty, countP_nil] at hadd
    omega

theorem TokenInv.step {action : Action K V ε} {w' : World K V ε} (h : WorldMoves w action w') :
    TokenInv w' := by
  cases h with
  | begins _ a hpc =>
    have heq : ∀ e, tokens { w with writers := w.writers ++ [a] } e = tokens w e := by
      intro e
      have hpush : a.pushes e = false := by
        unfold Writer.pushes
        rw [hpc]
      unfold tokens
      rw [countP_append, countP_singleton, hpush]
      rfl
    refine ⟨ht.queued_home, ht.held_home, fun e => ?_, ht.matched, ht.sent, fun x hx hsent => ?_⟩
    · rw [heq]
      exact ht.one e
    · rw [heq]
      exact ht.spent x hx hsent
  | beginsFlush _ range idleTicks maxRecords =>
    have heq : ∀ e, tokens { w with flushers := w.flushers ++
        [flushCall range idleTicks maxRecords] } e = tokens w e := by
      intro e
      unfold tokens
      rw [map_append, sum_append]
      rfl
    refine ⟨ht.queued_home, ?_, fun e => ?_, ?_, ht.sent, fun x hx hsent => ?_⟩
    · intro q g hg
      rcases getElem?_append_cases hg with hold | rfl
      · exact ht.held_home hold
      · nofun
    · rw [heq]
      exact ht.one e
    · intro q g hg
      rcases getElem?_append_cases hg with hold | rfl
      · exact ht.matched hold
      · nofun
    · rw [heq]
      exact ht.spent x hx hsent
  | idles _ => exact ht
  | writes p full a c pc landed ha h => exact ht.writes hi ha h
  | flushes p backend f c f' accepted hf h => exact ht.flushes hf h hi

end

end

theorem tokenInv_fresh (hash : K → UInt64) (shards queueCapacity : Nat) :
    TokenInv (fresh hash shards queueCapacity : World K V ε) where
  queued_home := nofun
  held_home := nofun
  one := fun _ => Nat.zero_le 1
  matched := nofun
  sent := nofun
  spent := nofun

end MemoryFirst.Core.WriteBehindCache
