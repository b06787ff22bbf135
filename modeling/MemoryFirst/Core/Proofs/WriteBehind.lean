/-
No dirty write of the write-behind cache is lost, over every sequence of
calls and every behaviour of the backend.

# The specification, from the history

`lastWrite` reads the most recent write of a key off the answered calls,
`delivered` the records of the batches the backend accepted. Neither
looks into the cache.

# The invariant

`Inv` ties the three places a write can be: the map holds the last write
of a key or nothing, a queue entry of the last write's version carries
its operation, and a last write is delivered or `Held`: still in the map
and, when dirty, still queued. The middle clause needs no argument about
old versions: a version is a clock tick, so a later write has a larger
one.

# The drain

`DrainOf` is what both drain loops keep of the cache they started from:
the map untouched, no entry invented, and every entry still queued, in
the batch, or stale. The flush arms are then read off it: a failed flush
requeues the batch, an accepted one removes only tombstones it
delivered.
-/
import MemoryFirst.Lib.Runs
import MemoryFirst.Core.WriteBehind

namespace MemoryFirst.Core.WriteBehindCache

open Function List

variable {K V ε : Type}

-- ===== queue updates

section

variable {c : WriteBehindCache K V} {s t : Nat} {e x : DirtyEntry K} {rest : List (DirtyEntry K)}

theorem mem_pushDirty : x ∈ (c.pushDirty s e).dirtyShards t ↔
    x ∈ c.dirtyShards t ∨ (t = s ∧ x = e) := by
  by_cases ht : t = s
  · subst ht
    simp [pushDirty]
  · simp [pushDirty, ht]

theorem mem_setShard : x ∈ (c.setShard s rest).dirtyShards t ↔
    (t = s ∧ x ∈ rest) ∨ (t ≠ s ∧ x ∈ c.dirtyShards t) := by
  by_cases ht : t = s
  · subst ht
    simp [setShard]
  · simp [setShard, ht]

/-- Requeueing appends exactly the given entries, each to its shard, and
touches nothing else. -/
theorem requeue_spec (c : WriteBehindCache K V) (drained : List (Nat × DirtyEntry K)) :
    (c.requeue drained).map = c.map ∧ (c.requeue drained).clock = c.clock
      ∧ (c.requeue drained).dirtyShardIdx = c.dirtyShardIdx
      ∧ ∀ t x, x ∈ (c.requeue drained).dirtyShards t ↔ x ∈ c.dirtyShards t ∨ (t, x) ∈ drained := by
  induction drained generalizing c with
  | nil => exact ⟨rfl, rfl, rfl, by simp [requeue]⟩
  | cons p drained ih =>
    obtain ⟨hm, hc, hi, hq⟩ := ih (c.pushDirty p.1 p.2)
    refine ⟨hm, hc, hi, fun t x => ?_⟩
    have hstep := hq t x
    rw [mem_pushDirty] at hstep
    show x ∈ ((c.pushDirty p.1 p.2).requeue drained).dirtyShards t ↔ _
    rw [hstep, mem_cons, Prod.ext_iff, or_assoc]

end

-- ===== the drain

/-- What a drain keeps of the cache it started from. -/
structure DrainOf (c : WriteBehindCache K V) (d : Drain K V) : Prop where
  map_eq : d.cache.map = c.map
  clock_eq : d.cache.clock = c.clock
  idx_eq : d.cache.dirtyShardIdx = c.dirtyShardIdx
  queue_mem : ∀ s e, e ∈ d.cache.dirtyShards s → e ∈ c.dirtyShards s
  drained_mem : ∀ s e, (s, e) ∈ d.drained → e ∈ c.dirtyShards s
    ∧ ∃ r, c.map e.key = some r ∧ r.version = e.version
      ∧ ⟨e.key, r.value, e.version, e.op⟩ ∈ d.records
  records_mem : ∀ f ∈ d.records, ∃ s e r, (s, e) ∈ d.drained
    ∧ c.map e.key = some r ∧ r.version = e.version
    ∧ f = ⟨e.key, r.value, e.version, e.op⟩
  none_lost : ∀ s e, e ∈ c.dirtyShards s → e ∈ d.cache.dirtyShards s ∨ (s, e) ∈ d.drained
      ∨ ∀ r, c.map e.key = some r → r.version ≠ e.version

/-- The three things that can happen to a popped entry. -/
theorem drainEntry_cases (now idleTicks s : Nat) (d : Drain K V) (e : DirtyEntry K) :
    drainEntry now idleTicks s d e = { d with cache := d.cache.pushDirty s e }
      ∨ (∃ r, d.cache.map e.key = some r ∧ r.version = e.version
        ∧ drainEntry now idleTicks s d e = { d with
            records := d.records ++ [⟨e.key, r.value, e.version, e.op⟩]
            drained := d.drained ++ [(s, e)] })
      ∨ ((∀ r, d.cache.map e.key = some r → r.version ≠ e.version)
        ∧ drainEntry now idleTicks s d e = d) := by
  unfold drainEntry
  split
  case isTrue => exact Or.inl rfl
  case isFalse =>
    cases hm : d.cache.map e.key with
    | none => exact Or.inr (Or.inr ⟨by simp, rfl⟩)
    | some r =>
      by_cases hv : r.version = e.version
      · exact Or.inr (Or.inl ⟨r, rfl, hv, by simp [hv]⟩)
      · exact Or.inr (Or.inr ⟨by simpa using hv, by simp [hv]⟩)

variable {d : Drain K V} {c : WriteBehindCache K V} {e : DirtyEntry K}

/-- One pop keeps the relation. -/
theorem DrainOf.drainEntry (hd : DrainOf c d) {s : Nat} {rest : List (DirtyEntry K)}
    (hq : d.cache.dirtyShards s = e :: rest)
    (now idleTicks : Nat) :
    DrainOf c (drainEntry now idleTicks s
      { d with cache := d.cache.setShard s rest } e) := by
  -- a member of the popped queue is the popped entry or stays queued
  have hpop : ∀ t x, x ∈ d.cache.dirtyShards t →
      (t = s ∧ x = e) ∨ x ∈ (d.cache.setShard s rest).dirtyShards t := by
    intro t x hx
    rw [mem_setShard]
    by_cases ht : t = s
    · subst ht
      rw [hq, mem_cons] at hx
      rcases hx with hx | hx
      · exact Or.inl ⟨rfl, hx⟩
      · exact Or.inr (Or.inl ⟨rfl, hx⟩)
    · exact Or.inr (Or.inr ⟨ht, hx⟩)
  have hsub : ∀ t x, x ∈ (d.cache.setShard s rest).dirtyShards t → x ∈ c.dirtyShards t := by
    intro t x hx
    rw [mem_setShard] at hx
    rcases hx with ⟨rfl, hx⟩ | ⟨-, hx⟩
    · exact hd.queue_mem t x (by rw [hq]; exact mem_cons_of_mem e hx)
    · exact hd.queue_mem t x hx
  have he : e ∈ c.dirtyShards s := hd.queue_mem s e (by rw [hq]; exact mem_cons_self)
  rcases drainEntry_cases now idleTicks s { d with cache := d.cache.setShard s rest } e with
    heq | ⟨r, hr, hv, heq⟩ | ⟨hstale, heq⟩
  · -- too young: back to the tail
    rw [heq]
    refine ⟨hd.map_eq, hd.clock_eq, hd.idx_eq, ?_, hd.drained_mem, hd.records_mem, ?_⟩
    · intro t x hx
      rw [mem_pushDirty] at hx
      rcases hx with hx | ⟨rfl, rfl⟩
      · exact hsub t x hx
      · exact he
    · intro t x hx
      rw [mem_pushDirty]
      rcases hd.none_lost t x hx with h | h | h
      · rcases hpop t x h with h | h
        · exact Or.inl (Or.inr h)
        · exact Or.inl (Or.inl h)
      · exact Or.inr (Or.inl h)
      · exact Or.inr (Or.inr h)
  · -- the map still holds its version: into the batch
    rw [heq]
    have hr' : c.map e.key = some r := by rw [← hd.map_eq]; exact hr
    refine ⟨hd.map_eq, hd.clock_eq, hd.idx_eq, hsub, ?_, ?_, ?_⟩
    · intro t x hx
      simp only [mem_append, mem_singleton, Prod.mk.injEq] at hx ⊢
      rcases hx with hx | ⟨rfl, rfl⟩
      · obtain ⟨hmem, r', hm, hv', hrec⟩ := hd.drained_mem t x hx
        exact ⟨hmem, r', hm, hv', Or.inl hrec⟩
      · exact ⟨he, r, hr', hv, Or.inr rfl⟩
    · intro f hf
      simp only [mem_append, mem_singleton, Prod.mk.injEq] at hf ⊢
      rcases hf with hf | rfl
      · obtain ⟨t, x, r', hmem, hm, hv', hrec⟩ := hd.records_mem f hf
        exact ⟨t, x, r', Or.inl hmem, hm, hv', hrec⟩
      · exact ⟨s, e, r, Or.inr ⟨rfl, rfl⟩, hr', hv, rfl⟩
    · intro t x hx
      simp only [mem_append, mem_singleton, Prod.mk.injEq]
      rcases hd.none_lost t x hx with h | h | h
      · rcases hpop t x h with h | h
        · exact Or.inr (Or.inl (Or.inr h))
        · exact Or.inl h
      · exact Or.inr (Or.inl (Or.inl h))
      · exact Or.inr (Or.inr h)
  · -- stale: dropped
    rw [heq]
    refine ⟨hd.map_eq, hd.clock_eq, hd.idx_eq, hsub, hd.drained_mem, hd.records_mem, ?_⟩
    intro t x hx
    rcases hd.none_lost t x hx with h | h | h
    · rcases hpop t x h with ⟨rfl, rfl⟩ | h
      · refine Or.inr (Or.inr fun r hr => hstale r ?_)
        show d.cache.map x.key = some r
        rw [hd.map_eq]
        exact hr
      · exact Or.inl h
    · exact Or.inr (Or.inl h)
    · exact Or.inr (Or.inr h)

theorem DrainOf.drainShard (hd : DrainOf c d) (now idleTicks maxRecords s n : Nat) :
    DrainOf c (drainShard now idleTicks maxRecords s n d).1 := by
  induction n generalizing d with
  | zero => exact hd
  | succ n ih =>
    unfold drainShard
    split
    case isTrue => exact hd
    case isFalse =>
      split
      next hq => exact hd
      next e rest hq => exact ih (hd.drainEntry hq now idleTicks)

theorem DrainOf.drainShards (hd : DrainOf c d) (now idleTicks maxRecords : Nat) (range : List Nat) :
    DrainOf c (drainShards now idleTicks maxRecords range d) := by
  induction range generalizing d with
  | nil => exact hd
  | cons s range ih =>
    have hs := hd.drainShard now idleTicks maxRecords s (d.cache.dirtyShards s).length
    unfold drainShards
    split
    next d' heq =>
      rw [heq] at hs
      exact hs
    next d' heq =>
      rw [heq] at hs
      exact ih hs

variable (c : WriteBehindCache K V)

theorem drainOf_drainEligibleShards (range : List Nat) (idleTicks maxRecords : Nat) :
    DrainOf c (c.drainEligibleShards range idleTicks maxRecords) := by
  refine DrainOf.drainShards ?_ _ _ _ _
  exact ⟨rfl, rfl, rfl, fun _ _ h => h, by simp, by simp, fun _ _ h => Or.inl h⟩

-- ===== steps that write nothing

/-- What a step that writes nothing may do: let the clock advance, drop
a record or a queue entry whose version the backend accepted in this
step, drop a stale queue entry. -/
structure Settles (c c' : WriteBehindCache K V) (acc : List (FlushRecord K V)) : Prop where
  clock_le : c.clock ≤ c'.clock
  idx_eq : c'.dirtyShardIdx = c.dirtyShardIdx
  queue_mem : ∀ s e, e ∈ c'.dirtyShards s → e ∈ c.dirtyShards s
  map_mem : ∀ k r', c'.map k = some r' → ∃ r, c.map k = some r
    ∧ r.version = r'.version ∧ r.value = r'.value
  map_kept : ∀ k r, c.map k = some r → (∃ r', c'.map k = some r' ∧ r'.version = r.version)
      ∨ ∃ f ∈ acc, f.key = k ∧ f.version = r.version
  queue_kept : ∀ s e, e ∈ c.dirtyShards s → e ∈ c'.dirtyShards s
    ∨ (∃ f ∈ acc, f.key = e.key ∧ f.version = e.version)
    ∨ ∀ r, c.map e.key = some r → r.version ≠ e.version

theorem Settles.refl : Settles c c [] where
  clock_le := Nat.le_refl _
  idx_eq := rfl
  queue_mem _ _ h := h
  map_mem _ r h := ⟨r, h, rfl, rfl⟩
  map_kept _ r h := Or.inl ⟨r, h, rfl⟩
  queue_kept _ _ h := Or.inl h

section

variable {c : WriteBehindCache K V}

/-- An entry a drain took out is in the batch at its own version. -/
theorem DrainOf.record_of_drained (hd : DrainOf c d) {s : Nat} (h : (s, e) ∈ d.drained) :
    ∃ f ∈ d.records, f.key = e.key ∧ f.version = e.version := by
  obtain ⟨-, r, -, -, hf⟩ := hd.drained_mem s e h
  exact ⟨_, hf, rfl, rfl⟩

/-- With an empty batch the backend is not called. -/
theorem DrainOf.settles_empty (hd : DrainOf c d)
    (hnil : d.records = []) : Settles c d.cache [] where
  clock_le := Nat.le_of_eq hd.clock_eq.symm
  idx_eq := hd.idx_eq
  queue_mem := hd.queue_mem
  map_mem k r h := ⟨r, by rw [← hd.map_eq]; exact h, rfl, rfl⟩
  map_kept k r h := Or.inl ⟨r, by rw [hd.map_eq]; exact h, rfl⟩
  queue_kept s e he := by
    rcases hd.none_lost s e he with h | h | h
    · exact Or.inl h
    · obtain ⟨f, hf, -⟩ := hd.record_of_drained h
      rw [hnil] at hf
      cases hf
    · exact Or.inr (Or.inr h)

/-- A refused batch goes back to its queues. -/
theorem DrainOf.settles_requeue (hd : DrainOf c d) : Settles c (d.cache.requeue d.drained) [] := by
  obtain ⟨hm, hc, hi, hq⟩ := requeue_spec d.cache d.drained
  refine ⟨?_, hi.trans hd.idx_eq, ?_, ?_, ?_, ?_⟩
  · exact Nat.le_of_eq (hc.trans hd.clock_eq).symm
  · intro s e he
    rw [hq] at he
    rcases he with he | he
    · exact hd.queue_mem s e he
    · exact (hd.drained_mem s e he).1
  · intro k r hr
    rw [hm, hd.map_eq] at hr
    exact ⟨r, hr, rfl, rfl⟩
  · intro k r hr
    exact Or.inl ⟨r, by rw [hm, hd.map_eq]; exact hr, rfl⟩
  · intro s e he
    rw [hq]
    rcases hd.none_lost s e he with h | h | h
    · exact Or.inl (Or.inl h)
    · exact Or.inl (Or.inr h)
    · exact Or.inr (Or.inr h)

end

-- ===== calls

inductive Call (K V ε : Type) where
  | put (key : K) (value : V)
  | delete (key : K)
  | loadClean (key : K) (value : V)
  | get (key : K)
  | flushIdle (backend : List (FlushRecord K V) → Except ε Unit) (idleTicks maxRecords : Nat)
  | flushShardIdle (shardIdx : Nat) (backend : List (FlushRecord K V) → Except ε Unit)
      (idleTicks maxRecords : Nat)

/-- What a call returned; a flush also shows the batch the backend was
handed. -/
inductive Reply (K V ε : Type) where
  | written (version : Nat)
  | value (v : Option V)
  | flushed (batch : Option (List (FlushRecord K V))) (result : Except ε Nat)
  | shardOutOfRange

/-- A write as its history shows it. -/
structure Write (V : Type) where
  version : Nat
  value : Option V
  op : Operation
  dirty : Bool

/-- The records a reply shows to have been handed to the backend. -/
def offered : Reply K V ε → List (FlushRecord K V)
  | .flushed (some batch) _ => batch
  | _ => []

/-- The records a reply shows to have been accepted by the backend. -/
def accepted : Reply K V ε → List (FlushRecord K V)
  | .flushed (some batch) (.ok _) => batch
  | _ => []

variable (history : List (Call K V ε × Reply K V ε))

def delivered : List (FlushRecord K V) :=
  history.flatMap fun e => accepted e.2

/-- The version of the write was delivered in an accepted batch. -/
def Delivered (k : K) (w : Write V) : Prop :=
  ∃ f ∈ delivered history, f.key = k ∧ f.version = w.version

/-- A queue entry for the write's key and version is pending. -/
def Pending (k : K) (w : Write V) : Prop :=
  ∃ e ∈ c.dirtyShards (c.dirtyShardIdx k), e.key = k ∧ e.version = w.version

theorem Delivered.append {history : List (Call K V ε × Reply K V ε)} {k : K} {w : Write V}
    (h : Delivered history k w) (e : Call K V ε × Reply K V ε) :
    Delivered (history ++ [e]) k w := by
  obtain ⟨f, hf, hrest⟩ := h
  refine ⟨f, ?_, hrest⟩
  simp only [delivered, flatMap_append, mem_append]
  exact Or.inl hf

variable [DecidableEq K]

-- ===== the cleanup

variable (c : WriteBehindCache K V)

theorem cleanupEntry_cases (e : DirtyEntry K) : c.cleanupEntry e = c
      ∨ ∃ r, c.map e.key = some r ∧ r.version = e.version ∧ c.cleanupEntry e
          = { c with map := update c.map e.key none } := by
  unfold cleanupEntry
  split
  case isTrue hop =>
    split
    next r hr =>
      split
      case isTrue h => exact Or.inr ⟨r, hr, h.1, rfl⟩
      case isFalse => exact Or.inl rfl
    next => exact Or.inl rfl
  case isFalse => exact Or.inl rfl

/-- Cleaning up takes nothing out of the map but records whose version
was delivered. -/
theorem cleanupAfterFlush_spec (drained : List (Nat × DirtyEntry K)) :
    (c.cleanupAfterFlush drained).dirtyShards = c.dirtyShards
      ∧ (c.cleanupAfterFlush drained).clock = c.clock
      ∧ (c.cleanupAfterFlush drained).dirtyShardIdx = c.dirtyShardIdx
      ∧ ∀ k, (c.cleanupAfterFlush drained).map k = c.map k
        ∨ ((c.cleanupAfterFlush drained).map k = none
          ∧ ∃ s e r, (s, e) ∈ drained ∧ e.key = k ∧ c.map k = some r ∧ r.version = e.version) := by
  induction drained generalizing c with
  | nil => exact ⟨rfl, rfl, rfl, fun _ => Or.inl rfl⟩
  | cons p drained ih =>
    obtain ⟨hq, hc, hi, hm⟩ := ih (c.cleanupEntry p.2)
    rcases cleanupEntry_cases c p.2 with heq | ⟨r, hr, hv, heq⟩
    · rw [heq] at hq hc hi hm
      simp only [cleanupAfterFlush, foldl_cons, heq] at hq hc hi hm ⊢
      refine ⟨hq, hc, hi, fun k => ?_⟩
      rcases hm k with h | ⟨h, s, e, r, hmem, hrest⟩
      · exact Or.inl h
      · exact Or.inr ⟨h, s, e, r, mem_cons_of_mem _ hmem, hrest⟩
    rw [heq] at hq hc hi hm
    simp only [cleanupAfterFlush, foldl_cons, heq] at hq hc hi hm ⊢
    refine ⟨hq, hc, hi, fun k => ?_⟩
    by_cases hk : k = p.2.key
    · subst hk
      refine Or.inr ⟨?_, p.1, p.2, r, mem_cons_self, rfl, hr, hv⟩
      rcases hm p.2.key with h | ⟨h, -⟩
      · rw [h, update_self]
      · exact h
    have hk' := hm k
    rw [update_of_ne hk] at hk'
    rcases hk' with h | ⟨h, s, e, r', hmem, hrest⟩
    · exact Or.inl h
    · exact Or.inr ⟨h, s, e, r', mem_cons_of_mem _ hmem, hrest⟩

-- ===== the specification

/-- One call on the cache. -/
def call : Call K V ε → WriteBehindCache K V × Reply K V ε
  | .put key value =>
    let (c', version) := c.put key value
    (c', .written version)
  | .delete key =>
    let (c', version) := c.delete key
    (c', .written version)
  | .loadClean key value =>
    let (c', version) := c.loadClean key value
    (c', .written version)
  | .get key =>
    let (c', v) := c.get key
    (c', .value v)
  | .flushIdle backend idleTicks maxRecords =>
    let (c', batch, result) := c.flushIdle backend idleTicks maxRecords
    (c', .flushed batch result)
  | .flushShardIdle shardIdx backend idleTicks maxRecords =>
    match c.flushShardIdle shardIdx backend idleTicks maxRecords with
    | some (c', batch, result) => (c', .flushed batch result)
    | none => (c, .shardOutOfRange)

/-- What an answered call does to the last write of each key. -/
def noteWrite (s : K → Option (Write V)) : Call K V ε × Reply K V ε → K → Option (Write V)
  | (.put key value, .written n) =>
    update s key (some ⟨n, some value, .put, true⟩)
  | (.delete key, .written n) => update s key (some ⟨n, none, .delete, true⟩)
  | (.loadClean key value, .written n) =>
    update s key (some ⟨n, some value, .put, false⟩)
  | _ => s

/-- The most recent write of each key. -/
def lastWrite (history : List (Call K V ε × Reply K V ε)) : K → Option (Write V) :=
  history.foldl noteWrite fun _ => none

-- ===== the invariant

/-- What the cache keeps with respect to its history. -/
structure Inv (c : WriteBehindCache K V) (history : List (Call K V ε × Reply K V ε)) : Prop where
  fresh : ∀ k w, lastWrite history k = some w → w.version < c.clock ∧ (w.value.isSome ↔ w.op = .put)
  stored : ∀ k r, c.map k = some r → ∃ w, lastWrite history k = some w
    ∧ r.version = w.version ∧ r.value = w.value
  queued : ∀ s e, e ∈ c.dirtyShards s → s = c.dirtyShardIdx e.key ∧ e.version < c.clock
    ∧ ∀ w, lastWrite history e.key = some w → w.version = e.version → w.dirty = true ∧ w.op = e.op
  kept : ∀ k w, lastWrite history k = some w → Delivered history k w
    ∨ ((∃ r, c.map k = some r ∧ r.version = w.version) ∧ (w.dirty = true → Pending c k w))

section

variable {c : WriteBehindCache K V} {history : List (Call K V ε × Reply K V ε)}

theorem lastWrite_append (history : List (Call K V ε × Reply K V ε))
    (e : Call K V ε × Reply K V ε) :
    lastWrite (history ++ [e]) = noteWrite (lastWrite history) e := by
  simp [lastWrite]

/-- The three writes are one step: the key's last write becomes this one,
under a version no earlier write has. -/
theorem Inv.write (hi : Inv c history) {key : K} {value : Option V}
    {op : Operation} {dirty : Bool} (hop : value.isSome ↔ op = .put)
    (e : Call K V ε × Reply K V ε)
    (hnote : noteWrite (lastWrite history) e = update
      (lastWrite history) key (some ⟨c.clock, value, op, dirty⟩)) :
    Inv (c.writeWithPin key value op dirty).1 (history ++ [e]) := by
  have hclock : (c.writeWithPin key value op dirty).1.clock = c.clock + 1 := by
    cases dirty <;> rfl
  have hidx : (c.writeWithPin key value op dirty).1.dirtyShardIdx = c.dirtyShardIdx := by
    cases dirty <;> rfl
  have hmap : (c.writeWithPin key value op dirty).1.map
      = update c.map key (some ⟨value, c.clock, c.clock⟩) := by
    cases dirty <;> rfl
  -- the queues gain one entry when the write is dirty, else nothing
  have hqueue : ∀ s x, x ∈ (c.writeWithPin key value op
      dirty).1.dirtyShards s ↔ x ∈ c.dirtyShards s ∨ (dirty = true
        ∧ s = c.dirtyShardIdx key ∧ x = ⟨key, c.clock, c.clock, op⟩) := by
    intro s x
    cases dirty with
    | false => simp [writeWithPin]
    | true =>
      simp only [writeWithPin, if_true, mem_pushDirty, true_and]
      rfl
  have hlast := (lastWrite_append history e).trans hnote
  refine ⟨?_, ?_, ?_, ?_⟩
  · intro k w hw
    rw [hclock]
    rw [hlast, update_apply] at hw
    split at hw
    · cases hw
      exact ⟨Nat.lt_succ_self _, hop⟩
    · obtain ⟨hlt, hval⟩ := hi.fresh k w hw
      exact ⟨by omega, hval⟩
  · intro k r hr
    rw [hlast]
    rw [hmap] at hr
    by_cases hk : k = key
    · subst hk
      rw [update_self] at hr ⊢
      cases hr
      exact ⟨_, rfl, rfl, rfl⟩
    · rw [update_of_ne hk] at hr ⊢
      exact hi.stored k r hr
  · intro s x hx
    rw [hidx, hclock, hlast]
    rw [hqueue] at hx
    rcases hx with hx | ⟨hd, rfl, rfl⟩
    · obtain ⟨hs, hlt, hw⟩ := hi.queued s x hx
      refine ⟨hs, by omega, fun w hlw hv => ?_⟩
      rw [update_apply] at hlw
      split at hlw
      · cases hlw
        -- the new version is larger than any queued one
        exact absurd hv (by simp only; omega)
      · exact hw w hlw hv
    · refine ⟨rfl, Nat.lt_succ_self _, fun w hlw _ => ?_⟩
      rw [update_self] at hlw
      cases hlw
      exact ⟨hd, rfl⟩
  · intro k w hw
    rw [hlast] at hw
    by_cases hk : k = key
    · subst hk
      rw [update_self] at hw
      cases hw
      refine Or.inr ⟨⟨_, by rw [hmap, update_self], rfl⟩, ?_⟩
      intro hd
      refine ⟨⟨k, c.clock, c.clock, op⟩, ?_, rfl, rfl⟩
      rw [hidx, hqueue]
      exact Or.inr ⟨hd, rfl, rfl⟩
    · rw [update_of_ne hk] at hw
      rcases hi.kept k w hw with h | ⟨⟨r, hr, hv⟩, hp⟩
      · exact Or.inl (h.append e)
      refine Or.inr ⟨⟨r, by rw [hmap, update_of_ne hk]; exact hr, hv⟩, fun hd => ?_⟩
      obtain ⟨x, hx, hrest⟩ := hp hd
      refine ⟨x, ?_, hrest⟩
      rw [hidx, hqueue]
      exact Or.inl hx

variable {c' : WriteBehindCache K V}

theorem Inv.settle (hi : Inv c history) (e : Call K V ε × Reply K V ε)
    (hnote : noteWrite (lastWrite history) e = lastWrite history)
    (hs : Settles c c' (accepted e.2)) : Inv c' (history ++ [e]) := by
  have hlast := (lastWrite_append history e).trans hnote
  have hacc : ∀ k (w : Write V), (∃ f ∈ accepted e.2, f.key = k
      ∧ f.version = w.version) → Delivered (history ++ [e]) k w := by
    rintro k w ⟨f, hf, hrest⟩
    refine ⟨f, ?_, hrest⟩
    simp only [delivered, flatMap_append, mem_append]
    exact Or.inr (by simpa using hf)
  have hle := hs.clock_le
  refine ⟨?_, ?_, ?_, ?_⟩
  · intro k w hw
    rw [hlast] at hw
    obtain ⟨hlt, hval⟩ := hi.fresh k w hw
    exact ⟨by omega, hval⟩
  · intro k r' hr'
    rw [hlast]
    obtain ⟨r, hr, hv, hval⟩ := hs.map_mem k r' hr'
    obtain ⟨w, hw, hwv, hwval⟩ := hi.stored k r hr
    exact ⟨w, hw, hv.symm.trans hwv, hval.symm.trans hwval⟩
  · intro s x hx
    rw [hlast, hs.idx_eq]
    obtain ⟨hsx, hlt, hw⟩ := hi.queued s x (hs.queue_mem s x hx)
    exact ⟨hsx, by omega, hw⟩
  · intro k w hw
    rw [hlast] at hw
    rcases hi.kept k w hw with h | ⟨⟨r, hr, hv⟩, hp⟩
    · exact Or.inl (h.append e)
    rcases hs.map_kept k r hr with ⟨r', hr', hv'⟩ | hdel
    · by_cases hd : w.dirty = true
      · obtain ⟨x, hx, hxk, hxv⟩ := hp hd
        rcases hs.queue_kept _ x hx with h | h | h
        · refine Or.inr ⟨⟨r', hr', hv'.trans hv⟩, fun _ => ?_⟩
          exact ⟨x, by rw [hs.idx_eq]; exact h, hxk, hxv⟩
        · rw [hxk, hxv] at h
          exact Or.inl (hacc k w h)
        · -- the map holds the write, so its entry is not stale
          rw [hxk] at h
          exact absurd (hv.trans hxv.symm) (h r hr)
      · exact Or.inr ⟨⟨r', hr', hv'.trans hv⟩, fun h => absurd h hd⟩
    · rw [hv] at hdel
      exact Or.inl (hacc k w hdel)

/-- A read returns the value of the record in the map. -/
theorem get_snd (c : WriteBehindCache K V) (key : K) :
    (c.get key).2 = (c.map key).bind ValueRecord.value := by
  unfold get
  cases c.map key with
  | none => rfl
  | some record =>
    simp only [Option.bind_some]
    cases record.value <;> rfl

/-- A sampled read only moves the clock and a touch stamp. -/
theorem settles_get (c : WriteBehindCache K V) (key : K) : Settles c (c.get key).1 [] := by
  unfold get
  split
  next => exact Settles.refl c
  next r hr =>
    split
    next => exact Settles.refl c
    next v hv =>
      unfold recordTouch
      split
      case isFalse => exact Settles.refl c
      case isTrue =>
        refine ⟨Nat.le_succ _, rfl, fun _ _ h => h, ?_, ?_, fun _ _ h => Or.inl h⟩
        · intro k r' hr'
          by_cases hk : k = key
          · subst hk
            simp only [update_self, Option.some.injEq] at hr'
            subst hr'
            exact ⟨r, hr, rfl, rfl⟩
          · simp only [update_of_ne hk] at hr'
            exact ⟨r', hr', rfl, rfl⟩
        · intro k r' hr'
          by_cases hk : k = key
          · subst hk
            rw [hr] at hr'
            cases hr'
            exact Or.inl ⟨_, update_self .., rfl⟩
          · refine Or.inl ⟨r', ?_, rfl⟩
            simp only [update_of_ne hk]
            exact hr'

/-- An accepted batch is cleaned up after. -/
theorem DrainOf.settles_cleanup {d : Drain K V} (hd : DrainOf c d) :
    Settles c (d.cache.cleanupAfterFlush d.drained) d.records := by
  obtain ⟨hq, hc, hi, hm⟩ := cleanupAfterFlush_spec d.cache d.drained
  refine ⟨?_, hi.trans hd.idx_eq, ?_, ?_, ?_, ?_⟩
  · exact Nat.le_of_eq (hc.trans hd.clock_eq).symm
  · intro s e he
    rw [hq] at he
    exact hd.queue_mem s e he
  · intro k r hr
    rcases hm k with h | ⟨h, -⟩
    · rw [h, hd.map_eq] at hr
      exact ⟨r, hr, rfl, rfl⟩
    · rw [h] at hr
      cases hr
  · intro k r hr
    rcases hm k with h | ⟨-, s, e, r', hmem, hk, hr', hv⟩
    · exact Or.inl ⟨r, by rw [h, hd.map_eq]; exact hr, rfl⟩
    -- the tombstone taken out was delivered in this very batch
    rw [hd.map_eq, hr] at hr'
    cases hr'
    obtain ⟨f, hf, hfk, hfv⟩ := hd.record_of_drained hmem
    exact Or.inr ⟨f, hf, hfk.trans hk, hfv.trans hv.symm⟩
  · intro s e he
    rw [hq]
    rcases hd.none_lost s e he with h | h | h
    · exact Or.inl h
    · exact Or.inr (Or.inl (hd.record_of_drained h))
    · exact Or.inr (Or.inr h)

/-- A record handed to the backend is a queued entry at the version the
map holds. -/
def Current (c : WriteBehindCache K V) (f : FlushRecord K V) : Prop :=
  ∃ s e r, e ∈ c.dirtyShards s ∧ c.map e.key = some r
    ∧ r.version = e.version ∧ f = ⟨e.key, r.value, e.version, e.op⟩

/-- The drain and whichever arm follows it settle the cache, and every
record of the batch is current. -/
theorem flushRange_spec (c : WriteBehindCache K V) (range : List Nat)
    (backend : List (FlushRecord K V) → Except ε Unit)
    (idleTicks maxRecords : Nat) {batch : Option (List (FlushRecord K V))} {result : Except ε Nat}
    (h : c.flushRange range backend idleTicks maxRecords = (c', batch, result)) :
    Settles c c' (accepted (.flushed batch result))
      ∧ ∀ f ∈ offered (.flushed batch result), Current c f := by
  have hd := drainOf_drainEligibleShards c range idleTicks maxRecords
  unfold flushRange at h
  simp only at h
  generalize c.drainEligibleShards range idleTicks maxRecords = d at hd h
  have hoff : ∀ f ∈ d.records, Current c f := by
    intro f hf
    obtain ⟨s, e, r, hmem, hrest⟩ := hd.records_mem f hf
    exact ⟨s, e, r, (hd.drained_mem s e hmem).1, hrest⟩
  split at h
  case isTrue hnil =>
    cases h
    exact ⟨hd.settles_empty hnil, by simp [offered]⟩
  case isFalse =>
    split at h
    next => cases h; exact ⟨hd.settles_cleanup, hoff⟩
    next => cases h; exact ⟨hd.settles_requeue, hoff⟩

/-- Every call keeps the invariant. -/
theorem Inv.call (hi : Inv c history) (a : Call K V ε) :
    Inv (c.call a).1 (history ++ [(a, (c.call a).2)]) := by
  cases a with
  | put _ _ | delete _ | loadClean _ _ => exact hi.write (by simp) _ rfl
  | get key => exact hi.settle _ rfl (settles_get c key)
  | flushIdle backend idleTicks maxRecords =>
    exact hi.settle _ rfl (flushRange_spec c _ backend idleTicks maxRecords rfl).1
  | flushShardIdle s backend idleTicks maxRecords =>
    simp only [WriteBehindCache.call, flushShardIdle]
    by_cases hs : s < c.shardCount
    · rw [if_pos hs]
      exact hi.settle _ rfl (flushRange_spec c _ backend idleTicks maxRecords rfl).1
    · rw [if_neg hs]
      exact hi.settle _ rfl (Settles.refl c)

/-- Every record a call hands to the backend is current. -/
theorem current_of_offered (a : Call K V ε) : ∀ f ∈ offered (c.call a).2, Current c f := by
  cases a with
  | put _ _ | delete _ | loadClean _ _ | get _ => simp [call, offered]
  | flushIdle backend idleTicks maxRecords =>
    exact (flushRange_spec c _ backend idleTicks maxRecords rfl).2
  | flushShardIdle s backend idleTicks maxRecords =>
    simp only [call, flushShardIdle]
    by_cases hs : s < c.shardCount
    · rw [if_pos hs]
      exact (flushRange_spec c _ backend idleTicks maxRecords rfl).2
    · rw [if_neg hs]
      simp [offered]

/-- A current record is the last write of its key, and a dirty one. -/
theorem Inv.last_of_current (hi : Inv c history) {f : FlushRecord K V}
    (hf : Current c f) : ∃ w, lastWrite history f.key = some w
      ∧ w.dirty = true ∧ f = ⟨f.key, w.value, w.version, w.op⟩
      ∧ (f.value.isSome ↔ f.op = .put) := by
  obtain ⟨s, e, r, he, hr, hv, rfl⟩ := hf
  obtain ⟨w, hw, hwv, hwval⟩ := hi.stored e.key r hr
  have hver : w.version = e.version := hwv.symm.trans hv
  obtain ⟨-, -, hlast⟩ := hi.queued s e he
  obtain ⟨hdirty, hop⟩ := hlast w hw hver
  refine ⟨w, hw, hdirty, ?_, ?_⟩
  · rw [hwval, hver, hop]
  · simp only
    rw [hwval, ← hop]
    exact (hi.fresh e.key w hw).2

end

-- ===== whole runs

theorem run_inv (hash : K → UInt64) (shards : Nat) (calls : List (Call K V ε)) :
    Inv (Lib.exec call (withHasherAndConfig hash shards) calls)
      (Lib.trace call (withHasherAndConfig hash shards) calls) := by
  have hstart : Inv (withHasherAndConfig hash shards :
      WriteBehindCache K V) ([] : List (Call K V ε × Reply K V ε)) :=
    ⟨nofun, nofun, nofun, nofun⟩
  have hrun := Lib.exec_sim Inv (fun _ _ a hi _ => hi.call a) hstart (Lib.guarded_true _ calls)
  rwa [nil_append] at hrun

/-- No dirty write is lost: after any calls, with any backend, the last
write of a key is delivered or pending when it is dirty; and a record is
handed to the backend only as the current, last and dirty write of its
key, with a value exactly when it is a put. -/
theorem dirty_write_delivered_or_pending (hash : K → UInt64) (shards : Nat)
    (calls : List (Call K V ε)) :
    let start : WriteBehindCache K V := withHasherAndConfig hash shards
    (∀ k w, lastWrite (Lib.trace call start calls) k = some w → w.dirty = true →
        Delivered (Lib.trace call start calls) k w ∨ Pending (Lib.exec call start calls) k w)
      ∧ ∀ pre a post, calls = pre ++ a :: post → ∀ f ∈ offered (call (Lib.exec call start pre) a).2,
          (∃ r, (Lib.exec call start pre).map f.key = some r ∧ r.version = f.version)
            ∧ (f.value.isSome ↔ f.op = .put)
            ∧ ∃ w, lastWrite (Lib.trace call start pre) f.key = some w ∧ w.dirty = true
              ∧ f = ⟨f.key, w.value, w.version, w.op⟩ := by
  intro start
  refine ⟨fun k w hw hd => ?_, ?_⟩
  · rcases (run_inv hash shards calls).kept k w hw with h | ⟨-, h⟩
    · exact Or.inl h
    · exact Or.inr (h hd)
  · intro pre a post _ f hf
    have hcur := current_of_offered a f hf
    obtain ⟨w, hw, hdirty, hfw, hop⟩ := (run_inv hash shards pre).last_of_current hcur
    refine ⟨?_, hop, w, hw, hdirty, hfw⟩
    obtain ⟨-, e, r, -, hr, hv, rfl⟩ := hcur
    exact ⟨r, hr, hv⟩

end MemoryFirst.Core.WriteBehindCache
