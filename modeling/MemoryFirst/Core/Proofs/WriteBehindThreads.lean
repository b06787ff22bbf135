/-
Writers and flushers of the write-behind cache side by side: what is true
of every interleaving.

# Where a write can be

A write that went into the map is a `Landed`, its queue entry is
`entryOf` it and the record handed to the backend is `recordOf` it. `Inv`
says that nothing else is ever about: the map shows the last landed write
of a key or nothing, and every entry in a queue or in the hands of a
flusher is the entry of a landed write. Versions are clock ticks, so a
version names one landed write (`Inv.unique`), although ticks and inserts
of different writers may come in different orders.

# Steps

`WriterMoves` and `FlusherMoves` list the accesses of the two kinds of
process, one constructor per arm of the source.
-/
import Mathlib.Data.List.Perm.Subperm
import MemoryFirst.Lib.History
import MemoryFirst.Lib.Processes
import MemoryFirst.Core.Proofs.WriteBehind
import MemoryFirst.Core.WriteBehindThreads

namespace MemoryFirst.Core.WriteBehindCache

open Lib Function List

variable {K V ε : Type}

-- ===== histories

variable (x : Landed K V)

def Landed.entryOf : DirtyEntry K :=
  ⟨x.key, x.version, x.version, x.op⟩

def Landed.recordOf : FlushRecord K V :=
  ⟨x.key, x.value, x.version, x.op⟩

variable (drained : List (Nat × DirtyEntry K))

/-- The entries a flusher has taken from the queues and not given back or
delivered. -/
def carried : FlusherPc K ε → List (DirtyEntry K)
  | .clock _ => drained.map Prod.snd
  | .snapshot _ _ => drained.map Prod.snd
  | .pop _ _ _ => drained.map Prod.snd
  | .pushYoung _ _ _ entry => entry :: drained.map Prod.snd
  | .lookup _ _ _ entry => entry :: drained.map Prod.snd
  | .flush => drained.map Prod.snd
  | .requeue _ entry rest _ => entry :: rest.map Prod.snd
  | _ => []

/-- The same entries, each with the shard it came from and would go back
to. -/
def hands : FlusherPc K ε → List (Nat × DirtyEntry K)
  | .clock _ => drained
  | .snapshot _ _ => drained
  | .pop _ _ _ => drained
  | .pushYoung s _ _ entry => (s, entry) :: drained
  | .lookup s _ _ entry => (s, entry) :: drained
  | .flush => drained
  | .requeue s entry rest _ => (s, entry) :: rest
  | _ => []

/-- The key a flusher is about to remove. -/
def FlusherPc.removing : FlusherPc K ε → Option K
  | .remove entry _ => some entry.key
  | _ => none

/-- The entries a cleanup has still to look at. -/
def FlusherPc.cleaning : FlusherPc K ε → List (DirtyEntry K)
  | .cleanup entry rest => entry :: rest.map Prod.snd
  | .remove entry rest => entry :: rest.map Prod.snd
  | _ => []

section

variable {records : List (FlushRecord K V)}
  {drained : List (Nat × DirtyEntry K)} {pc : FlusherPc K ε}

/-- The points the loops of a drain go on to. -/
inductive Draining (records : List (FlushRecord K V)) : FlusherPc K ε → Prop
  | done (h : records = []) : Draining records (.done (.ok 0))
  | flush : Draining records .flush
  | snapshot (s : Nat) (range : List Nat) : Draining records (.snapshot s range)
  | pop (s left : Nat) (range : List Nat) : Draining records (.pop s left range)

theorem draining_nextShard (range : List Nat) :
    Draining (ε := ε) (K := K) records (nextShard records range) := by
  cases range with
  | nil =>
    cases records with
    | nil => exact .done rfl
    | cons r records => exact .flush
  | cons s range => exact .snapshot s range

theorem draining_nextPop (maxRecords s left : Nat) (range : List Nat) : Draining (ε := ε) records
      (nextPop maxRecords s left range records) := by
  cases left with
  | zero => exact draining_nextShard range
  | succ left =>
    unfold nextPop
    dsimp only
    split
    · exact draining_nextShard []
    · exact .pop s left range

theorem Draining.hands_eq (h : Draining records pc)
    (hnil : records = [] → drained = []) : hands drained pc = drained := by
  cases h with
  | done h => exact (hnil h).symm
  | _ => rfl

theorem Draining.cleaning_eq (h : Draining records pc) : pc.cleaning = [] := by
  cases h <;> rfl

theorem hands_nextRequeue (e : ε) (rest : List (Nat × DirtyEntry K)) :
    hands drained (nextRequeue e rest) = rest := by
  cases rest <;> rfl

variable (n : Nat) (rest : List (Nat × DirtyEntry K))

theorem hands_nextCleanup :
    hands (ε := ε) drained (nextCleanup n rest) = [] := by
  induction rest with
  | nil => rfl
  | cons x rest ih =>
    unfold nextCleanup
    split
    · rfl
    · exact ih

theorem carried_eq (pc : FlusherPc K ε) : carried drained pc = (hands drained pc).map Prod.snd := by
  cases pc <;> rfl

theorem cleaning_nextRequeue (e : ε) (rest : List (Nat × DirtyEntry K)) :
    (nextRequeue e rest).cleaning = [] := by
  cases rest <;> rfl

theorem cleaning_nextCleanup :
    (nextCleanup n rest : FlusherPc K ε).cleaning.Sublist (rest.map Prod.snd) := by
  induction rest with
  | nil => exact List.Sublist.refl _
  | cons x rest ih =>
    unfold nextCleanup
    split
    · exact List.Sublist.refl _
    · exact ih.cons _

/-- Only a cleanup removes. -/
theorem removing_eq_none (h : pc.cleaning = []) : pc.removing = none := by
  cases pc with
  | remove entry rest => cases h
  | _ => rfl

theorem removing_nextCleanup :
    (nextCleanup n rest : FlusherPc K ε).removing = none := by
  induction rest with
  | nil => rfl
  | cons x rest ih =>
    unfold nextCleanup
    split
    · rfl
    · exact ih

end

variable [DecidableEq K] (landed : List (Landed K V))

/-- The last write of a key that went into the map. -/
def lastLanded (key : K) : Option (Landed K V) :=
  (landed.filter fun x => decide (x.key = key)).getLast?

theorem lastLanded_append (key : K) : lastLanded (landed ++ [x]) key
      = if x.key = key then some x else lastLanded landed key :=
  lastOf_concat landed x key

variable {f : Flusher K V ε} {landed : List (Landed K V)}

theorem lastLanded_mem {key : K} {x : Landed K V}
    (h : lastLanded landed key = some x) : x ∈ landed ∧ x.key = key :=
  lastOf_mem h

-- ===== the writer's arms

/-- The accesses of a write; `full` is the map's answer to an insert. -/
inductive WriterMoves (c : WriteBehindCache K V) (a : Writer K V) (full : Bool) :
    WriteBehindCache K V → WriterPc → List (Landed K V) → Prop
  | ticks (hpc : a.pc = .tick) : WriterMoves c a full { c with clock := c.clock + 1 }
        (.insert c.clock) []
  | refused (n : Nat) (hpc : a.pc = .insert n) :
      WriterMoves c a full c (.done (.error .capacityFull)) []
  | lands (n : Nat) (hpc : a.pc = .insert n) (hfull : full = false) : WriterMoves c a full
        { c with
          map := update c.map a.key (some ⟨a.value, n, n⟩) }
        (if a.queueDirty then .push n else .done (.ok n))
        [⟨a.key, a.value, n, a.op, a.queueDirty⟩]
  | pushes (n : Nat) (hpc : a.pc = .push n) : WriterMoves c a full
        (c.pushDirty (c.dirtyShardIdx a.key) ⟨a.key, n, n, a.op⟩)
        (.done (.ok n)) []
  | rests : WriterMoves c a full c a.pc []

variable (c : WriteBehindCache K V)

theorem writerStep_moves (capacity : Nat) (a : Writer K V) (full : Bool) :
    WriterMoves c a full (writerStep c capacity a full).1 (writerStep c capacity a full).2.1
      (writerStep c capacity a full).2.2 := by
  cases hpc : a.pc with
  | tick =>
    simp only [writerStep, hpc]
    exact .ticks hpc
  | insert n =>
    simp only [writerStep, hpc]
    split
    · exact .refused n hpc
    next h => exact .lands n hpc (Bool.eq_false_iff.2 h)
  | push n =>
    simp only [writerStep, hpc, tryPush]
    split
    next c' h =>
      split at h
      · cases h
        exact .pushes n hpc
      · cases h
    next =>
      rw [← hpc]
      exact .rests
  | done result =>
    simp only [writerStep, hpc]
    rw [← hpc]
    exact .rests

-- ===== the flusher's arms

/-- The accesses of a flush. -/
inductive FlusherMoves (c : WriteBehindCache K V) (f : Flusher K V ε) :
    WriteBehindCache K V → Flusher K V ε → List (FlushRecord K V) → Prop
  | loads (range : List Nat) (hpc : f.pc = .clock range) : FlusherMoves c f c
        { f with now := c.clock, pc := nextShard f.records range } []
  | measures (s : Nat) (range : List Nat) (hpc : f.pc = .snapshot s range) : FlusherMoves c f c
        { f with
          pc := nextPop f.maxRecords s (c.dirtyShards s).length range
            f.records } []
  | finds (s left : Nat) (range : List Nat) (hpc : f.pc = .pop s left range) :
      FlusherMoves c f c { f with pc := nextShard f.records range } []
  | pops (s left : Nat) (range : List Nat) (entry : DirtyEntry K)
      (rest : List (DirtyEntry K)) (hpc : f.pc = .pop s left range)
      (hq : c.dirtyShards s = entry :: rest) (pc : FlusherPc K ε)
      (hnext : pc = .pushYoung s left range entry ∨ pc = .lookup s left range entry) :
      FlusherMoves c f (c.setShard s rest) { f with pc := pc } []
  | returns (s left : Nat) (range : List Nat) (entry : DirtyEntry K)
      (hpc : f.pc = .pushYoung s left range entry) :
      FlusherMoves c f (c.pushDirty s entry)
        { f with pc := nextPop f.maxRecords s left range f.records } []
  | drops (s left : Nat) (range : List Nat) (entry : DirtyEntry K)
      (hpc : f.pc = .lookup s left range entry)
      (hstale : ∀ r, c.map entry.key = some r → r.version ≠ entry.version) :
      FlusherMoves c f c { f with pc := nextPop f.maxRecords s left range f.records } []
  | collects (s left : Nat) (range : List Nat) (entry : DirtyEntry K)
      (r : ValueRecord V) (hpc : f.pc = .lookup s left range entry)
      (hr : c.map entry.key = some r) (hv : r.version = entry.version) :
      FlusherMoves c f c
        { f with
          records := f.records ++
            [⟨entry.key, r.value, entry.version, entry.op⟩]
          drained := f.drained ++ [(s, entry)]
          pc := nextPop f.maxRecords s left range (f.records ++
            [⟨entry.key, r.value, entry.version, entry.op⟩]) } []
  | accepts (hpc : f.pc = .flush) : FlusherMoves c f c
        { f with pc := nextCleanup f.records.length f.drained } f.records
  | fails (e : ε) (hpc : f.pc = .flush) :
      FlusherMoves c f c { f with pc := nextRequeue e f.drained } []
  | skips (entry : DirtyEntry K) (rest : List (Nat × DirtyEntry K))
      (hpc : f.pc = .cleanup entry rest) :
      FlusherMoves c f c { f with pc := nextCleanup f.records.length rest } []
  | aims (entry : DirtyEntry K) (rest : List (Nat × DirtyEntry K))
      (r : ValueRecord V) (hpc : f.pc = .cleanup entry rest)
      (hr : c.map entry.key = some r) (hv : r.version = entry.version)
      (hnone : r.value = none) :
      FlusherMoves c f c { f with pc := .remove entry rest } []
  | removes (entry : DirtyEntry K) (rest : List (Nat × DirtyEntry K))
      (hpc : f.pc = .remove entry rest) :
      FlusherMoves c f { c with map := update c.map entry.key none }
        { f with pc := nextCleanup f.records.length rest } []
  | requeues (s : Nat) (entry : DirtyEntry K) (rest : List (Nat × DirtyEntry K)) (e : ε)
      (hpc : f.pc = .requeue s entry rest e) :
      FlusherMoves c f (c.pushDirty s entry) { f with pc := nextRequeue e rest } []
  | rests : FlusherMoves c f c f []

theorem flusherStep_moves (capacity : Nat) (f : Flusher K V ε) (backend : Except ε Unit) :
    FlusherMoves c f (flusherStep c capacity f backend).1 (flusherStep c capacity f backend).2.1
      (flusherStep c capacity f backend).2.2 := by
  cases hpc : f.pc with
  | clock range =>
    simp only [flusherStep, hpc]
    exact .loads range hpc
  | snapshot s range =>
    simp only [flusherStep, hpc]
    exact .measures s range hpc
  | pop s left range =>
    simp only [flusherStep, hpc]
    split
    next => exact .finds s left range hpc
    next entry rest hq =>
      refine .pops s left range entry rest hpc hq _ ?_
      split
      · exact Or.inl rfl
      · exact Or.inr rfl
  | pushYoung s left range entry =>
    simp only [flusherStep, hpc, tryPush]
    split
    next c' h =>
      split at h
      · cases h
        exact .returns s left range entry hpc
      · cases h
    next => exact .rests
  | lookup s left range entry =>
    simp only [flusherStep, hpc]
    split
    next r hr =>
      split
      next hv => exact .collects s left range entry r hpc hr hv
      next hv =>
        refine .drops s left range entry hpc fun r' hr' => ?_
        cases hr.symm.trans hr'
        exact hv
    next hnone =>
      refine .drops s left range entry hpc fun r' hr' => ?_
      cases hnone.symm.trans hr'
  | flush =>
    simp only [flusherStep, hpc]
    split
    next => exact .accepts hpc
    next e => exact .fails e hpc
  | cleanup entry rest =>
    simp only [flusherStep, hpc]
    split
    next r hr =>
      split
      next h => exact .aims entry rest r hpc hr h.1 (Option.isNone_iff_eq_none.1 h.2)
      next => exact .skips entry rest hpc
    next => exact .skips entry rest hpc
  | remove entry rest =>
    simp only [flusherStep, hpc]
    exact .removes entry rest hpc
  | requeue s entry rest e =>
    simp only [flusherStep, hpc, tryPush]
    split
    next c' h =>
      split at h
      · cases h
        exact .requeues s entry rest e hpc
      · cases h
    next => exact .rests
  | done result =>
    simp only [flusherStep, hpc]
    exact .rests

/-- What an access does to the queues and to the entries in the flusher's
hands: it takes an entry, gives one back, or loses some. -/
inductive HandMoves (c : WriteBehindCache K V) (held : List (Nat × DirtyEntry K)) :
    WriteBehindCache K V → List (Nat × DirtyEntry K) → Prop
  | takes (s : Nat) (entry : DirtyEntry K) (rest : List (DirtyEntry K))
      (hq : c.dirtyShards s = entry :: rest) :
      HandMoves c held (c.setShard s rest) ((s, entry) :: held)
  | returns (s : Nat) (entry : DirtyEntry K) (held' : List (Nat × DirtyEntry K))
      (hheld : held = (s, entry) :: held') :
      HandMoves c held (c.pushDirty s entry) held'
  | keeps (c' : WriteBehindCache K V) (held' : List (Nat × DirtyEntry K))
      (hq : c'.dirtyShards = c.dirtyShards) (hsub : held'.Subperm held) :
      HandMoves c held c' held'

variable {c c' : WriteBehindCache K V} {f' : Flusher K V ε} {accepted : List (FlushRecord K V)}

section

variable (h : FlusherMoves c f c' f' accepted) (hnil : f.records = [] → f.drained = [])

include h hnil

theorem FlusherMoves.handMoves :
    HandMoves c (hands f.drained f.pc) c' (hands f'.drained f'.pc) := by
  cases h with
  | loads _ hpc | finds _ _ _ hpc =>
    rw [hpc, (draining_nextShard _).hands_eq hnil]
    exact .keeps _ _ rfl (List.Subperm.refl _)
  | measures s range hpc =>
    rw [hpc, (draining_nextPop ..).hands_eq hnil]
    exact .keeps _ _ rfl (List.Subperm.refl _)
  | pops s left range entry rest hpc hq pc hnext =>
    rw [hpc]
    rcases hnext with rfl | rfl <;> exact .takes s entry rest hq
  | returns s left range entry hpc =>
    rw [hpc, (draining_nextPop ..).hands_eq hnil]
    exact .returns s entry _ rfl
  | drops s left range entry hpc hstale =>
    rw [hpc, (draining_nextPop ..).hands_eq hnil]
    exact .keeps _ _ rfl (sublist_cons_self _ _).subperm
  | collects s left range entry r hpc hr hv =>
    rw [hpc, (draining_nextPop ..).hands_eq (by simp)]
    exact .keeps _ _ rfl (perm_append_singleton _ _).subperm
  | accepts _ | skips _ _ _ | removes _ _ _ =>
    rw [hands_nextCleanup]
    exact .keeps _ _ rfl nil_subperm
  | fails e hpc =>
    rw [hpc, hands_nextRequeue]
    exact .keeps _ _ rfl (List.Subperm.refl _)
  | aims entry rest r hpc hr hv hnone => exact .keeps _ _ rfl nil_subperm
  | requeues s entry rest e hpc =>
    rw [hpc, hands_nextRequeue]
    exact .returns s entry _ rfl
  | rests => exact .keeps _ _ rfl (List.Subperm.refl _)

/-- An entry in a flusher's hands stays there, goes back to its queue, is
dropped as stale, or is delivered with the batch. -/
theorem FlusherMoves.hand_kept {x : Nat × DirtyEntry K}
    (hx : x ∈ hands f.drained f.pc) : x ∈ hands f'.drained f'.pc ∨ x.2 ∈ c'.dirtyShards x.1
      ∨ (∀ r, c.map x.2.key = some r → r.version ≠ x.2.version)
      ∨ (accepted = f.records ∧ x ∈ f.drained) := by
  cases h with
  | loads _ hpc | finds _ _ _ hpc =>
    rw [hpc] at hx
    rw [(draining_nextShard _).hands_eq hnil]
    exact Or.inl hx
  | measures s range hpc =>
    rw [hpc] at hx
    rw [(draining_nextPop ..).hands_eq hnil]
    exact Or.inl hx
  | pops s left range entry rest hpc hq pc hnext =>
    rw [hpc] at hx
    rcases hnext with rfl | rfl <;>
      exact Or.inl (mem_cons_of_mem _ hx)
  | returns s left range entry hpc =>
    rw [hpc] at hx
    rw [(draining_nextPop ..).hands_eq hnil]
    rcases mem_cons.1 hx with rfl | hrest
    · exact Or.inr (Or.inl (mem_pushDirty.2 (Or.inr ⟨rfl, rfl⟩)))
    · exact Or.inl hrest
  | drops s left range entry hpc hstale =>
    rw [hpc] at hx
    rw [(draining_nextPop ..).hands_eq hnil]
    rcases mem_cons.1 hx with rfl | hrest
    · exact Or.inr (Or.inr (Or.inl hstale))
    · exact Or.inl hrest
  | collects s left range entry r hpc hr hv =>
    rw [hpc] at hx
    rw [(draining_nextPop ..).hands_eq (by simp)]
    exact Or.inl ((perm_append_singleton _ _).mem_iff.2 hx)
  | accepts hpc =>
    rw [hpc] at hx
    exact Or.inr (Or.inr (Or.inr ⟨rfl, hx⟩))
  | fails e hpc =>
    rw [hpc] at hx
    rw [hands_nextRequeue]
    exact Or.inl hx
  | requeues s entry rest e hpc =>
    rw [hpc] at hx
    rw [hands_nextRequeue]
    rcases mem_cons.1 hx with rfl | hrest
    · exact Or.inr (Or.inl (mem_pushDirty.2 (Or.inr ⟨rfl, rfl⟩)))
    · exact Or.inl hrest
  | skips _ _ hpc | aims _ _ _ hpc _ _ _ | removes _ _ hpc =>
    rw [hpc] at hx
    cases hx
  | rests => exact Or.inl hx

end

-- ===== the world

/-- The steps of a world, by the action they are taken with. -/
inductive WorldMoves (w : World K V ε) : Action K V ε → World K V ε → Prop
  | begins (action : Action K V ε) (a : Writer K V) (hpc : a.pc = .tick) :
      WorldMoves w action { w with writers := w.writers ++ [a] }
  | beginsFlush (action : Action K V ε) (range : List Nat) (idleTicks maxRecords : Nat) :
      WorldMoves w action
        { w with
          flushers := w.flushers ++
            [flushCall range idleTicks maxRecords] }
  | idles (action : Action K V ε) : WorldMoves w action w
  | writes (p : Nat) (full : Bool) (a : Writer K V) (c : WriteBehindCache K V) (pc : WriterPc)
      (landed : List (Landed K V)) (ha : w.writers[p]? = some a)
      (h : WriterMoves w.cache a full c pc landed) :
      WorldMoves w (.writer p full)
        { w with
          cache := c
          writers := w.writers.set p { a with pc := pc }
          landed := w.landed ++ landed }
  | flushes (p : Nat) (backend : Except ε Unit) (f : Flusher K V ε)
      (c : WriteBehindCache K V) (f' : Flusher K V ε)
      (accepted : List (FlushRecord K V)) (hf : w.flushers[p]? = some f)
      (h : FlusherMoves w.cache f c f' accepted) :
      WorldMoves w (.flusher p backend)
        { w with
          cache := c
          flushers := w.flushers.set p f'
          accepted := w.accepted ++ accepted }

/-- The world after an access of the flusher `p`. -/
abbrev World.flushed (w : World K V ε) (p : Nat) (c : WriteBehindCache K V)
    (f : Flusher K V ε) (accepted : List (FlushRecord K V)) :
    World K V ε :=
  { w with
    cache := c
    flushers := w.flushers.set p f
    accepted := w.accepted ++ accepted }

/-- The world after an access of the writer `p`. -/
abbrev World.wrote (w : World K V ε) (p : Nat) (a : Writer K V)
    (c : WriteBehindCache K V) (pc : WriterPc)
    (landed : List (Landed K V)) : World K V ε :=
  { w with
    cache := c
    writers := w.writers.set p { a with pc := pc }
    landed := w.landed ++ landed }

theorem worldStep_moves (w : World K V ε) (action : Action K V ε) :
    WorldMoves w action (worldStep w action).1 := by
  cases action with
  | put key value => exact .begins _ (putCall key value) rfl
  | loadClean key value => exact .begins _ (loadCleanCall key value) rfl
  | delete key => exact .begins _ (deleteCall key) rfl
  | flushIdle idleTicks maxRecords => exact .beginsFlush _ _ _ _
  | flushShardIdle s idleTicks maxRecords =>
    unfold worldStep
    dsimp only
    split
    · exact .beginsFlush _ _ _ _
    · exact .idles _
  | writer p full =>
    unfold worldStep
    dsimp only
    split
    next => exact .idles _
    next a ha => exact .writes p full a _ _ _ ha (writerStep_moves _ _ _ _)
  | flusher p backend =>
    unfold worldStep
    dsimp only
    split
    next => exact .idles _
    next f hf => exact .flushes p backend f _ _ _ hf (flusherStep_moves _ _ _ _)

-- ===== the invariant

/-- What a write knows of its version. -/
def WriterOk (w : World K V ε) (a : Writer K V) : Prop :=
  match a.pc with
  | .insert n => n < w.cache.clock ∧ ∀ x ∈ w.landed, x.version ≠ n
  | .push n => ⟨a.key, a.value, n, a.op, a.queueDirty⟩ ∈ w.landed
  | _ => True

/-- What a flusher carries: entries of landed writes, and for each one of
its batch the record. -/
structure FlusherOk (landed : List (Landed K V)) (f : Flusher K V ε) : Prop where
  carried_mem : ∀ e ∈ carried f.drained f.pc, ∃ x ∈ landed, e = x.entryOf
  drained_mem : ∀ e ∈ f.drained, ∃ x ∈ landed, e.2 = x.entryOf ∧ x.recordOf ∈ f.records

structure ThreadInv (w : World K V ε) : Prop where
  version_lt : ∀ x ∈ w.landed, x.version < w.cache.clock
  unique : ∀ x ∈ w.landed, ∀ y ∈ w.landed, x.version = y.version → x = y
  writers : ∀ {p : Nat} {a : Writer K V}, w.writers[p]? = some a → WriterOk w a
  distinct : ∀ {p q n : Nat} {a b : Writer K V}, w.writers[p]? = some a →
    w.writers[q]? = some b → a.pc = .insert n → b.pc = .insert n → p = q
  stored : ∀ {k : K} {r : ValueRecord V}, w.cache.map k = some r →
    ∃ x, lastLanded w.landed k = some x ∧ r.version = x.version ∧ r.value = x.value
  queued : ∀ {s : Nat} {e : DirtyEntry K}, e ∈ w.cache.dirtyShards s → ∃ x ∈ w.landed, e = x.entryOf
  flushers : ∀ {p : Nat} {f : Flusher K V ε}, w.flushers[p]? = some f → FlusherOk w.landed f

omit [DecidableEq K] in
theorem FlusherOk.mono {landed' : List (Landed K V)} (h : FlusherOk landed f)
    (hsub : ∀ x ∈ landed, x ∈ landed') : FlusherOk landed' f := by
  constructor
  · intro e he
    obtain ⟨x, hx, heq⟩ := h.carried_mem e he
    exact ⟨x, hsub x hx, heq⟩
  · intro e he
    obtain ⟨x, hx, heq, hrec⟩ := h.drained_mem e he
    exact ⟨x, hsub x hx, heq, hrec⟩

omit [DecidableEq K] in
/-- A flusher with nothing to flush has nothing drained. -/
theorem FlusherOk.drained_nil (h : FlusherOk landed f) (hrec : f.records = []) :
    f.drained = [] := by
  cases hd : f.drained with
  | nil => rfl
  | cons e rest =>
    obtain ⟨x, -, -, hmem⟩ := h.drained_mem e (by rw [hd]; simp)
    rw [hrec] at hmem
    cases hmem

variable {c : WriteBehindCache K V}

section

variable {w : World K V ε} {f f' : Flusher K V ε} {p : Nat} {c₀ : WriteBehindCache K V}

/-- Nothing but a removal touches the map, and no access the clock. -/
theorem FlusherMoves.clock_eq (h : FlusherMoves c₀ f c f' accepted) : c.clock = c₀.clock := by
  cases h <;> rfl

/-- A looked-up record and the entry it matches are of the last landed
write of their key. -/
theorem ThreadInv.current (hi : ThreadInv w) {s left : Nat} {range : List Nat}
    {entry : DirtyEntry K} {r : ValueRecord V} (hf : w.flushers[p]? = some f)
    (hpc : f.pc = .lookup s left range entry)
    (hr : w.cache.map entry.key = some r) (hv : r.version = entry.version) :
    ∃ x, lastLanded w.landed entry.key = some x ∧ entry = x.entryOf
      ∧ ⟨entry.key, r.value, entry.version, entry.op⟩ = x.recordOf := by
  have hcarried := (hi.flushers hf).carried_mem
  rw [hpc] at hcarried
  obtain ⟨x, hx, heq⟩ := hcarried entry mem_cons_self
  obtain ⟨y, hlast, hversion, hvalue⟩ := hi.stored hr
  have hsame : y = x := by
    refine hi.unique y (lastLanded_mem hlast).1 x hx ?_
    rw [← hversion, hv, heq]
    rfl
  refine ⟨y, hlast, by rw [hsame]; exact heq, ?_⟩
  rw [hvalue, hsame, heq]
  rfl

variable {e : DirtyEntry K}

section

variable (h : FlusherMoves c₀ f c f' accepted)

include h

/-- The map loses records to a flusher and gets none. -/
theorem FlusherMoves.map_cases (k : K) :
    c.map k = c₀.map k ∨ (c.map k = none ∧ f.pc.removing = some k) := by
  cases h with
  | removes entry rest hpc =>
    by_cases hk : k = entry.key
    · subst hk
      refine Or.inr ⟨update_self _ _ _, ?_⟩
      rw [hpc]
      rfl
    · exact Or.inl (update_of_ne hk _ _)
  | _ => exact Or.inl rfl

/-- A flusher is about to remove a key because it was so before, or
because it just saw the tombstone of an entry it is cleaning up. -/
theorem FlusherMoves.removing_cases {k : K} (hremove : f'.pc.removing = some k) :
    f.pc.removing = some k ∨ ∃ entry ∈ f.pc.cleaning, ∃ r, entry.key = k ∧ c₀.map k = some r
        ∧ r.version = entry.version ∧ r.value = none := by
  cases h with
  | aims entry rest r hpc hr hv hnone =>
    have hkey : entry.key = k := Option.some.inj hremove
    rw [hkey] at hr
    refine Or.inr ⟨entry, ?_, r, hkey, hr, hv, hnone⟩
    rw [hpc]
    exact mem_cons_self
  | rests => exact Or.inl hremove
  | pops s left range entry rest hpc hq pc hnext =>
    rcases hnext with rfl | rfl <;> cases hremove
  | loads _ _ | finds _ _ _ _ =>
    cases (removing_eq_none (draining_nextShard _).cleaning_eq).symm.trans hremove
  | measures _ _ _ | returns _ _ _ _ _ | drops _ _ _ _ _ _
  | collects _ _ _ _ _ _ _ _ =>
    cases (removing_eq_none (draining_nextPop ..).cleaning_eq).symm.trans hremove
  | accepts _ | skips _ _ _ | removes _ _ _ =>
    cases (removing_nextCleanup _ _).symm.trans hremove
  | fails _ _ | requeues _ _ _ _ _ =>
    cases (removing_eq_none (cleaning_nextRequeue ..)).symm.trans hremove

/-- What a flusher cleans up is a batch the backend accepted. -/
theorem FlusherMoves.cleaning_cases (he : e ∈ f'.pc.cleaning) : e ∈ f.pc.cleaning
      ∨ (accepted = f.records ∧ e ∈ f.drained.map Prod.snd) := by
  cases h with
  | accepts hpc => exact Or.inr ⟨rfl, (cleaning_nextCleanup _ _).subset he⟩
  | aims entry rest r hpc hr hv hnone =>
    rw [hpc]
    exact Or.inl he
  | skips _ _ hpc | removes _ _ hpc =>
    rw [hpc]
    exact Or.inl (mem_cons_of_mem _ ((cleaning_nextCleanup _ _).subset he))
  | rests => exact Or.inl he
  | pops s left range entry rest hpc hq pc hnext =>
    rcases hnext with rfl | rfl <;> cases he
  | loads _ _ | finds _ _ _ _ =>
    rw [(draining_nextShard _).cleaning_eq] at he
    cases he
  | measures _ _ _ | returns _ _ _ _ _ | drops _ _ _ _ _ _
  | collects _ _ _ _ _ _ _ _ =>
    rw [(draining_nextPop ..).cleaning_eq] at he
    cases he
  | fails _ _ | requeues _ _ _ _ _ =>
    rw [cleaning_nextRequeue] at he
    cases he

end

variable (hf : w.flushers[p]? = some f) (h : FlusherMoves w.cache f c f' accepted)

include hf h in
/-- An access of a flusher leaves it with entries of landed writes. -/
theorem ThreadInv.flusherOk (hi : ThreadInv w) : FlusherOk w.landed f' := by
  have hok := hi.flushers hf
  constructor
  · have hhands := h.handMoves hok.drained_nil
    have hcarried := hok.carried_mem
    rw [carried_eq] at hcarried ⊢
    generalize hands f'.drained f'.pc = l' at hhands ⊢
    intro e he
    obtain ⟨d, hd, rfl⟩ := mem_map.1 he
    cases hhands with
    | takes s entry rest hq =>
      rcases mem_cons.1 hd with rfl | hd
      · exact hi.queued (s := s) (by rw [hq]; exact mem_cons_self)
      · exact hcarried _ (mem_map_of_mem hd)
    | returns s entry held' hheld =>
      rw [hheld] at hcarried
      exact hcarried _ (mem_map_of_mem (mem_cons_of_mem _ hd))
    | keeps _ _ hq hsub => exact hcarried _ (mem_map_of_mem (hsub.subset hd))
  · cases h with
    | collects s left range entry r hpc hr hv =>
      obtain ⟨x, hlast, heq, hrec⟩ := hi.current hf hpc hr hv
      intro e he
      rcases mem_snoc.1 he with hold | rfl
      · obtain ⟨z, hz, hze, hzr⟩ := hok.drained_mem e hold
        exact ⟨z, hz, hze, mem_append_left _ hzr⟩
      refine ⟨x, (lastLanded_mem hlast).1, heq, mem_append_right _ ?_⟩
      rw [hrec]
      exact mem_singleton.2 rfl
    | _ => exact hok.drained_mem

include hf h in
/-- An access of a flusher queues nothing but what it carried. -/
theorem ThreadInv.queued_after (hi : ThreadInv w) {s : Nat} (he : e ∈ c.dirtyShards s) :
    ∃ x ∈ w.landed, e = x.entryOf := by
  have hcarried := (hi.flushers hf).carried_mem
  cases h with
  | pops s' left range entry rest hpc hq pc hnext =>
    rcases mem_setShard.1 he with ⟨rfl, hmem⟩ | ⟨-, hmem⟩
    · refine hi.queued (s := s) ?_
      rw [hq]
      exact mem_cons_of_mem _ hmem
    · exact hi.queued hmem
  | returns _ _ _ _ hpc | requeues _ _ _ _ hpc =>
    rw [hpc] at hcarried
    rcases mem_pushDirty.1 he with hold | ⟨-, rfl⟩
    · exact hi.queued hold
    · exact hcarried e mem_cons_self
  | _ => exact hi.queued he

include hf h in
theorem ThreadInv.flushes (hi : ThreadInv w) : ThreadInv (w.flushed p c f' accepted) := by
  have hclock := h.clock_eq
  refine ⟨?_, hi.unique, ?_, hi.distinct, ?_, hi.queued_after hf h, ?_⟩
  · intro x hx
    rw [hclock]
    exact hi.version_lt x hx
  · intro q a ha
    have hok := hi.writers ha
    show match a.pc with
      | .insert n => n < c.clock ∧ _
      | .push n => _
      | _ => True
    rw [hclock]
    exact hok
  · intro k r hr
    rcases h.map_cases k with heq | ⟨hnone, -⟩
    · exact hi.stored (heq.symm.trans hr)
    · cases hnone.symm.trans hr
  · intro q g hg
    rcases getElem?_set_cases hg with ⟨rfl, rfl⟩ | ⟨-, hold⟩
    · have hok := hi.flusherOk hf h
      exact hok
    · exact hi.flushers hold

end

section

variable {w : World K V ε} {p : Nat} {a : Writer K V} {full : Bool} {pc : WriterPc}

/-- A version a write still holds is of no write that landed and of no
other write. -/
theorem ThreadInv.lands (hi : ThreadInv w) (ha : w.writers[p]? = some a)
    {n : Nat} (hpc : a.pc = .insert n) :
    ThreadInv { w with
      cache := { w.cache with
        map := update w.cache.map a.key (some ⟨a.value, n, n⟩) }
      writers := w.writers.set p { a with
        pc := if a.queueDirty then .push n else .done (.ok n) }
      landed := w.landed ++
        [⟨a.key, a.value, n, a.op, a.queueDirty⟩] } := by
  have hown : n < w.cache.clock ∧ ∀ x ∈ w.landed, x.version ≠ n := by
    have hok := hi.writers ha
    unfold WriterOk at hok
    rwa [hpc] at hok
  have hsub : ∀ x ∈ w.landed, x ∈ w.landed ++ [⟨a.key, a.value, n, a.op, a.queueDirty⟩] :=
    fun x hx => mem_append_left _ hx
  have hpc' : ∀ m, (if a.queueDirty then WriterPc.push n
      else .done (.ok n)) ≠ .insert m := by
    intro m
    split <;> nofun
  constructor
  · exact forall_mem_snoc.2 ⟨hi.version_lt, hown.1⟩
  · intro x hx y hy hxy
    rcases mem_append.1 hx with hx | hx <;>
      rcases mem_append.1 hy with hy | hy
    · exact hi.unique x hx y hy hxy
    · cases mem_singleton.1 hy
      exact absurd hxy (hown.2 x hx)
    · cases mem_singleton.1 hx
      exact absurd hxy.symm (hown.2 y hy)
    · cases mem_singleton.1 hx
      cases mem_singleton.1 hy
      rfl
  · intro q b hb
    rcases getElem?_set_cases hb with ⟨rfl, rfl⟩ | ⟨hne, hold⟩
    · cases a.queueDirty with
      | true => exact mem_append_right _ (mem_singleton.2 rfl)
      | false => trivial
    have hok := hi.writers hold
    unfold WriterOk at hok ⊢
    cases hbpc : b.pc with
    | insert m =>
      rw [hbpc] at hok
      refine ⟨hok.1, forall_mem_snoc.2 ⟨hok.2, ?_⟩⟩
      rintro rfl
      exact hne (hi.distinct hold ha hbpc hpc)
    | push m =>
      rw [hbpc] at hok
      exact hsub _ hok
    | tick | done _ => trivial
  · intro q q' m b b' hb hb' hm hm'
    rcases getElem?_set_cases hb with ⟨rfl, rfl⟩ | ⟨-, hold⟩
    · exact absurd hm (hpc' m)
    · rcases getElem?_set_cases hb' with ⟨rfl, rfl⟩ | ⟨-, hold'⟩
      · exact absurd hm' (hpc' m)
      · exact hi.distinct hold hold' hm hm'
  · intro k r hr
    rw [lastLanded_append]
    have hr : update w.cache.map a.key (some ⟨a.value, n, n⟩) k = some r := hr
    by_cases hk : k = a.key
    · subst hk
      rw [update_self] at hr
      cases hr
      exact ⟨_, if_pos rfl, rfl, rfl⟩
    · rw [update_of_ne hk] at hr
      rw [if_neg (Ne.symm hk)]
      exact hi.stored hr
  · intro s e he
    obtain ⟨x, hx, heq⟩ := hi.queued he
    exact ⟨x, hsub x hx, heq⟩
  · intro q f hf
    exact (hi.flushers hf).mono hsub

/-- A write that puts nothing into the map. -/
theorem ThreadInv.relabel (hi : ThreadInv w) (hmap : c.map = w.cache.map)
    (hclock : w.cache.clock ≤ c.clock)
    (hqueue : ∀ s e, e ∈ c.dirtyShards s → ∃ x ∈ w.landed, e = x.entryOf)
    (hself : WriterOk { w with cache := c } { a with pc := pc })
    (hfresh : ∀ n, pc = .insert n → ∀ (q : Nat) (b : Writer K V),
      w.writers[q]? = some b → b.pc ≠ .insert n) :
    ThreadInv { w with
      cache := c
      writers := w.writers.set p { a with pc := pc }
      landed := w.landed ++ [] } := by
  rw [append_nil]
  refine ⟨?_, hi.unique, ?_, ?_, ?_, hqueue _ _, hi.flushers⟩
  · intro x hx
    exact Nat.lt_of_lt_of_le (hi.version_lt x hx) hclock
  · intro q b hb
    rcases getElem?_set_cases hb with ⟨rfl, rfl⟩ | ⟨-, hold⟩
    · exact hself
    have hok := hi.writers hold
    unfold WriterOk at hok ⊢
    cases hbpc : b.pc with
    | insert m =>
      rw [hbpc] at hok
      exact ⟨Nat.lt_of_lt_of_le hok.1 hclock, hok.2⟩
    | push m =>
      rw [hbpc] at hok
      exact hok
    | tick | done _ => trivial
  · intro q q' m b b' hb hb' hm hm'
    rcases getElem?_set_cases hb with ⟨rfl, rfl⟩ | ⟨hne, hold⟩ <;>
      rcases getElem?_set_cases hb' with ⟨rfl, rfl⟩ | ⟨hne', hold'⟩
    · rfl
    · exact absurd hm' (hfresh m hm _ _ hold')
    · exact absurd hm (hfresh m hm' _ _ hold)
    · exact hi.distinct hold hold' hm hm'
  · intro k r hr
    refine hi.stored (Eq.trans ?_ hr)
    exact congrFun hmap.symm k

theorem ThreadInv.writes (hi : ThreadInv w) (ha : w.writers[p]? = some a)
    (h : WriterMoves w.cache a full c pc landed) :
    ThreadInv (w.wrote p a c pc landed) := by
  have hok := hi.writers ha
  unfold WriterOk at hok
  cases h with
  | ticks hpc =>
    refine hi.relabel rfl (Nat.le_succ _) (fun _ _ => hi.queued) ?_ ?_
    · refine ⟨Nat.lt_succ_self _, fun x hx => ?_⟩
      exact Nat.ne_of_lt (hi.version_lt x hx)
    · intro n hn q b hb hbpc
      cases hn
      have hother := hi.writers hb
      unfold WriterOk at hother
      rw [hbpc] at hother
      omega
  | refused n hpc =>
    exact hi.relabel rfl (by omega) (fun _ _ => hi.queued) trivial
      nofun
  | lands n hpc hfull => exact hi.lands ha hpc
  | pushes n hpc =>
    rw [hpc] at hok
    refine hi.relabel rfl (Nat.le_refl _) ?_ trivial nofun
    intro s e he
    rcases mem_pushDirty.1 he with hold | ⟨-, rfl⟩
    · exact hi.queued hold
    · exact ⟨_, hok, rfl⟩
  | rests =>
    have hsame : w.writers.set p { a with pc := a.pc } = w.writers := by
      obtain ⟨hlt, hget⟩ := List.getElem?_eq_some_iff.1 ha
      rw [← hget]
      exact List.set_getElem_self hlt
    unfold World.wrote
    rw [List.append_nil, hsame]
    exact hi

end

-- ===== whole runs

theorem ThreadInv.step {w w' : World K V ε} {action : Action K V ε} (hi : ThreadInv w)
    (h : WorldMoves w action w') : ThreadInv w' := by
  cases h with
  | begins _ a hpc =>
    refine ⟨hi.version_lt, hi.unique, ?_, ?_, hi.stored, hi.queued, hi.flushers⟩
    · intro q b hb
      rcases getElem?_append_cases hb with hold | rfl
      · exact hi.writers hold
      · unfold WriterOk
        rw [hpc]
        trivial
    · intro q q' n b b' hb hb' hn hn'
      rcases getElem?_append_cases hb with hold | rfl
      · rcases getElem?_append_cases hb' with hold' | rfl
        · exact hi.distinct hold hold' hn hn'
        · cases hpc.symm.trans hn'
      · cases hpc.symm.trans hn
  | beginsFlush _ range idleTicks maxRecords =>
    refine ⟨hi.version_lt, hi.unique, hi.writers, hi.distinct, hi.stored, hi.queued, ?_⟩
    intro q g hg
    rcases getElem?_append_cases hg with hold | rfl
    · exact hi.flushers hold
    · exact ⟨nofun, nofun⟩
  | idles _ => exact hi
  | writes p full a c pc landed ha h => exact hi.writes ha h
  | flushes p backend f c f' accepted hf h => exact hi.flushes hf h

theorem threadInv_fresh (hash : K → UInt64) (shards queueCapacity : Nat) :
    ThreadInv (fresh hash shards queueCapacity : World K V ε) :=
  ⟨nofun, nofun, nofun, nofun, nofun, nofun, nofun⟩

end MemoryFirst.Core.WriteBehindCache
