/-
A put against the cleanup of a flushed delete.

# The window

After a delete was flushed, the flusher takes its tombstone out of the
map in two accesses: it looks the record up and compares it, and then it
removes the key, whatever its record is by then. The source knows the
window and accepts it. `put_removed_in_window` is a put that falls into
it: the call has returned, its key is not in the map, and its queue entry
is bound to be dropped as stale.

# What holds

`put_kept`: a key none of whose writes lands in a window on that key, in
any interleaving of any number of writers and flushers, keeps its last
put: when all calls have returned, `get` reads it and it was flushed or
is queued.

# The invariant

Outside a window a tombstone that is about to be removed is still the
last write (`Kept.removing`), so a removal never meets a put, and a put
stays in the map. Its entry then never is stale, and goes from the writer
to a queue, to a flusher, and to the backend or back (`Underway`).
-/
import MemoryFirst.Core.Proofs.WriteBehindThreads

namespace MemoryFirst.Core.WriteBehindCache

open Lib Function List

variable {K V ε : Type} [DecidableEq K]

-- ===== the specification

def WriterPc.returned : WriterPc → Bool
  | .done _ => true
  | _ => false

def FlusherPc.returned : FlusherPc K ε → Bool
  | .done _ => true
  | _ => false

/-- The next access of the write is its insert into the map. -/
def WriterPc.inserting : WriterPc → Bool
  | .insert _ => true
  | _ => false

variable (w : World K V ε)

/-- All calls have returned. -/
def Quiet : Prop :=
  (∀ a ∈ w.writers, a.pc.returned = true) ∧ ∀ f ∈ w.flushers, f.pc.returned = true

instance (w : World K V ε) : Decidable (Quiet w) :=
  inferInstanceAs (Decidable (_ ∧ _))

/-- The last write of the key, if it stored a value, is readable, and if
it was a put it was flushed or is queued. -/
def PutKept (key : K) : Prop :=
  ∀ x, lastLanded w.landed key = some x → x.value.isSome = true → (w.cache.get key).2 = x.value
      ∧ (x.queueDirty = true → x.recordOf ∈ w.accepted ∨ ∃ s, x.entryOf ∈ w.cache.dirtyShards s)

/-- No write of the key lands while a flusher is between its look at the
key's tombstone and its removal of the key. -/
def Clear (key : K) (w : World K V ε) : Action K V ε → Prop
  | .writer p false => ∀ a ∈ w.writers[p]?, a.key = key →
      a.pc.inserting = true → ∀ f ∈ w.flushers, f.pc.removing ≠ some key
  | _ => True

instance (key : K) (w : World K V ε) (action : Action K V ε) : Decidable (Clear key w action) :=
  match action with
  | .writer p false => inferInstanceAs (Decidable (∀ a ∈ w.writers[p]?,
      a.key = key → a.pc.inserting = true → ∀ f ∈ w.flushers, f.pc.removing ≠ some key))
  | .writer _ true | .put _ _ | .loadClean _ _ | .delete _
  | .flushIdle _ _ | .flushShardIdle _ _ _ | .flusher _ _ =>
    inferInstanceAs (Decidable True)

-- ===== the invariant

/-- The entry of `x` is under way: queued, about to be pushed, or in the
hands of a flusher. -/
def Underway (x : Landed K V) : Prop :=
  (∃ s, x.entryOf ∈ w.cache.dirtyShards s) ∨ (∃ (p : Nat) (a : Writer K V), w.writers[p]? = some a
      ∧ a.pc = .push x.version
      ∧ (⟨a.key, x.version, x.version, a.op⟩ : DirtyEntry K) = x.entryOf)
    ∨ ∃ (p : Nat) (f : Flusher K V ε), w.flushers[p]? = some f ∧ x.entryOf ∈ carried f.drained f.pc

structure Kept (key : K) (w : World K V ε) : Prop where
  removing : ∀ {p : Nat} {f : Flusher K V ε}, w.flushers[p]? = some f → f.pc.removing = some key →
      ∃ x, lastLanded w.landed key = some x ∧ x.value = none
  live : ∀ x, lastLanded w.landed key = some x → x.value.isSome = true →
    ∃ r, w.cache.map key = some r
  held : ∀ x, lastLanded w.landed key = some x → x.value.isSome = true →
    x.queueDirty = true → x.recordOf ∈ w.accepted ∨ Underway w x

section

variable {w : World K V ε} {x : Landed K V} {key : K}

-- ===== where an entry goes

variable {landed : List (Landed K V)} {p : Nat} {c : WriteBehindCache K V} {a : Writer K V}
  {accepted : List (FlushRecord K V)} {f f' : Flusher K V ε}

/-- A flusher loses no entry but a stale one. -/
theorem ThreadInv.underway_flushes (hi : ThreadInv w) (hf : w.flushers[p]? = some f)
    (h : FlusherMoves w.cache f c f' accepted) (hx : x ∈ w.landed)
    (hcurrent : ∃ r, w.cache.map x.key = some r ∧ r.version = x.version)
    (hp : Underway w x) :
    x.recordOf ∈ w.accepted ++ accepted ∨ Underway (w.flushed p c f' accepted) x := by
  have hok := hi.flushers hf
  have hself : (w.flushers.set p f')[p]? = some f' := getElem?_set_new hf
  -- the entry ends up in the hands of this flusher, or in a queue
  have hhands : x.entryOf ∈ carried f'.drained f'.pc → Underway (w.flushed p c f' accepted) x :=
    fun hmem => Or.inr (Or.inr ⟨p, f', hself, hmem⟩)
  rcases hp with ⟨s, hs⟩ | ⟨q, a, ha, hpush⟩ | ⟨q, g, hg, hmem⟩
  · right
    cases h with
    | pops s' left range entry rest hpc hq pc hnext =>
      by_cases hhead : x.entryOf = entry
      · apply hhands
        rw [hhead]
        rcases hnext with rfl | rfl <;> exact mem_cons_self
      refine Or.inl ⟨s, mem_setShard.2 ?_⟩
      by_cases hss : s = s'
      · subst hss
        rw [hq] at hs
        exact Or.inl ⟨rfl, mem_of_ne_of_mem hhead hs⟩
      · exact Or.inr ⟨hss, hs⟩
    | returns _ _ _ _ _ | requeues _ _ _ _ _ =>
      exact Or.inl ⟨s, mem_pushDirty.2 (Or.inl hs)⟩
    | _ => exact Or.inl ⟨s, hs⟩
  · exact Or.inr (Or.inr (Or.inl ⟨q, a, ha, hpush⟩))
  by_cases hqp : p = q
  · subst hqp
    cases hf.symm.trans hg
    rw [carried_eq] at hmem
    obtain ⟨d, hd, heq⟩ := mem_map.1 hmem
    rcases h.hand_kept hok.drained_nil hd with hkept | hback | hstale | ⟨hacc, hdrained⟩
    · refine Or.inr (hhands ?_)
      rw [carried_eq, ← heq]
      exact mem_map_of_mem hkept
    · rw [heq] at hback
      exact Or.inr (Or.inl ⟨_, hback⟩)
    · obtain ⟨r, hr, hv⟩ := hcurrent
      rw [heq] at hstale
      exact absurd hv (hstale r hr)
    obtain ⟨y, hy, hentry, hrec⟩ := hok.drained_mem d hdrained
    have hsame : y = x := by
      refine hi.unique y hy x hx ?_
      exact congrArg DirtyEntry.version (hentry.symm.trans heq)
    rw [hsame] at hrec
    rw [hacc]
    exact Or.inl (mem_append_right _ hrec)
  · exact Or.inr (Or.inr (Or.inr ⟨q, g, getElem?_set_other hg hqp, hmem⟩))

variable {pc : WriterPc}

/-- A writer loses no entry. -/
theorem underway_writes {full : Bool} (ha : w.writers[p]? = some a)
    (h : WriterMoves w.cache a full c pc landed)
    (hp : Underway w x) : Underway (w.wrote p a c pc landed) x := by
  rcases hp with ⟨s, hs⟩ | ⟨q, b, hb, hpush, hentry⟩ | hflush
  · refine Or.inl ⟨s, ?_⟩
    cases h with
    | pushes n hpc => exact mem_pushDirty.2 (Or.inl hs)
    | _ => exact hs
  · by_cases hqp : p = q
    · subst hqp
      cases ha.symm.trans hb
      cases h with
      | ticks hpc | refused _ hpc | lands _ hpc _ => cases hpc.symm.trans hpush
      | pushes n hpc =>
        cases hpc.symm.trans hpush
        exact Or.inl ⟨_, mem_pushDirty.2 (Or.inr ⟨rfl, hentry.symm⟩)⟩
      | rests => exact Or.inr (Or.inl ⟨p, a, getElem?_set_new ha, hpush, hentry⟩)
    · exact Or.inr (Or.inl ⟨q, b, getElem?_set_other hb hqp, hpush, hentry⟩)
  · exact Or.inr (Or.inr hflush)

omit [DecidableEq K] in
/-- A dirty write that lands is about to push. -/
theorem underway_lands (ha : w.writers[p]? = some a) (n : Nat)
    (hdirty : a.queueDirty = true) : Underway { w with
      cache := c
      writers := w.writers.set p { a with
        pc := if a.queueDirty then .push n else .done (.ok n) }
      landed := landed } ⟨a.key, a.value, n, a.op, a.queueDirty⟩ := by
  refine Or.inr (Or.inl ⟨p, _, getElem?_set_new ha, ?_, rfl⟩)
  show (if a.queueDirty then WriterPc.push n else _) = _
  rw [hdirty]
  rfl

omit [DecidableEq K] in
theorem Underway.begins (hp : Underway w x) (a : Writer K V) :
    Underway { w with writers := w.writers ++ [a] } x := by
  rcases hp with hq | ⟨q, b, hb, hrest⟩ | hfl
  · exact Or.inl hq
  · exact Or.inr (Or.inl ⟨q, b, getElem?_append_old hb, hrest⟩)
  · exact Or.inr (Or.inr hfl)

omit [DecidableEq K] in
theorem Underway.beginsFlush (hp : Underway w x) (f : Flusher K V ε) :
    Underway { w with flushers := w.flushers ++ [f] } x := by
  rcases hp with hq | hwr | ⟨q, g, hg, hmem⟩
  · exact Or.inl hq
  · exact Or.inr (Or.inl hwr)
  · exact Or.inr (Or.inr ⟨q, g, getElem?_append_old hg, hmem⟩)

-- ===== the steps

theorem Kept.flushes (hk : Kept key w) (hi : ThreadInv w) (hf : w.flushers[p]? = some f)
    (h : FlusherMoves w.cache f c f' accepted) :
    Kept key (w.flushed p c f' accepted) := by
  constructor
  · intro q g hg hremove
    rcases getElem?_set_cases hg with ⟨rfl, rfl⟩ | ⟨-, hold⟩
    · rcases h.removing_cases hremove with hbefore | ⟨-, -, r, -, hr, -, hnone⟩
      · exact hk.removing hf hbefore
      · obtain ⟨y, hlast, -, hvalue⟩ := hi.stored hr
        exact ⟨y, hlast, hvalue.symm.trans hnone⟩
    · exact hk.removing hold hremove
  · intro x hlast hvalue
    rcases h.map_cases key with heq | ⟨-, hremove⟩
    · obtain ⟨r, hr⟩ := hk.live x hlast hvalue
      exact ⟨r, heq.trans hr⟩
    -- a removal outside every window takes out a tombstone
    obtain ⟨y, hlast', hnone⟩ := hk.removing hf hremove
    cases hlast.symm.trans hlast'
    rw [hnone] at hvalue
    cases hvalue
  · intro x hlast hvalue hdirty
    obtain ⟨hx, hkey⟩ := lastLanded_mem hlast
    rcases hk.held x hlast hvalue hdirty with hacc | hpend
    · exact Or.inl (mem_append_left _ hacc)
    refine hi.underway_flushes hf h hx ?_ hpend
    obtain ⟨r, hr⟩ := hk.live x hlast hvalue
    obtain ⟨y, hlast', hversion, -⟩ := hi.stored hr
    cases hlast.symm.trans hlast'
    exact ⟨r, by rw [hkey]; exact hr, hversion⟩

theorem Kept.writes (hk : Kept key w) {full : Bool} (ha : w.writers[p]? = some a)
    (h : WriterMoves w.cache a full c pc landed)
    (hclear : Clear key w (.writer p full)) :
    Kept key (w.wrote p a c pc landed) := by
  have hunderway := fun x => underway_writes (x := x) ha h
  -- a write that does not touch the key
  have hother : lastLanded (w.landed ++ landed) key = lastLanded w.landed key →
      c.map key = w.cache.map key → Kept key (w.wrote p a c pc landed) := by
    intro hlast hmap
    constructor
    · intro q g hg hremove
      obtain ⟨x, hx, hnone⟩ := hk.removing hg hremove
      exact ⟨x, hlast.trans hx, hnone⟩
    · intro x hx hvalue
      obtain ⟨r, hr⟩ := hk.live x (hlast.symm.trans hx) hvalue
      exact ⟨r, hmap.trans hr⟩
    · intro x hx hvalue hdirty
      rcases hk.held x (hlast.symm.trans hx) hvalue hdirty with hacc | hpend
      · exact Or.inl hacc
      · exact Or.inr (hunderway x hpend)
  cases h with
  | lands n hpc hfull =>
    by_cases hkey : a.key = key
    · have hlast : lastLanded (w.landed ++ [⟨a.key, a.value, n, a.op, a.queueDirty⟩]) key
          = some ⟨a.key, a.value, n, a.op, a.queueDirty⟩ := by
        rw [lastLanded_append]
        exact if_pos hkey
      constructor
      · intro q g hg hremove
        subst hfull
        have hinserts : a.pc.inserting = true := by rw [hpc]; rfl
        exact absurd hremove (hclear a ha hkey hinserts g (mem_of_getElem? hg))
      · intro x hx hvalue
        refine ⟨⟨a.value, n, n⟩, ?_⟩
        show update w.cache.map a.key _ key = _
        rw [hkey]
        exact update_self _ _ _
      · intro x hx hvalue hdirty
        cases hlast.symm.trans hx
        exact Or.inr (underway_lands ha n hdirty)
    · refine hother ?_ ?_
      · rw [lastLanded_append]
        exact if_neg hkey
      · exact update_of_ne (Ne.symm hkey) _ _
  | _ => exact hother (by rw [append_nil]) rfl

theorem Kept.step {action : Action K V ε} {w' : World K V ε} (hk : Kept key w) (hi : ThreadInv w)
    (h : WorldMoves w action w') (hclear : Clear key w action) : Kept key w' := by
  cases h with
  | begins _ a hpc =>
    refine ⟨hk.removing, hk.live, ?_⟩
    intro x hlast hvalue hdirty
    rcases hk.held x hlast hvalue hdirty with hacc | hpend
    · exact Or.inl hacc
    · exact Or.inr (hpend.begins a)
  | beginsFlush _ range idleTicks maxRecords =>
    refine ⟨?_, hk.live, ?_⟩
    · intro q g hg hremove
      rcases getElem?_append_cases hg with hold | rfl
      · exact hk.removing hold hremove
      · cases hremove
    · intro x hlast hvalue hdirty
      rcases hk.held x hlast hvalue hdirty with hacc | hpend
      · exact Or.inl hacc
      · exact Or.inr (hpend.beginsFlush _)
  | idles _ => exact hk
  | writes p full a c pc landed ha h => exact hk.writes ha h hclear
  | flushes p backend f c f' accepted hf h => exact hk.flushes hi hf h

omit [DecidableEq K] in
/-- When all calls have returned, an entry under way is queued. -/
theorem Quiet.queued (hquiet : Quiet w) (hp : Underway w x) :
    ∃ s, x.entryOf ∈ w.cache.dirtyShards s := by
  rcases hp with hq | ⟨p, a, ha, hpush, -⟩ | ⟨p, f, hf, hmem⟩
  · exact hq
  · have hdone := hquiet.1 a (mem_of_getElem? ha)
    rw [hpush] at hdone
    cases hdone
  have hdone := hquiet.2 f (mem_of_getElem? hf)
  generalize f.pc = pc at hdone hmem
  cases pc with
  | done result => cases hmem
  | _ => cases hdone

end

-- ===== whole runs

/-- A key none of whose writes lands in a window keeps its last put. -/
theorem put_kept (hash : K → UInt64) (shards queueCapacity : Nat) (key : K)
    (actions : List (Action K V ε))
    (hclear : Lib.Guarded worldStep (Clear key) (fresh hash shards queueCapacity) actions)
    (hquiet : Quiet (Lib.exec worldStep (fresh hash shards queueCapacity) actions)) :
    PutKept (Lib.exec worldStep (fresh hash shards queueCapacity) actions)
      key := by
  let inv : World K V ε → Prop := fun w => ThreadInv w ∧ Kept key w
  have hstart : inv (fresh hash shards queueCapacity) :=
    ⟨threadInv_fresh hash shards queueCapacity, nofun, nofun, nofun⟩
  obtain ⟨hi, hk⟩ := exec_inv inv
    (fun w action hw hg =>
      have h := worldStep_moves w action
      ⟨hw.1.step h, hw.2.step hw.1 h hg⟩)
    hstart hclear
  intro x hlast hvalue
  constructor
  · obtain ⟨r, hr⟩ := hk.live x hlast hvalue
    obtain ⟨y, hlast', -, heq⟩ := hi.stored hr
    cases hlast.symm.trans hlast'
    rw [get_snd, hr]
    exact heq
  · intro hdirty
    rcases hk.held x hlast hvalue hdirty with hacc | hpend
    · exact Or.inl hacc
    · exact Or.inr (hquiet.queued hpend)

-- ===== in and after a window

/-- A delete, and a flush of it up to the look at its tombstone. -/
def flushedDelete : List (Action Nat Nat Unit) :=
  [.delete 1, .writer 0 false, .writer 0 false, .writer 0 false,
    .flushIdle 0 10, .flusher 0 (.ok ()), .flusher 0 (.ok ()),
    .flusher 0 (.ok ()), .flusher 0 (.ok ()), .flusher 0 (.ok ()),
    .flusher 0 (.ok ())]

/-- A put, from its call to its return. -/
def wholePut : List (Action Nat Nat Unit) :=
  [.put 1 7, .writer 1 false, .writer 1 false, .writer 1 false]

/-- The put comes after the removal. -/
theorem put_kept_after_removal : PutKept (Lib.exec worldStep (fresh (fun _ => 0) 1 64)
      (flushedDelete ++ .flusher 0 (.ok ()) :: wholePut)) 1 :=
  put_kept (fun _ => 0) 1 64 1 _ (by decide +kernel) (by decide +kernel)

/-- The put comes between the look at the tombstone and the removal, and
is gone. -/
theorem put_removed_in_window : Quiet (Lib.exec worldStep (fresh (fun _ => 0) 1 64)
        (flushedDelete ++ wholePut ++ [.flusher 0 (.ok ())]))
      ∧ ¬ PutKept (Lib.exec worldStep (fresh (fun _ => 0) 1 64)
        (flushedDelete ++ wholePut ++ [.flusher 0 (.ok ())])) 1 := by
  refine ⟨by decide +kernel, fun hkept => ?_⟩
  have hread := (hkept ⟨1, some 7, 2, .put, true⟩ (by decide +kernel) rfl).1
  exact absurd hread (by decide +kernel)

end MemoryFirst.Core.WriteBehindCache
