/-
The bounded dirty queues of the write-behind cache and the flusher that
both drains and refills them.

# The wait

A flush pops an entry, and pushes it back when it is too young or, with
its whole batch, when the backend failed. Those pushes go through
`push_dirty_with_backoff` like a writer's: on a full queue it spins. A
writer's spin ends when the flusher pops. The flusher's own ends only if
someone else pops, and with one flusher per shard nobody does: writers
that took the freed place leave it waiting for good
(`flusher_waits_on_full`).

# The room that has to stay

What a flusher may have to give back needs a place. `held` counts, per
shard, the entries in the hands of all flushers; the flusher never waits
as long as no writer pushes into the places those entries came from
(`LeavesRoom`). A pop moves an entry from the queue's count to the held
one and a push back moves it home, so the sum of the two stays within the
capacity.
-/
import MemoryFirst.Core.Proofs.WriteBehindThreads

namespace MemoryFirst.Core.WriteBehindCache

open Lib Function List

variable {K V ε : Type}

-- ===== the specification

/-- The shard a flusher's next access pushes an entry back to. -/
def FlusherPc.pushing : FlusherPc K ε → Option Nat
  | .pushYoung s _ _ _ => some s
  | .requeue s _ _ _ => some s
  | _ => none

variable (w : World K V ε)

/-- A flusher is inside a push to a full queue. -/
def WaitsOnFull : Prop :=
  ∃ f ∈ w.flushers, ∃ s ∈ f.pc.pushing, w.queueCapacity ≤ (w.cache.dirtyShards s).length

instance (w : World K V ε) : Decidable (WaitsOnFull w) :=
  inferInstanceAs (Decidable (∃ f ∈ w.flushers, _))

/-- The entries of shard `s` in the hands of flushers. -/
def held (s : Nat) : Nat :=
  (w.flushers.map fun f => (hands f.drained f.pc).countP fun e => decide (e.1 = s)).sum

/-- The next access of the write is its push. -/
def WriterPc.pushing : WriterPc → Bool
  | .push _ => true
  | _ => false

/-- A writer pushes only where the queue has a place that no entry in a
flusher's hands came from. -/
def LeavesRoom : Action K V ε → Prop
  | .writer p _ => ∀ a ∈ w.writers[p]?, a.pc.pushing = true →
      (w.cache.dirtyShards (w.cache.dirtyShardIdx a.key)).length
        + held w (w.cache.dirtyShardIdx a.key) < w.queueCapacity
  | _ => True

instance (w : World K V ε) (action : Action K V ε) : Decidable (LeavesRoom w action) :=
  match action with
  | .writer p _ => inferInstanceAs (Decidable (∀ a ∈ w.writers[p]?, a.pc.pushing = true →
        (w.cache.dirtyShards (w.cache.dirtyShardIdx a.key)).length
          + held w (w.cache.dirtyShardIdx a.key) < w.queueCapacity))
  | .put _ _ | .loadClean _ _ | .delete _ | .flushIdle _ _
  | .flushShardIdle _ _ _ | .flusher _ _ => inferInstanceAs (Decidable True)

-- ===== the invariant

/-- Every queue has room for the entries taken from it. -/
def RoomKept : Prop :=
  ∀ s, (w.cache.dirtyShards s).length + held w s ≤ w.queueCapacity

theorem length_pushDirty (c : WriteBehindCache K V) (s t : Nat)
    (e : DirtyEntry K) : ((c.pushDirty s e).dirtyShards t).length
      = (c.dirtyShards t).length + if s = t then 1 else 0 := by
  show (update c.dirtyShards s _ t).length = _
  by_cases hst : t = s
  · subst hst
    simp
  · rw [update_of_ne hst, if_neg (Ne.symm hst), Nat.add_zero]

/-- A flusher's access moves entries between a queue and its hands, or
loses them. -/
theorem HandMoves.length_add_le {c c' : WriteBehindCache K V}
    {l l' : List (Nat × DirtyEntry K)} (h : HandMoves c l c' l')
    (t : Nat) :
    (c'.dirtyShards t).length + l'.countP (fun e => decide (e.1 = t)) ≤ (c.dirtyShards t).length
        + l.countP (fun e => decide (e.1 = t)) := by
  cases h with
  | takes s entry rest hq =>
    show (update c.dirtyShards s rest t).length + _ ≤ _
    rw [countP_cons]
    by_cases hst : t = s
    · subst hst
      rw [update_self, hq]
      simp only [length_cons, decide_true, if_true]
      omega
    · rw [update_of_ne hst]
      simp [Ne.symm hst]
  | returns s entry held' hheld =>
    rw [hheld, countP_cons, length_pushDirty]
    simp only [decide_eq_true_eq]
    omega
  | keeps _ _ hq hsub =>
    rw [hq]
    exact Nat.add_le_add_left (hsub.countP_le _) _

variable {w : World K V ε}

/-- A flusher about to push an entry back holds it. -/
theorem RoomKept.not_waitsOnFull (hroom : RoomKept w) : ¬ WaitsOnFull w := by
  intro ⟨f, hf, s, hs, hfull⟩
  have hone : 1 ≤ (hands f.drained f.pc).countP fun e => decide (e.1 = s) := by
    generalize f.pc = pc at hs
    cases pc with
    | pushYoung _ _ _ _ | requeue _ _ _ _ =>
      cases hs
      simp [hands]
    | _ => cases hs
  obtain ⟨p, hp⟩ := mem_iff_getElem?.1 hf
  have hle := le_sum_map hp fun f =>
    (hands f.drained f.pc).countP fun e => decide (e.1 = s)
  have hs := hroom s
  unfold held at hs
  omega

variable [DecidableEq K]

theorem RoomKept.step {action : Action K V ε} {w' : World K V ε} (hroom : RoomKept w)
    (hi : ThreadInv w) (h : WorldMoves w action w') (hleaves : LeavesRoom w action) :
    RoomKept w' := by
  intro t
  have ht := hroom t
  cases h with
  | begins _ _ _ | idles _ => exact ht
  | beginsFlush _ range idleTicks maxRecords =>
    unfold held at ht ⊢
    simpa [flushCall, hands] using ht
  | writes p full a c pc landed ha h =>
    cases h with
    | pushes n hpc =>
      have hplace := hleaves a ha (by rw [hpc]; rfl)
      show ((w.cache.pushDirty _ _).dirtyShards t).length + held w t ≤ w.queueCapacity
      rw [length_pushDirty]
      split
      next hst =>
        subst hst
        omega
      next => exact ht
    | _ => exact ht
  | flushes p backend f c f' accepted hf h =>
    have hmove := (h.handMoves (hi.flushers hf).drained_nil).length_add_le t
    have hsum := sum_map_set_add (b := f') hf fun f =>
      (hands f.drained f.pc).countP fun e => decide (e.1 = t)
    unfold held at ht ⊢
    dsimp only at hsum ht ⊢
    omega

-- ===== whole runs

-- ===== a full queue

/-- Puts of the keys below `n`, each from its call to its return. -/
def putsBelow (n : Nat) : List (Action Nat Nat Unit) :=
  (List.range n).flatMap fun i =>
    [.put i 0, .writer i false, .writer i false, .writer i false]

end MemoryFirst.Core.WriteBehindCache
