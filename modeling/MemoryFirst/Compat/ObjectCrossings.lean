/-
Concurrent commands on one mutable object store: what value, metadata and
backend agree on once everything has come to rest.

# What is expected

When all calls have returned, no flush is under way and the queues are
empty, a key has a value exactly when it has live metadata, and the last
record the backend received of a written key is its value, or a delete if
it has none.

# What happens

A command holds no lock from its change of the value to its mark, so a
put and a delete of one key can cross. If the delete removes the value
the put has stored and marks first, the mark of the put comes last: the
key is left with the metadata of a put and without a value, and the flush
drops both entries, one as outdated and the other for want of a value
(`crossed_put_without_value`). The other crossing is harmless: the delete
marks last, and the flush takes out its tombstone and the value with it.

Without such a crossing the store settles (`settled_of_no_crossing`).
-/
import MemoryFirst.Compat.ObjectRuns
import MemoryFirst.Compat.Proofs.ObjectThreads

namespace MemoryFirst.Compat.ObjectThreads

open Lib Store Core MfsMutableObjectStore

-- ===== the specification

/-- All calls have returned and everything is flushed. -/
def Settled (w : World) : Prop :=
  (∀ t ∈ w.threads, t.returned = true) ∧ w.flushers = [] ∧ w.store.pending = []

instance (w : World) : Decidable (Settled w) :=
  inferInstanceAs (Decidable (_ ∧ _ ∧ _))

/-- The record tells what the store has for its key. -/
def Tells (r : ObjectFlushRecord) : Option MutableObjectValue → Prop
  | some value => r.op = .put ∧ r.value = some value.toMfsValue
  | none => r.op = .delete

/-- Values, metadata and backend agree. -/
def Agrees (w : World) : Prop :=
  ObjectRuns.Present w.store ∧ ∀ k, w.written k = true →
      ∃ r, lastDelivered w.received k = some r ∧ Tells r (w.store.value? k)

-- ===== the defect

/-- A put stores its value, a delete removes it and is marked, and then
the put is marked. -/
def crossing : List Action :=
  [.call (putMutable [1] (.direct (.integer 7))), .call (delete [1]),
    .thread 0, .thread 1, .thread 1, .thread 0, .drain 0 2, .finish 0]

theorem crossed_put_without_value : Settled (exec worldStep (World.init fun _ => 0) crossing)
      ∧ (exec worldStep (World.init fun _ => 0) crossing).store.value? [1] = none
      ∧ (exec worldStep (World.init fun _ => 0) crossing).store.currentMeta
        [1] = some ⟨2, 2, 0, 0, false⟩
      ∧ (exec worldStep (World.init fun _ => 0) crossing).written [1] = true
      ∧ (exec worldStep (World.init fun _ => 0) crossing).received = [] := by
  decide +kernel

-- ===== the result

variable {w : World}

theorem Settled.not_marking (h : Settled w) (k : Key)
    (op : Operation) : ¬ Marking w.threads k op := by
  rintro ⟨t, ht, hmarks⟩
  have hreturned := h.1 t ht
  cases t with
  | done reply => cases hmarks
  | _ => cases hreturned

/-- At rest, metadata are live and the backend has their version. -/
theorem World.Coherent.delivered (h : w.Coherent) (hs : Settled w) {k : Key} {m : MutableObjectMeta}
    (hm : w.store.currentMeta k = some m) :
    m.tombstone = false ∧ ∃ r ∈ w.received, r.key = k ∧ r.version = m.version := by
  rcases h.queued k m hm with ⟨e, he, -⟩ | hdone
  · rw [hs.2.1, hs.2.2] at he
    simp at he
  · exact hdone

theorem World.Coherent.agrees (h : w.Coherent) (hs : Settled w) : Agrees w := by
  refine ⟨fun k => ⟨fun hv => ?_, fun ⟨m, hm, hlive⟩ => ?_⟩, fun k hk => ?_⟩
  · rcases h.valued k hv with hsome | ⟨op, hop⟩
    · obtain ⟨m, hm⟩ := Option.isSome_iff_exists.1 hsome
      exact ⟨m, hm, (h.delivered hs hm).1⟩
    · exact absurd hop (hs.not_marking k op)
  · exact (h.live k m hm hlive).resolve_right (hs.not_marking k .delete)
  · cases hm : w.store.currentMeta k with
    | none =>
      -- without metadata the key has no value, and was sent as a delete
      obtain ⟨r, hlast, hop, -⟩ := h.gone k hk hm
      refine ⟨r, hlast, ?_⟩
      cases hv : w.store.value? k with
      | none => exact hop
      | some value =>
        rcases h.valued k (hv ▸ rfl) with hsome | ⟨op, hop⟩
        · rw [hm] at hsome
          cases hsome
        · exact absurd hop (hs.not_marking k op)
    | some m =>
      obtain ⟨hlive, r, hr, hkey, hversion⟩ := h.delivered hs hm
      obtain ⟨last, hlast, hop, hvalue⟩ := Coherent.last_eq h hm (hs.not_marking k) hr hkey hversion
      have hsome := (h.live k m hm hlive).resolve_right (hs.not_marking k .delete)
      obtain ⟨value, hv⟩ := Option.isSome_iff_exists.1 hsome
      refine ⟨last, hlast, ?_⟩
      rw [hv]
      refine ⟨?_, ?_⟩
      · rw [hop]
        simp [recordOf, hlive]
      · rw [hvalue]
        simp [recordOf, hlive, hv]

/-- However calls and flushes interleave, as long as no value is removed
under a put that is about to be marked and flushes do not overlap: once
everything is at rest, values, metadata and backend agree. -/
theorem settled_of_no_crossing (hashBuilder : Key → UInt64) (actions : List Action)
    (hguard : Guarded worldStep NoCrossing (World.init hashBuilder) actions)
    (hsettled : Settled (exec worldStep (World.init hashBuilder) actions)) :
    Agrees (exec worldStep (World.init hashBuilder) actions) :=
  (coherent_run hashBuilder hguard).agrees hsettled

/-- Two puts of one key cross, a delete of another key comes between, and
the first batch is refused after one record was taken. -/
def uncrossed : List Action :=
  [.call (putMutable [1] (.direct (.integer 7))),
    .call (putMutable [1] (.direct (.integer 8))), .call (delete [2]),
    .thread 0, .thread 1, .thread 2, .thread 1, .thread 2, .thread 0,
    .drain 0 3, .answer 0 (.error 1), .finish 0,
    .drain 0 2, .answer 0 (.ok ()), .finish 0]

theorem settled_of_no_crossing_two_puts :
    Guarded worldStep NoCrossing (World.init fun _ => 0) uncrossed
      ∧ Settled (exec worldStep (World.init fun _ => 0) uncrossed)
      ∧ Agrees (exec worldStep (World.init fun _ => 0) uncrossed) := by
  have hguard : Guarded worldStep NoCrossing (World.init fun _ => 0)
      uncrossed := by decide +kernel
  have hsettled : Settled (exec worldStep (World.init fun _ => 0) uncrossed) := by decide +kernel
  exact ⟨hguard, hsettled, settled_of_no_crossing (fun _ => 0) uncrossed hguard hsettled⟩

end MemoryFirst.Compat.ObjectThreads
