/-
`mfs-compat/src/page_store.rs`: the advisory locks of the connections of
an in-memory page store on one of its files. Each call runs under the
store's mutex, so calls come one after another.

`locks_safe` says what SQLite relies on: one writer at most, an exclusive
lock excludes every other, the stronger modes come with the weaker ones,
and a pending lock keeps new readers out.
-/
import MemoryFirst.Lib.Runs
import Mathlib.Data.Finset.Basic

namespace MemoryFirst.Compat.PageStore

open Lib

inductive LockMode
  | shared
  | reserved
  | pending
  | exclusive

structure LockState where
  shared : Finset UInt64 := ∅
  reserved : Option UInt64 := none
  pending : Option UInt64 := none
  exclusive : Option UInt64 := none
  deriving DecidableEq

namespace LockState

variable (s : LockState) (owner : UInt64)

/-- Another connection holds the lock. -/
def heldByOther (held : Option UInt64) : Bool := held.any (· ≠ owner)

/-- What the four requests share. -/
def request (refused : Bool) (granted : LockState) : LockState × Bool :=
  if refused then (s, false) else (granted, true)

def lockShared : LockState × Bool :=
  s.request (heldByOther owner s.exclusive || heldByOther owner s.pending)
    { s with shared := insert owner s.shared }

def lockReserved : LockState × Bool :=
  s.request (heldByOther owner s.exclusive || heldByOther owner s.reserved)
    { s with shared := insert owner s.shared, reserved := some owner }

def lockPending : LockState × Bool :=
  s.request (heldByOther owner s.exclusive || heldByOther owner s.pending
      || heldByOther owner s.reserved)
    { s with shared := insert owner s.shared, reserved := some owner, pending := some owner }

def lockExclusive : LockState × Bool :=
  s.request (heldByOther owner s.exclusive || heldByOther owner s.pending
      || heldByOther owner s.reserved || decide (∃ held ∈ s.shared, held ≠ owner))
    ⟨insert owner s.shared, some owner, some owner, some owner⟩

def lock : LockMode → LockState × Bool
  | .shared => s.lockShared owner
  | .reserved => s.lockReserved owner
  | .pending => s.lockPending owner
  | .exclusive => s.lockExclusive owner

def unlock : LockState where
  shared := s.shared.erase owner
  reserved := if s.reserved = some owner then none else s.reserved
  pending := if s.pending = some owner then none else s.pending
  exclusive := if s.exclusive = some owner then none else s.exclusive

/-- The connection holds the lock. -/
def Holds : LockMode → Prop
  | .shared => owner ∈ s.shared
  | .reserved => s.reserved = some owner
  | .pending => s.pending = some owner
  | .exclusive => s.exclusive = some owner

end LockState

/-- A call of the connection `owner`. -/
inductive Call
  | lock (owner : UInt64) (mode : LockMode)
  | unlock (owner : UInt64)

/-- One call on the entry of the file, which is there while it has locks.
A refused one reports the conflict. -/
def call (entry : Option LockState) : Call → Option LockState × Bool
  | .lock owner mode =>
    let (state, accepted) := (entry.getD {}).lock owner mode
    (some state, accepted)
  | .unlock owner =>
    match entry with
    | none => (none, true)
    | some state =>
      let state := state.unlock owner
      (if state = {} then none else some state, true)

-- ===== one call

namespace LockState

/-- Each mode comes with the weaker ones, and an exclusive holder is the
only one. -/
structure Sound (s : LockState) : Prop where
  reserved : ∀ o, s.reserved = some o → o ∈ s.shared
  pending : ∀ o, s.pending = some o → s.reserved = some o
  exclusive : ∀ o, s.exclusive = some o → s.pending = some o ∧ ∀ o' ∈ s.shared, o' = o

variable {s : LockState}

/-- A request leaves the locks as they are, or is granted: the connection
gets its modes, each with the weaker ones, and no other had one of them. -/
theorem lock_cases (hs : s.Sound) (owner : UInt64) (mode : LockMode) :
    s.lock owner mode = (s, false)
    ∨ (s.lock owner mode).2 = true ∧ (s.lock owner mode).1.Sound
      ∧ (s.lock owner mode).1.shared = insert owner s.shared
      ∧ ∀ o, s.pending = some o → o = owner := by
  obtain ⟨hr, hp, he⟩ := hs
  cases mode <;> simp only [lock, lockShared, lockReserved, lockPending, lockExclusive, request]
  all_goals
    split
    · exact Or.inl rfl
    · refine Or.inr ⟨rfl, ⟨?_, ?_, ?_⟩, rfl, ?_⟩ <;> simp_all [heldByOther] <;> grind

theorem Sound.unlock (hs : s.Sound) (owner : UInt64) : (s.unlock owner).Sound := by
  obtain ⟨hr, hp, he⟩ := hs
  constructor <;> simp only [LockState.unlock] <;> grind

end LockState

theorem call_unlock (entry : Option LockState) (owner : UInt64) :
    (call entry (.unlock owner)).1.getD {} = (entry.getD {}).unlock owner := by
  cases entry with
  | none => simp [call, LockState.unlock]
  | some s => by_cases h : s.unlock owner = {} <;> simp [call, h]

-- ===== every run

/-- In every state that calls can reach. -/
theorem locks_safe (calls : List Call) (o : UInt64) :
    let entry := exec call none calls
    let s := entry.getD {}
    (∀ o' mode mode', mode ≠ .shared → mode' ≠ .shared → s.Holds o mode → s.Holds o' mode' → o' = o)
      ∧ (s.Holds o .exclusive → (∀ o' mode, s.Holds o' mode → o' = o) ∧ s.Holds o .pending)
      ∧ (s.Holds o .pending → s.Holds o .reserved ∧ s.Holds o .shared
        ∧ ∀ c, ∀ o' ≠ o, ((call entry c).1.getD {}).Holds o' .shared → s.Holds o' .shared)
      ∧ ∀ c, (call entry c).2 = false → (call entry c).1.getD {} = s := by
  intro entry s
  have hs : s.Sound := by
    refine exec_inv (fun entry : Option LockState => (entry.getD {}).Sound)
      (fun entry c hs _ => ?_) ⟨nofun, nofun, nofun⟩ (guarded_true _ _)
    cases c with
    | lock owner mode =>
      rcases LockState.lock_cases hs owner mode with h | ⟨-, hs', -⟩
      · simpa [call, h] using hs
      · exact hs'
    | unlock owner =>
      rw [call_unlock]
      exact hs.unlock owner
  have hr := hs.reserved
  have hp := hs.pending
  have he := hs.exclusive
  refine ⟨fun o' mode mode' hm hm' h h' => ?_, fun h => ⟨fun o' mode h' => ?_, (he o h).1⟩,
    fun h => ⟨hp o h, hr o (hp o h), fun c o' hne hshared => ?_⟩, fun c hfalse => ?_⟩
  · cases mode <;> cases mode' <;> simp only [LockState.Holds] at h h' <;> grind
  · cases mode <;> simp only [LockState.Holds] at h h' <;> grind
  · cases c with
    | lock owner mode =>
      rcases LockState.lock_cases hs owner mode with hlock | ⟨-, -, hinsert, hpending⟩
      · rwa [call, hlock] at hshared
      have hmem : o' ∈ insert owner s.shared := hinsert ▸ hshared
      rcases Finset.mem_insert.1 hmem with rfl | hmem
      · exact absurd (hpending o h).symm hne
      · exact hmem
    | unlock owner =>
      rw [call_unlock] at hshared
      exact Finset.mem_of_mem_erase hshared
  · cases c with
    | lock owner mode =>
      rcases LockState.lock_cases hs owner mode with hlock | ⟨htrue, -⟩
      · exact congrArg Prod.fst hlock
      · exact absurd (hfalse.symm.trans htrue) nofun
    | unlock owner =>
      generalize entry = e at hfalse
      cases e <;> cases hfalse

end MemoryFirst.Compat.PageStore
