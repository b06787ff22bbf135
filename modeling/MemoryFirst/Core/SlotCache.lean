/-
`mfs-core/src/slot_writeback.rs`: a cache whose index gives each key a
slot. Slots come from a counter and from a queue of retired ones, and the
handle in the index carries the generation its slot had.

# What is modelled

`write` for puts, clean loads and deletes, and `get`, one call after
another. A loop that finds a slot locked, or of another generation, starts
over with nothing changed: with no other call to change the slot it spins.
The index is an ideal map, which refuses no insert, and what a call reads
again is as it was. The dirty rings, which only the flusher reads, are
left out; the clock that stamps their entries is the version of the delete
of an absent key.

# The result

No call spins, and the cache is a map bounded by the number of its slots
(`slots_refine_map`).
-/
import MemoryFirst.Core.SlotReads
import Mathlib.Data.List.FinRange
import Mathlib.Data.List.Perm.Subperm

namespace MemoryFirst.Core.SlotWriteBehindCache

open Lib Function List

structure Cache (K V : Type) where
  index : K → Option Handle
  slots : Nat → Slot V
  free : List Nat
  nextSlot : Nat
  clock : Nat

variable {K V : Type}

def Cache.fresh : Cache K V := ⟨fun _ => none, fun _ => ⟨0, 0, none⟩, [], 0, 1⟩

def nextDirtyTick (c : Cache K V) : Cache K V × Nat :=
  ({ c with clock := (c.clock + 1) % 2 ^ 64 }, c.clock)

def Cache.setSlot (c : Cache K V) (i : Nat) (slot : Slot V) : Cache K V :=
  { c with slots := update c.slots i slot }

def nextSlotOrRecycle (capacity : Nat) (c : Cache K V) : Option Nat × Cache K V :=
  match c.free with
  | i :: rest => (some i, { c with free := rest })
  | [] =>
    if capacity ≤ c.nextSlot then (none, { c with nextSlot := capacity })
    else (some c.nextSlot, { c with nextSlot := c.nextSlot + 1 })

variable (c : Cache K V)

def tryLockSlotGeneration (h : Handle) : Option (Cache K V) :=
  if (c.slots h.slot).generation = h.generation then
    some (c.setSlot h.slot { c.slots h.slot with generation := h.generation ||| 1 })
  else none

/-- The handle has the generation the slot had before. -/
def lockSlot (i : Nat) : Option (Cache K V × Handle) :=
  let handle : Handle := ⟨i, (c.slots i).generation⟩
  if handle.generation % 2 ≠ 0 then none
  else (tryLockSlotGeneration c handle).map fun c => (c, handle)

def unlockSlot (h : Handle) : Cache K V :=
  c.setSlot h.slot { c.slots h.slot with generation := h.generation }

def writeSlot (i : Nat) (value : V) (markDirty : Bool) : Cache K V × Nat :=
  let version := versionFromWord (c.slots i).word + 1
  let word := version * 2 % 2 ^ 64 + if markDirty then 1 else 0
  (c.setSlot i { c.slots i with value := some value, word := word }, version)

def retireLockedSlot (capacity : Nat) (c : Cache K V) (h : Handle) : Cache K V :=
  let word := (c.slots h.slot).word
  let c := c.setSlot h.slot ⟨(h.generation + 2) % 2 ^ 32, word - word % 2, none⟩
  if c.free.length < capacity then { c with free := c.free ++ [h.slot] } else c

def readArcHandle (c : Cache K V) (h : Handle) : Option V :=
  if (c.slots h.slot).generation = h.generation then (c.slots h.slot).value else none

def get (c : Cache K V) (key : K) : Option V := (c.index key).bind (readArcHandle c)

/-- A `store` is a put, which queues its key, or a clean load. -/
inductive Call (K V : Type) where
  | store (key : K) (value : V) (queueDirty : Bool)
  | delete (key : K)
  | get (key : K)

inductive Reply (V : Type) where
  | version (n : Nat)
  | capacityFull
  | value (v : Option V)
  | spins

section

variable [DecidableEq K] (capacity : Nat) (c : Cache K V)

/-- The key has a handle. -/
def overwrite (h : Handle) (value : V) (queueDirty : Bool) : Option (Cache K V × Reply V) :=
  (tryLockSlotGeneration c h).map fun c =>
    let c := if queueDirty then (nextDirtyTick c).1 else c
    let (c, version) := writeSlot c h.slot value queueDirty
    (unlockSlot c h, .version version)

/-- It has none. -/
def insertNew (key : K) (value : V) (queueDirty : Bool) : Option (Cache K V × Reply V) :=
  match nextSlotOrRecycle capacity c with
  | (none, c) => some (c, .capacityFull)
  | (some i, c) =>
    (lockSlot c i).map fun (c, h) =>
      let c := if queueDirty then (nextDirtyTick c).1 else c
      let (c, version) := writeSlot c i value queueDirty
      (unlockSlot { c with index := update c.index key (some h) } h, .version version)

def delete (key : K) : Option (Cache K V × Reply V) :=
  match c.index key with
  | none => some ((nextDirtyTick c).1, .version (nextDirtyTick c).2)
  | some h =>
    (tryLockSlotGeneration c h).map fun c =>
      let c := { c with index := update c.index key none }
      let version := versionFromWord (c.slots h.slot).word + 1
      (retireLockedSlot capacity (nextDirtyTick c).1 h, .version version)

/-- The calls; one that spins does not return. -/
def call : Call K V → Cache K V × Reply V
  | .store key value queueDirty =>
    match c.index key with
    | some h => (overwrite c h value queueDirty).getD (c, .spins)
    | none => (insertNew capacity c key value queueDirty).getD (c, .spins)
  | .delete key => (delete capacity c key).getD (c, .spins)
  | .get key => (c, .value (get c key))

/-- What a call with its reply makes of the map. -/
def applied (m : K → Option V) : Call K V × Reply V → K → Option V
  | (.get _, _) | (_, .capacityFull) => m
  | (.store key value _, _) => update m key (some value)
  | (.delete key, _) => update m key none

end

-- ===== the invariant

structure Sound (capacity : Nat) (c : Cache K V) : Prop where
  unlocked : ∀ i, (c.slots i).generation % 2 = 0
  current : ∀ k h, c.index k = some h → (c.slots h.slot).generation = h.generation
  used : ∀ k h, c.index k = some h → h.slot < c.nextSlot ∧ h.slot ∉ c.free
  distinct : ∀ k k' h h', c.index k = some h → c.index k' = some h' → h.slot = h'.slot → k = k'
  owned : ∀ i < c.nextSlot, i ∈ c.free ∨ ∃ k h, c.index k = some h ∧ h.slot = i
  free_lt : ∀ i ∈ c.free, i < c.nextSlot
  free_nodup : c.free.Nodup
  next_le : c.nextSlot ≤ capacity

attribute [local simp] unlockSlot writeSlot Cache.setSlot nextDirtyTick SlotWriteBehindCache.get
  readArcHandle update_apply

variable {capacity : Nat} {c : Cache K V} {key : K} {h : Handle}

/-- A key is in the slot. -/
def Owned (c : Cache K V) (i : Nat) : Prop := ∃ k h, c.index k = some h ∧ h.slot = i

/-- With a key in every slot there are as many keys as slots. -/
theorem Sound.keys (hs : Sound capacity c) (hall : ∀ i < capacity, Owned c i) :
    ∃ keys : List K, keys.Nodup ∧ keys.length = capacity ∧ ∀ k, k ∈ keys ↔ (c.index k).isSome := by
  choose owner handle howner hslot using hall
  refine ⟨ofFn fun i : Fin capacity => owner i i.2, ?_, length_ofFn, fun k => ?_⟩
  · refine nodup_ofFn.2 fun i j hij => Fin.ext ?_
    have hi := howner i i.2
    rw [show owner i i.2 = owner j j.2 from hij, howner j j.2] at hi
    rw [← hslot i i.2, ← hslot j j.2, Option.some.inj hi]
  · rw [mem_ofFn]
    constructor
    · intro hk
      obtain ⟨i, rfl⟩ := hk
      simp [howner i i.2]
    · intro hk
      obtain ⟨h, hk⟩ := Option.isSome_iff_exists.1 hk
      have hlt := Nat.lt_of_lt_of_le (hs.used k h hk).1 hs.next_le
      exact ⟨⟨h.slot, hlt⟩, hs.distinct _ _ _ _ (howner h.slot hlt) hk (hslot h.slot hlt)⟩

variable [DecidableEq K]

/-- The call keeps the invariant and leaves `key` with `value`. -/
def Leaves (capacity : Nat) (c : Cache K V) (key : K) (value : Option V)
    (done : Option (Cache K V × Reply V)) : Prop :=
  ∃ c' n, done = some (c', .version n) ∧ Sound capacity c'
    ∧ get c' = update (get c) key value

section

variable (hs : Sound capacity c)

include hs

theorem Sound.overwrite (hkey : c.index key = some h) (value : V)
    (dirty : Bool) : Leaves capacity c key (some value) (overwrite c h value dirty) := by
  have hgen := hs.current key h hkey
  have hother := hs.distinct key
  simp only [SlotWriteBehindCache.overwrite, tryLockSlotGeneration, if_pos hgen, Option.map_some]
  refine ⟨_, _, rfl, ?_, funext fun k => ?_⟩
  · obtain ⟨h1, h2, h3, h4, h5, h6, h7, h8⟩ := hs
    constructor <;> cases dirty <;> simp <;> grind
  · cases hk : c.index k <;> cases dirty <;> simp [hk] <;> grind

theorem Sound.delete (key : K) : Leaves capacity c key none (delete capacity c key) := by
  unfold SlotWriteBehindCache.delete
  split
  next hkey =>
    refine ⟨_, _, rfl, { hs with }, funext fun k => ?_⟩
    by_cases hk : k = key
    · simp [hk, hkey]
    · rw [update_of_ne hk]
      rfl
  next h hkey =>
    have hgen := hs.current key h hkey
    have hother := hs.distinct key
    -- the slot of the key is not in the queue, so there is room for it
    have hroom : c.free.length < capacity := by
      obtain ⟨hlt, hnot⟩ := hs.used key h hkey
      have hsub : h.slot :: c.free ⊆ range c.nextSlot := by
        simpa [subset_def, hlt] using hs.free_lt
      have hle := (subperm_of_subset (nodup_cons.2 ⟨hnot, hs.free_nodup⟩) hsub).length_le
      rw [length_range, length_cons] at hle
      exact Nat.lt_of_lt_of_le hle hs.next_le
    simp only [tryLockSlotGeneration, if_pos hgen, Option.map_some]
    refine ⟨_, _, rfl, ?_, funext fun k => ?_⟩
    · obtain ⟨h1, h2, h3, h4, h5, h6, h7, h8⟩ := hs
      constructor <;> simp [retireLockedSlot, hroom] <;> grind
    · by_cases hkk : k = key
      · simp [hkk, retireLockedSlot, hroom]
      · cases hk : c.index k <;> simp [hk, hkk, retireLockedSlot, hroom]
        grind

/-- The key gets a free slot, or the next one. -/
theorem Sound.insertAt (hkey : c.index key = none) {i next : Nat}
    {free : List Nat} (htake : nextSlotOrRecycle capacity c
      = (some i, { c with free := free, nextSlot := next }))
    (hslot : c.free = i :: free ∧ next = c.nextSlot
      ∨ c.free = free ∧ i = c.nextSlot ∧ next = i + 1 ∧ next ≤ capacity)
    (value : V) (dirty : Bool) :
    Leaves capacity c key (some value) (insertNew capacity c key value dirty) := by
  have heven := hs.unlocked i
  have hnew : ∀ k h, c.index k = some h → h.slot ≠ i := by
    intro k h hk
    have hused := hs.used k h hk
    grind
  have howned : ∀ j < next, j ∈ free ∨ ∃ k h,
      update c.index key (some ⟨i, (c.slots i).generation⟩) k = some h ∧ h.slot = j := by
    intro j hj
    by_cases hji : j = i
    · exact Or.inr ⟨key, _, update_self .., hji.symm⟩
    rcases hs.owned j (by omega) with hj | ⟨k, h, hk, hj⟩
    · left
      grind
    · refine Or.inr ⟨k, h, ?_, hj⟩
      rwa [update_of_ne (by grind)]
  simp only [insertNew, htake, lockSlot, tryLockSlotGeneration, heven, ne_eq, not_true, if_false,
    if_true, Option.map_some]
  refine ⟨_, _, rfl, ?_, funext fun k => ?_⟩
  · obtain ⟨h1, h2, h3, h4, h5, h6, h7, h8⟩ := hs
    refine ⟨?_, ?_, ?_, ?_, ?_, ?_, ?_, ?_⟩ <;> cases dirty <;> simp at howned ⊢ <;> grind
  · by_cases hkk : k = key
    · cases dirty <;> simp [hkk]
    · cases hk : c.index k <;> cases dirty <;> simp [hk, hkk] <;> grind

theorem Sound.insertNew (hkey : c.index key = none) (value : V)
    (dirty : Bool) : Leaves capacity c key (some value) (insertNew capacity c key value dirty)
      ∨ insertNew capacity c key value dirty = some (c, .capacityFull)
        ∧ ∀ i < capacity, Owned c i := by
  cases hfree : c.free with
  | cons i rest =>
    refine Or.inl (hs.insertAt hkey ?_ (Or.inl ⟨hfree, rfl⟩) value dirty)
    simp [nextSlotOrRecycle, hfree]
  | nil =>
    by_cases hfull : capacity ≤ c.nextSlot
    · have hnext := Nat.le_antisymm hs.next_le hfull
      have htake : nextSlotOrRecycle capacity c = (none, c) := by
        cases c
        simp_all [nextSlotOrRecycle]
      refine Or.inr ⟨by simp [SlotWriteBehindCache.insertNew, htake], fun j hj => ?_⟩
      exact (hs.owned j (hnext ▸ hj)).resolve_left (by simp [hfree])
    · refine Or.inl (hs.insertAt hkey ?_ (Or.inr ⟨hfree, rfl, rfl, Nat.not_le.1 hfull⟩) value dirty)
      simp [nextSlotOrRecycle, hfree, hfull]

-- ===== runs

attribute [local simp] SlotWriteBehindCache.call

theorem Sound.call (x : Call K V) :
    call capacity c x = (c, .capacityFull) ∧ (∀ i < capacity, Owned c i)
      ∨ ∃ c' reply, call capacity c x = (c', reply) ∧ Sound capacity c'
        ∧ reply ≠ .capacityFull ∧ reply ≠ .spins ∧ get c' = applied (get c) (x, reply) := by
  cases x with
  | get key => exact Or.inr ⟨c, _, rfl, hs, nofun, nofun, rfl⟩
  | delete key =>
    obtain ⟨c', n, hdone, hs', hget⟩ := hs.delete key
    exact Or.inr ⟨c', .version n, by simp [hdone], hs', nofun, nofun, hget⟩
  | store key value dirty =>
    cases hkey : c.index key with
    | some h =>
      obtain ⟨c', n, hdone, hs', hget⟩ := hs.overwrite hkey value dirty
      exact Or.inr ⟨c', .version n, by simp [hkey, hdone], hs', nofun, nofun, hget⟩
    | none =>
      rcases hs.insertNew hkey value dirty with ⟨c', n, hdone, hs', hget⟩ | ⟨hdone, hall⟩
      · exact Or.inr ⟨c', .version n, by simp [hkey, hdone], hs', nofun, nofun, hget⟩
      · exact Or.inl ⟨by simp [hkey, hdone], hall⟩

end

/-- Every call returns, the cache is the map of the stores that were not
refused, no two keys share a slot, a slot is in use, free or new, and a
store is refused, with no change, only when every slot has its key. -/
theorem slots_refine_map (capacity : Nat) (calls : List (Call K V)) :
    let c := exec (call capacity) .fresh calls
    let history := trace (call capacity) .fresh calls
    (∀ e ∈ history, e.2 ≠ .spins) ∧ get c = history.foldl applied (fun _ => none)
      ∧ (∀ k k' h h', c.index k = some h → c.index k' = some h' → h.slot = h'.slot → k = k')
      ∧ (∀ i < capacity, Owned c i ∧ i ∉ c.free ∧ i < c.nextSlot
        ∨ ¬ Owned c i ∧ i ∈ c.free ∧ i < c.nextSlot
        ∨ ¬ Owned c i ∧ i ∉ c.free ∧ c.nextSlot ≤ i)
      ∧ ∀ x, (call capacity c x).2 = .capacityFull → (call capacity c x).1 = c
        ∧ ∃ keys : List K, keys.Nodup ∧ keys.length = capacity
          ∧ ∀ k, k ∈ keys ↔ (c.index k).isSome := by
  intro c history
  obtain ⟨hs, hget, hreturns⟩ : Sound capacity c ∧ get c = history.foldl applied (fun _ => none)
      ∧ ∀ e ∈ history, e.2 ≠ .spins := by
    refine exec_sim
      (fun c history => Sound capacity c ∧ get c = history.foldl applied (fun _ => none)
      ∧ ∀ e ∈ history, e.2 ≠ .spins) (fun c history x h _ => ?_) (h := [])
      ⟨⟨fun _ => rfl, nofun, nofun, nofun, nofun, nofun, nodup_nil, Nat.zero_le _⟩, rfl, nofun⟩
      (guarded_true _ _)
    obtain ⟨hs, hget, hreturns⟩ := h
    rw [foldl_concat, ← hget]
    rcases hs.call x with ⟨hcall, -⟩ | ⟨c', reply, hcall, hs', -, hreply, hget'⟩
    · rw [hcall]
      refine ⟨hs, by cases x <;> rfl, ?_⟩
      simpa [or_imp, forall_and] using hreturns
    · rw [hcall]
      refine ⟨hs', hget', ?_⟩
      simpa [or_imp, forall_and, hreply] using hreturns
  refine ⟨hreturns, hget, hs.distinct, fun i _ => ?_, fun x hfull => ?_⟩
  · have hused : Owned c i → i < c.nextSlot ∧ i ∉ c.free := by
      intro howned
      obtain ⟨k, h, hk, rfl⟩ := howned
      exact hs.used k h hk
    have howned := hs.owned i
    have hfree := hs.free_lt i
    grind [Owned]
  · rcases hs.call x with ⟨hcall, hall⟩ | ⟨c', reply, hcall, -, hreply, -⟩
    · exact ⟨by rw [hcall], hs.keys hall⟩
    · rw [hcall] at hfull
      exact absurd hfull hreply

end MemoryFirst.Core.SlotWriteBehindCache
