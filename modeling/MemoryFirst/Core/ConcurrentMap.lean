/-
`mfs-core/src/concurrent_map.rs`, executed by one thread: the fixed
capacity open-addressed table with triangular probing, 7-bit tags and
tombstones.

# What is modelled

The table's own fields (`capacity`, `mask`, `probe_limit`, the tag array
`meta`, the entry array, `len`) and every operation that reads or writes
them. The two arrays are functions on slot numbers, read only below
`capacity`; the hasher is the field `hashBuilder`, an arbitrary function
into `u64`. The reclamation collector and its batch size touch neither
arrays nor results and are left out.

Calls run one after another, so each `compare_exchange` succeeds on the
value just read and the retry arms of the source are not reachable.

# The shared loop

The five probing loops of the source (`insert_inner`,
`can_insert_or_replace_inner`, `remove_inner`, `remove_if_value_inner`,
`get_with_hash`) differ only in what they do at one slot. Each is
`ConcurrentMap.probeKey` of its own visit function.
-/
import MemoryFirst.Lib.Probing
import Mathlib.Algebra.Order.Ring.Nat

namespace MemoryFirst.Core

open Function List

-- ===== machine arithmetic

/-- `usize::MAX` on the 64-bit targets the crate supports. -/
def usizeMax : Nat := 2 ^ 64 - 1

/-- `usize::next_power_of_two`: the least power of two that is at least
`n`, with `1` for `0`. -/
def nextPowerOfTwo (n : Nat) : Nat :=
  if n ≤ 1 then 1 else 2 ^ (Nat.log2 (n - 1) + 1)

/-- `usize::leading_zeros`. -/
def leadingZeros (n : Nat) : Nat :=
  64 - (if n = 0 then 0 else Nat.log2 n + 1)

-- ===== the table

def META_EMPTY : UInt8 := 0x80
def META_TOMBSTONE : UInt8 := 0xFE
def H2_MASK : UInt8 := 0x7F

structure Entry (K V : Type) where
  key : K
  value : V
  deriving DecidableEq, Repr

/-- The table. `slotMeta` (the source's `meta`) and `entries` are the
two slot arrays. -/
structure ConcurrentMap (K V : Type) where
  capacity : Nat
  mask : Nat
  probeLimit : Nat
  slotMeta : Nat → UInt8
  entries : Nat → Option (Entry K V)
  len : Nat
  hashBuilder : K → UInt64

inductive InsertOutcome where
  | inserted
  | replaced
  | full
  deriving DecidableEq, Repr

/-- How many further slots a probe may visit after its first one. -/
def probeLimit (capacity : Nat) : Nat :=
  let log2 := (64 - leadingZeros capacity) - 1
  5 * max log2 1

namespace ConcurrentMap

variable {K V : Type}

/-- `with_hasher_and_capacity`: every slot empty, the slot count a power
of two about a third above the request. -/
def withHasherAndCapacity (hashBuilder : K → UInt64) (capacity : Nat) : ConcurrentMap K V :=
  let target := min (max capacity 8 * 4) usizeMax / 3
  let cap := max (nextPowerOfTwo target) 8
  { capacity := cap
    mask := cap - 1
    probeLimit := Core.probeLimit cap
    slotMeta := fun _ => META_EMPTY
    entries := fun _ => none
    len := 0
    hashBuilder := hashBuilder }

variable (m : ConcurrentMap K V)

/-- The home slot of a key. -/
def h1 (key : K) : Nat :=
  (m.hashBuilder key).toNat &&& m.mask

/-- The 7-bit tag of a key: the top bits of its hash. -/
def h2 (key : K) : UInt8 :=
  (m.hashBuilder key >>> 57).toUInt8 &&& H2_MASK

/-- One step of the probe sequence: `i = (i + len) & mask`. -/
def nextSlot (len i : Nat) : Nat :=
  (i + len) &&& m.mask

/-- The probing loop every operation runs, from the key's home slot. -/
def probeKey {α : Type} (m : ConcurrentMap K V) (key : K)
    (visit : Nat → Option α) (exhausted : α) : α :=
  Lib.probe m.nextSlot visit exhausted m.probeLimit 0 (m.h1 key)

-- ===== slot updates

variable (m : ConcurrentMap K V)

/-- Swap the entry of an occupied slot for a new one of the same key. -/
def replaceAt (i : Nat) (key : K) (value : V) : ConcurrentMap K V :=
  { m with entries := update m.entries i (some ⟨key, value⟩) }

/-- Publish an entry in a free slot: entry, tag, then the count. -/
def claimAt (i : Nat) (key : K) (value : V) : ConcurrentMap K V :=
  { m with
    entries := update m.entries i (some ⟨key, value⟩)
    slotMeta := update m.slotMeta i (m.h2 key)
    len := m.len + 1 }

/-- Take an entry out and leave a tombstone in its slot. -/
def buryAt (i : Nat) : ConcurrentMap K V :=
  { m with
    entries := update m.entries i none
    slotMeta := update m.slotMeta i META_TOMBSTONE
    len := m.len - 1 }

/-- `for_each`: the pairs the callback is given, in slot order. -/
def forEach : List (K × V) :=
  (List.range m.capacity).filterMap fun i =>
    if m.slotMeta i = META_EMPTY ∨ m.slotMeta i = META_TOMBSTONE then none
    else (m.entries i).map fun e => (e.key, e.value)

variable [DecidableEq K]

-- ===== insert

variable (m : ConcurrentMap K V) (key : K) (value : V)

/-- The body of `insert_inner`'s loop at slot `i`: replace the key's own
entry, or claim a free slot; `none` goes on probing. -/
def insertVisit (i : Nat) : Option (ConcurrentMap K V × InsertOutcome × Option (Entry K V)) :=
  if m.slotMeta i = m.h2 key then
    match m.entries i with
    | some e =>
      if e.key = key then
        some (m.replaceAt i key value, .replaced, some e)
      else none
    | none => none
  else if m.slotMeta i = META_EMPTY ∨ m.slotMeta i = META_TOMBSTONE then
    match m.entries i with
    | none => some (m.claimAt i key value, .inserted, none)
    | some _ => none
  else none

/-- `insert_inner`: the new table, the outcome and the replaced entry. -/
def insertInner : ConcurrentMap K V × InsertOutcome × Option (Entry K V) :=
  m.probeKey key (m.insertVisit key value) (m, .full, none)

def insert : ConcurrentMap K V × InsertOutcome :=
  let (m', outcome, _) := m.insertInner key value
  (m', outcome)

def insertReturningOld : ConcurrentMap K V × InsertOutcome × Option V :=
  let (m', outcome, old) := m.insertInner key value
  (m', outcome, old.map Entry.value)

/-- The body of `can_insert_or_replace_inner`'s loop at slot `i`. -/
def canInsertVisit (i : Nat) : Option Bool :=
  if m.slotMeta i = m.h2 key then
    match m.entries i with
    | some e => if e.key = key then some true else none
    | none => none
  else if m.slotMeta i = META_EMPTY ∨ m.slotMeta i = META_TOMBSTONE then
    match m.entries i with
    | none => some true
    | some _ => none
  else none

def canInsertOrReplace : Bool :=
  m.probeKey key (m.canInsertVisit key) false

-- ===== remove

/-- The loop body `remove_inner` and `remove_if_value_inner` share: at
the key's own entry the slot becomes a tombstone when `accept` holds of
the stored value, and an empty slot ends the search. -/
def removeVisit (accept : V → Bool) (i : Nat) : Option (ConcurrentMap K V × Option (Entry K V)) :=
  if m.slotMeta i = m.h2 key then
    match m.entries i with
    | some e =>
      if e.key = key then
        if accept e.value then some (m.buryAt i, some e)
        else some (m, none)
      else none
    | none => none
  else if m.slotMeta i = META_EMPTY then some (m, none)
  else none

/-- The removal loop with its acceptance test. -/
def removeWhere (accept : V → Bool) : ConcurrentMap K V × Option (Entry K V) :=
  m.probeKey key (m.removeVisit key accept) (m, none)

/-- `remove_inner`: any stored value is accepted. -/
def removeInner : ConcurrentMap K V × Option (Entry K V) :=
  m.removeWhere key fun _ => true

/-- `remove_if_value_inner`: only a value equal to `expected` is. -/
def removeIfValueInner [BEq V] (m : ConcurrentMap K V) (key : K)
    (expected : V) : ConcurrentMap K V × Option (Entry K V) :=
  m.removeWhere key fun v => v == expected

def removeOwned (m : ConcurrentMap K V) (key : K) : ConcurrentMap K V × Option V :=
  let (m', old) := m.removeInner key
  (m', old.map Entry.value)

def remove (m : ConcurrentMap K V) (key : K) : ConcurrentMap K V × Bool :=
  let (m', old) := m.removeInner key
  (m', old.isSome)

def removeIfValue [BEq V] (m : ConcurrentMap K V) (key : K)
    (expected : V) : ConcurrentMap K V × Bool :=
  let (m', old) := m.removeIfValueInner key expected
  (m', old.isSome)

-- ===== reads

variable (m : ConcurrentMap K V) (key : K)

/-- The body of `get_with_hash`'s loop at slot `i`. -/
def getVisit (i : Nat) : Option (Option V) :=
  if m.slotMeta i = m.h2 key then
    match m.entries i with
    | some e => if e.key = key then some (some e.value) else none
    | none => none
  else if m.slotMeta i = META_EMPTY then some none
  else none

def getWithHash : Option (V × UInt64) :=
  (m.probeKey key (m.getVisit key) none).map fun v => (v, m.hashBuilder key)

def get : Option V :=
  (m.getWithHash key).map Prod.fst

def containsKey : Bool :=
  (m.get key).isSome

end ConcurrentMap

end MemoryFirst.Core
