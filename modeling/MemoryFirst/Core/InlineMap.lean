/-
`mfs-core/src/inline_map.rs`: the fixed-capacity map from `u64` to `u64`
with keys and values in the slots and a sequence lock per slot.

# Atomic steps

Threads share three arrays of atomics and a counter. An operation is a
machine whose states are the points between two accesses to them: `Pc`.
`opStep` performs one access, a load, a store or a compare-exchange, and
goes to the next point. Everything between two accesses is local and
happens with the first of them. The arrays are functions on slot
numbers, read only below `capacity`; the counter wraps around, and the
hasher is an arbitrary function.

# Keys

`RESERVED_KEY` marks an empty slot, and every operation panics on it: a
`Key` is any other number.

# One after another, and side by side

`call` runs one operation alone until it returns. `World` holds a map and
any number of operations under way; an action starts another one or lets
one of them take its next step, so that the action lists are exactly the
sequentially consistent interleavings. A thread that makes several calls
is several of these processes. `stores` is a history: the pairs that an
insert or an update has stored.
-/
import MemoryFirst.Core.ConcurrentMap

namespace MemoryFirst.Core

namespace InlineU64Map

-- ===== the lock words

def RESERVED_KEY : UInt64 := 0xFFFFFFFFFFFFFFFF

/-- Bit 0: a writer holds the slot. Bits 1 to 7: the tag. Bits 8 to 15:
the version. -/
def WRITING_BIT : UInt16 := 0x0001
def H2_MASK : UInt16 := 0x00FE
def VERSION_MASK : UInt16 := 0xFF00
def VERSION_INC : UInt16 := 0x0100
def TOMBSTONE : UInt16 := 0x0002
def EMPTY : UInt16 := 0x0000

/-- The top seven bits of the hash, in the place of the tag. -/
def h2Of (hash : UInt64) : UInt16 :=
  ((hash >>> 57).toUInt16 &&& 0x7F) <<< 1

def metaH2 (word : UInt16) : UInt16 := word &&& H2_MASK

def isOccupied (word : UInt16) : Bool :=
  word ≠ EMPTY && word ≠ TOMBSTONE && word &&& WRITING_BIT = 0

def isWritingMatch (word h2 : UInt16) : Bool :=
  word ≠ EMPTY && word ≠ TOMBSTONE && metaH2 word = h2 && word &&& WRITING_BIT ≠ 0

end InlineU64Map

open InlineU64Map

-- ===== the map

/-- The map. `slotMeta` is the source's `meta`. -/
structure InlineU64Map where
  slotMeta : Nat → UInt16
  keys : Nat → UInt64
  values : Nat → UInt64
  capacity : Nat
  mask : Nat
  probeLimit : Nat
  len : UInt64
  hashBuilder : UInt64 → UInt64

namespace InlineU64Map

/-- The keys no operation panics on. -/
abbrev Key := { k : UInt64 // k ≠ RESERVED_KEY }

theorem one_ne_reserved : 1 ≠ RESERVED_KEY := by decide

theorem two_ne_reserved : 2 ≠ RESERVED_KEY := by decide

def withHasherAndCapacity (hashBuilder : UInt64 → UInt64) (capacity : Nat) : InlineU64Map :=
  let target := min (max capacity 8 * 4) usizeMax / 3
  let cap := max (nextPowerOfTwo target) 8
  { slotMeta := fun _ => EMPTY
    keys := fun _ => RESERVED_KEY
    values := fun _ => 0
    capacity := cap
    mask := cap - 1
    probeLimit := Core.probeLimit cap
    len := 0
    hashBuilder := hashBuilder }

section

variable (m : InlineU64Map)

def h1 (key : UInt64) : Nat :=
  (m.hashBuilder key).toNat &&& m.mask

/-- The tag of a key, kept away from the two markers of free slots. -/
def h2 (key : UInt64) : UInt16 :=
  let raw := h2Of (m.hashBuilder key)
  if raw = EMPTY ∨ raw = TOMBSTONE then TOMBSTONE + 2 else raw

def nextSlot (len i : Nat) : Nat :=
  (i + len) &&& m.mask

def setMeta (i : Nat) (word : UInt16) : InlineU64Map :=
  { m with slotMeta := Function.update m.slotMeta i word }

def setKey (i : Nat) (key : UInt64) : InlineU64Map :=
  { m with keys := Function.update m.keys i key }

def setValue (i : Nat) (value : UInt64) : InlineU64Map :=
  { m with values := Function.update m.values i value }

end

-- ===== the operations

inductive Request
  | get (key : Key)
  | insert (key : Key) (value : UInt64)
  | insertReturningOld (key : Key) (value : UInt64)
  | remove (key : Key)
  | removeIfValue (key : Key) (expected : UInt64)
  | update (key : Key) (value : UInt64)
  deriving DecidableEq

inductive Reply
  | value (v : Option UInt64)
  | outcome (o : InsertOutcome)
  | outcomeOld (o : InsertOutcome) (old : Option UInt64)
  | removed (b : Bool)
  deriving DecidableEq

def Request.key : Request → UInt64
  | .get key => key
  | .insert key _ => key
  | .insertReturningOld key _ => key
  | .remove key => key
  | .removeIfValue key _ => key
  | .update key _ => key

/-- The value an insert or an update stores. -/
def Request.value : Request → UInt64
  | .insert _ value => value
  | .insertReturningOld _ value => value
  | .update _ value => value
  | _ => 0

/-- The reply when the key was not found and nothing was stored. -/
def Request.missed : Request → Reply
  | .get _ => .value none
  | .insert _ _ => .outcome .full
  | .insertReturningOld _ _ => .outcomeOld .full none
  | .remove _ => .value none
  | .removeIfValue _ _ => .removed false
  | .update _ _ => .value none

def Request.claimed : Request → Reply
  | .insertReturningOld _ _ => .outcomeOld .inserted none
  | _ => .outcome .inserted

def Request.replaced (old : Option UInt64) : Request → Reply
  | .insert _ _ => .outcome .replaced
  | .insertReturningOld _ _ => .outcomeOld .replaced old
  | _ => .value old

def Request.buried (old : UInt64) : Request → Reply
  | .removeIfValue _ _ => .removed true
  | _ => .value (some old)

/-- The points of an operation, each named for the access that comes
next. `word` is the lock word loaded at slot `i`. -/
inductive Pc
  | probe (i len : Nat)
  | readKey (i len : Nat) (word : UInt16)
  | readValue (i len : Nat) (word : UInt16) (k : UInt64)
  | recheck (i len : Nat) (word : UInt16) (k v : UInt64)
  | peek (i len : Nat) (word : UInt16)
  | lock (i len : Nat) (word : UInt16)
  | readOld (i : Nat) (word : UInt16)
  | writeValue (i : Nat) (word : UInt16) (old : Option UInt64)
  | publish (i : Nat) (word : UInt16) (old : Option UInt64)
  | restore (i : Nat) (word : UInt16)
  | clearKey (i : Nat) (old : UInt64)
  | clearValue (i : Nat) (old : UInt64)
  | bury (i : Nat) (old : UInt64)
  | decrement (old : UInt64)
  | claim (i len : Nat) (word : UInt16)
  | claimKey (i : Nat) (word : UInt16)
  | claimValue (i : Nat) (word : UInt16)
  | claimMeta (i : Nat) (word : UInt16)
  | increment
  | done (reply : Reply)
  deriving DecidableEq

variable (m : InlineU64Map) (r : Request) (i len : Nat)

/-- The next slot of the probe, or the end of it. -/
def advance : Pc :=
  if m.probeLimit < len + 1 then .done r.missed
  else .probe (m.nextSlot (len + 1) i) (len + 1)

/-- Where the loaded lock word of slot `i` leads. -/
def inspect (word : UInt16) : Pc :=
  let h2 := m.h2 r.key
  match r with
  | .get _ =>
    if word = EMPTY then .done r.missed
    else if isWritingMatch word h2 then .probe i len
    else if metaH2 word = h2 ∧ word &&& WRITING_BIT = 0 then
      .readKey i len word
    else m.advance r i len
  | .insert _ _ | .insertReturningOld _ _ =>
    if isWritingMatch word h2 then .probe i len
    else if metaH2 word = h2 ∧ word &&& WRITING_BIT = 0 ∧ word ≠ EMPTY ∧ word ≠ TOMBSTONE then
      .readKey i len word
    else if word = EMPTY ∨ word = TOMBSTONE then .claim i len word
    else m.advance r i len
  | .remove _ | .removeIfValue _ _ =>
    if word = EMPTY then .done r.missed
    else if isWritingMatch word h2 then .probe i len
    else if metaH2 word = h2 ∧ word &&& WRITING_BIT = 0 ∧ word ≠ EMPTY ∧ word ≠ TOMBSTONE then
      .readKey i len word
    else m.advance r i len
  | .update _ _ =>
    if word = EMPTY then .done r.missed
    else if isWritingMatch word h2 then .probe i len
    else if metaH2 word = h2 ∧ word &&& WRITING_BIT = 0 then
      .readKey i len word
    else m.advance r i len

/-- Where the loaded key leads. A lookup reads on whatever the key. -/
def compareKey (word : UInt16) (k : UInt64) : Pc :=
  match r with
  | .get _ => .readValue i len word k
  | .removeIfValue _ _ =>
    if k = r.key then .peek i len word else m.advance r i len
  | _ => if k = r.key then .lock i len word else m.advance r i len

/-- The version of an entry goes up by one with every update. -/
def nextWord (word h2 : UInt16) : UInt16 :=
  ((word + VERSION_INC) &&& VERSION_MASK) ||| h2

/-- The first word of an entry, by the marker of the slot it claimed. -/
def firstWord (word h2 : UInt16) : UInt16 :=
  (if word = TOMBSTONE then VERSION_INC else 0) ||| h2

/-- One atomic access of an operation. -/
def opStep (r : Request) : Pc → InlineU64Map × Pc
  | .probe i len => (m, m.inspect r i len (m.slotMeta i))
  | .readKey i len word => (m, m.compareKey r i len word (m.keys i))
  | .readValue i len word k => (m, .recheck i len word k (m.values i))
  | .recheck i len word k v =>
    (m, if word = m.slotMeta i ∧ k = r.key then .done (.value (some v))
      else if word ≠ m.slotMeta i then .probe i len
      else m.advance r i len)
  | .peek i len word =>
    (m, match r with
      | .removeIfValue _ expected =>
        if m.values i ≠ expected then .done (.removed false)
        else .lock i len word
      | _ => .lock i len word)
  | .lock i len word =>
    if m.slotMeta i = word then
      (m.setMeta i (word ||| WRITING_BIT),
        match r with
        | .insert _ _ => .writeValue i word none
        | _ => .readOld i word)
    else (m, .probe i len)
  | .readOld i word =>
    (m, match r with
      | .remove _ => .clearKey i (m.values i)
      | .removeIfValue _ expected =>
        if m.values i ≠ expected then .restore i word
        else .clearKey i (m.values i)
      | _ => .writeValue i word (some (m.values i)))
  | .writeValue i word old => (m.setValue i r.value, .publish i word old)
  | .publish i word old =>
    (m.setMeta i (nextWord word (m.h2 r.key)), .done (r.replaced old))
  | .restore i word => (m.setMeta i word, .done (.removed false))
  | .clearKey i old => (m.setKey i RESERVED_KEY, .clearValue i old)
  | .clearValue i old => (m.setValue i 0, .bury i old)
  | .bury i old => (m.setMeta i TOMBSTONE, .decrement old)
  | .decrement old => ({ m with len := m.len - 1 }, .done (r.buried old))
  | .claim i len word =>
    if m.slotMeta i = word then
      (m.setMeta i WRITING_BIT, .claimKey i word)
    else (m, .probe i len)
  | .claimKey i word => (m.setKey i r.key, .claimValue i word)
  | .claimValue i word => (m.setValue i r.value, .claimMeta i word)
  | .claimMeta i word => (m.setMeta i (firstWord word (m.h2 r.key)), .increment)
  | .increment => ({ m with len := m.len + 1 }, .done r.claimed)
  | .done reply => (m, .done reply)

/-- Where every operation starts. -/
def start (r : Request) : Pc :=
  .probe (m.h1 r.key) 0

-- ===== one by one

def runAlone (r : Request) : Nat → InlineU64Map × Pc → InlineU64Map × Pc
  | 0, s => s
  | n + 1, s => runAlone r n (s.1.opStep r s.2)

def Pc.reply : Pc → Option Reply
  | .done reply => some reply
  | _ => none

/-- One call with no other under way: at most four accesses at a slot it
passes and nine at the last one. Without a reply the call has not
returned by then. -/
def call (r : Request) : InlineU64Map × Option Reply :=
  let (m', pc) := runAlone r (4 * (m.probeLimit + 1) + 8) (m, m.start r)
  (m', pc.reply)

-- ===== side by side

structure Proc where
  request : Request
  pc : Pc
  deriving DecidableEq

structure World where
  map : InlineU64Map
  procs : List Proc
  stores : List (UInt64 × UInt64)

/-- The pair the process stores with its next access. -/
def Proc.storing (proc : Proc) : List (UInt64 × UInt64) :=
  match proc.pc with
  | .writeValue _ _ _ => [(proc.request.key, proc.request.value)]
  | .claimValue _ _ => [(proc.request.key, proc.request.value)]
  | _ => []

inductive Action
  | start (request : Request)
  | step (p : Nat)
  deriving DecidableEq

def worldStep (w : World) : Action → World × Unit
  | .start request =>
    ({ w with procs := w.procs ++ [⟨request, w.map.start request⟩] }, ())
  | .step p =>
    match w.procs[p]? with
    | none => (w, ())
    | some proc =>
      let (map, pc) := w.map.opStep proc.request proc.pc
      ({ map := map
         procs := w.procs.set p ⟨proc.request, pc⟩
         stores := w.stores ++ proc.storing }, ())

/-- A map nobody has used yet. -/
def fresh (hashBuilder : UInt64 → UInt64) (capacity : Nat) : World :=
  ⟨withHasherAndCapacity hashBuilder capacity, [], []⟩

end InlineU64Map

end MemoryFirst.Core
