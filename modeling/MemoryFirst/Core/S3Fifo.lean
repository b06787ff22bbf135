/-
`mfs-core/src/s3fifo.rs`: a bounded cache that admits new keys to a cold
queue, promotes what is referenced there to a hot queue and remembers
the hashes of what it evicted from the cold one. Calls are executed one
after another.

# Queues and residents

The map has the resident entries. The queues have keys, and may have
keys that are gone or have changed queue; a key may also be resident and
in no queue, once a rejected candidate saved it. `hotLen` and `coldLen`
are the counters the source keeps beside the queues.

# Loops

The three loops of `evict_to_capacity` run with fuel; popping one queue
until it yields something is a recursion on the queue. Which key the
iterator of the hash map comes to first is left to `pick`, and may be
another choice in each call.
-/
import MemoryFirst.Core.Sketches
import MemoryFirst.Lib.Loops
import MemoryFirst.Lib.Maps

namespace MemoryFirst.Core.S3Fifo

open Lib

def MAX_REF : Nat := 2

def MIN_SHARD_CAPACITY : Nat := 32

inductive ResidentState where
  | cold
  | hot
  deriving DecidableEq

structure Resident (V : Type) where
  value : V
  state : ResidentState
  referenced : Nat
  hash : UInt64

structure AdmissionCandidate (K : Type) where
  key : K
  hash : UInt64
  frequency : UInt8

structure AdmissionSample where
  priorFrequency : UInt8
  frequency : UInt8

structure AdmissionCapacityGate where
  maximumFrequency : UInt8

inductive S3FifoAdmissionExperiment where
  | capacityGate (maximumFrequency : UInt8)
  | wideSketch (minWidth sampleSizeFloor : Nat)
  | packed4Bit (minWidth sampleSizeFloor : Nat)
  | doorkeeper (minWidth sampleSizeFloor : Nat)
  | twoCounterDecay (minWidth sampleSizeFloor : Nat)

structure Shard (K V : Type) where
  map : AList fun _ : K => Resident V
  cold : List K
  hot : List K
  ghost : List UInt64
  ghostSet : List UInt64
  capacity : Nat
  hotCapacity : Nat
  ghostCapacity : Nat
  hotLen : Nat
  coldLen : Nat
  smallToMainThreshold : UInt8
  frequency : Option FrequencySketch
  admission : Option TinyLfu
  admissionGate : Option AdmissionCapacityGate

/-- The first key of the hash map's iterator, by the keys in the map. -/
structure Pick (K : Type) where
  first : List K → Option K
  mem : ∀ {l k}, first l = some k → k ∈ l
  found : ∀ {l}, l ≠ [] → (first l).isSome

def buildAdmissionSketch (capacity : Nat)
    (experiment : Option S3FifoAdmissionExperiment) : TinyLfu :=
  match experiment with
  | some (.wideSketch minWidth floor) => .withCapacityAndFloor capacity minWidth floor
  | some (.packed4Bit minWidth floor) => .withPacked4Bit capacity minWidth floor
  | some (.doorkeeper minWidth floor) => .withDoorkeeper capacity minWidth floor
  | some (.twoCounterDecay minWidth floor) => .withTwoCounterDecay capacity minWidth floor
  | _ => .withCapacity capacity

/-- `bump_ref`. -/
def bumpRef (referenced : Nat) : Nat :=
  if referenced < MAX_REF then referenced + 1 else referenced

/-- `remove_queued_key`: the key, if it is the last one. -/
def removeQueuedKey {K : Type} [DecidableEq K] (queue : List K) (key : K) : List K :=
  if queue.getLast? = some key then queue.dropLast else queue

variable {K V : Type}

namespace Shard

variable [DecidableEq K]

omit [DecidableEq K] in
def new (capacity hotRatioPercent ghostRatioPercent : Nat)
    (smallToMainThreshold : UInt8) (admissionEnabled : Bool)
    (admissionExperiment : Option S3FifoAdmissionExperiment) : Shard K V :=
  let cap := max capacity 1
  { map := ∅
    cold := []
    hot := []
    ghost := []
    ghostSet := []
    capacity := cap
    hotCapacity := min (max (saturatingMul cap hotRatioPercent / 100) 1) cap
    ghostCapacity := saturatingMul cap ghostRatioPercent / 100
    hotLen := 0
    coldLen := 0
    smallToMainThreshold := min (max smallToMainThreshold 1) MAX_FREQUENCY
    frequency := if 1 < smallToMainThreshold then some (.withCapacity cap)
      else none
    admission := if admissionEnabled then
        some (buildAdmissionSketch cap admissionExperiment)
      else none
    admissionGate := if admissionEnabled then
        match admissionExperiment with
        | some (.capacityGate maximumFrequency) => some ⟨maximumFrequency⟩
        | _ => none
      else none }

variable (s : Shard K V)

/-- `map.len()`. -/
def len : Nat := s.map.entries.length

-- ===== recording

def recordFrequency (hash : UInt64) : Shard K V :=
  { s with frequency := s.frequency.map (·.increment hash) }

def recordAdmission (hash : UInt64) : Shard K V × Option AdmissionSample :=
  match s.admission with
  | none => (s, none)
  | some admission =>
    let priorFrequency := admission.estimate hash
    let (admission, frequency) := admission.increment hash
    ({ s with admission := some admission }, some ⟨priorFrequency, frequency⟩)

def rejectCandidateByCapacityGate (sample : Option AdmissionSample) : Bool :=
  match s.admissionGate, sample with
  | some gate, some sample => decide (s.capacity ≤ s.len
      ∧ sample.priorFrequency ≤ gate.maximumFrequency)
  | _, _ => false

-- ===== evicting

/-- One resident fewer in the counter of its queue. -/
def uncount (state : ResidentState) : Shard K V :=
  match state with
  | .cold => { s with coldLen := s.coldLen - 1 }
  | .hot => { s with hotLen := s.hotLen - 1 }

/-- Takes the candidate out of the queue it was put in. -/
def unqueue (state : ResidentState) (key : K) : Shard K V :=
  match state with
  | .cold => { s with cold := removeQueuedKey s.cold key }
  | .hot => { s with hot := removeQueuedKey s.hot key }

/-- The candidate goes instead of a victim that is estimated hotter. -/
def rejectCandidateIfVictimHotter (candidate : Option (AdmissionCandidate K))
    (victimHash : UInt64) :
    Shard K V × Bool :=
  match candidate, s.admission with
  | some candidate, some admission =>
    if candidate.hash = victimHash then (s, false)
    else if admission.estimate victimHash ≤ candidate.frequency then
      (s, false)
    else
      match s.map.lookup candidate.key with
      | none => (s, false)
      | some removed =>
        (({ s with map := s.map.erase candidate.key }.uncount
          removed.state).unqueue removed.state candidate.key, true)
  | _, _ => (s, false)

section

variable (candidate : Option (AdmissionCandidate K))

/-- `evict_cold_once`, with the keys of the cold queue in front. -/
def evictColdFrom (s : Shard K V) : List K → Shard K V × Bool
  | [] => ({ s with cold := [] }, false)
  | key :: cold =>
    match s.map.lookup key with
    | none => evictColdFrom s cold
    | some resident =>
      if resident.state ≠ .cold then evictColdFrom s cold
      else
        let frequency := s.frequency.elim 0 (·.frequency resident.hash)
        if s.smallToMainThreshold.toNat ≤ resident.referenced
            ∨ s.smallToMainThreshold ≤ frequency then
          ({ s with
            map := s.map.insert key
              { resident with
                referenced := resident.referenced - 1, state := .hot }
            cold := cold
            hot := s.hot ++ [key]
            coldLen := s.coldLen - 1
            hotLen := s.hotLen + 1 }, true)
        else
          match { s with cold := cold }.rejectCandidateIfVictimHotter candidate resident.hash with
          | (s, true) => (s, true)
          | (s, false) =>
            ({ s with
              map := s.map.erase key
              coldLen := s.coldLen - 1
              ghost := s.ghost ++ [resident.hash]
              ghostSet := s.ghostSet.insert resident.hash }, true)

def evictColdOnce (s : Shard K V) : Shard K V × Bool :=
  s.evictColdFrom candidate s.cold

/-- `evict_hot_once`, with the keys of the hot queue in front. -/
def evictHotFrom (s : Shard K V) : List K → Shard K V × Bool
  | [] => ({ s with hot := [] }, false)
  | key :: hot =>
    match s.map.lookup key with
    | none => evictHotFrom s hot
    | some resident =>
      if resident.state ≠ .hot then evictHotFrom s hot
      else if resident.referenced ≠ 0 then
        ({ s with
          map := s.map.insert key
            { resident with referenced := resident.referenced - 1 }
          hot := hot ++ [key] }, true)
      else
        match { s with hot := hot }.rejectCandidateIfVictimHotter candidate resident.hash with
        | (s, true) => (s, true)
        | (s, false) =>
          ({ s with
            map := s.map.erase key
            hotLen := s.hotLen - 1 }, true)

variable (s : Shard K V)

def evictHotOnce : Shard K V × Bool :=
  s.evictHotFrom candidate s.hot

variable (pick : Pick K)

def evictAnyOnce (s : Shard K V) : Shard K V × Bool :=
  match pick.first s.map.keys with
  | none => (s, false)
  | some key =>
    match s.map.lookup key with
    | none => (s, false)
    | some removed => ({ s with map := s.map.erase key }.uncount removed.state, true)

/-- A round of the loop over the map. -/
def evictRound (s : Shard K V) : Flow (Shard K V) :=
  if s.capacity < s.len then
    match if 0 < s.coldLen then s.evictColdOnce candidate
        else s.evictHotOnce candidate with
    | (s, true) => .again s
    | (s, false) =>
      if 0 < s.coldLen then .again { s with coldLen := 0 }
      else
        match s.evictAnyOnce pick with
        | (s, true) => .again s
        | (s, false) => .exit s
  else .exit s

/-- A round of the loop over the hot queue. -/
def hotRound : Flow (Shard K V) :=
  if s.hotCapacity < s.hotLen ∧ 0 < s.hotLen then
    match s.evictHotOnce candidate with
    | (s, true) => .again s
    | (s, false) => .exit { s with hotLen := 0 }
  else .exit s

omit [DecidableEq K] in
/-- A round of the loop over the ghosts. -/
def ghostRound : Flow (Shard K V) :=
  if s.ghostCapacity < s.ghost.length then
    match s.ghost with
    | [] => .again s
    | hash :: ghost => .again { s with ghost := ghost, ghostSet := s.ghostSet.erase hash }
  else .exit s

def evictToCapacity (fuel : Nat) (s : Shard K V) : Option (Shard K V) := do
  let s ← loop (evictRound candidate pick) fuel s
  let s ← loop (hotRound candidate) fuel s
  loop ghostRound fuel s

end

-- ===== calls

variable (key : K)

/-- The value of a resident is replaced. -/
def refresh (existing : Resident V) (value : V) : Shard K V :=
  { s with
    frequency := s.frequency.map (·.increment existing.hash)
    admission := s.admission.map fun admission =>
      (admission.increment existing.hash).1
    map := s.map.insert key
      { existing with
        value := value, referenced := bumpRef existing.referenced } }

/-- The new resident, in the queue its ghost decides. -/
def place (hash : UInt64) (value : V) : Shard K V :=
  if hash ∈ s.ghostSet then
    { s with
      ghostSet := s.ghostSet.erase hash
      hot := s.hot ++ [key]
      hotLen := s.hotLen + 1
      map := s.map.insert key ⟨value, .hot, 1, hash⟩ }
  else
    { s with
      cold := s.cold ++ [key]
      coldLen := s.coldLen + 1
      map := s.map.insert key ⟨value, .cold, 0, hash⟩ }

def insert (pick : Pick K) (fuel : Nat) (s : Shard K V) (key : K)
    (hash : UInt64) (value : V) : Option (Shard K V × Option V) :=
  match s.map.lookup key with
  | some existing => some (s.refresh key existing value, some existing.value)
  | none =>
    let (s, sample) := s.recordAdmission hash
    if s.rejectCandidateByCapacityGate sample then some (s, none)
    else do
      let candidate := sample.map fun sample => ⟨key, hash, sample.frequency⟩
      let s ← evictToCapacity candidate pick fuel ((s.recordFrequency hash).place key hash value)
      return (s, none)

def get : Shard K V × Option V :=
  match s.map.lookup key with
  | none => (s, none)
  | some resident =>
    let s := s.recordFrequency resident.hash
    ({ s with
      map := s.map.insert key
        { resident with referenced := bumpRef resident.referenced } },
      some resident.value)

def remove : Shard K V × Option V :=
  match s.map.lookup key with
  | none => (s, none)
  | some resident =>
    ({ s with map := s.map.erase key }.uncount resident.state, some resident.value)

end Shard

-- ===== the cache

structure S3FifoConfig where
  capacity : Nat
  shards : Nat
  hotRatioPercent : Nat
  ghostRatioPercent : Nat
  smallToMainThreshold : UInt8
  admissionEnabled : Bool
  admissionExperiment : Option S3FifoAdmissionExperiment

structure S3FifoCache (K V : Type) where
  shards : List (Shard K V)
  shardMask : Nat

namespace S3FifoCache

/-- `usize::div_ceil`. -/
def divCeil (a b : Nat) : Nat := (a + b - 1) / b

/-- The loop that halves `2 ^ bits` shards while they would be small. -/
def fewerShards (capacity : Nat) : Nat → Nat
  | 0 => 1
  | bits + 1 =>
    if divCeil capacity (2 ^ (bits + 1)) < MIN_SHARD_CAPACITY then
      fewerShards capacity bits
    else 2 ^ (bits + 1)

/-- `with_hasher_and_config`; with more than 2^63 shards it panics. -/
def withHasherAndConfig {K V : Type} (config : S3FifoConfig) : Option (S3FifoCache K V) :=
  let capacity := max config.capacity 1
  let shards := wrappingNextPowerOfTwo (max config.shards 1)
  if shards = 0 then none
  else
    let shards := fewerShards capacity (Nat.log2 shards)
    let perShard := divCeil (max capacity shards) shards
    some ⟨List.replicate shards (.new perShard
        (min (max config.hotRatioPercent 1) 100) config.ghostRatioPercent
        config.smallToMainThreshold config.admissionEnabled
        config.admissionExperiment), shards - 1⟩

variable [DecidableEq K]

/-- `hash.rotate_right(7)`. -/
def rotateRight7 (hash : UInt64) : UInt64 := hash >>> 7 ||| hash <<< 57

omit [DecidableEq K] in
def shardIdx (c : S3FifoCache K V) (hash : UInt64) : Nat :=
  (rotateRight7 hash).toNat &&& c.shardMask

omit [DecidableEq K] in
/-- `len()`. -/
def len (c : S3FifoCache K V) : Nat := (c.shards.map Shard.len).sum

end S3FifoCache

/-- A call; an insert comes with what its map's iterator would do. -/
inductive S3FifoCall (K V : Type) where
  | insert (key : K) (value : V) (pick : Pick K)
  | get (key : K)
  | remove (key : K)

namespace S3FifoCall

def key : S3FifoCall K V → K
  | .insert key _ _ => key
  | .get key => key
  | .remove key => key

/-- What the call does in the shard of its key. -/
def inShard [DecidableEq K] (fuel : Nat) (hash : UInt64)
    (s : Shard K V) : S3FifoCall K V → Option (Shard K V × Option V)
  | .insert key value pick => s.insert pick fuel key hash value
  | .get key => some (s.get key)
  | .remove key => some (s.remove key)

end S3FifoCall

namespace S3FifoCache

variable [DecidableEq K] (hash : K → UInt64)

/-- A call, on the shard its key hashes to. -/
def call (fuel : Nat) (c : S3FifoCache K V) (call : S3FifoCall K V) :
    Option (S3FifoCache K V × Option V) :=
  let idx := c.shardIdx (hash call.key)
  match c.shards[idx]? with
  | none => none
  | some shard =>
    match call.inShard fuel (hash call.key) shard with
    | none => none
    | some (shard, reply) => some ({ c with shards := c.shards.set idx shard }, reply)

/-- The cache after a sequence of calls, if each of them returns. -/
def run (fuel : Nat) (c : S3FifoCache K V) : List (S3FifoCall K V) → Option (S3FifoCache K V)
  | [] => some c
  | op :: calls =>
    match c.call hash fuel op with
    | none => none
    | some (c, _) => run fuel c calls

end S3FifoCache

end MemoryFirst.Core.S3Fifo
