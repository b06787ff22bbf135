/-
`mfs-core/src/tiny_lfu.rs` and the `FrequencySketch` of `s3fifo.rs`: the
frequency estimators behind the admission and promotion decisions of the
S3-FIFO cache, executed by one thread.

Both are count-min sketches of four rows that halve their counters after
a number of samples. Sizes are computed as a release build computes them:
a power of two past `usize` is zero.
-/
import MemoryFirst.Core.ConcurrentMap

namespace MemoryFirst.Core

-- ===== sizes

def saturatingMul (a b : Nat) : Nat := min (a * b) usizeMax

/-- `usize::next_power_of_two` without overflow checks. -/
def wrappingNextPowerOfTwo (n : Nat) : Nat := nextPowerOfTwo n % 2 ^ 64

/-- `mix_frequency_hash`, and the same `mix_tiny_lfu_hash`. -/
def mixFrequencyHash (hash row : UInt64) : UInt64 :=
  let mixed := hash ^^^ row * 0x9E3779B97F4A7C15
  let mixed := mixed ^^^ mixed >>> 33
  let mixed := mixed * 0xC2B2AE3D27D4EB4F
  mixed ^^^ mixed >>> 29

def saturatingIncrement (limit counter : UInt8) : UInt8 :=
  if counter < limit then counter + 1 else counter

def halved (counter : UInt8) : UInt8 := counter >>> 1

/-- `index`: the counter of a hash in a row. -/
def sketchIndex (width mask : Nat) (hash : UInt64) (row : Nat) : Nat :=
  row * width + ((mixFrequencyHash hash row.toUInt64).toNat &&& mask)

-- ===== FrequencySketch

def MAX_FREQUENCY : UInt8 := 15

def FREQUENCY_DEPTH : Nat := 4

structure FrequencySketch where
  width : Nat
  mask : Nat
  sampleSize : Nat
  samples : Nat
  counters : List UInt8

namespace FrequencySketch

def withCapacity (capacity : Nat) : FrequencySketch :=
  let width := max (wrappingNextPowerOfTwo (saturatingMul (max capacity 16) 4)) 64
  { width := width
    mask := width - 1
    sampleSize := max (saturatingMul (max capacity 1) 10) width
    samples := 0
    counters := List.replicate (saturatingMul width FREQUENCY_DEPTH) 0 }

variable (s : FrequencySketch) (hash : UInt64)

def index (row : Nat) : Nat :=
  sketchIndex s.width s.mask hash row

def increment : FrequencySketch :=
  let counters := (List.range FREQUENCY_DEPTH).foldl
    (fun counters row => counters.modify (s.index hash row)
      (saturatingIncrement MAX_FREQUENCY)) s.counters
  if s.sampleSize ≤ s.samples + 1 then
    { s with samples := 0, counters := counters.map halved }
  else { s with samples := s.samples + 1, counters := counters }

def frequency : UInt8 :=
  (List.range FREQUENCY_DEPTH).foldl
    (fun least row => min least (s.counters.getD (s.index hash row) 0))
    MAX_FREQUENCY

end FrequencySketch

-- ===== TinyLfu

def DEPTH : Nat := 4

inductive TinyLfuCounterKind where
  | u8
  | packed4Bit
  | twoCounter
  deriving DecidableEq

/-- `Packed4BitCounters`: two counters in each byte. -/
structure Packed4BitCounters where
  bytes : List UInt8

namespace Packed4BitCounters

def new (counterLen : Nat) : Packed4BitCounters :=
  ⟨List.replicate ((counterLen + 1) / 2) 0⟩

variable (c : Packed4BitCounters)

def load (index : Nat) : UInt8 :=
  let byte := c.bytes.getD (index / 2) 0
  if index % 2 = 0 then byte &&& 0x0F else byte >>> 4

def saturatingIncrement (index : Nat) : Packed4BitCounters :=
  let shift : UInt8 := if index % 2 = 0 then 0 else 4
  let mask : UInt8 := 0x0F <<< shift
  ⟨c.bytes.modify (index / 2) fun value =>
    let current := (value &&& mask) >>> shift
    if current = 15 then value
    else (value &&& ~~~mask) ||| ((current + 1) <<< shift)⟩

def age : Packed4BitCounters :=
  ⟨c.bytes.map fun (value : UInt8) =>
    let low := (value &&& 0x0F) >>> 1
    let high := ((value >>> 4) >>> 1) <<< 4
    low ||| high⟩

end Packed4BitCounters

/-- `DualSketchCounters`: two sketches that are filled in turn. -/
structure DualSketchCounters where
  a : Packed4BitCounters
  b : Packed4BitCounters
  activeIsA : Bool

namespace DualSketchCounters

def new (counterLen : Nat) : DualSketchCounters :=
  ⟨.new counterLen, .new counterLen, true⟩

variable (c : DualSketchCounters)

def load (index : Nat) : UInt8 :=
  max (c.a.load index) (c.b.load index)

def saturatingIncrement (index : Nat) : DualSketchCounters :=
  if c.activeIsA then { c with a := c.a.saturatingIncrement index }
  else { c with b := c.b.saturatingIncrement index }

def age : DualSketchCounters :=
  if c.activeIsA then { c with b := c.b.age, activeIsA := false }
  else { c with a := c.a.age, activeIsA := true }

end DualSketchCounters

inductive TinyLfuCounters where
  | u8 (counters : List UInt8)
  | packed4Bit (counters : Packed4BitCounters)
  | twoCounter (counters : DualSketchCounters)

namespace TinyLfuCounters

def new (kind : TinyLfuCounterKind) (len : Nat) : TinyLfuCounters :=
  match kind with
  | .u8 => .u8 (List.replicate len 0)
  | .packed4Bit => .packed4Bit (.new len)
  | .twoCounter => .twoCounter (.new len)

variable (c : TinyLfuCounters)

def load (index : Nat) : UInt8 :=
  match c with
  | .u8 counters => counters.getD index 0
  | .packed4Bit counters => counters.load index
  | .twoCounter counters => counters.load index

def saturatingIncrement (index : Nat) : TinyLfuCounters :=
  match c with
  | .u8 counters => .u8 (counters.modify index (Core.saturatingIncrement 255))
  | .packed4Bit counters => .packed4Bit (counters.saturatingIncrement index)
  | .twoCounter counters => .twoCounter (counters.saturatingIncrement index)

def age : TinyLfuCounters :=
  match c with
  | .u8 counters => .u8 (counters.map halved)
  | .packed4Bit counters => .packed4Bit counters.age
  | .twoCounter counters => .twoCounter counters.age

end TinyLfuCounters

structure DoorKeeper where
  mask : Nat
  bits : List UInt8

namespace DoorKeeper

def withCapacity (width : Nat) : DoorKeeper :=
  let bitCount := max (wrappingNextPowerOfTwo (saturatingMul (max width 8) 8)) 64
  ⟨bitCount - 1, List.replicate (bitCount / 8) 0⟩

variable (d : DoorKeeper)

def index (hash : UInt64) (row : Nat) : Nat :=
  (mixFrequencyHash hash row.toUInt64).toNat &&& d.mask

/-- Sets a bit and says whether it was set. -/
def setBit (bit : Nat) : DoorKeeper × Bool :=
  let mask : UInt8 := 1 <<< (bit % 8).toUInt8
  ({ d with bits := d.bits.modify (bit / 8) (· ||| mask) },
    decide (d.bits.getD (bit / 8) 0 &&& mask ≠ 0))

def checkAndSet (hash : UInt64) : DoorKeeper × Bool :=
  (List.range DEPTH).foldl (fun (d, allPresent) row =>
    let (d, present) := d.setBit (d.index hash row)
    (d, allPresent && present)) (d, true)

def clear : DoorKeeper :=
  { d with bits := d.bits.map fun _ => 0 }

end DoorKeeper

structure TinyLfu where
  width : Nat
  mask : Nat
  sampleSize : Nat
  samples : Nat
  counters : TinyLfuCounters
  doorkeeper : Option DoorKeeper

namespace TinyLfu

def withOptions (capacity minWidth sampleSize : Nat)
    (counterKind : TinyLfuCounterKind) (doorkeeperEnabled : Bool) :
    TinyLfu :=
  let width := max (max (wrappingNextPowerOfTwo (saturatingMul (max capacity 16) 4)) 64)
    (wrappingNextPowerOfTwo (max minWidth 1))
  { width := width
    mask := width - 1
    sampleSize := max sampleSize 1
    samples := 0
    counters := .new counterKind (saturatingMul width DEPTH)
    doorkeeper := if doorkeeperEnabled then some (.withCapacity width)
      else none }

/-- The sample size all constructors start from. -/
def defaultSampleSize (capacity : Nat) : Nat :=
  max (saturatingMul (max capacity 1) 8) 64

def withCapacity (capacity : Nat) : TinyLfu :=
  withOptions capacity 64 (defaultSampleSize capacity) .u8 false

variable (capacity minWidth sampleSizeFloor : Nat)

def withCapacityAndFloor : TinyLfu :=
  withOptions capacity minWidth (max (defaultSampleSize capacity) sampleSizeFloor) .u8 false

def withPacked4Bit : TinyLfu :=
  withOptions capacity minWidth (max (defaultSampleSize capacity) sampleSizeFloor) .packed4Bit false

def withDoorkeeper : TinyLfu :=
  withOptions capacity minWidth (max (defaultSampleSize capacity) sampleSizeFloor) .u8 true

def withTwoCounterDecay : TinyLfu :=
  withOptions capacity minWidth (max (defaultSampleSize capacity) sampleSizeFloor) .twoCounter false

variable (t : TinyLfu) (hash : UInt64)

def index (row : Nat) : Nat :=
  sketchIndex t.width t.mask hash row

def estimate : UInt8 :=
  (List.range DEPTH).foldl (fun least row => min least (t.counters.load (t.index hash row))) 255

def age : TinyLfu :=
  { t with
    counters := t.counters.age
    doorkeeper := t.doorkeeper.map DoorKeeper.clear }

def recordSample : TinyLfu :=
  if t.sampleSize ≤ t.samples + 1 then age { t with samples := 0 }
  else { t with samples := t.samples + 1 }

/-- The counters of a hash go up, with the new estimate. -/
def countUp : TinyLfu × UInt8 :=
  let counters := (List.range DEPTH).foldl
    (fun counters row => counters.saturatingIncrement (t.index hash row))
    t.counters
  let t := recordSample { t with counters := counters }
  (t, t.estimate hash)

/-- The doorkeeper takes the first sighting of a hash. -/
def increment : TinyLfu × UInt8 :=
  match t.doorkeeper with
  | none => t.countUp hash
  | some doorkeeper =>
    match doorkeeper.checkAndSet hash with
    | (doorkeeper, false) =>
      let t := recordSample { t with doorkeeper := some doorkeeper }
      (t, t.estimate hash)
    | (doorkeeper, true) => countUp { t with doorkeeper := some doorkeeper } hash

end TinyLfu

end MemoryFirst.Core
