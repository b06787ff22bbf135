/-
The core log read back: what the replay makes of one record, of a whole
file, and of a cut one.

# What is seen of a record

A record whose payload is within the replay's limit is read as `seen`:
itself, except that a value encoded as no bytes is not there. Beyond the
limit the replay stops, or, where the length no longer fits 32 bits, goes
on inside the record: `nextRecord_eq_some` bounds what one pass can take.
-/
import MemoryFirst.Core.Wal

namespace MemoryFirst.Core.Wal

open Lib List

variable {K V : Type} (codec : WalCodec K V)

/-- The record the replay should hand out. -/
def replayed (r : FlushRecord K V) : ReplayRecord K V :=
  ⟨r.key, r.value, r.version, r.op⟩

/-- The record the replay does hand out. -/
def seen (r : FlushRecord K V) : ReplayRecord K V :=
  ⟨r.key, r.value.filter fun v => codec.encodeValue v ≠ [], r.version, r.op⟩

variable {r : FlushRecord K V}

theorem seen_eq_replayed : seen codec r = replayed r ↔
      ∀ v, r.value = some v → codec.encodeValue v ≠ [] := by
  obtain ⟨key, value, version, op⟩ := r
  cases value with
  | none => simp [seen, replayed]
  | some v =>
    by_cases hv : codec.encodeValue v = []
    · simp [seen, replayed, Option.filter, hv]
    · simp [seen, replayed, Option.filter, hv]

-- ===== the payload

section

variable {codec}

/-- The value part of a payload. -/
theorem reads_readValue (hlaw : codec.Lawful) (value : Option V) :
    (∀ v, value = some v → (codec.encodeValue v).length < 256 ^ 4) →
    Reads (readValue codec) (match value with
        | some v => writeSized (codec.encodeValue v)
        | none => leBytes 4 0)
      (value.filter fun v => codec.encodeValue v ≠ []) := by
  intro hlen
  have hzero : Reads (readValue codec) (leBytes 4 0) none := by
    refine (reads_readNat () (by decide)).bind ?_
    exact Reads.pure none
  cases value with
  | none => exact hzero
  | some v =>
    have hfit := hlen v rfl
    show Reads (readValue codec) (writeSized (codec.encodeValue v)) _
    unfold writeSized
    by_cases hv : codec.encodeValue v = []
    · rw [hv, length_nil, append_nil]
      simpa [Option.filter, hv] using hzero
    have hpos : (codec.encodeValue v).length ≠ 0 :=
      fun h => hv (length_eq_zero_iff.1 h)
    have hsome : (some v).filter (fun v => codec.encodeValue v ≠ []) = some v := by
      simp [Option.filter, hv]
    rw [hsome]
    have hdecoded : Reads (do
        let v' ← liftM (decoded (codec.decodeValue (codec.encodeValue v)))
        return some v' : Parser Unit (Option V)) [] (some v) :=
      (reads_liftM (by rw [hlaw.value v]; rfl)).bind_pure
    refine (reads_readNat () hfit).bind (Reads.ite_neg hpos ?_)
    exact (reads_takeBytes () rfl).bind_last hdecoded

theorem opOfByte_opByte (op : Operation) : opOfByte (leNat [opByte op]) = .ok op := by
  cases op <;> rfl

/-- The payload reader follows the payload's fields one by one. -/
theorem reads_readPayload (hlaw : codec.Lawful) (hversion : r.version < 2 ^ 64)
    (hkey : (codec.encodeKey r.key).length < 256 ^ 4)
    (hvalue : ∀ v, r.value = some v → (codec.encodeValue v).length < 256 ^ 4) :
    Reads (readPayload codec) (payloadBytes codec r) (seen codec r) := by
  have hcode : Reads (readNat () 1) [opByte r.op] (leNat [opByte r.op]) :=
    (reads_takeBytes () rfl).bind_pure
  have hver : r.version < 256 ^ 8 := hversion
  refine hcode.bind ((reads_liftM (opOfByte_opByte r.op)).bind_nil ?_)
  refine (reads_readNat () hver).bind ((reads_readNat () hkey).bind ?_)
  refine (reads_takeBytes () rfl).bind ?_
  refine (reads_liftM (by rw [hlaw.key r.key]; rfl)).bind_nil ?_
  exact (reads_readValue hlaw r.value hvalue).bind_pure

theorem length_payloadBytes (r : FlushRecord K V) :
    (payloadBytes codec r).length = 17 + (codec.encodeKey r.key).length + match r.value with
        | some v => (codec.encodeValue v).length
        | none => 0 := by
  unfold payloadBytes writeSized
  cases r.value with
  | none | some _ =>
    simp only [length_cons, length_append, length_leBytes]
    omega

theorem decodePayload_payloadBytes (hlaw : codec.Lawful) (hversion : r.version < 2 ^ 64)
    (hlen : (payloadBytes codec r).length ≤ MAX_REPLAY_PAYLOAD_BYTES) :
    decodePayload codec (payloadBytes codec r) = some (seen codec r) := by
  have hmax : MAX_REPLAY_PAYLOAD_BYTES < 256 ^ 4 := by decide
  rw [length_payloadBytes] at hlen
  have hread := reads_readPayload hlaw hversion
    (by omega) (fun v hv => by rw [hv] at hlen; simp only at hlen; omega)
  simp only [decodePayload, hread.run_eq, if_true]

end

-- ===== one record

variable (crc32c : List UInt8 → UInt32)

section

variable {codec}

theorem leNat_magic : leNat (leBytes 4 RECORD_MAGIC) = RECORD_MAGIC := by
  decide

/-- A record within the limit, at the front of the unread bytes. -/
theorem nextRecord_recordBytes (hlaw : codec.Lawful) (hversion : r.version < 2 ^ 64)
    (hlen : (payloadBytes codec r).length ≤ MAX_REPLAY_PAYLOAD_BYTES)
    (rest : List UInt8) :
    nextRecord codec crc32c (recordBytes codec crc32c r ++ rest) = some (seen codec r, rest) := by
  have htotal := length_packet RECORD_MAGIC crc32c (payloadBytes codec r)
  have hfit : (payloadBytes codec r).length < 256 ^ 4 :=
    Nat.lt_of_le_of_lt hlen (by decide)
  have hcrc : (crc32c (packetBody RECORD_MAGIC
      (payloadBytes codec r))).toNat < 256 ^ 4 := (crc32c _).toNat_lt
  obtain ⟨h1, h2, h3, h4, h5⟩ :=
    packet_append_take RECORD_MAGIC crc32c (payloadBytes codec r) rest rfl
  have hdrop : (packet RECORD_MAGIC crc32c (payloadBytes codec r)
      ++ rest).drop (8 + (payloadBytes codec r).length + 4) = rest :=
    drop_left' htotal
  have hall : (packet RECORD_MAGIC crc32c (payloadBytes codec r)
      ++ rest).length = 8 + (payloadBytes codec r).length + 4 + rest.length := by
    rw [length_append, htotal]
  unfold recordBytes
  unfold nextRecord
  rw [if_neg (by omega), h1, leNat_magic, if_neg (by simp), h2, leNat_leBytes_of_lt hfit]
  rw [if_neg (by omega), if_neg (by omega), h3, h5,
    leNat_leBytes_of_lt hcrc, if_neg (by simp), h4,
    decodePayload_payloadBytes hlaw hversion hlen, hdrop]
  rfl

/-- What a pass that reads a record has checked, and what it took. -/
theorem nextRecord_eq_some {rest rest' : List UInt8} {x : ReplayRecord K V}
    (h : nextRecord codec crc32c rest = some (x, rest')) :
    leNat (rest.take 4) = RECORD_MAGIC
      ∧ ∃ n ≤ MAX_REPLAY_PAYLOAD_BYTES, leNat ((rest.drop 4).take 4) = n
        ∧ rest.length = 12 + n + rest'.length
        ∧ decodePayload codec ((rest.drop 8).take n) = some x := by
  obtain ⟨-, h⟩ := of_ite_eq h nofun
  obtain ⟨hmagic, h⟩ := of_ite_eq h nofun
  obtain ⟨hle, h⟩ := of_ite_eq h nofun
  obtain ⟨hwhole, h⟩ := of_ite_eq h nofun
  obtain ⟨-, h⟩ := of_ite_eq h nofun
  obtain ⟨record, hdecoded, heq⟩ := Option.map_eq_some_iff.1 h
  cases heq
  refine ⟨Decidable.not_not.1 hmagic, _, Nat.not_lt.1 hle, rfl, ?_, hdecoded⟩
  rw [length_drop]
  omega

end

-- ===== the file

section

variable {codec}

/-- The replay needs of a record that its payload is within the limit and
that its value, if it has one, has bytes. -/
def Replayable (codec : WalCodec K V) (r : FlushRecord K V) : Prop :=
  (payloadBytes codec r).length ≤ MAX_REPLAY_PAYLOAD_BYTES ∧ ∀ v ∈ r.value, codec.encodeValue v ≠ []

instance (r : FlushRecord K V) : Decidable (Replayable codec r) :=
  inferInstanceAs (Decidable (_ ∧ _))

/-- The bytes of a list of records, back to back. -/
def encodeFile (codec : WalCodec K V) (rs : List (FlushRecord K V)) : List UInt8 :=
  rs.flatMap (recordBytes codec crc32c)

variable (b : WalBackend) (rs : List (FlushRecord K V))

theorem file_writeRecords :
    (writeRecords codec crc32c b rs).file = b.file ++ encodeFile crc32c codec rs := by
  induction rs generalizing b with
  | nil => simp [writeRecords, encodeFile]
  | cons r rs ih =>
    have htail := ih (writeRecord codec crc32c b r)
    rw [writeRecords, foldl_cons, ← writeRecords, htail, encodeFile,
      encodeFile, flatMap_cons, ← append_assoc]
    rfl

theorem file_flush : (flush codec crc32c b rs).file = b.file ++ encodeFile crc32c codec rs := by
  have hmaybe : ∀ b : WalBackend, (maybeSync b).file = b.file := by
    intro b
    unfold maybeSync
    split <;> rfl
  rw [flush, hmaybe, file_writeRecords]

variable {rs : List (FlushRecord K V)}

/-- The loop passes over records within the limit one by one. -/
theorem replayLoop_append (hlaw : codec.Lawful) (hversion : ∀ r ∈ rs, r.version < 2 ^ 64)
    (hlen : ∀ r ∈ rs, (payloadBytes codec r).length ≤ MAX_REPLAY_PAYLOAD_BYTES)
    (rest : List UInt8) (fuel : Nat) :
    replayLoop codec crc32c (rs.length + fuel) (encodeFile crc32c codec rs ++ rest)
      = (rs.map (seen codec) ++ (replayLoop codec crc32c fuel rest).1,
        (replayLoop codec crc32c fuel rest).2) := by
  induction rs with
  | nil => simp [encodeFile]
  | cons r rs ih =>
    have htail := ih (fun x hx => hversion x (mem_cons_of_mem r hx))
      (fun x hx => hlen x (mem_cons_of_mem r hx))
    have hfuel : (r :: rs).length + fuel = (rs.length + fuel) + 1 := by
      rw [length_cons]
      omega
    have hbytes : encodeFile crc32c codec (r :: rs) ++ rest = recordBytes codec crc32c r
          ++ (encodeFile crc32c codec rs ++ rest) := by
      rw [encodeFile, flatMap_cons, append_assoc]
      rfl
    rw [hfuel, hbytes, replayLoop, nextRecord_recordBytes crc32c hlaw
      (hversion r mem_cons_self) (hlen r mem_cons_self)]
    simp only [htail]
    rfl

/-- The file's length is more than the number of its records. -/
theorem exists_fuel (rs : List (FlushRecord K V)) (rest : List UInt8) :
    ∃ fuel, (encodeFile crc32c codec rs ++ rest).length + 1 = rs.length + (fuel + 1) := by
  have hle : rs.length ≤ (encodeFile crc32c codec rs).length := by
    induction rs with
    | nil => exact Nat.zero_le _
    | cons r rs ih =>
      have hr : (recordBytes codec crc32c r).length = 8 + (payloadBytes codec r).length + 4 :=
        length_packet RECORD_MAGIC crc32c (payloadBytes codec r)
      rw [encodeFile, flatMap_cons, length_append, ← encodeFile, length_cons]
      omega
  refine ⟨(encodeFile crc32c codec rs ++ rest).length - rs.length, ?_⟩
  rw [length_append]
  omega

/-- The replay of records within the limit, up to whatever stops it. -/
theorem replay_append (hlaw : codec.Lawful) (hversion : ∀ r ∈ rs, r.version < 2 ^ 64)
    (hlen : ∀ r ∈ rs, (payloadBytes codec r).length ≤ MAX_REPLAY_PAYLOAD_BYTES)
    (rest : List UInt8) : ∃ fuel, replay codec crc32c (encodeFile crc32c codec rs ++ rest)
        = (rs.map (seen codec) ++ (replayLoop codec crc32c (fuel + 1) rest).1,
          (replayLoop codec crc32c (fuel + 1) rest).2) := by
  obtain ⟨fuel, hfuel⟩ := exists_fuel crc32c rs rest
  refine ⟨fuel, ?_⟩
  rw [replay, hfuel, replayLoop_append crc32c hlaw hversion hlen]

/-- Replayable records are seen as they are. -/
theorem map_seen (hrs : ∀ r ∈ rs, Replayable codec r) : rs.map (seen codec) = rs.map replayed :=
  map_congr_left fun r hr => (seen_eq_replayed codec).2 (hrs r hr).2

variable (hlaw : codec.Lawful) (hversion : ∀ r ∈ rs, r.version < 2 ^ 64)
  (hrs : ∀ r ∈ rs, Replayable codec r)

include hlaw hversion hrs

/-- Replayable records are read back as they are, up to a torn tail. -/
theorem replay_encodeFile {tail : List UInt8} (htail : nextRecord codec crc32c tail = none) :
    replay codec crc32c (encodeFile crc32c codec rs ++ tail) = (rs.map replayed, tail) := by
  obtain ⟨fuel, heq⟩ := replay_append crc32c hlaw hversion (fun r hr => (hrs r hr).1) tail
  have hstop : replayLoop codec crc32c (fuel + 1) tail = ([], tail) := by
    rw [replayLoop, htail]
  rw [heq, hstop, map_seen hrs, append_nil]

end

end MemoryFirst.Core.Wal
