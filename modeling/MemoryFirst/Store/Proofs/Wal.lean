/-
The raw WAL segment read back: record round trip, torn tails, and the
scan of a whole log.

# The log

`encodeFile` is the concatenation of the frames of a list of records.
A list is a `Log` when every record is `Readable` (within the limits of
the DECODER, which are narrower than the encoder's) and the LSNs
increase. The scan of a log followed by a torn tail returns the log and
stops at its end (`scan_log`); everything a reader, a replay or a
reopening writer does with the segment is read off that one lemma.

# Torn tails

A proper front part of a frame is torn (`nextFrame_torn`), and cutting a
log anywhere leaves its whole records and such a part
(`take_encodeFile`).
-/
import MemoryFirst.Lib.Packets
import MemoryFirst.Store.Wal

namespace MemoryFirst.Store.Wal

open Lib Function List

-- ===== the payload

/-- A record the decoder accepts: within the decoder's limits, with a
collection name, and a value exactly when it is a put. -/
structure Readable (r : RawWalRecord) : Prop where
  lsn_lt : r.lsn < 2 ^ 64
  version_lt : r.version < 2 ^ 64
  named : r.collection ≠ ""
  shape : r.op = .put ↔ r.value.isSome
  collection_le : (utf8 r.collection).length ≤ RAW_WAL_MAX_FIELD_BYTES
  key_le : r.key.length ≤ RAW_WAL_MAX_FIELD_BYTES
  value_le : (r.value.getD []).length ≤ RAW_WAL_MAX_FIELD_BYTES
  payload_le : (payloadBytes r).length ≤ RAW_WAL_MAX_PAYLOAD_BYTES

instance (r : RawWalRecord) : Decidable (Readable r) :=
  decidable_of_iff (r.lsn < 2 ^ 64 ∧ r.version < 2 ^ 64
      ∧ r.collection ≠ "" ∧ (r.op = .put ↔ r.value.isSome)
      ∧ (utf8 r.collection).length ≤ RAW_WAL_MAX_FIELD_BYTES
      ∧ r.key.length ≤ RAW_WAL_MAX_FIELD_BYTES
      ∧ (r.value.getD []).length ≤ RAW_WAL_MAX_FIELD_BYTES
      ∧ (payloadBytes r).length ≤ RAW_WAL_MAX_PAYLOAD_BYTES)
    ⟨fun ⟨h1, h2, h3, h4, h5, h6, h7, h8⟩ => ⟨h1, h2, h3, h4, h5, h6, h7, h8⟩,
      fun ⟨h1, h2, h3, h4, h5, h6, h7, h8⟩ => ⟨h1, h2, h3, h4, h5, h6, h7, h8⟩⟩

/-- What the encoder accepts. Its limits are per field, and it takes any
collection name. -/
structure Encodable (r : RawWalRecord) : Prop where
  shape : r.op = .put ↔ r.value.isSome
  collection_le : (utf8 r.collection).length ≤ RAW_WAL_MAX_FIELD_BYTES
  key_le : r.key.length ≤ RAW_WAL_MAX_FIELD_BYTES
  value_le : (r.value.getD []).length ≤ RAW_WAL_MAX_FIELD_BYTES

theorem Readable.encodable {r : RawWalRecord} (hr : Readable r) : Encodable r :=
  ⟨hr.shape, hr.collection_le, hr.key_le, hr.value_le⟩

/-- The size of the payload of a record with these fields. -/
def payloadLen (collection : String) (key : RawKey) (value : Option RawValue) : Nat :=
  31 + (utf8 collection).length + key.length + (value.getD []).length

theorem length_payloadBytes (r : RawWalRecord) :
    (payloadBytes r).length = payloadLen r.collection r.key r.value := by
  simp only [payloadBytes, payloadLen, writeLenPrefixed, length_append, length_leBytes]
  omega

section

variable (offset : Nat) {bytes : List UInt8}

theorem reads_readBytes (h : bytes.length ≤ RAW_WAL_MAX_FIELD_BYTES) :
    Reads (readBytes offset) (writeLenPrefixed bytes) bytes := by
  have hlt : bytes.length < 256 ^ 4 := Nat.lt_of_le_of_lt h (by decide)
  refine (reads_readNat _ hlt).bind ?_
  exact Reads.ite_neg (by omega) (reads_takeBytes _ rfl)

theorem collectionOfBytes_utf8 {s : String} (h : s ≠ "") :
    collectionOfBytes offset (utf8 s) = .ok s := by
  simp only [collectionOfBytes, fromUtf8_utf8, if_neg h]

theorem opOfCode_opCode (op : Operation) : opOfCode offset (opCode op) = .ok op := by
  cases op <;> rfl

theorem valueOfBytes_getD {op : Operation} {value : Option RawValue}
    (h : op = .put ↔ value.isSome) :
    valueOfBytes offset op (value.getD []) = .ok value := by
  cases op with
  | put =>
    obtain ⟨v, rfl⟩ := Option.isSome_iff_exists.1 (h.1 rfl)
    rfl
  | delete =>
    have hnone : value = none := by
      cases value with
      | none => rfl
      | some v => exact absurd (h.2 rfl) (by decide)
    subst hnone
    rfl

variable {r : RawWalRecord}

section

variable (hr : Encodable r) (hlsn : r.lsn < 2 ^ 64) (hversion : r.version < 2 ^ 64)
  (hnamed : r.collection ≠ "")

include hr hlsn hversion hnamed

/-- The payload reader follows the payload's fields one by one. -/
theorem reads_readPayload : Reads (readPayload offset) (payloadBytes r) r := by
  have hver : RAW_WAL_FORMAT_VERSION < 256 ^ 2 := by decide
  have hlsn : r.lsn < 256 ^ 8 := hlsn
  have hversion : r.version < 256 ^ 8 := hversion
  have hop : opCode r.op < 256 ^ 1 := by cases r.op <;> decide
  simp only [payloadBytes, append_assoc]
  refine (reads_readNat _ hver).bind (Reads.ite_neg (by simp) ?_)
  refine (reads_readNat _ hlsn).bind ((reads_readNat _ hversion).bind ?_)
  refine (reads_readBytes offset hr.collection_le).bind ?_
  refine (reads_liftM (collectionOfBytes_utf8 offset hnamed)).bind_nil ?_
  refine (reads_readNat _ hop).bind ?_
  refine (reads_liftM (opOfCode_opCode offset r.op)).bind_nil ?_
  refine (reads_readBytes offset hr.key_le).bind ?_
  rw [← append_nil (writeLenPrefixed (r.value.getD []))]
  refine (reads_readBytes offset hr.value_le).bind ?_
  exact (reads_liftM (valueOfBytes_getD offset hr.shape)).bind_pure

theorem decodePayload_payloadBytes : decodePayload (payloadBytes r) offset = .ok r := by
  simp only [decodePayload, (reads_readPayload offset hr hlsn hversion hnamed).run_eq]
  rfl

end

end

-- ===== the frame

variable (crc32c : List UInt8 → UInt32)

section

/-- The bytes of one record in the segment. -/
def recordBytes (r : RawWalRecord) : List UInt8 :=
  frame crc32c (payloadBytes r)

variable (payload : List UInt8)

theorem length_framePrefix : (framePrefix payload).length = HEADER_LEN + payload.length :=
  length_packetBody RAW_WAL_RECORD_MAGIC payload

theorem length_frame : (frame crc32c payload).length
      = HEADER_LEN + payload.length + CHECKSUM_LEN := by
  exact length_packet RAW_WAL_RECORD_MAGIC crc32c payload

/-- The front of a frame, as the scanner takes it apart. -/
theorem frame_append_take (payload rest : List UInt8) {bytes : List UInt8}
    (h : bytes = frame crc32c payload ++ rest) : bytes.take 4 = leBytes 4 RAW_WAL_RECORD_MAGIC
      ∧ (bytes.drop 4).take 4 = leBytes 4 payload.length
      ∧ bytes.take (HEADER_LEN + payload.length) = framePrefix payload
      ∧ (bytes.drop HEADER_LEN).take payload.length = payload
      ∧ (bytes.drop (HEADER_LEN + payload.length)).take CHECKSUM_LEN
        = leBytes 4 (crc32c (framePrefix payload)).toNat := by
  exact packet_append_take RAW_WAL_RECORD_MAGIC crc32c payload rest h

theorem leNat_magic : leNat (leBytes 4 RAW_WAL_RECORD_MAGIC) = RAW_WAL_RECORD_MAGIC := by
  decide

/-- A readable record at the front of the unread bytes is read. -/
theorem nextFrame_frame {r : RawWalRecord} (start : Nat) (hr : Readable r) (rest : List UInt8) :
    nextFrame crc32c start (recordBytes crc32c r ++ rest)
      = .ok (some (r, (recordBytes crc32c r).length)) := by
  have hlen := length_frame crc32c (payloadBytes r)
  have hlt : (payloadBytes r).length < 256 ^ 4 :=
    Nat.lt_of_le_of_lt hr.payload_le (by decide)
  have hcrc : (crc32c (framePrefix (payloadBytes r))).toNat < 256 ^ 4 :=
    (crc32c _).toNat_lt
  obtain ⟨h1, h2, h3, h4, h5⟩ := frame_append_take crc32c (payloadBytes r) rest rfl
  have htotal : (frame crc32c (payloadBytes r) ++ rest).length
      = HEADER_LEN + (payloadBytes r).length + CHECKSUM_LEN + rest.length := by
    rw [length_append, hlen]
  unfold recordBytes
  unfold nextFrame
  rw [if_neg (by omega), h1, leNat_magic, if_neg (by simp), h2, leNat_leBytes_of_lt hlt]
  rw [if_neg (by omega), if_neg (Nat.not_lt.2 hr.payload_le), h3, h5,
    leNat_leBytes_of_lt hcrc, if_neg (by simp), h4,
    decodePayload_payloadBytes start hr.encodable hr.lsn_lt hr.version_lt hr.named, hlen]
  rfl

variable {n : Nat} {payload : List UInt8}

/-- A proper front part of a frame reads as a torn tail. -/
theorem nextFrame_torn (start : Nat) (hlt : payload.length < 256 ^ 4)
    (hn : n < (frame crc32c payload).length) :
    nextFrame crc32c start ((frame crc32c payload).take n) = .ok none := by
  have hlen := length_frame crc32c payload
  have htake : ((frame crc32c payload).take n).length = n := by
    rw [length_take]
    omega
  unfold nextFrame
  by_cases hhead : n < HEADER_LEN
  · rw [if_pos (by omega)]
  -- the header is whole, so the length it states is the frame's own
  obtain ⟨h1, h2, -⟩ := frame_append_take crc32c payload [] (append_nil _).symm
  have hn8 : 8 ≤ n := by simpa [HEADER_LEN] using hhead
  rw [if_neg (by omega), take_take, Nat.min_eq_left (by omega), h1,
    leNat_magic, if_neg (by simp), drop_take, take_take,
    Nat.min_eq_left (by omega), h2, leNat_leBytes_of_lt hlt]
  rw [if_pos (by omega)]

-- ===== the log

variable (rs : List RawWalRecord)

/-- The bytes of a list of records, back to back. -/
def encodeFile : List UInt8 :=
  rs.flatMap (recordBytes crc32c)

theorem encodeFile_cons (r : RawWalRecord) (rs : List RawWalRecord) : encodeFile crc32c (r :: rs)
      = recordBytes crc32c r ++ encodeFile crc32c rs := rfl

theorem encodeFile_append (rs rs' : List RawWalRecord) : encodeFile crc32c (rs ++ rs')
      = encodeFile crc32c rs ++ encodeFile crc32c rs' := by
  simp [encodeFile]

theorem length_recordBytes (r : RawWalRecord) :
    (recordBytes crc32c r).length = 12 + (payloadBytes r).length := by
  rw [recordBytes, length_frame]
  simp only [HEADER_LEN, CHECKSUM_LEN]
  omega

theorem length_le_encodeFile : rs.length ≤ (encodeFile crc32c rs).length := by
  induction rs with
  | nil => exact Nat.zero_le _
  | cons r rs ih =>
    have hr := length_recordBytes crc32c r
    rw [encodeFile_cons, length_append, length_cons]
    omega

end

/-- The records of a segment: each readable, LSNs increasing from above
`last`. -/
structure LogAfter (last : Lsn) (rs : List RawWalRecord) : Prop where
  readable : ∀ r ∈ rs, Readable r
  increasing : (last :: rs.map RawWalRecord.lsn).Pairwise (· < ·)

/-- The records of a whole segment. -/
abbrev Log (rs : List RawWalRecord) : Prop := LogAfter 0 rs

instance (last : Lsn) (rs : List RawWalRecord) : Decidable (LogAfter last rs) :=
  decidable_of_iff ((∀ r ∈ rs, Readable r) ∧ (last :: rs.map RawWalRecord.lsn).Pairwise (· < ·))
    ⟨fun ⟨h1, h2⟩ => ⟨h1, h2⟩, fun ⟨h1, h2⟩ => ⟨h1, h2⟩⟩

theorem LogAfter.nil (last : Lsn) : LogAfter last [] :=
  ⟨by simp, by simp⟩

variable {rs : List RawWalRecord} {last : Lsn} {r : RawWalRecord}

theorem LogAfter.cons_iff : LogAfter last (r :: rs) ↔
      Readable r ∧ last < r.lsn ∧ LogAfter r.lsn rs := by
  constructor
  · intro h
    have hinc := h.increasing
    simp only [map_cons, pairwise_cons, mem_cons] at hinc
    refine ⟨h.readable r mem_cons_self, hinc.1 _ (Or.inl rfl), ?_⟩
    refine ⟨fun x hx => h.readable x (mem_cons_of_mem r hx), ?_⟩
    exact pairwise_cons.2 hinc.2
  · rintro ⟨hr, hlt, htail⟩
    have hinc := pairwise_cons.1 htail.increasing
    refine ⟨?_, ?_⟩
    · exact forall_mem_cons.2 ⟨hr, htail.readable⟩
    · simp only [map_cons, pairwise_cons, mem_cons]
      refine ⟨?_, hinc⟩
      intro n hn
      rcases hn with rfl | hn
      · exact hlt
      · exact Nat.lt_trans hlt (hinc.1 n hn)

/-- The LSN a scan has seen last. -/
def lastLsn : Lsn → List RawWalRecord → Lsn
  | last, [] => last
  | _, r :: rs => lastLsn r.lsn rs

theorem lastLsn_append (last : Lsn) (rs : List RawWalRecord)
    (r : RawWalRecord) : lastLsn last (rs ++ [r]) = r.lsn := by
  induction rs generalizing last with
  | nil => rfl
  | cons x rs ih => exact ih x.lsn

theorem LogAfter.append (h : LogAfter last rs) (hr : Readable r)
    (hlt : lastLsn last rs < r.lsn) : LogAfter last (rs ++ [r]) := by
  induction rs generalizing last with
  | nil => exact LogAfter.cons_iff.2 ⟨hr, hlt, LogAfter.nil _⟩
  | cons x rs ih =>
    obtain ⟨hx, hlx, htail⟩ := LogAfter.cons_iff.1 h
    exact LogAfter.cons_iff.2 ⟨hx, hlx, ih htail hlt⟩

/-- A bound on the LSNs bounds the last one. -/
theorem lastLsn_lt_of_forall {bound : Nat} (h : ∀ r ∈ rs, r.lsn < bound)
    (hlast : last < bound) : lastLsn last rs < bound := by
  induction rs generalizing last with
  | nil => exact hlast
  | cons r rs ih =>
    exact ih (fun x hx => h x (mem_cons_of_mem r hx)) (h r mem_cons_self)

/-- Every LSN of a log is at most the last one. -/
theorem LogAfter.le_lastLsn (h : LogAfter last rs) : last ≤ lastLsn last rs
      ∧ ∀ r ∈ rs, r.lsn ≤ lastLsn last rs := by
  induction rs generalizing last with
  | nil => exact ⟨Nat.le_refl _, by simp⟩
  | cons r rs ih =>
    obtain ⟨-, hlt, htail⟩ := LogAfter.cons_iff.1 h
    obtain ⟨hle, hall⟩ := ih htail
    exact ⟨Nat.le_trans (Nat.le_of_lt hlt) hle, forall_mem_cons.2 ⟨hle, hall⟩⟩

theorem LogAfter.lastLsn_lt (h : LogAfter last (rs ++ [r])) : lastLsn last rs < r.lsn := by
  induction rs generalizing last with
  | nil => exact (LogAfter.cons_iff.1 h).2.1
  | cons x rs ih => exact ih (LogAfter.cons_iff.1 h).2.2

variable {front : List RawWalRecord}

/-- A front part of a log ends no later. -/
theorem LogAfter.lastLsn_le (h : LogAfter last rs)
    (hfront : front <+: rs) : lastLsn last front ≤ lastLsn last rs := by
  induction front generalizing last rs with
  | nil => exact h.le_lastLsn.1
  | cons r front ih =>
    obtain ⟨rest, rfl⟩ := hfront
    exact ih (LogAfter.cons_iff.1 h).2.2 (prefix_append front rest)

/-- A part of a log, in order, is a log. -/
theorem LogAfter.sublist {rs' : List RawWalRecord} (h : LogAfter last rs)
    (hsub : rs'.Sublist rs) : LogAfter last rs' where
  readable r hr := h.readable r (hsub.subset hr)
  increasing := h.increasing.sublist ((hsub.map _).cons_cons last)

-- ===== cuts

variable {tail : List UInt8}

section

/-- The records wholly inside the first `n` bytes of their segment. -/
def wholeWithin : Nat → List RawWalRecord → List RawWalRecord
  | _, [] => []
  | n, r :: rs =>
    if (recordBytes crc32c r).length ≤ n then
      r :: wholeWithin (n - (recordBytes crc32c r).length) rs
    else []

theorem wholeWithin_eq (n : Nat) (rs : List RawWalRecord) :
    wholeWithin crc32c n rs = blocksWithin (recordBytes crc32c) n rs := by
  induction rs generalizing n with
  | nil => rfl
  | cons r rs ih => rw [wholeWithin, blocksWithin, ih]

theorem wholeWithin_prefix (n : Nat) (rs : List RawWalRecord) : wholeWithin crc32c n rs <+: rs := by
  rw [wholeWithin_eq]
  exact prefix_blocksWithin (recordBytes crc32c) n rs

/-- The end of a segment that a scan stops at. -/
abbrev Torn (tail : List UInt8) : Prop :=
  ∀ start, nextFrame crc32c start tail = .ok none

theorem nextFrame_nil (start : Nat) : nextFrame crc32c start [] = .ok none := rfl

/-- What is left of a torn tail is torn. -/
theorem nextFrame_take {start : Nat} (h : nextFrame crc32c start tail = .ok none) (n : Nat) :
    nextFrame crc32c start (tail.take n) = .ok none := by
  by_cases hn : tail.length ≤ n
  · rw [take_of_length_le hn]
    exact h
  have hlen : (tail.take n).length = n := by
    rw [length_take]
    omega
  unfold nextFrame at h ⊢
  by_cases hhead : n < HEADER_LEN
  · rw [if_pos (by omega)]
  -- the header is whole, and the frame it announces is not
  have hn8 : 8 ≤ n := by simpa [HEADER_LEN] using hhead
  rw [if_neg (by simp only [HEADER_LEN]; omega)] at h
  rw [if_neg (by omega), take_take, Nat.min_eq_left (by omega),
    drop_take, take_take, Nat.min_eq_left (by omega)]
  obtain ⟨hmagic, h⟩ := of_ite_eq h nofun
  rw [if_neg hmagic]
  simp only at h ⊢
  rw [if_pos]
  split at h
  case isTrue hshort => omega
  case isFalse hwhole =>
    obtain ⟨-, h⟩ := of_ite_eq h nofun
    split at h
    case isTrue =>
      split at h
      case isTrue hlast => omega
      case isFalse => cases h
    case isFalse =>
      obtain ⟨r, -, hr⟩ := bind_eq_ok.1 h
      cases hr

/-- Frames and a torn tail, cut at any byte, are the whole frames and a
torn tail. -/
theorem take_frames (hlen : ∀ r ∈ rs, (payloadBytes r).length < 256 ^ 4)
    (htail : Torn crc32c tail) (n : Nat) : ∃ tail', Torn crc32c tail'
      ∧ (encodeFile crc32c rs ++ tail).take n
        = encodeFile crc32c (wholeWithin crc32c n rs) ++ tail' := by
  obtain ⟨tail', heq, htorn⟩ := take_stream (recordBytes crc32c) rs tail n
  rw [wholeWithin_eq]
  refine ⟨tail', fun start => ?_, heq⟩
  rcases htorn with ⟨m, rfl⟩ | ⟨r, hr, m, hm, rfl⟩
  · exact nextFrame_take crc32c (htail start) m
  · exact nextFrame_torn crc32c start (hlen r hr) hm

theorem LogAfter.payload_lt (h : LogAfter last rs) : ∀ r ∈ rs, (payloadBytes r).length < 256 ^ 4 :=
  fun r hr => Nat.lt_of_le_of_lt (h.readable r hr).payload_le (by decide)

theorem take_encodeFile (hlog : LogAfter last rs) (n : Nat) :
    ∃ tail, Torn crc32c tail ∧ (encodeFile crc32c rs).take n
      = encodeFile crc32c (wholeWithin crc32c n rs) ++ tail := by
  have hcut := take_frames crc32c hlog.payload_lt (nextFrame_nil crc32c) n
  rwa [append_nil] at hcut

/-- A cut keeps the records that lie in front of it. -/
theorem prefix_wholeWithin {n : Nat} (hfront : front <+: rs)
    (hn : (encodeFile crc32c front).length ≤ n) :
    front <+: wholeWithin crc32c n rs := by
  induction front generalizing rs n with
  | nil => exact nil_prefix
  | cons r front ih =>
    obtain ⟨rest, rfl⟩ := hfront
    rw [encodeFile_cons, length_append] at hn
    rw [cons_append, wholeWithin, if_pos (by omega)]
    exact (prefix_cons_inj r).2 (ih (prefix_append front rest) (by omega))

end

section

variable {σ : Type}

/-- The scan passes over a log record by record, each going to the
callback, and goes on with what follows. -/
theorem scanLoop_append (onRecord : σ → RawWalRecord → StoreResult σ) (rest : List UInt8)
    (hlog : LogAfter last rs)
    (fuel start n : Nat) (s : σ) :
    scanLoop crc32c onRecord (rs.length + fuel) start (encodeFile crc32c rs ++ rest) ⟨n, last⟩ s
      = (do
          let s' ← rs.foldlM onRecord s
          scanLoop crc32c onRecord fuel (start + (encodeFile crc32c rs).length) rest
            ⟨n + rs.length, lastLsn last rs⟩ s') := by
  induction rs generalizing last start n s with
  | nil =>
    rw [length_nil, Nat.zero_add]
    rfl
  | cons r rs ih =>
    obtain ⟨hr, hlt, htail⟩ := LogAfter.cons_iff.1 hlog
    have hdrop : (recordBytes crc32c r ++ (encodeFile crc32c rs ++ rest)).drop
          (recordBytes crc32c r).length
        = encodeFile crc32c rs ++ rest := drop_left' rfl
    rw [encodeFile_cons, append_assoc, length_cons,
      Nat.add_right_comm, scanLoop, nextFrame_frame crc32c start hr]
    show (if r.lsn ≤ last then _ else _) = _
    rw [if_neg (Nat.not_le.2 hlt), hdrop, foldlM_cons, bind_assoc]
    congr 1
    funext s'
    rw [ih htail, length_append, Nat.add_assoc start,
      Nat.add_assoc n, Nat.add_comm 1 rs.length]
    rfl

/-- A callback that never fails folds over the records. -/
theorem foldlM_ok (f : σ → RawWalRecord → σ) (rs : List RawWalRecord) (s : σ) :
    rs.foldlM (fun s r => (.ok (f s r) : StoreResult σ)) s = .ok (rs.foldl f s) := by
  induction rs generalizing s with
  | nil => rfl
  | cons r rs ih => exact ih (f s r)

/-- The fuel of a whole scan covers a log at its front and one step
more. -/
theorem exists_fuel (rs : List RawWalRecord) (rest : List UInt8) :
    ∃ fuel, (encodeFile crc32c rs ++ rest).length + 1 = rs.length + (fuel + 1) := by
  have h := length_le_encodeFile crc32c rs
  refine ⟨(encodeFile crc32c rs ++ rest).length - rs.length, ?_⟩
  rw [length_append]
  omega

/-- What follows a log is read with the statistics of the log. -/
theorem scan_append (onRecord : σ → RawWalRecord → StoreResult σ) (hlog : Log rs)
    (rest : List UInt8) (s : σ) :
    ∃ fuel, scanRecordsWithOffsets crc32c onRecord (some (encodeFile crc32c rs ++ rest)) s = (do
          let s' ← rs.foldlM onRecord s
          scanLoop crc32c onRecord (fuel + 1) (encodeFile crc32c rs).length rest
            ⟨rs.length, lastLsn 0 rs⟩ s') := by
  obtain ⟨fuel, hfuel⟩ := exists_fuel crc32c rs rest
  refine ⟨fuel, ?_⟩
  have hscan := scanLoop_append crc32c onRecord rest hlog (fuel + 1) 0 0 s
  rw [Nat.zero_add, Nat.zero_add, ← hfuel] at hscan
  exact hscan

section

variable (htorn : Torn crc32c tail) (hlog : Log rs)

include htorn hlog

/-- The scan of a log with a torn tail stops where the log does. -/
theorem scan_log (onRecord : σ → RawWalRecord → StoreResult σ) (s : σ) :
    scanRecordsWithOffsets crc32c onRecord (some (encodeFile crc32c rs ++ tail)) s = (do
          let s' ← rs.foldlM onRecord s
          return (s', ⟨⟨rs.length, lastLsn 0 rs⟩, (encodeFile crc32c rs).length⟩)) := by
  obtain ⟨fuel, hscan⟩ := scan_append crc32c onRecord hlog tail s
  rw [hscan]
  congr 1
  funext s'
  rw [scanLoop, htorn]
  rfl

/-- Reading a segment returns its whole records. -/
theorem readRecords_log : readRecords crc32c (some (encodeFile crc32c rs ++ tail)) = .ok rs := by
  have hpush : rs.foldl (fun acc r => acc ++ [r]) [] = rs := by
    simp [foldl_append_eq_append, ← flatMap_def]
  rw [readRecords, scan_log crc32c htorn hlog, foldlM_ok, hpush]
  rfl

end

end

-- ===== the writer

/-- The version table a reopening scan rebuilds: the last version of
each key. -/
def versionsOf (rs : List RawWalRecord) : String × RawKey → Option DocumentVersion :=
  rs.foldl (fun t r => update t (r.collection, r.key) (some r.version)) fun _ => none

theorem foldl_note (rs : List RawWalRecord) (s : OpenScan) :
    rs.foldl OpenScan.note s = ⟨lastLsn s.lastLsn rs,
      rs.foldl (fun t r => update t (r.collection, r.key)
        (some r.version)) s.recordVersions⟩ := by
  induction rs generalizing s with
  | nil => rfl
  | cons r rs ih => exact ih (s.note r)

/-- The LSN a writer opened over the log hands out next. -/
def nextLsnAfter (rs : List RawWalRecord) : Lsn :=
  max (saturatingSucc (lastLsn 0 rs)) 1

theorem lt_saturatingSucc {n : Nat} (h : n < u64Max) : n < saturatingSucc n := by
  unfold saturatingSucc
  omega

theorem lastLsn_lt_nextLsnAfter (h : ∀ r ∈ rs, r.lsn < u64Max) :
    lastLsn 0 rs < nextLsnAfter rs := by
  have hlast := lastLsn_lt_of_forall h (show 0 < u64Max by decide)
  exact Nat.lt_of_lt_of_le (lt_saturatingSucc hlast) (Nat.le_max_left _ _)

section

section

variable (htorn : Torn crc32c tail) (hlog : Log rs)

include htorn hlog

theorem appendStateForPath_log : appendStateForPath crc32c (some (encodeFile crc32c rs ++ tail))
      = .ok ⟨nextLsnAfter rs, (encodeFile crc32c rs).length, versionsOf rs⟩ := by
  simp only [appendStateForPath]
  rw [scan_log crc32c htorn hlog, foldlM_ok, foldl_note]
  rfl

/-- Opening a segment for appending cuts it to its whole records. -/
theorem openWriter_log : openWriter crc32c (some (encodeFile crc32c rs ++ tail))
      = (some (encodeFile crc32c rs), .ok ⟨nextLsnAfter rs, versionsOf rs⟩) := by
  rw [openWriter, appendStateForPath_log crc32c htorn hlog]
  simp only [Option.getD_some, take_left' rfl]

end

theorem validateFieldLen_eq_ok {n : Nat} (h : validateFieldLen n = .ok ()) :
    n ≤ RAW_WAL_MAX_FIELD_BYTES := by
  obtain ⟨hle, h⟩ := of_ite_eq h nofun
  rw [not_or] at hle
  omega

theorem encodePayload_eq_ok {payload : List UInt8} (h : encodePayload r = .ok payload) :
    payload = payloadBytes r ∧ Encodable r := by
  obtain ⟨lsn, version, collection, op, key, value⟩ := r
  obtain ⟨⟨⟩, hc, h⟩ := bind_eq_ok.1 h
  obtain ⟨⟨⟩, hk, h⟩ := bind_eq_ok.1 h
  have hc := validateFieldLen_eq_ok hc
  have hk := validateFieldLen_eq_ok hk
  cases value with
  | none =>
    cases op with
    | put => cases h
    | delete =>
      cases h
      exact ⟨rfl, by simp, hc, hk, Nat.zero_le _⟩
  | some v =>
    obtain ⟨⟨⟩, hv, h⟩ := bind_eq_ok.1 h
    have hv := validateFieldLen_eq_ok hv
    cases op with
    | put =>
      cases h
      exact ⟨rfl, by simp, hc, hk, hv⟩
    | delete => cases h

theorem emitEncoded_eq_ok {bytes : List UInt8} (h : emitEncoded crc32c r = .ok bytes) :
    bytes = recordBytes crc32c r ∧ Encodable r := by
  obtain ⟨payload, hp, h⟩ := bind_eq_ok.1 h
  obtain ⟨rfl, henc⟩ := encodePayload_eq_ok hp
  obtain ⟨-, h⟩ := of_ite_eq h nofun
  cases h
  exact ⟨rfl, henc⟩

theorem validateFieldLen_of_le {n : Nat} (h : n ≤ RAW_WAL_MAX_FIELD_BYTES) :
    validateFieldLen n = .ok () := by
  have h32 : RAW_WAL_MAX_FIELD_BYTES ≤ 2 ^ 32 - 1 := by decide
  unfold validateFieldLen
  rw [if_neg (by omega)]

/-- The encoder, on fields within its limit: it refuses a put without a
value and a delete with one. -/
theorem encodePayload_of_le (hc : (utf8 r.collection).length ≤ RAW_WAL_MAX_FIELD_BYTES)
    (hk : r.key.length ≤ RAW_WAL_MAX_FIELD_BYTES)
    (hv : (r.value.getD []).length ≤ RAW_WAL_MAX_FIELD_BYTES) :
    encodePayload r = if r.op = .put ↔ r.value.isSome then .ok (payloadBytes r)
      else .error (corrupt 0 .malformedRecord) := by
  obtain ⟨lsn, version, collection, op, key, value⟩ := r
  simp only [encodePayload, validateFieldLen_of_le hc, validateFieldLen_of_le hk]
  cases value with
  | none => cases op <;> rfl
  | some v =>
    simp only [validateFieldLen_of_le (n := v.length) hv]
    cases op <;> rfl

theorem encodePayload_of_encodable (hr : Encodable r) : encodePayload r = .ok (payloadBytes r) := by
  rw [encodePayload_of_le hr.collection_le hr.key_le hr.value_le, if_pos hr.shape]

/-- Every readable record is encodable, and so can be written again. -/
theorem emitEncoded_of_readable (hr : Readable r) :
    emitEncoded crc32c r = .ok (recordBytes crc32c r) := by
  have hp := encodePayload_of_encodable hr.encodable
  have h32 : RAW_WAL_MAX_PAYLOAD_BYTES ≤ 2 ^ 32 - 1 := by decide
  have hle := hr.payload_le
  simp only [emitEncoded, hp]
  show (if _ then _ else _) = _
  rw [if_neg (by omega)]
  rfl

/-- The two outcomes of an append. A refused record leaves the file as
it was and still uses up an LSN. -/
theorem appendRecord_cases (w : RawWalSegmentWriter) (bytes : List UInt8)
    (collection : String) (op : Operation) (key : RawKey)
    (value : Option RawValue) (version : DocumentVersion) (track : Bool) :
    (∃ e, appendRecord crc32c w bytes collection op key value version track
        = ({ w with nextLsn := saturatingSucc w.nextLsn }, bytes, .error e))
      ∨ (Encodable ⟨w.nextLsn, version, collection, op, key, value⟩
        ∧ appendRecord crc32c w bytes collection op key value version track
          = (⟨saturatingSucc w.nextLsn, if track then
                update w.recordVersions (collection, key) (some version)
              else w.recordVersions⟩,
            bytes ++ recordBytes crc32c ⟨w.nextLsn, version, collection, op, key, value⟩,
            .ok w.nextLsn)) := by
  unfold appendRecord
  simp only
  cases h : emitEncoded crc32c ⟨w.nextLsn, version, collection, op, key, value⟩ with
  | error e => exact Or.inl ⟨e, rfl⟩
  | ok encoded =>
    obtain ⟨rfl, henc⟩ := emitEncoded_eq_ok crc32c h
    refine Or.inr ⟨henc, ?_⟩
    cases track <;> rfl

-- ===== compaction

theorem rewriteRecords_log (h : ∀ r ∈ rs, Readable r) :
    rewriteRecords crc32c rs = .ok (encodeFile crc32c rs) := by
  induction rs with
  | nil => rfl
  | cons r rs ih =>
    have hrest := ih fun x hx => h x (mem_cons_of_mem r hx)
    rw [rewriteRecords, emitEncoded_of_readable crc32c (h r mem_cons_self), hrest]
    rfl

end

theorem newestRecords_sublist (rs : List RawWalRecord) : (newestRecords rs).Sublist rs := by
  induction rs with
  | nil => exact List.Sublist.refl _
  | cons r rs ih =>
    unfold newestRecords
    split
    case isTrue => exact ih.cons r
    case isFalse => exact ih.cons_cons r

/-- The last record is the newest of its key. -/
theorem lastLsn_newestRecords (last : Lsn) (rs : List RawWalRecord) :
    lastLsn last (newestRecords rs) = lastLsn last rs := by
  induction rs generalizing last with
  | nil => rfl
  | cons r rs ih =>
    unfold newestRecords
    split
    case isTrue h =>
      rw [ih]
      cases rs with
      | nil => simp at h
      | cons r' rs => rfl
    case isFalse => exact ih r.lsn

end MemoryFirst.Store.Wal
