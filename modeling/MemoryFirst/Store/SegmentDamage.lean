/-
Damage inside the raw WAL segment: when the scanner reports it and when
it takes it for a torn tail.

One record that is not the last is overwritten, the records around it
are intact, and the checksum is assumed to notice a change of the bytes
it covers (`ChecksumDetects`). The scanner then stops at the damaged
record. It ends the scan there quietly, as at a torn tail, exactly when
the magic survived and the length field now points past the end of the
file, or just to it (`LooksTorn`): a length field is used before any
checksum has vouched for it. The damage is reported in every other case
(`damage_reported_iff`). In the quiet case an opening writer cuts off the
intact records behind the damage (`damaged_length_drops_log`).
-/
import MemoryFirst.Store.Proofs.Wal

namespace MemoryFirst.Store.Wal

open Lib List

-- ===== the statement

/-- The payload length a frame states. -/
def statedLen (frame : List UInt8) : Nat :=
  leNat ((frame.drop 4).take 4)

/-- The damaged bytes, with `later` behind them to the end of the file,
look like the beginning of a record the file does not hold whole. -/
def LooksTorn (damaged later : List UInt8) : Prop :=
  leNat (damaged.take 4) = RAW_WAL_RECORD_MAGIC ∧ (damaged.length + later.length
          < HEADER_LEN + statedLen damaged + CHECKSUM_LEN
      ∨ (damaged.length + later.length = HEADER_LEN + statedLen damaged + CHECKSUM_LEN
        ∧ statedLen damaged ≤ RAW_WAL_MAX_PAYLOAD_BYTES))

instance (damaged later : List UInt8) : Decidable (LooksTorn damaged later) :=
  inferInstanceAs (Decidable (_ ∧ (_ ∨ (_ ∧ _))))

variable (crc32c : List UInt8 → UInt32)

section

/-- Where the bytes a checksum covers are not `original`, it differs from
the one stored behind them. -/
def ChecksumDetects (original bytes : List UInt8) : Prop :=
  HEADER_LEN + statedLen bytes + CHECKSUM_LEN ≤ bytes.length →
    bytes.take (HEADER_LEN + statedLen bytes) ≠ original →
    (crc32c (bytes.take (HEADER_LEN + statedLen bytes))).toNat
      ≠ leNat ((bytes.drop (HEADER_LEN + statedLen bytes)).take CHECKSUM_LEN)

instance (original bytes : List UInt8) : Decidable (ChecksumDetects crc32c original bytes) :=
  inferInstanceAs (Decidable (_ → _ → _))

/-- Reading reports WAL corruption, and opening for append fails and
leaves the file alone. -/
def DamageReported (file : List UInt8) : Prop :=
  (∃ offset kind, readRecords crc32c (some file) = .error (.walCorruption offset kind))
    ∧ ∃ e, openWriter crc32c (some file) = (some file, .error e)

end

-- ===== the damaged record

section

section

variable {rs : List RawWalRecord} (hlog : Log rs) {rest : List UInt8}

include hlog

/-- An error at the first frame behind a log is the result of reading
and of opening. -/
theorem damageReported_of_error {offset : Nat} {kind : WalCorruptionKind}
    (herr : nextFrame crc32c (encodeFile crc32c rs).length rest = .error (corrupt offset kind)) :
    DamageReported crc32c (encodeFile crc32c rs ++ rest) := by
  have hscan : ∀ {σ : Type} (f : σ → RawWalRecord → σ) (s : σ),
      scanRecordsWithOffsets crc32c (fun s r => .ok (f s r)) (some (encodeFile crc32c rs ++ rest)) s
        = .error (corrupt offset kind) := by
    intro σ f s
    obtain ⟨fuel, h⟩ := scan_append crc32c (fun s r => .ok (f s r)) hlog rest s
    rw [h, foldlM_ok, ok_bind, scanLoop, herr, error_bind]
  refine ⟨⟨offset, kind, ?_⟩, corrupt offset kind, ?_⟩
  · rw [readRecords, hscan]
    rfl
  · rw [openWriter, appendStateForPath, hscan]
    rfl

/-- A log with a torn end reads as the log, whatever the end hides. -/
theorem not_damageReported_of_torn (htorn : Torn crc32c rest) :
    ¬ DamageReported crc32c (encodeFile crc32c rs ++ rest) := by
  rintro ⟨⟨offset, kind, hread⟩, -⟩
  rw [readRecords_log crc32c htorn hlog] at hread
  cases hread

end

variable {crc32c} {r : RawWalRecord} {damaged : List UInt8} {later : List UInt8}
  (hlen : damaged.length = (recordBytes crc32c r).length) (hne : damaged ≠ recordBytes crc32c r)
  (hdetect : ChecksumDetects crc32c (framePrefix (payloadBytes r)) (damaged ++ later))

include hlen hne hdetect

/-- Damage leaves the checksum of the frame it states wrong: the bytes
covered changed, or only the stored checksum did. -/
theorem checksum_ne_of_damaged
    (hfits : HEADER_LEN + statedLen (damaged ++ later) + CHECKSUM_LEN ≤ (damaged ++ later).length) :
    (crc32c ((damaged ++ later).take (HEADER_LEN + statedLen (damaged ++ later)))).toNat
      ≠ leNat (((damaged ++ later).drop
        (HEADER_LEN + statedLen (damaged ++ later))).take CHECKSUM_LEN) := by
  by_cases hcov : (damaged ++ later).take (HEADER_LEN + statedLen (damaged ++ later))
        = framePrefix (payloadBytes r)
  · -- the stated length is the record's own, so the damage is in the tail
    have hstated : HEADER_LEN + statedLen (damaged ++ later)
        = (framePrefix (payloadBytes r)).length := by
      rw [← hcov, length_take]
      omega
    rw [hcov, hstated]
    intro heq
    have hcrc : (crc32c (framePrefix (payloadBytes r))).toNat < 256 ^ 4 :=
      (crc32c _).toNat_lt
    rw [length_recordBytes] at hlen
    rw [length_framePrefix] at hstated heq
    have hcut : HEADER_LEN + (payloadBytes r).length ≤ damaged.length := by
      simp only [HEADER_LEN]
      omega
    have htail : ((damaged ++ later).drop (HEADER_LEN + (payloadBytes r).length)).take CHECKSUM_LEN
          = damaged.drop (HEADER_LEN + (payloadBytes r).length) := by
      rw [drop_append_of_le_length hcut]
      refine take_left' ?_
      rw [length_drop]
      simp only [HEADER_LEN, CHECKSUM_LEN]
      omega
    have hsame : damaged.drop (HEADER_LEN + (payloadBytes r).length)
        = leBytes 4 (crc32c (framePrefix (payloadBytes r))).toNat := by
      refine leNat_inj ?_ ?_
      · rw [length_drop, length_leBytes]
        simp only [HEADER_LEN]
        omega
      · rw [← htail, ← heq, leNat_leBytes_of_lt hcrc]
    have hfront : damaged.take (HEADER_LEN + (payloadBytes r).length)
        = framePrefix (payloadBytes r) := by
      rw [← hcov, hstated, take_append_of_le_length hcut]
    refine hne ?_
    rw [← take_append_drop (HEADER_LEN + (payloadBytes r).length) damaged, hfront, hsame]
    rfl
  · exact hdetect hfits hcov

/-- What one pass of the scanner makes of a damaged record. -/
theorem nextFrame_damaged (start : Nat) :
    (LooksTorn damaged later ∧ nextFrame crc32c start (damaged ++ later) = .ok none)
      ∨ (¬ LooksTorn damaged later ∧ ∃ kind, nextFrame crc32c start (damaged ++ later)
          = .error (corrupt start kind)) := by
  have hcrc := checksum_ne_of_damaged hlen hne hdetect
  rw [length_recordBytes] at hlen
  have hmagic : (damaged ++ later).take 4 = damaged.take 4 :=
    take_append_of_le_length (by omega)
  have hstated : statedLen (damaged ++ later) = statedLen damaged := by
    rw [statedLen, statedLen, drop_append_of_le_length (by omega),
      take_append_of_le_length (by rw [length_drop]; omega)]
  rw [hstated] at hcrc
  have htotal : (damaged ++ later).length = damaged.length + later.length := length_append
  unfold LooksTorn nextFrame
  rw [← htotal, if_neg (show ¬ (damaged ++ later).length < HEADER_LEN by
      simp only [HEADER_LEN]; omega), hmagic,
    show leNat (((damaged ++ later).drop 4).take 4) = statedLen damaged
      from hstated]
  generalize damaged ++ later = bytes at hcrc ⊢
  by_cases hm : leNat (damaged.take 4) = RAW_WAL_RECORD_MAGIC
  · rw [if_neg (not_not.2 hm)]
    rcases Nat.lt_trichotomy bytes.length (HEADER_LEN + statedLen damaged + CHECKSUM_LEN) with
      hlt | heq | hgt
    · exact Or.inl ⟨⟨hm, Or.inl hlt⟩, if_pos hlt⟩
    · rw [if_neg (show ¬ bytes.length < _ by omega)]
      by_cases hmax : statedLen damaged ≤ RAW_WAL_MAX_PAYLOAD_BYTES
      · refine Or.inl ⟨⟨hm, Or.inr ⟨heq, hmax⟩⟩, ?_⟩
        rw [if_neg (by omega), if_pos (hcrc (by omega)), if_pos heq.symm]
      · refine Or.inr ⟨by omega, .payloadTooLarge, ?_⟩
        rw [if_pos (by omega)]
    rw [if_neg (show ¬ bytes.length < _ by omega)]
    refine Or.inr ⟨by omega, ?_⟩
    split
    case isTrue => exact ⟨_, rfl⟩
    case isFalse =>
      rw [if_pos (hcrc (by omega)), if_neg (by omega)]
      exact ⟨_, rfl⟩
  · rw [if_pos hm]
    exact Or.inr ⟨fun h => hm h.1, _, rfl⟩

end

-- ===== the result

/-- Damage to a record that is not the last is reported, and nothing is
cut off, exactly when the damaged bytes do not look like a torn tail. -/
theorem damage_reported_iff (crc32c : List UInt8 → UInt32)
    (before after : List RawWalRecord) (r : RawWalRecord)
    (hlog : Log (before ++ r :: after)) {damaged : List UInt8}
    (hlen : damaged.length = (recordBytes crc32c r).length)
    (hne : damaged ≠ recordBytes crc32c r)
    (hdetect : ChecksumDetects crc32c (framePrefix (payloadBytes r))
      (damaged ++ encodeFile crc32c after)) :
    DamageReported crc32c (encodeFile crc32c before ++ (damaged ++ encodeFile crc32c after))
      ↔ ¬ LooksTorn damaged (encodeFile crc32c after) := by
  have hbefore : Log before := hlog.sublist (sublist_append_left _ _)
  have hframe := nextFrame_damaged hlen hne hdetect
  constructor
  · intro hrep htorn
    refine not_damageReported_of_torn crc32c hbefore (fun start => ?_) hrep
    rcases hframe start with ⟨-, h⟩ | ⟨hclear, -⟩
    · exact h
    · exact absurd htorn hclear
  · intro hclear
    rcases hframe (encodeFile crc32c before).length with
      ⟨htorn, -⟩ | ⟨-, kind, herr⟩
    · exact absurd htorn hclear
    · exact damageReported_of_error crc32c hbefore herr

/-- A polynomial checksum, enough to tell the frames below apart. -/
def sampleCrc (bytes : List UInt8) : UInt32 :=
  UInt32.ofNat (bytes.foldl (fun n b => n * 31 + b.toNat + 1) 7)

def sampleLog : List RawWalRecord :=
  [⟨1, 1, "a", .put, [1], some [2]⟩, ⟨2, 2, "a", .put, [1], some [3]⟩,
    ⟨3, 3, "a", .delete, [1], none⟩]

/-- The second of three records with a changed value byte, followed by
the third. -/
theorem damage_reported_value_byte :
    DamageReported sampleCrc (encodeFile sampleCrc (sampleLog.take 1)
      ++ ((recordBytes sampleCrc ⟨2, 2, "a", .put, [1], some [3]⟩).set 41 9
        ++ encodeFile sampleCrc (sampleLog.drop 2))) :=
  (damage_reported_iff sampleCrc (sampleLog.take 1) (sampleLog.drop 2)
    ⟨2, 2, "a", .put, [1], some [3]⟩ (by decide) (by decide) (by decide) (by decide)).2 (by decide)

/-- One byte of the length field of the second of three records: the scan
ends quietly before it, and opening the segment drops the third record
with it. -/
theorem damaged_length_drops_log :
    let damaged := (recordBytes sampleCrc ⟨2, 2, "a", .put, [1], some [3]⟩).set 6 1
    let file := encodeFile sampleCrc (sampleLog.take 1)
      ++ (damaged ++ encodeFile sampleCrc (sampleLog.drop 2))
    ChecksumDetects sampleCrc (framePrefix (payloadBytes ⟨2, 2, "a", .put, [1], some [3]⟩))
        (damaged ++ encodeFile sampleCrc (sampleLog.drop 2))
      ∧ ¬ DamageReported sampleCrc file
      ∧ readRecords sampleCrc (some file) = .ok (sampleLog.take 1)
      ∧ (openWriter sampleCrc (some file)).1 = some (encodeFile sampleCrc (sampleLog.take 1)) := by
  intro damaged file
  have hread : readRecords sampleCrc (some file) = .ok (sampleLog.take 1) := by decide +kernel
  refine ⟨by decide +kernel, ?_, hread, by decide +kernel⟩
  rintro ⟨⟨offset, kind, herr⟩, -⟩
  rw [hread] at herr
  cases herr

end MemoryFirst.Store.Wal
