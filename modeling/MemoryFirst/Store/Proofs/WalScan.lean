/-
What a scan that succeeds says about the file it read.

`Proofs/Wal.lean` goes from a log to the bytes and back; this file goes
from the bytes to a log. The decoder accepts one spelling of each record
only, so whatever the scanner reads is the frame of what it returns
(`nextFrame_eq_some`), and a file it gets through is a log with a torn
tail (`scanLoop_eq_ok`, `readRecords_eq_ok`). A theorem about every
READABLE segment is then one about `encodeFile`.
-/
import MemoryFirst.Store.Proofs.Wal

namespace MemoryFirst.Store.Wal

open Lib List

-- ===== the payload

section

variable (offset : Nat)

theorem consumes_readBytes : Consumes (readBytes offset) fun front bytes =>
      front = writeLenPrefixed bytes ∧ bytes.length ≤ RAW_WAL_MAX_FIELD_BYTES :=
  consumes_counted _ _ _ 4 _

variable {bytes : List UInt8}

theorem utf8_of_collectionOfBytes {name : String} (h : collectionOfBytes offset bytes = .ok name) :
    utf8 name = bytes ∧ name ≠ "" := by
  unfold collectionOfBytes at h
  split at h
  case h_1 => cases h
  case h_2 heq =>
    obtain ⟨hne, h⟩ := of_ite_eq h nofun
    cases h
    exact ⟨utf8_of_fromUtf8 heq, hne⟩

variable {op : Operation}

theorem opCode_of_opOfCode {code : Nat} (h : opOfCode offset code = .ok op) : opCode op = code := by
  unfold opOfCode at h
  split at h
  case isTrue hc =>
    cases h
    exact hc.symm
  case isFalse =>
    split at h
    case isTrue hc =>
      cases h
      exact hc.symm
    case isFalse => cases h

theorem getD_of_valueOfBytes {value : Option RawValue}
    (h : valueOfBytes offset op bytes = .ok value) :
    value.getD [] = bytes ∧ (op = .put ↔ value.isSome) := by
  cases op with
  | put =>
    cases h
    exact ⟨rfl, by simp⟩
  | delete =>
    simp only [valueOfBytes] at h
    split at h
    case isTrue hnil =>
      cases h
      exact ⟨hnil.symm, by simp⟩
    case isFalse => cases h

/-- What the payload reader returns spells the bytes it took. -/
theorem consumes_readPayload : Consumes (readPayload offset) fun front r =>
      front = payloadBytes r ∧ Encodable r
        ∧ ((payloadBytes r).length ≤ RAW_WAL_MAX_PAYLOAD_BYTES → Readable r) := by
  refine (consumes_readNat _ 2).bind fun b₁ ver h₁ => ?_
  refine Consumes.ite (fun _ => consumes_throw _) fun hver => ?_
  refine (consumes_readNat _ 8).bind fun b₂ lsn h₂ => ?_
  refine (consumes_readNat _ 8).bind fun b₃ version h₃ => ?_
  refine (consumes_readBytes offset).bind fun b₄ name h₄ => ?_
  refine (consumes_liftM _).bind fun b₅ collection h₅ => ?_
  refine (consumes_readNat _ 1).bind fun b₆ code h₆ => ?_
  refine (consumes_liftM _).bind fun b₇ op h₇ => ?_
  refine (consumes_readBytes offset).bind fun b₈ key h₈ => ?_
  refine (consumes_readBytes offset).bind fun b₉ stored h₉ => ?_
  refine (consumes_liftM _).bind fun b₁₀ value h₁₀ => Consumes.pure ?_
  obtain ⟨hname, hnamed⟩ := utf8_of_collectionOfBytes offset h₅.2
  have hcode := opCode_of_opOfCode offset h₇.2
  obtain ⟨hvalue, hshape⟩ := getD_of_valueOfBytes offset h₁₀.2
  obtain rfl := Decidable.not_not.1 hver
  have hencodable : Encodable ⟨lsn, version, collection, op, key, value⟩ :=
    ⟨hshape, hname ▸ h₄.2, h₈.2, hvalue ▸ h₉.2⟩
  refine ⟨?_, hencodable, fun hlen => ?_⟩
  · rw [h₁.1, h₂.1, h₃.1, h₄.1, h₅.1, h₆.1, h₇.1, h₈.1, h₉.1, h₁₀.1]
    simp only [payloadBytes, hname, hcode, hvalue, append_nil,
      nil_append, append_assoc]
  · exact {
      lsn_lt := h₂.2
      version_lt := h₃.2
      named := hnamed
      shape := hshape
      collection_le := hencodable.collection_le
      key_le := hencodable.key_le
      value_le := hencodable.value_le
      payload_le := hlen }

variable {r : RawWalRecord}

theorem decodePayload_eq_ok {payload : List UInt8} (h : decodePayload payload offset = .ok r) :
    payload = payloadBytes r ∧ Encodable r
      ∧ (payload.length ≤ RAW_WAL_MAX_PAYLOAD_BYTES → Readable r) := by
  obtain ⟨⟨record, rest⟩, hrun, h⟩ := bind_eq_ok.1 h
  obtain ⟨front, hsplit, hfront, hreadable⟩ :=
    consumes_readPayload offset payload record rest hrun
  obtain ⟨hrest, h⟩ := of_ite_eq h nofun
  obtain rfl := Decidable.not_not.1 hrest
  cases h
  rw [append_nil] at hsplit
  rw [hsplit, hfront]
  exact ⟨rfl, hreadable⟩

omit offset in
/-- The payload of every record within the limits reads back as the
record, and every payload that is read is the one written for the record
it gives. A put without a value and a delete with one are refused. -/
theorem payload_codec_exact :
    (∀ r : RawWalRecord, r.lsn < 2 ^ 64 → r.version < 2 ^ 64 → r.collection ≠ "" →
      (utf8 r.collection).length ≤ RAW_WAL_MAX_FIELD_BYTES →
      r.key.length ≤ RAW_WAL_MAX_FIELD_BYTES →
      (r.value.getD []).length ≤ RAW_WAL_MAX_FIELD_BYTES →
      if r.op = .put ↔ r.value.isSome then
        ∃ payload, encodePayload r = .ok payload ∧ ∀ offset, decodePayload payload offset = .ok r
      else encodePayload r = .error (corrupt 0 .malformedRecord))
    ∧ ∀ payload offset r, decodePayload payload offset = .ok r → encodePayload r = .ok payload := by
  refine ⟨fun r hlsn hversion hnamed hc hk hv => ?_, fun payload offset r hread => ?_⟩
  · split
    case isTrue hshape =>
      have hr : Encodable r := ⟨hshape, hc, hk, hv⟩
      exact ⟨payloadBytes r, encodePayload_of_encodable hr,
        fun offset => decodePayload_payloadBytes offset hr hlsn hversion hnamed⟩
    case isFalse hshape =>
      rw [encodePayload_of_le hc hk hv, if_neg hshape]
  · obtain ⟨rfl, hr, -⟩ := decodePayload_eq_ok offset hread
    exact encodePayload_of_encodable hr

end

-- ===== the frame

section

variable (crc32c : List UInt8 → UInt32) {rest : List UInt8} {n start : Nat}

/-- Bytes with a header, a payload of the stated length and the right
checksum are the payload's frame and what follows it. -/
theorem eq_frame_append (hlen : HEADER_LEN + n + CHECKSUM_LEN ≤ rest.length)
    (hmagic : leNat (rest.take 4) = RAW_WAL_RECORD_MAGIC)
    (hn : leNat ((rest.drop 4).take 4) = n)
    (hcrc : (crc32c (rest.take (HEADER_LEN + n))).toNat
      = leNat ((rest.drop (HEADER_LEN + n)).take CHECKSUM_LEN)) :
    rest = frame crc32c ((rest.drop HEADER_LEN).take n)
      ++ rest.drop (HEADER_LEN + n + CHECKSUM_LEN) := by
  simp only [HEADER_LEN, CHECKSUM_LEN] at hlen hcrc ⊢
  have hpay : ((rest.drop 8).take n).length = n := by
    rw [length_take, length_drop]
    omega
  have hm : leBytes 4 RAW_WAL_RECORD_MAGIC = rest.take 4 := by
    have h := leBytes_leNat (rest.take 4)
    rwa [hmagic, length_take, Nat.min_eq_left (by omega)] at h
  have hl : leBytes 4 n = (rest.drop 4).take 4 := by
    have h := leBytes_leNat ((rest.drop 4).take 4)
    rwa [hn, length_take, length_drop, Nat.min_eq_left (by omega)] at h
  -- the covered part, put together again
  have hcovered : framePrefix ((rest.drop 8).take n) = rest.take (8 + n) := by
    rw [framePrefix, hpay, hm, hl, append_assoc, take_add,
      show (8 : Nat) = 4 + 4 from rfl, take_add, append_assoc]
  have hc : leBytes 4 (crc32c (rest.take (8 + n))).toNat = (rest.drop (8 + n)).take 4 := by
    have h := leBytes_leNat ((rest.drop (8 + n)).take 4)
    rwa [← hcrc, length_take, length_drop, Nat.min_eq_left (by omega)] at h
  rw [frame, hcovered, hc, ← take_add, take_append_drop]

/-- What the scanner reads at the front of the unread bytes is the frame
of the record it returns. -/
theorem nextFrame_eq_some {r : RawWalRecord} (h : nextFrame crc32c start rest = .ok (some (r, n))) :
    Readable r ∧ n = (recordBytes crc32c r).length
      ∧ rest = recordBytes crc32c r ++ rest.drop n := by
  obtain ⟨hhead, h⟩ := of_ite_eq h nofun
  obtain ⟨hmagic, h⟩ := of_ite_eq h nofun
  dsimp only at h
  obtain ⟨hwhole, h⟩ := of_ite_eq h nofun
  obtain ⟨hlimit, h⟩ := of_ite_eq h nofun
  split at h
  case isTrue =>
    split at h
    · cases h
    · cases h
  case isFalse hcrc =>
    obtain ⟨record, hdec, h⟩ := bind_eq_ok.1 h
    cases h
    have hsplit := eq_frame_append crc32c (by omega)
      (Decidable.not_not.1 hmagic) rfl (Decidable.not_not.1 hcrc)
    obtain ⟨hpay, -, hreadable⟩ := decodePayload_eq_ok start hdec
    have hlen : (payloadBytes r).length = leNat ((rest.drop 4).take 4) := by
      rw [← hpay, length_take, length_drop]
      omega
    refine ⟨hreadable ?_, ?_, ?_⟩
    · rw [hpay, hlen]
      omega
    · rw [recordBytes, length_frame, hlen]
    · rw [recordBytes, ← hpay]
      exact hsplit

/-- Whether the log ends here does not depend on the offset. -/
theorem nextFrame_eq_none (h : nextFrame crc32c start rest = .ok none)
    (start' : Nat) : nextFrame crc32c start' rest = .ok none := by
  unfold nextFrame at h ⊢
  split
  case isTrue => rfl
  case isFalse hhead =>
    rw [if_neg hhead] at h
    split
    case isTrue hmagic =>
      rw [if_pos hmagic] at h
      cases h
    case isFalse hmagic =>
      rw [if_neg hmagic] at h
      dsimp only at h ⊢
      split
      case isTrue => rfl
      case isFalse hwhole =>
        rw [if_neg hwhole] at h
        split
        case isTrue hlimit =>
          rw [if_pos hlimit] at h
          cases h
        case isFalse hlimit =>
          rw [if_neg hlimit] at h
          split
          case isTrue hcrc =>
            rw [if_pos hcrc] at h
            split
            case isTrue => rfl
            case isFalse hshort =>
              rw [if_neg hshort] at h
              cases h
          case isFalse hcrc =>
            rw [if_neg hcrc] at h
            obtain ⟨record, -, h⟩ := bind_eq_ok.1 h
            cases h

-- ===== the file

variable {σ : Type} {onRecord : σ → RawWalRecord → StoreResult σ} {out : σ × RawWalScan}

/-- Bytes a scan gets through are a log and a torn tail. -/
theorem scanLoop_eq_ok {fuel : Nat} {last : Lsn} {s : σ} (hfuel : rest.length < fuel)
    (h : scanLoop crc32c onRecord fuel start rest ⟨n, last⟩ s = .ok out) :
    ∃ rs tail, LogAfter last rs ∧ rest = encodeFile crc32c rs ++ tail
      ∧ Torn crc32c tail := by
  induction fuel generalizing start n rest last s with
  | zero => omega
  | succ fuel ih =>
    obtain ⟨found, hfound, h⟩ := bind_eq_ok.1 h
    cases found with
    | none => exact ⟨[], rest, LogAfter.nil last, rfl, nextFrame_eq_none crc32c hfound⟩
    | some found =>
      obtain ⟨r, len⟩ := found
      obtain ⟨hr, hlen, hsplit⟩ := nextFrame_eq_some crc32c hfound
      obtain ⟨hlsn, h⟩ := of_ite_eq h nofun
      obtain ⟨s', -, h⟩ := bind_eq_ok.1 h
      have hpos := length_recordBytes crc32c r
      have hshort : (rest.drop len).length < fuel := by
        have htotal := congrArg length hsplit
        rw [length_append] at htotal
        omega
      obtain ⟨rs, tail, hlog, hrest, htail⟩ := ih hshort h
      refine ⟨r :: rs, tail, LogAfter.cons_iff.2 ⟨hr, Nat.not_le.1 hlsn, hlog⟩, ?_, htail⟩
      rw [encodeFile_cons, append_assoc, ← hrest]
      exact hsplit

/-- What every callback of a scan keeps. -/
theorem scanLoop_inv (P : σ → Prop) (hstep : ∀ s r s', P s → onRecord s r = .ok s' → P s')
    {fuel : Nat} {stats : RawWalReplayStats} {s : σ} (hs : P s)
    (h : scanLoop crc32c onRecord fuel start rest stats s = .ok out) :
    P out.1 := by
  induction fuel generalizing start rest stats s with
  | zero =>
    cases h
    exact hs
  | succ fuel ih =>
    obtain ⟨found, -, h⟩ := bind_eq_ok.1 h
    cases found with
    | none =>
      cases h
      exact hs
    | some found =>
      obtain ⟨-, h⟩ := of_ite_eq h nofun
      obtain ⟨s', hs', h⟩ := bind_eq_ok.1 h
      exact ih (hstep s _ s' hs hs') h

/-- A segment that can be read is the log of its records, followed by a
torn tail. -/
theorem readRecords_eq_ok {bytes : List UInt8} {rs : List RawWalRecord}
    (h : readRecords crc32c (some bytes) = .ok rs) :
    Log rs ∧ ∃ tail, bytes = encodeFile crc32c rs ++ tail
      ∧ Torn crc32c tail := by
  obtain ⟨out, hscan, -⟩ := bind_eq_ok.1 h
  simp only [scanRecordsWithOffsets] at hscan
  obtain ⟨rs', tail, hlog, rfl, htail⟩ := scanLoop_eq_ok crc32c (by omega) hscan
  rw [readRecords_log crc32c htail hlog] at h
  cases h
  exact ⟨hlog, tail, rfl, htail⟩

end

end MemoryFirst.Store.Wal
