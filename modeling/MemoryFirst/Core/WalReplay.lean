/-
The core log as its users see it: what a flush wrote comes back from the
replay, and a log that lost its end in a crash can be appended to again.

# What holds

`replay_returns_flushed`: a list of records and every front part of it
read back exactly when each record is `Replayable`. The two defects this
leaves open are in the format: a value encoded as no bytes is stored as
no value, and nothing keeps the writer within the reader's limit.

`appended_records_reachable`: behind a cut, every further list of records
is reachable exactly when the cut fell between two records. `open`
appends behind whatever is left of a torn record, and the replay stops
there.

# Why every further list is needed

With an arbitrary checksum a torn record and the bytes appended behind it
may pass as a record. `nextRecord_torn_append` rules out that this is the
record that was appended, for one that differs from the torn record in
its version.
-/
import MemoryFirst.Core.Proofs.Wal
import Mathlib.Data.List.Induction

namespace MemoryFirst.Core.Wal

open Lib List

variable {K V : Type} {codec : WalCodec K V} (crc32c : List UInt8 → UInt32)

-- ===== the round trip

/-- The log that a flush into an empty file leaves. -/
def writtenFile (codec : WalCodec K V) (config : WalConfig)
    (rs : List (FlushRecord K V)) : List UInt8 :=
  (flush codec crc32c (openBackend config [] 0) rs).file

theorem writtenFile_eq (config : WalConfig) (rs : List (FlushRecord K V)) :
    writtenFile crc32c codec config rs = encodeFile crc32c codec rs :=
  file_flush crc32c (openBackend config [] 0) rs

theorem nextRecord_nil : nextRecord codec crc32c [] = none := rfl

variable {rest : List UInt8}

/-- A loop that reads no record stays where it is. -/
theorem replayLoop_stuck {fuel : Nat} (h : (replayLoop codec crc32c fuel rest).1 = []) :
    (replayLoop codec crc32c fuel rest).2 = rest := by
  cases fuel with
  | zero => rfl
  | succ fuel =>
    unfold replayLoop at h ⊢
    split at h
    case h_1 heq => rfl
    case h_2 heq => cases h

variable {x : ReplayRecord K V}

/-- What a loop that reads anything read first. -/
theorem replayLoop_cons {fuel : Nat} {xs : List (ReplayRecord K V)}
    (h : (replayLoop codec crc32c (fuel + 1) rest).1 = x :: xs) :
    ∃ rest', nextRecord codec crc32c rest = some (x, rest')
      ∧ (replayLoop codec crc32c fuel rest').1 = xs
      ∧ (replayLoop codec crc32c (fuel + 1) rest).2 = (replayLoop codec crc32c fuel rest').2 := by
  cases hnext : nextRecord codec crc32c rest with
  | none =>
    simp only [replayLoop, hnext] at h
    cases h
  | some next =>
    simp only [replayLoop, hnext] at h ⊢
    cases h
    exact ⟨next.2, rfl, rfl, rfl⟩

theorem encodeFile_append (rs rs' : List (FlushRecord K V)) : encodeFile crc32c codec (rs ++ rs')
      = encodeFile crc32c codec rs ++ encodeFile crc32c codec rs' :=
  flatMap_append

theorem encodeFile_singleton (r : FlushRecord K V) :
    encodeFile crc32c codec [r] = recordBytes codec crc32c r :=
  flatMap_singleton _ r

section

variable {rs : List (FlushRecord K V)} (hlaw : codec.Lawful)
  (hversion : ∀ r ∈ rs, r.version < 2 ^ 64)
  (hrs : ∀ r ∈ rs, Replayable codec r)

include hlaw hversion hrs

/-- What is read behind replayable records, once they are read. -/
theorem replay_append_replayable (rest : List UInt8) : ∃ fuel,
    replay codec crc32c (encodeFile crc32c codec rs ++ rest)
      = (rs.map replayed ++ (replayLoop codec crc32c (fuel + 1) rest).1,
        (replayLoop codec crc32c (fuel + 1) rest).2) := by
  rw [← map_seen hrs]
  exact replay_append crc32c hlaw hversion (fun r hr => (hrs r hr).1) rest

/-- A record that comes back behind replayable ones is replayable. -/
theorem replayable_of_replay {r : FlushRecord K V} (hr : r.version < 2 ^ 64)
    (h : replay codec crc32c (encodeFile crc32c codec (rs ++ [r]))
      = ((rs ++ [r]).map replayed, [])) : Replayable codec r := by
  obtain ⟨fuel, hread⟩ := replay_append_replayable crc32c hlaw hversion hrs
    (recordBytes codec crc32c r)
  rw [encodeFile_append, encodeFile_singleton, hread, map_append, Prod.mk.injEq] at h
  obtain ⟨hrecords, hend⟩ := h
  obtain ⟨rest, hnext, hnone, hrest⟩ :=
    replayLoop_cons crc32c (append_cancel_left hrecords)
  -- the loop ends behind `r` and at the end of the file: it took all of it
  rw [hrest, replayLoop_stuck crc32c hnone] at hend
  subst hend
  obtain ⟨-, n, hn, -, hlen, -⟩ := nextRecord_eq_some crc32c hnext
  have htotal : (recordBytes codec crc32c r).length = 8 + (payloadBytes codec r).length + 4 :=
    length_packet RECORD_MAGIC crc32c (payloadBytes codec r)
  have hle : (payloadBytes codec r).length ≤ MAX_REPLAY_PAYLOAD_BYTES := by
    rw [length_nil] at hlen
    omega
  have hseen := nextRecord_recordBytes crc32c hlaw hr hle []
  rw [append_nil, hnext, Option.some.injEq, Prod.mk.injEq] at hseen
  exact ⟨hle, (seen_eq_replayed codec).1 hseen.1.symm⟩

end

/-- What a flush wrote into an empty file is what the replay returns, for
a list of records and each of its front parts, exactly if every record is
replayable. -/
theorem replay_returns_flushed (hlaw : codec.Lawful) (config : WalConfig)
    (rs : List (FlushRecord K V))
    (hversion : ∀ r ∈ rs, r.version < 2 ^ 64) :
    (∀ front, front <+: rs → replay codec crc32c (writtenFile crc32c codec config front)
        = (front.map replayed, []))
      ↔ ∀ r ∈ rs, Replayable codec r := by
  constructor
  · intro hreads
    -- front part by front part, each one record longer
    have hfronts : ∀ front, front <+: rs → ∀ r ∈ front, Replayable codec r := by
      intro front
      induction front using reverseRecOn with
      | nil => exact fun _ r hr => absurd hr not_mem_nil
      | append_singleton front r ih =>
        intro hfront
        have hshorter : front <+: rs := (prefix_append front [r]).trans hfront
        have hver : ∀ x ∈ front ++ [r], x.version < 2 ^ 64 :=
          fun x hx => hversion x (hfront.subset hx)
        have hread := hreads (front ++ [r]) hfront
        rw [writtenFile_eq] at hread
        have hlast := replayable_of_replay crc32c hlaw
          (fun x hx => hver x (mem_append_left _ hx))
          (ih hshorter) (hver r (by simp)) hread
        intro x hx
        rcases mem_append.1 hx with hx | hx
        · exact ih hshorter x hx
        · exact mem_singleton.1 hx ▸ hlast
    exact hfronts rs prefix_rfl
  · intro hrs front hfront
    have hread := replay_encodeFile crc32c hlaw (fun r hr => hversion r (hfront.subset hr))
      (fun r hr => hrs r (hfront.subset hr)) (nextRecord_nil crc32c)
    rwa [append_nil, ← writtenFile_eq crc32c config] at hread

/-- A proper front part of a record within the limit is not read. -/
theorem nextRecord_torn {r : FlushRecord K V} {m : Nat}
    (hle : (payloadBytes codec r).length ≤ MAX_REPLAY_PAYLOAD_BYTES)
    (hm : m < (recordBytes codec crc32c r).length) :
    nextRecord codec crc32c ((recordBytes codec crc32c r).take m) = none := by
  have hlen : (recordBytes codec crc32c r).length = 8 + (payloadBytes codec r).length + 4 :=
    length_packet RECORD_MAGIC crc32c (payloadBytes codec r)
  cases hnext : nextRecord codec crc32c ((recordBytes codec crc32c r).take m) with
  | none => rfl
  | some next =>
    obtain ⟨-, n, -, hn, htaken, -⟩ := nextRecord_eq_some crc32c hnext
    rw [length_take, Nat.min_eq_left hm.le] at htaken
    -- the header is whole, so the length it states is the record's own
    obtain ⟨-, hstated, -⟩ :=
      packet_append_take RECORD_MAGIC crc32c (payloadBytes codec r) [] (append_nil _).symm
    have h32 : MAX_REPLAY_PAYLOAD_BYTES < 256 ^ 4 := by decide
    rw [drop_take, take_take, Nat.min_eq_left (by omega), recordBytes, hstated,
      leNat_leBytes_of_lt (by omega)] at hn
    omega

/-- The records that are whole in the first `n` bytes of their log. -/
def survivors (codec : WalCodec K V) (n : Nat)
    (rs : List (FlushRecord K V)) : List (FlushRecord K V) :=
  blocksWithin (recordBytes codec crc32c) n rs

/-- Of a written file cut at any byte the replay returns the records that
are whole in what is left, in order. -/
theorem replay_truncated (hlaw : codec.Lawful) (config : WalConfig)
    (written : List (FlushRecord K V))
    (hwritten : ∀ r ∈ written, r.version < 2 ^ 64 ∧ Replayable codec r) (n : Nat) :
    (replay codec crc32c ((writtenFile crc32c codec config written).take n)).1
      = (survivors crc32c codec n written).map replayed := by
  have hsub := (prefix_blocksWithin (recordBytes codec crc32c) n written).subset
  obtain ⟨tail, hcut, htail⟩ := take_stream (recordBytes codec crc32c) written [] n
  rw [append_nil] at hcut
  have hstop : nextRecord codec crc32c tail = none := by
    rcases htail with ⟨m, rfl⟩ | ⟨a, ha, m, hm, rfl⟩
    · rw [take_nil]
      exact nextRecord_nil crc32c
    · exact nextRecord_torn crc32c (hwritten a ha).2.1 hm
  have hread := replay_encodeFile crc32c hlaw (fun r hr => (hwritten r (hsub hr)).1)
    (fun r hr => (hwritten r (hsub hr)).2) hstop
  rw [writtenFile_eq, encodeFile, hcut]
  exact congrArg Prod.fst hread

theorem decodeU64_leBytes (k : UInt64) : decodeU64 (leBytes 8 k.toNat) = some k := by
  rw [decodeU64, if_neg (by simp), leNat_leBytes_of_lt k.toNat_lt, UInt64.ofNat_toNat]

theorem U64Codec_lawful : U64Codec.Lawful :=
  ⟨decodeU64_leBytes, decodeU64_leBytes⟩

/-- A put and a delete of integers come back. -/
theorem replay_returns_flushed_u64 :
    replay U64Codec (fun _ => 7) (writtenFile (fun _ => 7) U64Codec ⟨1, 1⟩
        [⟨1, some 10, 5, .put⟩, ⟨2, none, 6, .delete⟩])
      = ([⟨1, some 10, 5, .put⟩, ⟨2, none, 6, .delete⟩], []) :=
  (replay_returns_flushed (fun _ => 7) U64Codec_lawful ⟨1, 1⟩
      [⟨1, some 10, 5, .put⟩, ⟨2, none, 6, .delete⟩] (by decide)).2
    (by decide +kernel) _ prefix_rfl

/-- Cut inside the second of two records, the file gives the first. -/
theorem replay_truncated_u64 :
    (replay U64Codec (fun _ => 7) ((writtenFile (fun _ => 7) U64Codec ⟨1, 1⟩
        [⟨1, some 10, 5, .put⟩, ⟨2, none, 6, .delete⟩]).take 50)).1 = [⟨1, some 10, 5, .put⟩] :=
  (replay_truncated (fun _ => 7) U64Codec_lawful ⟨1, 1⟩
    [⟨1, some 10, 5, .put⟩, ⟨2, none, 6, .delete⟩] (by decide +kernel) 50).trans
    (by decide +kernel)

/-- Byte strings as keys and values, written as they are. -/
def bytesCodec : WalCodec (List UInt8) (List UInt8) :=
  ⟨id, id, some, some⟩

/-- The empty string, once stored, comes back as no value. -/
theorem empty_value_replayed_absent : bytesCodec.Lawful ∧ replay bytesCodec (fun _ => 7)
        (writtenFile (fun _ => 7) bytesCodec ⟨1, 1⟩ [⟨[1], some [], 1, .put⟩])
      = ([⟨[1], none, 1, .put⟩], []) :=
  ⟨⟨fun _ => rfl, fun _ => rfl⟩, by decide +kernel⟩

-- ===== behind a torn tail

theorem consumes_readValue : Consumes (readValue codec) fun _ _ => True := by
  refine (consumes_readNat _ 4).bind fun _ len _ => ?_
  refine Consumes.ite (fun _ => Consumes.pure trivial) fun _ => ?_
  refine (consumes_takeBytes _ len).bind fun _ bytes _ => ?_
  exact (consumes_liftM _).bind fun _ v _ => Consumes.pure trivial

theorem lt_two_of_opOfByte {code : Nat} {op : Operation}
    (h : opOfByte code = .ok op) : code < 2 := by
  unfold opOfByte at h
  split at h
  case isTrue => omega
  case isFalse =>
    split at h
    case isTrue => omega
    case isFalse => cases h

/-- What the payload reader took starts with an operation's code and the
version. -/
theorem consumes_readPayload : Consumes (readPayload codec) fun front x => ∃ code < 2, ∃ more,
      front = leBytes 1 code ++ (leBytes 8 x.version ++ more) := by
  refine (consumes_readNat _ 1).bind fun b₁ code h₁ => ?_
  refine (consumes_liftM _).bind fun b₂ op h₂ => ?_
  refine (consumes_readNat _ 8).bind fun b₃ version h₃ => ?_
  refine (consumes_readNat _ 4).bind fun b₄ keyLen _ => ?_
  refine (consumes_takeBytes _ keyLen).bind fun b₅ keyBytes _ => ?_
  refine (consumes_liftM _).bind fun b₆ key _ => ?_
  refine consumes_readValue.bind fun b₇ value _ => Consumes.pure ?_
  refine ⟨code, lt_two_of_opOfByte h₂.2, b₄ ++ (b₅ ++ (b₆ ++ b₇)), ?_⟩
  rw [h₁.1, h₂.1, h₃.1]
  simp only [nil_append, append_nil]

theorem decodePayload_front {payload : List UInt8} (h : decodePayload codec payload = some x) :
    ∃ code < 2, ∃ more, payload = leBytes 1 code ++ (leBytes 8 x.version ++ more) := by
  unfold decodePayload at h
  split at h
  case h_1 => cases h
  case h_2 record rest hrun =>
    split at h
    case isFalse => cases h
    case isTrue hrest =>
      obtain ⟨front, hsplit, hfront⟩ := consumes_readPayload payload record rest hrun
      cases h
      rw [hsplit, hrest, append_nil]
      exact hfront

/-- The first bytes of a record: the magic number byte by byte, the
length, and the front of the payload. -/
theorem recordBytes_front (codec : WalCodec K V) (r : FlushRecord K V) :
    ∃ l₀ l₁ l₂ l₃ more, recordBytes codec crc32c r
      = 0x50 :: 0x57 :: 0x46 :: 0x4D :: l₀ :: l₁ :: l₂ :: l₃
        :: opByte r.op :: (leBytes 8 r.version ++ more) := by
  obtain ⟨l₀, l₁, l₂, l₃, hlen⟩ : ∃ l₀ l₁ l₂ l₃,
      leBytes 4 (payloadBytes codec r).length = [l₀, l₁, l₂, l₃] :=
    ⟨_, _, _, _, rfl⟩
  have hmagic : leBytes 4 RECORD_MAGIC = [0x50, 0x57, 0x46, 0x4D] := by
    decide
  obtain ⟨more, hpayload⟩ : ∃ more,
      payloadBytes codec r = opByte r.op :: (leBytes 8 r.version ++ more) := by
    exact ⟨_, rfl⟩
  refine ⟨l₀, l₁, l₂, l₃, ?_⟩
  rw [recordBytes, packet, packetBody, hmagic, hlen, hpayload]
  exact ⟨_, rfl⟩

variable {a b : FlushRecord K V}

/-- Less than a header of one record, and another record behind it, do
not make a header: the magic number overlaps neither itself nor a length
within the limit. -/
theorem torn_header {m : Nat} (hm : 0 < m) (hshort : m < 8)
    (hmagic : leNat (((recordBytes codec crc32c a).take m
      ++ recordBytes codec crc32c b).take 4) = RECORD_MAGIC) :
    MAX_REPLAY_PAYLOAD_BYTES < leNat ((((recordBytes codec crc32c a).take m
        ++ recordBytes codec crc32c b).drop 4).take 4) := by
  obtain ⟨l₀, l₁, l₂, l₃, more₁, hfront⟩ := recordBytes_front crc32c codec a
  obtain ⟨k₀, k₁, k₂, k₃, more₂, hback⟩ := recordBytes_front crc32c codec b
  rw [hfront, hback] at hmagic ⊢
  have hcases : m = 1 ∨ m = 2 ∨ m = 3 ∨ m = 4 ∨ m = 5 ∨ m = 6 ∨ m = 7 := by
    omega
  unfold RECORD_MAGIC at hmagic
  unfold MAX_REPLAY_PAYLOAD_BYTES
  rcases hcases with rfl | rfl | rfl | rfl | rfl | rfl | rfl
  all_goals
    simp only [take_succ_cons, take_zero, cons_append,
      drop_succ_cons, drop_zero, nil_append, leNat,
      UInt8.reduceToNat] at hmagic ⊢
    omega

/-- Where a record was torn inside or behind its version, eight bytes
are its version or hold the first byte of what is appended: they are not
the other version, if that is small. -/
theorem torn_version {version version' k : Nat} {more back : List UInt8}
    (hversion : version < 2 ^ 64) (hsmall : version' < 2)
    (hne : version ≠ version') :
    ¬ leBytes 8 version' <+: (leBytes 8 version ++ more).take k ++ 0x50 :: back := by
  intro hfront
  have htake := prefix_iff_eq_take.1 hfront
  rw [length_leBytes] at htake
  have hlen := length_leBytes 8 version
  by_cases hk : k < 8
  · have hmem : (0x50 : UInt8) ∈ leBytes 8 version' := by
      obtain ⟨j, hj⟩ : ∃ j, 8 - k = j + 1 := ⟨7 - k, by omega⟩
      rw [htake, take_append, length_take, length_append,
        hlen, Nat.min_eq_left (by omega), hj, take_succ_cons]
      exact mem_append_right _ mem_cons_self
    have hcases : version' = 0 ∨ version' = 1 := by omega
    rcases hcases with rfl | rfl
    · exact absurd hmem (by decide)
    · exact absurd hmem (by decide)
  · have hsame : leBytes 8 version' = leBytes 8 version := by
      rw [htake, take_append_of_le_length
        (by rw [length_take, length_append]; omega),
        take_take, Nat.min_eq_left (by omega), take_left' hlen]
    have hnat := congrArg leNat hsame
    rw [leNat_leBytes_of_lt (by omega), leNat_leBytes_of_lt hversion]
      at hnat
    exact hne hnat.symm

/-- A torn record and another one behind it are not read as the other
one, if that has a small version that is not the torn one's. -/
theorem nextRecord_torn_append {m : Nat} (hm : 0 < m) (ha : a.version < 2 ^ 64)
    (hb : b.version < 2) (hne : a.version ≠ b.version) :
    nextRecord codec crc32c ((recordBytes codec crc32c a).take m ++ recordBytes codec crc32c b)
      ≠ some (replayed b, rest) := by
  intro hnext
  obtain ⟨hmagic, n, hn, hlen, -, hdecoded⟩ := nextRecord_eq_some crc32c hnext
  by_cases hshort : m < 8
  · have hlong := torn_header crc32c hm hshort hmagic
    omega
  obtain ⟨code, hcode, more, hpayload⟩ := decodePayload_front hdecoded
  obtain ⟨l₀, l₁, l₂, l₃, more₁, hfront⟩ := recordBytes_front crc32c codec a
  obtain ⟨k₀, k₁, k₂, k₃, more₂, hback⟩ := recordBytes_front crc32c codec b
  obtain ⟨k, rfl⟩ : ∃ k, m = k + 8 := ⟨m - 8, by omega⟩
  rw [hfront] at hpayload
  simp only [take_succ_cons, cons_append, drop_succ_cons, drop_zero] at hpayload
  cases k with
  | zero =>
    -- the other record's magic number in the place of the operation
    rw [take_zero, nil_append, hback] at hpayload
    cases n with
    | zero => cases hpayload
    | succ n =>
      have hop := (cons.inj hpayload).1
      have hnat := congrArg UInt8.toNat hop
      simp at hnat
      omega
  | succ k =>
    cases n with
    | zero => cases hpayload
    | succ n =>
      have hbytes := (cons.inj hpayload).2
      have hfront : leBytes 8 b.version <+: _ :=
        (prefix_append _ more).trans (hbytes ▸ take_prefix n _)
      exact torn_version ha hb hne hfront

/-- The log cut at byte `n`, opened again, and `rs` flushed into it and
synced. -/
def appendedAfterCrash (codec : WalCodec K V) (config : WalConfig)
    (file : List UInt8) (n : Nat) (rs : List (FlushRecord K V)) :
    WalBackend :=
  syncNow (flush codec crc32c (openBackend config (file.take n) n) rs)

theorem file_appendedAfterCrash (config : WalConfig) (file : List UInt8)
    (n : Nat) (rs : List (FlushRecord K V)) :
    (appendedAfterCrash crc32c codec config file n rs).file
      = file.take n ++ encodeFile crc32c codec rs :=
  file_flush crc32c (openBackend config (file.take n) n) rs

/-- After a cut at any byte the survivors and every list flushed later are
what the replay returns, exactly if the cut file ends with a whole
record. -/
theorem appended_records_reachable (hlaw : codec.Lawful)
    (config : WalConfig) (written : List (FlushRecord K V))
    (hwritten : ∀ r ∈ written, r.version < 2 ^ 64 ∧ Replayable codec r)
    (n : Nat) :
    (∀ later, (∀ r ∈ later, r.version < 2 ^ 64 ∧ Replayable codec r) →
      (replay codec crc32c (appendedAfterCrash crc32c codec config
          (writtenFile crc32c codec config written) n later).file).1
        = (survivors crc32c codec n written ++ later).map replayed)
      ↔ (writtenFile crc32c codec config written).take n
        = encodeFile crc32c codec (survivors crc32c codec n written) := by
  have hsub := (prefix_blocksWithin (recordBytes codec crc32c) n written).subset
  have hsurvivors : ∀ r ∈ survivors crc32c codec n written,
      r.version < 2 ^ 64 ∧ Replayable codec r :=
    fun r hr => hwritten r (hsub hr)
  simp only [file_appendedAfterCrash, writtenFile_eq]
  constructor
  · intro hall
    obtain ⟨tail, hcut, htail⟩ := take_stream (recordBytes codec crc32c) written [] n
    rw [append_nil] at hcut
    change (encodeFile crc32c codec written).take n
      = encodeFile crc32c codec (survivors crc32c codec n written) ++ tail
      at hcut
    rcases htail with ⟨m, hnil⟩ | ⟨a, ha, m, -, htorn⟩
    · rw [hcut, hnil, take_nil, append_nil]
    by_cases hm : m = 0
    · rw [hcut, htorn, hm, take_zero, append_nil]
    -- a torn tail: append a record with another version
    obtain ⟨v, hv, hne⟩ : ∃ v, v < 2 ∧ a.version ≠ v := by
      by_cases h0 : a.version = 0
      · exact ⟨1, by omega, by omega⟩
      · exact ⟨0, by omega, h0⟩
    have hb : Replayable codec { a with version := v } := by
      refine ⟨?_, (hwritten a ha).2.2⟩
      have hle := (hwritten a ha).2.1
      exact hle
    have hread := hall [{ a with version := v }] (by
      intro r hr
      rw [mem_singleton.1 hr]
      exact ⟨Nat.lt_trans hv (by decide), hb⟩)
    obtain ⟨fuel, hreplay⟩ := replay_append_replayable crc32c hlaw
      (fun r hr => (hsurvivors r hr).1) (fun r hr => (hsurvivors r hr).2)
      (tail ++ recordBytes codec crc32c { a with version := v })
    rw [hcut, append_assoc, encodeFile_singleton, hreplay, map_append] at hread
    obtain ⟨rest, hnext, -⟩ := replayLoop_cons crc32c (append_cancel_left hread)
    rw [htorn] at hnext
    exact absurd hnext (nextRecord_torn_append crc32c
      (by omega) (hwritten a ha).1 hv hne)
  · intro hwhole later hlater
    have hboth : ∀ r ∈ survivors crc32c codec n written ++ later,
        r.version < 2 ^ 64 ∧ Replayable codec r := by
      intro r hr
      rcases mem_append.1 hr with hr | hr
      · exact hsurvivors r hr
      · exact hlater r hr
    have hread := replay_encodeFile crc32c hlaw
      (fun r hr => (hboth r hr).1) (fun r hr => (hboth r hr).2)
      (nextRecord_nil crc32c)
    rw [append_nil, encodeFile_append] at hread
    rw [hwhole, hread]

/-- A cut behind the first of two records: it and what is flushed later
are read. -/
theorem appended_records_reachable_whole :
    (replay U64Codec (fun _ => 7) (appendedAfterCrash (fun _ => 7) U64Codec
        ⟨1, 1⟩ (writtenFile (fun _ => 7) U64Codec ⟨1, 1⟩
          [⟨1, some 10, 5, .put⟩, ⟨2, none, 6, .delete⟩]) 45
        [⟨3, some 11, 7, .put⟩]).file).1
      = [⟨1, some 10, 5, .put⟩, ⟨3, some 11, 7, .put⟩] :=
  (appended_records_reachable (fun _ => 7) U64Codec_lawful ⟨1, 1⟩
      [⟨1, some 10, 5, .put⟩, ⟨2, none, 6, .delete⟩] (by decide +kernel)
      45).2 (by decide +kernel) [⟨3, some 11, 7, .put⟩] (by decide +kernel)

/-- A record that lost its last byte hides everything flushed behind
it. -/
theorem torn_tail_hides_appended :
    (replay U64Codec (fun _ => 7) (appendedAfterCrash (fun _ => 7) U64Codec
        ⟨1, 1⟩ (writtenFile (fun _ => 7) U64Codec ⟨1, 1⟩
          [⟨1, some 10, 5, .put⟩]) 44 [⟨3, some 11, 7, .put⟩]).file).1 = []
    ∧ survivors (fun _ => 7) U64Codec 44
        [(⟨1, some 10, 5, .put⟩ : FlushRecord UInt64 UInt64)] = [] := by
  decide +kernel

end MemoryFirst.Core.Wal
