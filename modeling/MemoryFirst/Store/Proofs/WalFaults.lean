/-
What the failing file system leaves in the segment.

# The frames

`FramesOf A bytes tail`: the bytes are whole frames of records that
satisfy `A`, and behind them the torn `tail`. Nothing is assumed about
the records but that the encoder accepted them (`Framed`): one the
decoder refuses stops every scan in front of it. Whatever a scan returns
is then among the records (`FramesOf.read`), and this survives cuts,
appends, failed appends and compaction.

# The store

`WalInv A jammed s` says it of the store's file. A writer whose last
append failed is `jammed`: its file ends in part of a frame, and whatever
it appended next would stand behind that part. Opening the segment
again cuts the part off.
-/
import MemoryFirst.Store.WalFaults
import MemoryFirst.Store.Proofs.WalScan
import MemoryFirst.Store.Proofs.StoreLog

namespace MemoryFirst.Store

open Lib Faulty MfsStore Wal List

variable (crc32c : List UInt8 → UInt32) {A A' : RawWalRecord → Prop}

namespace Wal

-- ===== the records

/-- A record the encoder writes. -/
structure Framed (r : RawWalRecord) : Prop extends Encodable r where
  lsn_lt : r.lsn < 2 ^ 64
  version_lt : r.version < 2 ^ 64
  payload_lt : (payloadBytes r).length < 256 ^ 4

variable {r : RawWalRecord}

theorem Readable.framed (h : Readable r) : Framed r where
  shape := h.shape
  collection_le := h.collection_le
  key_le := h.key_le
  value_le := h.value_le
  lsn_lt := h.lsn_lt
  version_lt := h.version_lt
  payload_lt := Nat.lt_of_le_of_lt h.payload_le (by decide)

section

theorem leBytes_append_inj {k m n : Nat} {a b : List UInt8} (hm : m < 256 ^ k) (hn : n < 256 ^ k)
    (h : leBytes k m ++ a = leBytes k n ++ b) : m = n ∧ a = b := by
  obtain ⟨hhead, htail⟩ := append_inj h (by simp)
  have hnat := congrArg leNat hhead
  rw [leNat_leBytes_of_lt hm, leNat_leBytes_of_lt hn] at hnat
  exact ⟨hnat, htail⟩

theorem writeLenPrefixed_append_inj {x y a b : List UInt8} (hx : x.length ≤ RAW_WAL_MAX_FIELD_BYTES)
    (hy : y.length ≤ RAW_WAL_MAX_FIELD_BYTES)
    (h : writeLenPrefixed x ++ a = writeLenPrefixed y ++ b) :
    x = y ∧ a = b := by
  have hmax : RAW_WAL_MAX_FIELD_BYTES < 256 ^ 4 := by decide
  obtain ⟨hlen, h⟩ := leBytes_append_inj (by omega) (Nat.lt_of_le_of_lt hy hmax) h
  exact append_inj h hlen

/-- The payload determines its record. -/
theorem payloadBytes_inj {r r' : RawWalRecord} (h : Framed r)
    (h' : Framed r') (heq : payloadBytes r = payloadBytes r') : r = r' := by
  have hop : ∀ op, opCode op < 256 ^ 1 := by
    intro op
    cases op <;> decide
  simp only [payloadBytes, append_assoc] at heq
  replace heq := append_cancel_left heq
  obtain ⟨hlsn, heq⟩ := leBytes_append_inj h.lsn_lt h'.lsn_lt heq
  obtain ⟨hver, heq⟩ := leBytes_append_inj h.version_lt h'.version_lt heq
  obtain ⟨hname, heq⟩ := writeLenPrefixed_append_inj h.collection_le h'.collection_le heq
  obtain ⟨hcode, heq⟩ := leBytes_append_inj (hop _) (hop _) heq
  obtain ⟨hkey, heq⟩ := writeLenPrefixed_append_inj h.key_le h'.key_le heq
  rw [← append_nil (writeLenPrefixed (r.value.getD [])),
    ← append_nil (writeLenPrefixed (r'.value.getD []))] at heq
  obtain ⟨hvalue, -⟩ := writeLenPrefixed_append_inj h.value_le h'.value_le heq
  have hsame : r.op = r'.op := by
    have hinj : ∀ a b, opCode a = opCode b → a = b := by
      intro a b hab
      cases a <;> cases b <;> first | rfl | cases hab
    exact hinj _ _ hcode
  -- an empty value and none have the same bytes; the operation decides
  have hshape := h.shape
  have hshape' := h'.shape
  obtain ⟨lsn, version, collection, op, key, value⟩ := r
  obtain ⟨lsn', version', collection', op', key', value'⟩ := r'
  simp only at hlsn hver hname hsame hkey hvalue hshape hshape'
  have hvals : value = value' := by
    cases value <;> cases value' <;> simp_all
  rw [hlsn, hver, utf8_inj hname, hsame, hkey, hvals]

end

section

/-- What follows a frame does not decide where it ends. -/
theorem frame_append_inj {p p' a b : List UInt8} (hp : p.length < 256 ^ 4)
    (hp' : p'.length < 256 ^ 4)
    (h : frame crc32c p ++ a = frame crc32c p' ++ b) : p = p' ∧ a = b := by
  obtain ⟨-, hlen, -, hpay, -⟩ := frame_append_take crc32c p a rfl
  obtain ⟨-, hlen', -, hpay', -⟩ := frame_append_take crc32c p' b h
  have hsame : p.length = p'.length := by
    have hnat := congrArg leNat (hlen.symm.trans hlen')
    rwa [leNat_leBytes_of_lt hp, leNat_leBytes_of_lt hp'] at hnat
  rw [hsame] at hpay
  obtain rfl := hpay.symm.trans hpay'
  exact ⟨rfl, append_cancel_left h⟩

theorem framed_of_emitEncoded {bytes : List UInt8}
    (h : emitEncoded crc32c r = .ok bytes) (hlsn : r.lsn < 2 ^ 64)
    (hversion : r.version < 2 ^ 64) :
    bytes = recordBytes crc32c r ∧ Framed r := by
  obtain ⟨hbytes, henc⟩ := emitEncoded_eq_ok crc32c h
  refine ⟨hbytes, henc, hlsn, hversion, ?_⟩
  obtain ⟨payload, hp, h⟩ := bind_eq_ok.1 h
  obtain ⟨rfl, -⟩ := encodePayload_eq_ok hp
  split at h
  case isTrue => cases h
  case isFalse hlen => omega

/-- Two readings of the same bytes: the records a scan would return are
the first of the frames that were written. -/
theorem prefix_of_encodeFile_eq {rs rs' : List RawWalRecord}
    {tail tail' : List UInt8} (hrs : ∀ r ∈ rs, Framed r)
    (hrs' : ∀ r ∈ rs', Readable r)
    (htorn : Torn crc32c tail)
    (heq : encodeFile crc32c rs ++ tail = encodeFile crc32c rs' ++ tail') :
    rs' <+: rs := by
  induction rs' generalizing rs with
  | nil => exact nil_prefix
  | cons r' rs' ih =>
    have hr' := hrs' r' mem_cons_self
    cases rs with
    | nil =>
      -- a torn tail does not start with a readable frame
      have hsome := nextFrame_frame crc32c 0 hr' (encodeFile crc32c rs' ++ tail')
      rw [encodeFile_cons, append_assoc] at heq
      rw [← heq] at hsome
      have hnone := htorn 0
      rw [show encodeFile crc32c [] ++ tail = tail from rfl, hnone] at hsome
      cases hsome
    | cons r rs =>
      have hr := hrs r mem_cons_self
      rw [encodeFile_cons, encodeFile_cons, append_assoc, append_assoc] at heq
      obtain ⟨hpay, hrest⟩ := frame_append_inj crc32c hr.payload_lt hr'.framed.payload_lt heq
      obtain rfl := payloadBytes_inj hr hr'.framed hpay
      exact (prefix_cons_inj r).2 (ih (fun x hx => hrs x (mem_cons_of_mem r hx))
          (fun x hx => hrs' x (mem_cons_of_mem r hx)) hrest)

-- ===== the frames

/-- Whole frames of records that satisfy `A`, then the torn `tail`. -/
def FramesOf (A : RawWalRecord → Prop) (bytes tail : List UInt8) : Prop :=
  ∃ rs, bytes = encodeFile crc32c rs ++ tail ∧ (∀ r ∈ rs, Framed r ∧ A r)
    ∧ ∀ start, nextFrame crc32c start tail = .ok none

section

variable {crc32c} {bytes tail : List UInt8}

theorem framesOf_nil : FramesOf crc32c A [] [] :=
  ⟨[], rfl, by simp, nextFrame_nil crc32c⟩

theorem FramesOf.mono (h : FramesOf crc32c A bytes tail)
    (hA : ∀ r, A r → A' r) : FramesOf crc32c A' bytes tail := by
  obtain ⟨rs, hbytes, hrs, htorn⟩ := h
  exact ⟨rs, hbytes, fun r hr => ⟨(hrs r hr).1, hA r (hrs r hr).2⟩, htorn⟩

section

variable (h : FramesOf crc32c A bytes []) (hr : Framed r)

include h hr

theorem FramesOf.append :
    FramesOf crc32c (fun x => A x ∨ x = r) (bytes ++ recordBytes crc32c r) [] := by
  obtain ⟨rs, rfl, hrs, htorn⟩ := h
  refine ⟨rs ++ [r], ?_, fun x hx => ?_, htorn⟩
  · rw [encodeFile_append, append_nil, append_nil]
    simp [encodeFile]
  · rcases mem_snoc.1 hx with hx | rfl
    · exact ⟨(hrs x hx).1, Or.inl (hrs x hx).2⟩
    · exact ⟨hr, Or.inr rfl⟩

/-- A part of a frame behind whole ones is a torn tail. -/
theorem FramesOf.append_torn {n : Nat} (hn : n < (recordBytes crc32c r).length) :
    FramesOf crc32c A (bytes ++ (recordBytes crc32c r).take n) ((recordBytes crc32c r).take n) := by
  obtain ⟨rs, rfl, hrs, -⟩ := h
  refine ⟨rs, by rw [append_nil], hrs, fun start => ?_⟩
  exact nextFrame_torn crc32c start hr.payload_lt hn

end

theorem FramesOf.take (h : FramesOf crc32c A bytes tail) (n : Nat) :
    ∃ tail', FramesOf crc32c A (bytes.take n) tail' := by
  obtain ⟨rs, rfl, hrs, htorn⟩ := h
  obtain ⟨tail', htorn', htake⟩ :=
    take_frames crc32c (fun r hr => (hrs r hr).1.payload_lt) htorn n
  refine ⟨tail', wholeWithin crc32c n rs, htake, fun r hr => ?_, htorn'⟩
  exact hrs r (( wholeWithin_prefix crc32c n rs).subset hr)

variable {rs : List RawWalRecord}

/-- A scan returns none but the records that were written. -/
theorem FramesOf.read (h : FramesOf crc32c A bytes tail)
    (hread : readRecords crc32c (some bytes) = .ok rs) :
    ∀ r ∈ rs, A r := by
  obtain ⟨written, rfl, hwritten, htorn⟩ := h
  obtain ⟨hlog, tail', heq, -⟩ := readRecords_eq_ok crc32c hread
  have hfront := prefix_of_encodeFile_eq crc32c
    (fun r hr => (hwritten r hr).1) hlog.readable htorn heq
  exact fun r hr => (hwritten r (hfront.subset hr)).2

theorem framesOf_log (hlog : Log rs)
    (hA : ∀ r ∈ rs, A r) : FramesOf crc32c A (encodeFile crc32c rs) [] :=
  ⟨rs, (append_nil _).symm, fun r hr => ⟨(hlog.readable r hr).framed, hA r hr⟩,
    nextFrame_nil crc32c⟩

theorem nextLsnAfter_lt (rs : List RawWalRecord) : nextLsnAfter rs < 2 ^ 64 := by
  have hmax : u64Max < 2 ^ 64 := by decide
  exact Nat.max_lt.2 ⟨Nat.lt_of_le_of_lt (Nat.min_le_right _ _) hmax, by decide⟩

/-- Opening the segment finds the end of its whole frames. -/
theorem FramesOf.opened {file : Option (List UInt8)}
    (h : FramesOf crc32c A (file.getD []) tail) {state : RawWalAppendState}
    (hstate : appendStateForPath crc32c file = .ok state) :
    FramesOf crc32c A ((file.getD []).take state.lastGoodOffset) [] ∧ state.nextLsn < 2 ^ 64 := by
  cases file with
  | none =>
    cases hstate
    exact ⟨framesOf_nil, by decide⟩
  | some bytes =>
    obtain ⟨out, hscan, -⟩ := bind_eq_ok.1 hstate
    simp only [scanRecordsWithOffsets] at hscan
    obtain ⟨rs, tail', hlog, rfl, htail'⟩ :=
      scanLoop_eq_ok crc32c (by omega) hscan
    have hA := h.read (readRecords_log crc32c htail' hlog)
    rw [appendStateForPath_log crc32c htail' hlog] at hstate
    cases hstate
    refine ⟨?_, nextLsnAfter_lt rs⟩
    rw [Option.getD_some, take_left' rfl]
    exact framesOf_log hlog hA

end

end

end Wal

-- ===== the store

open Wal (FramesOf RawWalSegmentWriter)

/-- The failure of a `write_all` of the append. -/
def StoreError.tornAppend : StoreError → Bool
  | .walIo operation _ => operation ∈ ["write raw WAL magic",
      "write raw WAL length", "write raw WAL payload",
      "write raw WAL checksum"]
  | _ => false

/-- The file holds frames of records that satisfy `A`; an open writer
that is not jammed stands behind a whole one. -/
structure WalInv (crc32c : List UInt8 → UInt32) (A : RawWalRecord → Prop)
    (jammed : Bool) (s : MfsStore) : Prop where
  frames : ∃ tail, FramesOf crc32c A (s.file.getD []) tail
    ∧ (s.writer.isSome = true → jammed = false → tail = [])
  next_lt : ∀ w, s.writer = some w → w.nextLsn < 2 ^ 64

variable (fault : Option IoFault) {collection : String} {key : RawKey} {value : Option RawValue}
  {version : DocumentVersion}

section

variable {crc32c : List UInt8 → UInt32} {jammed : Bool} {s : MfsStore}

theorem WalInv.mono (h : WalInv crc32c A jammed s)
    (hA : ∀ r, A r → A' r) : WalInv crc32c A' jammed s := by
  obtain ⟨⟨tail, hframes, hclean⟩, hnext⟩ := h
  exact ⟨⟨tail, hframes.mono hA, hclean⟩, hnext⟩

theorem WalInv.jam (h : WalInv crc32c A false s) (jammed : Bool) : WalInv crc32c A jammed s := by
  obtain ⟨⟨tail, hframes, hclean⟩, hnext⟩ := h
  exact ⟨⟨tail, hframes, fun hw _ => hclean hw rfl⟩, hnext⟩

variable {mode : DurabilityMode} {s' : MfsStore}

/-- The invariant looks at the file and the writer only. -/
theorem WalInv.congr (h : WalInv crc32c A jammed s) (hfile : s'.file = s.file)
    (hwriter : s'.writer = s.writer) : WalInv crc32c A jammed s' := by
  obtain ⟨hframes, hnext⟩ := h
  exact ⟨by rw [hfile, hwriter]; exact hframes, by rw [hwriter]; exact hnext⟩

/-- Without a writer nothing can be jammed. -/
theorem WalInv.of_closed {tail : List UInt8}
    (h : FramesOf crc32c A (s.file.getD []) tail) (hw : s.writer = none)
    (jammed : Bool) : WalInv crc32c A jammed s := by
  refine ⟨⟨tail, h, fun hsome => ?_⟩, fun w hopen => ?_⟩
  · rw [hw] at hsome
    cases hsome
  · rw [hw] at hopen
    cases hopen

/-- An opening leaves the segment as it was, and fails, or cut to its
whole frames. -/
theorem Faulty.openWriter_cases {file file' : Option (List UInt8)}
    {r : StoreResult RawWalSegmentWriter}
    (h : Faulty.openWriter crc32c fault file = (file', r)) :
    ((∃ e, r = .error e) ∧ file'.getD [] = file.getD [])
      ∨ ∃ state, appendStateForPath crc32c file = .ok state
        ∧ file'.getD [] = (file.getD []).take state.lastGoodOffset
        ∧ ∀ w, r = .ok w → w.nextLsn = state.nextLsn := by
  unfold Faulty.openWriter at h
  split at h
  · cases h
    exact Or.inl ⟨⟨_, rfl⟩, rfl⟩
  split at h
  · cases h
    exact Or.inl ⟨⟨_, rfl⟩, rfl⟩
  case h_2 state hstate =>
    split at h
    · cases h
      exact Or.inl ⟨⟨_, rfl⟩, rfl⟩
    dsimp only at h
    split at h
    · cases h
      exact Or.inl ⟨⟨_, rfl⟩, rfl⟩
    split at h
    case isTrue hlen =>
      -- there is no tail to cut
      cases h
      exact Or.inr ⟨state, hstate, (take_of_length_le hlen).symm, by simp +contextual⟩
    case isFalse =>
      split at h
      · cases h
        exact Or.inl ⟨⟨_, rfl⟩, rfl⟩
      split at h
      · cases h
        exact Or.inr ⟨state, hstate, rfl, by simp⟩
      · cases h
        exact Or.inr ⟨state, hstate, rfl, by simp +contextual⟩

theorem WalInv.ensureWriter (h : WalInv crc32c A jammed s)
    (hjam : s.writer.isSome = true → jammed = false) :
    WalInv crc32c A false (Faulty.ensureWriter crc32c fault s).1
      ∧ ∀ w, (Faulty.ensureWriter crc32c fault s).2 = .ok w →
        (Faulty.ensureWriter crc32c fault s).1.writer = some w := by
  unfold Faulty.ensureWriter
  split
  case h_1 w hw =>
    have hfalse := hjam (by rw [hw]; rfl)
    subst hfalse
    refine ⟨h, fun w' hw' => ?_⟩
    cases hw'
    exact hw
  case h_2 hw =>
    obtain ⟨⟨tail, hframes, -⟩, -⟩ := h
    split
    case isFalse => exact ⟨WalInv.of_closed hframes hw false, fun w hw' => by cases hw'⟩
    case isTrue =>
      generalize hopen : Faulty.openWriter crc32c fault s.file = opened
      obtain ⟨file, r⟩ := opened
      rcases openWriter_cases fault hopen with ⟨⟨e, rfl⟩, hsame⟩ | ⟨state, hstate, hcut, hnext⟩
      · rw [← hsame] at hframes
        exact ⟨WalInv.of_closed hframes (by exact hw) false, fun w hw' => by cases hw'⟩
      obtain ⟨hclean, hlt⟩ := hframes.opened hstate
      rw [← hcut] at hclean
      cases r with
      | error e => exact ⟨WalInv.of_closed hclean (by exact hw) false, fun w hw' => by cases hw'⟩
      | ok w =>
        rw [← hnext w rfl] at hlt
        refine ⟨⟨⟨[], hclean, fun _ _ => rfl⟩, fun w hw' => ?_⟩, fun w hw' => ?_⟩
        · cases hw'
          exact hlt
        · cases hw'
          rfl

theorem tornAppend_writeOperation (payloadLen taken : Nat)
    (message : String) : StoreError.tornAppend
      (.walIo (writeOperation payloadLen taken) message) = true := by
  unfold Faulty.writeOperation
  split
  · rfl
  split
  · rfl
  split
  · rfl
  · rfl

/-- An append that succeeds writes its record behind the others; one that
fails leaves at most a part of it. -/
theorem Faulty.appendRecord_cases {w w' : RawWalSegmentWriter} {bytes bytes' : List UInt8}
    {op : Operation} {result : StoreResult Lsn} (hw : w.nextLsn < 2 ^ 64) (hversion : version < 2 ^ 64)
    (h : Faulty.appendRecord crc32c fault w bytes collection op key value version
      = (w', bytes', result)) :
    w'.nextLsn < 2 ^ 64 ∧ ((∃ e, bytes' = bytes ∧ result = .error e)
      ∨ ∃ r, r = ⟨w.nextLsn, version, collection, op, key, value⟩ ∧ Framed r
        ∧ (bytes' = bytes ++ recordBytes crc32c r ∧ result = .ok w.nextLsn
          ∨ ∃ n e, n < (recordBytes crc32c r).length ∧ e.tornAppend = true
            ∧ bytes' = bytes ++ (recordBytes crc32c r).take n ∧ result = .error e)) := by
  have hsucc : saturatingSucc w.nextLsn < 2 ^ 64 :=
    Nat.lt_of_le_of_lt (Nat.min_le_right _ _) (by decide)
  unfold Faulty.appendRecord at h
  dsimp only at h
  split at h
  case h_1 e _ =>
    cases h
    exact ⟨hsucc, Or.inl ⟨e, rfl, rfl⟩⟩
  case h_2 encoded hemit =>
    obtain ⟨rfl, hframed⟩ := framed_of_emitEncoded crc32c hemit hw hversion
    have hpos := length_recordBytes crc32c ⟨w.nextLsn, version, collection, op, key, value⟩
    split at h
    case h_1 taken message =>
      cases h
      refine ⟨hsucc, Or.inr ⟨_, rfl, hframed, Or.inr ⟨_, _, ?_, ?_, rfl, rfl⟩⟩⟩
      · omega
      · exact tornAppend_writeOperation ..
    case h_2 =>
      cases h
      exact ⟨hsucc, Or.inr ⟨_, rfl, hframed, Or.inl ⟨rfl, rfl⟩⟩⟩

/-- A logged append whose sync does not fail: its record is in the file
when it succeeds, and at most a part of it when it fails. -/
theorem WalInv.appendRawWal (h : WalInv crc32c A jammed s)
    (hjam : s.writer.isSome = true → jammed = false) (hversion : version < 2 ^ 64)
    {sync : Bool} (hsync : sync = true → Faulty.syncNow fault = .ok ())
    {result : StoreResult Lsn}
    (happend : Faulty.appendRawWal crc32c fault s collection key value
      version sync = (s', result)) :
    (∃ e, result = .error e ∧ WalInv crc32c A e.tornAppend s') ∨ ∃ lsn, result = .ok lsn
        ∧ WalInv crc32c (fun r => A r ∨ r = ⟨lsn, version, collection,
          opOf value, key, value⟩) false s' := by
  obtain ⟨hinv, hwriter⟩ := h.ensureWriter fault hjam
  unfold Faulty.appendRawWal at happend
  generalize Faulty.ensureWriter crc32c fault s = opened at *
  obtain ⟨s₁, r₁⟩ := opened
  cases r₁ with
  | error e =>
    cases happend
    exact Or.inl ⟨e, rfl, hinv.jam _⟩
  | ok w =>
    obtain ⟨⟨tail, hframes, hclean⟩, hnext⟩ := hinv
    have hw := hwriter w rfl
    obtain rfl := hclean (by rw [hw]; rfl) rfl
    dsimp only at happend
    rw [← opOf] at happend
    generalize hrecord : Faulty.appendRecord crc32c fault w _ _ _ _ _ _ = out at happend
    obtain ⟨w', bytes, r'⟩ := out
    obtain ⟨hlt, ⟨e, rfl, rfl⟩ | ⟨r, hr, hframed, ⟨rfl, rfl⟩ | ⟨n, e, hn, he, rfl, rfl⟩⟩⟩ :=
      Faulty.appendRecord_cases fault (hnext w hw) hversion hrecord
    · cases happend
      refine Or.inl ⟨e, rfl, ⟨[], hframes, fun _ _ => rfl⟩, ?_⟩
      intro x hx
      cases hx
      exact hlt
    · have hdone : WalInv crc32c (fun x => A x ∨ x = r) false
          { s₁ with
            writer := some w'
            file := some (s₁.file.getD []
              ++ recordBytes crc32c r) } := by
        refine ⟨⟨[], hframes.append hframed, fun _ _ => rfl⟩, ?_⟩
        intro x hx
        cases hx
        exact hlt
      subst hr
      cases sync with
      | false =>
        cases happend
        exact Or.inr ⟨_, rfl, hdone.congr rfl rfl⟩
      | true =>
        simp only [if_true, hsync rfl] at happend
        cases happend
        exact Or.inr ⟨_, rfl, hdone.congr rfl rfl⟩
    · cases happend
      refine Or.inl ⟨e, rfl, ⟨_, hframes.append_torn hframed hn, fun _ hfalse => ?_⟩, ?_⟩
      · rw [he] at hfalse
        cases hfalse
      · intro x hx
        cases hx
        exact hlt

theorem WalInv.syncWal (h : WalInv crc32c A jammed s) :
    WalInv crc32c A jammed (Faulty.syncWal crc32c fault s).1 := by
  unfold Faulty.syncWal
  split
  case isTrue => exact h
  case isFalse =>
    split
    case h_1 =>
      split
      · exact h
      · exact h.congr rfl rfl
    case h_2 hw =>
      split
      case isTrue => exact h
      case isFalse =>
        obtain ⟨hinv, -⟩ := h.ensureWriter fault (by simp [hw])
        generalize Faulty.ensureWriter crc32c fault s = opened at hinv
        obtain ⟨s₁, r₁⟩ := opened
        cases r₁ with
        | error e => exact hinv.jam _
        | ok w =>
          dsimp only
          split
          · exact hinv.jam _
          · exact (hinv.jam _).congr rfl rfl

/-- Whatever a compaction leaves holds no records but those of the
segment. -/
theorem Wal.FramesOf.compactRawWal {bytes tail : List UInt8}
    (h : FramesOf crc32c A bytes tail) (fault : Option IoFault) :
    ∃ tail', FramesOf crc32c A
      ((Faulty.compactRawWal crc32c fault (some bytes)).1.getD []) tail' := by
  have hcompact : ∃ tail', FramesOf crc32c A
      ((Wal.compactRawWal crc32c (some bytes)).1.getD []) tail' := by
    unfold Wal.compactRawWal
    dsimp only
    split
    case h_1 => exact ⟨tail, h⟩
    case h_2 rs hread =>
      obtain ⟨hlog, -⟩ := readRecords_eq_ok crc32c hread
      have hnewest := hlog.sublist (newestRecords_sublist rs)
      rw [rewriteRecords_log crc32c hnewest.readable]
      exact ⟨[], framesOf_log hnewest fun r hr =>
        h.read hread r ((newestRecords_sublist rs).subset hr)⟩
  unfold Faulty.compactRawWal
  generalize Wal.compactRawWal crc32c (some bytes) = out at hcompact ⊢
  obtain ⟨file, result⟩ := out
  split
  · exact ⟨tail, h⟩
  cases result with
  | error e => exact hcompact
  | ok stats =>
    dsimp only
    split
    · exact ⟨tail, h⟩
    split
    · exact hcompact
    · exact hcompact

/-- A compaction that succeeds leaves a writer behind a whole record. -/
theorem WalInv.compactWal (h : WalInv crc32c A jammed s)
    {result : StoreResult (Option RawWalCompactionStats)}
    (hcompact : Faulty.compactWal crc32c fault s = (s', result)) :
    WalInv crc32c A jammed s' ∧ ∀ stats, result = .ok (some stats) → WalInv crc32c A false s' := by
  unfold Faulty.compactWal at hcompact
  split at hcompact
  case isTrue =>
    cases hcompact
    exact ⟨h, nofun⟩
  case isFalse =>
    split at hcompact
    case h_1 =>
      cases hcompact
      exact ⟨h, nofun⟩
    case h_2 =>
      obtain ⟨⟨tail, hframes, -⟩, -⟩ := h
      -- the writer is closed, so only the file matters from here on
      have hfile : (if s.writer.isSome = true then
          { s with synced := (s.file.getD []).length } else s).file
          = s.file := by
        split <;> rfl
      generalize (if s.writer.isSome = true then
          { s with synced := (s.file.getD []).length } else s) = s₀
        at hcompact hfile
      dsimp only at hcompact
      rw [← hfile] at hframes
      split at hcompact
      case h_1 hnone =>
        cases hcompact
        exact ⟨WalInv.of_closed (by exact hframes) rfl _, nofun⟩
      case h_2 bytes hbytes =>
        rw [hbytes, Option.getD_some] at hframes
        obtain ⟨tail', hframes'⟩ := hframes.compactRawWal fault
        rw [hbytes] at hcompact
        generalize Faulty.compactRawWal crc32c fault (some bytes) = out
          at hcompact hframes'
        obtain ⟨file, stats | stats⟩ := out
        · cases hcompact
          exact ⟨WalInv.of_closed hframes' rfl _, nofun⟩
        have hclosed : WalInv crc32c A false
            { s₀ with
              writer := none
              walDirty := false
              file := file
              synced := (file.getD []).length } :=
          WalInv.of_closed hframes' rfl false
        obtain ⟨hinv, -⟩ := hclosed.ensureWriter fault fun _ => rfl
        dsimp only at hcompact
        generalize Faulty.ensureWriter crc32c fault _ = opened
          at hcompact hinv
        obtain ⟨s₁, r₁⟩ := opened
        cases r₁ with
        | error e =>
          cases hcompact
          exact ⟨hinv.jam _, nofun⟩
        | ok w =>
          cases hcompact
          exact ⟨hinv.jam _, fun _ _ => hinv⟩

-- ===== the writes

theorem Faulty.acknowledgeWrite_unlogged {result : StoreResult WriteAcknowledgement}
    (h : mode.logged = false)
    (hack : Faulty.acknowledgeWrite crc32c fault s mode collection key value version
      = (s', result)) : s' = s ∧ ∃ ack, result = .ok ack ∧ ack.lsn = none := by
  cases mode with
  | memoryOnly | snapshotOnly =>
    cases hack
    exact ⟨rfl, _, rfl, rfl⟩
  | walAsync | walGroupCommit | walSync => cases h

theorem Faulty.acknowledgeWrite_logged (h : mode.logged = true) :
    Faulty.acknowledgeWrite crc32c fault s mode collection key value version
      = ((Faulty.appendRawWal crc32c fault s collection key value version mode.syncs).1,
        (Faulty.appendRawWal crc32c fault s collection key value version
          mode.syncs).2.map mode.acknowledge) := by
  cases mode with
  | memoryOnly | snapshotOnly => cases h
  | walAsync | walGroupCommit | walSync => rfl

/-- An acknowledged write has its record in the file, if its mode is a
logged one; a refused write has at most a part of it there. -/
theorem WalInv.acknowledgeWrite (h : WalInv crc32c A jammed s)
    (hjam : mode.logged = true → s.writer.isSome = true → jammed = false)
    (hsync : mode.syncs = true → Faulty.syncNow fault = .ok ())
    (hversion : version < 2 ^ 64) {result : StoreResult WriteAcknowledgement}
    (hack : Faulty.acknowledgeWrite crc32c fault s mode collection key value
      version = (s', result)) :
    (∃ e, result = .error e ∧ WalInv crc32c A (e.tornAppend || jammed) s') ∨ ∃ ack, result = .ok ack
        ∧ WalInv crc32c (fun r => A r ∨ (ack.lsn = some r.lsn
          ∧ r = ⟨r.lsn, version, collection, opOf value, key, value⟩)) jammed s' := by
  cases hmode : mode.logged with
  | false =>
    obtain ⟨rfl, ack, rfl, hlsn⟩ := Faulty.acknowledgeWrite_unlogged fault hmode hack
    exact Or.inr ⟨ack, rfl, h.mono fun r hr => Or.inl hr⟩
  | true =>
    rw [Faulty.acknowledgeWrite_logged fault hmode] at hack
    obtain ⟨⟨s₁, r₁⟩, hout⟩ : ∃ out, Faulty.appendRawWal crc32c fault s
      collection key value version mode.syncs = out := ⟨_, rfl⟩
    rw [hout] at hack
    rcases h.appendRawWal fault (hjam hmode) hversion hsync hout with ⟨e, rfl, hinv⟩ | ⟨lsn, rfl, hinv⟩
    · cases hack
      refine Or.inl ⟨e, rfl, ?_⟩
      cases he : e.tornAppend with
      | true =>
        rw [he] at hinv
        exact hinv
      | false =>
        rw [he] at hinv
        exact hinv.jam _
    · cases hack
      refine Or.inr ⟨_, rfl, (hinv.jam _).mono fun r hr => ?_⟩
      rcases hr with hr | rfl
      · exact Or.inl hr
      · exact Or.inr ⟨DurabilityMode.lsn_acknowledge hmode lsn, rfl⟩

theorem wrappingSucc_lt (n : Nat) : wrappingSucc n < 2 ^ 64 :=
  Nat.mod_lt _ (by decide)

variable {result : StoreResult WriteResult} {options : WriteOptions}

/-- A write of either kind, from the acknowledgement on. A write that is
not acknowledged has changed the WAL at most; an acknowledged one finds
the slot its check found. -/
theorem Faulty.write_cases
    (hwrite : Faulty.write crc32c fault s collection key value options
      = (s', result)) : (∃ e, result = .error e ∧ s' = s)
      ∨ ∃ version s₁ ack, version < 2 ^ 64 ∧ Faulty.acknowledgeWrite crc32c fault s
          (options.effectiveDurability s.config.durability) collection key
          value version = (s₁, ack)
        ∧ ((∃ e, ack = .error e ∧ result = .error e ∧ s' = s₁)
          ∨ ∃ a c, ack = .ok a ∧ result = .ok ⟨version, a.lsn, a⟩
            ∧ s' = s₁.setCollection collection c) := by
  unfold Faulty.write at hwrite
  split at hwrite
  case h_1 e _ =>
    cases hwrite
    exact Or.inl ⟨e, rfl, rfl⟩
  case h_2 c hc =>
    dsimp only at hwrite
    split at hwrite
    case isTrue =>
      cases hwrite
      exact Or.inl ⟨_, rfl, rfl⟩
    case isFalse =>
      split at hwrite
      case isTrue =>
        cases hwrite
        exact Or.inl ⟨_, rfl, rfl⟩
      case isFalse hroom =>
        have hlt := wrappingSucc_lt (((c.records.get key).map RawRecord.version).getD 0)
        generalize wrappingSucc (((c.records.get key).map
          RawRecord.version).getD 0) = version at hwrite hlt
        have hinsert := (Core.ConcurrentMap.canInsertOrReplace_iff c.records
          key (⟨value, version⟩ : RawRecord)).1 (by simpa using hroom)
        obtain ⟨⟨s₁, ack⟩, hack⟩ : ∃ out, Faulty.acknowledgeWrite crc32c
          fault s (options.effectiveDurability s.config.durability)
          collection key value version = out := ⟨_, rfl⟩
        rw [hack] at hwrite
        refine Or.inr ⟨version, s₁, ack, hlt, hack, ?_⟩
        cases ack with
        | error e =>
          cases hwrite
          exact Or.inl ⟨e, rfl, rfl, rfl⟩
        | ok a =>
          generalize c.records.insert key _ = placed at hwrite hinsert
          obtain ⟨records, outcome⟩ := placed
          cases outcome with
          | full => exact absurd rfl hinsert
          | inserted | replaced =>
            cases hwrite
            exact Or.inr ⟨a, _, rfl, rfl, rfl⟩

theorem WalInv.write (h : WalInv crc32c A jammed s)
    (hjam : (options.effectiveDurability s.config.durability).logged = true →
      s.writer.isSome = true → jammed = false)
    (hsync : (options.effectiveDurability s.config.durability).syncs = true →
      Faulty.syncNow fault = .ok ())
    (hwrite : Faulty.write crc32c fault s collection key value options = (s', result)) :
    (∃ e, result = .error e ∧ WalInv crc32c A (e.tornAppend || jammed) s') ∨ ∃ res, result = .ok res
        ∧ WalInv crc32c (fun r => A r ∨ (res.lsn = some r.lsn
          ∧ r = ⟨r.lsn, res.version, collection, opOf value, key, value⟩)) jammed s' := by
  rcases write_cases fault hwrite with
    ⟨e, rfl, rfl⟩ | ⟨version, s₁, ack, hlt, hack, hrest⟩
  · refine Or.inl ⟨e, rfl, ?_⟩
    cases e.tornAppend with
    | true =>
      obtain ⟨⟨tail, hframes, -⟩, hnext⟩ := h
      exact ⟨⟨tail, hframes, fun _ hfalse => by cases hfalse⟩, hnext⟩
    | false => exact h
  rcases h.acknowledgeWrite fault hjam hsync hlt hack with ⟨e, rfl, hinv⟩ | ⟨a, rfl, hinv⟩
  · rcases hrest with ⟨e', he, rfl, rfl⟩ | ⟨a, c, ha, -⟩
    · cases he
      exact Or.inl ⟨e, rfl, hinv⟩
    · cases ha
  rcases hrest with ⟨e', he, -⟩ | ⟨a', c, ha, rfl, rfl⟩
  · cases he
  · cases ha
    exact Or.inr ⟨_, rfl, hinv.congr rfl rfl⟩

end

-- ===== memory

section

variable (s : MfsStore)

theorem Faulty.ensureWriter_walOnly : s.WalOnly (Faulty.ensureWriter crc32c fault s).1 := by
  unfold Faulty.ensureWriter
  split
  · rfl
  split
  · generalize Faulty.openWriter crc32c fault s.file = opened
    obtain ⟨file, e | w⟩ := opened
    · rfl
    · rfl
  · rfl

theorem Faulty.appendRawWal_walOnly (sync : Bool) :
    s.WalOnly (Faulty.appendRawWal crc32c fault s collection key value version sync).1 := by
  have hopen := Faulty.ensureWriter_walOnly crc32c fault s
  unfold Faulty.appendRawWal
  generalize Faulty.ensureWriter crc32c fault s = opened at hopen
  obtain ⟨s₁, e | w⟩ := opened
  · exact hopen
  dsimp only
  generalize Faulty.appendRecord crc32c fault w _ collection _ key value version = out
  obtain ⟨w', bytes, e | lsn⟩ := out
  · exact hopen.trans rfl
  dsimp only
  split
  · split
    · exact hopen.trans rfl
    · exact hopen.trans rfl
  · exact hopen.trans rfl

theorem Faulty.acknowledgeWrite_walOnly (mode : DurabilityMode) :
    s.WalOnly (Faulty.acknowledgeWrite crc32c fault s mode collection key value version).1 := by
  cases mode with
  | memoryOnly | snapshotOnly => exact WalOnly.refl s
  | walAsync => exact Faulty.appendRawWal_walOnly crc32c fault s false
  | walGroupCommit | walSync => exact Faulty.appendRawWal_walOnly crc32c fault s true

/-- A write that fails, whatever failed in it, leaves the collections as
they were. -/
theorem Faulty.write_walOnly_of_error {options : WriteOptions} {s' : MfsStore} {e : StoreError}
    (h : Faulty.write crc32c fault s collection key value options
      = (s', .error e)) : s.WalOnly s' := by
  rcases write_cases fault h with
    ⟨e', -, rfl⟩ | ⟨version, s₁, ack, -, hack, hrest⟩
  · exact WalOnly.refl _
  have hfst : _ = s₁ := congrArg Prod.fst hack
  have hwal : s.WalOnly s₁ := hfst ▸ Faulty.acknowledgeWrite_walOnly crc32c fault s _
  rcases hrest with ⟨e', -, -, rfl⟩ | ⟨a, c, -, hok, -⟩
  · exact hwal
  · cases hok

end

-- ===== without a fault

section

variable (s : MfsStore)

theorem Faulty.openWriter_none (file : Option (List UInt8)) :
    Faulty.openWriter crc32c none file = Wal.openWriter crc32c file := by
  have hscan : performScan none file = .ok () := by
    cases file <;> rfl
  unfold Faulty.openWriter Wal.openWriter
  rw [hscan]
  cases appendStateForPath crc32c file with
  | error e => rfl
  | ok state =>
    simp only [Faulty.perform]
    split
    case isTrue hlen => rw [take_of_length_le hlen]
    case isFalse => rfl

theorem Faulty.ensureWriter_none : Faulty.ensureWriter crc32c none s = s.ensureWriter crc32c := by
  unfold Faulty.ensureWriter MfsStore.ensureWriter
  rw [openWriter_none]
  obtain ⟨config, collections, nextId, writer, dirty, file, synced⟩ := s
  cases writer with
  | some w => rfl
  | none =>
    simp only
    split
    case isTrue =>
      unfold Wal.openWriter
      cases appendStateForPath crc32c file with
      | error e => simp
      | ok state => rfl
    case isFalse => rfl

theorem Faulty.appendRawWal_none (sync : Bool) :
    Faulty.appendRawWal crc32c none s collection key value version sync
      = s.appendRawWal crc32c collection key value version sync := by
  cases hopen : s.ensureWriter crc32c with
  | mk s₁ r =>
    cases r with
    | error e =>
      unfold Faulty.appendRawWal MfsStore.appendRawWal
      simp only [ensureWriter_none, hopen]
    | ok w =>
      rw [appendRawWal_of_opened hopen]
      unfold Faulty.appendRawWal Faulty.appendRecord Wal.appendRecord
      simp only [ensureWriter_none, hopen]
      rw [← opOf]
      cases emitEncoded crc32c ⟨w.nextLsn, version, collection, opOf value, key, value⟩ with
      | error e => rfl
      | ok encoded => cases sync <;> rfl

theorem Faulty.acknowledgeWrite_none (mode : DurabilityMode) :
    Faulty.acknowledgeWrite crc32c none s mode collection key value version
      = s.acknowledgeWrite crc32c mode collection key value version := by
  unfold Faulty.acknowledgeWrite MfsStore.acknowledgeWrite
  cases mode <;> simp only [appendRawWal_none]

theorem Faulty.write_none (options : WriteOptions) :
    Faulty.write crc32c none s collection key value options
      = ((s.writeWithHooks crc32c collection key value options noPreflight).1,
        (s.writeWithHooks crc32c collection key value options noPreflight).2.map Prod.fst) := by
  unfold Faulty.write MfsStore.writeWithHooks
  cases s.rawCollection collection with
  | error e => rfl
  | ok c =>
    simp only [noPreflight, acknowledgeWrite_none]
    split_ifs
    · rfl
    · rfl
    generalize MfsStore.acknowledgeWrite crc32c s _ collection key value _ = out
    obtain ⟨s₁, e | a⟩ := out
    · rfl
    · generalize c.records.insert key _ = placed
      obtain ⟨records, outcome⟩ := placed
      cases outcome <;> rfl

theorem Faulty.syncWal_none : Faulty.syncWal crc32c none s = s.syncWal crc32c := by
  unfold Faulty.syncWal MfsStore.syncWal
  rw [ensureWriter_none]
  rfl

theorem Faulty.compactWal_none : Faulty.compactWal crc32c none s = s.compactWal crc32c := by
  have hcompact : ∀ file, Faulty.compactRawWal crc32c none file
      = Wal.compactRawWal crc32c file := by
    intro file
    unfold Faulty.compactRawWal
    generalize Wal.compactRawWal crc32c file = out
    obtain ⟨file', e | stats⟩ := out
    · rfl
    · rfl
  have hkept : ∀ file, ∀ e, (Wal.compactRawWal crc32c file).2 = .error e →
      (Wal.compactRawWal crc32c file).1 = file := by
    intro file e
    unfold Wal.compactRawWal
    split
    · exact fun _ => rfl
    · split
      · exact fun _ => rfl
      · dsimp only
        split
        · exact fun _ => rfl
        · exact nofun
  unfold Faulty.compactWal MfsStore.compactWal
  split
  · rfl
  have hsync : (if s.writer.isSome = true then Faulty.syncNow none
      else .ok ()) = .ok () := by
    split <;> rfl
  rw [hsync]
  generalize (if s.writer.isSome = true then
    { s with synced := (s.file.getD []).length } else s) = s₀
  obtain ⟨config, collections, nextId, writer, dirty, file, synced⟩ := s₀
  cases file with
  | none => rfl
  | some bytes =>
    simp only [hcompact, ensureWriter_none]
    have hfile := hkept (some bytes)
    generalize Wal.compactRawWal crc32c (some bytes) = out at hfile ⊢
    obtain ⟨file', e | stats⟩ := out
    · rw [show file' = some bytes from hfile e rfl]
    · rfl

end

end MemoryFirst.Store
