/-
The raw WAL segment over any number of rounds of appending, losing a
tail and reopening.

# The machine

A `Segment` is the file and the writer that has it open. A step appends
one record, by any of the writer's four appends, or cuts the file at an
arbitrary byte and opens it again; the reply of the latter shows what a
reader finds in the cut file and whether the writer opened.

# The specification

`SegmentSpec` is the list of records a reader should see and the version
table of the self-versioning appends, both computed from the answered
steps alone: an acknowledged append adds its record under the LSN it was
given, a cut keeps the records wholly inside it.

# The result

`segment_reads_back`: along every run whose appends name a collection,
stay within the reader's payload limit and find the LSN counter below
its maximum, the file is the encoding of the specified records, reads
back as them with increasing LSNs, and every cut recovers. Each of the
three conditions is one the writer does not check and the reader does;
`unnamed_append_unreadable` shows a run without the first.
-/
import MemoryFirst.Lib.Runs
import MemoryFirst.Store.Proofs.Wal

namespace MemoryFirst.Store.Wal

open Lib Function List

-- ===== the machine

/-- An append. Without a value it is a delete; without a version the
writer assigns the next one of the key. -/
structure Append where
  collection : String
  key : RawKey
  value : Option RawValue
  version : Option UInt64
  deriving DecidableEq

def Append.op (a : Append) : Operation :=
  if a.value.isSome then .put else .delete

/-- The size of the payload of the append's record. -/
def Append.payloadLen (a : Append) : Nat :=
  Wal.payloadLen a.collection a.key a.value

structure Segment where
  file : List UInt8
  writer : Option RawWalSegmentWriter

/-- The LSN the segment's writer hands out next. -/
def Segment.nextLsn (s : Segment) : Lsn :=
  (s.writer.map RawWalSegmentWriter.nextLsn).getD 0

inductive SegmentStep where
  | append (a : Append)
  | reopen (cut : Nat)
  deriving DecidableEq

inductive SegmentReply where
  | appended (result : StoreResult Lsn)
  | notOpen
  | reopened (read : StoreResult (List RawWalRecord)) (opened : StoreResult Unit)

variable (crc32c : List UInt8 → UInt32)

section

/-- The append the arguments select. -/
def runAppend (w : RawWalSegmentWriter) (bytes : List UInt8) (a : Append) :
    RawWalSegmentWriter × List UInt8 × StoreResult Lsn :=
  match a.value, a.version with
  | some v, none => appendPut crc32c w bytes a.collection a.key v
  | none, none => appendDelete crc32c w bytes a.collection a.key
  | some v, some n => appendPutVersioned crc32c w bytes a.collection a.key v n.toNat
  | none, some n => appendDeleteVersioned crc32c w bytes a.collection a.key n.toNat

def segmentStep (s : Segment) : SegmentStep → Segment × SegmentReply
  | .append a =>
    match s.writer with
    | none => (s, .notOpen)
    | some w =>
      let (w', bytes, result) := runAppend crc32c w s.file a
      (⟨bytes, some w'⟩, .appended result)
  | .reopen cut =>
    let file := some (s.file.take cut)
    let read := readRecords crc32c file
    let (file', opened) := openWriter crc32c file
    (⟨file'.getD [], opened.toOption⟩, .reopened read (opened.map fun _ => ()))

/-- A segment whose file was absent, just opened. -/
def newSegment : Segment :=
  let (file, opened) := openWriter crc32c none
  ⟨file.getD [], opened.toOption⟩

end

-- ===== the specification

structure SegmentSpec where
  records : List RawWalRecord
  versions : String × RawKey → Option DocumentVersion

/-- The version an append is due. -/
def SegmentSpec.dueVersion (s : SegmentSpec) (a : Append) : DocumentVersion :=
  match a.version with
  | some n => n.toNat
  | none => wrappingSucc ((s.versions (a.collection, a.key)).getD 0)

section

def specStep (s : SegmentSpec) : SegmentStep × SegmentReply → SegmentSpec
  | (.append a, .appended (.ok lsn)) =>
    { records := s.records ++ [⟨lsn, s.dueVersion a, a.collection, a.op,
        a.key, a.value⟩]
      versions := if a.version.isNone then
          update s.versions (a.collection, a.key)
            (some (s.dueVersion a))
        else s.versions }
  | (.reopen cut, _) =>
    { records := wholeWithin crc32c cut s.records
      versions := versionsOf (wholeWithin crc32c cut s.records) }
  | _ => s

def specOf (history : List (SegmentStep × SegmentReply)) : SegmentSpec :=
  history.foldl (specStep crc32c) ⟨[], fun _ => none⟩

/-- The file is the encoding of the specified records and reads back as
them, LSNs strictly increasing. -/
structure SegmentReads (s : Segment) (spec : SegmentSpec) : Prop where
  file_eq : s.file = encodeFile crc32c spec.records
  read_eq : readRecords crc32c (some s.file) = .ok spec.records
  increasing : (spec.records.map RawWalRecord.lsn).Pairwise (· < ·)

/-- A cut recovers the whole records inside it; an append is answered by
a writer, and an LSN it returns is larger than every one in use. -/
def ReplyRecovers (spec : SegmentSpec) : SegmentStep → SegmentReply → Prop
  | .reopen cut, .reopened read opened =>
    read = .ok (wholeWithin crc32c cut spec.records) ∧ opened = .ok ()
  | .append _, .appended result =>
    ∀ lsn, result = .ok lsn → ∀ r ∈ spec.records, r.lsn < lsn
  | _, _ => False

/-- Along the whole run the segment reads back, and every reply is the
recovering one. -/
def RunReadsBack (steps : List SegmentStep) : Prop :=
  ∀ pre post, steps = pre ++ post → SegmentReads crc32c
        (exec (segmentStep crc32c) (newSegment crc32c) pre)
        (specOf crc32c (trace (segmentStep crc32c) (newSegment crc32c) pre))
      ∧ ∀ step rest, post = step :: rest → ReplyRecovers crc32c (specOf crc32c
            (trace (segmentStep crc32c) (newSegment crc32c) pre)) step
          (segmentStep crc32c (exec (segmentStep crc32c) (newSegment crc32c) pre) step).2

end

/-- What the reader needs of an append and the writer does not check. -/
def SafeStep (s : Segment) : SegmentStep → Prop
  | .append a => a.collection ≠ ""
      ∧ a.payloadLen ≤ RAW_WAL_MAX_PAYLOAD_BYTES ∧ s.nextLsn < u64Max
  | .reopen _ => True

instance (s : Segment) (step : SegmentStep) : Decidable (SafeStep s step) :=
  match step with
  | .append a => inferInstanceAs (Decidable (a.collection ≠ ""
      ∧ a.payloadLen ≤ RAW_WAL_MAX_PAYLOAD_BYTES ∧ s.nextLsn < u64Max))
  | .reopen _ => inferInstanceAs (Decidable True)

-- ===== the invariant

/-- What a safe run keeps. -/
structure SegmentInv (crc32c : List UInt8 → UInt32) (s : Segment) (spec : SegmentSpec) : Prop where
  log : Log spec.records
  below_max : ∀ r ∈ spec.records, r.lsn < u64Max
  file_eq : s.file = encodeFile crc32c spec.records
  writer_ok : ∃ w, s.writer = some w ∧ lastLsn 0 spec.records < w.nextLsn
    ∧ w.recordVersions = spec.versions

section

/-- All four appends are one: the record at the writer's LSN and the due
version. -/
theorem runAppend_eq {w : RawWalSegmentWriter} {spec : SegmentSpec}
    (hv : w.recordVersions = spec.versions) (bytes : List UInt8)
    (a : Append) :
    runAppend crc32c w bytes a = appendRecord crc32c w bytes a.collection a.op a.key a.value
        (spec.dueVersion a) a.version.isNone := by
  obtain ⟨collection, key, value, version⟩ := a
  cases value <;> cases version <;>
    simp only [runAppend, appendPut, appendDelete, appendPutVersioned,
      appendDeleteVersioned, nextRecordVersion, SegmentSpec.dueVersion,
      hv, Append.op] <;> rfl

theorem dueVersion_lt (spec : SegmentSpec) (a : Append) : spec.dueVersion a < 2 ^ 64 := by
  unfold SegmentSpec.dueVersion
  split
  next n _ => exact n.toNat_lt
  next => exact Nat.mod_lt _ (by decide)

variable {crc32c} {s : Segment} {spec : SegmentSpec}

section

variable (hi : SegmentInv crc32c s spec)

include hi

/-- A safe append that is acknowledged extends the log. -/
theorem SegmentInv.append {a : Append} (hsafe : SafeStep s (.append a)) :
    SegmentInv crc32c (segmentStep crc32c s (.append a)).1 (specStep crc32c spec
          (.append a, (segmentStep crc32c s (.append a)).2))
      ∧ ReplyRecovers crc32c spec (.append a) (segmentStep crc32c s (.append a)).2 := by
  obtain ⟨hnamed, hsize, hmax⟩ := hsafe
  obtain ⟨w, hw, hlt, hv⟩ := hi.writer_ok
  have hnext : w.nextLsn < u64Max := by
    simpa [Segment.nextLsn, hw] using hmax
  have hgrow := lt_saturatingSucc hnext
  have happend := runAppend_eq crc32c hv s.file a
  rcases appendRecord_cases crc32c w s.file a.collection a.op a.key a.value
      (spec.dueVersion a) a.version.isNone with ⟨e, heq⟩ | ⟨henc, heq⟩
  · -- refused: the file and the specification stay, an LSN is skipped
    have hstep : segmentStep crc32c s (.append a)
        = (⟨s.file, some { w with nextLsn := saturatingSucc w.nextLsn }⟩,
          .appended (.error e)) := by
      simp only [segmentStep, hw, happend, heq]
    rw [hstep]
    refine ⟨⟨hi.log, hi.below_max, hi.file_eq, _, rfl, ?_, hv⟩, ?_⟩
    · exact Nat.lt_trans hlt hgrow
    · intro lsn h
      cases h
  · have hstep : segmentStep crc32c s (.append a)
        = (⟨s.file ++ recordBytes crc32c ⟨w.nextLsn, spec.dueVersion a,
              a.collection, a.op, a.key, a.value⟩,
            some ⟨saturatingSucc w.nextLsn, if a.version.isNone then
                update w.recordVersions (a.collection, a.key) (some (spec.dueVersion a))
              else w.recordVersions⟩⟩, .appended (.ok w.nextLsn)) := by
      simp only [segmentStep, hw, happend, heq]
    rw [hstep]
    have hreadable : Readable ⟨w.nextLsn, spec.dueVersion a, a.collection,
        a.op, a.key, a.value⟩ := by
      refine ⟨?_, dueVersion_lt spec a, hnamed, henc.shape,
        henc.collection_le, henc.key_le, henc.value_le, ?_⟩
      · exact Nat.lt_trans hnext (by decide)
      · rw [length_payloadBytes]
        exact hsize
    refine ⟨⟨hi.log.append hreadable hlt, ?_, ?_, _, rfl, ?_, ?_⟩, ?_⟩
    · exact forall_mem_snoc.2 ⟨hi.below_max, hnext⟩
    · show s.file ++ _ = encodeFile crc32c (spec.records ++ [_])
      rw [encodeFile_append, ← hi.file_eq]
      simp [encodeFile]
    · show lastLsn 0 (spec.records ++ [_]) < _
      rw [lastLsn_append]
      exact hgrow
    · simp only [specStep, hv]
    · intro lsn h r hr
      cases h
      exact Nat.lt_of_le_of_lt (hi.log.le_lastLsn.2 r hr) hlt

/-- Cutting the file anywhere and opening it again recovers the whole
records. -/
theorem SegmentInv.reopen (cut : Nat) :
    SegmentInv crc32c (segmentStep crc32c s (.reopen cut)).1 (specStep crc32c spec
          (.reopen cut, (segmentStep crc32c s (.reopen cut)).2))
      ∧ ReplyRecovers crc32c spec (.reopen cut) (segmentStep crc32c s (.reopen cut)).2 := by
  obtain ⟨tail, htorn, htake⟩ := take_encodeFile crc32c hi.log cut
  have hpre := wholeWithin_prefix crc32c cut spec.records
  have hlog := hi.log.sublist hpre.sublist
  have hbelow : ∀ r ∈ wholeWithin crc32c cut spec.records,
      r.lsn < u64Max := fun r hr => hi.below_max r (hpre.subset hr)
  have hstep : segmentStep crc32c s (.reopen cut)
      = (⟨encodeFile crc32c (wholeWithin crc32c cut spec.records),
          some ⟨nextLsnAfter (wholeWithin crc32c cut spec.records),
            versionsOf (wholeWithin crc32c cut spec.records)⟩⟩,
        .reopened (.ok (wholeWithin crc32c cut spec.records)) (.ok ())) := by
    simp only [segmentStep, hi.file_eq, htake,
      readRecords_log crc32c htorn hlog, openWriter_log crc32c htorn hlog]
    rfl
  rw [hstep]
  exact ⟨⟨hlog, hbelow, rfl, _, rfl, lastLsn_lt_nextLsnAfter hbelow, rfl⟩,
    rfl, rfl⟩

/-- One safe step keeps the invariant and is answered as recovering. -/
theorem SegmentInv.step {step : SegmentStep} (hsafe : SafeStep s step) :
    SegmentInv crc32c (segmentStep crc32c s step).1
        (specStep crc32c spec (step, (segmentStep crc32c s step).2))
      ∧ ReplyRecovers crc32c spec step (segmentStep crc32c s step).2 := by
  cases step with
  | append a => exact hi.append hsafe
  | reopen cut => exact hi.reopen cut

theorem SegmentInv.reads : SegmentReads crc32c s spec := by
  refine ⟨hi.file_eq, ?_, (pairwise_cons.1 hi.log.increasing).2⟩
  have hread := readRecords_log crc32c (nextFrame_nil crc32c) hi.log
  rw [append_nil] at hread
  rw [hi.file_eq]
  exact hread

end

end

-- ===== whole runs

theorem segment_run_inv (crc32c : List UInt8 → UInt32) {steps : List SegmentStep}
    (hsafe : Guarded (segmentStep crc32c) SafeStep (newSegment crc32c) steps) :
    SegmentInv crc32c (exec (segmentStep crc32c) (newSegment crc32c) steps) (specOf crc32c
        (trace (segmentStep crc32c) (newSegment crc32c) steps)) := by
  have hstart : SegmentInv crc32c (newSegment crc32c) (specOf crc32c []) :=
    ⟨LogAfter.nil 0, by simp [specOf], rfl, _, rfl, Nat.one_pos, rfl⟩
  have hrun := exec_sim (fun s h => SegmentInv crc32c s (specOf crc32c h)) (fun s h step hi hs => by
      have hnext := (SegmentInv.step hi hs).1
      simpa only [specOf, foldl_append, foldl_cons, foldl_nil] using hnext)
    hstart hsafe
  rwa [nil_append] at hrun

/-- Over any rounds of appends and cuts in which every append names a
collection, fits the reader's payload limit and finds the LSN counter
below its maximum, the segment reads back and every cut recovers. -/
theorem segment_reads_back (crc32c : List UInt8 → UInt32) (steps : List SegmentStep)
    (hsafe : Guarded (segmentStep crc32c) SafeStep (newSegment crc32c)
      steps) : RunReadsBack crc32c steps := by
  rintro pre post rfl
  rw [guarded_append] at hsafe
  have hi := segment_run_inv crc32c hsafe.1
  refine ⟨hi.reads, ?_⟩
  rintro step rest rfl
  exact (hi.step hsafe.2.1).2

/-- Two appends, a cut inside the second record, and another append. -/
theorem segment_reads_back_torn_second : RunReadsBack (fun _ => 7)
    [.append ⟨"a", [1], some [2], none⟩, .append ⟨"a", [1], none, none⟩,
      .reopen 60, .append ⟨"b", [3], some [], some 9⟩] :=
  segment_reads_back _ _ (by decide)

/-- An append without a collection name is acknowledged, and the segment
is then unreadable. -/
theorem unnamed_append_unreadable :
    ¬ RunReadsBack (fun _ => 7) [.append ⟨"", [1], some [2], none⟩] := by
  intro h
  have hread := (h [.append ⟨"", [1], some [2], none⟩] [] rfl).1.read_eq
  exact absurd hread (by decide)

end MemoryFirst.Store.Wal
