/-
Checkpoint files read back: a snapshot that was encoded is decoded as
itself, under the LSN it was written with.

# Limits

The encoder bounds the fields and the whole payload; the decoder asks
for two things more, that collections are named and versions are not
zero (`Storable`). A store whose writes were all logged and safe meets
both. The counts the decoder compares with the bytes that are left are
met by every encoding, since a collection takes at least twelve bytes
and a record thirteen.
-/
import MemoryFirst.Store.Checkpoint
import MemoryFirst.Store.Proofs.Snapshot
import MemoryFirst.Store.Proofs.StoreLog

namespace MemoryFirst.Store.Checkpoint

open Lib MfsStore List

-- ===== the encoding

def lenPrefixed (bytes : List UInt8) : List UInt8 :=
  leBytes 4 bytes.length ++ bytes

def valueBytes : Option RawValue → List UInt8
  | some value => leBytes 1 RECORD_VALUE ++ lenPrefixed value
  | none => leBytes 1 RECORD_TOMBSTONE

def recordBytes (r : RawSnapshotRecord) : List UInt8 :=
  leBytes 8 r.version ++ lenPrefixed r.key ++ valueBytes r.value

def collectionBytes (c : RawCollectionSnapshot) : List UInt8 :=
  lenPrefixed (utf8 c.name) ++ leBytes 8 c.records.length ++ c.records.flatMap recordBytes

def payloadBytes (metadata : RawCheckpointMetadata) (snapshot : RawStoreSnapshot) : List UInt8 :=
  leBytes 8 metadata.checkpointLsn ++ leBytes 8 metadata.engineMaxCollections
    ++ leBytes 8 metadata.engineRawInitialCapacity
    ++ leBytes 4 snapshot.collections.length
    ++ leBytes 8 metadata.recordCount
    ++ snapshot.collections.flatMap collectionBytes

/-- The fields of a record are within their limits. -/
structure RecordFits (r : RawSnapshotRecord) : Prop where
  key_le : r.key.length ≤ MAX_CHECKPOINT_FIELD_BYTES
  value_le : ∀ v, r.value = some v → v.length ≤ MAX_CHECKPOINT_FIELD_BYTES

structure CollectionFits (c : RawCollectionSnapshot) : Prop where
  name_le : (utf8 c.name).length ≤ MAX_CHECKPOINT_FIELD_BYTES
  records : ∀ r ∈ c.records, RecordFits r

variable {bytes out : List UInt8}

theorem writeLenPrefixed_eq_ok (h : writeLenPrefixed bytes = .ok out) : out = lenPrefixed bytes
      ∧ bytes.length ≤ MAX_CHECKPOINT_FIELD_BYTES := by
  obtain ⟨hle, h⟩ := of_ite_eq h nofun
  cases h
  exact ⟨rfl, Nat.not_lt.1 hle⟩

variable {r : RawSnapshotRecord}

theorem writeRecord_eq_ok (h : writeRecord r = .ok out) : out = recordBytes r ∧ RecordFits r := by
  obtain ⟨key, value, version⟩ := r
  obtain ⟨kb, hk, h⟩ := bind_eq_ok.1 h
  obtain ⟨rfl, hkey⟩ := writeLenPrefixed_eq_ok hk
  cases value with
  | none =>
    cases h
    refine ⟨rfl, hkey, fun v hv => ?_⟩
    cases hv
  | some v =>
    obtain ⟨vb, hv, h⟩ := bind_eq_ok.1 h
    obtain ⟨rfl, hvalue⟩ := writeLenPrefixed_eq_ok hv
    cases h
    refine ⟨?_, hkey, fun v' hv' => ?_⟩
    · simp only [recordBytes, valueBytes, append_assoc]
    · obtain rfl := Option.some.inj hv'
      exact hvalue

/-- Parts written one after another. -/
theorem writeAll_eq_ok {α : Type} {write : α → StoreResult (List UInt8)}
    {enc : α → List UInt8} {P : α → Prop}
    (hwrite : ∀ a b, write a = .ok b → b = enc a ∧ P a) {l : List α}
    (h : writeAll write l = .ok out) :
    out = l.flatMap enc ∧ ∀ a ∈ l, P a := by
  induction l generalizing out with
  | nil =>
    cases h
    exact ⟨rfl, by simp⟩
  | cons a l ih =>
    obtain ⟨b, hb, h⟩ := bind_eq_ok.1 h
    obtain ⟨bs, hbs, h⟩ := bind_eq_ok.1 h
    obtain ⟨rfl, ha⟩ := hwrite a b hb
    obtain ⟨rfl, hl⟩ := ih hbs
    cases h
    exact ⟨rfl, forall_mem_cons.2 ⟨ha, hl⟩⟩

theorem writeCollection_eq_ok {c : RawCollectionSnapshot} (h : writeCollection c = .ok out) :
    out = collectionBytes c ∧ CollectionFits c := by
  obtain ⟨nb, hn, h⟩ := bind_eq_ok.1 h
  obtain ⟨rb, hr, h⟩ := bind_eq_ok.1 h
  obtain ⟨rfl, hname⟩ := writeLenPrefixed_eq_ok hn
  obtain ⟨rfl, hrecords⟩ := writeAll_eq_ok (fun _ _ => writeRecord_eq_ok) hr
  cases h
  exact ⟨rfl, hname, hrecords⟩

variable {snapshot : RawStoreSnapshot}

theorem writePayload_eq_ok {metadata : RawCheckpointMetadata}
    (h : writePayload metadata snapshot = .ok out) :
    out = payloadBytes metadata snapshot ∧ snapshot.collections.length < 2 ^ 32
      ∧ ∀ c ∈ snapshot.collections, CollectionFits c := by
  obtain ⟨hle, h⟩ := of_ite_eq h nofun
  obtain ⟨cb, hc, h⟩ := bind_eq_ok.1 h
  obtain ⟨rfl, hall⟩ := writeAll_eq_ok (fun _ _ => writeCollection_eq_ok) hc
  cases h
  exact ⟨rfl, by omega, hall⟩

-- ===== the decoding

/-- What the decoder asks of a snapshot and the encoder does not. -/
structure Storable (snapshot : RawStoreSnapshot) : Prop where
  named : ∀ c ∈ snapshot.collections, c.name ≠ ""
  versioned : ∀ c ∈ snapshot.collections, ∀ r ∈ c.records, 0 < r.version ∧ r.version < 2 ^ 64

theorem reads_readNum {k n : Nat} (h : n < 256 ^ k) : Reads (readNum k) (leBytes k n) n :=
  reads_readNat _ h

/-- A number field read back, whatever was put into it. -/
theorem reads_readNum_mod (k n : Nat) : Reads (readNum k) (leBytes k n) (n % 256 ^ k) := by
  have hread := (reads_takeBytes (corrupt .malformedCheckpoint)
    (length_leBytes k n)).bind_pure (f := leNat)
  rwa [leNat_leBytes] at hread

theorem reads_readBytes (h : bytes.length ≤ MAX_CHECKPOINT_FIELD_BYTES) :
    Reads readBytes (lenPrefixed bytes) bytes := by
  have hlt : bytes.length < 256 ^ 4 := Nat.lt_of_le_of_lt h (by decide)
  refine (reads_readNum hlt).bind ?_
  exact Reads.ite_neg (by omega) (reads_takeBytes _ rfl)

theorem reads_nameOfBytes {name : String} (h : name ≠ "") :
    Reads (liftM (nameOfBytes (utf8 name)) : Parser StoreError String) [] name := by
  intro rest
  have hname : nameOfBytes (utf8 name) = .ok name := by
    simp only [nameOfBytes, fromUtf8_utf8, if_neg h]
  rw [hname]
  rfl

theorem reads_readRecord (hfits : RecordFits r) (hversion : 0 < r.version ∧ r.version < 2 ^ 64) :
    Reads readRecord (recordBytes r) r := by
  obtain ⟨key, value, version⟩ := r
  refine (reads_readNum hversion.2).bind (Reads.ite_neg ?_ ?_)
  · exact Nat.ne_of_gt hversion.1
  refine (reads_readBytes hfits.key_le).bind ?_
  cases value with
  | none =>
    have hmark : RECORD_TOMBSTONE < 256 ^ 1 := by decide
    refine (reads_readNum hmark).bind ?_
    exact Reads.bind_pure (Reads.pure none)
  | some v =>
    have hmark : RECORD_VALUE < 256 ^ 1 := by decide
    refine (reads_readNum hmark).bind ?_
    have hv := (reads_readBytes (hfits.value_le v rfl)).bind_pure (f := some)
    exact hv.bind_pure

/-- A run of records of at least thirteen bytes each. -/
theorem length_records_le (rs : List RawSnapshotRecord) : rs.length * MIN_RECORD_PAYLOAD_BYTES
      ≤ (rs.flatMap recordBytes).length := by
  induction rs with
  | nil => exact Nat.zero_le _
  | cons r rs ih =>
    have hvalue : 1 ≤ (valueBytes r.value).length := by
      cases r.value <;>
        simp [valueBytes, length_append, length_leBytes]
    have hr : (recordBytes r).length = 12 + r.key.length + (valueBytes r.value).length := by
      simp only [recordBytes, lenPrefixed, length_append, length_leBytes]
      omega
    simp only [MIN_RECORD_PAYLOAD_BYTES] at ih ⊢
    rw [flatMap_cons, length_append, length_cons]
    omega

variable (cs : List RawCollectionSnapshot)

/-- The records in all collections together. -/
def recordTotal : Nat :=
  (cs.map fun c => c.records.length).sum

theorem length_collections_le :
    cs.length * MIN_COLLECTION_PAYLOAD_BYTES ≤ (cs.flatMap collectionBytes).length
      ∧ recordTotal cs * MIN_RECORD_PAYLOAD_BYTES ≤ (cs.flatMap collectionBytes).length := by
  induction cs with
  | nil => exact ⟨Nat.zero_le _, Nat.zero_le _⟩
  | cons c cs ih =>
    have hrecords := length_records_le c.records
    have hc : (collectionBytes c).length = 12 + (utf8 c.name).length
        + (c.records.flatMap recordBytes).length := by
      simp only [collectionBytes, lenPrefixed, length_append, length_leBytes]
      omega
    have htotal : recordTotal (c :: cs) = c.records.length + recordTotal cs := rfl
    simp only [MIN_RECORD_PAYLOAD_BYTES, MIN_COLLECTION_PAYLOAD_BYTES] at ih hrecords ⊢
    rw [flatMap_cons, length_append, length_cons, htotal]
    constructor <;> omega

/-- The loop over the collections, behind `decoded` records. -/
theorem reads_readCollections {cs : List RawCollectionSnapshot}
    (hfits : ∀ c ∈ cs, CollectionFits c) (hstore : Storable ⟨cs⟩)
    {total : Nat} (hlt : total < 2 ^ 64) (decoded : Nat)
    (htotal : decoded + recordTotal cs ≤ total) :
    Reads (readCollections total cs.length decoded)
      (cs.flatMap collectionBytes) (cs, decoded + recordTotal cs) := by
  induction cs generalizing decoded with
  | nil => exact Reads.pure ([], decoded)
  | cons c cs ih =>
    have hc := hfits c mem_cons_self
    have hsum : recordTotal (c :: cs) = c.records.length + recordTotal cs := rfl
    have hrecords : Reads (readMany readRecord c.records.length)
        (c.records.flatMap recordBytes) c.records :=
      reads_readMany fun r hr => reads_readRecord (hc.records r hr)
        (hstore.versioned c mem_cons_self r hr)
    have hrest := ih (fun x hx => hfits x (mem_cons_of_mem c hx))
      ⟨fun x hx => hstore.named x (mem_cons_of_mem c hx),
        fun x hx => hstore.versioned x (mem_cons_of_mem c hx)⟩
      (decoded + c.records.length) (by omega)
    have hcount : c.records.length < 256 ^ 8 := by
      omega
    rw [flatMap_cons, collectionBytes]
    simp only [append_assoc]
    refine (reads_readBytes hc.name_le).bind ?_
    refine (reads_nameOfBytes (hstore.named c mem_cons_self)).bind_nil ?_
    refine (reads_readNum hcount).bind ?_
    refine reads_roomFor _ (by decide) ?_ (Reads.ite_neg ?_ ?_)
    · rw [length_append]
      exact Nat.le_trans (length_records_le c.records) (by omega)
    · omega
    refine hrecords.bind ?_
    have hlast := hrest.bind_pure (f := fun p => (c :: p.1, p.2))
    rw [hsum, ← Nat.add_assoc]
    exact hlast

variable {lsn : Lsn}

/-- An encoded payload is decoded as the snapshot it was made from. -/
theorem decodePayload_payloadBytes (hfits : ∀ c ∈ snapshot.collections, CollectionFits c)
    (hcount : snapshot.collections.length < 2 ^ 32)
    (hstore : Storable snapshot) (config : MfsStoreConfig) (hlsn : lsn < 2 ^ 64)
    (htotal : recordTotal snapshot.collections < 2 ^ 64) (version : Nat) :
    ∃ decoded, decodePayload version
        (payloadBytes (metadataForSnapshot config lsn snapshot) snapshot) = .ok decoded
      ∧ decoded.snapshot = snapshot
      ∧ decoded.metadata.checkpointLsn = lsn := by
  have h64 : (256 : Nat) ^ 8 = 2 ^ 64 := by decide
  have h32 : (256 : Nat) ^ 4 = 2 ^ 32 := by decide
  have hrecords : (metadataForSnapshot config lsn snapshot).recordCount
      = recordTotal snapshot.collections := by
    simp only [metadataForSnapshot, recordTotal, map_map]
    rfl
  have hlen := length_collections_le snapshot.collections
  have hcs := reads_readCollections hfits hstore htotal 0 (by omega)
  rw [Nat.zero_add] at hcs
  obtain ⟨decoded, ⟨hsnapshot, hown, hcounted⟩, hread⟩ : ∃ decoded,
      (decoded.snapshot = snapshot ∧ decoded.metadata.checkpointLsn = lsn
        ∧ decoded.metadata.recordCount = recordTotal snapshot.collections)
      ∧ Reads (readPayload version)
        (payloadBytes (metadataForSnapshot config lsn snapshot) snapshot)
        (decoded, recordTotal snapshot.collections) := by
    refine ⟨⟨⟨version, lsn, config.maxCollections % 256 ^ 8,
      config.rawInitialCapacity % 256 ^ 8, snapshot.collections.length,
      recordTotal snapshot.collections,
      snapshot.collections.map collectionMetadata⟩, snapshot⟩,
      ⟨rfl, rfl, rfl⟩, ?_⟩
    simp only [payloadBytes, hrecords, append_assoc]
    refine (reads_readNum (by rw [h64]; exact hlsn)).bind ?_
    refine (reads_readNum_mod 8 _).bind ((reads_readNum_mod 8 _).bind ?_)
    refine (reads_readNum (by rw [h32]; exact hcount)).bind ?_
    refine (reads_readNum (by rw [h64]; exact htotal)).bind ?_
    refine reads_roomFor _ (by decide) hlen.1 ?_
    refine reads_roomFor _ (by decide) hlen.2 ?_
    exact hcs.bind_pure
  refine ⟨decoded, ?_, hsnapshot, hown⟩
  simp only [decodePayload, hread.run_eq, ok_bind, hcounted]
  rw [if_neg (by simp)]
  rfl

/-- A sound store whose collections are named and whose versions are not
zero can be stored. -/
theorem storable_rawSnapshot {s : MfsStore} (hs : s.Sound)
    (hnamed : ∀ name ∈ s.collections, name ≠ "")
    (hversions : ∀ a x, s.contents a = some x →
      0 < x.version ∧ x.version < 2 ^ 64) : Storable s.rawSnapshot := by
  refine ⟨fun c hc => ?_, fun c hc r hr => ?_⟩
  · exact hnamed c.name ((names_rawSnapshot s).subset (mem_map_of_mem hc))
  · have hholds : s.contents (c.name, r.key) = some r.stored :=
      hs.holds_rawSnapshot.1 ⟨c, hc, rfl, r, hr, rfl, rfl⟩
    exact hversions _ _ hholds

-- ===== the file

/-- The parts of a checkpoint file, as the decoder takes it apart. -/
theorem checkpointPrefix_parts {payload rest bytes : List UInt8}
    (h : bytes = checkpointPrefix payload ++ rest) :
    bytes.take 4 = leBytes 4 RAW_CHECKPOINT_MAGIC
      ∧ (bytes.drop 4).take 2 = leBytes 2 RAW_CHECKPOINT_FORMAT_VERSION
      ∧ (bytes.drop 6).take 8 = leBytes 8 payload.length
      ∧ (bytes.drop HEADER_LEN).take payload.length = payload
      ∧ bytes.take (HEADER_LEN + payload.length) = checkpointPrefix payload
      ∧ bytes.drop (HEADER_LEN + payload.length) = rest := by
  subst h
  have hm := length_leBytes 4 RAW_CHECKPOINT_MAGIC
  have hf := length_leBytes 2 RAW_CHECKPOINT_FORMAT_VERSION
  have hl := length_leBytes 8 payload.length
  have hp : (checkpointPrefix payload).length = HEADER_LEN + payload.length := by
    simp only [checkpointPrefix, length_append, length_leBytes, HEADER_LEN]
  refine ⟨?_, ?_, ?_, ?_, take_left' hp, drop_left' hp⟩
  · simp only [checkpointPrefix, append_assoc]
    exact take_left' hm
  · simp only [checkpointPrefix, append_assoc]
    exact take_left' hf
  · simp only [checkpointPrefix]
    exact take_left' hl
  · simp only [checkpointPrefix]
    exact take_left' rfl

section

variable (crc32c : List UInt8 → UInt32)

/-- A checkpoint that was encoded is decoded as its snapshot, under its
LSN. -/
theorem decodeCheckpoint_encoded {config : MfsStoreConfig} {bytes : List UInt8}
    (h : encodeCheckpoint crc32c (metadataForSnapshot config lsn snapshot) snapshot = .ok bytes)
    (hstore : Storable snapshot) (hlsn : lsn < 2 ^ 64) :
    ∃ decoded, decodeCheckpoint crc32c bytes = .ok decoded ∧ decoded.snapshot = snapshot
      ∧ decoded.metadata.checkpointLsn = lsn := by
  obtain ⟨payload, hp, h⟩ := bind_eq_ok.1 h
  obtain ⟨rfl, hcount, hfits⟩ := writePayload_eq_ok hp
  obtain ⟨hle, h⟩ := of_ite_eq h nofun
  cases h
  have hlen : recordTotal snapshot.collections < 2 ^ 64 := by
    have hmin := (length_collections_le snapshot.collections).2
    have hmax : MAX_CHECKPOINT_PAYLOAD_BYTES < 2 ^ 64 := by decide
    simp only [MIN_RECORD_PAYLOAD_BYTES] at hmin
    simp only [payloadBytes, length_append] at hle
    omega
  obtain ⟨decoded, hdecode, hsnapshot, hown⟩ :=
    decodePayload_payloadBytes hfits hcount hstore config hlsn hlen RAW_CHECKPOINT_FORMAT_VERSION
  refine ⟨decoded, ?_, hsnapshot, hown⟩
  generalize payloadBytes (metadataForSnapshot config lsn snapshot)
    snapshot = payload at hle hdecode
  generalize hbytes : checkpointPrefix payload ++
    leBytes 4 (crc32c (checkpointPrefix payload)).toNat = bytes
  obtain ⟨h1, h2, h3, h4, h5, h6⟩ := checkpointPrefix_parts hbytes.symm
  have hcrc : (crc32c (checkpointPrefix payload)).toNat < 256 ^ 4 := (crc32c _).toNat_lt
  have hpay : payload.length < 256 ^ 8 :=
    Nat.lt_of_le_of_lt (Nat.not_lt.1 hle) (by decide)
  have htotal : bytes.length = HEADER_LEN + payload.length + CHECKSUM_LEN := by
    simp only [← hbytes, checkpointPrefix, length_append, length_leBytes, HEADER_LEN, CHECKSUM_LEN]
  have htail : (leBytes 4 (crc32c (checkpointPrefix payload)).toNat).take CHECKSUM_LEN
        = leBytes 4 (crc32c (checkpointPrefix payload)).toNat :=
    take_of_length_le (by rw [length_leBytes]; decide)
  have hmagic : leNat (leBytes 4 RAW_CHECKPOINT_MAGIC) = RAW_CHECKPOINT_MAGIC := by decide
  have hformat : leNat (leBytes 2 RAW_CHECKPOINT_FORMAT_VERSION)
      = RAW_CHECKPOINT_FORMAT_VERSION := by decide
  unfold decodeCheckpoint
  simp only [h1, h2, h3, hmagic, hformat, leNat_leBytes_of_lt hpay]
  rw [if_neg (by omega), if_neg (by simp), if_neg (by simp), if_neg hle,
    if_neg (by omega), h5, h6, htail, leNat_leBytes_of_lt hcrc,
    if_neg (by simp), h4, hdecode]

end

-- ===== recovering

/-- What a recovery starts from: a snapshot and the LSN behind which it
replays the log. Without a checkpoint these are empty and zero. -/
def recoveryStart (checkpoint : Option DecodedRawCheckpoint) : RawStoreSnapshot × Lsn :=
  match checkpoint with
  | some decoded => (decoded.snapshot, decoded.metadata.checkpointLsn)
  | none => (⟨[]⟩, 0)

variable (crc32c : List UInt8 → UInt32)

/-- No checkpoint of the directory that decodes is behind `lsn`. -/
def DirUpTo (dir : CheckpointDir) (lsn : Lsn) : Prop :=
  ∀ e ∈ dir.entries, ∀ decoded, decodeCheckpoint crc32c e.2 = .ok decoded →
    decoded.metadata.checkpointLsn ≤ lsn

theorem dirUpTo_empty (lsn : Lsn) : DirUpTo crc32c ∅ lsn := by
  intro e he
  cases he

variable {crc32c : List UInt8 → UInt32}

theorem foldl_betterCheckpoint {best : DecodedRawCheckpoint}
    {l : List (Sigma fun _ : Lsn => List UInt8)}
    (h : ∀ e ∈ l, ∀ decoded, decodeCheckpoint crc32c e.2 = .ok decoded →
      decoded.metadata.checkpointLsn ≤ best.metadata.checkpointLsn) :
    l.foldl (fun best e => betterCheckpoint crc32c best e.2) (some best) = some best := by
  induction l with
  | nil => rfl
  | cons e l ih =>
    have hkeep : betterCheckpoint crc32c (some best) e.2 = some best := by
      unfold betterCheckpoint
      cases hd : decodeCheckpoint crc32c e.2 with
      | error err => rfl
      | ok decoded => exact if_neg (Nat.not_lt.2 (h e mem_cons_self decoded hd))
    rw [foldl_cons, hkeep]
    exact ih fun x hx => h x (mem_cons_of_mem e hx)

variable {dir : CheckpointDir}

/-- A checkpoint that no other is behind is the latest. -/
theorem latestCheckpoint_insert (hdir : DirUpTo crc32c dir lsn) {decoded : DecodedRawCheckpoint}
    (h : decodeCheckpoint crc32c bytes = .ok decoded)
    (hown : decoded.metadata.checkpointLsn = lsn) :
    latestCheckpoint crc32c (dir.insert lsn bytes) = some decoded
      ∧ DirUpTo crc32c (dir.insert lsn bytes) lsn := by
  have hrest : ∀ e ∈ dir.entries.kerase lsn, ∀ d, decodeCheckpoint crc32c e.2 = .ok d →
        d.metadata.checkpointLsn ≤ lsn :=
    fun e he => hdir e ((kerase_sublist lsn dir.entries).subset he)
  constructor
  · unfold latestCheckpoint
    rw [AList.entries_insert, foldl_cons, betterCheckpoint, h]
    refine foldl_betterCheckpoint ?_
    rw [hown]
    exact hrest
  · intro e he d hd
    rcases mem_cons.1 he with rfl | he
    · rw [h] at hd
      cases hd
      exact Nat.le_of_eq hown
    · exact hrest e he d hd

/-- The records behind an LSN. -/
def after (lsn : Lsn) (rs : List RawWalRecord) : List RawWalRecord :=
  rs.filter fun r => lsn < r.lsn

section

variable {rs : List RawWalRecord}

theorem after_append (lsn : Lsn) (rs : List RawWalRecord) (r : RawWalRecord) : after lsn (rs ++ [r])
      = if lsn < r.lsn then after lsn rs ++ [r] else after lsn rs := by
  unfold after
  split
  case isTrue h => simp [h]
  case isFalse h => simp [h]

/-- Nothing is behind the last LSN. -/
theorem after_eq_nil (hlog : Wal.Log rs) (h : Wal.lastLsn 0 rs ≤ lsn) : after lsn rs = [] := by
  refine filter_eq_nil_iff.2 fun r hr => ?_
  have hle := Nat.le_trans (hlog.le_lastLsn.2 r hr) h
  simpa using hle

/-- A compaction leaves the effect of the records behind an LSN: what
supersedes one of them is behind it too. -/
theorem overlayLog_after_newestRecords {last : Lsn} (hlog : Wal.LogAfter last rs)
    (f : String × RawKey → Option RawRecord) :
    overlayLog f (after lsn (Wal.newestRecords rs)) = overlayLog f (after lsn rs) := by
  induction rs generalizing f last with
  | nil => rfl
  | cons r rs ih =>
    obtain ⟨-, -, htail⟩ := Wal.LogAfter.cons_iff.1 hlog
    have hcons : ∀ l, after lsn (r :: l)
        = if lsn < r.lsn then r :: after lsn l else after lsn l := by
      intro l
      unfold after
      split
      case isTrue h => simp [h]
      case isFalse h => simp [h]
    unfold Wal.newestRecords
    split
    case isTrue hlater =>
      rw [ih htail, hcons]
      split
      case isFalse => rfl
      case isTrue hr =>
        obtain ⟨x, hx, ha⟩ : ∃ x ∈ rs, address x = address r := by
          simpa [address] using hlater
        have hinc := (pairwise_cons.1 htail.increasing).1 x.lsn (mem_map_of_mem hx)
        have hmem : x ∈ after lsn rs := mem_filter.2 ⟨hx, by simpa using Nat.lt_trans hr hinc⟩
        exact (overlay_update_of_mem ⟨x, hmem, ha⟩ f (some (stored r))).symm
    case isFalse =>
      rw [hcons, hcons]
      split
      case isTrue => exact ih htail _
      case isFalse => exact ih htail f

end

section

variable (crc32c : List UInt8 → UInt32) (hash : RawKey → UInt64)

/-- A recovery loads a snapshot and replays what is behind it. -/
theorem recover_eq (dir : CheckpointDir) (config : MfsStoreConfig)
    (file : Option (List UInt8)) (synced : Nat) :
    recoverRawCheckpointThenWal crc32c hash dir config file synced = (do
      let start := recoveryStart (latestCheckpoint crc32c dir)
      let engine ← fromRawSnapshot hash config start.1 file synced
      let (engine, wal) ← engine.replayAfter hash crc32c file start.2
      return ⟨engine, (latestCheckpoint crc32c dir).map DecodedRawCheckpoint.metadata, wal⟩) := by
  unfold recoverRawCheckpointThenWal loadLatestRawCheckpoint recoveryStart
  cases latestCheckpoint crc32c dir with
  | none => cases validateStoreConfig config <;> rfl
  | some decoded =>
    simp only
    cases fromRawSnapshot hash config decoded.snapshot file synced <;> rfl

/-- Replaying behind an LSN replays the records behind it. -/
theorem foldlM_applyAfter (lsn : Lsn) (rs : List RawWalRecord)
    (s : MfsStore) (stats : RawWalReplayStats) :
    rs.foldlM (applyAfter hash lsn) (s, stats) = (do
      let s ← (after lsn rs).foldlM (applyRawRecord hash) s
      return (s, ⟨stats.records + (after lsn rs).length,
        Wal.lastLsn stats.lastLsn (after lsn rs)⟩)) := by
  induction rs generalizing s stats with
  | nil => rfl
  | cons r rs ih =>
    rw [foldlM_cons, applyAfter]
    by_cases hr : lsn < r.lsn
    · have hafter : after lsn (r :: rs) = r :: after lsn rs := by
        simp [after, hr]
      rw [if_pos hr, hafter, foldlM_cons]
      cases applyRawRecord hash s r with
      | error e => rfl
      | ok s' =>
        have hrest := ih s' ⟨stats.records + 1, r.lsn⟩
        have hcount : stats.records + 1 + (after lsn rs).length
            = stats.records + (r :: after lsn rs).length := by
          rw [length_cons]
          omega
        rw [hcount] at hrest
        exact hrest
    · have hafter : after lsn (r :: rs) = after lsn rs := by
        simp [after, hr]
      rw [if_neg hr, hafter]
      exact ih s stats

variable {crc32c hash}

/-- A recovered store: the snapshot with the records behind it. -/
structure RecoveredTo (config : MfsStoreConfig) (snapshot : RawStoreSnapshot)
    (rs : List RawWalRecord) (file : Option (List UInt8)) (synced : Nat)
    (s : MfsStore) : Prop where
  sound : s.Sound
  config_eq : s.config = config
  file_eq : s.file = file
  synced_eq : s.synced = synced
  writer_eq : s.writer = none
  contents_eq : ∀ f, (∀ a x, f a = some x ↔ snapshot.Holds a x) → s.contents = overlayLog f rs
  names : ∀ name, name ∈ s.collections ↔ name ∈ snapshot.collections.map RawCollectionSnapshot.name
      ∨ ∃ r ∈ rs, r.collection = name

/-- A recovery over a readable log succeeds exactly when the records
behind its snapshot find room. -/
theorem recover_cases {s : MfsStore} {rs : List RawWalRecord}
    (h : s.Logs crc32c rs) {config : MfsStoreConfig}
    (hvalid : validateStoreConfig config = .ok ())
    (hstart : recoveryStart (latestCheckpoint crc32c dir)
      = (snapshot, lsn)) (hkeyed : snapshot.Keyed) {names : List String}
    (hlen : names.length ≤ config.maxCollections)
    (hown : ∀ c ∈ snapshot.collections, c.name ∈ names)
    (hlog : ∀ r ∈ rs, r.collection ∈ names) :
    FitsOrFull (LogFits hash (snapshotBase config snapshot) (after lsn rs))
      (recoverRawCheckpointThenWal crc32c hash dir config s.file s.synced) fun recovery =>
        RecoveredTo config snapshot (after lsn rs) s.file s.synced recovery.engine := by
  have hsub : snapshot.collections.map RawCollectionSnapshot.name ⊆ names := by
    intro name hname
    obtain ⟨c, hc, rfl⟩ := mem_map.1 hname
    exact hown c hc
  have hlimit : snapshot.collections.length ≤ config.maxCollections := by
    have hle := (subperm_of_subset hkeyed.names hsub).length_le
    rw [length_map] at hle
    omega
  have hafter : ∀ r ∈ after lsn rs, r ∈ rs := fun r hr => mem_of_mem_filter hr
  rw [recover_eq, hstart]
  simp only
  rcases fromRawSnapshot_cases hash hvalid hkeyed hlimit s.file
      s.synced with ⟨hfits, s₀, hload, hs₀⟩ | ⟨hno, name, hload⟩
  · rw [hload, ok_bind, replayAfter, h.scan, foldlM_applyAfter]
    rcases replay_log hs₀.sound hs₀.tables hfits (after lsn rs)
        (fun r hr => (h.log.readable r (hafter r hr)).shape)
        (by rw [hs₀.config_eq]; exact hlen)
        (fun name hname => hsub ((hs₀.names name).1 hname))
        (fun r hr => hlog r (hafter r hr)) with
      ⟨hfits', s', heq, hrep, -⟩ | ⟨hno, name, heq⟩
    · rw [heq]
      refine Or.inl ⟨hfits', _, rfl, hrep.sound,
        hrep.config_eq.trans hs₀.config_eq, hrep.file_eq.trans hs₀.file_eq,
        hrep.synced_eq.trans hs₀.synced_eq,
        hrep.writer_eq.trans hs₀.writer_eq, fun f hf => ?_, fun name => ?_⟩
      · have hbase : s₀.contents = f := by
          funext a
          refine Option.ext fun x => ?_
          rw [hs₀.holds, hf]
        rw [hrep.contents_eq, hbase]
      · rw [hrep.names, hs₀.names]
    · rw [heq]
      exact Or.inr ⟨hno, name, rfl⟩
  · rw [hload]
    refine Or.inr ⟨fun hfits => hno fun n => ?_, name, rfl⟩
    have hn := (hfits n).of_append
    rw [← append_nil (snapshotBase config snapshot n).2]
      at hn
    exact hn

end

end MemoryFirst.Store.Checkpoint
