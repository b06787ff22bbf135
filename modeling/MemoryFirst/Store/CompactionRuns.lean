/-
Compaction seen from the recovery: whatever store the replay starts on
and whatever LSN it starts behind, the compacted segment replays to what
the original does, and reopening either goes on at the same place.

# Counts

A snapshot is taken as it is decoded, and nothing in the format keeps a
key from standing in it twice: the loaded collection then counts more
live records than it has. A replay moves the count by what it changes,
so it stays off by the same SURPLUS (`CountedUpTo`), which is why the
counts agree from every starting store and not only from sound ones.

# Room

Compaction can change the order in which keys reach a table for the
first time, and with it who is left without a slot. Both replays are
taken to find room (`outOfRoom`).
-/
import MemoryFirst.Store.Proofs.WalScan
import MemoryFirst.Store.Proofs.Checkpoint

namespace MemoryFirst.Store

open Wal MfsStore RawCollection

open Core.ConcurrentMap (InsertOnly)
open Lib

/-- The errors of an exhausted table or collection limit. -/
def StoreError.exhausted : StoreError → Bool
  | .collectionCapacityFull _ => true
  | .collectionLimitExceeded _ => true
  | _ => false

def outOfRoom {α : Type} : StoreResult α → Bool
  | .error e => e.exhausted
  | .ok _ => false

namespace MfsStore

-- ===== counts

/-- Only inserted into, the counts off by the given surplus. -/
structure CountedUpTo (surplus : String → Nat) (s : MfsStore) : Prop where
  table : ∀ name c, s.collections.lookup name = some c → InsertOnly c.records
  counted : ∀ name, s.liveCount name
    = {k | ((s.contents (name, k)).bind RawRecord.value).isSome}.ncard + surplus name

variable {surplus : String → Nat}

section

variable {s : MfsStore} (h : s.CountedUpTo surplus) (hash : RawKey → UInt64)

include h

theorem CountedUpTo.insertOnly (name : String) :
    InsertOnly (s.collectionFor hash name).records := by
  unfold collectionFor
  cases hl : s.collections.lookup name with
  | none => exact (sound_new hash _).table
  | some c => exact h.table name c hl

/-- Also the collection a replay would create is off by its surplus:
there is none. -/
theorem CountedUpTo.recordCount (name : String) : (s.collectionFor hash name).recordCount
      = (s.collectionFor hash name).liveKeys.ncard + surplus name := by
  have hlive : (s.collectionFor hash name).liveKeys
      = {k | ((s.contents (name, k)).bind RawRecord.value).isSome} := by
    ext k
    show ((_ : Option RawRecord).bind _).isSome = true ↔ _
    rw [collectionFor_get hash s (name, k)]
    rfl
  rw [hlive, ← h.counted]
  unfold collectionFor liveCount
  cases s.collections.lookup name with
  | none => rfl
  | some c => rfl

variable {hash} {r : RawWalRecord}
  (hfits : (s.collectionFor hash r.collection).records.canInsertOrReplace r.key = true)

include hfits

theorem CountedUpTo.withRecord : (s.withRecord hash r).CountedUpTo surplus where
  table name c hc := by
    rw [lookup_withRecord] at hc
    split at hc
    case isTrue =>
      obtain rfl := Option.some.inj hc
      exact (h.insertOnly hash r.collection).insert r.key _
    case isFalse => exact h.table name c hc
  counted name := by
    have hafter := counted_afterInsert (h.insertOnly hash r.collection) hfits ⟨r.value, r.version⟩
      (h.recordCount hash r.collection)
    unfold liveCount contents
    simp only
    rw [lookup_withRecord]
    by_cases hname : name = r.collection
    · subst hname
      rw [if_pos rfl]
      exact hafter
    · rw [if_neg hname]
      exact h.counted name

end

-- ===== a replay

variable {hash : RawKey → UInt64}

section

variable {s : MfsStore}

theorem ensureRawCollection_of_not_admits {name : String}
    (h : ¬ s.Admits name) : ensureRawCollection hash s name
      = .error (.collectionLimitExceeded s.config.maxCollections) := by
  unfold Admits at h
  rw [not_or, Nat.not_lt, length_keys] at h
  unfold ensureRawCollection createRawCollection
  rw [if_neg h.1, if_pos h.2]
  simp only [rawCollection, AList.lookup_eq_none.2 h.1]

/-- Replaying one record stores it or runs out of room. -/
theorem CountedUpTo.applyRawRecord (h : s.CountedUpTo surplus)
    (hash : RawKey → UInt64) {r : RawWalRecord} (hshape : r.op = .put ↔ r.value.isSome) :
    (∃ e, applyRawRecord hash s r = .error e ∧ e.exhausted = true)
      ∨ (applyRawRecord hash s r = .ok (s.withRecord hash r)
        ∧ (s.collectionFor hash r.collection).records.canInsertOrReplace r.key = true) := by
  by_cases hroom : s.Admits r.collection
  · rw [applyRawRecord_eq hash (h.insertOnly hash _) hshape hroom]
    split
    case isTrue hfits => exact Or.inr ⟨rfl, hfits⟩
    case isFalse => exact Or.inl ⟨_, rfl, rfl⟩
  · rw [applyRawRecord_eq_bind hshape, ensureRawCollection_of_not_admits hroom]
    exact Or.inl ⟨_, rfl, rfl⟩

/-- Replaying a list of records lays them over what was there, if it
does not run out of room. -/
theorem CountedUpTo.replay (h : s.CountedUpTo surplus) {rs : List RawWalRecord}
    (hshape : ∀ r ∈ rs, (r.op = .put ↔ r.value.isSome)) :
    (∃ e, rs.foldlM (MfsStore.applyRawRecord hash) s = .error e ∧ e.exhausted = true)
      ∨ ∃ s', rs.foldlM (MfsStore.applyRawRecord hash) s = .ok s' ∧ s'.CountedUpTo surplus
        ∧ s'.contents = overlayLog s.contents rs
        ∧ ∀ name, name ∈ s'.collections ↔ name ∈ s.collections ∨ ∃ r ∈ rs, r.collection = name := by
  induction rs generalizing s with
  | nil => exact Or.inr ⟨s, rfl, h, rfl, by simp⟩
  | cons r rs ih =>
    rw [List.foldlM_cons]
    rcases h.applyRawRecord hash (hshape r List.mem_cons_self) with
      ⟨e, heq, hout⟩ | ⟨heq, hfits⟩
    · rw [heq]
      exact Or.inl ⟨e, rfl, hout⟩
    rw [heq, ok_bind]
    rcases ih (h.withRecord hfits) (fun x hx => hshape x (List.mem_cons_of_mem r hx)) with
      herr | ⟨s', hs', hcounted, hcontents, hnames⟩
    · exact Or.inl herr
    refine Or.inr ⟨s', hs', hcounted, ?_, fun name => ?_⟩
    · rw [hcontents, contents_withRecord hfits (h.insertOnly hash r.collection)]
      rfl
    · rw [hnames, mem_withRecord, List.exists_mem_cons_iff]
      constructor
      · rintro ((rfl | hn) | hn)
        · exact Or.inr (Or.inl rfl)
        · exact Or.inl hn
        · exact Or.inr (Or.inr hn)
      · rintro (hn | rfl | hn)
        · exact Or.inl (Or.inr hn)
        · exact Or.inl (Or.inl rfl)
        · exact Or.inr hn

end

-- ===== where a replay starts

section

/-- Loading a snapshot's records only inserts, and counts every live
one. -/
theorem loadRecords_eq_ok {collection : String} {rs : List RawSnapshotRecord} {c c' : RawCollection}
    (htable : InsertOnly c.records) (hle : c.liveKeys.ncard ≤ c.recordCount)
    (h : loadRecords collection rs c = .ok c') :
    InsertOnly c'.records ∧ c'.liveKeys.ncard ≤ c'.recordCount := by
  induction rs generalizing c with
  | nil =>
    cases h
    exact ⟨htable, hle⟩
  | cons r rs ih =>
    have hiff := Core.ConcurrentMap.canInsertOrReplace_iff c.records
      r.key (⟨r.value, r.version⟩ : RawRecord)
    have hnext : (c.records.insert r.key ⟨r.value, r.version⟩).2 ≠ .full ∧ loadRecords collection rs
          ⟨(c.records.insert r.key ⟨r.value, r.version⟩).1,
            c.recordCount + if r.value.isSome then 1 else 0⟩
          = .ok c' := by
      rw [loadRecords] at h
      generalize c.records.insert r.key ⟨r.value, r.version⟩ = out at h ⊢
      obtain ⟨records, outcome⟩ := out
      cases outcome with
      | full => cases h
      | inserted | replaced => exact ⟨by simp, h⟩
    have hcount := counted_afterInsert htable (hiff.2 hnext.1) ⟨r.value, r.version⟩
      (Nat.add_sub_of_le hle).symm
    refine ih (htable.insert r.key _) ?_ hnext.2
    -- the count of a replay is no larger than the loader's
    have hbound : (c.afterInsert r.key ⟨r.value, r.version⟩).recordCount
        ≤ c.recordCount + if r.value.isSome then 1 else 0 := by
      show countAfter c.recordCount r.value.isSome _ ≤ _
      generalize ((c.records.get r.key).bind RawRecord.value).isSome = l
      cases r.value <;> cases l <;> simp [countAfter]
    refine Nat.le_trans ?_ hbound
    show (c.afterInsert r.key ⟨r.value, r.version⟩).liveKeys.ncard ≤ _
    omega

theorem loadCollections_eq_ok {config : MfsStoreConfig} {cs : List RawCollectionSnapshot}
    {m m' : AList fun _ : String => RawCollection}
    (hm : ∀ name c, m.lookup name = some c →
      InsertOnly c.records ∧ c.liveKeys.ncard ≤ c.recordCount)
    (h : loadCollections hash config cs m = .ok m') :
    ∀ name c, m'.lookup name = some c →
      InsertOnly c.records ∧ c.liveKeys.ncard ≤ c.recordCount := by
  induction cs generalizing m with
  | nil =>
    cases h
    exact hm
  | cons x cs ih =>
    obtain ⟨-, h⟩ := of_ite_eq h nofun
    obtain ⟨loaded, hload, h⟩ := bind_eq_ok.1 h
    have hnew := sound_new hash (snapshotCapacity config x)
    refine ih (fun name c hc => ?_) h
    by_cases hname : name = x.name
    · subst hname
      rw [AList.lookup_insert] at hc
      cases hc
      exact loadRecords_eq_ok hnew.table (Nat.le_of_eq hnew.counted.symm) hload
    · rw [AList.lookup_insert_ne hname] at hc
      exact hm name c hc

variable (hash) in
/-- The stores a recovery replays onto: an empty one, or one loaded from
the snapshot of a checkpoint. -/
inductive Started : MfsStore → Prop
  | empty {config : MfsStoreConfig} {file : Option (List UInt8)} {synced : Nat} {s : MfsStore} :
      openMemory config file synced = .ok s → Started s
  | loaded {config : MfsStoreConfig} {snapshot : RawStoreSnapshot}
      {file : Option (List UInt8)} {synced : Nat} {s : MfsStore} :
      fromRawSnapshot hash config snapshot file synced = .ok s → Started s

theorem Started.countedUpTo {s : MfsStore} (h : Started hash s) :
    ∃ surplus, s.CountedUpTo surplus := by
  have hall : ∀ name c, s.collections.lookup name = some c →
      InsertOnly c.records ∧ c.liveKeys.ncard ≤ c.recordCount := by
    cases h with
    | empty h =>
      obtain ⟨-, rfl⟩ := openMemory_eq_ok.1 h
      intro name c hc
      cases hc
    | loaded h =>
      obtain ⟨⟨⟩, -, h⟩ := bind_eq_ok.1 h
      obtain ⟨-, h⟩ := of_ite_eq h nofun
      obtain ⟨m, hm, h⟩ := bind_eq_ok.1 h
      cases h
      refine loadCollections_eq_ok ?_ hm
      intro name c hc
      cases hc
  refine ⟨fun name => s.liveCount name - {k | ((s.contents (name, k)).bind
    RawRecord.value).isSome}.ncard, fun name c hc => (hall name c hc).1,
    fun name => ?_⟩
  refine (Nat.add_sub_of_le ?_).symm
  unfold liveCount contents
  simp only
  cases hl : s.collections.lookup name with
  | none => simp
  | some c => exact (hall name c hl).2

end

end MfsStore

-- ===== the two segments

section

variable (crc32c : List UInt8 → UInt32) (hash : RawKey → UInt64) {rs : List RawWalRecord}
  {file : Option (List UInt8)}

section

variable (h : Wal.readRecords crc32c file = .ok rs)

include h

/-- What a reopened segment goes on with. -/
theorem Wal.openWriter_of_readRecords :
    (openWriter crc32c file).2 = .ok ⟨nextLsnAfter rs, versionsOf rs⟩ := by
  cases file with
  | none =>
    cases h
    rfl
  | some bytes =>
    obtain ⟨hlog, tail, rfl, htail⟩ := readRecords_eq_ok crc32c h
    rw [openWriter_log crc32c htail hlog]

/-- A replay of a readable segment is one of its records. -/
theorem MfsStore.replayAfter_of_readRecords (s : MfsStore) (lsn : Lsn) :
    s.replayAfter hash crc32c file lsn = (do
      let s ← (Checkpoint.after lsn rs).foldlM (applyRawRecord hash) s
      return (s, ⟨(Checkpoint.after lsn rs).length, lastLsn 0 (Checkpoint.after lsn rs)⟩)) := by
  cases file with
  | none =>
    cases h
    rfl
  | some bytes =>
    obtain ⟨hlog, tail, rfl, htail⟩ := readRecords_eq_ok crc32c h
    unfold replayAfter
    rw [scan_log crc32c htail hlog, Checkpoint.foldlM_applyAfter]
    cases (Checkpoint.after lsn rs).foldlM (applyRawRecord hash) s with
    | error e => rfl
    | ok s' => simp

/-- A readable segment can be compacted, to the log of its newest
records. -/
theorem Wal.compactRawWal_of_readRecords :
    ∃ file' stats, compactRawWal crc32c file = (file', .ok stats)
      ∧ readRecords crc32c file' = .ok (newestRecords rs)
      ∧ Log rs := by
  cases file with
  | none =>
    cases h
    exact ⟨none, ⟨0, 0, 0⟩, rfl, rfl, LogAfter.nil 0⟩
  | some bytes =>
    obtain ⟨hlog, -⟩ := readRecords_eq_ok crc32c h
    have hnewest := hlog.sublist (newestRecords_sublist rs)
    have hread := readRecords_log crc32c (nextFrame_nil crc32c) hnewest
    rw [List.append_nil] at hread
    refine ⟨_, ⟨rs.length, (newestRecords rs).length,
      ((newestRecords rs).getLast?.map RawWalRecord.lsn).getD 0⟩,
      ?_, hread, hlog⟩
    unfold compactRawWal
    simp only [h, rewriteRecords_log crc32c hnewest.readable]

end

theorem Wal.versionsOf_newestRecords (rs : List RawWalRecord) :
    versionsOf (newestRecords rs) = versionsOf rs :=
  overlay_newestRecords RawWalRecord.version (fun _ => none) rs

/-- The counts of two stores of equal contents and surplus. -/
theorem MfsStore.collectionCount_congr {surplus : String → Nat}
    {s s' : MfsStore} (h : s.CountedUpTo surplus)
    (h' : s'.CountedUpTo surplus) (hcontents : s.contents = s'.contents)
    (hnames : ∀ name, name ∈ s.collections ↔ name ∈ s'.collections)
    (name : String) : s.collectionCount name = s'.collectionCount name := by
  have hcount : s.liveCount name = s'.liveCount name := by
    rw [h.counted, h'.counted, hcontents]
  have hmem := hnames name
  rw [← AList.lookup_isSome, ← AList.lookup_isSome] at hmem
  unfold liveCount at hcount
  unfold collectionCount rawCollection
  cases hl : s.collections.lookup name with
  | none =>
    cases hl' : s'.collections.lookup name with
    | none => rfl
    | some c' => simp [hl, hl'] at hmem
  | some c =>
    cases hl' : s'.collections.lookup name with
    | none => simp [hl, hl'] at hmem
    | some c' =>
      rw [hl, hl'] at hcount
      exact congrArg Except.ok hcount

/-- Compaction is invisible to recovery. Every readable segment can be
compacted; replaying it behind any LSN onto any starting store leaves the
same records, tombstones and versions under every key and the same live
counts as replaying the original, as long as both find room; its LSNs
increase; and the writers reopened over the two go on with the same LSN
and, for every key, the same version. -/
theorem compaction_invisible {file : Option (List UInt8)} {rs : List RawWalRecord}
    (hread : Wal.readRecords crc32c file = .ok rs) {s : MfsStore}
    (hs : MfsStore.Started hash s) (afterLsn : Lsn) :
    ∃ file' stats, Wal.compactRawWal crc32c file = (file', .ok stats)
      ∧ (outOfRoom (s.replayAfter hash crc32c file afterLsn) = false →
        outOfRoom (s.replayAfter hash crc32c file' afterLsn) = false →
        ∃ t t' stats stats', s.replayAfter hash crc32c file afterLsn = .ok (t, stats)
            ∧ s.replayAfter hash crc32c file' afterLsn = .ok (t', stats')
            ∧ t'.contents = t.contents
            ∧ ∀ name, t'.collectionCount name = t.collectionCount name)
      ∧ (∃ rs', Wal.readRecords crc32c file' = .ok rs'
        ∧ (rs'.map RawWalRecord.lsn).Pairwise (· < ·))
      ∧ ∃ w w', (Wal.openWriter crc32c file).2 = .ok w ∧ (Wal.openWriter crc32c file').2 = .ok w'
        ∧ w'.nextLsn = w.nextLsn
        ∧ ∀ collection key, nextRecordVersion w' collection key
          = nextRecordVersion w collection key := by
  obtain ⟨file', stats, hcompact, hread', hlog⟩ :=
    compactRawWal_of_readRecords crc32c hread
  have hnewest := hlog.sublist (newestRecords_sublist rs)
  obtain ⟨surplus, hcounted⟩ := hs.countedUpTo
  have hshape : ∀ l, Log l → ∀ r ∈ Checkpoint.after afterLsn l,
      (r.op = .put ↔ r.value.isSome) :=
    fun l hl r hr => (hl.readable r (List.mem_of_mem_filter hr)).shape
  refine ⟨file', stats, hcompact, fun hroom hroom' => ?_,
    ⟨_, hread', (List.pairwise_cons.1 hnewest.increasing).2⟩,
    _, _, openWriter_of_readRecords crc32c hread,
    openWriter_of_readRecords crc32c hread', ?_, fun c k => ?_⟩
  · rw [replayAfter_of_readRecords crc32c hash hread] at hroom ⊢
    rw [replayAfter_of_readRecords crc32c hash hread'] at hroom' ⊢
    rcases hcounted.replay (hshape rs hlog) with
      ⟨e, he, hout⟩ | ⟨t, ht, hcount, hcontents, hnames⟩
    · rw [he] at hroom
      have hno : e.exhausted = false := hroom
      exact absurd (hout.symm.trans hno) (by decide)
    rcases hcounted.replay (hshape _ hnewest) with
      ⟨e, he, hout⟩ | ⟨t', ht', hcount', hcontents', hnames'⟩
    · rw [he] at hroom'
      have hno : e.exhausted = false := hroom'
      exact absurd (hout.symm.trans hno) (by decide)
    have hsame : t'.contents = t.contents := by
      rw [hcontents, hcontents', Checkpoint.overlayLog_after_newestRecords hlog]
    refine ⟨t, t', _, _, by rw [ht]; rfl, by rw [ht']; rfl, hsame, ?_⟩
    refine collectionCount_congr hcount' hcount hsame fun name => ?_
    rw [hnames, hnames', collection_mem_congr (Checkpoint.overlayLog_after_newestRecords hlog _)]
  · unfold nextLsnAfter
    rw [lastLsn_newestRecords]
  · unfold nextRecordVersion
    rw [versionsOf_newestRecords]

/-- Two keys of a collection, the first one put and then deleted. -/
def rewrites : List RawWalRecord :=
  [⟨1, 1, "meters", .put, [1], some [10]⟩, ⟨2, 1, "meters", .put, [2], some [20]⟩,
    ⟨3, 2, "meters", .delete, [1], none⟩]

/-- A checkpoint that has both keys. -/
def rewritesBase : RawStoreSnapshot :=
  ⟨[⟨"meters", [⟨[1], some [10], 1⟩, ⟨[2], none, 4⟩]⟩]⟩

def rewritesConfig : MfsStoreConfig := ⟨4, 8, .walSync, true⟩

/-- The segment of `rewrites` loses its first record, and replays behind
LSN 1 onto the checkpoint all the same. -/
theorem compaction_invisible_rewrites : ∃ s file' t t' stats stats',
      fromRawSnapshot (fun _ => 0) rewritesConfig rewritesBase none 0 = .ok s
        ∧ (Wal.compactRawWal (fun _ => 7) (some (Wal.encodeFile (fun _ => 7) rewrites))).1 = file'
        ∧ Wal.readRecords (fun _ => 7) file' = .ok (rewrites.drop 1)
        ∧ s.replayAfter (fun _ => 0) (fun _ => 7)
          (some (Wal.encodeFile (fun _ => 7) rewrites)) 1 = .ok (t, stats)
        ∧ s.replayAfter (fun _ => 0) (fun _ => 7) file' 1 = .ok (t', stats')
        ∧ t'.contents = t.contents
        ∧ ∀ name, t'.collectionCount name = t.collectionCount name := by
  have hload : ∃ s, fromRawSnapshot (fun _ => 0) rewritesConfig
      rewritesBase none 0 = .ok s := ⟨_, rfl⟩
  obtain ⟨s, hs⟩ := hload
  have hread : readRecords (fun _ => 7)
      (some (encodeFile (fun _ => 7) rewrites)) = .ok rewrites := by
    decide +kernel
  have hroom : (fromRawSnapshot (fun _ => 0) rewritesConfig
      rewritesBase none 0).map (fun s => (outOfRoom (s.replayAfter (fun _ => 0) (fun _ => 7)
        (some (encodeFile (fun _ => 7) rewrites)) 1),
      outOfRoom (s.replayAfter (fun _ => 0) (fun _ => 7) (compactRawWal (fun _ => 7)
          (some (encodeFile (fun _ => 7) rewrites))).1 1)))
      = .ok (false, false) := by
    decide +kernel
  have hkept : readRecords (fun _ => 7) (compactRawWal (fun _ => 7)
      (some (encodeFile (fun _ => 7) rewrites))).1
      = .ok (rewrites.drop 1) := by
    decide +kernel
  obtain ⟨file', stats, hcompact, hsame, -⟩ := compaction_invisible
    (fun _ => 7) (fun _ => 0) hread (Started.loaded hs) 1
  rw [hs, hcompact] at hroom
  rw [hcompact] at hkept ⊢
  simp only [Except.map, Except.ok.injEq, Prod.mk.injEq] at hroom
  obtain ⟨t, t', st, st', ht, ht', hcontents, hcounts⟩ := hsame hroom.1 hroom.2
  exact ⟨s, file', t, t', st, st', hs, rfl, hkept, ht, ht', hcontents, hcounts⟩

end

end MemoryFirst.Store
