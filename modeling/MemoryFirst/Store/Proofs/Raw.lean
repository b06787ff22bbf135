/-
The raw store's collections: what one write, one replayed record and a
whole replayed log do to them.

# One write, replayed

A live write and the replay of its record change a collection in the
same way (`afterInsert`): the table gets the record and the live count
moves with the liveness of what was there. A collection is `Sound` when
its table was only ever inserted into and its count is the number of
keys with a value; both ways of storing a record keep it so.

# A replayed log

What a store holds is a partial function of collection name and key
(`contents`). Replaying a log lays its records over it, provided every
record finds a slot; whether it does depends only on the keys of the log
in their order (`LogFits`), which `replay_log` makes exact.
-/
import MemoryFirst.Core.Proofs.InsertOnly
import MemoryFirst.Lib.Overlay
import MemoryFirst.Store.Raw
import MemoryFirst.Store.Proofs.Wal

namespace MemoryFirst.Store

open MfsStore Function List

open Core (ConcurrentMap InsertOutcome)
open Core.ConcurrentMap (InsertOnly SameKeys Placeable keyTable)
open Lib

-- ===== a collection

namespace RawCollection

/-- The keys with a value. -/
def liveKeys (c : RawCollection) : Set RawKey :=
  {k | ((c.records.get k).bind RawRecord.value).isSome}

/-- The collection once a record is stored under a key. -/
def afterInsert (c : RawCollection) (key : RawKey) (r : RawRecord) : RawCollection :=
  ⟨(c.records.insert key r).1, countAfter c.recordCount
    r.value.isSome ((c.records.get key).bind RawRecord.value).isSome⟩

/-- Only inserted into, and counted right. -/
structure Sound (c : RawCollection) : Prop where
  table : InsertOnly c.records
  counted : c.recordCount = c.liveKeys.ncard

variable {c : RawCollection}

theorem finite_liveKeys (h : InsertOnly c.records) : c.liveKeys.Finite := by
  refine (Core.ConcurrentMap.finite_keys h.coherent h.single).subset ?_
  intro k hk
  obtain ⟨v, hv⟩ := Option.isSome_iff_exists.1 hk
  obtain ⟨r, hr, -⟩ := Option.bind_eq_some_iff.1 hv
  exact Option.isSome_iff_exists.2 ⟨r, hr⟩

theorem sound_new (hash : RawKey → UInt64) (capacity : Nat) :
    (newCollection hash capacity).Sound where
  table := Core.ConcurrentMap.insertOnly_new hash capacity
  counted := by
    have h : (newCollection hash capacity).liveKeys = ∅ := by
      ext k
      simp [liveKeys, newCollection, InsertOnly.get_new]
    rw [h, Set.ncard_empty]
    rfl

section

variable (h : InsertOnly c.records) {key : RawKey} (hroom : c.records.canInsertOrReplace key = true)
  (r : RawRecord)

include h hroom

theorem get_afterInsert : (c.afterInsert key r).records.get
    = update c.records.get key (some r) :=
  h.get_insert key r ((Core.ConcurrentMap.canInsertOrReplace_iff _ key r).1 hroom)

/-- The live keys with one key's liveness set. -/
theorem liveKeys_afterInsert : (c.afterInsert key r).liveKeys
    = if r.value.isSome then insert key c.liveKeys
      else c.liveKeys \ {key} := by
  ext k
  simp only [liveKeys, get_afterInsert h hroom r, Set.mem_ofPred_eq]
  by_cases hk : k = key
  · subst hk
    split
    case isTrue hv => simp [hv]
    case isFalse hv => simp [hv]
  rw [update_of_ne hk]
  split
  case isTrue => simp [hk]
  case isFalse => simp [hk]

/-- The count moves with the live keys, by how much it was off before. -/
theorem counted_afterInsert {surplus : Nat} (hcount : c.recordCount = c.liveKeys.ncard + surplus) :
    (c.afterInsert key r).recordCount = (c.afterInsert key r).liveKeys.ncard + surplus := by
  have hfin := finite_liveKeys h
  rw [liveKeys_afterInsert h hroom r]
  show countAfter c.recordCount r.value.isSome _ = _
  rw [hcount]
  by_cases hlive : key ∈ c.liveKeys
  · have hwas : ((c.records.get key).bind RawRecord.value).isSome = true := hlive
    rw [hwas]
    cases r.value with
    | none =>
      have hpos := (Set.ncard_pos hfin).2 ⟨key, hlive⟩
      simp only [Option.isSome_none, Bool.false_eq_true, if_false]
      rw [Set.ncard_sdiff_singleton_of_mem hlive]
      show c.liveKeys.ncard + surplus - 1 = _
      omega
    | some v =>
      rw [Set.insert_eq_of_mem hlive]
      rfl
  · have hwas : ((c.records.get key).bind RawRecord.value).isSome = false :=
      Bool.eq_false_iff.2 hlive
    rw [hwas]
    cases r.value with
    | none =>
      rw [Set.sdiff_singleton_eq_self hlive]
      rfl
    | some v =>
      simp only [Option.isSome_some, if_true]
      rw [Set.ncard_insert_of_notMem hlive hfin]
      show c.liveKeys.ncard + surplus + 1 = _
      omega

omit h in
theorem Sound.afterInsert (h : c.Sound) : (c.afterInsert key r).Sound where
  table := h.table.insert key r
  counted := by
    have hcount : c.recordCount = c.liveKeys.ncard + 0 := h.counted
    exact counted_afterInsert h.table hroom r hcount

end

/-- The replay of a record stores it the same way, if it finds a slot. -/
theorem insertReplayRecord_eq (h : InsertOnly c.records) (collection : String) (key : RawKey)
    (value : Option RawValue) (version : DocumentVersion) :
    insertReplayRecord c collection key value version
      = if c.records.canInsertOrReplace key = true then
          .ok (c.afterInsert key ⟨value, version⟩)
        else .error (.collectionCapacityFull collection) := by
  have hiff := Core.ConcurrentMap.canInsertOrReplace_iff c.records key
    (⟨value, version⟩ : RawRecord)
  unfold insertReplayRecord
  rw [h.insertReturningOld_eq]
  cases ho : (c.records.insert key ⟨value, version⟩).2 with
  | full => rw [if_neg (fun hc => hiff.1 hc ho)]
  | inserted | replaced =>
    rw [if_pos (hiff.2 (by rw [ho]; decide))]
    rfl

end RawCollection

-- ===== the store

namespace MfsStore

/-- What the store holds under a collection's name and a key. -/
def contents (s : MfsStore) (a : String × RawKey) : Option RawRecord :=
  (s.collections.lookup a.1).bind fun c => c.records.get a.2

/-- Every collection is sound and there are no more than allowed. -/
structure Sound (s : MfsStore) : Prop where
  collections : ∀ name c, s.collections.lookup name = some c → c.Sound
  limit : s.collections.keys.length ≤ s.config.maxCollections

/-- The live records of a collection, none where there is none. -/
def liveCount (s : MfsStore) (name : String) : Nat :=
  ((s.collections.lookup name).map RawCollection.recordCount).getD 0

/-- In a sound store the contents determine the counts. -/
theorem Sound.liveCount_eq {s : MfsStore} (hs : s.Sound) (name : String) :
    s.liveCount name = {k | ((s.contents (name, k)).bind
      RawRecord.value).isSome}.ncard := by
  unfold liveCount contents
  simp only
  cases hl : s.collections.lookup name with
  | none => simp
  | some c => exact (hs.collections name c hl).counted

variable {config : MfsStoreConfig}

/-- A valid configuration of a logged mode has a WAL path. -/
theorem hasWalPath_of_valid (h : validateStoreConfig config = .ok ())
    (hlogged : config.durability.logged = true) :
    config.hasWalPath = true := by
  unfold validateStoreConfig at h
  split at h
  · cases h
  split at h
  · cases h
  · split at h
    case isTrue => cases h
    case isFalse hno => simpa [hlogged] using hno

/-- An empty store over a WAL file. -/
def fresh (config : MfsStoreConfig) (file : Option (List UInt8)) (synced : Nat) : MfsStore :=
  ⟨config, ∅, 1, none, false, file, synced⟩

/-- A store is opened empty, over the file it is given. -/
theorem openMemory_eq_ok {file : Option (List UInt8)} {synced : Nat} {s : MfsStore} :
    openMemory config file synced = .ok s ↔ validateStoreConfig config = .ok ()
        ∧ s = fresh config file synced := by
  unfold openMemory
  constructor
  · intro h
    obtain ⟨⟨⟩, hv, h⟩ := bind_eq_ok.1 h
    cases h
    exact ⟨hv, rfl⟩
  · rintro ⟨hv, rfl⟩
    rw [hv]
    rfl

theorem length_keys_insert {α : Type} {β : α → Type} [DecidableEq α]
    (m : AList β) (a : α) (b : β a) :
    (m.insert a b).keys.length = if a ∈ m then m.keys.length else m.keys.length + 1 := by
  rw [AList.keys_insert, length_cons]
  split
  case isTrue h =>
    have hpos : 0 < m.keys.length := length_pos_of_mem h
    rw [length_erase_of_mem h]
    omega
  case isFalse h => rw [erase_of_not_mem h]

theorem length_keys {α : Type} {β : α → Type} (m : AList β) : m.keys.length = m.entries.length :=
  length_map ..

-- ===== one record

section

variable (hash : RawKey → UInt64) (s : MfsStore)

/-- The collection a record goes to; a new one if there is none. -/
def collectionFor (name : String) : RawCollection :=
  (s.collections.lookup name).getD (newCollection hash s.config.rawInitialCapacity)

/-- The store once a record of the log is replayed. -/
def withRecord (r : RawWalRecord) : MfsStore :=
  { s with
    nextCollectionId := if r.collection ∈ s.collections then
        s.nextCollectionId
      else s.nextCollectionId + 1
    collections := s.collections.insert r.collection
      ((collectionFor hash s r.collection).afterInsert r.key
        ⟨r.value, r.version⟩) }

/-- There is room for the collection, or it exists already. -/
def Admits (name : String) : Prop :=
  name ∈ s.collections ∨ s.collections.keys.length < s.config.maxCollections

variable {hash} {s : MfsStore}

theorem Sound.collectionFor (hs : s.Sound) (hash : RawKey → UInt64)
    (name : String) : (s.collectionFor hash name).Sound := by
  unfold MfsStore.collectionFor
  cases hl : s.collections.lookup name with
  | none => exact RawCollection.sound_new hash _
  | some c => exact hs.collections name c hl

theorem collectionFor_get (hash : RawKey → UInt64) (s : MfsStore) (a : String × RawKey) :
    (s.collectionFor hash a.1).records.get a.2 = s.contents a := by
  unfold collectionFor contents
  cases s.collections.lookup a.1 with
  | none => exact congrFun (InsertOnly.get_new hash _) a.2
  | some c => rfl

variable {name : String}

theorem ensureRawCollection_eq (hroom : s.Admits name) :
    ensureRawCollection hash s name = .ok (if name ∈ s.collections then s
      else { s with
        nextCollectionId := s.nextCollectionId + 1
        collections := s.collections.insert name
          (newCollection hash s.config.rawInitialCapacity) }) := by
  unfold ensureRawCollection createRawCollection
  by_cases hmem : name ∈ s.collections
  · rw [if_pos hmem, if_pos hmem]
  · have hlt := hroom.resolve_left hmem
    rw [length_keys] at hlt
    rw [if_neg hmem, if_neg hmem, if_neg (by omega)]

variable {r : RawWalRecord}

theorem applyRawRecord_eq_bind (hshape : r.op = .put ↔ r.value.isSome) :
    applyRawRecord hash s r = (do
      let s ← ensureRawCollection hash s r.collection
      applyRawReplayRecord s r.collection r.key r.value r.version) := by
  obtain ⟨lsn, version, collection, op, key, value⟩ := r
  cases op with
  | put =>
    obtain ⟨v, hv⟩ := Option.isSome_iff_exists.1 (hshape.1 rfl)
    subst hv
    rfl
  | delete =>
    cases value with
    | none => rfl
    | some v => exact nomatch hshape.2 rfl

/-- Replaying a record stores it, or reports a full table. -/
theorem applyRawRecord_eq (hash : RawKey → UInt64)
    (htable : InsertOnly (s.collectionFor hash r.collection).records)
    (hshape : r.op = .put ↔ r.value.isSome)
    (hroom : s.Admits r.collection) :
    applyRawRecord hash s r = if (s.collectionFor hash r.collection).records.canInsertOrReplace
          r.key = true then .ok (s.withRecord hash r)
        else .error (.collectionCapacityFull r.collection) := by
  have hinsert := RawCollection.insertReplayRecord_eq htable r.collection r.key r.value r.version
  rw [applyRawRecord_eq_bind hshape, ensureRawCollection_eq hroom]
  simp only [ok_bind, applyRawReplayRecord, rawCollection]
  by_cases hmem : r.collection ∈ s.collections
  · obtain ⟨c, hc⟩ := Option.isSome_iff_exists.1 (AList.lookup_isSome.2 hmem)
    have hfor : s.collectionFor hash r.collection = c := by
      simp [MfsStore.collectionFor, hc]
    rw [hfor] at hinsert
    simp only [if_pos hmem, hc, ok_bind, hinsert, hfor]
    split
    · simp [withRecord, hmem, hfor, setCollection]
    · rfl
  · have hfor : s.collectionFor hash r.collection
        = newCollection hash s.config.rawInitialCapacity := by
      simp [MfsStore.collectionFor, AList.lookup_eq_none.2 hmem]
    rw [hfor] at hinsert
    simp only [if_neg hmem, AList.lookup_insert, ok_bind, hinsert, hfor]
    split
    · simp [withRecord, hmem, hfor, setCollection, AList.insert_insert]
    · rfl

section

section

variable (s : MfsStore) (r : RawWalRecord) (name : String)

theorem lookup_withRecord :
    (s.withRecord hash r).collections.lookup name = if name = r.collection then
          some ((s.collectionFor hash r.collection).afterInsert r.key ⟨r.value, r.version⟩)
        else s.collections.lookup name := by
  split
  case isTrue h =>
    subst h
    exact AList.lookup_insert _
  case isFalse h => exact AList.lookup_insert_ne h

theorem mem_withRecord :
    name ∈ (s.withRecord hash r).collections ↔ name = r.collection ∨ name ∈ s.collections :=
  AList.mem_insert s.collections

end

/-- A live write leaves what the replay of its record would. -/
theorem setCollection_eq_withRecord {c : RawCollection}
    (hc : s.collections.lookup r.collection = some c) :
    s.setCollection r.collection (c.afterInsert r.key ⟨r.value, r.version⟩)
      = s.withRecord hash r := by
  have hmem : r.collection ∈ s.collections := AList.lookup_isSome.1 (by rw [hc]; rfl)
  simp [withRecord, setCollection, collectionFor, hc, hmem]

variable (hfits : (s.collectionFor hash r.collection).records.canInsertOrReplace r.key = true)

include hfits

theorem Sound.withRecord (hs : s.Sound) (hroom : s.Admits r.collection) :
    (s.withRecord hash r).Sound where
  collections name c hc := by
    rw [lookup_withRecord] at hc
    split at hc
    case isTrue =>
      obtain rfl := Option.some.inj hc
      exact (hs.collectionFor hash r.collection).afterInsert hfits _
    case isFalse => exact hs.collections name c hc
  limit := by
    have hl := hs.limit
    show (AList.insert _ _ s.collections).keys.length ≤ _
    rw [length_keys_insert]
    split
    case isTrue => exact hl
    case isFalse hmem => exact hroom.resolve_left hmem

/-- The record is laid over what was there. -/
theorem contents_withRecord (htable : InsertOnly (s.collectionFor hash r.collection).records) :
    (s.withRecord hash r).contents = update s.contents (r.collection, r.key)
        (some ⟨r.value, r.version⟩) := by
  have hget := RawCollection.get_afterInsert htable hfits ⟨r.value, r.version⟩
  funext a
  obtain ⟨n, k⟩ := a
  rw [contents, lookup_withRecord]
  split
  case isTrue hn =>
    subst hn
    rw [Option.bind_some, hget]
    by_cases hk : k = r.key
    · subst hk
      rw [update_self, update_self]
    · rw [update_of_ne hk, update_of_ne (by simp [hk]),
        collectionFor_get hash s (r.collection, k)]
  case isFalse hn =>
    rw [update_of_ne (by simp [hn])]
    rfl

theorem Sound.contents_withRecord (hs : s.Sound) : (s.withRecord hash r).contents
      = update s.contents (r.collection, r.key) (some ⟨r.value, r.version⟩) :=
  MfsStore.contents_withRecord hfits (hs.collectionFor hash _).table

end

-- ===== a whole log

/-- The collection and key a record is about. -/
def address (r : RawWalRecord) : String × RawKey := (r.collection, r.key)

/-- What a record leaves in the store. -/
def stored (r : RawWalRecord) : RawRecord := ⟨r.value, r.version⟩

/-- The records of a log laid over what was there. -/
abbrev overlayLog (f : String × RawKey → Option RawRecord)
    (rs : List RawWalRecord) : String × RawKey → Option RawRecord :=
  overlay address stored f rs

variable (f : String × RawKey → Option RawRecord) (rs : List RawWalRecord)

theorem overlayLog_snoc (r : RawWalRecord) :
    overlayLog f (rs ++ [r]) = update (overlayLog f rs) (address r) (some (stored r)) :=
  overlay_snoc address stored f rs r

/-- Compacting a log does not change what it leaves, whatever is kept of
each record. -/
theorem overlay_newestRecords {ν : Type} (val : RawWalRecord → ν)
    (f : String × RawKey → Option ν) (rs : List RawWalRecord) :
    overlay address val f (Wal.newestRecords rs) = overlay address val f rs := by
  induction rs generalizing f with
  | nil => rfl
  | cons r rs ih =>
    unfold Wal.newestRecords
    split
    case isTrue h =>
      have hmem : ∃ x ∈ rs, address x = address r := by
        simpa [address] using h
      rw [ih]
      exact (overlay_update_of_mem hmem f (some (val r))).symm
    case isFalse => exact ih _

theorem overlayLog_newestRecords : overlayLog f (Wal.newestRecords rs) = overlayLog f rs :=
  overlay_newestRecords stored f rs

/-- Logs that leave the same records name the same collections. -/
theorem collection_mem_congr {name : String} {rs rs' : List RawWalRecord}
    (h : overlayLog (fun _ => none) rs = overlayLog (fun _ => none) rs') :
    (∃ r ∈ rs, r.collection = name) ↔ ∃ r ∈ rs', r.collection = name := by
  have hsub : ∀ {rs rs'}, overlayLog (fun _ => none) rs = overlayLog (fun _ => none) rs' →
      (∃ r ∈ rs, r.collection = name) → ∃ r ∈ rs', r.collection = name := by
    rintro rs rs' h ⟨r, hr, rfl⟩
    -- a record of the same key is there, if not this one
    have hsome : (overlayLog (fun _ => none) rs (address r)).isSome :=
      (overlay_isSome_iff _).2 (Or.inr ⟨r, hr, rfl⟩)
    rw [h, overlay_isSome_iff] at hsome
    rcases hsome with h | ⟨r', hr', ha⟩
    · cases h
    · exact ⟨r', hr', congrArg Prod.fst ha⟩
  exact ⟨hsub h, hsub h.symm⟩

/-- What a replayed log makes of a store. -/
structure ReplayedTo (s : MfsStore) (rs : List RawWalRecord) (s' : MfsStore) : Prop where
  sound : s'.Sound
  config_eq : s'.config = s.config
  file_eq : s'.file = s.file
  writer_eq : s'.writer = s.writer
  synced_eq : s'.synced = s.synced
  contents_eq : s'.contents = overlayLog s.contents rs
  names : ∀ name, name ∈ s'.collections ↔ name ∈ s.collections ∨ ∃ r ∈ rs, r.collection = name

variable {names : List String}

/-- A set of names that holds the store's own and the log's, and is not
too large, leaves room for each of them. -/
theorem admits_of_names (hlen : names.length ≤ s.config.maxCollections)
    (hown : ∀ name ∈ s.collections, name ∈ names) (hname : name ∈ names) : s.Admits name := by
  by_cases hmem : name ∈ s.collections
  · exact Or.inl hmem
  have hnodup : (name :: s.collections.keys).Nodup :=
    nodup_cons.2 ⟨hmem, s.collections.keys_nodup⟩
  have hsub : name :: s.collections.keys ⊆ names := cons_subset.2 ⟨hname, hown⟩
  have hle := (subperm_of_subset hnodup hsub).length_le
  exact Or.inr (Nat.lt_of_lt_of_le hle hlen)

variable {rs : List RawWalRecord}

section

variable {s' : MfsStore}

theorem ReplayedTo.nil (hs : s.Sound) : s.ReplayedTo [] s :=
  ⟨hs, rfl, rfl, rfl, rfl, rfl, by simp⟩

/-- One record more. -/
theorem ReplayedTo.snoc (h : s.ReplayedTo rs s') (hroom : s'.Admits r.collection)
    (hfits : (s'.collectionFor hash r.collection).records.canInsertOrReplace r.key = true) :
    s.ReplayedTo (rs ++ [r]) (s'.withRecord hash r) where
  sound := h.sound.withRecord hfits hroom
  config_eq := h.config_eq
  file_eq := h.file_eq
  writer_eq := h.writer_eq
  synced_eq := h.synced_eq
  contents_eq := by
    rw [h.sound.contents_withRecord hfits, h.contents_eq]
    exact (overlayLog_snoc _ rs r).symm
  names name := by
    rw [mem_withRecord, h.names, eq_comm (a := name)]
    simp only [mem_append, mem_singleton, or_and_right,
      exists_or, exists_eq_left]
    rw [or_comm, or_assoc]

/-- The names of the store and the log leave room for the next record. -/
theorem ReplayedTo.admits (h : s.ReplayedTo rs s') {names : List String}
    (hlen : names.length ≤ s.config.maxCollections)
    (hown : ∀ name ∈ s.collections, name ∈ names)
    (hlog : ∀ x ∈ rs ++ [r], x.collection ∈ names) :
    s'.Admits r.collection := by
  refine admits_of_names (by rw [h.config_eq]; exact hlen) ?_ (hlog r (by simp))
  intro name hname
  rcases (h.names name).1 hname with hn | ⟨x, hx, rfl⟩
  · exact hown name hn
  · exact hlog x (mem_append_left _ hx)

end

-- ===== which logs find room

/-- The keys a log writes to a collection, in order. -/
def keysOf (name : String) (rs : List RawWalRecord) : List RawKey :=
  (rs.filter fun r => r.collection = name).map RawWalRecord.key

theorem keysOf_append (name : String) (rs : List RawWalRecord)
    (r : RawWalRecord) : keysOf name (rs ++ [r])
      = if r.collection = name then keysOf name rs ++ [r.key]
        else keysOf name rs := by
  unfold keysOf
  split
  case isTrue h => simp [h]
  case isFalse h => simp [h]

/-- What tables a replay starts from: for each collection its capacity
and the keys already inserted, in order. -/
abbrev TableBase := String → Nat × List RawKey

/-- The tables of an empty store. -/
def emptyBase (capacity : Nat) : TableBase := fun _ => (capacity, [])

variable (hash) in
/-- In every collection the keys of the log find slots behind those of
the base, in the order of the log. -/
def LogFits (base : TableBase) (rs : List RawWalRecord) : Prop :=
  ∀ name, Placeable hash (base name).1 ((base name).2 ++ keysOf name rs)

theorem logFits_append (base : TableBase) (rs : List RawWalRecord)
    (r : RawWalRecord) : LogFits hash base (rs ++ [r]) ↔ LogFits hash base rs
        ∧ (keyTable hash (base r.collection).1 ((base r.collection).2
          ++ keysOf r.collection rs)).canInsertOrReplace r.key = true := by
  have hown := Core.ConcurrentMap.placeable_append hash
    (base r.collection).1 ((base r.collection).2 ++ keysOf r.collection rs)
    r.key
  rw [append_assoc] at hown
  constructor
  · intro h
    have hr := h r.collection
    rw [keysOf_append, if_pos rfl, hown] at hr
    refine ⟨fun name => ?_, hr.2⟩
    have hn := h name
    rw [keysOf_append] at hn
    split at hn
    case isTrue he =>
      subst he
      exact hr.1
    case isFalse => exact hn
  · intro ⟨h, hroom⟩ name
    rw [keysOf_append]
    split
    case isTrue he =>
      subst he
      exact hown.2 ⟨h r.collection, hroom⟩
    case isFalse => exact h name

variable {base : TableBase}

/-- Only the collections of the log matter beyond the base. -/
theorem logFits_of_mem (hbase : LogFits hash base [])
    (h : ∀ r ∈ rs, Placeable hash (base r.collection).1
      ((base r.collection).2 ++ keysOf r.collection rs)) :
    LogFits hash base rs := by
  intro name
  by_cases hname : ∃ r ∈ rs, r.collection = name
  · obtain ⟨r, hr, rfl⟩ := hname
    exact h r hr
  have hnil : keysOf name rs = keysOf name [] := by
    have hfilter : rs.filter (fun r => r.collection = name) = [] := by
      refine filter_eq_nil_iff.2 fun r hr he => ?_
      exact hname ⟨r, hr, by simpa using he⟩
    rw [keysOf, hfilter]
    rfl
  rw [hnil]
  exact hbase name

variable (hash) in
/-- The tables hold the keys of the base and the log where a fresh
table, filled with them in order, has them. -/
def TablesOf (base : TableBase) (s : MfsStore) (rs : List RawWalRecord) : Prop :=
  ∀ name, SameKeys (s.collectionFor hash name).records
    (keyTable hash (base name).1 ((base name).2 ++ keysOf name rs))

theorem TablesOf.withRecord (h : s.TablesOf hash base rs) (r : RawWalRecord) :
    (s.withRecord hash r).TablesOf hash base (rs ++ [r]) := by
  intro name
  have hfor : (s.withRecord hash r).collectionFor hash name = if name = r.collection then
          (s.collectionFor hash r.collection).afterInsert r.key ⟨r.value, r.version⟩
        else s.collectionFor hash name := by
    unfold collectionFor
    rw [lookup_withRecord]
    split <;> rfl
  rw [hfor, keysOf_append]
  by_cases hn : name = r.collection
  · subst hn
    rw [if_pos rfl, if_pos rfl, ← append_assoc, Core.ConcurrentMap.keyTable_append]
    exact (h r.collection).insert r.key _ ()
  · rw [if_neg hn, if_neg (Ne.symm hn)]
    exact h name

theorem tablesOf_empty (hash : RawKey → UInt64) (hempty : s.collections = ∅) :
    s.TablesOf hash (emptyBase s.config.rawInitialCapacity) [] := by
  intro name
  unfold collectionFor
  rw [hempty]
  exact Core.ConcurrentMap.sameKeys_new hash _

/-- A result that is there exactly when the keys it needs find room. -/
def FitsOrFull {α : Type} (fits : Prop) (result : StoreResult α) (P : α → Prop) : Prop :=
  (fits ∧ ∃ x, result = .ok x ∧ P x)
    ∨ (¬ fits ∧ ∃ name, result = .error (.collectionCapacityFull name))

/-- A log replays onto a store exactly when its keys fit. -/
theorem replay_log (hs : s.Sound) (hbase : s.TablesOf hash base [])
    (hfits : LogFits hash base []) (rs : List RawWalRecord)
    (hshape : ∀ r ∈ rs, (r.op = .put ↔ r.value.isSome))
    (hlen : names.length ≤ s.config.maxCollections)
    (hown : ∀ name ∈ s.collections, name ∈ names)
    (hlog : ∀ r ∈ rs, r.collection ∈ names) :
    FitsOrFull (LogFits hash base rs) (rs.foldlM (applyRawRecord hash) s) fun s' =>
      s.ReplayedTo rs s' ∧ s'.TablesOf hash base rs := by
  induction rs using reverseRecOn with
  | nil => exact Or.inl ⟨hfits, s, rfl, ReplayedTo.nil hs, hbase⟩
  | append_singleton rs r ih =>
    rw [foldlM_append]
    rcases ih (fun x hx => hshape x (mem_append_left _ hx))
        (fun x hx => hlog x (mem_append_left _ hx)) with
      ⟨hfits, s', heq, hrep, htables⟩ | ⟨hfits, name, heq⟩
    · have hroom := hrep.admits hlen hown hlog
      have hslot := (htables r.collection).canInsertOrReplace_eq r.key
      have happly := applyRawRecord_eq hash (hrep.sound.collectionFor hash _).table
        (hshape r (by simp)) hroom
      rw [logFits_append, ← hslot, heq]
      simp only [ok_bind, foldlM_cons, foldlM_nil, happly]
      split
      case isTrue hcan =>
        exact Or.inl ⟨⟨hfits, hcan⟩, _, rfl, hrep.snoc hroom hcan, htables.withRecord r⟩
      case isFalse hcan => exact Or.inr ⟨fun h => hcan h.2, r.collection, rfl⟩
    · rw [logFits_append, heq]
      exact Or.inr ⟨fun h => hfits h.1, name, rfl⟩

theorem sound_fresh (config : MfsStoreConfig) (file : Option (List UInt8))
    (synced : Nat) : (fresh config file synced).Sound := by
  refine ⟨fun name c hc => ?_, Nat.zero_le _⟩
  cases hc

end

end MfsStore

end MemoryFirst.Store
