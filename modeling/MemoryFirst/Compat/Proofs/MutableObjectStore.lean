/-
What the operations of the mutable object store do to its values, its
metadata and its queues, and the relation between the three that a flush
keeps.

# Observables

Everything is stated about `value?`, `currentMeta`, membership in
`pending`, and the clock. Marking changes the metadata of one key and
queues one entry; draining and requeueing move entries; only the cleanup
after a flush takes metadata away, and only tombstones it delivered.

# Queued

`Queued s held accepted`: metadata of a key are announced by an entry
that is queued, or held by a flush, or, if they are no tombstone, by a
record the backend accepted. `Sound s`: no put metadata without a value.
Each part of a flush keeps both.
-/
import MemoryFirst.Compat.MutableObjectStore

namespace MemoryFirst.Compat.MfsMutableObjectStore

open Lib Store Core Function List

variable {s s' : MfsMutableObjectStore} {k key : Key} {e entry : DirtyEntry Key}

-- ===== observables

variable (v : MutableObjectValue)

@[simp] theorem value?_insertValue_self : (s.insertValue k v).value? k = some v :=
  AList.lookup_insert _

theorem value?_insertValue_ne (hk : k ≠ key) : (s.insertValue key v).value? k = s.value? k :=
  AList.lookup_insert_ne hk

@[simp] theorem value?_removeValue_self : (s.removeValue k).value? k = none :=
  AList.lookup_erase _ _

theorem value?_removeValue_ne (hk : k ≠ key) : (s.removeValue key).value? k = s.value? k :=
  AList.lookup_erase_ne hk

variable (m : MutableObjectMeta)

@[simp] theorem currentMeta_setMeta_self : (s.setMeta k m).currentMeta k = some m :=
  AList.lookup_insert _

theorem currentMeta_setMeta_ne (hk : k ≠ key) : (s.setMeta key m).currentMeta k = s.currentMeta k :=
  AList.lookup_insert_ne hk

@[simp] theorem currentMeta_markCleanDelete_self : (s.markCleanDelete k).currentMeta k = none :=
  AList.lookup_erase _ _

theorem currentMeta_markCleanDelete_ne (hk : k ≠ key) :
    (s.markCleanDelete key).currentMeta k = s.currentMeta k :=
  AList.lookup_erase_ne hk

theorem shardIdx_lt (s : MfsMutableObjectStore) (key : Key) : s.shardIdx key < shardCount :=
  Nat.lt_of_le_of_lt Nat.and_le_right (by decide)

theorem mem_pending : e ∈ s.pending ↔ ∃ idx < shardCount, e ∈ s.dirtyShards idx := by
  simp [pending]

/-- The entries of one shard, and those of the others. -/
theorem mem_pending_split {idx : Nat} (hidx : idx < shardCount) :
    e ∈ s.pending ↔ e ∈ s.dirtyShards idx ∨ ∃ i < shardCount, i ≠ idx ∧ e ∈ s.dirtyShards i := by
  rw [mem_pending]
  constructor
  · rintro ⟨i, hi, he⟩
    by_cases h : i = idx
    · exact Or.inl (h ▸ he)
    · exact Or.inr ⟨i, hi, h, he⟩
  · rintro (he | ⟨i, hi, -, he⟩)
    · exact ⟨idx, hidx, he⟩
    · exact ⟨i, hi, he⟩

theorem mem_pending_setQueue {idx : Nat} (hidx : idx < shardCount) (queue : List (DirtyEntry Key)) :
    e ∈ (s.setQueue idx queue).pending ↔ e ∈ queue
      ∨ ∃ i < shardCount, i ≠ idx ∧ e ∈ s.dirtyShards i := by
  rw [mem_pending_split hidx]
  refine or_congr ?_ (exists_congr fun i => and_congr_right fun _ =>
    and_congr_right fun hne => ?_)
  · show e ∈ update s.dirtyShards idx queue idx ↔ _
    rw [update_self]
  · show e ∈ update s.dirtyShards idx queue i ↔ _
    rw [update_of_ne hne]

theorem mem_pending_pushDirty : e ∈ (s.pushDirty entry).pending ↔ e ∈ s.pending ∨ e = entry := by
  have hidx := s.shardIdx_lt entry.key
  rw [pushDirty, mem_pending_setQueue hidx, mem_pending_split hidx,
    mem_append, mem_singleton, or_right_comm]

/-- What a mark leaves in the metadata. -/
def marked (s : MfsMutableObjectStore) (op : Operation)
    (ttlTicks ttiTicks : Nat) : MutableObjectMeta :=
  ⟨s.clock, s.clock,
    if ttlTicks = 0 then 0 else min (s.clock + ttlTicks) u64Max, ttiTicks,
    decide (op = .delete)⟩

section

variable {op : Operation} {ttl tti : Nat}

@[simp] theorem value?_markDirty : (s.markDirty key op ttl tti).1.value? k = s.value? k := rfl

theorem currentMeta_markDirty_self : (s.markDirty k op ttl tti).1.currentMeta k
      = some (s.marked op ttl tti) :=
  AList.lookup_insert _

theorem currentMeta_markDirty_ne (hk : k ≠ key) :
    (s.markDirty key op ttl tti).1.currentMeta k = s.currentMeta k :=
  AList.lookup_insert_ne hk

theorem mem_pending_markDirty : e ∈ (s.markDirty key op ttl tti).1.pending
      ↔ e ∈ s.pending ∨ e = ⟨key, s.clock, s.clock, op⟩ :=
  mem_pending_pushDirty

end

-- ===== touching

section

variable (s : MfsMutableObjectStore)

/-- Touched metadata keep version and tombstone. -/
theorem currentMeta_recordTouch (key k : Key) :
    (s.recordTouch key).currentMeta k = s.currentMeta k ∨ ∃ m, s.currentMeta k = some m
        ∧ (s.recordTouch key).currentMeta k = some { m with lastTouch := s.clock } := by
  unfold recordTouch
  cases hm : s.currentMeta key with
  | none =>
    left
    simp only [show { s with clock := s.clock + 1 }.currentMeta key = none
      from hm]
    rfl
  | some m =>
    simp only [show { s with clock := s.clock + 1 }.currentMeta key = some m
      from hm]
    by_cases hk : k = key
    · rw [hk]
      exact Or.inr ⟨m, hm, currentMeta_setMeta_self _⟩
    · exact Or.inl (currentMeta_setMeta_ne _ hk)

theorem value?_recordTouch (key k : Key) : (s.recordTouch key).value? k = s.value? k := by
  unfold recordTouch
  simp only
  split <;> rfl

theorem clock_recordTouch (key : Key) : (s.recordTouch key).clock = s.clock + 1 := by
  unfold recordTouch
  simp only
  split <;> rfl

theorem pending_recordTouch (key : Key) : (s.recordTouch key).pending = s.pending := by
  unfold recordTouch
  simp only
  split <;> rfl

end

-- ===== draining

/-- A store with the same values, metadata and clocks. -/
structure SameData (s s' : MfsMutableObjectStore) : Prop where
  value : ∀ k, s'.value? k = s.value? k
  metadata : ∀ k, s'.currentMeta k = s.currentMeta k
  clock : s'.clock = s.clock
  writeClock : s'.writeClock = s.writeClock

theorem SameData.refl (s : MfsMutableObjectStore) : SameData s s :=
  ⟨fun _ => rfl, fun _ => rfl, rfl, rfl⟩

theorem SameData.trans {s₁ s₂ s₃ : MfsMutableObjectStore}
    (h : SameData s₁ s₂) (h' : SameData s₂ s₃) : SameData s₁ s₃ :=
  ⟨fun k => (h'.value k).trans (h.value k), fun k => (h'.metadata k).trans (h.metadata k),
    h'.clock.trans h.clock, h'.writeClock.trans h.writeClock⟩

theorem sameData_pushDirty (s : MfsMutableObjectStore)
    (entry : DirtyEntry Key) : SameData s (s.pushDirty entry) :=
  ⟨fun _ => rfl, fun _ => rfl, rfl, rfl⟩

theorem SameData.dispose (h : SameData s s') (idleTicks : Nat) (entry : DirtyEntry Key) :
    s'.dispose idleTicks entry = s.dispose idleTicks entry := by
  unfold MfsMutableObjectStore.dispose
  rw [h.metadata, h.clock, h.value]

/-- Requeueing only queues. -/
theorem requeueDirty_spec (s : MfsMutableObjectStore) (entries : List (DirtyEntry Key)) :
    SameData s (s.requeueDirty entries) ∧ ∀ e, e ∈ (s.requeueDirty entries).pending
        ↔ e ∈ s.pending ∨ e ∈ entries := by
  induction entries generalizing s with
  | nil => exact ⟨.refl s, fun e => by simp [requeueDirty]⟩
  | cons entry entries ih =>
    obtain ⟨hsame, hpending⟩ := ih (s.pushDirty entry)
    refine ⟨(sameData_pushDirty s entry).trans hsame, fun e => ?_⟩
    show e ∈ ((s.pushDirty entry).requeueDirty entries).pending ↔ _
    rw [hpending, mem_pending_pushDirty, mem_cons, or_assoc]

/-- An entry is drained or queued still. -/
theorem drainShards_spec (maxRecords : Nat) {range : List Nat}
    (hrange : ∀ idx ∈ range, idx < shardCount)
    (s : MfsMutableObjectStore) (drained : List (DirtyEntry Key)) :
    SameData s (drainShards maxRecords range s drained).1 ∧ ∀ e, (e ∈ drained ∨ e ∈ s.pending)
        ↔ e ∈ (drainShards maxRecords range s drained).2
          ∨ e ∈ (drainShards maxRecords range s drained).1.pending := by
  induction range generalizing s drained with
  | nil => exact ⟨.refl s, fun e => Iff.rfl⟩
  | cons idx range ih =>
    obtain ⟨hidx, hrest⟩ := forall_mem_cons.1 hrange
    rw [drainShards]
    generalize maxRecords - drained.length = room
    -- the front of the queue moves over, the rest of it stays
    have hone : ∀ e, (e ∈ drained ∨ e ∈ s.pending) ↔ e ∈ drained ++ (s.dirtyShards idx).take room
        ∨ e ∈ (s.setQueue idx ((s.dirtyShards idx).drop room)).pending := by
      intro e
      have hqueue : e ∈ s.dirtyShards idx ↔ e ∈ (s.dirtyShards idx).take room
            ∨ e ∈ (s.dirtyShards idx).drop room := by
        rw [← mem_append, take_append_drop]
      rw [mem_pending_setQueue hidx, mem_pending_split hidx, hqueue, mem_append]
      simp only [or_assoc]
    have hsame : SameData s (s.setQueue idx ((s.dirtyShards idx).drop room)) :=
      ⟨fun _ => rfl, fun _ => rfl, rfl, rfl⟩
    split
    · exact ⟨hsame, hone⟩
    · obtain ⟨hsame', hdrained⟩ := ih hrest (s.setQueue idx ((s.dirtyShards idx).drop room))
        (drained ++ (s.dirtyShards idx).take room)
      exact ⟨hsame.trans hsame', fun e => (hone e).trans (hdrained e)⟩

theorem drainDirty_spec (s : MfsMutableObjectStore) (maxRecords : Nat) :
    SameData s (s.drainDirty maxRecords).1 ∧ ∀ e, e ∈ s.pending ↔ e ∈ (s.drainDirty maxRecords).2
        ∨ e ∈ (s.drainDirty maxRecords).1.pending := by
  unfold drainDirty
  split
  · exact ⟨.refl s, fun e => by simp⟩
  · obtain ⟨hsame, hdrained⟩ := drainShards_spec maxRecords (fun idx h => mem_range.1 h) s []
    exact ⟨hsame, fun e => by simpa using hdrained e⟩

/-- The record an entry is flushed with. -/
def Disposition.record? : Disposition → Option ObjectFlushRecord
  | .flush record => some record
  | _ => none

/-- The batch, entry by entry. -/
theorem foldl_add (s : MfsMutableObjectStore) (idleTicks : Nat)
    (drained : List (DirtyEntry Key)) (b : Batch) :
    drained.foldl (Batch.add s idleTicks) b = ⟨b.records ++ drained.filterMap fun e =>
            (s.dispose idleTicks e).record?,
          b.flushed ++ drained.filter fun e => (s.dispose idleTicks e).record?.isSome,
          b.deferred ++ drained.filter fun e =>
            decide (s.dispose idleTicks e = .defer)⟩ := by
  induction drained generalizing b with
  | nil => simp
  | cons e drained ih =>
    rw [foldl_cons, ih, Batch.add]
    cases hd : s.dispose idleTicks e with
    | drop => simp [hd, Disposition.record?]
    | defer => simp [hd, Disposition.record?]
    | flush record => simp [hd, Disposition.record?]

/-- What a drain leaves and what it holds. -/
structure Drained (s : MfsMutableObjectStore) (idleTicks : Nat)
    (s' : MfsMutableObjectStore) (b : Batch) : Prop where
  same : SameData s s'
  /-- Nothing that can be flushed or deferred is dropped. -/
  kept : ∀ e ∈ s.pending, e ∈ s'.pending ∨ s.dispose idleTicks e = .drop
    ∨ e ∈ b.deferred ∨ e ∈ b.flushed
  pending : ∀ e ∈ s'.pending, e ∈ s.pending
  deferred : ∀ e ∈ b.deferred, e ∈ s.pending
  flushed : ∀ e ∈ b.flushed, e ∈ s.pending ∧ ∃ r ∈ b.records, s.dispose idleTicks e = .flush r
  records : ∀ r ∈ b.records, ∃ e ∈ b.flushed, s.dispose idleTicks e = .flush r

variable {r : ObjectFlushRecord}

theorem Disposition.record?_eq_some {d : Disposition} : d.record? = some r ↔ d = .flush r := by
  cases d <;> simp [Disposition.record?]

section

variable (s : MfsMutableObjectStore)

theorem drain_spec (idleTicks maxRecords : Nat) :
    Drained s idleTicks (s.drain idleTicks maxRecords).1 (s.drain idleTicks maxRecords).2 := by
  obtain ⟨hsame, hsplit⟩ := drainDirty_spec s maxRecords
  unfold drain
  generalize s.drainDirty maxRecords = d at hsame hsplit
  obtain ⟨s', drained⟩ := d
  simp only at hsame hsplit ⊢
  have hdispose : s'.dispose idleTicks = s.dispose idleTicks :=
    funext fun e => hsame.dispose idleTicks e
  rw [foldl_add, hdispose]
  refine ⟨hsame, ?_, ?_, ?_, ?_, ?_⟩
  · intro e he
    rcases (hsplit e).1 he with he | he
    · cases hd : s.dispose idleTicks e with
      | drop => exact Or.inr (Or.inl rfl)
      | defer =>
        refine Or.inr (Or.inr (Or.inl ?_))
        exact mem_filter.2 ⟨he, by simp [hd]⟩
      | flush record =>
        refine Or.inr (Or.inr (Or.inr ?_))
        exact mem_filter.2 ⟨he, by simp [hd, Disposition.record?]⟩
    · exact Or.inl he
  · intro e he
    exact (hsplit e).2 (Or.inr he)
  · intro e he
    exact (hsplit e).2 (Or.inl (mem_filter.1 he).1)
  · intro e he
    obtain ⟨he, hsome⟩ := mem_filter.1 he
    obtain ⟨r, hr⟩ := Option.isSome_iff_exists.1 hsome
    exact ⟨(hsplit e).2 (Or.inl he), r, mem_filterMap.2 ⟨e, he, hr⟩,
      Disposition.record?_eq_some.1 hr⟩
  · intro r hr
    obtain ⟨e, he, hr⟩ := mem_filterMap.1 hr
    exact ⟨e, mem_filter.2 ⟨he, by rw [hr]; rfl⟩, Disposition.record?_eq_some.1 hr⟩

-- ===== cleanup

/-- The tombstone of the key is one of those delivered. -/
def Cleans (entries : List (DirtyEntry Key)) (k : Key) : Prop :=
  ∃ m, s.currentMeta k = some m ∧ m.tombstone = true
    ∧ ∃ e ∈ entries, e.key = k ∧ e.op = .delete ∧ e.version = m.version

/-- One entry: its own tombstone goes, with any value; nothing else. -/
theorem cleanupEntry_cases (entry : DirtyEntry Key) :
    (s.cleanupEntry entry = s ∧ ¬ s.Cleans [entry] entry.key) ∨ s.cleanupEntry entry
          = (s.removeValue entry.key).markCleanDelete entry.key
        ∧ s.Cleans [entry] entry.key := by
  unfold cleanupEntry Cleans
  split
  next hop =>
    left
    refine ⟨rfl, ?_⟩
    rintro ⟨m, -, -, e, he, -, hdelete, -⟩
    rw [mem_singleton.1 he] at hdelete
    exact hop hdelete
  next hop =>
    split
    next hnone =>
      left
      refine ⟨rfl, ?_⟩
      rintro ⟨m, hm, -⟩
      rw [hnone] at hm
      cases hm
    next m hm =>
      split
      next hother =>
        left
        refine ⟨rfl, ?_⟩
        rintro ⟨m', hm', htomb, e, he, -, -, hversion⟩
        rw [hm] at hm'
        cases hm'
        rw [mem_singleton.1 he] at hversion
        rcases hother with hother | hother
        · exact hother hversion.symm
        · exact hother htomb
      next hsame =>
        right
        rw [not_or, not_not, not_not] at hsame
        exact ⟨rfl, m, hm, hsame.2, entry, mem_singleton.2 rfl, rfl,
          not_not.1 hop, hsame.1.symm⟩

end

/-- What a cleanup leaves. -/
structure Cleaned (s : MfsMutableObjectStore)
    (entries : List (DirtyEntry Key)) (s' : MfsMutableObjectStore) :
    Prop where
  removed : ∀ k, s.Cleans entries k → s'.value? k = none ∧ s'.currentMeta k = none
  kept : ∀ k, ¬ s.Cleans entries k → s'.value? k = s.value? k ∧ s'.currentMeta k = s.currentMeta k
  clock : s'.clock = s.clock
  writeClock : s'.writeClock = s.writeClock
  pending : ∀ e, e ∈ s'.pending ↔ e ∈ s.pending

variable {entries : List (DirtyEntry Key)}

theorem Cleans.cons (h : s.Cleans (entry :: entries) k) :
    s.Cleans [entry] k ∨ s.Cleans entries k := by
  obtain ⟨m, hm, htomb, e, he, hrest⟩ := h
  rcases mem_cons.1 he with rfl | he
  · exact Or.inl ⟨m, hm, htomb, e, mem_singleton.2 rfl, hrest⟩
  · exact Or.inr ⟨m, hm, htomb, e, he, hrest⟩

theorem Cleans.mono {entries entries' : List (DirtyEntry Key)}
    (h : s.Cleans entries k) (hsub : entries ⊆ entries') :
    s.Cleans entries' k := by
  obtain ⟨m, hm, htomb, e, he, hrest⟩ := h
  exact ⟨m, hm, htomb, e, hsub he, hrest⟩

/-- Only the metadata of the key decide. -/
theorem Cleans.congr (h : s.Cleans entries k) (hm : s'.currentMeta k = s.currentMeta k) :
    s'.Cleans entries k := by
  unfold Cleans
  rw [hm]
  exact h

theorem Cleans.key_eq (h : s.Cleans [entry] k) : k = entry.key := by
  obtain ⟨m, -, -, e, he, hkey, -⟩ := h
  rw [mem_singleton.1 he] at hkey
  exact hkey.symm

theorem cleanup_spec (s : MfsMutableObjectStore) (entries : List (DirtyEntry Key)) :
    Cleaned s entries (s.cleanupAfterFlush entries) := by
  induction entries generalizing s with
  | nil =>
    refine ⟨fun k h => ?_, fun k _ => ⟨rfl, rfl⟩, rfl, rfl, fun e => Iff.rfl⟩
    obtain ⟨m, -, -, e, he, -⟩ := h
    cases he
  | cons entry entries ih =>
    have hrest := ih (s.cleanupEntry entry)
    show Cleaned s (entry :: entries) ((s.cleanupEntry entry).cleanupAfterFlush entries)
    rcases cleanupEntry_cases s entry with ⟨heq, hnot⟩ | ⟨heq, hcleans⟩
    · rw [heq] at hrest ⊢
      refine ⟨fun k h => ?_, fun k h => ?_, hrest.clock, hrest.writeClock, hrest.pending⟩
      · rcases h.cons with h | h
        · exact absurd (h.key_eq ▸ h) hnot
        · exact hrest.removed k h
      · exact hrest.kept k fun h' => h (h'.mono (subset_cons_self ..))
    -- the metadata of other keys are as before
    have hmeta : ∀ k, k ≠ entry.key → (s.cleanupEntry entry).currentMeta k = s.currentMeta k :=
      fun k hk => heq ▸ currentMeta_markCleanDelete_ne hk
    have hvalue : ∀ k, k ≠ entry.key → (s.cleanupEntry entry).value? k = s.value? k :=
      fun k hk => heq ▸ value?_removeValue_ne hk
    have hgone : ((s.cleanupEntry entry).cleanupAfterFlush entries).value? entry.key = none
        ∧ ((s.cleanupEntry entry).cleanupAfterFlush entries).currentMeta entry.key = none := by
      have hnone : (s.cleanupEntry entry).currentMeta entry.key = none :=
        heq ▸ currentMeta_markCleanDelete_self
      obtain ⟨hv, hm⟩ := hrest.kept entry.key (by
        rintro ⟨m, hm, -⟩
        rw [hnone] at hm
        cases hm)
      rw [hv, hm]
      exact ⟨heq ▸ value?_removeValue_self, hnone⟩
    refine ⟨fun k h => ?_, fun k h => ?_, ?_, ?_, fun e => ?_⟩
    · by_cases hk : k = entry.key
      · rw [hk]
        exact hgone
      · rcases h.cons with h | h
        · exact absurd h.key_eq hk
        · exact hrest.removed k (h.congr (hmeta k hk))
    · have hk : k ≠ entry.key := by
        rintro rfl
        exact h (hcleans.mono (by simp))
      have hnot : ¬ (s.cleanupEntry entry).Cleans entries k := fun h' =>
        h ((h'.congr (hmeta k hk).symm).mono (subset_cons_self ..))
      obtain ⟨hv, hm⟩ := hrest.kept k hnot
      exact ⟨hv.trans (hvalue k hk), hm.trans (hmeta k hk)⟩
    · rw [hrest.clock, heq]
      rfl
    · rw [hrest.writeClock, heq]
      rfl
    · rw [hrest.pending, heq]
      rfl

/-- Finishing a flush takes out delivered tombstones, and nothing else. -/
theorem finish_data (s : MfsMutableObjectStore) (b : Batch) (accepted : Bool) (k : Key) :
    ((s.finish b accepted).value? k = s.value? k
      ∧ (s.finish b accepted).currentMeta k = s.currentMeta k)
    ∨ accepted = true ∧ s.Cleans b.flushed k ∧ (s.finish b accepted).value? k = none
      ∧ (s.finish b accepted).currentMeta k = none := by
  cases accepted with
  | false =>
    obtain ⟨hsame, -⟩ := requeueDirty_spec s (b.flushed ++ b.deferred)
    exact Or.inl ⟨hsame.value k, hsame.metadata k⟩
  | true =>
    have hclean := cleanup_spec s b.flushed
    obtain ⟨hsame, -⟩ := requeueDirty_spec (s.cleanupAfterFlush b.flushed) b.deferred
    by_cases hk : s.Cleans b.flushed k
    · obtain ⟨hv, hm⟩ := hclean.removed k hk
      exact Or.inr ⟨rfl, hk, (hsame.value k).trans hv, (hsame.metadata k).trans hm⟩
    · obtain ⟨hv, hm⟩ := hclean.kept k hk
      exact Or.inl ⟨(hsame.value k).trans hv, (hsame.metadata k).trans hm⟩

-- ===== dispositions

/-- The entry is the one the metadata of the key were pushed with. -/
def Announces (e : DirtyEntry Key) (k : Key) (m : MutableObjectMeta) : Prop :=
  e.key = k ∧ e.version = m.version ∧ (e.op = .delete ↔ m.tombstone = true)

/-- The record that tells a backend about the key. -/
def recordOf (s : MfsMutableObjectStore) (k : Key) (m : MutableObjectMeta) : ObjectFlushRecord :=
  if m.tombstone then ⟨k, none, m.version, .delete⟩
  else ⟨k, (s.value? k).map MutableObjectValue.toMfsValue, m.version, .put⟩

theorem recordOf_key : (s.recordOf k m).key = k := by
  unfold recordOf
  split <;> rfl

theorem recordOf_version : (s.recordOf k m).version = m.version := by
  unfold recordOf
  split <;> rfl

variable {idleTicks : Nat}

/-- An entry that is flushed announces metadata of its key. -/
theorem dispose_eq_flush (h : s.dispose idleTicks e = .flush r) :
    ∃ m, s.currentMeta e.key = some m ∧ Announces e e.key m ∧ r = s.recordOf e.key m := by
  unfold dispose at h
  split at h
  next => cases h
  next m hm =>
    refine ⟨m, hm, ?_⟩
    split at h
    next => cases h
    next hversion =>
      rw [not_not] at hversion
      split at h
      next => cases h
      split at h
      next hop =>
        split at h
        next => cases h
        next hlive =>
          split at h
          next => cases h
          next value hvalue =>
            cases h
            refine ⟨⟨rfl, hversion.symm, ?_⟩, ?_⟩
            · simp [hop, hlive]
            · simp [recordOf, hlive, hvalue, hversion]
      next hop =>
        split at h
        next htomb =>
          cases h
          refine ⟨⟨rfl, hversion.symm, ?_⟩, ?_⟩
          · simp [hop, htomb]
          · simp [recordOf, htomb, hversion]
        next => cases h

/-- Each flushed entry has its record in the batch. -/
theorem Drained.covers {b : Batch} (hd : Drained s idleTicks s' b) (he : e ∈ b.flushed) :
    ∃ r ∈ b.records, r.key = e.key ∧ r.version = e.version := by
  obtain ⟨-, r, hr, hdis⟩ := hd.flushed e he
  obtain ⟨m, -, ⟨-, hversion, -⟩, rfl⟩ := dispose_eq_flush hdis
  exact ⟨_, hr, recordOf_key m, (recordOf_version m).trans hversion.symm⟩

/-- An entry that announces metadata is not dropped, unless a put has
lost its value. -/
theorem dispose_of_announces {m : MutableObjectMeta} (idleTicks : Nat)
    (hm : s.currentMeta k = some m) (he : Announces e k m)
    (hvalue : m.tombstone = false → (s.value? k).isSome) :
    s.dispose idleTicks e = .defer ∨ s.dispose idleTicks e = .flush (s.recordOf k m) := by
  obtain ⟨rfl, hversion, hop⟩ := he
  unfold dispose
  rw [hm]
  simp only [hversion, ne_eq, not_true, if_false]
  split
  · exact Or.inl rfl
  right
  cases hopc : e.op with
  | put =>
    have hlive : m.tombstone = false := by
      rw [hopc] at hop
      simpa using hop
    obtain ⟨value, hv⟩ := Option.isSome_iff_exists.1 (hvalue hlive)
    simp [hlive, hv, recordOf]
  | delete =>
    have htomb : m.tombstone = true := hop.1 hopc
    simp [htomb, recordOf]

-- ===== queued

/-- Metadata of a key are announced by an entry, or the backend has
accepted a put of their version. -/
def Queued (s : MfsMutableObjectStore) (held : List (DirtyEntry Key))
    (accepted : List ObjectFlushRecord) : Prop :=
  ∀ k m, s.currentMeta k = some m → (∃ e, (e ∈ s.pending ∨ e ∈ held) ∧ Announces e k m)
      ∨ m.tombstone = false ∧ ∃ r ∈ accepted, r.key = k ∧ r.version = m.version

/-- A put has its value. -/
def Sound (s : MfsMutableObjectStore) : Prop :=
  ∀ k m, s.currentMeta k = some m → m.tombstone = false → (s.value? k).isSome

namespace Queued

variable {held : List (DirtyEntry Key)} {accepted : List ObjectFlushRecord}

section

variable (h : s.Queued held accepted)

include h

variable (key : Key)

theorem mark (op : Operation) (ttl tti : Nat) :
    (s.markDirty key op ttl tti).1.Queued held accepted := by
  intro k m hm
  by_cases hk : k = key
  · subst hk
    rw [currentMeta_markDirty_self] at hm
    cases hm
    refine Or.inl ⟨⟨k, s.clock, s.clock, op⟩, Or.inl ?_, rfl, rfl, ?_⟩
    · exact mem_pending_markDirty.2 (Or.inr rfl)
    · simp [marked]
  rw [currentMeta_markDirty_ne hk] at hm
  refine (h k m hm).imp_left ?_
  rintro ⟨e, he, hann⟩
  exact ⟨e, he.imp_left fun he => mem_pending_markDirty.2 (Or.inl he), hann⟩

/-- Metadata that change neither version nor tombstone. -/
theorem of_meta (hmeta : ∀ k m, s'.currentMeta k = some m → ∃ m₀,
      s.currentMeta k = some m₀ ∧ m₀.version = m.version ∧ m₀.tombstone = m.tombstone)
    (hpending : ∀ e ∈ s.pending, e ∈ s'.pending) :
    s'.Queued held accepted := by
  intro k m hm
  obtain ⟨m₀, hm₀, hversion, htomb⟩ := hmeta k m hm
  rcases h k m₀ hm₀ with ⟨e, he, hkey, hv, hop⟩ | ⟨hlive, r, hr, hkey, hv⟩
  · exact Or.inl ⟨e, he.imp_left (hpending e), hkey, hv.trans hversion, htomb ▸ hop⟩
  · exact Or.inr ⟨htomb ▸ hlive, r, hr, hkey, hv.trans hversion⟩

theorem insertValue (value : MutableObjectValue) : (s.insertValue key value).Queued held accepted :=
  h.of_meta (fun _ m hm => ⟨m, hm, rfl, rfl⟩) fun _ he => he

theorem removeValue : (s.removeValue key).Queued held accepted :=
  h.of_meta (fun _ m hm => ⟨m, hm, rfl, rfl⟩) fun _ he => he

theorem recordTouch : (s.recordTouch key).Queued held accepted := by
  refine h.of_meta (fun k m hm => ?_) fun e he => ?_
  · rcases currentMeta_recordTouch s key k with h | ⟨m₀, hm₀, h⟩
    · exact ⟨m, h.symm.trans hm, rfl, rfl⟩
    · rw [h] at hm
      cases hm
      exact ⟨m₀, hm₀, rfl, rfl⟩
  · rw [pending_recordTouch]
    exact he

end

theorem of_accepted {accepted' : List ObjectFlushRecord}
    (h : s.Queued held accepted) (hsub : accepted ⊆ accepted') :
    s.Queued held accepted' := by
  intro k m hm
  refine (h k m hm).imp_right ?_
  rintro ⟨hlive, r, hr, hrest⟩
  exact ⟨hlive, r, hsub hr, hrest⟩

/-- The flush holds what it drained. -/
theorem drain {b : Batch} (h : s.Queued [] accepted)
    (hsound : s.Sound) (hd : Drained s idleTicks s' b) :
    s'.Queued (b.flushed ++ b.deferred) accepted := by
  intro k m hm
  rw [hd.same.metadata] at hm
  rcases h k m hm with ⟨e, he, hann⟩ | hdone
  · left
    refine ⟨e, ?_, hann⟩
    rcases he with he | he
    · rcases hd.kept e he with he | hdrop | he | he
      · exact Or.inl he
      · rcases dispose_of_announces idleTicks hm hann (hsound k m hm) with
          hdis | hdis
        · rw [hdrop] at hdis
          cases hdis
        · rw [hdrop] at hdis
          cases hdis
      · exact Or.inr (mem_append_right _ he)
      · exact Or.inr (mem_append_left _ he)
    · cases he
  · exact Or.inr hdone

section

variable {b : Batch} (h : s.Queued (b.flushed ++ b.deferred) accepted)

include h

/-- A refused batch is queued again. -/
theorem refuse : (s.finish b false).Queued [] accepted := by
  obtain ⟨hsame, hpending⟩ := requeueDirty_spec s (b.flushed ++ b.deferred)
  intro k m hm
  have hm' : s.currentMeta k = some m := (hsame.metadata k).symm.trans hm
  refine (h k m hm').imp_left ?_
  rintro ⟨e, he, hann⟩
  exact ⟨e, Or.inl ((hpending e).2 he), hann⟩

/-- An accepted batch leaves the deferred entries to be queued again. -/
theorem accept (hrecords : ∀ e ∈ b.flushed, ∃ r ∈ accepted, r.key = e.key ∧ r.version = e.version) :
    (s.finish b true).Queued [] accepted := by
  have hclean := cleanup_spec s b.flushed
  obtain ⟨hsame, hpending⟩ := requeueDirty_spec (s.cleanupAfterFlush b.flushed) b.deferred
  intro k m hm
  have hm' : (s.cleanupAfterFlush b.flushed).currentMeta k = some m :=
    (hsame.metadata k).symm.trans hm
  have hnot : ¬ s.Cleans b.flushed k := by
    intro hcleans
    rw [(hclean.removed k hcleans).2] at hm'
    cases hm'
  rw [(hclean.kept k hnot).2] at hm'
  rcases h k m hm' with ⟨e, he, hann⟩ | hdone
  · rcases he with he | he
    · refine Or.inl ⟨e, Or.inl ?_, hann⟩
      exact (hpending e).2 (Or.inl ((hclean.pending e).2 he))
    rcases mem_append.1 he with he | he
    · -- a delete among them would have been cleaned up
      obtain ⟨hkey, hversion, hop⟩ := hann
      cases htomb : m.tombstone with
      | true => exact absurd ⟨m, hm', htomb, e, he, hkey, hop.2 htomb, hversion⟩ hnot
      | false =>
        obtain ⟨r, hr, hrkey, hrversion⟩ := hrecords e he
        exact Or.inr ⟨rfl, r, hr, hrkey.trans hkey, hrversion.trans hversion⟩
    · exact Or.inl ⟨e, Or.inl ((hpending e).2 (Or.inr he)), hann⟩
  · exact Or.inr hdone

end

end Queued

end MemoryFirst.Compat.MfsMutableObjectStore
