/-
What every interleaving keeps between the values, the metadata, the
queues and the records of a mutable object store, as long as no value is
removed under a put that is about to be marked and flushes do not overlap.

# The invariant

`Coherent` speaks about the store, the marks that threads are about to
make, the flushes under way, and the records the backend has received. A
thread between its two steps explains where value and metadata disagree:
a value without metadata is about to be marked, and live metadata without
a value are about to be marked deleted. The records of a key that were
sent have versions that do not decrease, none above that of the metadata;
one with the version of the metadata is the record of the key as it is
now, unless a thread is about to mark the key anew.

# The steps

There is one lemma for each thing that can happen to a store: a value is
stored or removed, a key is marked or touched, a flush drains, is
answered, or finishes. Letting a key expire is a removal and a mark.
-/
import MemoryFirst.Compat.ObjectThreads
import MemoryFirst.Compat.Proofs.MutableObjectStore
import MemoryFirst.Core.Backend
import MemoryFirst.Lib.Processes
import MemoryFirst.Lib.Runs

namespace MemoryFirst.Compat.ObjectThreads

open Lib Store Core MfsMutableObjectStore List

-- ===== flights

/-- The entries a flush holds. -/
def Flusher.held : Flusher → List (DirtyEntry Key)
  | .flush batch => batch.flushed ++ batch.deferred
  | .finish batch _ => batch.flushed ++ batch.deferred

/-- The records a flush has still to hand over. -/
def Flusher.unsent : Flusher → List ObjectFlushRecord
  | .flush batch => batch.records
  | .finish _ _ => []

/-- The records the backend received, and those on their way. -/
def sent (flushers : List Flusher) (received : List ObjectFlushRecord) : List ObjectFlushRecord :=
  received ++ flushers.flatMap Flusher.unsent

/-- Each entry that was flushed has its record among these. -/
def Covered (flushed : List (DirtyEntry Key)) (records : List ObjectFlushRecord) : Prop :=
  ∀ e ∈ flushed, ∃ r ∈ records, r.key = e.key ∧ r.version = e.version

/-- What is known of a flush under way. -/
def Flusher.Ready (s : MfsMutableObjectStore) (received : List ObjectFlushRecord) : Flusher → Prop
  | .flush batch => Covered batch.flushed batch.records
      ∧ ∀ r ∈ batch.records, (s.currentMeta r.key).isSome
  | .finish batch accepted => accepted = true → Covered batch.flushed received

-- ===== the invariant

structure Coherent (s : MfsMutableObjectStore)
    (marking : Key → Operation → Prop) (flushers : List Flusher)
    (received : List ObjectFlushRecord) (written : Key → Bool) : Prop where
  /-- A put that is about to be marked has its value. -/
  putValue : ∀ k, marking k .put → (s.value? k).isSome
  live : ∀ k m, s.currentMeta k = some m → m.tombstone = false →
    (s.value? k).isSome ∨ marking k .delete
  valued : ∀ k, (s.value? k).isSome → (s.currentMeta k).isSome ∨ ∃ op, marking k op
  metaLow : ∀ k m, s.currentMeta k = some m → m.version < s.clock
  sentLow : ∀ r ∈ sent flushers received, r.version < s.clock
  queued : s.Queued (flushers.flatMap Flusher.held) received
  /-- What was sent is not above the metadata, and at their version it is
  what they say. -/
  current : ∀ r ∈ sent flushers received, ∀ m, s.currentMeta r.key = some m → r.version ≤ m.version
      ∧ (r.version = m.version → r.op = (s.recordOf r.key m).op ∧ ((∀ op, ¬ marking r.key op) →
          r.value = (s.recordOf r.key m).value))
  ordered : (sent flushers received).Pairwise fun a b =>
    a.key = b.key → a.version ≤ b.version
  /-- A key without metadata was last sent as a delete. -/
  gone : ∀ k, written k = true → s.currentMeta k = none →
    ∃ r, lastDelivered received k = some r ∧ r.op = .delete ∧ r.value = none
  ready : ∀ f ∈ flushers, f.Ready s received
  single : flushers.length ≤ 1

variable (hashBuilder : Key → UInt64)

theorem coherent_init :
    Coherent (withHasher hashBuilder) (fun _ _ => False) [] [] (fun _ => false) where
  putValue := nofun
  live := by simp [withHasher, currentMeta]
  valued := by simp [withHasher, value?]
  metaLow := by simp [withHasher, currentMeta]
  sentLow := by simp [sent]
  queued := by simp [Queued, withHasher, currentMeta]
  current := by simp [sent]
  ordered := by simp [sent]
  gone := by simp
  ready := by simp
  single := by simp

namespace Coherent

variable {s s' : MfsMutableObjectStore} {marking marking' : Key → Operation → Prop}
  {flushers : List Flusher} {received : List ObjectFlushRecord} {written written' : Key → Bool}
  {key : Key} {op : Operation} {batch : Batch} {k : Key} {m : MutableObjectMeta}

/-- The record of a key depends on its value and on version and tombstone
of its metadata. -/
theorem recordOf_congr {m' : MutableObjectMeta}
    (hvalue : s'.value? k = s.value? k) (hversion : m'.version = m.version)
    (htomb : m'.tombstone = m.tombstone) :
    s'.recordOf k m' = s.recordOf k m := by
  unfold recordOf
  rw [hvalue, hversion, htomb]

/-- The operation needs no value. -/
theorem recordOf_op : (s'.recordOf k m).op = (s.recordOf k m).op := by
  unfold recordOf
  split <;> rfl

-- ===== values and marks

section

variable (h : Coherent s marking flushers received written)
include h

/-- A thread changes the value of a key and is about to mark it. -/
theorem setValue {shards : AList fun _ : Key => MutableObjectValue}
    (hother : ∀ k, k ≠ key → shards.lookup k = s.value? k)
    (hput : marking' key .put → (shards.lookup key).isSome)
    (hlive : (shards.lookup key).isSome ∨ op = .delete)
    (hmarking : ∀ k op', marking' k op' ↔ marking k op' ∨ k = key ∧ op' = op) :
    Coherent { s with shards := shards } marking' flushers received written where
  putValue := by
    intro k hk
    by_cases heq : k = key
    · subst heq
      exact hput hk
    · rw [value?, hother k heq]
      exact h.putValue k (((hmarking k .put).1 hk).resolve_right fun hnew => heq hnew.1)
  live := by
    intro k m hm halive
    by_cases heq : k = key
    · subst heq
      exact hlive.imp_right fun hop => (hmarking k .delete).2 (Or.inr ⟨rfl, hop.symm⟩)
    · rw [value?, hother k heq]
      exact (h.live k m hm halive).imp_right fun hk => (hmarking k .delete).2 (Or.inl hk)
  valued := by
    intro k hk
    by_cases heq : k = key
    · exact Or.inr ⟨op, (hmarking k op).2 (Or.inr ⟨heq, rfl⟩)⟩
    rw [value?, hother k heq] at hk
    refine (h.valued k hk).imp_right ?_
    rintro ⟨op', hop⟩
    exact ⟨op', (hmarking k op').2 (Or.inl hop)⟩
  metaLow := h.metaLow
  sentLow := h.sentLow
  queued := h.queued.of_meta (fun _ m hm => ⟨m, hm, rfl, rfl⟩) fun _ he => he
  current := by
    intro r hr m hm
    obtain ⟨hle, heq⟩ := h.current r hr m hm
    refine ⟨hle, fun hversion => ?_⟩
    obtain ⟨hop, hvalue⟩ := heq hversion
    refine ⟨hop.trans recordOf_op, fun hnone => ?_⟩
    have hne : r.key ≠ key := fun hk =>
      hnone op ((hmarking r.key op).2 (Or.inr ⟨hk, rfl⟩))
    have hsame : recordOf { s with shards := shards } r.key m = s.recordOf r.key m :=
      recordOf_congr (hother _ hne) rfl rfl
    rw [hsame]
    exact hvalue fun op' hop' => hnone op' ((hmarking r.key op').2 (Or.inl hop'))
  ordered := h.ordered
  gone := h.gone
  ready := h.ready
  single := h.single

theorem insertValue (value : MutableObjectValue)
    (hmarking : ∀ k op', marking' k op' ↔ marking k op' ∨ k = key ∧ op' = .put) :
    Coherent (s.insertValue key value) marking' flushers received written := by
  have hsome : ((s.shards.insert key value).lookup key).isSome := by
    rw [AList.lookup_insert]
    rfl
  exact h.setValue (fun k hk => AList.lookup_insert_ne hk) (fun _ => hsome) (Or.inl hsome) hmarking

/-- The value removed is not one that a put is about to be marked for. -/
theorem removeValue (hcross : ¬ marking key .put)
    (hmarking : ∀ k op', marking' k op' ↔ marking k op' ∨ k = key ∧ op' = .delete) :
    Coherent (s.removeValue key) marking' flushers received written := by
  refine h.setValue (fun k hk => AList.lookup_erase_ne hk) (fun hput => ?_) (Or.inr rfl) hmarking
  exact absurd (((hmarking key .put).1 hput).resolve_right fun hnew => nomatch hnew.2) hcross

end

/-- Metadata that are there stay ready. -/
theorem ready_mono {f : Flusher} (h : f.Ready s received)
    (hmeta : ∀ k, (s.currentMeta k).isSome → (s'.currentMeta k).isSome) :
    f.Ready s' received := by
  cases f with
  | flush batch => exact ⟨h.1, fun r hr => hmeta r.key (h.2 r hr)⟩
  | finish batch accepted => exact h

variable (h : Coherent s marking flushers received written)

section

include h

/-- A thread marks what it was about to mark. -/
theorem markDirty (ttl tti : Nat) (hold : marking key op)
    (hsub : ∀ k op', marking' k op' → marking k op')
    (hkeep : ∀ k op', marking k op' → marking' k op' ∨ k = key)
    (hwritten : ∀ k, (s.markDirty key op ttl tti).1.currentMeta k = none →
      written' k = true → written k = true) :
    Coherent (s.markDirty key op ttl tti).1 marking' flushers received written' where
  putValue := fun k hk => h.putValue k (hsub k .put hk)
  live := by
    intro k m hm hlive
    by_cases heq : k = key
    · rw [heq, currentMeta_markDirty_self] at hm
      cases hm
      have hput : op = .put := by
        cases op with
        | put => rfl
        | delete => cases hlive
      rw [heq]
      exact Or.inl (h.putValue key (hput ▸ hold))
    · rw [currentMeta_markDirty_ne heq] at hm
      exact (h.live k m hm hlive).imp_right fun hk => (hkeep k .delete hk).resolve_right heq
  valued := by
    intro k hk
    by_cases heq : k = key
    · rw [heq, currentMeta_markDirty_self]
      exact Or.inl rfl
    rw [currentMeta_markDirty_ne heq]
    refine (h.valued k hk).imp_right ?_
    rintro ⟨op', hop⟩
    exact ⟨op', (hkeep k op' hop).resolve_right heq⟩
  metaLow := by
    intro k m hm
    by_cases heq : k = key
    · rw [heq, currentMeta_markDirty_self] at hm
      cases hm
      exact Nat.lt_succ_self _
    · rw [currentMeta_markDirty_ne heq] at hm
      exact Nat.lt_succ_of_lt (h.metaLow k m hm)
  sentLow := fun r hr => Nat.lt_succ_of_lt (h.sentLow r hr)
  queued := h.queued.mark key op ttl tti
  current := by
    intro r hr m hm
    by_cases heq : r.key = key
    · -- what was sent is older than the version just taken
      rw [heq, currentMeta_markDirty_self] at hm
      cases hm
      have hlow : r.version < s.clock := h.sentLow r hr
      exact ⟨Nat.le_of_lt hlow, fun hversion => absurd hversion (Nat.ne_of_lt hlow)⟩
    rw [currentMeta_markDirty_ne heq] at hm
    obtain ⟨hle, hsame⟩ := h.current r hr m hm
    refine ⟨hle, fun hversion => ?_⟩
    obtain ⟨hop, hvalue⟩ := hsame hversion
    refine ⟨hop.trans recordOf_op, fun hnone => ?_⟩
    exact hvalue fun op' hop' => hnone op' ((hkeep r.key op' hop').resolve_right heq)
  ordered := h.ordered
  gone := by
    intro k hk hm
    have hold := hwritten k hm hk
    have hne : k ≠ key := by
      rintro rfl
      rw [currentMeta_markDirty_self] at hm
      cases hm
    rw [currentMeta_markDirty_ne hne] at hm
    exact h.gone k hold hm
  ready := by
    intro f hf
    refine ready_mono (h.ready f hf) fun k hk => ?_
    by_cases heq : k = key
    · rw [heq, currentMeta_markDirty_self]
      rfl
    · rw [currentMeta_markDirty_ne heq]
      exact hk
  single := h.single

/-- The same marks, and the same keys written. -/
theorem congr (hmarking : ∀ k op', marking' k op' ↔ marking k op')
    (hwritten : ∀ k, s.currentMeta k = none → written' k = true → written k = true) :
    Coherent s marking' flushers received written' := by
  have heq : marking' = marking :=
    funext fun k => funext fun op' => propext (hmarking k op')
  subst heq
  exact { h with gone := fun k hk hm => h.gone k (hwritten k hm hk) hm }

theorem recordTouch (key : Key) :
    Coherent (s.recordTouch key) marking flushers received written := by
  -- version and tombstone of every key's metadata are as before
  have hmeta : ∀ k m, (s.recordTouch key).currentMeta k = some m →
      ∃ m₀, s.currentMeta k = some m₀ ∧ m.version = m₀.version ∧ m.tombstone = m₀.tombstone := by
    intro k m hm
    rcases currentMeta_recordTouch s key k with heq | ⟨m₀, hm₀, heq⟩
    · exact ⟨m, heq.symm.trans hm, rfl, rfl⟩
    · rw [heq] at hm
      cases hm
      exact ⟨m₀, hm₀, rfl, rfl⟩
  have hsome : ∀ k, ((s.recordTouch key).currentMeta k).isSome = (s.currentMeta k).isSome := by
    intro k
    rcases currentMeta_recordTouch s key k with heq | ⟨m₀, hm₀, heq⟩
    · rw [heq]
    · rw [heq, hm₀]
      rfl
  refine
    { putValue := fun k hk => ?_
      live := fun k m hm hlive => ?_
      valued := fun k hk => ?_
      metaLow := fun k m hm => ?_
      sentLow := fun r hr => ?_
      queued := h.queued.recordTouch key
      current := fun r hr m hm => ?_
      ordered := h.ordered
      gone := fun k hk hm => ?_
      ready := fun f hf => ready_mono (h.ready f hf) fun k hk => ?_
      single := h.single }
  · rw [value?_recordTouch]
    exact h.putValue k hk
  · obtain ⟨m₀, hm₀, -, htomb⟩ := hmeta k m hm
    rw [value?_recordTouch]
    exact h.live k m₀ hm₀ (htomb ▸ hlive)
  · rw [value?_recordTouch] at hk
    rw [hsome]
    exact h.valued k hk
  · obtain ⟨m₀, hm₀, hversion, -⟩ := hmeta k m hm
    rw [clock_recordTouch, hversion]
    exact Nat.lt_succ_of_lt (h.metaLow k m₀ hm₀)
  · rw [clock_recordTouch]
    exact Nat.lt_succ_of_lt (h.sentLow r hr)
  · obtain ⟨m₀, hm₀, hversion, htomb⟩ := hmeta r.key m hm
    rw [recordOf_congr (value?_recordTouch s key r.key) hversion htomb, hversion]
    exact h.current r hr m₀ hm₀
  · refine h.gone k hk ?_
    rw [← Option.isNone_iff_eq_none, ← Option.not_isSome] at hm ⊢
    rw [← hsome k]
    exact hm
  · rw [hsome]
    exact hk

end

/-- With the lifecycle lock, a key expires in one step. -/
theorem expireKey (h : Coherent s (fun _ _ => False) flushers received written) (key : Key)
    (hwritten : ∀ k, (s.expireKeyIfNeeded key).1.currentMeta k = none →
      written' k = true → written k = true) :
    Coherent (s.expireKeyIfNeeded key).1 (fun _ _ => False) flushers received written' := by
  revert hwritten
  unfold expireKeyIfNeeded
  split
  next => exact h.congr fun _ _ => Iff.rfl
  next m hm =>
    split
    · exact h.congr fun _ _ => Iff.rfl
    intro hwritten
    have hremoved : Coherent (s.removeValue key)
        (fun k op' => k = key ∧ op' = .delete) flushers received written :=
      h.removeValue id fun k op' => by simp
    exact hremoved.markDirty 0 0 ⟨rfl, rfl⟩ (fun _ _ => False.elim)
      (fun k op' hk => Or.inr hk.1) hwritten

-- ===== flushes

section

include h

/-- The last record of a key is at least as new as any. -/
theorem le_last {r last : ObjectFlushRecord} (hr : r ∈ received)
    (hlast : lastDelivered received r.key = some last) :
    r.version ≤ last.version := by
  have hordered := (pairwise_append.1 h.ordered).1
  rcases lastOf_related hordered hr hlast with heq | hle
  · rw [heq]
  · exact hle

/-- The last record of a key whose metadata the backend has received is
the record of the key. -/
theorem last_eq (hm : s.currentMeta k = some m) (hnone : ∀ op', ¬ marking k op')
    {r : ObjectFlushRecord} (hr : r ∈ received) (hkey : r.key = k)
    (hversion : r.version = m.version) :
    ∃ last, lastDelivered received k = some last ∧ last.op = (s.recordOf k m).op
      ∧ last.value = (s.recordOf k m).value := by
  subst hkey
  obtain ⟨last, hlast⟩ := exists_lastOf FlushRecord.key hr
  obtain ⟨hmem, hkey⟩ := lastOf_mem hlast
  have hge := h.le_last hr hlast
  have hcurrent := h.current last (mem_append_left _ hmem) m (hkey ▸ hm)
  have heq : last.version = m.version := by
    omega
  obtain ⟨hop, hvalue⟩ := hcurrent.2 heq
  rw [hkey] at hop hvalue
  exact ⟨last, hlast, hop, hvalue hnone⟩

end

/-- With the lifecycle lock, a flush drains while no other is under
way. -/
theorem drain {idleTicks : Nat} (h : Coherent s (fun _ _ => False) [] received written)
    (hd : Drained s idleTicks s' batch)
    (hwritten : ∀ k, s'.currentMeta k = none → written' k = true → written k = true) :
    Coherent s' (fun _ _ => False) [Flusher.drained batch] received written' := by
  -- a record that was collected is the record of its key
  have hrecord : ∀ r ∈ batch.records, ∃ m, s.currentMeta r.key = some m
      ∧ r = s.recordOf r.key m := by
    intro r hr
    obtain ⟨e, -, hdis⟩ := hd.records r hr
    obtain ⟨m, hm, -, rfl⟩ := dispose_eq_flush hdis
    rw [recordOf_key]
    exact ⟨m, hm, rfl⟩
  have hcovered : Covered batch.flushed batch.records := fun _ => hd.covers
  have hunsent : (Flusher.drained batch).unsent = batch.records := by
    unfold Flusher.drained
    split
    next hempty => exact hempty.symm
    next => rfl
  have hheld : (Flusher.drained batch).held = batch.flushed ++ batch.deferred := by
    unfold Flusher.drained
    split <;> rfl
  have hsent : sent [Flusher.drained batch] received = received ++ batch.records := by
    simp [sent, hunsent]
  have hold : sent [] received = received := by simp [sent]
  have hsound : s.Sound := fun k m hm hlive => (h.live k m hm hlive).resolve_right id
  have hsame : ∀ k m, s'.recordOf k m = s.recordOf k m :=
    fun k m => recordOf_congr (hd.same.value k) rfl rfl
  have hsentLow := h.sentLow
  have hcurrent := h.current
  have hordered := h.ordered
  rw [hold] at hsentLow hcurrent hordered
  refine
    { putValue := fun k => False.elim
      live := fun k m hm hlive => ?_
      valued := fun k hk => ?_
      metaLow := fun k m hm => ?_
      sentLow := ?_
      queued := ?_
      current := ?_
      ordered := ?_
      gone := fun k hk hm => ?_
      ready := ?_
      single := Nat.le_refl 1 }
  · rw [hd.same.metadata] at hm
    rw [hd.same.value]
    exact h.live k m hm hlive
  · rw [hd.same.value] at hk
    rw [hd.same.metadata]
    exact h.valued k hk
  · rw [hd.same.metadata] at hm
    rw [hd.same.clock]
    exact h.metaLow k m hm
  · rw [hsent, hd.same.clock]
    intro r hr
    rcases mem_append.1 hr with hr | hr
    · exact hsentLow r hr
    · obtain ⟨m, hm, heq⟩ := hrecord r hr
      rw [heq, recordOf_version]
      exact h.metaLow r.key m hm
  · rw [flatMap_singleton, hheld]
    exact h.queued.drain hsound hd
  · rw [hsent]
    intro r hr m hm
    rw [hd.same.metadata] at hm
    rw [hsame]
    rcases mem_append.1 hr with hr | hr
    · exact hcurrent r hr m hm
    obtain ⟨m', hm', heq⟩ := hrecord r hr
    rw [hm] at hm'
    cases hm'
    refine ⟨?_, fun _ => ⟨congrArg FlushRecord.op heq, fun _ => congrArg FlushRecord.value heq⟩⟩
    rw [heq, recordOf_version]
  · rw [hsent]
    refine pairwise_append.2 ⟨hordered, ?_, ?_⟩
    · refine List.Pairwise.imp_of_mem ?_ (pairwise_of_forall fun _ _ => trivial)
      intro a b ha hb _ hkey
      obtain ⟨ma, hma, heqa⟩ := hrecord a ha
      obtain ⟨mb, hmb, heqb⟩ := hrecord b hb
      rw [hkey, hmb] at hma
      cases hma
      rw [heqa, heqb, recordOf_version, recordOf_version]
    · intro a ha b hb hkey
      obtain ⟨m, hm, heq⟩ := hrecord b hb
      rw [heq, recordOf_version]
      exact (hcurrent a ha m (hkey ▸ hm)).1
  · have hk := hwritten k hm hk
    rw [hd.same.metadata] at hm
    exact h.gone k hk hm
  · intro f hf
    rw [mem_singleton.1 hf]
    unfold Flusher.drained
    split
    next hempty =>
      rw [hempty] at hcovered
      intro _ e he
      obtain ⟨r, hr, -⟩ := hcovered e he
      cases hr
    next =>
      refine ⟨hcovered, fun r hr => ?_⟩
      obtain ⟨m, hm, -⟩ := hrecord r hr
      rw [hd.same.metadata, hm]
      rfl

/-- The backend answers the flush under way. -/
theorem answer (outcome : Except Nat Unit)
    (h : Coherent s marking [.flush batch] received written) :
    Coherent s marking [.finish batch outcome.isOk] (received ++ taken batch outcome) written := by
  obtain ⟨hcovered, hmeta⟩ := h.ready _ (mem_singleton.2 rfl)
  have htaken : (taken batch outcome).Sublist batch.records := by
    cases outcome with
    | ok reply => exact List.Sublist.refl _
    | error n => exact take_sublist n _
  have hsub : (sent [.finish batch outcome.isOk] (received ++ taken batch outcome)).Sublist
      (sent [.flush batch] received) := by
    simp only [sent, flatMap_singleton, Flusher.unsent, append_nil]
    exact List.Sublist.append (List.Sublist.refl received) htaken
  exact
    { putValue := h.putValue
      live := h.live
      valued := h.valued
      metaLow := h.metaLow
      sentLow := fun r hr => h.sentLow r (hsub.subset hr)
      queued := h.queued.of_accepted (subset_append_left ..)
      current := fun r hr => h.current r (hsub.subset hr)
      ordered := h.ordered.sublist hsub
      gone := by
        intro k hk hm
        obtain ⟨r, hlast, hrest⟩ := h.gone k hk hm
        refine ⟨r, ?_, hrest⟩
        unfold lastDelivered
        rw [lastOf_append_other]
        · exact hlast
        · rintro x hx rfl
          have hsome := hmeta x (htaken.subset hx)
          rw [hm] at hsome
          cases hsome
      ready := by
        intro f hf
        rw [mem_singleton.1 hf]
        intro hok e he
        cases outcome with
        | ok reply =>
          obtain ⟨r, hr, hrest⟩ := hcovered e he
          exact ⟨r, mem_append_right _ hr, hrest⟩
        | error n => cases hok
      single := h.single }

/-- With the lifecycle lock, the flush under way finishes. -/
theorem finish {accepted : Bool}
    (h : Coherent s (fun _ _ => False) [.finish batch accepted] received written)
    (hwritten : ∀ k, (s.finish batch accepted).currentMeta k = none →
      written' k = true → written k = true) :
    Coherent (s.finish batch accepted) (fun _ _ => False) [] received written' := by
  have hdata := finish_data s batch accepted
  have hclock : (s.finish batch accepted).clock = s.clock := by
    cases accepted with
    | false => exact (requeueDirty_spec s (batch.flushed ++ batch.deferred)).1.clock
    | true =>
      exact (requeueDirty_spec _ batch.deferred).1.clock.trans (cleanup_spec s batch.flushed).clock
  have hready := h.ready _ (mem_singleton.2 rfl)
  have hsent : sent [] received = sent [.finish batch accepted] received := by
    simp [sent, Flusher.unsent]
  -- metadata that are left are those of before, and so is the value
  have hleft : ∀ k m, (s.finish batch accepted).currentMeta k = some m → s.currentMeta k = some m
        ∧ (s.finish batch accepted).value? k = s.value? k := by
    intro k m hm
    rcases hdata k with ⟨hv, hm'⟩ | ⟨-, -, -, hm'⟩
    · exact ⟨hm'.symm.trans hm, hv⟩
    · rw [hm'] at hm
      cases hm
  refine
    { putValue := fun k => False.elim
      live := fun k m hm hlive => ?_
      valued := fun k hk => ?_
      metaLow := fun k m hm => ?_
      sentLow := ?_
      queued := ?_
      current := ?_
      ordered := hsent ▸ h.ordered
      gone := fun k hk hm => ?_
      ready := nofun
      single := Nat.zero_le 1 }
  · obtain ⟨hm, hv⟩ := hleft k m hm
    rw [hv]
    exact h.live k m hm hlive
  · rcases hdata k with ⟨hv, hm⟩ | ⟨-, -, hv, -⟩
    · rw [hv] at hk
      rw [hm]
      exact h.valued k hk
    · rw [hv] at hk
      cases hk
  · rw [hclock]
    exact h.metaLow k m (hleft k m hm).1
  · rw [hsent, hclock]
    exact h.sentLow
  · have hheld := h.queued
    rw [flatMap_singleton] at hheld
    cases accepted with
    | false => exact hheld.refuse
    | true => exact hheld.accept (hready rfl)
  · rw [hsent]
    intro r hr m hm
    obtain ⟨hm, hv⟩ := hleft r.key m hm
    rw [recordOf_congr hv rfl rfl]
    exact h.current r hr m hm
  have hk := hwritten k hm hk
  rcases hdata k with ⟨-, hm'⟩ | ⟨rfl, hclean, -, -⟩
  · exact h.gone k hk (hm'.symm.trans hm)
  -- the tombstone that went was delivered, and nothing newer was
  obtain ⟨m, hm', htomb, e, he, hkey, -, hversion⟩ := hclean
  obtain ⟨r, hr, hrkey, hrversion⟩ := hready rfl e he
  obtain ⟨last, hlast, hop, hvalue⟩ := h.last_eq hm' (fun _ => id) hr
    (hrkey.trans hkey) (hrversion.trans hversion)
  refine ⟨last, hlast, ?_, ?_⟩
  · rw [hop]
    simp [recordOf, htomb]
  · rw [hvalue]
    simp [recordOf, htomb]

end Coherent

-- ===== threads

variable {threads : List Thread}

section

variable {p : Nat} {t t' : Thread} {k key : Key} {op op' : Operation}

theorem marking_iff : Marking threads k op ↔ ∃ (q : Nat) (u : Thread), threads[q]? = some u
      ∧ u.marks = some (k, op) := by
  unfold Marking
  simp only [mem_iff_getElem?]
  constructor
  · rintro ⟨u, ⟨q, hq⟩, hu⟩
    exact ⟨q, u, hq, hu⟩
  · rintro ⟨q, u, hq, hu⟩
    exact ⟨u, ⟨q, hq⟩, hu⟩

theorem quiet_iff : Quiet threads ↔ ∀ k op, ¬ Marking threads k op := by
  constructor
  · rintro h k op ⟨t, ht, hmarks⟩
    rw [h t ht] at hmarks
    cases hmarks
  · intro h t ht
    cases hmarks : t.marks with
    | none => rfl
    | some x => exact absurd ⟨t, ht, hmarks⟩ (h x.1 x.2)

/-- A thread that was not about to mark takes a step. -/
theorem marking_set (hp : threads[p]? = some t) (ht : t.marks = none) :
    Marking (threads.set p t') k op ↔ Marking threads k op ∨ t'.marks = some (k, op) := by
  rw [marking_iff, marking_iff]
  constructor
  · rintro ⟨q, u, hq, hu⟩
    rcases getElem?_set_cases hq with ⟨-, rfl⟩ | ⟨-, hq⟩
    · exact Or.inr hu
    · exact Or.inl ⟨q, u, hq, hu⟩
  · rintro (⟨q, u, hq, hu⟩ | hu)
    · refine ⟨q, u, getElem?_set_other hq ?_, hu⟩
      rintro rfl
      rw [hp] at hq
      cases hq
      rw [ht] at hu
      cases hu
    · exact ⟨p, t', getElem?_set_new hp, hu⟩

/-- A thread marks and is done with it. -/
theorem marking_of_set (ht' : t'.marks = none)
    (h : Marking (threads.set p t') k op) : Marking threads k op := by
  obtain ⟨q, u, hq, hu⟩ := marking_iff.1 h
  rcases getElem?_set_cases hq with ⟨-, rfl⟩ | ⟨-, hq⟩
  · rw [ht'] at hu
    cases hu
  · exact marking_iff.2 ⟨q, u, hq, hu⟩

theorem marking_set_or (hp : threads[p]? = some t)
    (ht : t.marks = some (key, op')) (h : Marking threads k op) :
    Marking (threads.set p t') k op ∨ k = key := by
  obtain ⟨q, u, hq, hu⟩ := marking_iff.1 h
  by_cases hpq : p = q
  · subst hpq
    rw [hp] at hq
    cases hq
    rw [ht] at hu
    cases hu
    exact Or.inr rfl
  · exact Or.inl (marking_iff.2 ⟨q, u, getElem?_set_other hq hpq, hu⟩)

theorem marking_append (ht : t.marks = none) :
    Marking (threads ++ [t]) k op ↔ Marking threads k op := by
  unfold Marking
  simp only [mem_append, mem_singleton, or_and_right, exists_or,
    exists_eq_left, ht, reduceCtorEq, or_false]

end

-- ===== the steps

variable {w : World} {s : MfsMutableObjectStore}

/-- A key without metadata is not written by a step. -/
theorem written_setStore {k : Key}
    (hm : s.currentMeta k = none) (hk : (w.setStore s).written k = true) :
    w.written k = true := by
  unfold World.setStore at hk
  simpa [hm] using hk

def World.Coherent (w : World) : Prop :=
  ObjectThreads.Coherent w.store (Marking w.threads) w.flushers w.received w.written

/-- With the lifecycle lock no thread is about to mark. -/
theorem marking_eq_of_quiet (h : Quiet threads) : Marking threads = fun _ _ => False :=
  funext fun k => funext fun op => eq_false (quiet_iff.1 h k op)

variable {p : Nat}

/-- A step of a thread that does not mark, before and after. -/
theorem marking_set_none {t t' : Thread} (hp : threads[p]? = some t) (ht : t.marks = none)
    (ht' : t'.marks = none) : Marking (threads.set p t') = Marking threads := by
  refine funext fun k => funext fun op => propext ?_
  rw [marking_set hp ht, ht']
  simp

theorem coherent_call (h : w.Coherent) (request : Request) :
    (worldStep w (.call request)).1.Coherent := by
  have hstart : (Thread.start request).marks = none := by
    cases request with
    | done _ | read _ => rfl
    | write edit =>
      simp only [Thread.start]
      split <;> rfl
  exact Coherent.congr h (fun _ _ => marking_append hstart) fun _ _ hk => hk

theorem coherent_change (h : w.Coherent) {edit : Edit} (hp : w.threads[p]? = some (.change edit))
    (hguard : removes (edit.change (w.store.value? edit.key)) = true →
      ¬ Marking w.threads edit.key .put) :
    Coherent (changed w.store edit).1
      (Marking (w.threads.set p (changed w.store edit).2)) w.flushers
      w.received w.written := by
  unfold changed
  split
  next =>
    rw [marking_set_none hp rfl rfl]
    exact h
  next =>
    rw [marking_set_none hp rfl rfl]
    exact h
  next value reply hchange =>
    refine Coherent.insertValue h value fun k op => ?_
    rw [marking_set hp rfl]
    simp [Thread.marks, eq_comm]
  next reply hchange =>
    refine Coherent.removeValue h (hguard (by rw [hchange]; rfl)) fun k op => ?_
    rw [marking_set hp rfl]
    simp [Thread.marks, eq_comm]

theorem coherent_thread (h : w.Coherent) {t : Thread} (hp : w.threads[p]? = some t)
    (hguard : ∀ edit, t = .change edit → removes (edit.change (w.store.value? edit.key)) = true →
        ¬ Marking w.threads edit.key .put) :
    (worldStep w (.thread p)).1.Coherent := by
  simp only [worldStep, hp]
  unfold World.Coherent
  -- a thread that neither marked nor is about to, over the same store
  have hkept : ∀ {t'}, t.marks = none → t'.marks = none →
      Coherent w.store (Marking (w.threads.set p t')) w.flushers w.received
        (w.setStore w.store).written := by
    intro t' ht ht'
    rw [marking_set_none hp ht ht']
    exact Coherent.congr h (fun _ _ => Iff.rfl) fun k hm hk => written_setStore hm hk
  cases t with
  | expireWrite edit =>
    by_cases hquiet : Quiet w.threads
    · simp only [hquiet, decide_true]
      rw [marking_set_none hp rfl rfl]
      unfold World.Coherent at h
      rw [marking_eq_of_quiet hquiet] at h ⊢
      exact h.expireKey edit.key fun k hm hk => written_setStore hm hk
    · simp only [hquiet, decide_false]
      exact hkept rfl rfl
  | change edit =>
    refine (coherent_change h hp (hguard edit rfl)).congr
      (fun _ _ => Iff.rfl) fun k hm hk => written_setStore hm hk
  | mark key op ttlTicks ttiTicks reply =>
    exact Coherent.markDirty h ttlTicks ttiTicks ⟨_, mem_of_getElem? hp, rfl⟩
      (fun k op' hk => marking_of_set rfl hk)
      (fun k op' hk => marking_set_or hp rfl hk)
      fun k hm hk => written_setStore hm hk
  | expireRead look =>
    unfold threadStep
    by_cases hquiet : Quiet w.threads
    · simp only [hquiet, decide_true, if_true]
      unfold World.Coherent at h
      rw [marking_eq_of_quiet hquiet] at h
      have hexpired : Coherent (w.store.expireKeyIfNeeded look.key).1
          (fun _ _ => False) w.flushers w.received
          (w.setStore (w.store.expireKeyIfNeeded look.key).1).written :=
        h.expireKey look.key fun k hm hk => written_setStore hm hk
      rcases hres : w.store.expireKeyIfNeeded look.key with ⟨s, expired⟩
      rw [hres] at hexpired
      cases expired with
      | true | false =>
        rw [marking_set_none hp rfl rfl, marking_eq_of_quiet hquiet]
        exact hexpired
    · simp only [hquiet, decide_false, Bool.false_eq_true, if_false]
      exact hkept rfl rfl
  | look look =>
    unfold threadStep
    simp only
    split
    · exact hkept rfl rfl
    · exact hkept rfl rfl
  | touch key reply =>
    rw [marking_set_none hp rfl rfl]
    exact (Coherent.recordTouch h key).congr (fun _ _ => Iff.rfl)
      fun k hm hk => written_setStore hm hk
  | done reply => exact hkept rfl rfl

/-- The flush that takes a step is the only one. -/
theorem Coherent.flushers_eq {marking : Key → Operation → Prop} {flushers : List Flusher}
    {received : List ObjectFlushRecord} {written : Key → Bool}
    (h : Coherent s marking flushers received written) {f : Flusher}
    (hp : flushers[p]? = some f) : p = 0 ∧ flushers = [f] := by
  have hsingle := h.single
  match flushers, p, hp with
  | [g], 0, hp =>
    cases hp
    exact ⟨rfl, rfl⟩
  | _ :: _ :: _, _, _ => simp at hsingle

theorem coherent_step (h : w.Coherent) {action : Action}
    (hguard : NoCrossing w action) : (worldStep w action).1.Coherent := by
  cases action with
  | call request => exact coherent_call h request
  | thread p =>
    cases hp : w.threads[p]? with
    | none =>
      simp only [worldStep, hp]
      exact h
    | some t =>
      refine coherent_thread h hp ?_
      rintro edit rfl
      simp only [NoCrossing, hp] at hguard
      exact hguard
  | expireKey key =>
    simp only [worldStep]
    split
    next hquiet =>
      unfold World.Coherent at h ⊢
      simp only [World.setStore]
      rw [marking_eq_of_quiet hquiet] at h ⊢
      exact h.expireKey key fun k hm hk => written_setStore hm hk
    next => exact h
  | drain idleTicks maxRecords =>
    simp only [worldStep]
    split
    next hquiet =>
      unfold World.Coherent at h ⊢
      simp only [World.setStore]
      have hnone : w.flushers = [] := hguard
      rw [marking_eq_of_quiet hquiet] at h ⊢
      rw [hnone] at h ⊢
      exact h.drain (drain_spec w.store idleTicks maxRecords) fun k hm hk => written_setStore hm hk
    next => exact h
  | answer p outcome =>
    simp only [worldStep]
    split
    next batch hp =>
      unfold World.Coherent at h ⊢
      obtain ⟨rfl, heq⟩ := h.flushers_eq hp
      rw [heq] at h ⊢
      exact h.answer outcome
    next => exact h
  | finish p =>
    simp only [worldStep]
    split
    next batch accepted hp =>
      split
      next hquiet =>
        unfold World.Coherent at h ⊢
        obtain ⟨rfl, heq⟩ := h.flushers_eq hp
        simp only [World.setStore]
        rw [marking_eq_of_quiet hquiet, heq] at h ⊢
        exact h.finish fun k hm hk => written_setStore hm hk
      next => exact h
    next => exact h

theorem coherent_run {actions : List Action}
    (hguard : Guarded worldStep NoCrossing (World.init hashBuilder) actions) :
    (exec worldStep (World.init hashBuilder) actions).Coherent := by
  refine exec_inv World.Coherent (fun w action h hg => coherent_step h hg) ?_ hguard
  have hnone : Marking (World.init hashBuilder).threads = fun _ _ => False := by
    refine marking_eq_of_quiet ?_
    intro t ht
    cases ht
  unfold World.Coherent
  rw [hnone]
  exact coherent_init hashBuilder

end MemoryFirst.Compat.ObjectThreads
