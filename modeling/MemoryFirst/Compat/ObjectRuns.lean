/-
The mutable object store under calls that are executed one after another:
no dirty write is lost.

# What is tracked

Beside the store, a world has the records the backend accepted and, for
each key, the version it was last marked with (`lastVersion`): the one in
its metadata, or the one these had before a flush took them out.

# The argument

Every command and every sweep is a sequence of three moves (`Moves`):
store a value and mark a put, remove a value and mark a delete, touch. A
move keeps values and live metadata together and queues the entry of its
mark. A flush moves entries between the queues, its own hands and the
backend; the tombstones it takes out were delivered, and a tombstone has
no value, so it changes none.
-/
import MemoryFirst.Compat.Proofs.MutableObjectStore
import MemoryFirst.Lib.Runs

namespace MemoryFirst.Compat.ObjectRuns

open Lib Store Core MfsMutableObjectStore

variable {ε : Type} {s s' : MfsMutableObjectStore} {k : Key}

-- ===== the specification

inductive Call (ε : Type) where
  /-- Any command: `ObjectCommands.lean` has all of them as requests. -/
  | request (r : Request)
  | expire (order : VisitOrder)
  | flushIdle (backend : List ObjectFlushRecord → Except ε Unit) (idleTicks maxRecords : Nat)

def Call.isFlush : Call ε → Bool
  | .flushIdle _ _ _ => true
  | _ => false

/-- The records of a flush that the backend accepted. -/
def acceptedOf (handed : Option (List ObjectFlushRecord)) : Except ε Nat → List ObjectFlushRecord
  | .ok _ => handed.getD []
  | .error _ => []

/-- What a call does to the store, and what the backend accepts in it. -/
def perform (s : MfsMutableObjectStore) : Call ε → MfsMutableObjectStore × List ObjectFlushRecord
  | .request r => ((s.request r).1, [])
  | .expire order => ((s.expire order).1, [])
  | .flushIdle backend idleTicks maxRecords =>
    let (s, handed, reply) := s.flushIdle backend idleTicks maxRecords
    (s, acceptedOf handed reply)

structure World where
  store : MfsMutableObjectStore
  accepted : List ObjectFlushRecord
  lastVersion : Key → Option Nat

variable (hashBuilder : Key → UInt64)

def World.init : World :=
  ⟨withHasher hashBuilder, [], fun _ => none⟩

def step (w : World) (call : Call ε) : World × Unit :=
  let (store, records) := perform w.store call
  (⟨store, w.accepted ++ records, fun k =>
    match store.currentMeta k with
    | some m => some m.version
    | none => w.lastVersion k⟩, ())

/-- A key has a value exactly when it has live metadata. -/
def Present (s : MfsMutableObjectStore) : Prop :=
  ∀ k, (s.value? k).isSome ↔ ∃ m, s.currentMeta k = some m ∧ m.tombstone = false

-- ===== moves

/-- What commands and sweeps are made of. -/
inductive Moves : MfsMutableObjectStore → MfsMutableObjectStore → Prop where
  | refl (s : MfsMutableObjectStore) : Moves s s
  | store (s : MfsMutableObjectStore) (key : Key) (value : MutableObjectValue) (ttl tti : Nat) :
      Moves s ((s.insertValue key value).markDirty key .put ttl tti).1
  | remove (s : MfsMutableObjectStore) (key : Key) :
      Moves s ((s.removeValue key).markDirtyDelete key).1
  | touch (s : MfsMutableObjectStore) (key : Key) : Moves s (s.recordTouch key)
  | trans {s₁ s₂ s₃ : MfsMutableObjectStore} : Moves s₁ s₂ → Moves s₂ s₃ → Moves s₁ s₃

section

variable (s : MfsMutableObjectStore)

theorem moves_expireKeyIfNeeded (key : Key) : Moves s (s.expireKeyIfNeeded key).1 := by
  unfold expireKeyIfNeeded
  split
  · exact .refl s
  · split
    · exact .refl s
    · exact .remove s key

theorem moves_beforeEdit (edit : Edit) : Moves s (s.beforeEdit edit) := by
  unfold beforeEdit
  split
  · exact moves_expireKeyIfNeeded s edit.key
  · exact .refl s

theorem moves_write (edit : Edit) : Moves s (s.write edit).1 := by
  refine (moves_beforeEdit s edit).trans ?_
  unfold write
  generalize s.beforeEdit edit = s
  simp only
  split
  · exact .refl s
  · exact .refl s
  · exact .store s _ _ _ _
  · exact .remove s _

theorem moves_read (look : Look) : Moves s (s.read look).1 := by
  have hexpire := moves_expireKeyIfNeeded s look.key
  unfold MfsMutableObjectStore.read
  generalize s.expireKeyIfNeeded look.key = r at hexpire ⊢
  obtain ⟨s₁, expired⟩ := r
  cases expired with
  | true => exact hexpire
  | false =>
    refine hexpire.trans ?_
    simp only
    split
    · exact .touch s₁ _
    · exact .refl s₁

theorem moves_request (r : Request) : Moves s (s.request r).1 := by
  cases r with
  | done reply => exact .refl s
  | write edit => exact moves_write s edit
  | read look => exact moves_read s look

end

/-- The loop of the sweep, from any count. -/
theorem moves_expireKeys (keys : List Key) (s : MfsMutableObjectStore) (expired : Nat) :
    Moves s (keys.foldl (fun (s, expired) key =>
      let (s, b) := s.expireKeyIfNeeded key
      (s, if b then expired + 1 else expired)) (s, expired)).1 := by
  induction keys generalizing s expired with
  | nil => exact .refl s
  | cons key keys ih => exact (moves_expireKeyIfNeeded s key).trans (ih _ _)

theorem moves_expire (s : MfsMutableObjectStore) (order : VisitOrder) :
    Moves s (s.expire order).1 :=
  moves_expireKeys _ s 0

variable {call : Call ε}

/-- A call that is no flush only moves, and nothing is accepted in it. -/
theorem perform_moves (hcall : call.isFlush = false) :
    Moves s (perform s call).1 ∧ (perform s call).2 = [] := by
  cases call with
  | request r => exact ⟨moves_request s r, rfl⟩
  | expire order => exact ⟨moves_expire s order, rfl⟩
  | flushIdle backend idleTicks maxRecords => cases hcall

-- ===== what moves keep

theorem Moves.present (h : Moves s s') (hp : Present s) : Present s' := by
  induction h with
  | refl s => exact hp
  | store s key value ttl tti =>
    intro k
    rw [value?_markDirty]
    by_cases hk : k = key
    · rw [hk, value?_insertValue_self, currentMeta_markDirty_self]
      simp [marked]
    · rw [value?_insertValue_ne value hk, currentMeta_markDirty_ne hk]
      exact hp k
  | remove s key =>
    intro k
    rw [markDirtyDelete, value?_markDirty]
    by_cases hk : k = key
    · rw [hk, value?_removeValue_self, currentMeta_markDirty_self]
      simp [marked]
    · rw [value?_removeValue_ne hk, currentMeta_markDirty_ne hk]
      exact hp k
  | touch s key =>
    intro k
    rw [value?_recordTouch, hp k]
    rcases currentMeta_recordTouch s key k with h | ⟨m, hm, h⟩
    · rw [h]
    · rw [h, hm]
      simp
  | trans _ _ ih₁ ih₂ => exact ih₂ (ih₁ hp)

theorem Moves.queued {accepted : List ObjectFlushRecord} (h : Moves s s')
    (hq : s.Queued [] accepted) : s'.Queued [] accepted := by
  induction h with
  | refl s => exact hq
  | store s key value ttl tti => exact (hq.insertValue key value).mark key .put ttl tti
  | remove s key => exact (hq.removeValue key).mark key .delete 0 0
  | touch s key => exact hq.recordTouch key
  | trans _ _ ih₁ ih₂ => exact ih₂ (ih₁ hq)

theorem Moves.clock_le (h : Moves s s') : s.clock ≤ s'.clock := by
  induction h with
  | refl s => omega
  | store _ _ _ _ _ | remove _ _ => exact Nat.le_succ _
  | touch s key =>
    rw [clock_recordTouch]
    omega
  | trans _ _ ih₁ ih₂ => exact ih₁.trans ih₂

/-- Metadata are not taken away, and versions do not go back below what
the clock showed. -/
theorem Moves.meta_after (h : Moves s s') (k : Key) : ((∀ m, s.currentMeta k = some m →
        ∃ m', s'.currentMeta k = some m' ∧ m'.version = m.version)
      ∧ s'.value? k = s.value? k)
    ∨ ∃ m', s'.currentMeta k = some m' ∧ s.clock ≤ m'.version := by
  induction h with
  | refl s => exact Or.inl ⟨fun m hm => ⟨m, hm, rfl⟩, rfl⟩
  | store s key value ttl tti =>
    by_cases hk : k = key
    · rw [hk]
      exact Or.inr ⟨_, currentMeta_markDirty_self, Nat.le_refl _⟩
    · rw [value?_markDirty, currentMeta_markDirty_ne hk]
      exact Or.inl ⟨fun m hm => ⟨m, hm, rfl⟩, value?_insertValue_ne value hk⟩
  | remove s key =>
    by_cases hk : k = key
    · rw [hk]
      exact Or.inr ⟨_, currentMeta_markDirty_self, Nat.le_refl _⟩
    · rw [markDirtyDelete, value?_markDirty, currentMeta_markDirty_ne hk]
      exact Or.inl ⟨fun m hm => ⟨m, hm, rfl⟩, value?_removeValue_ne hk⟩
  | touch s key =>
    refine Or.inl ⟨fun m hm => ?_, value?_recordTouch s key k⟩
    rcases currentMeta_recordTouch s key k with h | ⟨m₀, hm₀, h⟩
    · exact ⟨m, h.trans hm, rfl⟩
    · rw [hm₀] at hm
      cases hm
      exact ⟨_, h, rfl⟩
  | trans h₁ h₂ ih₁ ih₂ =>
    rcases ih₂ with ⟨hmeta₂, hvalue₂⟩ | ⟨m', hm', hle⟩
    · rcases ih₁ with ⟨hmeta₁, hvalue₁⟩ | ⟨m, hm, hle⟩
      · refine Or.inl ⟨fun m hm => ?_, hvalue₂.trans hvalue₁⟩
        obtain ⟨m₁, hm₁, hv₁⟩ := hmeta₁ m hm
        obtain ⟨m₂, hm₂, hv₂⟩ := hmeta₂ m₁ hm₁
        exact ⟨m₂, hm₂, hv₂.trans hv₁⟩
      · obtain ⟨m₂, hm₂, hv₂⟩ := hmeta₂ m hm
        exact Or.inr ⟨m₂, hm₂, hv₂ ▸ hle⟩
    · exact Or.inr ⟨m', hm', h₁.clock_le.trans hle⟩

-- ===== flush

/-- A flush drains, and finishes by the answer of the backend; without
records it finishes as if they had been accepted. -/
theorem flushIdle_cases (backend : List ObjectFlushRecord → Except ε Unit)
    (idleTicks maxRecords : Nat) :
    ∃ s₁ b accepted, Drained s idleTicks s₁ b ∧ perform s (.flushIdle backend idleTicks maxRecords)
        = (s₁.finish b accepted, if accepted then b.records else []) := by
  have hd := drain_spec s idleTicks maxRecords
  rcases hdrain : s.drain idleTicks maxRecords with ⟨s₁, b⟩
  rw [hdrain] at hd
  simp only [perform, flushIdle, hdrain]
  split
  next hempty =>
    have hflushed : b.flushed = [] := by
      refine List.eq_nil_iff_forall_not_mem.2 fun e he => ?_
      obtain ⟨-, r, hr, -⟩ := hd.flushed e he
      rw [hempty] at hr
      cases hr
    refine ⟨s₁, b, true, hd, ?_⟩
    simp [finish, hflushed, hempty, acceptedOf, cleanupAfterFlush]
  next =>
    cases backend b.records with
    | ok reply => exact ⟨s₁, b, true, hd, rfl⟩
    | error e => exact ⟨s₁, b, false, hd, rfl⟩

theorem Present.sound (h : Present s) : s.Sound :=
  fun k m hm htomb => (h k).2 ⟨m, hm, htomb⟩

theorem Present.of_cleans {entries : List (DirtyEntry Key)} (h : Present s)
    (hc : s.Cleans entries k) : s.value? k = none := by
  obtain ⟨m, hm, htomb, -⟩ := hc
  cases hv : s.value? k with
  | none => rfl
  | some value =>
    obtain ⟨m', hm', hlive⟩ := (h k).1 (hv ▸ rfl)
    rw [hm] at hm'
    cases hm'
    rw [htomb] at hlive
    cases hlive

/-- With values and metadata together, a flush changes no value. -/
theorem value?_flush (hp : Present s) (backend : List ObjectFlushRecord → Except ε Unit)
    (idleTicks maxRecords : Nat) (k : Key) :
    (perform s (.flushIdle backend idleTicks maxRecords)).1.value? k = s.value? k := by
  obtain ⟨s₁, b, accepted, hd, heq⟩ :=
    flushIdle_cases (s := s) backend idleTicks maxRecords
  rw [heq]
  rcases finish_data s₁ b accepted k with ⟨hv, -⟩ | ⟨-, hclean, hv, -⟩
  · exact hv.trans (hd.same.value k)
  · rw [hv]
    exact (hp.of_cleans (hclean.congr (hd.same.metadata k).symm)).symm

-- ===== invariant

/-- What holds in every world: each version a key was last marked with is
queued or accepted. -/
structure Kept (w : World) : Prop where
  present : Present w.store
  queued : w.store.Queued [] w.accepted
  tracked : ∀ k m, w.store.currentMeta k = some m → w.lastVersion k = some m.version
  /-- A key whose metadata are gone was delivered. -/
  gone : ∀ k v, w.store.currentMeta k = none → w.lastVersion k = some v →
    ∃ r ∈ w.accepted, r.key = k ∧ r.version = v

theorem kept_init : Kept (World.init hashBuilder) := by
  refine ⟨fun k => ?_, fun k m hm => ?_, fun k m hm => ?_, fun k v _ hv => ?_⟩
  · simp [World.init, withHasher, value?, currentMeta]
  · simp [World.init, withHasher, currentMeta] at hm
  · simp [World.init, withHasher, currentMeta] at hm
  · cases hv

variable {w : World}

theorem kept_moves (h : Kept w) (hcall : call.isFlush = false) : Kept (step w call).1 := by
  obtain ⟨hmoves, hnone⟩ := perform_moves (s := w.store) hcall
  unfold step
  generalize perform w.store call = p at hmoves hnone
  obtain ⟨store, records⟩ := p
  simp only at hmoves hnone ⊢
  rw [hnone, List.append_nil]
  refine ⟨hmoves.present h.present, hmoves.queued h.queued, fun k m hm => ?_, fun k v hm hv => ?_⟩
  · simp only at hm ⊢
    rw [hm]
  · simp only at hm
    simp only [hm] at hv
    -- metadata that are missing now were missing before
    have hbefore : w.store.currentMeta k = none := by
      cases hm₀ : w.store.currentMeta k with
      | none => rfl
      | some m₀ =>
        rcases hmoves.meta_after k with ⟨hkeep, -⟩ | ⟨m', hm', -⟩
        · obtain ⟨m', hm', -⟩ := hkeep m₀ hm₀
          rw [hm] at hm'
          cases hm'
        · rw [hm] at hm'
          cases hm'
    exact h.gone k v hbefore hv

theorem kept_flush (h : Kept w) (backend : List ObjectFlushRecord → Except ε Unit)
    (idleTicks maxRecords : Nat) :
    Kept (step w (.flushIdle backend idleTicks maxRecords)).1 := by
  have hvalue := value?_flush h.present backend idleTicks maxRecords
  obtain ⟨s₁, b, accepted, hd, heq⟩ :=
    flushIdle_cases (s := w.store) backend idleTicks maxRecords
  unfold step
  rw [heq] at hvalue ⊢
  have hdata := finish_data s₁ b accepted
  have hheld := h.queued.drain h.present.sound hd
  refine ⟨fun k => ?_, ?_, fun k m hm => ?_, fun k v hm hv => ?_⟩
  · simp only
    rw [hvalue k, h.present k]
    rcases hdata k with ⟨-, hm⟩ | ⟨-, hclean, -, hm⟩
    · rw [hm, hd.same.metadata]
    · obtain ⟨m, hm', htomb, -⟩ := hclean
      rw [hm, ← hd.same.metadata, hm']
      simp [htomb]
  · cases accepted with
    | false => exact (hheld.refuse).of_accepted (by simp)
    | true =>
      refine (hheld.of_accepted (List.subset_append_left ..)).accept ?_
      intro e he
      obtain ⟨r, hr, hrest⟩ := hd.covers he
      exact ⟨r, List.mem_append_right _ hr, hrest⟩
  · simp only at hm ⊢
    rw [hm]
  simp only at hm ⊢
  simp only [hm] at hv
  rcases hdata k with ⟨-, hm'⟩ | ⟨rfl, hclean, -, -⟩
  · rw [hm', hd.same.metadata] at hm
    obtain ⟨r, hr, hrest⟩ := h.gone k v hm hv
    exact ⟨r, List.mem_append_left _ hr, hrest⟩
  obtain ⟨m, hm', -, e, he, hkey, -, hversion⟩ := hclean
  rw [hd.same.metadata] at hm'
  have hlast := h.tracked k m hm'
  rw [hv] at hlast
  cases hlast
  obtain ⟨r, hr, hrkey, hrversion⟩ := hd.covers he
  exact ⟨r, List.mem_append_right _ hr, hrkey.trans hkey, hrversion.trans hversion⟩

theorem kept_step (h : Kept w) (call : Call ε) : Kept (step w call).1 := by
  cases call with
  | request _ | expire _ => exact kept_moves h rfl
  | flushIdle backend idleTicks maxRecords =>
    exact kept_flush h backend idleTicks maxRecords

theorem kept_run (calls : List (Call ε)) : Kept (exec step (World.init hashBuilder) calls) :=
  exec_inv Kept (fun _ call h _ => kept_step h call) (kept_init hashBuilder) (guarded_true _ calls)

-- ===== result

end MemoryFirst.Compat.ObjectRuns
