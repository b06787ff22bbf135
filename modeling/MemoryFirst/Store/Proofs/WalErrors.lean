/-
What the WAL side of a write fails with: a report of corruption, or that
no path is configured. A version conflict or a full collection is never
reported by it, so a write that fails with one has touched nothing.
-/
import MemoryFirst.Store.Proofs.StoreLog

namespace MemoryFirst.Store

open Lib

variable {crc32c : List UInt8 → UInt32}

namespace Wal

/-- An error that reports a corrupt log. -/
def Corruption (e : StoreError) : Prop :=
  ∃ offset kind, e = corrupt offset kind

theorem corruption_corrupt (offset : Nat) (kind : WalCorruptionKind) :
    Corruption (corrupt offset kind) :=
  ⟨offset, kind, rfl⟩

variable {offset : Nat} {e : StoreError}

theorem opOfCode_error {code : Nat} (h : opOfCode offset code = .error e) : Corruption e := by
  unfold opOfCode at h
  split at h
  · cases h
  split at h
  · cases h
  · cases h
    exact corruption_corrupt _ _

variable {bytes : List UInt8}

theorem collectionOfBytes_error (h : collectionOfBytes offset bytes = .error e) : Corruption e := by
  unfold collectionOfBytes at h
  split at h
  · cases h
    exact corruption_corrupt _ _
  split at h
  · cases h
    exact corruption_corrupt _ _
  · cases h

theorem valueOfBytes_error {op : Operation} (h : valueOfBytes offset op bytes = .error e) :
    Corruption e := by
  unfold valueOfBytes at h
  split at h
  · cases h
  split at h
  · cases h
  · cases h
    exact corruption_corrupt _ _

theorem fails_readBytes (offset : Nat) : Fails (readBytes offset) Corruption :=
  (fails_readNat (corruption_corrupt _ _) 4).bind fun len =>
    Fails.ite (Fails.throw (corruption_corrupt _ _)) (fails_takeBytes (corruption_corrupt _ _) len)

theorem fails_readPayload (offset : Nat) : Fails (readPayload offset) Corruption := by
  have hnat := fun k => fails_readNat (corruption_corrupt offset .malformedRecord) k
  refine (hnat 2).bind fun version => Fails.ite (Fails.throw (corruption_corrupt _ _)) ?_
  refine (hnat 8).bind fun lsn => (hnat 8).bind fun recordVersion => ?_
  refine (fails_readBytes offset).bind fun collectionBytes => ?_
  refine (Fails.lift fun _ => collectionOfBytes_error).bind fun collection => ?_
  refine (hnat 1).bind fun code => ?_
  refine (Fails.lift fun _ => opOfCode_error).bind fun op => ?_
  refine (fails_readBytes offset).bind fun key => ?_
  refine (fails_readBytes offset).bind fun valueBytes => ?_
  exact (Fails.lift fun _ => valueOfBytes_error).bind fun value => Fails.pure _

theorem decodePayload_error {payload : List UInt8}
    (h : decodePayload payload offset = .error e) : Corruption e := by
  rcases bind_eq_error.1 h with h | ⟨⟨record, rest⟩, -, h⟩
  · exact fails_readPayload offset payload e h
  dsimp only at h
  split at h
  · cases h
    exact corruption_corrupt _ _
  · cases h

variable {rest : List UInt8}

theorem nextFrame_error {start : Nat} (h : nextFrame crc32c start rest = .error e) :
    Corruption e := by
  unfold nextFrame at h
  split at h
  · cases h
  split at h
  · cases h
    exact corruption_corrupt _ _
  dsimp only at h
  split at h
  · cases h
  split at h
  · cases h
    exact corruption_corrupt _ _
  split at h
  · split at h
    · cases h
    · cases h
      exact corruption_corrupt _ _
  · rcases bind_eq_error.1 h with h | ⟨record, -, h⟩
    · exact decodePayload_error h
    · cases h

/-- A scan whose callback does not fail reports corruption only. -/
theorem scanLoop_error {σ : Type} {note : σ → RawWalRecord → σ}
    {fuel start : Nat} {stats : RawWalReplayStats} {s : σ}
    (h : scanLoop crc32c (fun s r => .ok (note s r)) fuel start rest stats s
      = .error e) : Corruption e := by
  induction fuel generalizing start rest stats s with
  | zero => cases h
  | succ fuel ih =>
    rcases bind_eq_error.1 h with h | ⟨next, -, h⟩
    · exact nextFrame_error h
    cases next with
    | none => cases h
    | some p =>
      obtain ⟨record, recordLen⟩ := p
      dsimp only at h
      split at h
      · cases h
        exact corruption_corrupt _ _
      · exact ih h

theorem openWriter_error {file file' : Option (List UInt8)}
    (h : openWriter crc32c file = (file', .error e)) : Corruption e := by
  unfold openWriter appendStateForPath scanRecordsWithOffsets at h
  cases file with
  | none => cases h
  | some bytes =>
    split at h
    next e' hscan =>
      cases h
      rcases bind_eq_error.1 hscan with hscan | ⟨p, -, hscan⟩
      · exact scanLoop_error hscan
      · cases hscan
    next => cases h

theorem validateFieldLen_error {len : Nat}
    (h : validateFieldLen len = .error e) : Corruption e := by
  unfold validateFieldLen at h
  split at h
  · cases h
    exact corruption_corrupt _ _
  · cases h

variable {r : RawWalRecord}

theorem encodePayload_error (h : encodePayload r = .error e) : Corruption e := by
  obtain ⟨lsn, version, collection, op, key, value⟩ := r
  rcases bind_eq_error.1 h with h | ⟨_, -, h⟩
  · exact validateFieldLen_error h
  rcases bind_eq_error.1 h with h | ⟨_, -, h⟩
  · exact validateFieldLen_error h
  cases value with
  | none =>
    cases op with
    | put =>
      cases h
      exact corruption_corrupt _ _
    | delete => cases h
  | some v =>
    rcases bind_eq_error.1 h with h | ⟨_, -, h⟩
    · exact validateFieldLen_error h
    cases op with
    | put => cases h
    | delete =>
      cases h
      exact corruption_corrupt _ _

theorem emitEncoded_error (h : emitEncoded crc32c r = .error e) : Corruption e := by
  rcases bind_eq_error.1 h with h | ⟨payload, -, h⟩
  · exact encodePayload_error h
  split at h
  · cases h
    exact corruption_corrupt _ _
  · cases h

end Wal

namespace MfsStore

/-- The errors of the WAL side of a write. -/
def WalError (e : StoreError) : Prop :=
  Wal.Corruption e ∨ e = .invalidConfig "wal_path"
    "required for WAL durability modes"

variable {s s' : MfsStore} {e : StoreError}

theorem ensureWriter_error (h : s.ensureWriter crc32c = (s', .error e)) : WalError e := by
  unfold ensureWriter at h
  split at h
  · cases h
  split at h
  · dsimp only at h
    split at h
    next e' hopened =>
      cases h
      exact Or.inl (Wal.openWriter_error (Prod.ext rfl hopened))
    next => cases h
  · cases h
    exact Or.inr rfl

variable {value : Option RawValue} {key : RawKey} {collection : String} {version : DocumentVersion}

theorem appendRawWal_error {sync : Bool}
    (h : s.appendRawWal crc32c collection key value version sync
      = (s', .error e)) : WalError e := by
  unfold appendRawWal at h
  split at h
  next hensure =>
    cases h
    exact ensureWriter_error hensure
  next =>
    dsimp only at h
    split at h
    next e' hresult =>
      cases h
      left
      cases value with
      | none =>
        simp only [Wal.appendDeleteVersioned, Wal.appendRecord] at hresult
        split at hresult
        next hemit =>
          cases hresult
          exact Wal.emitEncoded_error hemit
        next => cases hresult
      | some v =>
        simp only [Wal.appendPutVersioned, Wal.appendRecord] at hresult
        split at hresult
        next hemit =>
          cases hresult
          exact Wal.emitEncoded_error hemit
        next => cases hresult
    next => split at h <;> cases h

theorem acknowledgeWrite_error {mode : DurabilityMode}
    (h : s.acknowledgeWrite crc32c mode collection key value version
      = (s', .error e)) : WalError e := by
  cases hlogged : mode.logged with
  | false =>
    obtain ⟨-, ack, heq, -⟩ := acknowledgeWrite_unlogged h hlogged
    cases heq
  | true =>
    rw [acknowledgeWrite_logged hlogged] at h
    obtain ⟨-, hresult⟩ := Prod.mk.inj h
    cases happend : s.appendRawWal crc32c collection key value version mode.syncs with
    | mk s₁ r =>
      rw [happend] at hresult
      cases r with
      | error e' =>
        cases hresult
        exact appendRawWal_error happend
      | ok lsn => cases hresult

/-- A write that fails with an error that is not the log's has touched
nothing. -/
theorem writeWithHooks_refused {π : Type} {options : WriteOptions}
    {preflight : Option RawValue → DocumentVersion → StoreResult π}
    (h : s.writeWithHooks crc32c collection key value options preflight = (s', .error e))
    (hother : ¬ WalError e) : s' = s := by
  cases writeWithHooks_cases h with
  | refused => rfl
  | unlogged hadm hack => exact absurd (acknowledgeWrite_error hack) hother

-- ===== capacity

open Core.ConcurrentMap

/-- A table that nothing is removed from refines a finite map and tells
in advance which inserts find a slot. A raw write that reports a full
collection has changed nothing, the log included. -/
theorem full_before_append {K V : Type} [DecidableEq K] [BEq V] (hash : K → UInt64) (cap : Nat)
    (calls : List (Call K V))
    (hcalls : ∀ c ∈ calls, (∃ k v, c = .insert k v) ∨ ∃ k, c = .get k) :
    RunRefines hash cap calls
    ∧ (∀ k v, (Lib.exec call (withHasherAndCapacity hash cap) calls).canInsertOrReplace k = true
      ↔ ((Lib.exec call (withHasherAndCapacity hash cap) calls).insert k v).2 ≠ .full)
    ∧ ∀ (π : Type) (crc32c : List UInt8 → UInt32) (s s' : MfsStore) (collection name : String)
        (key : RawKey) (value : Option RawValue) (options : WriteOptions)
        (preflight : Option RawValue → DocumentVersion → StoreResult π),
      s.writeWithHooks crc32c collection key value options preflight
        = (s', .error (.collectionCapacityFull name)) → s' = s := by
  refine ⟨runRefines_of_guarded hash cap ((insertOnly_new hash cap).guarded hcalls),
    canInsertOrReplace_iff _, ?_⟩
  intro π crc32c s s' collection name key value options preflight h
  refine writeWithHooks_refused h ?_
  rintro (⟨_, _, hc⟩ | hc)
  · cases hc
  · cases hc

theorem full_before_append_example : RunRefines (fun _ : Nat => 0) 8 [.insert 1 10, .get 1] :=
  (full_before_append (fun _ => 0) 8 [.insert 1 10, .get 1] (by simp)).1

end MfsStore

end MemoryFirst.Store
