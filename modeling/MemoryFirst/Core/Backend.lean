/-
What a flush backend sees: the records of the batches it accepted, in
order.

`FlushBackend` asks implementations to be version-aware, since a store can
hand the same records over again. `versionAware` is such a backend: per
key it keeps the record with the highest version and ignores one whose
version is not above it. Fed with versions that increase per key it holds
the last record delivered.
-/
import MemoryFirst.Lib.History
import MemoryFirst.Core.WriteBehind

namespace MemoryFirst.Core

open Lib Function List

variable {K V : Type}

/-- Per key, each record has a higher version than those before it. -/
def Increasing (records : List (FlushRecord K V)) : Prop :=
  records.Pairwise fun a b => a.key = b.key → a.version < b.version

variable [DecidableEq K]

instance (records : List (FlushRecord K V)) : Decidable (Increasing records) :=
  inferInstanceAs (Decidable (List.Pairwise _ _))

variable (records : List (FlushRecord K V))

/-- The last record of a key. -/
def lastDelivered (key : K) : Option (FlushRecord K V) :=
  lastOf FlushRecord.key records key

/-- A backend that ignores a record whose version is not above the one it
stored. -/
def keepNewest (stored : K → Option (FlushRecord K V))
    (record : FlushRecord K V) : K → Option (FlushRecord K V) :=
  match stored record.key with
  | some old =>
    if old.version < record.version then
      update stored record.key (some record)
    else stored
  | none => update stored record.key (some record)

def versionAware : K → Option (FlushRecord K V) :=
  records.foldl keepNewest fun _ => none

variable {records : List (FlushRecord K V)}

/-- A backend fed with increasing versions holds the last record. -/
theorem Increasing.versionAware_eq (h : Increasing records) :
    versionAware records = lastDelivered records := by
  induction records using reverseRecOn with
  | nil => rfl
  | append_singleton records r ih =>
    obtain ⟨hold, -, hlast⟩ := pairwise_append.1 h
    have hkeep : versionAware (records ++ [r])
        = update (lastDelivered records) r.key (some r) := by
      unfold versionAware
      rw [foldl_append]
      show keepNewest (versionAware records) r = _
      rw [ih hold]
      unfold keepNewest
      split
      next old hstored =>
        obtain ⟨hmem, hkey⟩ := lastOf_mem hstored
        rw [if_pos (hlast old hmem r (mem_singleton.2 rfl) hkey)]
      next => rfl
    funext k
    rw [hkeep]
    show _ = lastOf FlushRecord.key (records ++ [r]) k
    rw [lastOf_concat]
    by_cases hk : r.key = k
    · rw [if_pos hk, ← hk, update_self]
    · rw [if_neg hk, update_of_ne (Ne.symm hk)]
      rfl

/-- Where versions increase, a record with the highest version of its key
is the last one. -/
theorem Increasing.last_eq (h : Increasing records) {r : FlushRecord K V} (hr : r ∈ records)
    (hmax : ∀ a ∈ records, a.key = r.key → a.version ≤ r.version) :
    lastDelivered records r.key = some r := by
  obtain ⟨last, hlast⟩ := exists_lastOf FlushRecord.key hr
  refine hlast.trans (congrArg some ?_)
  obtain ⟨hmem, hkey⟩ := lastOf_mem hlast
  have hle := hmax last hmem hkey
  rcases lastOf_related h hr hlast with heq | hlt
  · exact heq.symm
  · omega

end MemoryFirst.Core
