/-
`mfs-compat/src/object_store.rs`: the values the mutable object store
changes in place, and the errors of its commands.

A score is an `f64` by its bits; scored members are ordered by
`f64::total_cmp` and then by the member. A list is a `VecDeque` as a
list. Indexes are computed in `i128` in the source and in `Int` here.
-/
import MemoryFirst.Store.MfsValue

namespace MemoryFirst.Compat

open Lib Store

/-- `ObjectStoreError`; `CapacityFull` is not one of this store's. -/
inductive ObjectStoreError where
  | wrongType (expected : String) (actual : ValueTag)
  | invalidValue (message : String)
  deriving DecidableEq, Repr

/-- `wrong_type_tag`, and `wrong_type` of a value by its tag. -/
def wrongTypeTag (expected : String) (actual : ValueTag) : ObjectStoreError :=
  .wrongType expected actual

-- ===== sorted sets

structure ScoredMember where
  score : UInt64
  member : List UInt8
  deriving DecidableEq, Repr

/-- The place of a float among all floats in the order of `total_cmp`:
a negative one is the lower the larger its bits are. -/
def totalRank (bits : UInt64) : Nat :=
  if bits.toNat < 2 ^ 63 then 2 ^ 63 + bits.toNat
  else 2 ^ 64 - 1 - bits.toNat

theorem totalRank_inj {a b : UInt64} (h : totalRank a = totalRank b) : a = b := by
  have ha : a.toNat < 2 ^ 64 := a.toNat_lt
  have hb : b.toNat < 2 ^ 64 := b.toNat_lt
  apply UInt64.toNat_inj.1
  unfold totalRank at h
  split at h <;> split at h <;> omega

namespace ScoredMember

instance : LT ScoredMember where
  lt a b := totalRank a.score < totalRank b.score
    ∨ totalRank a.score = totalRank b.score ∧ a.member < b.member

instance : DecidableLT ScoredMember := fun _ _ =>
  inferInstanceAs (Decidable (_ ∨ _ ∧ _))

instance : IsTrans ScoredMember fun a b => a < b where
  trans a b c hab hbc := by
    rcases hab with hab | ⟨hab, hm⟩
    · rcases hbc with hbc | ⟨hbc, -⟩
      · exact Or.inl (Nat.lt_trans hab hbc)
      · exact Or.inl (hbc ▸ hab)
    · rcases hbc with hbc | ⟨hbc, hm'⟩
      · exact Or.inl (hab ▸ hbc)
      · exact Or.inr ⟨hab.trans hbc, List.lt_trans hm hm'⟩

instance : Std.Trichotomous fun a b : ScoredMember => a < b where
  trichotomous a b hab hba := by
    have hrank : totalRank a.score = totalRank b.score :=
      Nat.le_antisymm (Nat.le_of_not_lt fun h => hba (Or.inl h))
        (Nat.le_of_not_lt fun h => hab (Or.inl h))
    have hmember : a.member = b.member :=
      Std.Trichotomous.trichotomous _ _ (fun h => hab (Or.inr ⟨hrank, h⟩))
        (fun h => hba (Or.inr ⟨hrank.symm, h⟩))
    cases a
    cases b
    simp only at hrank hmember
    rw [totalRank_inj hrank, hmember]

end ScoredMember

structure MutableSortedSet where
  byMember : SortedMap (List UInt8) UInt64
  byScore : SortedMap ScoredMember Unit
  deriving DecidableEq

/-- `inclusive_range_bounds`: positions from the front, or from the end
where negative, cut to the collection. -/
def inclusiveRangeBounds (len : Nat) (start stop : Int64) : Option (Nat × Nat) :=
  if len = 0 then none
  else
    let start : Int := if start.toInt < 0 then len + start.toInt
      else start.toInt
    let stop : Int := if stop.toInt < 0 then len + stop.toInt
      else stop.toInt
    let start := if start < 0 then 0 else start
    if stop < 0 ∨ len ≤ start then none
    else
      let stop := if len ≤ stop then (len : Int) - 1 else stop
      if stop < start then none else some (start.toNat, stop.toNat)

/-- `resolve_index`. -/
def resolveIndex (len : Nat) (index : Int64) : Option Nat :=
  if len = 0 then none
  else
    let index : Int := if index.toInt < 0 then len + index.toInt
      else index.toInt
    if index < 0 ∨ len ≤ index then none else some index.toNat

/-- The items between two positions, both included. -/
def rangeOf {α : Type} (items : List α) (start stop : Int64) : List α :=
  match inclusiveRangeBounds items.length start stop with
  | none => []
  | some (start, stop) => (items.drop start).take (stop - start + 1)

namespace MutableSortedSet

def fromEntries (entries : List SortedSetEntry) : MutableSortedSet :=
  let byMember := SortedMap.empty.insertMany (entries.map fun entry => (entry.member, entry.score))
  ⟨byMember, SortedMap.empty.insertMany (byMember.entries.map fun e => (⟨e.2, e.1⟩, ()))⟩

variable (s : MutableSortedSet)

def toEntries : List SortedSetEntry :=
  s.byScore.keys.map fun entry => ⟨entry.score, entry.member⟩

variable (member : List UInt8)

def insert (score : UInt64) : MutableSortedSet :=
  let byScore := match s.byMember.find? member with
    | some old => s.byScore.erase ⟨old, member⟩
    | none => s.byScore
  ⟨s.byMember.insert member score, byScore.insert ⟨score, member⟩ ()⟩

/-- Without the member, if it was there. -/
def remove : Option MutableSortedSet :=
  (s.byMember.find? member).map fun score =>
    ⟨s.byMember.erase member, s.byScore.erase ⟨score, member⟩⟩

def score : Option UInt64 :=
  s.byMember.find? member

def range (start stop : Int64) : List (List UInt8) :=
  (rangeOf s.byScore.keys start stop).map ScoredMember.member

def len : Nat := s.byMember.size

end MutableSortedSet

-- ===== values

inductive MutableObjectValue where
  | list (values : List (List UInt8))
  | hash (fields : Fields)
  | set (members : Members)
  | sortedSet (entries : MutableSortedSet)
  | direct (value : MfsValue)
  deriving DecidableEq

def validateSortedSetEntries (entries : List SortedSetEntry) : Except ObjectStoreError Unit :=
  failIf (∃ entry ∈ entries, ¬ f64IsFinite entry.score)
    (.invalidValue "sorted set scores must be finite")

def validateValue : MfsValue → Except ObjectStoreError Unit
  | .sortedSet entries => validateSortedSetEntries entries
  | _ => .ok ()

namespace MutableObjectValue

/-- The value in the shape it is changed in. -/
def ofValue : MfsValue → MutableObjectValue
  | .list values => .list values
  | .hash fields => .hash fields
  | .set members => .set members
  | .sortedSet entries => .sortedSet (.fromEntries entries)
  | other => .direct other

def fromMfsValue (value : MfsValue) : Except ObjectStoreError MutableObjectValue := do
  validateValue value
  return ofValue value

def toMfsValue : MutableObjectValue → MfsValue
  | .list values => .list values
  | .hash fields => .hash fields
  | .set members => .set members
  | .sortedSet entries => .sortedSet entries.toEntries
  | .direct value => value

def tag : MutableObjectValue → ValueTag
  | .list _ => .list
  | .hash _ => .hash
  | .set _ => .set
  | .sortedSet _ => .sortedSet
  | .direct value => value.tag

end MutableObjectValue

end MemoryFirst.Compat
