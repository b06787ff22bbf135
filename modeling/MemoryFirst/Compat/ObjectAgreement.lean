/-
The two object stores side by side: the one that replaces whole values
and the one that changes them in place.

# What is expected

Without expiry, flushes and a limit of capacity the stores are told apart
by their version numbers only.

# What happens

`MfsObjectStore::try_put` stores the entries of a sorted set as they are
given, where `MfsMutableObjectStore` brings them in order and keeps the
last score of each member, as `set_sorted_set` does in both stores. The
stores agree at every point of exactly the runs whose puts of sorted sets
are in order already (`stores_agree_iff`).

# The argument

`Agrees` relates the stores by the values they show. A sorted set that is
changed in place has its members in the order of their scores
(`MutableSortedSet.Exact`), so that what it shows is the sorted list the
other store makes of its scores. A command and its counterpart are
`Alike` if on values so related they reply alike and leave values so
related; this is proved per family.
-/
import MemoryFirst.Compat.ObjectStore
import MemoryFirst.Compat.Proofs.MutableObjectStore
import MemoryFirst.Compat.Proofs.SchemaStore

namespace MemoryFirst.Compat

open Lib Store Core MutableObjectValue SortedMap BoxedLens MfsMutableObjectStore WriteBehindCache
open MutableSortedSet MfsObjectStore Function
open List (mem_map map_map)

instance : Std.Irrefl fun a b : ScoredMember => a < b where
  irrefl a h := by
    rcases h with h | ⟨-, h⟩
    · exact Nat.lt_irrefl _ h
    · exact List.lt_irrefl _ h

-- ===== sorted sets

/-- The members of a map by their scores. -/
theorem find?_scored (scores : SortedMap (List UInt8) UInt64)
    (e : ScoredMember) : (scored scores).find? e = some ()
      ↔ scores.find? e.member = some e.score := by
  unfold scored
  rw [find?_insertMany (f := fun _ => some ()) fun _ _ => rfl, find?_eq_some]
  have hmem : e ∈ (scores.entries.map fun e =>
      ((⟨e.2, e.1⟩ : ScoredMember), ())).map Prod.fst
      ↔ (e.member, e.score) ∈ scores.entries := by
    rw [map_map, mem_map]
    constructor
    · intro h
      obtain ⟨x, hx, rfl⟩ := h
      exact hx
    · intro h
      exact ⟨_, h, rfl⟩
  rw [← hmem]
  split
  next h => exact iff_of_true rfl h
  next h => exact iff_of_false (fun he => by cases he) h

/-- Membership in a set, from its elements. -/
theorem eq_scored {set : SortedMap ScoredMember Unit} {scores : SortedMap (List UInt8) UInt64}
    (h : ∀ e, set.find? e = some () ↔ scores.find? e.member = some e.score) :
    set = scored scores := by
  refine ext_find? fun e => Option.ext fun u => ?_
  cases u
  rw [h, find?_scored]

namespace MutableSortedSet

/-- The order by score has the members of the map, and no others. -/
def Exact (s : MutableSortedSet) : Prop := s.byScore = scored s.byMember

variable {s : MutableSortedSet}

theorem Exact.toEntries (h : s.Exact) : s.toEntries = sortEntries s.byMember := by
  unfold MutableSortedSet.toEntries sortEntries
  rw [h]

theorem Exact.mem (h : s.Exact) {e : SortedSetEntry} :
    e ∈ s.toEntries ↔ s.byMember.find? e.member = some e.score := by
  rw [h.toEntries, ← find?_scored s.byMember ⟨e.score, e.member⟩, find?_eq_some]
  simp only [sortEntries, keys, map_map, mem_map]
  constructor
  · intro hmem
    obtain ⟨x, hx, rfl⟩ := hmem
    exact hx
  · intro hmem
    exact ⟨_, hmem, rfl⟩

theorem exact_fromEntries (entries : List SortedSetEntry) : (fromEntries entries).Exact := rfl

section

variable (h : s.Exact)

include h

theorem Exact.insert (member : List UInt8) (score : UInt64) : (s.insert member score).Exact := by
  apply eq_scored
  intro e
  have hold := find?_scored s.byMember
  rw [← h] at hold
  have hfind : (s.insert member score).byMember.find? e.member
      = if e.member = member then some score
        else s.byMember.find? e.member := find?_insert ..
  have hscore : (s.insert member score).byScore.find? e = if e = ⟨score, member⟩ then some ()
        else if s.byMember.find? member = some e.score ∧ e.member = member
          then none else s.byScore.find? e := by
    unfold MutableSortedSet.insert
    rw [find?_insert]
    cases s.byMember.find? member with
    | none => simp
    | some old =>
      rw [find?_erase]
      obtain ⟨score', member'⟩ := e
      simp only [ScoredMember.mk.injEq, Option.some.injEq, eq_comm (a := score')]
  rw [hfind, hscore]
  by_cases hm : e.member = member
  · by_cases hs : score = e.score
    · have he : e = ⟨score, member⟩ := by rw [hs, ← hm]
      simp [he]
    have he : e ≠ ⟨score, member⟩ := fun he => hs (by rw [he])
    rw [if_neg he, if_pos hm]
    split
    next => simp [hs]
    next hno =>
      rw [hold, hm]
      simp only [hm, and_true] at hno
      simp [hno, hs]
  · have he : e ≠ ⟨score, member⟩ := fun he => hm (by rw [he])
    rw [if_neg he, if_neg hm, if_neg (fun h => hm h.2), hold]

theorem Exact.insertAll (entries : List (UInt64 × List UInt8)) :
    (entries.foldl (fun s e => s.insert e.2 e.1) s).Exact
      ∧ (entries.foldl (fun s e => s.insert e.2 e.1) s).byMember
        = s.byMember.insertMany (entries.map fun e => (e.2, e.1)) := by
  induction entries generalizing s with
  | nil => exact ⟨h, rfl⟩
  | cons e entries ih => exact ih (h.insert e.2 e.1)

/-- The entries of the set, read back by member. -/
theorem Exact.byMember_toEntries : Compat.byMember s.toEntries = s.byMember := by
  refine ext_find? fun k => ?_
  unfold Compat.byMember
  rw [find?_insertMany (f := s.byMember.find?)]
  · split
    next => rfl
    next hk =>
      cases hf : s.byMember.find? k with
      | none => rfl
      | some score =>
        refine absurd ?_ hk
        have hmem := h.mem (e := ⟨score, k⟩).2 hf
        exact mem_map.2 ⟨_, mem_map.2 ⟨_, hmem, rfl⟩, rfl⟩
  · intro x hx
    obtain ⟨e, he, rfl⟩ := mem_map.1 hx
    exact h.mem.1 he

/-- Every member is listed once. -/
theorem Exact.nodup_members : (s.toEntries.map SortedSetEntry.member).Nodup := by
  have hkeys : s.toEntries.Nodup := by
    refine s.byScore.nodup_keys.map fun a b hab => ?_
    cases a
    cases b
    cases hab
    rfl
  refine hkeys.map_on fun a ha b hb hab => ?_
  rw [h.mem] at ha hb
  rw [hab] at ha
  obtain ⟨score, member⟩ := a
  obtain ⟨score', member'⟩ := b
  cases Option.some.inj (ha.symm.trans hb)
  cases hab
  rfl

theorem Exact.length_toEntries : s.toEntries.length = s.byMember.entries.length := by
  have hperm : (s.toEntries.map SortedSetEntry.member).Perm s.byMember.keys := by
    refine (List.perm_ext_iff_of_nodup h.nodup_members s.byMember.nodup_keys).2 fun k => ?_
    simp only [keys, mem_map]
    constructor
    · intro hk
      obtain ⟨e, he, rfl⟩ := hk
      exact ⟨_, find?_eq_some.1 (h.mem.1 he), rfl⟩
    · intro hk
      obtain ⟨⟨k', score⟩, he, rfl⟩ := hk
      exact ⟨⟨score, k'⟩, h.mem.2 (find?_eq_some.2 he), rfl⟩
  simpa [keys] using hperm.length_eq

theorem Exact.find_toEntries (member : List UInt8) :
    (s.toEntries.find? fun e => e.member = member).map SortedSetEntry.score
      = s.byMember.find? member := by
  cases hfind : s.toEntries.find? fun e => e.member = member with
  | some e =>
    have hm : e.member = member := by simpa using List.find?_some hfind
    have hmem := h.mem.1 (List.mem_of_find?_eq_some hfind)
    rw [hm] at hmem
    exact hmem.symm
  | none =>
    cases hf : s.byMember.find? member with
    | none => rfl
    | some score =>
      have hmem := h.mem (e := ⟨score, member⟩).2 hf
      have hno := List.find?_eq_none.1 hfind _ hmem
      simp at hno

theorem Exact.remove {member : List UInt8} {score : UInt64}
    (hscore : s.byMember.find? member = some score) :
    (⟨s.byMember.erase member, s.byScore.erase ⟨score, member⟩⟩ : MutableSortedSet).Exact
      ∧ (⟨s.byMember.erase member, s.byScore.erase ⟨score, member⟩⟩ : MutableSortedSet).toEntries
        = s.toEntries.filter fun e => e.member ≠ member := by
  have hold := find?_scored s.byMember
  rw [← h] at hold
  constructor
  · apply eq_scored
    intro e
    rw [find?_erase, find?_erase]
    by_cases hm : e.member = member
    · rw [if_pos hm]
      split
      next => simp
      next hne =>
        rw [hold, hm, hscore]
        refine iff_of_false (fun heq => hne ?_) (by simp)
        rw [Option.some.inj heq, ← hm]
    · rw [if_neg hm, if_neg fun he => hm (by rw [he]), hold]
  · unfold MutableSortedSet.toEntries keys erase
    simp only [map_map, List.filter_map]
    congr 1
    apply List.filter_congr
    intro x hx
    have hx' := (hold x.1).1 (find?_eq_some.2 hx)
    by_cases hm : x.1.member = member
    · rw [hm, hscore] at hx'
      have heq : x.1 = ⟨score, member⟩ := by
        rw [Option.some.inj hx', ← hm]
      simp [heq]
    · have hne : x.1 ≠ ⟨score, member⟩ := fun he => hm (by rw [he])
      simp [hm, hne]

end

end MutableSortedSet

/-- The entries in the order of score and member, each member once. -/
def InOrder (entries : List SortedSetEntry) : Prop :=
  (entries.map fun e => (⟨e.score, e.member⟩ : ScoredMember)).Pairwise (· < ·)
    ∧ (entries.map SortedSetEntry.member).Nodup

variable {entries : List SortedSetEntry}

/-- Entries in order are the ones that sorting leaves as they are. -/
theorem sortEntries_byMember_eq_iff :
    sortEntries (byMember entries) = entries ↔ InOrder entries := by
  constructor
  · intro h
    have hnodup := (exact_fromEntries entries).nodup_members
    rw [show (fromEntries entries).toEntries = entries
      from h] at hnodup
    refine ⟨?_, hnodup⟩
    rw [← h, sortEntries, map_map]
    show ((scored (byMember entries)).keys.map id).Pairwise _
    rw [List.map_id]
    exact List.pairwise_map.2 (scored (byMember entries)).sorted
  · intro h
    obtain ⟨hsorted, hnodup⟩ := h
    let set : SortedMap ScoredMember Unit :=
      ⟨entries.map fun e => (⟨e.score, e.member⟩, ()), by
        rw [List.pairwise_map] at hsorted ⊢
        exact hsorted⟩
    have hfirst : ∀ e ∈ entries, (entries.find? fun x => x.member = e.member).map
          SortedSetEntry.score = some e.score := by
      intro e he
      obtain ⟨x, hx⟩ : ∃ x, (entries.find? fun x =>
          x.member = e.member) = some x := Option.isSome_iff_exists.1
        (List.find?_isSome.2 ⟨e, he, decide_eq_true rfl⟩)
      have hm : x.member = e.member := by simpa using List.find?_some hx
      rw [hx, List.inj_on_of_nodup_map hnodup (List.mem_of_find?_eq_some hx) he hm]
      rfl
    have hfind : ∀ e ∈ entries, (byMember entries).find? e.member = some e.score := by
      intro e he
      unfold byMember
      rw [find?_insertMany (f := fun member =>
          (entries.find? fun x => x.member = member).map SortedSetEntry.score), if_pos, hfirst e he]
      · rw [map_map]
        exact mem_map.2 ⟨e, he, rfl⟩
      · intro x hx
        obtain ⟨e, he, rfl⟩ := mem_map.1 hx
        exact hfirst e he
    have hset : set = scored (byMember entries) := by
      apply eq_scored
      intro e
      rw [find?_eq_some]
      constructor
      · intro hmem
        obtain ⟨x, hx, heq⟩ := mem_map.1 hmem
        cases heq
        exact hfind x hx
      · intro hscore
        rcases of_find?_insertMany hscore with hmem | hnone
        · obtain ⟨x, hx, heq⟩ := mem_map.1 hmem
          refine mem_map.2 ⟨x, hx, ?_⟩
          cases e
          cases heq
          rfl
        · cases hnone
    rw [sortEntries, ← hset]
    simp only [set, keys, map_map]
    exact List.map_id entries

-- ===== runs of changes

namespace MutableSortedSet

/-- Rebuilding from the entries gives the same set. -/
theorem Exact.fromEntries_toEntries {s : MutableSortedSet} (h : s.Exact) :
    fromEntries s.toEntries = s := by
  show ⟨Compat.byMember s.toEntries, scored (Compat.byMember s.toEntries)⟩ = s
  rw [h.byMember_toEntries, ← h]

inductive SetChange where
  | insert (member : List UInt8) (score : UInt64)
  | remove (member : List UInt8)

def changed (s : MutableSortedSet) : SetChange → MutableSortedSet
  | .insert member score => s.insert member score
  | .remove member => (s.remove member).getD s

theorem Exact.changed {s : MutableSortedSet} (h : s.Exact) (change : SetChange) :
    (s.changed change).Exact := by
  cases change with
  | insert member score => exact h.insert member score
  | remove member =>
    show ((s.remove member).getD s).Exact
    unfold MutableSortedSet.remove
    cases hscore : s.byMember.find? member with
    | none => exact h
    | some score => exact (h.remove hscore).1

/-- After any inserts and removals the two containers have the same
pairs, the entries are in order with each member once, and they make the
same set again. -/
theorem sortedSet_representation (entries : List SortedSetEntry) (changes : List SetChange) :
    let s := changes.foldl changed (fromEntries entries)
    (∀ e, s.byScore.find? e = some () ↔ s.byMember.find? e.member = some e.score)
      ∧ InOrder s.toEntries ∧ fromEntries s.toEntries = s := by
  intro s
  have h : s.Exact := changes.foldlRecOn changed (exact_fromEntries entries)
    fun _ hs change _ => hs.changed change
  refine ⟨fun e => ?_, ?_, h.fromEntries_toEntries⟩
  · rw [h, find?_scored]
  · rw [← sortEntries_byMember_eq_iff, h.byMember_toEntries, h.toEntries]

end MutableSortedSet

variable {α : Type} {boxed : BoxedLens α} {lens : Lens α}

-- ===== index ranges

theorem rangeOf_map {β : Type} (f : α → β) (items : List α) (start stop : Int64) :
    rangeOf (items.map f) start stop = (rangeOf items start stop).map f := by
  unfold rangeOf
  rw [List.length_map]
  split
  · rfl
  · rw [List.map_take, List.map_drop]

/-- The position an index means: one below zero counts from the end. -/
def normIndex (len : Nat) (index : Int64) : Int :=
  if index.toInt < 0 then len + index.toInt else index.toInt

/-- The items at the positions between two indexes: those of a slice that
lies inside the list and has just these positions. -/
def IsRange (items : List α) (start stop : Int64) (out : List α) : Prop :=
  ∃ first n, first + n ≤ items.length ∧ out = (items.drop first).take n
    ∧ ∀ i < items.length, normIndex items.length start ≤ i ∧ i ≤ normIndex items.length stop
      ↔ first ≤ i ∧ i < first + n

theorem isRange_rangeOf (items : List α) (start stop : Int64) :
    IsRange items start stop (rangeOf items start stop) := by
  unfold IsRange rangeOf
  cases h : inclusiveRangeBounds items.length start stop with
  | none =>
    refine ⟨0, 0, Nat.zero_le _, rfl, ?_⟩
    unfold inclusiveRangeBounds at h
    unfold normIndex
    grind
  | some b =>
    refine ⟨b.1, b.2 - b.1 + 1, ?_, rfl, ?_⟩ <;> unfold inclusiveRangeBounds at h
    · grind
    · unfold normIndex
      grind

-- ===== values

variable (v : MutableObjectValue)

/-- A value the store can have: what it shows validates, and it is the
value made of it. -/
def MutableObjectValue.Good : Prop :=
  validateValue v.toMfsValue = .ok () ∧ .ofValue v.toMfsValue = v

theorem validateValue_sortedSet :
    validateValue (.sortedSet entries) = .ok () ↔ ∀ e ∈ entries, f64IsFinite e.score = true := by
  show failIf _ _ = .ok () ↔ _
  rw [failIf_eq_ok]
  simp

theorem good_sortedSet {s : MutableSortedSet} : (sortedSet s).Good ↔ s.Exact
      ∧ ∀ k x, s.byMember.find? k = some x → f64IsFinite x = true := by
  constructor
  · intro h
    obtain ⟨hvalid, hmade⟩ := h
    have hs : fromEntries s.toEntries = s := sortedSet.inj hmade
    have hexact : s.Exact := hs ▸ exact_fromEntries _
    refine ⟨hexact, fun k x hx => ?_⟩
    exact validateValue_sortedSet.1 hvalid ⟨x, k⟩ (hexact.mem.2 hx)
  · intro h
    obtain ⟨hexact, hfinite⟩ := h
    constructor
    · exact validateValue_sortedSet.2 fun e he => hfinite _ _ (hexact.mem.1 he)
    · exact congrArg sortedSet hexact.fromEntries_toEntries

/-- The same reply at every version. -/
def ObjectReply.plain : ObjectReply → ObjectReply
  | .version _ => .version 0
  | reply => reply

/-- The same result, up to version numbers. -/
def sameResult (r r' : Except ObjectStoreError ObjectReply) : Prop :=
  r.map ObjectReply.plain = r'.map ObjectReply.plain

instance (r r' : Except ObjectStoreError ObjectReply) : Decidable (sameResult r r') :=
  inferInstanceAs (Decidable (_ = _))

/-- Replies that differ in the version at most. -/
def Plain (reply : Nat → ObjectReply) : Prop :=
  ∀ n n', (reply n).plain = (reply n').plain

/-- The changes two commands make to values that show the same. -/
inductive SameChange : Except ObjectStoreError Change →
    Except ObjectStoreError BoxedChange → Prop where
  | error (e : ObjectStoreError) : SameChange (.error e) (.error e)
  | keep (reply : ObjectReply) : SameChange (.ok (.keep reply)) (.ok (.keep reply))
  | store {v : MutableObjectValue} {value : MfsValue} {reply : Nat → ObjectReply} (hgood : v.Good)
      (hvalue : v.toMfsValue = value) (hreply : Plain reply) :
      SameChange (.ok (.store v reply)) (.ok (.store value reply))
  | remove {reply : Nat → ObjectReply} (hreply : Plain reply) :
      SameChange (.ok (.remove reply)) (.ok (.remove reply))

/-- A command of one store and its counterpart in the other. -/
inductive Alike : Request → BoxedRequest → Prop where
  | done (reply : Except ObjectStoreError ObjectReply) : Alike (.done reply) (.done reply)
  | rejected {key : Key} {value : MfsValue} {e : ObjectStoreError}
      (h : validateValue value = .error e) :
      Alike (.done (.error e)) (.put key value)
  | put {key : Key} {v : MutableObjectValue} {value : MfsValue}
      (hgood : v.Good) (hvalue : v.toMfsValue = value) :
      Alike (putMutable key v) (.put key value)
  | delete (key : Key) : Alike (Compat.delete key) (.delete key)
  | edit {key : Key} {change : Option MutableObjectValue → Except ObjectStoreError Change}
      {change' : Option MfsValue → Except ObjectStoreError BoxedChange}
      (h : ∀ v : Option MutableObjectValue, (∀ x ∈ v, x.Good) → SameChange (change v)
          (change' (v.map toMfsValue))) :
      Alike (.write ⟨key, true, change, 0, 0⟩) (.edit key change')
  | look {key : Key} {expired : ObjectReply} {touches : Bool}
      {observe : Option MutableObjectValue →
        Except ObjectStoreError ObjectReply}
      {observe' : Option MfsValue → Except ObjectStoreError ObjectReply}
      (h : ∀ v : Option MutableObjectValue, (∀ x ∈ v, x.Good) →
        observe v = observe' (v.map toMfsValue)) :
      Alike (.read ⟨key, expired, observe, touches⟩) (.look key observe')

/-- A type of value in both stores: `shown` is what the store that
changes it in place shows of it. -/
structure SameLens {α β : Type} (lens : Lens α) (boxed : BoxedLens β) (shown : α → β) : Prop where
  expected : lens.expected = boxed.expected
  view : ∀ v, v.Good → boxed.view v.toMfsValue = (lens.view v).map shown
  make : ∀ a, (lens.make a).toMfsValue = boxed.make (shown a)
  viewed : ∀ {v a}, lens.view v = some a → lens.make a = v

theorem tag_toMfsValue : v.toMfsValue.tag = v.tag := by
  cases v <;> rfl

section

variable {α β : Type} {lens : Lens α} {boxed : BoxedLens β}
  {shown : α → β} (hlens : SameLens lens boxed shown) (key : Key)

include hlens

theorem alike_extending {empty : α} {extend : α → α} {extend' : β → β}
    (hempty : (lens.make (extend empty)).Good)
    (hgood : ∀ a, (lens.make a).Good → (lens.make (extend a)).Good)
    (hextend : ∀ a, (lens.make a).Good ∨ a = empty → shown (extend a) = extend' (shown a)) :
    Alike (extending lens key empty extend) (boxed.extending key (shown empty) extend') := by
  refine .edit fun v hv => ?_
  cases v with
  | none =>
    refine .store hempty ?_ fun _ _ => rfl
    rw [hlens.make, hextend empty (Or.inr rfl)]
  | some v =>
    have hv := hv v rfl
    simp only [Option.map_some, hlens.view v hv, tag_toMfsValue, ← hlens.expected]
    cases ha : lens.view v with
    | none => exact .error _
    | some a =>
      rw [← hlens.viewed ha] at hv
      refine .store (hgood a hv) ?_ fun _ _ => rfl
      rw [hlens.make, hextend a (Or.inl hv)]

theorem alike_shrinking {takeOut : α → Option (ObjectReply × α)}
    {takeOut' : β → Option (ObjectReply × β)} {isEmpty : α → Bool}
    {isEmpty' : β → Bool} (missing : ObjectReply)
    (htake : ∀ a, (lens.make a).Good →
      takeOut' (shown a) = (takeOut a).map fun p => (p.1, shown p.2))
    (hgood : ∀ a reply rest, (lens.make a).Good →
      takeOut a = some (reply, rest) → (lens.make rest).Good)
    (hisEmpty : ∀ a, (lens.make a).Good → isEmpty' (shown a) = isEmpty a) :
    Alike (shrinking lens key takeOut isEmpty missing)
      (boxed.shrinking key takeOut' isEmpty' missing) := by
  refine .edit fun v hv => ?_
  cases v with
  | none => exact .keep missing
  | some v =>
    have hv := hv v rfl
    simp only [Option.map_some, hlens.view v hv, tag_toMfsValue, ← hlens.expected]
    cases ha : lens.view v with
    | none => exact .error _
    | some a =>
      rw [← hlens.viewed ha] at hv
      simp only [Option.map_some, htake a hv]
      cases ht : takeOut a with
      | none => exact .keep missing
      | some p =>
        obtain ⟨reply, rest⟩ := p
        have hrest := hgood a reply rest hv ht
        simp only [Option.map_some, hisEmpty rest hrest]
        split
        · exact .remove fun _ _ => rfl
        · exact .store hrest (hlens.make rest) fun _ _ => rfl

theorem alike_looking (missing : ObjectReply) {observe : α → ObjectReply}
    {observe' : β → ObjectReply}
    (h : ∀ a, (lens.make a).Good → observe a = observe' (shown a)) :
    Alike (looking lens key missing observe) (boxed.looking key missing observe') := by
  refine .look fun v hv => ?_
  cases v with
  | none => rfl
  | some v =>
    have hv := hv v rfl
    simp only [Option.map_some, hlens.view v hv, tag_toMfsValue, ← hlens.expected]
    cases ha : lens.view v with
    | none => rfl
    | some a =>
      rw [← hlens.viewed ha] at hv
      simp only [Option.map_some, h a hv]

end

-- ===== the lenses

/-- The containers; all but the sorted sets are in the same form in both
stores. -/
theorem sameLens_containers : SameLens asSortedSet sortedSet toEntries
    ∧ SameLens asList list id ∧ SameLens asHash hash id ∧ SameLens asSet set id := by
  refine ⟨?_, ?_, ?_, ?_⟩ <;> exact {
    expected := rfl
    view v hv := by
      cases v with
      | direct value => cases value <;> first | rfl | cases hv.2
      | _ => rfl
    make _ := rfl
    viewed {v a} h := by
      cases v <;> cases h
      rfl }

theorem sameLens_bytes : SameLens asBytes bytes id where
  expected := rfl
  view v hv := by
    cases v with
    | direct value => cases value <;> rfl
    | _ => rfl
  make _ := rfl
  viewed {v a} h := by
    cases v with
    | direct value =>
      cases value <;> cases h
      rfl
    | _ => cases h

-- ===== the commands

/-- A put of a sorted set that is in order already; a set that does not
validate is not put. -/
def ObjectCommand.Sorted : ObjectCommand → Prop
  | .tryPut _ (.sortedSet entries) =>
    validateSortedSetEntries entries = .ok () → InOrder entries
  | _ => True

variable (key : Key)

theorem alike_tryPut (value : MfsValue) (h : (ObjectCommand.tryPut key value).Sorted) :
    Alike (tryPut key value) (.put key value) := by
  unfold tryPut fromMfsValue
  cases hvalid : validateValue value with
  | error e => exact .rejected hvalid
  | ok u =>
    have hshown : (ofValue value).toMfsValue = value := by
      cases value with
      | sortedSet entries =>
        exact congrArg MfsValue.sortedSet (sortEntries_byMember_eq_iff.2 (h hvalid))
      | _ => rfl
    refine .put ⟨?_, ?_⟩ hshown
    · rw [hshown]
      exact hvalid
    · rw [hshown]

theorem good_fromEntries (h : validateSortedSetEntries entries = .ok ()) :
    (sortedSet (.fromEntries entries)).Good := by
  refine good_sortedSet.2 ⟨exact_fromEntries _, ?_⟩
  intro k x hx
  rcases of_find?_insertMany hx with hmem | hnone
  · obtain ⟨e, he, heq⟩ := mem_map.1 hmem
    cases heq
    exact validateValue_sortedSet.1 h e he
  · cases hnone

theorem alike_incrBy (delta : Int64) :
    Alike (incrBy key delta) (ObjectCommand.incrBy key delta).boxed := by
  refine .edit fun v hv => ?_
  cases v with
  | none =>
    have hlow := delta.le_toInt
    have hhigh := delta.toInt_lt
    have hrange : -2 ^ 63 ≤ (0 : Int64).toInt + delta.toInt
        ∧ (0 : Int64).toInt + delta.toInt < 2 ^ 63 := by
      simp only [Int64.toInt_zero, Int.zero_add]
      exact ⟨hlow, hhigh⟩
    have hsum : Int64.ofInt ((0 : Int64).toInt + delta.toInt) = delta := by
      simp
    simp only [Option.map_none, ok_bind, if_pos hrange, hsum]
    exact .store ⟨rfl, rfl⟩ rfl fun _ _ => rfl
  | some v =>
    cases v with
    | direct value =>
      cases value with
      | integer value =>
        simp only [Option.map_some, toMfsValue, ok_bind]
        split
        · exact .store ⟨rfl, rfl⟩ rfl fun _ _ => rfl
        · exact .error _
      | _ => exact .error _
    | _ => exact .error _

theorem alike_zaddMany (entries : List (UInt64 × List UInt8))
    (hfinite : ∀ e ∈ entries, f64IsFinite e.1 = true) :
    Alike (extending asSortedSet key (.fromEntries []) fun existing =>
        entries.foldl (fun s e => s.insert e.2 e.1) existing)
      (sortedSet.extending key [] fun existing =>
        sortEntries ((byMember existing).insertMany (entries.map fun e => (e.2, e.1)))) := by
  have hgood : ∀ s, (sortedSet s).Good → (sortedSet
        (entries.foldl (fun s e => s.insert e.2 e.1) s)).Good := by
    intro s hs
    obtain ⟨hexact, hold⟩ := good_sortedSet.1 hs
    obtain ⟨hexact', hmap⟩ := hexact.insertAll entries
    refine good_sortedSet.2 ⟨hexact', fun k x hx => ?_⟩
    rw [hmap] at hx
    rcases of_find?_insertMany hx with hmem | hx
    · obtain ⟨e, he, heq⟩ := mem_map.1 hmem
      cases heq
      exact hfinite e he
    · exact hold k x hx
  have hempty : (sortedSet (.fromEntries [])).Good := good_fromEntries rfl
  refine alike_extending sameLens_containers.1 key (hgood _ hempty) hgood ?_
  intro s hs
  have hs : (sortedSet s).Good := by
    rcases hs with hs | rfl
    · exact hs
    · exact hempty
  obtain ⟨hexact, -⟩ := good_sortedSet.1 hs
  obtain ⟨hexact', hmap⟩ := hexact.insertAll entries
  rw [hexact'.toEntries, hmap, hexact.byMember_toEntries]

theorem alike_zrem (member : List UInt8) :
    Alike (zrem key member) (ObjectCommand.zrem key member).boxed := by
  refine alike_shrinking sameLens_containers.1 key (.count 0) ?_ ?_ ?_
  · intro s hs
    obtain ⟨hexact, -⟩ := good_sortedSet.1 hs
    unfold retainOthers remove
    cases hf : s.byMember.find? member with
    | none =>
      have hall : s.toEntries.filter (fun e => e.member ≠ member) = s.toEntries := by
        refine List.filter_eq_self.2 fun e he => decide_eq_true ?_
        intro hm
        have hmem := hexact.mem.1 he
        rw [hm, hf] at hmem
        cases hmem
      simp only [hall, if_true]
      rfl
    | some score =>
      have hless : (s.toEntries.filter fun e => e.member ≠ member).length ≠ s.toEntries.length := by
        refine Nat.ne_of_lt (List.length_filter_lt_length_iff_exists.2 ?_)
        exact ⟨⟨score, member⟩, hexact.mem.2 hf, by simp⟩
      simp only [if_neg hless, Option.map_some, (hexact.remove hf).2]
  · intro s reply rest hs h
    obtain ⟨hexact, hfinite⟩ := good_sortedSet.1 hs
    unfold remove at h
    cases hf : s.byMember.find? member with
    | none =>
      rw [hf] at h
      cases h
    | some score =>
      rw [hf] at h
      cases h
      refine good_sortedSet.2 ⟨(hexact.remove hf).1, fun k x hx => ?_⟩
      rw [find?_erase] at hx
      split at hx
      · cases hx
      · exact hfinite k x hx
  · intro s hs
    obtain ⟨hexact, -⟩ := good_sortedSet.1 hs
    have hlen := hexact.length_toEntries
    rw [Bool.eq_iff_iff, List.isEmpty_iff_length_eq_zero, List.isEmpty_iff_length_eq_zero, hlen]

section

variable (hlens : SameLens lens boxed id) (hgood : ∀ a, (lens.make a).Good) (key : Key)

include hlens hgood

/-- A writing command at the shared lenses, which show what they have. -/
theorem alike_extending_id (empty : α) (extend : α → α) :
    Alike (extending lens key empty extend) (boxed.extending key empty extend) :=
  alike_extending hlens key (hgood _) (fun _ _ => hgood _) fun _ _ => rfl

theorem alike_shrinking_id (takeOut : α → Option (ObjectReply × α)) (isEmpty : α → Bool)
    (missing : ObjectReply) :
    Alike (shrinking lens key takeOut isEmpty missing)
      (boxed.shrinking key takeOut isEmpty missing) :=
  alike_shrinking hlens key missing
    (fun _ _ => Option.map_id'.symm) (fun _ _ _ _ _ => hgood _) fun _ _ => rfl

end

theorem alike_looking_id (hlens : SameLens lens boxed id) (key : Key)
    (missing : ObjectReply) (observe : α → ObjectReply) :
    Alike (looking lens key missing observe) (boxed.looking key missing observe) :=
  alike_looking hlens key missing fun _ _ => rfl

theorem alike_typedGet (expected : String)
    (missing : ObjectReply) {extract extract' : MfsValue → Option ObjectReply}
    (h : ∀ value, extract value = extract' value) :
    Alike (typedGet key expected missing extract)
      (boxedTypedGet key expected missing extract') := by
  have h : extract = extract' := funext h
  subst h
  refine .look fun v _ => ?_
  cases v <;> rfl

/-- Every command and its counterpart. -/
theorem ObjectCommand.alike (c : ObjectCommand) (h : c.Sorted) : Alike c.mutable c.boxed := by
  obtain ⟨sameSorted, sameList, sameHash, sameSet⟩ := sameLens_containers
  have hlist : ∀ a, (asList.make a).Good := fun _ => ⟨rfl, rfl⟩
  have hhash : ∀ a, (asHash.make a).Good := fun _ => ⟨rfl, rfl⟩
  have hset : ∀ a, (asSet.make a).Good := fun _ => ⟨rfl, rfl⟩
  have hbytes : ∀ a, (asBytes.make a).Good := fun _ => ⟨rfl, rfl⟩
  cases c with
  | tryPut key value => exact alike_tryPut key value h
  | delete key => exact .delete key
  | setBytes key value | setString key value | setInteger key value
  | setJsonBytes key value | setList key value | setHash key value
  | setSet key value => exact .put ⟨rfl, rfl⟩ rfl
  | setSortedSet key entries =>
    simp only [mutable, boxed, Compat.setSortedSet]
    cases hvalid : validateSortedSetEntries entries with
    | error e => exact .done _
    | ok u => exact .put (good_fromEntries hvalid) rfl
  | appendBytes key suffix => exact alike_extending_id sameLens_bytes hbytes ..
  | incrBy key delta => exact alike_incrBy key delta
  | listPush key value => exact alike_extending_id sameList hlist ..
  | listExtend key values =>
    simp only [mutable, boxed, Compat.listExtend]
    split
    · exact .done _
    · exact alike_extending_id sameList hlist ..
  | listPopFront key | listPopBack key => exact alike_shrinking_id sameList hlist ..
  | listLen key | listRange key start stop | listIndex key index =>
    exact alike_looking_id sameList ..
  | hashSet key field value => exact alike_extending_id sameHash hhash ..
  | hashSetMany key fields =>
    simp only [mutable, boxed, Compat.hashSetMany]
    split
    · exact .done _
    · exact alike_extending_id sameHash hhash ..
  | hashDel key field => exact alike_shrinking_id sameHash hhash ..
  | hashGet key field | hashLen key | hashGetAll key
  | hashExists key field => exact alike_looking_id sameHash ..
  | setAdd key member => exact alike_extending_id sameSet hset ..
  | setAddMany key members =>
    simp only [mutable, boxed, Compat.setAddMany]
    split
    · exact .done _
    · exact alike_extending_id sameSet hset ..
  | setRemove key member => exact alike_shrinking_id sameSet hset ..
  | setContains key member | setLen key | setMembers key =>
    exact alike_looking_id sameSet ..
  | zadd key score member =>
    simp only [mutable, boxed, Compat.zadd]
    split
    next hfinite => exact alike_zaddMany key [(score, member)] (by simpa using hfinite)
    next => exact .done _
  | zaddMany key entries =>
    simp only [mutable, boxed, Compat.zaddMany]
    split
    next => exact .done _
    next =>
      split
      next => exact .done _
      next hfinite => exact alike_zaddMany key entries (by simpa using hfinite)
  | zscore key member =>
    refine alike_looking sameSorted key _ fun s hs => ?_
    rw [(good_sortedSet.1 hs).1.find_toEntries]
    rfl
  | zrange key start stop =>
    refine alike_looking sameSorted key _ fun s _ => ?_
    unfold toEntries
    rw [rangeOf_map, map_map]
    rfl
  | zrem key member => exact alike_zrem key member
  | zlen key =>
    refine alike_looking sameSorted key _ fun s hs => ?_
    rw [(good_sortedSet.1 hs).1.length_toEntries]
    rfl
  | get key => exact .look fun _ _ => rfl
  | getBytes key | getString key | getInteger key =>
    unfold ObjectCommand.mutable ObjectCommand.boxed
    refine alike_typedGet key _ _ fun value => ?_
    cases value <;> rfl

-- ===== the stores

/-- The stores show the same values, and nothing will expire. -/
structure Agrees (m : MfsMutableObjectStore) (s : MfsObjectStore) : Prop where
  values : ∀ k, s.values k = (m.value? k).map toMfsValue
  good : ∀ k, ∀ v ∈ m.value? k, v.Good
  lasting : ∀ k, ∀ x ∈ m.currentMeta k, x.expiresAt = 0 ∧ x.ttiTicks = 0

namespace Agrees

variable {m : MfsMutableObjectStore} {s s' : MfsObjectStore} (h : Agrees m s)

include h

theorem expires : m.expireKeyIfNeeded key = (m, false) := by
  unfold expireKeyIfNeeded
  split
  next => rfl
  next x hx =>
    obtain ⟨hat, htti⟩ := h.lasting key x hx
    rw [if_pos]
    right
    simp [isExpired, hat, htti]

theorem settle (hs : s.Settles s' []) : Agrees m s' :=
  ⟨fun k => by rw [hs.values_eq]; exact h.values k, h.good, h.lasting⟩

/-- A mark without limits changes no values and nothing's expiry. -/
theorem mark (value : Option MutableObjectValue) {key : Key}
    {m' : MfsMutableObjectStore} {op : Operation}
    (hself : m'.value? key = value)
    (hother : ∀ k, k ≠ key → m'.value? k = m.value? k)
    (hmeta : m'.metadataShards = m.metadataShards)
    (hgood : ∀ v ∈ value, v.Good) (op' : Operation) :
    Agrees (m'.markDirty key op 0 0).1 (s.writeWithPin key (value.map toMfsValue) op' true).1 := by
  constructor
  · intro k
    rw [values_writeWithPin, value?_markDirty]
    by_cases hk : k = key
    · rw [hk, update_self, hself]
    · rw [update_of_ne hk, hother k hk, h.values]
  · intro k v hv
    rw [value?_markDirty] at hv
    by_cases hk : k = key
    · rw [hk, hself] at hv
      exact hgood v hv
    · rw [hother k hk] at hv
      exact h.good k v hv
  · intro k x hx
    by_cases hk : k = key
    · rw [hk, currentMeta_markDirty_self] at hx
      cases hx
      exact ⟨rfl, rfl⟩
    rw [currentMeta_markDirty_ne hk] at hx
    refine h.lasting k x ?_
    unfold currentMeta at hx ⊢
    rwa [hmeta] at hx

theorem store {v : MutableObjectValue} (hgood : v.Good) (key : Key) :
    Agrees ((m.insertValue key v).markDirty key .put 0 0).1 (s.put key v.toMfsValue).1 :=
  h.mark (some v) (value?_insertValue_self v) (fun _ hk => value?_insertValue_ne v hk) rfl
    (fun _ hv => Option.some.inj hv ▸ hgood) .put

theorem remove : Agrees ((m.removeValue key).markDirtyDelete key).1
      (WriteBehindCache.delete s key).1 :=
  h.mark none value?_removeValue_self (fun _ hk => value?_removeValue_ne hk) rfl
    nofun .delete

theorem touch : Agrees (m.recordTouch key) s := by
  constructor
  · intro k
    rw [value?_recordTouch]
    exact h.values k
  · intro k v hv
    rw [value?_recordTouch] at hv
    exact h.good k v hv
  · intro k x hx
    rcases m.currentMeta_recordTouch key k with heq | ⟨x', hx', heq⟩
    · rw [heq] at hx
      exact h.lasting k x hx
    · rw [heq] at hx
      cases hx
      exact h.lasting k x' hx'

theorem request {r : Request} {b : BoxedRequest} (ha : Alike r b) :
    sameResult (m.request r).2 (MfsObjectStore.request s b).2
      ∧ Agrees (m.request r).1 (MfsObjectStore.request s b).1 := by
  cases ha with
  | done reply => exact ⟨rfl, h⟩
  | rejected hinvalid =>
    simp only [MfsObjectStore.request, putLocked, hinvalid]
    exact ⟨rfl, h⟩
  | put hgood hvalue =>
    subst hvalue
    simp only [MfsObjectStore.request, putLocked, hgood.1]
    exact ⟨rfl, h.store hgood _⟩
  | delete key => exact ⟨rfl, h.remove key⟩
  | @edit key change change' hchange =>
    have hsettled := h.settle (settles_get s key)
    have hsame := hchange (m.value? key) (h.good key)
    rw [← h.values key, ← show (s.get key).2 = s.values key from
      get_snd s key] at hsame
    simp only [MfsMutableObjectStore.request, MfsMutableObjectStore.write, beforeEdit,
      if_true, h.expires key, MfsObjectStore.request]
    generalize change (m.value? key) = x at hsame ⊢
    generalize change' (s.get key).2 = y at hsame ⊢
    cases hsame with
    | error _ | keep _ => exact ⟨rfl, hsettled⟩
    | store hgood hvalue hreply =>
      subst hvalue
      simp only [putLocked, hgood.1]
      exact ⟨congrArg Except.ok (hreply _ _), hsettled.store hgood _⟩
    | remove hreply => exact ⟨congrArg Except.ok (hreply _ _), hsettled.remove _⟩
  | @look key expired touches observe observe' hobserve =>
    have hsettled := h.settle (settles_get s key)
    have hsame := hobserve (m.value? key) (h.good key)
    rw [← h.values key, ← show (s.get key).2 = s.values key from
      get_snd s key] at hsame
    simp only [MfsMutableObjectStore.request, MfsMutableObjectStore.read,
      h.expires key, MfsObjectStore.request]
    refine ⟨congrArg (Except.map _) hsame, ?_⟩
    split
    · exact hsettled.touch key
    · exact hsettled

end Agrees

-- ===== result

section

variable (hash : Key → UInt64) (dirtyShards : Nat) (commands : List ObjectCommand)

/-- The store that changes values in place, after a run from empty. -/
def afterMutable : MfsMutableObjectStore :=
  exec (fun s c => s.request c.mutable) (.withHasher hash) commands

/-- The store that replaces values, after a run from empty. -/
def afterBoxed : MfsObjectStore :=
  exec (fun s c => MfsObjectStore.request s c.boxed)
    (WriteBehindCache.withHasherAndConfig hash dirtyShards) commands

/-- At every point of the run `get` returns the same value for every key,
and the next command the same result up to versions. -/
def StoresAgree : Prop :=
  ∀ pre post, commands = pre ++ post → (∀ key, ((afterMutable hash pre).request (get key)).2
      = (MfsObjectStore.request (afterBoxed hash dirtyShards pre) (ObjectCommand.get key).boxed).2)
    ∧ ∀ c rest, post = c :: rest → sameResult ((afterMutable hash pre).request c.mutable).2
        (MfsObjectStore.request (afterBoxed hash dirtyShards pre) c.boxed).2

variable {commands : List ObjectCommand}

theorem agrees_after (h : ∀ c ∈ commands, c.Sorted) : Agrees (afterMutable hash commands)
      (afterBoxed hash dirtyShards commands) := by
  induction commands using List.reverseRecOn with
  | nil => exact ⟨fun _ => rfl, nofun, nofun⟩
  | append_singleton commands c ih =>
    have hbefore := ih fun c hc => h c (List.mem_append_left _ hc)
    have halike := c.alike (h c (by simp))
    unfold afterMutable afterBoxed at hbefore ⊢
    rw [exec_append, exec_append]
    exact (hbefore.request halike).2

/-- What `get` returns right after a put, in either store. -/
theorem get_putMutable (m : MfsMutableObjectStore) (key : Key) (v : MutableObjectValue) :
    ((m.request (putMutable key v)).1.request (get key)).2 = .ok (.value (some v.toMfsValue)) := by
  show (MfsMutableObjectStore.read
    ((m.insertValue key v).markDirty key .put 0 0).1 ⟨key, _, _, _⟩).2 = _
  unfold MfsMutableObjectStore.read expireKeyIfNeeded
  rw [currentMeta_markDirty_self]
  simp [isExpired, marked]

theorem get_put (s : MfsObjectStore) (key : Key) {value : MfsValue}
    (hvalid : validateValue value = .ok ()) :
    (MfsObjectStore.request (MfsObjectStore.request s (.put key value)).1
      (ObjectCommand.get key).boxed).2 = .ok (.value (some value)) := by
  simp only [MfsObjectStore.request, putLocked, hvalid, ObjectCommand.boxed]
  rw [show (WriteBehindCache.get (s.put key value).1 key).2
      = (s.put key value).1.values key from get_snd _ key]
  unfold WriteBehindCache.put
  rw [values_writeWithPin, update_self]

theorem Agrees.get {m : MfsMutableObjectStore} {s : MfsObjectStore}
    (h : Agrees m s) (key : Key) : (m.request (Compat.get key)).2
      = (MfsObjectStore.request s (ObjectCommand.get key).boxed).2 := by
  show (m.read ⟨key, _, _, _⟩).2 = .ok (.value (s.get key).2)
  unfold MfsMutableObjectStore.read
  rw [h.expires, show (s.get key).2 = s.values key from
    get_snd s key, h.values]

/-- The two stores agree at every point of a run from empty, for every
hash function and number of dirty shards, exactly when every sorted set
that is put is in the order of its scores and has each member once. -/
theorem stores_agree_iff : StoresAgree hash dirtyShards commands ↔ ∀ c ∈ commands, c.Sorted := by
  constructor
  · intro hagree c hc
    obtain ⟨pre, post, rfl⟩ := List.append_of_mem hc
    cases c with
    | tryPut key value =>
      cases value with
      | sortedSet entries =>
        intro hvalid
        have hmade : ObjectCommand.mutable (.tryPut key (.sortedSet entries))
            = putMutable key (.sortedSet (.fromEntries entries)) := by
          show Compat.tryPut key _ = _
          unfold tryPut fromMfsValue
          rw [show validateValue (.sortedSet entries) = .ok () from
            hvalid]
          rfl
        -- what both stores show right after the put
        have hget := (hagree (pre ++ [.tryPut key (.sortedSet entries)]) post (by simp)).1 key
        unfold afterMutable afterBoxed at hget
        rw [exec_append, exec_append] at hget
        have hput := get_putMutable (afterMutable hash pre) key (.sortedSet (.fromEntries entries))
        rw [← hmade] at hput
        have hshown := hput.symm.trans (hget.trans (get_put _ key
          (show validateValue (.sortedSet entries) = .ok () from
            hvalid)))
        injection hshown with hshown
        injection hshown with hshown
        injection hshown with hshown
        injection hshown with hshown
        exact sortEntries_byMember_eq_iff.1 hshown
      | _ => trivial
    | _ => trivial
  · intro hsorted pre post hsplit
    subst hsplit
    have hpre := agrees_after hash dirtyShards fun c hc => hsorted c (List.mem_append_left _ hc)
    refine ⟨hpre.get, ?_⟩
    intro c rest hpost
    subst hpost
    exact (hpre.request (c.alike (hsorted c (by simp)))).1

/-- Two members put in the wrong order are shown in two orders. -/
theorem unsorted_put_disagrees : ¬ StoresAgree (fun _ => 0) 1
    [.tryPut [1] (.sortedSet [⟨0x4000000000000000, [2]⟩, ⟨0x3FF0000000000000, [1]⟩])] := by
  intro h
  have hget := (h _ [] (List.append_nil _).symm).1 [1]
  revert hget
  decide +kernel

end

end MemoryFirst.Compat
