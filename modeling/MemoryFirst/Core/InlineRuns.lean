/-
`InlineU64Map` against the finite map it stands for, over whole
sequences of calls.

# The specification

`content` reads the expected contents off the history of calls and
replies: a key's value is the one of its last insert or update that took
effect, unless a removal that took effect came after it. `RefinesMap`
says that a map shows such contents through `get` and `len` and holds no
key in two slots, and `ReplyFits` that a call returned and its reply is
the one the contents demand.

# The result

`inline_runRefines_iff`: the map refines the finite map along a call
sequence exactly when no insert of the sequence is of a `Shadowed` key.
An insert stops at the first free slot of its probe, a tombstone as well
as an empty one, and does not look whether its key sits further on.
-/
import MemoryFirst.Core.Proofs.InlineView

namespace MemoryFirst.Core.InlineU64Map

open Lib ConcurrentMap Function List

open ConcurrentMap (Coherent Single OwnSlot)

-- ===== the specification

variable (s : UInt64 → Option UInt64)

/-- What an answered call does to the expected contents. -/
def effect : Request × Option Reply → UInt64 → Option UInt64
  | (.insert key value, some (.outcome o)) =>
    if o = .full then s else update s key (some value)
  | (.insertReturningOld key value, some (.outcomeOld o _)) =>
    if o = .full then s else update s key (some value)
  | (.update key value, some (.value old)) =>
    if old.isSome then update s key (some value) else s
  | (.remove key, some (.value old)) =>
    if old.isSome then update s key none else s
  | (.removeIfValue key _, some (.removed b)) =>
    if b then update s key none else s
  | _ => s

variable (history : List (Request × Option Reply))

/-- The contents a history leaves behind, from an empty map. -/
def content : UInt64 → Option UInt64 :=
  history.foldl effect fun _ => none

/-- The call returned, with the reply the contents demand. -/
def ReplyFits : Request → Option Reply → Prop
  | .get key, some (.value v) => v = s key
  | .insert key _, some (.outcome o) => o = .replaced ↔ (s key).isSome
  | .insertReturningOld key _, some (.outcomeOld o old) =>
    (o = .replaced ↔ (s key).isSome) ∧ old = s key
  | .remove key, some (.value v) => v = s key
  | .removeIfValue key expected, some (.removed b) => b = (s key).any (· == expected)
  | .update key _, some (.value v) => v = s key
  | _, _ => False

/-- The map shows exactly the contents `s`. -/
structure RefinesMap (m : InlineU64Map) (s : UInt64 → Option UInt64) : Prop where
  get_eq : ∀ key : Key, (m.call (.get key)).2 = some (.value (s key))
  one_slot : ∀ i j key, m.Holds i key → m.Holds j key → i = j
  finite : {k | (s k).isSome}.Finite
  len_eq : m.len.toNat = {k | (s k).isSome}.ncard

/-- Along the whole sequence the map refines the contents of its history,
and every call returns with a reply that fits them. -/
def RunRefines (hash : UInt64 → UInt64) (cap : Nat) (calls : List Request) : Prop :=
  let start := withHasherAndCapacity hash cap
  ∀ pre post, calls = pre ++ post →
    RefinesMap (exec call start pre) (content (trace call start pre))
      ∧ ∀ r rest, post = r :: rest → ReplyFits (content (trace call start pre)) r
          (call (exec call start pre) r).2

/-- A tombstone lies before the first slot on `key`'s path that holds
`key`. -/
def Shadowed (m : InlineU64Map) (key : UInt64) : Prop :=
  ∃ a b, a < b ∧ b ≤ m.probeLimit
    ∧ m.slotMeta (m.slot key a) = TOMBSTONE ∧ m.Holds (m.slot key b) key
    ∧ ∀ c < b, ¬ m.Holds (m.slot key c) key

/-- The call is not an insert of a shadowed key. -/
def SafeCall (m : InlineU64Map) (r : Request) : Prop :=
  r.inserts = true → ¬ m.Shadowed r.key

-- ===== through the view

variable {t : ConcurrentMap UInt64 UInt64} {m : InlineU64Map} {i : Nat} {key : UInt64}

section

variable (hc : Clean m)

include hc

theorem view_entries_iff {e : Entry UInt64 UInt64} : m.view.entries i = some e ↔
      isOccupied (m.slotMeta i) = true ∧ e = ⟨m.keys i, m.values i⟩ := by
  rcases hc.slots i with h | h | h
  · rw [(view_empty h).1, h]
    simp [isOccupied]
  · rw [(view_tombstone h).1, h]
    simp [isOccupied]
  have hocc : isOccupied (m.slotMeta i) = true := by
    simp [isOccupied, h.ne_empty (isTag_h2 m _), h.ne_tombstone (isTag_h2 m _), h.unlocked]
  rw [view_entry h, hocc]
  simp [eq_comm]

theorem holds_iff : m.Holds i key ↔ ∃ v, m.view.entries i = some ⟨key, v⟩ := by
  constructor
  · rintro ⟨hocc, rfl⟩
    exact ⟨_, (view_entries_iff hc).2 ⟨hocc, rfl⟩⟩
  · rintro ⟨v, h⟩
    obtain ⟨hocc, he⟩ := (view_entries_iff hc).1 h
    cases he
    exact ⟨hocc, rfl⟩

theorem view_tombstone_iff : m.view.slotMeta i = META_TOMBSTONE ↔ m.slotMeta i = TOMBSTONE := by
  refine ⟨fun h => ?_, fun h => (view_tombstone h).2⟩
  rcases hc.slots i with hw | hw | hw
  · rw [(view_empty hw).2] at h
    exact absurd h (by decide)
  · exact hw
  · have htag : m.view.slotMeta i = m.view.h2 (m.keys i) := tagView_of_tagged hw
    exact absurd (htag.symm.trans h) (m.view.h2_ne_tombstone _)

theorem shadowed_iff (key : UInt64) : m.Shadowed key ↔ m.view.Shadowed key := by
  unfold Shadowed ConcurrentMap.Shadowed
  simp only [holds_iff hc, not_exists, view_tombstone_iff hc]
  rfl

theorem single_iff : Single m.view ↔ ∀ i j key, m.Holds i key → m.Holds j key → i = j := by
  constructor
  · intro hs i j key hi hj
    obtain ⟨v, hv⟩ := (holds_iff hc).1 hi
    obtain ⟨w, hw⟩ := (holds_iff hc).1 hj
    exact hs i j _ _ hv hw rfl
  · intro h i j e f he hf hkey
    refine h i j e.key ((holds_iff hc).2 ⟨e.value, he⟩) ((holds_iff hc).2 ⟨f.value, ?_⟩)
    rw [hkey]
    exact hf

end

-- ===== update, on the table

/-- Everything `update` can do to a table. -/
inductive RewriteCases (t : ConcurrentMap UInt64 UInt64) (key value : UInt64) : Prop
  | found (i : Nat) (w : UInt64) (hown : t.entries i = some ⟨key, w⟩)
      (heq : rewrite t key value = (t.replaceAt i key value, some w))
  | absent (habs : ∀ w, ¬ t.Stored key w) (heq : rewrite t key value = (t, none))

section

variable (hc : Coherent t)

include hc

theorem rewrite_cases (key value : UInt64) : RewriteCases t key value := by
  rcases search_cases hc key (t, none) (f := fun i old =>
    (if old.isSome then t.replaceAt i key value else t, old)) fun _ => rfl with
    ⟨i, w, hw, heq⟩ | ⟨habs, heq⟩
  · exact .found i w hw heq
  · exact .absent habs heq

/-- What an update does to a duplicate-free table, as its client sees
it. -/
structure RewriteSpec (t : ConcurrentMap UInt64 UInt64) (key value : UInt64) : Prop where
  single : Single (rewrite t key value).1
  old_eq : (rewrite t key value).2 = t.get key
  get_eq : (rewrite t key value).1.get =
    if (rewrite t key value).2.isSome then
      update t.get key (some value)
    else t.get

theorem rewrite_coherent (key value : UInt64) : Coherent (rewrite t key value).1 := by
  cases rewrite_cases hc key value with
  | found i w hown heq => rw [heq]; exact hc.replaceAt hown
  | absent habs heq => rw [heq]; exact hc

theorem rewrite_spec (hs : Single t) (key value : UInt64) : RewriteSpec t key value := by
  have hc' := rewrite_coherent hc key value
  cases rewrite_cases hc key value with
  | found i w hown heq =>
    have hget : t.get key = some w := (get_eq_some_iff hc hs).2 ⟨_, hown⟩
    have ho := hs.ownSlot hown
    rw [heq] at hc'
    refine ⟨?_, ?_, ?_⟩ <;> rw [heq]
    · exact hs.replaceAt ho
    · exact hget.symm
    · exact get_of_stored_update hc hs hc' (hs.replaceAt ho) fun k x => stored_replaceAt ho
  | absent habs heq =>
    refine ⟨?_, ?_, ?_⟩ <;> rw [heq]
    · exact hs
    · exact (get_eq_none_of_absent hc habs).symm
    · rfl

/-- An unconditional removal takes out what `get` reads. -/
theorem removeInner_old (hs : Single t) (key : UInt64) :
    (t.removeInner key).2.map Entry.value = t.get key := by
  unfold removeInner
  cases removeWhere_cases hc key fun _ => true with
  | buried i w hown hacc heq =>
    rw [heq, (get_eq_some_iff hc hs).2 ⟨_, hown⟩]
    rfl
  | refused i w hown hacc heq => cases hacc
  | absent habs heq =>
    rw [heq, get_eq_none_of_absent hc habs]
    rfl

-- ===== one table call

theorem tableCall_coherent (r : Request) : Coherent (tableCall t r).1 := by
  cases r with
  | get key => exact hc
  | insert key value | insertReturningOld key value =>
    exact insertInner_coherent hc key.val value
  | remove key => exact removeWhere_coherent hc key.val _
  | removeIfValue key expected => exact removeWhere_coherent hc key.val _
  | update key value => exact rewrite_coherent hc key value

/-- What a safe call does to a duplicate-free table. -/
structure CallSpec (t : ConcurrentMap UInt64 UInt64) (r : Request) : Prop where
  single : Single (tableCall t r).1
  fits : ReplyFits t.get r (some (tableCall t r).2)
  get_eq : (tableCall t r).1.get = effect t.get (r, some (tableCall t r).2)

theorem tableCall_spec (hs : Single t) {r : Request}
    (hsafe : r.inserts = true → ¬ t.Shadowed r.key) : CallSpec t r := by
  cases r with
  | get key => exact ⟨hs, rfl, rfl⟩
  | insert key value =>
    have hspec := insertInner_spec hc hs (hsafe rfl) value
    exact ⟨hspec.single, hspec.replaced_iff, hspec.get_eq⟩
  | insertReturningOld key value =>
    have hspec := insertInner_spec hc hs (hsafe rfl) value
    exact ⟨hspec.single, ⟨hspec.replaced_iff, hspec.old_eq⟩, hspec.get_eq⟩
  | remove key =>
    have hspec := removeWhere_spec hc hs key.val fun _ => true
    refine ⟨hspec.single, removeInner_old hc hs key.val, ?_⟩
    refine hspec.get_eq.trans ?_
    show _ = if ((t.removeInner key.val).2.map Entry.value).isSome = true
      then _ else _
    rw [Option.isSome_map]
    rfl
  | removeIfValue key expected =>
    have hspec := removeWhere_spec hc hs key.val fun v => v == expected
    exact ⟨hspec.single, hspec.removed_eq, hspec.get_eq⟩
  | update key value =>
    have hspec := rewrite_spec hc hs key.val value
    exact ⟨hspec.single, hspec.old_eq, hspec.get_eq⟩

end

-- ===== whole runs

/-- The relation a safe run keeps between the map and its history. -/
structure Models (m : InlineU64Map) (history : List (Request × Option Reply)) : Prop where
  clean : Clean m
  coherent : Coherent m.view
  single : Single m.view
  get_eq : m.view.get = content history

theorem content_append (e : Request × Option Reply) :
    content (history ++ [e]) = effect (content history) e := by
  simp [content]

/-- The relation gives everything a client can observe of the map. -/
theorem Models.refinesMap {history : List (Request × Option Reply)}
    (hm : Models m history) : RefinesMap m (content history) := by
  rw [← hm.get_eq]
  refine ⟨?_, (single_iff hm.clean).1 hm.single, finite_keys hm.coherent hm.single, ?_⟩
  · intro key
    obtain ⟨x, hcall, hx⟩ := call_shows hm.clean hm.coherent (.get key)
    rw [hcall, hx.reply_eq]
    rfl
  · have hnd := nodup_forEach_keys hm.coherent hm.single
    rw [keys_eq_forEach hm.coherent hm.single,
      Set.ncard_coe_finset, toFinset_card_of_nodup hnd,
      length_map, length_forEach hm.coherent]
    rfl

section

variable {history : List (Request × Option Reply)} {r : Request}

/-- A safe call gets the reply the contents demand. -/
theorem Models.replyFits (hm : Models m history) (hsafe : m.SafeCall r) :
    ReplyFits (content history) r (m.call r).2 := by
  obtain ⟨x, hcall, hx⟩ := call_shows hm.clean hm.coherent r
  have hspec := tableCall_spec hm.coherent hm.single
    fun hr => mt (shadowed_iff hm.clean _).2 (hsafe hr)
  rw [← hm.get_eq, hcall, hx.reply_eq]
  exact hspec.fits

/-- A safe call keeps the relation. -/
theorem Models.call (hm : Models m history) (hsafe : m.SafeCall r) :
    Models (m.call r).1 (history ++ [(r, (m.call r).2)]) := by
  obtain ⟨x, hcall, hx⟩ := call_shows hm.clean hm.coherent r
  have hspec := tableCall_spec hm.coherent hm.single
    fun hr => mt (shadowed_iff hm.clean _).2 (hsafe hr)
  rw [hcall]
  refine ⟨hx.clean, ?_, ?_, ?_⟩
  · rw [hx.view_eq]
    exact tableCall_coherent hm.coherent r
  · rw [hx.view_eq]
    exact hspec.single
  · rw [content_append, ← hm.get_eq, hx.view_eq, hx.reply_eq]
    exact hspec.get_eq

variable (hash : UInt64 → UInt64) (cap : Nat)

theorem clean_new : Clean (withHasherAndCapacity hash cap) := by
  refine ⟨fun _ => Or.inl rfl, ?_⟩
  have hle := capacity_new_le hash cap
  omega

/-- Every run leaves a clean map with a coherent view. -/
theorem run_clean (calls : List Request) :
    let m := exec call (withHasherAndCapacity hash cap) calls
    Clean m ∧ Coherent m.view := by
  let inv : InlineU64Map → Prop := fun m => Clean m ∧ Coherent m.view
  refine exec_inv inv (fun m r hm _ => ?_) ?_ (guarded_true _ _)
  · obtain ⟨x, hcall, hx⟩ := call_shows hm.1 hm.2 r
    rw [hcall]
    refine ⟨hx.clean, ?_⟩
    rw [hx.view_eq]
    exact tableCall_coherent hm.2 r
  · exact ⟨clean_new hash cap, coherent_new hash cap⟩

/-- A run of safe calls keeps the relation to its whole history. -/
theorem run_models {calls : List Request}
    (hsafe : Guarded call SafeCall (withHasherAndCapacity hash cap) calls) :
    Models (exec call (withHasherAndCapacity hash cap) calls)
      (trace call (withHasherAndCapacity hash cap) calls) := by
  have hc := coherent_new (V := UInt64) hash cap
  have hstart : Models (withHasherAndCapacity hash cap) [] := by
    refine ⟨clean_new hash cap, hc, ?_, ?_⟩
    · intro i j e f he
      cases he
    · funext k
      refine get_eq_none_of_absent hc fun w hst => ?_
      obtain ⟨i, hi⟩ := hst
      cases hi
  have hrun := exec_sim Models (fun _ _ _ hm hs => hm.call hs) hstart hsafe
  rwa [nil_append] at hrun

/-- An unsafe call leaves its key in two slots. -/
theorem not_single_of_unsafe (hc : Clean m) (hco : Coherent m.view)
    (hun : ¬ m.SafeCall r) : ¬ Single (m.call r).1.view := by
  obtain ⟨x, hcall, hx⟩ := call_shows hc hco r
  rw [hcall, hx.view_eq]
  obtain ⟨hr, hsh⟩ := Classical.not_imp.1 hun
  have hview := (shadowed_iff hc _).1 (not_not.1 hsh)
  cases r with
  | insert _ value | insertReturningOld _ value =>
    exact insertInner_shadowed hco hview value
  | _ => exact Bool.noConfusion hr

end

/-- The map refines the finite map along a call sequence exactly when no
insert of the sequence is of a shadowed key. -/
theorem inline_runRefines_iff (hash : UInt64 → UInt64) (cap : Nat) (calls : List Request) :
    RunRefines hash cap calls ↔ ∀ pre r post, calls = pre ++ r :: post →
        SafeCall (Lib.exec call (withHasherAndCapacity hash cap) pre) r := by
  constructor
  · intro h pre r post hsplit
    subst hsplit
    by_contra hun
    -- the state after the unsafe call holds a key in two slots
    have hafter := (h (pre ++ [r]) post (by simp)).1.one_slot
    obtain ⟨hc, hco⟩ := run_clean hash cap pre
    have hclean := (run_clean hash cap (pre ++ [r])).1
    have hsingle := (single_iff hclean).2 hafter
    rw [exec_append] at hsingle
    exact not_single_of_unsafe hc hco hun hsingle
  · intro h pre post hsplit
    subst hsplit
    have hg := guarded_iff.2 h
    rw [guarded_append] at hg
    have hm := run_models hash cap hg.1
    refine ⟨hm.refinesMap, ?_⟩
    intro r rest hpost
    subst hpost
    exact hm.replyFits hg.2.1

/-- Two colliding keys, the first removed and the second written again. -/
def reinsertion : List Request :=
  [.insert ⟨1, one_ne_reserved⟩ 10, .insert ⟨2, two_ne_reserved⟩ 20,
    .remove ⟨1, one_ne_reserved⟩, .insert ⟨2, two_ne_reserved⟩ 21]

/-- The last write claims the tombstone although its key is present, which
leaves the key in two slots. -/
theorem inline_reinsert_breaks_map : ¬ RunRefines (fun _ => 0) 8 reinsertion := by
  intro h
  have hone := (h reinsertion [] (append_nil _).symm).1.one_slot
  have hslot : 0 = 1 := hone 0 1 2 (by decide +kernel) (by decide +kernel)
  exact absurd hslot (by decide)

end MemoryFirst.Core.InlineU64Map
