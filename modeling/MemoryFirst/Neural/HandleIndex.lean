/-
`mfs-neural/src/inline_handle_index.rs`, executed by one thread: the
index from keys to handles that the dense caches use.

# What is modelled

The index has the arrays, the lock words, the probe and the constants of
`InlineU64Map`, with handles for values, and its `get` and
`remove_if_value` make the same accesses in the same order: those two are
taken from there. Its `insert_returning_old` is another loop. It passes a
tombstone, remembers the first one and claims it only when its key turned
out to be absent.

A writer's word makes the loop wait, and a claim that finds another word
starts it over. Both are a call that does not return here, since there is
nobody to change the word.

# The result

The index refines a finite map along every sequence of calls
(`handles_refine_map`), which `InlineU64Map` does not.
-/
import MemoryFirst.Core.InlineRuns

namespace MemoryFirst.Neural.InlineHandleIndex

open Core InlineU64Map
open ConcurrentMap (Coherent Single OwnSlot get_eq_some_iff get_eq_none_of_absent
  get_of_stored_update stored_replaceAt stored_claimAt)

-- ===== the calls

inductive Call
  | get (key : Key)
  | insertReturningOld (key : Key) (handle : UInt64)
  | removeIfValue (key : Key) (expected : UInt64)

def Call.request : Call → Request
  | .get key => .get key
  | .insertReturningOld key handle => .insertReturningOld key handle
  | .removeIfValue key expected => .removeIfValue key expected

variable (m : InlineU64Map) (r : Request)

def claimInsertSlot (i : Nat) (expected : UInt16) : InlineU64Map × Option Reply :=
  if m.slotMeta i = expected then (m.claimAt i r, some r.claimed) else (m, none)

/-- The loop of `insert_returning_old` at slot `i`: the end of the call,
or the first tombstone so far. -/
def insertVisit (i : Nat) (firstTombstone : Option Nat) :
    (InlineU64Map × Option Reply) ⊕ Option Nat :=
  let word := m.slotMeta i
  let h2 := m.h2 r.key
  if isWritingMatch word h2 then .inl (m, none)
  else if metaH2 word = h2 ∧ word &&& WRITING_BIT = 0 ∧ word ≠ EMPTY ∧ word ≠ TOMBSTONE then
    if m.keys i = r.key then .inl (m.rewriteAt i r, some (r.replaced (some (m.values i))))
    else .inr firstTombstone
  else if word = TOMBSTONE then .inr (firstTombstone.or (some i))
  else if word = EMPTY then
    match firstTombstone with
    | some t => .inl (claimInsertSlot m r t TOMBSTONE)
    | none => .inl (claimInsertSlot m r i EMPTY)
  else .inr firstTombstone

def insertLoop (left len i : Nat) (firstTombstone : Option Nat) : InlineU64Map × Option Reply :=
  match insertVisit m r i firstTombstone, left with
  | .inl out, _ => out
  | .inr firstTombstone, left + 1 =>
    insertLoop left (len + 1) (m.nextSlot (len + 1) i) firstTombstone
  | .inr (some t), 0 => claimInsertSlot m r t TOMBSTONE
  | .inr none, 0 => (m, some r.missed)

def call (c : Call) : InlineU64Map × Option Reply :=
  match c with
  | .insertReturningOld key _ => insertLoop m c.request m.probeLimit 0 (m.h1 key) none
  | _ => m.call c.request

-- ===== one slot

variable {m r} {i : Nat} {tomb : Option Nat}

theorem insertVisit_empty (h : m.slotMeta i = EMPTY) : insertVisit m r i tomb
    = .inl (claimInsertSlot m r (tomb.getD i) (if tomb.isSome then TOMBSTONE else EMPTY)) := by
  have hne : EMPTY ≠ TOMBSTONE := by decide
  cases tomb <;> simp [insertVisit, h, isWritingMatch, hne]

theorem insertVisit_tombstone (h : m.slotMeta i = TOMBSTONE) :
    insertVisit m r i tomb = .inr (tomb.or (some i)) := by
  simp [insertVisit, h, isWritingMatch]

theorem insertVisit_own (h : Tagged (m.h2 r.key) (m.slotMeta i)) (hk : m.keys i = r.key) :
    insertVisit m r i tomb = .inl (m.rewriteAt i r, some (r.replaced (some (m.values i)))) := by
  have ht := isTag_h2 m r.key
  simp [insertVisit, isWritingMatch_of_unlocked h.unlocked, h.tag_eq, h.unlocked,
    h.ne_empty ht, h.ne_tombstone ht, hk]

theorem insertVisit_other (h : Tagged (m.h2 (m.keys i)) (m.slotMeta i))
    (hk : m.keys i ≠ r.key) : insertVisit m r i tomb = .inr tomb := by
  have ht := isTag_h2 m (m.keys i)
  simp [insertVisit, isWritingMatch_of_unlocked h.unlocked, h.unlocked, h.ne_empty ht,
    h.ne_tombstone ht, hk]

-- ===== the loop

/-- Slot `n` of the path has an entry of another key. -/
def Busy (m : InlineU64Map) (key : UInt64) (n : Nat) : Prop :=
  ∃ e, m.view.entries (m.slot key n) = some e ∧ e.key ≠ key

/-- What the loop knows after `len` slots: none of them has the key, and
all before the tombstone it remembers are busy. -/
structure Seen (m : InlineU64Map) (key : UInt64) (len : Nat) (tomb : Option Nat) : Prop where
  past : ∀ a < len, ∀ w, m.view.entries (m.slot key a) ≠ some ⟨key, w⟩
  first : ∃ n, (∀ a < n, Busy m key a) ∧ (tomb = none ∧ n = len
    ∨ tomb = some (m.slot key n) ∧ n < len ∧ m.slotMeta (m.slot key n) = TOMBSTONE)

/-- Everything an insert can do. -/
inductive Inserted (m : InlineU64Map) (r : Request) (out : InlineU64Map × Option Reply) : Prop
  | replaced (i : Nat) (h : Tagged (m.h2 r.key) (m.slotMeta i)) (hk : m.keys i = r.key)
      (heq : out = (m.rewriteAt i r, some (r.replaced (some (m.values i)))))
  | claimed (n : Nat) (hn : n ≤ m.probeLimit) (hbusy : ∀ a < n, Busy m r.key a)
      (hfree : m.view.entries (m.slot r.key n) = none) (habs : ∀ w, ¬ m.view.Stored r.key w)
      (heq : out = (m.claimAt (m.slot r.key n) r, some r.claimed))
  | full (hbusy : ∀ a ≤ m.probeLimit, Busy m r.key a) (heq : out = (m, some r.missed))

variable {len : Nat}

/-- The remembered tombstone is there to be claimed. -/
theorem Seen.claimed {t : Nat} (hs : Seen m r.key len (some t)) (hlen : len ≤ m.probeLimit + 1)
    (habs : ∀ w, ¬ m.view.Stored r.key w) : Inserted m r (claimInsertSlot m r t TOMBSTONE) := by
  obtain ⟨n, hbusy, ⟨hnone, -⟩ | ⟨ht, hn, htomb⟩⟩ := hs.first
  · cases hnone
  · cases ht
    refine .claimed n (by omega) hbusy (view_tombstone htomb).1 habs ?_
    rw [claimInsertSlot, if_pos htomb]

theorem insertVisit_seen (hc : Clean m) (hco : Coherent m.view) (hlen : len ≤ m.probeLimit)
    (hs : Seen m r.key len tomb) :
    (∃ out, insertVisit m r (m.slot r.key len) tomb = .inl out ∧ Inserted m r out)
      ∨ ∃ tomb', insertVisit m r (m.slot r.key len) tomb = .inr tomb'
        ∧ Seen m r.key (len + 1) tomb' := by
  obtain ⟨n, hbusy, hn⟩ := hs.first
  cases hc.slotView r.key (m.slot r.key len) with
  | own h hk => exact Or.inl ⟨_, insertVisit_own h hk, .replaced _ h hk rfl⟩
  | empty h =>
    have habs := hco.absent_of_empty hs.past (view_empty h).1 (view_empty h).2
    refine Or.inl ⟨_, insertVisit_empty h, ?_⟩
    cases tomb with
    | some t => exact hs.claimed (by omega) habs
    | none =>
      obtain rfl : n = len := by simpa using hn
      refine .claimed n hlen hbusy (view_empty h).1 habs ?_
      simp [claimInsertSlot, h]
  | tombstone h =>
    refine Or.inr ⟨_, insertVisit_tombstone h, fun a ha w => ?_, n, hbusy, ?_⟩
    · rcases Nat.lt_succ_iff_lt_or_eq.1 ha with ha | rfl
      · exact hs.past a ha w
      · simp [(view_tombstone h).1]
    · rcases hn with ⟨rfl, rfl⟩ | ⟨rfl, hn, ht⟩
      · exact Or.inr ⟨rfl, Nat.lt_succ_self _, h⟩
      · exact Or.inr ⟨rfl, by omega, ht⟩
  | other h hk =>
    have hentry := view_entry h
    refine Or.inr ⟨_, insertVisit_other h hk, fun a ha w => ?_, ?_⟩
    · rcases Nat.lt_succ_iff_lt_or_eq.1 ha with ha | rfl
      · exact hs.past a ha w
      · simp [hentry, hk]
    · rcases hn with ⟨rfl, rfl⟩ | ⟨rfl, hn, ht⟩
      · refine ⟨n + 1, fun a ha => ?_, Or.inl ⟨rfl, rfl⟩⟩
        rcases Nat.lt_succ_iff_lt_or_eq.1 ha with ha | rfl
        · exact hbusy a ha
        · exact ⟨_, hentry, hk⟩
      · exact ⟨n, hbusy, Or.inr ⟨rfl, by omega, ht⟩⟩

theorem insertLoop_inserted (hc : Clean m) (hco : Coherent m.view) {left : Nat}
    (hlen : len + left = m.probeLimit) (hs : Seen m r.key len tomb) :
    Inserted m r (insertLoop m r left len (m.slot r.key len) tomb) := by
  induction left generalizing len tomb with
  | zero =>
    unfold insertLoop
    rcases insertVisit_seen hc hco (by omega) hs with ⟨out, hout, hin⟩ | ⟨tomb', hout, hs'⟩
    · rwa [hout]
    rw [hout]
    cases tomb' with
    | some t =>
      refine hs'.claimed (by omega) fun w hst => ?_
      obtain ⟨i, hi⟩ := hst
      obtain ⟨b, hb, rfl, -⟩ := hco.reach hi
      have hle : b ≤ m.probeLimit := hb
      exact hs'.past b (by omega) w hi
    | none =>
      obtain ⟨n, hbusy, ⟨-, rfl⟩ | ⟨hnone, -⟩⟩ := hs'.first
      · exact .full (fun a ha => hbusy a (by omega)) rfl
      · cases hnone
  | succ left ih =>
    have hnext : m.nextSlot (len + 1) (m.slot r.key len) = m.slot r.key (len + 1) := by
      rw [slot, slot, Lib.trail_snoc, Nat.zero_add]
    unfold insertLoop
    rcases insertVisit_seen hc hco (by omega) hs with ⟨out, hout, hin⟩ | ⟨tomb', hout, hs'⟩
    · rwa [hout]
    · rw [hout, hnext]
      exact ih (by omega) hs'

-- ===== the calls, one after another

/-- What a call does to an index that shows a map. -/
structure Fits (m : InlineU64Map) (c : Call) (out : InlineU64Map) (reply : Reply) : Prop where
  clean : Clean out
  coherent : Coherent out.view
  single : Single out.view
  reply_fits : ReplyFits m.view.get c.request (some reply)
  get_eq : out.view.get = effect m.view.get (c.request, some reply)
  full : reply = .outcomeOld .full none → out = m ∧ ∀ n ≤ m.probeLimit, Busy m c.request.key n

variable (hco : Coherent m.view) (hsg : Single m.view)

include hco hsg

/-- An insert that leaves the entries of a map with `key` stored. -/
theorem stored_fits {key : Key} {handle : UInt64} {old : Option UInt64} {out : InlineU64Map}
    {t : ConcurrentMap UInt64 UInt64} {o : InsertOutcome} (hout : Clean out) (hview : out.view = t)
    (hc' : Coherent t) (hs' : Single t) (hst : ∀ k x, t.Stored k x
      ↔ (k = key ∧ x = handle) ∨ (k ≠ key ∧ m.view.Stored k x)) (hget : m.view.get key = old)
    (ho : o = if old.isSome then .replaced else .inserted) :
    Fits m (.insertReturningOld key handle) out (.outcomeOld o old) := by
  subst hview hget ho
  refine ⟨hout, hc', hs', ⟨?_, rfl⟩, ?_, fun hfull => ?_⟩
  · cases m.view.get key <;> simp
  · rw [get_of_stored_update hco hsg hc' hs' hst]
    cases hkey : m.view.get key <;> simp [effect, Call.request]
  · cases hkey : m.view.get key <;> simp [hkey] at hfull

variable (hc : Clean m) (c : Call)

include hc

/-- The calls `InlineU64Map` has too. -/
theorem shared_fits (hr : c.request.inserts = false) :
    ∃ out reply, m.call c.request = (out, some reply) ∧ Fits m c out reply := by
  obtain ⟨x, hcall, hx⟩ := call_shows hc hco c.request
  have hspec := tableCall_spec hco hsg (r := c.request) fun h => absurd (hr.symm.trans h) nofun
  refine ⟨x.1, x.2, hcall, hx.clean, ?_, ?_, ?_, ?_, fun hfull => ?_⟩
  · rw [hx.view_eq]
    exact tableCall_coherent hco _
  · rw [hx.view_eq]
    exact hspec.single
  · rw [hx.reply_eq]
    exact hspec.fits
  · rw [hx.view_eq, hx.reply_eq]
    exact hspec.get_eq
  · have hfits := hspec.fits
    rw [← hx.reply_eq, hfull] at hfits
    cases c with
    | insertReturningOld => cases hr
    | get | removeIfValue => cases hfits

theorem call_fits : ∃ out reply, call m c = (out, some reply) ∧ Fits m c out reply := by
  cases c with
  | get _ | removeIfValue _ _ => exact shared_fits hco hsg hc _ rfl
  | insertReturningOld key handle =>
    have hs : Seen m key 0 none := ⟨nofun, 0, nofun, Or.inl ⟨rfl, rfl⟩⟩
    cases insertLoop_inserted hc hco (r := .insertReturningOld key handle) (Nat.zero_add _) hs with
    | replaced i h hk heq =>
      have hown : m.view.entries i = some ⟨key, m.values i⟩ := by
        rw [view_entry (hk ▸ h), hk]
        rfl
      have ho := hsg.ownSlot hown
      exact ⟨_, _, heq, stored_fits hco hsg (hc.rewriteAt hk) (view_rewriteAt h hk)
        (hco.replaceAt hown) (hsg.replaceAt ho) (fun _ _ => stored_replaceAt ho)
        ((get_eq_some_iff hco hsg).2 ⟨i, hown⟩) rfl⟩
    | claimed n hn hbusy hfree habs heq =>
      have ho := OwnSlot.of_absent hfree habs
      exact ⟨_, _, heq, stored_fits hco hsg (hc.claimAt _ _) (view_claimAt hc hco _ _)
        (hco.claimAt hn hfree hbusy) (hsg.claimAt ho) (fun _ _ => stored_claimAt ho)
        (get_eq_none_of_absent hco habs) rfl⟩
    | full hbusy heq =>
      have hget : m.view.get key = none := by
        refine get_eq_none_of_absent hco fun w hst => ?_
        obtain ⟨i, hi⟩ := hst
        obtain ⟨b, hb, rfl, -⟩ := hco.reach hi
        obtain ⟨e, he, hk⟩ := hbusy b hb
        exact hk (congrArg Entry.key (Option.some.inj (he.symm.trans hi)))
      exact ⟨m, _, heq, hc, hco, hsg, ⟨by simp [hget], hget.symm⟩, rfl, fun _ => ⟨rfl, hbusy⟩⟩

omit hc hco hsg

/-- The index shows the map of its history, and every call returns with
the reply the map gives; an insert reports `Full`, with no change, only
when every slot of its key's path has an entry of another key. -/
theorem handles_refine_map (hash : UInt64 → UInt64) (capacity : Nat) (calls : List Call) :
    let m := Lib.exec call (withHasherAndCapacity hash capacity) calls
    let history := (Lib.trace call (withHasherAndCapacity hash capacity) calls).map
      fun e => (e.1.request, e.2)
    RefinesMap m (content history) ∧ ∀ c, ReplyFits (content history) c.request (call m c).2
        ∧ ((call m c).2 = some (.outcomeOld .full none) → (call m c).1 = m
          ∧ ∀ n ≤ m.probeLimit, isOccupied (m.slotMeta (m.slot c.request.key n)) = true) := by
  intro m history
  have hm : Models m history := by
    refine Lib.exec_sim (fun m h => Models m (h.map fun e : Call × _ => (e.1.request, e.2)))
      (fun m h c hm _ => ?_) (h := []) (@run_models hash capacity [] trivial)
      (Lib.guarded_true _ _)
    obtain ⟨out, reply, hcall, hfits⟩ := call_fits hm.coherent hm.single hm.clean c
    rw [hcall, List.map_append]
    refine ⟨hfits.clean, hfits.coherent, hfits.single, ?_⟩
    rw [List.map_singleton, content_append, ← hm.get_eq]
    exact hfits.get_eq
  refine ⟨hm.refinesMap, fun c => ?_⟩
  obtain ⟨out, reply, hcall, hfits⟩ := call_fits hm.coherent hm.single hm.clean c
  rw [hcall, ← hm.get_eq]
  refine ⟨hfits.reply_fits, fun hfull => ?_⟩
  obtain ⟨hout, hbusy⟩ := hfits.full (Option.some.inj hfull)
  refine ⟨hout, fun n hn => ?_⟩
  obtain ⟨e, he, -⟩ := hbusy n hn
  exact ((view_entries_iff hm.clean).1 he).1

end MemoryFirst.Neural.InlineHandleIndex
