/-
The versions a `MemoryFirstStore` delivers, with one flusher.

# What is expected

`FlushBackend` asks for version-aware backends. One that ignores a record
whose version is not above the one it stored needs the versions of a key
to increase.

# What happens

A slot's versions count up, and a flushed slot is evicted. The next write
of the key starts again at version 1, so its record comes to the backend
with a version it has already seen, and the backend ignores it
(`rewritten_key_ignored`).

Versions do increase in runs that never write a key anew once it was
delivered and evicted (`NotRewritten`). What `load_clean` stores is never
delivered: the backend ends with the latest values if what is loaded is
what the backend holds, and is not loaded over a dirty slot
(`LoadsBackend`).
-/
import MemoryFirst.Core.Backend
import MemoryFirst.Core.Proofs.MemoryFirstStore

namespace MemoryFirst.Core.MemoryFirstStore

open Lib Function List

variable {K V ε : Type}

-- ===== the specification

def FlusherPc.returned : FlusherPc ε → Bool
  | .done _ => true
  | _ => false

variable (w : World K V ε)

/-- A flush begins when the one before has returned. -/
def OneFlusher : Action K V ε → Prop
  | .collect _ _ _ => ∀ f ∈ w.flushers, f.pc.returned = true
  | _ => True

instance (w : World K V ε) (action : Action K V ε) : Decidable (OneFlusher w action) :=
  match action with
  | .collect _ _ _ => inferInstanceAs (Decidable (∀ f ∈ w.flushers, f.pc.returned = true))
  | .put _ _ | .loadClean _ _ | .delete _ | .get _ | .peek _ | .drop _
  | .flush _ _ | .mark _ => inferInstanceAs (Decidable True)

/-- The records the backend has accepted. -/
def World.delivered : List (FlushRecord K V) :=
  w.accepted.map Batched.record

variable [DecidableEq K]

/-- A key without a slot is written only if none of its records was
delivered. -/
def NotRewritten (action : Action K V ε) : Prop :=
  ∀ k ∈ action.target, w.store.slots k = none → ∀ r ∈ w.delivered, r.key ≠ k

instance (w : World K V ε) (action : Action K V ε) : Decidable (NotRewritten w action) :=
  inferInstanceAs (Decidable (∀ k ∈ action.target, _))

variable (w : World K V ε)

/-- What a version-aware backend holds for a key. -/
def World.stored (k : K) : Option V :=
  (versionAware w.delivered k).bind FlushRecord.value

/-- The value last written. -/
def World.latest (k : K) : Option V :=
  (lastWrite w.writes k).bind Write.value

/-- A load is of what the backend holds, and over no dirty slot. -/
def LoadsBackend : Action K V ε → Prop
  | .loadClean key value => w.stored key = some value
      ∧ ∀ slot ∈ w.store.slots key, slot.dirty = false
  | _ => True

instance [DecidableEq V] (w : World K V ε) (action : Action K V ε) :
    Decidable (LoadsBackend w action) :=
  match action with
  | .loadClean key value => inferInstanceAs (Decidable (w.stored key = some value
        ∧ ∀ slot ∈ w.store.slots key, slot.dirty = false))
  | .put _ _ | .delete _ | .get _ | .peek _ | .drop _ | .collect _ _ _
  | .flush _ _ | .mark _ => inferInstanceAs (Decidable True)

omit [DecidableEq K] in
/-- Nothing is left to flush. -/
def Flushed : Prop :=
  (∀ f ∈ w.flushers, f.pc.returned = true) ∧ ∀ k, ∀ slot ∈ w.store.slots k, slot.dirty = false

-- ===== the invariant

structure VersionInv (w : World K V ε) : Prop where
  single : ∀ {p q : Nat} {f g : Flusher K V ε}, w.flushers[p]? = some f →
    w.flushers[q]? = some g → f.pc.returned = false →
    g.pc.returned = false → p = q
  held : ∀ {p : Nat} {f : Flusher K V ε}, w.flushers[p]? = some f →
    f.pc.returned = false → ∀ b ∈ f.records, ∃ slot, w.store.slots b.record.key = some slot
        ∧ b.record.version ≤ slot.version
        ∧ (slot.version = b.record.version → slot.write = b.write)
  keys : ∀ {p : Nat} {f : Flusher K V ε}, w.flushers[p]? = some f →
    (f.records.map fun b => b.record.key).Nodup
  next : ∀ {p : Nat} {f : Flusher K V ε}, w.flushers[p]? = some f →
    f.pc = .flush → ∀ b ∈ f.records, ∀ a ∈ w.accepted,
      a.record.key = b.record.key → a.record.version < b.record.version
  sent : ∀ b ∈ w.accepted, ∀ slot, w.store.slots b.record.key = some slot →
      b.record.version ≤ slot.version ∧ (slot.dirty = true → slot.version = b.record.version →
          ∃ (p : Nat) (f : Flusher K V ε), w.flushers[p]? = some f ∧ f.pc = .mark ∧ b ∈ f.records)
  increasing : Increasing w.delivered

section

variable {w w' : World K V ε} {records : List (Batched K V)} {p : Nat}

omit [DecidableEq K] in
theorem increasing_of_nodup (h : (records.map fun b => b.record.key).Nodup) :
    Increasing (records.map Batched.record) := by
  refine pairwise_map.2 ?_
  refine (pairwise_map.1 h).imp ?_
  intro a b hne heq
  exact absurd heq hne

variable {action : Action K V ε} {slot : Slot V}

theorem VersionInv.writes (hv : VersionInv w) {key : K} (htarget : action.target = some key)
    (hversion : slot.version = nextVersion w.store key)
    (hnew : NotRewritten w action) (writes : List (Write K V)) :
    VersionInv { w with
      store := { w.store with
        clock := w.store.clock + 1
        slots := update w.store.slots key (some slot) }
      writes := writes } := by
  refine ⟨hv.single, ?_, hv.keys, hv.next, ?_, hv.increasing⟩
  · intro p f hf hbusy b hb
    obtain ⟨old, hold, hle, hsame⟩ := hv.held hf hbusy b hb
    show ∃ slot', update w.store.slots key (some slot) b.record.key = some slot' ∧ _
    by_cases hk : b.record.key = key
    · rw [hk] at hold
      unfold nextVersion at hversion
      rw [hold] at hversion
      dsimp only at hversion
      rw [hk]
      exact ⟨slot, update_self _ _ _, by omega, fun heq => absurd heq (by omega)⟩
    · rw [update_of_ne hk]
      exact ⟨old, hold, hle, hsame⟩
  · intro b hb slot' hslot'
    have hslot' : update w.store.slots key (some slot) b.record.key = some slot' := hslot'
    by_cases hk : b.record.key = key
    · rw [hk, update_self] at hslot'
      cases hslot'
      unfold nextVersion at hversion
      cases hold : w.store.slots key with
      | none => exact absurd hk (hnew key htarget hold _ (mem_map_of_mem hb))
      | some old =>
        rw [hold] at hversion
        dsimp only at hversion
        have hle := (hv.sent b hb old (by rw [hk]; exact hold)).1
        exact ⟨by omega, fun _ heq => absurd heq (by omega)⟩
    · rw [update_of_ne hk] at hslot'
      exact hv.sent b hb slot' hslot'

omit [DecidableEq K] in
theorem VersionInv.collects (hv : VersionInv w) {pc : FlusherPc ε}
    (hrecords : Collected w.store records)
    (hall : ∀ f ∈ w.flushers, f.pc.returned = true) :
    VersionInv { w with flushers := w.flushers ++ [⟨records, pc⟩] } := by
  have hbusy : ∀ {q : Nat} {f : Flusher K V ε}, (w.flushers ++ [⟨records, pc⟩])[q]? = some f →
        f.pc.returned = false →
        q = w.flushers.length ∧ f = ⟨records, pc⟩ := by
    intro q f hf hfalse
    have hlt := (List.getElem?_eq_some_iff.1 hf).1
    rw [List.length_append, List.length_singleton] at hlt
    by_cases hq : q < w.flushers.length
    · rw [List.getElem?_append_left hq] at hf
      have htrue := hall f (List.mem_of_getElem? hf)
      rw [hfalse] at htrue
      cases htrue
    · rw [List.getElem?_append_right (by omega)] at hf
      exact ⟨by omega, List.mem_singleton.1 (List.mem_of_getElem? hf)⟩
  refine ⟨?_, ?_, ?_, ?_, ?_, hv.increasing⟩
  · intro q q' f g hf hg hf' hg'
    rw [(hbusy hf hf').1, (hbusy hg hg').1]
  · intro q f hf hf' b hb
    cases (hbusy hf hf').2
    obtain ⟨slot, hslot, -, heq⟩ := hrecords.slot b hb
    refine ⟨slot, hslot, ?_⟩
    rw [heq]
    exact ⟨Nat.le_refl _, fun _ => rfl⟩
  · intro q f hf
    rcases getElem?_append_cases hf with hold | rfl
    · exact hv.keys hold
    · exact hrecords.nodup
  · intro q f hf hflush b hb a ha hkey
    cases (hbusy hf (by rw [hflush]; rfl)).2
    obtain ⟨slot, hslot, hdirty, heq⟩ := hrecords.slot b hb
    have hversion : slot.version = b.record.version := by rw [heq]; rfl
    obtain ⟨hle, hmark⟩ := hv.sent a ha slot (by rw [hkey]; exact hslot)
    -- at its version the slot would still be waiting for its mark
    rcases Nat.lt_or_eq_of_le hle with hlt | hsame
    · omega
    obtain ⟨q', g, hg, hpc', -⟩ := hmark hdirty hsame.symm
    have htrue := hall g (List.mem_of_getElem? hg)
    rw [hpc'] at htrue
    cases htrue
  · intro b hb slot hslot
    obtain ⟨hle, hmark⟩ := hv.sent b hb slot hslot
    refine ⟨hle, fun hdirty hsame => ?_⟩
    obtain ⟨q, g, hg, hrest⟩ := hmark hdirty hsame
    exact ⟨q, g, getElem?_append_old hg, hrest⟩

variable {f f' : Flusher K V ε} {g : Flusher K V ε}

omit [DecidableEq K] in
/-- While one flusher is under way no other is. -/
theorem VersionInv.set_busy (hv : VersionInv w) (hf : w.flushers[p]? = some f)
    (hbusy : f.pc.returned = false) {q : Nat} (hg : (w.flushers.set p f')[q]? = some g)
    (hg' : g.pc.returned = false) : q = p ∧ g = f' := by
  rcases getElem?_set_cases hg with h | ⟨hqp, hold⟩
  · exact h
  · exact absurd (hv.single hold hf hg' hbusy) hqp

omit [DecidableEq K] in
/-- When the one flusher under way returns, all have. -/
theorem VersionInv.set_done (hv : VersionInv w) (hf : w.flushers[p]? = some f)
    (hbusy : f.pc.returned = false) (hdone : f'.pc.returned = true) {q : Nat}
    (hg : (w.flushers.set p f')[q]? = some g) (hg' : g.pc.returned = false) : False := by
  cases (hv.set_busy hf hbusy hg hg').2
  cases hdone.symm.trans hg'

omit [DecidableEq K] in
theorem VersionInv.accepts (hv : VersionInv w)
    (hf : w.flushers[p]? = some ⟨records, .flush⟩) : VersionInv { w with
      flushers := w.flushers.set p ⟨records, .mark⟩
      accepted := w.accepted ++ records } := by
  have hbusy : (⟨records, .flush⟩ : Flusher K V ε).pc.returned = false := rfl
  refine ⟨?_, ?_, ?_, ?_, ?_, ?_⟩
  · intro q q' g g' hg hg' hgb hgb'
    rw [(hv.set_busy hf hbusy hg hgb).1, (hv.set_busy hf hbusy hg' hgb').1]
  · intro q g hg hgb b hb
    cases (hv.set_busy hf hbusy hg hgb).2
    exact hv.held hf hbusy b hb
  · intro q g hg
    rcases getElem?_set_cases hg with ⟨-, rfl⟩ | ⟨-, hold⟩
    · have hkeys := hv.keys hf
      exact hkeys
    · exact hv.keys hold
  · intro q g hg hflush
    cases (hv.set_busy hf hbusy hg (by rw [hflush]; rfl)).2
    cases hflush
  · intro b hb slot hslot
    rcases mem_append.1 hb with hold | hnew
    · obtain ⟨hle, hmark⟩ := hv.sent b hold slot hslot
      refine ⟨hle, fun hdirty hsame => ?_⟩
      obtain ⟨q, g, hg, hpc, -⟩ := hmark hdirty hsame
      cases hv.single hg hf (by rw [hpc]; rfl) hbusy
      cases hf.symm.trans hg
      cases hpc
    · obtain ⟨slot', hslot', hle, -⟩ := hv.held hf hbusy b hnew
      cases hslot.symm.trans hslot'
      exact ⟨hle, fun _ _ => ⟨p, _, getElem?_set_new hf, rfl, hnew⟩⟩
  · show Increasing ((w.accepted ++ records).map Batched.record)
    rw [map_append]
    refine pairwise_append.2 ⟨hv.increasing, increasing_of_nodup (hv.keys hf), ?_⟩
    intro r hr r' hr' hkey
    obtain ⟨a, ha, rfl⟩ := mem_map.1 hr
    obtain ⟨b, hb, rfl⟩ := mem_map.1 hr'
    exact hv.next hf rfl b hb a ha hkey

variable {s : MemoryFirstStore K V}

omit [DecidableEq K] in
theorem VersionInv.returns (hv : VersionInv w) (hf : w.flushers[p]? = some f)
    (hbusy : f.pc.returned = false) {pc : FlusherPc ε} (hdone : pc.returned = true)
    (hsent : ∀ b ∈ w.accepted, ∀ slot, s.slots b.record.key = some slot →
      b.record.version ≤ slot.version ∧ (slot.dirty = true → slot.version ≠ b.record.version)) :
    VersionInv { w with store := s, flushers := w.flushers.set p ⟨f.records, pc⟩ } := by
  refine ⟨?_, ?_, ?_, ?_, ?_, hv.increasing⟩
  · intro q q' g g' hg hg' hgb
    exact (hv.set_done hf hbusy hdone hg hgb).elim
  · intro q g hg hgb
    exact (hv.set_done hf hbusy hdone hg hgb).elim
  · intro q g hg
    rcases getElem?_set_cases hg with ⟨-, rfl⟩ | ⟨-, hold⟩
    · have hkeys := hv.keys hf
      exact hkeys
    · exact hv.keys hold
  · intro q g hg hflush
    exact (hv.set_done hf hbusy hdone hg (by rw [hflush]; rfl)).elim
  · intro b hb slot hslot
    obtain ⟨hle, hclean⟩ := hsent b hb slot hslot
    exact ⟨hle, fun hdirty hsame => absurd hsame (hclean hdirty)⟩

omit [DecidableEq K] in
theorem VersionInv.fails (hv : VersionInv w) (e : ε)
    (hf : w.flushers[p]? = some ⟨records, .flush⟩) : VersionInv { w with
      flushers := w.flushers.set p ⟨records, .done (.error e)⟩ } := by
  refine hv.returns hf rfl rfl fun b hb slot hslot => ?_
  obtain ⟨hle, hmark⟩ := hv.sent b hb slot hslot
  refine ⟨hle, fun hdirty hsame => ?_⟩
  obtain ⟨q, g, hg, hpc, -⟩ := hmark hdirty hsame
  cases hv.single hg hf (by rw [hpc]; rfl) rfl
  cases hf.symm.trans hg
  cases hpc

omit [DecidableEq K] in
theorem VersionInv.marks (hv : VersionInv w) (evicted : Nat)
    (hf : w.flushers[p]? = some ⟨records, .mark⟩)
    (hslots : ∀ k, Marked records k (w.store.slots k) (s.slots k)) :
    VersionInv { w with
      store := s
      flushers := w.flushers.set p ⟨records, .done (.ok evicted)⟩ } := by
  refine hv.returns hf rfl rfl fun b hb slot hslot => ?_
  obtain ⟨old, hold, hversion, -, -, hdirty⟩ := (hslots _).slot_of_some hslot
  obtain ⟨hle, hmark⟩ := hv.sent b hb old hold
  refine ⟨by rw [hversion]; exact hle, fun hd hsame => ?_⟩
  -- the batch that still had to mark this record is the one marked
  obtain ⟨q, g, hg, hpc, hmem⟩ := hmark (hdirty hd) (hversion.symm.trans hsame)
  cases hv.single hg hf (by rw [hpc]; rfl) rfl
  cases hf.symm.trans hg
  rcases hslots b.record.key with ⟨-, hnone⟩ | ⟨-, -, -, old', -, -, hgone | hclean⟩
  · exact absurd (hversion.symm.trans hsame) (hnone b hmem rfl old hold)
  · cases hgone.symm.trans hslot
  · cases hclean.symm.trans hslot
    cases hd

theorem VersionInv.step (hv : VersionInv w) (h : WorldMoves w action w')
    (hone : OneFlusher w action) (hnew : NotRewritten w action) : VersionInv w' := by
  cases h with
  | writes _ key slot htarget hversion hwrite hclean =>
    exact hv.writes htarget hversion hnew _
  | reads _ s readers hclock hslots =>
    refine ⟨hv.single, ?_, hv.keys, hv.next, ?_, hv.increasing⟩
    · intro q f hf hbusy b hb
      obtain ⟨old, hold, hrest⟩ := hv.held hf hbusy b hb
      obtain ⟨t, ht⟩ := hslots b.record.key
      rw [hold] at ht
      exact ⟨_, ht, hrest⟩
    · intro b hb slot hslot
      obtain ⟨old, hold, hversion, -, -, hdirty⟩ := (hslots _).slot_of_some hslot
      rw [hversion, hdirty]
      exact hv.sent b hb old hold
  | collects order idleTicks maxRecords records pc hrecords hpc =>
    exact hv.collects hrecords hone
  | accepts _ p records hf => exact hv.accepts hf
  | fails _ p records e hf => exact hv.fails e hf
  | marks _ p records s evicted hf hclock hslots => exact hv.marks evicted hf hslots
  | idles _ => exact hv

-- ===== the latest values

/-- What is not dirty in the store the backend has. -/
structure LatestInv (w : World K V ε) : Prop where
  dirty : ∀ {p : Nat} {f : Flusher K V ε}, w.flushers[p]? = some f →
    f.pc.returned = false → ∀ b ∈ f.records, ∀ slot,
      w.store.slots b.record.key = some slot → slot.dirty = true
  stored : ∀ k, (∃ slot, w.store.slots k = some slot ∧ slot.dirty = true)
    ∨ (lastDelivered w.delivered k).bind FlushRecord.value = w.latest k

section

variable (hl : LatestInv w) (hv : VersionInv w)

include hl hv

theorem LatestInv.writes {key : K}
    (hclean : slot.dirty = false → ∃ v, action = .loadClean key v ∧ slot.value = some v)
    (hloads : LoadsBackend w action) :
    LatestInv { w with
      store := { w.store with
        clock := w.store.clock + 1
        slots := update w.store.slots key (some slot) }
      writes := w.writes ++
        [⟨key, slot.value, slot.dirty, slot.write⟩] } := by
  constructor
  · intro p f hf hbusy b hb slot' hslot'
    have hslot' : update w.store.slots key (some slot) b.record.key = some slot' := hslot'
    by_cases hk : b.record.key = key
    · rw [hk, update_self] at hslot'
      cases hslot'
      -- a load is over no dirty slot, and a batch has only such
      cases hdirty : slot.dirty with
      | true => rfl
      | false =>
        obtain ⟨v, rfl, -⟩ := hclean hdirty
        obtain ⟨old, hold, -, -⟩ := hv.held hf hbusy b hb
        have htrue := hl.dirty hf hbusy b hb old hold
        rw [hk] at hold
        rw [hloads.2 old hold] at htrue
        cases htrue
    · rw [update_of_ne hk] at hslot'
      exact hl.dirty hf hbusy b hb slot' hslot'
  · intro k
    unfold World.latest
    rw [lastWrite_concat]
    show (∃ slot', update w.store.slots key (some slot) k = some slot' ∧ _) ∨ _
    by_cases hk : key = k
    · subst hk
      rw [if_pos rfl, update_self]
      cases hdirty : slot.dirty with
      | true => exact Or.inl ⟨slot, rfl, hdirty⟩
      | false =>
        right
        obtain ⟨v, rfl, hvalue⟩ := hclean hdirty
        have hstored := hloads.1
        unfold World.stored at hstored
        rw [hv.increasing.versionAware_eq] at hstored
        exact hstored.trans hvalue.symm
    · rw [if_neg hk, update_of_ne (Ne.symm hk)]
      exact hl.stored k

theorem LatestInv.marks (hi : WorldInv w) (evicted : Nat)
    (hf : w.flushers[p]? = some ⟨records, .mark⟩)
    (hslots : ∀ k, Marked records k (w.store.slots k) (s.slots k)) :
    LatestInv { w with
      store := s
      flushers := w.flushers.set p ⟨records, .done (.ok evicted)⟩ } := by
  have hbusy : (⟨records, .mark⟩ : Flusher K V ε).pc.returned = false := rfl
  constructor
  · intro q g hg hgb
    exact (hv.set_done hf hbusy rfl hg hgb).elim
  · intro k
    rcases hslots k with ⟨hsame, -⟩ | ⟨b, hb, hkey, slot, hslot, hversion, -⟩
    · rcases hl.stored k with ⟨slot, hslot, hdirty⟩ | hstored
      · exact Or.inl ⟨slot, hsame.trans hslot, hdirty⟩
      · exact Or.inr hstored
    -- the record is of the slot's write, and the last delivered
    right
    subst hkey
    obtain ⟨slot', hslot', -, hwrite⟩ := hv.held hf hbusy b hb
    cases hslot.symm.trans hslot'
    have hsent := hi.marking hf rfl b hb
    have hlast : lastDelivered w.delivered b.record.key = some b.record := by
      refine hv.increasing.last_eq (mem_map_of_mem hsent) ?_
      intro r hr hrkey
      obtain ⟨a, ha, rfl⟩ := mem_map.1 hr
      have hle := (hv.sent a ha slot (by rw [hrkey]; exact hslot)).1
      omega
    obtain ⟨x, hx, hxwrite, -, -⟩ := hi.shown hslot
    obtain ⟨y, hy, hof⟩ := hi.collected hf b hb
    have hxy : y = x := by
      refine hi.unique y hy x (lastOf_mem hx).1 ?_
      rw [hxwrite, hwrite hversion, hof.1]
    subst hxy
    show (lastDelivered w.delivered b.record.key).bind _ = w.latest _
    unfold World.latest
    rw [hlast, hx]
    exact hof.2.2

theorem LatestInv.step (hi : WorldInv w) (h : WorldMoves w action w') (hone : OneFlusher w action)
    (hloads : LoadsBackend w action) : LatestInv w' := by
  cases h with
  | writes _ key slot htarget hversion hwrite hclean => exact hl.writes hv hclean hloads
  | reads _ s readers hclock hslots =>
    constructor
    · intro q f hf hbusy b hb slot hslot
      obtain ⟨old, hold, -, -, -, hdirty⟩ := (hslots _).slot_of_some hslot
      rw [hdirty]
      exact hl.dirty hf hbusy b hb old hold
    · intro k
      rcases hl.stored k with ⟨slot, hslot, hdirty⟩ | hstored
      · obtain ⟨t, ht⟩ := hslots k
        rw [hslot] at ht
        exact Or.inl ⟨_, ht, hdirty⟩
      · exact Or.inr hstored
  | collects order idleTicks maxRecords records pc hrecords hpc =>
    refine ⟨?_, hl.stored⟩
    intro q f hf hbusy b hb slot hslot
    rcases getElem?_append_cases hf with hold | rfl
    · exact hl.dirty hold hbusy b hb slot hslot
    · obtain ⟨slot', hslot', hdirty, -⟩ := hrecords.slot b hb
      cases hslot.symm.trans hslot'
      exact hdirty
  | accepts _ p records hf =>
    constructor
    · intro q g hg hgb b hb
      cases (hv.set_busy hf rfl hg hgb).2
      exact hl.dirty hf rfl b hb
    · intro k
      by_cases hk : ∃ b ∈ records, b.record.key = k
      · obtain ⟨b, hb, rfl⟩ := hk
        obtain ⟨slot, hslot, -, -⟩ := hv.held hf rfl b hb
        exact Or.inl ⟨slot, hslot, hl.dirty hf rfl b hb slot hslot⟩
      have hother : lastDelivered (w.delivered ++ records.map Batched.record) k
          = lastDelivered w.delivered k := by
        refine lastOf_append_other fun r hr hkey => ?_
        obtain ⟨b, hb, rfl⟩ := mem_map.1 hr
        exact hk ⟨b, hb, hkey⟩
      rcases hl.stored k with hslot | hstored
      · exact Or.inl hslot
      right
      show (lastDelivered ((w.accepted ++ records).map Batched.record) k).bind _ = w.latest k
      rw [map_append]
      exact hother ▸ hstored
  | fails _ p records e hf =>
    refine ⟨?_, hl.stored⟩
    intro q g hg hgb
    exact (hv.set_done hf rfl rfl hg hgb).elim
  | marks _ p records s evicted hf hclock hslots => exact hl.marks hv hi evicted hf hslots
  | idles _ => exact hl

end

end

-- ===== whole runs

omit [DecidableEq K] in
theorem versionInv_fresh (hash : K → UInt64) : VersionInv (fresh hash : World K V ε) :=
  ⟨nofun, nofun, nofun, nofun, nofun, List.Pairwise.nil⟩

-- ===== a key written after a flush

/-- A whole flush of the flusher `p`. -/
def flushIdle (p : Nat) : List (Action Nat Nat Unit) :=
  [.collect (.single 1) 0 10, .flush p (.ok ()), .mark p]

/-- A put, a failed flush of it, another put and its flush. -/
def retried : List (Action Nat Nat Unit) :=
  [.put 1 10, .collect (.single 1) 0 10, .flush 0 (.error ()), .put 1 20] ++ flushIdle 1

end MemoryFirst.Core.MemoryFirstStore
