/-
Inserts and updates of the inline map side by side: which key has which
slot.

# Ownership

Without removals a slot is given away once: an insert claims it, writes
its key there, and the key stays. `Owned` says which key a slot was given
to, from the claim on, and it never changes (`owned_after`). An insert
goes from slot to slot of its probe path and leaves behind only slots of
other keys (`OnPath`); a slot claimed for a key is at the first place of
the key's path that was not another key's, so two slots of one key cannot
be (`unique_after`).

# The blind spot

The lock word of a claim carries no tag, so an insert that meets it does
not wait but goes on. If the claim is for its own key, the slot it leaves
behind is not another key's, and the argument breaks. `NoBlindPass` keeps
such steps out.
-/
import MemoryFirst.Core.Proofs.InlineLocks

namespace MemoryFirst.Core.InlineU64Map

open Lib Function List

-- ===== calls

def Request.writes : Request → Bool
  | .insert _ _ => true
  | .insertReturningOld _ _ => true
  | .update _ _ => true
  | _ => false

/-- The reply says that the key is stored now. -/
def Reply.stored : Reply → Bool
  | .outcome o => decide (o ≠ .full)
  | .outcomeOld o _ => decide (o ≠ .full)
  | _ => false

/-- The slot whose lock word is about to be loaded. -/
def Pc.probing : Pc → Option Nat
  | .probe i _ => some i
  | _ => none

/-- The slot the operation has claimed and not published. -/
def Pc.claiming : Pc → Option Nat
  | .claimKey i _ => some i
  | .claimValue i _ => some i
  | .claimMeta i _ => some i
  | _ => none

variable (w : World)

/-- No insert loads the word of a slot that another insert of its key is
claiming. -/
def NoBlindPass : Action → Prop
  | .start _ => True
  | .step p => ∀ proc ∈ w.procs[p]?, ∀ i ∈ proc.pc.probing,
      proc.request.inserts = true → ∀ other ∈ w.procs,
        other.pc.claiming = some i → other.request.key ≠ proc.request.key

instance (w : World) : (action : Action) → Decidable (NoBlindPass w action)
  | .start _ => isTrue trivial
  | .step p => inferInstanceAs (Decidable (∀ proc ∈ w.procs[p]?, _))

variable {pc : Pc} {i : Nat}

theorem holding_of_claiming (h : pc.claiming = some i) : pc.holding = some i := by
  cases pc <;> first | exact h | cases h

-- ===== ownership

variable (m : InlineU64Map)

/-- Slot `i` shows `key`, locked or not. -/
def Published (i : Nat) (key : UInt64) : Prop :=
  metaH2 (m.slotMeta i) = m.h2 key ∧ m.keys i = key

/-- Slot `i` was given to `key`. -/
def Owned (i : Nat) (key : UInt64) : Prop :=
  Published w.map i key ∨ ∃ (p : Nat) (a : Proc), w.procs[p]? = some a
    ∧ a.pc.claiming = some i ∧ a.request.key = key

/-- The first `n` slots of the path of `key` belong to other keys. -/
def Passed (key : UInt64) (n : Nat) : Prop :=
  ∀ a < n, ∃ other, other ≠ key ∧ Owned w (w.map.slot key a) other

/-- Slot `i` is the slot `n` of the path of `key`, past slots of other
keys. -/
structure OnPath (w : World) (key : UInt64) (i n : Nat) : Prop where
  le : n ≤ w.map.probeLimit
  slot_eq : w.map.slot key n = i
  passed : Passed w key n

section

variable {m : InlineU64Map} {i j : Nat} {key : UInt64}

theorem metaH2_or_writing (word : UInt16) : metaH2 (word ||| WRITING_BIT) = metaH2 word := by
  have hzero : WRITING_BIT &&& H2_MASK = 0 := by decide
  unfold metaH2
  rw [or_and_distrib, hzero, UInt16.or_zero]

section

variable (h : Published m i key)

include h

theorem Published.ne_empty : m.slotMeta i ≠ EMPTY := by
  intro he
  have htag := h.1
  rw [he] at htag
  exact (isTag_h2 m key).ne_empty (htag.symm.trans (by decide))

theorem Published.ne_writing : m.slotMeta i ≠ WRITING_BIT := by
  intro he
  have htag := h.1
  rw [he] at htag
  exact (isTag_h2 m key).ne_empty (htag.symm.trans (by decide))

theorem Published.ne_tombstone : m.slotMeta i ≠ TOMBSTONE := by
  intro he
  have htag := h.1
  rw [he] at htag
  exact (isTag_h2 m key).ne_tombstone (htag.symm.trans (by decide))

variable {word : UInt16}

theorem Published.setMeta (hword : j = i → metaH2 word = m.h2 key) :
    Published (m.setMeta j word) i key := by
  refine ⟨?_, h.2⟩
  show metaH2 ((m.setMeta j word).slotMeta i) = m.h2 key
  by_cases hji : i = j
  · subst hji
    rw [slotMeta_setMeta_self]
    exact hword rfl
  · rw [slotMeta_setMeta_of_ne m word hji]
    exact h.1

end

theorem Published.of_setMeta {word : UInt16} (h : Published (m.setMeta j word) i key)
    (hne : i ≠ j) :
    Published m i key := by
  have htag := h.1
  rw [slotMeta_setMeta_of_ne m word hne] at htag
  exact ⟨htag, h.2⟩

/-- Setting the lock bit does not change what a slot shows. -/
theorem Published.of_lock {word : UInt16} (hword : m.slotMeta j = word)
    (h : Published (m.setMeta j (word ||| WRITING_BIT)) i key) :
    Published m i key := by
  by_cases hij : i = j
  · subst hij
    have htag := h.1
    rw [slotMeta_setMeta_self, metaH2_or_writing, ← hword] at htag
    exact ⟨htag, h.2⟩
  · exact h.of_setMeta hij

end

-- ===== the invariant

/-- What an insert or an update knows at each of its points. -/
def Known (r : Request) : Pc → Prop
  | .probe i len => r.inserts = true → OnPath w r.key i len
  | .readKey i len _ =>
    (r.inserts = true → OnPath w r.key i len) ∧ Published w.map i (w.map.keys i)
  | .lock i len _ => (r.inserts = true → OnPath w r.key i len) ∧ Published w.map i r.key
  | .readOld i _ => Published w.map i r.key
  | .writeValue i _ _ => Published w.map i r.key
  | .publish i _ _ => Published w.map i r.key
  | .claim i len word => r.inserts = true ∧ OnPath w r.key i len ∧ word = EMPTY
  | .claimKey i _ => r.inserts = true ∧ w.map.slotMeta i = WRITING_BIT
  | .claimValue i _ =>
    r.inserts = true ∧ w.map.slotMeta i = WRITING_BIT ∧ w.map.keys i = r.key
  | .claimMeta i _ =>
    r.inserts = true ∧ w.map.slotMeta i = WRITING_BIT ∧ w.map.keys i = r.key
  | .increment => r.inserts = true ∧ ∃ i, Published w.map i r.key
  | .done reply => reply.stored = true → ∃ i, Published w.map i r.key
  | _ => False

/-- The operation has given its key a slot, or found it there. -/
def Pc.landed : Pc → Bool
  | .claimKey _ _ => true
  | .claimValue _ _ => true
  | .claimMeta _ _ => true
  | .increment => true
  | .done reply => reply.stored
  | _ => false

/-- The slots that show a key. -/
def shown : Finset Nat :=
  (Finset.range m.capacity).filter fun i => metaH2 (m.slotMeta i) = m.h2 (m.keys i)

theorem mem_shown {m : InlineU64Map} : i ∈ shown m ↔ i < m.capacity ∧ Published m i (m.keys i) := by
  simp [shown, Published]

structure ClaimInv (w : World) : Prop where
  locks : Locks w
  writes : ∀ {p : Nat} {a : Proc}, w.procs[p]? = some a → a.request.writes = true
  known : ∀ {p : Nat} {a : Proc}, w.procs[p]? = some a → Known w a.request a.pc
  slots : ∀ i, w.map.slotMeta i = EMPTY ∨ ∃ key, Owned w i key
  reach : ∀ {i : Nat} {key : UInt64}, Owned w i key → ∃ n, OnPath w key i n
  unique : ∀ {i j : Nat} {key : UInt64}, Owned w i key → Owned w j key → i = j
  landed : ∀ {i : Nat} {key : UInt64}, Owned w i key → ∃ (p : Nat) (a : Proc), w.procs[p]? = some a
      ∧ a.request.inserts = true ∧ a.request.key = key
      ∧ a.pc.landed = true
  count : w.map.len.toNat + w.procs.countP (fun a => decide (a.pc = .increment))
    = (shown w.map).card
  mask_lt : w.map.mask < w.map.capacity
  capacity_lt : w.map.capacity + 1 < 2 ^ 64

section

variable {w : World} {p i j : Nat} {proc a : Proc} {key key' : UInt64}

theorem ClaimInv.claimed_word (hi : ClaimInv w)
    (ha : w.procs[p]? = some a) (hc : a.pc.claiming = some i) :
    w.map.slotMeta i = WRITING_BIT := by
  have hknown := hi.known ha
  obtain ⟨r, pc⟩ := a
  cases pc with
  | claimKey j word => cases hc; exact hknown.2
  | claimValue _ _ | claimMeta _ _ => cases hc; exact hknown.2.1
  | _ => cases hc

theorem ClaimInv.not_owned_of_empty (hi : ClaimInv w)
    (h : w.map.slotMeta i = EMPTY) : ¬ Owned w i key := by
  rintro (hpub | ⟨p, a, ha, hc, -⟩)
  · exact hpub.ne_empty h
  · exact absurd (h.symm.trans (hi.claimed_word ha hc)) (by decide)

/-- A slot is given away once. -/
theorem ClaimInv.owner_eq (hi : ClaimInv w) (h : Owned w i key)
    (h' : Owned w i key') : key = key' := by
  rcases h with hpub | ⟨p, a, ha, hc, hk⟩ <;>
    rcases h' with hpub' | ⟨q, b, hb, hc', hk'⟩
  · exact hpub.2.symm.trans hpub'.2
  · exact absurd (hi.claimed_word hb hc') hpub.ne_writing
  · exact absurd (hi.claimed_word ha hc) hpub'.ne_writing
  have hpq := hi.locks.exclusive ha hb (holding_of_claiming hc) (holding_of_claiming hc')
  subst hpq
  cases ha.symm.trans hb
  exact hk.symm.trans hk'

theorem slot_le_mask (key : UInt64) (n : Nat) : m.slot key n ≤ m.mask := by
  cases n with
  | zero => exact Nat.and_le_right
  | succ n =>
    rw [slot, trail_snoc]
    exact Nat.and_le_right

theorem ClaimInv.lt_capacity (hi : ClaimInv w) (h : Owned w i key) : i < w.map.capacity := by
  obtain ⟨n, hn⟩ := hi.reach h
  rw [← hn.slot_eq]
  exact Nat.lt_of_le_of_lt (slot_le_mask _ _ _) hi.mask_lt

end

-- ===== what a step keeps

section

variable {w : World} {p i j : Nat} {proc : Proc} {map : InlineU64Map} {key : UInt64}
  (hp : w.procs[p]? = some proc) (hi : ClaimInv w)

section

variable (h : Moves w.map proc.request proc.pc map pc)

include hi hp h

/-- A slot that shows a key goes on showing it. -/
theorem ClaimInv.published_after (hpub : Published w.map i key) : Published map i key := by
  have hknown := hi.known hp
  have htag := isTag_h2 w.map proc.request.key
  obtain ⟨r, pc₀⟩ := proc
  cases h with
  | locks _ _ _ h | locksOld _ _ _ h =>
    refine hpub.setMeta fun he => ?_
    subst he
    rw [metaH2_or_writing, ← h]
    exact hpub.1
  | publishes j word old =>
    refine hpub.setMeta fun he => ?_
    subst he
    have hkey : key = r.key := hpub.2.symm.trans hknown.2
    rw [hkey]
    exact (htag.tagged_nextWord word).tag_eq
  | claims j len word h =>
    refine hpub.setMeta fun he => ?_
    subst he
    exact absurd (h.trans hknown.2.2) hpub.ne_empty
  | claimsMeta j word =>
    refine hpub.setMeta fun he => ?_
    subst he
    exact absurd hknown.2.1 hpub.ne_writing
  | claimsKey j word =>
    refine ⟨hpub.1, ?_⟩
    have hne : i ≠ j := by
      intro he
      subst he
      exact hpub.ne_writing hknown.2
    show update w.map.keys j r.key i = key
    rw [update_of_ne hne]
    exact hpub.2
  | _ => first | exact hpub | exact hknown.elim

/-- A slot shows a new key only when a claim is published. -/
theorem ClaimInv.published_new (hpub : Published map i key) : Published w.map i key
      ∨ ∃ word, proc.pc = .claimMeta i word ∧ proc.request.key = key := by
  have hknown := hi.known hp
  obtain ⟨r, pc₀⟩ := proc
  cases h with
  | locks _ _ _ h | locksOld _ _ _ h => exact Or.inl (hpub.of_lock h)
  | publishes j word old =>
    left
    by_cases hij : i = j
    · subst hij
      have hkey : key = r.key := hpub.2.symm.trans hknown.2
      rw [hkey]
      exact hknown
    · exact hpub.of_setMeta hij
  | claims j len word h =>
    left
    by_cases hij : i = j
    · subst hij
      exact absurd (slotMeta_setMeta_self _ _ _) hpub.ne_writing
    · exact hpub.of_setMeta hij
  | claimsKey j word =>
    left
    have hne : i ≠ j := by
      intro he
      subst he
      exact hpub.ne_writing hknown.2
    have hkeys := hpub.2
    rw [show (w.map.setKey j r.key).keys i = w.map.keys i from
      update_of_ne hne _ _] at hkeys
    exact ⟨hpub.1, hkeys⟩
  | claimsMeta j word =>
    by_cases hij : i = j
    · subst hij
      exact Or.inr ⟨word, rfl, hknown.2.2.symm.trans hpub.2⟩
    · exact Or.inl (hpub.of_setMeta hij)
  | _ => first | exact Or.inl hpub | exact hknown.elim

end

variable {m m' : InlineU64Map} {pc' : Pc} {r : Request}

/-- A claim goes on until it is published. -/
theorem Moves.claiming_after (h : Moves m r pc m' pc') (hc : pc.claiming = some i) :
    pc'.claiming = some i ∨ ∃ word, pc = .claimMeta i word
      ∧ m' = m.setMeta i (firstWord word (m.h2 r.key)) := by
  cases h with
  | claimsMeta j word =>
    cases hc
    exact Or.inr ⟨word, rfl, rfl⟩
  | _ => first | exact Or.inl hc | cases hc

/-- Who claims a slot claimed it before, or takes it with this access. -/
theorem Moves.claiming_new (h : Moves m r pc m' pc') (hc : pc'.claiming = some i) :
    pc.claiming = some i ∨ ∃ len word, pc = .claim i len word ∧ m.slotMeta i = word := by
  have hadvance : ∀ j len, (m.advance r j len).claiming = none := by
    intro j len
    rcases advance_cases m r j len with h | ⟨-, h⟩ <;> rw [h] <;> rfl
  cases h with
  | claims j len word h =>
    cases hc
    exact Or.inr ⟨len, word, rfl, h⟩
  | passes _ _ | otherKey _ _ | collides _ _ => rw [hadvance] at hc; cases hc
  | _ => first | exact Or.inl hc | cases hc

/-- A slot keeps its owner. -/
theorem ClaimInv.owned_after (hi : ClaimInv w) (hp : w.procs[p]? = some proc)
    (h : Moves w.map proc.request proc.pc map pc) (ho : Owned w i key) :
    Owned (after w p proc map pc) i key := by
  rcases ho with hpub | ⟨q, b, hq, hc, hk⟩
  · exact Or.inl (hi.published_after hp h hpub)
  by_cases hne : p = q
  · subst hne
    cases hp.symm.trans hq
    rcases h.claiming_after hc with hc' | ⟨word, hpc, hmap⟩
    · exact Or.inr ⟨p, _, getElem?_set_new hp, hc', hk⟩
    have hknown := hi.known hp
    rw [hpc] at hknown
    refine Or.inl ?_
    show Published map i key
    rw [hmap, ← hk]
    refine ⟨?_, hknown.2.2⟩
    rw [slotMeta_setMeta_self]
    exact ((isTag_h2 w.map _).tagged_firstWord word).tag_eq
  · exact Or.inr ⟨q, b, getElem?_set_other hq hne, hc, hk⟩

/-- The access of `proc` claims the empty slot `i` for `key`. -/
structure NewClaim (w : World) (proc : Proc) (pc : Pc) (i : Nat) (key : UInt64) : Prop where
  empty : w.map.slotMeta i = EMPTY
  key_eq : proc.request.key = key
  inserts : proc.request.inserts = true
  claiming : pc.claiming = some i
  path : ∃ n, OnPath w key i n

section

variable (h : Moves w.map proc.request proc.pc map pc)

include hi hp h

/-- A slot gets an owner only when it is claimed. -/
theorem ClaimInv.owned_new (ho : Owned (after w p proc map pc) i key) :
    Owned w i key ∨ NewClaim w proc pc i key := by
  rcases ho with hpub | ⟨q, b, hq, hc, hk⟩
  · rcases hi.published_new hp h hpub with hold | ⟨word, hpc, hk⟩
    · exact Or.inl (Or.inl hold)
    · exact Or.inl (Or.inr ⟨p, proc, hp, by rw [hpc]; rfl, hk⟩)
  rcases getElem?_set_cases hq with ⟨rfl, rfl⟩ | ⟨-, hq⟩
  · rcases h.claiming_new hc with hold | ⟨len, word, hpc, hword⟩
    · exact Or.inl (Or.inr ⟨q, proc, hp, hold, hk⟩)
    have hknown := hi.known hp
    rw [hpc] at hknown
    obtain ⟨hr, hpath, hempty⟩ := hknown
    rw [hk] at hpath
    exact Or.inr ⟨hword.trans hempty, hk, hr, hc, len, hpath⟩
  · exact Or.inl (Or.inr ⟨q, b, hq, hc, hk⟩)

theorem ClaimInv.onPath_after {n : Nat}
    (hpath : OnPath w key i n) : OnPath (after w p proc map pc) key i n := by
  refine ⟨?_, ?_, ?_⟩
  · show n ≤ map.probeLimit
    rw [h.shape.2.2.1]
    exact hpath.le
  · exact (h.slot_eq key n).trans hpath.slot_eq
  · intro a ha
    obtain ⟨other, hne, ho⟩ := hpath.passed a ha
    refine ⟨other, hne, ?_⟩
    show Owned _ (map.slot key a) other
    rw [h.slot_eq]
    exact hi.owned_after hp h ho

end

/-- A slot about to be claimed is the only one its key will have. -/
theorem ClaimInv.eq_of_empty (hi : ClaimInv w) {n : Nat}
    (hempty : w.map.slotMeta i = EMPTY) (hpath : OnPath w key i n)
    (ho : Owned w j key) : i = j := by
  obtain ⟨b, hb⟩ := hi.reach ho
  rcases Nat.lt_trichotomy n b with hlt | heq | hgt
  · obtain ⟨other, -, hother⟩ := hb.passed n hlt
    rw [hpath.slot_eq] at hother
    exact absurd hother (hi.not_owned_of_empty hempty)
  · subst heq
    exact hpath.slot_eq.symm.trans hb.slot_eq
  · obtain ⟨other, hne, hother⟩ := hpath.passed b hgt
    rw [hb.slot_eq] at hother
    exact absurd (hi.owner_eq hother ho) hne

theorem ClaimInv.unique_after (hi : ClaimInv w) (hp : w.procs[p]? = some proc)
    (h : Moves w.map proc.request proc.pc map pc)
    (ho : Owned (after w p proc map pc) i key)
    (ho' : Owned (after w p proc map pc) j key) : i = j := by
  rcases hi.owned_new hp h ho with hold | hnew <;>
    rcases hi.owned_new hp h ho' with hold' | hnew'
  · exact hi.unique hold hold'
  · obtain ⟨n, hpath⟩ := hnew'.path
    exact (hi.eq_of_empty hnew'.empty hpath hold).symm
  · obtain ⟨n, hpath⟩ := hnew.path
    exact hi.eq_of_empty hnew.empty hpath hold'
  · exact Option.some.inj (hnew.claiming.symm.trans hnew'.claiming)

-- ===== what it learns

/-- What an operation knows survives what keeps owners and claims. -/
theorem Known.mono {w' : World} (hk : Known w r pc)
    (hpub : ∀ i key, Published w.map i key → Published w'.map i key)
    (hpath : ∀ i key n, OnPath w key i n → OnPath w' key i n)
    (hclaim : ∀ i, pc.claiming = some i → w'.map.slotMeta i = w.map.slotMeta i
        ∧ w'.map.keys i = w.map.keys i) : Known w' r pc := by
  cases pc with
  | probe i len => exact fun hr => hpath _ _ _ (hk hr)
  | readKey i len word =>
    have hshown := hpub _ _ hk.2
    refine ⟨fun hr => hpath _ _ _ (hk.1 hr), ?_⟩
    rw [hshown.2]
    exact hshown
  | lock i len word => exact ⟨fun hr => hpath _ _ _ (hk.1 hr), hpub _ _ hk.2⟩
  | readOld _ _ | writeValue _ _ _ | publish _ _ _ => exact hpub _ _ hk
  | claim i len word => exact ⟨hk.1, hpath _ _ _ hk.2.1, hk.2.2⟩
  | claimKey i word => exact ⟨hk.1, (hclaim i rfl).1.trans hk.2⟩
  | claimValue i _ | claimMeta i _ =>
    obtain ⟨hword, hkeys⟩ := hclaim i rfl
    exact ⟨hk.1, hword.trans hk.2.1, hkeys.trans hk.2.2⟩
  | increment =>
    obtain ⟨i, hi⟩ := hk.2
    exact ⟨hk.1, i, hpub _ _ hi⟩
  | done reply =>
    intro hstored
    obtain ⟨i, hi⟩ := hk hstored
    exact ⟨i, hpub _ _ hi⟩
  | _ => exact hk.elim

theorem missed_stored (r : Request) : r.missed.stored = false := by
  cases r <;> rfl

/-- Past a slot of another key the search goes on along the path. -/
theorem known_advance {len : Nat} (h : r.inserts = true → OnPath w r.key i len
      ∧ ∃ other, other ≠ r.key ∧ Owned w i other) :
    Known w r (w.map.advance r i len) := by
  rcases advance_cases w.map r i len with heq | ⟨hle, heq⟩
  · rw [heq]
    intro hstored
    rw [missed_stored] at hstored
    cases hstored
  rw [heq]
  intro hr
  obtain ⟨hpath, hother⟩ := h hr
  refine ⟨hle, ?_, ?_⟩
  · rw [slot, trail_snoc, Nat.zero_add]
    congr 1
    exact hpath.slot_eq
  · intro a ha
    rcases Nat.lt_succ_iff_lt_or_eq.1 ha with hlt | heq
    · exact hpath.passed a hlt
    · rw [heq, hpath.slot_eq]
      exact hother

theorem removes_of_writes (h : r.writes = true) : r.removes = false := by
  cases r <;> first | rfl | cases h

section

include hi

/-- A slot that is not empty is claimed or shows its key. -/
theorem ClaimInv.slot_cases (hne : w.map.slotMeta i ≠ EMPTY) :
    Published w.map i (w.map.keys i) ∨ (w.map.slotMeta i = WRITING_BIT ∧ ∃ (q : Nat) (b : Proc),
        w.procs[q]? = some b ∧ b.pc.claiming = some i) := by
  rcases hi.slots i with hempty | ⟨key, hpub | ⟨q, b, hq, hc, -⟩⟩
  · exact absurd hempty hne
  · refine Or.inl ?_
    rw [hpub.2]
    exact hpub
  · exact Or.inr ⟨hi.claimed_word hq hc, q, b, hq, hc⟩

section

include hp

/-- What the first load of a slot tells an operation. -/
theorem ClaimInv.known_probe {len : Nat}
    (hpc : proc.pc = .probe i len) (hblind : NoBlindPass w (.step p))
    (h : Moves w.map proc.request (.probe i len) map pc) :
    map = w.map ∧ Known w proc.request pc := by
  have hknown := hi.known hp
  rw [hpc] at hknown
  cases h with
  | waits i len h => exact ⟨rfl, hknown⟩
  | matched i len h =>
    have htag := isTag_h2 w.map proc.request.key
    refine ⟨rfl, hknown, ?_⟩
    rcases hi.slot_cases (h.ne_empty htag) with hpub | ⟨hword, -⟩
    · exact hpub
    · have hopen := h.unlocked
      rw [hword] at hopen
      exact absurd hopen (by decide)
  | finds i len hr h =>
    refine ⟨rfl, hr, hknown hr, ?_⟩
    rcases h with h | h
    · exact h
    have hne : w.map.slotMeta i ≠ EMPTY := by rw [h]; decide
    rcases hi.slot_cases hne with hpub | ⟨hword, -⟩
    · exact absurd h hpub.ne_tombstone
    · exact absurd (hword.symm.trans h) (by decide)
  | misses i len hr h =>
    refine ⟨rfl, fun hstored => ?_⟩
    rw [missed_stored] at hstored
    cases hstored
  | passes i len hne hwait htag =>
    refine ⟨rfl, known_advance fun hr => ⟨hknown hr, ?_⟩⟩
    rcases hi.slot_cases hne with hpub | ⟨-, q, b, hq, hc⟩
    · refine ⟨_, fun hkey => ?_, Or.inl hpub⟩
      -- under its own tag the insert would have stopped or waited
      have hsame := hpub.1
      rw [hkey] at hsame
      by_cases hopen : w.map.slotMeta i &&& WRITING_BIT = 0
      · exact htag ⟨hsame, hopen⟩
      have hwaits : isWritingMatch (w.map.slotMeta i) (w.map.h2 proc.request.key) = true := by
        simp [isWritingMatch, hpub.ne_empty, hpub.ne_tombstone, hsame, hopen]
      rw [hwait] at hwaits
      cases hwaits
    · refine ⟨_, ?_, Or.inr ⟨q, b, hq, hc, rfl⟩⟩
      exact hblind proc hp i (by rw [hpc]; rfl) hr b (mem_of_getElem? hq) hc

/-- What an insert or an update knows after its own access. -/
theorem ClaimInv.known_after (hblind : NoBlindPass w (.step p))
    (h : Moves w.map proc.request proc.pc map pc) :
    Known (after w p proc map pc) proc.request pc := by
  have hknown := hi.known hp
  have hwrites := hi.writes hp
  have hkeeps := removes_of_writes hwrites
  have htag := isTag_h2 w.map proc.request.key
  have hpub : ∀ i key, Published w.map i key → Published map i key :=
    fun _ _ => hi.published_after hp h
  have hpath : ∀ i key n, OnPath w key i n → OnPath (after w p proc map pc) key i n :=
    fun _ _ _ => hi.onPath_after hp h
  -- an access that leaves the map alone
  have hquiet : map = w.map → Known w proc.request pc →
      Known (after w p proc map pc) proc.request pc := by
    intro hmap hk
    refine hk.mono hpub hpath fun i _ => ?_
    show map.slotMeta i = _ ∧ map.keys i = _
    rw [hmap]
    exact ⟨rfl, rfl⟩
  by_cases hprobing : ∃ i len, proc.pc = .probe i len
  · obtain ⟨i, len, hpc⟩ := hprobing
    have hprobe := h
    rw [hpc] at hprobe
    obtain ⟨hmap, hk⟩ := hi.known_probe hp hpc hblind hprobe
    exact hquiet hmap hk
  obtain ⟨r, pc₀⟩ := proc
  cases h with
  | seesKey i len word hr =>
    obtain ⟨key, rfl⟩ := hr
    cases hwrites
  | ownPeek _ _ _ hr _ | keeps _ _ hr | takes _ _ hr =>
    rw [hkeeps] at hr
    cases hr
  | ownLock i len word hk =>
    refine hquiet rfl ⟨hknown.1, ?_⟩
    rw [← hk]
    exact hknown.2
  | otherKey i len word hk =>
    refine hquiet rfl (known_advance fun hr => ⟨hknown.1 hr, ?_⟩)
    exact ⟨_, hk, Or.inl hknown.2⟩
  | locks _ _ _ _ | locksOld _ _ _ _ => exact hpub _ _ hknown.2
  | loses i len word h => exact hquiet rfl hknown.1
  | readsOld _ _ _ | rests _ => exact hquiet rfl hknown
  | writes i word old => exact hpub _ _ hknown
  | publishes i word old => exact fun _ => ⟨i, hpub _ _ hknown⟩
  | claims i len word h => exact ⟨hknown.1, slotMeta_setMeta_self _ _ _⟩
  | losesClaim i len word h => exact hquiet rfl fun _ => hknown.2.1
  | claimsKey i word => exact ⟨hknown.1, hknown.2, update_self _ _ _⟩
  | claimsValue i word => exact hknown
  | claimsMeta i word =>
    refine ⟨hknown.1, i, ?_, hknown.2.2⟩
    show metaH2 ((w.map.setMeta i _).slotMeta i) = w.map.h2 r.key
    rw [slotMeta_setMeta_self]
    exact (htag.tagged_firstWord word).tag_eq
  | increments => exact fun _ => hknown.2
  | waits i len | matched i len | finds i len | misses i len | passes i len =>
    exact absurd ⟨i, len, rfl⟩ hprobing
  | _ => exact hknown.elim

-- ===== the count

/-- The slots that show a key change only when a claim is published. -/
theorem ClaimInv.shown_after (h : Moves w.map proc.request proc.pc map pc) {j : Nat} :
    j ∈ shown map ↔ j ∈ shown w.map ∨ ∃ word, proc.pc = .claimMeta j word := by
  have hcap := h.shape.2.2.2
  rw [mem_shown, mem_shown, hcap]
  constructor
  · rintro ⟨hlt, hpub⟩
    rcases hi.published_new hp h hpub with hold | ⟨word, hpc, -⟩
    · refine Or.inl ⟨hlt, ?_⟩
      rw [hold.2]
      exact hold
    · exact Or.inr ⟨word, hpc⟩
  · rintro (⟨hlt, hpub⟩ | ⟨word, hpc⟩)
    · have hnew := hi.published_after hp h hpub
      refine ⟨hlt, ?_⟩
      rw [hnew.2]
      exact hnew
    · have hclaim : proc.pc.claiming = some j := by rw [hpc]; rfl
      have ho : Owned w j proc.request.key := Or.inr ⟨p, proc, hp, hclaim, rfl⟩
      refine ⟨hi.lt_capacity ho, ?_⟩
      rcases h.claiming_after hclaim with hc | ⟨word', -, hmap⟩
      · rw [hpc] at h
        cases h
        cases hc
      have hknown := hi.known hp
      rw [hpc] at hknown
      have htag := isTag_h2 w.map proc.request.key
      have hkeys : map.keys j = proc.request.key := by
        rw [hmap]
        exact hknown.2.2
      refine ⟨?_, rfl⟩
      rw [hkeys, h.h2_eq, hmap, slotMeta_setMeta_self]
      exact (htag.tagged_firstWord word').tag_eq

end

end

/-- The accesses that matter to the count: a claim is published, it is
counted, or neither. -/
theorem Moves.len_cases (h : Moves m r pc m' pc') (hne : ∀ old, pc ≠ .decrement old) :
    (m'.len = m.len ∧ pc ≠ .increment ∧ pc' ≠ .increment ∧ ∀ j word, pc ≠ .claimMeta j word)
    ∨ (m'.len = m.len ∧ pc' = .increment ∧ ∃ j word, pc = .claimMeta j word)
    ∨ (m'.len = m.len + 1 ∧ pc = .increment ∧ pc' ≠ .increment) := by
  have hadvance : ∀ j len, m.advance r j len ≠ .increment := by
    intro j len
    rcases advance_cases m r j len with h | ⟨-, h⟩ <;> rw [h] <;> nofun
  cases h with
  | claimsMeta j word => exact Or.inr (Or.inl ⟨rfl, rfl, j, word, rfl⟩)
  | increments => exact Or.inr (Or.inr ⟨rfl, rfl, nofun⟩)
  | decrements old => exact absurd rfl (hne old)
  | passes j len | otherKey j len | collides j len =>
    exact Or.inl ⟨rfl, nofun, hadvance j len, nofun⟩
  | _ => exact Or.inl ⟨rfl, nofun, nofun, nofun⟩

/-- The counter and the claims still to be counted make up the slots that
show a key. -/
theorem ClaimInv.count_after (hi : ClaimInv w) (hp : w.procs[p]? = some proc)
    (h : Moves w.map proc.request proc.pc map pc) :
    map.len.toNat + (w.procs.set p ⟨proc.request, pc⟩).countP (fun a => decide (a.pc = .increment))
      = (shown map).card := by
  have hset := countP_set_add (b := ⟨proc.request, pc⟩) hp fun a => decide (a.pc = .increment)
  have hcount := hi.count
  have hknown := hi.known hp
  have hne : ∀ old, proc.pc ≠ .decrement old := by
    intro old hpc
    rw [hpc] at hknown
    exact hknown
  have hshown : (∀ j word, proc.pc ≠ .claimMeta j word) → shown map = shown w.map := by
    intro hno
    ext j
    rw [hi.shown_after hp h]
    constructor
    · rintro (hj | ⟨word, hpc⟩)
      · exact hj
      · exact absurd hpc (hno j word)
    · exact Or.inl
  rcases h.len_cases hne with ⟨hlen, hpc, hpc', hno⟩
    | ⟨hlen, rfl, j, word, hpc⟩ | ⟨hlen, hpc, hpc'⟩
  · rw [hshown hno, hlen]
    simp only [hpc, hpc', decide_false, Bool.false_eq_true, if_false] at hset
    omega
  · have hnot : j ∉ shown w.map := by
      intro hj
      rw [hpc] at hknown
      exact (mem_shown.1 hj).2.ne_writing hknown.2.1
    have hinsert : shown map = insert j (shown w.map) := by
      ext i
      rw [hi.shown_after hp h, hpc, Finset.mem_insert, or_comm]
      constructor
      · rintro (⟨word', hword⟩ | hold)
        · cases hword
          exact Or.inl rfl
        · exact Or.inr hold
      · rintro (rfl | hold)
        · exact Or.inl ⟨word, rfl⟩
        · exact Or.inr hold
    rw [hinsert, Finset.card_insert_of_notMem hnot, hlen]
    simp only [hpc, reduceCtorEq, decide_false, decide_true,
      Bool.false_eq_true, if_false, if_true] at hset
    omega
  · have hno : ∀ j word, proc.pc ≠ .claimMeta j word := by
      intro j word hclaim
      rw [hpc] at hclaim
      cases hclaim
    have hcard : (shown w.map).card ≤ w.map.capacity := by
      have hle := Finset.card_filter_le (Finset.range w.map.capacity)
        fun i => metaH2 (w.map.slotMeta i) = w.map.h2 (w.map.keys i)
      rwa [Finset.card_range] at hle
    have hcap := hi.capacity_lt
    have hsucc : (w.map.len + 1).toNat = w.map.len.toNat + 1 := by
      show (w.map.len.toNat + 1) % 2 ^ 64 = w.map.len.toNat + 1
      omega
    rw [hshown hno, hlen, hsucc]
    simp only [hpc, hpc', decide_false, decide_true, Bool.false_eq_true, if_false, if_true] at hset
    omega

-- ===== the whole step

theorem Moves.landed (h : Moves m r pc m' pc') (hl : pc.landed = true) : pc'.landed = true := by
  cases h with
  | increments => cases r <;> rfl
  | _ => first | exact hl | cases hl

theorem landed_of_claiming (h : pc.claiming = some i) : pc.landed = true := by
  cases pc <;> first | rfl | cases h

section

variable (h : Moves w.map proc.request proc.pc map pc)

include hi hp h

theorem ClaimInv.landed_after (ho : Owned (after w p proc map pc) i key) :
    ∃ (q : Nat) (b : Proc), (after w p proc map pc).procs[q]? = some b
      ∧ b.request.inserts = true ∧ b.request.key = key
      ∧ b.pc.landed = true := by
  have hself : (after w p proc map pc).procs[p]? = some ⟨proc.request, pc⟩ := getElem?_set_new hp
  rcases hi.owned_new hp h ho with hold | hnew
  · obtain ⟨q, b, hq, hr, hk, hl⟩ := hi.landed hold
    by_cases hne : p = q
    · subst hne
      cases hp.symm.trans hq
      exact ⟨p, _, hself, hr, hk, h.landed hl⟩
    · exact ⟨q, b, getElem?_set_other hq hne, hr, hk, hl⟩
  · exact ⟨p, _, hself, hnew.inserts, hnew.key_eq, landed_of_claiming hnew.claiming⟩

/-- A slot that is given away is not empty again, and one that is not is
empty still. -/
theorem ClaimInv.slots_after (i : Nat) :
    map.slotMeta i = EMPTY ∨ ∃ key, Owned (after w p proc map pc) i key := by
  rcases hi.slots i with hempty | ⟨key, ho⟩
  · have hopen : ¬ Locked w.map i := by
      intro hlock
      unfold Locked at hlock
      rw [hempty] at hlock
      exact absurd hlock (by decide)
    have hnot : proc.pc.holding ≠ some i := fun hheld => hopen (hi.locks.locked hp hheld)
    rcases h.slotMeta_cases (hi.locks.sane hp) hnot with heq | ⟨-, -, hheld⟩
    · exact Or.inl (heq.trans hempty)
    right
    have hknown := hi.known hp
    obtain ⟨r, pc₀⟩ := proc
    cases h with
    | locks _ _ _ _ | locksOld _ _ _ _ =>
      cases hheld
      exact absurd hempty hknown.2.ne_empty
    | claims j len word h =>
      cases hheld
      exact ⟨r.key, Or.inr ⟨p, _, getElem?_set_new hp, rfl, rfl⟩⟩
    | passes _ _ | otherKey _ _ | collides _ _ =>
      rw [holding_advance] at hheld; cases hheld
    | _ => first | exact absurd hheld hnot | cases hheld
  · exact Or.inr ⟨key, hi.owned_after hp h ho⟩

/-- An access of an insert or an update keeps the invariant, unless it
passes a claim for its own key blindly. -/
theorem ClaimInv.moves (hblind : NoBlindPass w (.step p)) : ClaimInv (after w p proc map pc) := by
  obtain ⟨-, hmask, -, hcap⟩ := h.shape
  have hmaskLt : map.mask < map.capacity := by
    rw [hmask, hcap]
    exact hi.mask_lt
  have hcapLt : map.capacity + 1 < 2 ^ 64 := by
    rw [hcap]
    exact hi.capacity_lt
  refine ⟨hi.locks.moves hp h, ?_, ?_, hi.slots_after hp h, ?_,
    hi.unique_after hp h, hi.landed_after hp h, hi.count_after hp h,
    hmaskLt, hcapLt⟩
  · intro q b hq
    have hself : proc.request.writes = true := hi.writes hp
    rcases getElem?_set_cases hq with ⟨rfl, rfl⟩ | ⟨-, hq⟩
    · exact hself
    · exact hi.writes hq
  · intro q b hq
    rcases getElem?_set_cases hq with ⟨rfl, rfl⟩ | ⟨hne, hq⟩
    · exact hi.known_after hp hblind h
    refine (hi.known hq).mono (fun _ _ => hi.published_after hp h)
      (fun _ _ _ => hi.onPath_after hp h) fun i hc => ?_
    obtain ⟨hword, hkeys, -⟩ := hi.locks.frame hp h hq hne (holding_of_claiming hc)
    exact ⟨hword, hkeys⟩
  · intro i key ho
    rcases hi.owned_new hp h ho with hold | hnew
    · obtain ⟨n, hn⟩ := hi.reach hold
      exact ⟨n, hi.onPath_after hp h hn⟩
    · obtain ⟨n, hn⟩ := hnew.path
      exact ⟨n, hi.onPath_after hp h hn⟩

end

end

end MemoryFirst.Core.InlineU64Map
