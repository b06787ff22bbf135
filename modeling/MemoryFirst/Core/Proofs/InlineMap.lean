/-
One operation of the inline map with no other under way.

# Clean maps

Between two calls every slot is free or holds an entry under an unlocked
word with the entry's tag (`Clean`). On such a map a loop body runs to
its end in a few steps: `visitAlone` is what it does at a slot, and
`runAlone_visit` that the machine does just that.

# The table underneath

`view` forgets versions and lock words and keeps the boxed table of
`ConcurrentMap.lean`: the two maps probe alike, and what the inline map
does at a slot is what the boxed one does there. Every result about the
boxed table then speaks about the inline one. `update`, which the boxed
map does not have, is added to it here.
-/
import MemoryFirst.Core.InlineMap
import MemoryFirst.Core.MapRuns

namespace MemoryFirst.Core.InlineU64Map

open Function

-- ===== the lock words

theorem or_and_distrib (a b c : UInt16) : (a ||| b) &&& c = (a &&& c) ||| (b &&& c) := by
  apply UInt16.toBitVec_inj.1
  ext i hi
  simp [Bool.and_or_distrib_right]

/-- A word of the tag `tag`: an unlocked one of an entry. -/
structure Tagged (tag word : UInt16) : Prop where
  tag_eq : metaH2 word = tag
  unlocked : word &&& WRITING_BIT = 0

/-- What a tag is: no marker of a free slot, and all of it in the place
of tags. -/
structure IsTag (tag : UInt16) : Prop where
  tagged : Tagged tag tag
  ne_empty : tag ≠ EMPTY
  ne_tombstone : tag ≠ TOMBSTONE

theorem seven_bits (n : Fin 128) : Tagged (UInt16.ofNat n <<< 1) (UInt16.ofNat n <<< 1) := by
  have h : ∀ n : Fin 128, metaH2 (UInt16.ofNat n <<< 1) = UInt16.ofNat n <<< 1
        ∧ (UInt16.ofNat n <<< 1) &&& WRITING_BIT = 0 := by
    decide
  exact ⟨(h n).1, (h n).2⟩

theorem tagged_h2Of (hash : UInt64) : Tagged (h2Of hash) (h2Of hash) := by
  obtain ⟨n, hn⟩ : ∃ n : Fin 128, (hash >>> 57).toUInt16 &&& 0x7F = UInt16.ofNat n := by
    generalize (hash >>> 57).toUInt16 = a
    refine ⟨⟨a.toNat % 128, Nat.mod_lt _ (by decide)⟩, ?_⟩
    apply UInt16.toNat_inj.1
    have hmod : a.toNat &&& 127 = a.toNat % 128 :=
      Nat.and_two_pow_sub_one_eq_mod a.toNat 7
    show a.toNat &&& 127 = a.toNat % 128 % 2 ^ 16
    omega
  unfold h2Of
  rw [hn]
  exact seven_bits n

theorem isTag_h2 (m : InlineU64Map) (key : UInt64) : IsTag (m.h2 key) := by
  unfold h2
  dsimp only
  split
  case isTrue => exact ⟨⟨by decide, by decide⟩, by decide, by decide⟩
  case isFalse h =>
    exact ⟨tagged_h2Of _, fun he => h (Or.inl he), fun he => h (Or.inr he)⟩

variable {m : InlineU64Map} {tag word : UInt16}

/-- A version above the place of tags and a tag make a word of it. -/
theorem IsTag.tagged_or {version : UInt16} (h : IsTag tag)
    (htag : version &&& H2_MASK = 0) (hbit : version &&& WRITING_BIT = 0) :
    Tagged tag (version ||| tag) := by
  constructor
  · rw [metaH2, or_and_distrib, htag, UInt16.zero_or]
    exact h.tagged.tag_eq
  · rw [or_and_distrib, hbit, UInt16.zero_or]
    exact h.tagged.unlocked

theorem IsTag.tagged_nextWord (h : IsTag tag) (word : UInt16) : Tagged tag (nextWord word tag) := by
  have htag : VERSION_MASK &&& H2_MASK = 0 := by decide
  have hbit : VERSION_MASK &&& WRITING_BIT = 0 := by decide
  refine h.tagged_or ?_ ?_
  · rw [UInt16.and_assoc, htag, UInt16.and_zero]
  · rw [UInt16.and_assoc, hbit, UInt16.and_zero]

theorem IsTag.tagged_firstWord (h : IsTag tag) (word : UInt16) :
    Tagged tag (firstWord word tag) := by
  unfold firstWord
  split
  case isTrue => exact h.tagged_or (by decide) (by decide)
  case isFalse => exact h.tagged_or (by decide) (by decide)

theorem Tagged.ne_empty (ht : IsTag tag) (h : Tagged tag word) : word ≠ EMPTY := by
  rintro rfl
  exact ht.ne_empty (h.tag_eq.symm.trans (by decide))

theorem Tagged.ne_tombstone (ht : IsTag tag) (h : Tagged tag word) : word ≠ TOMBSTONE := by
  rintro rfl
  exact ht.ne_tombstone (h.tag_eq.symm.trans (by decide))

/-- Nobody waits at an unlocked word. -/
theorem isWritingMatch_of_unlocked (h : word &&& WRITING_BIT = 0) :
    isWritingMatch word tag = false := by
  simp [isWritingMatch, h]

-- ===== slots

/-- The slot a probe for `key` visits after `n` steps. -/
def slot (m : InlineU64Map) (key : UInt64) (n : Nat) : Nat :=
  Lib.trail m.nextSlot 0 (m.h1 key) n

/-- Slot `i` holds an entry of `key`. -/
def Holds (m : InlineU64Map) (i : Nat) (key : UInt64) : Prop :=
  isOccupied (m.slotMeta i) = true ∧ m.keys i = key

instance (m : InlineU64Map) (i : Nat) (key : UInt64) : Decidable (m.Holds i key) :=
  inferInstanceAs (Decidable (_ ∧ _))

/-- The slot count is a power of two that a `usize` holds. -/
theorem capacity_new_le (hash : UInt64 → UInt64) (cap : Nat) :
    (withHasherAndCapacity hash cap).capacity ≤ 2 ^ 63 := by
  have htarget : min (max cap 8 * 4) usizeMax / 3 < 2 ^ 63 := by
    unfold usizeMax
    omega
  have hpow : ∀ n < 2 ^ 63, nextPowerOfTwo n ≤ 2 ^ 63 := by
    intro n hn
    unfold nextPowerOfTwo
    split
    case isTrue => decide
    case isFalse h =>
      have hlog : Nat.log2 (n - 1) < 63 := (Nat.log2_lt (by omega)).2 (by omega)
      exact Nat.pow_le_pow_right (by decide) hlog
  exact Nat.max_le.2 ⟨hpow _ htarget, by decide⟩

-- ===== clean maps

/-- Every slot is free or holds an entry under an unlocked word, and the
counter can count the slots. -/
structure Clean (m : InlineU64Map) : Prop where
  slots : ∀ i, m.slotMeta i = EMPTY ∨ m.slotMeta i = TOMBSTONE
    ∨ Tagged (m.h2 (m.keys i)) (m.slotMeta i)
  capacity_lt : m.capacity + 1 < 2 ^ 64

/-- What a slot is to a probe for `key`. -/
inductive SlotView (m : InlineU64Map) (key : UInt64) (i : Nat) : Prop
  | empty (h : m.slotMeta i = EMPTY)
  | tombstone (h : m.slotMeta i = TOMBSTONE)
  | own (h : Tagged (m.h2 key) (m.slotMeta i)) (hk : m.keys i = key)
  | other (h : Tagged (m.h2 (m.keys i)) (m.slotMeta i)) (hk : m.keys i ≠ key)

theorem Clean.slotView (hc : Clean m) (key : UInt64) (i : Nat) : SlotView m key i := by
  rcases hc.slots i with h | h | h
  · exact .empty h
  · exact .tombstone h
  · by_cases hk : m.keys i = key
    · exact .own (hk ▸ h) hk
    · exact .other h hk

section

variable (m : InlineU64Map) (i : Nat)

/-- The map with another entry, or none, in slot `i`. -/
def writeAt (word : UInt16) (key value len : UInt64) : InlineU64Map :=
  { m with
    slotMeta := update m.slotMeta i word
    keys := update m.keys i key
    values := update m.values i value
    len := len }

/-- An insert claims slot `i`. -/
def claimAt (r : Request) : InlineU64Map :=
  m.writeAt i (firstWord (m.slotMeta i) (m.h2 r.key)) r.key r.value (m.len + 1)

/-- An insert or an update writes the entry of slot `i`. -/
def rewriteAt (r : Request) : InlineU64Map :=
  m.writeAt i (nextWord (m.slotMeta i) (m.h2 r.key)) (m.keys i) r.value m.len

/-- A removal empties slot `i`. -/
def buryAt : InlineU64Map :=
  m.writeAt i TOMBSTONE RESERVED_KEY 0 (m.len - 1)

end

section

variable (m : InlineU64Map) (i : Nat) (word word' : UInt16)

theorem setMeta_claim (key value len : UInt64) :
    { (((m.setMeta i word).setKey i key).setValue i value).setMeta i word'
      with len := len } = m.writeAt i word' key value len := by
  simp [setMeta, setKey, setValue, writeAt, update_idem]

theorem setMeta_rewrite (value : UInt64) : ((m.setMeta i word).setValue i value).setMeta i word'
      = m.writeAt i word' (m.keys i) value m.len := by
  simp [setMeta, setValue, writeAt, update_idem]

end

/-- What an operation does at the slot of its own key. -/
def ownAlone (m : InlineU64Map) (i : Nat) : Request → InlineU64Map × Reply
  | .get _ => (m, .value (some (m.values i)))
  | .remove _ => (m.buryAt i, .value (some (m.values i)))
  | .removeIfValue _ expected =>
    if m.values i = expected then (m.buryAt i, .removed true)
    else (m, .removed false)
  | r => (m.rewriteAt i r, r.replaced (some (m.values i)))

def Request.inserts : Request → Bool
  | .insert _ _ => true
  | .insertReturningOld _ _ => true
  | _ => false

def Request.removes : Request → Bool
  | .remove _ => true
  | .removeIfValue _ _ => true
  | _ => false

/-- What an operation does at slot `i`; `none` goes on probing. -/
def visitAlone (m : InlineU64Map) (r : Request) (i : Nat) : Option (InlineU64Map × Reply) :=
  if m.slotMeta i = EMPTY ∨ m.slotMeta i = TOMBSTONE then
    if r.inserts then some (m.claimAt i r, r.claimed)
    else if m.slotMeta i = EMPTY then some (m, r.missed)
    else none
  else if m.keys i = r.key then some (m.ownAlone i r)
  else none

section

variable {r : Request} {i len : Nat}

theorem runAlone_add (a b : Nat) (s : InlineU64Map × Pc) :
    runAlone r (a + b) s = runAlone r b (runAlone r a s) := by
  induction a generalizing s with
  | zero => rw [Nat.zero_add]; rfl
  | succ a ih =>
    rw [Nat.succ_add]
    exact ih _

theorem runAlone_done (n : Nat) (m : InlineU64Map) (reply : Reply) :
    runAlone r n (m, .done reply) = (m, .done reply) := by
  induction n with
  | zero => rfl
  | succ n ih => exact ih

/-- A slot of another key is passed at once, or after its key was
read. -/
theorem runAlone_other (h : Tagged (m.h2 (m.keys i)) (m.slotMeta i)) (hk : m.keys i ≠ r.key) :
    ∃ n ≤ 4, runAlone r n (m, .probe i len) = (m, m.advance r i len) := by
  have hempty := h.ne_empty (isTag_h2 m _)
  have htomb := h.ne_tombstone (isTag_h2 m _)
  have hwait : isWritingMatch (m.slotMeta i) (m.h2 r.key) = false :=
    isWritingMatch_of_unlocked h.unlocked
  by_cases htag : metaH2 (m.slotMeta i) = m.h2 r.key
  · cases r with
    | get key =>
      refine ⟨4, Nat.le_refl 4, ?_⟩
      simp [runAlone, opStep, inspect, compareKey, hempty, hwait, htag, h.unlocked, hk]
    | _ =>
      refine ⟨2, by decide, ?_⟩
      simp [runAlone, opStep, inspect, compareKey, hempty, htomb, hwait, htag, h.unlocked, hk]
  · refine ⟨1, by decide, ?_⟩
    cases r <;> simp [runAlone, opStep, inspect, hempty, htomb, hwait, htag]

/-- An insert takes a free slot. -/
theorem runAlone_claim (hfree : m.slotMeta i = EMPTY ∨ m.slotMeta i = TOMBSTONE)
    (hr : r.inserts = true) :
    runAlone r 6 (m, .probe i len) = (m.claimAt i r, .done r.claimed) := by
  have hwait : isWritingMatch (m.slotMeta i) (m.h2 r.key) = false := by
    rcases hfree with h | h <;> simp [isWritingMatch, h]
  have hnot : ¬ (metaH2 (m.slotMeta i) = m.h2 r.key
      ∧ m.slotMeta i &&& WRITING_BIT = 0 ∧ m.slotMeta i ≠ EMPTY
      ∧ m.slotMeta i ≠ TOMBSTONE) :=
    fun h => hfree.elim h.2.2.1 h.2.2.2
  have hprobe : m.inspect r i len (m.slotMeta i) = .claim i len (m.slotMeta i) := by
    cases r <;> first
      | exact Bool.noConfusion hr
      | simp only [inspect, hwait, if_neg hnot, if_pos hfree, Bool.false_eq_true, if_false]
  simp only [runAlone, opStep, hprobe, if_true]
  exact Prod.ext (setMeta_claim m i _ _ _ _ _) rfl

/-- Anything else ends its search at an empty slot. -/
theorem runAlone_empty (hempty : m.slotMeta i = EMPTY) (hr : r.inserts = false) :
    runAlone r 1 (m, .probe i len) = (m, .done r.missed) := by
  cases r <;> first
    | exact Bool.noConfusion hr
    | simp only [runAlone, opStep, inspect, hempty, if_true]

/-- Anything else passes a tombstone: no key has its tag. -/
theorem runAlone_tombstone (htomb : m.slotMeta i = TOMBSTONE) (hr : r.inserts = false) :
    runAlone r 1 (m, .probe i len) = (m, m.advance r i len) := by
  have hne : TOMBSTONE ≠ EMPTY := by decide
  have htag : metaH2 TOMBSTONE ≠ m.h2 r.key :=
    fun h => (isTag_h2 m r.key).ne_tombstone (h.symm.trans (by decide))
  cases r <;> first
    | exact Bool.noConfusion hr
    | simp [runAlone, opStep, inspect, htomb, hne, htag, isWritingMatch]

theorem inspect_own (h : Tagged (m.h2 r.key) (m.slotMeta i)) :
    m.inspect r i len (m.slotMeta i) = .readKey i len (m.slotMeta i) := by
  have hempty := h.ne_empty (isTag_h2 m _)
  have htomb := h.ne_tombstone (isTag_h2 m _)
  have hwait : isWritingMatch (m.slotMeta i) (m.h2 r.key) = false :=
    isWritingMatch_of_unlocked h.unlocked
  cases r <;>
    simp only [inspect, hempty, htomb, hwait, h.tag_eq, h.unlocked,
      Bool.false_eq_true, if_false, if_true, and_self, not_false_eq_true,
      ne_eq]

/-- At its own key an operation does its work and returns. -/
theorem runAlone_own (h : Tagged (m.h2 r.key) (m.slotMeta i))
    (hk : m.keys i = r.key) : ∃ n ≤ 9, runAlone r n (m, .probe i len)
      = ((m.ownAlone i r).1, .done (m.ownAlone i r).2) := by
  have hprobe : m.inspect r i len (m.slotMeta i) = _ := inspect_own h
  cases r with
  | get key =>
    refine ⟨4, by decide, ?_⟩
    simp only [runAlone, opStep, hprobe, compareKey, hk, and_self, if_true]
    rfl
  | insert key value =>
    refine ⟨5, by decide, ?_⟩
    simp only [runAlone, opStep, hprobe, compareKey, hk, if_true]
    exact Prod.ext (setMeta_rewrite m i _ _ _) rfl
  | insertReturningOld _ _ | update _ _ =>
    refine ⟨6, by decide, ?_⟩
    simp only [runAlone, opStep, hprobe, compareKey, hk, if_true]
    exact Prod.ext (setMeta_rewrite m i _ _ _) rfl
  | remove key =>
    refine ⟨8, by decide, ?_⟩
    simp only [runAlone, opStep, hprobe, compareKey, hk, if_true]
    exact Prod.ext (setMeta_claim m i _ _ _ _ _) rfl
  | removeIfValue key expected =>
    by_cases hv : m.values i = expected
    · refine ⟨9, by decide, ?_⟩
      have hv' : (m.setMeta i (m.slotMeta i ||| WRITING_BIT)).values i = expected := hv
      simp only [runAlone, opStep, hprobe, compareKey, hk, hv, hv', ne_eq,
        not_true_eq_false, if_true, if_false, ownAlone]
      exact Prod.ext (setMeta_claim m i _ _ _ _ _) rfl
    · refine ⟨3, by decide, ?_⟩
      simp [runAlone, opStep, hprobe, compareKey, hk, hv, ownAlone]

/-- The machine does at a slot of a clean map what `visitAlone` says. -/
theorem runAlone_visit (hc : Clean m) (r : Request) (i len : Nat) : match m.visitAlone r i with
    | some (m', reply) => ∃ n ≤ 9, runAlone r n (m, .probe i len) = (m', .done reply)
    | none =>
      ∃ n ≤ 4, runAlone r n (m, .probe i len) = (m, m.advance r i len) := by
  cases hc.slotView r.key i with
  | empty h =>
    cases hr : r.inserts with
    | true =>
      simp only [visitAlone, h, hr, true_or, if_true]
      exact ⟨6, by decide, runAlone_claim (Or.inl h) hr⟩
    | false =>
      simp only [visitAlone, h, hr, true_or, if_true, Bool.false_eq_true, if_false]
      exact ⟨1, by decide, runAlone_empty h hr⟩
  | tombstone h =>
    have hne : TOMBSTONE ≠ EMPTY := by decide
    cases hr : r.inserts with
    | true =>
      simp only [visitAlone, h, hr, or_true, if_true]
      exact ⟨6, by decide, runAlone_claim (Or.inr h) hr⟩
    | false =>
      simp only [visitAlone, h, hr, or_true, if_true, hne, Bool.false_eq_true, if_false]
      exact ⟨1, by decide, runAlone_tombstone h hr⟩
  | own h hk =>
    have hempty := h.ne_empty (isTag_h2 m _)
    have htomb := h.ne_tombstone (isTag_h2 m _)
    simp only [visitAlone, hempty, htomb, hk, or_self, if_false, if_true]
    exact runAlone_own h hk
  | other h hk =>
    have hempty := h.ne_empty (isTag_h2 m _)
    have htomb := h.ne_tombstone (isTag_h2 m _)
    simp only [visitAlone, hempty, htomb, hk, or_self, if_false]
    exact runAlone_other h hk

end

/-- A whole search, from any slot of it: enough steps give the reply. -/
theorem runAlone_probe (hc : Clean m) (r : Request) (left : Nat) {len : Nat}
    (i : Nat) (hlen : len + left = m.probeLimit) {n : Nat}
    (hn : 4 * (left + 1) + 8 ≤ n) :
    ∃ m' reply, runAlone r n (m, .probe i len) = (m', .done reply)
      ∧ Lib.probe m.nextSlot (m.visitAlone r) (m, r.missed) left len i = (m', reply) := by
  have hvisit := runAlone_visit hc r i len
  cases hv : m.visitAlone r i with
  | some result =>
    obtain ⟨m', reply⟩ := result
    rw [hv] at hvisit
    obtain ⟨k, hk, hrun⟩ := hvisit
    refine ⟨m', reply, ?_, ?_⟩
    · obtain ⟨rest, rfl⟩ := Nat.exists_eq_add_of_le (show k ≤ n by omega)
      rw [runAlone_add, hrun, runAlone_done]
    · cases left <;> simp only [Lib.probe, hv, Option.getD_some]
  | none =>
    rw [hv] at hvisit
    obtain ⟨k, hk, hrun⟩ := hvisit
    obtain ⟨rest, rfl⟩ := Nat.exists_eq_add_of_le (show k ≤ n by omega)
    rw [runAlone_add, hrun, advance]
    cases left with
    | zero =>
      rw [if_pos (by omega), runAlone_done]
      exact ⟨m, r.missed, rfl, by simp only [Lib.probe, hv, Option.getD_none]⟩
    | succ left =>
      rw [if_neg (by omega)]
      simp only [Lib.probe, hv]
      exact runAlone_probe hc r left _ (by omega) (by omega)

/-- One call: the shared probing loop over `visitAlone`. It returns. -/
theorem call_eq_probe (hc : Clean m) (r : Request) :
    m.call r = Prod.map id some (Lib.probe m.nextSlot (m.visitAlone r)
      (m, r.missed) m.probeLimit 0 (m.h1 r.key)) := by
  obtain ⟨m', reply, hrun, hprobe⟩ := runAlone_probe hc r m.probeLimit
    (m.h1 r.key) (Nat.zero_add _) (Nat.le_refl _)
  unfold call start
  rw [hrun, hprobe]
  rfl

end MemoryFirst.Core.InlineU64Map
