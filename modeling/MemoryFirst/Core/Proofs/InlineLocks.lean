/-
The inline map side by side: what one access does, and who may do it.

# What an access can do

`Moves` lists the accesses of an operation, one constructor per arm of
the source's loops, and `opStep_moves` says that every step is one of
them. Everything about interleavings is derived from this list.

# The locks

A slot whose word has bit 0 set is locked, and the operation that set the
bit holds it (`Pc.holding`). `Locks` is the exclusion invariant of the
protocol: the slot of a holder is locked, and no two operations hold one
slot. It survives every step (`Locks.step`), because a lock is only ever
taken by a compare-exchange from an unlocked word (`Sane`), and from it
follows the frame rule `Locks.frame`: nobody but its holder touches a
held slot.
-/
import MemoryFirst.Lib.Processes
import MemoryFirst.Core.Proofs.InlineMap

namespace MemoryFirst.Core.InlineU64Map

open Lib

-- ===== the arms of a step

/-- The accesses of an operation `r` on a map `m`, by the point before
it, the map after it and the point after it. -/
inductive Moves (m : InlineU64Map) (r : Request) : Pc → InlineU64Map → Pc → Prop
  | waits (i len : Nat) (h : isWritingMatch (m.slotMeta i) (m.h2 r.key) = true) :
      Moves m r (.probe i len) m (.probe i len)
  | matched (i len : Nat) (h : Tagged (m.h2 r.key) (m.slotMeta i)) :
      Moves m r (.probe i len) m (.readKey i len (m.slotMeta i))
  | finds (i len : Nat) (hr : r.inserts = true)
      (h : m.slotMeta i = EMPTY ∨ m.slotMeta i = TOMBSTONE) :
      Moves m r (.probe i len) m (.claim i len (m.slotMeta i))
  | misses (i len : Nat) (hr : r.inserts = false) (h : m.slotMeta i = EMPTY) :
      Moves m r (.probe i len) m (.done r.missed)
  | passes (i len : Nat) (hne : m.slotMeta i ≠ EMPTY)
      (hwait : isWritingMatch (m.slotMeta i) (m.h2 r.key) = false)
      (htag : ¬ Tagged (m.h2 r.key) (m.slotMeta i)) :
      Moves m r (.probe i len) m (m.advance r i len)
  | seesKey (i len : Nat) (word : UInt16) (hr : ∃ key, r = .get key) :
      Moves m r (.readKey i len word) m (.readValue i len word (m.keys i))
  | ownPeek (i len : Nat) (word : UInt16) (hr : r.removes = true) (hk : m.keys i = r.key) :
      Moves m r (.readKey i len word) m (.peek i len word)
  | ownLock (i len : Nat) (word : UInt16) (hk : m.keys i = r.key) :
      Moves m r (.readKey i len word) m (.lock i len word)
  | otherKey (i len : Nat) (word : UInt16) (hk : m.keys i ≠ r.key) :
      Moves m r (.readKey i len word) m (m.advance r i len)
  | seesValue (i len : Nat) (word : UInt16) (k : UInt64) : Moves m r (.readValue i len word k) m
        (.recheck i len word k (m.values i))
  | hits (i len : Nat) (word : UInt16) (k v : UInt64) (h : m.slotMeta i = word) (hk : k = r.key) :
      Moves m r (.recheck i len word k v) m (.done (.value (some v)))
  | retries (i len : Nat) (word : UInt16) (k v : UInt64) (h : m.slotMeta i ≠ word) :
      Moves m r (.recheck i len word k v) m (.probe i len)
  | collides (i len : Nat) (word : UInt16) (k v : UInt64) (hk : k ≠ r.key) :
      Moves m r (.recheck i len word k v) m (m.advance r i len)
  | refuses (i len : Nat) (word : UInt16) : Moves m r (.peek i len word) m (.done (.removed false))
  | peeks (i len : Nat) (word : UInt16) : Moves m r (.peek i len word) m (.lock i len word)
  | locks (i len : Nat) (word : UInt16) (h : m.slotMeta i = word) :
      Moves m r (.lock i len word) (m.setMeta i (word ||| WRITING_BIT)) (.writeValue i word none)
  | locksOld (i len : Nat) (word : UInt16) (h : m.slotMeta i = word) :
      Moves m r (.lock i len word) (m.setMeta i (word ||| WRITING_BIT)) (.readOld i word)
  | loses (i len : Nat) (word : UInt16) (h : m.slotMeta i ≠ word) :
      Moves m r (.lock i len word) m (.probe i len)
  | readsOld (i : Nat) (word : UInt16) (hr : r.removes = false) :
      Moves m r (.readOld i word) m (.writeValue i word (some (m.values i)))
  | keeps (i : Nat) (word : UInt16) (hr : r.removes = true) :
      Moves m r (.readOld i word) m (.restore i word)
  | takes (i : Nat) (word : UInt16) (hr : r.removes = true) :
      Moves m r (.readOld i word) m (.clearKey i (m.values i))
  | writes (i : Nat) (word : UInt16) (old : Option UInt64) :
      Moves m r (.writeValue i word old) (m.setValue i r.value) (.publish i word old)
  | publishes (i : Nat) (word : UInt16) (old : Option UInt64) : Moves m r (.publish i word old)
        (m.setMeta i (nextWord word (m.h2 r.key))) (.done (r.replaced old))
  | restores (i : Nat) (word : UInt16) :
      Moves m r (.restore i word) (m.setMeta i word) (.done (.removed false))
  | clearsKey (i : Nat) (old : UInt64) : Moves m r (.clearKey i old) (m.setKey i RESERVED_KEY)
        (.clearValue i old)
  | clearsValue (i : Nat) (old : UInt64) :
      Moves m r (.clearValue i old) (m.setValue i 0) (.bury i old)
  | buries (i : Nat) (old : UInt64) :
      Moves m r (.bury i old) (m.setMeta i TOMBSTONE) (.decrement old)
  | decrements (old : UInt64) : Moves m r (.decrement old) { m with len := m.len - 1 }
        (.done (r.buried old))
  | claims (i len : Nat) (word : UInt16) (h : m.slotMeta i = word) :
      Moves m r (.claim i len word) (m.setMeta i WRITING_BIT) (.claimKey i word)
  | losesClaim (i len : Nat) (word : UInt16) (h : m.slotMeta i ≠ word) :
      Moves m r (.claim i len word) m (.probe i len)
  | claimsKey (i : Nat) (word : UInt16) :
      Moves m r (.claimKey i word) (m.setKey i r.key) (.claimValue i word)
  | claimsValue (i : Nat) (word : UInt16) : Moves m r (.claimValue i word) (m.setValue i r.value)
        (.claimMeta i word)
  | claimsMeta (i : Nat) (word : UInt16) : Moves m r (.claimMeta i word)
        (m.setMeta i (firstWord word (m.h2 r.key))) .increment
  | increments : Moves m r .increment { m with len := m.len + 1 } (.done r.claimed)
  | rests (reply : Reply) : Moves m r (.done reply) m (.done reply)

section

variable {m m' : InlineU64Map} {r : Request} {pc pc' : Pc} {i j : Nat}

section

variable (m : InlineU64Map) (r : Request)

theorem probe_moves (i len : Nat) :
    Moves m r (.probe i len) m (m.inspect r i len (m.slotMeta i)) := by
  have hmatched : Tagged (m.h2 r.key) (m.slotMeta i) → metaH2 (m.slotMeta i) = m.h2 r.key
        ∧ m.slotMeta i &&& WRITING_BIT = 0 ∧ m.slotMeta i ≠ EMPTY
        ∧ m.slotMeta i ≠ TOMBSTONE := fun h =>
    ⟨h.tag_eq, h.unlocked, h.ne_empty (isTag_h2 m _), h.ne_tombstone (isTag_h2 m _)⟩
  cases r with
  | get _ | update _ _ =>
    simp only [inspect]
    split
    next h => exact .misses i len rfl h
    next hne =>
      split
      next hw => exact .waits i len hw
      next hw =>
        split
        next h => exact .matched i len ⟨h.1, h.2⟩
        next h =>
          exact .passes i len hne (Bool.eq_false_iff.2 hw) fun ht => h ⟨ht.tag_eq, ht.unlocked⟩
  | remove _ | removeIfValue _ _ =>
    simp only [inspect]
    split
    next h => exact .misses i len rfl h
    next hne =>
      split
      next hw => exact .waits i len hw
      next hw =>
        split
        next h => exact .matched i len ⟨h.1, h.2.1⟩
        next h =>
          exact .passes i len hne (Bool.eq_false_iff.2 hw) fun ht => h (hmatched ht)
  | insert _ _ | insertReturningOld _ _ =>
    simp only [inspect]
    split
    next hw => exact .waits i len hw
    next hw =>
      split
      next h => exact .matched i len ⟨h.1, h.2.1⟩
      next h =>
        split
        next hfree => exact .finds i len rfl hfree
        next hfree =>
          exact .passes i len (fun he => hfree (Or.inl he))
            (Bool.eq_false_iff.2 hw) fun ht => h (hmatched ht)

theorem opStep_moves (pc : Pc) : Moves m r pc (m.opStep r pc).1 (m.opStep r pc).2 := by
  cases pc with
  | probe i len => exact probe_moves m r i len
  | readKey i len word =>
    cases r with
    | get key => exact .seesKey i len word ⟨key, rfl⟩
    | removeIfValue key expected =>
      simp only [opStep, compareKey]
      split
      next hk => exact .ownPeek i len word rfl hk
      next hk => exact .otherKey i len word hk
    | _ =>
      simp only [opStep, compareKey]
      split
      next hk => exact .ownLock i len word hk
      next hk => exact .otherKey i len word hk
  | readValue i len word k => exact .seesValue i len word k
  | recheck i len word k v =>
    simp only [opStep]
    split
    next h => exact .hits i len word k v h.1.symm h.2
    next h =>
      split
      next hw => exact .retries i len word k v (Ne.symm hw)
      next hw => exact .collides i len word k v fun hk => h ⟨not_not.1 hw, hk⟩
  | peek i len word =>
    cases r with
    | removeIfValue key expected =>
      simp only [opStep]
      split
      · exact .refuses i len word
      · exact .peeks i len word
    | _ => exact .peeks i len word
  | lock i len word =>
    simp only [opStep]
    split
    next h =>
      cases r with
      | insert key value => exact .locks i len word h
      | _ => exact .locksOld i len word h
    next h => exact .loses i len word h
  | readOld i word =>
    cases r with
    | remove key => exact .takes i word rfl
    | removeIfValue key expected =>
      simp only [opStep]
      split
      · exact .keeps i word rfl
      · exact .takes i word rfl
    | _ => exact .readsOld i word rfl
  | writeValue i word old => exact .writes i word old
  | publish i word old => exact .publishes i word old
  | restore i word => exact .restores i word
  | clearKey i old => exact .clearsKey i old
  | clearValue i old => exact .clearsValue i old
  | bury i old => exact .buries i old
  | decrement old => exact .decrements old
  | claim i len word =>
    simp only [opStep]
    split
    next h => exact .claims i len word h
    next h => exact .losesClaim i len word h
  | claimKey i word => exact .claimsKey i word
  | claimValue i word => exact .claimsValue i word
  | claimMeta i word => exact .claimsMeta i word
  | increment => exact .increments
  | done reply => exact .rests reply

/-- Going on is either the end of the search or its next slot. -/
theorem advance_cases (i len : Nat) : m.advance r i len = .done r.missed ∨ len + 1 ≤ m.probeLimit
        ∧ m.advance r i len = .probe (m.nextSlot (len + 1) i) (len + 1) := by
  unfold advance
  split
  case isTrue => exact Or.inl rfl
  case isFalse h => exact Or.inr ⟨by omega, rfl⟩

end

/-- No access touches the hasher or the size of the map. -/
theorem Moves.shape (h : Moves m r pc m' pc') : m'.hashBuilder = m.hashBuilder ∧ m'.mask = m.mask
      ∧ m'.probeLimit = m.probeLimit ∧ m'.capacity = m.capacity := by
  cases h <;> exact ⟨rfl, rfl, rfl, rfl⟩

theorem Moves.h2_eq (h : Moves m r pc m' pc') (key : UInt64) : m'.h2 key = m.h2 key := by
  unfold h2
  rw [h.shape.1]

theorem Moves.slot_eq (h : Moves m r pc m' pc') (key : UInt64) (n : Nat) :
    m'.slot key n = m.slot key n := by
  obtain ⟨hhash, hmask, -, -⟩ := h.shape
  unfold slot nextSlot h1
  rw [hhash, hmask]

-- ===== loaded words

/-- The words an operation carries are what it took them for. -/
def Sane (tag : UInt16) : Pc → Prop
  | .readKey _ _ word => Tagged tag word
  | .readValue _ _ word _ => Tagged tag word
  | .recheck _ _ word _ _ => Tagged tag word
  | .peek _ _ word => Tagged tag word
  | .lock _ _ word => Tagged tag word
  | .readOld _ word => Tagged tag word
  | .writeValue _ word _ => Tagged tag word
  | .publish _ word _ => Tagged tag word
  | .restore _ word => Tagged tag word
  | .claim _ _ word => word = EMPTY ∨ word = TOMBSTONE
  | .claimKey _ word => word = EMPTY ∨ word = TOMBSTONE
  | .claimValue _ word => word = EMPTY ∨ word = TOMBSTONE
  | .claimMeta _ word => word = EMPTY ∨ word = TOMBSTONE
  | _ => True

theorem sane_advance (m : InlineU64Map) (r : Request) (i len : Nat)
    (tag : UInt16) : Sane tag (m.advance r i len) := by
  rcases advance_cases m r i len with h | ⟨-, h⟩ <;> rw [h] <;> trivial

theorem Moves.sane (h : Moves m r pc m' pc') (hs : Sane (m.h2 r.key) pc) :
    Sane (m.h2 r.key) pc' := by
  cases h with
  | matched _ _ h | finds _ _ _ h => exact h
  | passes i len | otherKey i len | collides i len => exact sane_advance m r i len _
  | _ => first | exact hs | trivial

-- ===== holders

/-- The slot whose lock the operation holds. -/
def Pc.holding : Pc → Option Nat
  | .readOld i _ => some i
  | .writeValue i _ _ => some i
  | .publish i _ _ => some i
  | .restore i _ => some i
  | .clearKey i _ => some i
  | .clearValue i _ => some i
  | .bury i _ => some i
  | .claimKey i _ => some i
  | .claimValue i _ => some i
  | .claimMeta i _ => some i
  | _ => none

def Locked (m : InlineU64Map) (i : Nat) : Prop :=
  m.slotMeta i &&& WRITING_BIT ≠ 0

theorem or_writing (word : UInt16) : (word ||| WRITING_BIT) &&& WRITING_BIT ≠ 0 := by
  have habsorb : (word ||| WRITING_BIT) &&& WRITING_BIT = WRITING_BIT := by
    apply UInt16.toBitVec_inj.1
    ext k hk
    simp only [UInt16.toBitVec_and, UInt16.toBitVec_or, BitVec.getElem_and, BitVec.getElem_or]
    cases WRITING_BIT.toBitVec[k] <;> simp
  rw [habsorb]
  decide

theorem holding_advance (m : InlineU64Map) (r : Request) (i len : Nat) :
    (m.advance r i len).holding = none := by
  rcases advance_cases m r i len with h | ⟨-, h⟩ <;> rw [h] <;> rfl

theorem unlocked_of_free {word : UInt16}
    (h : word = EMPTY ∨ word = TOMBSTONE) : word &&& WRITING_BIT = 0 := by
  rcases h with rfl | rfl <;> decide

theorem slotMeta_setMeta_self (m : InlineU64Map) (i : Nat) (word : UInt16) :
    (m.setMeta i word).slotMeta i = word := by
  simp [setMeta]

theorem slotMeta_setMeta_of_ne (m : InlineU64Map) (word : UInt16)
    (h : j ≠ i) : (m.setMeta i word).slotMeta j = m.slotMeta j := by
  simp [setMeta, h]

section

variable (h : Moves m r pc m' pc')

include h

/-- Who holds a slot after an access held it before, or took it with the
access, from an unlocked word. -/
theorem Moves.holds (hs : Sane (m.h2 r.key) pc) (hj : pc'.holding = some j) :
    (pc.holding = some j ∧ m'.slotMeta j = m.slotMeta j)
      ∨ (pc.holding = none ∧ ¬ Locked m j ∧ Locked m' j) := by
  cases h with
  | passes _ _ | otherKey _ _ | collides _ _ => rw [holding_advance] at hj; cases hj
  | locks _ _ word h | locksOld _ _ word h =>
    cases hj
    refine Or.inr ⟨rfl, fun hl => hl (h ▸ hs.unlocked), ?_⟩
    unfold Locked
    rw [slotMeta_setMeta_self]
    exact or_writing word
  | claims i len word h =>
    cases hj
    refine Or.inr ⟨rfl, fun hl => hl (h ▸ unlocked_of_free hs), ?_⟩
    unfold Locked
    rw [slotMeta_setMeta_self]
    decide
  | readsOld _ _ _ | keeps _ _ _ | takes _ _ _ | writes _ _ _
  | clearsKey _ _ | clearsValue _ _ | claimsKey _ _ | claimsValue _ _ =>
    exact Or.inl ⟨hj, rfl⟩
  | _ => cases hj

/-- A holder keeps its slot until it leaves an unlocked word there. -/
theorem Moves.releases (hs : Sane (m.h2 r.key) pc) (hj : pc.holding = some j) :
    pc'.holding = some j ∨ ¬ Locked m' j := by
  have htag := isTag_h2 m r.key
  have hopen : ∀ word : UInt16, word &&& WRITING_BIT = 0 → ¬ Locked (m.setMeta j word) j := by
    intro word hword hl
    unfold Locked at hl
    rw [slotMeta_setMeta_self] at hl
    exact hl hword
  cases h with
  | publishes i word old =>
    cases hj
    exact Or.inr (hopen _ (htag.tagged_nextWord word).unlocked)
  | restores i word =>
    cases hj
    exact Or.inr (hopen _ hs.unlocked)
  | buries i old =>
    cases hj
    exact Or.inr (hopen _ (by decide))
  | claimsMeta i word =>
    cases hj
    exact Or.inr (hopen _ (htag.tagged_firstWord word).unlocked)
  | _ => first | exact Or.inl hj | cases hj

/-- Nobody but its holder writes a slot's key. -/
theorem Moves.keys_eq (hj : pc.holding ≠ some j) : m'.keys j = m.keys j := by
  cases h with
  | clearsKey _ _ | claimsKey _ _ =>
    exact Function.update_of_ne (fun he => hj (congrArg some he.symm)) _ _
  | _ => rfl

/-- Nobody but its holder writes a slot's value. -/
theorem Moves.values_eq (hj : pc.holding ≠ some j) : m'.values j = m.values j := by
  cases h with
  | writes _ _ _ | clearsValue _ _ | claimsValue _ _ =>
    exact Function.update_of_ne (fun he => hj (congrArg some he.symm)) _ _
  | _ => rfl

/-- Nobody but its holder writes a slot's word, except to take the lock
of an unlocked one. -/
theorem Moves.slotMeta_cases (hs : Sane (m.h2 r.key) pc)
    (hj : pc.holding ≠ some j) : m'.slotMeta j = m.slotMeta j
      ∨ (¬ Locked m j ∧ Locked m' j ∧ pc'.holding = some j) := by
  have hset : ∀ i word, (j = i → False) → (m.setMeta i word).slotMeta j = m.slotMeta j :=
    fun i word hne => slotMeta_setMeta_of_ne m word hne
  by_cases hheld : pc'.holding = some j
  · rcases h.holds hs hheld with hh | hh
    · exact absurd hh.1 hj
    · exact Or.inr ⟨hh.2.1, hh.2.2, hheld⟩
  left
  cases h with
  | locks _ _ _ _ | locksOld _ _ _ _ | claims _ _ _ _ =>
    exact hset _ _ fun he => hheld (congrArg some he.symm)
  | publishes _ _ _ | restores _ _ | buries _ _ | claimsMeta _ _ =>
    exact hset _ _ fun he => hj (congrArg some he.symm)
  | _ => rfl

end

end

-- ===== the world

/-- The world after an access. -/
def after (w : World) (p : Nat) (proc : Proc) (map : InlineU64Map) (pc : Pc) : World :=
  ⟨map, w.procs.set p ⟨proc.request, pc⟩, w.stores ++ proc.storing⟩

/-- The steps of a world: a new operation, or one access of an old one. -/
inductive WorldMoves (w : World) : Action → World → Prop
  | starts (request : Request) : WorldMoves w (.start request)
        { w with procs := w.procs ++ [⟨request, w.map.start request⟩] }
  | idles (p : Nat) (h : w.procs[p]? = none) : WorldMoves w (.step p) w
  | moves (p : Nat) (proc : Proc) (map : InlineU64Map) (pc : Pc) (hp : w.procs[p]? = some proc)
      (h : Moves w.map proc.request proc.pc map pc) :
      WorldMoves w (.step p) (after w p proc map pc)

theorem worldStep_moves (w : World) (action : Action) :
    WorldMoves w action (worldStep w action).1 := by
  cases action with
  | start request => exact .starts request
  | step p =>
    unfold worldStep
    dsimp only
    split
    next h => exact .idles p h
    next proc h => exact .moves p proc _ _ h (opStep_moves _ _ _)

-- ===== the exclusion

/-- The slot of a holder is locked, a locked slot has a holder, and no
slot has two. -/
structure Locks (w : World) : Prop where
  sane : ∀ {p : Nat} {a : Proc}, w.procs[p]? = some a → Sane (w.map.h2 a.request.key) a.pc
  locked : ∀ {p : Nat} {a : Proc} {i : Nat}, w.procs[p]? = some a →
    a.pc.holding = some i → Locked w.map i
  held : ∀ {i : Nat}, Locked w.map i → ∃ (p : Nat) (a : Proc),
    w.procs[p]? = some a ∧ a.pc.holding = some i
  exclusive : ∀ {p q : Nat} {a b : Proc} {i : Nat}, w.procs[p]? = some a →
    w.procs[q]? = some b → a.pc.holding = some i → b.pc.holding = some i →
    p = q

section

variable {w : World} {p q i : Nat} {proc b : Proc} {map : InlineU64Map} {pc : Pc}

section

variable (hl : Locks w) (hp : w.procs[p]? = some proc) (h : Moves w.map proc.request proc.pc map pc)

include hl hp h

/-- Nobody but its holder touches a held slot. -/
theorem Locks.frame (hq : w.procs[q]? = some b) (hne : q ≠ p) (hb : b.pc.holding = some i) :
    map.slotMeta i = w.map.slotMeta i ∧ map.keys i = w.map.keys i
      ∧ map.values i = w.map.values i := by
  have hnot : proc.pc.holding ≠ some i := fun hi => hne (hl.exclusive hq hp hb hi)
  refine ⟨?_, h.keys_eq hnot, h.values_eq hnot⟩
  rcases h.slotMeta_cases (hl.sane hp) hnot with heq | ⟨hun, -, -⟩
  · exact heq
  · exact absurd (hl.locked hq hb) hun

theorem Locks.moves : Locks (after w p proc map pc) := by
  -- a holder other than the stepping operation keeps its lock
  have hothers : ∀ {q b i}, w.procs[q]? = some b → q ≠ p →
      b.pc.holding = some i → Locked map i := by
    intro q b i hq hne hb
    unfold Locked
    rw [(hl.frame hp h hq hne hb).1]
    exact hl.locked hq hb
  have hnew : ∀ {q b i}, w.procs[q]? = some b → pc.holding = some i →
      b.pc.holding = some i → q = p := by
    intro q b i hq hi hb
    rcases h.holds (hl.sane hp) hi with ⟨hheld, -⟩ | ⟨-, hun, -⟩
    · exact hl.exclusive hq hp hb hheld
    · exact absurd (hl.locked hq hb) hun
  constructor
  · intro q b hq
    show Sane (map.h2 b.request.key) b.pc
    rw [h.h2_eq]
    rcases getElem?_set_cases hq with ⟨rfl, rfl⟩ | ⟨-, hq⟩
    · exact h.sane (hl.sane hp)
    · exact hl.sane hq
  · intro q b i hq hb
    rcases getElem?_set_cases hq with ⟨rfl, rfl⟩ | ⟨hne, hq⟩
    · rcases h.holds (hl.sane hp) hb with ⟨hheld, heq⟩ | ⟨-, -, hlock⟩
      · show map.slotMeta i &&& WRITING_BIT ≠ 0
        rw [heq]
        exact hl.locked hp hheld
      · exact hlock
    · exact hothers hq hne hb
  · intro i hlock
    by_cases hi : proc.pc.holding = some i
    · rcases h.releases (hl.sane hp) hi with hstill | hopen
      · exact ⟨p, _, getElem?_set_new hp, hstill⟩
      · exact absurd hlock hopen
    rcases h.slotMeta_cases (hl.sane hp) hi with heq | ⟨-, -, htaken⟩
    · have hlock : map.slotMeta i &&& WRITING_BIT ≠ 0 := hlock
      rw [heq] at hlock
      obtain ⟨q, b, hq, hb⟩ := hl.held hlock
      have hne : p ≠ q := by
        intro heq
        subst heq
        cases hp.symm.trans hq
        exact hi hb
      exact ⟨q, b, getElem?_set_other hq hne, hb⟩
    · exact ⟨p, _, getElem?_set_new hp, htaken⟩
  · intro q q' a b i hq hq' ha hb
    rcases getElem?_set_cases hq with ⟨rfl, rfl⟩ | ⟨hne, hold⟩ <;>
      rcases getElem?_set_cases hq' with ⟨rfl, rfl⟩ | ⟨hne', hold'⟩
    · rfl
    · exact absurd (hnew hold' ha hb) hne'
    · exact absurd (hnew hold hb ha) hne
    · exact hl.exclusive hold hold' ha hb

end

theorem Locks.step {action : Action} {w' : World} (hl : Locks w) (h : WorldMoves w action w') :
    Locks w' := by
  cases h with
  | starts request =>
    constructor
    · intro q b hq
      rcases getElem?_append_cases hq with hq | rfl
      · exact hl.sane hq
      · trivial
    · intro q b i hq hb
      rcases getElem?_append_cases hq with hq | rfl
      · exact hl.locked hq hb
      · cases hb
    · intro i hlock
      obtain ⟨q, b, hq, hb⟩ := hl.held hlock
      exact ⟨q, b, getElem?_append_old hq, hb⟩
    · intro q q' a b i hq hq' ha hb
      rcases getElem?_append_cases hq with hq | rfl
      · rcases getElem?_append_cases hq' with hq' | rfl
        · exact hl.exclusive hq hq' ha hb
        · cases hb
      · cases ha
  | idles p h => exact hl
  | moves p proc map pc hp h => exact hl.moves hp h

theorem locks_fresh (hash : UInt64 → UInt64) (cap : Nat) : Locks (fresh hash cap) := by
  refine ⟨fun h => (by cases h), fun h => (by cases h), ?_, fun h => (by cases h)⟩
  intro i hlock
  have hzero : EMPTY &&& WRITING_BIT ≠ 0 := hlock
  exact absurd hzero (by decide)

end

end MemoryFirst.Core.InlineU64Map
