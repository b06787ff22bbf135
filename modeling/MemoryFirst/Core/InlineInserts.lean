/-
Concurrent inserts into the inline map, once all calls have returned.

`inserts_single`: in every interleaving of inserts and updates in which
no insert passes a slot that another insert of the same key is just
claiming (`NoBlindPass`), every inserted key ends up in exactly one slot
and `len` is the number of inserted keys. `claim_passed_blindly` is an
interleaving of two inserts of one key without that condition: the
second does not recognise the claim of the first, whose lock word carries
no tag, and claims another slot.
-/
import MemoryFirst.Core.Proofs.InlineClaims

namespace MemoryFirst.Core.InlineU64Map

open Lib List

-- ===== the specification

/-- All calls have returned. -/
def Finished (w : World) : Prop :=
  ∀ proc ∈ w.procs, proc.pc.reply.isSome = true

instance (w : World) : Decidable (Finished w) :=
  inferInstanceAs (Decidable (∀ proc ∈ w.procs, _))

/-- Some insert of the key returned that it is stored. -/
def Inserted (w : World) (key : UInt64) : Prop :=
  ∃ proc ∈ w.procs, proc.request.inserts = true ∧ proc.request.key = key
    ∧ proc.pc.reply.any Reply.stored = true

/-- Every inserted key is in one slot, and the counter counts them. -/
structure OneSlotEach (w : World) : Prop where
  one_slot : ∀ key, Inserted w key → ∃! i, i < w.map.capacity ∧ w.map.Holds i key
  len_eq : w.map.len.toNat = {key | Inserted w key}.ncard

-- ===== a new call

section

variable {w : World} {r : Request} {i : Nat} {key : UInt64}

/-- The world with another call in it. -/
def started (w : World) (r : Request) : World :=
  { w with procs := w.procs ++ [⟨r, w.map.start r⟩] }

theorem owned_started : Owned (started w r) i key ↔ Owned w i key := by
  constructor
  · rintro (hpub | ⟨p, a, ha, hc, hk⟩)
    · exact Or.inl hpub
    · rcases getElem?_append_cases ha with ha | rfl
      · exact Or.inr ⟨p, a, ha, hc, hk⟩
      · cases hc
  · rintro (hpub | ⟨p, a, ha, hc, hk⟩)
    · exact Or.inl hpub
    · exact Or.inr ⟨p, a, getElem?_append_old ha, hc, hk⟩

theorem onPath_started {n : Nat} (h : OnPath w key i n) : OnPath (started w r) key i n := by
  refine ⟨h.le, h.slot_eq, fun a ha => ?_⟩
  obtain ⟨other, hne, ho⟩ := h.passed a ha
  exact ⟨other, hne, owned_started.2 ho⟩

theorem ClaimInv.started (hi : ClaimInv w) (hr : r.writes = true)
    (hlocks : Locks (started w r)) : ClaimInv (started w r) := by
  refine ⟨hlocks, ?_, ?_, ?_, ?_, ?_, ?_, ?_, hi.mask_lt, hi.capacity_lt⟩
  · intro p a ha
    rcases getElem?_append_cases ha with ha | rfl
    · exact hi.writes ha
    · exact hr
  · intro p a ha
    rcases getElem?_append_cases ha with ha | rfl
    · exact (hi.known ha).mono (fun _ _ h => h)
        (fun _ _ _ h => onPath_started h) fun _ _ => ⟨rfl, rfl⟩
    · exact fun _ => ⟨Nat.zero_le _, rfl, nofun⟩
  · intro i
    rcases hi.slots i with hempty | ⟨key, ho⟩
    · exact Or.inl hempty
    · exact Or.inr ⟨key, owned_started.2 ho⟩
  · intro i key ho
    obtain ⟨n, hn⟩ := hi.reach (owned_started.1 ho)
    exact ⟨n, onPath_started hn⟩
  · intro i j key ho ho'
    exact hi.unique (owned_started.1 ho) (owned_started.1 ho')
  · intro i key ho
    obtain ⟨p, a, ha, hrest⟩ := hi.landed (owned_started.1 ho)
    exact ⟨p, a, getElem?_append_old ha, hrest⟩
  · have hcount : (InlineU64Map.started w r).procs.countP (fun a => decide (a.pc = .increment))
        = w.procs.countP fun a => decide (a.pc = .increment) := by
      show (w.procs ++ [_]).countP _ = _
      rw [countP_append]
      rfl
    rw [hcount]
    exact hi.count

end

-- ===== whole runs

theorem ClaimInv.step {w w' : World} {action : Action} (hi : ClaimInv w)
    (h : WorldMoves w action w') (hcall : ∀ r, action = .start r → r.writes = true)
    (hblind : NoBlindPass w action) : ClaimInv w' := by
  have hlocks := hi.locks.step h
  cases h with
  | starts request => exact hi.started (hcall request rfl) hlocks
  | idles p h => exact hi
  | moves p proc map pc hp h => exact hi.moves hp h hblind

theorem claimInv_fresh (hash : UInt64 → UInt64) (cap : Nat) : ClaimInv (fresh hash cap) := by
  have hfree : ∀ i key, ¬ Owned (fresh hash cap) i key := by
    rintro i key (hpub | ⟨p, a, ha, -⟩)
    · exact hpub.ne_empty rfl
    · cases ha
  have hshown : shown (fresh hash cap).map = ∅ := by
    ext i
    rw [mem_shown]
    constructor
    · intro h
      exact absurd (Or.inl h.2) (hfree i _)
    · intro h
      exact absurd h (Finset.notMem_empty i)
  refine ⟨locks_fresh hash cap, fun h => (by cases h), fun h => (by cases h), fun _ => Or.inl rfl,
    fun ho => absurd ho (hfree _ _), fun ho => absurd ho (hfree _ _),
    fun ho => absurd ho (hfree _ _), ?_, ?_, ?_⟩
  · rw [hshown]
    rfl
  · show (withHasherAndCapacity hash cap).capacity - 1 < (withHasherAndCapacity hash cap).capacity
    have hpos : 8 ≤ (withHasherAndCapacity hash cap).capacity := Nat.le_max_right _ _
    omega
  · have hle := capacity_new_le hash cap
    show (withHasherAndCapacity hash cap).capacity + 1 < 2 ^ 64
    omega

section

variable {w : World} {i : Nat} {key : UInt64}

section

variable (hi : ClaimInv w) (hdone : Finished w)

include hi hdone

/-- When all calls have returned, the slots that show a key hold it. -/
theorem ClaimInv.holds_iff_published : w.map.Holds i key ↔ Published w.map i key := by
  have hidle : ∀ {p : Nat} {a : Proc} {i : Nat}, w.procs[p]? = some a → a.pc.holding ≠ some i := by
    intro p a i ha hheld
    have hreply := hdone a (mem_of_getElem? ha)
    obtain ⟨r, pc⟩ := a
    cases pc with
    | done reply => cases hheld
    | _ => cases hreply
  constructor
  · rintro ⟨hocc, rfl⟩
    have hne : w.map.slotMeta i ≠ EMPTY := by
      intro hempty
      rw [hempty] at hocc
      exact absurd hocc (by decide)
    rcases hi.slot_cases hne with hpub | ⟨-, q, b, hb, hc⟩
    · exact hpub
    · exact absurd (holding_of_claiming hc) (hidle hb)
  · intro hpub
    refine ⟨?_, hpub.2⟩
    have hopen : w.map.slotMeta i &&& WRITING_BIT = 0 := by
      by_contra hlock
      obtain ⟨p, a, ha, hheld⟩ := hi.locks.held hlock
      exact hidle ha hheld
    simp [isOccupied, hpub.ne_empty, hpub.ne_tombstone, hopen]

/-- The inserted keys are the keys the slots show. -/
theorem ClaimInv.inserted_iff : Inserted w key ↔ ∃ i, Published w.map i key := by
  constructor
  · rintro ⟨proc, hproc, hr, rfl, hreply⟩
    obtain ⟨p, hp⟩ := mem_iff_getElem?.1 hproc
    have hknown := hi.known hp
    obtain ⟨r, pc⟩ := proc
    cases pc with
    | done reply => exact hknown hreply
    | _ => cases hreply
  · rintro ⟨i, hpub⟩
    obtain ⟨p, a, ha, hr, hk, hl⟩ := hi.landed (Or.inl hpub)
    refine ⟨a, mem_of_getElem? ha, hr, hk, ?_⟩
    have hreply := hdone a (mem_of_getElem? ha)
    obtain ⟨r, pc⟩ := a
    cases pc with
    | done reply => exact hl
    | _ => cases hreply

theorem ClaimInv.oneSlotEach : OneSlotEach w := by
  constructor
  · intro key hkey
    obtain ⟨i, hpub⟩ := (hi.inserted_iff hdone).1 hkey
    refine ⟨i, ⟨hi.lt_capacity (Or.inl hpub), (hi.holds_iff_published hdone).2 hpub⟩, ?_⟩
    rintro j ⟨-, hholds⟩
    have hpub' := (hi.holds_iff_published hdone).1 hholds
    exact hi.unique (Or.inl hpub') (Or.inl hpub)
  · have hnone : w.procs.countP (fun a => decide (a.pc = .increment)) = 0 := by
      rw [countP_eq_zero]
      intro a ha hpc
      have hreply := hdone a ha
      rw [of_decide_eq_true hpc] at hreply
      cases hreply
    have himage : {key | Inserted w key} = ↑((shown w.map).image w.map.keys) := by
      ext key
      show Inserted w key ↔ _
      rw [hi.inserted_iff hdone, Finset.coe_image, Set.mem_image]
      constructor
      · rintro ⟨i, hpub⟩
        refine ⟨i, mem_shown.2 ⟨hi.lt_capacity (Or.inl hpub), ?_⟩, hpub.2⟩
        rw [hpub.2]
        exact hpub
      · rintro ⟨i, hmem, rfl⟩
        exact ⟨i, (mem_shown.1 hmem).2⟩
    have hinj : Set.InjOn w.map.keys ↑(shown w.map) := by
      intro i hmem j hmem' heq
      have hpub := (mem_shown.1 hmem).2
      rw [heq] at hpub
      exact hi.unique (Or.inl hpub) (Or.inl (mem_shown.1 hmem').2)
    rw [himage, Set.ncard_coe_finset, Finset.card_image_of_injOn hinj, ← hi.count, hnone]
    rfl

end

end

/-- Inserts and updates that meet no claim for their own key leave every
inserted key in one slot. -/
theorem inserts_single (hash : UInt64 → UInt64) (cap : Nat) (actions : List Action)
    (hcalls : ∀ r, .start r ∈ actions → r.writes = true)
    (hblind : Lib.Guarded worldStep NoBlindPass (fresh hash cap) actions)
    (hdone : Finished (Lib.exec worldStep (fresh hash cap) actions)) :
    OneSlotEach (Lib.exec worldStep (fresh hash cap) actions) := by
  let guard : World → Action → Prop := fun w action =>
    NoBlindPass w action ∧ ∀ r, action = .start r → r.writes = true
  have hguard : Guarded worldStep guard (fresh hash cap) actions := by
    refine guarded_iff.2 fun pre action post hsplit => ?_
    refine ⟨guarded_iff.1 hblind pre action post hsplit, ?_⟩
    rintro r rfl
    apply hcalls
    rw [hsplit]
    exact mem_append_right _ mem_cons_self
  have hinv := exec_inv ClaimInv (fun _ _ hi hg => hi.step (worldStep_moves ..) hg.2 hg.1)
    (claimInv_fresh hash cap) hguard
  exact hinv.oneSlotEach hdone

/-- Two inserts of one key, the second at the slot when the first has
published its claim and not counted it. -/
def metLater : List Action :=
  [.start (.insert ⟨1, one_ne_reserved⟩ 10), .start (.insert ⟨1, one_ne_reserved⟩ 11)]
    ++ List.replicate 5 (.step 0) ++ List.replicate 3 (.step 1)
    ++ List.replicate 1 (.step 0) ++ List.replicate 2 (.step 1)

theorem inserts_single_metLater :
    let w := exec worldStep (fresh (fun _ => 0) 8) metLater
    Inserted w 1 ∧ OneSlotEach w := by
  refine ⟨⟨⟨.insert ⟨1, by decide⟩ 10, .done (.outcome .inserted)⟩,
    by decide +kernel, rfl, rfl, rfl⟩, ?_⟩
  exact inserts_single (fun _ => 0) 8 metLater (by
      intro r hr
      simp only [metLater, mem_append, mem_cons, not_mem_nil,
        mem_replicate, reduceCtorEq, and_false, or_false,
        Action.start.injEq] at hr
      rcases hr with rfl | rfl <;> rfl)
    (by decide +kernel) (by decide +kernel)

/-- Two inserts of one key; the second looks at the slot when the first
has claimed it and not written its tag. -/
def blindPass : List Action :=
  [.start (.insert ⟨1, one_ne_reserved⟩ 10), .start (.insert ⟨1, one_ne_reserved⟩ 11)]
    ++ List.replicate 2 (.step 0) ++ List.replicate 7 (.step 1)
    ++ List.replicate 4 (.step 0)

/-- Both calls return `Inserted`, and the key is in two slots. -/
theorem claim_passed_blindly :
    let w := exec worldStep (fresh (fun _ => 0) 8) blindPass
    Finished w ∧ ¬ OneSlotEach w := by
  refine ⟨by decide +kernel, fun h => ?_⟩
  have hinserted : Inserted (exec worldStep (fresh (fun _ => 0) 8) blindPass) 1 :=
    ⟨⟨.insert ⟨1, by decide⟩ 10, .done (.outcome .inserted)⟩, by decide +kernel, rfl, rfl, rfl⟩
  have hone := (h.one_slot 1 hinserted).unique
    (show _ from by decide +kernel : 0 < _ ∧ Holds _ 0 1)
    (show _ from by decide +kernel : 1 < _ ∧ Holds _ 1 1)
  exact absurd hone (by decide)

end MemoryFirst.Core.InlineU64Map
