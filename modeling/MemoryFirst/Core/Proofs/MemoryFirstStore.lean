/-
What the calls of a `MemoryFirstStore` do, and what is true of every
interleaving of them whatever the writers and flushers do.

`collectIdleDirty` takes dirty slots as they are, each key once.
`markFlushedAndEvict` touches only slots whose version is that of a
record, and leaves those clean or gone. `WorldMoves` lists the steps of
the world with these facts, and `WorldInv` is the invariant that needs no
condition: the store shows the last write of a key or nothing, and a
collected record is of a write that was made.
-/
import MemoryFirst.Lib.History
import MemoryFirst.Lib.Processes
import MemoryFirst.Lib.Runs
import MemoryFirst.Core.MemoryFirstStore

namespace MemoryFirst.Core.MemoryFirstStore

open Lib Function List

variable {K V ε : Type} [DecidableEq K]

-- ===== collect

omit [DecidableEq K] in
/-- What a batch holds: dirty slots as they are, each key once. -/
structure Collected (s : MemoryFirstStore K V) (records : List (Batched K V)) : Prop where
  slot : ∀ b ∈ records, ∃ slot, s.slots b.record.key = some slot
    ∧ slot.dirty = true ∧ b = Batched.ofSlot b.record.key slot
  nodup : (records.map fun b => b.record.key).Nodup

variable (s : MemoryFirstStore K V) (strongCount : Slot V → Nat)

omit [DecidableEq K] in
theorem collectLoop_spec (idleTicks maxRecords : Nat) (keys : List K) (records : List (Batched K V))
    (hrecords : Collected s records) (hkeys : keys.Nodup)
    (hnew : ∀ b ∈ records, b.record.key ∉ keys) :
    Collected s (collectLoop s strongCount idleTicks maxRecords keys records) := by
  induction keys generalizing records with
  | nil => exact hrecords
  | cons key keys ih =>
    obtain ⟨hkey, hkeys⟩ := nodup_cons.1 hkeys
    have hskip : ∀ b ∈ records, b.record.key ∉ keys := fun b hb hmem =>
      hnew b hb (mem_cons_of_mem _ hmem)
    unfold collectLoop
    split
    · exact hrecords
    split
    next => exact ih records hrecords hkeys hskip
    next slot hslot =>
      split
      · exact ih records hrecords hkeys hskip
      next htake =>
        refine ih _ ⟨?_, ?_⟩ hkeys ?_
        · refine forall_mem_snoc.2 ⟨hrecords.slot, slot, hslot, ?_, rfl⟩
          cases hd : slot.dirty with
          | true => rfl
          | false => exact absurd (Or.inl hd) htake
        · rw [map_append]
          refine nodup_append.2 ⟨hrecords.nodup, pairwise_singleton _ _, ?_⟩
          intro k hk k' hk' heq
          obtain ⟨b, hb, rfl⟩ := mem_map.1 hk
          have hk' : k' = key := mem_singleton.1 hk'
          exact hnew b hb (by rw [heq, hk']; exact mem_cons_self)
        · exact forall_mem_snoc.2 ⟨hskip, hkey⟩

omit [DecidableEq K] in
theorem collectIdleDirty_spec (order : Iteration K) (idleTicks maxRecords : Nat) :
    Collected s (s.collectIdleDirty strongCount order idleTicks maxRecords) :=
  collectLoop_spec s strongCount idleTicks maxRecords order.keys []
    ⟨nofun, nodup_nil⟩ order.nodup nofun

-- ===== mark

variable (records : List (Batched K V))

/-- A key across a marking: no record of the batch has the version of its
slot, or one has and the slot is gone or clean. -/
def Marked (k : K) (before after : Option (Slot V)) : Prop :=
  (after = before ∧ ∀ b ∈ records, b.record.key = k →
      ∀ slot, before = some slot → slot.version ≠ b.record.version)
    ∨ ∃ b ∈ records, b.record.key = k ∧ ∃ slot, before = some slot ∧ slot.version = b.record.version
      ∧ (after = none ∨ after = some { slot with dirty := false })

theorem markRecord_spec (s : MemoryFirstStore K V × Nat) (b : Batched K V) :
    (markRecord strongCount s b).1.clock = s.1.clock ∧ ∀ k, Marked [b] k (s.1.slots k)
        ((markRecord strongCount s b).1.slots k) := by
  -- no key but that of the record changes
  have hrule : ∀ {out : MemoryFirstStore K V}, out.clock = s.1.clock →
      (∀ k, k ≠ b.record.key → out.slots k = s.1.slots k) →
      Marked [b] b.record.key (s.1.slots b.record.key) (out.slots b.record.key) →
      out.clock = s.1.clock ∧ ∀ k, Marked [b] k (s.1.slots k) (out.slots k) := by
    intro out hclock hother hown
    refine ⟨hclock, fun k => ?_⟩
    by_cases hk : k = b.record.key
    · subst hk
      exact hown
    · refine Or.inl ⟨hother k hk, fun b' hb' hkey => ?_⟩
      cases mem_singleton.1 hb'
      exact absurd hkey.symm hk
  unfold markRecord
  split
  next hnone =>
    refine hrule rfl (fun _ _ => rfl) (Or.inl ⟨rfl, fun _ _ _ slot hslot => ?_⟩)
    rw [hnone] at hslot
    cases hslot
  next slot hslot =>
    split
    next hne =>
      refine hrule rfl (fun _ _ => rfl) (Or.inl ⟨rfl, fun b' hb' _ slot' hslot' => ?_⟩)
      cases mem_singleton.1 hb'
      cases hslot.symm.trans hslot'
      exact hne
    next heq =>
      have hversion : slot.version = b.record.version := not_not.1 heq
      split
      · exact hrule rfl (fun _ hk => update_of_ne hk _ _) (Or.inr ⟨b, mem_singleton.2 rfl, rfl,
          slot, hslot, hversion, Or.inl (update_self _ _ _)⟩)
      · exact hrule rfl (fun _ hk => update_of_ne hk _ _) (Or.inr ⟨b, mem_singleton.2 rfl, rfl,
          slot, hslot, hversion, Or.inr (update_self _ _ _)⟩)

omit [DecidableEq K] in
theorem Marked.trans {records more : List (Batched K V)} {k : K}
    {a b c : Option (Slot V)} (h : Marked records k a b)
    (h' : Marked more k b c) : Marked (records ++ more) k a c := by
  rcases h with ⟨rfl, hnone⟩ | ⟨r, hr, hkey, slot, hslot, hversion, hafter⟩
  · rcases h' with ⟨rfl, hnone'⟩ | ⟨r, hr, hkey, hrest⟩
    · refine Or.inl ⟨rfl, fun r hr => ?_⟩
      rcases mem_append.1 hr with hold | hnew
      · exact hnone r hold
      · exact hnone' r hnew
    · exact Or.inr ⟨r, mem_append_right _ hr, hkey, hrest⟩
  refine Or.inr ⟨r, mem_append_left _ hr, hkey, slot, hslot, hversion, ?_⟩
  rcases h' with ⟨rfl, -⟩ | ⟨-, -, -, slot', hslot', -, hafter'⟩
  · exact hafter
  -- a slot made clean may still be evicted
  rcases hafter with hnone | hclean
  · rw [hnone] at hslot'
    cases hslot'
  · cases hclean.symm.trans hslot'
    exact hafter'

theorem markFlushedAndEvict_spec : (s.markFlushedAndEvict strongCount records).1.clock = s.clock
      ∧ ∀ k, Marked records k (s.slots k)
        ((s.markFlushedAndEvict strongCount records).1.slots k) := by
  unfold markFlushedAndEvict
  generalize hacc : (s, 0) = acc
  have hs : acc.1 = s := by rw [← hacc]
  rw [← hs]
  clear hacc hs
  induction records generalizing acc with
  | nil => exact ⟨rfl, fun k => Or.inl ⟨rfl, nofun⟩⟩
  | cons b records ih =>
    obtain ⟨hclock, hfirst⟩ := markRecord_spec strongCount acc b
    obtain ⟨hclock', hrest⟩ := ih (markRecord strongCount acc b)
    exact ⟨hclock'.trans hclock, fun k => (hfirst k).trans (hrest k)⟩

-- ===== the steps

/-- The key a write is for. -/
def Action.target : Action K V ε → Option K
  | .put key _ => some key
  | .loadClean key _ => some key
  | .delete key => some key
  | _ => none

def nextVersion (key : K) : Nat :=
  match s.slots key with
  | some existing => existing.version + 1
  | none => 1

/-- The slot as it was but for its last touch. -/
def Touched (before after : Option (Slot V)) : Prop :=
  ∃ t, after = before.map fun slot => { slot with lastTouch := t }

/-- The steps of a world, by the action they are taken with. -/
inductive WorldMoves (w : World K V ε) : Action K V ε → World K V ε → Prop
  | writes (action : Action K V ε) (key : K) (slot : Slot V) (htarget : action.target = some key)
      (hversion : slot.version = nextVersion w.store key)
      (hwrite : slot.write = w.store.clock)
      (hclean : slot.dirty = false → ∃ v, action = .loadClean key v ∧ slot.value = some v) :
      WorldMoves w action
        { w with
          store := { w.store with
            clock := w.store.clock + 1
            slots := update w.store.slots key (some slot) }
          writes := w.writes ++
            [⟨key, slot.value, slot.dirty, slot.write⟩] }
  | reads (action : Action K V ε) (s : MemoryFirstStore K V)
      (readers : List Nat) (hclock : w.store.clock ≤ s.clock)
      (hslots : ∀ k, Touched (w.store.slots k) (s.slots k)) :
      WorldMoves w action { w with store := s, readers := readers }
  | collects (order : Iteration K) (idleTicks maxRecords : Nat)
      (records : List (Batched K V)) (pc : FlusherPc ε)
      (hrecords : Collected w.store records)
      (hpc : pc = .flush ∨ (records = [] ∧ pc = .done (.ok 0))) :
      WorldMoves w (.collect order idleTicks maxRecords)
        { w with flushers := w.flushers ++ [⟨records, pc⟩] }
  | accepts (action : Action K V ε) (p : Nat) (records : List (Batched K V))
      (hf : w.flushers[p]? = some ⟨records, .flush⟩) :
      WorldMoves w action
        { w with
          flushers := w.flushers.set p ⟨records, .mark⟩
          accepted := w.accepted ++ records }
  | fails (action : Action K V ε) (p : Nat) (records : List (Batched K V)) (e : ε)
      (hf : w.flushers[p]? = some ⟨records, .flush⟩) :
      WorldMoves w action { w with flushers := w.flushers.set p ⟨records, .done (.error e)⟩ }
  | marks (action : Action K V ε) (p : Nat)
      (records : List (Batched K V)) (s : MemoryFirstStore K V)
      (evicted : Nat) (hf : w.flushers[p]? = some ⟨records, .mark⟩)
      (hclock : s.clock = w.store.clock)
      (hslots : ∀ k, Marked records k (w.store.slots k) (s.slots k)) :
      WorldMoves w action
        { w with
          store := s
          flushers := w.flushers.set p
            ⟨records, .done (.ok evicted)⟩ }
  | idles (action : Action K V ε) : WorldMoves w action w

omit [DecidableEq K] in
theorem Touched.refl (before : Option (Slot V)) : Touched before before := by
  cases before with
  | none => exact ⟨0, rfl⟩
  | some slot => exact ⟨slot.lastTouch, rfl⟩

variable {slot : Slot V}

theorem touched_recordTouch {key : K} (hslot : s.slots key = some slot) :
    s.clock ≤ (s.recordTouch key slot).clock
      ∧ ∀ k, Touched (s.slots k) ((s.recordTouch key slot).slots k) := by
  unfold recordTouch
  split
  · refine ⟨Nat.le_succ _, fun k => ?_⟩
    dsimp only
    by_cases hk : k = key
    · subst hk
      rw [update_self, hslot]
      exact ⟨s.clock, rfl⟩
    · rw [update_of_ne hk]
      exact Touched.refl _
  · exact ⟨Nat.le_refl _, fun k => Touched.refl _⟩

theorem worldStep_moves (w : World K V ε) (action : Action K V ε) :
    WorldMoves w action (worldStep w action).1 := by
  cases action with
  | put key value =>
    exact .writes _ key (Slot.put value (nextVersion w.store key)
      w.store.clock true) rfl rfl rfl nofun
  | loadClean key value =>
    exact .writes _ key (Slot.put value (nextVersion w.store key)
      w.store.clock false) rfl rfl rfl fun _ => ⟨value, rfl, rfl⟩
  | delete key =>
    exact .writes _ key (Slot.delete (nextVersion w.store key) w.store.clock) rfl rfl rfl nofun
  | get key =>
    unfold worldStep get
    dsimp only
    split
    next => exact .reads _ _ _ (Nat.le_refl _) fun k => Touched.refl _
    next slot hslot =>
      split
      · exact .reads _ _ _ (Nat.le_refl _) fun k => Touched.refl _
      · obtain ⟨hclock, hslots⟩ := touched_recordTouch w.store hslot
        exact .reads _ _ _ hclock hslots
  | peek _ | drop _ => exact .reads _ w.store _ (by omega) fun k => Touched.refl _
  | collect order idleTicks maxRecords =>
    refine .collects order idleTicks maxRecords _ _
      (collectIdleDirty_spec w.store w.strongCount order idleTicks maxRecords) ?_
    generalize w.store.collectIdleDirty w.strongCount order idleTicks maxRecords = records
    cases records with
    | nil => exact Or.inr ⟨rfl, rfl⟩
    | cons b records => exact Or.inl rfl
  | flush p backend =>
    unfold worldStep
    dsimp only
    split
    next records hf =>
      split
      · exact .accepts _ p records hf
      next e => exact .fails _ p records e hf
    next => exact .idles _
  | mark p =>
    unfold worldStep
    dsimp only
    split
    next records hf =>
      obtain ⟨hclock, hslots⟩ := markFlushedAndEvict_spec w.store w.strongCount records
      exact .marks _ p records _ _ hf hclock hslots
    next => exact .idles _

-- ===== the invariant

/-- The last write of a key. -/
def lastWrite (writes : List (Write K V)) (k : K) : Option (Write K V) :=
  lastOf Write.key writes k

/-- The record is of the write. -/
def Batched.Of (b : Batched K V) (x : Write K V) : Prop :=
  b.write = x.write ∧ b.record.key = x.key ∧ b.record.value = x.value

structure WorldInv (w : World K V ε) : Prop where
  write_lt : ∀ x ∈ w.writes, x.write < w.store.clock
  unique : ∀ x ∈ w.writes, ∀ y ∈ w.writes, x.write = y.write → x = y
  shown : ∀ {k : K} {slot : Slot V}, w.store.slots k = some slot →
    ∃ x, lastWrite w.writes k = some x ∧ x.write = slot.write
      ∧ x.value = slot.value ∧ (slot.dirty = true → x.dirty = true)
  collected : ∀ {p : Nat} {f : Flusher K V ε}, w.flushers[p]? = some f →
    ∀ b ∈ f.records, ∃ x ∈ w.writes, b.Of x
  accepted : ∀ b ∈ w.accepted, ∃ x ∈ w.writes, b.Of x
  marking : ∀ {p : Nat} {f : Flusher K V ε}, w.flushers[p]? = some f →
    f.pc = .mark → ∀ b ∈ f.records, b ∈ w.accepted

section

variable {w : World K V ε}

theorem lastWrite_concat (writes : List (Write K V)) (x : Write K V)
    (k : K) : lastWrite (writes ++ [x]) k = if x.key = k then some x else lastWrite writes k :=
  lastOf_concat writes x k

variable {records : List (Batched K V)}

/-- A record collected from a slot is of the write the slot shows. -/
theorem WorldInv.of_collected (hi : WorldInv w) (hrecords : Collected w.store records)
    {b : Batched K V} (hb : b ∈ records) : ∃ x ∈ w.writes, b.Of x := by
  obtain ⟨slot, hslot, -, heq⟩ := hrecords.slot b hb
  obtain ⟨x, hlast, hwrite, hvalue, -⟩ := hi.shown hslot
  obtain ⟨hx, hkey⟩ := lastOf_mem hlast
  refine ⟨x, hx, ?_, hkey.symm, ?_⟩
  · rw [heq]
    exact hwrite.symm
  · rw [heq]
    exact hvalue.symm

variable {before after : Option (Slot V)}

omit [DecidableEq K] in
/-- A slot across a marking is as it was but for the dirty flag. -/
theorem Marked.slot_of_some {k : K} (h : Marked records k before after)
    (hafter : after = some slot) :
    ∃ old, before = some old ∧ slot.version = old.version
      ∧ slot.write = old.write ∧ slot.value = old.value
      ∧ (slot.dirty = true → old.dirty = true) := by
  rcases h with ⟨heq, -⟩ | ⟨-, -, -, old, hold, -, hnone | hclean⟩
  · exact ⟨slot, heq.symm.trans hafter, rfl, rfl, rfl, fun h => h⟩
  · cases hnone.symm.trans hafter
  · cases hclean.symm.trans hafter
    exact ⟨old, hold, rfl, rfl, rfl, nofun⟩

omit [DecidableEq K] in
/-- A slot across a read is as it was but for the last touch. -/
theorem Touched.slot_of_some (h : Touched before after) (hafter : after = some slot) :
    ∃ old, before = some old ∧ slot.version = old.version
      ∧ slot.write = old.write ∧ slot.value = old.value
      ∧ slot.dirty = old.dirty := by
  obtain ⟨t, rfl⟩ := h
  cases before with
  | none => cases hafter
  | some old =>
    cases hafter
    exact ⟨old, rfl, rfl, rfl, rfl, rfl⟩

theorem WorldInv.writes (hi : WorldInv w) (key : K) (slot : Slot V)
    (hwrite : slot.write = w.store.clock) :
    WorldInv { w with
      store := { w.store with
        clock := w.store.clock + 1
        slots := update w.store.slots key (some slot) }
      writes := w.writes ++
        [⟨key, slot.value, slot.dirty, slot.write⟩] } := by
  have hnew : ∀ x ∈ w.writes, x.write ≠ slot.write := by
    intro x hx heq
    have := hi.write_lt x hx
    omega
  have hmono : ∀ {b : Batched K V}, (∃ x ∈ w.writes, b.Of x) →
      ∃ x ∈ w.writes ++ [⟨key, slot.value, slot.dirty, slot.write⟩], b.Of x := by
    intro b ⟨x, hx, hof⟩
    exact ⟨x, mem_append_left _ hx, hof⟩
  constructor
  · intro x hx
    show x.write < w.store.clock + 1
    rcases mem_snoc.1 hx with hold | rfl
    · exact Nat.lt_succ_of_lt (hi.write_lt x hold)
    · show slot.write < _
      omega
  · intro x hx y hy hxy
    rcases mem_append.1 hx with hx | hx <;>
      rcases mem_append.1 hy with hy | hy
    · exact hi.unique x hx y hy hxy
    · cases mem_singleton.1 hy
      exact absurd hxy (hnew x hx)
    · cases mem_singleton.1 hx
      exact absurd hxy.symm (hnew y hy)
    · rw [mem_singleton.1 hx, mem_singleton.1 hy]
  · intro k slot' hslot'
    have hslot' : update w.store.slots key (some slot) k = some slot' := hslot'
    rw [lastWrite_concat]
    by_cases hk : k = key
    · subst hk
      rw [update_self] at hslot'
      cases hslot'
      exact ⟨_, if_pos rfl, rfl, rfl, fun h => h⟩
    · rw [update_of_ne hk] at hslot'
      rw [if_neg (Ne.symm hk)]
      exact hi.shown hslot'
  · exact fun hf b hb => hmono (hi.collected hf b hb)
  · exact fun b hb => hmono (hi.accepted b hb)
  · exact hi.marking

/-- A flush keeps the records it collected. -/
theorem WorldInv.collected_set (hi : WorldInv w) {p q : Nat} {pc pc' : FlusherPc ε}
    {f : Flusher K V ε} (hf : w.flushers[p]? = some ⟨records, pc⟩)
    (hf' : (w.flushers.set p ⟨records, pc'⟩)[q]? = some f) :
    ∀ b ∈ f.records, ∃ x ∈ w.writes, b.Of x := by
  intro b hb
  rcases getElem?_set_cases hf' with ⟨rfl, rfl⟩ | ⟨-, hold⟩
  · exact hi.collected hf b hb
  · exact hi.collected hold b hb

theorem WorldInv.step {action : Action K V ε} {w' : World K V ε} (hi : WorldInv w)
    (h : WorldMoves w action w') : WorldInv w' := by
  cases h with
  | writes _ key slot htarget hversion hwrite hclean => exact hi.writes key slot hwrite
  | reads _ s readers hclock hslots =>
    refine ⟨fun x hx => Nat.lt_of_lt_of_le (hi.write_lt x hx) hclock,
      hi.unique, ?_, hi.collected, hi.accepted, hi.marking⟩
    intro k slot hslot
    obtain ⟨old, hold, -, hwrite, hvalue, hdirty⟩ := (hslots k).slot_of_some hslot
    rw [hwrite, hvalue, hdirty]
    exact hi.shown hold
  | collects order idleTicks maxRecords records pc hrecords hpc =>
    refine ⟨hi.write_lt, hi.unique, hi.shown, ?_, hi.accepted, ?_⟩
    · intro q f hf b hb
      rcases getElem?_append_cases hf with hold | rfl
      · exact hi.collected hold b hb
      · exact hi.of_collected hrecords hb
    · intro q f hf hmark
      rcases getElem?_append_cases hf with hold | rfl
      · exact hi.marking hold hmark
      · rcases hpc with rfl | ⟨-, rfl⟩ <;> cases hmark
  | accepts _ p records hf =>
    refine ⟨hi.write_lt, hi.unique, hi.shown, hi.collected_set hf, ?_, ?_⟩
    · intro b hb
      rcases mem_append.1 hb with hold | hnew
      · exact hi.accepted b hold
      · exact hi.collected hf b hnew
    · intro q f hf' hmark b hb
      rcases getElem?_set_cases hf' with ⟨rfl, rfl⟩ | ⟨-, hold⟩
      · exact mem_append_right _ hb
      · exact mem_append_left _ (hi.marking hold hmark b hb)
  | fails _ p records e hf =>
    refine ⟨hi.write_lt, hi.unique, hi.shown, hi.collected_set hf, hi.accepted, ?_⟩
    · intro q f hf' hmark
      rcases getElem?_set_cases hf' with ⟨rfl, rfl⟩ | ⟨-, hold⟩
      · cases hmark
      · exact hi.marking hold hmark
  | marks _ p records s evicted hf hclock hslots =>
    refine ⟨?_, hi.unique, ?_, hi.collected_set hf, hi.accepted, ?_⟩
    · intro x hx
      rw [hclock]
      exact hi.write_lt x hx
    · intro k slot hslot
      obtain ⟨old, hold, -, hwrite, hvalue, hdirty⟩ := (hslots k).slot_of_some hslot
      obtain ⟨x, hlast, hx, hxvalue, hxdirty⟩ := hi.shown hold
      exact ⟨x, hlast, hx.trans hwrite.symm, hxvalue.trans hvalue.symm, fun h => hxdirty (hdirty h)⟩
    · intro q f hf' hmark
      rcases getElem?_set_cases hf' with ⟨rfl, rfl⟩ | ⟨-, hold⟩
      · cases hmark
      · exact hi.marking hold hmark
  | idles _ => exact hi

end

theorem worldInv_fresh (hash : K → UInt64) : WorldInv (fresh hash : World K V ε) where
  write_lt := nofun
  unique := nofun
  shown := nofun
  collected := nofun
  accepted := nofun
  marking := nofun

theorem worldInv_exec (hash : K → UInt64) (actions : List (Action K V ε)) :
    WorldInv (exec worldStep (fresh hash) actions) :=
  exec_inv WorldInv (fun _ _ hw _ => hw.step (worldStep_moves ..))
    (worldInv_fresh hash) (guarded_true (fresh hash) actions)

end MemoryFirst.Core.MemoryFirstStore
