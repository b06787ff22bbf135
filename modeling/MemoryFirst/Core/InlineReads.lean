/-
What a lookup of the inline map returns while others write.

# The protocol

A lookup loads a slot's word, its key and its value, and trusts them when
the word is the same afterwards; a writer compares the word once more
when it takes the lock. Both rely on a word meaning the same entry from
the load to the comparison. The version in the word is there for that,
but it is not kept across a removal: a slot taken over from a tombstone
always starts at version one.

# The results

`reads_stored`: along every run in which no access publishes, at a slot,
a word that another operation has loaded there and still has to compare
(`FreshWord`), whatever `get` returns was stored for its key by an insert
or an update. `reused_word_misread` is a run without that condition in
which it was not. The locks hold in every run (`held_slots_exclusive`).

# The invariant

`StillAt` says that a slot's entry is the one a loaded word stood for. An
operation that carries such a word knows the slot's key and what was
stored there only while `StillAt` holds (`Good`), and `still_back` shows
that no access but the excluded one makes it hold again.
-/
import MemoryFirst.Core.Proofs.InlineLocks

namespace MemoryFirst.Core.InlineU64Map

open Lib Function List

-- ===== the specification

/-- Whatever a lookup returned was stored for its key. -/
def ReadsStored (w : World) : Prop :=
  ∀ proc ∈ w.procs, ∀ (key : Key) (v : UInt64), proc.request = .get key →
    proc.pc = .done (.value (some v)) → (key.val, v) ∈ w.stores

/-- The word an access publishes, with its slot. -/
def Pc.publishing (m : InlineU64Map) (r : Request) : Pc → Option (Nat × UInt16)
  | .publish i word _ => some (i, nextWord word (m.h2 r.key))
  | .claimMeta i word => some (i, firstWord word (m.h2 r.key))
  | _ => none

/-- The loaded word an operation still has to compare, with its slot. -/
def Pc.awaiting : Pc → Option (Nat × UInt16)
  | .readValue i _ word _ => some (i, word)
  | .recheck i _ word _ _ => some (i, word)
  | .peek i _ word => some (i, word)
  | .lock i _ word => some (i, word)
  | _ => none

/-- The access publishes no word that is still to be compared. -/
def FreshWord (w : World) : Action → Prop
  | .start _ => True
  | .step p => ∀ proc ∈ w.procs[p]?, ∀ x ∈ proc.pc.publishing w.map proc.request,
        ∀ other ∈ w.procs, other.pc.awaiting ≠ some x

instance (w : World) : (action : Action) → Decidable (FreshWord w action)
  | .start _ => isTrue trivial
  | .step p => inferInstanceAs (Decidable (∀ proc ∈ w.procs[p]?, _))

-- ===== the invariant

/-- Slot `i` still has the entry that `word` stood for: under that word,
or under the lock of a removal that may put it back. -/
def StillAt (w : World) (i : Nat) (word : UInt16) : Prop :=
  w.map.slotMeta i = word ∨ ∃ (p : Nat) (proc : Proc), w.procs[p]? = some proc
      ∧ (proc.pc = .readOld i word ∨ proc.pc = .restore i word)

/-- What an operation knows at each of its points. -/
def Good (w : World) (r : Request) : Pc → Prop
  | .readValue i _ word k => StillAt w i word → w.map.keys i = k
  | .recheck i _ word k v => StillAt w i word → w.map.keys i = k ∧ (k, v) ∈ w.stores
  | .peek i _ word => StillAt w i word → w.map.keys i = r.key
  | .lock i _ word => StillAt w i word → w.map.keys i = r.key
  | .readOld i _ => w.map.keys i = r.key ∧ (r.key, w.map.values i) ∈ w.stores
  | .writeValue i _ old =>
    w.map.keys i = r.key ∧ ∀ v, old = some v → (r.key, v) ∈ w.stores
  | .publish i _ old =>
    w.map.keys i = r.key ∧ w.map.values i = r.value ∧ (r.key, r.value) ∈ w.stores
      ∧ ∀ v, old = some v → (r.key, v) ∈ w.stores
  | .restore i _ => w.map.keys i = r.key ∧ (r.key, w.map.values i) ∈ w.stores
  | .clearKey _ old => (r.key, old) ∈ w.stores
  | .clearValue _ old => (r.key, old) ∈ w.stores
  | .bury _ old => (r.key, old) ∈ w.stores
  | .decrement old => (r.key, old) ∈ w.stores
  | .claimValue i _ => w.map.keys i = r.key
  | .claimMeta i _ =>
    w.map.keys i = r.key ∧ w.map.values i = r.value ∧ (r.key, r.value) ∈ w.stores
  | .done reply => ∀ v, reply = .value (some v) → (r.key, v) ∈ w.stores
  | _ => True

structure ReadInv (w : World) : Prop where
  locks : Locks w
  settled : ∀ i, isOccupied (w.map.slotMeta i) = true → (w.map.keys i, w.map.values i) ∈ w.stores
  good : ∀ {p : Nat} {a : Proc}, w.procs[p]? = some a → Good w a.request a.pc

theorem isOccupied_of_tagged {tag word : UInt16} (ht : IsTag tag)
    (h : Tagged tag word) : isOccupied word = true := by
  simp [isOccupied, h.ne_empty ht, h.ne_tombstone ht, h.unlocked]

theorem not_locked_of_isOccupied {m : InlineU64Map} {i : Nat}
    (h : isOccupied (m.slotMeta i) = true) : ¬ Locked m i := by
  intro hl
  simp only [isOccupied, Bool.and_eq_true, decide_eq_true_eq] at h
  exact hl h.2

variable {w : World}

/-- What `word` stood for was stored, as long as it is there. -/
theorem ReadInv.stored (hi : ReadInv w) {i : Nat}
    {tag word : UInt16} (ht : IsTag tag) (hword : Tagged tag word)
    (h : StillAt w i word) :
    (w.map.keys i, w.map.values i) ∈ w.stores := by
  rcases h with h | ⟨p, proc, hp, hpc⟩
  · apply hi.settled
    rw [h]
    exact isOccupied_of_tagged ht hword
  have hgood := hi.good hp
  rcases hpc with hpc | hpc
  · rw [hpc] at hgood
    rw [hgood.1]
    exact hgood.2
  · rw [hpc] at hgood
    rw [hgood.1]
    exact hgood.2

-- ===== what others keep

/-- What an operation knows survives what leaves its slot alone. -/
theorem Good.of_frame {w w' : World} {r : Request} {pc : Pc} (hg : Good w r pc)
    (hstill : ∀ i word, pc.awaiting = some (i, word) → StillAt w' i word →
      StillAt w i word ∧ w'.map.keys i = w.map.keys i)
    (hheld : ∀ i, pc.holding = some i → w'.map.keys i = w.map.keys i
      ∧ w'.map.values i = w.map.values i)
    (hmem : ∀ x ∈ w.stores, x ∈ w'.stores) : Good w' r pc := by
  cases pc with
  | readValue i _ word _ | peek i _ word | lock i _ word =>
    intro h
    obtain ⟨hold, hkeys⟩ := hstill i word rfl h
    exact hkeys.trans (hg hold)
  | recheck i len word k v =>
    intro h
    obtain ⟨hold, hkeys⟩ := hstill i word rfl h
    exact ⟨hkeys.trans (hg hold).1, hmem _ (hg hold).2⟩
  | readOld i _ | restore i _ =>
    obtain ⟨hkeys, hvalues⟩ := hheld i rfl
    refine ⟨hkeys.trans hg.1, ?_⟩
    rw [hvalues]
    exact hmem _ hg.2
  | writeValue i word old =>
    exact ⟨(hheld i rfl).1.trans hg.1, fun v hv => hmem _ (hg.2 v hv)⟩
  | publish i word old =>
    obtain ⟨hkeys, hvalues⟩ := hheld i rfl
    exact ⟨hkeys.trans hg.1, hvalues.trans hg.2.1, hmem _ hg.2.2.1,
      fun v hv => hmem _ (hg.2.2.2 v hv)⟩
  | clearKey _ _ | clearValue _ _ | bury _ _ | decrement _ => exact hmem _ hg
  | claimValue i word => exact (hheld i rfl).1.trans hg
  | claimMeta i word =>
    obtain ⟨hkeys, hvalues⟩ := hheld i rfl
    exact ⟨hkeys.trans hg.1, hvalues.trans hg.2.1, hmem _ hg.2.2⟩
  | done reply => exact fun v hv => hmem _ (hg v hv)
  | _ => trivial

section

variable {p : Nat} {proc : Proc} {map : InlineU64Map} {pc : Pc}

theorem mem_stores_after (w : World) (p : Nat) (proc : Proc) (map : InlineU64Map) (pc : Pc) :
    ∀ x ∈ w.stores, x ∈ (after w p proc map pc).stores :=
  fun _ hx => mem_append_left _ hx

variable {m m' : InlineU64Map} {r : Request} {pc pc' : Pc} {i : Nat}

/-- How the holder of a slot changes its word. -/
theorem Moves.slotMeta_held (h : Moves m r pc m' pc')
    (hi : pc.holding = some i) : m'.slotMeta i = m.slotMeta i
      ∨ pc.publishing m r = some (i, m'.slotMeta i)
      ∨ (pc = .restore i (m'.slotMeta i) ∧ m'.keys i = m.keys i)
      ∨ m'.slotMeta i = TOMBSTONE := by
  cases h with
  | publishes _ _ _ | claimsMeta _ _ =>
    cases hi
    rw [slotMeta_setMeta_self]
    exact Or.inr (Or.inl rfl)
  | restores j word =>
    cases hi
    rw [slotMeta_setMeta_self]
    exact Or.inr (Or.inr (Or.inl ⟨rfl, rfl⟩))
  | buries j old =>
    cases hi
    exact Or.inr (Or.inr (Or.inr (slotMeta_setMeta_self m i _)))
  | _ => first | exact Or.inl rfl | cases hi

/-- Where an operation that may put a word back comes from. -/
theorem Moves.still {word : UInt16} (h : Moves m r pc m' pc')
    (hpc : pc' = .readOld i word ∨ pc' = .restore i word) :
    (m.slotMeta i = word ∨ pc = .readOld i word) ∧ m'.keys i = m.keys i := by
  have hadvance : ∀ j len, m.advance r j len ≠ .readOld i word
      ∧ m.advance r j len ≠ .restore i word := by
    intro j len
    rcases advance_cases m r j len with h | ⟨-, h⟩ <;> rw [h] <;>
      exact ⟨nofun, nofun⟩
  cases h with
  | locksOld j len word' h =>
    rcases hpc with hpc | hpc
    · cases hpc
      exact ⟨Or.inl h, rfl⟩
    · cases hpc
  | keeps j word' hr =>
    rcases hpc with hpc | hpc
    · cases hpc
    · cases hpc
      exact ⟨Or.inr rfl, rfl⟩
  | passes j len | otherKey j len | collides j len =>
    exact absurd hpc (not_or.2 (hadvance j len))
  | _ => rcases hpc with hpc | hpc <;> cases hpc

/-- Only an access that publishes the word makes a slot stand for it
again. -/
theorem still_back (hl : Locks w) (hp : w.procs[p]? = some proc)
    (h : Moves w.map proc.request proc.pc map pc) {i : Nat}
    {tag word : UInt16} (ht : IsTag tag) (hword : Tagged tag word)
    (hfresh : proc.pc.publishing w.map proc.request ≠ some (i, word))
    (hstill : StillAt (after w p proc map pc) i word) :
    StillAt w i word ∧ map.keys i = w.map.keys i := by
  rcases hstill with hmeta | ⟨q, b, hq, hb⟩
  · have hmeta : map.slotMeta i = word := hmeta
    have hunlocked : ¬ Locked map i := by
      intro hlock
      unfold Locked at hlock
      rw [hmeta] at hlock
      exact hlock hword.unlocked
    by_cases hi : proc.pc.holding = some i
    · rcases h.slotMeta_held hi with heq | hpub | ⟨hres, hkeys⟩ | htomb
      · have hlock := hl.locked hp hi
        unfold Locked at hlock
        rw [← heq] at hlock
        exact absurd hlock hunlocked
      · rw [hmeta] at hpub
        exact absurd hpub hfresh
      · rw [hmeta] at hres
        exact ⟨Or.inr ⟨p, proc, hp, Or.inr hres⟩, hkeys⟩
      · exact absurd (hmeta.symm.trans htomb) (hword.ne_tombstone ht)
    · rcases h.slotMeta_cases (hl.sane hp) hi with heq | ⟨-, hlock, -⟩
      · exact ⟨Or.inl (heq.symm.trans hmeta), h.keys_eq hi⟩
      · exact absurd hlock hunlocked
  · rcases getElem?_set_cases hq with ⟨rfl, rfl⟩ | ⟨hne, hq⟩
    · obtain ⟨hold, hkeys⟩ := h.still hb
      refine ⟨?_, hkeys⟩
      rcases hold with hold | hold
      · exact Or.inl hold
      · exact Or.inr ⟨q, proc, hp, Or.inl hold⟩
    · have hholds : b.pc.holding = some i := by
        rcases hb with hb | hb <;> rw [hb] <;> rfl
      exact ⟨Or.inr ⟨q, b, hq, hb⟩, (hl.frame hp h hq hne hholds).2.1⟩

-- ===== what it learns

/-- An entry is complete before its holder gives the lock back. -/
theorem Good.settles {r : Request} {pc' : Pc} (hg : Good w r pc)
    (h : Moves w.map r pc map pc') {i : Nat} (hi : pc.holding = some i)
    (hchanged : map.slotMeta i ≠ w.map.slotMeta i)
    (hkept : map.slotMeta i ≠ TOMBSTONE) :
    (map.keys i, map.values i) ∈ w.stores := by
  cases h with
  | publishes j word old =>
    cases hi
    obtain ⟨hkeys, hvalues, hstored, -⟩ := hg
    show (w.map.keys i, w.map.values i) ∈ w.stores
    rw [hkeys, hvalues]
    exact hstored
  | claimsMeta j word =>
    cases hi
    obtain ⟨hkeys, hvalues, hstored⟩ := hg
    show (w.map.keys i, w.map.values i) ∈ w.stores
    rw [hkeys, hvalues]
    exact hstored
  | restores j word =>
    cases hi
    obtain ⟨hkeys, hstored⟩ := hg
    show (w.map.keys i, w.map.values i) ∈ w.stores
    rw [hkeys]
    exact hstored
  | buries j old =>
    cases hi
    exact absurd (slotMeta_setMeta_self _ _ _) hkept
  | _ => first | exact absurd rfl hchanged | cases hi

/-- A settled slot stays settled. -/
theorem ReadInv.settled_after (hi : ReadInv w) (hp : w.procs[p]? = some proc)
    (h : Moves w.map proc.request proc.pc map pc) (i : Nat)
    (hocc : isOccupied (map.slotMeta i) = true) :
    (map.keys i, map.values i) ∈ w.stores := by
  have hfree := not_locked_of_isOccupied hocc
  by_cases hheld : proc.pc.holding = some i
  · refine (hi.good hp).settles h hheld ?_ ?_
    · intro heq
      have hlock := hi.locks.locked hp hheld
      unfold Locked at hlock
      rw [← heq] at hlock
      exact hfree hlock
    · intro htomb
      rw [htomb] at hocc
      exact absurd hocc (by decide)
  · rcases h.slotMeta_cases (hi.locks.sane hp) hheld with heq | ⟨-, hl, -⟩
    · rw [h.keys_eq hheld, h.values_eq hheld]
      rw [heq] at hocc
      exact hi.settled i hocc
    · exact absurd hl hfree

theorem good_advance (w : World) (m : InlineU64Map) (r : Request)
    (i len : Nat) : Good w r (m.advance r i len) := by
  rcases advance_cases m r i len with h | ⟨-, h⟩
  · rw [h]
    intro v hv
    cases r <;> cases hv
  · rw [h]
    trivial

/-- What an operation knows after its own access. -/
theorem ReadInv.good_after (hi : ReadInv w) (hp : w.procs[p]? = some proc)
    (h : Moves w.map proc.request proc.pc map pc) :
    Good (after w p proc map pc) proc.request pc := by
  have hgood := hi.good hp
  have hsane := hi.locks.sane hp
  have htag := isTag_h2 w.map proc.request.key
  have hback := @still_back w p proc map pc hi.locks hp h
  have hmem := mem_stores_after w p proc map pc
  obtain ⟨r, pc₀⟩ := proc
  cases h with
  | passes _ _ | otherKey _ _ | collides _ _ => exact good_advance _ _ _ _ _
  | misses _ _ _ _ | increments =>
    intro v hv
    cases r <;> cases hv
  | seesKey i len word hr => exact fun _ => rfl
  | ownPeek _ _ _ _ hk | ownLock _ _ _ hk => exact fun _ => hk
  | seesValue i len word k =>
    intro hstill
    have hold := (hback htag hsane (by simp [Pc.publishing]) hstill).1
    have hkeys := hgood hold
    refine ⟨hkeys, hmem _ ?_⟩
    rw [← hkeys]
    exact hi.stored htag hsane hold
  | hits i len word k v h hk =>
    intro v' hv
    cases hv
    rw [← hk]
    exact hmem _ (hgood (Or.inl h)).2
  | refuses _ _ _ | restores _ _ => exact nofun
  | peeks i len word =>
    intro hstill
    exact hgood (hback htag hsane (by simp [Pc.publishing]) hstill).1
  | locks i len word h => exact ⟨hgood (Or.inl h), nofun⟩
  | locksOld i len word h =>
    have hkeys := hgood (Or.inl h)
    refine ⟨hkeys, hmem _ ?_⟩
    rw [← hkeys]
    exact hi.stored htag hsane (Or.inl h)
  | readsOld i word hr =>
    refine ⟨hgood.1, ?_⟩
    intro v hv
    cases hv
    exact hmem _ hgood.2
  | keeps i word hr => exact ⟨hgood.1, hmem _ hgood.2⟩
  | takes i word hr => exact hmem _ hgood.2
  | writes i word old =>
    refine ⟨hgood.1, update_self _ _ _, ?_, ?_⟩
    · exact mem_append_right _ (mem_singleton.2 rfl)
    · exact fun v hv => hmem _ (hgood.2 v hv)
  | publishes i word old =>
    intro v hv
    refine hmem _ (hgood.2.2.2 v ?_)
    cases r <;> cases hv <;> rfl
  | clearsKey _ _ | clearsValue _ _ | buries _ _ => exact hmem _ hgood
  | decrements old =>
    intro v hv
    cases r <;> cases hv <;> exact hmem _ hgood
  | claimsKey i word => exact update_self _ _ _
  | claimsValue i word =>
    refine ⟨hgood, update_self _ _ _, ?_⟩
    exact mem_append_right _ (mem_singleton.2 rfl)
  | rests reply => exact fun v hv => hmem _ (hgood v hv)
  | _ => trivial

end

-- ===== whole runs

theorem ReadInv.moves (hi : ReadInv w) {p : Nat} {proc : Proc}
    {map : InlineU64Map} {pc : Pc} (hp : w.procs[p]? = some proc)
    (h : Moves w.map proc.request proc.pc map pc)
    (hfresh : FreshWord w (.step p)) :
    ReadInv (after w p proc map pc) := by
  have hmem := mem_stores_after w p proc map pc
  refine ⟨hi.locks.moves hp h, ?_, ?_⟩
  · intro i hocc
    exact hmem _ (hi.settled_after hp h i hocc)
  · intro q b hq
    rcases getElem?_set_cases hq with ⟨rfl, rfl⟩ | ⟨hne, hq⟩
    · exact hi.good_after hp h
    refine (hi.good hq).of_frame ?_ ?_ hmem
    · intro i word hawait hstill
      have hword : Tagged (w.map.h2 b.request.key) word := by
        have hsane := hi.locks.sane hq
        obtain ⟨r, pc₁⟩ := b
        cases pc₁ <;> cases hawait <;> exact hsane
      refine still_back hi.locks hp h (isTag_h2 w.map _) hword ?_ hstill
      intro hpub
      exact hfresh proc hp _ hpub b (mem_of_getElem? hq) hawait
    · intro i hholds
      exact (hi.locks.frame hp h hq hne hholds).2

theorem ReadInv.step {action : Action} {w' : World} (hi : ReadInv w) (h : WorldMoves w action w')
    (hfresh : FreshWord w action) : ReadInv w' := by
  have hlocks := hi.locks.step h
  cases h with
  | starts request =>
    refine ⟨hlocks, hi.settled, ?_⟩
    intro q b hq
    rcases getElem?_append_cases hq with hq | rfl
    · refine (hi.good hq).of_frame ?_ (fun _ _ => ⟨rfl, rfl⟩) fun _ hx => hx
      intro i word hawait hstill
      refine ⟨?_, rfl⟩
      rcases hstill with hmeta | ⟨q', b', hq', hb'⟩
      · exact Or.inl hmeta
      · rcases getElem?_append_cases hq' with hq' | rfl
        · exact Or.inr ⟨q', b', hq', hb'⟩
        · rcases hb' with hb' | hb' <;> cases hb'
    · trivial
  | idles p h => exact hi
  | moves p proc map pc hp h => exact hi.moves hp h hfresh

theorem readInv_fresh (hash : UInt64 → UInt64) (cap : Nat) : ReadInv (fresh hash cap) := by
  refine ⟨locks_fresh hash cap, ?_, fun h => (by cases h)⟩
  intro i hocc
  have hempty : isOccupied EMPTY = true := hocc
  exact absurd hempty (by decide)

/-- Along every interleaving in which no access publishes a word that is
still to be compared at its slot, a lookup returns only what was stored
for its key. -/
theorem reads_stored (hash : UInt64 → UInt64) (cap : Nat) (actions : List Action)
    (hfresh : Lib.Guarded worldStep FreshWord (fresh hash cap) actions) :
    ReadsStored (Lib.exec worldStep (fresh hash cap) actions) := by
  have hinv := exec_inv ReadInv (fun _ _ hi hg => hi.step (worldStep_moves ..) hg)
    (readInv_fresh hash cap) hfresh
  intro proc hproc key v hr hpc
  obtain ⟨p, hp⟩ := mem_iff_getElem?.1 hproc
  have hgood := hinv.good hp
  rw [hpc, hr] at hgood
  exact hgood v rfl

/-- A lookup that an update overtakes. -/
def overtaken : List Action :=
  .start (.insert ⟨1, by decide⟩ 10) :: List.replicate 6 (.step 0)
    ++ .start (.get ⟨1, by decide⟩) :: List.replicate 2 (.step 1)
    ++ .start (.update ⟨1, by decide⟩ 11) :: List.replicate 6 (.step 2)
    ++ List.replicate 6 (.step 1)

theorem reads_stored_overtaken :
    let w := exec worldStep (fresh (fun _ => 0) 8) overtaken
    (⟨.get ⟨1, by decide⟩, .done (.value (some 11))⟩ : Proc) ∈ w.procs ∧ ReadsStored w :=
  ⟨by decide +kernel, reads_stored (fun _ => 0) 8 overtaken (by decide +kernel)⟩

/-- A lookup of key 1 loads the word and the key; then key 1 is removed
and key 2 takes the slot over. The slot came from a tombstone both times,
so the word is the same again. -/
def reusedWord : List Action :=
  .start (.insert ⟨1, by decide⟩ 10) :: List.replicate 6 (.step 0)
    ++ .start (.remove ⟨1, by decide⟩) :: List.replicate 8 (.step 1)
    ++ .start (.insert ⟨1, by decide⟩ 11) :: List.replicate 6 (.step 2)
    ++ .start (.get ⟨1, by decide⟩) :: List.replicate 2 (.step 3)
    ++ .start (.remove ⟨1, by decide⟩) :: List.replicate 8 (.step 4)
    ++ .start (.insert ⟨2, by decide⟩ 20) :: List.replicate 6 (.step 5)
    ++ List.replicate 2 (.step 3)

/-- The lookup of key 1 returns the value of key 2. -/
theorem reused_word_misread :
    ¬ ReadsStored (Lib.exec worldStep (fresh (fun _ => 0) 8) reusedWord) := by
  intro h
  have hstored := h ⟨.get ⟨1, by decide⟩, .done (.value (some 20))⟩
    (by decide +kernel) ⟨1, by decide⟩ 20 rfl rfl
  exact absurd hstored (by decide +kernel)

-- ===== the locks

/-- In every interleaving of all operations: a slot is locked exactly
while one of the calls holds it. It is the only one, and no access of
another call changes the slot. -/
theorem held_slots_exclusive (hash : UInt64 → UInt64) (cap : Nat) (actions : List Action)
    (i : Nat) :
    let w := exec worldStep (fresh hash cap) actions
    (Locked w.map i ↔ ∃ a ∈ w.procs, a.pc.holding = some i)
      ∧ ∀ (p : Nat) a, w.procs[p]? = some a → a.pc.holding = some i → ∀ q ≠ p,
        (∀ b ∈ w.procs[q]?, b.pc.holding ≠ some i)
        ∧ (worldStep w (.step q)).1.map.slotMeta i = w.map.slotMeta i
        ∧ (worldStep w (.step q)).1.map.keys i = w.map.keys i
        ∧ (worldStep w (.step q)).1.map.values i = w.map.values i := by
  intro w
  have hl : Locks w := exec_inv Locks (fun _ _ hl _ => hl.step (worldStep_moves ..))
    (locks_fresh hash cap) (guarded_true _ actions)
  refine ⟨⟨fun hlock => ?_, fun ⟨a, ha, hheld⟩ => ?_⟩, fun p a ha hheld q hne => ⟨?_, ?_⟩⟩
  · obtain ⟨p, a, ha, hheld⟩ := hl.held hlock
    exact ⟨a, mem_of_getElem? ha, hheld⟩
  · obtain ⟨p, hp⟩ := mem_iff_getElem?.1 ha
    exact hl.locked hp hheld
  · exact fun b hb hheld' => hne (hl.exclusive hb ha hheld' hheld)
  · have h := worldStep_moves w (.step q)
    generalize (worldStep w (.step q)).1 = w' at h ⊢
    cases h with
    | idles _ _ => exact ⟨rfl, rfl, rfl⟩
    | moves _ proc map pc hq h => exact hl.frame hq h ha (Ne.symm hne) hheld

end MemoryFirst.Core.InlineU64Map
