/-
`mfs-core/src/slot_writeback.rs`: puts and gets of present keys of
`SlotWriteBehindCache`, in the steps of their atomic operations.

# Steps

A put finds the handle, locks the generation, looks at the index again,
swaps the value, loads the version word, swaps it and unlocks. A get reads
the index, then generation, version, pointer, version and generation, and
starts over at the first generation unless both pairs agree. No key is
deleted, and inserts of new keys write other slots: the index stays as it
is.

# The result

A get that finds the write bit set takes the key for absent. It returns a
value put for the key in every run in which no get reads the first
generation of a locked slot (`reads_find_key`).
-/
import MemoryFirst.Lib.Runs
import Mathlib.Algebra.Order.Ring.Nat

namespace MemoryFirst.Core.SlotWriteBehindCache

open Lib Function List

/-- The two halves of a packed handle. -/
structure Handle where
  slot : Nat
  generation : Nat
  deriving DecidableEq

/-- `word` is the version and the dirty bit. -/
structure Slot (V : Type) where
  generation : Nat
  word : Nat
  value : Option V

def versionFromWord (word : Nat) : Nat := word / 2

/-- Where a call stands, named for what it does next. -/
inductive Pc (K V : Type) where
  | find (key : K) (value : V)
  | lock (key : K) (value : V) (h : Handle)
  | recheck (key : K) (value : V) (h : Handle)
  | swap (key : K) (value : V) (h : Handle)
  | loadVersion (key : K) (h : Handle)
  | swapVersion (key : K) (h : Handle) (version : Nat)
  | unlock (key : K) (h : Handle)
  | returned
  | getIndex (key : K)
  | generation (key : K) (h : Handle)
  | version (key : K) (h : Handle)
  | pointer (key : K) (h : Handle) (v1 : Nat)
  | versionAgain (key : K) (h : Handle) (v1 : Nat) (value : V)
  | generationAgain (key : K) (h : Handle) (v1 v2 : Nat) (value : V)
  | done (key : K) (result : Option V)
  deriving DecidableEq

/-- `puts` are the values put so far, each with its key. -/
structure World (K V : Type) where
  slots : Nat → Slot V
  procs : List (Pc K V)
  puts : List (K × V)

inductive Action (K V : Type) where
  | put (key : K) (value : V)
  | get (key : K)
  | run (p : Nat)

variable {K V : Type}

def setGeneration (slots : Nat → Slot V) (h : Handle) (generation : Nat) : Nat → Slot V :=
  update slots h.slot { slots h.slot with generation := generation }

variable (index : K → Option Handle)

/-- One atomic operation, and where the call stands then. -/
def run (slots : Nat → Slot V) : Pc K V → (Nat → Slot V) × Pc K V
  | .find key value => (slots, (index key).elim (.find key value) (.lock key value))
  | .lock key value h =>
    if (slots h.slot).generation = h.generation then
      (setGeneration slots h (h.generation ||| 1), .recheck key value h)
    else (slots, .find key value)
  | .recheck key value h =>
    if index key = some h then (slots, .swap key value h)
    else (setGeneration slots h h.generation, .find key value)
  | .swap key value h =>
    (update slots h.slot { slots h.slot with value := some value }, .loadVersion key h)
  | .loadVersion key h => (slots, .swapVersion key h (versionFromWord (slots h.slot).word + 1))
  | .swapVersion key h version =>
    (update slots h.slot { slots h.slot with word := version * 2 % 2 ^ 64 + 1 },
      .unlock key h)
  | .unlock _ h => (setGeneration slots h h.generation, .returned)
  | .getIndex key => (slots, (index key).elim (.done key none) (.generation key))
  | .generation key h =>
    if (slots h.slot).generation ≠ h.generation then (slots, .done key none)
    else (slots, .version key h)
  | .version key h => (slots, .pointer key h (slots h.slot).word)
  | .pointer key h v1 =>
    (slots, (slots h.slot).value.elim (.done key none) (.versionAgain key h v1))
  | .versionAgain key h v1 value => (slots, .generationAgain key h v1 (slots h.slot).word value)
  | .generationAgain key h v1 v2 value =>
    if v1 = v2 ∧ (slots h.slot).generation = h.generation then (slots, .done key (some value))
    else (slots, .generation key h)
  | .returned => (slots, .returned)
  | .done key result => (slots, .done key result)

def step (s : World K V) : Action K V → World K V × Unit
  | .put key value => (⟨s.slots, s.procs ++ [.find key value], s.puts ++ [(key, value)]⟩, ())
  | .get key => ({ s with procs := s.procs ++ [.getIndex key] }, ())
  | .run p =>
    match s.procs[p]? with
    | none => (s, ())
    | some pc =>
      let (slots, pc) := run index s.slots pc
      ({ s with slots := slots, procs := s.procs.set p pc }, ())

/-- The write bit is clear when a get looks at the first generation. -/
def unlocked (s : World K V) : Action K V → Bool
  | .run p =>
    match s.procs[p]? with
    | some (.generation _ h) => (s.slots h.slot).generation % 2 = 0
    | _ => true
  | _ => true

-- ===== the invariant

/-- A slot of the key, locked or not, has a value of the key. -/
def Holds (puts : List (K × V)) (key : K) (h : Handle) (slot : Slot V) : Prop :=
  (slot.generation = h.generation ∨ slot.generation = h.generation ||| 1)
    ∧ ∃ value, slot.value = some value ∧ (key, value) ∈ puts

/-- What a call has read is of its key. -/
def Knows (puts : List (K × V)) : Pc K V → Prop
  | .find key value => (key, value) ∈ puts
  | .lock key value h | .recheck key value h | .swap key value h
  | .versionAgain key h _ value | .generationAgain key h _ _ value =>
    index key = some h ∧ (key, value) ∈ puts
  | .loadVersion key h | .swapVersion key h _ | .unlock key h | .generation key h | .version key h
  | .pointer key h _ => index key = some h
  | .done key result => (index key).isSome → ∃ value, result = some value ∧ (key, value) ∈ puts
  | .getIndex _ | .returned => True

/-- The keys of the index have slots of their own, with values. -/
structure Inv (s : World K V) : Prop where
  own : ∀ k k' h h', index k = some h → index k' = some h' → h.slot = h'.slot → k = k'
  holds : ∀ k h, index k = some h → Holds s.puts k h (s.slots h.slot)
  knows : ∀ pc ∈ s.procs, Knows index s.puts pc

variable {index} {s : World K V}

theorem Inv.set (hi : Inv index s) {key : K} {h : Handle} {slot : Slot V}
    (hkey : index key = some h)
    (hslot : Holds s.puts key h slot) {k : K} {h' : Handle} (hk : index k = some h') :
    Holds s.puts k h' (update s.slots h.slot slot h'.slot) := by
  by_cases heq : h'.slot = h.slot
  · cases hi.own k key h' h hk hkey heq
    cases hkey.symm.trans hk
    rwa [update_self]
  · rw [update_of_ne heq]
    exact hi.holds k h' hk

theorem Inv.run (hi : Inv index s) {pc : Pc K V} (hpc : pc ∈ s.procs)
    (hfree : ∀ key h, pc = .generation key h → (s.slots h.slot).generation % 2 = 0) :
    (∀ k h, index k = some h → Holds s.puts k h ((run index s.slots pc).1 h.slot))
      ∧ Knows index s.puts (run index s.slots pc).2 := by
  have hknows := hi.knows pc hpc
  cases pc with
  | find key value =>
    cases hindex : index key with
    | none => simpa only [SlotWriteBehindCache.run, hindex] using ⟨hi.holds, hknows⟩
    | some h => simpa only [SlotWriteBehindCache.run, hindex] using ⟨hi.holds, hindex, hknows⟩
  | lock key value h =>
    simp only [SlotWriteBehindCache.run]
    split
    · refine ⟨fun _ _ => hi.set hknows.1 ?_, hknows⟩
      exact ⟨Or.inr rfl, (hi.holds key h hknows.1).2⟩
    · exact ⟨hi.holds, hknows.2⟩
  | recheck key value h =>
    simp only [SlotWriteBehindCache.run, if_pos hknows.1]
    exact ⟨hi.holds, hknows⟩
  | swap key value h =>
    refine ⟨fun _ _ => hi.set hknows.1 ?_, hknows.1⟩
    exact ⟨(hi.holds key h hknows.1).1, value, rfl, hknows.2⟩
  | swapVersion key h version =>
    refine ⟨fun _ _ => hi.set hknows ?_, hknows⟩
    exact hi.holds key h hknows
  | unlock key h =>
    refine ⟨fun _ _ => hi.set hknows ?_, trivial⟩
    exact ⟨Or.inl rfl, (hi.holds key h hknows).2⟩
  | getIndex key =>
    cases hindex : index key with
    | none => simpa [SlotWriteBehindCache.run, hindex, Knows] using hi.holds
    | some h => simpa only [SlotWriteBehindCache.run, hindex] using ⟨hi.holds, hindex⟩
  | generation key h =>
    have hodd : (h.generation ||| 1) % 2 = 1 := Nat.or_mod_two_eq_one.2 (Or.inr rfl)
    have hcurrent : (s.slots h.slot).generation = h.generation := by
      have heven := hfree key h rfl
      rcases (hi.holds key h hknows).1 with hgen | hgen <;> omega
    simp only [SlotWriteBehindCache.run, hcurrent, ne_eq, not_true, if_false]
    exact ⟨hi.holds, hknows⟩
  | pointer key h v1 =>
    obtain ⟨value, hvalue, hput⟩ := (hi.holds key h hknows).2
    simp only [SlotWriteBehindCache.run, hvalue]
    exact ⟨hi.holds, hknows, hput⟩
  | generationAgain key h v1 v2 value =>
    simp only [SlotWriteBehindCache.run]
    split
    · exact ⟨hi.holds, fun _ => ⟨value, rfl, hknows.2⟩⟩
    · exact ⟨hi.holds, hknows.1⟩
  | loadVersion _ _ | version _ _ | versionAgain _ _ _ _ | done _ _ | returned =>
    exact ⟨hi.holds, hknows⟩

theorem Inv.step (hi : Inv index s) (action : Action K V) (h : unlocked s action = true) :
    Inv index (step index s action).1 := by
  cases action with
  | put key value =>
    refine ⟨hi.own, fun k h hk => ?_, fun pc hpc => ?_⟩
    · obtain ⟨hgen, v, hv, hput⟩ := hi.holds k h hk
      exact ⟨hgen, v, hv, mem_append_left _ hput⟩
    · rcases mem_snoc.1 hpc with hpc | rfl
      · have hknows := hi.knows pc hpc
        cases pc <;> simp only [Knows, SlotWriteBehindCache.step, mem_append] at hknows ⊢ <;> grind
      · exact mem_append_right _ mem_cons_self
  | get key =>
    exact ⟨hi.own, hi.holds, forall_mem_snoc.2 ⟨hi.knows, trivial⟩⟩
  | run p =>
    cases hp : s.procs[p]? with
    | none =>
      simp only [SlotWriteBehindCache.step, hp]
      exact hi
    | some pc =>
      have hnext := hi.run (mem_of_getElem? hp) fun key handle hpc => by
        subst hpc
        simpa only [unlocked, hp, decide_eq_true_eq] using h
      simp only [SlotWriteBehindCache.step, hp]
      refine ⟨hi.own, hnext.1, fun q hq => ?_⟩
      rcases mem_or_eq_of_mem_set hq with hq | rfl
      · exact hi.knows q hq
      · exact hnext.2

-- ===== result

/-- From every state in which the keys have slots of their own, in every
run in which no get starts over at a locked slot, a get of a key of the
index that returns has found a value put for the key. -/
theorem reads_find_key (hs : Inv index s) (actions : List (Action K V))
    (h : Guarded (step index) (fun s a => unlocked s a = true) s actions) {key : K}
    (hkey : (index key).isSome) {result : Option V}
    (hdone : .done key result ∈ (exec (step index) s actions).procs) :
    ∃ value, result = some value ∧ (key, value) ∈ (exec (step index) s actions).puts :=
  (exec_inv (Inv index) (fun _ a hi => hi.step a) hs h).knows _ hdone hkey

/-- Key 1 in slot 0. -/
def present : World Nat Nat := ⟨fun _ => ⟨0, 2, some 10⟩, [], [(1, 10)]⟩

def onlyOne (k : Nat) : Option Handle := if k = 1 then some ⟨0, 0⟩ else none

theorem present_inv : Inv onlyOne present := by
  refine ⟨?_, ?_, nofun⟩ <;> simp only [onlyOne, present, Holds] <;> grind

/-- A whole put and then a whole get. -/
theorem reads_find_key_put :
    ∃ value, some 20 = some value ∧ (1, value) ∈ (exec (step onlyOne) present
      ([.put 1 20] ++ List.replicate 7 (.run 0) ++ [.get 1] ++ List.replicate 6 (.run 1))).puts :=
  reads_find_key present_inv _ (by decide) rfl (by decide)

/-- A get that starts when a put has locked the slot returns nothing. -/
theorem overwritten_key_missed : Inv onlyOne present ∧ .done 1 none ∈ (exec (step onlyOne) present
    [.put 1 20, .run 0, .run 0, .get 1, .run 1, .run 1]).procs :=
  ⟨present_inv, by decide⟩

end MemoryFirst.Core.SlotWriteBehindCache
