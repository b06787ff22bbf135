/-
Bounded probing, as open addressing uses it: a cursor visits one cell
after another, each visit either answers or lets the probe go on, and
after a fixed number of steps the probe gives up.

The file names no table. A position type, a step function (which may
read the number of steps taken, so that triangular and linear probing
are both instances), a visit function and a fallback are all it asks
for; what a probe returns is then decided by its TRAIL, the positions it
would visit if nothing ever answered (`trail`), and by the first of
them whose visit answers.

# How a proof uses it

- `probe_hit`: the answer at the first answering position;
- `probe_miss`: the fallback when no position within the limit answers;
- `probe_cases`: one of the two always applies, which is the case split
  a table proof starts from;
- `probe_rel`: two probes over the same positions whose visits answer
  together give related results.
-/
import Mathlib.Order.Defs.LinearOrder

namespace MemoryFirst.Lib

variable {ι α : Type*} (next : Nat → ι → ι)

-- ===== the probe

/-- Visit `i`; on no answer take the next step while any of the `left`
steps remain, else fall back to `exhausted`. `len` counts the steps
already taken and is what `next` sees. -/
def probe (visit : ι → Option α) (exhausted : α) : Nat → Nat → ι → α
  | 0, _, i => (visit i).getD exhausted
  | left + 1, len, i =>
    match visit i with
    | some r => r
    | none => probe visit exhausted left (len + 1) (next (len + 1) i)

/-- The position a probe started at `i` after `len` steps reaches in `n`
further steps. -/
def trail : Nat → ι → Nat → ι
  | _, i, 0 => i
  | len, i, n + 1 => trail (len + 1) (next (len + 1) i) n

variable (len : Nat) (i : ι)

theorem trail_succ (n : Nat) :
    trail next len i (n + 1) = trail next (len + 1) (next (len + 1) i) n :=
  rfl

/-- The trail grows at its far end by one step of `next`. -/
theorem trail_snoc (n : Nat) :
    trail next len i (n + 1) = next (len + n + 1) (trail next len i n) := by
  induction n generalizing len i with
  | zero => rfl
  | succ n ih =>
    rw [trail_succ, ih, trail_succ]
    congr 1
    omega

-- ===== what it returns

/-- Position `n` of the trail is the first one that answers. -/
structure FirstHit (visit : ι → Option α) (len : Nat) (i : ι) (n : Nat) (r : α) : Prop where
  before : ∀ a < n, visit (trail next len i a) = none
  answer : visit (trail next len i n) = some r

variable {next} {exhausted : α} {visit : ι → Option α} {left len : Nat}

theorem probe_hit {r : α} {i : ι} {n : Nat} (hhit : FirstHit next visit len i n r) (hn : n ≤ left) :
    probe next visit exhausted left len i = r := by
  induction left generalizing len i n with
  | zero =>
    have hzero : n = 0 := by omega
    subst hzero
    have ha : visit i = some r := hhit.answer
    simp [probe, ha]
  | succ left ih =>
    cases n with
    | zero =>
      have ha : visit i = some r := hhit.answer
      simp [probe, ha]
    | succ n =>
      have h0 : visit i = none := hhit.before 0 (by omega)
      simp only [probe, h0]
      refine ih ⟨fun a ha => ?_, hhit.answer⟩ (by omega)
      exact hhit.before (a + 1) (by omega)

theorem probe_miss {i : ι} (hnone : ∀ a ≤ left, visit (trail next len i a) = none) :
    probe next visit exhausted left len i = exhausted := by
  induction left generalizing len i with
  | zero =>
    have h0 : visit i = none := hnone 0 (by omega)
    simp [probe, h0]
  | succ left ih =>
    have h0 : visit i = none := hnone 0 (by omega)
    simp only [probe, h0]
    exact ih fun a ha => hnone (a + 1) (by omega)

/-- Either some position within the limit answers first, or none of them
answers. -/
theorem probe_cases (visit : ι → Option α) (left len : Nat) (i : ι) :
    (∃ n r, n ≤ left ∧ FirstHit next visit len i n r)
      ∨ ∀ a ≤ left, visit (trail next len i a) = none := by
  induction left generalizing len i with
  | zero =>
    cases h0 : visit i with
    | some r => exact Or.inl ⟨0, r, Nat.le_refl _, by simp, h0⟩
    | none =>
      refine Or.inr fun a ha => ?_
      have hzero : a = 0 := by omega
      subst hzero
      exact h0
  | succ left ih =>
    cases h0 : visit i with
    | some r => exact Or.inl ⟨0, r, Nat.zero_le _, by simp, h0⟩
    | none =>
      rcases ih (len + 1) (next (len + 1) i) with
        ⟨n, r, hn, hhit⟩ | hnone
      · refine Or.inl ⟨n + 1, r, by omega, fun a ha => ?_, hhit.answer⟩
        cases a with
        | zero => exact h0
        | succ a => exact hhit.before a (by omega)
      refine Or.inr fun a ha => ?_
      cases a with
      | zero => exact h0
      | succ a => exact hnone a (by omega)

theorem probe_rel {β : Type*} {visit' : ι → Option β} {rel : α → β → Prop}
    (hvisit : ∀ i, (visit i = none ∧ visit' i = none)
      ∨ ∃ r r', visit i = some r ∧ visit' i = some r' ∧ rel r r')
    {exhausted' : β} (hex : rel exhausted exhausted') (left len : Nat) (i : ι) :
    rel (probe next visit exhausted left len i) (probe next visit' exhausted' left len i) := by
  induction left generalizing len i with
  | zero =>
    rcases hvisit i with ⟨h, h'⟩ | ⟨r, r', h, h', hr⟩
    · simpa [probe, h, h'] using hex
    · simpa [probe, h, h'] using hr
  | succ left ih =>
    rcases hvisit i with ⟨h, h'⟩ | ⟨r, r', h, h', hr⟩
    · simpa only [probe, h, h'] using ih _ _
    · simpa only [probe, h, h'] using hr

end MemoryFirst.Lib
