/-
What the evictions of a shard can do, and that they come to an end.

# One relation for all of them

`Evicted s s'`: the residents of `s'` are residents of `s` with the same
values, and nothing the loops count has grown. Every eviction and every
round is one; the bound and the values of a shard pass through it.

# The measure of the first loop

`mass` adds up one and the references of each resident. The rounds of
the loop over the map lower `mass`, the length of the cold queue and
whether `coldLen` is positive, taken together:

  * a cold eviction takes a key from the cold queue,
  * a cold eviction that finds nothing leaves `coldLen` at zero,
  * a hot eviction takes a resident or one of its references,
  * an eviction of any key takes a resident.

The loop over the hot queue lowers `mass` alone.
-/
import MemoryFirst.Core.S3Fifo

namespace MemoryFirst.Core.S3Fifo.Shard

open Lib

variable {K V : Type} [DecidableEq K] {s s' : Shard K V} {candidate : Option (AdmissionCandidate K)}

/-- The residents and their references. -/
def mass (s : Shard K V) : Nat := weight (fun r => 1 + r.referenced) s.map

omit [DecidableEq K] in
theorem len_eq (s : Shard K V) : s.len = weight (fun _ => 1) s.map :=
  (weight_one s.map).symm

/-- `s'` is `s` after evictions. -/
structure Evicted (s s' : Shard K V) : Prop where
  capacity : s'.capacity = s.capacity
  value : ∀ k r', s'.map.lookup k = some r' → ∃ r, s.map.lookup k = some r ∧ r'.value = r.value
  len : s'.len ≤ s.len
  mass : s'.mass ≤ s.mass
  cold : s'.cold.length ≤ s.cold.length
  coldLen : s'.coldLen ≤ s.coldLen

namespace Evicted

/-- The map may not have changed at all. -/
theorem of_map (hmap : s'.map = s.map) (hcap : s'.capacity = s.capacity)
    (hcold : s'.cold.length ≤ s.cold.length)
    (hcoldLen : s'.coldLen ≤ s.coldLen) : Evicted s s' := by
  refine ⟨hcap, ?_, ?_, ?_, hcold, hcoldLen⟩
  · intro k r' h
    rw [hmap] at h
    exact ⟨r', h, rfl⟩
  · rw [len_eq, len_eq, hmap]
  · unfold Shard.mass
    rw [hmap]

theorem refl (s : Shard K V) : Evicted s s :=
  of_map rfl rfl (by omega) (Nat.le_refl _)

theorem trans {s₁ s₂ s₃ : Shard K V} (h : Evicted s₁ s₂) (h' : Evicted s₂ s₃) : Evicted s₁ s₃ := by
  refine ⟨h'.capacity.trans h.capacity, ?_, h'.len.trans h.len,
    h'.mass.trans h.mass, h'.cold.trans h.cold, h'.coldLen.trans h.coldLen⟩
  intro k r₃ h₃
  obtain ⟨r₂, h₂, hv₂⟩ := h'.value k r₃ h₃
  obtain ⟨r₁, h₁, hv₁⟩ := h.value k r₂ h₂
  exact ⟨r₁, h₁, hv₂.trans hv₁⟩

end Evicted

/-- A shard whose map lost a resident. -/
theorem evicted_of_erase {key : K} {r : Resident V}
    (hr : s.map.lookup key = some r) (hmap : s'.map = s.map.erase key)
    (hcap : s'.capacity = s.capacity)
    (hcold : s'.cold.length ≤ s.cold.length)
    (hcoldLen : s'.coldLen ≤ s.coldLen) :
    Evicted s s' ∧ s'.mass < s.mass := by
  have hmass : s'.mass < s.mass := by
    unfold mass
    rw [hmap, weight_erase hr]
    omega
  refine ⟨⟨hcap, ?_, ?_, Nat.le_of_lt hmass, hcold, hcoldLen⟩, hmass⟩
  · intro k r' h
    rw [hmap] at h
    by_cases hk : k = key
    · subst hk
      rw [AList.lookup_erase] at h
      cases h
    · rw [AList.lookup_erase_ne hk] at h
      exact ⟨r', h, rfl⟩
  · rw [len_eq, len_eq, hmap]
    exact weight_erase_le ..

/-- A shard whose map has a resident with the same value and with at most
as many references. -/
theorem evicted_of_insert {key : K} {r r' : Resident V}
    (hr : s.map.lookup key = some r) (hmap : s'.map = s.map.insert key r')
    (hvalue : r'.value = r.value) (href : r'.referenced ≤ r.referenced)
    (hcap : s'.capacity = s.capacity)
    (hcold : s'.cold.length ≤ s.cold.length)
    (hcoldLen : s'.coldLen ≤ s.coldLen) : Evicted s s' := by
  refine ⟨hcap, ?_, ?_, ?_, hcold, hcoldLen⟩
  · intro k r₁ h
    rw [hmap] at h
    by_cases hk : k = key
    · subst hk
      rw [AList.lookup_insert] at h
      cases h
      exact ⟨r, hr, hvalue⟩
    · rw [AList.lookup_insert_ne hk] at h
      exact ⟨r₁, h, rfl⟩
  · rw [len_eq, len_eq, hmap, weight_insert, weight_erase hr]
  · unfold mass
    rw [hmap, weight_insert, weight_erase hr]
    omega

-- ===== rejecting

omit [DecidableEq K] in
theorem uncount_fields (s : Shard K V) (state : ResidentState) : (s.uncount state).map = s.map
      ∧ (s.uncount state).capacity = s.capacity
      ∧ (s.uncount state).cold = s.cold
      ∧ (s.uncount state).coldLen ≤ s.coldLen := by
  cases state with
  | cold => exact ⟨rfl, rfl, rfl, Nat.sub_le ..⟩
  | hot => exact ⟨rfl, rfl, rfl, Nat.le_refl _⟩

theorem removeQueuedKey_length (queue : List K) (key : K) :
    (removeQueuedKey queue key).length ≤ queue.length := by
  unfold removeQueuedKey
  split
  · rw [List.length_dropLast]
    omega
  · omega

theorem unqueue_fields (s : Shard K V) (state : ResidentState) (key : K) :
    (s.unqueue state key).map = s.map ∧ (s.unqueue state key).capacity = s.capacity
      ∧ (s.unqueue state key).cold.length ≤ s.cold.length
      ∧ (s.unqueue state key).coldLen = s.coldLen := by
  cases state with
  | cold => exact ⟨rfl, rfl, removeQueuedKey_length .., rfl⟩
  | hot => exact ⟨rfl, rfl, Nat.le_refl _, rfl⟩

section

variable (candidate : Option (AdmissionCandidate K)) (s : Shard K V)

/-- A candidate that is rejected was resident and is not any more. -/
theorem reject_cases (victimHash : UInt64) :
    s.rejectCandidateIfVictimHotter candidate victimHash = (s, false)
      ∨ ∃ s', s.rejectCandidateIfVictimHotter candidate victimHash
          = (s', true) ∧ Evicted s s' ∧ s'.mass < s.mass := by
  unfold rejectCandidateIfVictimHotter
  split
  next c admission hadmission =>
    split
    · exact Or.inl rfl
    split
    · exact Or.inl rfl
    split
    · exact Or.inl rfl
    next removed hr =>
      right
      refine ⟨_, rfl, ?_⟩
      obtain ⟨hmap, hcap, hcold, hcoldLen⟩ := unqueue_fields
        ({ s with map := s.map.erase c.key }.uncount removed.state)
        removed.state c.key
      obtain ⟨hmap', hcap', hcold', hcoldLen'⟩ := uncount_fields
        { s with map := s.map.erase c.key } removed.state
      rw [hcold'] at hcold
      exact evicted_of_erase hr (hmap.trans hmap') (hcap.trans hcap') hcold
        (hcoldLen.le.trans hcoldLen')
  next => exact Or.inl rfl

-- ===== evicting

/-- A cold eviction that does something takes a key from the queue; one
that does nothing has emptied it. -/
theorem evictColdFrom_cases (queue : List K) :
    s.evictColdFrom candidate queue = ({ s with cold := [] }, false)
      ∨ ∃ s', s.evictColdFrom candidate queue = (s', true) ∧ Evicted { s with cold := queue } s'
          ∧ s'.cold.length < queue.length := by
  induction queue with
  | nil => exact Or.inl rfl
  | cons key cold ih =>
    have hpop : Evicted { s with cold := key :: cold } { s with cold := cold } :=
      .of_map rfl rfl (Nat.le_succ _) (Nat.le_refl _)
    -- a stale key is passed over
    have hskip : s.evictColdFrom candidate cold = ({ s with cold := [] }, false)
        ∨ ∃ s', s.evictColdFrom candidate cold = (s', true)
          ∧ Evicted { s with cold := key :: cold } s'
          ∧ s'.cold.length < (key :: cold).length := by
      rcases ih with h | ⟨s', h, hev, hlt⟩
      · exact Or.inl h
      · exact Or.inr ⟨s', h, hpop.trans hev, Nat.lt_succ_of_lt hlt⟩
    rw [evictColdFrom]
    split
    next => exact hskip
    next resident hr =>
      split
      next => exact hskip
      next =>
        right
        dsimp only
        split
        next =>
          refine ⟨_, rfl, ?_, Nat.lt_succ_self _⟩
          exact evicted_of_insert hr rfl rfl (Nat.sub_le ..) rfl (Nat.le_succ _) (Nat.sub_le ..)
        next =>
          rcases reject_cases candidate
              { s with cold := cold } resident.hash with h | ⟨s', h, hev, -⟩
          · rw [h]
            refine ⟨_, rfl, ?_, Nat.lt_succ_self _⟩
            exact And.left (evicted_of_erase hr rfl rfl (Nat.le_succ _) (Nat.sub_le ..))
          · rw [h]
            exact ⟨s', rfl, hpop.trans hev, Nat.lt_succ_of_le hev.cold⟩

/-- A hot eviction that does something lowers the mass. -/
theorem evictHotFrom_cases (queue : List K) :
    s.evictHotFrom candidate queue = ({ s with hot := [] }, false)
      ∨ ∃ s', s.evictHotFrom candidate queue = (s', true) ∧ Evicted s s' ∧ s'.mass < s.mass := by
  induction queue with
  | nil => exact Or.inl rfl
  | cons key hot ih =>
    rw [evictHotFrom]
    split
    next => exact ih
    next resident hr =>
      split
      next => exact ih
      split
      next href =>
        right
        refine ⟨_, rfl, ?_, ?_⟩
        · exact evicted_of_insert hr rfl rfl (Nat.sub_le ..) rfl (Nat.le_refl _) (Nat.le_refl _)
        · show weight _ (s.map.insert key _) < weight _ s.map
          rw [weight_insert, weight_erase hr]
          dsimp only
          omega
      next =>
        right
        rcases reject_cases candidate { s with hot := hot } resident.hash with h | ⟨s', h, hev, hlt⟩
        · rw [h]
          refine ⟨_, rfl, ?_⟩
          exact evicted_of_erase hr rfl rfl (Nat.le_refl _) (Nat.le_refl _)
        rw [h]
        have hpop : Evicted s { s with hot := hot } :=
          .of_map rfl rfl (Nat.le_refl _) (Nat.le_refl _)
        exact ⟨s', rfl, hpop.trans hev, hlt⟩

end

variable (pick : Pick K)

/-- Some key is evicted as long as there is one. -/
theorem evictAnyOnce_cases (s : Shard K V) :
    (s.evictAnyOnce pick = (s, false) ∧ s.len = 0) ∨ ∃ s', s.evictAnyOnce pick = (s', true)
          ∧ Evicted s s' ∧ s'.mass < s.mass := by
  unfold evictAnyOnce
  split
  next hnone =>
    left
    have hkeys : s.map.keys = [] := by
      by_contra hne
      have hfound := pick.found hne
      rw [hnone] at hfound
      cases hfound
    refine ⟨rfl, ?_⟩
    exact List.length_eq_zero_iff.2 (List.map_eq_nil_iff.1 hkeys)
  next key hkey =>
    have hmem : key ∈ s.map := pick.mem hkey
    split
    next hr => exact absurd (AList.lookup_eq_none.1 hr) (not_not.2 hmem)
    next removed hr =>
      right
      obtain ⟨hmap, hcap, hcold, hcoldLen⟩ := uncount_fields
        { s with map := s.map.erase key } removed.state
      refine ⟨_, rfl, ?_⟩
      exact evicted_of_erase hr hmap hcap (Nat.le_of_eq (congrArg _ hcold)) hcoldLen

-- ===== loops

/-- What the rounds of the loop over the map lower. -/
def pressure (s : Shard K V) : Nat :=
  s.mass + s.cold.length + if 0 < s.coldLen then 1 else 0

/-- An eviction that lowers the mass or shortens the cold queue. -/
theorem Evicted.pressure_lt (h : Evicted s s')
    (hlt : s'.mass < s.mass ∨ s'.cold.length < s.cold.length) :
    s'.pressure < s.pressure := by
  have hmass := h.mass
  have hcold := h.cold
  have hcoldLen := h.coldLen
  unfold pressure
  split <;> split <;> omega

/-- What a round of evictions did: if there is another one the measure is
lower, and otherwise the loop is left with `post`. -/
def Lowers (measure : Shard K V → Nat) (post : Shard K V → Prop) (s : Shard K V) :
    Flow (Shard K V) → Prop
  | .again s' => Evicted s s' ∧ measure s' < measure s
  | .exit s' => Evicted s s' ∧ post s'

/-- A round of the loop over the map lowers the pressure, or leaves the
loop within the capacity. -/
theorem evictRound_lowers (s : Shard K V) :
    Lowers pressure (fun s => s.len ≤ s.capacity) s (s.evictRound candidate pick) := by
  unfold evictRound
  split
  case isFalse hle => exact ⟨.refl s, Nat.le_of_not_lt hle⟩
  case isTrue =>
    by_cases hpos : 0 < s.coldLen
    · rw [if_pos hpos, evictColdOnce]
      rcases evictColdFrom_cases candidate s s.cold with
        hc | ⟨s₁, hc, hev, hlt⟩
      · -- nothing was cold: the counter is corrected
        rw [hc]
        dsimp only
        rw [if_pos hpos]
        refine ⟨.of_map rfl rfl (Nat.zero_le _) (Nat.zero_le _), ?_⟩
        show s.mass + 0 + 0 < s.pressure
        unfold pressure
        rw [if_pos hpos]
        omega
      · rw [hc]
        exact ⟨hev, hev.pressure_lt (Or.inr hlt)⟩
    · rw [if_neg hpos, evictHotOnce]
      rcases evictHotFrom_cases candidate s s.hot with
        hc | ⟨s₁, hc, hev, hlt⟩
      · rw [hc]
        dsimp only
        rw [if_neg hpos]
        have hpop : Evicted s { s with hot := [] } :=
          .of_map rfl rfl (Nat.le_refl _) (Nat.le_refl _)
        rcases evictAnyOnce_cases pick { s with hot := [] } with
          ⟨ha, hlen⟩ | ⟨s₂, ha, hev, hlt⟩
        · rw [ha]
          exact ⟨hpop, hlen.le.trans (by omega)⟩
        · rw [ha]
          exact ⟨hpop.trans hev, (hpop.trans hev).pressure_lt (Or.inl hlt)⟩
      · rw [hc]
        exact ⟨hev, hev.pressure_lt (Or.inl hlt)⟩

theorem hotRound_lowers (s : Shard K V) :
    Lowers mass (fun _ => True) s (s.hotRound candidate) := by
  unfold hotRound evictHotOnce
  split
  case isFalse => exact ⟨.refl s, trivial⟩
  case isTrue =>
    rcases evictHotFrom_cases candidate s s.hot with
      hc | ⟨s₁, hc, hev⟩
    · rw [hc]
      exact ⟨.of_map rfl rfl (Nat.le_refl _) (Nat.le_refl _), trivial⟩
    · rw [hc]
      exact hev

theorem ghostRound_lowers (s : Shard K V) :
    Lowers (fun s => s.ghost.length) (fun _ => True) s s.ghostRound := by
  unfold ghostRound
  split
  case isFalse => exact ⟨.refl s, trivial⟩
  case isTrue hlt =>
    cases hghost : s.ghost with
    | nil =>
      rw [hghost] at hlt
      cases hlt
    | cons hash ghost =>
      refine ⟨.of_map rfl rfl (Nat.le_refl _) (Nat.le_refl _), ?_⟩
      show ghost.length < s.ghost.length
      rw [hghost]
      exact Nat.lt_succ_self _

/-- A loop of evictions that lower a measure returns, having evicted. -/
theorem loop_evicted {body : Shard K V → Flow (Shard K V)}
    {measure : Shard K V → Nat} {post : Shard K V → Prop}
    (hround : ∀ s, Lowers measure post s (body s)) (s : Shard K V) :
    ∃ n s', (∀ fuel, n ≤ fuel → loop body fuel s = some s') ∧ Evicted s s' ∧ post s' := by
  have hagain : ∀ s s', body s = .again s' → Evicted s s' ∧ measure s' < measure s := by
    intro s s' h
    have hlower := hround s
    rw [h] at hlower
    exact hlower
  obtain ⟨s', hs'⟩ := loop_returns measure (fun s s' h => (hagain s s' h).2) s
  refine ⟨measure s + 1, s', hs', ?_⟩
  refine loop_rule (Evicted s) (fun s' => Evicted s s' ∧ post s') ?_ ?_
    (.refl s) (hs' _ (Nat.lt_succ_self _))
  · intro s₁ s₂ h hbody
    exact h.trans (hagain s₁ s₂ hbody).1
  · intro s₁ s₂ h hbody
    have hleft := hround s₁
    rw [hbody] at hleft
    exact ⟨h.trans hleft.1, hleft.2⟩

/-- `evict_to_capacity` returns, and does what its name says. -/
theorem evictToCapacity_returns (candidate : Option (AdmissionCandidate K)) (pick : Pick K)
    (s : Shard K V) :
    ∃ n s', (∀ fuel, n ≤ fuel → s.evictToCapacity candidate pick fuel = some s')
      ∧ Evicted s s' ∧ s'.len ≤ s'.capacity := by
  obtain ⟨n₁, s₁, hs₁, hev₁, hlen⟩ := loop_evicted (@evictRound_lowers _ _ _ candidate pick) s
  obtain ⟨n₂, s₂, hs₂, hev₂, -⟩ := loop_evicted (@hotRound_lowers _ _ _ candidate) s₁
  obtain ⟨n₃, s₃, hs₃, hev₃, -⟩ := loop_evicted ghostRound_lowers s₂
  have hev : Evicted s₁ s₃ := hev₂.trans hev₃
  refine ⟨max n₁ (max n₂ n₃), s₃, ?_, hev₁.trans hev, ?_⟩
  · intro fuel hfuel
    show ((loop _ fuel s).bind fun s => (loop _ fuel s).bind _) = _
    rw [hs₁ fuel (by omega), Option.bind_some, hs₂ fuel (by omega), Option.bind_some]
    exact hs₃ fuel (by omega)
  · rw [hev.capacity]
    exact hev.len.trans hlen

end MemoryFirst.Core.S3Fifo.Shard
