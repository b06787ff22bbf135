/-
The S3-FIFO cache over whole sequences of calls: how much it holds, and
what a `get` can return.

# The specification

`lastInserted` is the map without a bound: the value of a key is the one
of its last insert, unless a remove came after it. The cache may have
forgotten any of it, at any time, but returns nothing else.

# The result

`residency_bounded`: for every configuration the cache can be built
with, every hash function and every sequence of calls, all calls return
given enough fuel. Then no shard holds more than its capacity, the cache
no more than its capacity and the number of shards less one, and a `get`
returns only what was inserted last. The capacity is the one configured,
but at least one: that is what the constructor makes of zero.
-/
import MemoryFirst.Core.Proofs.S3Fifo

namespace MemoryFirst.Core.S3Fifo

open Lib Function List

variable {K V : Type} [DecidableEq K]

-- ===== the specification

/-- What a call does to a map without a bound. -/
def S3FifoCall.apply (m : K → Option V) : S3FifoCall K V → K → Option V
  | .insert key value _ => update m key (some value)
  | .get _ => m
  | .remove key => update m key none

variable (calls : List (S3FifoCall K V))

/-- The last inserted value of each key that was not removed since. -/
def lastInserted : K → Option V :=
  calls.foldl S3FifoCall.apply fun _ => none

variable {op : S3FifoCall K V}

theorem S3FifoCall.apply_other (m : K → Option V) {k : K} (hk : k ≠ op.key) :
    op.apply m k = m k := by
  cases op with
  | insert _ _ _ | remove _ => exact update_of_ne hk ..
  | get key => rfl

/-- What the claims about a cache are about. -/
structure Residency (hash : K → UInt64) (capacity : Nat)
    (calls : List (S3FifoCall K V)) (c : S3FifoCache K V) : Prop where
  shards : ∀ s ∈ c.shards, s.len ≤ s.capacity
  total : c.len ≤ capacity + c.shards.length - 1
  got : ∀ fuel k c' v, c.call hash fuel (.get k) = some (c', some v) → lastInserted calls k = some v

-- ===== one shard

/-- A shard of a capacity, whose residents are at home there and have
the values of `m`. -/
structure Shard.Holds (cap : Nat) (home : K → Prop) (m : K → Option V) (s : Shard K V) : Prop where
  capacity : s.capacity = cap
  len : s.len ≤ cap
  resident : ∀ k r, s.map.lookup k = some r → home k ∧ m k = some r.value

variable {m : K → Option V}

namespace Shard

variable {cap : Nat} {home : K → Prop} {s s' : Shard K V}

/-- A shard that is not the home of a call's key. -/
theorem Holds.other (h : s.Holds cap home m)
    (hop : ¬ home op.key) : s.Holds cap home (op.apply m) := by
  refine ⟨h.capacity, h.len, ?_⟩
  intro k r hr
  obtain ⟨hk, hm⟩ := h.resident k r hr
  refine ⟨hk, ?_⟩
  rw [S3FifoCall.apply_other m (fun heq => hop (heq ▸ hk)), hm]

variable {key : K}

/-- A resident is given a new value, or new references only. -/
theorem Holds.replace {r r' : Resident V} {value : V}
    (h : s.Holds cap home m) (hr : s.map.lookup key = some r)
    (hmap : s'.map = s.map.insert key r') (hcap : s'.capacity = s.capacity)
    (hvalue : r'.value = value) :
    s'.Holds cap home (update m key (some value)) := by
  have hlen : s'.len = s.len := by
    rw [len_eq, len_eq, hmap, weight_insert, weight_erase hr]
  refine ⟨hcap.trans h.capacity, hlen ▸ h.len, ?_⟩
  intro k r₁ hr₁
  rw [hmap] at hr₁
  by_cases hk : k = key
  · subst hk
    rw [AList.lookup_insert] at hr₁
    cases hr₁
    rw [update_self, hvalue]
    exact ⟨(h.resident k r hr).1, rfl⟩
  · rw [AList.lookup_insert_ne hk] at hr₁
    rw [update_of_ne hk]
    exact h.resident k r₁ hr₁

/-- A key that is not resident may have any value. -/
theorem Holds.absent (h : s.Holds cap home m) (hr : s.map.lookup key = none) (v : Option V)
    (hmap : s'.map = s.map) (hcap : s'.capacity = s.capacity) :
    s'.Holds cap home (update m key v) := by
  refine ⟨hcap.trans h.capacity, ?_, ?_⟩
  · rw [len_eq, hmap, ← len_eq]
    exact h.len
  · intro k r hk
    rw [hmap] at hk
    have hne : k ≠ key := by
      rintro rfl
      rw [hr] at hk
      cases hk
    rw [update_of_ne hne]
    exact h.resident k r hk

-- ===== calls

omit [DecidableEq K] in
theorem recordAdmission_fields (s : Shard K V) (hash : UInt64) :
    (s.recordAdmission hash).1.map = s.map ∧ (s.recordAdmission hash).1.capacity = s.capacity := by
  unfold recordAdmission
  split
  · exact ⟨rfl, rfl⟩
  · exact ⟨rfl, rfl⟩

theorem place_fields (s : Shard K V) (key : K) (hash : UInt64) (value : V) :
    (s.place key hash value).capacity = s.capacity ∧ ∃ r, r.value = value
        ∧ (s.place key hash value).map = s.map.insert key r := by
  unfold place
  split
  · exact ⟨rfl, _, rfl, rfl⟩
  · exact ⟨rfl, _, rfl, rfl⟩

/-- An insert returns, and its shard holds what it should. -/
theorem insert_returns (pick : Pick K) (hash : UInt64) (value : V)
    (h : s.Holds cap home m) (hkey : home key) :
    ∃ n s' reply, (∀ fuel, n ≤ fuel → s.insert pick fuel key hash value = some (s', reply))
      ∧ s'.Holds cap home (update m key (some value)) := by
  cases hr : s.map.lookup key with
  | some existing =>
    refine ⟨0, s.refresh key existing value, some existing.value, fun fuel _ => ?_, ?_⟩
    · rw [insert, hr]
    · exact h.replace hr rfl rfl rfl
  | none =>
    obtain ⟨hmap, hcap⟩ := recordAdmission_fields s hash
    generalize hrec : s.recordAdmission hash = recorded at hmap hcap
    obtain ⟨s₁, sample⟩ := recorded
    by_cases hgate : s₁.rejectCandidateByCapacityGate sample = true
    · refine ⟨0, s₁, none, fun fuel _ => ?_, h.absent hr _ hmap hcap⟩
      simp only [insert, hr, hrec, hgate, if_true]
    obtain ⟨n, s₂, hs₂, hev, hlen⟩ := evictToCapacity_returns
      (sample.map fun sample => ⟨key, hash, sample.frequency⟩) pick
      ((s₁.recordFrequency hash).place key hash value)
    refine ⟨n, s₂, none, fun fuel hfuel => ?_, ?_⟩
    · simp only [insert, hr, hrec, hgate, hs₂ fuel hfuel,
        Option.bind_eq_bind, Option.bind_some, Option.pure_def]
      rfl
    · obtain ⟨hcap', r, hvalue, hmap'⟩ :=
        place_fields (s₁.recordFrequency hash) key hash value
      have hcap₂ : s₂.capacity = cap :=
        (hev.capacity.trans hcap').trans (hcap.trans h.capacity)
      refine ⟨hcap₂, hcap₂ ▸ hlen, ?_⟩
      intro k r₂ hr₂
      obtain ⟨r₁, hr₁, hv⟩ := hev.value k r₂ hr₂
      rw [hmap', show (s₁.recordFrequency hash).map = s.map from hmap]
        at hr₁
      by_cases hk : k = key
      · subst hk
        rw [AList.lookup_insert] at hr₁
        cases hr₁
        refine ⟨hkey, ?_⟩
        rw [update_self, hv, hvalue]
      · rw [AList.lookup_insert_ne hk] at hr₁
        rw [update_of_ne hk, hv]
        exact h.resident k r₁ hr₁

/-- A `get` returns the value of the resident and leaves it there. -/
theorem get_holds (key : K) (h : s.Holds cap home m) : (s.get key).1.Holds cap home m
      ∧ ∀ v, (s.get key).2 = some v → m key = some v := by
  unfold get
  split
  next => exact ⟨h, fun v hv => nomatch hv⟩
  next r hr =>
    have hm := (h.resident key r hr).2
    refine ⟨?_, fun v hv => ?_⟩
    · rw [← update_eq_self key m, hm]
      exact h.replace hr rfl rfl rfl
    · cases hv
      exact hm

theorem remove_holds (key : K) (h : s.Holds cap home m) :
    (s.remove key).1.Holds cap home (update m key none) := by
  unfold remove
  split
  next hr => exact h.absent hr none rfl rfl
  next r hr =>
    obtain ⟨hmap, hcap, -, -⟩ := uncount_fields { s with map := s.map.erase key } r.state
    refine ⟨hcap.trans h.capacity, ?_, ?_⟩
    · rw [len_eq, hmap]
      exact (weight_erase_le ..).trans (len_eq s ▸ h.len)
    · intro k r₁ hr₁
      rw [hmap] at hr₁
      by_cases hk : k = key
      · subst hk
        rw [AList.lookup_erase] at hr₁
        cases hr₁
      · rw [AList.lookup_erase_ne hk] at hr₁
        rw [update_of_ne hk]
        exact h.resident k r₁ hr₁

/-- A call on the shard of its key. -/
theorem inShard_returns (op : S3FifoCall K V) (hash : UInt64)
    (h : s.Holds cap home m) (hop : home op.key) :
    ∃ n s' reply, (∀ fuel, n ≤ fuel → op.inShard fuel hash s = some (s', reply))
      ∧ s'.Holds cap home (op.apply m) := by
  cases op with
  | insert key value pick => exact insert_returns pick hash value h hop
  | get key => exact ⟨0, _, _, fun _ _ => rfl, (get_holds key h).1⟩
  | remove key => exact ⟨0, _, _, fun _ _ => rfl, remove_holds key h⟩

end Shard

-- ===== all shards

namespace S3FifoCache

variable {hash : K → UInt64} {cap : Nat} {c c' : S3FifoCache K V}

/-- Every shard holds what it should; a key is at home in one of them. -/
structure Holds (hash : K → UInt64) (cap : Nat) (m : K → Option V)
    (c : S3FifoCache K V) : Prop where
  shards : ∀ i (s : Shard K V), c.shards[i]? = some s →
    s.Holds cap (fun k => c.shardIdx (hash k) = i) m
  length : c.shards.length = c.shardMask + 1

omit [DecidableEq K] in
theorem shardIdx_lt (h : c.shards.length = c.shardMask + 1)
    (x : UInt64) : c.shardIdx x < c.shards.length := by
  rw [h]
  exact Nat.lt_succ_of_le Nat.and_le_right

/-- A call returns, and all shards hold what they should. -/
theorem call_returns (op : S3FifoCall K V) (h : c.Holds hash cap m) :
    ∃ n c' reply, (∀ fuel, n ≤ fuel → c.call hash fuel op = some (c', reply))
      ∧ c'.Holds hash cap (op.apply m)
      ∧ c'.shards.length = c.shards.length := by
  have hlt := shardIdx_lt h.length (hash op.key)
  have hs := getElem?_eq_getElem hlt
  obtain ⟨n, s', reply, hn, hs'⟩ :=
    Shard.inShard_returns op (hash op.key) (h.shards _ _ hs) rfl
  refine ⟨n, { c with shards := c.shards.set (c.shardIdx (hash op.key)) s' }, reply,
    fun fuel hfuel => ?_, ⟨?_, length_set.trans h.length⟩,
    length_set⟩
  · unfold call
    simp only [hs, hn fuel hfuel]
  · intro i s hi
    by_cases hidx : c.shardIdx (hash op.key) = i
    · subst hidx
      rw [getElem?_set_self hlt] at hi
      cases hi
      exact hs'
    · rw [getElem?_set_ne hidx] at hi
      exact (h.shards i s hi).other hidx

/-- So does a sequence of calls, with one amount of fuel for all. -/
theorem run_returns (h : c.Holds hash cap m) :
    ∃ n c', (∀ fuel, n ≤ fuel → c.run hash fuel calls = some c')
      ∧ c'.Holds hash cap (calls.foldl S3FifoCall.apply m)
      ∧ c'.shards.length = c.shards.length := by
  induction calls generalizing c m with
  | nil => exact ⟨0, c, fun _ _ => rfl, h, rfl⟩
  | cons op calls ih =>
    obtain ⟨n₁, c₁, reply, hn₁, h₁, hlen₁⟩ := call_returns op h
    obtain ⟨n₂, c₂, hn₂, h₂, hlen₂⟩ := ih h₁
    refine ⟨max n₁ n₂, c₂, fun fuel hfuel => ?_, h₂, hlen₂.trans hlen₁⟩
    rw [run, hn₁ fuel (by omega)]
    exact hn₂ fuel (by omega)

/-- The shards together. -/
theorem Holds.len_le (h : c.Holds hash cap m) : c.len ≤ c.shards.length * cap := by
  have hall : ∀ n ∈ c.shards.map Shard.len, n ≤ cap := by
    intro n hn
    obtain ⟨s, hs, rfl⟩ := mem_map.1 hn
    obtain ⟨i, hi⟩ := mem_iff_getElem?.1 hs
    exact (h.shards i s hi).len
  have hsum := sum_le_card_nsmul _ cap hall
  rwa [length_map] at hsum

theorem Holds.got (h : c.Holds hash cap m) {fuel : Nat} {k : K} {v : V}
    (hcall : c.call hash fuel (.get k) = some (c', some v)) :
    m k = some v := by
  have hlt := shardIdx_lt h.length (hash k)
  have hs := getElem?_eq_getElem hlt
  unfold call at hcall
  simp only [S3FifoCall.key, hs, S3FifoCall.inShard, Option.some.injEq, Prod.mk.injEq] at hcall
  exact (Shard.get_holds k (h.shards _ _ hs)).2 v hcall.2

-- ===== the constructor

/-- More than one shard is left only if all of them are large. -/
theorem fewerShards_cases (capacity bits : Nat) : fewerShards capacity bits = 1
      ∨ 0 < fewerShards capacity bits ∧ fewerShards capacity bits ≤ capacity := by
  induction bits with
  | zero => exact Or.inl rfl
  | succ bits ih =>
    rw [fewerShards]
    split
    next => exact ih
    next hlarge =>
      right
      have hpos : 0 < 2 ^ (bits + 1) := Nat.two_pow_pos _
      rw [Nat.not_lt, divCeil, Nat.le_div_iff_mul_le hpos, MIN_SHARD_CAPACITY] at hlarge
      omega

/-- A new cache is empty, with shards that are large enough together and
not much larger. -/
theorem holds_new {config : S3FifoConfig} (hash : K → UInt64)
    (h : withHasherAndConfig config = some c) :
    ∃ cap, c.Holds hash cap (fun _ => none) ∧ c.shards.length * cap
        ≤ max config.capacity 1 + c.shards.length - 1 := by
  unfold withHasherAndConfig at h
  simp only at h
  split at h
  case isTrue => cases h
  case isFalse =>
    cases h
    generalize hn : fewerShards (max config.capacity 1) _ = n
    have hcases := fewerShards_cases (max config.capacity 1)
      (Nat.log2 (wrappingNextPowerOfTwo (max config.shards 1)))
    have hpos : 0 < n := by omega
    have hmax : max (max config.capacity 1) n = max config.capacity 1 := by
      omega
    refine ⟨max (divCeil (max (max config.capacity 1) n) n) 1, ⟨?_, ?_⟩, ?_⟩
    · intro i s hi
      rw [getElem?_replicate] at hi
      split at hi
      case isFalse => cases hi
      case isTrue =>
        cases hi
        refine ⟨rfl, Nat.zero_le _, fun k r hr => ?_⟩
        have hnone : (∅ : AList fun _ : K => Resident V).lookup k = some r := hr
        cases hnone
    · rw [length_replicate]
      exact (Nat.sub_add_cancel hpos).symm
    · rw [length_replicate, hmax, divCeil]
      have hone : 1 ≤ (max config.capacity 1 + n - 1) / n := by
        rw [Nat.le_div_iff_mul_le hpos]
        omega
      rw [max_eq_left hone]
      exact Nat.mul_div_le ..

end S3FifoCache

-- ===== the bound

/-- However it is configured, the cache stays within its bound and
returns only what was inserted last. -/
theorem residency_bounded (hash : K → UInt64) {config : S3FifoConfig} {c₀ : S3FifoCache K V}
    (hnew : S3FifoCache.withHasherAndConfig config = some c₀)
    (calls : List (S3FifoCall K V)) :
    ∃ n c, (∀ fuel, n ≤ fuel → c₀.run hash fuel calls = some c) ∧ c.shards.length = c₀.shards.length
      ∧ Residency hash (max config.capacity 1) calls c := by
  obtain ⟨cap, hholds, hcap⟩ := S3FifoCache.holds_new hash hnew
  obtain ⟨n, c, hn, h, hlen⟩ := S3FifoCache.run_returns calls hholds
  refine ⟨n, c, hn, hlen, ?_, ?_, ?_⟩
  · intro s hs
    obtain ⟨i, hi⟩ := mem_iff_getElem?.1 hs
    have hshard := h.shards i s hi
    rw [hshard.capacity]
    exact hshard.len
  · rw [hlen]
    have htotal := h.len_le
    rw [hlen] at htotal
    exact htotal.trans hcap
  · intro fuel k c' v hcall
    exact h.got hcall

/-- The map's iterator gives the keys in the order of the list. -/
def Pick.head : Pick K where
  first := List.head?
  mem := List.mem_of_head?
  found := fun h => List.isSome_head?.2 h

/-- One shard of two, with an admission filter behind a doorkeeper. -/
def filteredConfig : S3FifoConfig where
  capacity := 2
  shards := 1
  hotRatioPercent := 50
  ghostRatioPercent := 100
  smallToMainThreshold := 2
  admissionEnabled := true
  admissionExperiment := some (.doorkeeper 64 64)

/-- Four keys for a cache of two, one of them read, one removed. -/
def crowdingCalls : List (S3FifoCall Nat Nat) :=
  [.insert 1 10 .head, .insert 2 20 .head, .get 1, .insert 3 30 .head,
    .remove 2, .insert 4 40 .head, .insert 1 11 .head]

theorem residency_bounded_filtered : ∃ c₀ : S3FifoCache Nat Nat,
      S3FifoCache.withHasherAndConfig filteredConfig = some c₀
      ∧ ∃ n c, (∀ fuel, n ≤ fuel → c₀.run Nat.toUInt64 fuel crowdingCalls = some c)
        ∧ c.shards.length = c₀.shards.length
        ∧ Residency Nat.toUInt64 (max filteredConfig.capacity 1)
          crowdingCalls c :=
  ⟨_, rfl, residency_bounded Nat.toUInt64 rfl crowdingCalls⟩

/-- A cache configured to hold nothing. -/
def emptyConfig : S3FifoConfig where
  capacity := 0
  shards := 1
  hotRatioPercent := 90
  ghostRatioPercent := 25
  smallToMainThreshold := 1
  admissionEnabled := false
  admissionExperiment := none

/-- It holds the first key all the same. -/
theorem residency_of_capacity_zero : ∃ c₀ c : S3FifoCache Nat Nat,
      S3FifoCache.withHasherAndConfig emptyConfig = some c₀
      ∧ c₀.run Nat.toUInt64 1 [.insert 1 10 .head] = some c
      ∧ ¬ Residency Nat.toUInt64 emptyConfig.capacity [.insert 1 10 .head] c := by
  refine ⟨_, _, rfl, rfl, fun h => ?_⟩
  exact absurd h.total (by decide +kernel)

end MemoryFirst.Core.S3Fifo
