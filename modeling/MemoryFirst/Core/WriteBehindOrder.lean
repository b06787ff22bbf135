/-
The order in which the write-behind cache delivers the writes of a key,
with any number of writers and one flusher.

# What is expected

Versions are clock ticks, and a backend is asked to be version-aware: the
versions it gets for a key should increase, and its last record for the
key should be what the cache shows.

# What happens

A write takes its tick before its insert. Two writes of a key can land in
the other order, and if the flusher comes between them the backend gets
the later version first (`versions_delivered_backwards`). With a write
that lands only above every version of its key that was delivered or
collected (`InOrder`), versions increase.

The last record is right in every run. Deliveries follow the order of
landing, not of ticks (`Sequence.after`): a record is collected only
while the map shows it, each landed write is delivered at most once
(`WriteBehindTokens.lean`), and the only thing that removes a key from
the map is the cleanup of a delete that was the last delivered
(`Settled.removing`).

# Several flushers

Without any order the deliveries still do not overlap: a record is in one
batch at a time, and in none once it was accepted (`batches_disjoint`).
-/
import MemoryFirst.Core.Backend
import MemoryFirst.Core.Proofs.WriteBehindTokens
import MemoryFirst.Core.WriteBehindCleanup

namespace MemoryFirst.Core.WriteBehindCache

open Lib Function List

variable {K V ε : Type}

-- ===== the specification

/-- Writers put and delete, and a flush begins when the one before has
returned. -/
def OneFlusher (w : World K V ε) : Action K V ε → Prop
  | .loadClean _ _ => False
  | .flushIdle _ _ => ∀ f ∈ w.flushers, f.pc.returned = true
  | .flushShardIdle _ _ _ => ∀ f ∈ w.flushers, f.pc.returned = true
  | _ => True

instance (w : World K V ε) (action : Action K V ε) : Decidable (OneFlusher w action) :=
  match action with
  | .loadClean _ _ => inferInstanceAs (Decidable False)
  | .flushIdle _ _ | .flushShardIdle _ _ _ => inferInstanceAs
      (Decidable (∀ f ∈ w.flushers, f.pc.returned = true))
  | .put _ _ | .delete _ | .writer _ _ | .flusher _ _ => inferInstanceAs (Decidable True)

/-- The version of a write about to insert. -/
def WriterPc.ticket : WriterPc → Option Nat
  | .insert n => some n
  | _ => none

variable [DecidableEq K] (w : World K V ε)

/-- A write lands only above every version of its key that was delivered
or is collected for delivery. -/
def InOrder : Action K V ε → Prop
  | .writer p false => ∀ a ∈ w.writers[p]?, ∀ n ∈ a.pc.ticket,
      ∀ r ∈ stream w, r.key = a.key → r.version < n
  | _ => True

instance (w : World K V ε) (action : Action K V ε) : Decidable (InOrder w action) :=
  match action with
  | .writer p false => inferInstanceAs (Decidable (∀ a ∈ w.writers[p]?,
      ∀ n ∈ a.pc.ticket, ∀ r ∈ stream w, r.key = a.key → r.version < n))
  | .writer _ true | .put _ _ | .loadClean _ _ | .delete _
  | .flushIdle _ _ | .flushShardIdle _ _ _ | .flusher _ _ =>
    inferInstanceAs (Decidable True)

/-- The last delivered record of every key is what a read returns. -/
def LastIsReadable : Prop :=
  ∀ k, (w.cache.get k).2 = (lastDelivered w.accepted k).bind (·.value)

/-- Nothing is queued. -/
def Drained (c : WriteBehindCache K V) : Prop :=
  ∀ s < c.shardCount, c.dirtyShards s = []

instance (c : WriteBehindCache K V) : Decidable (Drained c) :=
  inferInstanceAs (Decidable (∀ s < c.shardCount, _))

-- ===== landing order

variable (landed : List (Landed K V))

/-- The write of `a` landed before that of `b`. -/
def Later (a b : FlushRecord K V) : Prop :=
  ∃ xs ys, landed = xs ++ ys ∧ (∃ x ∈ xs, a = x.recordOf) ∧ ∃ y ∈ ys, b = y.recordOf

/-- Of two records of a key the write of the first landed first. -/
def LandingOrder (records : List (FlushRecord K V)) : Prop :=
  records.Pairwise fun a b => a.key = b.key → Later landed a b

variable {landed : List (Landed K V)} {records : List (FlushRecord K V)}

omit [DecidableEq K] in
theorem LandingOrder.append (h : LandingOrder landed records) (more : List (Landed K V)) :
    LandingOrder (landed ++ more) records := by
  refine List.Pairwise.imp ?_ h
  intro a b hab hkey
  obtain ⟨xs, ys, hsplit, hx, y, hy, hby⟩ := hab hkey
  refine ⟨xs, ys ++ more, ?_, hx, y, mem_append_left _ hy, hby⟩
  rw [hsplit, append_assoc]

variable {k : K}

/-- Every other write of a key landed before the last one. -/
theorem later_of_lastLanded {x y : Landed K V} (hlast : lastLanded landed k = some x)
    (hy : y ∈ landed) (hkey : y.key = k) (hne : y ≠ x) :
    Later landed y.recordOf x.recordOf := by
  obtain ⟨xs, ys, rfl, hys⟩ := lastOf_split hlast
  rcases mem_append.1 hy with hyx | hyy
  · exact ⟨xs, x :: ys, rfl, ⟨y, hyx, rfl⟩, x, mem_cons_self, rfl⟩
  · rcases mem_cons.1 hyy with hyx | hyy
    · exact absurd hyx hne
    · exact absurd hkey (hys y hyy)

variable {x : Landed K V}

/-- The record of the last landed write comes last among those of its
key. -/
theorem LandingOrder.last (h : LandingOrder landed records)
    (hnodup : (landed.map Landed.version).Nodup) (hlast : lastLanded landed k = some x)
    (hx : x.recordOf ∈ records) :
    lastDelivered records k = some x.recordOf := by
  have hkey : x.recordOf.key = k := (lastLanded_mem hlast).2
  obtain ⟨r, hr⟩ := exists_lastOf FlushRecord.key hx
  rw [hkey] at hr
  obtain ⟨front, back, rfl, hback⟩ := lastOf_split hr
  refine hr.trans (congrArg some ?_)
  rcases mem_append.1 hx with hfront | hrest
  · -- a later record of the key would be of a write that landed later
    exfalso
    have hlater := (pairwise_append.1 h).2.2 _ hfront r mem_cons_self
    obtain ⟨xs, ys, rfl, ⟨x', hx', heq⟩, y, hy, rfl⟩ :=
      hlater (hkey.trans (lastOf_mem hr).2.symm)
    have hversion : x.version = x'.version := congrArg FlushRecord.version heq
    have hxys : x ∈ ys := by
      obtain ⟨z, hz⟩ := exists_lastOf Landed.key hy
      have hyk : y.key = k := (lastOf_mem hr).2
      have hlast : lastOf Landed.key (xs ++ ys) k = some x := hlast
      rw [hyk] at hz
      rw [lastOf_append, hz] at hlast
      cases hlast
      exact (lastOf_mem hz).1
    rw [map_append] at hnodup
    exact (nodup_append.1 hnodup).2.2 _
      (mem_map_of_mem hx') _ (mem_map_of_mem hxys) hversion.symm
  · rcases mem_cons.1 hrest with heq | hmem
    · exact heq.symm
    · exact absurd hkey (hback _ hmem)

-- ===== one flusher

/-- One flusher at a time is under way, versions tell landed writes
apart, and the stream follows the order of landing. -/
structure Sequence (w : World K V ε) : Prop where
  single : ∀ {p q : Nat} {f g : Flusher K V ε}, w.flushers[p]? = some f →
    w.flushers[q]? = some g → f.pc.returned = false →
    g.pc.returned = false → p = q
  nodup : (w.landed.map Landed.version).Nodup
  after : LandingOrder w.landed (stream w)

section

variable {w : World K V ε} {p : Nat} {f f' : Flusher K V ε}
  {c : WriteBehindCache K V} {accepted : List (FlushRecord K V)} {pc : FlusherPc K ε}

omit [DecidableEq K] in
theorem collected_returned (h : pc.returned = true) : collected records pc = [] := by
  cases pc with
  | done result => rfl
  | _ => cases h

theorem FlusherMoves.of_returned {c₀ : WriteBehindCache K V}
    (h : FlusherMoves c₀ f c f' accepted) (hr : f.pc.returned = true) :
    c = c₀ ∧ f' = f ∧ accepted = [] := by
  generalize hpc' : f.pc = pc at hr
  cases pc with
  | done result =>
    cases h with
    | rests => exact ⟨rfl, rfl, rfl⟩
    | loads _ hpc | measures _ _ hpc | finds _ _ _ hpc
    | pops _ _ _ _ _ hpc | returns _ _ _ _ hpc | drops _ _ _ _ hpc
    | collects _ _ _ _ _ hpc | accepts hpc | fails _ hpc
    | skips _ _ hpc | aims _ _ _ hpc | removes _ _ hpc
    | requeues _ _ _ _ hpc => cases hpc'.symm.trans hpc
  | _ => cases hr

omit [DecidableEq K] in
/-- A flusher at a removal is under way and has nothing collected. -/
theorem of_removing (records : List (FlushRecord K V)) (h : pc.removing = some k) :
    pc.returned = false ∧ collected records pc = [] := by
  cases pc with
  | remove entry rest => exact ⟨rfl, rfl⟩
  | _ => cases h

omit [DecidableEq K] in
/-- While a flusher is under way the others have nothing collected. -/
theorem Sequence.others_nil (hs : Sequence w)
    (hf : w.flushers[p]? = some f) (hactive : f.pc.returned = false)
    (q : Nat) (g : Flusher K V ε) (hqp : q ≠ p)
    (hg : w.flushers[q]? = some g) : collected g.records g.pc = [] := by
  refine collected_returned (Bool.not_eq_false _ ▸ fun hfalse => ?_)
  exact hqp (hs.single hg hf hfalse hactive)

variable (hf : w.flushers[p]? = some f) (h : FlusherMoves w.cache f c f' accepted)

include hf h in
/-- A step of the flusher hands over or loses what was collected, or adds
one record, of the write the map shows. -/
theorem Sequence.stream_flushes (hs : Sequence w) :
    (stream (w.flushed p c f' accepted)).Sublist (stream w)
      ∨ ∃ s left range entry r, f.pc = .lookup s left range entry
        ∧ w.cache.map entry.key = some r ∧ r.version = entry.version
        ∧ c = w.cache ∧ stream (w.flushed p c f' accepted)
          = stream w ++ [⟨entry.key, r.value, entry.version, entry.op⟩] := by
  cases hactive : f.pc.returned with
  | true =>
    obtain ⟨rfl, rfl, rfl⟩ := h.of_returned hactive
    left
    obtain ⟨hlt, hget⟩ := List.getElem?_eq_some_iff.1 hf
    have hsame : w.flushers.set p f' = w.flushers := by
      rw [← hget]
      exact List.set_getElem_self hlt
    unfold stream
    dsimp only
    rw [hsame, List.append_nil]
  | false =>
    have hold : stream w = w.accepted ++ collected f.records f.pc := by
      unfold stream
      rw [flatMap_eq_of_others_nil hf _ (hs.others_nil hf hactive)]
    have hnew : stream (w.flushed p c f' accepted)
        = w.accepted ++ (accepted ++ collected f'.records f'.pc) := by
      unfold stream
      rw [flatMap_eq_of_others_nil (getElem?_set_new hf) _ ?_, List.append_assoc]
      intro q g hqp hg
      rcases getElem?_set_cases hg with ⟨rfl, -⟩ | ⟨-, hg⟩
      · exact absurd rfl hqp
      · exact hs.others_nil hf hactive q g hqp hg
    rw [hold, hnew]
    rcases h.stream_cases with hsub | ⟨s, left, range, entry, r, hpc, hr,
      hv, hc, rfl, -, hcollected⟩
    · exact Or.inl (hsub.append_left _)
    · refine Or.inr ⟨s, left, range, entry, r, hpc, hr, hv, hc, ?_⟩
      rw [hcollected, List.nil_append, List.append_assoc]

variable {r : FlushRecord K V}

/-- An entry a flusher is looking up has no record in the stream. -/
theorem Sequence.unsent (hs : Sequence w) (ht : TokenInv w)
    (hi : ThreadInv w) (hf : w.flushers[p]? = some f) {s left : Nat}
    {range : List Nat} {entry : DirtyEntry K}
    (hpc : f.pc = .lookup s left range entry) (hx : x ∈ w.landed) (hentry : entry = x.entryOf)
    (hr : r ∈ stream w) : r ≠ x.recordOf := by
  intro heq
  subst heq
  have hle := le_sum_map hf fun f =>
    (hands f.drained f.pc).countP fun z => decide (z.2 = x.entryOf)
  have htokens : (hands f.drained f.pc).countP
      (fun z => decide (z.2 = x.entryOf)) ≤ tokens w x.entryOf := by
    unfold tokens
    omega
  have hhands : (hands f.drained f.pc).countP (fun z => decide (z.2 = x.entryOf))
      = f.drained.countP (fun z => decide (z.2 = x.entryOf)) + 1 := by
    rw [hpc]
    exact countP_cons_of_pos (decide_eq_true hentry)
  rcases mem_append.1 hr with hsent | hcollected
  · have := ht.spent x hx hsent
    omega
  -- the batch would hold the entry beside the one in hand
  obtain ⟨g, hg, hmem⟩ := mem_flatMap.1 hcollected
  obtain ⟨q, hq⟩ := mem_iff_getElem?.1 hg
  have hactive : g.pc.returned = false := by
    refine Bool.eq_false_iff.2 fun htrue => ?_
    rw [collected_returned htrue] at hmem
    cases hmem
  have hqp : q = p := hs.single hq hf hactive (by rw [hpc]; rfl)
  subst hqp
  cases hf.symm.trans hq
  obtain ⟨y, hy, heq, hdrained⟩ := ht.matched hf _ hmem
  have hsame : x = y := hi.unique x hx y hy (congrArg FlushRecord.version heq)
  subst hsame
  obtain ⟨d, hd, hdx⟩ := mem_map.1 hdrained
  have hpos : 0 < f.drained.countP fun z => decide (z.2 = x.entryOf) :=
    countP_pos_iff.2 ⟨d, hd, decide_eq_true hdx⟩
  have := ht.one x.entryOf
  omega

theorem mem_stream (ht : TokenInv w) (hr : r ∈ stream w) : ∃ x ∈ w.landed, r = x.recordOf := by
  rcases mem_append.1 hr with hsent | hcollected
  · exact ht.sent r hsent
  obtain ⟨g, hg, hmem⟩ := mem_flatMap.1 hcollected
  obtain ⟨q, hq⟩ := mem_iff_getElem?.1 hg
  obtain ⟨x, hx, heq, -⟩ := ht.matched hq r hmem
  exact ⟨x, hx, heq⟩

include hf h in
theorem Sequence.flushes (hs : Sequence w) (ht : TokenInv w) (hi : ThreadInv w) :
    Sequence (w.flushed p c f' accepted) := by
  refine ⟨?_, hs.nodup, ?_⟩
  · have hback : f'.pc.returned = false → f.pc.returned = false := by
      intro hfalse
      refine Bool.eq_false_iff.2 fun htrue => ?_
      obtain ⟨-, rfl, -⟩ := h.of_returned htrue
      rw [htrue] at hfalse
      cases hfalse
    intro q q' g g' hg hg' ha ha'
    rcases getElem?_set_cases hg with ⟨rfl, rfl⟩ | ⟨-, hold⟩ <;>
      rcases getElem?_set_cases hg' with ⟨rfl, rfl⟩ | ⟨-, hold'⟩
    · rfl
    · exact hs.single hf hold' (hback ha) ha'
    · exact hs.single hold hf ha (hback ha')
    · exact hs.single hold hold' ha ha'
  · rcases hs.stream_flushes hf h with hsub | ⟨s, left, range, entry, r, hpc, hr, hv, -, heq⟩
    · exact hs.after.sublist hsub
    rw [heq]
    obtain ⟨x, hlast, hentry, hrec⟩ := hi.current hf hpc hr hv
    have hx := (lastLanded_mem hlast).1
    refine pairwise_append.2 ⟨hs.after, pairwise_singleton _ _, fun a ha b hb hkey => ?_⟩
    cases mem_singleton.1 hb
    obtain ⟨y, hy, rfl⟩ := mem_stream ht ha
    rw [hrec]
    refine later_of_lastLanded hlast hy hkey fun hyx => ?_
    subst hyx
    exact hs.unsent ht hi hf hpc hx hentry ha rfl

variable {full : Bool} {a : Writer K V} {pc : WriterPc}

theorem Sequence.writes (hs : Sequence w) (hi : ThreadInv w)
    (ha : w.writers[p]? = some a) (h : WriterMoves w.cache a full c pc landed) :
    Sequence (w.wrote p a c pc landed) := by
  obtain ⟨hlength, hfresh⟩ := hi.landed_fresh ha h
  refine ⟨hs.single, ?_, hs.after.append landed⟩
  rw [map_append]
  refine nodup_append.2 ⟨hs.nodup, ?_, ?_⟩
  · match landed, hlength with
    | [], _ => exact nodup_nil
    | [y], _ => exact pairwise_singleton _ _
  · intro n hn m hm
    obtain ⟨x, hx, rfl⟩ := mem_map.1 hn
    obtain ⟨y, hy, rfl⟩ := mem_map.1 hm
    exact hfresh y hy x hx

-- ===== the settled part

/-- What ties the last delivered records to the map. -/
structure Settled (w : World K V ε) : Prop where
  dirty : ∀ {q : Nat} {a : Writer K V}, w.writers[q]? = some a → a.queueDirty = true
  held : ∀ {k : K} {r : ValueRecord V} {x : Landed K V},
    w.cache.map k = some r → lastLanded w.landed k = some x → x.recordOf ∈ w.accepted ∨ Underway w x
  cleaning : ∀ {q : Nat} {g : Flusher K V ε}, w.flushers[q]? = some g →
    ∀ e ∈ g.pc.cleaning, ∃ x ∈ w.landed, e = x.entryOf ∧ x.recordOf ∈ w.accepted
  removing : ∀ {q : Nat} {g : Flusher K V ε} {k : K},
    w.flushers[q]? = some g → g.pc.removing = some k →
      ∃ r, lastDelivered w.accepted k = some r ∧ r.value = none
  shown : ∀ {q : Nat} {g : Flusher K V ε}, w.flushers[q]? = some g →
    ∀ r ∈ collected g.records g.pc, ∃ m, w.cache.map r.key = some m
  gone : ∀ {k : K}, w.cache.map k = none → lastLanded w.landed k = none
      ∨ ∃ r, lastDelivered w.accepted k = some r ∧ r.value = none

include hf h in
/-- The last delivered record of a key the map does not show stays. -/
theorem Settled.last_kept (hd : Settled w) (hnone : w.cache.map k = none) :
    lastDelivered (w.accepted ++ accepted) k = lastDelivered w.accepted k := by
  refine lastOf_append_other fun r hr hkey => ?_
  rcases h.accepted_cases with hnil | ⟨-, hpc, hrecords, -⟩
  · rw [hnil] at hr
    cases hr
  rw [hrecords] at hr
  obtain ⟨m, hm⟩ := hd.shown hf r (by rw [hpc]; exact hr)
  rw [hkey, hnone] at hm
  cases hm

include hf h in
theorem Settled.flushes (hd : Settled w) (hs : Sequence w) (hi : ThreadInv w) :
    Settled (w.flushed p c f' accepted) := by
  -- a flusher at a removal is the only one under way
  have hremoves : ∀ {q : Nat} {g : Flusher K V ε} {k : K},
      w.flushers[q]? = some g → g.pc.removing = some k →
      accepted = [] := by
    intro q g k hg hremove
    rcases h.accepted_cases with hnil | ⟨-, hpc, -, -⟩
    · exact hnil
    have hactive := (of_removing g.records hremove).1
    have hqp : q = p := hs.single hg hf hactive (by rw [hpc]; rfl)
    subst hqp
    cases hf.symm.trans hg
    rw [hpc] at hremove
    cases hremove
  constructor
  · exact hd.dirty
  · intro k r x hr hlast
    rcases h.map_cases k with heq | ⟨hnone, -⟩
    · rw [heq] at hr
      rcases hd.held hr hlast with hsent | hunder
      · exact Or.inl (mem_append_left _ hsent)
      obtain ⟨hx, hkey⟩ := lastLanded_mem hlast
      obtain ⟨y, hlast', hversion, -⟩ := hi.stored hr
      cases hlast.symm.trans hlast'
      refine hi.underway_flushes hf h hx ?_ hunder
      exact ⟨r, by rw [hkey]; exact hr, hversion⟩
    · cases hnone.symm.trans hr
  · intro q g hg e he
    rcases getElem?_set_cases hg with ⟨rfl, rfl⟩ | ⟨-, hold⟩
    · rcases h.cleaning_cases he with hbefore | ⟨hacc, hmem⟩
      · obtain ⟨x, hx, heq, hsent⟩ := hd.cleaning hf e hbefore
        exact ⟨x, hx, heq, mem_append_left _ hsent⟩
      obtain ⟨d, hdmem, rfl⟩ := mem_map.1 hmem
      obtain ⟨x, hx, heq, hrec⟩ := (hi.flushers hf).drained_mem d hdmem
      refine ⟨x, hx, heq, mem_append_right _ ?_⟩
      rw [hacc]
      exact hrec
    · obtain ⟨x, hx, heq, hsent⟩ := hd.cleaning hold e he
      exact ⟨x, hx, heq, mem_append_left _ hsent⟩
  · intro q g k hg hremove
    rcases getElem?_set_cases hg with ⟨rfl, rfl⟩ | ⟨-, hold⟩
    · rcases h.removing_cases hremove with hbefore | ⟨entry, hentry, r, hkey, hr, hv, hnone⟩
      · show ∃ r, lastDelivered (w.accepted ++ accepted) k = some r ∧ _
        rw [hremoves hf hbefore, append_nil]
        exact hd.removing hf hbefore
      -- the tombstone is the last landed write, and was delivered
      obtain ⟨x, hx, rfl, hsent⟩ := hd.cleaning hf entry hentry
      obtain ⟨y, hlast, hversion, hvalue⟩ := hi.stored hr
      have hxy : y = x := by
        refine hi.unique y (lastLanded_mem hlast).1 x hx ?_
        exact hversion.symm.trans hv
      subst hxy
      have hacc : accepted = [] := by
        rcases h.accepted_cases with hnil | ⟨-, hpc, -, -⟩
        · exact hnil
        · rw [hpc] at hentry
          cases hentry
      show ∃ r, lastDelivered (w.accepted ++ accepted) k = some r ∧ _
      rw [hacc, append_nil]
      refine ⟨y.recordOf, ?_, hvalue.symm.trans hnone⟩
      have hafter : LandingOrder w.landed w.accepted :=
        hs.after.sublist (sublist_append_left _ _)
      exact hafter.last hs.nodup hlast hsent
    · show ∃ r, lastDelivered (w.accepted ++ accepted) k = some r ∧ _
      rw [hremoves hold hremove, append_nil]
      exact hd.removing hold hremove
  · intro q g hg r hr
    have hbefore : ∃ m, w.cache.map r.key = some m := by
      rcases getElem?_set_cases hg with ⟨rfl, rfl⟩ | ⟨-, hold⟩
      · rcases h.stream_cases with hsub | ⟨s, left, range, entry, m, -, hm, -, -, -, -, hcollected⟩
        · exact hd.shown hf r (hsub.subset (mem_append_right _ hr))
        rw [hcollected] at hr
        rcases mem_snoc.1 hr with hold | rfl
        · exact hd.shown hf r hold
        · exact ⟨m, hm⟩
      · exact hd.shown hold r hr
    rcases h.map_cases r.key with heq | ⟨-, hremove⟩
    · obtain ⟨m, hm⟩ := hbefore
      exact ⟨m, heq.trans hm⟩
    -- while a flusher removes a key nothing is collected
    exfalso
    obtain ⟨hactive, hempty⟩ := of_removing f.records hremove
    rcases getElem?_set_cases hg with ⟨rfl, rfl⟩ | ⟨hqp, hold⟩
    · rcases h.stream_cases with hsub | ⟨s, left, range, entry, m, hpc, -⟩
      · rw [hempty] at hsub
        cases hsub.subset (mem_append_right _ hr)
      · rw [hpc] at hremove
        cases hremove
    · rw [hs.others_nil hf hactive q g hqp hold] at hr
      cases hr
  · intro k hnone
    show lastLanded w.landed k = none ∨ ∃ r, lastDelivered (w.accepted ++ accepted) k = some r ∧ _
    rcases h.map_cases k with heq | ⟨-, hremove⟩
    · have hbefore : w.cache.map k = none := heq.symm.trans hnone
      rw [hd.last_kept hf h hbefore]
      exact hd.gone hbefore
    · rw [hremoves hf hremove, append_nil]
      exact Or.inr (hd.removing hf hremove)

theorem Settled.writes (hd : Settled w) (ha : w.writers[p]? = some a)
    (h : WriterMoves w.cache a full c pc landed) :
    Settled (w.wrote p a c pc landed) := by
  have hunderway := fun x => underway_writes (x := x) ha h
  -- the map and the last landed write of a key change together
  have hkey : ∀ k, (c.map k = w.cache.map k
        ∧ lastLanded (w.landed ++ landed) k = lastLanded w.landed k)
      ∨ ((∃ r, c.map k = some r) ∧ ∃ x, lastLanded (w.landed ++ landed) k = some x
          ∧ Underway (w.wrote p a c pc landed) x) := by
    intro k
    cases h with
    | lands n hpc hfull =>
      rw [lastLanded_append]
      by_cases hk : a.key = k
      · refine Or.inr ⟨⟨⟨a.value, n, n⟩, ?_⟩, _, if_pos hk, underway_lands ha n (hd.dirty ha)⟩
        rw [hk]
        exact update_self _ _ _
      · exact Or.inl ⟨update_of_ne (Ne.symm hk) _ _, if_neg hk⟩
    | ticks _ | refused _ _ | pushes _ _ | rests =>
      rw [append_nil]
      exact Or.inl ⟨rfl, rfl⟩
  constructor
  · intro q b hb
    have hdirty : a.queueDirty = true := hd.dirty ha
    rcases getElem?_set_cases hb with ⟨-, rfl⟩ | ⟨-, hold⟩
    · exact hdirty
    · exact hd.dirty hold
  · intro k r x hr hlast
    rcases hkey k with ⟨hmap, hsame⟩ | ⟨-, y, hy, hunder⟩
    · rcases hd.held (hmap.symm.trans hr) (hsame.symm.trans hlast)
        with hsent | hunder
      · exact Or.inl hsent
      · exact Or.inr (hunderway x hunder)
    · cases hlast.symm.trans hy
      exact Or.inr hunder
  · intro q g hg e he
    obtain ⟨x, hx, heq, hsent⟩ := hd.cleaning hg e he
    exact ⟨x, mem_append_left _ hx, heq, hsent⟩
  · exact hd.removing
  · intro q g hg r hr
    obtain ⟨m, hm⟩ := hd.shown hg r hr
    rcases hkey r.key with ⟨hmap, -⟩ | ⟨hsome, -⟩
    · exact ⟨m, hmap.trans hm⟩
    · exact hsome
  · intro k hnone
    rcases hkey k with ⟨hmap, hsame⟩ | ⟨⟨r, hr⟩, -⟩
    · rcases hd.gone (hmap.symm.trans hnone) with hlast | hlast
      · exact Or.inl (hsame.trans hlast)
      · exact Or.inr hlast
    · cases hnone.symm.trans hr

-- ===== whole runs

/-- The invariants that need one flusher, with those they rest on. -/
structure OrderInv (w : World K V ε) : Prop where
  thread : ThreadInv w
  token : TokenInv w
  sequence : Sequence w
  settled : Settled w

omit [DecidableEq K] in
theorem stream_beginsFlush (range : List Nat) (idleTicks maxRecords : Nat) : stream { w with
      flushers := w.flushers ++ [flushCall range idleTicks maxRecords] }
      = stream w := by
  unfold stream
  rw [flatMap_append]
  exact congrArg _ (append_nil _)

variable {action : Action K V ε} {w' : World K V ε}

/-- A write begins. -/
theorem OrderInv.begins (ho : OrderInv w) (hdirty : a.queueDirty = true)
    (heq : (worldStep w action).1 = { w with writers := w.writers ++ [a] }) :
    OrderInv (worldStep w action).1 := by
  have h := worldStep_moves w action
  refine ⟨ho.thread.step h, ho.token.step ho.thread h, ?_, ?_⟩
  · rw [heq]
    exact ⟨ho.sequence.single, ho.sequence.nodup, ho.sequence.after⟩
  · rw [heq]
    have hd := ho.settled
    refine ⟨?_, ?_, hd.cleaning, hd.removing, hd.shown, hd.gone⟩
    · intro q b hb
      rcases getElem?_append_cases hb with hold | rfl
      · exact hd.dirty hold
      · exact hdirty
    · intro k r x hr hlast
      rcases hd.held hr hlast with hsent | hunder
      · exact Or.inl hsent
      · exact Or.inr (hunder.begins a)

/-- A flush begins when no other is under way. -/
theorem OrderInv.beginsFlush (ho : OrderInv w) (range : List Nat) (idleTicks maxRecords : Nat)
    (hall : ∀ f ∈ w.flushers, f.pc.returned = true)
    (heq : (worldStep w action).1 = { w with
      flushers := w.flushers ++
        [flushCall range idleTicks maxRecords] }) :
    OrderInv (worldStep w action).1 := by
  have h := worldStep_moves w action
  refine ⟨ho.thread.step h, ho.token.step ho.thread h, ?_, ?_⟩
  · rw [heq]
    -- whoever has not returned is the new one
    have hnew : ∀ {q : Nat} {g : Flusher K V ε},
        (w.flushers ++ [flushCall range idleTicks maxRecords])[q]?
          = some g → g.pc.returned = false → q = w.flushers.length := by
      intro q g hg hactive
      have hlt := (List.getElem?_eq_some_iff.1 hg).1
      rw [List.length_append, List.length_singleton] at hlt
      by_cases hq : q < w.flushers.length
      · rw [List.getElem?_append_left hq] at hg
        have htrue := hall g (List.mem_of_getElem? hg)
        rw [hactive] at htrue
        cases htrue
      · omega
    refine ⟨?_, ho.sequence.nodup, ?_⟩
    · intro q q' g g' hg hg' ha ha'
      exact (hnew hg ha).trans (hnew hg' ha').symm
    · rw [stream_beginsFlush]
      exact ho.sequence.after
  · rw [heq]
    have hd := ho.settled
    refine ⟨hd.dirty, ?_, ?_, ?_, ?_, hd.gone⟩
    · intro k r x hr hlast
      rcases hd.held hr hlast with hsent | hunder
      · exact Or.inl hsent
      · exact Or.inr (hunder.beginsFlush _)
    · intro q g hg
      rcases getElem?_append_cases hg with hold | rfl
      · exact hd.cleaning hold
      · nofun
    · intro q g k hg
      rcases getElem?_append_cases hg with hold | rfl
      · exact hd.removing hold
      · nofun
    · intro q g hg
      rcases getElem?_append_cases hg with hold | rfl
      · exact hd.shown hold
      · nofun

theorem OrderInv.step (ho : OrderInv w) (action : Action K V ε)
    (hone : OneFlusher w action) : OrderInv (worldStep w action).1 := by
  have hthread := ho.thread.step (worldStep_moves w action)
  have htoken := ho.token.step ho.thread (worldStep_moves w action)
  cases action with
  | put _ _ | delete _ => exact ho.begins rfl rfl
  | loadClean key value => cases hone
  | flushIdle idleTicks maxRecords => exact ho.beginsFlush _ idleTicks maxRecords hone rfl
  | flushShardIdle s idleTicks maxRecords =>
    by_cases hs : s < w.cache.shardCount
    · refine ho.beginsFlush [s] idleTicks maxRecords hone ?_
      unfold worldStep
      dsimp only
      rw [if_pos hs]
    unfold worldStep
    dsimp only
    rw [if_neg hs]
    exact ho
  | writer p full =>
    unfold worldStep at hthread htoken ⊢
    dsimp only at hthread htoken ⊢
    split
    next => exact ho
    next a ha =>
      simp only [ha] at hthread htoken
      have h := writerStep_moves w.cache w.queueCapacity a full
      exact ⟨hthread, htoken, ho.sequence.writes ho.thread ha h, ho.settled.writes ha h⟩
  | flusher p backend =>
    unfold worldStep at hthread htoken ⊢
    dsimp only at hthread htoken ⊢
    split
    next => exact ho
    next f hf =>
      simp only [hf] at hthread htoken
      have h := flusherStep_moves w.cache w.queueCapacity f backend
      exact ⟨hthread, htoken, ho.sequence.flushes hf h ho.token ho.thread,
        ho.settled.flushes hf h ho.sequence ho.thread⟩

/-- Versions rise along the stream, up to what the map shows. -/
structure Rising (w : World K V ε) : Prop where
  increasing : Increasing (stream w)
  below : ∀ {k : K} {r : ValueRecord V}, w.cache.map k = some r →
    ∀ s ∈ stream w, s.key = k → s.version ≤ r.version

include hf h in
theorem Rising.flushes (hup : Rising w) (ho : OrderInv w) : Rising (w.flushed p c f' accepted) := by
  rcases ho.sequence.stream_flushes hf h with hsub | ⟨s, left, range,
    entry, r, hpc, hr, hv, rfl, heq⟩
  · refine ⟨hup.increasing.sublist hsub, ?_⟩
    intro k m hm b hb hkey
    rcases h.map_cases k with hsame | ⟨hnone, -⟩
    · exact hup.below (hsame.symm.trans hm) b (hsub.subset hb) hkey
    · cases hnone.symm.trans hm
  obtain ⟨x, hlast, hentry, hrec⟩ := ho.thread.current hf hpc hr hv
  have hx := (lastLanded_mem hlast).1
  constructor
  · rw [heq]
    refine pairwise_append.2 ⟨hup.increasing,
      pairwise_singleton _ _, fun a ha b hb hkey => ?_⟩
    cases mem_singleton.1 hb
    have hle := hup.below hr a ha hkey
    rw [hv] at hle
    refine Nat.lt_of_le_of_ne hle fun hversion => ?_
    obtain ⟨y, hy, rfl⟩ := mem_stream ho.token ha
    have hyx : y = x := by
      refine ho.thread.unique y hy x hx ?_
      rw [hentry] at hversion
      exact hversion
    subst hyx
    exact ho.sequence.unsent ho.token ho.thread hf hpc hx hentry ha rfl
  · intro k m hm b hb hkey
    rw [heq] at hb
    rcases mem_snoc.1 hb with hold | rfl
    · exact hup.below hm b hold hkey
    cases hkey
    cases hr.symm.trans hm
    exact Nat.le_of_eq hv.symm

theorem Rising.writes (hup : Rising w) (ha : w.writers[p]? = some a)
    (h : WriterMoves w.cache a full c pc landed)
    (horder : InOrder w (.writer p full)) :
    Rising (w.wrote p a c pc landed) := by
  refine ⟨hup.increasing, ?_⟩
  cases h with
  | lands n hpc hfull =>
    intro k m hm b hb hkey
    have hm : update w.cache.map a.key (some ⟨a.value, n, n⟩) k = some m := hm
    by_cases hk : k = a.key
    · subst hk
      rw [update_self] at hm
      cases hm
      subst hfull
      have hticket : n ∈ a.pc.ticket := by rw [hpc]; rfl
      exact Nat.le_of_lt (horder a ha n hticket b hb hkey)
    · rw [update_of_ne hk] at hm
      exact hup.below hm b hb hkey
  | ticks _ | refused _ _ | pushes _ _ | rests => exact hup.below

theorem Rising.step (hup : Rising w) (ho : OrderInv w) (h : WorldMoves w action w')
    (horder : InOrder w action) : Rising w' := by
  cases h with
  | begins _ a hpc => exact ⟨hup.increasing, hup.below⟩
  | beginsFlush _ range idleTicks maxRecords =>
    constructor
    · rw [stream_beginsFlush]
      exact hup.increasing
    · rw [stream_beginsFlush]
      exact hup.below
  | idles _ => exact hup
  | writes p full a c pc landed ha h => exact hup.writes ha h horder
  | flushes p backend f c f' accepted hf h => exact hup.flushes hf h ho

omit [DecidableEq K] in
theorem dirtyShardIdx_lt (hcount : 0 < c.shardCount) (k : K) :
    c.dirtyShardIdx k < c.shardCount := by
  have hle : c.dirtyShardIdx k ≤ c.shardCount - 1 := Nat.and_le_right
  omega

theorem nextPowerOfTwo_pos (n : Nat) : 0 < nextPowerOfTwo n := by
  unfold nextPowerOfTwo
  split
  · omega
  · exact Nat.two_pow_pos _

/-- In a state at rest with empty queues the last delivered record of a
key is what the map shows. -/
theorem OrderInv.lastIsReadable (ho : OrderInv w)
    (hcount : 0 < w.cache.shardCount) (hquiet : Quiet w)
    (hdrained : Drained w.cache) : LastIsReadable w := by
  intro k
  have hafter : LandingOrder w.landed w.accepted :=
    ho.sequence.after.sublist (sublist_append_left _ _)
  rw [get_snd]
  cases hr : w.cache.map k with
  | some r =>
    obtain ⟨x, hlast, -, hvalue⟩ := ho.thread.stored hr
    have hsent : x.recordOf ∈ w.accepted := by
      rcases ho.settled.held hr hlast with hsent | hunder
      · exact hsent
      obtain ⟨s, hmem⟩ := hquiet.queued hunder
      have hs : s < w.cache.shardCount := by
        rw [ho.token.queued_home hmem]
        exact dirtyShardIdx_lt hcount _
      rw [hdrained s hs] at hmem
      cases hmem
    rw [hafter.last ho.sequence.nodup hlast hsent]
    exact hvalue
  | none =>
    rcases ho.settled.gone hr with hlast | ⟨r, hr, hnone⟩
    · -- a key that was never written was never delivered
      have hnil : lastDelivered w.accepted k = none := by
        refine lastOf_eq_none_iff.2 fun r hr hkey => ?_
        obtain ⟨x, hx, rfl⟩ := ho.token.sent r hr
        exact lastOf_eq_none_iff.1 hlast x hx hkey
      rw [hnil]
      rfl
    · rw [hr]
      exact hnone.symm

end

theorem orderInv_fresh (hash : K → UInt64) (shards queueCapacity : Nat) :
    OrderInv (fresh hash shards queueCapacity : World K V ε) where
  thread := threadInv_fresh hash shards queueCapacity
  token := tokenInv_fresh hash shards queueCapacity
  sequence := ⟨nofun, nodup_nil, List.Pairwise.nil⟩
  settled := ⟨nofun, nofun, nofun, nofun, nofun, fun _ => Or.inl rfl⟩

theorem shardCount_step (action : Action K V ε) :
    (worldStep w action).1.cache.shardCount = w.cache.shardCount := by
  have h := worldStep_moves w action
  generalize (worldStep w action).1 = w' at h ⊢
  cases h with
  | writes _ _ _ _ _ _ _ h | flushes _ _ _ _ _ _ _ h => cases h <;> rfl
  | begins _ _ _ | beginsFlush _ _ _ _ | idles _ => rfl

-- ===== across the tick order

/-- One whole put of the writer `p`. -/
def putThrough (p value : Nat) : List (Action Nat Nat Unit) :=
  [.put 1 value, .writer p false, .writer p false, .writer p false]

/-- One whole flush of the flusher `p`, of a queue with one entry. -/
def flushThrough (p : Nat) : List (Action Nat Nat Unit) :=
  .flushIdle 0 10 :: List.replicate 5 (.flusher p (.ok ()))

-- ===== any number of flushers

variable {w : World K V ε} {p : Nat} {f : Flusher K V ε} {r : FlushRecord K V}

/-- A flusher that calls the backend holds the entries of its batch. -/
theorem TokenInv.handed (ht : TokenInv w) (hf : w.flushers[p]? = some f) (hpc : f.pc = .flush)
    (hr : r ∈ f.records) : ∃ x ∈ w.landed, r = x.recordOf
      ∧ 0 < (hands f.drained f.pc).countP fun z => decide (z.2 = x.entryOf) := by
  obtain ⟨x, hx, heq, hmem⟩ := ht.matched hf r (by rw [hpc]; exact hr)
  obtain ⟨d, hd, hdx⟩ := mem_map.1 hmem
  refine ⟨x, hx, heq, ?_⟩
  rw [hpc]
  exact countP_pos_iff.2 ⟨d, hd, decide_eq_true hdx⟩

/-- In every interleaving of writes, loads and flushes, whatever fails:
the backend accepts records of landed writes only. No flusher hands it a
record that it has accepted, or that another flusher is handing over. -/
theorem batches_disjoint (hash : K → UInt64) (shards queueCapacity : Nat)
    (actions : List (Action K V ε)) :
    let w := Lib.exec worldStep (fresh hash shards queueCapacity) actions
    (∀ r ∈ w.accepted, ∃ x ∈ w.landed, r = x.recordOf)
      ∧ ∀ (p : Nat) f, w.flushers[p]? = some f → f.pc = .flush → ∀ r ∈ f.records,
        r ∉ w.accepted ∧ ∀ (q : Nat) g, q ≠ p → w.flushers[q]? = some g → g.pc = .flush →
          r ∉ g.records := by
  intro w
  obtain ⟨hi, ht⟩ : ThreadInv w ∧ TokenInv w := by
    refine exec_inv (fun w => ThreadInv w ∧ TokenInv w) (fun w action hw _ => ?_)
      ⟨threadInv_fresh .., tokenInv_fresh ..⟩ (guarded_true _ actions)
    have h := worldStep_moves w action
    exact ⟨hw.1.step h, hw.2.step hw.1 h⟩
  refine ⟨ht.sent, fun p f hf hpc r hr => ?_⟩
  obtain ⟨x, hx, rfl, hpos⟩ := ht.handed hf hpc hr
  let held := fun f : Flusher K V ε =>
    (hands f.drained f.pc).countP fun z => decide (z.2 = x.entryOf)
  refine ⟨fun hsent => ?_, fun q g hne hg hpc' hr' => ?_⟩
  · have hle : 0 < (w.flushers.map held).sum := Nat.lt_of_lt_of_le hpos (le_sum_map hf held)
    have hzero : _ + (w.flushers.map held).sum = 0 := ht.spent x hx hsent
    omega
  · obtain ⟨y, hy, heq, hpos'⟩ := ht.handed hg hpc' hr'
    cases hi.unique x hx y hy (congrArg FlushRecord.version heq)
    -- with the hands of the first one emptied, the second still has a token
    let empty : Flusher K V ε := { f with pc := .flush, drained := [] }
    have hrest : 0 < ((w.flushers.set p empty).map held).sum :=
      Nat.lt_of_lt_of_le hpos' (le_sum_map (getElem?_set_other hg hne.symm) held)
    have hadd : _ + held f = _ + 0 := sum_map_set_add (b := empty) hf held
    have hone : _ + (w.flushers.map held).sum ≤ 1 := ht.one x.entryOf
    have hheld : 0 < held f := hpos
    omega

end MemoryFirst.Core.WriteBehindCache
