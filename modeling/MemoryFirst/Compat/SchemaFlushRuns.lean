/-
Does the SQL copy of `schema_flush_sqlite.rs` end with the latest
documents, in whatever order and however often the records are flushed?

# The argument

The rows of a key are a register guarded by LSNs: an upsert is a put, a
delete empties it, and `InStep.flushRecords` says so of a flush. What
`mfs_lsn` guards against is therefore forgotten with the row: after a
delete, a put with a smaller LSN is inserted again. The copy converges
exactly when no key whose last record is a delete ends that way
(`copy_converges_iff`).
-/
import MemoryFirst.Compat.SchemaFlush
import MemoryFirst.Lib.Register
import MemoryFirst.Lib.Runs
import Mathlib.Data.List.MinMax

namespace MemoryFirst.Compat

open Lib Core Store Register SqliteFlushBackend Function List
open SchemaFlushRecord (lsn)

variable {schemas : String → Option Schema}

-- ===== the records a run applied

/-- The records of the batches that were committed. -/
def applied (history : List (List SchemaFlushRecord ×
    Except SqliteFlushError Unit)) : List SchemaFlushRecord :=
  history.flatMap fun (batch, answer) => if answer.isOk then batch else []

variable (collection : String) (key : List UInt8) (records : List SchemaFlushRecord)

/-- The records of one key. -/
def recordsAt : List SchemaFlushRecord :=
  records.filter fun r => r.collection = collection ∧ r.key = key

/-- A record as a write to the register of its key. -/
def SchemaFlushRecord.write (r : SchemaFlushRecord) : Write SchemaFlushRecord :=
  match r.op with
  | .put => .put r
  | .delete => .delete r.lsn

/-- The writes of one key, in the order applied. -/
def writesAt : List (Write SchemaFlushRecord) :=
  (recordsAt collection key records).map SchemaFlushRecord.write

/-- At most one record has a given key and LSN. -/
def OneEach : Prop :=
  ∀ r ∈ records, ∀ r' ∈ records, r.collection = r'.collection →
    r.key = r'.key → r.lsn = r'.lsn → r = r'

/-- The rows of two puts have the same primary value. -/
def samePrimary (schemas : String → Option Schema) (r r' : SchemaFlushRecord) : Bool :=
  match planRecord schemas r, planRecord schemas r' with
  | .ok (.upsert columns row), .ok (.upsert _ row') =>
    shareColumn columns SqlColumn.primary row row'
  | _, _ => false

/-- The key of a put stands for the primary value of its document. -/
def Keyed (schemas : String → Option Schema) (records : List SchemaFlushRecord) : Prop :=
  ∀ r ∈ records, ∀ r' ∈ records, r.op = .put → r'.op = .put → r.collection = r'.collection →
      (samePrimary schemas r r' = true ↔ r.key = r'.key)

-- ===== what the copy should hold

variable (b : SqliteFlushBackend)

def rowsAt (collection : String) (key : List UInt8) : List SqlRow :=
  (b.tables collection).filter fun row => row.key = key

/-- The rows are the one planned for a record, or none. -/
def Shows (schemas : String → Option Schema) (rows : List SqlRow) : Option SchemaFlushRecord → Prop
  | none => rows = []
  | some r => ∃ columns row, planRecord schemas r = .ok (.upsert columns row) ∧ rows = [row]

/-- The record of a key with the highest LSN, if it is a put. -/
def latest : Option SchemaFlushRecord :=
  ((recordsAt collection key records).argmax lsn).filter fun r => r.op = .put

/-- Every key has the document of its latest record, and the watermark is
the largest LSN. -/
def Converged (records : List SchemaFlushRecord) : Prop :=
  (∀ collection key, Shows b.schemas (rowsAt b collection key)
    (latest collection key records)) ∧ b.watermark = maxLsn records

-- ===== one statement

theorem lsnToI64_eq_ok {lsn n : Nat} (h : lsnToI64 lsn = .ok n) : n = lsn := by
  unfold lsnToI64 at h
  split at h
  · cases h
    rfl
  · cases h

variable {r : SchemaFlushRecord} {s : SqlStatement}

/-- What a record is planned into. -/
theorem planRecord_eq_ok (h : planRecord schemas r = .ok s) :
    (r.op = .put ∧ ∃ columns row, s = .upsert columns row ∧ row.key = r.key ∧ row.lsn = r.lsn)
      ∨ (r.op = .delete ∧ s = .delete r.key r.lsn) := by
  unfold planRecord at h
  split at h
  · cases h
  cases hop : r.op with
  | put =>
    rw [hop] at h
    obtain ⟨columns, _, h⟩ := bind_eq_ok.1 (mapError_eq_ok.1 h)
    obtain ⟨_, _, h⟩ := bind_eq_ok.1 h
    obtain ⟨row, hrow, h⟩ := bind_eq_ok.1 h
    cases h
    unfold upsertValues at hrow
    split at hrow
    · cases hrow
    obtain ⟨_, _, hrow⟩ := bind_eq_ok.1 hrow
    obtain ⟨_, _, hrow⟩ := bind_eq_ok.1 hrow
    obtain ⟨lsn, hlsn, hrow⟩ := bind_eq_ok.1 hrow
    cases hrow
    exact Or.inl ⟨rfl, columns, _, rfl, rfl, lsnToI64_eq_ok hlsn⟩
  | delete =>
    rw [hop] at h
    obtain ⟨_, _, h⟩ := bind_eq_ok.1 (mapError_eq_ok.1 h)
    obtain ⟨lsn, hlsn, h⟩ := bind_eq_ok.1 h
    cases h
    cases lsnToI64_eq_ok hlsn
    exact Or.inr ⟨rfl, rfl⟩

/-- The row that holds a record has its key and its LSN. -/
theorem Shows.row {rows : List SqlRow} (h : Shows schemas rows (some r)) :
    ∃ row, rows = [row] ∧ row.key = r.key ∧ row.lsn = r.lsn := by
  obtain ⟨columns, row, hplan, hrows⟩ := h
  rcases planRecord_eq_ok hplan with ⟨_, _, _, heq, hkey, hlsn⟩ | ⟨_, heq⟩
  · cases heq
    exact ⟨row, hrows, hkey, hlsn⟩
  · cases heq

section

variable {t t' : List SqlRow} (held : List UInt8 → Option SchemaFlushRecord) {k : List UInt8}

/-- The rows of the other keys are not those of this one. -/
theorem filter_ne_key (hk : r.key ≠ k) :
    (t.filter fun x => !decide (x.key = r.key)).filter (·.key = k) = t.filter (·.key = k) := by
  rw [filter_filter]
  refine filter_congr fun x _ => ?_
  by_cases hx : x.key = k
  · simp [hx, Ne.symm hk]
  · simp [hx]

/-- An upsert puts its record in the register of its key. -/
theorem shows_upsert {columns : List SqlColumn} {row : SqlRow}
    (hplan : planRecord schemas r = .ok (.upsert columns row))
    (hkey : row.key = r.key) (hlsn : row.lsn = r.lsn)
    (hexec : execute t (.upsert columns row) = some t')
    (hprimary : ∀ x ∈ t, shareColumn columns SqlColumn.primary row x = decide (x.key = r.key))
    (h : ∀ k, Shows schemas (t.filter (·.key = k)) (held k)) :
    Shows schemas (t'.filter (·.key = k))
      (if r.key = k then apply lsn (held k) (.put r)
        else held k) := by
  have hothers : (t.filter fun x =>
        !shareColumn columns SqlColumn.primary row x)
      = t.filter fun x => !decide (x.key = r.key) :=
    filter_congr fun x hx => by rw [hprimary x hx]
  simp only [execute] at hexec
  rw [hothers, ← head?_filter, filter_congr hprimary] at hexec
  have hr := h r.key
  split at hexec
  · -- the row in conflict is not older: the table stays as it is
    rename_i hnewer
    cases hexec
    by_cases hk : r.key = k
    · subst hk
      cases hheld : held r.key with
      | none =>
        rw [hheld] at hr
        rw [show t.filter _ = [] from hr] at hnewer
        cases hnewer
      | some old =>
        rw [hheld] at hr
        obtain ⟨orow, horow, _, hold⟩ := hr.row
        have hle : ¬old.lsn < r.lsn := by
          simpa [horow, hold, hlsn] using hnewer
        simpa [apply, hle] using hr
    · rw [if_neg hk]
      exact h k
  · rename_i hnewer
    split at hexec
    · cases hexec
    cases hexec
    by_cases hk : r.key = k
    · subst hk
      have hput : apply lsn (held r.key) (.put r) = some r := by
        cases hheld : held r.key with
        | none => rfl
        | some old =>
          rw [hheld] at hr
          obtain ⟨orow, horow, _, hold⟩ := hr.row
          refine if_pos ?_
          simpa [horow, hold, hlsn] using hnewer
      rw [if_pos rfl, hput]
      refine ⟨columns, row, hplan, ?_⟩
      simp [hkey]
    · rw [if_neg hk, filter_cons_of_neg (by simp [hkey, hk]), filter_ne_key hk]
      exact h k

/-- A delete empties the register of its key, if it holds no later
record. -/
theorem shows_delete (h : Shows schemas (t.filter (·.key = k)) (held k)) :
    Shows schemas ((t.filter fun x =>
        !(decide (x.key = r.key) && decide (x.lsn ≤ r.lsn))).filter (·.key = k))
      (if r.key = k then apply lsn (held k) (.delete r.lsn)
        else held k) := by
  rw [filter_comm]
  by_cases hk : r.key = k
  · subst hk
    rw [if_pos rfl]
    cases hheld : held r.key with
    | none =>
      rw [hheld] at h
      rw [show t.filter _ = [] from h]
      rfl
    | some old =>
      rw [hheld] at h
      obtain ⟨row, hrow, _, hlsn⟩ := h.row
      have hkey : row.key = r.key := by
        have hmem : row ∈ t.filter (·.key = r.key) := by simp [hrow]
        simpa using of_mem_filter hmem
      rw [hrow] at h ⊢
      by_cases hle : old.lsn ≤ r.lsn
      · simp [apply, hle, Shows, hkey, hlsn]
      · rw [filter_cons_of_pos (by simp [hlsn, hle])]
        simpa [apply, hle] using h
  · rw [if_neg hk, filter_eq_self.2]
    · exact h
    · intro x hx
      have hkey : x.key = k := by simpa using of_mem_filter hx
      simp [hkey, Ne.symm hk]

end

-- ===== one batch

/-- The rows of every key are what the writes of the key leave. -/
def Follows (schemas : String → Option Schema)
    (tables : String → List SqlRow) (records : List SchemaFlushRecord) :
    Prop :=
  ∀ collection key, Shows schemas ((tables collection).filter fun row => row.key = key)
    (run lsn none (writesAt collection key records))

theorem writesAt_append (c : String) (k : List UInt8) (l l' : List SchemaFlushRecord) :
    writesAt c k (l ++ l') = writesAt c k l ++ writesAt c k l' := by
  simp [writesAt, recordsAt]

variable {l : List SchemaFlushRecord} {c : String} {k : List UInt8}

theorem put_mem_writesAt :
    .put r ∈ writesAt c k l ↔ r ∈ l ∧ r.collection = c ∧ r.key = k ∧ r.op = .put := by
  have hput : ∀ r' : SchemaFlushRecord, r'.write = .put r ↔ r' = r ∧ r.op = .put := by
    intro r'
    unfold SchemaFlushRecord.write
    split <;> rename_i hop
    · constructor
      · intro h
        cases h
        exact ⟨rfl, hop⟩
      · intro h
        rw [h.1]
    simp only [reduceCtorEq, false_iff]
    rintro ⟨rfl, h⟩
    rw [hop] at h
    cases h
  simp [writesAt, recordsAt, hput, and_assoc]

theorem Keyed.of_append {l l' : List SchemaFlushRecord}
    (h : Keyed schemas (l ++ l')) : Keyed schemas l :=
  fun r hr r' hr' => h r (mem_append_left l' hr) r' (mem_append_left l' hr')

variable {tables : String → List SqlRow}

/-- A row of the copy is the row of a put that was applied. -/
theorem Follows.mem (h : Follows schemas tables l) {x : SqlRow} (hx : x ∈ tables c) :
    ∃ r ∈ l, r.op = .put ∧ r.collection = c ∧ r.key = x.key ∧
      ∃ columns, planRecord schemas r = .ok (.upsert columns x) := by
  have hmem : x ∈ (tables c).filter fun row => row.key = x.key := by
    simp [hx]
  have hheld := h c x.key
  cases hrun : run lsn none (writesAt c x.key l) with
  | none =>
    rw [hrun] at hheld
    rw [show filter _ _ = [] from hheld] at hmem
    cases hmem
  | some r =>
    rw [hrun] at hheld
    obtain ⟨columns, row, hplan, hrows⟩ := hheld
    rw [hrows, mem_singleton] at hmem
    subst hmem
    rcases put_mem_of_run hrun with hnone | hput
    · cases hnone
    · obtain ⟨hr, hc, hk, hop⟩ := put_mem_writesAt.1 hput
      exact ⟨r, hr, hop, hc, hk, columns, hplan⟩

/-- One record keeps the copy in step. -/
theorem Follows.record {t : List SqlRow} (h : Follows schemas tables l)
    (hkeyed : Keyed schemas (l ++ [r]))
    (hplan : planRecord schemas r = .ok s)
    (hexec : execute (tables r.collection) s = some t) :
    Follows schemas (update tables r.collection t) (l ++ [r]) := by
  intro c k
  rw [writesAt_append, run, foldl_append]
  by_cases hc : r.collection = c
  · subst hc
    rw [update_self]
    have hlast : writesAt r.collection k [r] = if r.key = k then [r.write] else [] := by
      by_cases hk : r.key = k <;> simp [writesAt, recordsAt, hk]
    rw [hlast, apply_ite (foldl (apply lsn) _)]
    unfold SchemaFlushRecord.write
    rcases planRecord_eq_ok hplan with
      ⟨hop, columns, row, rfl, hkey, hlsn⟩ | ⟨hop, rfl⟩
    · rw [hop]
      refine shows_upsert (fun k => run _ none (writesAt r.collection k l))
        hplan hkey hlsn hexec (fun x hx => ?_) (h r.collection)
      -- the row is that of a put applied before, whose key is its own
      obtain ⟨r', hr', hop', hc', hk', columns', hplan'⟩ := h.mem hx
      have hiff := hkeyed r (by simp) r' (by simp [hr']) hop hop' hc'.symm
      simp only [samePrimary, hplan, hplan', hk'] at hiff
      rw [Bool.eq_iff_iff, hiff, decide_eq_true_iff]
      exact eq_comm
    · rw [hop]
      cases hexec
      exact shows_delete (fun k => run _ none (writesAt r.collection k l)) (h r.collection k)
  · rw [update_of_ne (Ne.symm hc)]
    have hnone : writesAt c k [r] = [] := by simp [writesAt, recordsAt, hc]
    rw [hnone]
    exact h c k

/-- The records of a batch, one after another. -/
theorem Follows.batch {tables tables' : String → List SqlRow} {l batch : List SchemaFlushRecord}
    {planned : List (String × SqlStatement)}
    (h : Follows schemas tables l) (hkeyed : Keyed schemas (l ++ batch))
    (hplan : (batch.mapM fun record => do
      let statement ← planRecord schemas record
      return (record.collection, statement)) = .ok planned)
    (hexec : executeAll tables planned = .ok tables') :
    Follows schemas tables' (l ++ batch) := by
  induction batch generalizing l tables planned with
  | nil =>
    cases hplan
    cases hexec
    simpa using h
  | cons r batch ih =>
    rw [mapM_cons] at hplan
    obtain ⟨first, hfirst, hplan⟩ := bind_eq_ok.1 hplan
    obtain ⟨s, hs, hfirst⟩ := bind_eq_ok.1 hfirst
    obtain ⟨rest, hrest, hplan⟩ := bind_eq_ok.1 hplan
    cases hfirst
    cases hplan
    unfold executeAll at hexec
    split at hexec
    · cases hexec
    · rename_i t ht
      rw [append_cons] at hkeyed ⊢
      exact ih (h.record hkeyed.of_append hs ht) hkeyed hrest hexec

-- ===== whole runs

theorem maxLsn_append (l l' : List SchemaFlushRecord) :
    maxLsn (l ++ l') = max (maxLsn l) (maxLsn l') := by
  unfold maxLsn
  rw [map_append, foldl_append]
  have hassoc (m : Nat) (ns : List Nat) :
      ns.foldl max (max m 0) = max m (ns.foldl max 0) := foldl_assoc
  rw [← hassoc, Nat.max_zero]

/-- The copy, and what has been applied to it so far. -/
def InStep (schemas : String → Option Schema) (b : SqliteFlushBackend)
    (records : List SchemaFlushRecord) : Prop :=
  b.schemas = schemas ∧ b.watermark = maxLsn records ∧
    (Keyed schemas records → Follows schemas b.tables records)

theorem InStep.transaction {b b' : SqliteFlushBackend}
    {l batch : List SchemaFlushRecord} (h : InStep schemas b l)
    (hb : b.transaction batch = .ok b') :
    InStep schemas b' (l ++ batch) := by
  obtain ⟨rfl, hwatermark, hfollows⟩ := h
  obtain ⟨planned, hplan, hb⟩ := bind_eq_ok.1 hb
  obtain ⟨tables, hexec, hb⟩ := bind_eq_ok.1 hb
  obtain ⟨candidate, hcandidate, hb⟩ := bind_eq_ok.1 hb
  cases hb
  cases lsnToI64_eq_ok (mapError_eq_ok.1 hcandidate)
  refine ⟨rfl, ?_, fun hkeyed => ?_⟩
  · rw [maxLsn_append, ← hwatermark]
  · exact (hfollows hkeyed.of_append).batch hkeyed hplan hexec

/-- A flush keeps the copy in step, whatever it answers. -/
theorem InStep.flushRecords {b : SqliteFlushBackend}
    {history : List (List SchemaFlushRecord × Except SqliteFlushError Unit)}
    {batch : List SchemaFlushRecord} (h : InStep schemas b (applied history)) :
    InStep schemas (b.flushRecords batch).1
      (applied (history ++ [(batch, (b.flushRecords batch).2)])) := by
  have happlied : ∀ answer, applied (history ++ [(batch, answer)])
      = applied history ++ if answer.isOk then batch else [] := by
    intro answer
    simp [applied]
  rw [happlied]
  unfold SqliteFlushBackend.flushRecords
  split
  · rename_i hempty
    rw [isEmpty_iff.1 hempty, ite_self, append_nil]
    exact h
  split
  · rename_i b' hb
    exact h.transaction hb
  · show InStep schemas b (applied history ++ [])
    rw [append_nil]
    exact h

variable (schemas : String → Option Schema) (batches : List (List SchemaFlushRecord))

/-- The records the batches applied to a new copy. -/
def appliedBy : List SchemaFlushRecord :=
  applied (trace flushRecords (ready schemas) batches)

theorem inStep_run :
    InStep schemas (exec flushRecords (ready schemas) batches) (appliedBy schemas batches) :=
  exec_sim (fun b history => InStep schemas b (applied history)) (fun _ _ _ h _ => h.flushRecords)
    (s := ready schemas) (h := [])
    ⟨rfl, rfl, fun _ _ _ => rfl⟩ (guarded_true _ batches)

/-- The latest put of a key ends in its register. -/
theorem run_of_latest (hone : OneEach l) (h : latest c k l = some r) :
    run lsn none (writesAt c k l) = some r := by
  obtain ⟨hmax, hop⟩ := Option.filter_eq_some_iff.1 h
  have hop : r.op = .put := of_decide_eq_true hop
  have hplace : ∀ r' ∈ recordsAt c k l, r' ∈ l ∧ r'.collection = c ∧ r'.key = k := by
    intro r' hr'
    simpa [recordsAt] using hr'
  have hmem := argmax_mem hmax
  obtain ⟨hr, hc, hk⟩ := hplace r hmem
  refine run_eq_some (fun w hw => ?_) nofun (Or.inr (put_mem_writesAt.2 ⟨hr, hc, hk, hop⟩))
  obtain ⟨r', hr', rfl⟩ := mem_map.1 hw
  have hle := le_of_mem_argmax hr' hmax
  obtain ⟨hmem', hc', hk'⟩ := hplace r' hr'
  have hsame : r'.lsn = r.lsn → r' = r :=
    hone r' hmem' r hr (hc'.trans hc.symm) (hk'.trans hk.symm)
  unfold SchemaFlushRecord.write
  split <;> rename_i hop'
  · exact (Nat.lt_or_eq_of_le hle).imp_right hsame
  · refine Nat.lt_of_le_of_ne hle fun heq => ?_
    rw [hsame heq, hop] at hop'
    cases hop'

/-- The copy converges exactly when each key whose highest record is a
delete has, after every put applied to it, a delete that is not below the
put. -/
theorem copy_converges_iff (schemas : String → Option Schema)
    (batches : List (List SchemaFlushRecord))
    (hone : OneEach (appliedBy schemas batches))
    (hkeyed : Keyed schemas (appliedBy schemas batches)) :
    Converged (exec flushRecords (ready schemas) batches) (appliedBy schemas batches) ↔
      ∀ collection key, latest collection key (appliedBy schemas batches) = none →
          Cleared lsn (writesAt collection key (appliedBy schemas batches)) := by
  obtain ⟨hschemas, hwatermark, hfollows⟩ := inStep_run schemas batches
  have hfollows := hfollows hkeyed
  unfold Converged
  rw [hschemas]
  constructor
  · intro h c k hlatest
    have hrows := h.1 c k
    rw [hlatest] at hrows
    refine (run_eq_none_iff (r := none)).1 ?_ |>.2
    by_contra hrun
    obtain ⟨r, hrun⟩ := Option.ne_none_iff_exists'.1 hrun
    have hheld := hfollows c k
    rw [hrun] at hheld
    obtain ⟨row, hrow, _⟩ := hheld.row
    cases hrow.symm.trans hrows
  · intro h
    refine ⟨fun c k => ?_, hwatermark⟩
    have hheld := hfollows c k
    cases hlatest : latest c k (appliedBy schemas batches) with
    | none =>
      have hrun : run lsn none
          (writesAt c k (appliedBy schemas batches)) = none :=
        run_eq_none_iff.2 ⟨nofun, h c k hlatest⟩
      rwa [hrun] at hheld
    | some r => rwa [run_of_latest hone hlatest] at hheld

-- ===== a late put

/-- A collection of documents with an `id`. -/
def pageSchemas (name : String) : Option Schema :=
  if name = "pages" then
    some ⟨"pages", [{ SchemaField.new "id" .string with primary := true }], false, none⟩
  else none

/-- A put of one page. -/
def pagePut : SchemaFlushRecord :=
  ⟨"pages", [1], .put, some (.object [("id", .string "a")]), 1⟩

/-- The delete above it. -/
def pageDelete : SchemaFlushRecord := ⟨"pages", [1], .delete, none, 2⟩

theorem page_converges_iff :
    let records := appliedBy pageSchemas [[pagePut, pageDelete], [pagePut]]
    records = [pagePut, pageDelete, pagePut] ∧ (Converged (exec flushRecords (ready pageSchemas)
          [[pagePut, pageDelete], [pagePut]]) records ↔
        ∀ collection key, latest collection key records = none →
          Cleared lsn (writesAt collection key records)) :=
  ⟨by decide +kernel, copy_converges_iff pageSchemas _
    (by unfold OneEach; decide +kernel) (by unfold Keyed; decide +kernel)⟩

/-- The delete flushed first, the put after it: the page is there again. -/
theorem late_put_not_converged :
    let records := appliedBy pageSchemas [[pageDelete], [pagePut]]
    records = [pageDelete, pagePut] ∧ OneEach records ∧ Keyed pageSchemas records ∧
        ¬Converged (exec flushRecords (ready pageSchemas) [[pageDelete], [pagePut]]) records := by
  refine ⟨by decide +kernel, by unfold OneEach; decide +kernel,
    by unfold Keyed; decide +kernel, fun h => ?_⟩
  have hrows := h.1 "pages" [1]
  have hrow : (rowsAt (exec flushRecords (ready pageSchemas)
      [[pageDelete], [pagePut]]) "pages" [1]).length = 1 := by
    decide +kernel
  rw [show rowsAt _ _ _ = [] from hrows] at hrow
  cases hrow

end MemoryFirst.Compat
