/-
Schema values read back, and updates that keep objects in order.

`reads_value` goes along the three mutual recursions of the source at
once: where `encoded_len` accepts a value at a depth, the decoder with
the levels left at that depth reads the encoding back, and the encoding
is as long as it was said to be. The decoder's count checks are met
because an item takes at least one byte and a field at least five.

Every decoded value passes the codec check (`safe_of_decode`): what the
decoder consumed is the length the check computes. Its objects are in
order, and updates keep them so.
-/
import MemoryFirst.Lib.SortedMap
import MemoryFirst.Store.SchemaValue

namespace MemoryFirst.Store

open List

open Lib

-- ===== fields

variable {n : Nat} {v : SchemaValue} {fields : SchemaObject} {name : String}

theorem reads_readExact {k : Nat} (h : n < 256 ^ k) : Reads (readExact k) (leBytes k n) n :=
  reads_readNat _ h

variable {bytes : List UInt8}

theorem reads_readSchemaBytes (h : bytes.length ≤ MAX_SCHEMA_BLOB_BYTES) :
    Reads readSchemaBytes (encodeBytes bytes) bytes := by
  have hlt : bytes.length < 256 ^ 4 := Nat.lt_of_le_of_lt h (by decide)
  refine (reads_readExact hlt).bind ?_
  exact Reads.ite_neg (by omega) (reads_takeBytes _ rfl)

theorem reads_readText {s : String} (h : (utf8 s).length ≤ MAX_SCHEMA_BLOB_BYTES) :
    Reads readText (encodeBytes (utf8 s)) s := by
  rw [← append_nil (encodeBytes (utf8 s))]
  refine (reads_readSchemaBytes h).bind ?_
  simp only [fromUtf8_utf8]
  exact Reads.pure s

theorem reads_readCount {β : Type} {count minBytes : Nat}
    (hmax : count ≤ MAX_SCHEMA_COLLECTION_ITEMS) (hmin : 0 < minBytes)
    {f : Nat → SchemaParser β} {b : β}
    (hlen : count * minBytes ≤ bytes.length)
    (hf : Reads (f count) bytes b) :
    Reads (readCount minBytes >>= f) (leBytes 4 count ++ bytes) b := by
  have hlt : count < 256 ^ 4 := Nat.lt_of_le_of_lt hmax (by decide)
  unfold readCount
  rw [bind_assoc]
  refine (reads_readExact hlt).bind ?_
  rw [if_neg (by omega), bind_assoc]
  exact reads_roomFor _ hmin hlen hf

theorem reads_tag (tag : UInt8) : Reads readU8 [tag] tag.toNat := by
  have hlt : tag.toNat < 256 ^ 1 := tag.toNat_lt
  have hread := reads_readNat (SchemaDecodeError.unexpectedEof "tag truncated") hlt
  have hbytes : leBytes 1 tag.toNat = [tag] := by simp [leBytes]
  rw [hbytes] at hread
  exact hread

-- ===== lengths

theorem checkedAddLen_eq_ok {a b : Nat} (h : checkedAddLen a b = .ok n) : n = a + b := by
  unfold checkedAddLen at h
  split at h
  · cases h
  · exact (Except.ok.inj h).symm

theorem encodedRawBytesLen_eq_ok {len : Nat} (h : encodedRawBytesLen name len = .ok n) :
    len ≤ MAX_SCHEMA_BLOB_BYTES ∧ n = 4 + len := by
  obtain ⟨hle, h⟩ := of_ite_eq h nofun
  exact ⟨Nat.not_lt.1 hle, checkedAddLen_eq_ok h⟩

theorem encodedBlobLen_eq_ok {len : Nat} (h : encodedBlobLen name len = .ok n) :
    len ≤ MAX_SCHEMA_BLOB_BYTES ∧ n = 1 + (4 + len) := by
  obtain ⟨raw, hraw, h⟩ := bind_eq_ok.1 h
  obtain ⟨hle, rfl⟩ := encodedRawBytesLen_eq_ok hraw
  exact ⟨hle, checkedAddLen_eq_ok h⟩

theorem length_encodeBytes (bytes : List UInt8) :
    (encodeBytes bytes).length = 4 + bytes.length := by
  rw [encodeBytes, length_append, length_leBytes]

theorem length_encodeItems (values : List SchemaValue) :
    values.length ≤ (encodeItems values).length := by
  induction values with
  | nil => exact Nat.zero_le _
  | cons v values ih =>
    simp only [encodeItems, length_cons, cons_append, length_append]
    omega

theorem length_encodeFields (fields : SchemaObject) :
    fields.length * 5 ≤ (encodeFields fields).length := by
  induction fields with
  | nil => exact Nat.zero_le _
  | cons f fields ih =>
    obtain ⟨name, v⟩ := f
    simp only [encodeFields, length_cons, length_append, length_encodeBytes]
    omega

-- ===== order

/-- The names in strictly increasing order. -/
abbrev NamesOrdered (fields : SchemaObject) : Prop :=
  (fields.map fun f => utf8 f.1).Pairwise (· < ·)

theorem namesOrdered_iff : namesOrdered fields = true ↔ NamesOrdered fields :=
  decide_eq_true_iff

theorem fieldsOrdered_iff : fieldsOrdered fields = true ↔ ∀ f ∈ fields, f.2.ordered = true := by
  induction fields with
  | nil => simp [fieldsOrdered]
  | cons f fields ih =>
    obtain ⟨name, v⟩ := f
    rw [fieldsOrdered, Bool.and_eq_true, ih, forall_mem_cons]

theorem itemsOrdered_iff {values : List SchemaValue} :
    itemsOrdered values = true ↔ ∀ v ∈ values, v.ordered = true := by
  induction values with
  | nil => simp [itemsOrdered]
  | cons v values ih => rw [itemsOrdered, Bool.and_eq_true, ih, forall_mem_cons]

theorem ordered_object : (SchemaValue.object fields).ordered = true ↔
      NamesOrdered fields ∧ ∀ f ∈ fields, f.2.ordered = true := by
  rw [SchemaValue.ordered, Bool.and_eq_true, namesOrdered_iff, fieldsOrdered_iff]

theorem getField_eq_none : getField name fields = none ↔ ∀ f ∈ fields, f.1 ≠ name := by
  induction fields with
  | nil => simp [getField]
  | cons f fields ih =>
    obtain ⟨n, v⟩ := f
    rw [getField, forall_mem_cons]
    split
    case isTrue h => simp [h]
    case isFalse h => simp [h, ih]

theorem mem_of_getField (h : getField name fields = some v) : (name, v) ∈ fields := by
  induction fields with
  | nil => cases h
  | cons f fields ih =>
    obtain ⟨n, w⟩ := f
    rw [getField] at h
    split at h
    case isTrue hn =>
      cases h
      rw [hn]
      exact mem_cons_self
    case isFalse => exact mem_cons_of_mem _ (ih h)

/-- A name behind all others goes to the end. -/
theorem insertField_of_forall_lt (h : ∀ f ∈ fields, utf8 f.1 < utf8 name) :
    insertField name v fields = fields ++ [(name, v)] := by
  induction fields with
  | nil => rfl
  | cons f fields ih =>
    obtain ⟨n, w⟩ := f
    have hn : utf8 n < utf8 name := h (n, w) mem_cons_self
    have hne : n ≠ name := by
      rintro rfl
      exact List.lt_irrefl _ hn
    rw [insertField, if_neg hne, if_neg (List.lt_asymm hn),
      ih fun g hg => h g (mem_cons_of_mem _ hg)]
    rfl

-- ===== the round trip

theorem reads_readFloat {bits : UInt64} (h : f64IsFinite bits = true) :
    Reads readFloat (leBytes 8 bits.toNat) bits := by
  refine (reads_readExact (by exact bits.toNat_lt)).bind ?_
  simp only [UInt64.ofNat_toNat, h, if_true]
  exact Reads.pure bits

theorem reads_readBool (b : Bool) : Reads readBool [if b then 1 else 0] b := by
  have hread := reads_tag (if b then 1 else 0)
  refine hread.bind ?_
  cases b with
  | false => exact Reads.pure false
  | true => exact Reads.pure true

/-- The levels that are left at a depth the length check accepts. -/
theorem levels_eq {depth : Nat} (h : ¬ MAX_SCHEMA_VALUE_DEPTH < depth) :
    MAX_SCHEMA_VALUE_DEPTH + 1 - depth = (MAX_SCHEMA_VALUE_DEPTH + 1 - (depth + 1)) + 1 := by
  omega

/-- A value behind its tag. -/
theorem reads_tagged {levels : Nat} (h : Reads (readBody (decodeSchemaValueAt levels) v.tag.toNat)
      (encodeBody v) v) :
    Reads (decodeSchemaValueAt (levels + 1)) (encodeSchemaValue v) v :=
  (reads_tag v.tag).bind h

theorem length_encodeSchemaValue (v : SchemaValue) :
    (encodeSchemaValue v).length = 1 + (encodeBody v).length := by
  rw [encodeSchemaValue, length_cons, Nat.add_comm]

mutual

/-- Where the length check accepts a value, it is read back from an
encoding of that length. -/
theorem reads_value : ∀ (v : SchemaValue) {name : String} {depth n : Nat},
    encodedLen v name depth = .ok n → v.ordered = true →
      Reads (decodeSchemaValueAt (MAX_SCHEMA_VALUE_DEPTH + 1 - depth)) (encodeSchemaValue v) v
        ∧ (encodeSchemaValue v).length = n := by
  intro v name depth n h ho
  rw [encodedLen.eq_def] at h
  obtain ⟨hdepth, h⟩ := of_ite_eq h nofun
  rw [levels_eq hdepth, length_encodeSchemaValue]
  match v with
  | .null =>
    cases h
    exact ⟨reads_tagged (Reads.pure _), rfl⟩
  | .string s =>
    obtain ⟨hle, rfl⟩ := encodedBlobLen_eq_ok h
    exact ⟨reads_tagged (reads_readText hle).bind_pure,
      congrArg (1 + ·) (length_encodeBytes _)⟩
  | .int32 i =>
    cases h
    refine ⟨reads_tagged ?_, congrArg (1 + ·) (length_leBytes _ _)⟩
    have hback : (UInt32.ofNat i.toUInt32.toNat).toInt32 = i := by simp
    have hread := (reads_readExact (k := 4) (n := i.toUInt32.toNat)
      (by exact i.toUInt32.toNat_lt)).bind_pure
      (f := fun n => SchemaValue.int32 (UInt32.ofNat n).toInt32)
    simp only [hback] at hread
    exact hread
  | .int64 i =>
    cases h
    refine ⟨reads_tagged ?_, congrArg (1 + ·) (length_leBytes _ _)⟩
    have hback : (UInt64.ofNat i.toUInt64.toNat).toInt64 = i := by simp
    have hread := (reads_readExact (k := 8) (n := i.toUInt64.toNat)
      (by exact i.toUInt64.toNat_lt)).bind_pure
      (f := fun n => SchemaValue.int64 (UInt64.ofNat n).toInt64)
    simp only [hback] at hread
    exact hread
  | .float bits =>
    dsimp only at h
    split at h
    case isFalse => cases h
    case isTrue hfinite =>
      cases h
      exact ⟨reads_tagged (reads_readFloat hfinite).bind_pure,
        congrArg (1 + ·) (length_leBytes _ _)⟩
  | .bool b =>
    cases h
    exact ⟨reads_tagged (reads_readBool b).bind_pure, rfl⟩
  | .json bytes =>
    obtain ⟨hle, rfl⟩ := encodedBlobLen_eq_ok h
    exact ⟨reads_tagged (reads_readSchemaBytes hle).bind_pure,
      congrArg (1 + ·) (length_encodeBytes _)⟩
  | .bytes bytes =>
    obtain ⟨hle, rfl⟩ := encodedBlobLen_eq_ok h
    exact ⟨reads_tagged (reads_readSchemaBytes hle).bind_pure,
      congrArg (1 + ·) (length_encodeBytes _)⟩
  | .array values =>
    obtain ⟨hmax, h⟩ := of_ite_eq h nofun
    obtain ⟨hread, hlen⟩ := reads_items values h ho
    refine ⟨reads_tagged ?_, ?_⟩
    · refine reads_readCount (by omega) Nat.one_pos ?_ hread.bind_pure
      rw [Nat.mul_one]
      exact length_encodeItems values
    · rw [encodeBody, length_append, length_leBytes]
      omega
  | .object fields =>
    obtain ⟨hmax, h⟩ := of_ite_eq h nofun
    rw [SchemaValue.ordered, Bool.and_eq_true] at ho
    obtain ⟨hread, hlen⟩ := reads_fields fields [] h ho.2 (namesOrdered_iff.1 ho.1)
    refine ⟨reads_tagged ?_, ?_⟩
    · exact reads_readCount (by omega) (by decide)
        (length_encodeFields fields) hread.bind_pure
    · rw [encodeBody, length_append, length_leBytes]
      omega

theorem reads_items : ∀ (values : List SchemaValue) {name : String} {depth idx total n : Nat},
    encodedItemsLen values name depth idx total = .ok n → itemsOrdered values = true →
      Reads (readMany (decodeSchemaValueAt
          (MAX_SCHEMA_VALUE_DEPTH + 1 - (depth + 1))) values.length)
          (encodeItems values) values
        ∧ total + (encodeItems values).length = n
  | [], name, depth, idx, total, n, h, _ => by
    rw [encodedItemsLen] at h
    cases h
    exact ⟨Reads.pure [], rfl⟩
  | v :: values, name, depth, idx, total, n, h, ho => by
    rw [encodedItemsLen] at h
    obtain ⟨len, hv, h⟩ := bind_eq_ok.1 h
    obtain ⟨sum, hsum, h⟩ := bind_eq_ok.1 h
    obtain rfl := checkedAddLen_eq_ok hsum
    rw [itemsOrdered, Bool.and_eq_true] at ho
    obtain ⟨hread, hlen⟩ := reads_value v hv ho.1
    obtain ⟨hrest, hlens⟩ := reads_items values h ho.2
    refine ⟨hread.bind hrest.bind_pure, ?_⟩
    rw [length_encodeSchemaValue] at hlen
    simp only [encodeItems, cons_append, length_cons, length_append]
    omega

/-- The fields are read in order, so that each goes behind the ones that
were read before. -/
theorem reads_fields : ∀ (fields before : SchemaObject) {name : String} {depth total n : Nat},
    encodedFieldsLen fields name depth total = .ok n →
      fieldsOrdered fields = true → NamesOrdered (before ++ fields) →
      Reads (readFields (decodeSchemaValueAt
          (MAX_SCHEMA_VALUE_DEPTH + 1 - (depth + 1))) fields.length before)
          (encodeFields fields) (before ++ fields)
        ∧ total + (encodeFields fields).length = n
  | [], before, name, depth, total, n, h, _, _ => by
    rw [encodedFieldsLen] at h
    cases h
    rw [append_nil]
    exact ⟨Reads.pure before, rfl⟩
  | (field, v) :: fields, before, name, depth, total, n, h, ho, hnames => by
    rw [encodedFieldsLen] at h
    obtain ⟨raw, hraw, h⟩ := bind_eq_ok.1 h
    obtain ⟨sum, hsum, h⟩ := bind_eq_ok.1 h
    obtain ⟨len, hv, h⟩ := bind_eq_ok.1 h
    obtain ⟨sum', hsum', h⟩ := bind_eq_ok.1 h
    obtain ⟨hle, rfl⟩ := encodedRawBytesLen_eq_ok hraw
    obtain rfl := checkedAddLen_eq_ok hsum
    obtain rfl := checkedAddLen_eq_ok hsum'
    rw [fieldsOrdered, Bool.and_eq_true] at ho
    obtain ⟨hread, hlen⟩ := reads_value v hv ho.1
    have hbehind : ∀ f ∈ before, utf8 f.1 < utf8 field := by
      intro f hf
      rw [NamesOrdered, map_append, pairwise_append] at hnames
      exact hnames.2.2 _ (mem_map_of_mem hf) _ (by simp)
    have hnew : getField field before = none := by
      refine getField_eq_none.2 fun f hf he => ?_
      have hlt := hbehind f hf
      rw [he] at hlt
      exact List.lt_irrefl _ hlt
    have happend : before ++ (field, v) :: fields = insertField field v before ++ fields := by
      rw [insertField_of_forall_lt hbehind, append_assoc]
      rfl
    obtain ⟨hrest, hlens⟩ := reads_fields fields
      (insertField field v before) h ho.2 (by rw [← happend]; exact hnames)
    rw [length_encodeSchemaValue] at hlen
    refine ⟨?_, ?_⟩
    · rw [happend, encodeFields, append_assoc]
      refine (reads_readText hle).bind (Reads.ite_neg ?_ ?_)
      · rw [hnew]
        exact Bool.false_ne_true
      · exact hread.bind hrest
    · simp only [encodeFields, length_cons, length_append, length_encodeBytes]
      omega

end

/-- A value that passes the codec check is decoded from its encoding. -/
theorem decodeSchemaValue_encode (h : validateCodecSafe v = .ok ()) (ho : v.ordered = true) :
    decodeSchemaValue (encodeSchemaValue v) = .ok v := by
  obtain ⟨n, hn, h⟩ := bind_eq_ok.1 h
  obtain ⟨hread, hlen⟩ := reads_value v hn ho
  have hmax := failIf_eq_ok.1 h
  rw [decodeSchemaValue, if_neg (by rw [hlen]; exact hmax)]
  have hrun := hread.run_eq
  rw [Nat.sub_zero] at hrun
  rw [hrun]
  rfl

-- ===== updates

/-- A field goes where its name's bytes go among those of the others. -/
theorem map_insertField : (insertField name v fields).map (Prod.map utf8 id)
      = SortedMap.insertEntry (utf8 name) v (fields.map (Prod.map utf8 id)) := by
  induction fields with
  | nil => rfl
  | cons f fields ih =>
    rw [insertField, map_cons, SortedMap.insertEntry, ← ih]
    by_cases hn : f.1 = name
    · simp [hn]
    · have hne : utf8 name ≠ utf8 f.1 := fun h => hn (utf8_inj h).symm
      simp only [hn, hne, Prod.map_fst, if_false]
      split <;> rfl

theorem NamesOrdered.insertField (h : NamesOrdered fields) :
    NamesOrdered (insertField name v fields) := by
  rw [NamesOrdered, pairwise_map] at *
  have hsorted := SortedMap.sorted_insertEntry (utf8 name) v
    ((pairwise_map (f := Prod.map utf8 id)).2 h)
  rw [← map_insertField, pairwise_map] at hsorted
  exact hsorted

/-- An object as the source's map keeps one. -/
abbrev OrderedObject (fields : SchemaObject) : Prop :=
  (SchemaValue.object fields).ordered = true

section

variable (h : OrderedObject fields)

include h

theorem OrderedObject.insertField (hv : v.ordered = true) :
    OrderedObject (insertField name v fields) := by
  obtain ⟨hnames, hvalues⟩ := ordered_object.1 h
  refine ordered_object.2 ⟨hnames.insertField, fun f hf => ?_⟩
  have hmem := mem_map_of_mem (f := Prod.map utf8 id) hf
  rw [map_insertField] at hmem
  rcases SortedMap.mem_insertEntry hmem with heq | hold
  · have hf : f.2 = v := congrArg Prod.snd heq
    rw [hf]
    exact hv
  · obtain ⟨g, hg, heq⟩ := mem_map.1 hold
    have hf : g.2 = f.2 := (Prod.ext_iff.1 heq).2
    rw [← hf]
    exact hvalues g hg

theorem OrderedObject.removeField : OrderedObject (removeField name fields) := by
  have hsub : (Store.removeField name fields).Sublist fields := filter_sublist
  obtain ⟨hnames, hvalues⟩ := ordered_object.1 h
  exact ordered_object.2 ⟨hnames.sublist (hsub.map _), fun f hf => hvalues f (hsub.subset hf)⟩

theorem OrderedObject.getField (hv : getField name fields = some v) : v.ordered = true :=
  (ordered_object.1 h).2 _ (mem_of_getField hv)

end

theorem orderedObject_nil : OrderedObject [] := rfl

variable {path : String}

/-- An update at the end of a path that keeps objects in order does so
for the whole object. -/
theorem OrderedObject.updateSegments {update : String → SchemaObject →
      SchemaObject × Except SchemaValueError Unit}
    (hupdate : ∀ last fields, OrderedObject fields →
      OrderedObject (update last fields).1) (segments : List String)
    (h : OrderedObject fields) :
    OrderedObject (updateSegments path update segments fields).1 := by
  induction segments generalizing fields with
  | nil => exact h
  | cons s rest ih =>
    cases rest with
    | nil => exact hupdate s fields h
    | cons s' rest =>
      rw [Store.updateSegments]
      · split
        next => exact h.insertField (ih orderedObject_nil)
        next nested hs => exact h.insertField (ih (h.getField hs))
        next => exact h
      · intro h
        cases h

theorem OrderedObject.unsetSegments (segments : List String) (h : OrderedObject fields) :
    OrderedObject (unsetSegments segments fields).1 := by
  induction segments generalizing fields with
  | nil => exact h
  | cons s rest ih =>
    cases rest with
    | nil => exact h.removeField
    | cons s' rest =>
      rw [Store.unsetSegments]
      · split
        next nested hs => exact h.insertField (ih (h.getField hs))
        next => exact h
      · intro h
        cases h

namespace SchemaValue

theorem ordered_setField {v value : SchemaValue} (path : String)
    (h : v.ordered = true) (hvalue : value.ordered = true) :
    (v.setField path value).1.ordered = true := by
  unfold setField
  split
  next fields =>
    exact OrderedObject.updateSegments (fun _ _ hf => OrderedObject.insertField hf hvalue) _ h
  next => exact h

theorem ordered_unsetField (path : String)
    (h : v.ordered = true) : (v.unsetField path).1.ordered = true := by
  unfold unsetField
  split
  next fields => exact OrderedObject.unsetSegments _ h
  next => exact h

theorem ordered_incremented {f64Add : UInt64 → UInt64 → UInt64} {delta : Int64}
    {value sum : SchemaValue}
    (h : incremented f64Add path delta value = .ok sum) :
    sum.ordered = true := by
  unfold incremented at h
  split at h
  · split at h
    · cases h
      rfl
    · cases h
  · split at h
    · cases h
      rfl
    · cases h
  · cases h
    rfl
  · cases h

theorem ordered_applyIncrement (f64Add : UInt64 → UInt64 → UInt64) (path : String) (delta : Int64)
    (h : v.ordered = true) :
    (v.applyIncrement f64Add path delta).1.ordered = true := by
  unfold applyIncrement
  split
  next fields =>
    refine OrderedObject.updateSegments (fun last fields hf => ?_) _ h
    split
    · exact OrderedObject.insertField hf rfl
    · split
      next hsum => exact OrderedObject.insertField hf (ordered_incremented hsum)
      next => exact hf
  next => exact h

end SchemaValue

-- ===== decoded values

theorem consumes_readSchemaBytes : Consumes readSchemaBytes fun front bytes =>
      front = encodeBytes bytes ∧ bytes.length ≤ MAX_SCHEMA_BLOB_BYTES :=
  consumes_counted _ _ _ 4 _

theorem consumes_readText : Consumes readText fun front s =>
      front = encodeBytes (utf8 s) ∧ (utf8 s).length ≤ MAX_SCHEMA_BLOB_BYTES := by
  refine consumes_readSchemaBytes.bind fun front bytes hfront => ?_
  rw [← append_nil front] at hfront
  split
  next s hs =>
    rw [← utf8_of_fromUtf8 hs] at hfront
    exact Consumes.pure hfront
  next => exact consumes_throw _

theorem consumes_readCount (minBytes : Nat) : Consumes (readCount minBytes) fun front count =>
      front.length = 4 ∧ count ≤ MAX_SCHEMA_COLLECTION_ITEMS := by
  refine (consumes_readNat _ 4).bind fun front count hfront => ?_
  refine Consumes.ite (fun _ => consumes_throw _) fun hle => ?_
  refine (consumes_roomFor _ _ _).bind_pure fun back _ hback => ⟨?_, Nat.not_lt.1 hle⟩
  rw [hfront.1, hback, append_nil, length_leBytes]

theorem consumes_readFloat : Consumes readFloat fun front bits =>
      front.length = 8 ∧ f64IsFinite bits = true := by
  refine (consumes_readNat _ 8).bind fun front n hfront => ?_
  refine Consumes.ite (fun h => Consumes.pure ⟨?_, h⟩) fun _ => consumes_throw _
  rw [hfront.1, append_nil, length_leBytes]

theorem consumes_readBool : Consumes readBool fun front _ => front.length = 1 := by
  refine (consumes_readNat _ 1).bind fun front n hfront => ?_
  have hlen : (front ++ []).length = 1 := by rw [hfront.1, append_nil, length_leBytes]
  exact Consumes.ite (fun _ => Consumes.pure hlen) fun _ =>
    Consumes.ite (fun _ => Consumes.pure hlen) fun _ => consumes_throw _

theorem checkedAddLen_of_lt {a b : Nat} (h : a + b < 2 ^ 64) : checkedAddLen a b = .ok (a + b) :=
  if_neg (by omega)

theorem encodedRawBytesLen_of_le {len : Nat} (h : len ≤ MAX_SCHEMA_BLOB_BYTES) :
    encodedRawBytesLen name len = .ok (4 + len) := by
  have hlt : len < 2 ^ 63 := Nat.lt_of_le_of_lt h (by decide)
  rw [encodedRawBytesLen, if_neg (Nat.not_lt.2 h), checkedAddLen_of_lt (by omega)]

theorem encodedBlobLen_of_le {len : Nat} (h : len ≤ MAX_SCHEMA_BLOB_BYTES) :
    encodedBlobLen name len = .ok (1 + (4 + len)) := by
  have hlt : len < 2 ^ 63 := Nat.lt_of_le_of_lt h (by decide)
  rw [encodedBlobLen, encodedRawBytesLen_of_le h]
  exact checkedAddLen_of_lt (by omega)

/-- What is read from `n` bytes at a depth: a value in order, which the
length check accepts there with that length, if it is a `usize`. -/
structure Decoded (depth n : Nat) (v : SchemaValue) : Prop where
  ordered : v.ordered = true
  len : n < 2 ^ 64 → ∀ name, encodedLen v name depth = .ok n

/-- Fields that were read from as many bytes. -/
inductive FieldsDecoded (depth : Nat) : SchemaObject → Nat → Prop where
  | nil : FieldsDecoded depth [] 0
  | cons {name : String} {v : SchemaValue} {fields : SchemaObject} {n k : Nat}
      (hname : (utf8 name).length ≤ MAX_SCHEMA_BLOB_BYTES) (hv : Decoded (depth + 1) n v)
      (h : FieldsDecoded depth fields k) :
      FieldsDecoded depth ((name, v) :: fields) (4 + (utf8 name).length + n + k)

section

variable {depth k : Nat}

/-- The order in which fields come does not matter for their length. -/
theorem FieldsDecoded.insertField (hname : (utf8 name).length ≤ MAX_SCHEMA_BLOB_BYTES)
    (hv : Decoded (depth + 1) n v) (h : FieldsDecoded depth fields k)
    (hnew : getField name fields = none) :
    FieldsDecoded depth (insertField name v fields) (4 + (utf8 name).length + n + k)
      ∧ (insertField name v fields).length = fields.length + 1 := by
  induction h with
  | nil => exact ⟨.cons hname hv .nil, rfl⟩
  | @cons name' v' fields n' k hname' hv' h ih =>
    rw [getField] at hnew
    obtain ⟨hne, hnew⟩ := of_ite_eq hnew nofun
    rw [Store.insertField, if_neg hne]
    split
    · exact ⟨.cons hname hv (.cons hname' hv' h), rfl⟩
    · obtain ⟨hrest, hlength⟩ := ih hnew
      rw [Nat.add_left_comm]
      exact ⟨.cons hname' hv' hrest, congrArg (· + 1) hlength⟩

theorem FieldsDecoded.len (h : FieldsDecoded depth fields k) {total : Nat}
    (hlt : total + k < 2 ^ 64) :
    encodedFieldsLen fields name depth total = .ok (total + k) := by
  induction h generalizing total with
  | nil => rfl
  | cons hname hv h ih =>
    rw [encodedFieldsLen, encodedRawBytesLen_of_le hname, ok_bind, checkedAddLen_of_lt (by omega),
      ok_bind, hv.len (by omega), ok_bind, checkedAddLen_of_lt (by omega), ok_bind, ih (by omega)]
    simp only [Nat.add_assoc]

variable {readValue : SchemaParser SchemaValue}
  (hread : Consumes readValue fun front => Decoded (depth + 1) front.length)

include hread

/-- The fields are inserted one by one, so that they end up in order. -/
theorem consumes_readFields (count : Nat) (ho : OrderedObject fields)
    (h : FieldsDecoded depth fields k) :
    Consumes (readFields readValue count fields) fun front fields' => OrderedObject fields'
      ∧ fields'.length = fields.length + count ∧ FieldsDecoded depth fields' (front.length + k) := by
  induction count generalizing fields k with
  | zero =>
    rw [← Nat.zero_add k] at h
    exact Consumes.pure ⟨ho, rfl, h⟩
  | succ count ih =>
    refine consumes_readText.bind fun front name hname => ?_
    refine Consumes.ite (fun _ => consumes_throw _) fun hnew => hread.bind fun mid v hv => ?_
    obtain ⟨hinsert, hlength⟩ := h.insertField hname.2 hv (by simpa using hnew)
    refine (ih (ho.insertField hv.ordered) hinsert).mono fun back fields' h => ?_
    obtain ⟨ho, hcount, h⟩ := h
    refine ⟨ho, by omega, ?_⟩
    have hlen : (front ++ (mid ++ back)).length + k
        = back.length + (4 + (utf8 name).length + mid.length + k) := by
      rw [hname.1, length_append, length_append, length_encodeBytes]
      omega
    rw [hlen]
    exact h

theorem consumes_readItems (count : Nat) : Consumes (readMany readValue count) fun front values =>
      values.length = count ∧ itemsOrdered values = true ∧ ∀ {name idx total},
        total + front.length < 2 ^ 64 →
          encodedItemsLen values name depth idx total = .ok (total + front.length) := by
  induction count with
  | zero => exact Consumes.pure ⟨rfl, rfl, fun _ => rfl⟩
  | succ count ih =>
    refine hread.bind fun front v hv => ih.bind_pure fun back values h => ?_
    obtain ⟨hcount, ho, hlen⟩ := h
    refine ⟨congrArg (· + 1) hcount, by rw [itemsOrdered, hv.ordered, ho]; rfl, fun hlt => ?_⟩
    rw [length_append] at hlt ⊢
    rw [encodedItemsLen, hv.len (by omega), ok_bind, checkedAddLen_of_lt (by omega), ok_bind,
      hlen (by omega), Nat.add_assoc]

attribute [local simp] encodedLen length_encodeBytes encodedBlobLen_of_le

theorem consumes_readBody (hdepth : ¬ MAX_SCHEMA_VALUE_DEPTH < depth) (tag : Nat) :
    Consumes (readBody readValue tag) fun front => Decoded depth (1 + front.length) := by
  unfold readBody
  split
  case h_1 => exact Consumes.pure ⟨rfl, by simp [hdepth]⟩
  case h_2 => exact consumes_readText.bind_pure fun _ _ h => ⟨rfl, by simp [hdepth, h]⟩
  case h_3 => exact (consumes_readNat _ 4).bind_pure fun _ _ h => ⟨rfl, by simp [hdepth, h.1]⟩
  case h_4 => exact (consumes_readNat _ 8).bind_pure fun _ _ h => ⟨rfl, by simp [hdepth, h.1]⟩
  case h_5 => exact consumes_readFloat.bind_pure fun _ _ h => ⟨rfl, by simp [hdepth, h]⟩
  case h_6 => exact consumes_readBool.bind_pure fun _ _ h => ⟨rfl, by simp [hdepth, h]⟩
  case h_7 =>
    refine (consumes_readCount 5).bind fun front count hcount => ?_
    refine (consumes_readFields hread count orderedObject_nil .nil).bind_pure fun _ fields h => ?_
    obtain ⟨ho, hlength, h⟩ := h
    refine ⟨ho, fun hlt name => ?_⟩
    rw [length_append, hcount.1] at hlt ⊢
    rw [encodedLen, if_neg hdepth, if_neg (by rw [hlength, length_nil]; omega), h.len (by omega)]
    congr 1
    omega
  case h_8 =>
    refine (consumes_readCount 1).bind fun front count hcount => ?_
    refine (consumes_readItems hread count).bind_pure fun back values h => ?_
    obtain ⟨hlength, ho, h⟩ := h
    refine ⟨ho, fun hlt name => ?_⟩
    rw [length_append, hcount.1] at hlt ⊢
    rw [encodedLen, if_neg hdepth, if_neg (by omega), h (by omega), Nat.add_assoc]
  case h_9 => exact consumes_readSchemaBytes.bind_pure fun _ _ h => ⟨rfl, by simp [hdepth, h]⟩
  case h_10 => exact consumes_readSchemaBytes.bind_pure fun _ _ h => ⟨rfl, by simp [hdepth, h]⟩
  case h_11 => exact consumes_throw _

end

theorem consumes_decodeSchemaValueAt (levels depth : Nat)
    (h : levels + depth = MAX_SCHEMA_VALUE_DEPTH + 1) :
    Consumes (decodeSchemaValueAt levels) fun front => Decoded depth front.length := by
  induction levels generalizing depth with
  | zero => exact consumes_throw _
  | succ levels ih =>
    refine (consumes_readNat _ 1).bind fun front tag hfront => ?_
    refine (consumes_readBody (ih (depth + 1) (by omega)) (by omega) tag).mono fun back v hv => ?_
    rw [length_append, hfront.1, length_leBytes]
    exact hv

/-- What the decoder returns passes the codec check. -/
theorem safe_of_decode (h : decodeSchemaValue bytes = .ok v) :
    validateCodecSafe v = .ok () ∧ v.ordered = true := by
  obtain ⟨hmax, h⟩ := of_ite_eq h nofun
  obtain ⟨⟨w, rest⟩, hrun, h⟩ := bind_eq_ok.1 h
  obtain ⟨front, hbytes, hw⟩ := consumes_decodeSchemaValueAt _ 0 rfl bytes w rest hrun
  dsimp only at h
  split at h
  case isTrue hrest =>
    cases h
    rw [hbytes, hrest, append_nil] at hmax
    refine ⟨?_, hw.ordered⟩
    rw [validateCodecSafe, hw.len (Nat.lt_of_le_of_lt (Nat.not_lt.1 hmax) (by decide))]
    exact failIf_eq_ok.2 hmax
  case isFalse => cases h

/-- The codec check accepts exactly the values that are decoded from
their encoding, and every decoded value is one of them. -/
theorem schemaValue_codec_exact (v : OrderedValue) :
    (validateCodecSafe v.1 = .ok () ↔ decodeSchemaValue (encodeSchemaValue v.1) = .ok v.1)
      ∧ (∀ name depth n, encodedLen v.1 name depth = .ok n → (encodeSchemaValue v.1).length = n)
      ∧ ∀ bytes w, decodeSchemaValue bytes = .ok w →
        validateCodecSafe w = .ok () ∧ decodeSchemaValue (encodeSchemaValue w) = .ok w := by
  refine ⟨⟨fun h => decodeSchemaValue_encode h v.2, fun h => (safe_of_decode h).1⟩, ?_, ?_⟩
  · intro name depth n h
    exact (reads_value v.1 h v.2).2
  · intro bytes w h
    obtain ⟨hsafe, ho⟩ := safe_of_decode h
    exact ⟨hsafe, decodeSchemaValue_encode hsafe ho⟩

end MemoryFirst.Store
