/-
`mfs-compat/src/object_store.rs`: the commands of the mutable object
store, by what they do to the value they find under their key.

# Three kinds of command

A writing command takes the lock of its key's shard, decides from the
value it finds there what to leave behind (`Change`), and marks the key
dirty if it left anything different. A reading one only looks. Both let
an expired key expire first; `put`, `delete` and the `set_` commands do
not. Some return before they take any lock.

# Families

Commands that create or extend a collection are `extending` at a type of
value, those that take something out of one are `shrinking`, and the
reads are `looking`; a collection that becomes empty is removed.
-/
import MemoryFirst.Compat.ObjectValue

namespace MemoryFirst.Compat

open Lib Store

/-- The keys of the object stores. -/
abbrev Key := List UInt8

/-- What the commands return when they succeed. -/
inductive ObjectReply where
  | version (version : Nat)
  | count (n : Nat)
  | flag (b : Bool)
  | integer (value : Option Int64)
  | text (value : Option String)
  | item (bytes : Option (List UInt8))
  | items (values : List (List UInt8))
  | fields (fields : Fields)
  | members (members : Members)
  | score (score : Option UInt64)
  | value (value : Option MfsValue)
  deriving DecidableEq

/-- What a writing command leaves behind; its reply may be the version of
the change. -/
inductive Change where
  | keep (reply : ObjectReply)
  | store (value : MutableObjectValue) (reply : Nat → ObjectReply)
  | remove (reply : Nat → ObjectReply)

/-- A writing command on its way: whether it lets the key expire first,
what it does, and the expiry it gives to what it stores. -/
structure Edit where
  key : Key
  expiresFirst : Bool
  change : Option MutableObjectValue → Except ObjectStoreError Change
  ttlTicks : Nat
  ttiTicks : Nat

/-- A reading command: the reply for a key that has just expired, what it
sees in a value, and whether it touches the key. -/
structure Look where
  key : Key
  expired : ObjectReply
  observe : Option MutableObjectValue → Except ObjectStoreError ObjectReply
  touches : Bool

inductive Request where
  | done (reply : Except ObjectStoreError ObjectReply)
  | write (edit : Edit)
  | read (look : Look)

-- ===== scalars

variable (key : Key)

/-- `put_mutable`: whatever the key had is replaced. -/
def putMutable (value : MutableObjectValue) : Request :=
  .write ⟨key, false, fun _ => .ok (.store value .version), 0, 0⟩

variable (value : MfsValue)

/-- `put_with_expiry_ticks`; with zero for a limit there is none. -/
def putWithExpiryTicks (ttlTicks ttiTicks : Nat) : Request :=
  match MutableObjectValue.fromMfsValue value with
  | .error e => .done (.error e)
  | .ok value => .write ⟨key, false, fun _ => .ok (.store value .version), ttlTicks, ttiTicks⟩

def putWithTtlTicks (ttlTicks : Nat) : Request :=
  putWithExpiryTicks key value ttlTicks 0

def putWithTtiTicks (ttiTicks : Nat) : Request :=
  putWithExpiryTicks key value 0 ttiTicks

/-- `try_put`; `put` panics where it returns an error. -/
def tryPut : Request :=
  match MutableObjectValue.fromMfsValue value with
  | .error e => .done (.error e)
  | .ok value => putMutable key value

def setBytes (value : List UInt8) : Request :=
  tryPut key (.bytes value)

def setString (value : String) : Request :=
  tryPut key (.string value)

def setInteger (value : Int64) : Request :=
  tryPut key (.integer value)

def setJsonBytes (value : List UInt8) : Request :=
  tryPut key (.json value)

def setList (values : List (List UInt8)) : Request :=
  putMutable key (.list values)

def setHash (fields : Fields) : Request :=
  putMutable key (.hash fields)

def setSet (members : Members) : Request :=
  putMutable key (.set members)

def setSortedSet (entries : List SortedSetEntry) : Request :=
  match validateSortedSetEntries entries with
  | .error e => .done (.error e)
  | .ok () => putMutable key (.sortedSet (.fromEntries entries))

def delete : Request :=
  .write ⟨key, false, fun _ => .ok (.remove .version), 0, 0⟩

-- ===== extending

/-- A value of one type inside a stored one. -/
structure Lens (α : Type) where
  expected : String
  view : MutableObjectValue → Option α
  make : α → MutableObjectValue

def asList : Lens (List (List UInt8)) where
  expected := "list"
  view := fun
    | .list values => some values
    | _ => none
  make := .list

def asHash : Lens Fields where
  expected := "hash"
  view := fun
    | .hash fields => some fields
    | _ => none
  make := .hash

def asSet : Lens Members where
  expected := "set"
  view := fun
    | .set members => some members
    | _ => none
  make := .set

def asSortedSet : Lens MutableSortedSet where
  expected := "sorted set"
  view := fun
    | .sortedSet entries => some entries
    | _ => none
  make := .sortedSet

def asBytes : Lens (List UInt8) where
  expected := "bytes"
  view := fun
    | .direct (.bytes bytes) => some bytes
    | _ => none
  make := fun bytes => .direct (.bytes bytes)

/-- Extends the collection of a key, or an empty one if there is none. -/
def extending {α : Type} (lens : Lens α) (key : Key) (empty : α) (extend : α → α) : Request :=
  .write ⟨key, true, fun
    | some value =>
      match lens.view value with
      | some a => .ok (.store (lens.make (extend a)) .version)
      | none => .error (wrongTypeTag lens.expected value.tag)
    | none => .ok (.store (lens.make (extend empty)) .version), 0, 0⟩

def appendBytes (suffix : List UInt8) : Request :=
  extending asBytes key [] (· ++ suffix)

def listPush (value : List UInt8) : Request :=
  extending asList key [] (· ++ [value])

def listExtend (values : List (List UInt8)) : Request :=
  if values = [] then .done (.ok (.version 0))
  else extending asList key [] (· ++ values)

def hashSet (field value : List UInt8) : Request :=
  extending asHash key .empty (·.insert field value)

def hashSetMany (fields : List (List UInt8 × List UInt8)) : Request :=
  if fields = [] then .done (.ok (.version 0))
  else extending asHash key .empty (·.insertMany fields)

def setAdd (member : List UInt8) : Request :=
  extending asSet key .empty (·.insert member ())

def setAddMany (members : List (List UInt8)) : Request :=
  if members = [] then .done (.ok (.version 0))
  else extending asSet key .empty (·.insertMany (members.map fun member => (member, ())))

def zadd (score : UInt64) (member : List UInt8) : Request :=
  if f64IsFinite score then
    extending asSortedSet key (.fromEntries []) (·.insert member score)
  else .done (.error (.invalidValue "sorted set scores must be finite"))

def zaddMany (entries : List (UInt64 × List UInt8)) : Request :=
  if entries = [] then .done (.ok (.version 0))
  else if ∃ entry ∈ entries, ¬ f64IsFinite entry.1 then
    .done (.error (.invalidValue "sorted set scores must be finite"))
  else extending asSortedSet key (.fromEntries []) fun existing =>
    entries.foldl (fun s entry => s.insert entry.2 entry.1) existing

/-- The counter's own body: the sum is checked. -/
def incrBy (delta : Int64) : Request :=
  .write ⟨key, true, fun
    | some (.direct (.integer value)) =>
      let next := value.toInt + delta.toInt
      if -2 ^ 63 ≤ next ∧ next < 2 ^ 63 then
        .ok (.store (.direct (.integer (Int64.ofInt next)))
          fun _ => .integer (some (Int64.ofInt next)))
      else .error (.invalidValue "integer increment overflow")
    | some other => .error (wrongTypeTag "integer" other.tag)
    | none => .ok (.store (.direct (.integer delta)) fun _ => .integer (some delta)), 0, 0⟩

-- ===== shrinking

/-- Takes something out of the collection of a key, which is removed when
nothing is left in it. -/
def shrinking {α : Type} (lens : Lens α) (key : Key)
    (takeOut : α → Option (ObjectReply × α)) (isEmpty : α → Bool)
    (missing : ObjectReply) : Request :=
  .write ⟨key, true, fun
    | some value =>
      match lens.view value with
      | some a =>
        match takeOut a with
        | none => .ok (.keep missing)
        | some (reply, rest) =>
          if isEmpty rest then .ok (.remove fun _ => reply)
          else .ok (.store (lens.make rest) fun _ => reply)
      | none => .error (wrongTypeTag lens.expected value.tag)
    | none => .ok (.keep missing), 0, 0⟩

def listPopFront (key : Key) : Request :=
  shrinking asList key (fun
    | [] => none
    | value :: values => some (.item (some value), values))
    List.isEmpty (.item none)

def listPopBack (key : Key) : Request :=
  shrinking asList key (fun values =>
    values.getLast?.map fun value => (.item (some value), values.dropLast))
    List.isEmpty (.item none)

/-- What `hash_del` and `set_remove` do to their tree. -/
def removeKey {β : Type} (m : SortedMap (List UInt8) β)
    (key : List UInt8) : Option (ObjectReply × SortedMap (List UInt8) β) :=
  (m.find? key).map fun _ => (.count 1, m.erase key)

def hashDel (field : List UInt8) : Request :=
  shrinking asHash key (removeKey · field) (·.entries.isEmpty) (.count 0)

def setRemove (member : List UInt8) : Request :=
  shrinking asSet key (removeKey · member) (·.entries.isEmpty) (.count 0)

def zrem (member : List UInt8) : Request :=
  shrinking asSortedSet key (fun entries =>
    (entries.remove member).map fun rest => (.count 1, rest))
    (·.byMember.entries.isEmpty) (.count 0)

-- ===== reading

/-- `get`: any value, and a touch if there is one. -/
def get : Request :=
  .read ⟨key, .value none, fun value => .ok (.value (value.map MutableObjectValue.toMfsValue)),
    true⟩

/-- `typed_get`: a `get` that expects a type. -/
def typedGet (expected : String) (missing : ObjectReply)
    (extract : MfsValue → Option ObjectReply) : Request :=
  .read ⟨key, missing, fun
    | none => .ok missing
    | some value =>
      match extract value.toMfsValue with
      | some reply => .ok reply
      | none => .error (wrongTypeTag expected value.toMfsValue.tag), true⟩

def getBytes : Request :=
  typedGet key "bytes" (.item none) fun
    | .bytes bytes => some (.item (some bytes))
    | _ => none

def getString : Request :=
  typedGet key "string" (.text none) fun
    | .string value => some (.text (some value))
    | _ => none

def getInteger : Request :=
  typedGet key "integer" (.integer none) fun
    | .integer value => some (.integer (some value))
    | _ => none

/-- A look into the collection of a key. -/
def looking {α : Type} (lens : Lens α) (key : Key) (missing : ObjectReply)
    (observe : α → ObjectReply) : Request :=
  .read ⟨key, missing, fun
    | some value =>
      match lens.view value with
      | some a => .ok (observe a)
      | none => .error (wrongTypeTag lens.expected value.tag)
    | none => .ok missing, false⟩

def listLen : Request :=
  looking asList key (.count 0) fun values => .count values.length

def listRange (start stop : Int64) : Request :=
  looking asList key (.items []) fun values => .items (rangeOf values start stop)

def listIndex (index : Int64) : Request :=
  looking asList key (.item none) fun values =>
    .item ((resolveIndex values.length index).bind (values[·]?))

def hashGet (field : List UInt8) : Request :=
  looking asHash key (.item none) fun fields => .item (fields.find? field)

def hashLen : Request :=
  looking asHash key (.count 0) fun fields => .count fields.size

def hashGetAll : Request :=
  looking asHash key (.fields .empty) .fields

def hashExists (field : List UInt8) : Request :=
  looking asHash key (.flag false) fun fields => .flag (fields.find? field).isSome

def setContains (member : List UInt8) : Request :=
  looking asSet key (.flag false) fun members => .flag (members.find? member).isSome

def setLen : Request :=
  looking asSet key (.count 0) fun members => .count members.size

def setMembers : Request :=
  looking asSet key (.members .empty) .members

def zscore (member : List UInt8) : Request :=
  looking asSortedSet key (.score none) fun entries => .score (entries.score member)

def zrange (start stop : Int64) : Request :=
  looking asSortedSet key (.items []) fun entries => .items (entries.range start stop)

def zlen : Request :=
  looking asSortedSet key (.count 0) fun entries => .count entries.len

end MemoryFirst.Compat
