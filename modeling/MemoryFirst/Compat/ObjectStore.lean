/-
`mfs-compat/src/object_store.rs`: `MfsObjectStore`, the object store that
clones a value, changes the copy and puts it back, and the commands it
has in common with `MfsMutableObjectStore`.

The store is a write-behind cache of whole values. A command reads the
value of its key, which touches it, and decides what to put in its place
(`BoxedChange`); every value is validated before it is put. The families
are those of `ObjectCommands.lean`, over the values themselves: a sorted
set is the list of its entries here.

Calls are taken one after another: a command holds the mutation lock of
its key. The cache has room for every key.
-/
import MemoryFirst.Compat.MutableObjectStore

namespace MemoryFirst.Compat

open Lib Store Core

-- ===== the store

abbrev MfsObjectStore := WriteBehindCache Key MfsValue

inductive BoxedChange where
  | keep (reply : ObjectReply)
  | store (value : MfsValue) (reply : Nat → ObjectReply)
  | remove (reply : Nat → ObjectReply)

inductive BoxedRequest where
  | done (reply : Except ObjectStoreError ObjectReply)
  | put (key : Key) (value : MfsValue)
  | delete (key : Key)
  | edit (key : Key) (change : Option MfsValue → Except ObjectStoreError BoxedChange)
  | look (key : Key) (observe : Option MfsValue → Except ObjectStoreError ObjectReply)

namespace MfsObjectStore

variable (s : MfsObjectStore)

/-- `put_locked` and `put_pinned_locked`. -/
def putLocked (key : Key) (value : MfsValue) (reply : Nat → ObjectReply) :
    MfsObjectStore × Except ObjectStoreError ObjectReply :=
  match validateValue value with
  | .error e => (s, .error e)
  | .ok () =>
    let (s, version) := s.put key value
    (s, .ok (reply version))

/-- `delete_locked` and `delete_pinned_locked`. -/
def deleteLocked (key : Key) (reply : Nat → ObjectReply) :
    MfsObjectStore × Except ObjectStoreError ObjectReply :=
  let (s, version) := WriteBehindCache.delete s key
  (s, .ok (reply version))

def request : BoxedRequest → MfsObjectStore × Except ObjectStoreError ObjectReply
  | .done reply => (s, reply)
  | .put key value => putLocked s key value .version
  | .delete key => deleteLocked s key .version
  | .edit key change =>
    let (s, value) := WriteBehindCache.get s key
    match change value with
    | .error e => (s, .error e)
    | .ok (.keep reply) => (s, .ok reply)
    | .ok (.store value reply) => putLocked s key value reply
    | .ok (.remove reply) => deleteLocked s key reply
  | .look key observe =>
    let (s, value) := WriteBehindCache.get s key
    (s, observe value)

end MfsObjectStore

-- ===== families

/-- A value of one type inside a stored one. -/
structure BoxedLens (α : Type) where
  expected : String
  view : MfsValue → Option α
  make : α → MfsValue

namespace BoxedLens

def list : BoxedLens (List (List UInt8)) where
  expected := "list"
  view := fun
    | .list values => some values
    | _ => none
  make := .list

def hash : BoxedLens Fields where
  expected := "hash"
  view := fun
    | .hash fields => some fields
    | _ => none
  make := .hash

def set : BoxedLens Members where
  expected := "set"
  view := fun
    | .set members => some members
    | _ => none
  make := .set

def sortedSet : BoxedLens (List SortedSetEntry) where
  expected := "sorted set"
  view := fun
    | .sortedSet entries => some entries
    | _ => none
  make := .sortedSet

def bytes : BoxedLens (List UInt8) where
  expected := "bytes"
  view := fun
    | .bytes bytes => some bytes
    | _ => none
  make := .bytes

variable {α : Type} (lens : BoxedLens α) (key : Key)

def extending (empty : α) (extend : α → α) : BoxedRequest :=
  .edit key fun
    | some value =>
      match lens.view value with
      | some a => .ok (.store (lens.make (extend a)) .version)
      | none => .error (wrongTypeTag lens.expected value.tag)
    | none => .ok (.store (lens.make (extend empty)) .version)

def shrinking (takeOut : α → Option (ObjectReply × α))
    (isEmpty : α → Bool) (missing : ObjectReply) : BoxedRequest :=
  .edit key fun
    | some value =>
      match lens.view value with
      | some a =>
        match takeOut a with
        | none => .ok (.keep missing)
        | some (reply, rest) =>
          if isEmpty rest then .ok (.remove fun _ => reply)
          else .ok (.store (lens.make rest) fun _ => reply)
      | none => .error (wrongTypeTag lens.expected value.tag)
    | none => .ok (.keep missing)

def looking (missing : ObjectReply) (observe : α → ObjectReply) : BoxedRequest :=
  .look key fun
    | some value =>
      match lens.view value with
      | some a => .ok (observe a)
      | none => .error (wrongTypeTag lens.expected value.tag)
    | none => .ok missing

end BoxedLens

/-- `typed_get`. -/
def boxedTypedGet (key : Key) (expected : String) (missing : ObjectReply)
    (extract : MfsValue → Option ObjectReply) : BoxedRequest :=
  .look key fun
    | none => .ok missing
    | some value =>
      match extract value with
      | some reply => .ok reply
      | none => .error (wrongTypeTag expected value.tag)

-- ===== sorted sets

/-- The scores of a list of entries by member; the last one counts. -/
def byMember (entries : List SortedSetEntry) : SortedMap (List UInt8) UInt64 :=
  SortedMap.empty.insertMany (entries.map fun e => (e.member, e.score))

variable (scores : SortedMap (List UInt8) UInt64)

/-- The members in the order of their scores. -/
def scored : SortedMap ScoredMember Unit :=
  SortedMap.empty.insertMany (scores.entries.map fun e => (⟨e.2, e.1⟩, ()))

/-- The entries of the map, sorted by `total_cmp` of the scores and then
by member. Members are distinct, so no two entries are equal in it. -/
def sortEntries : List SortedSetEntry :=
  (scored scores).keys.map fun e => ⟨e.score, e.member⟩

/-- `retain` of `zrem`. -/
def retainOthers (member : List UInt8) (entries : List SortedSetEntry) :
    Option (ObjectReply × List SortedSetEntry) :=
  let rest := entries.filter fun e => e.member ≠ member
  if rest.length = entries.length then none else some (.count 1, rest)

-- ===== the commands

/-- The commands both stores have. `put` and the `set_` commands panic
where `try_put` returns an error. -/
inductive ObjectCommand where
  | tryPut (key : Key) (value : MfsValue)
  | delete (key : Key)
  | setBytes (key : Key) (value : List UInt8)
  | setString (key : Key) (value : String)
  | setInteger (key : Key) (value : Int64)
  | setJsonBytes (key : Key) (value : List UInt8)
  | setList (key : Key) (values : List (List UInt8))
  | setHash (key : Key) (fields : Fields)
  | setSet (key : Key) (members : Members)
  | setSortedSet (key : Key) (entries : List SortedSetEntry)
  | appendBytes (key : Key) (suffix : List UInt8)
  | incrBy (key : Key) (delta : Int64)
  | listPush (key : Key) (value : List UInt8)
  | listExtend (key : Key) (values : List (List UInt8))
  | listPopFront (key : Key)
  | listPopBack (key : Key)
  | listLen (key : Key)
  | listRange (key : Key) (start stop : Int64)
  | listIndex (key : Key) (index : Int64)
  | hashSet (key : Key) (field value : List UInt8)
  | hashSetMany (key : Key) (fields : List (List UInt8 × List UInt8))
  | hashGet (key : Key) (field : List UInt8)
  | hashDel (key : Key) (field : List UInt8)
  | hashLen (key : Key)
  | hashGetAll (key : Key)
  | hashExists (key : Key) (field : List UInt8)
  | setAdd (key : Key) (member : List UInt8)
  | setAddMany (key : Key) (members : List (List UInt8))
  | setRemove (key : Key) (member : List UInt8)
  | setContains (key : Key) (member : List UInt8)
  | setLen (key : Key)
  | setMembers (key : Key)
  | zadd (key : Key) (score : UInt64) (member : List UInt8)
  | zaddMany (key : Key) (entries : List (UInt64 × List UInt8))
  | zscore (key : Key) (member : List UInt8)
  | zrange (key : Key) (start stop : Int64)
  | zrem (key : Key) (member : List UInt8)
  | zlen (key : Key)
  | get (key : Key)
  | getBytes (key : Key)
  | getString (key : Key)
  | getInteger (key : Key)

namespace ObjectCommand

/-- The command in `MfsMutableObjectStore`. -/
def mutable : ObjectCommand → Request
  | .tryPut key value => Compat.tryPut key value
  | .delete key => Compat.delete key
  | .setBytes key value => Compat.setBytes key value
  | .setString key value => Compat.setString key value
  | .setInteger key value => Compat.setInteger key value
  | .setJsonBytes key value => Compat.setJsonBytes key value
  | .setList key values => Compat.setList key values
  | .setHash key fields => Compat.setHash key fields
  | .setSet key members => Compat.setSet key members
  | .setSortedSet key entries => Compat.setSortedSet key entries
  | .appendBytes key suffix => Compat.appendBytes key suffix
  | .incrBy key delta => Compat.incrBy key delta
  | .listPush key value => Compat.listPush key value
  | .listExtend key values => Compat.listExtend key values
  | .listPopFront key => Compat.listPopFront key
  | .listPopBack key => Compat.listPopBack key
  | .listLen key => Compat.listLen key
  | .listRange key start stop => Compat.listRange key start stop
  | .listIndex key index => Compat.listIndex key index
  | .hashSet key field value => Compat.hashSet key field value
  | .hashSetMany key fields => Compat.hashSetMany key fields
  | .hashGet key field => Compat.hashGet key field
  | .hashDel key field => Compat.hashDel key field
  | .hashLen key => Compat.hashLen key
  | .hashGetAll key => Compat.hashGetAll key
  | .hashExists key field => Compat.hashExists key field
  | .setAdd key member => Compat.setAdd key member
  | .setAddMany key members => Compat.setAddMany key members
  | .setRemove key member => Compat.setRemove key member
  | .setContains key member => Compat.setContains key member
  | .setLen key => Compat.setLen key
  | .setMembers key => Compat.setMembers key
  | .zadd key score member => Compat.zadd key score member
  | .zaddMany key entries => Compat.zaddMany key entries
  | .zscore key member => Compat.zscore key member
  | .zrange key start stop => Compat.zrange key start stop
  | .zrem key member => Compat.zrem key member
  | .zlen key => Compat.zlen key
  | .get key => Compat.get key
  | .getBytes key => Compat.getBytes key
  | .getString key => Compat.getString key
  | .getInteger key => Compat.getInteger key

/-- The command in `MfsObjectStore`, with its body. -/
def boxed : ObjectCommand → BoxedRequest
  | .tryPut key value => .put key value
  | .delete key => .delete key
  | .setBytes key value => .put key (.bytes value)
  | .setString key value => .put key (.string value)
  | .setInteger key value => .put key (.integer value)
  | .setJsonBytes key value => .put key (.json value)
  | .setList key values => .put key (.list values)
  | .setHash key fields => .put key (.hash fields)
  | .setSet key members => .put key (.set members)
  | .setSortedSet key entries =>
    match validateSortedSetEntries entries with
    | .error e => .done (.error e)
    | .ok () => .put key (.sortedSet (sortEntries (byMember entries)))
  | .appendBytes key suffix => BoxedLens.bytes.extending key [] (· ++ suffix)
  | .incrBy key delta => .edit key fun value => do
    let current : Int64 ← match value with
      | some (.integer value) => .ok value
      | some other => .error (wrongTypeTag "integer" other.tag)
      | none => .ok 0
    let next := current.toInt + delta.toInt
    if -2 ^ 63 ≤ next ∧ next < 2 ^ 63 then
      return .store (.integer (Int64.ofInt next)) fun _ => .integer (some (Int64.ofInt next))
    else throw (.invalidValue "integer increment overflow")
  | .listPush key value => BoxedLens.list.extending key [] (· ++ [value])
  | .listExtend key values =>
    if values = [] then .done (.ok (.version 0))
    else BoxedLens.list.extending key [] (· ++ values)
  | .listPopFront key => BoxedLens.list.shrinking key (fun
      | [] => none
      | value :: values => some (.item (some value), values))
      List.isEmpty (.item none)
  | .listPopBack key => BoxedLens.list.shrinking key (fun values =>
    values.getLast?.map fun value => (.item (some value), values.dropLast))
    List.isEmpty (.item none)
  | .listLen key =>
    BoxedLens.list.looking key (.count 0) fun values => .count values.length
  | .listRange key start stop =>
    BoxedLens.list.looking key (.items []) fun values =>
      .items (rangeOf values start stop)
  | .listIndex key index =>
    BoxedLens.list.looking key (.item none) fun values =>
      .item ((resolveIndex values.length index).bind (values[·]?))
  | .hashSet key field value => BoxedLens.hash.extending key .empty (·.insert field value)
  | .hashSetMany key fields =>
    if fields = [] then .done (.ok (.version 0))
    else BoxedLens.hash.extending key .empty (·.insertMany fields)
  | .hashGet key field =>
    BoxedLens.hash.looking key (.item none) fun fields => .item (fields.find? field)
  | .hashDel key field => BoxedLens.hash.shrinking key
      (removeKey · field) (·.entries.isEmpty) (.count 0)
  | .hashLen key => BoxedLens.hash.looking key (.count 0) fun fields => .count fields.size
  | .hashGetAll key => BoxedLens.hash.looking key (.fields .empty) .fields
  | .hashExists key field =>
    BoxedLens.hash.looking key (.flag false) fun fields =>
      .flag (fields.find? field).isSome
  | .setAdd key member => BoxedLens.set.extending key .empty (·.insert member ())
  | .setAddMany key members =>
    if members = [] then .done (.ok (.version 0))
    else BoxedLens.set.extending key .empty (·.insertMany (members.map fun member => (member, ())))
  | .setRemove key member => BoxedLens.set.shrinking key
      (removeKey · member) (·.entries.isEmpty) (.count 0)
  | .setContains key member =>
    BoxedLens.set.looking key (.flag false) fun members =>
      .flag (members.find? member).isSome
  | .setLen key => BoxedLens.set.looking key (.count 0) fun members => .count members.size
  | .setMembers key => BoxedLens.set.looking key (.members .empty) .members
  | .zadd key score member =>
    if f64IsFinite score then
      BoxedLens.sortedSet.extending key [] fun entries =>
        sortEntries ((byMember entries).insert member score)
    else .done (.error (.invalidValue "sorted set scores must be finite"))
  | .zaddMany key entries =>
    if entries = [] then .done (.ok (.version 0))
    else if ∃ entry ∈ entries, ¬ f64IsFinite entry.1 then
      .done (.error (.invalidValue "sorted set scores must be finite"))
    else BoxedLens.sortedSet.extending key [] fun existing =>
      sortEntries ((byMember existing).insertMany (entries.map fun entry => (entry.2, entry.1)))
  | .zscore key member =>
    BoxedLens.sortedSet.looking key (.score none) fun entries =>
      .score ((entries.find? fun e => e.member = member).map SortedSetEntry.score)
  | .zrange key start stop =>
    BoxedLens.sortedSet.looking key (.items []) fun entries =>
      .items ((rangeOf entries start stop).map SortedSetEntry.member)
  | .zrem key member => BoxedLens.sortedSet.shrinking key
      (retainOthers member) List.isEmpty (.count 0)
  | .zlen key =>
    BoxedLens.sortedSet.looking key (.count 0) fun entries => .count entries.length
  | .get key => .look key fun value => .ok (.value value)
  | .getBytes key => boxedTypedGet key "bytes" (.item none) fun
      | .bytes bytes => some (.item (some bytes))
      | _ => none
  | .getString key => boxedTypedGet key "string" (.text none) fun
      | .string value => some (.text (some value))
      | _ => none
  | .getInteger key => boxedTypedGet key "integer" (.integer none) fun
      | .integer value => some (.integer (some value))
      | _ => none

end ObjectCommand

end MemoryFirst.Compat
