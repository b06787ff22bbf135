/-
The value types and errors the store, its WAL and its checkpoints share
(`mfs-store/src/store/types.rs`, `config.rs`, `error.rs`).

Byte strings (`RawKey`, `RawValue`) are lists of bytes, compared
lexicographically; `DocumentVersion` and `Lsn` are natural numbers below
`2 ^ 64`, with the wrapping or saturating successor written out where
the source takes it. A path is present or absent; its name plays no
part.
-/
import MemoryFirst.Core.WriteBehind
import MemoryFirst.Store.SchemaValue

namespace MemoryFirst.Store

export Core (Operation)

abbrev RawKey := List UInt8
abbrev RawValue := List UInt8
abbrev DocumentVersion := Nat
abbrev Lsn := Nat

/-- `u64::MAX`. -/
def u64Max : Nat := 2 ^ 64 - 1

/-- `u64::saturating_add(1)`. -/
def saturatingSucc (n : Nat) : Nat := min (n + 1) u64Max

/-- `n + 1` on `u64` in a build without overflow checks. -/
def wrappingSucc (n : Nat) : Nat := (n + 1) % 2 ^ 64

inductive DurabilityMode where
  | memoryOnly
  | walAsync
  | walGroupCommit
  | walSync
  | snapshotOnly
  deriving DecidableEq, Repr

inductive WalCorruptionKind where
  | badMagic
  | unknownFormatVersion
  | checksumMismatch
  | malformedRecord
  | nonMonotonicLsn
  | payloadTooLarge
  | fieldTooLarge
  | unknownOperation
  deriving DecidableEq, Repr

inductive CheckpointCorruptionKind where
  | badMagic
  | unknownFormatVersion
  | checksumMismatch
  | malformedCheckpoint
  | payloadTooLarge
  | fieldTooLarge
  deriving DecidableEq, Repr

/-- The errors of the store. An input or output error occurs only where
the file system is made to fail (`Store/WalFaults.lean`). -/
inductive StoreError where
  | invalidConfig (field reason : String)
  | collectionAlreadyExists (collection : String)
  | collectionNotFound (collection : String)
  | collectionLimitExceeded (maxCollections : Nat)
  | collectionCapacityFull (collection : String)
  | conflict (collection : String) (key : RawKey) (expected actual : DocumentVersion)
  | schemaDefinition (collection : String) (error : SchemaError)
  | schemaDocument (collection : String) (error : SchemaValueError)
  | schemaMissingPrimaryField (collection : String)
  | schemaMissingPrimaryKey (collection field : String)
  | schemaPrimaryKeyTypeMismatch (collection field expected : String) (actual : SchemaValueKind)
  | schemaDecode (collection : String) (error : SchemaDecodeError)
  | schemaDeclarationMismatch (collection : String)
  | unsupportedExactIndex (collection field : String)
  | unindexedField (collection field : String)
  | schemaIndexKeyTypeMismatch (collection field expected : String) (actual : SchemaValueKind)
  | uniqueIndexConflict (collection field : String) (existing : RawKey)
  | referenceFieldNotFound (collection field : String)
  | referenceTargetCollectionNotFound (collection field targetCollection : String)
  | referenceTargetNotPrimary (collection field targetCollection targetField : String)
  | referenceTargetMismatch (collection field expectedCollection actualCollection : String)
  | walCorruption (offset : Nat) (kind : WalCorruptionKind)
  | walIo (operation message : String)
  | checkpointCorruption (kind : CheckpointCorruptionKind)
  | invalidUpdatePath (field reason : String)
  | primaryKeyUpdateForbidden
  | documentNotFound (collection : String)
  | numericOverflow (field : String)
  | updateTypeMismatch (field expected : String) (actual : SchemaValueKind)
  deriving DecidableEq

abbrev StoreResult := Except StoreError

/-- The configuration; `hasWalPath` stands for `wal_path.is_some()`. -/
structure MfsStoreConfig where
  maxCollections : Nat
  rawInitialCapacity : Nat
  durability : DurabilityMode
  hasWalPath : Bool
  deriving DecidableEq, Repr

structure WriteOptions where
  durability : Option DurabilityMode
  expectedVersion : Option DocumentVersion
  deriving DecidableEq, Repr

def WriteOptions.effectiveDurability (o : WriteOptions)
    (engineDefault : DurabilityMode) : DurabilityMode :=
  o.durability.getD engineDefault

inductive WriteAcknowledgement where
  | memoryOnly
  | walBuffered (lsn : Lsn)
  | walSynced (lsn : Lsn)
  | walGroupCommitted (lsn : Lsn)
  | snapshotOnly
  deriving DecidableEq, Repr

def WriteAcknowledgement.lsn : WriteAcknowledgement → Option Lsn
  | .memoryOnly => none
  | .snapshotOnly => none
  | .walBuffered lsn => some lsn
  | .walSynced lsn => some lsn
  | .walGroupCommitted lsn => some lsn

structure WriteResult where
  version : DocumentVersion
  lsn : Option Lsn
  acknowledgement : WriteAcknowledgement
  deriving DecidableEq, Repr

structure ReadResult where
  value : RawValue
  version : DocumentVersion
  deriving DecidableEq, Repr

end MemoryFirst.Store
