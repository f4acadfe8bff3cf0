/-
# Identifiers, parts and commit operations

The data model of `ukiel-core` (`ids.rs`, `part.rs`, `commit.rs`, `operation.rs`) and the
catalog's own value types (`offsets.rs`, `leases.rs`, `error.rs`), under the source's names.
Database `BIGINT`s are `Int`; nothing below depends on their width except where a module says
so.  What is only ever compared for equality has a name of its own (`HypertableId`, `Uuid`);
commit ids, part ids, offsets and timestamps (in microseconds) are ordered and stay plain
`Int`s.
-/
import Mathlib.Data.Set.Defs
import Ukiel.Core.Json

namespace Ukiel

/-! ## 1. Identifiers -/

abbrev HypertableId := Int
abbrev Uuid := Nat

/-- The values of an `i64`. -/
def I64 : Set Int := {v | -2 ^ 63 ≤ v ∧ v < 2 ^ 63}

instance (v : Int) : Decidable (v ∈ I64) :=
  inferInstanceAs (Decidable (-2 ^ 63 ≤ v ∧ v < 2 ^ 63))

theorem small_mem_I64 (n : UInt8) : (n.toNat : Int) ∈ I64 := by
  have := n.toNat_lt
  exact ⟨by omega, by omega⟩

/-- A small number. -/
def smallI64 (n : UInt8) : I64 := ⟨n.toNat, small_mem_I64 n⟩

/-- The bytes of a digest. -/
abbrev Digest := List UInt8

/-! ## 2. Parts and commit operations -/

/-- Metadata of one immutable Parquet file, before it has a catalog identity. -/
structure PartMeta where
  path : String
  partitionValues : Json
  packingKeyMin : Int
  packingKeyMax : Int
  rowCount : Int
  sizeBytes : Int
  level : Int
  columnStats : Option Json
deriving DecidableEq

/-- An atomic catalog mutation. -/
inductive CommitOp where
  | add (parts : List PartMeta)
  | replace (old : List Int) (new : List PartMeta)
  | delete (parts : List Int)
deriving DecidableEq

/-- `commits.kind`: `'add'`, `'replace'` or `'delete'`. -/
inductive CommitKind where
  | add
  | replace
  | delete
deriving DecidableEq

namespace CommitOp

def kind : CommitOp → CommitKind
  | .add _ => .add
  | .replace _ _ => .replace
  | .delete _ => .delete

/-- The parts the operation tombstones. -/
def oldParts : CommitOp → List Int
  | .add _ => []
  | .replace old _ => old
  | .delete parts => parts

/-- The parts the operation registers. -/
def newParts : CommitOp → List PartMeta
  | .add parts => parts
  | .replace _ new => new
  | .delete _ => []

end CommitOp

inductive CommitResult where
  | committed (id : Int)
  | alreadyApplied (id : Int)
deriving DecidableEq

/-- The identity of one logical catalog mutation. -/
structure OperationIdentity where
  hypertableId : HypertableId
  key : String
  fingerprint : Digest
deriving DecidableEq

/-- A consumed Kafka offset range, both ends inclusive. -/
structure OffsetRange where
  topic : String
  partition : Int
  first : Int
  last : Int
deriving DecidableEq

/-- A held claim on one partition's compaction: a token, never an authority. -/
structure CompactionLease where
  hypertableId : HypertableId
  partitionValues : Json
  ownerId : Uuid
  generation : Int
  expiresAt : Int
deriving DecidableEq

/-- Where a hypertable's data lives at rest; L0 is always packed. -/
inductive Placement where
  | packed
  | separated
  /-- Merge outputs are cut at key boundaries into files of about this many bytes. -/
  | sizeTargeted (n : Int)
deriving DecidableEq

/-! ## 3. Errors -/

/-- Why the driver failed (`CatalogErrorClass`, as far as a database failure can have one). -/
inductive DbFailure where
  | transport
  | retryable
  | permanent
deriving DecidableEq

/-- `CatalogError`, the variants a commit or a lookup can return. -/
inductive CatalogError where
  | conflict (expected liveMatched : Nat)
  | leaseLost (partition : Json)
  | leasePartitionMismatch (partition : Json)
  | notFound (what : String)
  | operationKeyCollision (key : String)
  | operationHypertableMismatch (identity mutation : HypertableId)
  | ambiguousMutation (identity : OperationIdentity)
  | unidentifiedAmbiguousMutation
  | offsetRace (topic : String) (partition : Int)
  | invalidLeaseTtl (reason : String)
  | db (failure : DbFailure)
deriving DecidableEq

/-- What a catalog call returns to its caller. -/
abbrev Reply := Except CatalogError CommitResult

end Ukiel
