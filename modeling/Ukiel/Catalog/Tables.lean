/-
# The catalog's tables and the statements of a commit

The rows of `migrations/0001_init.sql` and, one by one, the SQL statements that
`commit_txn` (`commit.rs`) sends.  `plan` lists the statements in the order the function sends
them and `execStmt` says what each one does, so that the same translation serves twice:

* run back to back on fixed tables it is `commitTxn`, the transaction as the function reads;
* run one statement at a time, with other transactions in between, it is the concurrent
  machine of `Catalog/Machine.lean`.

A statement sees the committed tables and its own transaction's writes (READ COMMITTED).  The
writes are kept apart (`Writes`) until COMMIT.  Only offset rows are ever read back by the
transaction that wrote them, so that is the only place where a statement consults its writes.
-/
import Mathlib.Data.List.Basic
import Ukiel.Core.Types

namespace Ukiel.Catalog

/-! ## 1. Rows -/

/-- A row of `commits`. -/
structure CommitRow where
  id : Int
  hypertableId : HypertableId
  kind : CommitKind
  idempotencyKey : Option String
  operationFingerprint : Option Digest
  createdAt : Int
deriving DecidableEq

/-- A row of `parts`.  `key_filter` is a function of the metadata (`commit.rs`, `key_filter`)
and is not stored a second time. -/
structure PartRow where
  id : Int
  hypertableId : HypertableId
  partMeta : PartMeta
  createdByCommit : Int
  deletedByCommit : Option Int
  purgedAt : Option Int
deriving DecidableEq

/-- A row of `pending_objects`: write-ahead upload intent. -/
structure PendingRow where
  hypertableId : HypertableId
  path : String
  createdAt : Int
deriving DecidableEq

/-- The primary key of `ingest_offsets`. -/
structure OffsetKey where
  hypertableId : HypertableId
  topic : String
  kafkaPartition : Int
deriving DecidableEq

/-- The primary key of `compaction_leases`. -/
structure LeaseKey where
  hypertableId : HypertableId
  partitionValues : Json
deriving DecidableEq

/-- The other columns of `compaction_leases`. -/
structure LeaseRow where
  ownerId : Uuid
  generation : Int
  expiresAt : Int
deriving DecidableEq

/-- The committed contents of the catalog. -/
structure Tables where
  commits : List CommitRow := []
  parts : List PartRow := []
  ingestOffsets : OffsetKey → Option Int := fun _ => none
  pendingObjects : List PendingRow := []
  compactionLeases : LeaseKey → Option LeaseRow := fun _ => none
  workerCursors : String × HypertableId → Option Int := fun _ => none

/-- A part is live until some commit tombstones it. -/
def PartRow.live (p : PartRow) : Bool := p.deletedByCommit.isNone

/-- `live_parts` (`parts.rs`), without the optional key: the live parts of a hypertable. -/
def Tables.liveParts (T : Tables) (h : HypertableId) : List PartRow :=
  T.parts.filter fun p => p.hypertableId = h ∧ p.live

/-! ## 2. Calls -/

/-- The arguments of `commit_inner`. -/
structure Call where
  hypertableId : HypertableId
  op : CommitOp
  identity : Option OperationIdentity
  offsets : List OffsetRange
  lease : Option CompactionLease
deriving DecidableEq

/-- `PostgresCatalog::commit`. -/
def commit (h : HypertableId) (op : CommitOp) (identity : Option OperationIdentity) : Call :=
  ⟨h, op, identity, [], none⟩

/-- `PostgresCatalog::commit_with_offsets`: the identity is required. -/
def commitWithOffsets (h : HypertableId) (op : CommitOp) (offsets : List OffsetRange)
    (identity : OperationIdentity) : Call :=
  ⟨h, op, some identity, offsets, none⟩

/-- `PostgresCatalog::commit_compaction_replace`: the identity and the lease are required. -/
def commitCompactionReplace (h : HypertableId) (lease : CompactionLease) (old : List Int)
    (new : List PartMeta) (identity : OperationIdentity) : Call :=
  ⟨h, .replace old new, some identity, [], some lease⟩

/-- A commit row carries the call's operation key on the call's hypertable. -/
def Call.Keyed (c : Call) (r : CommitRow) : Prop :=
  r.hypertableId = c.hypertableId ∧ ∃ i, c.identity = some i ∧ r.idempotencyKey = some i.key

instance (c : Call) (r : CommitRow) : Decidable (c.Keyed r) :=
  match h : c.identity with
  | none => isFalse (by rintro ⟨-, i, hi, -⟩; rw [h] at hi; cases hi)
  | some i =>
    decidable_of_iff (r.hypertableId = c.hypertableId ∧ r.idempotencyKey = some i.key)
      (and_congr_right fun _ =>
        ⟨fun hk => ⟨i, h, hk⟩, fun ⟨j, hj, hk⟩ => by rw [h] at hj; cases hj; exact hk⟩)

/-! ## 3. Lookup and reconciliation -/

/-- `SELECT id, operation_fingerprint FROM commits WHERE hypertable_id = $1 AND
idempotency_key = $2`. -/
def Tables.operationRow (T : Tables) (i : OperationIdentity) : Option CommitRow :=
  T.commits.find? fun r => r.hypertableId = i.hypertableId ∧ r.idempotencyKey = some i.key

/-- `reconcile`: the commit when this exact intent is recorded, `none` when the key is free, a
collision when the key is there under different or unknowable intent. -/
def reconcile (i : OperationIdentity) : Option CommitRow → Except CatalogError (Option Int)
  | none => .ok none
  | some r =>
    match r.operationFingerprint with
    | none => .error (.operationKeyCollision i.key)
    | some stored =>
      if stored ≠ i.fingerprint then .error (.operationKeyCollision i.key) else .ok (some r.id)

/-- `lookup_in_tx`. -/
def lookupInTx (T : Tables) (i : OperationIdentity) : Except CatalogError (Option Int) :=
  reconcile i (T.operationRow i)

inductive OperationLookup where
  | absent
  | committed (id : Int)
deriving DecidableEq

/-- `lookup_operation`: a plain read of the committed tables. -/
def lookupOperation (T : Tables) (i : OperationIdentity) :
    Except CatalogError OperationLookup :=
  match lookupInTx T i with
  | .error e => .error e
  | .ok (some id) => .ok (.committed id)
  | .ok none => .ok .absent

/-! ## 4. Statements -/

/-- The statements of `commit_txn`. -/
inductive Stmt where
  /-- `pg_advisory_xact_lock_shared(~hypertable_id)`: the feed publication barrier. -/
  | lockShared
  /-- `lookup_in_tx` before the fence. -/
  | replay
  /-- `SELECT … FROM compaction_leases … FOR UPDATE` and the ownership test. -/
  | lockLease (lease : CompactionLease)
  /-- The rest of `fence_lease`: nothing outside the leased partition. -/
  | fenceParts (lease : CompactionLease)
  /-- The identity default of `commits.id`, evaluated before the conflict check. -/
  | nextval
  /-- `INSERT INTO commits … ON CONFLICT DO NOTHING`, and the lookup after a conflict. -/
  | insertCommit
  /-- `tombstone_parts`. -/
  | tombstone (parts : List Int)
  /-- One `INSERT INTO parts`. -/
  | insertPart (part : PartMeta)
  /-- `DELETE FROM pending_objects WHERE path = ANY(paths)`. -/
  | unpend (paths : List String)
  /-- One compare-and-set on `ingest_offsets`. -/
  | casOffset (range : OffsetRange)
deriving DecidableEq

/-- `insert_parts`. -/
def insertParts (parts : List PartMeta) : List Stmt :=
  parts.map .insertPart ++ [.unpend (parts.map PartMeta.path)]

/-- The `match op` of `commit_txn`. -/
def opPlan : CommitOp → List Stmt
  | .add parts => insertParts parts
  | .replace old new => .tombstone old :: insertParts new
  | .delete parts => [.tombstone parts]

/-- `if let Some(lease) = lease`: a replay is reconciled before the lease is judged. -/
def leasePlan (c : Call) : List Stmt :=
  match c.lease with
  | none => []
  | some lease => [.replay, .lockLease lease, .fenceParts lease]

/-- The statements of one `commit_txn`, in order. -/
def plan (c : Call) : List Stmt :=
  .lockShared :: (leasePlan c ++ .nextval :: .insertCommit :: (opPlan c.op ++
    c.offsets.map .casOffset))

/-! ## 5. What a statement does -/

/-- What a transaction has done so far and nobody else can see, together with the locks it
holds until it ends: the barrier, its operation key (`row`), its lease row, the part rows and
the offset rows it has written. -/
structure Writes where
  shared : Bool := false
  leaseLocks : List LeaseKey := []
  cid : Option Int := none
  row : Option CommitRow := none
  tombstoned : List Int := []
  inserted : List PartRow := []
  unpended : List String := []
  /-- Newest first. -/
  offsets : List (OffsetKey × Int) := []
deriving DecidableEq

/-- An offset row as the transaction sees it. -/
def Writes.offsetAt (w : Writes) (T : Tables) (k : OffsetKey) : Option Int :=
  match w.offsets.lookup k with
  | some n => some n
  | none => T.ingestOffsets k

/-- The tables once the transaction is durable. -/
def Writes.apply (w : Writes) (T : Tables) : Tables :=
  { T with
    commits := T.commits ++ w.row.toList
    parts := T.parts.map (fun p =>
      if p.id ∈ w.tombstoned then { p with deletedByCommit := w.cid } else p) ++ w.inserted
    pendingObjects := T.pendingObjects.filter fun r => r.path ∉ w.unpended
    ingestOffsets := w.offsetAt T }

/-- What the server supplies while a statement runs: `now()` (the transaction's start),
`clock_timestamp()` and the next value of each sequence. -/
structure Env where
  txnStart : Int
  now : Int
  nextCommit : Int
  nextPart : Int
deriving DecidableEq

def Call.offsetKey (c : Call) (r : OffsetRange) : OffsetKey :=
  ⟨c.hypertableId, r.topic, r.partition⟩

/-- The row the call inserts into `commits`. -/
def Call.commitRow (c : Call) (id : Int) (createdAt : Int) : CommitRow :=
  ⟨id, c.hypertableId, c.op.kind, c.identity.map OperationIdentity.key,
    c.identity.map OperationIdentity.fingerprint, createdAt⟩

/-- The live rows `tombstone_parts` matches. -/
def liveMatched (T : Tables) (c : Call) (ids : List Int) : List PartRow :=
  T.parts.filter fun p =>
    p.id ∈ ids ∧ p.hypertableId = c.hypertableId ∧ p.deletedByCommit = none

/-- The input rows `fence_lease` finds inside the leased partition. -/
def insideLease (T : Tables) (c : Call) (partition : Json) (ids : List Int) :
    List PartRow :=
  T.parts.filter fun p =>
    p.id ∈ ids ∧ p.hypertableId = c.hypertableId ∧ p.partMeta.partitionValues = partition

/-- One statement.  `.ok w` goes on with the next one; `.error r` is a `return r`, upon which
the transaction is dropped and rolls back. -/
def execStmt (T : Tables) (c : Call) (env : Env) (w : Writes) : Stmt → Except Reply Writes
  | .lockShared => .ok { w with shared := true }
  | .replay =>
    match c.identity with
    | none => .ok w
    | some i =>
      match lookupInTx T i with
      | .error e => .error (.error e)
      | .ok (some id) => .error (.ok (.alreadyApplied id))
      | .ok none => .ok w
  | .lockLease lease =>
    if c.hypertableId ≠ lease.hypertableId then
      .error (.error (.leasePartitionMismatch lease.partitionValues))
    else
      match T.compactionLeases ⟨c.hypertableId, lease.partitionValues⟩ with
      | none => .error (.error (.leaseLost lease.partitionValues))
      | some held =>
        if held.ownerId = lease.ownerId ∧ held.generation = lease.generation ∧
            env.now < held.expiresAt then
          .ok { w with leaseLocks := ⟨c.hypertableId, lease.partitionValues⟩ :: w.leaseLocks }
        else .error (.error (.leaseLost lease.partitionValues))
  | .fenceParts lease =>
    match c.op with
    | .replace old new =>
      if (∃ p ∈ new, p.partitionValues ≠ lease.partitionValues) ∨
          (insideLease T c lease.partitionValues old).length ≠ old.length then
        .error (.error (.leasePartitionMismatch lease.partitionValues))
      else .ok w
    | _ => .error (.error (.leasePartitionMismatch lease.partitionValues))
  | .nextval => .ok { w with cid := some env.nextCommit }
  | .insertCommit =>
    if ∃ r ∈ T.commits, c.Keyed r then
      match c.identity with
      | none => .error (.error (.notFound "a conflict requires a key"))
      | some i =>
        match lookupInTx T i with
        | .error e => .error (.error e)
        | .ok (some id) => .error (.ok (.alreadyApplied id))
        | .ok none => .error (.error (.notFound
            ("commit for operation " ++ i.key ++ " vanished between conflict and read")))
    else .ok { w with row := some (c.commitRow (w.cid.getD 0) env.txnStart) }
  | .tombstone ids =>
    if (liveMatched T c ids).length ≠ ids.length then
      .error (.error (.conflict ids.length (liveMatched T c ids).length))
    else .ok { w with tombstoned := w.tombstoned ++ ids }
  | .insertPart part =>
    .ok { w with inserted := w.inserted ++
      [⟨env.nextPart, c.hypertableId, part, w.cid.getD 0, none, none⟩] }
  | .unpend paths => .ok { w with unpended := w.unpended ++ paths }
  | .casOffset r =>
    match w.offsetAt T (c.offsetKey r) with
    | none => .ok { w with offsets := (c.offsetKey r, r.last + 1) :: w.offsets }
    | some next =>
      if next ≤ r.first then
        .ok { w with offsets := (c.offsetKey r, r.last + 1) :: w.offsets }
      else .error (.error (.offsetRace r.topic r.partition))

/-! ## 6. The transaction as the function reads -/

/-- Statements run back to back, each with what the server supplied to it. -/
def execAll (T : Tables) (c : Call) : List (Stmt × Env) → Writes → Except Reply Writes
  | [], w => .ok w
  | (s, env) :: rest, w =>
    match execStmt T c env w s with
    | .error r => .error r
    | .ok w' => execAll T c rest w'

/-- An identity is scoped to its hypertable. -/
def Call.Scoped (c : Call) : Prop := ∀ i, c.identity = some i → i.hypertableId = c.hypertableId

instance (c : Call) : Decidable c.Scoped :=
  match h : c.identity with
  | none => isTrue (by intro i hi; rw [h] at hi; cases hi)
  | some i => decidable_of_iff (i.hypertableId = c.hypertableId)
      ⟨fun hs j hj => by rw [h] at hj; cases hj; exact hs, fun hs => hs i h⟩

/-- The refusal of an identity that travels between hypertables. -/
def Call.mismatch (c : Call) : Reply :=
  .error (.operationHypertableMismatch ((c.identity.map OperationIdentity.hypertableId).getD 0)
    c.hypertableId)

/-- **`commit_txn` with nobody in between**: the reply and the tables afterwards.  `envs` is
what the server supplies to each statement in turn. -/
def commitTxn (T : Tables) (envs : List Env) (c : Call) : Reply × Tables :=
  if ¬ c.Scoped then (c.mismatch, T)
  else
    match execAll T c ((plan c).zip envs) {} with
    | .error r => (r, T)
    | .ok w => (.ok (.committed (w.cid.getD 0)), w.apply T)

end Ukiel.Catalog
