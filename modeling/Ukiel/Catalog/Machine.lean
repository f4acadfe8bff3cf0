/-
# The catalog under concurrent clients

Every client of the catalog at once.  The state `Db` is the committed tables, the open
transactions with their private writes, the sequences, the clock, and what each client has been
told; an `Event` is one thing that can happen next, and `step` says whether it can and what it
does.  An interleaving is a list of events (`Lts.run`).

What comes from PostgreSQL and not from the repository is kept in one place:

* a statement WAITS (its event is not enabled) while another open transaction holds the row,
  the unique key or the advisory lock it needs (`Db.waits`), and then runs on the tables as
  they are at that moment;
* locks are held until the transaction ends, so they are read off its writes;
* a sequence hands out increasing values outside transaction order and never takes one back;
* COMMIT makes the writes visible and releases the locks in one step, and the server may
  perform it after the client has lost the connection (`lost`).

A client may also vanish before COMMIT is sent (`abandon`): its transaction can then only roll
back, but keeps its locks until it does.
-/
import Mathlib.Data.List.AList
import Ukiel.Lib.Lts
import Ukiel.Catalog.Leases

namespace Ukiel.Catalog

/-! ## 1. State -/

/-- An open transaction of `commit_txn`. -/
structure Txn where
  call : Call
  startedAt : Int
  /-- The statements still to be sent. -/
  rest : List Stmt
  w : Writes := {}
  /-- The client is still sending statements. -/
  attached : Bool := true
  /-- The client has sent COMMIT. -/
  sent : Bool := false
deriving DecidableEq

/-- A durable transaction: history keeps what the tables do not, the call itself. -/
structure Committed where
  txn : Nat
  id : Int
  call : Call
deriving DecidableEq

/-- A `try_acquire_compaction_lease` statement that has evaluated its VALUES list (and so drawn
a generation) but has not yet reached the row. -/
structure Claim where
  key : LeaseKey
  ownerId : Uuid
  generation : Int
  expiresAt : Int
deriving DecidableEq

/-- One tenancy of a partition, from the acquisition that started it.  `expiresAt` follows the
row while the tenancy lasts, and `released` records a clean end. -/
structure Tenancy where
  key : LeaseKey
  ownerId : Uuid
  generation : Int
  stmt : Nat
  expiresAt : Int
  released : Bool
deriving DecidableEq

instance lawful_head : LawfulBEq (HypertableId × Int) := inferInstance

structure Db where
  tables : Tables := {}
  txns : AList (fun _ : Nat => Txn) := ∅
  nextTxn : Nat := 0
  replies : Nat → Option Reply := fun _ => none
  history : List Committed := []
  /-- Holders of the exclusive feed barrier. -/
  barrier : AList (fun _ : Nat => HypertableId) := ∅
  /-- Every head a feed reader has been given. -/
  heads : List (HypertableId × Int) := []
  claims : AList (fun _ : Nat => Claim) := ∅
  nextClaim : Nat := 0
  tenancies : List Tenancy := []
  commitSeq : Int := 1
  partSeq : Int := 1
  generationSeq : Int := 1
  clock : Int := 0

/-! ## 2. Events -/

inductive Event where
  /-- A client opens a transaction for the call. -/
  | begin (c : Call)
  /-- The next statement of the transaction runs. -/
  | stmt (t : Nat)
  /-- The client sends COMMIT. -/
  | sendCommit (t : Nat)
  /-- The server makes the transaction durable. -/
  | commit (t : Nat)
  /-- The server drops the transaction. -/
  | rollback (t : Nat) (failure : DbFailure)
  /-- The client gives up before COMMIT. -/
  | abandon (t : Nat) (failure : DbFailure)
  /-- The connection dies around COMMIT. -/
  | lost (t : Nat)
  /-- The client receives the acknowledgement. -/
  | ack (t : Nat)
  /-- `pg_advisory_xact_lock` of `feed_head_in_tx`. -/
  | lockBarrier (r : Nat) (h : HypertableId)
  /-- `SELECT max(id)` of `feed_head_in_tx`. -/
  | readHead (r : Nat)
  /-- The reader's transaction ends. -/
  | unlockBarrier (r : Nat)
  /-- An acquisition evaluates its VALUES list. -/
  | drawLease (key : LeaseKey) (owner : Uuid) (ttl : Nat)
  /-- An acquisition inserts or updates its row, or finds a peer's. -/
  | installLease (k : Nat)
  | renewLease (lease : CompactionLease) (ttl : Nat)
  | releaseLease (lease : CompactionLease)
  | registerPending (h : HypertableId) (paths : List String)
  | clearPending (paths : List String)
  | markPurged (parts : List Int)
  | setCursor (worker : String) (h : HypertableId) (cursor : Int)
  | tick (now : Int)

/-! ## 3. Waiting -/

/-- The other transaction holds a lock the statement needs. -/
def Txn.blocks (other : Txn) (c : Call) : Stmt → Prop
  | .lockLease lease => ⟨c.hypertableId, lease.partitionValues⟩ ∈ other.w.leaseLocks
  | .insertCommit => ∃ r ∈ other.w.row.toList, c.Keyed r
  | .tombstone ids => ∃ i ∈ ids, i ∈ other.w.tombstoned
  | .unpend paths => ∃ p ∈ paths, p ∈ other.w.unpended
  | .casOffset r => c.offsetKey r ∈ other.w.offsets.map Prod.fst
  | _ => False

instance (other : Txn) (c : Call) (s : Stmt) : Decidable (other.blocks c s) := by
  cases s <;> unfold Txn.blocks <;> infer_instance

/-- The statement has to wait: for another transaction, or for a feed reader. -/
def Db.waits (db : Db) (t : Nat) (c : Call) (s : Stmt) : Prop :=
  (∃ e ∈ db.txns.entries, e.1 ≠ t ∧ e.2.blocks c s) ∨
    (s = .lockShared ∧ ∃ b ∈ db.barrier.entries, b.2 = c.hypertableId)

instance (db : Db) (t : Nat) (c : Call) (s : Stmt) : Decidable (db.waits t c s) := by
  unfold Db.waits; infer_instance

/-- No open transaction has the lease row locked. -/
def Db.leaseFree (db : Db) (k : LeaseKey) : Prop :=
  ∀ e ∈ db.txns.entries, k ∉ e.2.w.leaseLocks

instance (db : Db) (k : LeaseKey) : Decidable (db.leaseFree k) := by
  unfold Db.leaseFree; infer_instance

/-! ## 4. What an event does -/

def Db.env (db : Db) (τ : Txn) : Env := ⟨τ.startedAt, db.clock, db.commitSeq, db.partSeq⟩

/-- Sequences move when a statement draws from them, whatever becomes of it. -/
def Db.draw (db : Db) : Stmt → Db
  | .nextval => { db with commitSeq := db.commitSeq + 1 }
  | .insertPart _ => { db with partSeq := db.partSeq + 1 }
  | _ => db

def Db.reply (db : Db) (t : Nat) (r : Reply) : Db :=
  { db with replies := Function.update db.replies t (some r) }

/-- A later failure cannot change what a client was already told. -/
def Db.replyOnce (db : Db) (t : Nat) (r : Reply) : Db :=
  match db.replies t with
  | some _ => db
  | none => db.reply t r

/-- `ambiguous_or_definite`: only a transport failure at COMMIT is ambiguous. -/
def ambiguousOrDefinite (identity : Option OperationIdentity) (failure : DbFailure) :
    CatalogError :=
  if failure ≠ .transport then .db failure
  else
    match identity with
    | some i => .ambiguousMutation i
    | none => .unidentifiedAmbiguousMutation

/-- `feed_head_in_tx`: the largest committed id, 0 when there is none. -/
def feedHead (T : Tables) (h : HypertableId) : Int :=
  (((T.commits.filter fun r => r.hypertableId = h).map CommitRow.id).max?).getD 0

/-- `register_pending_objects`: one intent per path, an existing one is kept. -/
def registerPendingObjects (T : Tables) (h : HypertableId) (now : Int) (paths : List String) :
    Tables :=
  { T with pendingObjects := paths.foldl (fun rows p =>
      if ∃ r ∈ rows, r.path = p then rows else rows ++ [⟨h, p, now⟩]) T.pendingObjects }

/-- `clear_pending_objects`. -/
def clearPendingObjects (T : Tables) (paths : List String) : Tables :=
  { T with pendingObjects := T.pendingObjects.filter fun r => r.path ∉ paths }

/-- `mark_purged`. -/
def markPurged (T : Tables) (now : Int) (ids : List Int) : Tables :=
  { T with parts := T.parts.map fun p => if p.id ∈ ids then { p with purgedAt := some now } else p }

/-- `set_cursor`: advances a cursor, never retreats it. -/
def setCursor (T : Tables) (worker : String) (h : HypertableId) (cursor : Int) : Tables :=
  match T.workerCursors (worker, h) with
  | some stored =>
    if stored < cursor then
      { T with workerCursors := Function.update T.workerCursors (worker, h) (some cursor) }
    else T
  | none => { T with workerCursors := Function.update T.workerCursors (worker, h) (some cursor) }

/-- `get_cursor`. -/
def getCursor (T : Tables) (worker : String) (h : HypertableId) : Int :=
  (T.workerCursors (worker, h)).getD 0

/-- The lease row becomes `row`. -/
def Db.setLease (db : Db) (k : LeaseKey) (row : Option LeaseRow) : Db :=
  { db with tables := { db.tables with
      compactionLeases := Function.update db.tables.compactionLeases k row } }

/-- The tenancies of generation `g` are updated. -/
def Db.onTenancy (db : Db) (g : Int) (f : Tenancy → Tenancy) : Db :=
  { db with tenancies := db.tenancies.map fun x => if x.generation = g then f x else x }

/-- The acquisition reaches the row. -/
def Db.installLease (db : Db) (k : Nat) (cl : Claim) : Db :=
  let db' := { db with claims := db.claims.erase k }
  match tryAcquireCompactionLease (db.tables.compactionLeases cl.key) cl.ownerId cl.generation
      cl.expiresAt db.clock with
  | none => db'
  | some row =>
    let db'' := db'.setLease cl.key (some row)
    if row.generation = cl.generation then
      { db'' with tenancies := db.tenancies ++
          [⟨cl.key, cl.ownerId, cl.generation, k, cl.expiresAt, false⟩] }
    else db''.onTenancy row.generation fun x => { x with expiresAt := cl.expiresAt }

/-- A statement of an open transaction: it goes on with the rest, or returns. -/
def Db.runStmt (db : Db) (t : Nat) (τ : Txn) (s : Stmt) (rest : List Stmt) : Db :=
  match execStmt db.tables τ.call (db.env τ) τ.w s with
  | .ok w => { db.draw s with txns := db.txns.insert t { τ with rest := rest, w := w } }
  | .error r => { db.reply t r with txns := db.txns.erase t }

/-- **One event.**  `none` when it cannot happen. -/
def step (db : Db) : Event → Option Db
  | .begin c =>
    if c.Scoped then
      some { db with
        txns := db.txns.insert db.nextTxn { call := c, startedAt := db.clock, rest := plan c }
        nextTxn := db.nextTxn + 1 }
    else some { db.reply db.nextTxn c.mismatch with nextTxn := db.nextTxn + 1 }
  | .stmt t =>
    match db.txns.lookup t with
    | none => none
    | some τ =>
      match τ.rest with
      | [] => none
      | s :: rest =>
        if τ.attached = true ∧ ¬ db.waits t τ.call s then some (db.runStmt t τ s rest) else none
  | .sendCommit t =>
    match db.txns.lookup t with
    | none => none
    | some τ =>
      if τ.attached = true ∧ τ.rest = [] then
        some { db with txns := db.txns.insert t { τ with sent := true } }
      else none
  | .commit t =>
    match db.txns.lookup t with
    | none => none
    | some τ =>
      if τ.sent = true then
        some { db with
          tables := τ.w.apply db.tables
          txns := db.txns.erase t
          history := db.history ++ [⟨t, τ.w.cid.getD 0, τ.call⟩] }
      else none
  | .rollback t failure =>
    match db.txns.lookup t with
    | none => none
    | some τ =>
      some { db.replyOnce t (.error (if τ.sent = true then
          ambiguousOrDefinite τ.call.identity failure else .db failure)) with
        txns := db.txns.erase t }
  | .abandon t failure =>
    match db.txns.lookup t with
    | none => none
    | some τ =>
      if τ.attached = true ∧ τ.sent = false then
        some { db.replyOnce t (.error (.db failure)) with
          txns := db.txns.insert t { τ with attached := false } }
      else none
  | .lost t =>
    match db.txns.lookup t with
    | some τ =>
      if τ.sent = true then
        some (db.replyOnce t (.error (ambiguousOrDefinite τ.call.identity .transport)))
      else none
    | none =>
      match db.history.find? (fun e => e.txn = t) with
      | some e => some (db.replyOnce t (.error (ambiguousOrDefinite e.call.identity .transport)))
      | none => none
  | .ack t =>
    match db.history.find? (fun e => e.txn = t) with
    | some e => some (db.replyOnce t (.ok (.committed e.id)))
    | none => none
  | .lockBarrier r h =>
    if (∀ e ∈ db.txns.entries, ¬ (e.2.w.shared = true ∧ e.2.call.hypertableId = h)) ∧
        (∀ b ∈ db.barrier.entries, b.1 ≠ r ∧ b.2 ≠ h) then
      some { db with barrier := db.barrier.insert r h }
    else none
  | .readHead r =>
    match db.barrier.lookup r with
    | none => none
    | some h => some { db with heads := (h, feedHead db.tables h) :: db.heads }
  | .unlockBarrier r => some { db with barrier := db.barrier.erase r }
  | .drawLease key owner ttl =>
    match ttlMillis ttl with
    | .error _ => none
    | .ok ms =>
      some { db with
        claims := db.claims.insert db.nextClaim
          ⟨key, owner, db.generationSeq, expiryFrom db.clock ms⟩
        nextClaim := db.nextClaim + 1
        generationSeq := db.generationSeq + 1 }
  | .installLease k =>
    match db.claims.lookup k with
    | none => none
    | some cl => if db.leaseFree cl.key then some (db.installLease k cl) else none
  | .renewLease lease ttl =>
    match ttlMillis ttl with
    | .error _ => none
    | .ok ms =>
      if db.leaseFree (leaseKey lease) then
        match renewCompactionLease (db.tables.compactionLeases (leaseKey lease)) lease ms
            db.clock with
        | none => some db
        | some row =>
          some ((db.setLease (leaseKey lease) (some row)).onTenancy row.generation
            fun x => { x with expiresAt := row.expiresAt })
      else none
  | .releaseLease lease =>
    if db.leaseFree (leaseKey lease) then
      if releaseCompactionLease (db.tables.compactionLeases (leaseKey lease)) lease = true then
        some ((db.setLease (leaseKey lease) none).onTenancy lease.generation
          fun x => { x with released := true })
      else some db
    else none
  | .registerPending h paths =>
    -- An intent under deletion keeps its key until the transaction ends.  (Paths are fresh
    -- UUIDs, so nobody registers one again after committing it.)
    if ∀ e ∈ db.txns.entries, ∀ p ∈ paths, p ∉ e.2.w.unpended then
      some { db with tables := registerPendingObjects db.tables h db.clock paths }
    else none
  | .clearPending paths =>
    if ∀ e ∈ db.txns.entries, ∀ p ∈ paths, p ∉ e.2.w.unpended then
      some { db with tables := clearPendingObjects db.tables paths }
    else none
  | .markPurged ids =>
    if ∀ e ∈ db.txns.entries, ∀ i ∈ ids, i ∉ e.2.w.tombstoned then
      some { db with tables := markPurged db.tables db.clock ids }
    else none
  | .setCursor worker h cursor => some { db with tables := setCursor db.tables worker h cursor }
  | .tick now => if db.clock ≤ now then some { db with clock := now } else none

end Ukiel.Catalog
