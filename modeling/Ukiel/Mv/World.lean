/-
# Materialized-view replicas

Any number of replicas of `MvFleet`, on any number of hosts, over the catalog of
`Catalog/Machine.lean` and the registrations of `Catalog/Pipelines.lean`.  A replica takes up one
event of one pipeline at a time: it reads the pipeline's cursor and the next event behind it,
checks whether somebody else has completed it, reads and transforms the source rows, checks
again, publishes one ADD under the event's identity, and advances the cursor.  Each of these is a
step of its own.  A replica may vanish between any two, which leaves its open transaction to the
server; and what it computes for an event (rows, nothing, an error) is its own affair, so that
two replicas may disagree.

`attempts` is no state of the program: it records what each publication was made for.
-/
import Ukiel.Catalog.Offsets
import Ukiel.Catalog.Pipelines
import Ukiel.Core.Identity

namespace Ukiel.Mv
open Ukiel.Catalog

/-! ## 1. State -/

/-- `error_policy`. -/
inductive ErrorPolicy where
  | stall
  | skip
deriving DecidableEq

/-- A row of `pipelines` with a Parquet source, as far as a replica reads it. -/
structure Pipeline where
  source : HypertableId
  target : HypertableId
  errorPolicy : ErrorPolicy
deriving DecidableEq

/-- `MV_TRANSFORMATION_VERSION`. -/
def mvTransformationVersion : Nat := 1

def mvIntent (id : PipelineId) (p : Pipeline) (commit : Int) : MvIntent :=
  ⟨id, p.source, commit, mvTransformationVersion⟩

/-- The identity of processing one source commit. -/
def mvIdentity (hash : List UInt8 → Digest) (id : PipelineId) (p : Pipeline) (commit : Int) :
    Except OperationError OperationIdentity :=
  OperationIdentity.mv hash p.target (mvIntent id p commit)

/-- Where `process_event` asks `completed`, with what it goes on with when the answer is no. -/
inductive Check where
  | beforeRead
  | sourceRead
  /-- The transformation failed. -/
  | transform (dataError : Bool)
  /-- It gave these L0 parts. -/
  | beforePublish (items : List PartMeta)
deriving DecidableEq

/-- What a replica is about to do. -/
inductive Phase where
  /-- `changes_since`, behind the cursor it has read. -/
  | page (cursor : Int)
  /-- `process_event`. -/
  | process (ev : ChangeEvent)
  /-- `completed` reads the cursor. -/
  | check (ev : ChangeEvent) (i : OperationIdentity) (c : Check)
  /-- `completed` looks the operation up. -/
  | lookup (ev : ChangeEvent) (i : OperationIdentity) (c : Check)
  /-- `read_input`. -/
  | read (ev : ChangeEvent) (i : OperationIdentity)
  /-- `execute_pipeline` and `batches_to_l0_items`. -/
  | transform (ev : ChangeEvent) (i : OperationIdentity)
  /-- `publish_add` has uploaded and sends its commit. -/
  | publish (ev : ChangeEvent) (i : OperationIdentity) (items : List PartMeta)
  /-- It waits for the answer. -/
  | wait (ev : ChangeEvent) (i : OperationIdentity) (t : Nat)
  /-- `advance`. -/
  | advance (ev : ChangeEvent)
deriving DecidableEq

structure Replica where
  id : PipelineId
  pipeline : Pipeline
  phase : Phase
deriving DecidableEq

/-- What a publication was made for. -/
structure Attempt where
  id : PipelineId
  pipeline : Pipeline
  commit : Int
  identity : OperationIdentity
  items : List PartMeta
deriving DecidableEq

/-- `AddCommit::Plain`. -/
def Attempt.call (a : Attempt) : Call :=
  Catalog.commit a.pipeline.target (.add a.items) (some a.identity)

structure World where
  feed : Pipelines := {}
  replicas : AList (fun _ : Nat => Replica) := ∅
  /-- By transaction number. -/
  attempts : AList (fun _ : Nat => Attempt) := ∅

def World.db (s : World) : Db := s.feed.db

/-! ## 2. Moves -/

inductive Move where
  /-- Something else happens in the catalog, or a pipeline registers. -/
  | feed (f : PipelineEvent)
  /-- A replica turns to a pipeline: `read_mv_cursor`. -/
  | poll (n : Nat) (id : PipelineId)
  /-- `changes_since`, once `feed_head` has returned `H`. -/
  | page (n : Nat) (H : Int)
  /-- `process_event` looks at the kind of the event. -/
  | process (n : Nat)
  /-- `completed` reads the cursor. -/
  | check (n : Nat)
  /-- `completed` looks the operation up. -/
  | lookup (n : Nat)
  /-- The source parts have been read, or could not be. -/
  | read (n : Nat) (ok : Bool)
  /-- The transformation gave parts, or an error (about the data, or not). -/
  | transform (n : Nat) (result : Except Bool (List PartMeta))
  | publish (n : Nat)
  /-- The answer to the publication arrives. -/
  | hear (n : Nat)
  /-- `set_cursor` at the event. -/
  | advance (n : Nat)
  | crash (n : Nat)

/-- The key belongs to the mv domain. -/
def MvKey (key : String) : Prop := "ukiel/mv/".toList <+: key.toList

instance (key : String) : Decidable (MvKey key) := by unfold MvKey; infer_instance

/-- A call of some other client: every domain has keys of its own. -/
def Foreign (c : Call) : Prop := ∀ i ∈ c.identity, ¬ MvKey i.key

instance (c : Call) : Decidable (Foreign c) := by unfold Foreign; infer_instance

/-- An event of the catalog that no replica causes. -/
def Elsewhere : Event → Prop
  | .begin c => Foreign c
  | .setCursor worker _ _ => isMvWorker worker = false
  | _ => True

instance (e : Event) : Decidable (Elsewhere e) := by
  rcases e <;> unfold Elsewhere <;> infer_instance

/-- A pipeline registers on its own source. -/
def Registers (defs : PipelineId → Option Pipeline) : PipelineEvent → Prop
  | .catalog e => Elsewhere e
  | .register _ id source => (defs id).map Pipeline.source = some source
  | _ => True

instance (defs : PipelineId → Option Pipeline) (f : PipelineEvent) :
    Decidable (Registers defs f) := by
  cases f <;> unfold Registers <;> infer_instance

/-- The replica goes on to the phase. -/
def World.goto (s : World) (n : Nat) (r : Replica) (phase : Phase) : World :=
  { s with replicas := s.replicas.insert n { r with phase := phase } }

/-- Its attempt at the event is over, whether it is completed or has failed. -/
def World.done (s : World) (n : Nat) : World := { s with replicas := s.replicas.erase n }

/-- `process_event` goes on after `completed` has answered no. -/
def World.resume (s : World) (n : Nat) (r : Replica) (ev : ChangeEvent) (i : OperationIdentity) :
    Check → World
  | .beforeRead => s.goto n r (.read ev i)
  | .sourceRead => s.done n
  | .transform dataError =>
    if r.pipeline.errorPolicy = .skip ∧ dataError = true then
      s.goto n r (.check ev i (.beforePublish []))
    else s.done n
  | .beforePublish items => s.goto n r (.publish ev i items)

/-- One step of a replica, in the phase it is in. -/
def World.act (hash : List UInt8 → Digest) (s : World) (n : Nat) (r : Replica) :
    Move → Phase → Option World
  | .page _ H, .page cursor =>
    if (r.pipeline.source, H) ∈ s.db.heads then
      match changesSince s.db.tables r.pipeline.source cursor H 1 with
      | [] => some (s.done n)
      | ev :: _ => some (s.goto n r (.process ev))
    else none
  | .process _, .process ev =>
    match ev.kind with
    | .replace => some (s.goto n r (.advance ev))
    | .delete => some (s.goto n r (.advance ev))
    | .add =>
      match mvIdentity hash r.id r.pipeline ev.commitId with
      | .error _ => some (s.done n)
      | .ok i => some (s.goto n r (.check ev i .beforeRead))
  | .check _, .check ev i c =>
    match s.db.tables.workerCursors (mvWorker r.id, r.pipeline.source) with
    | none => some (s.done n)
    | some cursor =>
      if ev.commitId ≤ cursor then some (s.done n) else some (s.goto n r (.lookup ev i c))
  | .lookup _, .lookup ev i c =>
    match lookupOperation s.db.tables i with
    | .error _ => some (s.done n)
    | .ok (.committed _) => some (s.goto n r (.advance ev))
    | .ok .absent => some (s.resume n r ev i c)
  | .read _ ok, .read ev i =>
    if ok then some (s.goto n r (.transform ev i))
    else some (s.goto n r (.check ev i .sourceRead))
  | .transform _ result, .transform ev i =>
    match result with
    | .ok items =>
      -- An ADD without parts is not executed, and has no output.
      if ev.added = [] → items = [] then some (s.goto n r (.check ev i (.beforePublish items)))
      else none
    | .error dataError => some (s.goto n r (.check ev i (.transform dataError)))
  | .publish _, .publish ev i items =>
    let a : Attempt := ⟨r.id, r.pipeline, ev.commitId, i, items⟩
    (pipelineStep s.feed (.catalog (.begin a.call))).map fun feed =>
      { s.goto n r (.wait ev i s.db.nextTxn) with
        feed := feed
        attempts := s.attempts.insert s.db.nextTxn a }
  | .hear _, .wait ev _ t =>
    match s.db.replies t with
    | none => none
    | some (.error _) => some (s.done n)
    | some (.ok _) => some (s.goto n r (.advance ev))
  | .advance _, .advance ev =>
    (pipelineStep s.feed (.catalog
      (.setCursor (mvWorker r.id) r.pipeline.source ev.commitId))).map fun feed =>
        { s.done n with feed := feed }
  | _, _ => none

/-- The replica whose step it is. -/
def Move.replica : Move → Option Nat
  | .page n _ | .process n | .check n | .lookup n | .read n _ | .transform n _ | .publish n
  | .hear n | .advance n => some n
  | _ => none

/-- **One move.**  `none` when it cannot happen. -/
def move (hash : List UInt8 → Digest) (defs : PipelineId → Option Pipeline) (s : World)
    (m : Move) : Option World :=
  match m with
  | .feed f =>
    if Registers defs f then (pipelineStep s.feed f).map fun feed => { s with feed := feed }
    else none
  | .poll n id =>
    match s.replicas.lookup n, defs id with
    | none, some p =>
      match s.db.tables.workerCursors (mvWorker id, p.source) with
      | none => none
      | some cursor => some { s with replicas := s.replicas.insert n ⟨id, p, .page cursor⟩ }
    | _, _ => none
  | .crash n => some (s.done n)
  | m =>
    match m.replica with
    | none => none
    | some n =>
      match s.replicas.lookup n with
      | none => none
      | some r => s.act hash n r m r.phase

end Ukiel.Mv
