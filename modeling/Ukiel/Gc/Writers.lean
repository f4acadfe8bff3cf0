/-
# The three writers

`Gc/World.lean` has one kind of attempt for all writers: it opens files, uploads them in any order
and sends its commit.  Here is what each writer really does, step by step, and a fleet of them
around one catalog, one store and the collector.  A writer may stop after any step, or during an
upload with any of its bytes in the store; what becomes of its commit is the catalog's affair.

`reap` deletes objects of tombstoned parts (`Gc/Reap.lean` has its query).
-/
import Ukiel.Gc.World

namespace Ukiel.Gc
open Ukiel.Catalog

/-! ## 1. Programs -/

/-- A step of a writer that the catalog or the store sees. -/
inductive Act where
  /-- `register_pending_objects`. -/
  | register (h : HypertableId) (paths : List String)
  /-- An upload, whole or in parts. -/
  | put (path : String)
  | commit (c : Call)
deriving DecidableEq

/-- An output under the name its writer draws for it. -/
def outputPart (h : HypertableId) (level : Int) (o : String × PartMeta) : PartMeta :=
  { o.2 with path := partPath h level o.1, level := level }

/-- `AddCommit`. -/
inductive AddCommit where
  | ingest (offsets : List OffsetRange) (identity : OperationIdentity)
  | plain (identity : OperationIdentity)
deriving DecidableEq

def AddCommit.identity : AddCommit → OperationIdentity
  | .ingest _ identity => identity
  | .plain identity => identity

def AddCommit.call (h : HypertableId) (parts : List PartMeta) : AddCommit → Call
  | .ingest offsets identity => commitWithOffsets h (.add parts) offsets identity
  | .plain identity => Catalog.commit h (.add parts) (some identity)

/-- `L0Writer::publish_add`: every intent in one statement, then the uploads, then the commit. -/
def publishAdd (target : HypertableId) (items : List (String × PartMeta)) (commit : AddCommit) :
    List Act :=
  if commit.identity.hypertableId = target then
    let parts := items.map (outputPart target 0)
    .register target (parts.map PartMeta.path) ::
      (parts.map (fun p => .put p.path) ++ [.commit (commit.call target parts)])
  else []

/-- `open_file`, with its `on_open`, up to `close`. -/
def writeFile (h : HypertableId) (p : PartMeta) : List Act := [.register h [p.path], .put p.path]

/-- `merge_parts`: the streaming writer opens one file after the other. -/
def mergeParts (h : HypertableId) (lease : CompactionLease) (identity : OperationIdentity)
    (group : List Int) (outputLevel : Int) (outputs : List (String × PartMeta)) : List Act :=
  let parts := outputs.map (outputPart h outputLevel)
  parts.flatMap (writeFile h) ++ [.commit (commitCompactionReplace h lease group parts identity)]

/-- `delete_key`: each rewritten part at the level it had. -/
def deleteKey (h : HypertableId) (identity : OperationIdentity) (inputParts : List Int)
    (rewritten : List (String × PartMeta)) : List Act :=
  let parts := rewritten.map fun o => outputPart h o.2.level o
  parts.flatMap (writeFile h) ++
    [.commit (Catalog.commit h (.replace inputParts parts) (some identity))]

inductive Writer where
  | publishAdd (items : List (String × PartMeta)) (commit : AddCommit)
  | mergeParts (lease : CompactionLease) (identity : OperationIdentity) (group : List Int)
      (outputLevel : Int) (outputs : List (String × PartMeta))
  | deleteKey (identity : OperationIdentity) (inputParts : List Int)
      (rewritten : List (String × PartMeta))
deriving DecidableEq

/-- The writer's program on a hypertable. -/
def Writer.acts (h : HypertableId) : Writer → List Act
  | .publishAdd items commit => Gc.publishAdd h items commit
  | .mergeParts lease identity group level outputs =>
    Gc.mergeParts h lease identity group level outputs
  | .deleteKey identity inputParts rewritten => Gc.deleteKey h identity inputParts rewritten

/-- Every upload of the program is of a known path, or of one it has registered on the way. -/
def Announced : List String → List Act → Prop
  | _, [] => True
  | known, .register _ paths :: rest => Announced (known ++ paths) rest
  | known, .put path :: rest => path ∈ known ∧ Announced known rest
  | known, .commit _ :: rest => Announced known rest

theorem announced_puts {known : List String} {paths : List String} {rest : List Act}
    (hsub : ∀ p ∈ paths, p ∈ known) (hrest : Announced known rest) :
    Announced known (paths.map .put ++ rest) := by
  induction paths with
  | nil => exact hrest
  | cons p paths ih =>
    exact ⟨hsub p List.mem_cons_self, ih fun q hq => hsub q (List.mem_cons_of_mem _ hq)⟩

theorem announced_files {h : HypertableId} {parts : List PartMeta} {rest : List Act} :
    ∀ {known : List String}, (∀ known, Announced known rest) →
      Announced known (parts.flatMap (writeFile h) ++ rest) := by
  induction parts with
  | nil => exact fun hrest => hrest _
  | cons p parts ih =>
    intro known hrest
    exact ⟨List.mem_append_right _ (List.mem_singleton_self _), ih hrest⟩

/-- **Every writer registers a path before it uploads anything there.** -/
theorem Writer.announced (h : HypertableId) (w : Writer) : Announced [] (w.acts h) := by
  cases w with
  | publishAdd items commit =>
    simp only [Writer.acts, Gc.publishAdd]
    split
    · have hputs : ∀ parts : List PartMeta, parts.map (fun p => Act.put p.path) =
          (parts.map PartMeta.path).map .put := by simp
      rw [hputs]
      exact announced_puts (fun p hp => List.mem_append_right _ hp) trivial
    · trivial
  | mergeParts lease identity group level outputs => exact announced_files fun _ => trivial
  | deleteKey identity inputParts rewritten => exact announced_files fun _ => trivial

/-! ## 2. The fleet -/

/-- A running writer. -/
structure Running where
  /-- The paths whose intents it has registered. -/
  opened : List String := []
  todo : List Act
deriving DecidableEq

structure Fleet where
  world : World := {}
  writers : AList (fun _ : Nat => Running) := ∅
  nextWriter : Nat := 0

inductive FleetMove where
  /-- The catalog or the collector moves. -/
  | elsewhere (m : Move)
  /-- `reap` deletes the object of a tombstoned part. -/
  | reap (p : PartRow)
  | launch (h : HypertableId) (w : Writer)
  /-- Bytes of the upload under way reach the store. -/
  | byte (n : Nat) (now : Int)
  /-- The writer completes its next step. -/
  | act (n : Nat) (now : Int)
  /-- It ends, fails or dies. -/
  | stop (n : Nat)

/-- The move is the catalog's or the collector's. -/
def Move.Elsewhere : Move → Prop
  | .catalog _ | .runOnce _ | .reconcileOnce _ | .collect _ _ | .abort _ => True
  | _ => False

instance (m : Move) : Decidable m.Elsewhere := by cases m <;> unfold Move.Elsewhere <;> infer_instance

/-- Bytes at the path, whatever was there before. -/
def World.put (s : World) (path : String) (now : Int) : World :=
  { s.delete path with objects := (s.delete path).objects ++ [⟨path, now⟩] }

/-- The next step of a writer. -/
def Fleet.act (s : Fleet) (n : Nat) (now : Int) (r : Running) : List Act → Option Fleet
  | [] => none
  | .register h paths :: rest =>
    -- The paths carry fresh UUIDs.
    if ∀ p ∈ paths, s.world.opened p = none then
      (step s.world.db (.registerPending h paths)).map fun db =>
        { s with
          world := { s.world with
            db := db
            opened := fun p => if p ∈ paths then some s.world.db.clock else s.world.opened p }
          writers := s.writers.insert n ⟨r.opened ++ paths, rest⟩ }
    else none
  | .put path :: rest =>
    some { s with
      world := s.world.put path now
      writers := s.writers.insert n ⟨r.opened, rest⟩ }
  | .commit c :: rest =>
    (step s.world.db (.begin c)).map fun db =>
      { s with
        world := { s.world with db := db }
        writers := s.writers.insert n ⟨r.opened, rest⟩ }

/-- **One move.** -/
def fleetMove (cfg : GcConfig) (s : Fleet) : FleetMove → Option Fleet
  | .elsewhere m =>
    if m.Elsewhere then (move cfg s.world m).map fun world => { s with world := world } else none
  | .reap p =>
    if p ∈ s.world.db.tables.parts ∧ p.deletedByCommit ≠ none then
      some { s with world := s.world.delete p.partMeta.path }
    else none
  | .launch h w =>
    some { s with
      writers := s.writers.insert s.nextWriter { todo := w.acts h }
      nextWriter := s.nextWriter + 1 }
  | .byte n now =>
    match s.writers.lookup n with
    | some ⟨_, .put path :: _⟩ => some { s with world := s.world.put path now }
    | _ => none
  | .act n now =>
    match s.writers.lookup n with
    | none => none
    | some r => s.act n now r r.todo
  | .stop n => some { s with writers := s.writers.erase n }

/-- A sweep does not take up the intent of a writer that is still running. -/
def SparesRunning (cfg : GcConfig) (s : Fleet) : FleetMove → Prop
  | .elsewhere (.collect g _) =>
    match s.world.passes.lookup g with
    | some (.sweep (h :: _)) =>
      ∀ path ∈ nextOrphanedPendingObject s.world.db.tables h s.world.db.clock cfg.orphanGrace,
        ∀ w ∈ s.writers.entries, path ∉ w.2.opened
    | _ => True
  | _ => True

instance (cfg : GcConfig) (s : Fleet) (m : FleetMove) : Decidable (SparesRunning cfg s m) := by
  unfold SparesRunning
  split
  · split <;> infer_instance
  · infer_instance

end Ukiel.Gc
