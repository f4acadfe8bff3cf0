/-
# Writers, the object store and the collector

Around the catalog of `Catalog/Machine.lean` this module puts the other two things a part
depends on: the object store its bytes are in, and the garbage collector (`ukiel-gc`) that
deletes objects from it.

* A writer's ATTEMPT (a compaction or finalization merge, an ingest flush, a materialized-view
  publish, a `delete_key`) names fresh paths, registers their upload intent, uploads, and only
  then sends its commit.  It may stop anywhere.
* A collector PASS is a program counter (`Task`): every query, every deletion and every clearing
  of an intent is a step of its own, and anything may happen in between.

`reap` is left out: it deletes objects of tombstoned parts only, and what it writes to the
catalog (`mark_purged`) is one of the catalog's own events here.
-/
import Mathlib
import Ukiel.Lib.Lists
import Ukiel.Catalog.Calls

namespace Ukiel.Gc
open Ukiel.Catalog

/-! ## 1. Paths and objects -/

/-- `format!("ht/{}/L{}/{}.parquet", …)`, the name every writer gives a new object. -/
def partPath (h : HypertableId) (level : Int) (uuid : String) : String :=
  "ht/" ++ h.repr ++ "/L" ++ level.repr ++ "/" ++ uuid ++ ".parquet"

/-- The path belongs to the hypertable. -/
def Placed (h : HypertableId) (path : String) : Prop := ∃ level uuid, path = partPath h level uuid

/-- `list(Some("ht/{h}"))` matches whole path segments. -/
def underPrefix (h : HypertableId) (path : String) : Bool :=
  ("ht/" ++ h.repr ++ "/").toList.isPrefixOf path.toList

theorem slash_not_mem_repr (h : Int) : '/' ∉ h.repr.toList := by
  have hnat : ∀ n : Nat, '/' ∉ n.repr.toList := by
    intro n hmem
    rw [Nat.toList_repr] at hmem
    have hdigit := Nat.isDigit_of_mem_toDigits (by decide) (by decide) hmem
    revert hdigit
    decide
  cases h with
  | ofNat n => exact hnat n
  | negSucc n =>
    rw [Int.repr, String.toList_append, List.mem_append, not_or]
    exact ⟨by decide, hnat _⟩

/-- A listing under a hypertable's prefix returns no other hypertable's objects. -/
theorem underPrefix_placed {h k : HypertableId} {path : String} (hp : Placed k path)
    (hu : underPrefix h path = true) : h = k := by
  obtain ⟨level, uuid, rfl⟩ := hp
  obtain ⟨rest, hrest⟩ := List.isPrefixOf_iff_prefix.mp hu
  simp only [partPath, String.toList_append] at hrest
  have hsplit : h.repr.toList ++ '/' :: rest = k.repr.toList ++ '/' :: ('L' ::
      (level.repr.toList ++ ("/".toList ++ (uuid.toList ++ ".parquet".toList)))) := by
    simpa using hrest
  have hrepr := List.append_sep_inj (slash_not_mem_repr h) (slash_not_mem_repr k) hsplit
  exact Int.repr_injective (String.toList_injective hrepr)

/-- A path says where its object belongs. -/
theorem partPath_inj {h k : HypertableId} {level level' : Int} {uuid uuid' : String}
    (heq : partPath h level uuid = partPath k level' uuid') :
    h = k ∧ level = level' ∧ uuid = uuid' := by
  have hlist := congrArg String.toList heq
  simp only [partPath, String.toList_append] at hlist
  have hsplit : h.repr.toList ++ '/' :: ('L' :: (level.repr.toList ++ '/' ::
      (uuid.toList ++ ".parquet".toList))) = k.repr.toList ++ '/' :: ('L' ::
        (level'.repr.toList ++ '/' :: (uuid'.toList ++ ".parquet".toList))) := by
    simpa using hlist
  have hh := List.append_sep_inj (slash_not_mem_repr h) (slash_not_mem_repr k) hsplit
  rw [hh, List.append_cancel_left_eq, List.cons.injEq, List.cons.injEq] at hsplit
  have hlevel := List.append_sep_inj (slash_not_mem_repr level) (slash_not_mem_repr level')
    hsplit.2.2
  have huuid := hsplit.2.2
  rw [hlevel, List.append_cancel_left_eq, List.cons.injEq, List.append_cancel_right_eq] at huuid
  exact ⟨Int.repr_injective (String.toList_injective hh),
    Int.repr_injective (String.toList_injective hlevel), String.toList_injective huuid.2⟩

/-- What a listing returns for an object. -/
structure ObjectMeta where
  location : String
  lastModified : Int
deriving DecidableEq

/-! ## 2. The collector's queries -/

/-- `GcConfig`, what `sweep` and `reconcile_once` read of it. -/
structure GcConfig where
  orphanGraceSecs : Int
deriving DecidableEq

/-- The grace in the clock's unit. -/
def GcConfig.orphanGrace (cfg : GcConfig) : Int := cfg.orphanGraceSecs * 1000000

/-- `orphaned_pending_objects`. -/
def orphanedPendingObjects (T : Tables) (h : HypertableId) (now grace : Int) : List String :=
  (T.pendingObjects.filter fun r => r.hypertableId = h ∧ r.createdAt ≤ now - grace).map
    PendingRow.path

/-- `next_orphaned_pending_object`: the first of them by path. -/
def nextOrphanedPendingObject (T : Tables) (h : HypertableId) (now grace : Int) :
    Option String :=
  (orphanedPendingObjects T h now grace).min?

/-- `all_part_paths`. -/
def allPartPaths (T : Tables) (h : HypertableId) : List String :=
  (T.parts.filter fun p => p.hypertableId = h ∧ p.purgedAt = none).map fun p => p.partMeta.path

/-- `all_pending_paths`. -/
def allPendingPaths (T : Tables) (h : HypertableId) : List String :=
  (T.pendingObjects.filter fun r => r.hypertableId = h).map PendingRow.path

/-! ## 3. State -/

/-- One attempt of a writer. -/
structure Attempt where
  hypertableId : HypertableId
  /-- The output files opened so far. -/
  outputs : List String := []
  uploaded : List String := []
deriving DecidableEq

/-- What a collector pass does next.  The hypertables still to visit come last. -/
inductive Task where
  /-- `sweep` asks for the next orphan of the first hypertable. -/
  | sweep (hs : List HypertableId)
  /-- `sweep` deletes the object. -/
  | sweepDelete (path : String) (hs : List HypertableId)
  /-- `sweep` clears the intent. -/
  | sweepClear (path : String) (hs : List HypertableId)
  /-- `reconcile_once` reads the part paths of the first hypertable. -/
  | readParts (hs : List HypertableId)
  /-- `reconcile_once` reads the intents. -/
  | readPending (known : List String) (h : HypertableId) (hs : List HypertableId)
  /-- `reconcile_once` lists the store. -/
  | list (known : List String) (h : HypertableId) (hs : List HypertableId)
  /-- `reconcile_once` looks at the next listed object. -/
  | examine (known : List String) (now : Int) (objects : List ObjectMeta)
      (hs : List HypertableId)
deriving DecidableEq

structure World where
  db : Db := {}
  objects : List ObjectMeta := []
  attempts : AList (fun _ : Nat => Attempt) := ∅
  nextAttempt : Nat := 0
  /-- When the intent of each path was registered. -/
  opened : String → Option Int := fun _ => none
  passes : AList (fun _ : Nat => Task) := ∅
  nextPass : Nat := 0
  /-- The objects sweeps have deleted. -/
  swept : List String := []
  /-- The objects reconciliation has deleted, with the pass that did. -/
  reconciled : List (Nat × String) := []

/-! ## 4. Moves -/

inductive Move where
  /-- Something happens in the catalog that no writer's upload and no sweep is part of. -/
  | catalog (e : Event)
  /-- A writer starts. -/
  | start (h : HypertableId)
  /-- It opens output files: fresh paths, intents first. -/
  | openFiles (n : Nat) (files : List (Int × String))
  /-- The upload of one file completes. -/
  | upload (n : Nat) (path : String) (now : Int)
  /-- It sends its commit. -/
  | submit (n : Nat) (c : Call)
  /-- `run_once` reaches its sweeps. -/
  | runOnce (hs : List HypertableId)
  | reconcileOnce (hs : List HypertableId)
  /-- The next step of a pass; `now` is the collector's own clock. -/
  | collect (g : Nat) (now : Int)
  /-- An error ends the pass, a failed `ping` among them. -/
  | abort (g : Nat)

/-- The catalog events that are not part of another move. -/
def Aloof : Event → Prop
  | .begin _ => False
  | .registerPending _ _ => False
  | .clearPending _ => False
  | _ => True

instance (e : Event) : Decidable (Aloof e) := by
  rcases e <;> unfold Aloof <;> infer_instance

def World.goto (s : World) (g : Nat) (task : Task) : World :=
  { s with passes := s.passes.insert g task }

/-- `store.delete`; a missing object counts as deleted. -/
def World.delete (s : World) (path : String) : World :=
  { s with objects := s.objects.filter fun o => o.location ≠ path }

def World.holds (s : World) (path : String) : Prop := ∃ o ∈ s.objects, o.location = path

instance (s : World) (path : String) : Decidable (s.holds path) := by
  unfold World.holds; infer_instance

/-- One step of a pass. -/
def World.collect (cfg : GcConfig) (s : World) (g : Nat) (now : Int) : Task → Option World
  | .sweep [] => some { s with passes := s.passes.erase g }
  | .sweep (h :: hs) =>
    match nextOrphanedPendingObject s.db.tables h s.db.clock cfg.orphanGrace with
    | none => some (s.goto g (.sweep hs))
    | some path => some (s.goto g (.sweepDelete path (h :: hs)))
  | .sweepDelete path hs =>
    some { (s.delete path).goto g (.sweepClear path hs) with
      swept := if s.holds path then path :: s.swept else s.swept }
  | .sweepClear path hs =>
    (step s.db (.clearPending [path])).map fun db => { s.goto g (.sweep hs) with db := db }
  | .readParts [] => some { s with passes := s.passes.erase g }
  | .readParts (h :: hs) => some (s.goto g (.readPending (allPartPaths s.db.tables h) h hs))
  | .readPending known h hs =>
    some (s.goto g (.list (known ++ allPendingPaths s.db.tables h) h hs))
  | .list known h hs =>
    some (s.goto g (.examine known now (s.objects.filter fun o => underPrefix h o.location) hs))
  | .examine _ _ [] hs => some (s.goto g (.readParts hs))
  | .examine known at' (o :: os) hs =>
    if o.location ∈ known then some (s.goto g (.examine known at' os hs))
    else if (at' - o.lastModified).tdiv 1000000 < cfg.orphanGraceSecs then
      some (s.goto g (.examine known at' os hs))
    else
      some { (s.delete o.location).goto g (.examine known at' os hs) with
        reconciled := if s.holds o.location then (g, o.location) :: s.reconciled
          else s.reconciled }

/-- **One move.** -/
def move (cfg : GcConfig) (s : World) : Move → Option World
  | .catalog e =>
    if Aloof e then (step s.db e).map fun db => { s with db := db } else none
  | .start h =>
    some { s with
      attempts := s.attempts.insert s.nextAttempt { hypertableId := h }
      nextAttempt := s.nextAttempt + 1 }
  | .openFiles n files =>
    match s.attempts.lookup n with
    | none => none
    | some a =>
      let paths := files.map fun f => partPath a.hypertableId f.1 f.2
      -- The paths carry fresh UUIDs.
      if ∀ p ∈ paths, s.opened p = none then
        (step s.db (.registerPending a.hypertableId paths)).map fun db =>
          { s with
            db := db
            opened := fun p => if p ∈ paths then some s.db.clock else s.opened p
            attempts := s.attempts.insert n { a with outputs := a.outputs ++ paths } }
      else none
  | .upload n path now =>
    match s.attempts.lookup n with
    | none => none
    | some a =>
      if path ∈ a.outputs then
        some { s.delete path with
          objects := (s.delete path).objects ++ [⟨path, now⟩]
          attempts := s.attempts.insert n { a with uploaded := path :: a.uploaded } }
      else none
  | .submit n c =>
    match s.attempts.lookup n with
    | none => none
    | some a =>
      if c.hypertableId = a.hypertableId ∧ c.op.newParts.map PartMeta.path = a.outputs ∧
          ∀ p ∈ a.outputs, p ∈ a.uploaded then
        (step s.db (.begin c)).map fun db => { s with db := db }
      else none
  | .runOnce hs =>
    some { s with
      passes := s.passes.insert s.nextPass (.sweep hs)
      nextPass := s.nextPass + 1 }
  | .reconcileOnce hs =>
    some { s with
      passes := s.passes.insert s.nextPass (.readParts hs)
      nextPass := s.nextPass + 1 }
  | .collect g now =>
    match s.passes.lookup g with
    | none => none
    | some task => s.collect cfg g now task
  | .abort g => some { s with passes := s.passes.erase g }

/-! ## 5. What holds in every world -/

variable {cfg : GcConfig} {s s' : World} {db db' : Db} {opened opened' : String → Option Int}

/-- The rows and the open calls name objects as the writers do. -/
structure Named (db : Db) (opened : String → Option Int) : Prop where
  reachable : Reachable db
  pending : ∀ r ∈ db.tables.pendingObjects,
    Placed r.hypertableId r.path ∧ opened r.path = some r.createdAt
  parts : ∀ p ∈ db.tables.parts, Placed p.hypertableId p.partMeta.path
  calls : ∀ t τ, db.txns.lookup t = some τ → ∀ p ∈ τ.call.op.newParts,
    Placed τ.call.hypertableId p.path ∧ opened p.path ≠ none

/-- Every registration stays on record. -/
def Records (opened opened' : String → Option Int) : Prop :=
  ∀ p at', opened p = some at' → opened' p = some at'

theorem Records.ne_none (h : Records opened opened') {p : String} (hp : opened p ≠ none) :
    opened' p ≠ none := by
  obtain ⟨at', hat⟩ := Option.ne_none_iff_exists'.mp hp
  rw [h p at' hat]
  exact Option.some_ne_none _

theorem Named.next {e : Event} (h : Named db opened) (hs : step db e = some db')
    (ho : Records opened opened')
    (hreg : ∀ k paths, e = .registerPending k paths →
      ∀ p ∈ paths, Placed k p ∧ opened' p = some db.clock)
    (hbegin : ∀ c, e = .begin c →
      ∀ p ∈ c.op.newParts, Placed c.hypertableId p.path ∧ opened' p.path ≠ none) :
    Named db' opened' where
  reachable := h.reachable.next hs
  pending r hr := by
    rcases step_pending hs hr with hold | ⟨k, paths, rfl, hp, heq⟩
    · exact ⟨(h.pending r hold).1, ho _ _ (h.pending r hold).2⟩
    · obtain ⟨hplaced, hat⟩ := hreg k paths rfl r.path hp
      rw [heq]
      exact ⟨hplaced, hat⟩
  parts p hp := by
    rcases step_part_origin h.reachable.inv hs hp with
      ⟨q, hq, hht, hmeta, -⟩ | ⟨t, τ, rfl, hlook, hht, hmeta⟩
    · rw [hht, hmeta]
      exact h.parts q hq
    · rw [hht]
      exact (h.calls t τ hlook _ hmeta).1
  calls t τ hlook p hp := by
    rcases step_call hs hlook with ⟨τ₀, hlook₀, hcall⟩ | ⟨rfl, -⟩
    · rw [hcall] at hp ⊢
      obtain ⟨hplaced, hopen⟩ := h.calls t τ₀ hlook₀ p hp
      exact ⟨hplaced, ho.ne_none hopen⟩
    · exact hbegin τ.call rfl p hp

/-- The catalog has moved by an event that neither registers intents nor opens a call. -/
theorem Named.quiet {e : Event} (h : Named db opened) (hs : step db e = some db')
    (hreg : ∀ k paths, e ≠ .registerPending k paths) (hbegin : ∀ c, e ≠ .begin c) :
    Named db' opened :=
  h.next hs (fun _ _ hat => hat) (fun k paths he => absurd he (hreg k paths))
    (fun c he => absurd he (hbegin c))

/-- The intent of the path has reached the orphan grace. -/
def Expired (cfg : GcConfig) (s : World) (path : String) : Prop :=
  ∃ at', s.opened path = some at' ∧ at' ≤ s.db.clock - cfg.orphanGrace

/-- Where a run of the system starts: no writer and no pass under way. -/
structure Start (s : World) : Prop where
  db : Initial s.db
  pending : ∀ r ∈ s.db.tables.pendingObjects,
    Placed r.hypertableId r.path ∧ s.opened r.path = some r.createdAt
  parts : ∀ p ∈ s.db.tables.parts, Placed p.hypertableId p.partMeta.path
  attempts : s.attempts = ∅
  passes : s.passes = ∅
  swept : s.swept = []
  reconciled : s.reconciled = []

/-- An empty deployment. -/
theorem start_empty : Start {} where
  db := initial_empty
  pending := by simp
  parts := by simp
  attempts := rfl
  passes := rfl
  swept := rfl
  reconciled := rfl

/-- **The invariant of the system.**  Objects are named by their hypertable, every output has an
intent on record, and whatever a sweep deletes had an expired one. -/
structure Ok (cfg : GcConfig) (s : World) : Prop where
  named : Named s.db s.opened
  outputs : ∀ n a, s.attempts.lookup n = some a →
    ∀ p ∈ a.outputs, Placed a.hypertableId p ∧ s.opened p ≠ none
  doomed : ∀ g path hs, s.passes.lookup g = some (.sweepDelete path hs) → Expired cfg s path
  swept : ∀ path ∈ s.swept, Expired cfg s path

theorem Start.ok (h : Start s) : Ok cfg s where
  named :=
    { reachable := ⟨s.db, h.db, Lts.Reaches.refl _⟩
      pending := h.pending
      parts := h.parts
      calls := by
        intro t τ hlook
        rw [h.db.txns] at hlook
        cases hlook }
  outputs n a hlook := by
    rw [h.attempts] at hlook
    cases hlook
  doomed g path hs hlook := by
    rw [h.passes] at hlook
    cases hlook
  swept path hp := by
    rw [h.swept] at hp
    cases hp

theorem Expired.mono {path : String} (h : Expired cfg s path) (ho : Records s.opened s'.opened)
    (hclock : s.db.clock ≤ s'.db.clock) : Expired cfg s' path := by
  obtain ⟨at', hat, hle⟩ := h
  exact ⟨at', ho path at' hat, by omega⟩

/-- Only the catalog has moved. -/
theorem Ok.catalog {e : Event} (h : Ok cfg s) (hs : step s.db e = some db')
    (hn : Named db' s.opened) : Ok cfg { s with db := db' } where
  named := hn
  outputs := h.outputs
  doomed g path hs' hlook := (h.doomed g path hs' hlook).mono (fun _ _ hat => hat) (step_clock hs)
  swept path hp := (h.swept path hp).mono (fun _ _ hat => hat) (step_clock hs)

/-- Only the program counter of a pass has moved, and it is not about to delete an orphan. -/
theorem Ok.goto (h : Ok cfg s) (g : Nat) (task : Task)
    (ht : ∀ path hs, task = .sweepDelete path hs → Expired cfg s path) :
    Ok cfg (s.goto g task) where
  named := h.named
  outputs := h.outputs
  doomed g' path hs hlook := by
    by_cases hg : g' = g
    · subst hg
      rw [World.goto, AList.lookup_insert, Option.some.injEq] at hlook
      exact ht path hs hlook
    · rw [World.goto, AList.lookup_insert_ne hg] at hlook
      exact h.doomed g' path hs hlook
  swept := h.swept

/-- A pass has ended. -/
theorem Ok.erase (h : Ok cfg s) (g : Nat) : Ok cfg { s with passes := s.passes.erase g } where
  named := h.named
  outputs := h.outputs
  doomed g' path hs hlook := by
    by_cases hg : g' = g
    · subst hg
      rw [AList.lookup_erase] at hlook
      cases hlook
    · rw [AList.lookup_erase_ne hg] at hlook
      exact h.doomed g' path hs hlook
  swept := h.swept

theorem Ok.fresh_pass (h : Ok cfg s) (task : Task) (ht : ∀ path hs, task ≠ .sweepDelete path hs) :
    Ok cfg { s.goto s.nextPass task with nextPass := s.nextPass + 1 } :=
  let h' := h.goto s.nextPass task fun path hs he => absurd he (ht path hs)
  ⟨h'.named, h'.outputs, h'.doomed, h'.swept⟩

/-- Only an attempt has moved. -/
theorem Ok.attempt (h : Ok cfg s) (n : Nat) (a : Attempt) (hdb : Named s'.db s'.opened)
    (ho : Records s.opened s'.opened) (hclock : s.db.clock ≤ s'.db.clock)
    (ha : ∀ p ∈ a.outputs, Placed a.hypertableId p ∧ s'.opened p ≠ none)
    (hatt : s'.attempts = s.attempts.insert n a) (hpass : s'.passes = s.passes)
    (hswept : s'.swept = s.swept) : Ok cfg s' where
  named := hdb
  outputs n' b hlook := by
    rw [hatt] at hlook
    by_cases hn : n' = n
    · subst hn
      rw [AList.lookup_insert, Option.some.injEq] at hlook
      subst hlook
      exact ha
    · rw [AList.lookup_insert_ne hn] at hlook
      intro p hp
      obtain ⟨hplaced, hopen⟩ := h.outputs n' b hlook p hp
      exact ⟨hplaced, ho.ne_none hopen⟩
  doomed g path hs hlook := by
    rw [hpass] at hlook
    exact (h.doomed g path hs hlook).mono ho hclock
  swept path hp := by
    rw [hswept] at hp
    exact (h.swept path hp).mono ho hclock

theorem nextOrphaned_expired (h : Ok cfg s) {k : HypertableId} {path : String}
    (hn : nextOrphanedPendingObject s.db.tables k s.db.clock cfg.orphanGrace = some path) :
    Expired cfg s path := by
  have hmem : path ∈ orphanedPendingObjects s.db.tables k s.db.clock cfg.orphanGrace :=
    List.min?_mem hn
  obtain ⟨r, hr, rfl⟩ := List.mem_map.mp hmem
  obtain ⟨hr, hexp⟩ := List.mem_filter.mp hr
  exact ⟨r.createdAt, (h.named.pending r hr).2, (of_decide_eq_true hexp).2⟩

theorem ok_collect {g : Nat} {now : Int} {task : Task} (h : Ok cfg s)
    (hlook : s.passes.lookup g = some task) (hs : s.collect cfg g now task = some s') :
    Ok cfg s' := by
  cases task with
  | sweep hs' =>
    cases hs' with
    | nil =>
      cases hs
      exact h.erase g
    | cons k hs' =>
      simp only [World.collect] at hs
      split at hs
      · cases hs
        exact h.goto g _ (by simp)
      · rename_i path hpath
        cases hs
        refine h.goto g _ ?_
        intro p hs₂ he
        cases he
        exact nextOrphaned_expired h hpath
  | sweepDelete path hs' =>
    cases hs
    have hexp := h.doomed g path hs' hlook
    have h' := h.goto g (.sweepClear path hs') (by simp)
    refine ⟨h'.named, h'.outputs, h'.doomed, ?_⟩
    intro p hp
    dsimp only at hp
    split at hp
    · rcases List.mem_cons.mp hp with rfl | hp
      · exact hexp
      · exact h.swept p hp
    · exact h.swept p hp
  | sweepClear path hs' =>
    simp only [World.collect, Option.map_eq_some_iff] at hs
    obtain ⟨db, hdb, rfl⟩ := hs
    have hn : Named db s.opened := h.named.quiet hdb (by simp) (by simp)
    exact (h.catalog hdb hn).goto g _ (by simp)
  | readParts hs' =>
    cases hs' with
    | nil =>
      cases hs
      exact h.erase g
    | cons k hs' =>
      cases hs
      exact h.goto g _ (by simp)
  | readPending known k hs' =>
    cases hs
    exact h.goto g _ (by simp)
  | list known k hs' =>
    cases hs
    exact h.goto g _ (by simp)
  | examine known at' os hs' =>
    cases os with
    | nil =>
      cases hs
      exact h.goto g _ (by simp)
    | cons o os =>
      simp only [World.collect] at hs
      split at hs
      · cases hs
        exact h.goto g _ (by simp)
      · split at hs
        · cases hs
          exact h.goto g _ (by simp)
        · cases hs
          have h' := h.goto g (.examine known at' os hs') (by simp)
          exact ⟨h'.named, h'.outputs, h'.doomed, h'.swept⟩

/-- **Every move keeps the invariant.** -/
theorem ok_move {m : Move} (hs : move cfg s m = some s') (h : Ok cfg s) : Ok cfg s' := by
  cases m with
  | catalog e =>
    simp only [move] at hs
    split at hs
    · rename_i haloof
      obtain ⟨db, hdb, rfl⟩ := Option.map_eq_some_iff.mp hs
      refine h.catalog hdb (h.named.quiet hdb ?_ ?_)
      · rintro k paths rfl
        exact haloof
      · rintro c rfl
        exact haloof
    · cases hs
  | start k =>
    cases hs
    exact h.attempt s.nextAttempt { hypertableId := k } h.named (fun _ _ hat => hat)
      (Int.le_refl _) (by simp) rfl rfl rfl
  | openFiles n files =>
    simp only [move] at hs
    split at hs
    · cases hs
    · rename_i a ha
      split at hs
      · rename_i hfresh
        obtain ⟨db, hdb, rfl⟩ := Option.map_eq_some_iff.mp hs
        have hrec : Records s.opened fun p =>
            if p ∈ files.map (fun f => partPath a.hypertableId f.1 f.2) then some s.db.clock
            else s.opened p := by
          intro p at' hat
          dsimp only
          rw [if_neg]
          · exact hat
          · intro hp
            rw [hfresh p hp] at hat
            cases hat
        have hnew : ∀ p ∈ files.map (fun f => partPath a.hypertableId f.1 f.2),
            Placed a.hypertableId p := by
          intro p hp
          obtain ⟨f, -, rfl⟩ := List.mem_map.mp hp
          exact ⟨f.1, f.2, rfl⟩
        refine h.attempt n _ ?_ hrec (step_clock hdb) ?_ rfl rfl rfl
        · refine h.named.next hdb hrec ?_ (by simp)
          rintro k paths he p hp
          cases he
          exact ⟨hnew p hp, if_pos hp⟩
        · intro p hp
          rcases List.mem_append.mp hp with hold | hp
          · obtain ⟨hplaced, hopen⟩ := h.outputs n a ha p hold
            exact ⟨hplaced, hrec.ne_none hopen⟩
          · refine ⟨hnew p hp, ?_⟩
            dsimp only
            rw [if_pos hp]
            exact Option.some_ne_none _
      · cases hs
  | upload n path now =>
    simp only [move] at hs
    split at hs
    · cases hs
    · rename_i a ha
      split at hs
      · cases hs
        exact h.attempt n { a with uploaded := path :: a.uploaded } h.named (fun _ _ hat => hat)
          (Int.le_refl _) (h.outputs n a ha) rfl rfl rfl
      · cases hs
  | submit n c =>
    simp only [move] at hs
    split at hs
    · cases hs
    · rename_i a ha
      split at hs
      · rename_i hc
        obtain ⟨db, hdb, rfl⟩ := Option.map_eq_some_iff.mp hs
        obtain ⟨hht, hout, -⟩ := hc
        refine h.catalog hdb (h.named.next hdb (fun _ _ hat => hat) (by simp) ?_)
        rintro c' he p hp
        cases he
        rw [hht]
        refine h.outputs n a ha p.path ?_
        rw [← hout]
        exact List.mem_map_of_mem hp
      · cases hs
  | runOnce hs' =>
    cases hs
    exact h.fresh_pass _ (by simp)
  | reconcileOnce hs' =>
    cases hs
    exact h.fresh_pass _ (by simp)
  | collect g now =>
    simp only [move] at hs
    split at hs
    · cases hs
    · rename_i task hlook
      exact ok_collect h hlook hs
  | abort g =>
    cases hs
    exact h.erase g

/-- A pass moves the catalog only to clear an intent. -/
theorem collect_db {g : Nat} {now : Int} {task : Task} (h : s.collect cfg g now task = some s') :
    s'.db = s.db ∨ ∃ path hs, task = .sweepClear path hs ∧
      step s.db (.clearPending [path]) = some s'.db := by
  cases task with
  | sweepClear path hs' =>
    obtain ⟨db, hdb, rfl⟩ := Option.map_eq_some_iff.mp h
    exact Or.inr ⟨path, hs', rfl, hdb⟩
  | sweep hs' =>
    cases hs' with
    | nil =>
      cases h
      exact Or.inl rfl
    | cons k hs' =>
      simp only [World.collect] at h
      split at h <;> cases h <;> exact Or.inl rfl
  | readParts hs' => cases hs' <;> cases h <;> exact Or.inl rfl
  | examine known at' os hs' =>
    cases os with
    | nil =>
      cases h
      exact Or.inl rfl
    | cons o os =>
      simp only [World.collect] at h
      repeat' split at h
      all_goals cases h
      all_goals exact Or.inl rfl
  | sweepDelete _ _ | readPending _ _ _ | list _ _ _ =>
    cases h
    exact Or.inl rfl

/-- The catalog's share in a move. -/
theorem move_db {m : Move} (h : move cfg s m = some s') :
    s'.db = s.db ∨ ∃ e, step s.db e = some s'.db ∧ ∀ t, e = .commit t → m = .catalog e := by
  cases m with
  | catalog e =>
    simp only [move] at h
    split at h
    · obtain ⟨db, hdb, rfl⟩ := Option.map_eq_some_iff.mp h
      exact Or.inr ⟨e, hdb, fun _ _ => rfl⟩
    · cases h
  | openFiles n files =>
    simp only [move] at h
    repeat' split at h
    · cases h
    · obtain ⟨db, hdb, rfl⟩ := Option.map_eq_some_iff.mp h
      exact Or.inr ⟨_, hdb, by simp⟩
    · cases h
  | submit n c =>
    simp only [move] at h
    repeat' split at h
    · cases h
    · obtain ⟨db, hdb, rfl⟩ := Option.map_eq_some_iff.mp h
      exact Or.inr ⟨_, hdb, by simp⟩
    · cases h
  | collect g now =>
    simp only [move] at h
    split at h
    · cases h
    · rcases collect_db h with hsame | ⟨path, hs', -, hdb⟩
      · exact Or.inl hsame
      · exact Or.inr ⟨_, hdb, by simp⟩
  | upload n path now =>
    simp only [move] at h
    repeat' split at h
    all_goals cases h
    exact Or.inl rfl
  | start _ | runOnce _ | reconcileOnce _ | abort _ =>
    cases h
    exact Or.inl rfl

/-! ## 6. One flush -/

/-- `GcConfig::default`. -/
def GcConfig.default : GcConfig := ⟨3600⟩

/-- The object of the run below. -/
def flushPath : String := partPath 1 0 "u"

def flushPart : PartMeta := ⟨flushPath, .null, 7, 7, 1, 1, 0, none⟩

/-- A flush registers its intent, uploads and sends COMMIT. -/
def flushSent : List Move :=
  [.start 1, .openFiles 0 [(0, "u")], .upload 0 flushPath 0,
    .submit 0 (commit 1 (.add [flushPart]) none), .catalog (.stmt 0), .catalog (.stmt 0),
    .catalog (.stmt 0), .catalog (.stmt 0), .catalog (.stmt 0), .catalog (.sendCommit 0)]

end Ukiel.Gc
