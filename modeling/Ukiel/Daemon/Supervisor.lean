/-
# The supervisor of a role

`ukield/src/supervisor.rs`, `supervise_role` and `reconcile`, with the workers they run.  An
attempt of the ingest role is one task for each route (`IngestWorker::run`), of the other roles a
single one.  The supervisor sees nothing of an attempt but the result it returns: the first error
of a task, after which the others are dropped, whatever they were doing.

What an attempt leaves unknown is recorded beside the state: the COMMITs whose acknowledgement was
lost, and those that were dropped in flight.  `supervised_iff` is the extent to which the
supervisor has them answered before it builds again, and to which a role is healthy by its own
signal alone.
-/
import Ukiel.Daemon.Health
import Ukiel.Lib.Lts

namespace Ukiel.Daemon

/-! ## 1. Workers -/

/-- A worker's error, as far as `RoleFailure` tells it from others. -/
inductive RoleError where
  | catalog (e : CatalogError)
  | other
deriving DecidableEq

/-- `catalog_error`. -/
def RoleError.catalogError : RoleError → Option CatalogError
  | .catalog e => some e
  | .other => none

/-- `ambiguous_operation`. -/
def RoleError.ambiguousOperation (e : RoleError) : Option OperationIdentity :=
  match e.catalogError with
  | some (.ambiguousMutation identity) => some identity
  | _ => none

inductive TaskState where
  /-- A route that has not yet positioned itself from the catalog. -/
  | starting
  | working
  /-- COMMIT was sent, and nothing came back yet. -/
  | committing (identity : OperationIdentity)
  | finished (error : Option RoleError)
  | joined
deriving DecidableEq

/-- The COMMIT that is dropped with the task. -/
def TaskState.inFlight : TaskState → Option OperationIdentity
  | .committing identity => some identity
  | _ => none

/-- A task that was dropped and still runs to its next await. -/
structure Stray where
  attempt : Nat
  starting : Bool
deriving DecidableEq

def TaskState.stray (attempt : Nat) : TaskState → Option Stray
  | .starting => some ⟨attempt, true⟩
  | .working => some ⟨attempt, false⟩
  | _ => none

inductive RoleKind where
  | ingest (routes : Nat)
  /-- Another role.  The compactor renews a lease beside its merge, and drops the merge when
  that fails. -/
  | single (renews : Bool)
deriving DecidableEq

/-- The tasks of a new attempt. -/
def RoleKind.tasks : RoleKind → List TaskState
  | .ingest routes => List.replicate routes .starting
  | .single _ => [.working]

/-! ## 2. The state -/

inductive Phase where
  /-- At the head of the loop. -/
  | build
  | running
  /-- In `wait_for_catalog`, with the operation the error named. -/
  | waiting (ambiguous : Option OperationIdentity)
  /-- In `reconcile`. -/
  | lookup (identity : OperationIdentity)
  | waitingLookup (identity : OperationIdentity)
  | returned
deriving DecidableEq

structure Supervisor where
  kind : RoleKind
  entry : RoleEntry
  phase : Phase
  shutdown : Bool
  /-- How many times a worker was built. -/
  attempt : Nat
  tasks : List TaskState
  /-- `ReadyGate`, for each attempt: the routes that have yet to arrive. -/
  remaining : Nat → Nat
  strays : List Stray
  /-- The attempt has given its readiness signal. -/
  signalled : Bool
  /-- The identified mutations the attempt left unknown. -/
  leftBehind : List OperationIdentity
  /-- The one its error named. -/
  reported : Option OperationIdentity
  /-- The unknown mutations nobody has asked about. -/
  unanswered : List OperationIdentity

namespace Supervisor

def init (kind : RoleKind) : Supervisor where
  kind := kind
  entry := .new
  phase := .build
  shutdown := false
  attempt := 0
  tasks := []
  remaining _ := 0
  strays := []
  signalled := false
  leftBehind := []
  reported := none
  unanswered := []

def setTask (s : Supervisor) (task : Nat) (state : TaskState) : Supervisor :=
  { s with tasks := s.tasks.set task state }

/-- Mutations that were left unknown. -/
def leave (s : Supervisor) (identities : List OperationIdentity) : Supervisor :=
  { s with
    leftBehind := s.leftBehind ++ identities
    unanswered := s.unanswered ++ identities }

/-- `ReadyGate::arrive`, at the gate of an attempt. -/
def arrive (s : Supervisor) (attempt : Nat) : Supervisor :=
  let s' := { s with
    remaining := Function.update s.remaining attempt (s.remaining attempt - 1) }
  if s.remaining attempt = 1 then { s' with entry := s.entry.healthy } else s'

/-- The worker returned an error: its other tasks are dropped. -/
def workerFailed (s : Supervisor) (e : RoleError) : Supervisor :=
  let s := s.leave (s.tasks.filterMap TaskState.inFlight)
  let s := { s with
    tasks := []
    strays := s.strays ++ s.tasks.filterMap (TaskState.stray s.attempt)
    reported := e.ambiguousOperation }
  match e.catalogError with
  | some c =>
    if c.isRecoverableTransport then
      { s with entry := s.entry.degraded c.toClass, phase := .waiting e.ambiguousOperation }
    else { s with entry := s.entry.failed (some c.toClass), phase := .returned }
  | none => { s with entry := s.entry.failed none, phase := .returned }

end Supervisor

/-! ## 3. What can happen -/

inductive Event where
  | build
  /-- A route has positioned itself. -/
  | arrive (task : Nat)
  /-- Another role's worker fires its signal. -/
  | signal
  | send (task : Nat) (identity : OperationIdentity)
  /-- The answer to a COMMIT, whatever it says. -/
  | answered (task : Nat)
  /-- The connection is lost in place of the answer. -/
  | lost (task : Nat)
  /-- A merge is dropped while its COMMIT is in flight. -/
  | abandoned (task : Nat)
  | failed (task : Nat) (e : RoleError)
  /-- A task has drained after the shutdown. -/
  | drained (task : Nat)
  | joined (task : Nat)
  | allJoined
  /-- The catalog answers a ping. -/
  | probed
  /-- The shutdown is seen while waiting. -/
  | interrupted
  /-- What `lookup_operation` says; either answer is logged and discarded. -/
  | looked (answer : Except CatalogError (Option Int))
  | shutdown
  | strayArrives (stray : Nat)
  | straySends (stray : Nat) (identity : OperationIdentity)

def Event.isBuild (e : Event) : Bool := e matches .build

open Supervisor in
def step (s : Supervisor) : Event → Option Supervisor
  | .build =>
    if s.phase = .build then
      some { s with
        phase := .running
        attempt := s.attempt + 1
        tasks := s.kind.tasks
        remaining := Function.update s.remaining (s.attempt + 1) s.kind.tasks.length
        signalled := false
        leftBehind := []
        reported := none }
    else none
  | .arrive task =>
    if s.phase = .running ∧ s.tasks[task]? = some .starting then
      let s' := (s.setTask task .working).arrive s.attempt
      some { s' with signalled := s.signalled || s.remaining s.attempt = 1 }
    else none
  | .signal =>
    if s.phase = .running ∧ s.tasks[0]? = some .working ∧ s.kind matches .single _ then
      some { s with entry := s.entry.healthy, signalled := true }
    else none
  | .send task identity =>
    if s.phase = .running ∧ s.tasks[task]? = some .working then
      some (s.setTask task (.committing identity))
    else none
  | .answered task =>
    match s.phase, s.tasks[task]? with
    | .running, some (.committing _) => some (s.setTask task .working)
    | _, _ => none
  | .lost task =>
    match s.phase, s.tasks[task]? with
    | .running, some (.committing identity) =>
      some ((s.setTask task (.finished (some (.catalog (.ambiguousMutation identity))))).leave
        [identity])
    | _, _ => none
  | .abandoned task =>
    match s.phase, s.tasks[task]?, s.kind with
    | .running, some (.committing identity), .single true =>
      some ((s.setTask task .working).leave [identity])
    | _, _, _ => none
  | .failed task e =>
    if s.phase = .running ∧
        (s.tasks[task]? = some .starting ∨ s.tasks[task]? = some .working) ∧
        e.ambiguousOperation = none then
      some (s.setTask task (.finished (some e)))
    else none
  | .drained task =>
    if s.phase = .running ∧ s.tasks[task]? = some .working ∧ s.shutdown then
      some (s.setTask task (.finished none))
    else none
  | .joined task =>
    match s.phase, s.tasks[task]? with
    | .running, some (.finished none) => some (s.setTask task .joined)
    | .running, some (.finished (some e)) => some (s.workerFailed e)
    | _, _ => none
  | .allJoined =>
    if s.phase = .running ∧ ∀ task ∈ s.tasks, task = .joined then
      some { s with entry := s.entry.stopped, phase := .returned }
    else none
  | .probed =>
    match s.phase with
    | .waiting none => some { s with entry := s.entry.reconciling, phase := .build }
    | .waiting (some identity) =>
      some { s with entry := s.entry.reconciling, phase := .lookup identity }
    | .waitingLookup identity =>
      some { s with entry := s.entry.reconciling, phase := .lookup identity }
    | _ => none
  | .interrupted =>
    if s.shutdown ∧ s.phase matches .waiting _ | .waitingLookup _ then
      some { s with entry := s.entry.stopped, phase := .returned }
    else none
  | .looked answer =>
    match s.phase with
    | .lookup identity =>
      match answer with
      | .ok _ => some { s with phase := .build, unanswered := s.unanswered.erase identity }
      | .error e =>
        if e.isRecoverableTransport then some { s with phase := .waitingLookup identity }
        else some { s with entry := s.entry.failed (some e.toClass), phase := .returned }
    | _ => none
  | .shutdown => some { s with shutdown := true }
  | .strayArrives stray =>
    match s.strays[stray]? with
    | some ⟨attempt, true⟩ => some ({ s with strays := s.strays.eraseIdx stray }.arrive attempt)
    | _ => none
  | .straySends stray identity =>
    match s.strays[stray]? with
    | some ⟨_, false⟩ => some ({ s with strays := s.strays.eraseIdx stray }.leave [identity])
    | _ => none

/-! ## 4. What is promised, and what it rests on -/

/-- Healthy by the signal of the attempt that is running. -/
def OwnSignal (s : Supervisor) : Prop :=
  s.entry.state = .healthy → s.phase = .running ∧ s.signalled = true

instance (s : Supervisor) : Decidable (OwnSignal s) := by
  unfold OwnSignal
  infer_instance

/-- Nothing is unanswered when the supervisor builds; a terminal role stays as it is and is not
built again; the role is healthy by its own signal only. -/
def Supervised (s : Supervisor) (e : Event) : Prop :=
  ∀ t ∈ step s e, (e.isBuild = true → s.unanswered = []) ∧
    (s.entry.state.isTerminal = true → e.isBuild = false ∧ t.entry = s.entry) ∧ OwnSignal t

instance (s : Supervisor) (e : Event) : Decidable (Supervised s e) := by
  unfold Supervised
  infer_instance

/-- The stray whose arrival opens the gate of its attempt. -/
def LastAtGate (s : Supervisor) (stray : Nat) : Prop :=
  ∃ x, s.strays[stray]? = some x ∧ s.remaining x.attempt = 1

/-- The attempt left nothing unknown but the one mutation its error named, and no dropped task
opens the gate of a role that is not healthy. -/
def Covered (s : Supervisor) (e : Event) : Prop :=
  ∀ t ∈ step s e, (e.isBuild = true → s.leftBehind = s.reported.toList) ∧
    ∀ stray, e = .strayArrives stray → LastAtGate s stray →
      s.entry.state = .healthy ∨ s.entry.state.isTerminal = true

/-! ## 5. The invariant -/

/-- What has been left unknown and has not been answered, as far as the loop has come. -/
def Tracked (s : Supervisor) : Prop :=
  match s.phase with
  | .running => s.reported = none ∧ s.unanswered = s.leftBehind
  | .waiting ambiguous => s.reported = ambiguous ∧ s.unanswered = s.leftBehind ∧
      ∀ identity ∈ ambiguous, identity ∈ s.leftBehind
  | .lookup identity => s.reported = some identity ∧ s.unanswered = s.leftBehind ∧
      identity ∈ s.leftBehind
  | .waitingLookup identity => s.reported = some identity ∧ s.unanswered = s.leftBehind ∧
      identity ∈ s.leftBehind
  | .build => s.unanswered = s.reported.elim s.leftBehind s.leftBehind.erase ∧
      ∀ identity ∈ s.reported, identity ∈ s.leftBehind
  | .returned => True

structure Inv (s : Supervisor) : Prop where
  terminal : s.phase = .returned ↔ s.entry.state.isTerminal = true
  own : OwnSignal s
  signalled : s.phase = .running → s.signalled = true → s.entry.state = .healthy
  tracked : Tracked s
  /-- An error that names a mutation has left it behind. -/
  named : s.phase = .running → ∀ e, .finished (some e) ∈ s.tasks →
    ∀ identity ∈ e.ambiguousOperation, identity ∈ s.leftBehind

theorem inv_init (kind : RoleKind) : Inv (.init kind) where
  terminal := by simp [Supervisor.init, RoleEntry.new, RoleState.isTerminal]
  own := by simp [OwnSignal, Supervisor.init, RoleEntry.new]
  signalled h := by simp [Supervisor.init] at h
  tracked := by simp [Tracked, Supervisor.init]
  named h := by simp [Supervisor.init] at h

section Steps

variable {s t : Supervisor}

theorem Inv.not_terminal (hinv : Inv s) (hphase : s.phase ≠ .returned) :
    s.entry.state.isTerminal = false := by
  rw [← Bool.not_eq_true, ← hinv.terminal]
  exact hphase

/-- Leaving mutations unknown changes nothing else. -/
theorem Inv.leave (hinv : Inv s) (identities : List OperationIdentity) :
    Inv (s.leave identities) where
  terminal := hinv.terminal
  own := hinv.own
  signalled := hinv.signalled
  named hphase e he identity hid :=
    List.mem_append_left _ (hinv.named hphase e he identity hid)
  tracked := by
    have htracked := hinv.tracked
    unfold Tracked at htracked ⊢
    show match s.phase with
      | .running => _ | .waiting _ => _ | .lookup _ => _ | .waitingLookup _ => _ | .build => _
      | .returned => _
    cases hphase : s.phase with
    | running =>
      rw [hphase] at htracked
      exact ⟨htracked.1, congrArg (· ++ identities) htracked.2⟩
    | waiting ambiguous =>
      rw [hphase] at htracked
      exact ⟨htracked.1, congrArg (· ++ identities) htracked.2.1,
        fun identity hid => List.mem_append_left _ (htracked.2.2 identity hid)⟩
    | lookup identity =>
      rw [hphase] at htracked
      exact ⟨htracked.1, congrArg (· ++ identities) htracked.2.1,
        List.mem_append_left _ htracked.2.2⟩
    | waitingLookup identity =>
      rw [hphase] at htracked
      exact ⟨htracked.1, congrArg (· ++ identities) htracked.2.1,
        List.mem_append_left _ htracked.2.2⟩
    | build =>
      rw [hphase] at htracked
      obtain ⟨hrest, hmem⟩ := htracked
      refine ⟨?_, fun identity hid => List.mem_append_left _ (hmem identity hid)⟩
      show s.unanswered ++ identities =
        s.reported.elim (s.leftBehind ++ identities) (s.leftBehind ++ identities).erase
      rw [hrest]
      cases hreported : s.reported with
      | none => rfl
      | some identity => exact (List.erase_append_left identities (hmem identity hreported)).symm
    | returned => trivial

theorem Inv.setTask (hinv : Inv s) (task : Nat) {state : TaskState}
    (hnamed : ∀ e, state = .finished (some e) → ∀ identity ∈ e.ambiguousOperation,
      identity ∈ s.leftBehind) : Inv (s.setTask task state) where
  terminal := hinv.terminal
  own := hinv.own
  signalled := hinv.signalled
  tracked := hinv.tracked
  named hphase e he := by
    rcases List.mem_or_eq_of_mem_set he with he | he
    · exact hinv.named hphase e he
    · exact hnamed e he.symm

/-- What is not looked at: strays, gates and the flag of the process. -/
theorem Inv.of_eq (hinv : Inv s) (hentry : t.entry.state = s.entry.state) (hphase : t.phase = s.phase)
    (htasks : t.tasks = s.tasks) (hsignalled : t.signalled = s.signalled)
    (hleft : t.leftBehind = s.leftBehind) (hreported : t.reported = s.reported)
    (hunanswered : t.unanswered = s.unanswered) : Inv t where
  terminal := by rw [hphase, hentry]; exact hinv.terminal
  own := by
    unfold OwnSignal
    rw [hentry, hphase, hsignalled]
    exact hinv.own
  signalled := by rw [hphase, hsignalled, hentry]; exact hinv.signalled
  tracked := by
    unfold Tracked
    rw [hphase, hreported, hunanswered, hleft]
    exact hinv.tracked
  named := by rw [hphase, htasks, hleft]; exact hinv.named

/-- The entry after an arrival. -/
theorem arrive_entry (s : Supervisor) (attempt : Nat) :
    (s.arrive attempt).entry =
      if s.remaining attempt = 1 then s.entry.healthy else s.entry := by
  unfold Supervisor.arrive
  split <;> rfl

/-- An arrival touches the gate and the entry. -/
theorem arrive_frame (s : Supervisor) (attempt : Nat) :
    (s.arrive attempt).phase = s.phase ∧ (s.arrive attempt).tasks = s.tasks ∧
      (s.arrive attempt).signalled = s.signalled ∧
      (s.arrive attempt).leftBehind = s.leftBehind ∧
      (s.arrive attempt).reported = s.reported ∧
      (s.arrive attempt).unanswered = s.unanswered := by
  unfold Supervisor.arrive
  split <;> exact ⟨rfl, rfl, rfl, rfl, rfl, rfl⟩

/-- The running attempt gives its signal. -/
theorem Inv.signal (hinv : Inv s) (hphase : s.phase = .running) :
    Inv { s with entry := s.entry.healthy, signalled := true } := by
  have hstate : s.entry.healthy.state = .healthy :=
    RoleEntry.transition_state (hinv.not_terminal (by rw [hphase]; nofun)) _ _ _
  refine ⟨?_, fun _ => ⟨hphase, rfl⟩, fun _ _ => hstate, hinv.tracked, hinv.named⟩
  show s.phase = .returned ↔ s.entry.healthy.state.isTerminal = true
  rw [hphase, hstate]
  exact iff_of_false nofun nofun

/-- The supervisor moves on, and the role with it. -/
theorem inv_of_moved (hterminal : t.phase = .returned ↔ t.entry.state.isTerminal = true)
    (hhealthy : t.entry.state ≠ .healthy) (hrunning : t.phase ≠ .running)
    (htracked : Tracked t) : Inv t where
  terminal := hterminal
  own h := absurd h hhealthy
  signalled h := absurd h hrunning
  tracked := htracked
  named h := absurd h hrunning

/-- The worker returned an error. -/
theorem Inv.workerFailed (hinv : Inv s) (hphase : s.phase = .running) {e : RoleError}
    (hjoined : .finished (some e) ∈ s.tasks) : Inv (s.workerFailed e) := by
  have hnamed := hinv.named hphase e hjoined
  have htracked := (hinv.leave (s.tasks.filterMap TaskState.inFlight)).tracked
  unfold Tracked at htracked
  change match s.phase with
    | .running => _ | .waiting _ => _ | .lookup _ => _ | .waitingLookup _ => _ | .build => _
    | .returned => _ at htracked
  rw [hphase] at htracked
  have hterminal := hinv.not_terminal (by rw [hphase]; nofun)
  have hfailed : ∀ cls, (s.entry.failed cls).state = .failed :=
    fun cls => RoleEntry.transition_state hterminal _ _ _
  have hdegraded : ∀ cls, (s.entry.degraded cls).state = .degraded :=
    fun cls => RoleEntry.transition_state hterminal _ _ _
  unfold Supervisor.workerFailed
  cases hcatalog : e.catalogError with
  | none =>
    refine inv_of_moved (iff_of_true rfl ?_) ?_ nofun trivial
    · exact congrArg RoleState.isTerminal (hfailed none)
    · exact ne_of_eq_of_ne (hfailed none) nofun
  | some c =>
    simp only
    split
    · refine inv_of_moved (iff_of_false nofun fun h => ?_) ?_ nofun ⟨rfl, htracked.2, ?_⟩
      · cases (congrArg RoleState.isTerminal (hdegraded c.toClass)).symm.trans h
      · exact ne_of_eq_of_ne (hdegraded c.toClass) nofun
      · exact fun identity hid => List.mem_append_left _ (hnamed identity hid)
    · refine inv_of_moved (iff_of_true rfl ?_) ?_ nofun trivial
      · exact congrArg RoleState.isTerminal (hfailed _)
      · exact ne_of_eq_of_ne (hfailed _) nofun

end Steps

/-- At the head of the loop: nothing is unanswered when the one that was asked about is all there
was. -/
theorem unanswered_eq_nil_iff {s : Supervisor} (hinv : Inv s) (hphase : s.phase = .build) :
    s.unanswered = [] ↔ s.leftBehind = s.reported.toList := by
  have htracked := hinv.tracked
  unfold Tracked at htracked
  rw [hphase] at htracked
  obtain ⟨hrest, hmem⟩ := htracked
  rw [hrest]
  cases hreported : s.reported with
  | none => rfl
  | some identity =>
    have hid := hmem identity hreported
    show s.leftBehind.erase identity = [] ↔ s.leftBehind = [identity]
    rw [List.erase_eq_nil_iff]
    refine or_iff_right fun hnil => ?_
    rw [hnil] at hid
    cases hid

/-! ## 6. Steps and runs -/

section Run

variable {s t : Supervisor}

theorem finished_not_mem_tasks (kind : RoleKind) (error : Option RoleError) :
    .finished error ∉ kind.tasks := by
  cases kind with
  | ingest routes =>
    intro h
    cases List.eq_of_mem_replicate h
  | single renews =>
    intro h
    cases List.mem_singleton.mp h

/-- **One step keeps the invariant**, if the attempt before a build left nothing unasked and no
dropped task makes the role healthy. -/
theorem inv_step {e : Event} (h : step s e = some t) (hinv : Inv s) (hc : Covered s e) : Inv t := by
  have hcovered := hc t h
  cases e with
  | build =>
    obtain ⟨hphase, ⟨⟩⟩ := Option.ite_none_right_eq_some.mp h
    have hstate : s.entry.state ≠ .healthy := by
      intro hstate
      rw [(hinv.own hstate).1] at hphase
      cases hphase
    have hnil := (unanswered_eq_nil_iff hinv hphase).mpr (hcovered.1 rfl)
    refine ⟨?_, fun hhealthy => absurd hhealthy hstate, nofun, ⟨rfl, hnil⟩, ?_⟩
    · exact iff_of_false nofun (Bool.not_eq_true _ ▸ hinv.not_terminal (by rw [hphase]; nofun))
    · intro _ e he
      exact absurd he (finished_not_mem_tasks s.kind _)
  | arrive task =>
    obtain ⟨⟨hphase, -⟩, ⟨⟩⟩ := Option.ite_none_right_eq_some.mp h
    have hset : Inv (s.setTask task .working) := hinv.setTask task nofun
    obtain ⟨hfp, hft, -, hfl, hfr, hfu⟩ := arrive_frame (s.setTask task .working) s.attempt
    by_cases hlast : s.remaining s.attempt = 1
    · refine (hset.signal hphase).of_eq ?_ hfp hft ?_ hfl hfr hfu
      · rw [arrive_entry]
        exact congrArg RoleEntry.state (if_pos hlast)
      · exact Bool.or_eq_true_iff.mpr (Or.inr (decide_eq_true hlast))
    · refine hset.of_eq ?_ hfp hft ?_ hfl hfr hfu
      · rw [arrive_entry]
        exact congrArg RoleEntry.state (if_neg hlast)
      · show (s.signalled || decide (s.remaining s.attempt = 1)) = s.signalled
        rw [decide_eq_false hlast, Bool.or_false]
  | signal =>
    obtain ⟨⟨hphase, -, -⟩, ⟨⟩⟩ := Option.ite_none_right_eq_some.mp h
    exact hinv.signal hphase
  | send task identity =>
    obtain ⟨-, ⟨⟩⟩ := Option.ite_none_right_eq_some.mp h
    exact hinv.setTask task nofun
  | answered task =>
    simp only [step] at h
    split at h <;> cases h
    exact hinv.setTask task nofun
  | lost task =>
    simp only [step] at h
    split at h <;> cases h
    rename_i identity _ _
    refine (hinv.leave [identity]).setTask task ?_
    rintro e ⟨⟩ identity' ⟨⟩
    exact List.mem_append_right _ List.mem_cons_self
  | abandoned task =>
    simp only [step] at h
    split at h <;> cases h
    rename_i identity _ _ _
    exact (hinv.leave [identity]).setTask task nofun
  | failed task e =>
    obtain ⟨⟨-, -, hnone⟩, ⟨⟩⟩ := Option.ite_none_right_eq_some.mp h
    refine hinv.setTask task ?_
    rintro e' ⟨⟩ identity hid
    rw [hnone] at hid
    cases hid
  | drained task =>
    obtain ⟨-, ⟨⟩⟩ := Option.ite_none_right_eq_some.mp h
    exact hinv.setTask task nofun
  | joined task =>
    simp only [step] at h
    split at h <;> cases h
    · exact hinv.setTask task nofun
    · rename_i hphase htask
      exact hinv.workerFailed hphase (List.mem_of_getElem? htask)
  | allJoined =>
    obtain ⟨⟨hphase, -⟩, ⟨⟩⟩ := Option.ite_none_right_eq_some.mp h
    have hstate : s.entry.stopped.state = .stopped :=
      RoleEntry.transition_state (hinv.not_terminal (by rw [hphase]; nofun)) _ _ _
    refine inv_of_moved (iff_of_true rfl ?_) ?_ nofun trivial
    · exact congrArg RoleState.isTerminal hstate
    · exact ne_of_eq_of_ne hstate nofun
  | probed =>
    have htracked := hinv.tracked
    unfold Tracked at htracked
    have hmoved : ∀ phase, s.phase ≠ .returned → phase ≠ .returned → phase ≠ .running →
        Tracked { s with entry := s.entry.reconciling, phase := phase } →
          Inv { s with entry := s.entry.reconciling, phase := phase } := by
      intro phase hs hphase hrunning htracked'
      have hstate : s.entry.reconciling.state = .reconciling :=
        RoleEntry.transition_state (hinv.not_terminal hs) _ _ _
      refine inv_of_moved (iff_of_false hphase fun hterminal => ?_) ?_ hrunning htracked'
      · cases (congrArg RoleState.isTerminal hstate).symm.trans hterminal
      · exact ne_of_eq_of_ne hstate nofun
    simp only [step] at h
    split at h <;> cases h <;> rename_i hphase <;> rw [hphase] at htracked
    · refine hmoved .build (by rw [hphase]; nofun) nofun nofun ⟨?_, ?_⟩
      · rw [htracked.1]
        exact htracked.2.1
      · rw [htracked.1]
        nofun
    · exact hmoved _ (by rw [hphase]; nofun) nofun nofun
        ⟨htracked.1, htracked.2.1, htracked.2.2 _ rfl⟩
    · exact hmoved _ (by rw [hphase]; nofun) nofun nofun htracked
  | interrupted =>
    obtain ⟨⟨-, hphase⟩, ⟨⟩⟩ := Option.ite_none_right_eq_some.mp h
    have hstate : s.entry.stopped.state = .stopped := by
      refine RoleEntry.transition_state (hinv.not_terminal fun hreturned => ?_) _ _ _
      rw [hreturned] at hphase
      cases hphase
    refine inv_of_moved (iff_of_true rfl ?_) ?_ nofun trivial
    · exact congrArg RoleState.isTerminal hstate
    · exact ne_of_eq_of_ne hstate nofun
  | looked answer =>
    simp only [step] at h
    split at h <;> try cases h
    rename_i identity hphase
    have htracked := hinv.tracked
    unfold Tracked at htracked
    rw [hphase] at htracked
    have hterminal := hinv.not_terminal (by rw [hphase]; nofun)
    have hstate : s.entry.state ≠ .healthy := by
      intro hstate
      rw [(hinv.own hstate).1] at hphase
      cases hphase
    have hstay : ¬ s.entry.state.isTerminal = true := by
      rw [hterminal]
      exact Bool.false_ne_true
    split at h
    · cases h
      refine inv_of_moved (iff_of_false nofun hstay) hstate nofun ⟨?_, ?_⟩
      · show s.unanswered.erase identity = s.reported.elim s.leftBehind s.leftBehind.erase
        rw [htracked.1, htracked.2.1]
        rfl
      · intro identity' hid
        rw [show s.reported = some identity from htracked.1] at hid
        cases hid
        exact htracked.2.2
    · split at h <;> cases h
      · exact inv_of_moved (iff_of_false nofun hstay) hstate nofun htracked
      · have hfailed := fun cls => RoleEntry.transition_state hterminal .failed cls id
        refine inv_of_moved (iff_of_true rfl ?_) ?_ nofun trivial
        · exact congrArg RoleState.isTerminal (hfailed _)
        · exact ne_of_eq_of_ne (hfailed _) nofun
  | shutdown =>
    cases h
    exact hinv.of_eq rfl rfl rfl rfl rfl rfl rfl
  | strayArrives stray =>
    simp only [step] at h
    split at h <;> cases h
    rename_i attempt hstray
    obtain ⟨hfp, hft, hfs, hfl, hfr, hfu⟩ :=
      arrive_frame { s with strays := s.strays.eraseIdx stray } attempt
    refine hinv.of_eq ?_ hfp hft hfs hfl hfr hfu
    rw [arrive_entry]
    split
    · rename_i hlast
      rcases hcovered.2 stray rfl ⟨_, hstray, hlast⟩ with hhealthy | hterminal
      · by_cases hterminal : s.entry.state.isTerminal = true
        · exact congrArg _ (RoleEntry.transition_of_terminal hterminal _ _ _)
        · rw [hhealthy]
          exact RoleEntry.transition_state (Bool.not_eq_true _ ▸ hterminal) _ _ _
      · exact congrArg _ (RoleEntry.transition_of_terminal hterminal _ _ _)
    · rfl
  | straySends stray identity =>
    simp only [step] at h
    split at h <;> cases h
    exact (hinv.leave [identity]).of_eq rfl rfl rfl rfl rfl rfl rfl

/-- A role that has failed or stopped is not touched by anything. -/
theorem entry_of_terminal {e : Event} (h : step s e = some t) (hinv : Inv s)
    (hterminal : s.entry.state.isTerminal = true) : e.isBuild = false ∧ t.entry = s.entry := by
  have hphase := hinv.terminal.mpr hterminal
  have hkeep := RoleEntry.transition_of_terminal hterminal
  cases e with
  | shutdown =>
    cases h
    exact ⟨rfl, rfl⟩
  | strayArrives stray =>
    simp only [step] at h
    split at h <;> cases h
    refine ⟨rfl, ?_⟩
    rw [arrive_entry]
    split
    · exact hkeep _ _ _
    · rfl
  | straySends stray identity =>
    simp only [step] at h
    split at h <;> cases h
    exact ⟨rfl, rfl⟩
  -- everything else happens to a role that has not returned
  | _ => simp [step, hphase] at h

/-- **What is promised of a step comes to what it rests on.** -/
theorem covered_iff_supervised (hinv : Inv s) (e : Event) : Covered s e ↔ Supervised s e := by
  have hbuild : ∀ t ∈ step s e, e.isBuild = true →
      (s.unanswered = [] ↔ s.leftBehind = s.reported.toList) := by
    intro t ht he
    cases e with
    | build =>
      obtain ⟨hphase, -⟩ := Option.ite_none_right_eq_some.mp ht
      exact unanswered_eq_nil_iff hinv hphase
    | _ => cases he
  constructor
  · intro hc t ht
    exact ⟨fun he => (hbuild t ht he).mpr ((hc t ht).1 he),
      fun hterminal => entry_of_terminal ht hinv hterminal, (inv_step ht hinv hc).own⟩
  · intro hs t ht
    obtain ⟨hnil, -, hown⟩ := hs t ht
    refine ⟨fun he => (hbuild t ht he).mp (hnil he), ?_⟩
    rintro stray rfl ⟨x, hx, hlast⟩
    by_cases hterminal : s.entry.state.isTerminal = true
    · exact Or.inr hterminal
    · refine Or.inl ?_
      simp only [step] at ht
      split at ht <;> try cases ht
      rename_i attempt hstray
      cases Option.some.inj (hstray.symm.trans hx)
      obtain ⟨hfp, -, hfs, -, -, -⟩ :=
        arrive_frame { s with strays := s.strays.eraseIdx stray } attempt
      have hstate : ({ s with strays := s.strays.eraseIdx stray }.arrive attempt).entry.state =
          .healthy := by
        rw [arrive_entry]
        refine (congrArg RoleEntry.state (if_pos hlast)).trans ?_
        exact RoleEntry.transition_state (Bool.not_eq_true _ ▸ hterminal) _ _ _
      obtain ⟨hphase, hsignalled⟩ := hown hstate
      exact hinv.signalled (hfp.symm.trans hphase) (hfs.symm.trans hsignalled)

end Run

/-- **What a supervised role is promised, and exactly when.**  Over any run: before the supervisor
builds a worker every identified mutation the attempts left unknown has been answered, a failed or
stopped role stays so and is not built again, and a role is healthy by the signal of its running
attempt only.  That holds of the runs in which each attempt leaves behind at most the mutation its
error names, and no dropped route is the last to arrive at its gate. -/
theorem supervised_iff (kind : RoleKind) (es : List Event) :
    Lts.Along step Supervised (.init kind) es ↔ Lts.Along step Covered (.init kind) es :=
  (Lts.along_iff (fun _ e hinv => covered_iff_supervised hinv e)
    (fun _ _ _ h hinv hc => inv_step h hinv hc) (inv_init kind)).symm

/-- A mutation of a route's hypertable. -/
def flush (hypertable : HypertableId) : OperationIdentity := ⟨hypertable, "flush", []⟩

/-- Two routes commit; one loses its acknowledgement, and the other is dropped in flight.  Only the
first is asked about.  And a route that failed after it had arrived leaves its sibling blocked in a
metadata request; when that returns, the role is healthy before its worker is built again. -/
theorem dropped_routes_unsupervised :
    ¬ Lts.Along step Supervised (.init (.ingest 2))
      [.build, .arrive 0, .arrive 1, .send 0 (flush 1), .send 1 (flush 2), .lost 0, .joined 0,
        .probed, .looked (.ok none), .build] ∧
    ¬ Lts.Along step Supervised (.init (.ingest 2))
      [.build, .arrive 0, .failed 0 (.catalog (.db .transport)), .joined 0, .probed,
        .strayArrives 0] := by
  decide

end Ukiel.Daemon
