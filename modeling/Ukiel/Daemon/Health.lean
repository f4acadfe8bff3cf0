/-
# The health of a role

`ukield/src/health.rs`: one role's entry of the registry, moved by its handle only, and what a
catalog error means to it (`ukiel-catalog/src/error.rs`).  A role that has failed or was stopped
stays where it is, whoever moves it.
-/
import Ukiel.Core.Types

namespace Ukiel

/-! ## 1. The class of an error -/

/-- `CatalogErrorClass`. -/
inductive CatalogErrorClass where
  | semanticConflict
  | ownershipViolation
  | permanentInput
  | absentResource
  | transport
  | retryableDatabase
  | permanentDatabase
deriving DecidableEq

/-- `class_for_db_error`. -/
def DbFailure.toClass : DbFailure → CatalogErrorClass
  | .transport => .transport
  | .retryable => .retryableDatabase
  | .permanent => .permanentDatabase

/-- `class`. -/
def CatalogError.toClass : CatalogError → CatalogErrorClass
  | .conflict _ _ => .semanticConflict
  | .leaseLost _ => .ownershipViolation
  | .offsetRace _ _ => .ownershipViolation
  | .leasePartitionMismatch _ => .permanentInput
  | .invalidLeaseTtl _ => .permanentInput
  | .operationKeyCollision _ => .permanentInput
  | .operationHypertableMismatch _ _ => .permanentInput
  -- the outcome is unknown, and the connection is why
  | .ambiguousMutation _ => .transport
  | .unidentifiedAmbiguousMutation => .permanentDatabase
  | .notFound _ => .absentResource
  | .db failure => failure.toClass

/-- `is_recoverable_transport`. -/
def CatalogError.isRecoverableTransport (e : CatalogError) : Bool :=
  e.toClass = .transport ∨ e.toClass = .retryableDatabase

namespace Daemon

/-! ## 2. A role's entry -/

inductive RoleState where
  | starting
  | healthy
  | degraded
  | reconciling
  | failed
  | stopped
deriving DecidableEq

def RoleState.isTerminal (s : RoleState) : Bool := s matches .failed | .stopped

/-- `RoleEntry`. -/
structure RoleEntry where
  state : RoleState
  /-- Recovery attempts since it last was healthy. -/
  recoveryAttempts : Nat
  lastErrorClass : Option CatalogErrorClass
deriving DecidableEq

namespace RoleEntry

/-- An entry of a new registry. -/
def new : RoleEntry := ⟨.starting, 0, none⟩

/-- `transition`. -/
def transition (e : RoleEntry) (target : RoleState) (cls : Option CatalogErrorClass)
    (adjust : Nat → Nat) : RoleEntry :=
  if e.state.isTerminal then e
  else ⟨target, adjust e.recoveryAttempts, cls.or e.lastErrorClass⟩

def healthy (e : RoleEntry) : RoleEntry := e.transition .healthy none fun _ => 0

def degraded (e : RoleEntry) (cls : CatalogErrorClass) : RoleEntry :=
  e.transition .degraded (some cls) id

def reconciling (e : RoleEntry) : RoleEntry := e.transition .reconciling none (· + 1)

def failed (e : RoleEntry) (cls : Option CatalogErrorClass) : RoleEntry :=
  e.transition .failed cls id

def stopped (e : RoleEntry) : RoleEntry := e.transition .stopped none id

/-- **A terminal entry is moved by nobody.** -/
theorem transition_of_terminal {e : RoleEntry} (h : e.state.isTerminal = true) (target : RoleState)
    (cls : Option CatalogErrorClass) (adjust : Nat → Nat) : e.transition target cls adjust = e :=
  if_pos h

theorem transition_state {e : RoleEntry} (h : e.state.isTerminal = false) (target : RoleState)
    (cls : Option CatalogErrorClass) (adjust : Nat → Nat) :
    (e.transition target cls adjust).state = target := by
  unfold transition
  rw [if_neg (by rw [h]; exact Bool.false_ne_true)]

end RoleEntry

end Daemon

end Ukiel
