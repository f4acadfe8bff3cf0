/-
# Compaction partition leases

The three statements of `leases.rs`, each as a function on the one row they address.  A row is
`none` when the partition has no lease.  Every statement runs on the row as it is once the
statement holds the row lock; what the statement evaluated BEFORE that (the VALUES list of the
acquisition: the drawn generation and the expiry) is an argument.
-/
import Ukiel.Catalog.Tables

namespace Ukiel.Catalog

/-- `ttl_millis`: whole milliseconds, rejecting zero and what does not fit an `i64`. -/
def ttlMillis (millis : Nat) : Except CatalogError Int :=
  if millis = 0 then .error (.invalidLeaseTtl "must be greater than zero")
  else if millis < 2 ^ 63 then .ok millis
  else .error (.invalidLeaseTtl "exceeds i64 milliseconds")

/-- `clock_timestamp() + ms * INTERVAL '1 millisecond'`. -/
def expiryFrom (now : Int) (millis : Int) : Int := now + millis * 1000

/-- `try_acquire_compaction_lease`, the `ON CONFLICT DO UPDATE` part: the row afterwards, or
`none` when an unexpired peer holds the partition.  An unexpired owner keeps its generation,
every other acquisition takes the drawn one. -/
def tryAcquireCompactionLease (held : Option LeaseRow) (owner : Uuid) (generation : Int)
    (expiresAt now : Int) : Option LeaseRow :=
  match held with
  | none => some ⟨owner, generation, expiresAt⟩
  | some r =>
    if r.expiresAt ≤ now ∨ r.ownerId = owner then
      some ⟨owner, if r.ownerId = owner ∧ now < r.expiresAt then r.generation else generation,
        expiresAt⟩
    else none

/-- `renew_compaction_lease`: the row afterwards, or `none` for a proven loss. -/
def renewCompactionLease (held : Option LeaseRow) (lease : CompactionLease) (millis : Int)
    (now : Int) : Option LeaseRow :=
  match held with
  | none => none
  | some r =>
    if r.ownerId = lease.ownerId ∧ r.generation = lease.generation ∧ now < r.expiresAt then
      some { r with expiresAt := expiryFrom now millis }
    else none

/-- `release_compaction_lease`: whether the row is deleted. -/
def releaseCompactionLease (held : Option LeaseRow) (lease : CompactionLease) : Bool :=
  match held with
  | none => false
  | some r => r.ownerId = lease.ownerId ∧ r.generation = lease.generation

/-- The row a lease addresses. -/
def leaseKey (lease : CompactionLease) : LeaseKey := ⟨lease.hypertableId, lease.partitionValues⟩

/-! ## What the statements do, case by case -/

/-- **An acquisition either continues the owner's unexpired tenancy or starts a new one**, and
it starts one only over a free or an expired row. -/
theorem tryAcquire_cases {held : Option LeaseRow} {owner : Uuid} {g : Int} {e now : Int}
    {r : LeaseRow} (h : tryAcquireCompactionLease held owner g e now = some r) :
    (∃ r₀, held = some r₀ ∧ r₀.ownerId = owner ∧ now < r₀.expiresAt ∧
        r = { r₀ with expiresAt := e }) ∨
      ((∀ r₀, held = some r₀ → r₀.expiresAt ≤ now) ∧ r = ⟨owner, g, e⟩) := by
  cases held with
  | none =>
    simp only [tryAcquireCompactionLease, Option.some.injEq] at h
    exact Or.inr ⟨by simp, h.symm⟩
  | some r₀ =>
    simp only [tryAcquireCompactionLease] at h
    split at h
    · rename_i hfree
      simp only [Option.some.injEq] at h
      by_cases hown : r₀.ownerId = owner ∧ now < r₀.expiresAt
      · rw [if_pos hown] at h
        refine Or.inl ⟨r₀, rfl, hown.1, hown.2, ?_⟩
        rw [← h, ← hown.1]
      · rw [if_neg hown] at h
        refine Or.inr ⟨?_, h.symm⟩
        rintro _ ⟨rfl⟩
        rcases hfree with hfree | hfree
        · exact hfree
        · exact Int.not_lt.mp fun hlt => hown ⟨hfree, hlt⟩
    · cases h

/-- A renewal keeps the owner and the generation of an unexpired row. -/
theorem renew_cases {held : Option LeaseRow} {lease : CompactionLease} {ms : Int} {now : Int}
    {r : LeaseRow} (h : renewCompactionLease held lease ms now = some r) :
    ∃ r₀, held = some r₀ ∧ r₀.ownerId = lease.ownerId ∧ r₀.generation = lease.generation ∧
      now < r₀.expiresAt ∧ r = { r₀ with expiresAt := expiryFrom now ms } := by
  cases held with
  | none => cases h
  | some r₀ =>
    simp only [renewCompactionLease] at h
    split at h
    · rename_i hm
      simp only [Option.some.injEq] at h
      exact ⟨r₀, rfl, hm.1, hm.2.1, hm.2.2, h.symm⟩
    · cases h

/-- A release deletes only the row of its own owner and generation. -/
theorem release_cases {held : Option LeaseRow} {lease : CompactionLease}
    (h : releaseCompactionLease held lease = true) :
    ∃ r₀, held = some r₀ ∧ r₀.ownerId = lease.ownerId ∧ r₀.generation = lease.generation := by
  cases held with
  | none => cases h
  | some r₀ =>
    simp only [releaseCompactionLease, decide_eq_true_eq] at h
    exact ⟨r₀, rfl, h.1, h.2⟩

end Ukiel.Catalog
