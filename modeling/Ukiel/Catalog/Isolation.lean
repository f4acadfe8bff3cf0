/-
# Concurrent transactions, one at a time

The machine interleaves the STATEMENTS of any number of transactions.  This module proves that
it might as well not: **when a transaction becomes durable, running its whole plan alone, at
that moment, on the tables as they then are, gives the same reply and the same tables**
(`commit_sequential`).  So a commit does to the committed tables exactly what `Applied` says,
and nothing else changes commits, live parts or offsets (`step_tables`).
-/
import Ukiel.Catalog.Invariant

namespace Ukiel.Catalog

variable {T T' : Tables} {c : Call} {w w' : Writes} {db db' : Db}

/-- Where a run starts: rows the schema allows and nobody connected.  No partition is leased. -/
structure Initial (db : Db) : Prop where
  stored : Stored db
  txns : db.txns = ∅
  replies : db.replies = fun _ => none
  history : db.history = []
  barrier : db.barrier = ∅
  heads : db.heads = []
  claims : db.claims = ∅
  tenancies : db.tenancies = []
  leases : db.tables.compactionLeases = fun _ => none

/-- The empty catalog. -/
theorem initial_empty : Initial {} where
  stored := ⟨by decide, by simp, by simp, by simp, by simp, by simp, by simp⟩
  txns := rfl
  replies := rfl
  history := rfl
  barrier := rfl
  heads := rfl
  claims := rfl
  tenancies := rfl
  leases := rfl

/-- A state some interleaving reaches. -/
def Reachable (db : Db) : Prop := ∃ db₀, Initial db₀ ∧ Lts.Reaches step db₀ db

theorem Initial.inv (h : Initial db) : Inv db where
  stored := h.stored
  txn t τ hl := by rw [h.txns] at hl; cases hl
  txn_lt t τ hl := by rw [h.txns] at hl; cases hl
  excl t₁ t₂ τ₁ τ₂ _ hl := by rw [h.txns] at hl; cases hl
  barrier t τ hl := by rw [h.txns] at hl; cases hl
  heads k H hH := by rw [h.heads] at hH; cases hH

theorem Reachable.inv (h : Reachable db) : Inv db := by
  obtain ⟨db₀, h₀, hr⟩ := h
  exact hr.inv (fun _ _ _ hs hi => inv_step hs hi) h₀.inv

theorem Reachable.next {e : Event} (h : Reachable db) (hs : step db e = some db') :
    Reachable db' := by
  obtain ⟨db₀, h₀, hr⟩ := h
  exact ⟨db₀, h₀, hr.trans (Lts.Reaches.single hs)⟩

theorem Reachable.reaches (h : Reachable db) (hr : Lts.Reaches step db db') : Reachable db' := by
  obtain ⟨db₀, h₀, hr₀⟩ := h
  exact ⟨db₀, h₀, hr₀.trans hr⟩

/-- What the server does when it makes a transaction durable. -/
theorem step_commit {t : Nat} (h : step db (.commit t) = some db') :
    ∃ τ, db.txns.lookup t = some τ ∧ τ.sent = true ∧ db' = { db with
      tables := τ.w.apply db.tables
      txns := db.txns.erase t
      history := db.history ++ [⟨t, τ.w.cid.getD 0, τ.call⟩] } := by
  simp only [step] at h
  split at h
  · cases h
  · rename_i τ hlook
    split at h
    · rename_i hsent
      simp only [Option.some.injEq] at h
      exact ⟨τ, hlook, hsent, h.symm⟩
    · cases h

/-- **Isolation.**  A transaction that becomes durable amid any others did what `commit_txn`
does alone: the whole function, run on the committed tables of that very moment, returns
`Committed` with the same id and leaves the same tables. -/
theorem commit_sequential {t : Nat} (hi : Inv db) (h : step db (.commit t) = some db') :
    ∃ τ envs, db.txns.lookup t = some τ ∧ envs.length = (plan τ.call).length ∧
      commitTxn db.tables envs τ.call = (.ok (.committed (τ.w.cid.getD 0)), db'.tables) := by
  obtain ⟨τ, hlook, hsent, rfl⟩ := step_commit h
  have hτ := hi.txn t τ hlook
  obtain ⟨done, hd, hr⟩ := hτ.complete hsent
  refine ⟨τ, done.map Prod.snd, hlook, ?_, ?_⟩
  · rw [← hd, List.length_map, List.length_map]
  · unfold commitTxn
    rw [if_neg (not_not.mpr hτ.scope), ← List.zip_of_prod hd rfl, hr]

/-- The tables moved by something other than a commit: upload intents, lease rows, cursors and
purge stamps. -/
structure Aside (T T' : Tables) : Prop where
  commits : T'.commits = T.commits
  parts : ∃ f : PartRow → PartRow, T'.parts = T.parts.map f ∧
    ∀ p, f p = { p with purgedAt := (f p).purgedAt }
  purged : ∀ p ∈ T'.parts, p.purgedAt = none → p ∈ T.parts
  offsets : T'.ingestOffsets = T.ingestOffsets

theorem Aside.of_rows (hc : T'.commits = T.commits) (hp : T'.parts = T.parts)
    (ho : T'.ingestOffsets = T.ingestOffsets) : Aside T T' :=
  ⟨hc, ⟨id, by rw [hp, List.map_id], fun _ => rfl⟩, fun p hmem _ => hp ▸ hmem, ho⟩

/-- **The only events that change commits, live parts or offsets are commits**, and a commit
changes them as `Applied` says. -/
theorem step_tables {e : Event} (hi : Inv db) (h : step db e = some db') :
    (∃ t τ id, e = .commit t ∧ db.txns.lookup t = some τ ∧ τ.w.cid = some id ∧
      Applied db.tables τ.call id db'.tables ∧ db'.txns = db.txns.erase t ∧
      db'.history = db.history ++ [⟨t, id, τ.call⟩] ∧ db'.clock = db.clock) ∨
    ((∀ t, e ≠ .commit t) ∧ db'.history = db.history ∧ Aside db.tables db'.tables) := by
  cases e with
  | commit t =>
    obtain ⟨τ, hlook, hsent, rfl⟩ := step_commit h
    have hready := (hi.txn t τ hlook).ready hsent
    obtain ⟨id, at', hcid, -⟩ := hready.id
    have happ := hready.applied
    have hgetD : τ.w.cid.getD 0 = id := by rw [hcid]; rfl
    rw [hgetD] at happ ⊢
    exact Or.inl ⟨t, τ, id, rfl, hlook, hcid, happ, rfl, rfl, rfl⟩
  | markPurged ids =>
    simp only [step] at h
    split at h
    · cases h
      refine Or.inr ⟨by simp, rfl, rfl, ⟨_, rfl, ?_⟩, ?_, rfl⟩
      · intro p
        split <;> rfl
      · intro p' hp' hnone
        obtain ⟨p, hp, rfl⟩ := List.mem_map.mp hp'
        split at hnone
        · cases hnone
        · rwa [if_neg ‹_›]
    · cases h
  | setCursor worker k cursor =>
    simp only [step] at h
    cases h
    refine Or.inr ⟨by simp, rfl, ?_⟩
    unfold setCursor
    split
    · split <;> exact Aside.of_rows rfl rfl rfl
    · exact Aside.of_rows rfl rfl rfl
  | installLease k =>
    simp only [step] at h
    repeat' split at h
    all_goals cases h
    refine Or.inr ⟨by simp, ?_⟩
    unfold Db.installLease
    split
    · exact ⟨rfl, Aside.of_rows rfl rfl rfl⟩
    · dsimp only
      split <;> exact ⟨rfl, Aside.of_rows rfl rfl rfl⟩
  | stmt t =>
    simp only [step] at h
    repeat' split at h
    all_goals cases h
    refine Or.inr ⟨by simp, ?_⟩
    unfold Db.runStmt
    split
    · exact ⟨by simp, Aside.of_rows (by simp) (by simp) (by simp)⟩
    · exact ⟨rfl, Aside.of_rows rfl rfl rfl⟩
  | rollback _ _ | abandon _ _ | lost _ | ack _ =>
    simp only [step] at h
    repeat' split at h
    all_goals cases h
    all_goals exact Or.inr ⟨by simp, by simp, Aside.of_rows (by simp) (by simp) (by simp)⟩
  | begin _ | sendCommit _ | lockBarrier _ _ | readHead _ | unlockBarrier _ | drawLease _ _ _
  | renewLease _ _ | releaseLease _ | registerPending _ _ | clearPending _ | tick _ =>
    simp only [step] at h
    repeat' split at h
    all_goals cases h
    all_goals exact Or.inr ⟨by simp, rfl, Aside.of_rows rfl rfl rfl⟩

end Ukiel.Catalog
