/-
# What a committed transaction did

`commit_txn` run without interference, taken apart.  §1 has the rules of `execAll`; §2 reads
the writes of a whole plan off the statements, stage by stage as the function sends them; §3
states the result once, as `Applied`: what must have held of the tables before, and how the
tables after differ.  Everything later that needs to know what a commit does uses `Applied`
and never unfolds a statement.
-/
import Mathlib.Logic.Function.Basic
import Ukiel.Lib.Lists
import Ukiel.Catalog.Tables

namespace Ukiel.Catalog

variable {T T' : Tables} {c : Call} {w w' : Writes}

/-! ## 1. Running statements -/

theorem execAll_cons {s : Stmt} {env : Env} {rest : List (Stmt × Env)} :
    execAll T c ((s, env) :: rest) w = .ok w' ↔
      ∃ w₁, execStmt T c env w s = .ok w₁ ∧ execAll T c rest w₁ = .ok w' := by
  simp only [execAll]
  cases h : execStmt T c env w s with
  | error r => simp
  | ok w₁ => simp

theorem execAll_append : ∀ {done more : List (Stmt × Env)} {w : Writes},
    execAll T c (done ++ more) w = .ok w' ↔
      ∃ w₁, execAll T c done w = .ok w₁ ∧ execAll T c more w₁ = .ok w'
  | [], more, w => by simp [execAll]
  | (s, env) :: done, more, w => by
    simp only [List.cons_append, execAll_cons]
    constructor
    · rintro ⟨w₁, h₁, h₂⟩
      obtain ⟨w₂, h₃, h₄⟩ := execAll_append.mp h₂
      exact ⟨w₂, ⟨w₁, h₁, h₃⟩, h₄⟩
    · rintro ⟨w₂, ⟨w₁, h₁, h₃⟩, h₄⟩
      exact ⟨w₁, h₁, execAll_append.mpr ⟨w₂, h₃, h₄⟩⟩

theorem execAll_singleton {s : Stmt} {env : Env} :
    execAll T c [(s, env)] w = .ok w' ↔ execStmt T c env w s = .ok w' := by
  rw [execAll_cons]
  simp [execAll]

/-! ## 2. The stages of a plan -/

/-- The ownership test and the partition test of `fence_lease`, at the time `now`. -/
structure Fenced (T : Tables) (c : Call) (lease : CompactionLease) (now : Int) : Prop where
  hypertable : c.hypertableId = lease.hypertableId
  held : ∃ row, T.compactionLeases ⟨c.hypertableId, lease.partitionValues⟩ = some row ∧
    row.ownerId = lease.ownerId ∧ row.generation = lease.generation ∧ now < row.expiresAt
  replace : ∃ old new, c.op = .replace old new ∧
    (∀ p ∈ new, p.partitionValues = lease.partitionValues) ∧
    (insideLease T c lease.partitionValues old).length = old.length

theorem execStmt_lockLease {lease : CompactionLease} {env : Env}
    (h : execStmt T c env w (.lockLease lease) = .ok w') :
    c.hypertableId = lease.hypertableId ∧
      (∃ row, T.compactionLeases ⟨c.hypertableId, lease.partitionValues⟩ = some row ∧
        row.ownerId = lease.ownerId ∧ row.generation = lease.generation ∧
        env.now < row.expiresAt) ∧
      w' = { w with leaseLocks := ⟨c.hypertableId, lease.partitionValues⟩ :: w.leaseLocks } := by
  simp only [execStmt] at h
  split at h
  · cases h
  · rename_i hh
    split at h
    · cases h
    · rename_i row hrow
      split at h
      · rename_i hm
        cases h
        exact ⟨not_not.mp hh, ⟨row, hrow, hm⟩, rfl⟩
      · cases h

theorem execStmt_fenceParts {lease : CompactionLease} {env : Env}
    (h : execStmt T c env w (.fenceParts lease) = .ok w') :
    (∃ old new, c.op = .replace old new ∧
      (∀ p ∈ new, p.partitionValues = lease.partitionValues) ∧
      (insideLease T c lease.partitionValues old).length = old.length) ∧ w' = w := by
  simp only [execStmt] at h
  split at h
  · rename_i old new hop
    split at h
    · cases h
    · rename_i hm
      cases h
      push Not at hm
      exact ⟨⟨old, new, hop, hm.1, hm.2⟩, rfl⟩
  · cases h

theorem execStmt_replay {env : Env} (h : execStmt T c env w .replay = .ok w') : w' = w := by
  simp only [execStmt] at h
  split at h
  · cases h; rfl
  · split at h
    · cases h
    · cases h
    · cases h; rfl

theorem execStmt_insertCommit {env : Env} (h : execStmt T c env w .insertCommit = .ok w') :
    (∀ r ∈ T.commits, ¬ c.Keyed r) ∧
      w' = { w with row := some (c.commitRow (w.cid.getD 0) env.txnStart) } := by
  simp only [execStmt] at h
  split at h
  · split at h
    · cases h
    · split at h <;> cases h
  · rename_i hfree
    cases h
    push Not at hfree
    exact ⟨hfree, rfl⟩

theorem execStmt_tombstone {ids : List Int} {env : Env}
    (h : execStmt T c env w (.tombstone ids) = .ok w') :
    (liveMatched T c ids).length = ids.length ∧
      w' = { w with tombstoned := w.tombstoned ++ ids } := by
  simp only [execStmt] at h
  split at h
  · cases h
  · rename_i hm
    cases h
    exact ⟨not_not.mp hm, rfl⟩

theorem execStmt_casOffset {r : OffsetRange} {env : Env}
    (h : execStmt T c env w (.casOffset r) = .ok w') :
    (∀ n, w.offsetAt T (c.offsetKey r) = some n → n ≤ r.first) ∧
      w' = { w with offsets := (c.offsetKey r, r.last + 1) :: w.offsets } := by
  simp only [execStmt] at h
  split at h
  · rename_i hn
    cases h
    refine ⟨?_, rfl⟩
    intro n hn'
    rw [hn] at hn'
    cases hn'
  · rename_i next hn
    split at h
    · rename_i hle
      cases h
      refine ⟨?_, rfl⟩
      intro n hn'
      rw [hn] at hn'
      cases hn'
      exact hle
    · cases h

/-- What a statement that goes on adds to the writes. -/
def Stmt.effect (c : Call) (env : Env) (w : Writes) : Stmt → Writes
  | .lockShared => { w with shared := true }
  | .replay => w
  | .lockLease lease =>
    { w with leaseLocks := ⟨c.hypertableId, lease.partitionValues⟩ :: w.leaseLocks }
  | .fenceParts _ => w
  | .nextval => { w with cid := some env.nextCommit }
  | .insertCommit => { w with row := some (c.commitRow (w.cid.getD 0) env.txnStart) }
  | .tombstone ids => { w with tombstoned := w.tombstoned ++ ids }
  | .insertPart part =>
    { w with inserted := w.inserted ++
        [⟨env.nextPart, c.hypertableId, part, w.cid.getD 0, none, none⟩] }
  | .unpend paths => { w with unpended := w.unpended ++ paths }
  | .casOffset r => { w with offsets := (c.offsetKey r, r.last + 1) :: w.offsets }

theorem execStmt_effect {s : Stmt} {env : Env} (h : execStmt T c env w s = .ok w') :
    w' = s.effect c env w := by
  cases s with
  | replay => exact execStmt_replay h
  | lockLease lease => exact (execStmt_lockLease h).2.2
  | fenceParts lease => exact (execStmt_fenceParts h).2
  | insertCommit => exact (execStmt_insertCommit h).2
  | tombstone ids => exact (execStmt_tombstone h).2
  | casOffset r => exact (execStmt_casOffset h).2
  | lockShared | nextval | insertPart _ | unpend _ =>
    cases h
    rfl

/-- The optional fence: nothing but the lock is written, and the lease was judged. -/
theorem execAll_leasePlan {done : List (Stmt × Env)} (hd : done.map Prod.fst = leasePlan c)
    (h : execAll T c done w = .ok w') :
    (∃ locks, w' = { w with leaseLocks := locks } ∧ (c.lease ≠ none → locks ≠ [])) ∧
      ∀ lease, c.lease = some lease → ∃ now, Fenced T c lease now := by
  unfold leasePlan at hd
  split at hd
  · rename_i hnone
    rw [List.map_eq_nil_iff] at hd
    subst hd
    cases h
    exact ⟨⟨_, rfl, fun hne => absurd hnone hne⟩, fun lease hl => by rw [hnone] at hl; cases hl⟩
  · rename_i lease hsome
    obtain ⟨⟨_, e₁⟩, d₁, rfl, rfl, hd₁⟩ := List.map_eq_cons_iff.mp hd
    obtain ⟨⟨_, e₂⟩, d₂, rfl, rfl, hd₂⟩ := List.map_eq_cons_iff.mp hd₁
    obtain ⟨⟨_, e₃⟩, d₃, rfl, rfl, hd₃⟩ := List.map_eq_cons_iff.mp hd₂
    rw [List.map_eq_nil_iff] at hd₃
    subst hd₃
    obtain ⟨w₁, h₁, h⟩ := execAll_cons.mp h
    obtain ⟨w₂, h₂, h⟩ := execAll_cons.mp h
    obtain rfl := execStmt_replay h₁
    obtain ⟨hht, hheld, rfl⟩ := execStmt_lockLease h₂
    obtain ⟨hrep, rfl⟩ := execStmt_fenceParts (execAll_singleton.mp h)
    refine ⟨⟨_, rfl, fun _ => List.cons_ne_nil _ _⟩, ?_⟩
    intro lease' hl
    rw [hsome] at hl
    cases hl
    exact ⟨e₂.now, hht, hheld, hrep⟩

/-- The rows `insert_parts` writes for the parts it is given. -/
structure NewRows (c : Call) (id : Int) (metas : List PartMeta) (rows : List PartRow) : Prop where
  metas : rows.map PartRow.partMeta = metas
  row : ∀ p ∈ rows, p.hypertableId = c.hypertableId ∧ p.createdByCommit = id ∧
    p.deletedByCommit = none ∧ p.purgedAt = none

theorem execAll_insertPart : ∀ {parts : List PartMeta} {done : List (Stmt × Env)} {w : Writes},
    done.map Prod.fst = parts.map Stmt.insertPart → execAll T c done w = .ok w' →
      ∃ rows, w' = { w with inserted := w.inserted ++ rows } ∧
        NewRows c (w.cid.getD 0) parts rows
  | [], done, w, hd, h => by
    rw [List.map_nil, List.map_eq_nil_iff] at hd
    subst hd
    cases h
    exact ⟨[], by simp, rfl, by simp⟩
  | p :: parts, done, w, hd, h => by
    obtain ⟨⟨_, env⟩, done, rfl, rfl, hd₁⟩ := List.map_eq_cons_iff.mp hd
    obtain ⟨w₁, h₁, h₂⟩ := execAll_cons.mp h
    simp only [execStmt, Except.ok.injEq] at h₁
    subst h₁
    obtain ⟨rows, rfl, hm, hrow⟩ := execAll_insertPart hd₁ h₂
    refine ⟨⟨env.nextPart, c.hypertableId, p, w.cid.getD 0, none, none⟩ :: rows, ?_, ?_, ?_⟩
    · simp
    · rw [List.map_cons, hm]
    · intro q hq
      rcases List.mem_cons.mp hq with rfl | hq
      · exact ⟨rfl, rfl, rfl, rfl⟩
      · exact hrow q hq

theorem execAll_insertParts {parts : List PartMeta} {done : List (Stmt × Env)}
    (hd : done.map Prod.fst = insertParts parts) (h : execAll T c done w = .ok w') :
    ∃ rows, w' = { w with
        inserted := w.inserted ++ rows, unpended := w.unpended ++ parts.map PartMeta.path } ∧
      NewRows c (w.cid.getD 0) parts rows := by
  obtain ⟨d₁, d₂, rfl, hd₁, hd₂⟩ := List.map_eq_append_iff.mp hd
  obtain ⟨⟨_, env⟩, d₃, rfl, rfl, hd₃⟩ := List.map_eq_cons_iff.mp hd₂
  rw [List.map_eq_nil_iff] at hd₃
  subst hd₃
  obtain ⟨w₁, h₁, h₂⟩ := execAll_append.mp h
  obtain ⟨rows, rfl, hrows⟩ := execAll_insertPart hd₁ h₁
  simp only [execAll_singleton, execStmt, Except.ok.injEq] at h₂
  exact ⟨rows, h₂.symm, hrows⟩

/-- The operation itself: the old parts were all live, and the new ones are registered. -/
theorem execAll_opPlan {done : List (Stmt × Env)} (hd : done.map Prod.fst = opPlan c.op)
    (h : execAll T c done w = .ok w') :
    (liveMatched T c c.op.oldParts).length = c.op.oldParts.length ∧
      ∃ rows, w' = { w with
          tombstoned := w.tombstoned ++ c.op.oldParts
          inserted := w.inserted ++ rows
          unpended := w.unpended ++ c.op.newParts.map PartMeta.path } ∧
        NewRows c (w.cid.getD 0) c.op.newParts rows := by
  cases hop : c.op with
  | add parts =>
    rw [hop] at hd
    obtain ⟨rows, rfl, hrows⟩ := execAll_insertParts hd h
    refine ⟨by simp [liveMatched, CommitOp.oldParts], rows, ?_, hrows⟩
    simp [CommitOp.oldParts, CommitOp.newParts]
  | replace old new =>
    rw [hop] at hd
    obtain ⟨⟨_, env⟩, d₁, rfl, rfl, hd₁⟩ := List.map_eq_cons_iff.mp hd
    obtain ⟨w₁, h₁, h₂⟩ := execAll_cons.mp h
    obtain ⟨hm, rfl⟩ := execStmt_tombstone h₁
    obtain ⟨rows, rfl, hrows⟩ := execAll_insertParts hd₁ h₂
    exact ⟨hm, rows, rfl, hrows⟩
  | delete parts =>
    rw [hop] at hd
    obtain ⟨⟨_, env⟩, d₁, rfl, rfl, hd₁⟩ := List.map_eq_cons_iff.mp hd
    rw [List.map_eq_nil_iff] at hd₁
    subst hd₁
    obtain ⟨hm, rfl⟩ := execStmt_tombstone (execAll_singleton.mp h)
    refine ⟨hm, [], ?_, rfl, by simp⟩
    simp [CommitOp.oldParts, CommitOp.newParts]

/-- The offsets of the call, one compare-and-set after the other: `none` when one of them is
behind the stored cursor. -/
def advance (c : Call) : (OffsetKey → Option Int) → List OffsetRange →
    Option (OffsetKey → Option Int)
  | stored, [] => some stored
  | stored, r :: rs =>
    if (stored (c.offsetKey r)).all fun next => next ≤ r.first then
      advance c (Function.update stored (c.offsetKey r) (some (r.last + 1))) rs
    else none

theorem offsetAt_cons (w : Writes) (T : Tables) (k : OffsetKey) (n : Int) :
    Writes.offsetAt { w with offsets := (k, n) :: w.offsets } T =
      Function.update (w.offsetAt T) k (some n) := by
  funext k'
  by_cases hk : k' = k
  · subst hk
    simp [Writes.offsetAt]
  · rw [Function.update_of_ne hk]
    have hb : (k' == k) = false := by simpa using hk
    simp [Writes.offsetAt, List.lookup_cons, hb]

theorem execAll_casOffset : ∀ {ranges : List OffsetRange} {done : List (Stmt × Env)}
    {w : Writes}, done.map Prod.fst = ranges.map Stmt.casOffset →
      execAll T c done w = .ok w' →
      (∃ os, w' = { w with offsets := os }) ∧
        advance c (w.offsetAt T) ranges = some (w'.offsetAt T)
  | [], done, w, hd, h => by
    rw [List.map_nil, List.map_eq_nil_iff] at hd
    subst hd
    cases h
    exact ⟨⟨_, rfl⟩, rfl⟩
  | r :: ranges, done, w, hd, h => by
    obtain ⟨⟨_, env⟩, done, rfl, rfl, hd₁⟩ := List.map_eq_cons_iff.mp hd
    obtain ⟨w₁, h₁, h₂⟩ := execAll_cons.mp h
    obtain ⟨hle, rfl⟩ := execStmt_casOffset h₁
    obtain ⟨⟨os, rfl⟩, hadv⟩ := execAll_casOffset hd₁ h₂
    refine ⟨⟨os, rfl⟩, ?_⟩
    rw [offsetAt_cons] at hadv
    have hall : (w.offsetAt T (c.offsetKey r)).all (fun next => next ≤ r.first) = true := by
      rw [Option.all_eq_true]
      intro n hn
      simpa using hle n hn
    simp only [advance, hall, if_true]
    exact hadv

/-! ## 3. The whole transaction -/

/-- **What the writes of a completed plan are, and what the tables they were made on had to
be like.** -/
structure Ready (T : Tables) (c : Call) (w : Writes) : Prop where
  shared : w.shared = true
  key_free : ∀ r ∈ T.commits, ¬ c.Keyed r
  id : ∃ id at', w.cid = some id ∧ w.row = some (c.commitRow id at')
  old_matched : (liveMatched T c c.op.oldParts).length = c.op.oldParts.length
  tombstoned : w.tombstoned = c.op.oldParts
  inserted : NewRows c (w.cid.getD 0) c.op.newParts w.inserted
  unpended : w.unpended = c.op.newParts.map PartMeta.path
  offsets : advance c T.ingestOffsets c.offsets = some (w.offsetAt T)
  fenced : ∀ lease, c.lease = some lease → ∃ now, Fenced T c lease now
  locked : c.lease ≠ none → w.leaseLocks ≠ []

theorem execAll_plan {done : List (Stmt × Env)} (hd : done.map Prod.fst = plan c)
    (h : execAll T c done {} = .ok w) : Ready T c w := by
  unfold plan at hd
  obtain ⟨⟨_, e₀⟩, d₀, rfl, rfl, hd₀⟩ := List.map_eq_cons_iff.mp hd
  obtain ⟨dl, d₁, rfl, hdl, hd₁⟩ := List.map_eq_append_iff.mp hd₀
  obtain ⟨⟨_, e₁⟩, d₂, rfl, rfl, hd₂⟩ := List.map_eq_cons_iff.mp hd₁
  obtain ⟨⟨_, e₂⟩, d₃, rfl, rfl, hd₃⟩ := List.map_eq_cons_iff.mp hd₂
  obtain ⟨dop, dos, rfl, hdop, hdos⟩ := List.map_eq_append_iff.mp hd₃
  obtain ⟨w₀, h₀, hrest₀⟩ := execAll_cons.mp h
  obtain ⟨wl, hl, hrest₁⟩ := execAll_append.mp hrest₀
  obtain ⟨w₁, h₁, hrest₂⟩ := execAll_cons.mp hrest₁
  obtain ⟨w₂, h₂, hrest₃⟩ := execAll_cons.mp hrest₂
  obtain ⟨wop, hop, hos⟩ := execAll_append.mp hrest₃
  simp only [execStmt, Except.ok.injEq] at h₀ h₁
  obtain ⟨⟨locks, rfl, hlocks⟩, hfence⟩ := execAll_leasePlan hdl hl
  subst h₀ h₁
  obtain ⟨hfree, rfl⟩ := execStmt_insertCommit h₂
  obtain ⟨hmatched, rows, rfl, hrows⟩ := execAll_opPlan hdop hop
  obtain ⟨⟨os, rfl⟩, hadv⟩ := execAll_casOffset hdos hos
  exact
    { shared := rfl
      key_free := hfree
      id := ⟨_, _, rfl, rfl⟩
      old_matched := hmatched
      tombstoned := rfl
      inserted := hrows
      unpended := rfl
      offsets := hadv
      fenced := hfence
      locked := hlocks }

/-- The rows of `parts` after the old ones are tombstoned. -/
def tombstoneParts (id : Int) (old : List Int) (parts : List PartRow) : List PartRow :=
  parts.map fun p => if p.id ∈ old then { p with deletedByCommit := some id } else p

/-- **The effect of a committed call.**  Fields up to `fenced` say what the tables before had to
be like, the others how the tables after differ. -/
structure Applied (T : Tables) (c : Call) (id : Int) (T' : Tables) : Prop where
  key_free : ∀ r ∈ T.commits, ¬ c.Keyed r
  old_matched : (liveMatched T c c.op.oldParts).length = c.op.oldParts.length
  fenced : ∀ lease, c.lease = some lease → ∃ now, Fenced T c lease now
  commits : ∃ at', T'.commits = T.commits ++ [c.commitRow id at']
  parts : ∃ rows, T'.parts = tombstoneParts id c.op.oldParts T.parts ++ rows ∧
    NewRows c id c.op.newParts rows
  pending : T'.pendingObjects =
    T.pendingObjects.filter fun r => r.path ∉ c.op.newParts.map PartMeta.path
  offsets : advance c T.ingestOffsets c.offsets = some T'.ingestOffsets
  leases : T'.compactionLeases = T.compactionLeases
  cursors : T'.workerCursors = T.workerCursors

theorem Ready.applied (h : Ready T c w) : Applied T c (w.cid.getD 0) (w.apply T) := by
  obtain ⟨id, at', hcid, hrow⟩ := h.id
  have hgetD : w.cid.getD 0 = id := by rw [hcid]; rfl
  refine
    { key_free := h.key_free
      old_matched := h.old_matched
      fenced := h.fenced
      commits := ⟨at', ?_⟩
      parts := ⟨w.inserted, ?_, h.inserted⟩
      pending := ?_
      offsets := h.offsets
      leases := rfl
      cursors := rfl }
  · simp [Writes.apply, hrow, hgetD]
  · simp only [Writes.apply, tombstoneParts, h.tombstoned, hcid, Option.getD_some]
  · simp only [Writes.apply, h.unpended]

/-- No statement ends the transaction with `Committed`: only COMMIT does. -/
theorem execStmt_ne_committed {s : Stmt} {env : Env} {id : Int} :
    execStmt T c env w s ≠ .error (.ok (.committed id)) := by
  intro h
  cases s <;> simp only [execStmt] at h <;> repeat' split at h
  all_goals simp at h

theorem execAll_ne_committed {id : Int} : ∀ {done : List (Stmt × Env)} {w : Writes},
    execAll T c done w ≠ .error (.ok (.committed id))
  | [], _ => by simp [execAll]
  | (s, env) :: done, w => by
    intro h
    simp only [execAll] at h
    split at h
    · rename_i r hr
      rw [h] at hr
      exact execStmt_ne_committed hr
    · exact execAll_ne_committed h

/-- **A call that returns `Committed` did what `Applied` says.** -/
theorem commitTxn_committed {envs : List Env} {id : Int}
    (hlen : envs.length = (plan c).length)
    (h : commitTxn T envs c = (.ok (.committed id), T')) : Applied T c id T' := by
  unfold commitTxn at h
  split at h
  · simp [Call.mismatch] at h
  · split at h
    · rename_i r hr
      cases h
      exact absurd hr execAll_ne_committed
    · rename_i w hw
      simp only [Prod.mk.injEq, Except.ok.injEq, CommitResult.committed.injEq] at h
      obtain ⟨rfl, rfl⟩ := h
      refine (execAll_plan ?_ hw).applied
      rw [List.map_fst_zip (by omega)]

end Ukiel.Catalog
