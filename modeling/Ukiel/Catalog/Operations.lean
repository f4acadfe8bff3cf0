/-
# Operation identities

A call may carry an operation identity: a key, unique per hypertable, and a fingerprint of the
intent.  `commit_txn` reconciles a key at two points, before the lease is judged and after the
insert into `commits` conflicts.  §1 says what a lookup answers; §2 follows a call whose key is
already durable through every interleaving and shows that it has no effect and which answers
its caller can get; §3 shows that it does get the answer; §4 puts the four together, for runs in
which no key becomes durable while a leased call is between its lookup and its fence.

§5 is about the other use of a lookup: a caller that lost its connection around COMMIT asks
whether the commit landed.
-/
import Ukiel.Catalog.Calls

namespace Ukiel.Catalog

variable {db db' : Db} {c : Call} {i : OperationIdentity} {r : CommitRow} {t : Nat}

/-! ## 1. Lookups -/

/-- The intent `i` is durable under commit `id`. -/
def DurableUnder (T : Tables) (i : OperationIdentity) (id : Int) : Prop :=
  ∃ r ∈ T.commits, r.id = id ∧ r.hypertableId = i.hypertableId ∧
    r.idempotencyKey = some i.key ∧ r.operationFingerprint = some i.fingerprint

/-- What a reconciliation that finds the row `r` answers. -/
def replayAnswer (i : OperationIdentity) (r : CommitRow) : Reply :=
  if r.operationFingerprint = some i.fingerprint then .ok (.alreadyApplied r.id)
  else .error (.operationKeyCollision i.key)

/-- The lookup finds the row under the key, since there is only one. -/
theorem operationRow_eq (hs : Stored db) (hr : r ∈ db.tables.commits)
    (hht : r.hypertableId = i.hypertableId) (hk : r.idempotencyKey = some i.key) :
    db.tables.operationRow i = some r := by
  unfold Tables.operationRow
  cases hf : db.tables.commits.find? fun r =>
      decide (r.hypertableId = i.hypertableId ∧ r.idempotencyKey = some i.key) with
  | none =>
    have := List.find?_eq_none.mp hf r hr
    simp [hht, hk] at this
  | some r' =>
    have hm := List.find?_some hf
    simp only [decide_eq_true_eq] at hm
    rw [hs.key_unique r' (List.mem_of_find?_eq_some hf) r hr i.key (hm.1.trans hht.symm) hm.2 hk]

theorem operationRow_mem {T : Tables} (h : T.operationRow i = some r) :
    r ∈ T.commits ∧ r.hypertableId = i.hypertableId ∧ r.idempotencyKey = some i.key := by
  have hm := List.find?_some h
  simp only [decide_eq_true_eq] at hm
  exact ⟨List.mem_of_find?_eq_some h, hm⟩

theorem reconcile_some_iff {id : Int} :
    reconcile i (some r) = .ok (some id) ↔
      r.operationFingerprint = some i.fingerprint ∧ r.id = id := by
  simp only [reconcile]
  cases hf : r.operationFingerprint with
  | none => simp
  | some stored =>
    by_cases he : stored = i.fingerprint
    · simp [he]
    · simp [he]

/-- `lookup_operation` answers `Committed` exactly for durable intents. -/
theorem lookupOperation_committed_iff (hs : Stored db) {id : Int} :
    lookupOperation db.tables i = .ok (.committed id) ↔ DurableUnder db.tables i id := by
  unfold lookupOperation lookupInTx
  constructor
  · intro h
    cases hrow : db.tables.operationRow i with
    | none => simp [hrow, reconcile] at h
    | some r =>
      rw [hrow] at h
      split at h
      · cases h
      · rename_i id' hrec
        cases h
        obtain ⟨hfp, hid⟩ := reconcile_some_iff.mp hrec
        obtain ⟨hmem, hht, hk⟩ := operationRow_mem hrow
        exact ⟨r, hmem, hid, hht, hk, hfp⟩
      · cases h
  · rintro ⟨r, hmem, hid, hht, hk, hfp⟩
    rw [operationRow_eq hs hmem hht hk, reconcile_some_iff.mpr ⟨hfp, hid⟩]

/-- `Absent` means that no row carries the key. -/
theorem lookupOperation_absent {T : Tables} (h : lookupOperation T i = .ok .absent) :
    ∀ r ∈ T.commits, ¬ (r.hypertableId = i.hypertableId ∧ r.idempotencyKey = some i.key) := by
  unfold lookupOperation lookupInTx at h
  cases hrow : T.operationRow i with
  | none =>
    intro r hr hm
    have := List.find?_eq_none.mp hrow r hr
    simp [hm] at this
  | some r =>
    rw [hrow] at h
    simp only [reconcile] at h
    cases hf : r.operationFingerprint with
    | none => simp [hf] at h
    | some stored =>
      by_cases he : stored = i.fingerprint
      · simp [hf, he] at h
      · simp [hf, he] at h

/-! ## 2. A call whose key is durable -/

/-- Both reconciliation points answer alike: the row of the key decides. -/
theorem lookupInTx_keyed (hs : Stored db) (hc : c.Scoped) (hi : c.identity = some i)
    (hr : r ∈ db.tables.commits) (hk : c.Keyed r) :
    (∃ id, lookupInTx db.tables i = .ok (some id) ∧
      replayAnswer i r = .ok (.alreadyApplied id)) ∨
    (∃ e, lookupInTx db.tables i = .error e ∧ replayAnswer i r = .error e) := by
  obtain ⟨hht, j, hj, hkey⟩ := hk
  rw [hi] at hj
  cases hj
  unfold lookupInTx replayAnswer
  rw [operationRow_eq hs hr (hht.trans (hc i hi).symm) hkey]
  simp only [reconcile]
  cases hf : r.operationFingerprint with
  | none => exact Or.inr ⟨_, rfl, by simp⟩
  | some stored =>
    by_cases he : stored = i.fingerprint
    · exact Or.inl ⟨r.id, by simp [he], by simp [he]⟩
    · exact Or.inr ⟨.operationKeyCollision i.key, by simp [he], by simp [he]⟩

theorem execStmt_replay_keyed {env : Env} {w : Writes} (hs : Stored db) (hc : c.Scoped)
    (hi : c.identity = some i) (hr : r ∈ db.tables.commits) (hk : c.Keyed r) :
    execStmt db.tables c env w .replay = .error (replayAnswer i r) := by
  simp only [execStmt, hi]
  rcases lookupInTx_keyed hs hc hi hr hk with ⟨id, hl, ha⟩ | ⟨e, hl, ha⟩
  · rw [hl, ha]
  · rw [hl, ha]

theorem execStmt_insertCommit_keyed {env : Env} {w : Writes} (hs : Stored db) (hc : c.Scoped)
    (hi : c.identity = some i) (hr : r ∈ db.tables.commits) (hk : c.Keyed r) :
    execStmt db.tables c env w .insertCommit = .error (replayAnswer i r) := by
  simp only [execStmt]
  rw [if_pos ⟨r, hr, hk⟩]
  simp only [hi]
  rcases lookupInTx_keyed hs hc hi hr hk with ⟨id, hl, ha⟩ | ⟨e, hl, ha⟩
  · rw [hl, ha]
  · rw [hl, ha]

/-- A leased call between its first lookup and its fence: what is left has the fence in it, and the
lookup no more. -/
def Late (rest : List Stmt) : Prop := .replay ∉ rest ∧ ∃ lease, .fenceParts lease ∈ rest

theorem Late.cons {s : Stmt} {rest : List Stmt} (h : Late rest) (hs : s ≠ .replay) :
    Late (s :: rest) := by
  obtain ⟨hreplay, lease, hfence⟩ := h
  refine ⟨fun hmem => ?_, lease, List.mem_cons_of_mem s hfence⟩
  rcases List.mem_cons.mp hmem with rfl | hmem
  · exact hs rfl
  · exact hreplay hmem

section Plan

variable {pre post : List Stmt} {s : Stmt}

theorem plan_unleased (h : c.lease = none) : plan c =
    .lockShared :: .nextval :: .insertCommit :: (opPlan c.op ++ c.offsets.map .casOffset) := by
  simp [plan, leasePlan, h]

theorem plan_leased {lease : CompactionLease} (h : c.lease = some lease) : plan c =
    .lockShared :: .replay :: .lockLease lease :: .fenceParts lease :: .nextval ::
      .insertCommit :: (opPlan c.op ++ c.offsets.map .casOffset) := by
  simp [plan, leasePlan, h]

/-- The statements of the operation itself and of the offsets. -/
theorem mem_opPlan (h : s ∈ opPlan c.op ++ c.offsets.map Stmt.casOffset) :
    (∃ ids, s = .tombstone ids) ∨ (∃ part, s = .insertPart part) ∨
      (∃ paths, s = .unpend paths) ∨ ∃ range, s = .casOffset range := by
  rcases List.mem_append.mp h with h | h
  · cases hop : c.op with
    | add parts =>
      simp only [hop, opPlan, insertParts, List.mem_append, List.mem_map,
        List.mem_singleton] at h
      rcases h with ⟨part, -, rfl⟩ | rfl
      · exact Or.inr (Or.inl ⟨part, rfl⟩)
      · exact Or.inr (Or.inr (Or.inl ⟨_, rfl⟩))
    | replace old new =>
      simp only [hop, opPlan, insertParts, List.mem_cons, List.mem_append, List.mem_map] at h
      rcases h with rfl | ⟨part, -, rfl⟩ | h
      · exact Or.inl ⟨old, rfl⟩
      · exact Or.inr (Or.inl ⟨part, rfl⟩)
      · exact Or.inr (Or.inr (Or.inl ⟨_, by simpa using h⟩))
    | delete parts =>
      simp only [hop, opPlan, List.mem_singleton] at h
      exact Or.inl ⟨parts, h⟩
  · obtain ⟨range, -, rfl⟩ := List.mem_map.mp h
    exact Or.inr (Or.inr (Or.inr ⟨range, rfl⟩))

/-- What writes comes after the row of the commit. -/
theorem plan_insertCommit (h : pre ++ s :: post = plan c) (hne : s ≠ .insertCommit)
    (hs : s ∉ .lockShared :: (leasePlan c ++ [.nextval])) : .insertCommit ∈ pre := by
  have hplan : plan c = (.lockShared :: (leasePlan c ++ [.nextval])) ++
      .insertCommit :: (opPlan c.op ++ c.offsets.map .casOffset) := by simp [plan]
  exact List.mem_of_append_cons_eq (h.trans hplan) hs hne

theorem not_late_plan (c : Call) : ¬ Late (plan c) := by
  rintro ⟨hreplay, lease, hfence⟩
  cases hl : c.lease with
  | none =>
    rw [plan_unleased hl] at hfence
    simp only [List.mem_cons, reduceCtorEq, false_or] at hfence
    rcases mem_opPlan hfence with ⟨_, h⟩ | ⟨_, h⟩ | ⟨_, h⟩ | ⟨_, h⟩ <;> cases h
  | some lease' =>
    rw [plan_leased hl] at hreplay
    simp at hreplay

/-- Where a leased call is fenced it is late. -/
theorem late_of_fence (h : pre ++ s :: post = plan c)
    (hs : (∃ lease, s = .lockLease lease) ∨ ∃ lease, s = .fenceParts lease) : Late (s :: post) := by
  have hreplay : .replay ∉ Stmt.nextval :: .insertCommit ::
      (opPlan c.op ++ c.offsets.map .casOffset) := by
    intro hmem
    simp only [List.mem_cons, reduceCtorEq, false_or] at hmem
    rcases mem_opPlan hmem with ⟨_, h⟩ | ⟨_, h⟩ | ⟨_, h⟩ | ⟨_, h⟩ <;> cases h
  have hnot : ∀ {s}, s ∈ Stmt.nextval :: .insertCommit ::
      (opPlan c.op ++ c.offsets.map .casOffset) →
      ¬ ((∃ lease, s = .lockLease lease) ∨ ∃ lease, s = .fenceParts lease) := by
    rintro s hmem (⟨lease, rfl⟩ | ⟨lease, rfl⟩) <;>
    · simp only [List.mem_cons, reduceCtorEq, false_or] at hmem
      rcases mem_opPlan hmem with ⟨_, h⟩ | ⟨_, h⟩ | ⟨_, h⟩ | ⟨_, h⟩ <;> cases h
  cases hl : c.lease with
  | none =>
    have hmem : s ∈ plan c := by rw [← h]; simp
    rw [plan_unleased hl] at hmem
    rcases List.mem_cons.mp hmem with rfl | hmem
    · rcases hs with ⟨_, hs⟩ | ⟨_, hs⟩ <;> cases hs
    · exact absurd hs (hnot hmem)
  | some lease =>
    rw [plan_leased hl] at h
    match pre, h with
    | [], h =>
      obtain ⟨rfl, -⟩ := List.cons.inj h
      rcases hs with ⟨_, hs⟩ | ⟨_, hs⟩ <;> cases hs
    | [_], h =>
      obtain ⟨rfl, -⟩ := List.cons.inj (List.cons.inj h).2
      rcases hs with ⟨_, hs⟩ | ⟨_, hs⟩ <;> cases hs
    | [_, _], h =>
      simp only [List.cons_append, List.nil_append, List.cons.injEq] at h
      obtain ⟨-, -, rfl, rfl⟩ := h
      exact ⟨by simpa using hreplay, lease, by simp⟩
    | [_, _, _], h =>
      simp only [List.cons_append, List.nil_append, List.cons.injEq] at h
      obtain ⟨-, -, -, rfl, rfl⟩ := h
      exact ⟨by simpa using hreplay, lease, by simp⟩
    | _ :: _ :: _ :: _ :: pre, h =>
      simp only [List.cons_append, List.cons.injEq] at h
      have hmem : s ∈ pre ++ s :: post := by simp
      rw [h.2.2.2.2] at hmem
      exact absurd hs (hnot hmem)

end Plan

/-- Once the row is written it stays. -/
theorem execAll_row {T : Tables} {w' : Writes} : ∀ {done : List (Stmt × Env)} {w : Writes},
    execAll T c done w = .ok w' → (w.row.isSome ∨ .insertCommit ∈ done.map Prod.fst) →
      w'.row.isSome
  | [], w, h, hr => by
    cases h
    simpa using hr
  | (s, env) :: done, w, h, hr => by
    obtain ⟨w₁, h₁, h₂⟩ := execAll_cons.mp h
    refine execAll_row h₂ ?_
    obtain rfl := execStmt_effect h₁
    rcases hr with hr | hr
    · left
      cases s <;> simp [Stmt.effect, hr]
    · rcases List.mem_cons.mp hr with hr | hr
      · left
        simp only at hr
        subst hr
        rfl
      · exact Or.inr hr

/-- An open call whose key is durable has not written its row. -/
theorem not_inserted {τ : Txn} (hτ : τ.Inv db) (hr : r ∈ db.tables.commits)
    (hk : τ.call.Keyed r) {done : List (Stmt × Env)}
    (h : execAll (db.tables.hide τ.call) τ.call done {} = .ok τ.w) :
    .insertCommit ∉ done.map Prod.fst := by
  intro hmem
  obtain ⟨row, hrow⟩ := Option.isSome_iff_exists.mp (execAll_row h (Or.inr hmem))
  exact (hτ.row row hrow).2 r hr hk

/-- The answers a caller can get: the reconciliation's, or that of a broken connection.  Only a
call that passed its first lookup BEFORE the key became durable can still fail at the fence. -/
def Allowed (late : Prop) (answer reply : Reply) : Prop :=
  reply = answer ∨ (∃ f, reply = .error (.db f)) ∨
    late ∧ ∃ p, reply = .error (.leaseLost p) ∨ reply = .error (.leasePartitionMismatch p)

/-- A statement of a call whose key is durable either goes on before the row or returns an
allowed answer. -/
theorem stmt_allowed {τ : Txn} {s : Stmt} {rest : List Stmt} (hi : Inv db)
    (hlook : db.txns.lookup t = some τ) (hident : τ.call.identity = some i)
    (hr : r ∈ db.tables.commits) (hk : τ.call.Keyed r) (hrest : τ.rest = s :: rest) :
    (∃ w, execStmt db.tables τ.call (db.env τ) τ.w s = .ok w ∧ (Late rest → Late (s :: rest))) ∨
    ∃ reply, execStmt db.tables τ.call (db.env τ) τ.w s = .error reply ∧
      Allowed (Late (s :: rest)) (replayAnswer i r) reply := by
  have hτ := hi.txn t τ hlook
  obtain ⟨done, hd, hrun⟩ := hτ.ran
  rw [hrest] at hd
  have hnot := not_inserted hτ hr hk hrun
  have hwritten : s ≠ .insertCommit → s ∉ .lockShared :: (leasePlan τ.call ++ [.nextval]) →
      False := fun hne hs => hnot (plan_insertCommit hd hne hs)
  cases s with
  | replay =>
    exact Or.inr ⟨_, execStmt_replay_keyed hi.stored hτ.scope hident hr hk, Or.inl rfl⟩
  | insertCommit =>
    exact Or.inr ⟨_, execStmt_insertCommit_keyed hi.stored hτ.scope hident hr hk, Or.inl rfl⟩
  | lockShared | nextval => exact Or.inl ⟨_, rfl, fun hl => hl.cons (by simp)⟩
  | lockLease lease =>
    have hlate := late_of_fence hd (Or.inl ⟨lease, rfl⟩)
    cases he : execStmt db.tables τ.call (db.env τ) τ.w (.lockLease lease) with
    | ok w => exact Or.inl ⟨w, rfl, fun _ => hlate⟩
    | error reply =>
      refine Or.inr ⟨reply, rfl, Or.inr (Or.inr ⟨hlate, ?_⟩)⟩
      simp only [execStmt] at he
      repeat' split at he
      all_goals cases he
      · exact ⟨_, Or.inr rfl⟩
      · exact ⟨_, Or.inl rfl⟩
      · exact ⟨_, Or.inl rfl⟩
  | fenceParts lease =>
    have hlate := late_of_fence hd (Or.inr ⟨lease, rfl⟩)
    cases he : execStmt db.tables τ.call (db.env τ) τ.w (.fenceParts lease) with
    | ok w => exact Or.inl ⟨w, rfl, fun _ => hlate⟩
    | error reply =>
      refine Or.inr ⟨reply, rfl, Or.inr (Or.inr ⟨hlate, ?_⟩)⟩
      simp only [execStmt] at he
      repeat' split at he
      all_goals cases he
      all_goals exact ⟨_, Or.inr rfl⟩
  | tombstone _ | insertPart _ | unpend _ | casOffset _ =>
    refine (hwritten (by simp) ?_).elim
    intro hmem
    simp only [leasePlan] at hmem
    split at hmem <;> simp at hmem

/-- **A call that finds its key durable**, followed through the interleaving. -/
structure Tracked (c : Call) (r : CommitRow) (late : Prop) (answer : Reply) (t : Nat)
    (db : Db) : Prop where
  row : r ∈ db.tables.commits
  lt : t < db.nextTxn
  opened : ∀ τ, db.txns.lookup t = some τ → τ.call = c ∧ (Late τ.rest → late)
  no_effect : ∀ x ∈ db.history, x.txn ≠ t
  reply : ∀ reply, db.replies t = some reply → Allowed late answer reply

theorem Allowed.mono {late late' : Prop} {answer reply : Reply} (h : Allowed late answer reply)
    (hl : late → late') : Allowed late' answer reply := by
  rcases h with h | h | ⟨h, hp⟩
  · exact Or.inl h
  · exact Or.inr (Or.inl h)
  · exact Or.inr (Or.inr ⟨hl h, hp⟩)

variable {late : Prop}

/-- An open call whose key is durable cannot have sent COMMIT. -/
theorem Tracked.unsent {answer : Reply} {τ : Txn} (hi : Inv db) (h : Tracked c r late answer t db)
    (hk : c.Keyed r) (hlook : db.txns.lookup t = some τ) : τ.sent = false := by
  by_contra hsent
  have hcall := (h.opened τ hlook).1
  exact ((hi.txn t τ hlook).ready (by simpa using hsent)).key_free r h.row (by rw [hcall]; exact hk)

theorem Tracked.reply_db {answer : Reply} (h : Tracked c r late answer t db) (f : DbFailure) :
    ∀ reply, (db.replyOnce t (.error (.db f))).replies t = some reply →
      Allowed late answer reply := by
  intro reply hr
  rcases replyOnce_self db t (.error (.db f)) with ⟨-, hnew⟩ | ⟨r₀, hold, hsame⟩
  · rw [hnew, Option.some.injEq] at hr
    exact Or.inr (Or.inl ⟨f, hr.symm⟩)
  · rw [hsame, Option.some.injEq] at hr
    exact h.reply reply (by rw [hold, hr])

theorem tracked_step {e : Event} (hident : c.identity = some i) (hk : c.Keyed r) (hi : Inv db)
    (h : Tracked c r late (replayAnswer i r) t db) (hs : step db e = some db') :
    Tracked c r late (replayAnswer i r) t db' := by
  have hrow := step_commits_mono hi hs h.row
  have hlt : t < db'.nextTxn := Nat.lt_of_lt_of_le h.lt (step_nextTxn hs)
  by_cases hown : e.subject = some t
  · cases e with
    | stmt t' =>
      cases hown
      obtain ⟨τ, s, rest, hlook, hrest, -, -, rfl⟩ := step_stmt hs
      obtain ⟨hcall, hlate⟩ := h.opened τ hlook
      rw [hrest] at hlate
      unfold Db.runStmt at hrow hlt ⊢
      rcases stmt_allowed hi hlook (by rw [hcall]; exact hident) h.row (by rw [hcall]; exact hk)
        hrest with ⟨w, he, hgo⟩ | ⟨reply, he, hallowed⟩
      · simp only [he] at hrow hlt ⊢
        refine ⟨hrow, hlt, ?_, by simpa using h.no_effect, by simpa using h.reply⟩
        intro τ' hτ'
        rw [AList.lookup_insert, Option.some.injEq] at hτ'
        subst hτ'
        exact ⟨hcall, fun hl => hlate (hgo hl)⟩
      · simp only [he] at hrow hlt ⊢
        refine ⟨hrow, hlt, ?_, h.no_effect, ?_⟩
        · intro τ' hτ'
          rw [AList.lookup_erase] at hτ'
          cases hτ'
        · intro reply' hr
          have hself : (db.reply t reply).replies t = some reply := Function.update_self _ _ _
          obtain rfl : reply = reply' := Option.some.inj (hself.symm.trans hr)
          exact hallowed.mono hlate
    | sendCommit t' =>
      cases hown
      obtain ⟨τ, hlook, -, hrest, rfl⟩ := step_sendCommit hs
      -- the plan cannot be done: the row was never inserted
      have hcall := (h.opened τ hlook).1
      have hτ := hi.txn t τ hlook
      obtain ⟨done, hd, hrun⟩ := hτ.ran
      rw [hrest, List.append_nil] at hd
      refine absurd ?_ (not_inserted hτ h.row (by rw [hcall]; exact hk) hrun)
      rw [hd]
      simp [plan]
    | commit t' =>
      cases hown
      obtain ⟨τ, hlook, hsent, rfl⟩ := step_commit hs
      rw [h.unsent hi hk hlook] at hsent
      cases hsent
    | rollback t' f =>
      cases hown
      obtain ⟨τ, hlook, rfl⟩ := step_rollback hs
      have hunsent := h.unsent hi hk hlook
      simp only [hunsent, Bool.false_eq_true, if_false] at hrow hlt ⊢
      refine ⟨hrow, hlt, ?_, by simpa using h.no_effect, h.reply_db f⟩
      intro τ' hτ'
      rw [AList.lookup_erase] at hτ'
      cases hτ'
    | abandon t' f =>
      cases hown
      obtain ⟨τ, hlook, -, -, rfl⟩ := step_abandon hs
      refine ⟨hrow, hlt, ?_, by simpa using h.no_effect, h.reply_db f⟩
      intro τ' hτ'
      rw [AList.lookup_insert, Option.some.injEq] at hτ'
      subst hτ'
      exact h.opened τ hlook
    | lost t' =>
      cases hown
      obtain ⟨c', hc, -⟩ := step_lost hs
      rcases hc with ⟨τ, hlook, hsent, -⟩ | ⟨-, x, hx, hxt, -⟩
      · rw [h.unsent hi hk hlook] at hsent
        cases hsent
      · exact absurd hxt (h.no_effect x hx)
    | ack t' =>
      cases hown
      obtain ⟨x, hx, hxt, -⟩ := step_ack hs
      exact absurd hxt (h.no_effect x hx)
    | _ => cases hown
  · obtain ⟨hl, hr⟩ := step_other hs hown fun _ _ => Nat.ne_of_lt h.lt
    refine ⟨hrow, hlt, ?_, ?_, ?_⟩
    · rw [hl]
      exact h.opened
    · intro x hx hxt
      exact h.no_effect x (step_history_other hi hs hown hxt hx) hxt
    · rw [hr]
      exact h.reply

/-- The run lemma: whatever else happens, the call stays without effect. -/
theorem tracked_run (hident : c.identity = some i) (hk : c.Keyed r) (hi : Inv db)
    (h : Tracked c r late (replayAnswer i r) t db) (hr : Lts.Reaches step db db') :
    Inv db' ∧ Tracked c r late (replayAnswer i r) t db' :=
  hr.inv (I := fun d => Inv d ∧ Tracked c r late (replayAnswer i r) t d)
    (fun _ _ _ hs hp => ⟨inv_step hs hp.1, tracked_step hident hk hp.1 hp.2 hs⟩) ⟨hi, h⟩

/-- An open call whose key is durable is one to track. -/
theorem tracked_of_open {τ : Txn} (hi : Inv db) (hok : CallOk db t) (answer : Reply)
    (hlook : db.txns.lookup t = some τ) (hr : r ∈ db.tables.commits) (hk : τ.call.Keyed r) :
    Tracked τ.call r (Late τ.rest) answer t db := by
  have hlt := hi.txn_lt t τ hlook
  have hunsent : τ.sent = false := by
    by_contra hsent
    exact ((hi.txn t τ hlook).ready (by simpa using hsent)).key_free r hr hk
  refine ⟨hr, hlt, ?_, ?_, ?_⟩
  · intro τ' hτ'
    rw [hlook, Option.some.injEq] at hτ'
    subst hτ'
    exact ⟨rfl, fun hl => hl⟩
  · intro x hx hxt
    rw [hok.closed x hx hxt] at hlook
    cases hlook
  · intro reply hreply
    rcases hok.unsent τ hlook hunsent with h | ⟨f, h⟩
    · rw [h] at hreply
      cases hreply
    · rw [h, Option.some.injEq] at hreply
      exact Or.inr (Or.inl ⟨f, hreply.symm⟩)

/-! ## 3. The answer arrives -/

/-- The call's own statements, run from here, end with the answer and change nothing. -/
def Returns (db : Db) (t : Nat) (answer : Reply) : Prop :=
  ∃ n db', Lts.run step db (List.replicate n (.stmt t)) = some db' ∧
    db'.replies t = some answer ∧ db'.tables = db.tables

section Returns

variable {τ : Txn} {s : Stmt} {rest : List Stmt} {answer : Reply}

theorem step_stmt_eq (hlook : db.txns.lookup t = some τ) (hrest : τ.rest = s :: rest)
    (hatt : τ.attached = true) (hw : ¬ db.waits t τ.call s) :
    step db (.stmt t) = some (db.runStmt t τ s rest) := by
  simp only [step, hlook, hrest]
  rw [if_pos ⟨hatt, hw⟩]

theorem returns_now (hlook : db.txns.lookup t = some τ) (hrest : τ.rest = s :: rest)
    (hatt : τ.attached = true) (hw : ¬ db.waits t τ.call s)
    (he : execStmt db.tables τ.call (db.env τ) τ.w s = .error answer) : Returns db t answer := by
  refine ⟨1, db.runStmt t τ s rest, ?_, ?_, ?_⟩
  · exact Lts.run_singleton.mpr (step_stmt_eq hlook hrest hatt hw)
  · simp only [Db.runStmt, he]
    exact Function.update_self _ _ _
  · simp only [Db.runStmt, he]
    rfl

theorem returns_next {w : Writes} (hlook : db.txns.lookup t = some τ)
    (hrest : τ.rest = s :: rest) (hatt : τ.attached = true) (hw : ¬ db.waits t τ.call s)
    (he : execStmt db.tables τ.call (db.env τ) τ.w s = .ok w)
    (hnext : ∀ db₁, step db (.stmt t) = some db₁ → db₁.tables = db.tables →
      db₁.txns.lookup t = some { τ with rest := rest, w := w } →
      Returns db₁ t answer) : Returns db t answer := by
  have hstep := step_stmt_eq hlook hrest hatt hw
  obtain ⟨n, db', hrun, hreply, htab⟩ := hnext _ hstep
    (by simp [Db.runStmt, he]) (by simp only [Db.runStmt, he]; exact AList.lookup_insert _)
  refine ⟨n + 1, db', ?_, hreply, htab.trans (by simp [Db.runStmt, he])⟩
  rw [List.replicate_succ]
  exact Lts.run_cons.mpr ⟨_, hstep, hrun⟩

/-- Nobody else can be holding the key: it is durable. -/
theorem not_waits_insertCommit (hi : Inv db) (hr : r ∈ db.tables.commits) (hk : c.Keyed r) :
    ¬ db.waits t c .insertCommit := by
  rintro (⟨e, he, -, row, hrow, hkey⟩ | ⟨h, -⟩)
  · have hτ' := hi.txn e.1 e.2 (mem_txns.mp he)
    obtain ⟨⟨id, at', heq⟩, hfree⟩ := hτ'.row row (Option.mem_toList.mp hrow)
    subst heq
    obtain ⟨hht, j, k, hj, hk', hjk⟩ := keyed_commitRow.mp hkey
    obtain ⟨hht', j', hj', hkey'⟩ := hk
    rw [hj] at hj'
    cases hj'
    exact hfree r hr ⟨hht'.trans hht, k, hk', by rw [hkey', hjk]⟩
  · cases h

theorem not_waits_free (hs : s = .nextval ∨ s = .replay) : ¬ db.waits t c s := by
  rcases hs with rfl | rfl
  · rintro (⟨e, -, -, h⟩ | ⟨h, -⟩)
    · exact h
    · cases h
  · rintro (⟨e, -, -, h⟩ | ⟨h, -⟩)
    · exact h
    · cases h

theorem not_waits_lockShared (hb : ∀ b ∈ db.barrier.entries, b.2 ≠ c.hypertableId) :
    ¬ db.waits t c .lockShared := by
  rintro (⟨e, -, -, h⟩ | ⟨-, b, hb', h⟩)
  · exact h
  · exact hb b hb' h

theorem returns_insertCommit (hi : Inv db) (hlook : db.txns.lookup t = some τ)
    (hrest : τ.rest = .insertCommit :: rest) (hatt : τ.attached = true)
    (hident : τ.call.identity = some i) (hr : r ∈ db.tables.commits) (hk : τ.call.Keyed r) :
    Returns db t (replayAnswer i r) :=
  returns_now hlook hrest hatt (not_waits_insertCommit hi hr hk)
    (execStmt_insertCommit_keyed hi.stored (hi.txn t τ hlook).scope hident hr hk)

/-- Before the row is written it is the next of what is left. -/
theorem rest_of_before_row {done ops : List Stmt} (h : done ++ rest = .insertCommit :: ops)
    (hnot : .insertCommit ∉ done) : rest = .insertCommit :: ops := by
  cases done with
  | nil => exact h
  | cons s done =>
    obtain ⟨rfl, -⟩ := List.cons.inj h
    exact absurd List.mem_cons_self hnot

/-- An id is drawn, and then the key is found taken. -/
theorem returns_nextval (hi : Inv db) (hlook : db.txns.lookup t = some τ)
    (hrest : τ.rest = .nextval :: .insertCommit :: rest) (hatt : τ.attached = true)
    (hident : τ.call.identity = some i) (hr : r ∈ db.tables.commits) (hk : τ.call.Keyed r) :
    Returns db t (replayAnswer i r) := by
  refine returns_next hlook hrest hatt (not_waits_free (Or.inl rfl)) rfl ?_
  intro db₁ hstep htab hlook'
  exact returns_insertCommit (inv_step hstep hi) hlook' rfl hatt hident (htab ▸ hr) hk

/-- Past the barrier: a leased call is reconciled at once, another draws an id first. -/
theorem returns_locked (hi : Inv db) (hlook : db.txns.lookup t = some τ)
    (hrest : τ.rest = (plan τ.call).tail) (hatt : τ.attached = true)
    (hident : τ.call.identity = some i) (hr : r ∈ db.tables.commits) (hk : τ.call.Keyed r) :
    Returns db t (replayAnswer i r) := by
  cases hl : τ.call.lease with
  | some lease =>
    rw [plan_leased hl] at hrest
    exact returns_now hlook hrest hatt (not_waits_free (Or.inr rfl))
      (execStmt_replay_keyed hi.stored (hi.txn t τ hlook).scope hident hr hk)
  | none =>
    rw [plan_unleased hl] at hrest
    exact returns_nextval hi hlook hrest hatt hident hr hk

/-- **A call whose key is durable is answered**: as soon as no feed reader holds the barrier,
its own statements lead to the answer, wherever the call stands. -/
theorem returns_of_open (hi : Inv db) (hlook : db.txns.lookup t = some τ)
    (hatt : τ.attached = true) (hident : τ.call.identity = some i)
    (hr : r ∈ db.tables.commits) (hk : τ.call.Keyed r) (hlate : ¬ Late τ.rest)
    (hb : ∀ b ∈ db.barrier.entries, b.2 ≠ τ.call.hypertableId) :
    Returns db t (replayAnswer i r) := by
  have hτ := hi.txn t τ hlook
  obtain ⟨done, hd, hrun⟩ := hτ.ran
  have hnot := not_inserted hτ hr hk hrun
  match done, hd, hnot with
  | [], hd, _ =>
    have hrest : τ.rest = .lockShared :: (plan τ.call).tail := by
      simp only [List.map_nil, List.nil_append] at hd
      rw [hd]
      rfl
    refine returns_next hlook hrest hatt (not_waits_lockShared hb) rfl ?_
    intro db₁ hstep htab hlook'
    exact returns_locked (inv_step hstep hi) hlook' rfl hatt hident (htab ▸ hr) hk
  | [d₁], hd, _ =>
    have hrest : τ.rest = (plan τ.call).tail := by rw [← hd]; rfl
    exact returns_locked hi hlook hrest hatt hident hr hk
  | d₁ :: d₂ :: done, hd, hnot =>
    have hnot' : .insertCommit ∉ done.map Prod.fst := fun hmem => hnot (by simp [hmem])
    cases hl : τ.call.lease with
    | none =>
      have hplan := hd.trans (plan_unleased hl)
      simp only [List.map_cons, List.cons_append, List.cons.injEq] at hplan
      exact returns_insertCommit hi hlook (rest_of_before_row hplan.2.2 hnot') hatt hident hr hk
    | some lease =>
      have hplan := hd.trans (plan_leased hl)
      match done, hd, hnot', hplan with
      | [], hd, _, hplan =>
        simp only [List.map_cons, List.map_nil, List.cons_append, List.nil_append,
          List.cons.injEq] at hplan
        rw [hplan.2.2] at hd hlate
        exact absurd (late_of_fence hd (Or.inl ⟨lease, rfl⟩)) hlate
      | [d₃], hd, _, hplan =>
        simp only [List.map_cons, List.map_nil, List.cons_append, List.nil_append,
          List.cons.injEq] at hplan
        rw [hplan.2.2.2] at hd hlate
        exact absurd (late_of_fence hd (Or.inr ⟨lease, rfl⟩)) hlate
      | [d₃, d₄], _, _, hplan =>
        simp only [List.map_cons, List.map_nil, List.cons_append, List.nil_append,
          List.cons.injEq] at hplan
        exact returns_nextval hi hlook hplan.2.2.2.2 hatt hident hr hk
      | d₃ :: d₄ :: d₅ :: done, _, hnot', hplan =>
        simp only [List.map_cons, List.cons_append, List.cons.injEq] at hplan
        have hbefore : .insertCommit ∉ done.map Prod.fst := fun hmem => hnot' (by simp [hmem])
        exact returns_insertCommit hi hlook (rest_of_before_row hplan.2.2.2.2.2 hbefore) hatt hident
          hr hk

end Returns

/-! ## 4. One effect per key -/

/-- Two durable calls of a run never share a key. -/
theorem history_pairwise (h : Reachable db) :
    db.history.Pairwise fun a b => ¬ SameKey a.call b.call := by
  obtain ⟨db₀, h₀, hr⟩ := h
  have hall := hr.inv (I := fun d => Reachable d ∧
      d.history.Pairwise fun a b => ¬ SameKey a.call b.call) ?_
    ⟨⟨db₀, h₀, Lts.Reaches.refl _⟩, by rw [h₀.history]; exact List.Pairwise.nil⟩
  · exact hall.2
  · rintro d e d' hs ⟨hreach, hpw⟩
    refine ⟨hreach.next hs, ?_⟩
    rcases step_tables hreach.inv hs with ⟨t, τ, id, -, -, -, happ, -, hh, -⟩ | ⟨-, hh, -⟩
    · rw [hh]
      refine List.pairwise_append.mpr ⟨hpw, List.pairwise_singleton _ _, ?_⟩
      intro x hx y hy hkey
      rw [List.mem_singleton] at hy
      subst hy
      obtain ⟨-, at', hrow⟩ := (hreach.callOk x.txn).durable x hx rfl
      exact happ.key_free _ hrow (keyed_commitRow.mpr hkey.symm)
    · rw [hh]
      exact hpw

/-- A durable attempt is found by its lookup. -/
theorem durable_lookup (hreach : Reachable db) {x : Committed} (hx : x ∈ db.history)
    (hident : x.call.identity = some i) : DurableUnder db.tables i x.id := by
  obtain ⟨hscope, at', hrow⟩ := (hreach.callOk x.txn).durable x hx rfl
  exact ⟨_, hrow, rfl, (hscope i hident).symm, by simp [Call.commitRow, hident],
    by simp [Call.commitRow, hident]⟩

/-- **What operation identities are for**, in a state:

* no two durable calls carry the same key on the same hypertable;
* `lookup_operation` answers `Committed` exactly for intents that are durable, under the id of
  the commit that made them so, and every durable call's intent is;
* a call whose key is durable never becomes durable itself, none of its events changes a table,
  and its caller hears what the durable row's fingerprint decides, or of a broken connection;
* and its statements do lead there: nothing but a feed reader can hold them up. -/
structure Idempotent (db : Db) : Prop where
  once : db.history.Pairwise fun a b => ¬ SameKey a.call b.call
  found : ∀ i id, lookupOperation db.tables i = .ok (.committed id) ↔ DurableUnder db.tables i id
  durable : ∀ x ∈ db.history, ∀ i, x.call.identity = some i → DurableUnder db.tables i x.id
  replayed : ∀ t τ i r, db.txns.lookup t = some τ → τ.call.identity = some i →
    r ∈ db.tables.commits → τ.call.Keyed r →
    (∀ db', Lts.Reaches step db db' →
      (∀ x ∈ db'.history, x.txn ≠ t) ∧
      (∀ e db'', e.subject = some t → step db' e = some db'' → db''.tables = db'.tables) ∧
      ∀ reply, db'.replies t = some reply →
        reply = replayAnswer i r ∨ ∃ f, reply = .error (.db f)) ∧
    (τ.attached = true → (∀ b ∈ db.barrier.entries, b.2 ≠ τ.call.hypertableId) →
      Returns db t (replayAnswer i r))

/-- No open call whose key is durable is between its first lookup and its fence. -/
def Punctual (db : Db) : Prop :=
  ∀ t τ, db.txns.lookup t = some τ → ∀ r ∈ db.tables.commits, τ.call.Keyed r → ¬ Late τ.rest

theorem idempotent_of_punctual (hreach : Reachable db) (hpunctual : Punctual db) :
    Idempotent db := by
  have hi := hreach.inv
  refine ⟨history_pairwise hreach, fun i id => lookupOperation_committed_iff hi.stored,
    fun x hx i hident => durable_lookup hreach hx hident, ?_⟩
  intro t τ i r hlook hident hr hk
  have hlate := hpunctual t τ hlook r hr hk
  refine ⟨?_, fun hatt hb => returns_of_open hi hlook hatt hident hr hk hlate hb⟩
  intro db' hreaches
  obtain ⟨hi', htr⟩ := tracked_run hident hk hi
    (tracked_of_open hi (hreach.callOk t) _ hlook hr hk) hreaches
  refine ⟨htr.no_effect, ?_, fun reply hreply => ?_⟩
  · intro e db'' hown hs
    refine step_own_tables hs hown ?_
    rintro rfl
    obtain ⟨τ', hlook', hsent, -⟩ := step_commit hs
    rw [htr.unsent hi' hk hlook'] at hsent
    cases hsent
  · rcases htr.reply reply hreply with h | h | ⟨h, -⟩
    · exact Or.inl h
    · exact Or.inr h
    · exact absurd h hlate

/-- The commit that makes a key durable finds no call with the key between its lookup and its
fence. -/
def InTime (db : Db) : Event → Prop
  | .commit t => ∀ τ, db.txns.lookup t = some τ → ∀ t' τ', db.txns.lookup t' = some τ' →
      SameKey τ.call τ'.call → ¬ Late τ'.rest
  | _ => True

/-- **A step in time keeps every call punctual.** -/
theorem Punctual.step {e : Event} (h : Punctual db) (hreach : Reachable db)
    (hs : Catalog.step db e = some db') (htime : InTime db e) : Punctual db' := by
  have hi := hreach.inv
  intro t τ' hlook' r hr hk hlate
  have hopen : ∀ τ, db.txns.lookup t = some τ → τ'.call = τ.call → False := by
    intro τ hlook hcall
    rw [hcall] at hk
    by_cases hrow : r ∈ db.tables.commits
    · -- the key was durable before, and a call that is not late does not become so
      obtain ⟨-, i, hident, -⟩ := id hk
      have htracked := tracked_step hident hk hi
        (tracked_of_open hi (hreach.callOk t) (replayAnswer i r) hlook hrow hk) hs
      exact h t τ hlook r hrow hk ((htracked.opened τ' hlook').2 hlate)
    · -- the key becomes durable with this commit
      rcases step_tables hi hs with ⟨t₀, τ₀, id, rfl, hlook₀, -, happ, htxns, -⟩ | ⟨-, -, haside⟩
      · obtain ⟨at', hcommits⟩ := happ.commits
        rw [hcommits, List.mem_append, List.mem_singleton] at hr
        obtain rfl := hr.resolve_left hrow
        have hne : t ≠ t₀ := by
          rintro rfl
          rw [htxns, AList.lookup_erase] at hlook'
          cases hlook'
        rw [htxns, AList.lookup_erase_ne hne] at hlook'
        exact htime τ₀ hlook₀ t τ' hlook' (keyed_commitRow.mp (hcall ▸ hk)).symm hlate
      · exact hrow (haside.commits ▸ hr)
  rcases step_txn hs hlook' with
    ⟨τ, hlook, hcall, -⟩ | ⟨c, -, -, rfl⟩ | ⟨τ, s, rest, w, -, hlook, -, -, rfl⟩
  · exact hopen τ hlook hcall
  · exact not_late_plan c hlate
  · exact hopen τ hlook rfl

/-- **Operation identities are idempotent** in every state of every run whose commits are in
time. -/
theorem operation_idempotent {db₀ : Db} {es : List Event} (hinit : Initial db₀)
    (hrun : Lts.run step db₀ es = some db) (htime : Lts.Along step InTime db₀ es) :
    Idempotent db := by
  have hall := htime.run_inv (I := fun d => Reachable d ∧ Punctual d)
    (fun _ _ _ hs ht hd => ⟨hd.1.next hs, hd.2.step hd.1 hs ht⟩) hrun
    ⟨⟨db₀, hinit, Lts.Reaches.refl _⟩, fun t τ hlook => by simp [hinit.txns] at hlook⟩
  exact idempotent_of_punctual hall.1 hall.2

/-- The merge of a worker. -/
def fencedMerge : Call :=
  commitCompactionReplace 1 ⟨1, .obj [], 5, 1, 1000000⟩ [] [] ⟨1, "op", [7]⟩

/-- It claims its partition, runs its statements and sends COMMIT. -/
def mergeSent : List Event :=
  [.drawLease ⟨1, .obj []⟩ 5 1000, .installLease 0, .begin fencedMerge] ++
    List.replicate (plan fencedMerge).length (.stmt 0) ++ [.sendCommit 0]

theorem mergeSent_inTime {db : Db} : Lts.Along step InTime db mergeSent := by
  refine Lts.along_of_forall fun e he s => ?_
  simp only [mergeSent, List.cons_append, List.nil_append, List.mem_cons, List.mem_append,
    List.mem_replicate, List.not_mem_nil, or_false] at he
  rcases he with rfl | rfl | rfl | ⟨-, rfl⟩ | rfl <;> trivial

/-- The merge is durable, and is sent again when its lease has expired. -/
theorem operation_idempotent_retry : ∃ db,
    Lts.run step {} (mergeSent ++ [.commit 0] ++ [.tick 2000000] ++ [.begin fencedMerge]) =
      some db ∧
    (∃ row, db.tables.compactionLeases ⟨1, .obj []⟩ = some row ∧ row.expiresAt < db.clock) ∧
    Returns db 1 (.ok (.alreadyApplied 1)) := by
  have hsent : (Lts.run step {} mergeSent).map (fun db =>
      db.txns.entries.map fun e => (e.1, e.2.rest)) = some [(0, [])] := by decide +kernel
  have htime : Lts.Along step InTime {}
      (mergeSent ++ [.commit 0] ++ [.tick 2000000] ++ [.begin fencedMerge]) := by
    refine Lts.Along.snoc (Lts.Along.snoc (mergeSent_inTime.snoc ?_) ?_) ?_
    on_goal 2 => exact fun _ _ => True.intro
    on_goal 2 => exact fun _ _ => True.intro
    intro db hrun τ _ t' τ' hlook' _ hlate
    rw [hrun, Option.map_some, Option.some.injEq] at hsent
    have hmem : (t', τ'.rest) ∈ db.txns.entries.map fun e => (e.1, e.2.rest) :=
      List.mem_map.mpr ⟨⟨t', τ'⟩, mem_txns.mpr hlook', rfl⟩
    rw [hsent, List.mem_singleton, Prod.mk.injEq] at hmem
    rw [hmem.2] at hlate
    obtain ⟨lease, hfence⟩ := hlate.2
    cases hfence
  have hobs : (Lts.run step {}
      (mergeSent ++ [.commit 0] ++ [.tick 2000000] ++ [.begin fencedMerge])).map (fun db =>
        (db.txns.lookup 1, db.tables.commits, db.barrier.entries)) =
      some (some ⟨fencedMerge, 2000000, plan fencedMerge, {}, true, false⟩,
        [fencedMerge.commitRow 1 0], []) := by decide +kernel
  have hexpired : (Lts.run step {}
      (mergeSent ++ [.commit 0] ++ [.tick 2000000] ++ [.begin fencedMerge])).map (fun db =>
        (db.tables.compactionLeases ⟨1, .obj []⟩, db.clock)) =
      some (some ⟨5, 1, 1000000⟩, 2000000) := by decide +kernel
  obtain ⟨db, hrun, hobs⟩ := Option.map_eq_some_iff.mp hobs
  rw [hrun, Option.map_some, Option.some.injEq] at hexpired
  simp only [Prod.mk.injEq] at hobs hexpired
  obtain ⟨hlook, hcommits, hbarrier⟩ := hobs
  obtain ⟨hlease, hclock⟩ := hexpired
  have h := (operation_idempotent initial_empty hrun htime).replayed 1 _ ⟨1, "op", [7]⟩
    (fencedMerge.commitRow 1 0) hlook rfl (by rw [hcommits]; exact List.mem_singleton_self _)
    ⟨rfl, ⟨1, "op", [7]⟩, rfl, rfl⟩
  exact ⟨db, hrun, ⟨_, hlease, by rw [hclock]; decide⟩, h.2 rfl (by rw [hbarrier]; simp)⟩

/-- **A durable merge is called lost.**  The connection is lost around COMMIT and the merge is sent
again: it looks its key up, and only then the server is done with the first COMMIT, and the lease
expires. -/
theorem durable_lease_lost : ¬ ∀ db, Reachable db → Idempotent db := by
  intro h
  have hobs : (Lts.run step {} (mergeSent ++ [.lost 0, .begin fencedMerge, .stmt 1, .stmt 1,
      .commit 0, .tick 2000000])).map (fun db =>
        (db.txns.lookup 1, db.tables.commits,
          (step db (.stmt 1)).map fun db' => db'.replies 1)) =
      some (some ⟨fencedMerge, 0, (plan fencedMerge).drop 2, { shared := true }, true, false⟩,
        [fencedMerge.commitRow 1 0], some (some (.error (.leaseLost (.obj []))))) := by
    decide +kernel
  obtain ⟨db, hrun, hobs⟩ := Option.map_eq_some_iff.mp hobs
  simp only [Prod.mk.injEq] at hobs
  obtain ⟨hlook, hcommits, hafter⟩ := hobs
  obtain ⟨db', hstep, hreply⟩ := Option.map_eq_some_iff.mp hafter
  have hanswer := ((h db ⟨{}, initial_empty, _, hrun⟩).replayed 1 _ ⟨1, "op", [7]⟩
    (fencedMerge.commitRow 1 0) hlook rfl (by rw [hcommits]; exact List.mem_singleton_self _)
    ⟨rfl, ⟨1, "op", [7]⟩, rfl, rfl⟩).1 db' (Lts.Reaches.single hstep)
  rcases hanswer.2.2 _ hreply with h | ⟨f, h⟩
  · revert h
    decide
  · cases h

/-! ## 5. The lookup after a lost acknowledgement -/

/-- **The two answers decide the outcome of attempt `t`**, as `OperationLookup` documents:
after `Absent` the attempt never becomes durable; `Committed id` names a commit of the same
intent, and the attempt's own commit if it made one. -/
def Decides (db : Db) (t : Nat) (i : OperationIdentity) : Prop :=
  (lookupOperation db.tables i = .ok .absent →
    ∀ db', Lts.Reaches step db db' → ∀ x ∈ db'.history, x.txn ≠ t) ∧
  ∀ id, lookupOperation db.tables i = .ok (.committed id) →
    DurableUnder db.tables i id ∧ ∀ x ∈ db.history, x.txn = t → x.id = id

/-- A transaction that is over stays over, with the history it has. -/
theorem closed_run (hreach : Reachable db) (hlt : t < db.nextTxn)
    (hnone : db.txns.lookup t = none) (hr : Lts.Reaches step db db') :
    ∀ x ∈ db'.history, x.txn = t → x ∈ db.history := by
  have hall := hr.inv (I := fun d => Inv d ∧ t < d.nextTxn ∧ d.txns.lookup t = none ∧
      ∀ x ∈ d.history, x.txn = t → x ∈ db.history) ?_
    ⟨hreach.inv, hlt, hnone, fun x hx _ => hx⟩
  · exact hall.2.2.2
  · rintro d e d' hs ⟨hi, hlt, hnone, hh⟩
    refine ⟨inv_step hs hi, Nat.lt_of_lt_of_le hlt (step_nextTxn hs), ?_⟩
    by_cases hown : e.subject = some t
    · -- only an answer can still reach the caller
      cases e with
      | stmt t' =>
        cases hown
        obtain ⟨τ, -, -, hlook, -⟩ := step_stmt hs
        rw [hnone] at hlook
        cases hlook
      | sendCommit t' =>
        cases hown
        obtain ⟨τ, hlook, -⟩ := step_sendCommit hs
        rw [hnone] at hlook
        cases hlook
      | commit t' =>
        cases hown
        obtain ⟨τ, hlook, -⟩ := step_commit hs
        rw [hnone] at hlook
        cases hlook
      | rollback t' f =>
        cases hown
        obtain ⟨τ, hlook, -⟩ := step_rollback hs
        rw [hnone] at hlook
        cases hlook
      | abandon t' f =>
        cases hown
        obtain ⟨τ, hlook, -⟩ := step_abandon hs
        rw [hnone] at hlook
        cases hlook
      | lost t' =>
        cases hown
        obtain ⟨c, -, rfl⟩ := step_lost hs
        exact ⟨by simpa using hnone, by simpa using hh⟩
      | ack t' =>
        cases hown
        obtain ⟨x, -, -, rfl⟩ := step_ack hs
        exact ⟨by simpa using hnone, by simpa using hh⟩
      | _ => cases hown
    · obtain ⟨hl, -⟩ := step_other hs hown fun _ _ => Nat.ne_of_lt hlt
      refine ⟨hl.trans hnone, ?_⟩
      intro x hx hxt
      exact hh x (step_history_other hi hs hown hxt hx) hxt

theorem DurableUnder.unique (hs : Stored db) {id id' : Int} (h : DurableUnder db.tables i id)
    (h' : DurableUnder db.tables i id') : id = id' := by
  obtain ⟨r, hr, rfl, hht, hk, -⟩ := h
  obtain ⟨r', hr', rfl, hht', hk', -⟩ := h'
  rw [hs.key_unique r hr r' hr' i.key (hht.trans hht'.symm) hk hk']

/-- **When the lookup decides.**  For an attempt whose acknowledgement was lost, the lookup's
answer is final exactly when the server no longer has the attempt's transaction open. -/
theorem lookup_decides_iff (hreach : Reachable db)
    (hlost : db.replies t = some (.error (.ambiguousMutation i))) :
    Decides db t i ↔ db.txns.lookup t = none := by
  have hi := hreach.inv
  have hok := hreach.callOk t
  have hlt : t < db.nextTxn := by
    by_contra hle
    rw [(hok.fresh (Nat.not_lt.mp hle)).1] at hlost
    cases hlost
  constructor
  · rintro ⟨habsent, -⟩
    by_contra hopen
    obtain ⟨τ, hlook⟩ := Option.ne_none_iff_exists'.mp hopen
    obtain ⟨hsent, hident⟩ := (hok.ambiguous i hlost).1 τ hlook
    have hτ := hi.txn t τ hlook
    -- the open transaction holds the key, so no durable row has it
    have hfree := (hτ.ready hsent).key_free
    have hnone : db.tables.operationRow i = none := by
      unfold Tables.operationRow
      rw [List.find?_eq_none]
      intro r hr hm
      simp only [decide_eq_true_eq] at hm
      exact hfree r hr ⟨hm.1.trans (hτ.scope i hident), i, hident, hm.2⟩
    have hlookup : lookupOperation db.tables i = .ok .absent := by
      unfold lookupOperation lookupInTx
      rw [hnone]
      rfl
    have hcommit : step db (.commit t) = some { db with
        tables := τ.w.apply db.tables
        txns := db.txns.erase t
        history := db.history ++ [⟨t, τ.w.cid.getD 0, τ.call⟩] } := by
      simp only [step, hlook, hsent, if_true]
    exact habsent hlookup _ (Lts.Reaches.single hcommit) ⟨t, τ.w.cid.getD 0, τ.call⟩ (by simp) rfl
  · intro hnone
    refine ⟨?_, ?_⟩
    · intro habsent db' hr x hx hxt
      have hx' := closed_run hreach hlt hnone hr x hx hxt
      obtain ⟨r, hrow, -, hht, hk, -⟩ :=
        durable_lookup hreach hx' ((hok.ambiguous i hlost).2 x hx' hxt)
      exact lookupOperation_absent habsent r hrow ⟨hht, hk⟩
    · intro id hid
      have hdur := (lookupOperation_committed_iff hi.stored).mp hid
      refine ⟨hdur, ?_⟩
      intro x hx hxt
      exact (durable_lookup hreach hx ((hok.ambiguous i hlost).2 x hx hxt)).unique hi.stored hdur

/-- An operation without effect. -/
def retriedOperation : Call := commit 1 (.add []) (some ⟨1, "op", [7]⟩)

/-- COMMIT is sent, the connection dies, and the server rolls the transaction back. -/
def lostAndRolledBack : List Event :=
  [.begin retriedOperation, .stmt 0, .stmt 0, .stmt 0, .stmt 0, .sendCommit 0, .lost 0,
    .rollback 0 .transport]

theorem lookup_decides_rolled_back :
    ∃ db, Lts.run step {} lostAndRolledBack = some db ∧ Decides db 0 ⟨1, "op", [7]⟩ := by
  have hobs : (Lts.run step {} lostAndRolledBack).map (fun db =>
      (db.txns.lookup 0, db.replies 0)) =
      some (none, some (.error (.ambiguousMutation ⟨1, "op", [7]⟩))) := by decide
  obtain ⟨db, hrun, hobs⟩ := Option.map_eq_some_iff.mp hobs
  simp only [Prod.mk.injEq] at hobs
  obtain ⟨hnone, hlost⟩ := hobs
  exact ⟨db, hrun, (lookup_decides_iff ⟨{}, initial_empty, _, hrun⟩ hlost).mpr hnone⟩

/-- COMMIT is sent and the connection dies while the server still has the transaction. -/
def lostAndOpen : List Event :=
  [.begin retriedOperation, .stmt 0, .stmt 0, .stmt 0, .stmt 0, .sendCommit 0, .lost 0]

/-- **`Absent` is not final.**  The caller has lost its connection, the lookup answers `Absent`,
and then the server finishes the transaction: the attempt is durable after all. -/
theorem absent_then_committed :
    ¬ ∀ db t i, Reachable db → db.replies t = some (.error (.ambiguousMutation i)) →
      Decides db t i := by
  intro h
  have hobs : (Lts.run step {} lostAndOpen).map (fun db =>
      (db.replies 0, lookupOperation db.tables ⟨1, "op", [7]⟩,
        (step db (.commit 0)).map fun db' => db'.history)) =
      some (some (.error (.ambiguousMutation ⟨1, "op", [7]⟩)), .ok .absent,
        some [⟨0, 1, retriedOperation⟩]) := by decide
  obtain ⟨db, hrun, hobs⟩ := Option.map_eq_some_iff.mp hobs
  simp only [Prod.mk.injEq] at hobs
  obtain ⟨hlost, habsent, hafter⟩ := hobs
  obtain ⟨db', hstep, hhist⟩ := Option.map_eq_some_iff.mp hafter
  have hdec := h db 0 ⟨1, "op", [7]⟩ ⟨{}, initial_empty, _, hrun⟩ hlost
  exact hdec.1 habsent db' (Lts.Reaches.single hstep) ⟨0, 1, retriedOperation⟩
    (by rw [hhist]; exact List.mem_singleton_self _) rfl

end Ukiel.Catalog
