/-
# What becomes of one call

The machine from the point of view of a single caller.  §1 separates the events of one
transaction from everybody else's; §2 is the invariant of replies and history: what an open
transaction's caller can already have been told, and that history and the `commits` table tell
the same story.
-/
import Ukiel.Catalog.Isolation

namespace Ukiel.Catalog

variable {db db' : Db}

/-! ## 1. Own events and others -/

/-- The transaction an event belongs to. -/
def Event.subject : Event → Option Nat
  | .stmt t => some t
  | .sendCommit t => some t
  | .commit t => some t
  | .rollback t _ => some t
  | .abandon t _ => some t
  | .lost t => some t
  | .ack t => some t
  | _ => none

theorem reply_of_ne {t t' : Nat} (r : Reply) (h : t ≠ t') :
    (db.reply t' r).replies t = db.replies t :=
  Function.update_of_ne h _ _

theorem replyOnce_of_ne {t t' : Nat} (r : Reply) (h : t ≠ t') :
    (db.replyOnce t' r).replies t = db.replies t := by
  unfold Db.replyOnce
  split
  · rfl
  · exact reply_of_ne r h

@[simp] theorem replyOnce_nextTxn (db : Db) (t : Nat) (r : Reply) :
    (db.replyOnce t r).nextTxn = db.nextTxn := by
  unfold Db.replyOnce
  split <;> rfl

@[simp] theorem replyOnce_barrier (db : Db) (t : Nat) (r : Reply) :
    (db.replyOnce t r).barrier = db.barrier := by
  unfold Db.replyOnce
  split <;> rfl

@[simp] theorem draw_replies (db : Db) (s : Stmt) : (db.draw s).replies = db.replies := by
  cases s <;> rfl

/-- What the caller learns is what it already knew, or the new answer if it knew none. -/
theorem replyOnce_self (db : Db) (t : Nat) (r : Reply) :
    (db.replies t = none ∧ (db.replyOnce t r).replies t = some r) ∨
      ∃ r₀, db.replies t = some r₀ ∧ (db.replyOnce t r).replies t = some r₀ := by
  unfold Db.replyOnce
  split
  · rename_i r₀ hr
    exact Or.inr ⟨r₀, hr, hr⟩
  · rename_i hr
    exact Or.inl ⟨hr, Function.update_self _ _ _⟩

@[simp] theorem installLease_txns (k : Nat) (cl : Claim) :
    (db.installLease k cl).txns = db.txns := by
  unfold Db.installLease
  split
  · rfl
  · dsimp only
    split <;> rfl

@[simp] theorem installLease_replies (k : Nat) (cl : Claim) :
    (db.installLease k cl).replies = db.replies := by
  unfold Db.installLease
  split
  · rfl
  · dsimp only
    split <;> rfl

@[simp] theorem installLease_nextTxn (k : Nat) (cl : Claim) :
    (db.installLease k cl).nextTxn = db.nextTxn := by
  unfold Db.installLease
  split
  · rfl
  · dsimp only
    split <;> rfl

theorem runStmt_lookup_of_ne {t t' : Nat} {τ : Txn} {s : Stmt} {rest : List Stmt} (h : t ≠ t') :
    (db.runStmt t' τ s rest).txns.lookup t = db.txns.lookup t := by
  unfold Db.runStmt
  split
  · exact AList.lookup_insert_ne h
  · exact AList.lookup_erase_ne h

theorem runStmt_replies_of_ne {t t' : Nat} {τ : Txn} {s : Stmt} {rest : List Stmt}
    (h : t ≠ t') : (db.runStmt t' τ s rest).replies t = db.replies t := by
  unfold Db.runStmt
  split
  · exact congrFun (draw_replies db s) t
  · exact reply_of_ne _ h

@[simp] theorem runStmt_nextTxn {t : Nat} {τ : Txn} {s : Stmt} {rest : List Stmt} :
    (db.runStmt t τ s rest).nextTxn = db.nextTxn := by
  unfold Db.runStmt
  split
  · exact draw_nextTxn db s
  · rfl

/-- A reply changes nothing but the replies. -/
theorem replyOnce_eq (db : Db) (t : Nat) (r : Reply) :
    ∃ rs, db.replyOnce t r = { db with replies := rs } := by
  unfold Db.replyOnce
  split
  · exact ⟨db.replies, rfl⟩
  · exact ⟨_, rfl⟩

/-- A statement changes nothing but its transaction, its caller's reply and the sequences. -/
theorem runStmt_eq (db : Db) (t : Nat) (τ : Txn) (s : Stmt) (rest : List Stmt) :
    ∃ xs rs c p, db.runStmt t τ s rest =
      { db with txns := xs, replies := rs, commitSeq := c, partSeq := p } := by
  unfold Db.runStmt
  split
  · cases s <;> exact ⟨_, _, _, _, rfl⟩
  · exact ⟨_, _, _, _, rfl⟩

theorem step_stmt {t : Nat} (h : step db (.stmt t) = some db') :
    ∃ τ s rest, db.txns.lookup t = some τ ∧ τ.rest = s :: rest ∧ τ.attached = true ∧
      ¬ db.waits t τ.call s ∧ db' = db.runStmt t τ s rest := by
  simp only [step] at h
  split at h
  · cases h
  · rename_i τ hlook
    split at h
    · cases h
    · rename_i s rest hrest
      split at h
      · rename_i hg
        cases h
        exact ⟨τ, s, rest, hlook, hrest, hg.1, hg.2, rfl⟩
      · cases h

theorem step_sendCommit {t : Nat} (h : step db (.sendCommit t) = some db') :
    ∃ τ, db.txns.lookup t = some τ ∧ τ.attached = true ∧ τ.rest = [] ∧
      db' = { db with txns := db.txns.insert t { τ with sent := true } } := by
  simp only [step] at h
  split at h
  · cases h
  · rename_i τ hlook
    split at h
    · rename_i hg
      cases h
      exact ⟨τ, hlook, hg.1, hg.2, rfl⟩
    · cases h

theorem step_rollback {t : Nat} {f : DbFailure} (h : step db (.rollback t f) = some db') :
    ∃ τ, db.txns.lookup t = some τ ∧ db' = { db.replyOnce t (.error (if τ.sent = true then
        ambiguousOrDefinite τ.call.identity f else .db f)) with txns := db.txns.erase t } := by
  simp only [step] at h
  split at h
  · cases h
  · rename_i τ hlook
    simp only [Option.some.injEq] at h
    exact ⟨τ, hlook, h.symm⟩

theorem step_abandon {t : Nat} {f : DbFailure} (h : step db (.abandon t f) = some db') :
    ∃ τ, db.txns.lookup t = some τ ∧ τ.attached = true ∧ τ.sent = false ∧
      db' = { db.replyOnce t (.error (.db f)) with
        txns := db.txns.insert t { τ with attached := false } } := by
  simp only [step] at h
  split at h
  · cases h
  · rename_i τ hlook
    split at h
    · rename_i hg
      cases h
      exact ⟨τ, hlook, hg.1, hg.2, rfl⟩
    · cases h

theorem step_lost {t : Nat} (h : step db (.lost t) = some db') :
    ∃ c : Call, ((∃ τ, db.txns.lookup t = some τ ∧ τ.sent = true ∧ τ.call = c) ∨
        (db.txns.lookup t = none ∧ ∃ x ∈ db.history, x.txn = t ∧ x.call = c)) ∧
      db' = db.replyOnce t (.error (ambiguousOrDefinite c.identity .transport)) := by
  simp only [step] at h
  split at h
  · rename_i τ hlook
    split at h
    · rename_i hsent
      cases h
      exact ⟨τ.call, Or.inl ⟨τ, hlook, hsent, rfl⟩, rfl⟩
    · cases h
  · rename_i hnone
    split at h
    · rename_i x hx
      cases h
      have hp := List.find?_some hx
      simp only [decide_eq_true_eq] at hp
      exact ⟨x.call, Or.inr ⟨hnone, x, List.mem_of_find?_eq_some hx, hp, rfl⟩, rfl⟩
    · cases h

theorem step_ack {t : Nat} (h : step db (.ack t) = some db') :
    ∃ x ∈ db.history, x.txn = t ∧ db' = db.replyOnce t (.ok (.committed x.id)) := by
  simp only [step] at h
  split at h
  · rename_i x hx
    cases h
    have hp := List.find?_some hx
    simp only [decide_eq_true_eq] at hp
    exact ⟨x, List.mem_of_find?_eq_some hx, hp, rfl⟩
  · cases h

/-- **Everybody else's events** leave a caller's transaction and its reply alone. -/
theorem step_other {e : Event} {t : Nat} (h : step db e = some db') (hs : e.subject ≠ some t)
    (ht : ∀ c, e = .begin c → t ≠ db.nextTxn) :
    db'.txns.lookup t = db.txns.lookup t ∧ db'.replies t = db.replies t := by
  cases e with
  | begin c =>
    have hnew := ht c rfl
    simp only [step] at h
    split at h
    · cases h
      exact ⟨AList.lookup_insert_ne hnew, rfl⟩
    · cases h
      exact ⟨rfl, reply_of_ne _ hnew⟩
  | stmt t' =>
    have hne : t ≠ t' := fun he => hs (by rw [he]; rfl)
    simp only [step] at h
    repeat' split at h
    all_goals cases h
    exact ⟨runStmt_lookup_of_ne hne, runStmt_replies_of_ne hne⟩
  | sendCommit t' | commit t' =>
    have hne : t ≠ t' := fun he => hs (by rw [he]; rfl)
    simp only [step] at h
    repeat' split at h
    all_goals cases h
    first
      | exact ⟨AList.lookup_insert_ne hne, rfl⟩
      | exact ⟨AList.lookup_erase_ne hne, rfl⟩
  | rollback t' f =>
    have hne : t ≠ t' := fun he => hs (by rw [he]; rfl)
    simp only [step] at h
    repeat' split at h
    all_goals cases h
    all_goals exact ⟨AList.lookup_erase_ne hne, replyOnce_of_ne _ hne⟩
  | abandon t' f =>
    have hne : t ≠ t' := fun he => hs (by rw [he]; rfl)
    simp only [step] at h
    repeat' split at h
    all_goals cases h
    exact ⟨AList.lookup_insert_ne hne, replyOnce_of_ne _ hne⟩
  | lost t' | ack t' =>
    have hne : t ≠ t' := fun he => hs (by rw [he]; rfl)
    simp only [step] at h
    repeat' split at h
    all_goals cases h
    all_goals exact ⟨by simp, replyOnce_of_ne _ hne⟩
  | installLease k =>
    simp only [step] at h
    repeat' split at h
    all_goals cases h
    exact ⟨by simp, by simp⟩
  | lockBarrier _ _ | readHead _ | unlockBarrier _ | drawLease _ _ _
  | renewLease _ _ | releaseLease _ | registerPending _ _ | clearPending _ | markPurged _
  | setCursor _ _ _ | tick _ =>
    simp only [step] at h
    repeat' split at h
    all_goals cases h
    all_goals exact ⟨rfl, rfl⟩

/-- Transaction numbers are handed out once. -/
theorem step_nextTxn {e : Event} (h : step db e = some db') : db.nextTxn ≤ db'.nextTxn := by
  cases e with
  | begin c =>
    simp only [step] at h
    split at h
    · cases h
      exact Nat.le_succ _
    · cases h
      exact Nat.le_succ _
  | _ =>
    simp only [step] at h
    repeat' split at h
    all_goals cases h
    all_goals simp [Db.setLease, Db.onTenancy]

/-- A transaction is durable exactly when history has it. -/
theorem step_history_other {e : Event} {t : Nat} (hi : Inv db) (h : step db e = some db')
    (hs : e.subject ≠ some t) {x : Committed} (hx : x.txn = t) (hmem : x ∈ db'.history) :
    x ∈ db.history := by
  rcases step_tables hi h with ⟨t', τ, id, rfl, -, -, -, -, hh, -⟩ | ⟨-, hh, -⟩
  · rw [hh, List.mem_append, List.mem_singleton] at hmem
    rcases hmem with hmem | rfl
    · exact hmem
    · exact absurd (by rw [← hx]; rfl) hs
  · rw [← hh]
    exact hmem

theorem step_history_mono {e : Event} (hi : Inv db) (h : step db e = some db') {x : Committed}
    (hx : x ∈ db.history) : x ∈ db'.history := by
  rcases step_tables hi h with ⟨t', τ, id, rfl, -, -, -, -, hh, -⟩ | ⟨-, hh, -⟩
  · rw [hh]
    exact List.mem_append_left _ hx
  · rw [hh]
    exact hx

theorem step_commits_mono {e : Event} (hi : Inv db) (h : step db e = some db') {r : CommitRow}
    (hr : r ∈ db.tables.commits) : r ∈ db'.tables.commits := by
  rcases step_tables hi h with ⟨t', τ, id, rfl, -, -, happ, -, -, -⟩ | ⟨-, -, hside⟩
  · obtain ⟨at', hc⟩ := happ.commits
    rw [hc]
    exact List.mem_append_left _ hr
  · rw [hside.commits]
    exact hr

/-- Where the writes of an open transaction come from: they were there before, or the
transaction is new, or it has just run a statement. -/
theorem step_txn {e : Event} {t : Nat} {τ' : Txn} (h : step db e = some db')
    (hl : db'.txns.lookup t = some τ') :
    (∃ τ, db.txns.lookup t = some τ ∧ τ'.call = τ.call ∧ τ'.w = τ.w) ∨
      (∃ c, e = .begin c ∧ t = db.nextTxn ∧
        τ' = { call := c, startedAt := db.clock, rest := plan c }) ∨
      ∃ τ s rest w, e = .stmt t ∧ db.txns.lookup t = some τ ∧ τ.rest = s :: rest ∧
        execStmt db.tables τ.call (db.env τ) τ.w s = .ok w ∧
        τ' = { τ with rest := rest, w := w } := by
  by_cases hown : e.subject = some t
  · cases e with
    | stmt t' =>
      cases hown
      obtain ⟨τ, s, rest, hlook, hrest, -, -, rfl⟩ := step_stmt h
      unfold Db.runStmt at hl
      split at hl
      · rename_i w he
        rw [AList.lookup_insert, Option.some.injEq] at hl
        exact Or.inr (Or.inr ⟨τ, s, rest, w, rfl, hlook, hrest, he, hl.symm⟩)
      · rw [AList.lookup_erase] at hl
        cases hl
    | sendCommit t' =>
      cases hown
      obtain ⟨τ, hlook, -, -, rfl⟩ := step_sendCommit h
      rw [AList.lookup_insert, Option.some.injEq] at hl
      subst hl
      exact Or.inl ⟨τ, hlook, rfl, rfl⟩
    | commit t' =>
      cases hown
      obtain ⟨τ, -, -, rfl⟩ := step_commit h
      rw [AList.lookup_erase] at hl
      cases hl
    | rollback t' f =>
      cases hown
      obtain ⟨τ, -, rfl⟩ := step_rollback h
      rw [AList.lookup_erase] at hl
      cases hl
    | abandon t' f =>
      cases hown
      obtain ⟨τ, hlook, -, -, rfl⟩ := step_abandon h
      rw [AList.lookup_insert, Option.some.injEq] at hl
      subst hl
      exact Or.inl ⟨τ, hlook, rfl, rfl⟩
    | lost t' =>
      cases hown
      obtain ⟨c, -, rfl⟩ := step_lost h
      rw [replyOnce_txns] at hl
      exact Or.inl ⟨τ', hl, rfl, rfl⟩
    | ack t' =>
      cases hown
      obtain ⟨x, -, -, rfl⟩ := step_ack h
      rw [replyOnce_txns] at hl
      exact Or.inl ⟨τ', hl, rfl, rfl⟩
    | _ => cases hown
  · by_cases hbegin : ∃ c, e = .begin c ∧ t = db.nextTxn
    · obtain ⟨c, rfl, rfl⟩ := hbegin
      simp only [step] at h
      split at h
      · cases h
        rw [AList.lookup_insert, Option.some.injEq] at hl
        exact Or.inr (Or.inl ⟨c, rfl, rfl, hl.symm⟩)
      · cases h
        exact Or.inl ⟨τ', hl, rfl, rfl⟩
    · obtain ⟨hsame, -⟩ := step_other h hown fun c hc hn => hbegin ⟨c, hc, hn⟩
      rw [hsame] at hl
      exact Or.inl ⟨τ', hl, rfl, rfl⟩

/-- The call of an open transaction is the one it was opened for. -/
theorem step_call {e : Event} {t : Nat} {τ' : Txn} (h : step db e = some db')
    (hl : db'.txns.lookup t = some τ') :
    (∃ τ, db.txns.lookup t = some τ ∧ τ'.call = τ.call) ∨
      (e = .begin τ'.call ∧ t = db.nextTxn) := by
  rcases step_txn h hl with
    ⟨τ, hlook, hcall, -⟩ | ⟨c, rfl, ht, rfl⟩ | ⟨τ, s, rest, w, -, hlook, -, -, rfl⟩
  · exact Or.inl ⟨τ, hlook, hcall⟩
  · exact Or.inr ⟨rfl, ht⟩
  · exact Or.inl ⟨τ, hlook, rfl⟩

/-- Part rows are never removed, and keep their hypertable and metadata. -/
theorem step_part {e : Event} (hi : Inv db) (h : step db e = some db') {p : PartRow}
    (hp : p ∈ db.tables.parts) : ∃ p' ∈ db'.tables.parts, p'.id = p.id ∧
      p'.hypertableId = p.hypertableId ∧ p'.partMeta = p.partMeta := by
  rcases step_tables hi h with ⟨t, τ, id, -, -, -, happ, -, -, -⟩ | ⟨-, -, hside⟩
  · obtain ⟨rows, hparts, -⟩ := happ.parts
    refine ⟨_, by rw [hparts]; exact List.mem_append_left _ (List.mem_map_of_mem hp), ?_⟩
    split <;> exact ⟨rfl, rfl, rfl⟩
  · obtain ⟨f, hparts, hf⟩ := hside.parts
    refine ⟨f p, by rw [hparts]; exact List.mem_map_of_mem hp, ?_⟩
    rw [hf p]
    exact ⟨rfl, rfl, rfl⟩

/-- Nor is it lost or changed in a run. -/
theorem run_part {es : List Event} (hi : Inv db) (h : Lts.run step db es = some db') {p : PartRow}
    (hp : p ∈ db.tables.parts) : ∃ p' ∈ db'.tables.parts, p'.id = p.id ∧
      p'.hypertableId = p.hypertableId ∧ p'.partMeta = p.partMeta := by
  refine Lts.run_rel (I := Inv) (R := fun a b => ∀ p ∈ a.tables.parts, ∃ p' ∈ b.tables.parts,
    p'.id = p.id ∧ p'.hypertableId = p.hypertableId ∧ p'.partMeta = p.partMeta)
    (fun a p hp => ⟨p, hp, rfl, rfl, rfl⟩) ?_ (fun _ _ _ hs hi => inv_step hs hi)
    (fun a e b hi hs p hp => step_part hi hs hp) h hi p hp
  intro a b c hab hbc p hp
  obtain ⟨q, hq, hid, hht, hmeta⟩ := hab p hp
  obtain ⟨r, hr, hid', hht', hmeta'⟩ := hbc q hq
  exact ⟨r, hr, hid'.trans hid, hht'.trans hht, hmeta'.trans hmeta⟩

/-- A call's own events leave the tables alone until it commits. -/
theorem step_own_tables {e : Event} {t : Nat} (h : step db e = some db')
    (hs : e.subject = some t) (hc : e ≠ .commit t) : db'.tables = db.tables := by
  cases e with
  | stmt t' =>
    obtain ⟨τ, s, rest, -, -, -, -, rfl⟩ := step_stmt h
    unfold Db.runStmt
    split
    · exact draw_tables db s
    · rfl
  | sendCommit t' =>
    obtain ⟨τ, -, -, -, rfl⟩ := step_sendCommit h
    rfl
  | commit t' =>
    cases hs
    exact absurd rfl hc
  | rollback t' f =>
    obtain ⟨τ, -, rfl⟩ := step_rollback h
    exact replyOnce_tables _ _ _
  | abandon t' f =>
    obtain ⟨τ, -, -, -, rfl⟩ := step_abandon h
    exact replyOnce_tables _ _ _
  | lost t' =>
    obtain ⟨c, -, rfl⟩ := step_lost h
    exact replyOnce_tables _ _ _
  | ack t' =>
    obtain ⟨x, -, -, rfl⟩ := step_ack h
    exact replyOnce_tables _ _ _
  | _ => cases hs

@[simp] theorem replyOnce_clock (db : Db) (t : Nat) (r : Reply) :
    (db.replyOnce t r).clock = db.clock := by
  obtain ⟨rs, heq⟩ := replyOnce_eq db t r
  rw [heq]

/-- Time never goes back. -/
theorem step_clock {e : Event} (h : step db e = some db') : db.clock ≤ db'.clock := by
  cases e with
  | tick now =>
    simp only [step] at h
    split at h
    · cases h
      assumption
    · cases h
  | stmt t =>
    obtain ⟨τ, s, rest, -, -, -, -, rfl⟩ := step_stmt h
    obtain ⟨xs, rs, c, p, heq⟩ := runStmt_eq db t τ s rest
    exact Int.le_of_eq (by rw [heq])
  | rollback _ _ | abandon _ _ | lost _ | ack _ =>
    simp only [step] at h
    repeat' split at h
    all_goals cases h
    all_goals simp
  | installLease k =>
    simp only [step] at h
    repeat' split at h
    all_goals cases h
    unfold Db.installLease
    split
    · exact Int.le_refl _
    · dsimp only
      split <;> exact Int.le_refl _
  | _ =>
    simp only [step] at h
    repeat' split at h
    all_goals cases h
    all_goals exact Int.le_refl _

theorem mem_registerPendingObjects {T : Tables} {k : HypertableId} {now : Int} {r : PendingRow} :
    ∀ {paths : List String}, r ∈ (registerPendingObjects T k now paths).pendingObjects →
      r ∈ T.pendingObjects ∨ (r.path ∈ paths ∧ r = ⟨k, r.path, now⟩) := by
  intro paths
  induction paths using List.reverseRecOn with
  | nil => exact Or.inl
  | append_singleton paths p ih =>
    intro hr
    simp only [registerPendingObjects, List.foldl_append, List.foldl_cons, List.foldl_nil] at hr
    have hold : r ∈ (registerPendingObjects T k now paths).pendingObjects →
        r ∈ T.pendingObjects ∨ (r.path ∈ paths ++ [p] ∧ r = ⟨k, r.path, now⟩) := by
      intro hmem
      rcases ih hmem with h | ⟨h, heq⟩
      · exact Or.inl h
      · exact Or.inr ⟨List.mem_append_left _ h, heq⟩
    split at hr
    · exact hold hr
    · rcases List.mem_append.mp hr with hmem | hnew
      · exact hold hmem
      · obtain rfl := List.mem_singleton.mp hnew
        exact Or.inr ⟨by simp, rfl⟩

/-- An upload intent is there because it was there before or has just been registered. -/
theorem step_pending {e : Event} (h : step db e = some db') {r : PendingRow}
    (hr : r ∈ db'.tables.pendingObjects) : r ∈ db.tables.pendingObjects ∨
      ∃ k paths, e = .registerPending k paths ∧ r.path ∈ paths ∧ r = ⟨k, r.path, db.clock⟩ := by
  by_cases hown : ∃ t, e.subject = some t ∧ e ≠ .commit t
  · obtain ⟨t, ht, hc⟩ := hown
    rw [step_own_tables h ht hc] at hr
    exact Or.inl hr
  · push Not at hown
    cases e with
    | commit t =>
      obtain ⟨τ, -, -, rfl⟩ := step_commit h
      exact Or.inl (List.mem_of_mem_filter hr)
    | stmt t | sendCommit t | lost t | ack t => exact absurd (hown t rfl) (by simp)
    | rollback t f | abandon t f => exact absurd (hown t rfl) (by simp)
    | registerPending k paths =>
      simp only [step] at h
      split at h
      · cases h
        rcases mem_registerPendingObjects hr with hold | ⟨hp, heq⟩
        · exact Or.inl hold
        · exact Or.inr ⟨k, paths, rfl, hp, heq⟩
      · cases h
    | clearPending paths =>
      simp only [step] at h
      split at h
      · cases h
        exact Or.inl (List.mem_of_mem_filter hr)
      · cases h
    | setCursor worker k cursor =>
      simp only [step] at h
      cases h
      unfold setCursor at hr
      split at hr
      · split at hr <;> exact Or.inl hr
      · exact Or.inl hr
    | installLease k =>
      simp only [step] at h
      repeat' split at h
      all_goals cases h
      unfold Db.installLease at hr
      split at hr
      · exact Or.inl hr
      · dsimp only at hr
        split at hr <;> exact Or.inl hr
    | _ =>
      simp only [step] at h
      repeat' split at h
      all_goals cases h
      all_goals exact Or.inl hr

theorem mem_registerPendingObjects_of_mem {T : Tables} {k : HypertableId} {now : Int}
    {r : PendingRow} {paths : List String} (hr : r ∈ T.pendingObjects) :
    r ∈ (registerPendingObjects T k now paths).pendingObjects := by
  induction paths using List.reverseRecOn with
  | nil => exact hr
  | append_singleton paths p ih =>
    simp only [registerPendingObjects, List.foldl_append, List.foldl_cons, List.foldl_nil]
    split
    · exact ih
    · exact List.mem_append_left _ ih

/-- Every path that is registered has an intent. -/
theorem registerPendingObjects_intent {T : Tables} {k : HypertableId} {now : Int}
    {paths : List String} {p : String} (hp : p ∈ paths) :
    ∃ r ∈ (registerPendingObjects T k now paths).pendingObjects, r.path = p := by
  induction paths using List.reverseRecOn with
  | nil => cases hp
  | append_singleton paths q ih =>
    simp only [registerPendingObjects, List.foldl_append, List.foldl_cons, List.foldl_nil]
    rcases List.mem_append.mp hp with hp | hp
    · obtain ⟨r, hr, hpath⟩ := ih hp
      split
      · exact ⟨r, hr, hpath⟩
      · exact ⟨r, List.mem_append_left _ hr, hpath⟩
    · obtain rfl := List.mem_singleton.mp hp
      split
      · assumption
      · exact ⟨_, List.mem_append_right _ (List.mem_singleton_self _), rfl⟩

/-- **How an upload intent disappears**: the commit that inserts a part at its path takes it, or
it is cleared. -/
theorem step_intent {e : Event} (hi : Inv db) (h : step db e = some db') {r : PendingRow}
    (hr : r ∈ db.tables.pendingObjects) : r ∈ db'.tables.pendingObjects ∨
      (∃ paths, e = .clearPending paths ∧ r.path ∈ paths) ∨
      ∃ t τ id, e = .commit t ∧ db.txns.lookup t = some τ ∧ τ.w.cid = some id ∧
        ∃ p ∈ db'.tables.parts, p.createdByCommit = id ∧ p.partMeta.path = r.path := by
  by_cases hown : ∃ t, e.subject = some t ∧ e ≠ .commit t
  · obtain ⟨t, ht, hc⟩ := hown
    rw [step_own_tables h ht hc]
    exact Or.inl hr
  · push Not at hown
    cases e with
    | commit t =>
      rcases step_tables hi h with ⟨t', τ, id, he, hlook, hcid, happ, -, -, -⟩ | ⟨hne, -, -⟩
      · rw [happ.pending]
        by_cases hin : r.path ∈ τ.call.op.newParts.map PartMeta.path
        · obtain ⟨rows, hparts, hnew⟩ := happ.parts
          rw [← hnew.metas] at hin
          obtain ⟨m, hm, hpath⟩ := List.mem_map.mp hin
          obtain ⟨p, hp, rfl⟩ := List.mem_map.mp hm
          exact Or.inr (Or.inr ⟨t', τ, id, he, hlook, hcid, p,
            by rw [hparts]; exact List.mem_append_right _ hp, (hnew.row p hp).2.1, hpath⟩)
        · exact Or.inl (List.mem_filter.mpr ⟨hr, decide_eq_true hin⟩)
      · exact absurd rfl (hne t)
    | stmt t | sendCommit t | lost t | ack t => exact absurd (hown t rfl) (by simp)
    | rollback t f | abandon t f => exact absurd (hown t rfl) (by simp)
    | registerPending k paths =>
      simp only [step] at h
      split at h
      · cases h
        exact Or.inl (mem_registerPendingObjects_of_mem hr)
      · cases h
    | clearPending paths =>
      simp only [step] at h
      split at h
      · cases h
        by_cases hin : r.path ∈ paths
        · exact Or.inr (Or.inl ⟨paths, rfl, hin⟩)
        · exact Or.inl (List.mem_filter.mpr ⟨hr, decide_eq_true hin⟩)
      · cases h
    | setCursor worker k cursor =>
      simp only [step] at h
      cases h
      left
      unfold setCursor
      split
      · split <;> exact hr
      · exact hr
    | installLease k =>
      simp only [step] at h
      repeat' split at h
      all_goals cases h
      left
      unfold Db.installLease
      split
      · exact hr
      · dsimp only
        split <;> exact hr
    | _ =>
      simp only [step] at h
      repeat' split at h
      all_goals cases h
      all_goals exact Or.inl hr

/-- A part row is there because it was there before or a commit has just registered it. -/
theorem step_part_origin {e : Event} (hi : Inv db) (h : step db e = some db') {p' : PartRow}
    (hp : p' ∈ db'.tables.parts) :
    (∃ p ∈ db.tables.parts, p'.hypertableId = p.hypertableId ∧ p'.partMeta = p.partMeta ∧
        (p'.purgedAt = none → p.purgedAt = none)) ∨
      ∃ t τ, e = .commit t ∧ db.txns.lookup t = some τ ∧
        p'.hypertableId = τ.call.hypertableId ∧ p'.partMeta ∈ τ.call.op.newParts := by
  rcases step_tables hi h with ⟨t, τ, id, rfl, hlook, -, happ, -, -, -⟩ | ⟨-, -, hside⟩
  · obtain ⟨rows, hparts, hnew⟩ := happ.parts
    rw [hparts, List.mem_append] at hp
    rcases hp with hold | hrow
    · obtain ⟨p, hmem, rfl⟩ := List.mem_map.mp hold
      exact Or.inl ⟨p, hmem, by split <;> rfl, by split <;> rfl, fun h => by split at h <;> exact h⟩
    · refine Or.inr ⟨t, τ, rfl, hlook, (hnew.row p' hrow).1, ?_⟩
      rw [← hnew.metas]
      exact List.mem_map_of_mem hrow
  · by_cases hnone : p'.purgedAt = none
    · exact Or.inl ⟨p', hside.purged p' hp hnone, rfl, rfl, id⟩
    · obtain ⟨f, hparts, hf⟩ := hside.parts
      rw [hparts] at hp
      obtain ⟨p, hmem, rfl⟩ := List.mem_map.mp hp
      exact Or.inl ⟨p, hmem, by rw [hf p], by rw [hf p], fun h => absurd h hnone⟩

/-! ## 2. Replies and history -/

/-- **What is known of call number `t`.**  Before COMMIT is sent its caller knows nothing or
lost the connection; an ambiguous answer means that COMMIT was sent, for this very identity; a
durable call has its row. -/
structure CallOk (db : Db) (t : Nat) : Prop where
  fresh : db.nextTxn ≤ t →
    db.replies t = none ∧ db.txns.lookup t = none ∧ ∀ x ∈ db.history, x.txn ≠ t
  closed : ∀ x ∈ db.history, x.txn = t → db.txns.lookup t = none
  once : ∀ x ∈ db.history, ∀ y ∈ db.history, x.txn = t → y.txn = t → x = y
  unsent : ∀ τ, db.txns.lookup t = some τ → τ.sent = false →
    db.replies t = none ∨ ∃ f, db.replies t = some (.error (.db f))
  ambiguous : ∀ i, db.replies t = some (.error (.ambiguousMutation i)) →
    (∀ τ, db.txns.lookup t = some τ → τ.sent = true ∧ τ.call.identity = some i) ∧
      ∀ x ∈ db.history, x.txn = t → x.call.identity = some i
  durable : ∀ x ∈ db.history, x.txn = t → x.call.Scoped ∧
    ∃ at', x.call.commitRow x.id at' ∈ db.tables.commits
  told : ∀ id, db.replies t = some (.ok (.committed id)) → ∃ x ∈ db.history, x.txn = t ∧ x.id = id

/-- An event that is not the call's own. -/
theorem CallOk.congr {t : Nat} (h : CallOk db t) (hl : db'.txns.lookup t = db.txns.lookup t)
    (hr : db'.replies t = db.replies t) (hn : db.nextTxn ≤ db'.nextTxn)
    (hh : ∀ x ∈ db'.history, x.txn = t → x ∈ db.history)
    (hh' : ∀ x ∈ db.history, x ∈ db'.history)
    (hc : ∀ r ∈ db.tables.commits, r ∈ db'.tables.commits) : CallOk db' t where
  fresh ht := by
    obtain ⟨h₁, h₂, h₃⟩ := h.fresh (Nat.le_trans hn ht)
    exact ⟨hr.trans h₁, hl.trans h₂, fun x hx he => h₃ x (hh x hx he) he⟩
  closed x hx he := hl.trans (h.closed x (hh x hx he) he)
  once x hx y hy hxt hyt := h.once x (hh x hx hxt) y (hh y hy hyt) hxt hyt
  unsent τ hτ hs := by
    rw [hr]
    exact h.unsent τ (hl ▸ hτ) hs
  ambiguous i hi := by
    obtain ⟨h₁, h₂⟩ := h.ambiguous i (hr ▸ hi)
    exact ⟨fun τ hτ => h₁ τ (hl ▸ hτ), fun x hx he => h₂ x (hh x hx he) he⟩
  durable x hx he := by
    obtain ⟨hs, at', hm⟩ := h.durable x (hh x hx he) he
    exact ⟨hs, at', hc _ hm⟩
  told id hid := by
    obtain ⟨x, hx, hxt, hxi⟩ := h.told id (hr ▸ hid)
    exact ⟨x, hh' x hx, hxt, hxi⟩

/-- A transaction that ends without becoming durable. -/
theorem CallOk.drop {t : Nat} {τ : Txn} (h : CallOk db t) (ht : t < db.nextTxn)
    (hlook : db.txns.lookup t = some τ) (hl : db'.txns.lookup t = none)
    (hn : db'.nextTxn = db.nextTxn) (hh : db'.history = db.history)
    (hr : ∀ id, db'.replies t ≠ some (.ok (.committed id))) : CallOk db' t where
  fresh hle := absurd ht (Nat.not_lt.mpr (hn ▸ hle))
  closed _ _ _ := hl
  once x hx y hy := by rw [hh] at hx hy; exact h.once x hx y hy
  unsent τ' hτ' := by rw [hl] at hτ'; cases hτ'
  ambiguous i _ := by
    refine ⟨fun τ' hτ' => (by rw [hl] at hτ'; cases hτ'), ?_⟩
    intro x hx he
    rw [hh] at hx
    rw [h.closed x hx he] at hlook
    cases hlook
  durable x hx he := by
    rw [hh] at hx
    rw [h.closed x hx he] at hlook
    cases hlook
  told id hid := absurd hid (hr id)

/-- Nobody has been told that an open transaction is committed. -/
theorem CallOk.not_told {t : Nat} {τ : Txn} (h : CallOk db t)
    (hlook : db.txns.lookup t = some τ) (id : Int) :
    db.replies t ≠ some (.ok (.committed id)) := by
  intro hid
  obtain ⟨x, hx, hxt, -⟩ := h.told id hid
  rw [h.closed x hx hxt] at hlook
  cases hlook

/-- Nor will be, by an error. -/
theorem CallOk.not_told_error {t : Nat} {τ : Txn} {e : CatalogError} (h : CallOk db t)
    (hlook : db.txns.lookup t = some τ) (id : Int) :
    (db.replyOnce t (.error e)).replies t ≠ some (.ok (.committed id)) := by
  rcases replyOnce_self db t (.error e) with ⟨-, hr⟩ | ⟨r₀, h₀, hr⟩
  · rw [hr]
    simp
  · rw [hr, ← h₀]
    exact h.not_told hlook id

/-- The call's own statements. -/
theorem callOk_stmt {t : Nat} (hi : Inv db) (h : CallOk db t) (hs : step db (.stmt t) = some db') :
    CallOk db' t := by
  obtain ⟨τ, s, rest, hlook, hrest, -, -, rfl⟩ := step_stmt hs
  have ht := hi.txn_lt t τ hlook
  have hhist : ∀ x ∈ db.history, x.txn ≠ t := by
    intro x hx he
    rw [h.closed x hx he] at hlook
    cases hlook
  have hunsent : τ.sent = false := by
    by_contra hsent
    rw [(hi.txn t τ hlook).sent_rest (by simpa using hsent)] at hrest
    cases hrest
  unfold Db.runStmt
  split
  · rename_i w he
    refine
      { fresh := fun hle => absurd ht (Nat.not_lt.mpr (by simpa using hle))
        closed := fun x hx hx' => absurd hx' (hhist x (by simpa using hx))
        once := fun x hx _ _ hx' => absurd hx' (hhist x (by simpa using hx))
        unsent := ?_
        ambiguous := ?_
        durable := fun x hx hx' => absurd hx' (hhist x (by simpa using hx))
        told := fun id hid => absurd (by simpa using hid) (h.not_told hlook id) }
    · intro τ' hτ' _
      simpa using h.unsent τ hlook hunsent
    · intro i hamb
      rw [show (_ : Option Reply) = db.replies t from congrFun (draw_replies db s) t] at hamb
      have := (h.ambiguous i hamb).1 τ hlook
      rw [hunsent] at this
      cases this.1
  · rename_i r he
    refine h.drop ht hlook (AList.lookup_erase _ _) rfl rfl ?_
    intro id hid
    have hself : (db.reply t r).replies t = some r := Function.update_self _ _ _
    obtain rfl : r = .ok (.committed id) := Option.some.inj (hself.symm.trans hid)
    exact execStmt_ne_committed he

theorem callOk_replyOnce {t : Nat} {r : Reply} (h : CallOk db t) (ht : t < db.nextTxn)
    (hdb : ∀ τ, db.txns.lookup t = some τ → τ.sent = false → ∃ f, r = .error (.db f))
    (hamb : ∀ i, r = .error (.ambiguousMutation i) →
      (∀ τ, db.txns.lookup t = some τ → τ.sent = true ∧ τ.call.identity = some i) ∧
        ∀ x ∈ db.history, x.txn = t → x.call.identity = some i)
    (htold : ∀ id, r = .ok (.committed id) → ∃ x ∈ db.history, x.txn = t ∧ x.id = id) :
    CallOk (db.replyOnce t r) t := by
  rcases replyOnce_self db t r with ⟨hnone, hr⟩ | ⟨r₀, h₀, hr⟩
  · refine
      { fresh := fun hle => absurd ht (Nat.not_lt.mpr (by simpa using hle))
        closed := by simpa using h.closed
        once := by simpa using h.once
        unsent := ?_
        ambiguous := ?_
        durable := by simpa using h.durable
        told := ?_ }
    · intro τ hτ hs
      rw [hr]
      rw [replyOnce_txns] at hτ
      obtain ⟨f, rfl⟩ := hdb τ hτ hs
      exact Or.inr ⟨f, rfl⟩
    · intro i hi
      rw [hr, Option.some.injEq] at hi
      simpa using hamb i hi
    · intro id hid
      rw [hr, Option.some.injEq] at hid
      simpa using htold id hid
  · exact h.congr (by simp) (hr.trans h₀.symm) (by simp) (fun x hx _ => by simpa using hx)
      (fun x hx => by simpa using hx) (fun r hr => by simpa using hr)

/-- What a failure at COMMIT says of the identity. -/
theorem ambiguous_identity {identity : Option OperationIdentity} {f : DbFailure}
    {i : OperationIdentity}
    (h : ambiguousOrDefinite identity f = .ambiguousMutation i) : identity = some i := by
  unfold ambiguousOrDefinite at h
  split at h
  · cases h
  · split at h
    · cases h
      rfl
    · cases h

/-- A new call, refused or opened. -/
theorem callOk_begin {c : Call} (h : CallOk db db.nextTxn)
    (hs : step db (.begin c) = some db') : CallOk db' db.nextTxn := by
  obtain ⟨hr, hl, hx⟩ := h.fresh (Nat.le_refl _)
  simp only [step] at hs
  split at hs
  · cases hs
    exact
      { fresh := fun hle => absurd hle (Nat.not_le.mpr (Nat.lt_succ_self _))
        closed := fun x hx' he => absurd he (hx x hx')
        once := fun x hx' _ _ he => absurd he (hx x hx')
        unsent := fun _ _ _ => Or.inl hr
        ambiguous := fun i hi => by rw [hr] at hi; cases hi
        durable := fun x hx' he => absurd he (hx x hx')
        told := fun id hid => by rw [hr] at hid; cases hid }
  · cases hs
    refine
      { fresh := fun hle => absurd hle (Nat.not_le.mpr (Nat.lt_succ_self _))
        closed := fun x hx' he => absurd he (hx x hx')
        once := fun x hx' _ _ he => absurd he (hx x hx')
        unsent := fun τ hτ => absurd (show db.txns.lookup db.nextTxn = some τ from hτ) (by simp [hl])
        ambiguous := fun i hi => ?_
        durable := fun x hx' he => absurd he (hx x hx')
        told := fun id hid => ?_ }
    · simp [Db.reply, Call.mismatch] at hi
    · simp [Db.reply, Call.mismatch] at hid

/-- **Every event keeps what is known of every call.** -/
theorem callOk_step {e : Event} {t : Nat} (hi : Inv db) (h : ∀ t, CallOk db t)
    (hs : step db e = some db') : CallOk db' t := by
  by_cases hown : e.subject = some t
  · have hmono := fun r => step_commits_mono (r := r) hi hs
    cases e with
    | stmt t' =>
      cases hown
      exact callOk_stmt hi (h t) hs
    | sendCommit t' =>
      cases hown
      obtain ⟨τ, hlook, -, -, rfl⟩ := step_sendCommit hs
      have hamb := (h t).ambiguous
      refine
        { fresh := fun hle => absurd (hi.txn_lt t τ hlook) (Nat.not_lt.mpr hle)
          closed := fun x hx he => absurd hlook (by rw [(h t).closed x hx he]; simp)
          once := (h t).once
          unsent := ?_
          ambiguous := ?_
          durable := (h t).durable
          told := (h t).told }
      · intro τ' hτ' hsent
        rw [AList.lookup_insert, Option.some.injEq] at hτ'
        subst hτ'
        cases hsent
      · intro i hr
        refine ⟨?_, (hamb i hr).2⟩
        intro τ' hτ'
        rw [AList.lookup_insert, Option.some.injEq] at hτ'
        subst hτ'
        exact ⟨rfl, ((hamb i hr).1 τ hlook).2⟩
    | commit t' =>
      cases hown
      rcases step_tables hi hs with ⟨_, τ, id, he, hlook, hcid, happ, htx, hh, -⟩ | ⟨hne, -⟩
      · cases he
        have ht := hi.txn_lt t τ hlook
        have hother := (step_commit hs).choose_spec
        have hnone : db'.txns.lookup t = none := by rw [htx, AList.lookup_erase]
        have hreplies : db'.replies t = db.replies t := by rw [hother.2.2]
        have hnext : db'.nextTxn = db.nextTxn := by rw [hother.2.2]
        have hnew : ∀ x ∈ db'.history, x.txn = t → x = ⟨t, id, τ.call⟩ := by
          intro x hx hxt
          rw [hh, List.mem_append, List.mem_singleton] at hx
          rcases hx with hx | hx
          · rw [(h t).closed x hx hxt] at hlook
            cases hlook
          · exact hx
        refine
          { fresh := fun hle => absurd ht (Nat.not_lt.mpr (hnext ▸ hle))
            closed := fun _ _ _ => hnone
            once := fun x hx y hy hxt hyt => (hnew x hx hxt).trans (hnew y hy hyt).symm
            unsent := fun τ' hτ' => by rw [hnone] at hτ'; cases hτ'
            ambiguous := ?_
            durable := ?_
            told := fun i hi' => absurd (hreplies ▸ hi') ((h t).not_told hlook i) }
        · intro i hr
          refine ⟨fun τ' hτ' => (by rw [hnone] at hτ'; cases hτ'), ?_⟩
          intro x hx hxt
          rw [hnew x hx hxt]
          exact (((h t).ambiguous i (hreplies ▸ hr)).1 τ hlook).2
        · intro x hx hxt
          rw [hnew x hx hxt]
          obtain ⟨at', hc⟩ := happ.commits
          exact ⟨(hi.txn t τ hlook).scope, at', by rw [hc]; simp⟩
      · exact absurd rfl (hne t)
    | rollback t' f =>
      cases hown
      obtain ⟨τ, hlook, rfl⟩ := step_rollback hs
      exact (h t).drop (hi.txn_lt t τ hlook) hlook (AList.lookup_erase _ _) (by simp) (by simp)
        ((h t).not_told_error hlook)
    | abandon t' f =>
      cases hown
      obtain ⟨τ, hlook, -, hunsent, rfl⟩ := step_abandon hs
      have hok := callOk_replyOnce (r := .error (.db f)) (h t) (hi.txn_lt t τ hlook)
        (fun _ _ _ => ⟨f, rfl⟩) (fun i hi' => by cases hi') (fun id hid => by cases hid)
      refine
        { fresh := fun hle => absurd (hi.txn_lt t τ hlook) (Nat.not_lt.mpr (by simpa using hle))
          closed := fun x hx he => absurd hlook (by rw [(h t).closed x (by simpa using hx) he]; simp)
          once := hok.once
          unsent := ?_
          ambiguous := ?_
          durable := hok.durable
          told := hok.told }
      · intro τ' hτ' _
        exact hok.unsent τ (by rw [replyOnce_txns]; exact hlook) hunsent
      · intro i hr
        have := (hok.ambiguous i hr).1 τ (by rw [replyOnce_txns]; exact hlook)
        rw [hunsent] at this
        cases this.1
    | lost t' =>
      cases hown
      obtain ⟨c, hc, rfl⟩ := step_lost hs
      rcases hc with ⟨τ, hlook, hsent, rfl⟩ | ⟨hnone, x, hx, hxt, rfl⟩
      · refine callOk_replyOnce (h t) (hi.txn_lt t τ hlook) ?_ ?_ (fun id hid => by cases hid)
        · intro τ' hτ' hs'
          rw [hlook] at hτ'
          cases hτ'
          rw [hsent] at hs'
          cases hs'
        · intro i hi'
          refine ⟨?_, fun x hx he => absurd hlook (by rw [(h t).closed x hx he]; simp)⟩
          intro τ' hτ'
          rw [hlook] at hτ'
          cases hτ'
          exact ⟨hsent, ambiguous_identity (Except.error.inj hi')⟩
      · have ht : t < db.nextTxn := by
          by_contra hle
          exact ((h t).fresh (Nat.not_lt.mp hle)).2.2 x hx hxt
        refine callOk_replyOnce (h t) ht ?_ ?_ (fun id hid => by cases hid)
        · intro τ' hτ'
          rw [hnone] at hτ'
          cases hτ'
        · intro i hi'
          refine ⟨fun τ' hτ' => (by rw [hnone] at hτ'; cases hτ'), ?_⟩
          intro y hy hyt
          rw [(h t).once y hy x hx hyt hxt]
          exact ambiguous_identity (Except.error.inj hi')
    | ack t' =>
      cases hown
      obtain ⟨x, hx, hxt, rfl⟩ := step_ack hs
      have hnone := (h t).closed x hx hxt
      have ht : t < db.nextTxn := by
        by_contra hle
        exact ((h t).fresh (Nat.not_lt.mp hle)).2.2 x hx hxt
      refine callOk_replyOnce (h t) ht ?_ (fun i hi' => by cases hi') ?_
      · intro τ' hτ'
        rw [hnone] at hτ'
        cases hτ'
      · rintro id ⟨rfl⟩
        exact ⟨x, hx, hxt, rfl⟩
    | _ => cases hown
  · by_cases hbegin : (∃ c, e = .begin c) ∧ t = db.nextTxn
    · obtain ⟨⟨c, rfl⟩, rfl⟩ := hbegin
      exact callOk_begin (h db.nextTxn) hs
    · have ht : ∀ c, e = .begin c → t ≠ db.nextTxn := fun c hc hn => hbegin ⟨⟨c, hc⟩, hn⟩
      obtain ⟨hl, hr⟩ := step_other hs hown ht
      exact (h t).congr hl hr (step_nextTxn hs)
        (fun x hx he => step_history_other hi hs hown he hx)
        (fun x hx => step_history_mono hi hs hx) (fun r hr => step_commits_mono hi hs hr)

theorem Initial.callOk (h : Initial db) (t : Nat) : CallOk db t where
  fresh _ := ⟨by rw [h.replies], by rw [h.txns]; rfl, by rw [h.history]; simp⟩
  closed x hx := by rw [h.history] at hx; cases hx
  once x hx := by rw [h.history] at hx; cases hx
  unsent τ hτ := by rw [h.txns] at hτ; cases hτ
  ambiguous i hi := by rw [h.replies] at hi; cases hi
  durable x hx := by rw [h.history] at hx; cases hx
  told id hid := by rw [h.replies] at hid; cases hid

theorem Reachable.callOk (h : Reachable db) (t : Nat) : CallOk db t := by
  obtain ⟨db₀, h₀, hr⟩ := h
  have hall := hr.inv (I := fun d => Inv d ∧ ∀ t, CallOk d t)
    (fun _ _ _ hs hp => ⟨inv_step hs hp.1, fun _ => callOk_step hp.1 hp.2 hs⟩)
    ⟨h₀.inv, h₀.callOk⟩
  exact hall.2 t

/-! ## 3. Refusals -/

/-- The errors by which a statement of the transaction refuses the call. -/
def Refusal : CatalogError → Prop
  | .conflict _ _ => True
  | .leaseLost _ => True
  | .leasePartitionMismatch _ => True
  | .operationKeyCollision _ => True
  | .offsetRace _ _ => True
  | _ => False

theorem not_refusal_ambiguous (identity : Option OperationIdentity) (f : DbFailure) :
    ¬ Refusal (ambiguousOrDefinite identity f) := by
  unfold ambiguousOrDefinite
  split
  · exact id
  · split <;> exact id

/-- A refused call is over and was never durable. -/
def Refused (db : Db) (t : Nat) : Prop :=
  ∀ e, Refusal e → db.replies t = some (.error e) →
    db.txns.lookup t = none ∧ ∀ x ∈ db.history, x.txn ≠ t

/-- While the call is open, or once it is durable, it has not been refused. -/
theorem Refused.of_alive {t : Nat} (hold : Refused db t)
    (halive : db.txns.lookup t ≠ none ∨ ∃ x ∈ db.history, x.txn = t) {r : Reply}
    (hr : ∀ e, Refusal e → r ≠ .error e)
    (hreply : db'.replies t = db.replies t ∨ db'.replies t = (db.replyOnce t r).replies t) :
    Refused db' t := by
  have hnot : ∀ e, Refusal e → db.replies t ≠ some (.error e) := by
    intro e he hre
    obtain ⟨hl, hx⟩ := hold e he hre
    rcases halive with hopen | ⟨x, hmem, hxt⟩
    · exact hopen hl
    · exact hx x hmem hxt
  intro e he hre
  exfalso
  rcases hreply with hsame | honce
  · exact hnot e he (hsame ▸ hre)
  · rw [honce] at hre
    rcases replyOnce_self db t r with ⟨-, hnew⟩ | ⟨r₀, h₀, hkept⟩
    · exact hr e he (Option.some.inj (hnew.symm.trans hre))
    · exact hnot e he (h₀.trans (hkept.symm.trans hre))

theorem refused_step {e : Event} {t : Nat} (hi : Inv db) (hok : CallOk db t)
    (h : Refused db t) (hs : step db e = some db') : Refused db' t := by
  by_cases hown : e.subject = some t
  · cases e with
    | stmt t' =>
      cases hown
      obtain ⟨τ, s, rest, hlook, -, -, -, rfl⟩ := step_stmt hs
      have hopen : db.txns.lookup t ≠ none := by rw [hlook]; exact Option.some_ne_none _
      unfold Db.runStmt
      split
      · refine h.of_alive (Or.inl hopen) (r := .ok (.committed 0)) (by simp) (Or.inl ?_)
        exact congrFun (draw_replies db s) t
      · intro e he _
        refine ⟨AList.lookup_erase _ _, ?_⟩
        intro x hx hxt
        rw [hok.closed x hx hxt] at hlook
        cases hlook
    | sendCommit t' =>
      cases hown
      obtain ⟨τ, hlook, -, -, rfl⟩ := step_sendCommit hs
      have hopen : db.txns.lookup t ≠ none := by rw [hlook]; exact Option.some_ne_none _
      exact h.of_alive (Or.inl hopen) (r := .ok (.committed 0)) (by simp) (Or.inl rfl)
    | commit t' =>
      cases hown
      obtain ⟨τ, hlook, -, rfl⟩ := step_commit hs
      have hopen : db.txns.lookup t ≠ none := by rw [hlook]; exact Option.some_ne_none _
      exact h.of_alive (Or.inl hopen) (r := .ok (.committed 0)) (by simp) (Or.inl rfl)
    | rollback t' f =>
      cases hown
      obtain ⟨τ, hlook, rfl⟩ := step_rollback hs
      have hopen : db.txns.lookup t ≠ none := by rw [hlook]; exact Option.some_ne_none _
      refine h.of_alive (Or.inl hopen) ?_ (Or.inr rfl)
      rintro e he heq
      rw [Except.error.injEq] at heq
      split at heq
      · exact not_refusal_ambiguous _ _ (heq ▸ he)
      · subst heq
        exact he
    | abandon t' f =>
      cases hown
      obtain ⟨τ, hlook, -, -, rfl⟩ := step_abandon hs
      have hopen : db.txns.lookup t ≠ none := by rw [hlook]; exact Option.some_ne_none _
      refine h.of_alive (Or.inl hopen) ?_ (Or.inr rfl)
      rintro e he heq
      rw [Except.error.injEq] at heq
      subst heq
      exact he
    | lost t' =>
      cases hown
      obtain ⟨c, hcall, rfl⟩ := step_lost hs
      refine h.of_alive ?_ ?_ (Or.inr rfl)
      · rcases hcall with ⟨τ, hlook, -, -⟩ | ⟨-, x, hx, hxt, -⟩
        · exact Or.inl (by rw [hlook]; exact Option.some_ne_none _)
        · exact Or.inr ⟨x, hx, hxt⟩
      · rintro e he heq
        rw [Except.error.injEq] at heq
        exact not_refusal_ambiguous _ _ (heq ▸ he)
    | ack t' =>
      cases hown
      obtain ⟨x, hx, hxt, rfl⟩ := step_ack hs
      exact h.of_alive (Or.inr ⟨x, hx, hxt⟩) (by simp) (Or.inr rfl)
    | _ => cases hown
  · by_cases hbegin : ∃ c, e = .begin c ∧ t = db.nextTxn
    · obtain ⟨c, rfl, rfl⟩ := hbegin
      obtain ⟨hr, hl, hx⟩ := hok.fresh (Nat.le_refl _)
      simp only [step] at hs
      split at hs
      · cases hs
        intro e he hre
        rw [show _ = db.replies db.nextTxn from rfl, hr] at hre
        cases hre
      · cases hs
        exact fun e he _ => ⟨hl, hx⟩
    · obtain ⟨hl, hr⟩ := step_other hs hown fun c hc hn => hbegin ⟨c, hc, hn⟩
      intro e he hre
      obtain ⟨hnone, hx⟩ := h e he (hr ▸ hre)
      exact ⟨hl.trans hnone, fun x hx' hxt => hx x (step_history_other hi hs hown hxt hx') hxt⟩

/-- **A call that is refused was never durable.** -/
theorem Reachable.refused (h : Reachable db) (t : Nat) : Refused db t := by
  obtain ⟨db₀, h₀, hr⟩ := h
  have hall := hr.inv (I := fun d => (Inv d ∧ ∀ t, CallOk d t) ∧ Refused d t)
    (fun _ _ _ hs hp => ⟨⟨inv_step hs hp.1.1, fun _ => callOk_step hp.1.1 hp.1.2 hs⟩,
      refused_step hp.1.1 (hp.1.2 t) hp.2 hs⟩)
    ⟨⟨h₀.inv, h₀.callOk⟩, fun e _ hre => by rw [h₀.replies] at hre; cases hre⟩
  exact hall.2

end Ukiel.Catalog
