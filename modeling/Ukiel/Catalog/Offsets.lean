/-
# Stored offsets and successful replies

What the clients that consume a log rely on: §1 says what the compare-and-sets of one committed
call do to `ingest_offsets`, §2 where a reply `Ok` comes from (the call is durable, or its very
intent already was), §3 that a transaction draws its commit id after everything that was durable
when it began.
-/
import Ukiel.Catalog.Operations

namespace Ukiel.Catalog

variable {db db' : Db} {T : Tables} {c : Call}

/-! ## 1. Compare-and-set -/

/-- The position a consumer of the partition starts from. -/
def nextOffset (T : Tables) (k : OffsetKey) : Int := (T.ingestOffsets k).getD 0

theorem advance_nil (stored : OffsetKey → Option Int) : advance c stored [] = some stored := rfl

theorem advance_cons {stored stored' : OffsetKey → Option Int} {r : OffsetRange}
    {rs : List OffsetRange} (h : advance c stored (r :: rs) = some stored') :
    (∀ n, stored (c.offsetKey r) = some n → n ≤ r.first) ∧
      advance c (Function.update stored (c.offsetKey r) (some (r.last + 1))) rs = some stored' := by
  simp only [advance] at h
  split at h
  · rename_i hall
    refine ⟨?_, h⟩
    intro n hn
    simpa [hn] using hall
  · cases h

/-- Offsets of other partitions stay. -/
theorem advance_other {k : OffsetKey} : ∀ {rs : List OffsetRange}
    {stored stored' : OffsetKey → Option Int}, advance c stored rs = some stored' →
      k ∉ rs.map c.offsetKey → stored' k = stored k
  | [], stored, stored', h, _ => by
    rw [advance_nil, Option.some.injEq] at h
    rw [h]
  | r :: rs, stored, stored', h, hk => by
    rw [List.map_cons, List.mem_cons, not_or] at hk
    rw [advance_other (advance_cons h).2 hk.2, Function.update_of_ne hk.1]

/-- **A committed range**, when the call names each partition once: the stored offset had not
passed it, and now is just behind it. -/
theorem advance_range {r : OffsetRange} : ∀ {rs : List OffsetRange}
    {stored stored' : OffsetKey → Option Int}, advance c stored rs = some stored' →
      (rs.map c.offsetKey).Nodup → r ∈ rs →
      (∀ n, stored (c.offsetKey r) = some n → n ≤ r.first) ∧
        stored' (c.offsetKey r) = some (r.last + 1)
  | [], _, _, _, _, hr => by cases hr
  | r' :: rs, stored, stored', h, hnd, hr => by
    obtain ⟨hle, hrest⟩ := advance_cons h
    rw [List.map_cons, List.nodup_cons] at hnd
    rcases List.mem_cons.mp hr with rfl | hr
    · rw [advance_other hrest hnd.1, Function.update_self]
      exact ⟨hle, rfl⟩
    · have hne : c.offsetKey r ≠ c.offsetKey r' := by
        intro he
        exact hnd.1 (he ▸ List.mem_map_of_mem hr)
      obtain ⟨hle', hnew⟩ := advance_range hrest hnd.2 hr
      rw [Function.update_of_ne hne] at hle'
      exact ⟨hle', hnew⟩

/-! ## 2. Where `Ok` comes from -/

/-- A statement that returns `Ok` found the call's own intent. -/
theorem execStmt_alreadyApplied {env : Env} {w : Writes} {s : Stmt} {res : CommitResult}
    (h : execStmt T c env w s = .error (.ok res)) :
    ∃ i id, c.identity = some i ∧ DurableUnder T i id := by
  have hfound : ∀ i id, lookupInTx T i = .ok (some id) → DurableUnder T i id := by
    intro i id hl
    unfold lookupInTx at hl
    cases hrow : T.operationRow i with
    | none => simp [hrow, reconcile] at hl
    | some r =>
      rw [hrow] at hl
      obtain ⟨hfp, hid⟩ := reconcile_some_iff.mp hl
      obtain ⟨hmem, hht, hk⟩ := operationRow_mem hrow
      exact ⟨r, hmem, hid, hht, hk, hfp⟩
  cases s with
  | replay =>
    simp only [execStmt] at h
    split at h
    · cases h
    · rename_i i hi
      split at h
      · cases h
      · rename_i id hl
        exact ⟨i, id, hi, hfound i id hl⟩
      · cases h
  | insertCommit =>
    simp only [execStmt] at h
    split at h
    · split at h
      · cases h
      · rename_i i hi
        split at h
        · cases h
        · rename_i id hl
          exact ⟨i, id, hi, hfound i id hl⟩
        · cases h
    · cases h
  | lockLease lease | fenceParts lease | tombstone lease | casOffset lease =>
    simp only [execStmt] at h
    repeat' split at h
    all_goals cases h
  | lockShared | nextval | insertPart _ | unpend _ => cases h

/-- A caller is told nothing but the first answer. -/
theorem replyOnce_ok {t : Nat} {r : Reply} {res : CommitResult}
    (h : (db.replyOnce t r).replies t = some (.ok res)) :
    db.replies t = some (.ok res) ∨ r = .ok res := by
  rcases replyOnce_self db t r with ⟨-, hnew⟩ | ⟨r₀, h₀, hkept⟩
  · exact Or.inr (Option.some.inj (hnew.symm.trans h))
  · exact Or.inl (h₀.trans (hkept.symm.trans h))

/-- **A caller who hears `Ok`** heard it before, or is durable, or has just been found durable
under its own intent. -/
theorem step_reply_ok {e : Event} {t : Nat} {res : CommitResult} (h : step db e = some db')
    (hr : db'.replies t = some (.ok res)) :
    db.replies t = some (.ok res) ∨ (∃ x ∈ db.history, x.txn = t) ∨
      ∃ τ i id, db.txns.lookup t = some τ ∧ τ.call.identity = some i ∧
        DurableUnder db.tables i id := by
  by_cases hown : e.subject = some t
  · cases e with
    | stmt t' =>
      cases hown
      obtain ⟨τ, s, rest, hlook, -, -, -, rfl⟩ := step_stmt h
      unfold Db.runStmt at hr
      split at hr
      · left
        rw [← hr]
        exact (congrFun (draw_replies db s) t).symm
      · rename_i r he
        simp only [Db.reply, Function.update_self, Option.some.injEq] at hr
        subst hr
        obtain ⟨i, id, hi, hd⟩ := execStmt_alreadyApplied he
        exact Or.inr (Or.inr ⟨τ, i, id, hlook, hi, hd⟩)
    | sendCommit t' =>
      cases hown
      obtain ⟨τ, -, -, -, rfl⟩ := step_sendCommit h
      exact Or.inl hr
    | commit t' =>
      cases hown
      obtain ⟨τ, -, -, rfl⟩ := step_commit h
      exact Or.inl hr
    | rollback t' f =>
      cases hown
      obtain ⟨τ, -, rfl⟩ := step_rollback h
      exact Or.inl ((replyOnce_ok hr).resolve_right (by simp))
    | abandon t' f =>
      cases hown
      obtain ⟨τ, -, -, -, rfl⟩ := step_abandon h
      exact Or.inl ((replyOnce_ok hr).resolve_right (by simp))
    | lost t' =>
      cases hown
      obtain ⟨c, -, rfl⟩ := step_lost h
      exact Or.inl ((replyOnce_ok hr).resolve_right (by simp))
    | ack t' =>
      cases hown
      obtain ⟨x, hx, hxt, rfl⟩ := step_ack h
      exact Or.inr (Or.inl ⟨x, hx, hxt⟩)
    | _ => cases hown
  · by_cases hbegin : ∃ c, e = .begin c ∧ t = db.nextTxn
    · obtain ⟨c, rfl, rfl⟩ := hbegin
      simp only [step] at h
      split at h
      · cases h
        exact Or.inl hr
      · cases h
        simp [Db.reply, Call.mismatch] at hr
    · obtain ⟨-, hsame⟩ := step_other h hown fun c hc hn => hbegin ⟨c, hc, hn⟩
      exact Or.inl (hsame ▸ hr)

/-! ## 3. Ids drawn later -/

/-- The commit id of the open transaction, drawn or still to be drawn, is past `n`. -/
def Past (db : Db) (n : Int) (τ : Txn) : Prop :=
  n < db.commitSeq ∧ ∀ id, τ.w.cid = some id → n < id

@[simp] theorem replyOnce_commitSeq (db : Db) (t : Nat) (r : Reply) :
    (db.replyOnce t r).commitSeq = db.commitSeq := by
  obtain ⟨rs, heq⟩ := replyOnce_eq db t r
  rw [heq]

theorem step_commitSeq {e : Event} (h : step db e = some db') : db.commitSeq ≤ db'.commitSeq := by
  cases e with
  | stmt t =>
    obtain ⟨τ, s, rest, -, -, -, -, rfl⟩ := step_stmt h
    unfold Db.runStmt
    split
    · exact le_draw_commitSeq db s
    · exact Int.le_refl _
  | rollback _ _ | abandon _ _ | lost _ | ack _ =>
    simp only [step] at h
    repeat' split at h
    all_goals cases h
    all_goals simp
  | installLease k =>
    simp only [step] at h
    repeat' split at h
    all_goals cases h
    unfold Db.installLease
    split
    · exact Int.le_refl _
    · dsimp only
      split <;> exact Int.le_refl _
  | _ =>
    simp only [step] at h
    repeat' split at h
    all_goals cases h
    all_goals exact Int.le_refl _

/-- A statement draws the next id or leaves the id alone. -/
theorem execStmt_cid {env : Env} {w w' : Writes} {s : Stmt}
    (h : execStmt T c env w s = .ok w') : w'.cid = w.cid ∨ w'.cid = some env.nextCommit := by
  rw [execStmt_effect h]
  cases s <;> simp [Stmt.effect]

theorem Past.step {e : Event} {t : Nat} {τ τ' : Txn} {n : Int} (hp : Past db n τ)
    (h : step db e = some db') (hi : Inv db) (hlook : db.txns.lookup t = some τ)
    (hlook' : db'.txns.lookup t = some τ') : Past db' n τ' := by
  refine ⟨Int.lt_of_lt_of_le hp.1 (step_commitSeq h), ?_⟩
  intro id hid
  rcases step_txn h hlook' with
    ⟨τ₁, hl, -, hw⟩ | ⟨c, -, ht, -⟩ | ⟨τ₁, s, rest, w, -, hl, -, hexec, rfl⟩
  · rw [hlook] at hl
    cases hl
    exact hp.2 id (hw ▸ hid)
  · exact absurd ht (Nat.ne_of_lt (hi.txn_lt t τ hlook))
  · rw [hlook] at hl
    cases hl
    rcases execStmt_cid hexec with hsame | hnew
    · exact hp.2 id (hsame ▸ hid)
    · rw [hnew, Option.some.injEq] at hid
      exact hid ▸ hp.1

end Ukiel.Catalog
