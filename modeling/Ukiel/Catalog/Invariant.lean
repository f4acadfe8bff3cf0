/-
# The invariant of the catalog machine

Every open transaction's statements still hold on the tables as they are now; no two
transactions hold the same lock or the same fresh id; the feed barrier is respected, so a
published head is behind every id that can still become visible.  §2 shows that every event
keeps this, with two rules that carry most of them: `Inv.frame` for events that open no
transaction and continue none, `Inv.insert` for those that do only that.
-/
import Ukiel.Catalog.Locks
import Ukiel.Catalog.Machine

namespace Ukiel.Catalog

variable {T T' : Tables} {c : Call} {w w' : Writes} {db db' : Db}

/-! ## 1. The invariant -/

/-- What the schema guarantees of the stored rows: ids are distinct and behind their
sequences, and an operation key is used once per hypertable. -/
structure Stored (db : Db) : Prop where
  seq_pos : 0 < db.commitSeq
  commit_pos : ∀ r ∈ db.tables.commits, 0 < r.id
  commit_lt : ∀ r ∈ db.tables.commits, r.id < db.commitSeq
  commit_nodup : (db.tables.commits.map CommitRow.id).Nodup
  key_unique : ∀ r₁ ∈ db.tables.commits, ∀ r₂ ∈ db.tables.commits, ∀ k,
    r₁.hypertableId = r₂.hypertableId → r₁.idempotencyKey = some k →
      r₂.idempotencyKey = some k → r₁ = r₂
  part_lt : ∀ p ∈ db.tables.parts, p.id < db.partSeq
  part_nodup : (db.tables.parts.map PartRow.id).Nodup

/-- Two calls carry the same operation key on the same hypertable. -/
def SameKey (c c' : Call) : Prop :=
  c.hypertableId = c'.hypertableId ∧
    ∃ i j, c.identity = some i ∧ c'.identity = some j ∧ i.key = j.key

theorem SameKey.symm {c c' : Call} (h : SameKey c c') : SameKey c' c := by
  obtain ⟨hht, i, j, hi, hj, hk⟩ := h
  exact ⟨hht.symm, j, i, hj, hi, hk.symm⟩

theorem keyed_commitRow {c c' : Call} {id at' : Int} :
    c.Keyed (c'.commitRow id at') ↔ SameKey c c' := by
  constructor
  · rintro ⟨hht, i, hi, hk⟩
    obtain ⟨j, hj, hjk⟩ := Option.map_eq_some_iff.mp hk
    exact ⟨hht.symm, i, j, hi, hj, hjk.symm⟩
  · rintro ⟨hht, i, j, hi, hj, hk⟩
    refine ⟨hht.symm, i, hi, ?_⟩
    simp [Call.commitRow, hj, hk]

/-- **An open transaction.**  The statements it has sent still hold on the tables as they are
now, and the ids it has drawn are its own. -/
structure Txn.Inv (db : Db) (τ : Txn) : Prop where
  scope : τ.call.Scoped
  ran : ∃ done, done.map Prod.fst ++ τ.rest = plan τ.call ∧
    execAll (db.tables.hide τ.call) τ.call done {} = .ok τ.w
  sent_rest : τ.sent = true → τ.rest = []
  cid_shared : ∀ id, τ.w.cid = some id → τ.w.shared = true
  cid_fresh : ∀ id, τ.w.cid = some id → 0 < id ∧ id < db.commitSeq ∧
    ∀ r ∈ db.tables.commits, r.id ≠ id
  row : ∀ r, τ.w.row = some r → (∃ id at', r = τ.call.commitRow id at') ∧
    ∀ r' ∈ db.tables.commits, ¬ τ.call.Keyed r'
  inserted_fresh : ∀ p ∈ τ.w.inserted, p.id < db.partSeq ∧ ∀ q ∈ db.tables.parts, q.id ≠ p.id
  inserted_nodup : (τ.w.inserted.map PartRow.id).Nodup

/-- **Two open transactions** share no lock and no fresh id. -/
structure Excl (τ₁ τ₂ : Txn) : Prop where
  cid : ∀ id, τ₁.w.cid = some id → τ₂.w.cid ≠ some id
  row : τ₁.w.row.isSome → τ₂.w.row.isSome → ¬ SameKey τ₁.call τ₂.call
  inserted : ∀ p ∈ τ₁.w.inserted, ∀ q ∈ τ₂.w.inserted, p.id ≠ q.id
  tombstoned : ∀ i ∈ τ₁.w.tombstoned, i ∉ τ₂.w.tombstoned
  offsets : ∀ k ∈ τ₁.w.offsets.map Prod.fst, k ∉ τ₂.w.offsets.map Prod.fst
  leases : ∀ k ∈ τ₁.w.leaseLocks, k ∉ τ₂.w.leaseLocks

theorem Excl.symm {τ₁ τ₂ : Txn} (h : Excl τ₁ τ₂) : Excl τ₂ τ₁ where
  cid id h₂ h₁ := h.cid id h₁ h₂
  row h₂ h₁ hk := h.row h₁ h₂ hk.symm
  inserted p hp q hq he := h.inserted q hq p hp he.symm
  tombstoned i h₂ h₁ := h.tombstoned i h₁ h₂
  offsets k h₂ h₁ := h.offsets k h₁ h₂
  leases k h₂ h₁ := h.leases k h₁ h₂

/-- **The invariant of the machine.** -/
structure Inv (db : Db) : Prop where
  stored : Stored db
  txn : ∀ t τ, db.txns.lookup t = some τ → τ.Inv db
  txn_lt : ∀ t τ, db.txns.lookup t = some τ → t < db.nextTxn
  excl : ∀ t₁ t₂ τ₁ τ₂, t₁ ≠ t₂ → db.txns.lookup t₁ = some τ₁ → db.txns.lookup t₂ = some τ₂ →
    Excl τ₁ τ₂
  /-- The exclusive barrier and the shared one are never held together. -/
  barrier : ∀ t τ, db.txns.lookup t = some τ → τ.w.shared = true →
    ∀ b ∈ db.barrier.entries, b.2 ≠ τ.call.hypertableId
  /-- A published head is behind every id that can still become visible. -/
  heads : ∀ h H, (h, H) ∈ db.heads → H < db.commitSeq ∧
    ∀ t τ, db.txns.lookup t = some τ → τ.call.hypertableId = h → ∀ id, τ.w.cid = some id → H < id

theorem mem_txns {e : Sigma fun _ : Nat => Txn} :
    e ∈ db.txns.entries ↔ db.txns.lookup e.1 = some e.2 := by
  rw [← Option.mem_def, AList.mem_lookup_iff]

theorem lookup_insert_cases {m : AList fun _ : Nat => Txn} {t t' : Nat} {τ τ' : Txn}
    (h : (m.insert t τ).lookup t' = some τ') :
    (t' = t ∧ τ' = τ) ∨ (t' ≠ t ∧ m.lookup t' = some τ') := by
  by_cases ht : t' = t
  · subst ht
    rw [AList.lookup_insert, Option.some.injEq] at h
    exact Or.inl ⟨rfl, h.symm⟩
  · rw [AList.lookup_insert_ne ht] at h
    exact Or.inr ⟨ht, h⟩

theorem lookup_erase_cases {m : AList fun _ : Nat => Txn} {t t' : Nat} {τ' : Txn}
    (h : (m.erase t).lookup t' = some τ') : t' ≠ t ∧ m.lookup t' = some τ' := by
  by_cases ht : t' = t
  · subst ht
    rw [AList.lookup_erase] at h
    cases h
  · rw [AList.lookup_erase_ne ht] at h
    exact ⟨ht, h⟩

/-! ## 2. Every event keeps it -/

theorem Keeps.refl (hnd : (T.parts.map PartRow.id).Nodup) (w : Writes) : Keeps w T T where
  leases _ _ := rfl
  offsets _ _ := rfl
  parts p hp := ⟨p, hp, rfl, rfl, rfl, fun _ => rfl⟩
  nodup := hnd
  nodup' := hnd

/-- An open transaction survives a change of the tables that leaves its locks alone, adds no
commit under its id or its (inserted) key, and no part under one of its part ids. -/
theorem Txn.Inv.transport {τ : Txn} (h : τ.Inv db) (hk : Keeps τ.w db.tables db'.tables)
    (hseq : db.commitSeq ≤ db'.commitSeq) (hpseq : db.partSeq ≤ db'.partSeq)
    (hc : ∀ r ∈ db'.tables.commits, r ∈ db.tables.commits ∨
      (∀ id, τ.w.cid = some id → r.id ≠ id) ∧ (τ.w.row.isSome → ¬ τ.call.Keyed r))
    (hp : ∀ q ∈ db'.tables.parts, (∃ q₀ ∈ db.tables.parts, q₀.id = q.id) ∨
      ∀ p ∈ τ.w.inserted, q.id ≠ p.id) : τ.Inv db' where
  scope := h.scope
  ran := by
    obtain ⟨done, hd, hr⟩ := h.ran
    exact ⟨done, hd, execAll_keeps h.scope hk hr⟩
  sent_rest := h.sent_rest
  cid_shared := h.cid_shared
  cid_fresh id hid := by
    obtain ⟨hpos, hlt, hfresh⟩ := h.cid_fresh id hid
    refine ⟨hpos, by omega, ?_⟩
    intro r hr
    rcases hc r hr with hr | ⟨hne, -⟩
    · exact hfresh r hr
    · exact hne id hid
  row r hr := by
    obtain ⟨heq, hfree⟩ := h.row r hr
    refine ⟨heq, ?_⟩
    intro r' hr'
    rcases hc r' hr' with hr' | ⟨-, hne⟩
    · exact hfree r' hr'
    · exact hne (by rw [hr]; rfl)
  inserted_fresh p hpi := by
    obtain ⟨hlt, hfresh⟩ := h.inserted_fresh p hpi
    refine ⟨by omega, ?_⟩
    intro q hq
    rcases hp q hq with ⟨q₀, hq₀, he⟩ | hne
    · rw [← he]
      exact hfresh q₀ hq₀
    · exact hne p hpi
  inserted_nodup := h.inserted_nodup

theorem Stored.of_tables_eq (h : Stored db) (hT : db'.tables = db.tables)
    (hseq : db.commitSeq ≤ db'.commitSeq) (hpseq : db.partSeq ≤ db'.partSeq) : Stored db' where
  seq_pos := by have := h.seq_pos; omega
  commit_pos r hr := h.commit_pos r (hT ▸ hr)
  commit_lt r hr := by have := h.commit_lt r (hT ▸ hr); omega
  commit_nodup := by rw [hT]; exact h.commit_nodup
  key_unique := by rw [hT]; exact h.key_unique
  part_lt p hp := by have := h.part_lt p (hT ▸ hp); omega
  part_nodup := by rw [hT]; exact h.part_nodup

theorem Txn.Inv.of_tables_eq {τ : Txn} (hs : Stored db) (h : τ.Inv db)
    (hT : db'.tables = db.tables) (hseq : db.commitSeq ≤ db'.commitSeq)
    (hpseq : db.partSeq ≤ db'.partSeq) : τ.Inv db' := by
  refine h.transport ?_ hseq hpseq ?_ ?_
  · rw [hT]
    exact Keeps.refl hs.part_nodup _
  · intro r hr
    exact Or.inl (hT ▸ hr)
  · intro q hq
    exact Or.inl ⟨q, hT ▸ hq, rfl⟩

/-- **The frame rule**: an event that opens no transaction and continues none. -/
theorem Inv.frame (hi : Inv db) (hst : Stored db') (hnext : db.nextTxn ≤ db'.nextTxn)
    (hseq : db.commitSeq ≤ db'.commitSeq)
    (hsub : ∀ t τ, db'.txns.lookup t = some τ → db.txns.lookup t = some τ)
    (hkeep : ∀ t τ, db'.txns.lookup t = some τ → τ.Inv db')
    (hbar : ∀ b ∈ db'.barrier.entries, b ∈ db.barrier.entries ∨
      ∀ t τ, db.txns.lookup t = some τ → τ.w.shared = true → b.2 ≠ τ.call.hypertableId)
    (hheads : ∀ h H, (h, H) ∈ db'.heads → (h, H) ∈ db.heads ∨ H < db.commitSeq ∧
      ∀ t τ, db.txns.lookup t = some τ → τ.call.hypertableId = h → τ.w.cid = none) :
    Inv db' where
  stored := hst
  txn := hkeep
  txn_lt t τ h := by have := hi.txn_lt t τ (hsub t τ h); omega
  excl t₁ t₂ τ₁ τ₂ hne h₁ h₂ := hi.excl t₁ t₂ τ₁ τ₂ hne (hsub _ _ h₁) (hsub _ _ h₂)
  barrier t τ h hshared b hb := by
    rcases hbar b hb with hb | hb
    · exact hi.barrier t τ (hsub _ _ h) hshared b hb
    · exact hb t τ (hsub _ _ h) hshared
  heads h H hH := by
    rcases hheads h H hH with hH | ⟨hlt, hnone⟩
    · obtain ⟨hlt, hall⟩ := hi.heads h H hH
      exact ⟨by omega, fun t τ hτ => hall t τ (hsub _ _ hτ)⟩
    · refine ⟨by omega, ?_⟩
      intro t τ hτ hht id hid
      rw [hnone t τ (hsub _ _ hτ) hht] at hid
      cases hid

/-- The frame rule for events that do not touch the tables either. -/
theorem Inv.frame_tables (hi : Inv db) (hT : db'.tables = db.tables)
    (hnext : db.nextTxn ≤ db'.nextTxn) (hseq : db.commitSeq ≤ db'.commitSeq)
    (hpseq : db.partSeq ≤ db'.partSeq)
    (hsub : ∀ t τ, db'.txns.lookup t = some τ → db.txns.lookup t = some τ)
    (hbar : ∀ b ∈ db'.barrier.entries, b ∈ db.barrier.entries ∨
      ∀ t τ, db.txns.lookup t = some τ → τ.w.shared = true → b.2 ≠ τ.call.hypertableId)
    (hheads : ∀ h H, (h, H) ∈ db'.heads → (h, H) ∈ db.heads ∨ H < db.commitSeq ∧
      ∀ t τ, db.txns.lookup t = some τ → τ.call.hypertableId = h → τ.w.cid = none) :
    Inv db' :=
  hi.frame (hi.stored.of_tables_eq hT hseq hpseq) hnext hseq hsub
    (fun t τ h => (hi.txn t τ (hsub t τ h)).of_tables_eq hi.stored hT hseq hpseq) hbar hheads

/-- **The other rule**: one transaction is opened or continued, and nothing else changes. -/
theorem Inv.insert (hi : Inv db) {t : Nat} {τ : Txn} (hT : db'.tables = db.tables)
    (htx : db'.txns = db.txns.insert t τ) (hnext : db.nextTxn ≤ db'.nextTxn)
    (hseq : db.commitSeq ≤ db'.commitSeq) (hpseq : db.partSeq ≤ db'.partSeq)
    (hb : db'.barrier = db.barrier) (hh : db'.heads = db.heads)
    (hτ : τ.Inv db') (ht : t < db'.nextTxn)
    (hexcl : ∀ t' τ', t' ≠ t → db.txns.lookup t' = some τ' → Excl τ τ')
    (hbar : τ.w.shared = true → ∀ b ∈ db.barrier.entries, b.2 ≠ τ.call.hypertableId)
    (hheads : ∀ H, (τ.call.hypertableId, H) ∈ db.heads → ∀ id, τ.w.cid = some id → H < id) :
    Inv db' where
  stored := hi.stored.of_tables_eq hT hseq hpseq
  txn t' τ' h := by
    rw [htx] at h
    rcases lookup_insert_cases h with ⟨-, rfl⟩ | ⟨-, h⟩
    · exact hτ
    · exact (hi.txn t' τ' h).of_tables_eq hi.stored hT hseq hpseq
  txn_lt t' τ' h := by
    rw [htx] at h
    rcases lookup_insert_cases h with ⟨rfl, -⟩ | ⟨-, h⟩
    · exact ht
    · have := hi.txn_lt t' τ' h
      omega
  excl t₁ t₂ τ₁ τ₂ hne h₁ h₂ := by
    rw [htx] at h₁ h₂
    rcases lookup_insert_cases h₁ with ⟨he₁, rfl⟩ | ⟨hne₁, hl₁⟩
    · rcases lookup_insert_cases h₂ with ⟨he₂, -⟩ | ⟨hne₂, hl₂⟩
      · exact absurd (he₁.trans he₂.symm) hne
      · exact hexcl t₂ τ₂ hne₂ hl₂
    · rcases lookup_insert_cases h₂ with ⟨-, rfl⟩ | ⟨-, hl₂⟩
      · exact (hexcl t₁ τ₁ hne₁ hl₁).symm
      · exact hi.excl t₁ t₂ τ₁ τ₂ hne hl₁ hl₂
  barrier t' τ' h hshared := by
    rw [htx] at h
    rw [hb]
    rcases lookup_insert_cases h with ⟨-, rfl⟩ | ⟨-, h⟩
    · exact hbar hshared
    · exact hi.barrier t' τ' h hshared
  heads h H hH := by
    rw [hh] at hH
    obtain ⟨hlt, hall⟩ := hi.heads h H hH
    refine ⟨by omega, ?_⟩
    intro t' τ' hl hht id hid
    rw [htx] at hl
    rcases lookup_insert_cases hl with ⟨-, rfl⟩ | ⟨-, hl⟩
    · subst hht
      exact hheads H hH id hid
    · exact hall t' τ' hl hht id hid

/-- Opening a transaction, or refusing to. -/
theorem inv_begin {c : Call} (hi : Inv db) (h : step db (.begin c) = some db') : Inv db' := by
  simp only [step] at h
  split at h
  · rename_i hs
    cases h
    refine hi.insert rfl rfl (Nat.le_succ _) (Int.le_refl _) (Int.le_refl _) rfl rfl ?_
      (Nat.lt_succ_self _) ?_ ?_ ?_
    · exact
        { scope := hs
          ran := ⟨[], rfl, rfl⟩
          sent_rest := by simp
          cid_shared := by simp
          cid_fresh := by simp
          row := by simp
          inserted_fresh := by simp
          inserted_nodup := by simp }
    · intro t' τ' _ _
      exact ⟨by simp, by simp, by simp, by simp, by simp, by simp⟩
    · simp
    · simp
  · cases h
    exact hi.frame_tables rfl (Nat.le_succ _) (Int.le_refl _) (Int.le_refl _)
      (fun _ _ h => h) (fun _ h => Or.inl h) (fun _ _ h => Or.inl h)

/-- Every statement but the first runs under the shared barrier. -/
theorem plan_shared {done : List (Stmt × Env)} {s : Stmt} {rest : List Stmt}
    (hd : done.map Prod.fst ++ s :: rest = plan c) (hs : s ≠ .lockShared)
    (h : execAll T c done {} = .ok w) : w.shared = true := by
  cases done with
  | nil =>
    simp only [plan, List.map_nil, List.nil_append, List.cons.injEq] at hd
    exact absurd hd.1 hs
  | cons d done =>
    obtain ⟨s₀, env⟩ := d
    simp only [plan, List.map_cons, List.cons_append, List.cons.injEq] at hd
    obtain ⟨rfl, -⟩ := hd
    obtain ⟨w₁, h₁, h₂⟩ := execAll_cons.mp h
    cases h₁
    exact execAll_shared h₂ rfl

theorem lookup_entry {t : Nat} {τ : Txn} (h : db.txns.lookup t = some τ) :
    (⟨t, τ⟩ : Sigma fun _ : Nat => Txn) ∈ db.txns.entries :=
  mem_txns.mpr h

/-- A statement that does not wait finds none of the locks it takes in other hands. -/
theorem not_blocks {t t' : Nat} {τ' : Txn} {s : Stmt} (hw : ¬ db.waits t c s) (hne : t' ≠ t)
    (h : db.txns.lookup t' = some τ') : ¬ τ'.blocks c s :=
  fun hb => hw (Or.inl ⟨⟨t', τ'⟩, lookup_entry h, hne, hb⟩)

@[simp] theorem draw_tables (db : Db) (s : Stmt) : (db.draw s).tables = db.tables := by
  cases s <;> rfl

@[simp] theorem draw_txns (db : Db) (s : Stmt) : (db.draw s).txns = db.txns := by
  cases s <;> rfl

@[simp] theorem draw_history (db : Db) (s : Stmt) : (db.draw s).history = db.history := by
  cases s <;> rfl

@[simp] theorem draw_nextTxn (db : Db) (s : Stmt) : (db.draw s).nextTxn = db.nextTxn := by
  cases s <;> rfl

@[simp] theorem draw_barrier (db : Db) (s : Stmt) : (db.draw s).barrier = db.barrier := by
  cases s <;> rfl

@[simp] theorem draw_heads (db : Db) (s : Stmt) : (db.draw s).heads = db.heads := by
  cases s <;> rfl

theorem le_draw_commitSeq (db : Db) (s : Stmt) : db.commitSeq ≤ (db.draw s).commitSeq := by
  cases s <;> simp only [Db.draw] <;> omega

theorem le_draw_partSeq (db : Db) (s : Stmt) : db.partSeq ≤ (db.draw s).partSeq := by
  cases s <;> simp only [Db.draw] <;> omega

section Statement

variable {t : Nat} {τ : Txn} {s : Stmt} {rest : List Stmt}

/-- The transaction after a statement. -/
def Txn.after (db : Db) (τ : Txn) (s : Stmt) (rest : List Stmt) : Txn :=
  { τ with rest := rest, w := s.effect τ.call (db.env τ) τ.w }

/-- The invariant of the transaction that ran the statement. -/
theorem txnInv_after (hi : Inv db) (hτ : τ.Inv db) (hrest : τ.rest = s :: rest)
    (he : execStmt db.tables τ.call (db.env τ) τ.w s = .ok w) (hT : db'.tables = db.tables)
    (hseq : db'.commitSeq = (db.draw s).commitSeq) (hpseq : db'.partSeq = (db.draw s).partSeq) :
    (τ.after db s rest).Inv db' := by
  obtain ⟨done, hd, hr⟩ := hτ.ran
  have hle := le_draw_commitSeq db s
  have hple := le_draw_partSeq db s
  refine
    { scope := hτ.scope
      ran := ⟨done ++ [(s, db.env τ)], ?_, ?_⟩
      sent_rest := ?_
      cid_shared := ?_
      cid_fresh := ?_
      row := ?_
      inserted_fresh := ?_
      inserted_nodup := ?_ }
  · rw [List.map_append, List.append_assoc]
    rw [hrest] at hd
    exact hd
  · rw [hT]
    have hstmt := execStmt_hide hτ.scope he
    rw [execStmt_effect he] at hstmt
    exact execAll_append.mpr ⟨τ.w, hr, execAll_singleton.mpr hstmt⟩
  · intro hsent
    rw [hτ.sent_rest hsent] at hrest
    cases hrest
  · intro id hid
    by_cases hs : s = .nextval
    · subst hs
      rw [hrest] at hd
      have hsh : τ.w.shared = true := plan_shared hd (by simp) hr
      exact hsh
    · have hsh : τ.w.shared = true := by
        refine hτ.cid_shared id ?_
        cases s <;> first | exact absurd rfl hs | exact hid
      cases s <;> first | exact hsh | rfl
  · intro id hid
    rw [hT, hseq]
    by_cases hs : s = .nextval
    · subst hs
      simp only [Txn.after, Stmt.effect, Db.env, Option.some.injEq] at hid
      subst hid
      refine ⟨hi.stored.seq_pos, by simp only [Db.draw]; omega, ?_⟩
      intro r hr' heq
      have := hi.stored.commit_lt r hr'
      omega
    · have hid' : τ.w.cid = some id := by
        cases s <;> first | exact absurd rfl hs | exact hid
      obtain ⟨hpos, hlt, hfresh⟩ := hτ.cid_fresh id hid'
      exact ⟨hpos, by omega, hfresh⟩
  · intro r hr'
    rw [hT]
    by_cases hs : s = .insertCommit
    · subst hs
      simp only [Txn.after, Stmt.effect, Option.some.injEq] at hr'
      exact ⟨⟨_, _, hr'.symm⟩, (execStmt_insertCommit he).1⟩
    · refine hτ.row r ?_
      cases s <;> first | exact absurd rfl hs | exact hr'
  · intro p hp
    rw [hT, hpseq]
    have hold : ∀ q ∈ τ.w.inserted,
        q.id < (db.draw s).partSeq ∧ ∀ q' ∈ db.tables.parts, q'.id ≠ q.id := by
      intro q hq
      obtain ⟨hlt, hfresh⟩ := hτ.inserted_fresh q hq
      exact ⟨by omega, hfresh⟩
    cases s with
    | insertPart part =>
      simp only [Txn.after, Stmt.effect, List.mem_append, List.mem_singleton] at hp
      rcases hp with hp | rfl
      · exact hold p hp
      · refine ⟨by simp only [Db.draw, Db.env]; omega, ?_⟩
        intro q hq heq
        have := hi.stored.part_lt q hq
        simp only [Db.env] at heq
        omega
    | _ => exact hold p hp
  · cases s with
    | insertPart part =>
      simp only [Txn.after, Stmt.effect, List.map_append, List.map_cons, List.map_nil]
      refine List.nodup_append.mpr ⟨hτ.inserted_nodup, List.nodup_singleton _, ?_⟩
      intro i hi' j hj heq
      obtain ⟨q, hq, rfl⟩ := List.mem_map.mp hi'
      have := (hτ.inserted_fresh q hq).1
      simp only [List.mem_singleton, Db.env] at hj
      omega
    | _ => exact hτ.inserted_nodup

/-- The statement took no lock and no id another transaction holds. -/
theorem Excl.after {t' : Nat} {τ' : Txn} (hi : Inv db) (hlook : db.txns.lookup t = some τ)
    (hw : ¬ db.waits t τ.call s) (hne : t' ≠ t) (h : db.txns.lookup t' = some τ') :
    Excl (τ.after db s rest) τ' := by
  have hb := not_blocks hw hne h
  have hx := hi.excl t t' τ τ' hne.symm hlook h
  have hτ' := hi.txn t' τ' h
  cases s with
  | lockShared | replay | fenceParts _ | unpend _ => exact ⟨hx.1, hx.2, hx.3, hx.4, hx.5, hx.6⟩
  | lockLease lease =>
    refine ⟨hx.1, hx.2, hx.3, hx.4, hx.5, ?_⟩
    intro k hk
    rcases List.mem_cons.mp hk with rfl | hk
    · exact hb
    · exact hx.leases k hk
  | nextval =>
    refine ⟨?_, hx.2, hx.3, hx.4, hx.5, hx.6⟩
    intro id hid hid'
    simp only [Txn.after, Stmt.effect, Db.env, Option.some.injEq] at hid
    have := (hτ'.cid_fresh id hid').2.1
    omega
  | insertCommit =>
    refine ⟨hx.1, ?_, hx.3, hx.4, hx.5, hx.6⟩
    intro _ hsome hk
    obtain ⟨r, hr⟩ := Option.isSome_iff_exists.mp hsome
    obtain ⟨⟨id, at', rfl⟩, -⟩ := hτ'.row r hr
    exact hb ⟨_, by rw [hr]; exact List.mem_singleton_self _, keyed_commitRow.mpr hk⟩
  | tombstone ids =>
    refine ⟨hx.1, hx.2, hx.3, ?_, hx.5, hx.6⟩
    intro i hmem
    rcases List.mem_append.mp hmem with hmem | hmem
    · exact hx.tombstoned i hmem
    · exact fun hmem' => hb ⟨i, hmem, hmem'⟩
  | insertPart part =>
    refine ⟨hx.1, hx.2, ?_, hx.4, hx.5, hx.6⟩
    intro p hp q hq heq
    rcases List.mem_append.mp hp with hp | hp
    · exact hx.inserted p hp q hq heq
    · have := (hτ'.inserted_fresh q hq).1
      rw [List.mem_singleton] at hp
      subst hp
      simp only [Db.env] at heq
      omega
  | casOffset r =>
    refine ⟨hx.1, hx.2, hx.3, hx.4, ?_, hx.6⟩
    intro k hk
    rcases List.mem_cons.mp hk with rfl | hk
    · exact hb
    · exact hx.offsets k hk

end Statement

/-- A statement, whether it goes on or returns. -/
theorem inv_stmt {t : Nat} (hi : Inv db) (h : step db (.stmt t) = some db') : Inv db' := by
  simp only [step] at h
  split at h
  · cases h
  · rename_i τ hlook
    split at h
    · cases h
    · rename_i s rest hrest
      split at h
      · rename_i hg
        obtain ⟨-, hw⟩ := hg
        simp only [Option.some.injEq] at h
        subst h
        have hτ := hi.txn t τ hlook
        unfold Db.runStmt
        split
        · rename_i w he
          have hw' : ({ τ with rest := rest, w := w } : Txn) = τ.after db s rest := by
            rw [execStmt_effect he]
            rfl
          rw [hw']
          refine hi.insert (draw_tables _ _) rfl (by simp) (le_draw_commitSeq _ _)
            (le_draw_partSeq _ _) (draw_barrier _ _) (draw_heads _ _)
            (txnInv_after hi hτ hrest he (draw_tables _ _) rfl rfl) ?_ ?_ ?_ ?_
          · simpa using hi.txn_lt t τ hlook
          · exact fun t' τ' hne h' => Excl.after hi hlook hw hne h'
          · intro hshared b hb heq
            by_cases hs : s = .lockShared
            · exact hw (Or.inr ⟨hs, b, hb, heq⟩)
            · refine hi.barrier t τ hlook ?_ b hb heq
              cases s <;> first | exact absurd rfl hs | exact hshared
          · intro H hH id hid
            by_cases hs : s = .nextval
            · subst hs
              simp only [Txn.after, Stmt.effect, Db.env, Option.some.injEq] at hid
              rw [← hid]
              exact (hi.heads _ H hH).1
            · refine (hi.heads _ H hH).2 t τ hlook rfl id ?_
              cases s <;> first | exact absurd rfl hs | exact hid
        · exact hi.frame_tables rfl (Nat.le_refl _) (Int.le_refl _) (Int.le_refl _)
            (fun _ _ h => (lookup_erase_cases h).2) (fun _ h => Or.inl h) (fun _ _ h => Or.inl h)
      · cases h

/-- A transaction that has sent COMMIT has run its whole plan, and would run it again now. -/
theorem Txn.Inv.complete {τ : Txn} (hτ : τ.Inv db) (hsent : τ.sent = true) :
    ∃ done, done.map Prod.fst = plan τ.call ∧
      execAll db.tables τ.call done {} = .ok τ.w := by
  obtain ⟨done, hd, hr⟩ := hτ.ran
  rw [hτ.sent_rest hsent, List.append_nil] at hd
  obtain ⟨id, at', -, hrow⟩ := (execAll_plan hd hr).id
  rw [Tables.hide_eq (hτ.row _ hrow).2] at hr
  exact ⟨done, hd, hr⟩

theorem Txn.Inv.ready {τ : Txn} (hτ : τ.Inv db) (hsent : τ.sent = true) :
    Ready db.tables τ.call τ.w := by
  obtain ⟨done, hd, hr⟩ := hτ.complete hsent
  exact execAll_plan hd hr

/-- The part rows once the transaction is durable. -/
theorem mem_apply_parts {q : PartRow} (h : q ∈ (w.apply T).parts) :
    (∃ p ∈ T.parts, q = if p.id ∈ w.tombstoned then { p with deletedByCommit := w.cid } else p) ∨
      q ∈ w.inserted := by
  rcases List.mem_append.mp h with h | h
  · obtain ⟨p, hp, he⟩ := List.mem_map.mp h
    exact Or.inl ⟨p, hp, he.symm⟩
  · exact Or.inr h

theorem apply_parts_id :
    (w.apply T).parts.map PartRow.id = T.parts.map PartRow.id ++ w.inserted.map PartRow.id := by
  simp only [Writes.apply, List.map_append, List.map_map, List.append_cancel_right_eq]
  refine List.map_congr_left ?_
  intro p _
  simp only [Function.comp_apply]
  split <;> rfl

theorem stored_commit {t : Nat} {τ : Txn} (hi : Inv db) (hlook : db.txns.lookup t = some τ)
    (hsent : τ.sent = true) (hT : db'.tables = τ.w.apply db.tables)
    (hseq : db'.commitSeq = db.commitSeq) (hpseq : db'.partSeq = db.partSeq) : Stored db' := by
  have hτ := hi.txn t τ hlook
  obtain ⟨id, at', hcid, hrow⟩ := (hτ.ready hsent).id
  obtain ⟨hpos, hlt, hfresh⟩ := hτ.cid_fresh id hcid
  have hfree := (hτ.row _ hrow).2
  have hcommits : db'.tables.commits = db.tables.commits ++ [τ.call.commitRow id at'] := by
    rw [hT]
    simp [Writes.apply, hrow]
  have hparts : db'.tables.parts.map PartRow.id =
      db.tables.parts.map PartRow.id ++ τ.w.inserted.map PartRow.id := by
    rw [hT, apply_parts_id]
  refine
    { seq_pos := by rw [hseq]; exact hi.stored.seq_pos
      commit_pos := ?_
      commit_lt := ?_
      commit_nodup := ?_
      key_unique := ?_
      part_lt := ?_
      part_nodup := ?_ }
  · intro r hr
    rw [hcommits, List.mem_append, List.mem_singleton] at hr
    rcases hr with hr | rfl
    · exact hi.stored.commit_pos r hr
    · exact hpos
  · intro r hr
    rw [hcommits, List.mem_append, List.mem_singleton] at hr
    rw [hseq]
    rcases hr with hr | rfl
    · exact hi.stored.commit_lt r hr
    · exact hlt
  · rw [hcommits, List.map_append, List.map_cons, List.map_nil]
    refine List.nodup_append.mpr ⟨hi.stored.commit_nodup, List.nodup_singleton _, ?_⟩
    intro i hi' j hj
    obtain ⟨r, hr, rfl⟩ := List.mem_map.mp hi'
    rw [List.mem_singleton] at hj
    subst hj
    exact hfresh r hr
  · -- a stored row under the new row's key would be `Keyed` by the call
    have hclash : ∀ r ∈ db.tables.commits, ∀ k,
        r.hypertableId = τ.call.hypertableId → r.idempotencyKey = some k →
          (τ.call.commitRow id at').idempotencyKey ≠ some k := by
      intro r hr k hht hk hk'
      obtain ⟨i, hi', hik⟩ := Option.map_eq_some_iff.mp hk'
      exact hfree r hr ⟨hht, i, hi', by rw [hk, hik]⟩
    intro r₁ hr₁ r₂ hr₂ k hht hk₁ hk₂
    rw [hcommits, List.mem_append, List.mem_singleton] at hr₁ hr₂
    rcases hr₁ with hr₁ | rfl
    · rcases hr₂ with hr₂ | rfl
      · exact hi.stored.key_unique r₁ hr₁ r₂ hr₂ k hht hk₁ hk₂
      · exact absurd hk₂ (hclash r₁ hr₁ k hht hk₁)
    · rcases hr₂ with hr₂ | rfl
      · exact absurd hk₁ (hclash r₂ hr₂ k hht.symm hk₂)
      · rfl
  · intro p hp
    have hp' : p.id ∈ db'.tables.parts.map PartRow.id := List.mem_map_of_mem hp
    rw [hparts, List.mem_append] at hp'
    rw [hpseq]
    rcases hp' with hp' | hp'
    · obtain ⟨q, hq, he⟩ := List.mem_map.mp hp'
      rw [← he]
      exact hi.stored.part_lt q hq
    · obtain ⟨q, hq, he⟩ := List.mem_map.mp hp'
      rw [← he]
      exact (hτ.inserted_fresh q hq).1
  · rw [hparts]
    refine List.nodup_append.mpr ⟨hi.stored.part_nodup, hτ.inserted_nodup, ?_⟩
    intro i hi' j hj
    obtain ⟨p, hp, rfl⟩ := List.mem_map.mp hi'
    obtain ⟨q, hq, rfl⟩ := List.mem_map.mp hj
    exact (hτ.inserted_fresh q hq).2 p hp

/-- Another transaction's COMMIT touches nothing an open transaction has locked. -/
theorem keeps_commit {τ τ' : Txn} (hx : Excl τ τ')
    (hnd : (db.tables.parts.map PartRow.id).Nodup)
    (hnd' : ((τ.w.apply db.tables).parts.map PartRow.id).Nodup) :
    Keeps τ'.w db.tables (τ.w.apply db.tables) where
  leases _ _ := rfl
  offsets k hk := by
    have hnone : τ.w.offsets.lookup k = none := by
      rw [List.lookup_eq_none_iff]
      intro p hp
      rw [bne_iff_ne]
      rintro rfl
      exact hx.offsets p.1 (List.mem_map_of_mem hp) hk
    simp only [Writes.apply, Writes.offsetAt, hnone]
  parts p hp := by
    refine ⟨_, List.mem_append_left _ (List.mem_map_of_mem hp), ?_⟩
    split
    · rename_i hmem
      exact ⟨rfl, rfl, rfl, fun hmem' => absurd hmem' (hx.tombstoned p.id hmem)⟩
    · exact ⟨rfl, rfl, rfl, fun _ => rfl⟩
  nodup := hnd
  nodup' := hnd'

theorem inv_commit {t : Nat} (hi : Inv db) (h : step db (.commit t) = some db') : Inv db' := by
  simp only [step] at h
  split at h
  · cases h
  · rename_i τ hlook
    split at h
    · rename_i hsent
      simp only [Option.some.injEq] at h
      subst h
      have hst : Stored { db with
          tables := τ.w.apply db.tables
          txns := db.txns.erase t
          history := db.history ++ [⟨t, τ.w.cid.getD 0, τ.call⟩] } :=
        stored_commit hi hlook hsent rfl rfl rfl
      refine hi.frame hst (Nat.le_refl _) (Int.le_refl _) (fun _ _ h => (lookup_erase_cases h).2)
        ?_ (fun _ h => Or.inl h) (fun _ _ h => Or.inl h)
      intro t' τ' h'
      obtain ⟨hne, h'⟩ := lookup_erase_cases h'
      have hx := hi.excl t t' τ τ' hne.symm hlook h'
      obtain ⟨id, at', hcid, hrow⟩ := ((hi.txn t τ hlook).ready hsent).id
      refine (hi.txn t' τ' h').transport (keeps_commit hx hi.stored.part_nodup hst.part_nodup)
        (Int.le_refl _) (Int.le_refl _) ?_ ?_
      · intro r hr
        rcases List.mem_append.mp hr with hr | hr
        · exact Or.inl hr
        · rw [hrow, Option.toList_some, List.mem_singleton] at hr
          subst hr
          refine Or.inr ⟨?_, ?_⟩
          · rintro id' hid' rfl
            exact hx.cid _ hcid hid'
          · intro hsome hk
            exact hx.row (by rw [hrow]; rfl) hsome (keyed_commitRow.mp hk).symm
      · intro q hq
        rcases mem_apply_parts hq with ⟨p, hp, rfl⟩ | hq
        · refine Or.inl ⟨p, hp, ?_⟩
          split <;> rfl
        · exact Or.inr fun p hp => hx.inserted q hq p hp
    · cases h

/-- Events that touch only rows no transaction has locked: lease rows that are free, upload
intents, cursors, and the purge stamp of a part. -/
theorem Inv.touch (hi : Inv db) (hcommits : db'.tables.commits = db.tables.commits)
    {f : PartRow → PartRow} (hparts : db'.tables.parts = db.tables.parts.map f)
    (hf : ∀ p, (f p).id = p.id ∧ (f p).hypertableId = p.hypertableId ∧
      (f p).partMeta = p.partMeta ∧ (f p).deletedByCommit = p.deletedByCommit)
    (hoff : db'.tables.ingestOffsets = db.tables.ingestOffsets)
    (hleases : ∀ k, ¬ db.leaseFree k →
      db'.tables.compactionLeases k = db.tables.compactionLeases k)
    (htx : db'.txns = db.txns) (hnext : db'.nextTxn = db.nextTxn)
    (hseq : db'.commitSeq = db.commitSeq) (hpseq : db'.partSeq = db.partSeq)
    (hb : db'.barrier = db.barrier) (hh : db'.heads = db.heads) : Inv db' := by
  have hids : db'.tables.parts.map PartRow.id = db.tables.parts.map PartRow.id := by
    rw [hparts, List.map_map]
    exact List.map_congr_left fun p _ => (hf p).1
  have hst : Stored db' :=
    { seq_pos := by rw [hseq]; exact hi.stored.seq_pos
      commit_pos := by rw [hcommits]; exact hi.stored.commit_pos
      commit_lt := by rw [hcommits, hseq]; exact hi.stored.commit_lt
      commit_nodup := by rw [hcommits]; exact hi.stored.commit_nodup
      key_unique := by rw [hcommits]; exact hi.stored.key_unique
      part_lt := by
        intro p hp
        rw [hparts] at hp
        obtain ⟨q, hq, rfl⟩ := List.mem_map.mp hp
        rw [hpseq, (hf q).1]
        exact hi.stored.part_lt q hq
      part_nodup := by rw [hids]; exact hi.stored.part_nodup }
  refine hi.frame hst (Nat.le_of_eq hnext.symm) (Int.le_of_eq hseq.symm)
    (fun _ _ h => by rw [← htx]; exact h) ?_ (fun _ h => Or.inl (by rw [← hb]; exact h))
    (fun _ _ h => Or.inl (by rw [← hh]; exact h))
  intro t τ h
  rw [htx] at h
  refine (hi.txn t τ h).transport ?_ (Int.le_of_eq hseq.symm) (Int.le_of_eq hpseq.symm) ?_ ?_
  · exact
      { leases := fun k hk => hleases k fun hfree => hfree _ (lookup_entry h) hk
        offsets := fun k _ => by rw [hoff]
        parts := fun p hp => ⟨f p, by rw [hparts]; exact List.mem_map_of_mem hp, (hf p).1,
          (hf p).2.1, (hf p).2.2.1, fun _ => (hf p).2.2.2⟩
        nodup := hi.stored.part_nodup
        nodup' := hst.part_nodup }
  · intro r hr
    exact Or.inl (by rw [← hcommits]; exact hr)
  · intro q hq
    rw [hparts] at hq
    obtain ⟨p, hp, rfl⟩ := List.mem_map.mp hq
    exact Or.inl ⟨p, hp, (hf p).1.symm⟩

/-- `touch` when the part rows are left alone as well. -/
theorem Inv.touch_rows (hi : Inv db) (hcommits : db'.tables.commits = db.tables.commits)
    (hparts : db'.tables.parts = db.tables.parts)
    (hoff : db'.tables.ingestOffsets = db.tables.ingestOffsets)
    (hleases : ∀ k, ¬ db.leaseFree k →
      db'.tables.compactionLeases k = db.tables.compactionLeases k)
    (htx : db'.txns = db.txns) (hnext : db'.nextTxn = db.nextTxn)
    (hseq : db'.commitSeq = db.commitSeq) (hpseq : db'.partSeq = db.partSeq)
    (hb : db'.barrier = db.barrier) (hh : db'.heads = db.heads) : Inv db' :=
  hi.touch (f := id) hcommits (by rw [hparts, List.map_id]) (fun _ => ⟨rfl, rfl, rfl, rfl⟩) hoff
    hleases htx hnext hseq hpseq hb hh

theorem update_free {k : LeaseKey} {row : Option LeaseRow} (hfree : db.leaseFree k) :
    ∀ k', ¬ db.leaseFree k' →
      Function.update db.tables.compactionLeases k row k' = db.tables.compactionLeases k' := by
  intro k' hk'
  refine Function.update_of_ne ?_ _ _
  rintro rfl
  exact hk' hfree

theorem inv_installLease {k : Nat} {cl : Claim} (hi : Inv db) (hfree : db.leaseFree cl.key) :
    Inv (db.installLease k cl) := by
  unfold Db.installLease
  split
  · exact hi.touch_rows rfl rfl rfl (fun _ _ => rfl) rfl rfl rfl rfl rfl rfl
  · dsimp only
    split
    · exact hi.touch_rows rfl rfl rfl (update_free hfree) rfl rfl rfl rfl rfl rfl
    · exact hi.touch_rows rfl rfl rfl (update_free hfree) rfl rfl rfl rfl rfl rfl

/-- The published head is behind the sequence. -/
theorem feedHead_lt (hs : Stored db) (h : HypertableId) : feedHead db.tables h < db.commitSeq := by
  unfold feedHead
  cases hm : ((db.tables.commits.filter fun r => r.hypertableId = h).map CommitRow.id).max? with
  | none => exact hs.seq_pos
  | some m =>
    have hmem := List.max?_mem hm
    obtain ⟨r, hr, rfl⟩ := List.mem_map.mp hmem
    exact hs.commit_lt r (List.mem_filter.mp hr).1

/-- Whoever holds the exclusive barrier knows that nobody has drawn an id behind it. -/
theorem cid_none_of_barrier (hi : Inv db) {r : Nat} {h : HypertableId}
    (hr : db.barrier.lookup r = some h) {t : Nat} {τ : Txn} (hlook : db.txns.lookup t = some τ)
    (hht : τ.call.hypertableId = h) : τ.w.cid = none := by
  cases hcid : τ.w.cid with
  | none => rfl
  | some id =>
    have hshared := (hi.txn t τ hlook).cid_shared id hcid
    have hmem : (⟨r, h⟩ : Sigma fun _ : Nat => HypertableId) ∈ db.barrier.entries :=
      AList.mem_lookup_iff.mp hr
    exact absurd hht.symm (hi.barrier t τ hlook hshared _ hmem)

theorem replyOnce_frame (hi : Inv db) (t : Nat) (r : Reply)
    {txns : AList fun _ : Nat => Txn}
    (hsub : ∀ t τ, txns.lookup t = some τ → db.txns.lookup t = some τ) :
    Inv { db.replyOnce t r with txns := txns } := by
  unfold Db.replyOnce
  split
  · exact hi.frame_tables rfl (Nat.le_refl _) (Int.le_refl _) (Int.le_refl _) hsub
      (fun _ h => Or.inl h) (fun _ _ h => Or.inl h)
  · exact hi.frame_tables rfl (Nat.le_refl _) (Int.le_refl _) (Int.le_refl _) hsub
      (fun _ h => Or.inl h) (fun _ _ h => Or.inl h)

theorem inv_replyOnce (hi : Inv db) (t : Nat) (r : Reply) : Inv (db.replyOnce t r) := by
  unfold Db.replyOnce
  split
  · exact hi
  · exact hi.touch_rows rfl rfl rfl (fun _ _ => rfl) rfl rfl rfl rfl rfl rfl

@[simp] theorem replyOnce_txns (db : Db) (t : Nat) (r : Reply) :
    (db.replyOnce t r).txns = db.txns := by
  unfold Db.replyOnce
  split <;> rfl

@[simp] theorem replyOnce_tables (db : Db) (t : Nat) (r : Reply) :
    (db.replyOnce t r).tables = db.tables := by
  unfold Db.replyOnce
  split <;> rfl

@[simp] theorem replyOnce_history (db : Db) (t : Nat) (r : Reply) :
    (db.replyOnce t r).history = db.history := by
  unfold Db.replyOnce
  split <;> rfl

/-- Flags of a transaction that no lock and no write depends on. -/
theorem inv_flags {t : Nat} {τ τ' : Txn} (hi : Inv db) (hlook : db.txns.lookup t = some τ)
    (hcall : τ'.call = τ.call) (hrest : τ'.rest = τ.rest) (hw : τ'.w = τ.w)
    (hsent : τ'.sent = true → τ'.rest = []) : Inv { db with txns := db.txns.insert t τ' } := by
  have hτ := hi.txn t τ hlook
  refine hi.insert rfl rfl (Nat.le_refl _) (Int.le_refl _) (Int.le_refl _) rfl rfl ?_
    (hi.txn_lt t τ hlook) ?_ ?_ ?_
  · exact
      { scope := by rw [hcall]; exact hτ.scope
        ran := by rw [hcall, hrest, hw]; exact hτ.ran
        sent_rest := hsent
        cid_shared := by rw [hw]; exact hτ.cid_shared
        cid_fresh := by rw [hw]; exact hτ.cid_fresh
        row := by rw [hw, hcall]; exact hτ.row
        inserted_fresh := by rw [hw]; exact hτ.inserted_fresh
        inserted_nodup := by rw [hw]; exact hτ.inserted_nodup }
  · intro t' τ₂ hne h₂
    have hx := hi.excl t t' τ τ₂ hne.symm hlook h₂
    exact
      { cid := by rw [hw]; exact hx.cid
        row := by rw [hw, hcall]; exact hx.row
        inserted := by rw [hw]; exact hx.inserted
        tombstoned := by rw [hw]; exact hx.tombstoned
        offsets := by rw [hw]; exact hx.offsets
        leases := by rw [hw]; exact hx.leases }
  · rw [hw, hcall]
    exact hi.barrier t τ hlook
  · rw [hcall, hw]
    exact fun H hH id hid => (hi.heads _ H hH).2 t τ hlook rfl id hid

/-- **Every event keeps the invariant.** -/
theorem inv_step {e : Event} (h : step db e = some db') (hi : Inv db) : Inv db' := by
  cases e with
  | begin c => exact inv_begin hi h
  | stmt t => exact inv_stmt hi h
  | commit t => exact inv_commit hi h
  | sendCommit t =>
    simp only [step] at h
    split at h
    · cases h
    · rename_i τ hlook
      split at h
      · rename_i hg
        cases h
        exact inv_flags hi hlook rfl rfl rfl (fun _ => hg.2)
      · cases h
  | rollback t failure =>
    simp only [step] at h
    split at h
    · cases h
    · cases h
      exact replyOnce_frame hi _ _ (fun _ _ h => (lookup_erase_cases h).2)
  | abandon t failure =>
    simp only [step] at h
    split at h
    · cases h
    · rename_i τ hlook
      split at h
      · rename_i hg
        cases h
        have hlook' : (db.replyOnce t (.error (.db failure))).txns.lookup t = some τ := by
          rw [replyOnce_txns]
          exact hlook
        rw [← replyOnce_txns db t (.error (.db failure))]
        exact inv_flags (inv_replyOnce hi t _) hlook' rfl rfl rfl
          (fun hs => absurd hs (by simp [hg.2]))
      · cases h
  | lost t =>
    simp only [step] at h
    split at h
    · split at h
      · cases h
        exact inv_replyOnce hi _ _
      · cases h
    · split at h
      · cases h
        exact inv_replyOnce hi _ _
      · cases h
  | ack t =>
    simp only [step] at h
    split at h
    · cases h
      exact inv_replyOnce hi _ _
    · cases h
  | lockBarrier r k =>
    simp only [step] at h
    split at h
    · rename_i hg
      cases h
      refine hi.frame_tables rfl (Nat.le_refl _) (Int.le_refl _) (Int.le_refl _)
        (fun _ _ h => h) ?_ (fun _ _ h => Or.inl h)
      intro b hb
      rw [AList.entries_insert] at hb
      rcases List.mem_cons.mp hb with rfl | hb
      · refine Or.inr ?_
        intro t τ hlook hshared heq
        exact hg.1 _ (lookup_entry hlook) ⟨hshared, heq.symm⟩
      · exact Or.inl ((List.kerase_sublist _ _).subset hb)
    · cases h
  | readHead r =>
    simp only [step] at h
    split at h
    · cases h
    · rename_i k hr
      cases h
      refine hi.frame_tables rfl (Nat.le_refl _) (Int.le_refl _) (Int.le_refl _)
        (fun _ _ h => h) (fun _ h => Or.inl h) ?_
      intro h' H hH
      rcases List.mem_cons.mp hH with heq | hH
      · cases heq
        exact Or.inr ⟨feedHead_lt hi.stored _, fun t τ hlook hht =>
          cid_none_of_barrier hi hr hlook hht⟩
      · exact Or.inl hH
  | unlockBarrier r =>
    simp only [step] at h
    cases h
    refine hi.frame_tables rfl (Nat.le_refl _) (Int.le_refl _) (Int.le_refl _)
      (fun _ _ h => h) ?_ (fun _ _ h => Or.inl h)
    intro b hb
    exact Or.inl ((List.kerase_sublist _ _).subset hb)
  | drawLease key owner ttl =>
    simp only [step] at h
    split at h
    · cases h
    · cases h
      exact hi.touch_rows rfl rfl rfl (fun _ _ => rfl) rfl rfl rfl rfl rfl rfl
  | installLease k =>
    simp only [step] at h
    split at h
    · cases h
    · split at h
      · rename_i hfree
        cases h
        exact inv_installLease hi hfree
      · cases h
  | renewLease lease ttl =>
    simp only [step] at h
    split at h
    · cases h
    · split at h
      · rename_i hfree
        split at h
        · cases h
          exact hi
        · cases h
          exact hi.touch_rows rfl rfl rfl (update_free hfree) rfl rfl rfl rfl rfl rfl
      · cases h
  | releaseLease lease =>
    simp only [step] at h
    split at h
    · rename_i hfree
      split at h
      · cases h
        exact hi.touch_rows rfl rfl rfl (update_free hfree) rfl rfl rfl rfl rfl rfl
      · cases h
        exact hi
    · cases h
  | registerPending k paths =>
    simp only [step] at h
    split at h
    · cases h
      exact hi.touch_rows rfl rfl rfl (fun _ _ => rfl) rfl rfl rfl rfl rfl rfl
    · cases h
  | clearPending paths =>
    simp only [step] at h
    split at h
    · cases h
      exact hi.touch_rows rfl rfl rfl (fun _ _ => rfl) rfl rfl rfl rfl rfl rfl
    · cases h
  | markPurged ids =>
    simp only [step] at h
    split at h
    · cases h
      refine hi.touch rfl rfl ?_ rfl (fun _ _ => rfl) rfl rfl rfl rfl rfl rfl
      intro p
      split <;> exact ⟨rfl, rfl, rfl, rfl⟩
    · cases h
  | setCursor worker k cursor =>
    simp only [step] at h
    cases h
    unfold setCursor
    split
    · split <;> exact hi.touch_rows rfl rfl rfl (fun _ _ => rfl) rfl rfl rfl rfl rfl rfl
    · exact hi.touch_rows rfl rfl rfl (fun _ _ => rfl) rfl rfl rfl rfl rfl rfl
  | tick now =>
    simp only [step] at h
    split at h
    · cases h
      exact hi.touch_rows rfl rfl rfl (fun _ _ => rfl) rfl rfl rfl rfl rfl rfl
    · cases h

end Ukiel.Catalog
