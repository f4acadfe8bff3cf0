/-
# What a transaction has locked

READ COMMITTED lets the tables change between two statements of one transaction.  What a
statement has established survives because of the lock it left behind.  `Keeps` says which part
of the tables a transaction has locked, and the theorems say that its statements would run
again, unchanged, on any tables that agree there.

One statement is not protected by a lock: the key lookup BEFORE the fence (`replay`).  Another
transaction may commit the same key right after it, and the insert into `commits` then
conflicts.  So all of this is stated over the tables with the call's own key hidden, and the
key is known to be free only once the row is inserted.
-/
import Ukiel.Catalog.Sequential

namespace Ukiel.Catalog

variable {T T' : Tables} {c : Call} {w w' : Writes}

/-- The tables without the commits under the call's operation key. -/
def Tables.hide (T : Tables) (c : Call) : Tables :=
  { T with commits := T.commits.filter fun r => ¬ c.Keyed r }

theorem Tables.hide_eq (h : ∀ r ∈ T.commits, ¬ c.Keyed r) : T.hide c = T := by
  unfold Tables.hide
  rw [List.filter_eq_self.mpr (by simpa using h)]

theorem hide_keyed : ¬ ∃ r ∈ (T.hide c).commits, c.Keyed r := by
  rintro ⟨r, hr, hk⟩
  have := (List.mem_filter.mp hr).2
  simp only [decide_eq_true_eq] at this
  exact this hk

theorem lookupInTx_hide (hs : c.Scoped) {i : OperationIdentity} (hi : c.identity = some i) :
    lookupInTx (T.hide c) i = .ok none := by
  have hnone : (T.hide c).operationRow i = none := by
    unfold Tables.operationRow
    rw [List.find?_eq_none]
    intro r hr hm
    simp only [decide_eq_true_eq] at hm
    exact hide_keyed ⟨r, hr, hm.1.trans (hs i hi), i, hi, hm.2⟩
  unfold lookupInTx
  rw [hnone]
  rfl

theorem execStmt_replay_hide (hs : c.Scoped) {env : Env} :
    execStmt (T.hide c) c env w .replay = .ok w := by
  simp only [execStmt]
  split
  · rfl
  · rename_i i hi
    rw [lookupInTx_hide hs hi]

theorem execStmt_insertCommit_hide {env : Env} :
    execStmt (T.hide c) c env w .insertCommit =
      .ok { w with row := some (c.commitRow (w.cid.getD 0) env.txnStart) } := by
  simp only [execStmt]
  rw [if_neg hide_keyed]

/-- A statement that goes on does so with its own key hidden. -/
theorem execStmt_hide (hs : c.Scoped) {s : Stmt} {env : Env}
    (h : execStmt T c env w s = .ok w') : execStmt (T.hide c) c env w s = .ok w' := by
  cases s with
  | replay =>
    obtain rfl := execStmt_replay h
    exact execStmt_replay_hide hs
  | insertCommit =>
    obtain ⟨-, rfl⟩ := execStmt_insertCommit h
    exact execStmt_insertCommit_hide
  | _ => exact h

/-- **The tables agree on what the writes have locked.**  Part rows are never removed and
never change their hypertable or metadata; whether a part is live is fixed only for those who
tombstoned it. -/
structure Keeps (w : Writes) (T T' : Tables) : Prop where
  leases : ∀ k ∈ w.leaseLocks, T'.compactionLeases k = T.compactionLeases k
  offsets : ∀ k ∈ w.offsets.map Prod.fst, T'.ingestOffsets k = T.ingestOffsets k
  parts : ∀ p ∈ T.parts, ∃ p' ∈ T'.parts, p'.id = p.id ∧ p'.hypertableId = p.hypertableId ∧
    p'.partMeta = p.partMeta ∧ (p.id ∈ w.tombstoned → p'.deletedByCommit = p.deletedByCommit)
  nodup : (T.parts.map PartRow.id).Nodup
  nodup' : (T'.parts.map PartRow.id).Nodup

/-- Locks are only ever added. -/
structure LocksLe (w w' : Writes) : Prop where
  leases : w.leaseLocks ⊆ w'.leaseLocks
  offsets : w.offsets.map Prod.fst ⊆ w'.offsets.map Prod.fst
  tombstoned : w.tombstoned ⊆ w'.tombstoned

theorem LocksLe.refl (w : Writes) : LocksLe w w :=
  ⟨List.Subset.refl _, List.Subset.refl _, List.Subset.refl _⟩

theorem LocksLe.trans {w₁ w₂ w₃ : Writes} (h₁ : LocksLe w₁ w₂) (h₂ : LocksLe w₂ w₃) :
    LocksLe w₁ w₃ :=
  ⟨List.Subset.trans h₁.leases h₂.leases, List.Subset.trans h₁.offsets h₂.offsets,
    List.Subset.trans h₁.tombstoned h₂.tombstoned⟩

theorem execStmt_locksLe {s : Stmt} {env : Env} (h : execStmt T c env w s = .ok w') :
    LocksLe w w' := by
  obtain rfl := execStmt_effect h
  cases s <;> exact ⟨by simp [Stmt.effect], by simp [Stmt.effect], by simp [Stmt.effect]⟩

theorem execAll_locksLe : ∀ {done : List (Stmt × Env)} {w : Writes},
    execAll T c done w = .ok w' → LocksLe w w'
  | [], w, h => by cases h; exact LocksLe.refl _
  | (s, env) :: done, w, h => by
    obtain ⟨w₁, h₁, h₂⟩ := execAll_cons.mp h
    exact (execStmt_locksLe h₁).trans (execAll_locksLe h₂)

theorem execAll_shared : ∀ {done : List (Stmt × Env)} {w : Writes},
    execAll T c done w = .ok w' → w.shared = true → w'.shared = true
  | [], w, h, hs => by cases h; exact hs
  | (s, env) :: done, w, h, hs => by
    obtain ⟨w₁, h₁, h₂⟩ := execAll_cons.mp h
    refine execAll_shared h₂ ?_
    obtain rfl := execStmt_effect h₁
    cases s <;> simp [Stmt.effect, hs]

theorem Keeps.mono (h : Keeps w' T T') (hle : LocksLe w w') : Keeps w T T' where
  leases k hk := h.leases k (hle.leases hk)
  offsets k hk := h.offsets k (hle.offsets hk)
  parts p hp := by
    obtain ⟨p', hp', hid, hht, hm, hd⟩ := h.parts p hp
    exact ⟨p', hp', hid, hht, hm, fun hi => hd (hle.tombstoned hi)⟩
  nodup := h.nodup
  nodup' := h.nodup'

/-- The inputs a fence found inside its partition are still inside it. -/
theorem insideLease_keeps (hk : Keeps w T T') {pv : Json} {old : List Int}
    (h : (insideLease T c pv old).length = old.length) :
    (insideLease T' c pv old).length = old.length := by
  obtain ⟨hnd, hex⟩ := (List.length_filter_key_eq_iff hk.nodup).mp h
  refine (List.length_filter_key_eq_iff hk.nodup').mpr ⟨hnd, ?_⟩
  intro i hi
  obtain ⟨p, hp, rfl, hht, hpv⟩ := hex i hi
  obtain ⟨p', hp', hid, hht', hm, -⟩ := hk.parts p hp
  exact ⟨p', hp', hid, hht'.trans hht, by rw [hm]; exact hpv⟩

/-- The parts a transaction has tombstoned were live and, for everybody else, still are. -/
theorem liveMatched_keeps (hk : Keeps w T T') {ids : List Int} (hsub : ids ⊆ w.tombstoned)
    (h : (liveMatched T c ids).length = ids.length) :
    (liveMatched T' c ids).length = ids.length := by
  obtain ⟨hnd, hex⟩ := (List.length_filter_key_eq_iff hk.nodup).mp h
  refine (List.length_filter_key_eq_iff hk.nodup').mpr ⟨hnd, ?_⟩
  intro i hi
  obtain ⟨p, hp, rfl, hht, hlive⟩ := hex i hi
  obtain ⟨p', hp', hid, hht', -, hd⟩ := hk.parts p hp
  exact ⟨p', hp', hid, hht'.trans hht, (hd (hsub hi)).trans hlive⟩

/-- A statement would go on in the same way on tables that agree on what it has locked. -/
theorem execStmt_keeps (hs : c.Scoped) {s : Stmt} {env : Env} (hk : Keeps w' T T')
    (h : execStmt (T.hide c) c env w s = .ok w') : execStmt (T'.hide c) c env w s = .ok w' := by
  cases s with
  | replay =>
    obtain rfl := execStmt_replay h
    exact execStmt_replay_hide hs
  | insertCommit =>
    rw [execStmt_insertCommit_hide] at h ⊢
    exact h
  | lockLease lease =>
    obtain ⟨hht, ⟨row, hrow, hm⟩, rfl⟩ := execStmt_lockLease h
    have hrow' : (T'.hide c).compactionLeases ⟨c.hypertableId, lease.partitionValues⟩ =
        some row := (hk.leases _ (List.mem_cons_self ..)).trans hrow
    simp only [execStmt]
    rw [if_neg (not_not.mpr hht), hrow']
    simp only [if_pos hm]
  | fenceParts lease =>
    obtain ⟨⟨old, new, hop, hnew, hin⟩, rfl⟩ := execStmt_fenceParts h
    have hin' := insideLease_keeps (c := c) hk hin
    simp only [execStmt, hop]
    rw [if_neg]
    push Not
    exact ⟨hnew, hin'⟩
  | tombstone ids =>
    obtain ⟨hm, rfl⟩ := execStmt_tombstone h
    have hm' : (liveMatched (T'.hide c) c ids).length = ids.length :=
      liveMatched_keeps hk (List.subset_append_right _ _) hm
    simp only [execStmt]
    rw [if_neg (not_not.mpr hm')]
  | casOffset r =>
    obtain ⟨hle, rfl⟩ := execStmt_casOffset h
    have hat : w.offsetAt (T'.hide c) (c.offsetKey r) = w.offsetAt (T.hide c) (c.offsetKey r) := by
      unfold Writes.offsetAt
      split
      · rfl
      · exact hk.offsets _ (List.mem_cons_self ..)
    simp only [execStmt, hat]
    split
    · rfl
    · rename_i next hn
      rw [if_pos (hle next hn)]
  | lockShared | nextval | insertPart _ | unpend _ => exact h

theorem execAll_keeps (hs : c.Scoped) (hk : Keeps w' T T') :
    ∀ {done : List (Stmt × Env)} {w : Writes}, execAll (T.hide c) c done w = .ok w' →
      execAll (T'.hide c) c done w = .ok w'
  | [], _, h => h
  | (s, env) :: done, w, h => by
    obtain ⟨w₁, h₁, h₂⟩ := execAll_cons.mp h
    exact execAll_cons.mpr
      ⟨w₁, execStmt_keeps hs (hk.mono (execAll_locksLe h₂)) h₁, execAll_keeps hs hk h₂⟩

end Ukiel.Catalog
