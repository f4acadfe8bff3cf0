/-
# Conservation of rows

Two facts about every interleaving of the mutations of `Compactor/Rows.lean`.

* The books balance: the live rows are the rows of all committed ADDs less the rows removed by
  committed deletions (`balance_commit`).  The one thing that carries it is the count check of
  `tombstone_parts`: a commit lands only when every part it names is still live, so its inputs
  leave the live set in the same step in which its outputs enter.
* A deletion erases what was live when it READ: afterwards the key's live rows are rows that ADDs
  brought in since (`erasing_commit`).  As long as the deletion can still land, its inputs have been
  untouched since it read them, and no other live part has a row of the key except through such
  an ADD.
-/
import Ukiel.Compactor.PartMetadata

namespace Ukiel.Compactor
open Ukiel.Catalog Ukiel.Expr Ukiel.Write

variable {α : Type} {content : String → Multiset α} {key : α → Int} {s s' : Site} {db' : Db}

/-! ## 1. The shape of a site -/

/-- The parts and the mutations are in order. -/
structure Sound (content : String → Multiset α) (key : α → Int) (s : Site) : Prop where
  reachable : Reachable s.db
  covered : ∀ p ∈ s.db.tables.parts, Covers content key p.partMeta
  reads : ∀ n j, s.reads.lookup n = some j →
    n < s.nextRead ∧ Known s.db j ∧ j.readAt ≤ s.db.history.length
  jobs : ∀ t j, s.job t = some j → t < s.db.nextTxn ∧ ∃ n, s.reads.lookup n = some j
  opened : ∀ t τ, s.db.txns.lookup t = some τ →
    ∃ j, s.job t = some j ∧ j.Carries content key τ.call

/-- Where a run starts: parts that cover their rows, and no mutation under way. -/
structure Start (content : String → Multiset α) (key : α → Int) (s : Site) : Prop where
  db : Initial s.db
  covered : ∀ p ∈ s.db.tables.parts, Covers content key p.partMeta
  reads : s.reads = ∅
  job : s.job = fun _ => none

theorem start_empty : Start content key {} := ⟨initial_empty, by simp, rfl, rfl⟩

theorem Start.sound (h : Start content key s) : Sound content key s where
  reachable := ⟨s.db, h.db, Lts.Reaches.refl _⟩
  covered := h.covered
  reads n j hlook := by
    rw [h.reads] at hlook
    cases hlook
  jobs t j hj := by
    rw [h.job] at hj
    cases hj
  opened t τ hlook := by
    rw [h.db.txns] at hlook
    cases hlook

theorem step_history_length {db : Db} {e : Event} (hi : Catalog.Inv db)
    (hs : step db e = some db') :
    db.history.length ≤ db'.history.length := by
  rcases step_tables hi hs with ⟨t, τ, id, -, -, -, -, -, hh, -⟩ | ⟨-, hh, -⟩
  · rw [hh, List.length_append]
    exact Nat.le_add_right _ _
  · rw [hh]

/-- What a catalog event keeps, given that a call it opens is a mutation's. -/
theorem Sound.step {e : Event} {job : Nat → Option Job} (h : Sound content key s)
    (hs : Catalog.step s.db e = some db') (hjob : ∀ t j, s.job t = some j → job t = some j)
    (hjobs : ∀ t j, job t = some j → t < db'.nextTxn ∧ ∃ n, s.reads.lookup n = some j)
    (hbegin : ∀ c, e = .begin c → ∃ j, job s.db.nextTxn = some j ∧ j.Carries content key c) :
    Sound content key { s with db := db', job := job } where
  reachable := h.reachable.next hs
  covered p hp := by
    rcases step_part_origin h.reachable.inv hs hp with
      ⟨q, hq, -, hmeta, -⟩ | ⟨t, τ, -, hlook, -, hnew⟩
    · rw [hmeta]
      exact h.covered q hq
    · obtain ⟨j, -, -, hcov, -⟩ := h.opened t τ hlook
      exact hcov _ hnew
  reads n j hlook := by
    obtain ⟨hn, hknown, hle⟩ := h.reads n j hlook
    exact ⟨hn, hknown.step h.reachable.inv hs,
      hle.trans (step_history_length h.reachable.inv hs)⟩
  jobs := hjobs
  opened t τ hlook := by
    rcases step_call hs hlook with ⟨τ₀, hlook₀, hcall⟩ | ⟨rfl, rfl⟩
    · obtain ⟨j, hj, hcarries⟩ := h.opened t τ₀ hlook₀
      exact ⟨j, hjob t j hj, hcall ▸ hcarries⟩
    · exact hbegin τ.call rfl

section Actions

variable [DecidableEq α]

/-- The three kinds of action, with what each of them checks. -/
theorem act_cases {a : Act} (h : act content key s a = some s') :
    (∃ e, a = .catalog e ∧ (∀ c, e ≠ .begin c) ∧ ∃ db', step s.db e = some db' ∧
      s' = { s with db := db' }) ∨
    (∃ w k inputs, a = .read w k inputs ∧ Readable s.db.tables k inputs w ∧ s' = { s with
      reads := s.reads.insert s.nextRead ⟨w, k, inputs, s.db.history.length⟩
      nextRead := s.nextRead + 1 }) ∨
    ∃ n c j, a = .submit n c ∧ s.reads.lookup n = some j ∧ j.Carries content key c ∧
      ∃ db', step s.db (.begin c) = some db' ∧
        s' = { s with db := db', job := Function.update s.job s.db.nextTxn (some j) } := by
  cases a with
  | catalog e =>
    have hne : ∀ c, e ≠ .begin c := by
      rintro c rfl
      cases h
    have hs : (step s.db e).map (fun db => { s with db := db }) = some s' := by
      cases e with
      | begin c => exact absurd rfl (hne c)
      | _ => exact h
    obtain ⟨db', hdb, rfl⟩ := Option.map_eq_some_iff.mp hs
    exact Or.inl ⟨e, rfl, hne, db', hdb, rfl⟩
  | read w k inputs =>
    simp only [act] at h
    split at h
    · rename_i hr
      cases h
      exact Or.inr (Or.inl ⟨w, k, inputs, rfl, hr, rfl⟩)
    · cases h
  | submit n c =>
    simp only [act] at h
    split at h
    · cases h
    · rename_i j hlook
      split at h
      · rename_i hc
        obtain ⟨db', hdb, rfl⟩ := Option.map_eq_some_iff.mp h
        exact Or.inr (Or.inr ⟨n, c, j, rfl, hlook, hc, db', hdb, rfl⟩)
      · cases h

theorem sound_act {a : Act} (hs : act content key s a = some s') (h : Sound content key s) :
    Sound content key s' := by
  rcases act_cases hs with ⟨e, -, hne, db', hdb, rfl⟩ | ⟨w, k, inputs, -, hr, rfl⟩ |
    ⟨n, c, j, -, hlook, hc, db', hdb, rfl⟩
  · refine h.step hdb (fun _ _ hj => hj) ?_ (fun c he => absurd he (hne c))
    intro t j hj
    obtain ⟨ht, hread⟩ := h.jobs t j hj
    exact ⟨Nat.lt_of_lt_of_le ht (step_nextTxn hdb), hread⟩
  · refine ⟨h.reachable, h.covered, ?_, ?_, h.opened⟩
    · intro n j hlook
      by_cases hn : n = s.nextRead
      · subst hn
        rw [AList.lookup_insert, Option.some.injEq] at hlook
        subst hlook
        exact ⟨Nat.lt_succ_self _, hr.known rfl _, Nat.le_refl _⟩
      · rw [AList.lookup_insert_ne hn] at hlook
        obtain ⟨hlt, hknown, hle⟩ := h.reads n j hlook
        exact ⟨Nat.lt_succ_of_lt hlt, hknown, hle⟩
    · intro t j hj
      obtain ⟨ht, n, hlook⟩ := h.jobs t j hj
      refine ⟨ht, n, ?_⟩
      rw [AList.lookup_insert_ne (Nat.ne_of_lt (h.reads n j hlook).1)]
      exact hlook
  · have hnext : db'.nextTxn = s.db.nextTxn + 1 := by
      simp only [step] at hdb
      split at hdb <;> cases hdb <;> rfl
    refine h.step hdb ?_ ?_ ?_
    · intro t j' hj
      rw [Function.update_of_ne (Nat.ne_of_lt (h.jobs t j' hj).1)]
      exact hj
    · intro t j' hj
      by_cases ht : t = s.db.nextTxn
      · subst ht
        rw [Function.update_self, Option.some.injEq] at hj
        subst hj
        exact ⟨by omega, n, hlook⟩
      · rw [Function.update_of_ne ht] at hj
        obtain ⟨hlt, hread⟩ := h.jobs t j' hj
        exact ⟨by omega, hread⟩
    · rintro c' he
      cases he
      exact ⟨j, Function.update_self _ _ _, hc⟩

end Actions

/-! ## 2. A commit lands -/

/-- **What is known when the commit of call `t` lands**: whose it was, that all its inputs were
live, and what became of the parts. -/
structure Landed (content : String → Multiset α) (key : α → Int) (s : Site) (db' : Db) (t : Nat)
    (j : Job) (c : Call) (rows : List PartRow) : Prop where
  job : s.job t = some j
  carries : j.Carries content key c
  known : Known s.db j
  history : ∃ id, db'.history = s.db.history ++ [⟨t, id, c⟩]
  live : ∀ p ∈ j.inputs, ∃ q ∈ s.db.tables.parts, q.id = p.id ∧ q.live = true
  parts : ∃ id, db'.tables.parts =
    tombstoneParts id (j.inputs.map PartRow.id) s.db.tables.parts ++ rows
  fresh : ∀ r ∈ rows, ∀ q ∈ s.db.tables.parts, q.id ≠ r.id
  metas : rows.map PartRow.partMeta = c.op.newParts
  totals : ∀ {M : Type} [AddCommMonoid M] (v : Int → PartMeta → M),
    liveSum v db'.tables j.hypertableId + partSum v j.inputs =
      liveSum v s.db.tables j.hypertableId + partSum v rows
  others : ∀ {M : Type} [AddCommMonoid M] (v : Int → PartMeta → M) h, h ≠ j.hypertableId →
    liveSum v db'.tables h = liveSum v s.db.tables h

/-- The live rows the commit matched are the parts the mutation read. -/
theorem partSum_matched {M : Type} [AddCommMonoid M] {db : Db} {j : Job} {c : Call}
    (hnd : (db.tables.parts.map PartRow.id).Nodup) (hk : Known db j)
    (hold : c.op.oldParts = j.inputs.map PartRow.id)
    (hmatched : (liveMatched db.tables c c.op.oldParts).length = c.op.oldParts.length)
    (v : Int → PartMeta → M) :
    partSum v (liveMatched db.tables c c.op.oldParts) = partSum v j.inputs := by
  refine List.sum_map_eq_of_keys (f := PartRow.id) ?_ ?_
  · rw [← hold]
    exact List.map_filter_key_perm hnd hmatched
  · intro x hx y hy hid
    obtain ⟨-, q, hq, hqid, -, hqmeta⟩ := hk.2 y hy
    have hqx : q = x :=
      List.inj_on_of_nodup_map hnd hq (List.mem_of_mem_filter hx) (hqid.trans hid.symm)
    rw [hid, ← hqmeta, hqx]

theorem Sound.landed {t : Nat} (h : Sound content key s)
    (hs : Catalog.step s.db (.commit t) = some db') :
    ∃ j c rows, Landed content key s db' t j c rows := by
  have hi := h.reachable.inv
  have hnd := hi.stored.part_nodup
  rcases step_tables hi hs with ⟨t', τ, id, he, hlook, -, happ, -, hhist, -⟩ | ⟨hno, -, -⟩
  · cases he
    obtain ⟨j, hj, hcarries⟩ := h.opened t τ hlook
    obtain ⟨-, n, hread⟩ := h.jobs t j hj
    have hknown := (h.reads n j hread).2.1
    have hold := hcarries.oldParts hknown
    have hht : τ.call.hypertableId = j.hypertableId := hcarries.1
    obtain ⟨rows, hparts, hnew⟩ := happ.parts
    refine ⟨j, τ.call, rows, hj, hcarries, hknown, ⟨id, hhist⟩, ?_, ⟨id, hold ▸ hparts⟩, ?_,
      hnew.metas, ?_, ?_⟩
    · intro p hp
      obtain ⟨-, hmatched⟩ := (List.length_filter_key_eq_iff hnd).mp happ.old_matched
      obtain ⟨q, hq, hid, -, hdel⟩ := hmatched p.id (hold ▸ List.mem_map_of_mem hp)
      exact ⟨q, hq, hid, by rw [PartRow.live, hdel]; rfl⟩
    · have hnd' := (h.reachable.next hs).inv.stored.part_nodup
      rw [hparts, List.map_append, List.nodup_append] at hnd'
      intro r hr q hq heq
      refine hnd'.2.2 q.id ?_ r.id (List.mem_map_of_mem hr) heq
      rw [tombstoneParts, List.map_map]
      refine List.mem_map.mpr ⟨q, hq, ?_⟩
      simp only [Function.comp]
      split <;> rfl
    · intro M _ v
      have htotal := applied_liveSum v hparts hnew
      rw [partSum_matched hnd hknown hold happ.old_matched, hht] at htotal
      exact htotal
    · intro M _ v k hne
      exact applied_liveSum_other v happ hnd (hht ▸ hne)
  · exact absurd rfl (hno t)

/-! ## 3. The books balance -/

/-- The ledger does not change while nothing commits. -/
theorem total_congr {f : Job → Call → Multiset α} (n : Nat) (h : HypertableId)
    (hhist : s'.db.history = s.db.history)
    (hjob : ∀ x ∈ s.db.history, s'.job x.txn = s.job x.txn) : s'.total n h f = s.total n h f := by
  unfold Site.total Site.since
  rw [hhist]
  refine congrArg List.sum (List.map_congr_left ?_)
  intro x hx
  rw [hjob x (List.mem_of_mem_drop (List.mem_of_mem_filter hx))]

/-- A commit adds one entry to the ledger. -/
theorem total_commit {f : Job → Call → Multiset α} {t : Nat} {id : Int} {c : Call} {j : Job}
    {n : Nat} (h : HypertableId) (hhist : db'.history = s.db.history ++ [⟨t, id, c⟩])
    (hj : s.job t = some j) (hn : n ≤ s.db.history.length) :
    Site.total { s with db := db' } n h f =
      s.total n h f + if c.hypertableId = h then f j c else 0 := by
  unfold Site.total Site.since
  dsimp only
  rw [hhist, List.drop_append_of_le_length hn, List.filter_append, List.map_append,
    List.sum_append]
  split
  · rename_i heq
    simp [heq, hj]
  · rename_i hne
    simp [hne]

/-- The live rows are the rows added less the rows removed. -/
def Balanced (content : String → Multiset α) (key : α → Int) (base : HypertableId → Multiset α)
    (s : Site) : Prop :=
  ∀ h, liveRows content s.db.tables h + removedRows content key s h =
    base h + addedSince content s 0 h

theorem partSum_rows (rows : List PartRow) :
    partSum (fun _ m => content m.path) rows = rowsOf content (rows.map PartRow.partMeta) := by
  unfold partSum rowsOf
  rw [List.map_map]
  rfl

theorem Sound.inputs_covered {j : Job} (h : Sound content key s) (hk : Known s.db j) :
    ∀ p ∈ j.inputs, Covers content key p.partMeta := by
  intro p hp
  obtain ⟨-, q, hq, -, -, hmeta⟩ := hk.2 p hp
  rw [← hmeta]
  exact h.covered q hq

/-- **One commit keeps the books balanced.** -/
theorem balance_commit {t : Nat} {base : HypertableId → Multiset α} (h : Sound content key s)
    (hb : Balanced content key base s) (hs : Catalog.step s.db (.commit t) = some db') :
    Balanced content key base { s with db := db' } := by
  obtain ⟨j, c, rows, hl⟩ := h.landed hs
  obtain ⟨id, hhist⟩ := hl.history
  have hht : c.hypertableId = j.hypertableId := hl.carries.1
  have hown := hl.carries.balance hl.known (h.inputs_covered hl.known)
  intro k
  have hbase := hb k
  unfold removedRows addedSince at hbase ⊢
  rw [total_commit k hhist hl.job (Nat.zero_le _), total_commit k hhist hl.job (Nat.zero_le _)]
  by_cases hk : k = j.hypertableId
  · subst hk
    rw [if_pos hht, if_pos hht]
    have htotal := hl.totals fun _ m => content m.path
    rw [partSum_rows, partSum_rows, hl.metas] at htotal
    -- the rows read cancel out of the three balances
    refine add_right_cancel (b := j.rows content) ?_
    calc liveRows content db'.tables j.hypertableId + (s.total 0 j.hypertableId _ +
            j.removed content key) + j.rows content
        = (liveRows content db'.tables j.hypertableId + j.rows content) +
            (s.total 0 j.hypertableId (fun j _ => j.removed content key) +
              j.removed content key) := by abel
      _ = (liveRows content s.db.tables j.hypertableId +
            s.total 0 j.hypertableId (fun j _ => j.removed content key)) +
            (rowsOf content c.op.newParts + j.removed content key) := by
          rw [show liveRows content db'.tables j.hypertableId + j.rows content = _ from htotal]
          unfold liveRows
          abel
      _ = base j.hypertableId + (s.total 0 j.hypertableId (Job.added content) +
            j.added content c) + j.rows content := by
          rw [hbase, hown]
          abel
  · rw [if_neg (hht ▸ Ne.symm hk), if_neg (hht ▸ Ne.symm hk), add_zero, add_zero]
    rw [show liveRows content db'.tables k = liveRows content s.db.tables k from hl.others _ k hk]
    exact hbase

/-! ## 4. A deletion erases what it read -/

/-- A part counts with its rows of key `k`, unless it is one of the mutation's inputs. -/
def elsewhere (content : String → Multiset α) (key : α → Int) (j : Job) (k : Int) (id : Int)
    (m : PartMeta) : Multiset α :=
  if id ∈ j.inputs.map PartRow.id then 0 else (content m.path).filter fun r => key r = k

theorem partSum_elsewhere {j : Job} {k : Int} : ∀ {l : List PartRow},
    (∀ p ∈ l, p.id ∉ j.inputs.map PartRow.id) → partSum (elsewhere content key j k) l =
      (rowsOf content (l.map PartRow.partMeta)).filter fun r => key r = k := by
  intro l
  induction l with
  | nil =>
    intro _
    rfl
  | cons p l ih =>
    intro hall
    have hp := hall p List.mem_cons_self
    have hrest := ih fun q hq => hall q (List.mem_cons_of_mem p hq)
    unfold partSum rowsOf at hrest ⊢
    rw [List.map_cons, List.sum_cons, hrest, elsewhere, if_neg hp, List.map_cons, List.map_cons,
      List.sum_cons, Multiset.filter_add]

theorem partSum_eq_zero {M : Type} [AddCommMonoid M] {v : Int → PartMeta → M} {l : List PartRow}
    (hall : ∀ p ∈ l, v p.id p.partMeta = 0) : partSum v l = 0 := by
  refine List.sum_eq_zero ?_
  intro x hx
  obtain ⟨p, hp, rfl⟩ := List.mem_map.mp hx
  exact hall p hp

/-- All inputs of the mutation are still live. -/
def Untouched (db : Db) (j : Job) : Prop :=
  ∀ p ∈ j.inputs, ∃ q ∈ db.tables.parts, q.id = p.id ∧ q.live = true

/-- The mutation is durable. -/
def Done (s : Site) (j : Job) : Prop := ∃ x ∈ s.db.history, s.job x.txn = some j

/-- **What deletions have erased.**  The inputs of a durable mutation are gone; and as long as a
deletion can still land, and after it has, the key's rows outside its inputs are rows added since
it read. -/
structure Erasing (content : String → Multiset α) (key : α → Int) (s : Site) : Prop where
  gone : ∀ j, Done s j → j.readAt < s.db.history.length ∧
    ∀ p ∈ s.db.tables.parts, p.id ∈ j.inputs.map PartRow.id → p.live = false
  erased : ∀ n j k, s.reads.lookup n = some j → j.work = .deleteKey k →
    Untouched s.db j ∨ Done s j →
    liveSum (elsewhere content key j k) s.db.tables j.hypertableId ≤
      (addedSince content s j.readAt j.hypertableId).filter fun r => key r = k

/-- No event revives a part. -/
theorem live_before {db : Db} {e : Event} (hi : Catalog.Inv db) (hi' : Catalog.Inv db')
    (hs : step db e = some db') {q' : PartRow} (hq' : q' ∈ db'.tables.parts)
    (hlive : q'.live = true) {p : PartRow} (hp : p ∈ db.tables.parts) (hid : p.id = q'.id) :
    p.live = true := by
  have hnd := hi.stored.part_nodup
  rcases step_tables hi hs with ⟨t, τ, id, -, -, -, happ, -, -, -⟩ | ⟨-, -, hside⟩
  · obtain ⟨rows, hparts, -⟩ := happ.parts
    rw [hparts, List.mem_append] at hq'
    rcases hq' with hold | hrow
    · obtain ⟨q, hq, rfl⟩ := List.mem_map.mp hold
      split at hlive
      · cases hlive
      · rw [if_neg ‹_›] at hid
        rw [List.inj_on_of_nodup_map hnd hp hq hid]
        exact hlive
    · have hnd' := hi'.stored.part_nodup
      rw [hparts, List.map_append, List.nodup_append] at hnd'
      refine absurd hid (hnd'.2.2 p.id ?_ q'.id (List.mem_map_of_mem hrow))
      rw [tombstoneParts, List.map_map]
      refine List.mem_map.mpr ⟨p, hp, ?_⟩
      simp only [Function.comp]
      split <;> rfl
  · obtain ⟨f, hparts, hf⟩ := hside.parts
    rw [hparts] at hq'
    obtain ⟨q, hq, rfl⟩ := List.mem_map.mp hq'
    rw [hf q] at hid
    rw [PartRow.live, hf q] at hlive
    rw [List.inj_on_of_nodup_map hnd hp hq hid]
    exact hlive

theorem Untouched.before {e : Event} {j : Job} (h : Sound content key s) (hk : Known s.db j)
    (hs : step s.db e = some db') (hu : Untouched db' j) : Untouched s.db j := by
  intro p hp
  obtain ⟨q', hq', hid', hlive⟩ := hu p hp
  obtain ⟨-, q, hq, hid, -, -⟩ := hk.2 p hp
  exact ⟨q, hq, hid, live_before h.reachable.inv (h.reachable.next hs).inv hs hq' hlive hq
    (hid.trans hid'.symm)⟩

theorem Sound.known_of_done {j : Job} (h : Sound content key s) (hd : Done s j) :
    Known s.db j := by
  obtain ⟨x, -, hj⟩ := hd
  obtain ⟨-, n, hlook⟩ := h.jobs x.txn j hj
  exact (h.reads n j hlook).2.1

/-- What is gone stays gone. -/
theorem gone_after {e : Event} {j : Job} (h : Sound content key s) (hk : Known s.db j)
    (hs : step s.db e = some db')
    (hgone : ∀ p ∈ s.db.tables.parts, p.id ∈ j.inputs.map PartRow.id → p.live = false) :
    ∀ p ∈ db'.tables.parts, p.id ∈ j.inputs.map PartRow.id → p.live = false := by
  intro p' hp' hin
  rw [Bool.eq_false_iff]
  intro hlive
  obtain ⟨p, hp, hpid⟩ := List.mem_map.mp hin
  obtain ⟨-, q, hq, hid, -, -⟩ := hk.2 p hp
  have hqlive := live_before h.reachable.inv (h.reachable.next hs).inv hs hp' hlive hq
    (hid.trans hpid)
  rw [hgone q hq (hid ▸ List.mem_map_of_mem hp)] at hqlive
  cases hqlive

/-- The inputs of the mutation that lands are gone. -/
theorem Landed.gone {t : Nat} {j : Job} {c : Call} {rows : List PartRow}
    (hl : Landed content key s db' t j c rows) :
    ∀ p ∈ db'.tables.parts, p.id ∈ j.inputs.map PartRow.id → p.live = false := by
  intro p hp hin
  obtain ⟨id, hparts⟩ := hl.parts
  rw [hparts, List.mem_append] at hp
  rcases hp with hold | hrow
  · obtain ⟨q, -, rfl⟩ := List.mem_map.mp hold
    split at hin
    · rw [if_pos ‹_›]
      rfl
    · exact absurd hin ‹_›
  · obtain ⟨p₀, hp₀, hid₀⟩ := List.mem_map.mp hin
    obtain ⟨-, q, hq, hid, -, -⟩ := hl.known.2 p₀ hp₀
    exact absurd (hid.trans hid₀) (hl.fresh p hrow q hq)

/-- A deletion writes no row of its key. -/
theorem Job.Carries.no_key {j : Job} {c : Call} {k : Int} (h : j.Carries content key c)
    (hw : j.work = .deleteKey k) :
    (rowsOf content c.op.newParts).filter (fun r => key r = k) = 0 := by
  obtain ⟨-, -, hop⟩ := h
  rw [hw] at hop
  rw [hop.2.2, Multiset.filter_filter, Multiset.filter_eq_nil]
  rintro r - ⟨heq, hne⟩
  exact hne heq

/-- **One mutation lands on a deletion that is still good**, without touching its inputs: the
key's rows elsewhere grow by what it adds, at most. -/
theorem Landed.elsewhere_le {t : Nat} {j j₀ : Job} {c : Call} {rows : List PartRow} {k : Int}
    (h : Sound content key s) (hl : Landed content key s db' t j c rows)
    (hk₀ : Known s.db j₀) (hht : j₀.hypertableId = j.hypertableId)
    (hapart : ∀ p ∈ j.inputs, p.id ∉ j₀.inputs.map PartRow.id) :
    liveSum (elsewhere content key j₀ k) db'.tables j₀.hypertableId ≤
      liveSum (elsewhere content key j₀ k) s.db.tables j₀.hypertableId +
        (j.added content c).filter fun r => key r = k := by
  have hfresh : ∀ p ∈ rows, p.id ∉ j₀.inputs.map PartRow.id := by
    intro p hp hin
    obtain ⟨p₀, hp₀, hid₀⟩ := List.mem_map.mp hin
    obtain ⟨-, q, hq, hid, -, -⟩ := hk₀.2 p₀ hp₀
    exact hl.fresh p hp q hq (hid.trans hid₀)
  have htotal := hl.totals (elsewhere content key j₀ k)
  rw [partSum_elsewhere hapart, partSum_elsewhere hfresh, hl.metas, ← hht] at htotal
  have hown := hl.carries.balance hl.known (h.inputs_covered hl.known)
  have hwritten : (rowsOf content c.op.newParts).filter (fun r => key r = k) ≤
      (j.rows content).filter (fun r => key r = k) +
        (j.added content c).filter fun r => key r = k := by
    rw [← Multiset.filter_add, ← hown]
    exact Multiset.filter_le_filter _ (Multiset.le_add_right _ _)
  refine le_of_add_le_add_right
    (a := (rowsOf content (j.inputs.map PartRow.partMeta)).filter fun r => key r = k) ?_
  calc liveSum (elsewhere content key j₀ k) db'.tables j₀.hypertableId +
        (rowsOf content (j.inputs.map PartRow.partMeta)).filter (fun r => key r = k)
      = liveSum (elsewhere content key j₀ k) s.db.tables j₀.hypertableId +
        (rowsOf content c.op.newParts).filter (fun r => key r = k) := htotal
    _ ≤ liveSum (elsewhere content key j₀ k) s.db.tables j₀.hypertableId +
        ((j.rows content).filter (fun r => key r = k) +
          (j.added content c).filter fun r => key r = k) := by
        exact add_le_add (le_refl _) hwritten
    _ = _ := by
        rw [Job.rows]
        abel

/-- The deletion itself lands. -/
theorem Landed.elsewhere_own {t : Nat} {j : Job} {c : Call} {rows : List PartRow} {k : Int}
    (hl : Landed content key s db' t j c rows) (hw : j.work = .deleteKey k) :
    liveSum (elsewhere content key j k) db'.tables j.hypertableId =
      liveSum (elsewhere content key j k) s.db.tables j.hypertableId := by
  have hfresh : ∀ p ∈ rows, p.id ∉ j.inputs.map PartRow.id := by
    intro p hp hin
    obtain ⟨p₀, hp₀, hid₀⟩ := List.mem_map.mp hin
    obtain ⟨-, q, hq, hid, -, -⟩ := hl.known.2 p₀ hp₀
    exact hl.fresh p hp q hq (hid.trans hid₀)
  have htotal := hl.totals (elsewhere content key j k)
  have hinputs : partSum (elsewhere content key j k) j.inputs = 0 := by
    refine partSum_eq_zero ?_
    intro p hp
    rw [elsewhere, if_pos (List.mem_map_of_mem hp)]
  rw [hinputs, partSum_elsewhere hfresh, hl.metas, hl.carries.no_key hw, add_zero,
    add_zero] at htotal
  exact htotal

theorem erasing_commit {t : Nat} (h : Sound content key s) (he : Erasing content key s)
    (hs : Catalog.step s.db (.commit t) = some db') :
    Erasing content key { s with db := db' } := by
  obtain ⟨j, c, rows, hl⟩ := h.landed hs
  obtain ⟨id, hhist⟩ := hl.history
  have hlen : db'.history.length = s.db.history.length + 1 := by
    rw [hhist, List.length_append, List.length_singleton]
  have hdone : ∀ j', Done { s with db := db' } j' → Done s j' ∨ j' = j := by
    rintro j' ⟨x, hx, hj'⟩
    rw [show ({ s with db := db' } : Site).db.history = db'.history from rfl, hhist,
      List.mem_append, List.mem_singleton] at hx
    rcases hx with hx | rfl
    · exact Or.inl ⟨x, hx, hj'⟩
    · exact Or.inr (Option.some.inj (hj'.symm.trans hl.job))
  constructor
  · intro j' hd'
    dsimp only
    rcases hdone j' hd' with hd | rfl
    · obtain ⟨hlt, hgone⟩ := he.gone j' hd
      exact ⟨by omega, gone_after h (h.known_of_done hd) hs hgone⟩
    · obtain ⟨-, n, hlook⟩ := h.jobs t j' hl.job
      exact ⟨by have := (h.reads n j' hlook).2.2; omega, hl.gone⟩
  · intro n j₀ k hlook hw hcond
    dsimp only at hlook hcond ⊢
    obtain ⟨-, hk₀, hn⟩ := h.reads n j₀ hlook
    have hold := he.erased n j₀ k hlook hw
    unfold addedSince at hold ⊢
    rw [total_commit j₀.hypertableId hhist hl.job hn, Multiset.filter_add]
    have hht : c.hypertableId = j.hypertableId := hl.carries.1
    by_cases hsame : j₀ = j
    · subst hsame
      rw [hl.elsewhere_own hw]
      exact (hold (Or.inl hl.live)).trans (Multiset.le_add_right _ _)
    have hstill : Untouched s.db j₀ ∨ Done s j₀ := by
      rcases hcond with hu | hd
      · exact Or.inl (hu.before h hk₀ hs)
      · exact Or.inr ((hdone j₀ hd).resolve_right hsame)
    by_cases hk : j₀.hypertableId = j.hypertableId
    · rw [if_pos (hht.trans hk.symm)]
      refine (hl.elsewhere_le h hk₀ hk ?_).trans (add_le_add (hold hstill) (le_refl _))
      -- an input of the deletion that some other mutation takes is gone, and then it cannot land
      intro p hp hin
      obtain ⟨p₀, hp₀, hid₀⟩ := List.mem_map.mp hin
      rcases hcond with hu | hd
      · obtain ⟨q', hq', hid', hlive⟩ := hu p₀ hp₀
        rw [hl.gone q' hq' (by rw [hid', hid₀]; exact List.mem_map_of_mem hp)] at hlive
        cases hlive
      · obtain ⟨q, hq, hid, hlive⟩ := hl.live p hp
        rw [(he.gone j₀ ((hdone j₀ hd).resolve_right hsame)).2 q hq (hid ▸ hin)] at hlive
        cases hlive
    · rw [if_neg fun heq => hk (heq.symm.trans hht), Multiset.filter_zero, add_zero,
        hl.others _ _ hk]
      exact hold hstill

/-- Nothing has committed: the parts are as live as before, and the history and its mutations are
the same. -/
structure Idle (s s' : Site) : Prop where
  history : s'.db.history = s.db.history
  job : ∀ x ∈ s.db.history, s'.job x.txn = s.job x.txn
  totals : ∀ {M : Type} [AddCommMonoid M] (v : Int → PartMeta → M) h,
    liveSum v s'.db.tables h = liveSum v s.db.tables h
  untouched : ∀ j, Known s.db j → Untouched s'.db j → Untouched s.db j
  gone : ∀ j, Known s.db j →
    (∀ p ∈ s.db.tables.parts, p.id ∈ j.inputs.map PartRow.id → p.live = false) →
    ∀ p ∈ s'.db.tables.parts, p.id ∈ j.inputs.map PartRow.id → p.live = false

/-- An event that is no commit. -/
theorem Sound.idle {e : Event} (job : Nat → Option Job) (h : Sound content key s)
    (hs : Catalog.step s.db e = some db') (hno : ∀ t, e ≠ .commit t)
    (hjob : ∀ x ∈ s.db.history, job x.txn = s.job x.txn) :
    Idle s { s with db := db', job := job } := by
  rcases step_tables h.reachable.inv hs with ⟨t, τ, id, he, -⟩ | ⟨-, hhist, hside⟩
  · exact absurd he (hno t)
  · exact ⟨hhist, hjob, fun v k => aside_liveSum v hside k, fun j hk hu => hu.before h hk hs,
      fun j hk hgone => gone_after h hk hs hgone⟩

theorem Idle.balanced {base : HypertableId → Multiset α} (hi : Idle s s')
    (hb : Balanced content key base s) : Balanced content key base s' := by
  intro k
  unfold liveRows removedRows addedSince
  rw [hi.totals, total_congr 0 k hi.history hi.job, total_congr 0 k hi.history hi.job]
  exact hb k

theorem Idle.erasing (h : Sound content key s) (hi : Idle s s') (he : Erasing content key s)
    (hread : ∀ n j k, s'.reads.lookup n = some j → j.work = .deleteKey k →
      s.reads.lookup n = some j ∨
        liveSum (elsewhere content key j k) s.db.tables j.hypertableId = 0) :
    Erasing content key s' := by
  have hdone : ∀ j, Done s' j → Done s j := by
    rintro j ⟨x, hx, hj⟩
    rw [hi.history] at hx
    exact ⟨x, hx, hi.job x hx ▸ hj⟩
  constructor
  · intro j hd
    obtain ⟨hlt, hgone⟩ := he.gone j (hdone j hd)
    rw [hi.history]
    exact ⟨hlt, hi.gone j (h.known_of_done (hdone j hd)) hgone⟩
  · intro n j k hlook hw hcond
    rw [hi.totals]
    rcases hread n j k hlook hw with hlook₀ | hzero
    · have hk := (h.reads n j hlook₀).2.1
      have hadd : addedSince content s' j.readAt j.hypertableId =
          addedSince content s j.readAt j.hypertableId :=
        total_congr j.readAt j.hypertableId hi.history hi.job
      rw [hadd]
      exact he.erased n j k hlook₀ hw (hcond.imp (hi.untouched j hk) (hdone j))
    · rw [hzero]
      exact Multiset.zero_le _

/-- A deletion that has just read has all of the key's rows among its inputs. -/
theorem elsewhere_read {k : Int} {h : HypertableId} {n : Nat} (hs : Sound content key s) :
    liveSum (elsewhere content key ⟨.deleteKey k, h, livePartsWithKey s.db.tables h k, n⟩ k)
      s.db.tables h = 0 := by
  refine partSum_eq_zero ?_
  intro p hp
  unfold elsewhere
  split
  · rfl
  · rename_i hout
    rw [Multiset.filter_eq_nil]
    intro r hr heq
    obtain ⟨hlo, hhi⟩ := hs.covered p (List.mem_of_mem_filter hp) r hr
    refine hout (List.mem_map_of_mem (List.mem_filter.mpr ⟨hp, ?_⟩))
    rw [heq] at hlo hhi
    exact decide_eq_true ⟨hlo, hhi⟩

theorem Sound.history_lt (h : Sound content key s) {x : Committed} (hx : x ∈ s.db.history) :
    x.txn < s.db.nextTxn := by
  by_contra hle
  exact ((h.reachable.callOk x.txn).fresh (Nat.not_lt.mp hle)).2.2 x hx rfl

/-! ## 5. Every run -/

theorem Start.balanced (h : Start content key s) :
    Balanced content key (liveRows content s.db.tables) s := by
  intro k
  unfold removedRows addedSince Site.total Site.since
  rw [h.db.history]
  rfl

theorem Start.erasing (h : Start content key s) : Erasing content key s where
  gone j hd := by
    obtain ⟨x, hx, -⟩ := hd
    rw [h.db.history] at hx
    cases hx
  erased n j k hlook := by
    rw [h.reads] at hlook
    cases hlook

/-- What is maintained along a run. -/
def Kept (content : String → Multiset α) (key : α → Int) (base : HypertableId → Multiset α)
    (s : Site) : Prop :=
  Sound content key s ∧ Balanced content key base s ∧ Erasing content key s

/-- Once a mutation is durable its inputs count for nothing. -/
theorem elsewhere_done {j : Job} {k : Int} (he : Erasing content key s) (hd : Done s j) :
    liveSum (elsewhere content key j k) s.db.tables j.hypertableId =
      (liveRows content s.db.tables j.hypertableId).filter fun r => key r = k := by
  unfold liveRows liveSum
  rw [partSum_rows]
  refine partSum_elsewhere ?_
  intro p hp hin
  obtain ⟨hp, hcond⟩ := List.mem_filter.mp hp
  have hlive := (of_decide_eq_true hcond).2
  rw [(he.gone j hd).2 p hp hin] at hlive
  cases hlive

/-- The action is call `t`'s own. -/
def Own (t : Nat) (s : Site) : Act → Prop
  | .catalog e => e.subject = some t
  | .submit _ _ => s.db.nextTxn = t
  | .read _ _ _ => False

section Actions

variable [DecidableEq α]

/-- **Every action keeps the books and the erasures.** -/
theorem ledger_act {a : Act} {base : HypertableId → Multiset α}
    (hs : act content key s a = some s') (h : Sound content key s)
    (hb : Balanced content key base s) (he : Erasing content key s) :
    Balanced content key base s' ∧ Erasing content key s' := by
  rcases act_cases hs with ⟨e, -, hne, db', hdb, rfl⟩ | ⟨w, k, inputs, -, hr, rfl⟩ |
    ⟨n, c, j, -, hlook, hc, db', hdb, rfl⟩
  · by_cases hcommit : ∃ t, e = .commit t
    · obtain ⟨t, rfl⟩ := hcommit
      exact ⟨balance_commit h hb hdb, erasing_commit h he hdb⟩
    · have hidle := h.idle s.job hdb (fun t ht => hcommit ⟨t, ht⟩) fun _ _ => rfl
      exact ⟨hidle.balanced hb, hidle.erasing h he fun n j k hl _ => Or.inl hl⟩
  · refine ⟨hb, ?_⟩
    have hidle : Idle s { s with
        reads := s.reads.insert s.nextRead ⟨w, k, inputs, s.db.history.length⟩
        nextRead := s.nextRead + 1 } :=
      ⟨rfl, fun _ _ => rfl, fun _ _ => rfl, fun _ _ hu => hu, fun _ _ hg => hg⟩
    refine hidle.erasing h he ?_
    intro n j k' hl hw
    by_cases hn : n = s.nextRead
    · subst hn
      rw [AList.lookup_insert, Option.some.injEq] at hl
      subst hl
      dsimp only at hw
      subst hw
      rw [hr.1]
      exact Or.inr (elsewhere_read h)
    · rw [AList.lookup_insert_ne hn] at hl
      exact Or.inl hl
  · have hidle := h.idle (Function.update s.job s.db.nextTxn (some j)) hdb (by simp)
      fun x hx => Function.update_of_ne (Nat.ne_of_lt (h.history_lt hx)) _ _
    exact ⟨hidle.balanced hb, hidle.erasing h he fun n j k hl _ => Or.inl hl⟩

theorem kept_act {a : Act} {base : HypertableId → Multiset α}
    (hs : act content key s a = some s') (h : Kept content key base s) :
    Kept content key base s' :=
  ⟨sound_act hs h.1, ledger_act hs h.1 h.2.1 h.2.2⟩

/-- If the action is call `t`'s own, the catalog's tables are the same after it. -/
def Leaves (content : String → Multiset α) (key : α → Int) (t : Nat) (s : Site) (a : Act) : Prop :=
  Own t s a → ∀ s' ∈ act content key s a, s'.db.tables = s.db.tables

/-- Only its COMMIT changes the tables for a call. -/
theorem leaves_of_not_commit {a : Act} {t : Nat} (hno : a ≠ .catalog (.commit t)) :
    Leaves content key t s a := by
  intro hown s' hs
  rcases act_cases hs with ⟨e, rfl, hne, db', hdb, rfl⟩ | ⟨w, k, inputs, rfl, -, rfl⟩ |
    ⟨n, c, j, rfl, -, -, db', hdb, rfl⟩
  · exact step_own_tables hdb hown fun heq => hno (by rw [heq])
  · rfl
  · simp only [step] at hdb
    split at hdb <;> cases hdb <;> rfl

/-- **Row conservation.**  After any interleaving of ADDs, merges, key deletions and plain
DELETEs, on every hypertable: the live rows are the rows of all committed ADDs (and those live at
the start) less the rows removed by committed deletions; after a committed `delete_key` the live
rows of its key are rows of ADDs committed since it READ its live parts; and a call that ends in
a refusal has left the tables as they were at every one of its steps. -/
theorem rows_conserved {s₀ : Site} {as : List Act} (hstart : Start content key s₀)
    (hrun : Lts.run (act content key) s₀ as = some s) :
    (∀ h, liveRows content s.db.tables h + removedRows content key s h =
      liveRows content s₀.db.tables h + addedSince content s 0 h) ∧
    (∀ x ∈ s.db.history, ∀ j k, s.job x.txn = some j → j.work = .deleteKey k →
      (liveRows content s.db.tables j.hypertableId).filter (fun r => key r = k) ≤
        (addedSince content s j.readAt j.hypertableId).filter fun r => key r = k) ∧
    ∀ t e, Refusal e → s.db.replies t = some (.error e) →
      Lts.Along (act content key) (Leaves content key t) s₀ as := by
  have hkept : Kept content key (liveRows content s₀.db.tables) s :=
    Lts.run_inv (I := Kept content key (liveRows content s₀.db.tables))
      (fun _ _ _ hs h => kept_act hs h) hrun ⟨hstart.sound, hstart.balanced, hstart.erasing⟩
  obtain ⟨hsound, hbal, her⟩ := hkept
  refine ⟨hbal, ?_, ?_⟩
  · intro x hx j k hj hw
    obtain ⟨-, n, hlook⟩ := hsound.jobs x.txn j hj
    rw [← elsewhere_done her ⟨x, hx, hj⟩]
    exact her.erased n j k hlook hw (Or.inr ⟨x, hx, hj⟩)
  · intro t e he hreply
    obtain ⟨-, hnever⟩ := hsound.reachable.refused t e he hreply
    refine (Lts.run_along hrun).imp (I := Sound content key) (fun _ _ _ hs h => sound_act hs h)
      ?_ hstart.sound
    intro s₁ a hs₁ ⟨s₂, hact, hreach⟩
    refine leaves_of_not_commit ?_
    rintro rfl
    -- a durable call stays in the history, where a refused one never was
    rcases act_cases hact with ⟨e', heq, -, db', hdb, rfl⟩ | ⟨_, _, _, heq, -⟩ |
      ⟨_, _, _, heq, -⟩ <;> cases heq
    obtain ⟨τ, hlook, hsent, hdb'⟩ := step_commit hdb
    have hin : (⟨t, τ.w.cid.getD 0, τ.call⟩ : Committed) ∈ db'.history := by
      rw [hdb']
      simp
    have hlater := hreach.inv
      (I := fun s => Sound content key s ∧
        (⟨t, τ.w.cid.getD 0, τ.call⟩ : Committed) ∈ s.db.history)
      ?_ ⟨sound_act hact hs₁, hin⟩
    · exact hnever _ hlater.2 rfl
    · rintro a b c hs ⟨hsnd, hmem⟩
      refine ⟨sound_act hs hsnd, ?_⟩
      rcases act_cases hs with ⟨e', -, -, db'', hdb'', rfl⟩ | ⟨_, _, _, -, -, rfl⟩ |
        ⟨_, _, _, -, -, -, db'', hdb'', rfl⟩
      · exact step_history_mono hsnd.reachable.inv hdb'' hmem
      · exact hmem
      · exact step_history_mono hsnd.reachable.inv hdb'' hmem

end Actions

/-! ## 6. Calls of the writers -/

/-- A table of numbered rows. -/
def shelfTable : Hypertable where
  id := 1
  name := "shelf"
  tableSchema := .obj [("fields", .arr [
    .obj [("name", .str "tenant_id"), ("type", .str "int64")],
    .obj [("name", .str "serial"), ("type", .str "int64")]])]
  partitionSpec := .obj [("columns", .arr [])]
  sortKey := ["tenant_id"]
  packingKey := "tenant_id"
  placement := .packed

def shelfColumns : TableColumns := ⟨[⟨"tenant_id", .int64, true, .stored, "int64", false⟩,
  ⟨"serial", .int64, true, .stored, "int64", false⟩]⟩

def shelfOutput (rows : List (UInt8 × UInt8)) : RecordBatch :=
  ⟨shelfColumns.physicalSchema,
    rows.map fun r => ⟨[.int64 (smallI64 r.1), .int64 (smallI64 r.2)], rfl⟩⟩

/-- What a view gives for these rows. -/
def shelfItems (rows : List (UInt8 × UInt8)) : List FlushItem :=
  (batchesToL0Items .equal noteEnv.eval (fun _ => 0) (fun _ => "\x7b\x7d") .stable .characters
    [shelfOutput rows] shelfTable 1000).toOption.getD []

/-- The parts it publishes for these rows. -/
def shelved (uuid : String) (rows : List (UInt8 × UInt8)) : List PartMeta :=
  (shelfItems rows).map fun item => publishedPart (Gc.partPath 1 0 uuid) item 100

def shelvedFile (rows : List (UInt8 × UInt8)) : Option PartFile :=
  (shelfItems rows).head?.map fun item => noteEnv.reader.file item.part.rowGroups

def shelfStore (path : String) : Option PartFile :=
  if path = Gc.partPath 1 0 "a" then shelvedFile [(7, 1), (8, 1)]
  else if path = Gc.partPath 1 0 "b" then shelvedFile [(7, 2)]
  else none

/-- `delete_key` of tenant 7, over the tables where the first part is live. -/
def shelfErasure : Option Erasure := do
  let db ← Lts.run step {} (partAdds (shelved "a" [(7, 1), (8, 1)]))
  (deleteKey noteEnv shelfStore db.tables shelfTable (smallI64 7)).toOption.join

def shelfWriter : ChunkWriterEnv where
  codec := .characters
  placement := .packed
  maxRowGroupRows := 10
  packingKey := "tenant_id"
  nextPath _ := Gc.partPath 1 1 "m"
  onOpen _ := .ok ()
  encodedSize _ := 0
  head _ := 90

/-- What `merge_parts` writes of the second part. -/
def shelfMerge : List (Written shelfColumns.physicalSchema) :=
  (do
    let streams ← partStreams noteEnv.eval shelfStore shelfColumns.physicalSchema shelfColumns
      (shelved "b" [(7, 2)])
    StreamingChunkWriter.write shelfWriter
      ((mergeStreams .codes streams shelfTable.sortKey).1.map .ok)).toOption.getD []

/-- The objects of all of them. -/
def shelfObject (path : String) : Option PartFile :=
  ((shelfMerge.find? fun x => x.output.path = path).map fun x =>
    noteEnv.reader.file x.rowGroups) <|> shelfErasure.bind fun d => d.store path

def shelf (path : String) : Multiset (List Value) :=
  match shelfObject path with
  | some file => (file.rows.getD []).map Subtype.val
  | none => 0

/-- The tenant of a row. -/
def shelfKey : List Value → Int
  | .int64 key :: _ => key.val
  | _ => 0

/-- A call `t` is made for the mutation `n`, and runs to its end. -/
def lands (n t stmts : Nat) (c : Call) : List Act :=
  .submit n c :: (List.replicate stmts (.catalog (.stmt t)) ++
    [.catalog (.sendCommit t), .catalog (.commit t)])

/-- A mutation `n` that adds parts, in call `t`. -/
def adds (n t : Nat) (parts : List PartMeta) : List Act :=
  .read .add 1 [] :: lands n t 5 (commit 1 (.add parts) none)

/-- The row of a live part. -/
def shelfPart (id : Int) (m : PartMeta) : PartRow := ⟨id, 1, m, id, none, none⟩

/-- A part is added, and the deletion of tenant 7 reads it. -/
def deletionReads : List Act :=
  adds 0 0 (shelved "a" [(7, 1), (8, 1)]) ++
    [.read (.deleteKey 7) 1 ((shelved "a" [(7, 1), (8, 1)]).map (shelfPart 1))]

def deletionLands (t : Nat) : List Act := shelfErasure.toList.flatMap fun d => lands 1 t 6 d.call

theorem rows_conserved_deletion :
    ∃ s, Lts.run (act shelf shelfKey) {} (deletionReads ++ deletionLands 1) = some s ∧
      liveRows shelf s.db.tables 1 + removedRows shelf shelfKey s 1 =
        0 + addedSince shelf s 0 1 ∧
      (liveRows shelf s.db.tables 1).filter (fun r => shelfKey r = 7) ≤ 0 := by
  have hobs : ∃ s ∈ Lts.run (act shelf shelfKey) {} (deletionReads ++ deletionLands 1),
      ∃ x ∈ s.db.history, (s.job x.txn).map Job.work = some (.deleteKey 7) ∧
        ∀ j ∈ s.job x.txn, j.hypertableId = 1 ∧
          (addedSince shelf s j.readAt 1).filter (fun r => shelfKey r = 7) = 0 := by decide +kernel
  obtain ⟨s, hrun, x, hx, hwork, hj⟩ := hobs
  obtain ⟨j, hjob, hw⟩ := Option.map_eq_some_iff.mp hwork
  obtain ⟨hht, hzero⟩ := hj j hjob
  obtain ⟨hbal, herased, -⟩ := rows_conserved start_empty hrun
  have hkey := herased x hx j 7 hjob hw
  rw [hht, hzero] at hkey
  exact ⟨s, hrun, hbal 1, hkey⟩

/-- After the deletion has read, another row of its tenant is added, and a merge reads and rewrites
it; then the deletion lands too. -/
def addedMeanwhile : List Act :=
  deletionReads ++ adds 2 1 (shelved "b" [(7, 2)]) ++
    [.read .merge 1 ((shelved "b" [(7, 2)]).map (shelfPart 2)),
      .catalog (.drawLease ⟨1, .obj []⟩ 5 1000), .catalog (.installLease 0)] ++
    lands 3 2 9 (commitCompactionReplace 1 ⟨1, .obj [], 5, 1, 1000000⟩ [2]
      (shelfMerge.map fun x => mergedPart (.obj []) 1 x.output) ⟨1, "merge", [8]⟩) ++
    deletionLands 3

/-- **A row that a merge read before the deletion committed can be live after both**: it was added
after the deletion had read. -/
theorem added_meanwhile_survives :
    ¬ ∀ (content : String → Multiset (List Value)) (key : List Value → Int) (s₀ : Site)
      (as : List Act) (s : Site), Start content key s₀ →
      Lts.run (act content key) s₀ as = some s →
      ∀ i x y jx jy k, s.db.history[i]? = some x → y ∈ s.db.history →
        s.job x.txn = some jx → jx.work = .deleteKey k →
        s.job y.txn = some jy → jy.work = .merge → jy.hypertableId = jx.hypertableId →
        jy.readAt ≤ i →
        ∀ r ∈ jy.rows content, key r = k → r ∉ liveRows content s.db.tables jx.hypertableId := by
  intro h
  have hobs : ∃ s ∈ Lts.run (act shelf shelfKey) {} addedMeanwhile,
      (∃ x ∈ s.db.history[3]?, x.txn = 3) ∧ (∃ y ∈ s.db.history, y.txn = 2) ∧
      (∃ jx ∈ s.job 3, jx.work = .deleteKey 7 ∧ jx.hypertableId = 1) ∧
      (∃ jy ∈ s.job 2, jy.work = .merge ∧ jy.hypertableId = 1 ∧ jy.readAt ≤ 3 ∧
        [.int64 (smallI64 7), .int64 (smallI64 2)] ∈ jy.rows shelf) ∧
      [.int64 (smallI64 7), .int64 (smallI64 2)] ∈ liveRows shelf s.db.tables 1 := by
    decide +kernel
  obtain ⟨s, hrun, ⟨x, hx, hxt⟩, ⟨y, hy, hyt⟩, ⟨jx, hjx, hwx, hhtx⟩,
    ⟨jy, hjy, hwy, hhty, hread, hrow⟩, hlive⟩ := hobs
  exact h shelf shelfKey {} addedMeanwhile s start_empty hrun 3 x y jx jy 7 hx hy (hxt ▸ hjx) hwx
    (hyt ▸ hjy) hwy (hhty.trans hhtx.symm) hread _ hrow rfl (hhtx ▸ hlive)

end Ukiel.Compactor
