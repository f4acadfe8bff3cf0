/-
# The reaper against queries

A query reads what is live when it is planned and opens the files later.  `server.rs` bounds it by
`statement_timeout`, which `validate` wants below the tombstone grace, "or a query could outlive the
grace and read reaped objects".  The grace is counted from `commits.created_at`, and that is
`DEFAULT now()`: the time the deleting transaction BEGAN.

* §1 the times of commits: the row has the time its transaction began (`Aged.stamped`).
* §2 a part that is live at a time, from then on (`Held`): it dies no sooner than the oldest
  transaction that was about to delete it, and the grace is counted from there.
* §3 `readers_grace_iff`: what a reader can count on.  When no transaction that names its part had
  been open for more than `open`, that is the grace less `open`, and no more.
-/
import Ukiel.Gc.Reap

namespace Ukiel.Gc
open Ukiel.Catalog

variable {db db' : Db} {grace since : Int} {i : Int} {s s' : Reaping}

/-! ## 1. The time of a commit -/

/-- Only the insert into `commits` writes the row, at the time of the transaction. -/
theorem execStmt_row {T : Tables} {c : Call} {env : Env} {w w' : Writes} {stmt : Stmt}
    (h : execStmt T c env w stmt = .ok w') :
    w'.row = w.row ∨ ∃ r, w'.row = some r ∧ r.createdAt = env.txnStart := by
  obtain rfl := execStmt_effect h
  cases stmt <;> simp [Stmt.effect, Call.commitRow]

/-- An open transaction was open before, since the same time, or it begins now. -/
theorem step_startedAt {e : Event} {t : Nat} {τ' : Txn} (h : step db e = some db')
    (hl : db'.txns.lookup t = some τ') :
    (∃ τ, db.txns.lookup t = some τ ∧ τ'.call = τ.call ∧ τ'.startedAt = τ.startedAt) ∨
      (τ'.startedAt = db.clock ∧ τ'.w = {}) := by
  by_cases hown : e.subject = some t
  · cases e with
    | stmt t' =>
      cases hown
      obtain ⟨τ, stmt, rest, hlook, -, -, -, rfl⟩ := step_stmt h
      unfold Db.runStmt at hl
      split at hl
      · simp only [AList.lookup_insert, Option.some.injEq] at hl
        exact Or.inl ⟨τ, hlook, hl ▸ rfl, hl ▸ rfl⟩
      · simp at hl
    | sendCommit t' =>
      cases hown
      obtain ⟨τ, hlook, -, -, rfl⟩ := step_sendCommit h
      simp only [AList.lookup_insert, Option.some.injEq] at hl
      exact Or.inl ⟨τ, hlook, hl ▸ rfl, hl ▸ rfl⟩
    | commit t' =>
      cases hown
      obtain ⟨τ, -, -, rfl⟩ := step_commit h
      simp at hl
    | rollback t' f =>
      cases hown
      obtain ⟨τ, -, rfl⟩ := step_rollback h
      simp at hl
    | abandon t' f =>
      cases hown
      obtain ⟨τ, hlook, -, -, rfl⟩ := step_abandon h
      simp only [AList.lookup_insert, Option.some.injEq] at hl
      exact Or.inl ⟨τ, hlook, hl ▸ rfl, hl ▸ rfl⟩
    | lost t' =>
      cases hown
      obtain ⟨c, -, rfl⟩ := step_lost h
      exact Or.inl ⟨τ', by simpa using hl, rfl, rfl⟩
    | ack t' =>
      cases hown
      obtain ⟨x, -, -, rfl⟩ := step_ack h
      exact Or.inl ⟨τ', by simpa using hl, rfl, rfl⟩
    | _ => cases hown
  · by_cases hbegin : ∃ c, e = .begin c ∧ t = db.nextTxn
    · obtain ⟨c, rfl, rfl⟩ := hbegin
      simp only [step] at h
      split at h
      · cases h
        simp only [AList.lookup_insert, Option.some.injEq] at hl
        exact Or.inr ⟨hl ▸ rfl, hl ▸ rfl⟩
      · cases h
        exact Or.inl ⟨τ', hl, rfl, rfl⟩
    · obtain ⟨hsame, -⟩ := step_other h hown fun c hc hn => hbegin ⟨c, hc, hn⟩
      exact Or.inl ⟨τ', hsame ▸ hl, rfl, rfl⟩

/-- **A commit's row has the time its transaction began.** -/
def Stamped (db : Db) : Prop :=
  ∀ t τ, db.txns.lookup t = some τ → ∀ r ∈ τ.w.row, r.createdAt = τ.startedAt

theorem Stamped.step {e : Event} (h : Stamped db) (hs : Catalog.step db e = some db') :
    Stamped db' := by
  intro t τ' hl r hr
  rcases step_startedAt hs hl with ⟨τ, hlook, -, hstart⟩ | ⟨-, hw⟩
  · rcases step_txn hs hl with
      ⟨τ₀, hlook₀, -, hw⟩ | ⟨c, -, -, rfl⟩ | ⟨τ₀, stmt, rest, w, -, hlook₀, -, hexec, rfl⟩
    · obtain rfl := Option.some.inj (hlook.symm.trans hlook₀)
      rw [hstart]
      exact h t τ hlook r (hw ▸ hr)
    · cases hr
    · rcases execStmt_row hexec with hsame | ⟨r', hr', hcreated⟩
      · exact h t τ₀ hlook₀ r (hsame ▸ hr)
      · obtain rfl := Option.some.inj (hr'.symm.trans hr)
        exact hcreated
  · rw [hw] at hr
    cases hr

/-- **How old the death of a part can be**: it is not before the given time, and neither is the
beginning of an open transaction that names the part. -/
structure Aged (since : Int) (i : Int) (db : Db) : Prop where
  clock : since ≤ db.clock
  stamped : Stamped db
  named : ∀ t τ, db.txns.lookup t = some τ → i ∈ τ.call.op.oldParts → since ≤ τ.startedAt
  died : ∀ p ∈ db.tables.parts, p.id = i → ∀ d, p.deletedByCommit = some d →
    ∃ c ∈ db.tables.commits, c.id = d ∧ since ≤ c.createdAt

theorem Aged.step {e : Event} (h : Aged since i db) (hi : Inv db)
    (hs : Catalog.step db e = some db') : Aged since i db' where
  clock := h.clock.trans (step_clock hs)
  stamped := h.stamped.step hs
  named := by
    intro t τ' hl hmem
    rcases step_startedAt hs hl with ⟨τ, hlook, hcall, hstart⟩ | ⟨hnow, -⟩
    · rw [hstart]
      exact h.named t τ hlook (hcall ▸ hmem)
    · rw [hnow]
      exact h.clock
  died := by
    intro p' hp' hid d hd
    rcases step_part_cases hi hs hp' with ⟨p, hp, he⟩ |
      ⟨t, τ, id, rfl, hlook, hcid, -, ⟨p, hp, hold, -, -, rfl⟩ | ⟨-, -, hnone, -⟩⟩
    · rw [he] at hid hd
      obtain ⟨c, hc, hcd, hsince⟩ := h.died p hp hid d hd
      exact ⟨c, step_commits_mono hi hs hc, hcd, hsince⟩
    · -- the commit that has just landed is as old as its transaction
      obtain ⟨τ', hlook', hsent, rfl⟩ := step_commit hs
      obtain rfl := Option.some.inj (hlook.symm.trans hlook')
      obtain ⟨id', at', hcid', hrow⟩ := ((hi.txn t τ hlook).ready hsent).id
      obtain rfl := Option.some.inj (hcid.symm.trans hcid')
      refine ⟨τ.call.commitRow id at', ?_, Option.some.inj hd, ?_⟩
      · exact List.mem_append_right _ (by simp [hrow])
      · rw [h.stamped t τ hlook _ hrow]
        exact h.named t τ hlook (hid ▸ hold)
    · rw [hnone] at hd
      cases hd

/-! ## 2. A part that was live -/

/-- **What the reaper owes a reader** of the part: its object is not deleted, and no pass is about
to delete it, before the grace has passed since the given time. -/
structure Held (grace since : Int) (p : PartRow) (s : Reaping) : Prop where
  aged : Aged since p.id s.db
  row : ∃ q ∈ s.db.tables.parts, q.id = p.id ∧ q.partMeta = p.partMeta
  doomed : ∀ g q hs, s.passes.lookup g = some (.delete q hs) →
    q.partMeta.path = p.partMeta.path → since + grace ≤ s.db.clock
  reaped : p.partMeta.path ∈ s.reaped → since + grace ≤ s.db.clock

variable {p : PartRow}

/-- What the query returns has died, and the grace has passed since. -/
theorem Held.nextReapablePart {h : HypertableId} {q : PartRow} (hheld : Held grace since p s)
    (hok : s.Ok)
    (hq : Gc.nextReapablePart s.db.tables s.feed.workers h s.db.clock grace = some q)
    (hpath : q.partMeta.path = p.partMeta.path) : since + grace ≤ s.db.clock := by
  obtain ⟨hrow, hreap⟩ := List.mem_filter.mp (List.mem_of_find?_eq_some hq)
  obtain ⟨-, -, d, hd, ⟨c, hc, hcd, hcreated⟩, -⟩ := of_decide_eq_true hreap
  obtain ⟨q', hq', hid, hmeta⟩ := hheld.row
  obtain rfl : q = q' := List.inj_on_of_nodup_map hok.separate.parts hrow hq'
    (hpath.trans (congrArg PartMeta.path hmeta).symm)
  obtain ⟨c', hc', hcd', hsince⟩ := hheld.aged.died q hrow hid d hd
  obtain rfl : c = c' :=
    List.inj_on_of_nodup_map hok.feed.inv.stored.commit_nodup hc hc' (hcd.trans hcd'.symm)
  omega

/-- Only the program counter of a pass has moved. -/
theorem Held.goto (h : Held grace since p s) (g : Nat) (task : ReapTask)
    (ht : ∀ q hs, task = .delete q hs → q.partMeta.path = p.partMeta.path →
      since + grace ≤ s.db.clock) : Held grace since p (s.goto g task) :=
  { h with
    doomed := by
      intro g' q hs hlook hpath
      by_cases hg : g' = g
      · subst hg
        rw [Reaping.goto, AList.lookup_insert, Option.some.injEq] at hlook
        exact ht q hs hlook hpath
      · rw [Reaping.goto, AList.lookup_insert_ne hg] at hlook
        exact h.doomed g' q hs hlook hpath }

/-- A pass has ended. -/
theorem Held.erase (h : Held grace since p s) (g : Nat) :
    Held grace since p { s with passes := s.passes.erase g } :=
  { h with
    doomed := by
      intro g' q hs hlook hpath
      by_cases hg : g' = g
      · subst hg
        simp at hlook
      · rw [AList.lookup_erase_ne hg] at hlook
        exact h.doomed g' q hs hlook hpath }

/-- The catalog has moved, and the passes have not. -/
theorem Held.feed_step {f : PipelineEvent} {feed : Pipelines} (h : Held grace since p s)
    (hok : s.Ok) (hs : pipelineStep s.feed f = some feed) :
    Held grace since p { s with feed := feed } := by
  obtain ⟨-, haged, hrow, hclock⟩ := pipelineStep_db (I := fun db => Inv db ∧ Aged since p.id db ∧
      (∃ q ∈ db.tables.parts, q.id = p.id ∧ q.partMeta = p.partMeta) ∧ s.db.clock ≤ db.clock)
    (G := fun _ _ => True) (fun db e db' hs _ ⟨hi, haged, ⟨q, hq, hid, hmeta⟩, hclock⟩ => by
      obtain ⟨q', hq', hid', -, hmeta'⟩ := step_part hi hs hq
      exact ⟨inv_step hs hi, haged.step hi hs, ⟨q', hq', hid'.trans hid, hmeta'.trans hmeta⟩,
        hclock.trans (step_clock hs)⟩)
    (fun _ _ _ => trivial) hs (fun _ _ => trivial) ⟨hok.feed.inv, h.aged, h.row, le_rfl⟩
  exact
    { aged := haged
      row := hrow
      doomed := fun g q hs' hlook hpath => (h.doomed g q hs' hlook hpath).trans hclock
      reaped := fun hmem => (h.reaped hmem).trans hclock }

/-- **What a move can do**: the catalog moves; a pass ends; a pass goes on, to a part only if its
query has returned it; an object is deleted; or its row is stamped. -/
theorem reapMove_cases {m : ReapMove} (hs : reapMove grace s m = some s') :
    (∃ f feed, pipelineStep s.feed f = some feed ∧ s' = { s with feed := feed }) ∨
    (∃ g, s' = { s with passes := s.passes.erase g }) ∨
    (∃ g task n, s' = { s.goto g task with nextPass := n } ∧ ∀ q hs, task = .delete q hs →
      ∃ h, nextReapablePart s.db.tables s.feed.workers h s.db.clock grace = some q) ∨
    (∃ g q hs, s.passes.lookup g = some (.delete q hs) ∧
      s' = { s.goto g (.stamp q hs) with reaped := q.partMeta.path :: s.reaped }) ∨
    ∃ g hs f feed, pipelineStep s.feed f = some feed ∧
      s' = { s.goto g (.ask hs) with feed := feed } := by
  rcases m with f | hts | g | g
  · refine Or.inl ⟨f, ?_⟩
    rcases f with e | _ | _ | _ | _
    · simp only [reapMove] at hs
      split at hs
      · obtain ⟨feed, hfeed, rfl⟩ := Option.map_eq_some_iff.mp hs
        exact ⟨feed, hfeed, rfl⟩
      · cases hs
    all_goals
      obtain ⟨feed, hfeed, rfl⟩ := Option.map_eq_some_iff.mp hs
      exact ⟨feed, hfeed, rfl⟩
  · cases hs
    exact Or.inr (Or.inr (Or.inl ⟨s.nextPass, .ask hts, s.nextPass + 1, rfl, by simp⟩))
  · simp only [reapMove] at hs
    split at hs
    · cases hs
    · rename_i task hlook
      rcases task with (_ | ⟨k, hts⟩) | ⟨q, hts⟩ | ⟨q, hts⟩
      · cases hs
        exact Or.inr (Or.inl ⟨g, rfl⟩)
      · simp only [Reaping.reap] at hs
        refine Or.inr (Or.inr (Or.inl ?_))
        split at hs
        · cases hs
          exact ⟨g, .ask hts, s.nextPass, rfl, by simp⟩
        · rename_i q hnext
          cases hs
          refine ⟨g, .delete q (k :: hts), s.nextPass, rfl, ?_⟩
          rintro q' hts' heq
          cases heq
          exact ⟨k, hnext⟩
      · cases hs
        exact Or.inr (Or.inr (Or.inr (Or.inl ⟨g, q, hts, hlook, rfl⟩)))
      · obtain ⟨feed, hfeed, rfl⟩ := Option.map_eq_some_iff.mp hs
        exact Or.inr (Or.inr (Or.inr (Or.inr ⟨g, hts, _, feed, hfeed, rfl⟩)))
  · cases hs
    exact Or.inr (Or.inl ⟨g, rfl⟩)

/-- **One move.** -/
theorem Held.move {m : ReapMove} (h : Held grace since p s) (hok : s.Ok)
    (hs : reapMove grace s m = some s') : Held grace since p s' := by
  rcases reapMove_cases hs with ⟨f, feed, hfeed, rfl⟩ | ⟨g, rfl⟩ | ⟨g, task, n, rfl, hnext⟩ |
    ⟨g, q, hts, hlook, rfl⟩ | ⟨g, hts, f, feed, hfeed, rfl⟩
  · exact h.feed_step hok hfeed
  · exact h.erase g
  · have hgone := h.goto g task fun q hts heq hpath => by
      obtain ⟨k, hq⟩ := hnext q hts heq
      exact h.nextReapablePart hok hq hpath
    exact { hgone with }
  · have hstamp := h.goto g (.stamp q hts) (by simp)
    refine { hstamp with reaped := ?_ }
    intro hmem
    rcases List.mem_cons.mp hmem with hpath | hmem
    · exact h.doomed g q hts hlook hpath.symm
    · exact h.reaped hmem
  · exact (h.feed_step hok hfeed).goto g _ (by simp)

/-- **Any run.** -/
theorem Held.run (h : Held grace since p s) (hok : s.Ok)
    (hrun : Lts.Reaches (reapMove grace) s s') : Held grace since p s' :=
  (hrun.inv (I := fun s => s.Ok ∧ Held grace since p s)
    (fun _ _ _ hs h => ⟨h.1.move hs, h.2.move h.1 hs⟩) ⟨hok, h⟩).2

/-- A property of the catalog that every event keeps is kept by every move. -/
theorem reapMove_db {I : Db → Prop} {m : ReapMove}
    (hI : ∀ db e db', step db e = some db' → I db → I db') (hs : reapMove grace s m = some s')
    (h : I s.db) : I s'.db := by
  have hfeed : ∀ {f feed}, pipelineStep s.feed f = some feed → I feed.db := fun hs =>
    pipelineStep_db (G := fun _ _ => True) (fun db e db' hs _ => hI db e db' hs)
      (fun _ _ _ => trivial) hs (fun _ _ => trivial) h
  rcases reapMove_cases hs with ⟨f, feed, hstep, rfl⟩ | ⟨g, rfl⟩ | ⟨g, task, n, rfl, -⟩ |
    ⟨g, q, hts, -, rfl⟩ | ⟨g, hts, f, feed, hstep, rfl⟩
  · exact hfeed hstep
  · exact h
  · exact h
  · exact h
  · exact hfeed hstep

theorem Reaping.Reachable.stamped (h : Reaping.Reachable grace s) : Stamped s.db := by
  obtain ⟨s₀, hstart, hrun⟩ := h
  refine hrun.inv (I := fun s => Stamped s.db)
    (fun _ _ _ hs => reapMove_db (fun _ _ _ hs h => Stamped.step h hs) hs) ?_
  intro t τ hlook
  rw [Reaping.db, hstart.feed.db.txns] at hlook
  cases hlook

/-- A live part is not gone. -/
theorem Reaping.Ok.not_gone (h : s.Ok) (hp : p ∈ s.db.tables.parts) (hlive : p.live = true) :
    ¬ Gone s.db p.partMeta.path := by
  rintro ⟨q, hq, hpath, d, hdead, -⟩
  obtain rfl : q = p := List.inj_on_of_nodup_map h.separate.parts hq hp hpath
  simp [PartRow.live, hdead] at hlive

/-- **What a reader can count on** when it reads the catalog. -/
theorem Reaping.Reachable.held {longest : Nat} (h : Reaping.Reachable grace s)
    (hp : p ∈ s.db.tables.parts) (hlive : p.live = true)
    (hopen : ∀ t τ, s.db.txns.lookup t = some τ → p.id ∈ τ.call.op.oldParts →
      s.db.clock - longest ≤ τ.startedAt) : Held grace (s.db.clock - longest) p s where
  aged :=
    { clock := by omega
      stamped := h.stamped
      named := hopen
      died := by
        intro q hq hid d hd
        obtain rfl : q = p :=
          List.inj_on_of_nodup_map h.ok.feed.inv.stored.part_nodup hq hp hid
        simp [PartRow.live, hd] at hlive }
  row := ⟨p, hp, rfl, rfl⟩
  doomed g q hs hlook hpath :=
    absurd (hpath ▸ h.ok.doomed g q hs hlook) (h.ok.not_gone hp hlive)
  reaped hmem := absurd (h.ok.reaped _ hmem) (h.ok.not_gone hp hlive)

/-! ## 3. How long that is -/

/-- The same at another time. -/
def Reaping.at (s : Reaping) (now : Int) : Reaping :=
  { s with feed := { s.feed with db := { s.feed.db with clock := now } } }

theorem reapMove_tick {now : Int} (h : s.db.clock ≤ now) :
    reapMove grace s (.feed (.catalog (.tick now))) = some (s.at now) := by
  have hstep : step s.db (.tick now) = some { s.db with clock := now } := by simp [step, h]
  simp only [reapMove, Faithful, pipelineStep, Pipelines.Outside]
  rw [show step s.feed.db (.tick now) = _ from hstep]
  rfl

/-- A transaction that has sent its COMMIT lands. -/
theorem reapMove_commit {t : Nat} {τ : Txn} (hlook : s.db.txns.lookup t = some τ)
    (hsent : τ.sent = true) : ∃ s', reapMove grace s (.feed (.catalog (.commit t))) = some s' ∧
      s'.db.tables = τ.w.apply s.db.tables ∧ s'.db.clock = s.db.clock ∧
      s'.feed.workers = s.feed.workers := by
  obtain ⟨db', hstep, htables, hclock⟩ : ∃ db', step s.db (.commit t) = some db' ∧
      db'.tables = τ.w.apply s.db.tables ∧ db'.clock = s.db.clock := by
    simp only [step, hlook, hsent, if_true]
    exact ⟨_, rfl, rfl, rfl⟩
  refine ⟨{ s with feed := { s.feed with db := db' } }, ?_, htables, hclock, rfl⟩
  simp only [reapMove, Faithful, pipelineStep, Pipelines.Outside]
  rw [show step s.feed.db (.commit t) = _ from hstep]
  rfl

/-- A pass takes the part its query returns. -/
theorem reaches_reap {h : HypertableId} {q : PartRow}
    (hq : nextReapablePart s.db.tables s.feed.workers h s.db.clock grace = some q) :
    ∃ s', Lts.Reaches (reapMove grace) s s' ∧ s'.db.clock = s.db.clock ∧
      q.partMeta.path ∈ s'.reaped := by
  let s₁ : Reaping := { s.goto s.nextPass (.ask [h]) with nextPass := s.nextPass + 1 }
  let s₂ := s₁.goto s.nextPass (.delete q [h])
  let s₃ : Reaping :=
    { s₂.goto s.nextPass (.stamp q [h]) with reaped := q.partMeta.path :: s₂.reaped }
  have hask : reapMove grace s₁ (.reap s.nextPass) = some s₂ := by
    have hlook : s₁.passes.lookup s.nextPass = some (.ask [h]) := AList.lookup_insert ..
    simp only [reapMove, hlook, Reaping.reap]
    rw [show nextReapablePart s₁.db.tables s₁.feed.workers h s₁.db.clock grace = some q from hq]
  have hdelete : reapMove grace s₂ (.reap s.nextPass) = some s₃ := by
    have hlook : s₂.passes.lookup s.nextPass = some (.delete q [h]) := AList.lookup_insert ..
    simp only [reapMove, hlook]
    rfl
  exact ⟨s₃, ⟨[.runOnce [h], .reap s.nextPass, .reap s.nextPass],
    Lts.run_cons.mpr ⟨s₁, rfl, Lts.run_cons.mpr ⟨s₂, hask, Lts.run_singleton.mpr hdelete⟩⟩⟩,
    rfl, List.mem_cons_self⟩

/-- What happens in the catalog does not ask for the grace. -/
theorem run_events : ∀ (es : List Event) (s : Reaping),
    Lts.run (reapMove grace) s (es.map fun e => .feed (.catalog e)) =
      Lts.run (reapMove 0) s (es.map fun e => .feed (.catalog e))
  | [], _ => rfl
  | e :: es, s => by
    show (reapMove 0 s (.feed (.catalog e))).bind _ = _
    exact congrArg (Option.bind _) (funext fun s' => run_events es s')

/-- A part is added, and a deletion of it has sent its COMMIT. -/
def deletionSent : List Event :=
  .begin (commit 1 (.add [reapedPart]) none) :: List.replicate 5 (.stmt 0) ++
    [.sendCommit 0, .commit 0, .begin (commit 1 (.delete [1]) none)] ++
    List.replicate 4 (.stmt 1) ++ [.sendCommit 1]

theorem deletionSent_run : ∃ s ∈ Lts.run (reapMove 0) {}
      (deletionSent.map fun e => .feed (.catalog e)),
    s.db.clock = 0 ∧ s.feed.workers = [] ∧
    s.db.tables.parts = [⟨1, 1, reapedPart, 1, none, none⟩] ∧
    (∀ e ∈ s.db.txns.entries, e.2.startedAt = 0) ∧
    ∃ τ ∈ s.db.txns.lookup 1, τ.sent = true ∧
      (τ.w.apply s.db.tables).parts = [⟨1, 1, reapedPart, 1, some 2, none⟩] ∧
      ∃ c ∈ (τ.w.apply s.db.tables).commits, c.id = 2 ∧ c.createdAt = 0 := by
  decide +kernel

/-- **A deletion that is slow to commit**: the reader still finds the part, and the grace has begun
when the deletion did. -/
theorem slow_deletion (grace : Int) (longest : Nat) : ∃ s p, Reaping.Reachable grace s ∧
    p ∈ s.db.tables.parts ∧ p.live = true ∧
    (∀ t τ, s.db.txns.lookup t = some τ → p.id ∈ τ.call.op.oldParts →
      s.db.clock - longest ≤ τ.startedAt) ∧
    ∃ s', Lts.Reaches (reapMove grace) s s' ∧
      s'.db.clock = s.db.clock + max (grace - longest) 0 ∧ p.partMeta.path ∈ s'.reaped := by
  obtain ⟨s₀, hrun, hclock, hworkers, hparts, hstarted, τ, hlook, hsent, hdead, c, hc, hcid,
    hcreated⟩ := deletionSent_run
  have htick : reapMove grace s₀ (.feed (.catalog (.tick longest))) = some (s₀.at longest) :=
    reapMove_tick (by omega)
  obtain ⟨s₁, hcommit, htables, hclock₁, hworkers₁⟩ :=
    @reapMove_commit grace (s₀.at longest) 1 τ hlook hsent
  have hlater : reapMove grace s₁ (.feed (.catalog (.tick (max grace longest)))) =
      some (s₁.at (max grace longest)) := reapMove_tick (by
    have hnow : s₁.db.clock = longest := hclock₁
    omega)
  -- now the deletion is as old as the grace
  have hnext : nextReapablePart (s₁.at (max grace longest)).db.tables
      (s₁.at (max grace longest)).feed.workers 1 (s₁.at (max grace longest)).db.clock grace =
        some ⟨1, 1, reapedPart, 1, some 2, none⟩ := by
    have htables' : (s₁.at (max grace longest)).db.tables = τ.w.apply s₀.db.tables := htables
    have hnone : (s₁.at (max grace longest)).feed.workers = [] := hworkers₁.trans hworkers
    have hreap : Reapable (τ.w.apply s₀.db.tables) [] 1 (max grace longest) grace
        ⟨1, 1, reapedPart, 1, some 2, none⟩ :=
      ⟨rfl, rfl, 2, rfl, ⟨c, hc, hcid, by omega⟩, by simp [minCursor]⟩
    rw [htables', hnone]
    simp [nextReapablePart, hdead, show (s₁.at (max grace longest)).db.clock = max grace longest
      from rfl, hreap]
  obtain ⟨s', hreaps, hclock', hreaped⟩ := reaches_reap hnext
  refine ⟨s₀.at longest, ⟨1, 1, reapedPart, 1, none, none⟩,
    ⟨{}, Reaping.start_empty, _,
      Lts.run_append.mpr ⟨s₀, (run_events _ _).trans hrun, Lts.run_singleton.mpr htick⟩⟩,
    ?_, rfl, fun t τ' hl _ => ?_, s', ?_, ?_, hreaped⟩
  · show _ ∈ s₀.db.tables.parts
    simp [hparts]
  · have hzero : τ'.startedAt = 0 := hstarted ⟨t, τ'⟩ (mem_txns.mpr hl)
    have hnow : (s₀.at longest).db.clock = longest := rfl
    omega
  · exact Lts.Reaches.trans (Lts.Reaches.single hcommit)
      (Lts.Reaches.trans (Lts.Reaches.single hlater) hreaps)
  · rw [hclock']
    show max grace longest = (longest : Int) + max (grace - longest) 0
    omega

/-- **The grace of a reader.**  A query reads the catalog and finds a part; no open transaction that
names the part has been open for more than `longest`.  Whatever is committed, registered and reaped
meanwhile, for `window` from then on the object of the part is there, if and only if that is no
longer than the tombstone grace less `longest`. -/
theorem readers_grace_iff (grace window : Int) (longest : Nat) :
    (∀ s p, Reaping.Reachable grace s → p ∈ s.db.tables.parts → p.live = true →
      (∀ t τ, s.db.txns.lookup t = some τ → p.id ∈ τ.call.op.oldParts →
        s.db.clock - longest ≤ τ.startedAt) →
      ∀ s', Lts.Reaches (reapMove grace) s s' → s'.db.clock < s.db.clock + window →
        p.partMeta.path ∉ s'.reaped) ↔
      window ≤ max (grace - longest) 0 := by
  constructor
  · intro hsafe
    by_contra hlong
    obtain ⟨s, p, hreach, hp, hlive, hopen, s', hrun, hclock, hreaped⟩ :=
      slow_deletion grace longest
    exact hsafe s p hreach hp hlive hopen s' hrun (by omega) hreaped
  · intro hwindow s p hreach hp hlive hopen s' hrun hclock hreaped
    have hheld := hreach.held hp hlive hopen
    have hlate := (hheld.run hreach.ok hrun).reaped hreaped
    have hnow : s.db.clock ≤ s'.db.clock :=
      hrun.inv (I := fun s' => s.db.clock ≤ s'.db.clock) (fun _ _ _ hs =>
        reapMove_db (I := fun db => s.db.clock ≤ db.clock)
          (fun _ _ _ hs h => h.trans (step_clock hs)) hs) le_rfl
    omega

end Ukiel.Gc
