/-
# The reaper against pipelines

`reap` deletes the objects of tombstoned parts.  What it asks the catalog is about a part's
DEATH (`deleted_by_commit` is behind every cursor and older than the grace); what a pipeline
needs is about its BIRTH (every part added beyond its cursor can still be opened).  Between the
question and the deletion a pipeline may register.

* §1 the query and the pass, one step for each query, each deletion and each stamp.
* §2 the paths of part rows are distinct, because every writer names its objects afresh.
* §3 what a doomed object is, for good (`Forgotten`), and that no step takes it back.
-/
import Ukiel.Catalog.Lifetimes
import Ukiel.Catalog.Pipelines
import Ukiel.Gc.World

namespace Ukiel.Gc
open Ukiel.Catalog

/-! ## 1. `reap` -/

/-- `SELECT MIN(last_commit_id) FROM worker_cursors WHERE hypertable_id = $1`. -/
def minCursor (T : Tables) (workers : List String) (h : HypertableId) : Option Int :=
  (workers.filterMap fun w => T.workerCursors (w, h)).min?

/-- The `WHERE` of `next_reapable_part`. -/
def Reapable (T : Tables) (workers : List String) (h : HypertableId) (now grace : Int)
    (p : PartRow) : Prop :=
  p.hypertableId = h ∧ p.purgedAt = none ∧ ∃ d ∈ p.deletedByCommit,
    (∃ c ∈ T.commits, c.id = d ∧ c.createdAt ≤ now - grace) ∧
      d ≤ (minCursor T workers h).getD 9223372036854775807

instance (T : Tables) (workers : List String) (h : HypertableId) (now grace : Int)
    (p : PartRow) : Decidable (Reapable T workers h now grace p) := by
  unfold Reapable; infer_instance

/-- `next_reapable_part`: the first of them by id. -/
def nextReapablePart (T : Tables) (workers : List String) (h : HypertableId) (now grace : Int) :
    Option PartRow :=
  let rows := T.parts.filter fun p => Reapable T workers h now grace p
  rows.find? fun p => ∀ q ∈ rows, p.id ≤ q.id

/-- What a pass does next.  The hypertables still to visit come last. -/
inductive ReapTask where
  /-- It asks for the next reapable part of the first hypertable. -/
  | ask (hs : List HypertableId)
  /-- It deletes the object. -/
  | delete (part : PartRow) (hs : List HypertableId)
  /-- It stamps the row. -/
  | stamp (part : PartRow) (hs : List HypertableId)
deriving DecidableEq

structure Reaping where
  feed : Pipelines := {}
  passes : AList (fun _ : Nat => ReapTask) := ∅
  nextPass : Nat := 0
  /-- The objects reaped so far. -/
  reaped : List String := []

def Reaping.db (s : Reaping) : Db := s.feed.db

inductive ReapMove where
  /-- Something happens in the catalog, or a pipeline registers. -/
  | feed (f : PipelineEvent)
  | runOnce (hs : List HypertableId)
  /-- The next step of a pass. -/
  | reap (g : Nat)
  /-- An error ends the pass. -/
  | abort (g : Nat)

/-- The paths a call brings into the catalog. -/
def newPaths (c : Call) : List String := c.op.newParts.map PartMeta.path

/-- Every new part has a name of its own: it carries a fresh UUID. -/
def Fresh (db : Db) (c : Call) : Prop :=
  (newPaths c).Nodup ∧ ∀ path ∈ newPaths c, (∀ p ∈ db.tables.parts, p.partMeta.path ≠ path) ∧
    ∀ e ∈ db.txns.entries, path ∉ newPaths e.2.call

instance (db : Db) (c : Call) : Decidable (Fresh db c) := by unfold Fresh; infer_instance

/-- A call is made with parts read from the catalog and with freshly named new ones. -/
def Faithful (db : Db) : Event → Prop
  | .begin c => Names db.tables c ∧ Fresh db c
  | _ => True

instance (db : Db) (e : Event) : Decidable (Faithful db e) := by
  rcases e <;> unfold Faithful <;> infer_instance

def Reaping.goto (s : Reaping) (g : Nat) (task : ReapTask) : Reaping :=
  { s with passes := s.passes.insert g task }

/-- One step of a pass. -/
def Reaping.reap (grace : Int) (s : Reaping) (g : Nat) : ReapTask → Option Reaping
  | .ask [] => some { s with passes := s.passes.erase g }
  | .ask (h :: hs) =>
    match nextReapablePart s.db.tables s.feed.workers h s.db.clock grace with
    | none => some (s.goto g (.ask hs))
    | some part => some (s.goto g (.delete part (h :: hs)))
  | .delete part hs =>
    some { s.goto g (.stamp part hs) with reaped := part.partMeta.path :: s.reaped }
  | .stamp part hs =>
    (pipelineStep s.feed (.catalog (.markPurged [part.id]))).map fun feed =>
      { s.goto g (.ask hs) with feed := feed }

/-- **One move.** -/
def reapMove (grace : Int) (s : Reaping) : ReapMove → Option Reaping
  | .feed (.catalog e) =>
    if Faithful s.db e then
      (pipelineStep s.feed (.catalog e)).map fun feed => { s with feed := feed }
    else none
  | .feed f => (pipelineStep s.feed f).map fun feed => { s with feed := feed }
  | .runOnce hs =>
    some { s.goto s.nextPass (.ask hs) with nextPass := s.nextPass + 1 }
  | .reap g =>
    match s.passes.lookup g with
    | none => none
    | some task => s.reap grace g task
  | .abort g => some { s with passes := s.passes.erase g }

variable {grace : Int} {s s' : Reaping} {db db' : Db}

/-! ## 2. Names -/

/-- **No two part rows share a path**, and no open call is about to bring one that is taken. -/
structure Separate (db : Db) : Prop where
  parts : (db.tables.parts.map fun p => p.partMeta.path).Nodup
  calls : ∀ t τ, db.txns.lookup t = some τ → (newPaths τ.call).Nodup
  apart : ∀ t τ, db.txns.lookup t = some τ → ∀ path ∈ newPaths τ.call,
    ∀ p ∈ db.tables.parts, p.partMeta.path ≠ path
  disjoint : ∀ t₁ t₂ τ₁ τ₂, t₁ ≠ t₂ → db.txns.lookup t₁ = some τ₁ →
    db.txns.lookup t₂ = some τ₂ → ∀ path ∈ newPaths τ₁.call, path ∉ newPaths τ₂.call

/-- Only the row's fields besides its metadata have moved. -/
theorem map_path_eq {parts : List PartRow} {f : PartRow → PartRow}
    (hf : ∀ p, (f p).partMeta = p.partMeta) :
    (parts.map f).map (fun p => p.partMeta.path) = parts.map fun p => p.partMeta.path := by
  rw [List.map_map]
  exact List.map_congr_left fun p _ => congrArg PartMeta.path (hf p)

/-- The paths after an event: those of before, and those of the call that has just landed. -/
theorem step_paths {e : Event} (hi : Inv db) (hs : step db e = some db') :
    (∃ t τ, e = .commit t ∧ db.txns.lookup t = some τ ∧ db'.txns = db.txns.erase t ∧
      (db'.tables.parts.map fun p => p.partMeta.path) =
        (db.tables.parts.map fun p => p.partMeta.path) ++ newPaths τ.call) ∨
      (db'.tables.parts.map fun p => p.partMeta.path) =
        db.tables.parts.map fun p => p.partMeta.path := by
  rcases step_tables hi hs with ⟨t, τ, id, rfl, hlook, -, happ, htxns, -, -⟩ | ⟨-, -, hside⟩
  · obtain ⟨rows, hparts, hnew⟩ := happ.parts
    refine Or.inl ⟨t, τ, rfl, hlook, htxns, ?_⟩
    have hold : (tombstoneParts id τ.call.op.oldParts db.tables.parts).map
        (fun p => p.partMeta.path) = db.tables.parts.map fun p => p.partMeta.path := by
      refine map_path_eq fun p => ?_
      split <;> rfl
    rw [hparts, List.map_append, hold, newPaths, ← hnew.metas, List.map_map]
    rfl
  · obtain ⟨f, hparts, hf⟩ := hside.parts
    refine Or.inr ?_
    rw [hparts]
    exact map_path_eq fun p => by rw [hf p]

theorem Separate.step {e : Event} (h : Separate db) (hi : Inv db)
    (hs : Catalog.step db e = some db') (he : Faithful db e) : Separate db' := by
  -- A new call has fresh paths; the others are those of an open call before the event.
  have hcall : ∀ t τ', db'.txns.lookup t = some τ' →
      (∃ τ, db.txns.lookup t = some τ ∧ newPaths τ'.call = newPaths τ.call) ∨
        (e = .begin τ'.call ∧ t = db.nextTxn ∧ Fresh db τ'.call) := by
    intro t τ' hlook
    rcases step_call hs hlook with ⟨τ, hlook, hcall⟩ | ⟨rfl, ht⟩
    · exact Or.inl ⟨τ, hlook, by rw [hcall]⟩
    · exact Or.inr ⟨rfl, ht, he.2⟩
  constructor
  · rcases step_paths hi hs with ⟨t, τ, rfl, hlook, -, hpaths⟩ | hpaths
    · rw [hpaths]
      refine List.nodup_append.mpr ⟨h.parts, h.calls t τ hlook, ?_⟩
      rintro _ hold path hnew rfl
      obtain ⟨p, hp, hpath⟩ := List.mem_map.mp hold
      exact h.apart t τ hlook _ hnew p hp hpath
    · rw [hpaths]
      exact h.parts
  · intro t τ' hlook
    rcases hcall t τ' hlook with ⟨τ, hold, hsame⟩ | ⟨-, -, hfresh⟩
    · rw [hsame]
      exact h.calls t τ hold
    · exact hfresh.1
  · intro t τ' hlook path hpath p' hp' heq
    have hmem : path ∈ db'.tables.parts.map fun p => p.partMeta.path :=
      List.mem_map.mpr ⟨p', hp', heq⟩
    have hold : path ∉ db.tables.parts.map fun p => p.partMeta.path := by
      intro hmem
      obtain ⟨p, hp, hpp⟩ := List.mem_map.mp hmem
      rcases hcall t τ' hlook with ⟨τ, hold, hsame⟩ | ⟨-, -, hfresh⟩
      · exact h.apart t τ hold path (hsame ▸ hpath) p hp hpp
      · exact (hfresh.2 path hpath).1 p hp hpp
    rcases step_paths hi hs with ⟨t₀, τ₀, rfl, hlook₀, htxns, hpaths⟩ | hpaths
    · rw [hpaths, List.mem_append] at hmem
      rw [htxns] at hlook
      obtain ⟨hne, hlook⟩ := lookup_erase_cases hlook
      exact h.disjoint t t₀ τ' τ₀ hne hlook hlook₀ path hpath (hmem.resolve_left hold)
    · rw [hpaths] at hmem
      exact hold hmem
  · intro t₁ t₂ τ₁ τ₂ hne hlook₁ hlook₂ path h₁ h₂
    rcases hcall t₁ τ₁ hlook₁ with ⟨σ₁, hold₁, hsame₁⟩ | ⟨-, ht₁, hfresh⟩ <;>
      rcases hcall t₂ τ₂ hlook₂ with ⟨σ₂, hold₂, hsame₂⟩ | ⟨-, ht₂, hfresh'⟩
    · exact h.disjoint t₁ t₂ σ₁ σ₂ hne hold₁ hold₂ path (hsame₁ ▸ h₁) (hsame₂ ▸ h₂)
    · exact (hfresh'.2 path h₂).2 ⟨t₁, σ₁⟩ (mem_txns.mpr hold₁) (hsame₁ ▸ h₁)
    · exact (hfresh.2 path h₁).2 ⟨t₂, σ₂⟩ (mem_txns.mpr hold₂) (hsame₂ ▸ h₂)
    · exact hne (ht₁.trans ht₂.symm)

/-! ## 3. What is doomed stays doomed -/

/-- The part has died, and every pipeline registered on its hypertable has its death behind it. -/
def Forgotten (db : Db) (p : PartRow) : Prop :=
  ∃ d, p.deletedByCommit = some d ∧
    ∀ id v, db.tables.workerCursors (mvWorker id, p.hypertableId) = some v → d ≤ v

/-- The path is that of a part row that is forgotten. -/
def Gone (db : Db) (path : String) : Prop :=
  ∃ p ∈ db.tables.parts, p.partMeta.path = path ∧ Forgotten db p

/-- **The query vouches for what it returns.** -/
theorem nextReapablePart_gone {h : HypertableId} (hok : s.feed.Ok) {p : PartRow}
    (hp : nextReapablePart s.db.tables s.feed.workers h s.db.clock grace = some p) :
    Gone s.db p.partMeta.path := by
  have hmem := List.mem_of_find?_eq_some hp
  obtain ⟨hrow, hreap⟩ := List.mem_filter.mp hmem
  obtain ⟨hht, -, d, hd, -, hle⟩ := of_decide_eq_true hreap
  refine ⟨p, hrow, rfl, d, hd, ?_⟩
  intro id v hv
  rw [hht] at hv
  have hname : mvWorker id ∈ s.feed.workers := hok.workers _ h (by rw [← Reaping.db, hv]; simp)
  have hin : v ∈ s.feed.workers.filterMap fun w => s.db.tables.workerCursors (w, h) :=
    List.mem_filterMap.mpr ⟨_, hname, hv⟩
  have hmin : ∃ m, minCursor s.db.tables s.feed.workers h = some m ∧ m ≤ v := by
    unfold minCursor
    cases hm : (s.feed.workers.filterMap fun w => s.db.tables.workerCursors (w, h)).min? with
    | none =>
      rw [List.min?_eq_none_iff] at hm
      rw [hm] at hin
      cases hin
    | some m => exact ⟨m, rfl, (List.min?_eq_some_iff.mp hm).2 v hin⟩
  obtain ⟨m, hm, hmv⟩ := hmin
  rw [hm] at hle
  exact Int.le_trans hle hmv

/-- **No step of the catalog or of a registration takes it back.** -/
theorem Gone.step {f : PipelineEvent} {path : String} (h : Gone s.db path) (hok : s.feed.Ok)
    (hd : Dated s.db) {feed : Pipelines} (hs : pipelineStep s.feed f = some feed) :
    Gone feed.db path := by
  obtain ⟨p, hp, hpath, d, hdead, hcur⟩ := h
  -- The row is still there after the one or two events of the step.
  have hrow : Inv feed.db ∧ ∃ p' ∈ feed.db.tables.parts, p = { p' with purgedAt := p.purgedAt } := by
    refine pipelineStep_db (I := fun db => Inv db ∧ ∃ p' ∈ db.tables.parts,
      p = { p' with purgedAt := p.purgedAt }) (G := fun _ _ => True) ?_ (by simp) hs (by simp) ?_
    · rintro db e db' hs - ⟨hi, p', hp', heq⟩
      have hdead' : p'.deletedByCommit = some d := by rw [← hdead, heq]
      obtain ⟨q, hq, hpq⟩ := step_part_dead hi hs hp' hdead'
      refine ⟨inv_step hs hi, q, hq, ?_⟩
      rw [heq, hpq]
    · exact ⟨hok.inv, p, hp, rfl⟩
  obtain ⟨-, p', hp', heq⟩ := hrow
  have hht : p'.hypertableId = p.hypertableId := by rw [heq]
  refine ⟨p', hp', by rw [← hpath, heq], d, by rw [← hdead, heq], ?_⟩
  intro id v hv
  rw [hht] at hv
  rcases pipelineStep_cursor hok hs hv with hsame | ⟨v₀, cursor, -, hv₀, rfl⟩ | ⟨-, -, hhead⟩
  · exact hcur id v hsame
  · exact Int.le_trans (hcur id v₀ hv₀) (Int.le_max_left ..)
  · exact hhead d (hd.died p hp d hdead).1

/-! ## 4. Every reachable state -/

/-- Where a run starts: no pass under way, nothing reaped, and rows the writers could have left. -/
structure Reaping.Start (s : Reaping) : Prop where
  feed : s.feed.Start
  dated : Dated s.db
  parts : (s.db.tables.parts.map fun p => p.partMeta.path).Nodup
  passes : s.passes = ∅
  reaped : s.reaped = []

theorem Reaping.start_empty : Reaping.Start {} where
  feed := Pipelines.start_empty
  dated := dated_empty
  parts := List.nodup_nil
  passes := rfl
  reaped := rfl

/-- A state some interleaving reaches, under some tombstone grace. -/
def Reaping.Reachable (grace : Int) (s : Reaping) : Prop :=
  ∃ s₀, s₀.Start ∧ Lts.Reaches (reapMove grace) s₀ s

/-- **The invariant of the reaper**: what a pass is about to delete and what it has deleted is
gone for good. -/
structure Reaping.Ok (s : Reaping) : Prop where
  feed : s.feed.Ok
  dated : Dated s.db
  separate : Separate s.db
  doomed : ∀ g p hs, s.passes.lookup g = some (.delete p hs) → Gone s.db p.partMeta.path
  reaped : ∀ path ∈ s.reaped, Gone s.db path

theorem Reaping.Start.ok (h : s.Start) : s.Ok where
  feed := h.feed.ok
  dated := h.dated
  separate :=
    { parts := h.parts
      calls := by
        intro t τ hlook
        rw [Reaping.db, h.feed.db.txns] at hlook
        cases hlook
      apart := by
        intro t τ hlook
        rw [Reaping.db, h.feed.db.txns] at hlook
        cases hlook
      disjoint := by
        intro t₁ t₂ τ₁ τ₂ _ hlook
        rw [Reaping.db, h.feed.db.txns] at hlook
        cases hlook }
  doomed g p hs hlook := by
    rw [h.passes] at hlook
    cases hlook
  reaped path hp := by
    rw [h.reaped] at hp
    cases hp

/-- The catalog has moved, and the passes have not. -/
theorem Reaping.Ok.feed_step {f : PipelineEvent} {feed : Pipelines} (h : s.Ok)
    (hs : pipelineStep s.feed f = some feed) (hf : ∀ e, f = .catalog e → Faithful s.db e) :
    Reaping.Ok { s with feed := feed } := by
  have hkept : Inv feed.db ∧ Dated feed.db ∧ Separate feed.db := by
    refine pipelineStep_db (I := fun db => Inv db ∧ Dated db ∧ Separate db) (G := Faithful)
      ?_ ?_ hs hf ⟨h.feed.inv, h.dated, h.separate⟩
    · rintro db e db' hs he ⟨hi, hd, hsep⟩
      have hinf : Informed db e := by
        cases e with
        | begin c => exact he.1
        | _ => trivial
      exact ⟨inv_step hs hi, hd.step hi hs hinf, hsep.step hi hs he⟩
    · intro db e hne
      cases e with
      | begin c => exact absurd rfl (hne c)
      | _ => trivial
  exact
    { feed := h.feed.step hs
      dated := hkept.2.1
      separate := hkept.2.2
      doomed := fun g p hs' hlook => (h.doomed g p hs' hlook).step h.feed h.dated hs
      reaped := fun path hp => (h.reaped path hp).step h.feed h.dated hs }

/-- Only the program counter of a pass has moved. -/
theorem Reaping.Ok.goto (h : s.Ok) (g : Nat) (task : ReapTask)
    (ht : ∀ p hs, task = .delete p hs → Gone s.db p.partMeta.path) : (s.goto g task).Ok :=
  { h with
    doomed := by
      intro g' p hs hlook
      by_cases hg : g' = g
      · subst hg
        rw [Reaping.goto, AList.lookup_insert, Option.some.injEq] at hlook
        exact ht p hs hlook
      · rw [Reaping.goto, AList.lookup_insert_ne hg] at hlook
        exact h.doomed g' p hs hlook }

/-- A pass has ended. -/
theorem Reaping.Ok.erase (h : s.Ok) (g : Nat) :
    Reaping.Ok { s with passes := s.passes.erase g } :=
  { h with
    doomed := by
      intro g' p hs hlook
      by_cases hg : g' = g
      · subst hg
        rw [AList.lookup_erase] at hlook
        cases hlook
      · rw [AList.lookup_erase_ne hg] at hlook
        exact h.doomed g' p hs hlook }

/-- **One step of a pass.** -/
theorem Reaping.Ok.reap {g : Nat} {task : ReapTask} (h : s.Ok)
    (hlook : s.passes.lookup g = some task) (hs : s.reap grace g task = some s') : s'.Ok := by
  cases task with
  | ask hts =>
    cases hts with
    | nil =>
      cases hs
      exact h.erase g
    | cons k hts =>
      simp only [Reaping.reap] at hs
      split at hs
      · cases hs
        exact h.goto g _ (by simp)
      · rename_i part hnext
        cases hs
        refine h.goto g _ ?_
        rintro p hts' heq
        cases heq
        exact nextReapablePart_gone h.feed hnext
  | delete part hts =>
    cases hs
    have hnext := h.goto g (.stamp part hts) (by simp)
    refine { hnext with reaped := ?_ }
    intro path hp
    rcases List.mem_cons.mp hp with rfl | hp
    · exact h.doomed g part hts hlook
    · exact h.reaped path hp
  | stamp part hts =>
    obtain ⟨feed, hfeed, rfl⟩ := Option.map_eq_some_iff.mp hs
    have hnext := h.feed_step hfeed fun e he => by
      cases he
      trivial
    exact hnext.goto g _ (by simp)

theorem Reaping.Ok.move {m : ReapMove} (h : s.Ok) (hs : reapMove grace s m = some s') : s'.Ok := by
  cases m with
  | feed f =>
    cases f with
    | catalog e =>
      simp only [reapMove] at hs
      split at hs
      · rename_i hfaith
        obtain ⟨feed, hfeed, rfl⟩ := Option.map_eq_some_iff.mp hs
        exact h.feed_step hfeed fun e' he => by
          cases he
          exact hfaith
      · cases hs
    | register _ _ _ | head _ | save _ | drop _ =>
      obtain ⟨feed, hfeed, rfl⟩ := Option.map_eq_some_iff.mp hs
      exact h.feed_step hfeed (by simp)
  | runOnce hts =>
    cases hs
    have hnext := h.goto s.nextPass (.ask hts) (by simp)
    exact { hnext with }
  | reap g =>
    simp only [reapMove] at hs
    split at hs
    · cases hs
    · rename_i task hlook
      exact h.reap hlook hs
  | abort g =>
    cases hs
    exact h.erase g

theorem Reaping.Reachable.ok (h : Reaping.Reachable grace s) : s.Ok := by
  obtain ⟨s₀, hstart, hr⟩ := h
  exact hr.inv (fun _ _ _ hs hok => hok.move hs) hstart.ok

/-- **Reap safety.**  In every reachable state, whatever the grace: the part row of a reaped
object is not live, and every pipeline registered on its hypertable has the commit that created
it behind its cursor.  So a part added by an event some pipeline has not consumed is never
reaped. -/
theorem reap_safe (h : Reaping.Reachable grace s) :
    ∀ path ∈ s.reaped, ∀ p ∈ s.db.tables.parts, p.partMeta.path = path →
      p.live = false ∧ ∀ id v,
        s.db.tables.workerCursors (mvWorker id, p.hypertableId) = some v →
          p.createdByCommit ≤ v := by
  have hok := h.ok
  intro path hpath p hp heq
  obtain ⟨q, hq, hqpath, d, hdead, hcur⟩ := hok.reaped path hpath
  -- the row that was reaped is the only one with this path
  obtain rfl : p = q :=
    List.inj_on_of_nodup_map hok.separate.parts hp hq (heq.trans hqpath.symm)
  refine ⟨by rw [PartRow.live, hdead]; rfl, ?_⟩
  intro id v hv
  have hborn := (hok.dated.died p hp d hdead).2
  have hpast := hcur id v hv
  omega

/-- The statements of call `t`, and its COMMIT. -/
def callLands (t n : Nat) : List ReapMove :=
  List.replicate n (.feed (.catalog (.stmt t))) ++
    [.feed (.catalog (.sendCommit t)), .feed (.catalog (.commit t))]

def reapedPart : PartMeta := ⟨partPath 1 0 "u", .null, 7, 7, 1, 1, 0, none⟩

/-- A part is added, a pipeline registers, the part dies.  A first pass finds it too early; the
pipeline consumes the event and a second pass takes the object. -/
def reapedAfter : List ReapMove :=
  .feed (.catalog (.begin (commit 1 (.add [reapedPart]) none))) :: callLands 0 5 ++
    [.feed (.register 0 7 1), .feed (.head 0), .feed (.save 0)] ++
    .feed (.catalog (.begin (commit 1 (.delete [1]) none))) :: callLands 1 4 ++
    [.runOnce [1], .reap 0, .reap 0, .feed (.catalog (.setCursor "mv/7" 1 2)),
      .runOnce [1], .reap 1, .reap 1, .reap 1]

theorem reap_safe_consumed :
    ∃ s, Lts.run (reapMove 0) {} reapedAfter = some s ∧ s.reaped = [reapedPart.path] ∧
      (∃ p ∈ s.db.tables.parts, p.partMeta = reapedPart ∧ p.live = false) ∧
      s.db.tables.workerCursors (mvWorker 7, 1) = some 2 := by
  have hobs : ∃ s ∈ Lts.run (reapMove 0) {} reapedAfter, s.reaped = [reapedPart.path] ∧
      (∃ p ∈ s.db.tables.parts, p.partMeta = reapedPart) ∧
      s.db.tables.workerCursors (mvWorker 7, 1) = some 2 := by decide +kernel
  obtain ⟨s, hrun, hreaped, ⟨p, hp, hmeta⟩, hcur⟩ := hobs
  have hsafe := reap_safe ⟨{}, Reaping.start_empty, _, hrun⟩ reapedPart.path
    (by rw [hreaped]; exact List.mem_singleton_self _) p hp (by rw [hmeta])
  exact ⟨s, hrun, hreaped, ⟨p, hp, hmeta, hsafe.1⟩, hcur⟩

end Ukiel.Gc
