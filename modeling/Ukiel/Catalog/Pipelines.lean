/-
# Registered pipelines

A pipeline enters the change feed once, by `ensure_mv_cursor`: in one transaction that holds the
exclusive feed barrier it reads the head of its source and inserts its cursor row there.  From
then on only `set_cursor` moves the row.

* §1 adds the registrations under way to the catalog machine (`Pipelines`).
* §2 is what a registration knows while it holds the barrier, and where a pipeline's cursor can
  come from (`pipelineStep_cursor`).
-/
import Mathlib
import Ukiel.Catalog.Calls
import Ukiel.Catalog.Feed

namespace Ukiel.Catalog

/-! ## 1. `ensure_mv_cursor` -/

abbrev PipelineId := Int

/-- `format!("mv/{id}")`, the name of a pipeline's cursor. -/
def mvWorker (id : PipelineId) : String := "mv/" ++ id.repr

theorem mvWorker_injective {i j : PipelineId} (h : mvWorker i = mvWorker j) : i = j :=
  Int.repr_injective (String.append_right_inj _ |>.mp h)

/-- An open transaction of `ensure_mv_cursor`. -/
structure Registration where
  pipeline : PipelineId
  source : HypertableId
  /-- What `feed_head_in_tx` returned. -/
  head : Option Int := none
deriving DecidableEq

structure Pipelines where
  db : Db := {}
  registrations : AList (fun _ : Nat => Registration) := ∅
  /-- The names that have a row in `worker_cursors`. -/
  workers : List String := []
  /-- The head each pipeline's row was inserted at. -/
  registered : PipelineId × HypertableId → Option Int := fun _ => none

inductive PipelineEvent where
  /-- Something else happens in the catalog. -/
  | catalog (e : Event)
  /-- `ensure_mv_cursor` has read the pipeline's source and takes the feed barrier. -/
  | register (r : Nat) (id : PipelineId) (source : HypertableId)
  /-- It reads the head. -/
  | head (r : Nat)
  /-- It inserts the cursor row, unless there is one, and commits. -/
  | save (r : Nat)
  /-- Its transaction fails. -/
  | drop (r : Nat)

/-- The name belongs to a pipeline. -/
def isMvWorker (worker : String) : Bool :=
  (String.ofList (worker.toList.drop 3)).toInt?.any fun id => mvWorker id = worker

theorem isMvWorker_mvWorker (id : PipelineId) : isMvWorker (mvWorker id) = true := by
  simp [isMvWorker, mvWorker]

/-- The row of a pipeline's cursor is inserted by its registration and by nobody else, and a
registration's barrier is its own. -/
def Pipelines.Outside (s : Pipelines) : Event → Prop
  | .unlockBarrier r => s.registrations.lookup r = none
  | .setCursor worker h _ =>
    s.db.tables.workerCursors (worker, h) ≠ none ∨ isMvWorker worker = false
  | _ => True

instance (s : Pipelines) (e : Event) : Decidable (s.Outside e) := by
  rcases e <;> unfold Pipelines.Outside <;> infer_instance

/-- The names with a cursor after the event. -/
def Pipelines.named (s : Pipelines) : Event → List String
  | .setCursor worker _ _ => if worker ∈ s.workers then s.workers else worker :: s.workers
  | _ => s.workers

def pipelineStep (s : Pipelines) : PipelineEvent → Option Pipelines
  | .catalog e =>
    if s.Outside e then
      (step s.db e).map fun db => { s with db := db, workers := s.named e }
    else none
  | .register r id source =>
    (step s.db (.lockBarrier r source)).map fun db =>
      { s with db := db, registrations := s.registrations.insert r ⟨id, source, none⟩ }
  | .head r =>
    match s.registrations.lookup r with
    | none => none
    | some g =>
      (step s.db (.readHead r)).map fun db =>
        { s with
          db := db
          registrations := s.registrations.insert r
            { g with head := some (feedHead s.db.tables g.source) } }
  | .save r =>
    match s.registrations.lookup r with
    | some ⟨id, source, some head⟩ =>
      let s' := { s with registrations := s.registrations.erase r }
      match s.db.tables.workerCursors (mvWorker id, source) with
      | some _ => (step s.db (.unlockBarrier r)).map fun db => { s' with db := db }
      | none =>
        (step s.db (.setCursor (mvWorker id) source head)).bind fun db =>
          (step db (.unlockBarrier r)).map fun db =>
            { s' with
              db := db
              workers := s.named (.setCursor (mvWorker id) source head)
              registered := Function.update s.registered (id, source) (some head) }
    | _ => none
  | .drop r =>
    match s.registrations.lookup r with
    | none => none
    | some _ =>
      (step s.db (.unlockBarrier r)).map fun db =>
        { s with db := db, registrations := s.registrations.erase r }

/-! ## 2. What holds of registrations and cursors -/

variable {db db' : Db} {s s' : Pipelines}

@[simp] theorem runStmt_barrier (db : Db) (t : Nat) (τ : Txn) (s : Stmt) (rest : List Stmt) :
    (db.runStmt t τ s rest).barrier = db.barrier := by
  unfold Db.runStmt
  split
  · cases s <;> rfl
  · rfl

@[simp] theorem installLease_barrier (db : Db) (k : Nat) (cl : Claim) :
    (db.installLease k cl).barrier = db.barrier := by
  unfold Db.installLease
  split
  · rfl
  · dsimp only
    split <;> rfl

/-- A reader keeps the barrier until it lets go of it. -/
theorem barrier_kept {e : Event} {r : Nat} {h : HypertableId} (hs : step db e = some db')
    (hr : db.barrier.lookup r = some h) (he : e ≠ .unlockBarrier r) :
    db'.barrier.lookup r = some h := by
  cases e with
  | lockBarrier r' k =>
    simp only [step] at hs
    split at hs
    · rename_i hfree
      cases hs
      have hne : r ≠ r' := (hfree.2 _ (AList.mem_lookup_iff.mp hr)).1
      rw [AList.lookup_insert_ne hne]
      exact hr
    · cases hs
  | unlockBarrier r' =>
    simp only [step] at hs
    cases hs
    have hne : r ≠ r' := fun hrr => he (by rw [hrr])
    rw [AList.lookup_erase_ne hne]
    exact hr
  | rollback _ _ | abandon _ _ | lost _ | ack _ | stmt _ | installLease _ =>
    simp only [step] at hs
    repeat' split at hs
    all_goals cases hs
    all_goals simpa using hr
  | begin _ | sendCommit _ | commit _ | readHead _ | drawLease _ _ _ | renewLease _ _
  | releaseLease _ | registerPending _ _ | clearPending _ | markPurged _ | setCursor _ _ _
  | tick _ =>
    simp only [step] at hs
    repeat' split at hs
    all_goals cases hs
    all_goals exact hr

/-- **While a reader holds the barrier nothing becomes visible on its hypertable.** -/
theorem visible_behind_barrier {e : Event} {r : Nat} {h : HypertableId} {i : Int} (hi : Inv db)
    (hs : step db e = some db') (hr : db.barrier.lookup r = some h)
    (hv : Visible db'.tables h i) : Visible db.tables h i := by
  obtain ⟨row, hrow, hht, hid⟩ := hv
  rcases step_tables hi hs with ⟨t, τ, id, -, hlook, hcid, happ, -, -, -⟩ | ⟨-, -, hside⟩
  · obtain ⟨at', hc⟩ := happ.commits
    rw [hc, List.mem_append, List.mem_singleton] at hrow
    rcases hrow with hold | rfl
    · exact ⟨row, hold, hht, hid⟩
    · -- the commit drew its id under the shared barrier
      have hnone := cid_none_of_barrier hi hr hlook hht
      rw [hnone] at hcid
      cases hcid
  · exact ⟨row, hside.commits ▸ hrow, hht, hid⟩

/-- A registration holds the barrier of its source, and the head it has read is still the head. -/
structure Registration.Holds (g : Registration) (db : Db) (r : Nat) : Prop where
  barrier : db.barrier.lookup r = some g.source
  published : ∀ H, g.head = some H → (g.source, H) ∈ db.heads
  head : ∀ H, g.head = some H → ∀ i, Visible db.tables g.source i → i ≤ H

theorem Registration.Holds.event {g : Registration} {e : Event} {r : Nat} (h : g.Holds db r)
    (hi : Inv db) (hs : step db e = some db') (he : e ≠ .unlockBarrier r) : g.Holds db' r where
  barrier := barrier_kept hs h.barrier he
  published H hH := heads_mono hs (h.published H hH)
  head H hH i hv := h.head H hH i (visible_behind_barrier hi hs h.barrier hv)

/-- `set_cursor` leaves every other row alone. -/
theorem setCursor_of_ne {T : Tables} {worker w : String} {h k : HypertableId} {cursor : Int}
    (hk : (w, k) ≠ (worker, h)) :
    (setCursor T worker h cursor).workerCursors (w, k) = T.workerCursors (w, k) := by
  unfold setCursor
  split
  · split
    · exact Function.update_of_ne hk _ _
    · rfl
  · exact Function.update_of_ne hk _ _

/-- On its own row it takes the later position. -/
theorem setCursor_some {T : Tables} {w : String} {k : HypertableId} {stored cursor : Int}
    (h : T.workerCursors (w, k) = some stored) :
    (setCursor T w k cursor).workerCursors (w, k) = some (max stored cursor) := by
  simp only [setCursor, h]
  split
  · rename_i hlt
    simp [Int.max_eq_right (Int.le_of_lt hlt)]
  · rename_i hle
    rw [h, Int.max_eq_left (Int.not_lt.mp hle)]

theorem setCursor_none {T : Tables} {w : String} {k : HypertableId} {cursor : Int}
    (h : T.workerCursors (w, k) = none) :
    (setCursor T w k cursor).workerCursors (w, k) = some cursor := by
  simp [setCursor, h]

/-- A cursor row is an older one, or has been moved forward by `set_cursor`, if the event may not
insert it. -/
theorem cursor_event {e : Event} {w : String} {k : HypertableId} {v : Int}
    (hs : step db e = some db')
    (he : ∀ cursor, e = .setCursor w k cursor → db.tables.workerCursors (w, k) ≠ none)
    (hv : db'.tables.workerCursors (w, k) = some v) :
    db.tables.workerCursors (w, k) = some v ∨
      ∃ v₀ cursor, e = .setCursor w k cursor ∧ db.tables.workerCursors (w, k) = some v₀ ∧
        v = max v₀ cursor := by
  by_cases hset : ∃ worker h cursor, e = .setCursor worker h cursor
  · obtain ⟨worker, h, cursor, rfl⟩ := hset
    simp only [step, Option.some.injEq] at hs
    subst hs
    by_cases hk : (w, k) = (worker, h)
    · obtain ⟨rfl, rfl⟩ := Prod.mk.injEq .. ▸ hk
      obtain ⟨stored, hstored⟩ := Option.ne_none_iff_exists'.mp (he cursor rfl)
      rw [setCursor_some hstored, Option.some.injEq] at hv
      exact Or.inr ⟨stored, cursor, rfl, hstored, hv.symm⟩
    · rw [setCursor_of_ne hk] at hv
      exact Or.inl hv
  · refine Or.inl ?_
    rwa [step_cursors hs fun worker h cursor he => hset ⟨worker, h, cursor, he⟩] at hv

/-- No cursor row is ever deleted. -/
theorem cursor_kept {e : Event} {w : String} {k : HypertableId} (hs : step db e = some db')
    (h : db.tables.workerCursors (w, k) ≠ none) : db'.tables.workerCursors (w, k) ≠ none := by
  by_cases hset : ∃ worker h cursor, e = .setCursor worker h cursor
  · obtain ⟨worker, h', cursor, rfl⟩ := hset
    simp only [step, Option.some.injEq] at hs
    subst hs
    by_cases hk : (w, k) = (worker, h')
    · obtain ⟨rfl, rfl⟩ := Prod.mk.injEq .. ▸ hk
      obtain ⟨stored, hstored⟩ := Option.ne_none_iff_exists'.mp h
      rw [setCursor_some hstored]
      simp
    · rwa [setCursor_of_ne hk]
  · rwa [step_cursors hs fun worker h cursor he => hset ⟨worker, h, cursor, he⟩]

/-- **The invariant of pipelines**: registrations hold their barrier, every cursor has a known
name, and a pipeline's cursor is not behind the head it was registered at. -/
structure Pipelines.Ok (s : Pipelines) : Prop where
  inv : Inv s.db
  holds : ∀ r g, s.registrations.lookup r = some g → g.Holds s.db r
  workers : ∀ w h, s.db.tables.workerCursors (w, h) ≠ none → w ∈ s.workers
  registered : ∀ id h v, s.db.tables.workerCursors (mvWorker id, h) = some v →
    ∃ H, s.registered (id, h) = some H ∧ H ≤ v
  enrolled : ∀ id h H, s.registered (id, h) = some H →
    s.db.tables.workerCursors (mvWorker id, h) ≠ none

/-- Where pipelines start: nobody connected, and the cursors on record are those of registered
pipelines and of other workers. -/
structure Pipelines.Start (s : Pipelines) : Prop where
  db : Initial s.db
  registrations : s.registrations = ∅
  workers : ∀ w h, s.db.tables.workerCursors (w, h) ≠ none → w ∈ s.workers
  registered : ∀ id h v, s.db.tables.workerCursors (mvWorker id, h) = some v →
    ∃ H, s.registered (id, h) = some H ∧ H ≤ v
  enrolled : ∀ id h H, s.registered (id, h) = some H →
    s.db.tables.workerCursors (mvWorker id, h) ≠ none

theorem Pipelines.start_empty : Pipelines.Start {} where
  db := initial_empty
  registrations := rfl
  workers w h hw := absurd rfl hw
  registered id h v hv := by cases hv
  enrolled id h H hH := by cases hH

theorem Pipelines.Start.ok (h : s.Start) : s.Ok where
  inv := h.db.inv
  holds r g hlook := by
    rw [h.registrations] at hlook
    cases hlook
  workers := h.workers
  registered := h.registered
  enrolled := h.enrolled

/-- One event has happened, and no registration has ended with it. -/
theorem Pipelines.Ok.event {e : Event} (h : s.Ok) (hs : step s.db e = some db')
    (hfree : ∀ r, s.registrations.lookup r ≠ none → e ≠ .unlockBarrier r)
    (hset : ∀ id k cursor, e = .setCursor (mvWorker id) k cursor →
      s.db.tables.workerCursors (mvWorker id, k) ≠ none) :
    Pipelines.Ok { s with db := db', workers := s.named e } where
  inv := inv_step hs h.inv
  holds r g hlook := (h.holds r g hlook).event h.inv hs (hfree r (by rw [hlook]; simp))
  workers w k hw := by
    by_cases he : ∃ worker k cursor, e = .setCursor worker k cursor
    · obtain ⟨worker, k', cursor, rfl⟩ := he
      simp only [step, Option.some.injEq] at hs
      subst hs
      simp only [Pipelines.named]
      by_cases hk : (w, k) = (worker, k')
      · obtain ⟨rfl, rfl⟩ := Prod.mk.injEq .. ▸ hk
        split
        · assumption
        · exact List.mem_cons_self
      · rw [setCursor_of_ne hk] at hw
        split
        · exact h.workers w k hw
        · exact List.mem_cons_of_mem _ (h.workers w k hw)
    · have hcur := step_cursors hs fun worker k cursor heq => he ⟨worker, k, cursor, heq⟩
      rw [hcur] at hw
      have hmem := h.workers w k hw
      unfold Pipelines.named
      split
      · split
        · exact hmem
        · exact List.mem_cons_of_mem _ hmem
      · exact hmem
  registered id k v hv := by
    rcases cursor_event hs (hset id k) hv with hsame | ⟨v₀, cursor, -, hv₀, rfl⟩
    · exact h.registered id k v hsame
    · obtain ⟨H, hH, hle⟩ := h.registered id k v₀ hv₀
      exact ⟨H, hH, Int.le_trans hle (Int.le_max_left ..)⟩
  enrolled id k H hH := cursor_kept hs (h.enrolled id k H hH)

theorem lookup_erase_registration {m : AList fun _ : Nat => Registration} {r r' : Nat}
    {g : Registration} (h : (m.erase r).lookup r' = some g) : r' ≠ r ∧ m.lookup r' = some g := by
  by_cases hr : r' = r
  · subst hr
    rw [AList.lookup_erase] at h
    cases h
  · exact ⟨hr, by rwa [AList.lookup_erase_ne hr] at h⟩

/-- A registration has ended. -/
theorem Pipelines.Ok.release {r : Nat} (h : s.Ok) (hs : step s.db (.unlockBarrier r) = some db') :
    Pipelines.Ok { s with db := db', registrations := s.registrations.erase r } where
  inv := inv_step hs h.inv
  holds r' g hlook := by
    obtain ⟨hne, hlook⟩ := lookup_erase_registration hlook
    exact (h.holds r' g hlook).event h.inv hs fun he => hne (Event.unlockBarrier.inj he).symm
  workers w k hw := by
    rw [step_cursors hs (by simp)] at hw
    exact h.workers w k hw
  registered id k v hv := by
    rw [step_cursors hs (by simp)] at hv
    exact h.registered id k v hv
  enrolled id k H hH := cursor_kept hs (h.enrolled id k H hH)

/-- A registration has inserted its row. -/
theorem Pipelines.Ok.enroll {id : PipelineId} {k : HypertableId} {H : Int} (h : s.Ok)
    (hs : step s.db (.setCursor (mvWorker id) k H) = some db')
    (hnone : s.db.tables.workerCursors (mvWorker id, k) = none) :
    Pipelines.Ok { s with
      db := db'
      workers := s.named (.setCursor (mvWorker id) k H)
      registered := Function.update s.registered (id, k) (some H) } where
  inv := inv_step hs h.inv
  holds r g hlook := (h.holds r g hlook).event h.inv hs (by simp)
  workers w k' hw := by
    simp only [step, Option.some.injEq] at hs
    subst hs
    simp only [Pipelines.named]
    by_cases hk : (w, k') = (mvWorker id, k)
    · obtain ⟨rfl, -⟩ := Prod.mk.injEq .. ▸ hk
      split
      · assumption
      · exact List.mem_cons_self
    · rw [setCursor_of_ne hk] at hw
      split
      · exact h.workers w k' hw
      · exact List.mem_cons_of_mem _ (h.workers w k' hw)
  registered id' k' v hv := by
    simp only [step, Option.some.injEq] at hs
    subst hs
    by_cases hk : (id', k') = (id, k)
    · obtain ⟨rfl, rfl⟩ := Prod.mk.injEq .. ▸ hk
      rw [setCursor_none hnone, Option.some.injEq] at hv
      exact ⟨H, Function.update_self .., Int.le_of_eq hv⟩
    · have hne : (mvWorker id', k') ≠ (mvWorker id, k) := by
        intro he
        obtain ⟨hid, rfl⟩ := Prod.mk.inj he
        exact hk (by rw [mvWorker_injective hid])
      rw [setCursor_of_ne hne] at hv
      obtain ⟨H', hH', hle⟩ := h.registered id' k' v hv
      exact ⟨H', (Function.update_of_ne hk _ _).trans hH', hle⟩
  enrolled id' k' H' hH' := by
    by_cases hk : (id', k') = (id, k)
    · obtain ⟨rfl, rfl⟩ := Prod.mk.injEq .. ▸ hk
      simp only [step, Option.some.injEq] at hs
      subst hs
      rw [setCursor_none hnone]
      simp
    · exact cursor_kept hs (h.enrolled id' k' H' ((Function.update_of_ne hk _ _).symm.trans hH'))

/-- The step inserts the cursor row of pipeline `id` on `k`, at the head `H`. -/
def Enrolls (s : Pipelines) (f : PipelineEvent) (id : PipelineId) (k : HypertableId) (H : Int) :
    Prop :=
  ∃ r, f = .save r ∧ s.registrations.lookup r = some ⟨id, k, some H⟩ ∧
    s.db.tables.workerCursors (mvWorker id, k) = none

/-- **Every step keeps the invariant.** -/
theorem Pipelines.Ok.step {f : PipelineEvent} (h : s.Ok) (hs : pipelineStep s f = some s') :
    s'.Ok := by
  cases f with
  | catalog e =>
    simp only [pipelineStep] at hs
    split at hs
    · rename_i hout
      obtain ⟨db', hdb, rfl⟩ := Option.map_eq_some_iff.mp hs
      refine h.event hdb ?_ ?_
      · rintro r hr rfl
        exact hr hout
      · rintro id k cursor rfl
        exact hout.resolve_right (by simp [isMvWorker_mvWorker])
    · cases hs
  | register r id source =>
    obtain ⟨db', hdb, rfl⟩ := Option.map_eq_some_iff.mp hs
    have hok := h.event hdb (by simp) (by simp)
    refine { hok with holds := ?_ }
    intro r' g hlook
    by_cases hr : r' = r
    · subst hr
      rw [AList.lookup_insert, Option.some.injEq] at hlook
      subst hlook
      simp only [Catalog.step] at hdb
      split at hdb
      · cases hdb
        exact ⟨AList.lookup_insert _, by simp, by simp⟩
      · cases hdb
    · rw [AList.lookup_insert_ne hr] at hlook
      exact hok.holds r' g hlook
  | head r =>
    simp only [pipelineStep] at hs
    split at hs
    · cases hs
    · rename_i g₀ hg₀
      obtain ⟨db', hdb, rfl⟩ := Option.map_eq_some_iff.mp hs
      have hok := h.event hdb (by simp) (by simp)
      refine { hok with holds := ?_ }
      intro r' g hlook
      by_cases hr : r' = r
      · subst hr
        rw [AList.lookup_insert, Option.some.injEq] at hlook
        subst hlook
        have hold := hok.holds r' g₀ hg₀
        refine ⟨hold.barrier, ?_, ?_⟩
        · intro H hH
          cases hH
          simp only [Catalog.step, (h.holds r' g₀ hg₀).barrier, Option.some.injEq] at hdb
          rw [← hdb]
          exact List.mem_cons_self
        intro H hH i hv
        cases hH
        exact (visible_behind_barrier h.inv hdb (h.holds r' g₀ hg₀).barrier hv).le_feedHead
      · rw [AList.lookup_insert_ne hr] at hlook
        exact hok.holds r' g hlook
  | save r =>
    simp only [pipelineStep] at hs
    split at hs
    · rename_i id source H hlook
      split at hs
      · obtain ⟨db', hdb, rfl⟩ := Option.map_eq_some_iff.mp hs
        exact h.release hdb
      · rename_i hnone
        obtain ⟨db₁, hdb₁, hs⟩ := Option.bind_eq_some_iff.mp hs
        obtain ⟨db', hdb, rfl⟩ := Option.map_eq_some_iff.mp hs
        exact (h.enroll hdb₁ hnone).release hdb
    · cases hs
  | drop r =>
    simp only [pipelineStep] at hs
    split at hs
    · cases hs
    · obtain ⟨db', hdb, rfl⟩ := Option.map_eq_some_iff.mp hs
      exact h.release hdb

/-- **Where a pipeline's cursor comes from**: it stood there before, or `set_cursor` has moved it
forward, or its registration has inserted it at the head it read, which is the head of its source
to this moment. -/
theorem pipelineStep_cursor {f : PipelineEvent} {id : PipelineId} {k : HypertableId} {v : Int}
    (h : s.Ok) (hs : pipelineStep s f = some s')
    (hv : s'.db.tables.workerCursors (mvWorker id, k) = some v) :
    s.db.tables.workerCursors (mvWorker id, k) = some v ∨
      (∃ v₀ cursor, f = .catalog (.setCursor (mvWorker id) k cursor) ∧
        s.db.tables.workerCursors (mvWorker id, k) = some v₀ ∧ v = max v₀ cursor) ∨
      (Enrolls s f id k v ∧ (k, v) ∈ s.db.heads ∧ ∀ i, Visible s.db.tables k i → i ≤ v) := by
  have hquiet : ∀ {db db' : Db} {e : Event}, step db e = some db' →
      (∀ w k cursor, e ≠ .setCursor w k cursor) →
      db'.tables.workerCursors (mvWorker id, k) = some v →
        db.tables.workerCursors (mvWorker id, k) = some v := by
    intro db db' e hdb he hv
    rwa [step_cursors hdb he] at hv
  cases f with
  | catalog e =>
    simp only [pipelineStep] at hs
    split at hs
    · rename_i hout
      obtain ⟨db', hdb, rfl⟩ := Option.map_eq_some_iff.mp hs
      have hset : ∀ cursor, e = .setCursor (mvWorker id) k cursor →
          s.db.tables.workerCursors (mvWorker id, k) ≠ none := by
        rintro cursor rfl
        exact hout.resolve_right (by simp [isMvWorker_mvWorker])
      rcases cursor_event hdb hset hv with hsame | ⟨v₀, cursor, rfl, hv₀, hmax⟩
      · exact Or.inl hsame
      · exact Or.inr (Or.inl ⟨v₀, cursor, rfl, hv₀, hmax⟩)
    · cases hs
  | register r id' source =>
    obtain ⟨db', hdb, rfl⟩ := Option.map_eq_some_iff.mp hs
    exact Or.inl (hquiet hdb (by simp) hv)
  | head r =>
    simp only [pipelineStep] at hs
    split at hs
    · cases hs
    · obtain ⟨db', hdb, rfl⟩ := Option.map_eq_some_iff.mp hs
      exact Or.inl (hquiet hdb (by simp) hv)
  | save r =>
    simp only [pipelineStep] at hs
    split at hs
    · rename_i id' source H hlook
      split at hs
      · obtain ⟨db', hdb, rfl⟩ := Option.map_eq_some_iff.mp hs
        exact Or.inl (hquiet hdb (by simp) hv)
      · rename_i hnone
        obtain ⟨db₁, hdb₁, hs⟩ := Option.bind_eq_some_iff.mp hs
        obtain ⟨db', hdb, rfl⟩ := Option.map_eq_some_iff.mp hs
        have hv := hquiet hdb (by simp) hv
        simp only [step, Option.some.injEq] at hdb₁
        subst hdb₁
        by_cases hk : (mvWorker id, k) = (mvWorker id', source)
        · obtain rfl := mvWorker_injective (congrArg Prod.fst hk)
          obtain rfl : k = source := congrArg Prod.snd hk
          rw [setCursor_none hnone, Option.some.injEq] at hv
          subst hv
          have hholds := h.holds r _ hlook
          exact Or.inr (Or.inr ⟨⟨r, rfl, hlook, hnone⟩, hholds.published H rfl, hholds.head H rfl⟩)
        · rw [setCursor_of_ne hk] at hv
          exact Or.inl hv
    · cases hs
  | drop r =>
    simp only [pipelineStep] at hs
    split at hs
    · cases hs
    · obtain ⟨db', hdb, rfl⟩ := Option.map_eq_some_iff.mp hs
      exact Or.inl (hquiet hdb (by simp) hv)

/-- The head a pipeline was registered at is on record for good. -/
theorem pipelineStep_registered {f : PipelineEvent} {id : PipelineId} {k : HypertableId} {H : Int}
    (h : s.Ok) (hs : pipelineStep s f = some s') (hH : s.registered (id, k) = some H) :
    s'.registered (id, k) = some H := by
  cases f with
  | save r =>
    simp only [pipelineStep] at hs
    split at hs
    · rename_i id' source H' hlook
      split at hs
      · obtain ⟨db', hdb, rfl⟩ := Option.map_eq_some_iff.mp hs
        exact hH
      · rename_i hnone
        obtain ⟨db₁, hdb₁, hs⟩ := Option.bind_eq_some_iff.mp hs
        obtain ⟨db', hdb, rfl⟩ := Option.map_eq_some_iff.mp hs
        -- a registered pipeline has its row, and this one had none
        have hne : (id, k) ≠ (id', source) := by
          rintro he
          obtain ⟨rfl, rfl⟩ := Prod.mk.inj he
          exact h.enrolled id k H hH hnone
        exact (Function.update_of_ne hne _ _).trans hH
    · cases hs
  | catalog e =>
    simp only [pipelineStep] at hs
    split at hs
    · obtain ⟨db', hdb, rfl⟩ := Option.map_eq_some_iff.mp hs
      exact hH
    · cases hs
  | register r id' source =>
    obtain ⟨db', hdb, rfl⟩ := Option.map_eq_some_iff.mp hs
    exact hH
  | head r | drop r =>
    simp only [pipelineStep] at hs
    split at hs
    · cases hs
    · obtain ⟨db', hdb, rfl⟩ := Option.map_eq_some_iff.mp hs
      exact hH

theorem Enrolls.registered {f : PipelineEvent} {id : PipelineId} {k : HypertableId} {H : Int}
    (h : Enrolls s f id k H) (hs : pipelineStep s f = some s') :
    s'.registered (id, k) = some H := by
  obtain ⟨r, rfl, hlook, hnone⟩ := h
  simp only [pipelineStep, hlook, hnone] at hs
  obtain ⟨db₁, -, hs⟩ := Option.bind_eq_some_iff.mp hs
  obtain ⟨db', -, rfl⟩ := Option.map_eq_some_iff.mp hs
  exact Function.update_self ..

/-- A property of the catalog that every event keeps is kept by every step. -/
theorem pipelineStep_db {f : PipelineEvent} {I : Db → Prop} {G : Db → Event → Prop}
    (hI : ∀ db e db', step db e = some db' → G db e → I db → I db')
    (hG : ∀ db e, (∀ c, e ≠ .begin c) → G db e) (hs : pipelineStep s f = some s')
    (hf : ∀ e, f = .catalog e → G s.db e) (h : I s.db) : I s'.db := by
  cases f with
  | catalog e =>
    simp only [pipelineStep] at hs
    split at hs
    · obtain ⟨db', hdb, rfl⟩ := Option.map_eq_some_iff.mp hs
      exact hI _ _ _ hdb (hf e rfl) h
    · cases hs
  | register r id source =>
    obtain ⟨db', hdb, rfl⟩ := Option.map_eq_some_iff.mp hs
    exact hI _ _ _ hdb (hG _ _ (by simp)) h
  | head r =>
    simp only [pipelineStep] at hs
    split at hs
    · cases hs
    · obtain ⟨db', hdb, rfl⟩ := Option.map_eq_some_iff.mp hs
      exact hI _ _ _ hdb (hG _ _ (by simp)) h
  | save r =>
    simp only [pipelineStep] at hs
    split at hs
    · split at hs
      · obtain ⟨db', hdb, rfl⟩ := Option.map_eq_some_iff.mp hs
        exact hI _ _ _ hdb (hG _ _ (by simp)) h
      · obtain ⟨db₁, hdb₁, hs⟩ := Option.bind_eq_some_iff.mp hs
        obtain ⟨db', hdb, rfl⟩ := Option.map_eq_some_iff.mp hs
        exact hI _ _ _ hdb (hG _ _ (by simp)) (hI _ _ _ hdb₁ (hG _ _ (by simp)) h)
    · cases hs
  | drop r =>
    simp only [pipelineStep] at hs
    split at hs
    · cases hs
    · obtain ⟨db', hdb, rfl⟩ := Option.map_eq_some_iff.mp hs
      exact hI _ _ _ hdb (hG _ _ (by simp)) h

end Ukiel.Catalog
