/-
# No untracked objects

Every object in the store has an upload intent or a part row, at every step and crash point of
every writer.  It rests on the order inside the programs (`Writer.announced`: register, then
upload) and on how an intent disappears (`step_intent`): with the commit that turns it into a
part, or by a sweep that has deleted the object first.
-/
import Ukiel.Gc.Writers

namespace Ukiel.Gc
open Ukiel.Catalog

variable {cfg : GcConfig} {s s' : Fleet} {db db' : Db} {n : Nat} {r : Running} {path : String}

/-! ## 1. The invariant -/

/-- The catalog has an intent or a part row for the path. -/
def Recorded (db : Db) (path : String) : Prop :=
  (∃ r ∈ db.tables.pendingObjects, r.path = path) ∨
    ∃ p ∈ db.tables.parts, p.partMeta.path = path

/-- The path a sweep has taken up. -/
def Task.orphan : Task → Option String
  | .sweepDelete path _ => some path
  | .sweepClear path _ => some path
  | _ => none

/-- No running writer has registered the path. -/
def Abandoned (s : Fleet) (path : String) : Prop :=
  s.world.opened path ≠ none ∧ ∀ n r, s.writers.lookup n = some r → path ∉ r.opened

/-- **What holds after any run**: what is in the store is on record, and so is what a running
writer may upload to; and what a sweep is about to delete or to clear is nobody's. -/
structure Fleet.Ok (s : Fleet) : Prop where
  inv : Inv s.world.db
  intents : ∀ r ∈ s.world.db.tables.pendingObjects, s.world.opened r.path ≠ none
  recorded : ∀ o ∈ s.world.objects, Recorded s.world.db o.location
  running : ∀ n r, s.writers.lookup n = some r → Announced r.opened r.todo ∧
    ∀ p ∈ r.opened, Recorded s.world.db p ∧ s.world.opened p ≠ none
  orphan : ∀ g task, s.world.passes.lookup g = some task → ∀ path, task.orphan = some path →
    Abandoned s path
  cleared : ∀ g path hs, s.world.passes.lookup g = some (.sweepClear path hs) →
    ∀ o ∈ s.world.objects, o.location ≠ path

/-- Where a run starts: no writer and no pass under way, and everything in the store is on
record. -/
structure Fleet.Start (s : Fleet) : Prop where
  db : Initial s.world.db
  intents : ∀ r ∈ s.world.db.tables.pendingObjects, s.world.opened r.path ≠ none
  recorded : ∀ o ∈ s.world.objects, Recorded s.world.db o.location
  writers : s.writers = ∅
  passes : s.world.passes = ∅

theorem Fleet.start_empty : Fleet.Start {} where
  db := initial_empty
  intents r hr := by cases hr
  recorded o ho := by cases ho
  writers := rfl
  passes := rfl

theorem Fleet.Start.ok (h : s.Start) : s.Ok where
  inv := h.db.inv
  intents := h.intents
  recorded := h.recorded
  running n r hlook := by
    rw [h.writers] at hlook
    cases hlook
  orphan g task hlook := by
    rw [h.passes] at hlook
    cases hlook
  cleared g path hs hlook := by
    rw [h.passes] at hlook
    cases hlook

/-- A path stays on record unless its intent is cleared. -/
theorem Recorded.event {e : Event} (h : Recorded db path) (hi : Inv db)
    (hs : step db e = some db') (hclear : ∀ paths, e = .clearPending paths → path ∉ paths) :
    Recorded db' path := by
  rcases h with ⟨r, hr, rfl⟩ | ⟨p, hp, rfl⟩
  · rcases step_intent hi hs hr with hkept | ⟨paths, he, hin⟩ | ⟨_, _, _, -, -, -, p, hp, -, hpath⟩
    · exact Or.inl ⟨r, hkept, rfl⟩
    · exact absurd hin (hclear paths he)
    · exact Or.inr ⟨p, hp, hpath⟩
  · obtain ⟨p', hp', -, -, hmeta⟩ := step_part hi hs hp
    exact Or.inr ⟨p', hp', by rw [hmeta]⟩

/-! ## 2. The catalog and the collector -/

/-- The catalog has moved by an event that registers no intent, and clears none that anybody
needs. -/
theorem Fleet.Ok.catalog {e : Event} (h : s.Ok) (hs : step s.world.db e = some db')
    (hreg : ∀ k paths, e ≠ .registerPending k paths)
    (hclear : ∀ paths, e = .clearPending paths → ∀ p ∈ paths, Abandoned s p ∧
      ∀ o ∈ s.world.objects, o.location ≠ p) :
    Fleet.Ok { s with world := { s.world with db := db' } } where
  inv := inv_step hs h.inv
  intents r hr := by
    rcases step_pending hs hr with hold | ⟨k, paths, he, -, -⟩
    · exact h.intents r hold
    · exact absurd he (hreg k paths)
  recorded o ho := by
    refine (h.recorded o ho).event h.inv hs ?_
    intro paths he hin
    exact (hclear paths he _ hin).2 o ho rfl
  running n r hlook := by
    obtain ⟨hann, hrec⟩ := h.running n r hlook
    refine ⟨hann, fun p hp => ⟨(hrec p hp).1.event h.inv hs ?_, (hrec p hp).2⟩⟩
    intro paths he hin
    exact (hclear paths he p hin).1.2 n r hlook hp
  orphan := h.orphan
  cleared := h.cleared

/-- A pass goes on. -/
theorem Fleet.Ok.goto (h : s.Ok) (g : Nat) (task : Task)
    (ho : ∀ path, task.orphan = some path → Abandoned s path)
    (hc : ∀ path hs, task = .sweepClear path hs → ∀ o ∈ s.world.objects, o.location ≠ path) :
    Fleet.Ok { s with world := s.world.goto g task } where
  inv := h.inv
  intents := h.intents
  recorded := h.recorded
  running := h.running
  orphan g' task' hlook := by
    by_cases hg : g' = g
    · subst hg
      rw [World.goto, AList.lookup_insert, Option.some.injEq] at hlook
      subst hlook
      exact ho
    · rw [World.goto, AList.lookup_insert_ne hg] at hlook
      exact h.orphan g' task' hlook
  cleared g' path hs hlook := by
    by_cases hg : g' = g
    · subst hg
      rw [World.goto, AList.lookup_insert, Option.some.injEq] at hlook
      exact hc path hs hlook
    · rw [World.goto, AList.lookup_insert_ne hg] at hlook
      exact h.cleared g' path hs hlook

theorem Fleet.Ok.endPass (h : s.Ok) (g : Nat) :
    Fleet.Ok { s with world := { s.world with passes := s.world.passes.erase g } } where
  inv := h.inv
  intents := h.intents
  recorded := h.recorded
  running := h.running
  orphan g' task hlook := by
    by_cases hg : g' = g
    · subst hg
      rw [AList.lookup_erase] at hlook
      cases hlook
    · rw [AList.lookup_erase_ne hg] at hlook
      exact h.orphan g' task hlook
  cleared g' path hs hlook := by
    by_cases hg : g' = g
    · subst hg
      rw [AList.lookup_erase] at hlook
      cases hlook
    · rw [AList.lookup_erase_ne hg] at hlook
      exact h.cleared g' path hs hlook

/-- Deleting an object unrecords nothing. -/
theorem Fleet.Ok.delete (h : s.Ok) (path : String) :
    Fleet.Ok { s with world := s.world.delete path } where
  inv := h.inv
  intents := h.intents
  recorded o ho := h.recorded o (List.mem_of_mem_filter ho)
  running := h.running
  orphan := h.orphan
  cleared g p hs hlook o ho := h.cleared g p hs hlook o (List.mem_of_mem_filter ho)

/-- What only the collector keeps for itself is irrelevant. -/
theorem Fleet.Ok.ghosts (h : s.Ok) (swept : List String) (reconciled : List (Nat × String))
    (nextPass : Nat) :
    Fleet.Ok { s with world := { s.world with
      swept := swept, reconciled := reconciled, nextPass := nextPass } } :=
  ⟨h.inv, h.intents, h.recorded, h.running, h.orphan, h.cleared⟩

theorem delete_absent (w : World) (path : String) :
    ∀ o ∈ (w.delete path).objects, o.location ≠ path := by
  intro o ho
  exact of_decide_eq_true (List.mem_filter.mp ho).2

/-- **Every step of a pass keeps the invariant**, if it takes up nothing of a running writer. -/
theorem Fleet.Ok.collect {g : Nat} {now : Int} {task : Task} {world : World} (h : s.Ok)
    (hlook : s.world.passes.lookup g = some task)
    (hspares : SparesRunning cfg s (.elsewhere (.collect g now)))
    (hs : s.world.collect cfg g now task = some world) :
    Fleet.Ok { s with world := world } := by
  cases task with
  | sweep hs' =>
    cases hs' with
    | nil =>
      cases hs
      exact h.endPass g
    | cons k hs' =>
      simp only [World.collect] at hs
      split at hs
      · cases hs
        exact h.goto g _ (by simp [Task.orphan]) (by simp)
      · rename_i path hpath
        cases hs
        refine h.goto g _ ?_ (by simp)
        intro p hp
        obtain rfl : path = p := by simpa [Task.orphan] using hp
        obtain ⟨q, hq, rfl⟩ := List.mem_map.mp (List.min?_mem hpath)
        refine ⟨h.intents q (List.mem_of_mem_filter hq), ?_⟩
        intro n r hr
        simp only [SparesRunning, hlook] at hspares
        exact hspares q.path hpath ⟨n, r⟩ (AList.mem_lookup_iff.mp hr)
  | sweepDelete path hs' =>
    cases hs
    have hnow := h.orphan g _ hlook path rfl
    have hgone := (h.delete path).goto g (.sweepClear path hs') ?_ ?_
    · exact hgone.ghosts _ s.world.reconciled s.world.nextPass
    · intro p hp
      obtain rfl : path = p := by simpa [Task.orphan] using hp
      exact hnow
    · intro p hs₂ he
      cases he
      exact delete_absent s.world path
  | sweepClear path hs' =>
    obtain ⟨db', hdb, rfl⟩ := Option.map_eq_some_iff.mp hs
    refine (h.catalog hdb (by simp) ?_).goto g (.sweep hs') (by simp [Task.orphan]) (by simp)
    intro paths he p hp
    cases he
    obtain rfl := List.mem_singleton.mp hp
    exact ⟨h.orphan g _ hlook p rfl, h.cleared g p hs' hlook⟩
  | readParts hs' =>
    cases hs' with
    | nil =>
      cases hs
      exact h.endPass g
    | cons k hs' =>
      cases hs
      exact h.goto g _ (by simp [Task.orphan]) (by simp)
  | readPending known k hs' =>
    cases hs
    exact h.goto g _ (by simp [Task.orphan]) (by simp)
  | list known k hs' =>
    cases hs
    exact h.goto g _ (by simp [Task.orphan]) (by simp)
  | examine known at' os hs' =>
    cases os with
    | nil =>
      cases hs
      exact h.goto g _ (by simp [Task.orphan]) (by simp)
    | cons o os =>
      simp only [World.collect] at hs
      split at hs
      · cases hs
        exact h.goto g _ (by simp [Task.orphan]) (by simp)
      · split at hs
        · cases hs
          exact h.goto g _ (by simp [Task.orphan]) (by simp)
        · cases hs
          have hgone := (h.delete o.location).goto g (.examine known at' os hs')
            (by simp [Task.orphan]) (by simp)
          exact hgone.ghosts s.world.swept _ s.world.nextPass

/-! ## 3. The writers -/

/-- A writer's program goes on. -/
theorem Fleet.Ok.writer (h : s.Ok) (n : Nat) (r : Running) (hann : Announced r.opened r.todo)
    (hrec : ∀ p ∈ r.opened, Recorded s.world.db p ∧ s.world.opened p ≠ none)
    (hfree : ∀ g task, s.world.passes.lookup g = some task → ∀ path, task.orphan = some path →
      path ∉ r.opened) : Fleet.Ok { s with writers := s.writers.insert n r } where
  inv := h.inv
  intents := h.intents
  recorded := h.recorded
  running n' r' hlook := by
    by_cases hn : n' = n
    · subst hn
      rw [AList.lookup_insert, Option.some.injEq] at hlook
      subst hlook
      exact ⟨hann, hrec⟩
    · rw [AList.lookup_insert_ne hn] at hlook
      exact h.running n' r' hlook
  orphan g task hlook path ho := by
    obtain ⟨hopen, hnone⟩ := h.orphan g task hlook path ho
    refine ⟨hopen, ?_⟩
    intro n' r' hlook'
    by_cases hn : n' = n
    · subst hn
      rw [AList.lookup_insert, Option.some.injEq] at hlook'
      subst hlook'
      exact hfree g task hlook path ho
    · rw [AList.lookup_insert_ne hn] at hlook'
      exact hnone n' r' hlook'
  cleared := h.cleared

/-- A running writer goes on without registering anything. -/
theorem Fleet.Ok.proceed {todo : List Act} (h : s.Ok) (hlook : s.writers.lookup n = some r)
    (hann : Announced r.opened todo) :
    Fleet.Ok { s with writers := s.writers.insert n ⟨r.opened, todo⟩ } :=
  h.writer n ⟨r.opened, todo⟩ hann (h.running n r hlook).2
    fun g task hg path ho => (h.orphan g task hg path ho).2 n r hlook

/-- Bytes reach the store at a path that a running writer has registered. -/
theorem Fleet.Ok.put {now : Int} (h : s.Ok) (hlook : s.writers.lookup n = some r)
    (hp : path ∈ r.opened) : Fleet.Ok { s with world := s.world.put path now } where
  inv := h.inv
  intents := h.intents
  recorded o ho := by
    rcases List.mem_append.mp ho with hold | hnew
    · exact h.recorded o (List.mem_of_mem_filter hold)
    · obtain rfl := List.mem_singleton.mp hnew
      exact ((h.running n r hlook).2 path hp).1
  running := h.running
  orphan := h.orphan
  cleared g p hs hg o ho := by
    rcases List.mem_append.mp ho with hold | hnew
    · exact h.cleared g p hs hg o (List.mem_of_mem_filter hold)
    · obtain rfl := List.mem_singleton.mp hnew
      rintro rfl
      exact (h.orphan g _ hg path rfl).2 n r hlook hp

/-- The intents of fresh paths are registered. -/
theorem Fleet.Ok.register {k : HypertableId} {paths : List String} {rest : List Act} (h : s.Ok)
    (hlook : s.writers.lookup n = some r) (hann : Announced (r.opened ++ paths) rest)
    (hfresh : ∀ p ∈ paths, s.world.opened p = none)
    (hs : step s.world.db (.registerPending k paths) = some db') :
    Fleet.Ok { s with
      world := { s.world with
        db := db'
        opened := fun p => if p ∈ paths then some s.world.db.clock else s.world.opened p }
      writers := s.writers.insert n ⟨r.opened ++ paths, rest⟩ } := by
  have hopened : ∀ p, s.world.opened p ≠ none →
      (if p ∈ paths then some s.world.db.clock else s.world.opened p) ≠ none := by
    intro p hp
    split
    · simp
    · exact hp
  have hquiet : ∀ {p}, Recorded s.world.db p → Recorded db' p :=
    fun hp => hp.event h.inv hs (by simp)
  have hnew : ∀ p ∈ paths, Recorded db' p := by
    intro p hp
    simp only [step] at hs
    split at hs
    · cases hs
      exact Or.inl (registerPendingObjects_intent hp)
    · cases hs
  -- the world has moved, and nobody has used the new intents yet
  have hworld : Fleet.Ok { s with world := { s.world with
      db := db'
      opened := fun p => if p ∈ paths then some s.world.db.clock else s.world.opened p } } := by
    refine ⟨inv_step hs h.inv, ?_, fun o ho => hquiet (h.recorded o ho), ?_, ?_, h.cleared⟩
    · intro q hq
      rcases step_pending hs hq with hold | ⟨k', paths', he, hin, -⟩
      · exact hopened q.path (h.intents q hold)
      · cases he
        simp [hin]
    · intro n' r' hlook'
      obtain ⟨hann', hrec'⟩ := h.running n' r' hlook'
      exact ⟨hann', fun p hp => ⟨hquiet (hrec' p hp).1, hopened p (hrec' p hp).2⟩⟩
    · intro g task hg p ho
      obtain ⟨hopen, hnone⟩ := h.orphan g task hg p ho
      exact ⟨hopened p hopen, hnone⟩
  refine hworld.writer n ⟨r.opened ++ paths, rest⟩ hann ?_ ?_
  · intro p hp
    rcases List.mem_append.mp hp with hold | hin
    · exact (hworld.running n r hlook).2 p hold
    · exact ⟨hnew p hin, by simp [hin]⟩
  · intro g task hg p ho hmem
    obtain ⟨hopen, hnone⟩ := h.orphan g task hg p ho
    rcases List.mem_append.mp hmem with hold | hin
    · exact hnone n r hlook hold
    · exact hopen (hfresh p hin)

theorem Fleet.Ok.stop (h : s.Ok) (n : Nat) :
    Fleet.Ok { s with writers := s.writers.erase n } := by
  have hkept : ∀ n' r, (s.writers.erase n).lookup n' = some r → s.writers.lookup n' = some r := by
    intro n' r hlook
    by_cases hn : n' = n
    · subst hn
      rw [AList.lookup_erase] at hlook
      cases hlook
    · rwa [AList.lookup_erase_ne hn] at hlook
  refine ⟨h.inv, h.intents, h.recorded, fun n' r hlook => h.running n' r (hkept n' r hlook), ?_,
    h.cleared⟩
  intro g task hg path ho
  obtain ⟨hopen, hnone⟩ := h.orphan g task hg path ho
  exact ⟨hopen, fun n' r hlook => hnone n' r (hkept n' r hlook)⟩

theorem Fleet.Ok.act {now : Int} {todo : List Act} (h : s.Ok)
    (hlook : s.writers.lookup n = some r) (hann : Announced r.opened todo)
    (hs : s.act n now r todo = some s') : s'.Ok := by
  cases todo with
  | nil => cases hs
  | cons a rest =>
    cases a with
    | register k paths =>
      simp only [Fleet.act] at hs
      split at hs
      · rename_i hfresh
        obtain ⟨db', hdb, rfl⟩ := Option.map_eq_some_iff.mp hs
        exact h.register hlook hann hfresh hdb
      · cases hs
    | put path =>
      cases hs
      exact (h.put hlook hann.1).proceed hlook hann.2
    | commit c =>
      obtain ⟨db', hdb, rfl⟩ := Option.map_eq_some_iff.mp hs
      exact (h.catalog hdb (by simp) (by simp)).proceed hlook hann

/-- **Every move keeps the invariant.** -/
theorem fleet_move {m : FleetMove} (h : s.Ok) (hspares : SparesRunning cfg s m)
    (hs : fleetMove cfg s m = some s') : s'.Ok := by
  cases m with
  | elsewhere m =>
    simp only [fleetMove] at hs
    split at hs
    · rename_i helse
      obtain ⟨world, hworld, rfl⟩ := Option.map_eq_some_iff.mp hs
      cases m with
      | catalog e =>
        simp only [move] at hworld
        split at hworld
        · rename_i haloof
          obtain ⟨db', hdb, rfl⟩ := Option.map_eq_some_iff.mp hworld
          refine h.catalog hdb ?_ ?_
          · rintro k paths rfl
            exact haloof
          · rintro paths rfl
            exact absurd haloof id
        · cases hworld
      | runOnce hs' =>
        cases hworld
        have hpass := h.goto s.world.nextPass (.sweep hs') (by simp [Task.orphan]) (by simp)
        exact hpass.ghosts s.world.swept s.world.reconciled _
      | reconcileOnce hs' =>
        cases hworld
        have hpass := h.goto s.world.nextPass (.readParts hs') (by simp [Task.orphan]) (by simp)
        exact hpass.ghosts s.world.swept s.world.reconciled _
      | collect g now =>
        simp only [move] at hworld
        split at hworld
        · cases hworld
        · rename_i task hlook
          exact h.collect hlook hspares hworld
      | abort g =>
        cases hworld
        exact h.endPass g
      | start _ | openFiles _ _ | upload _ _ _ | submit _ _ => exact absurd helse id
    · cases hs
  | reap p =>
    simp only [fleetMove] at hs
    split at hs
    · cases hs
      exact h.delete p.partMeta.path
    · cases hs
  | launch k w =>
    cases hs
    have hnew := h.writer s.nextWriter { todo := w.acts k } (w.announced k) (by simp) (by simp)
    exact ⟨hnew.inv, hnew.intents, hnew.recorded, hnew.running, hnew.orphan, hnew.cleared⟩
  | byte n now =>
    simp only [fleetMove] at hs
    split at hs
    · rename_i opened path rest hlook
      cases hs
      exact h.put hlook (h.running n _ hlook).1.1
    · cases hs
  | act n now =>
    simp only [fleetMove] at hs
    split at hs
    · cases hs
    · rename_i r hlook
      exact h.act hlook (h.running n r hlook).1 hs
  | stop n =>
    cases hs
    exact h.stop n

/-! ## 4. The result -/

/-- An intent disappears with the commit that inserts a part at its path, or when a pass clears it
after its object is gone. -/
def Fleet.Loses (s s' : Fleet) (m : FleetMove) (q : PendingRow) : Prop :=
  (∃ t τ id, m = .elsewhere (.catalog (.commit t)) ∧ s.world.db.txns.lookup t = some τ ∧
    τ.w.cid = some id ∧ ∃ p ∈ s'.world.db.tables.parts, p.createdByCommit = id ∧
      p.partMeta.path = q.path) ∨
  ∃ g now hs, m = .elsewhere (.collect g now) ∧
    s.world.passes.lookup g = some (.sweepClear q.path hs) ∧
      ∀ o ∈ s.world.objects, o.location ≠ q.path

/-- An event that clears no intent loses one only with its commit. -/
theorem Fleet.Ok.intent_event {e : Event} {q : PendingRow} (h : s.Ok)
    (hs : step s.world.db e = some db') (hclear : ∀ paths, e ≠ .clearPending paths)
    (hq : q ∈ s.world.db.tables.pendingObjects) : q ∈ db'.tables.pendingObjects ∨
      ∃ t τ id, e = .commit t ∧ s.world.db.txns.lookup t = some τ ∧ τ.w.cid = some id ∧
        ∃ p ∈ db'.tables.parts, p.createdByCommit = id ∧ p.partMeta.path = q.path := by
  rcases step_intent h.inv hs hq with hkept | ⟨paths, he, -⟩ | hcommit
  · exact Or.inl hkept
  · exact absurd he (hclear paths)
  · exact Or.inr hcommit

theorem Fleet.Ok.intent {m : FleetMove} {q : PendingRow} (h : s.Ok)
    (hs : fleetMove cfg s m = some s') (hq : q ∈ s.world.db.tables.pendingObjects) :
    q ∈ s'.world.db.tables.pendingObjects ∨ s.Loses s' m q := by
  have hkept : ∀ {e}, step s.world.db e = some s'.world.db → (∀ paths, e ≠ .clearPending paths) →
      (∀ t, e ≠ .commit t) → q ∈ s'.world.db.tables.pendingObjects := by
    intro e hdb hclear hcommit
    rcases h.intent_event hdb hclear hq with hkept | ⟨t, -, -, he, -⟩
    · exact hkept
    · exact absurd he (hcommit t)
  cases m with
  | elsewhere m =>
    simp only [fleetMove] at hs
    split at hs
    · rename_i helse
      obtain ⟨world, hworld, rfl⟩ := Option.map_eq_some_iff.mp hs
      cases m with
      | catalog e =>
        simp only [move] at hworld
        split at hworld
        · rename_i haloof
          obtain ⟨db', hdb, rfl⟩ := Option.map_eq_some_iff.mp hworld
          have hclear : ∀ paths, e ≠ .clearPending paths := by
            rintro paths rfl
            exact haloof
          rcases h.intent_event hdb hclear hq with hkept | ⟨t, τ, id, rfl, hrest⟩
          · exact Or.inl hkept
          · exact Or.inr (Or.inl ⟨t, τ, id, rfl, hrest⟩)
        · cases hworld
      | collect g now =>
        simp only [move] at hworld
        split at hworld
        · cases hworld
        · rename_i task hlook
          rcases collect_db hworld with hsame | ⟨path, hs', rfl, hdb⟩
          · exact Or.inl (hsame.symm ▸ hq)
          · by_cases hpath : q.path = path
            · subst hpath
              exact Or.inr (Or.inr ⟨g, now, hs', rfl, hlook, h.cleared g _ hs' hlook⟩)
            · refine Or.inl ?_
              simp only [step] at hdb
              split at hdb
              · rw [← Option.some.inj hdb]
                exact List.mem_filter.mpr ⟨hq, by simpa using hpath⟩
              · cases hdb
      | runOnce _ | reconcileOnce _ | abort _ =>
        cases hworld
        exact Or.inl hq
      | start _ | openFiles _ _ | upload _ _ _ | submit _ _ => exact absurd helse id
    · cases hs
  | act n now =>
    simp only [fleetMove] at hs
    split at hs
    · cases hs
    · rename_i r hlook
      refine Or.inl ?_
      generalize r.todo = todo at hs
      cases todo with
      | nil => cases hs
      | cons todo rest =>
        cases todo with
        | register k paths =>
          simp only [Fleet.act] at hs
          split at hs
          · obtain ⟨db', hdb, rfl⟩ := Option.map_eq_some_iff.mp hs
            exact hkept hdb (by simp) (by simp)
          · cases hs
        | put path =>
          cases hs
          exact hq
        | commit c =>
          obtain ⟨db', hdb, rfl⟩ := Option.map_eq_some_iff.mp hs
          exact hkept hdb (by simp) (by simp)
  | byte n now | reap p =>
    simp only [fleetMove] at hs
    split at hs <;> cases hs
    exact Or.inl hq
  | launch _ _ | stop _ =>
    cases hs
    exact Or.inl hq

/-- **No untracked objects.**  In every run of any number of writers of the three kinds, each of
which may stop at any step or byte and whose commits may land or not: an object that has a byte
in the store has an upload intent or a part row; and in every state, an intent disappears only
with the commit that inserts the part at its path, or when a sweep clears it and no object is
there.  This takes that no sweep takes up the intent of a writer that is still running. -/
theorem no_untracked_objects {s₀ : Fleet} {ms : List FleetMove} (hstart : s₀.Start)
    (hrun : Lts.run (fleetMove cfg) s₀ ms = some s)
    (hspares : Lts.Along (fleetMove cfg) (SparesRunning cfg) s₀ ms) :
    (∀ o ∈ s.world.objects, Recorded s.world.db o.location) ∧
      ∀ m s', fleetMove cfg s m = some s' → ∀ q ∈ s.world.db.tables.pendingObjects,
        q ∈ s'.world.db.tables.pendingObjects ∨ s.Loses s' m q := by
  have hok : s.Ok := Lts.Along.run_inv (fun _ _ _ hs hc hok => fleet_move hok hc hs) hrun hspares
    hstart.ok
  exact ⟨hok.recorded, fun m s' hs q hq => hok.intent hs hq⟩

/-- Three writers: the first commits and loses the acknowledgement, the second dies in the middle
of its second file, the third finds its key taken.  An hour later a sweep begins. -/
def threeWriters : List FleetMove :=
  let identity : OperationIdentity := ⟨1, "op", [7]⟩
  let row : PartMeta := ⟨"", .null, 7, 7, 1, 1, 0, none⟩
  let inCatalog (e : Event) : FleetMove := .elsewhere (.catalog e)
  [.launch 1 (.publishAdd [("a", row)] (.plain identity)),
    .launch 1 (.mergeParts ⟨1, .null, 1, 1, 0⟩ ⟨1, "merge", [8]⟩ [1] 1 [("b", row), ("c", row)]),
    .launch 1 (.publishAdd [("d", row)] (.plain identity)),
    .act 0 0, .byte 0 0, .act 1 0, .act 1 0, .act 1 0, .byte 1 0, .stop 1,
    .act 2 0, .act 2 0, .act 0 0, .act 0 0, .act 2 0] ++
  List.replicate 5 (inCatalog (.stmt 0)) ++
  [inCatalog (.sendCommit 0), inCatalog (.commit 0), inCatalog (.lost 0), .stop 0] ++
  List.replicate 3 (inCatalog (.stmt 1)) ++
  [.stop 2, inCatalog (.tick 3600000000), .elsewhere (.runOnce [1]), .elsewhere (.collect 0 0),
    .elsewhere (.collect 0 0), .elsewhere (.collect 0 0), .elsewhere (.collect 0 0)]

theorem no_untracked_objects_three :
    ∃ s, Lts.run (fleetMove .default) {} threeWriters = some s ∧
      s.world.objects.map ObjectMeta.location =
        ["ht/1/L1/b.parquet", "ht/1/L1/c.parquet", "ht/1/L0/a.parquet"] ∧
      ∀ o ∈ s.world.objects, Recorded s.world.db o.location := by
  have hobs : ∃ s ∈ Lts.run (fleetMove .default) {} threeWriters,
      s.world.objects.map ObjectMeta.location =
        ["ht/1/L1/b.parquet", "ht/1/L1/c.parquet", "ht/1/L0/a.parquet"] := by
    decide +kernel
  obtain ⟨s, hrun, hobjects⟩ := hobs
  exact ⟨s, hrun, hobjects,
    (no_untracked_objects Fleet.start_empty hrun (by decide +kernel)).1⟩

end Ukiel.Gc
