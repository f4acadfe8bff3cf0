/-
# Reconciliation against commits

`reconcile_once` collects the paths the catalog knows in TWO queries, the parts first and the
upload intents second, and deletes what it lists and does not know.  A commit moves a path from
the second table to the first in one transaction.  One that lands between the two queries is
missed by both: the path was not yet a part at the first and no longer an intent at the second.

Outside that window the pass is safe whatever the modification times and the grace
(`reconcile_keeps_tracked`), and inside it the grace decides, which is about something else
(`moved_between_reads`).
-/
import Ukiel.Gc.World

namespace Ukiel.Gc
open Ukiel.Catalog

variable {cfg : GcConfig} {s s' : World} {g : Nat} {path : String}

/-! ## 1. Tracked paths -/

/-- The path is an upload intent or a part that is not purged. -/
def Tracked (s : World) (path : String) : Prop :=
  (∃ r ∈ s.db.tables.pendingObjects, r.path = path) ∨
    ∃ p ∈ s.db.tables.parts, p.partMeta.path = path ∧ p.purgedAt = none

instance (s : World) (path : String) : Decidable (Tracked s path) := by
  unfold Tracked; infer_instance

/-- While the pass runs, the path is tracked. -/
def TrackedDuring (g : Nat) (path : String) (s : World) (_ : Move) : Prop :=
  s.passes.lookup g ≠ none → Tracked s path

instance (g : Nat) (path : String) (s : World) (m : Move) :
    Decidable (TrackedDuring g path s m) := by
  unfold TrackedDuring; infer_instance

/-- The pass has read the part paths of the path's hypertable and not yet its intents. -/
def BetweenReads (g : Nat) (path : String) (s : World) : Prop :=
  match s.passes.lookup g with
  | some (.readPending _ h _) => underPrefix h path = true
  | _ => False

instance (g : Nat) (path : String) (s : World) : Decidable (BetweenReads g path s) := by
  unfold BetweenReads; split <;> infer_instance

/-- The move is not a commit that registers the path between the pass's two reads. -/
def Apart (g : Nat) (path : String) (s : World) : Move → Prop
  | .catalog (.commit t) => ∀ τ ∈ s.db.txns.lookup t,
      path ∈ τ.call.op.newParts.map PartMeta.path → ¬ BetweenReads g path s
  | _ => True

instance (g : Nat) (path : String) (s : World) (m : Move) : Decidable (Apart g path s m) := by
  unfold Apart; split <;> infer_instance

/-! ## 2. What a pass knows -/

/-- The paths a reconciling pass has read so far for the hypertable it is at. -/
def Task.known : Task → Option (List String)
  | .readPending known _ _ => some known
  | .list known _ _ => some known
  | .examine known _ _ _ => some known
  | _ => none

/-- **What a pass knows of a path that is tracked throughout.** -/
structure Knows (cfg : GcConfig) (g : Nat) (path : String) (s : World) : Prop where
  ok : Ok cfg s
  reading : ∀ known h hs, s.passes.lookup g = some (.readPending known h hs) →
    underPrefix h path = true → path ∈ known ∨
      ∀ p ∈ s.db.tables.parts, p.partMeta.path = path → p.purgedAt ≠ none
  listing : ∀ known h hs, s.passes.lookup g = some (.list known h hs) →
    underPrefix h path = true → path ∈ known
  examining : ∀ known now os hs, s.passes.lookup g = some (.examine known now os hs) →
    ∀ o ∈ os, o.location = path → path ∈ known
  spared : (g, path) ∉ s.reconciled

theorem Start.knows (h : Start s) : Knows cfg g path s where
  ok := h.ok
  reading known k hs hlook := by
    rw [h.passes] at hlook
    cases hlook
  listing known k hs hlook := by
    rw [h.passes] at hlook
    cases hlook
  examining known now os hs hlook := by
    rw [h.passes] at hlook
    cases hlook
  spared := by
    rw [h.reconciled]
    exact List.not_mem_nil

/-- A part row of the path that is not purged was already there, unless the move is a commit that
registers it. -/
theorem move_unpurged {m : Move} (hok : Ok cfg s) (h : move cfg s m = some s') {p : PartRow}
    (hp : p ∈ s'.db.tables.parts) (hpath : p.partMeta.path = path) (hnone : p.purgedAt = none) :
    (∃ q ∈ s.db.tables.parts, q.partMeta.path = path ∧ q.purgedAt = none) ∨
      ∃ t τ, m = .catalog (.commit t) ∧ s.db.txns.lookup t = some τ ∧
        path ∈ τ.call.op.newParts.map PartMeta.path := by
  rcases move_db h with hsame | ⟨e, hs, hm⟩
  · rw [hsame] at hp
    exact Or.inl ⟨p, hp, hpath, hnone⟩
  · rcases step_part_origin hok.named.reachable.inv hs hp with
      ⟨q, hq, -, hmeta, hpurged⟩ | ⟨t, τ, rfl, hlook, -, hnew⟩
    · exact Or.inl ⟨q, hq, by rw [← hmeta]; exact hpath, hpurged hnone⟩
    · refine Or.inr ⟨t, τ, hm t rfl, hlook, ?_⟩
      rw [← hpath]
      exact List.mem_map_of_mem hnew

theorem goto_lookup_ne {g' : Nat} (task : Task) (hne : g ≠ g') :
    (s.goto g' task).passes.lookup g = s.passes.lookup g :=
  AList.lookup_insert_ne hne

/-- A step of another pass. -/
theorem collect_other {g' : Nat} {now : Int} {task : Task} (hne : g ≠ g')
    (h : s.collect cfg g' now task = some s') :
    s'.passes.lookup g = s.passes.lookup g ∧
      ((g, path) ∈ s'.reconciled → (g, path) ∈ s.reconciled) := by
  cases task with
  | sweep hs' =>
    cases hs' with
    | nil =>
      cases h
      exact ⟨AList.lookup_erase_ne hne, id⟩
    | cons k hs' =>
      simp only [World.collect] at h
      split at h <;> cases h <;> exact ⟨goto_lookup_ne _ hne, id⟩
  | sweepDelete p hs' =>
    cases h
    exact ⟨goto_lookup_ne _ hne, id⟩
  | sweepClear p hs' =>
    obtain ⟨db, -, rfl⟩ := Option.map_eq_some_iff.mp h
    exact ⟨goto_lookup_ne _ hne, id⟩
  | readParts hs' =>
    cases hs' with
    | nil =>
      cases h
      exact ⟨AList.lookup_erase_ne hne, id⟩
    | cons k hs' =>
      cases h
      exact ⟨goto_lookup_ne _ hne, id⟩
  | readPending known k hs' =>
    cases h
    exact ⟨goto_lookup_ne _ hne, id⟩
  | list known k hs' =>
    cases h
    exact ⟨goto_lookup_ne _ hne, id⟩
  | examine known at' os hs' =>
    cases os with
    | nil =>
      cases h
      exact ⟨goto_lookup_ne _ hne, id⟩
    | cons o os =>
      simp only [World.collect] at h
      split at h
      · cases h
        exact ⟨goto_lookup_ne _ hne, id⟩
      · split at h
        · cases h
          exact ⟨goto_lookup_ne _ hne, id⟩
        · cases h
          refine ⟨goto_lookup_ne _ hne, ?_⟩
          intro hmem
          dsimp only at hmem
          split at hmem
          · rcases List.mem_cons.mp hmem with heq | hold
            · exact absurd (Prod.mk.inj heq).1 hne
            · exact hold
          · exact hmem

/-- What a move that is not the pass's own does to it. -/
theorem move_pass (path : String) {m : Move} (h : move cfg s m = some s')
    (hm : ∀ now, m ≠ .collect g now) :
    (s'.passes.lookup g = s.passes.lookup g ∨
      ∀ task ∈ s'.passes.lookup g, task.known = none) ∧
    ((g, path) ∈ s'.reconciled → (g, path) ∈ s.reconciled) := by
  cases m with
  | collect g' now =>
    simp only [move] at h
    split at h
    · cases h
    · have hne : g ≠ g' := fun heq => hm now (by rw [heq])
      obtain ⟨hpass, hrec⟩ := collect_other hne h
      exact ⟨Or.inl hpass, hrec⟩
  | runOnce hs' =>
    cases h
    refine ⟨?_, id⟩
    by_cases hg : g = s.nextPass
    · refine Or.inr ?_
      rw [hg, AList.lookup_insert]
      rintro task ⟨⟩
      rfl
    · exact Or.inl (AList.lookup_insert_ne hg)
  | reconcileOnce hs' =>
    cases h
    refine ⟨?_, id⟩
    by_cases hg : g = s.nextPass
    · refine Or.inr ?_
      rw [hg, AList.lookup_insert]
      rintro task ⟨⟩
      rfl
    · exact Or.inl (AList.lookup_insert_ne hg)
  | abort g' =>
    cases h
    refine ⟨?_, id⟩
    by_cases hg : g = g'
    · refine Or.inr ?_
      rw [hg, AList.lookup_erase]
      rintro task ⟨⟩
    · exact Or.inl (AList.lookup_erase_ne hg)
  | catalog _ | openFiles _ _ | submit _ _ =>
    simp only [move] at h
    repeat' split at h
    all_goals first
      | cases h
      | (obtain ⟨db, -, rfl⟩ := Option.map_eq_some_iff.mp h
         exact ⟨Or.inl rfl, id⟩)
  | upload _ _ _ =>
    simp only [move] at h
    repeat' split at h
    all_goals cases h
    exact ⟨Or.inl rfl, id⟩
  | start _ =>
    cases h
    exact ⟨Or.inl rfl, id⟩

/-- Everyone else's moves leave the pass its knowledge. -/
theorem Knows.other {m : Move} (hk : Knows cfg g path s) (hapart : Apart g path s m)
    (h : move cfg s m = some s') (hm : ∀ now, m ≠ .collect g now) : Knows cfg g path s' := by
  obtain ⟨hpass, hrec⟩ := move_pass path h hm
  have hkeep : ∀ task, s'.passes.lookup g = some task → task.known ≠ none →
      s.passes.lookup g = some task := by
    intro task hlook hknown
    rcases hpass with hsame | hnone
    · exact hsame ▸ hlook
    · exact absurd (hnone task hlook) hknown
  refine ⟨ok_move h hk.ok, ?_, ?_, ?_, fun hmem => hk.spared (hrec hmem)⟩
  · intro known k hs hlook hu
    have hold := hkeep _ hlook (by simp [Task.known])
    rcases hk.reading known k hs hold hu with hin | hgone
    · exact Or.inl hin
    · refine Or.inr ?_
      intro p hp hpath hnone
      rcases move_unpurged hk.ok h hp hpath hnone with ⟨q, hq, hqp, hqn⟩ | ⟨t, τ, rfl, hlk, hnew⟩
      · exact hgone q hq hqp hqn
      · refine hapart τ hlk hnew ?_
        rw [BetweenReads, hold]
        exact hu
  · intro known k hs hlook
    exact hk.listing known k hs (hkeep _ hlook (by simp [Task.known]))
  · intro known now os hs hlook
    exact hk.examining known now os hs (hkeep _ hlook (by simp [Task.known]))

/-- A tracked path under the hypertable's prefix is one of its intents or of its parts. -/
theorem Tracked.known (hok : Ok cfg s) (ht : Tracked s path) {k : HypertableId}
    (hu : underPrefix k path = true) :
    path ∈ allPendingPaths s.db.tables k ∨ path ∈ allPartPaths s.db.tables k := by
  rcases ht with ⟨r, hr, rfl⟩ | ⟨p, hp, rfl, hnone⟩
  · have hht := underPrefix_placed (hok.named.pending r hr).1 hu
    exact Or.inl (List.mem_map_of_mem (List.mem_filter.mpr ⟨hr, decide_eq_true hht.symm⟩))
  · have hht := underPrefix_placed (hok.named.parts p hp) hu
    refine Or.inr (List.mem_map.mpr ⟨p, List.mem_filter.mpr ⟨hp, ?_⟩, rfl⟩)
    exact decide_eq_true ⟨hht.symm, hnone⟩

/-- The pass has moved on to a task that carries no knowledge. -/
theorem Knows.blank (hk : Knows cfg g path s) (hok : Ok cfg s')
    (hlook : ∀ task ∈ s'.passes.lookup g, task.known = none)
    (hrec : s'.reconciled = s.reconciled) : Knows cfg g path s' where
  ok := hok
  reading known k hs hl := absurd (hlook _ hl) (by simp [Task.known])
  listing known k hs hl := absurd (hlook _ hl) (by simp [Task.known])
  examining known now os hs hl := absurd (hlook _ hl) (by simp [Task.known])
  spared := by
    rw [hrec]
    exact hk.spared

/-- The pass goes on with `task`, about which `hlook` says what it knows. -/
theorem Knows.goto (hk : Knows cfg g path s) {task : Task} (hok : Ok cfg (s.goto g task))
    (hread : ∀ known h hs, task = .readPending known h hs → underPrefix h path = true →
      path ∈ known ∨ ∀ p ∈ s.db.tables.parts, p.partMeta.path = path → p.purgedAt ≠ none)
    (hlist : ∀ known h hs, task = .list known h hs → underPrefix h path = true → path ∈ known)
    (hexam : ∀ known now os hs, task = .examine known now os hs →
      ∀ o ∈ os, o.location = path → path ∈ known) : Knows cfg g path (s.goto g task) where
  ok := hok
  reading known k hs hl := by
    rw [World.goto, AList.lookup_insert, Option.some.injEq] at hl
    exact hread known k hs hl
  listing known k hs hl := by
    rw [World.goto, AList.lookup_insert, Option.some.injEq] at hl
    exact hlist known k hs hl
  examining known now os hs hl := by
    rw [World.goto, AList.lookup_insert, Option.some.injEq] at hl
    exact hexam known now os hs hl
  spared := hk.spared

/-- The pass's own steps. -/
theorem Knows.own {now : Int} {task : Task} (hk : Knows cfg g path s)
    (hlook : s.passes.lookup g = some task) (ht : Tracked s path)
    (h : s.collect cfg g now task = some s') : Knows cfg g path s' := by
  have hok : Ok cfg s' := ok_collect hk.ok hlook h
  cases task with
  | sweep hs' =>
    cases hs' with
    | nil =>
      cases h
      refine hk.blank hok ?_ rfl
      rw [AList.lookup_erase]
      rintro task ⟨⟩
    | cons k hs' =>
      simp only [World.collect] at h
      split at h
      all_goals
        cases h
        exact hk.goto hok (by simp) (by simp) (by simp)
  | sweepDelete p hs' =>
    cases h
    refine hk.blank hok ?_ rfl
    rw [World.goto, AList.lookup_insert]
    rintro task ⟨⟩
    rfl
  | sweepClear p hs' =>
    obtain ⟨db, -, rfl⟩ := Option.map_eq_some_iff.mp h
    refine hk.blank hok ?_ rfl
    rw [World.goto, AList.lookup_insert]
    rintro task ⟨⟩
    rfl
  | readParts hs' =>
    cases hs' with
    | nil =>
      cases h
      refine hk.blank hok ?_ rfl
      rw [AList.lookup_erase]
      rintro task ⟨⟩
    | cons k hs' =>
      -- either the path is among the parts just read, or it is not a part at all yet
      cases h
      refine hk.goto hok ?_ (by simp) (by simp)
      rintro known k' hs ⟨⟩ hu
      by_cases hin : path ∈ allPartPaths s.db.tables k
      · exact Or.inl hin
      · refine Or.inr ?_
        intro p hp hpath hnone
        have hht := underPrefix_placed (hpath ▸ hk.ok.named.parts p hp) hu
        refine hin (List.mem_map.mpr ⟨p, List.mem_filter.mpr ⟨hp, ?_⟩, hpath⟩)
        exact decide_eq_true ⟨hht.symm, hnone⟩
  | readPending known k hs' =>
    cases h
    refine hk.goto hok (by simp) ?_ (by simp)
    rintro known' k' hs ⟨⟩ hu
    rw [List.mem_append]
    rcases hk.reading known k hs' hlook hu with hin | hgone
    · exact Or.inl hin
    · rcases ht.known hk.ok hu with hpend | hpart
      · exact Or.inr hpend
      · obtain ⟨p, hp, hpath⟩ := List.mem_map.mp hpart
        obtain ⟨hp, hcond⟩ := List.mem_filter.mp hp
        exact absurd (of_decide_eq_true hcond).2 (hgone p hp hpath)
  | list known k hs' =>
    cases h
    refine hk.goto hok (by simp) (by simp) ?_
    rintro known' now' os hs ⟨⟩ o ho hloc
    obtain ⟨-, hu⟩ := List.mem_filter.mp ho
    exact hk.listing known k hs' hlook (hloc ▸ hu)
  | examine known at' os hs' =>
    cases os with
    | nil =>
      cases h
      exact hk.goto hok (by simp) (by simp) (by simp)
    | cons o os =>
      have hrest : Knows cfg g path (s.goto g (.examine known at' os hs')) := by
        refine hk.goto (hk.ok.goto g _ (by simp)) (by simp) (by simp) ?_
        rintro known' now' os' hs ⟨⟩ o' ho' hloc
        exact hk.examining known at' (o :: os) hs' hlook o' (List.mem_cons_of_mem o ho') hloc
      simp only [World.collect] at h
      split at h
      · cases h
        exact hrest
      · rename_i hunknown
        split at h
        · cases h
          exact hrest
        · cases h
          refine ⟨hok, hrest.reading, hrest.listing, hrest.examining, ?_⟩
          intro hmem
          dsimp only at hmem
          split at hmem
          · rcases List.mem_cons.mp hmem with heq | hold
            · -- the object deleted is not the path: the pass knows that one
              have hloc : o.location = path := (Prod.mk.inj heq).2.symm
              have hin := hk.examining known at' (o :: os) hs' hlook o List.mem_cons_self hloc
              exact hunknown (hloc ▸ hin)
            · exact hk.spared hold
          · exact hk.spared hmem

theorem knows_move {m : Move} (hk : Knows cfg g path s) (hapart : Apart g path s m)
    (ht : TrackedDuring g path s m) (h : move cfg s m = some s') : Knows cfg g path s' := by
  by_cases hm : ∃ now, m = .collect g now
  · obtain ⟨now, rfl⟩ := hm
    simp only [move] at h
    split at h
    · cases h
    · rename_i task hlook
      exact hk.own hlook (ht (by rw [hlook]; exact Option.some_ne_none _)) h
  · exact hk.other hapart h fun now hnow => hm ⟨now, hnow⟩

/-! ## 3. The whole pass -/

/-- **Reconciliation deletes nothing tracked, outside the window between its reads.**  In every
run: a path that is an intent or an unpurged part at every moment of a pass is not deleted by
that pass, provided no commit registers it after the pass has read the parts of its hypertable
and before it has read the intents. -/
theorem reconcile_keeps_tracked {s₀ : World} {ms : List Move} (hstart : Start s₀)
    (hrun : Lts.run (move cfg) s₀ ms = some s)
    (htracked : Lts.Along (move cfg) (TrackedDuring g path) s₀ ms)
    (hapart : Lts.Along (move cfg) (Apart g path) s₀ ms) : (g, path) ∉ s.reconciled := by
  have hk : Knows cfg g path s :=
    Lts.Along.run_inv (I := Knows cfg g path)
      (fun _ _ _ h hc hk => knows_move hk hc.2 hc.1 h) hrun (htracked.and hapart) hstart.knows
  exact hk.spared

/-- The flush commits before the pass begins, and the pass finds its object an hour later. -/
def commitBefore : List Move :=
  flushSent ++ [.catalog (.commit 0), .reconcileOnce [1], .collect 0 0, .collect 0 0,
    .collect 0 3600000000, .collect 0 0, .collect 0 0, .collect 0 0]

theorem reconcile_keeps_flush :
    ∃ s, Lts.run (move .default) {} commitBefore = some s ∧ s.passes = ∅ ∧
      (0, flushPath) ∉ s.reconciled := by
  have hobs : ∃ s ∈ Lts.run (move .default) {} commitBefore, s.passes.entries = [] := by decide
  obtain ⟨s, hrun, hend⟩ := hobs
  exact ⟨s, hrun, AList.ext hend, reconcile_keeps_tracked start_empty hrun (by decide +kernel)
    (by decide +kernel)⟩

/-- The commit lands between the two reads. -/
def commitBetween : List Move :=
  flushSent ++ [.reconcileOnce [1], .collect 0 0, .catalog (.commit 0), .collect 0 0,
    .collect 0 3600000000, .collect 0 0]

/-- **A path that moves between the reads is deleted, although it is tracked throughout.** -/
theorem moved_between_reads :
    ¬ ∀ (cfg : GcConfig) (s₀ : World) (ms : List Move) (s : World) (g : Nat) (path : String),
      Start s₀ → Lts.run (move cfg) s₀ ms = some s →
      Lts.Along (move cfg) (TrackedDuring g path) s₀ ms → (g, path) ∉ s.reconciled := by
  intro h
  have hobs : ∃ s ∈ Lts.run (move .default) {} commitBetween,
      (0, flushPath) ∈ s.reconciled := by decide
  obtain ⟨s, hrun, hdeleted⟩ := hobs
  exact h .default {} commitBetween s 0 flushPath start_empty hrun (by decide +kernel) hdeleted

end Ukiel.Gc
