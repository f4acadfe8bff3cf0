/-
# The compactor at work

`run` of `compactor.rs`: the ladder's pass and the finalizer's, `run_once` and `finalize_once`, in
whatever order their tickers ask for them.  It is one task, so passes do not overlap; and nobody
else is at work, as in `Compactor/Ladder.lean`.

* §1 the passes and their run.
* §2 a merge of two runs or more leaves one: every merge is paid for with a run (`merge_spent`).
* §3 so is every pass, and every run of passes (`ticks_works`).
* §4 a pass of the finalizer merges if it has anything to merge (`finalizeOnce_merges`).
* §5 `compaction_settles`: in every order of the passes the merges are bounded, and one run is left
  of every partition.
-/
import Mathlib.Order.OrderIsoNat
import Ukiel.Compactor.Sweeps

namespace Ukiel.Compactor.Finalizer

open Ukiel.Catalog Ukiel.Catalog.Candidates Ukiel.Compactor.Sweeps

/-! ## 1. The passes -/

/-- What a compactor works with. -/
structure Env where
  cfg : CompactorConfig
  finalizeAfterSecs : Int
  ownerId : Uuid
  hypertables : List HypertableId
  text : Json → String
  out : Outputs
  /-- What the catalog writes into the row of a commit, its instant among it. -/
  stamp : Int → CommitRow

/-- The catalog, as far as the passes change it, and the cursors of the process. -/
structure Worker where
  ladder : Ladder
  commits : List CommitRow
  finalizeCursors : HypertableId → Option String := fun _ => none

/-- The tables between two passes, when every claim is released. -/
def Worker.tables (w : Worker) : Tables := { commits := w.commits, parts := w.ladder.parts }

/-- The rows of commits that are merges. -/
def commitRows (stamp : Int → CommitRow) : Int → List HypertableId → List CommitRow
  | _, [] => []
  | id, h :: rest =>
    { stamp id with id := id, hypertableId := h, kind := .replace } ::
      commitRows stamp (id + 1) rest

/-- `run_once`, with the number of its merges. -/
def ladderOnce (E : Env) (w : Worker) : Worker × Nat :=
  let (ladder, merges) := runOnce E.text E.cfg E.out E.hypertables (w.ladder, [])
  ({ w with
      ladder := ladder
      commits := w.commits ++
        commitRows E.stamp w.ladder.nextCommit (merges.map Merge.hypertable) },
    merges.length)

/-- What `finalize_once` does with a partition it has claimed.  The number is that of the partitions
it finalized. -/
def finalizeClaimed (E : Env) (now : Int) (h : HypertableId) (s : Worker × Nat)
    (partition : Json) : Worker × Nat :=
  match finalizePartition s.1.tables h partition now E.finalizeAfterSecs with
  | none => s
  | some (group, level) =>
    ({ s.1 with
        ladder := s.1.ladder.mergeParts E.out h partition group level
        commits := s.1.commits ++ commitRows E.stamp s.1.ladder.nextCommit [h] },
      s.2 + 1)

/-- `finalize_once`, of one hypertable. -/
def finalizeHypertable (E : Env) (now : Int) (s : Worker × Nat) (h : HypertableId) :
    Worker × Nat :=
  let r : Reading := ⟨s.1.tables, now, fun _ => now⟩
  match Sweeps.sweep E.text (.finalize E.finalizeAfterSecs) h E.ownerId E.cfg.candidateLimit r r
      (s.1.finalizeCursors h) with
  -- the query fails, for a limit that `validate` turns down
  | none => s
  | some (window, cursor) =>
    window.partitions.foldl (finalizeClaimed E now h)
      ({ s.1 with finalizeCursors := Function.update s.1.finalizeCursors h cursor }, s.2)

/-- `finalize_once`. -/
def finalizeOnce (E : Env) (now : Int) (w : Worker) : Worker × Nat :=
  E.hypertables.foldl (finalizeHypertable E now) (w, 0)

/-- The branches of the loop in `run`. -/
inductive Tick where
  | compact
  | finalize (now : Int)
deriving DecidableEq

def tick (E : Env) (w : Worker) : Tick → Worker × Nat
  | .compact => ladderOnce E w
  | .finalize now => finalizeOnce E now w

/-- So many ticks, with the number of the merges they made. -/
def ticks (E : Env) (schedule : Nat → Tick) (w : Worker) : Nat → Worker × Nat
  | 0 => (w, 0)
  | n + 1 =>
    let s := ticks E schedule w n
    let s' := tick E s.1 (schedule n)
    (s'.1, s.2 + s'.2)

/-! ## 2. What a merge costs -/

variable {E : Env} {cfg : CompactorConfig} {out : Outputs} {l : Ladder} {h : HypertableId}
  {partition : Json} {group : List PartRow} {T T' T'' : Tables} {m m' : Nat}

/-- The runs there are, of all partitions and levels. -/
def liveRuns (parts : List PartRow) : Finset (HypertableId × Json × Int × Int) :=
  ((parts.filter fun p => p.live).map fun p =>
    (p.hypertableId, p.partMeta.partitionValues, p.partMeta.level, p.createdByCommit)).toFinset

theorem mem_liveRuns {parts : List PartRow} {level commit : Int} :
    (h, partition, level, commit) ∈ liveRuns parts ↔
      ∃ p ∈ livePartitionParts parts h partition,
        p.partMeta.level = level ∧ p.createdByCommit = commit := by
  unfold liveRuns
  simp only [List.mem_toFinset, List.mem_map, List.mem_filter, Prod.mk.injEq,
    mem_livePartitionParts]
  constructor
  · rintro ⟨p, ⟨hp, hlive⟩, hh, hpartition, hlevel, hcommit⟩
    exact ⟨p, ⟨hp, hh, hpartition, hlive⟩, hlevel, hcommit⟩
  · rintro ⟨p, ⟨hp, hh, hpartition, hlive⟩, hlevel, hcommit⟩
    exact ⟨p, ⟨hp, hlive⟩, hh, hpartition, hlevel, hcommit⟩

/-- What so many merges did to the tables: each used up a run, and no partition was left without
one.  No merges, no change. -/
structure Spent (T T' : Tables) (merges : Nat) : Prop where
  paid : (liveRuns T'.parts).card + merges ≤ (liveRuns T.parts).card
  kept : ∀ h partition, livePartitionParts T'.parts h partition = [] ↔
    livePartitionParts T.parts h partition = []
  idle : merges = 0 → T' = T

theorem Spent.refl (T : Tables) : Spent T T 0 := ⟨le_rfl, fun _ _ => Iff.rfl, fun _ => rfl⟩

theorem Spent.trans (hs : Spent T T' m) (hs' : Spent T' T'' m') : Spent T T'' (m + m') := by
  refine ⟨?_, fun h partition => (hs'.kept h partition).trans (hs.kept h partition), ?_⟩
  · have := hs.paid
    have := hs'.paid
    omega
  · intro hnone
    rw [hs'.idle (by omega), hs.idle (by omega)]

/-- **A merge of two runs or more.**  Its input are all live parts of a partition at certain levels:
those of one level for the ladder, at any for the finalizer. -/
theorem merge_spent (hok : l.Ok) (out : Outputs) (taken : Int → Prop)
    (hgroup : ∀ p, p ∈ group ↔
      p ∈ livePartitionParts l.parts h partition ∧ taken p.partMeta.level)
    (hruns : 2 ≤ runs group) (level : Int) :
    let parts' := (l.mergeParts out h partition group level).parts
    (liveRuns parts').card + 1 ≤ (liveRuns l.parts).card ∧
      ∀ h' partition', livePartitionParts parts' h' partition' = [] ↔
        livePartitionParts l.parts h' partition' = [] := by
  intro parts'
  have hin : ∀ p ∈ group, p ∈ l.parts := fun p hp =>
    (mem_livePartitionParts.mp ((hgroup p).mp hp).1).1
  have hne : group ≠ [] := runs_pos.mp (by omega)
  have hlive : ∀ h' partition', livePartitionParts parts' h' partition' =
      ((livePartitionParts l.parts h' partition').filter fun p => p ∉ group) ++
        if h' = h ∧ partition' = partition then
          newRows h l.nextCommit l.nextPart (l.merged out partition group level) else [] := by
    intro h' partition'
    rw [← live_newRows _ _ _ (fun m hm => (mem_merged (l := l) hm).1)]
    exact hok.live_replace hin _ h' partition'
  constructor
  · -- the runs of the input are gone, and there is one that was not there
    have hsub : liveRuns parts' ⊆
        insert (h, partition, level, l.nextCommit) (liveRuns l.parts \ liveRuns group) := by
      rintro ⟨h', partition', level', commit'⟩ hmem
      obtain ⟨p, hp, rfl, rfl⟩ := mem_liveRuns.mp hmem
      rw [hlive, List.mem_append] at hp
      rw [Finset.mem_insert, Finset.mem_sdiff]
      rcases hp with hp | hp
      · obtain ⟨hp, hout⟩ := List.mem_filter.mp hp
        refine Or.inr ⟨mem_liveRuns.mpr ⟨p, hp, rfl, rfl⟩, fun hgone => ?_⟩
        obtain ⟨q, hq, hlevel, -⟩ := mem_liveRuns.mp hgone
        obtain ⟨hqg, hqh, hqp, -⟩ := mem_livePartitionParts.mp hq
        obtain ⟨hqlive, htaken⟩ := (hgroup q).mp hqg
        obtain ⟨-, hh, hpartition, -⟩ := mem_livePartitionParts.mp hqlive
        refine of_decide_eq_true hout ((hgroup p).mpr ⟨?_, hlevel ▸ htaken⟩)
        rwa [← hh, ← hpartition, hqh, hqp]
      · split at hp
        · rename_i hsame
          obtain ⟨-, hcommit, -, hmeta, -⟩ := mem_newRows hp
          exact Or.inl (by rw [hsame.1, hsame.2, hcommit, (mem_merged hmeta).2])
        · cases hp
    have hinputs : liveRuns group ⊆ liveRuns l.parts := by
      rintro ⟨h', partition', level', commit'⟩ hmem
      obtain ⟨p, hp, heq⟩ := mem_liveRuns.mp hmem
      obtain ⟨hpg, hrest⟩ := mem_livePartitionParts.mp hp
      exact mem_liveRuns.mpr ⟨p, mem_livePartitionParts.mpr ⟨hin p hpg, hrest⟩, heq⟩
    have htwo : runs group ≤ (liveRuns group).card := by
      rw [runs_eq_card]
      refine (Finset.card_le_card ?_).trans
        (Finset.card_image_le (s := liveRuns group) (f := fun r => r.2.2.2))
      intro commit hcommit
      obtain ⟨p, hp, rfl⟩ := List.mem_map.mp (List.mem_toFinset.mp hcommit)
      obtain ⟨-, hh, hpartition, hplive⟩ := mem_livePartitionParts.mp ((hgroup p).mp hp).1
      exact Finset.mem_image.mpr ⟨(h, partition, p.partMeta.level, p.createdByCommit),
        mem_liveRuns.mpr ⟨p, mem_livePartitionParts.mpr ⟨hp, hh, hpartition, hplive⟩, rfl, rfl⟩,
        rfl⟩
    have hcard := Finset.card_sdiff_add_card_eq_card hinputs
    have hle := (Finset.card_le_card hsub).trans (Finset.card_insert_le _ _)
    omega
  · intro h' partition'
    rw [hlive]
    by_cases hsame : h' = h ∧ partition' = partition
    · obtain ⟨rfl, rfl⟩ := hsame
      rw [if_pos ⟨rfl, rfl⟩, List.append_eq_nil_iff]
      constructor
      · rintro ⟨-, hnil⟩
        refine absurd hnil (newRows_ne_nil ?_)
        unfold Ladder.merged
        rw [ne_eq, List.map_eq_nil_iff]
        exact out.nonempty _ _ hne
      · intro hnil
        obtain ⟨p, hp⟩ := List.exists_mem_of_ne_nil _ hne
        exact absurd ((hgroup p).mp hp).1 (by simp [hnil])
    · rw [if_neg hsame, List.append_nil, List.filter_eq_self.mpr]
      intro p hp
      refine decide_eq_true fun hg => hsame ?_
      obtain ⟨-, hh, hpartition, -⟩ := mem_livePartitionParts.mp hp
      obtain ⟨-, hh', hpartition', -⟩ := mem_livePartitionParts.mp ((hgroup p).mp hg).1
      exact ⟨hh.symm.trans hh', hpartition.symm.trans hpartition'⟩

/-! ## 3. What passes cost -/

/-- What a part of a pass does to a state: the ladder's, the tables, and the merges so far. -/
def Works (s s' : Ladder × Tables × Nat) : Prop :=
  s.1.Ok → s'.1.Ok ∧ ∃ merges, s'.2.2 = s.2.2 + merges ∧ Spent s.2.1 s'.2.1 merges

theorem Works.refl (s : Ladder × Tables × Nat) : Works s s :=
  fun hok => ⟨hok, 0, rfl, Spent.refl _⟩

theorem Works.trans {s s' s'' : Ladder × Tables × Nat} (hw : Works s s') (hw' : Works s' s'') :
    Works s s'' := by
  intro hok
  obtain ⟨hok', m, hm, hspent⟩ := hw hok
  obtain ⟨hok'', m', hm', hspent'⟩ := hw' hok'
  exact ⟨hok'', m + m', by omega, hspent.trans hspent'⟩

/-- One after the other. -/
theorem Works.foldl {σ ι : Type} {view : σ → Ladder × Tables × Nat} {f : σ → ι → σ}
    (hf : ∀ s x, Works (view s) (view (f s x))) (xs : List ι) (s : σ) :
    Works (view s) (view (xs.foldl f s)) := by
  induction xs generalizing s with
  | nil => exact Works.refl _
  | cons x xs ih => exact (hf s x).trans (ih (f s x))

/-- The state of a pass of the ladder. -/
def ladderView (s : Ladder × List Merge) : Ladder × Tables × Nat :=
  (s.1, { parts := s.1.parts }, s.2.length)

/-- The state of a pass of the finalizer. -/
def workerView (s : Worker × Nat) : Ladder × Tables × Nat := (s.1.ladder, s.1.tables, s.2)

theorem two_le_trigger (hl0 : 2 ≤ cfg.l0Fanout) (hf : 2 ≤ cfg.fanout) (level : Int) :
    2 ≤ cfg.trigger level := by
  unfold CompactorConfig.trigger
  split <;> assumption

theorem compactPartition_works (hl0 : 2 ≤ cfg.l0Fanout) (hf : 2 ≤ cfg.fanout) (out : Outputs)
    (h : HypertableId) (s : Ladder × List Merge) (partition : Json) :
    Works (ladderView s) (ladderView (compactPartition cfg out h s partition)) := by
  intro (hok : s.1.Ok)
  unfold compactPartition
  cases he : eligibleLevel cfg (livePartitionParts s.1.parts h partition) with
  | none => exact Works.refl _ hok
  | some found =>
    obtain ⟨L, group⟩ := found
    obtain ⟨hlow, rfl⟩ := eligibleLevel_eq_some.mp he
    have hruns := (two_le_trigger hl0 hf L).trans hlow.full.2
    have hgroup : ∀ p, p ∈ atLevel (livePartitionParts s.1.parts h partition) L ↔
        p ∈ livePartitionParts s.1.parts h partition ∧ p.partMeta.level = L := by
      simp [atLevel]
    obtain ⟨hpaid, hkept⟩ := merge_spent hok out (· = L) hgroup hruns (nextLevel L)
    exact ⟨Ladder.Ok.merge hok L, 1, List.length_append, hpaid, hkept,
      fun hone => absurd hone one_ne_zero⟩

/-- Where the next sweep starts is no work. -/
theorem cursors_works (s : Ladder × List Merge) (cursors : HypertableId → Option String) :
    Works (ladderView s) (ladderView ({ s.1 with ladderCursors := cursors }, s.2)) :=
  fun hok => ⟨⟨hok.ids, hok.id_lt, hok.commit_lt, hok.level⟩, 0, rfl, Spent.refl _⟩

theorem ladderOnce_works (hl0 : 2 ≤ E.cfg.l0Fanout) (hf : 2 ≤ E.cfg.fanout) (w : Worker) :
    Works (workerView (w, 0)) (workerView (ladderOnce E w)) := by
  intro hok
  have hpass : Works (ladderView (w.ladder, []))
      (ladderView (runOnce E.text E.cfg E.out E.hypertables (w.ladder, []))) := by
    refine Works.foldl (fun s h => ?_) _ _
    exact (cursors_works s _).trans
      (Works.foldl (compactPartition_works hl0 hf E.out h) (sweep E.text E.cfg s.1 h).1 _)
  obtain ⟨hok', m, hm, hspent⟩ := hpass hok
  refine ⟨hok', m, hm, hspent.paid, hspent.kept, ?_⟩
  rintro rfl
  -- without merges there are no commits either
  have hparts := congrArg Tables.parts (hspent.idle rfl)
  have hnone := List.length_eq_zero_iff.mp hm
  simp only [ladderView] at hparts hnone
  simp only [workerView, Worker.tables, ladderOnce, hparts, hnone, List.map_nil, commitRows,
    List.append_nil]

theorem finalizeClaimed_works (E : Env) (now : Int) (h : HypertableId) (s : Worker × Nat)
    (partition : Json) :
    Works (workerView s) (workerView (finalizeClaimed E now h s partition)) := by
  intro hok
  unfold finalizeClaimed
  cases he : finalizePartition s.1.tables h partition now E.finalizeAfterSecs with
  | none => exact Works.refl _ hok
  | some found =>
    obtain ⟨group, level⟩ := found
    obtain ⟨rfl, top, rfl⟩ := finalizePartition_found he
    have hruns := (finalizePartition_isSome.mp (Option.isSome_of_eq_some he)).1
    obtain ⟨hpaid, hkept⟩ := merge_spent hok E.out (fun _ => True)
      (fun p => (and_iff_left trivial).symm) hruns (nextLevel top)
    exact ⟨Ladder.Ok.merge hok top, 1, rfl, hpaid, hkept, fun hone => absurd hone one_ne_zero⟩

theorem finalizeHypertable_works (E : Env) (now : Int) (s : Worker × Nat) (h : HypertableId) :
    Works (workerView s) (workerView (finalizeHypertable E now s h)) := by
  unfold finalizeHypertable
  dsimp only
  split
  · exact Works.refl _
  · rename_i window cursor _
    exact Works.foldl (finalizeClaimed_works E now h) window.partitions
      ({ s.1 with finalizeCursors := Function.update s.1.finalizeCursors h cursor }, s.2)

theorem tick_works (hl0 : 2 ≤ E.cfg.l0Fanout) (hf : 2 ≤ E.cfg.fanout) (w : Worker) (t : Tick) :
    Works (workerView (w, 0)) (workerView (tick E w t)) := by
  cases t with
  | compact => exact ladderOnce_works hl0 hf w
  | finalize now => exact Works.foldl (finalizeHypertable_works E now) _ _

/-- **Every run of passes is paid for**, from any of its states on. -/
theorem ticks_works (hl0 : 2 ≤ E.cfg.l0Fanout) (hf : 2 ≤ E.cfg.fanout) (schedule : Nat → Tick)
    (w : Worker) (n m : Nat) :
    Works (workerView (ticks E schedule w n)) (workerView (ticks E schedule w (n + m))) := by
  induction m with
  | zero => exact Works.refl _
  | succ m ih =>
    refine ih.trans fun hok => ?_
    obtain ⟨hok', merges, hcount, hspent⟩ :=
      tick_works hl0 hf (ticks E schedule w (n + m)).1 (schedule (n + m)) hok
    refine ⟨hok', merges, ?_, hspent⟩
    exact congrArg ((ticks E schedule w (n + m)).2 + ·) (hcount.trans (Nat.zero_add _))

/-! ## 4. What a pass of the finalizer merges -/

/-- With no lease in its way, a sweep offers eligible partitions, and some if there are any. -/
theorem sweep_offers_unleased (text : Json → String) (kind : SweepKind) (h : HypertableId)
    (owner : Uuid) {limit : Int} (hlimit : 1 ≤ limit) {r : Reading}
    (hfree : ∀ key, r.tables.compactionLeases key = none) (cursor : Option String) :
    ∃ w next, Sweeps.sweep text kind h owner limit r r cursor = some (w, next) ∧
      (∀ partition ∈ w.partitions, partition ∈ kind.eligible r h) ∧
      (kind.eligible r h ≠ [] → w.partitions ≠ []) := by
  have hread : ∀ after, ∃ w, kind.candidates text r h owner limit after = some w ∧
      (∀ partition ∈ w.partitions, partition ∈ kind.eligible r h) ∧
      (after = none → kind.eligible r h ≠ [] → w.partitions ≠ []) := by
    intro after
    have hrows : (windowSql text r.tables.compactionLeases r.clock h (kind.eligible r h) owner limit
        after).map CandidateWindow.fromRows = _ :=
      fromRows_windowSql (not_lt.mpr (zero_le_one.trans hlimit))
    refine ⟨_, (kind.candidates_eq text r h owner limit after).trans hrows, ?_, ?_⟩
    · intro partition hp
      have hp := (List.mem_insertionSort _).mp (List.mem_of_mem_take hp)
      exact (mem_marked_false.mp (mem_unleased.mp (List.mem_filter.mp hp).1)).1
    · rintro rfl hne hnil
      obtain ⟨partition, hp⟩ := List.exists_mem_of_ne_nil _ hne
      have hunleased : partition ∈ unleased (marked r.tables.compactionLeases r.clock h owner
          (kind.eligible r h)) :=
        mem_unleased.mpr (mem_marked_false.mpr ⟨hp, fun _ _ => by
          rw [hfree]
          exact Option.some_ne_none _⟩)
      rcases List.take_eq_nil_iff.mp hnil with hzero | hnil
      · omega
      · have hsorted : partition ∈ ([] : List Json) := by
          rw [← hnil, List.mem_insertionSort, List.mem_filter]
          exact ⟨hunleased, by simp⟩
        cases hsorted
  obtain ⟨w, hw, hin, hsome⟩ := hread cursor
  obtain ⟨w', hw', hin', hsome'⟩ := hread none
  unfold Sweeps.sweep
  rw [hw]
  by_cases htail : cursor.isSome = true ∧ w.partitions = []
  · refine ⟨w', if w'.partitions.length < limit.toNat then none else w'.nextCursor, ?_, hin',
      hsome' rfl⟩
    simp only [Option.bind_eq_bind, Option.bind_some, if_pos htail, hw', Option.pure_def]
  · refine ⟨w, if w.partitions.length < limit.toNat then none else w.nextCursor, ?_, hin, ?_⟩
    · simp only [Option.bind_eq_bind, Option.bind_some, if_neg htail, Option.pure_def]
    · intro hne
      cases cursor with
      | none => exact hsome rfl hne
      | some c => exact fun hnil => htail ⟨rfl, hnil⟩

/-- The merges of a pass are counted upwards. -/
theorem Works.count_le {s s' : Ladder × Tables × Nat} (hw : Works s s') (hok : s.1.Ok) :
    s.2.2 ≤ s'.2.2 := by
  obtain ⟨-, m, hm, -⟩ := hw hok
  omega

theorem finalizeClaimed_merges {now : Int} {s : Worker × Nat}
    (hmem : partition ∈ finalizeEligible s.1.tables h now E.finalizeAfterSecs) :
    (finalizeClaimed E now h s partition).2 = s.2 + 1 := by
  obtain ⟨⟨group, level⟩, hfound⟩ := Option.isSome_iff_exists.mp
    (finalizePartition_isSome.mpr (mem_finalizeEligible_iff.mp hmem))
  unfold finalizeClaimed
  rw [hfound]

theorem finalizeHypertable_merges (hlimit : 1 ≤ E.cfg.candidateLimit) {now : Int}
    {s : Worker × Nat} (hok : s.1.ladder.Ok)
    (hmem : partition ∈ finalizeEligible s.1.tables h now E.finalizeAfterSecs) :
    s.2 < (finalizeHypertable E now s h).2 := by
  have hfree : ∀ key, s.1.tables.compactionLeases key = none := fun _ => rfl
  obtain ⟨w, next, hsweep, hin, hsome⟩ := @sweep_offers_unleased E.text
    (.finalize E.finalizeAfterSecs) h E.ownerId _ hlimit ⟨s.1.tables, now, fun _ => now⟩ hfree
    (s.1.finalizeCursors h)
  unfold finalizeHypertable
  dsimp only
  rw [hsweep]
  dsimp only
  cases hw : w.partitions with
  | nil => exact absurd hw (hsome (List.ne_nil_of_mem hmem))
  | cons first rest =>
    -- the first that is offered is merged, and the rest takes nothing back
    have hfirst := hin first (by rw [hw]; exact List.mem_cons_self)
    let s₁ : Worker × Nat :=
      ({ s.1 with finalizeCursors := Function.update s.1.finalizeCursors h next }, s.2)
    have hone : (finalizeClaimed E now h s₁ first).2 = s.2 + 1 := finalizeClaimed_merges hfirst
    have hrest := (Works.foldl (finalizeClaimed_works E now h) rest
      (finalizeClaimed E now h s₁ first)).count_le (finalizeClaimed_works E now h s₁ first hok).1
    rw [List.foldl_cons]
    exact (Nat.lt_of_lt_of_eq (Nat.lt_succ_self _) hone.symm).trans_le hrest

/-- **A pass of the finalizer merges, if it has anything to merge.** -/
theorem finalizeOnce_merges (hlimit : 1 ≤ E.cfg.candidateLimit) {now : Int}
    {rest : List HypertableId} {s : Worker × Nat} (hok : s.1.ladder.Ok) (hh : h ∈ rest)
    (hmem : partition ∈ finalizeEligible s.1.tables h now E.finalizeAfterSecs) :
    s.2 < (rest.foldl (finalizeHypertable E now) s).2 := by
  induction rest generalizing s with
  | nil => cases hh
  | cons k rest ih =>
    rw [List.foldl_cons]
    obtain ⟨hok', m, hm, hspent⟩ := finalizeHypertable_works E now s k hok
    have hrest : (finalizeHypertable E now s k).2 ≤ _ :=
      (Works.foldl (finalizeHypertable_works E now) rest _).count_le hok'
    replace hm : (finalizeHypertable E now s k).2 = s.2 + m := hm
    rcases Nat.eq_zero_or_pos m with rfl | hpos
    · -- nothing was merged before this hypertable's turn
      rcases List.mem_cons.mp hh with rfl | hh
      · exact absurd hm (finalizeHypertable_merges hlimit hok hmem).ne'
      · have hsame : (finalizeHypertable E now s k).1.tables = s.1.tables := hspent.idle rfl
        exact hm.symm.trans_lt (ih hok' hh (hsame ▸ hmem))
    · have hlt : s.2 < (finalizeHypertable E now s k).2 := by omega
      exact hlt.trans_le hrest

/-! ## 5. The passes settle -/

/-- Every partition is cold in the end. -/
theorem exists_quiet (T : Tables) (quiet : Int) :
    ∃ t, ∀ now, t ≤ now → ∀ h partition, partitionL0QuietSince T h partition now quiet = true := by
  obtain ⟨latest, hlatest⟩ : ∃ latest, ∀ c ∈ T.commits, c.createdAt ≤ latest := by
    induction T.commits with
    | nil => exact ⟨0, fun _ hc => by cases hc⟩
    | cons c cs ih =>
      obtain ⟨latest, hle⟩ := ih
      refine ⟨max c.createdAt latest, fun c' hc' => ?_⟩
      rcases List.mem_cons.mp hc' with rfl | hc'
      · exact le_max_left _ _
      · exact (hle c' hc').trans (le_max_right _ _)
  refine ⟨latest + quiet + 1, fun now hnow h partition => ?_⟩
  rw [partitionL0QuietSince_iff]
  intro c hc
  obtain ⟨p, -, hc⟩ := List.mem_flatMap.mp hc
  have := hlatest c (List.mem_filter.mp hc).1
  omega

section Settle

variable {schedule : Nat → Tick} {w : Worker}

/-- What a run has done since its first state. -/
theorem ticks_spent (hl0 : 2 ≤ E.cfg.l0Fanout) (hf : 2 ≤ E.cfg.fanout) (hok : w.ladder.Ok)
    (n : Nat) : (ticks E schedule w n).1.ladder.Ok ∧
      Spent w.tables (ticks E schedule w n).1.tables (ticks E schedule w n).2 := by
  obtain ⟨hok', merges, hm, hspent⟩ := ticks_works hl0 hf schedule w 0 n hok
  rw [Nat.zero_add] at hok' hm hspent
  replace hm : (ticks E schedule w n).2 = merges := hm.trans (Nat.zero_add _)
  exact ⟨hok', hm ▸ hspent⟩

/-- **The merges come to an end**, in every order of the passes. -/
theorem exists_still (hl0 : 2 ≤ E.cfg.l0Fanout) (hf : 2 ≤ E.cfg.fanout) (hok : w.ladder.Ok) :
    ∃ n, ∀ m, n ≤ m → (ticks E schedule w m).1.tables = (ticks E schedule w n).1.tables ∧
      (ticks E schedule w m).2 = (ticks E schedule w n).2 := by
  have hafter : ∀ n k, ∃ merges,
      (ticks E schedule w (n + k)).2 = (ticks E schedule w n).2 + merges ∧
      Spent (ticks E schedule w n).1.tables (ticks E schedule w (n + k)).1.tables merges :=
    fun n k => (ticks_works hl0 hf schedule w n k (ticks_spent hl0 hf hok n).1).2
  -- the runs that are left do not get more, so at some point they no longer get fewer
  have hanti : Antitone fun n => (liveRuns (ticks E schedule w n).1.ladder.parts).card := by
    refine antitone_nat_of_succ_le fun n => ?_
    obtain ⟨merges, -, hspent⟩ := hafter n 1
    exact (Nat.le_add_right _ merges).trans hspent.paid
  obtain ⟨n, hn⟩ := WellFoundedLT.antitone_chain_condition hanti
  refine ⟨n, fun m hm => ?_⟩
  obtain ⟨k, rfl⟩ := Nat.exists_eq_add_of_le hm
  obtain ⟨merges, hcount, hspent⟩ := hafter n k
  have hcard := hn (n + k) hm
  obtain rfl : merges = 0 := Nat.eq_zero_of_not_pos fun hpos =>
    (Nat.lt_of_lt_of_le (Nat.lt_add_of_pos_right hpos) hspent.paid).ne' hcard
  exact ⟨hspent.idle rfl, hcount⟩

/-- **The compactor settles.**  With triggers of two runs at least, in whatever order the passes of
the ladder and of the finalizer are made and at whatever instants: every merge uses up a run, so the
merges made and the runs left are never more than the runs at first.  And if passes of the finalizer
keep coming, ever later, the catalog is in the end left as it is, with one run of every partition
that had any. -/
theorem compaction_settles (hl0 : 2 ≤ E.cfg.l0Fanout) (hf : 2 ≤ E.cfg.fanout)
    (hlimit : 1 ≤ E.cfg.candidateLimit) (schedule : Nat → Tick) (hok : w.ladder.Ok) :
    (∀ n, (ticks E schedule w n).2 + (liveRuns (ticks E schedule w n).1.ladder.parts).card ≤
      (liveRuns w.ladder.parts).card) ∧
    ((∀ k t, ∃ i now, k ≤ i ∧ t ≤ now ∧ schedule i = .finalize now) →
      ∃ n, ∀ m, n ≤ m →
        (ticks E schedule w m).1.tables = (ticks E schedule w n).1.tables ∧
        ∀ h ∈ E.hypertables, ∀ partition,
          runs (livePartitionParts (ticks E schedule w m).1.ladder.parts h partition) =
            if livePartitionParts w.ladder.parts h partition = [] then 0 else 1) := by
  have hrun := @ticks_spent _ schedule _ hl0 hf hok
  refine ⟨fun n => (Nat.add_comm _ _).trans_le (hrun n).2.paid, fun hoften => ?_⟩
  obtain ⟨n, hstill⟩ := @exists_still _ schedule _ hl0 hf hok
  -- a late pass of the finalizer found every partition cold, and had nothing to merge
  obtain ⟨t, hquiet⟩ := exists_quiet (ticks E schedule w n).1.tables E.finalizeAfterSecs
  obtain ⟨i, now, hi, hnow, hpass⟩ := hoften n t
  have hone : ∀ h ∈ E.hypertables, ∀ partition,
      runs (livePartitionParts (ticks E schedule w n).1.ladder.parts h partition) ≤ 1 := by
    intro h hh partition
    by_contra htwo
    have hmem : partition ∈ finalizeEligible (ticks E schedule w i).1.tables h now
        E.finalizeAfterSecs := by
      rw [(hstill i hi).1]
      exact mem_finalizeEligible_iff.mpr
        ⟨Nat.lt_of_not_le htwo, hquiet now hnow h partition⟩
    have hmerges : 0 < (tick E (ticks E schedule w i).1 (schedule i)).2 := by
      rw [hpass]
      exact finalizeOnce_merges hlimit (s := ((ticks E schedule w i).1, 0)) (hrun i).1 hh hmem
    have hnext : (ticks E schedule w (i + 1)).2 = (ticks E schedule w i).2 +
        (tick E (ticks E schedule w i).1 (schedule i)).2 := rfl
    rw [(hstill (i + 1) (by omega)).2, (hstill i hi).2] at hnext
    omega
  refine ⟨n, fun m hm => ⟨(hstill m hm).1, fun h hh partition => ?_⟩⟩
  have hparts : (ticks E schedule w m).1.ladder.parts = (ticks E schedule w n).1.ladder.parts :=
    congrArg Tables.parts (hstill m hm).1
  have hkept := (hrun n).2.kept h partition
  rw [hparts]
  split
  · rename_i hnone
    exact congrArg runs (hkept.mpr hnone)
  · rename_i hsome
    exact le_antisymm (hone h hh partition)
      (runs_pos.mpr fun hnil => hsome (hkept.mp hnil))

end Settle

/-- Triggers of four runs, and an hour without arrivals. -/
def fourAnHour : Env where
  cfg := ⟨4, 4, 64⟩
  finalizeAfterSecs := 3600
  ownerId := 7
  hypertables := [1]
  text _ := ""
  out := oneFile
  stamp id := ⟨id, 1, .replace, none, none, 100⟩

/-- Two runs of a partition, which the ladder leaves alone. -/
def twoRunsLeft : Worker where
  ladder := twoRuns
  commits := [⟨1, 1, .replace, none, none, 10⟩, ⟨2, 1, .replace, none, none, 20⟩]

/-- A pass of each in turn. -/
def inTurn (i : Nat) : Tick := if i % 2 = 0 then .compact else .finalize i

theorem compaction_settles_two : ∃ n,
    runs (livePartitionParts (ticks fourAnHour inTurn twoRunsLeft n).1.ladder.parts 1 .null) =
      1 := by
  have hok : twoRunsLeft.ladder.Ok := ⟨by decide, by decide, by decide, by decide⟩
  obtain ⟨n, hn⟩ := (compaction_settles (E := fourAnHour) (by decide) (by decide) (by decide)
    inTurn hok).2 (fun k t => by
      refine ⟨2 * (k + t.toNat) + 1, (2 * (k + t.toNat) + 1 : Nat), by omega, by omega, ?_⟩
      exact if_neg (by omega))
  exact ⟨n, (hn n le_rfl).2 1 (List.mem_singleton_self 1) .null⟩

end Ukiel.Compactor.Finalizer
