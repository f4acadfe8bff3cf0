/-
# The compactor's gauges

What the collector reports of the compactor's work (`collector.rs`, `compactor_family`): the two
counts of `parts.rs`, `backlog_groups` and `unfinalized_partitions`, each one query over the parts
of all hypertables at once.  The sweeps list what there is to do hypertable by hypertable, and a
partition is looked at again before it is merged; the gauges are worth watching if they count the
same work.

* §1 the queries.
* §2 the backlog is the full levels (`backlog_counts`).
* §3 the unfinalized partitions are the finalizer's (`unfinalized_counts`).
* §4 passes bring the backlog to nothing (`backlog_drains`).
* §5 a finalizing merge takes one from the other gauge (`finalize_counts_down`).
-/
import Ukiel.Compactor.Conservation
import Ukiel.Compactor.Sweeps

namespace Ukiel.Compactor.Gauges

open Ukiel.Catalog Ukiel.Catalog.Candidates Ukiel.Compactor.Sweeps Ukiel.Daemon Grouping

/-! ## 1. The queries -/

/-- `WHERE deleted_by_commit IS NULL`, of all hypertables. -/
def allLive (T : Tables) : List PartRow := T.parts.filter PartRow.live

/-- `backlog_groups`. -/
def backlogGroups (T : Tables) (l0Fanout fanout : Int) : Nat :=
  let g := (groupBy (fun p : PartRow =>
      (p.hypertableId, p.partMeta.partitionValues, p.partMeta.level)) (allLive T)).map
    fun ((_, _, level), rows) => (level, countDistinct PartRow.createdByCommit rows)
  (g.filter fun (level, runs) =>
    (if level = 0 then l0Fanout else fanout) ≤ (runs : Int)).length

/-- `live_runs`: the partitions with two live runs. -/
def liveRuns (T : Tables) : List (HypertableId × Json) :=
  ((groupBy (fun p : PartRow => (p.hypertableId, p.partMeta.partitionValues)) (allLive T)).filter
    fun (_, rows) => 2 ≤ countDistinct PartRow.createdByCommit rows).map Prod.fst

/-- `parts p JOIN commits c ON c.id = p.created_by_commit WHERE p.level = 0`: where and when. -/
def arrivals (T : Tables) : List ((HypertableId × Json) × Int) :=
  (T.parts.filter fun p => p.partMeta.level = 0).flatMap fun p =>
    (T.commits.filter fun c => c.id = p.createdByCommit).map fun c =>
      ((p.hypertableId, p.partMeta.partitionValues), c.createdAt)

/-- `live_runs r LEFT JOIN last_arrival a`: with NULL where no L0 part ever was. -/
def joined (T : Tables) : List ((HypertableId × Json) × Option Int) :=
  let lastArrival := groupBy Prod.fst (arrivals T)
  (leftJoin (fun r a => decide (a.1 = r)) (liveRuns T) lastArrival).map fun (r, a) =>
    (r, a.bind fun (_, rows) => (rows.map Prod.snd).max?)

/-- `unfinalized_partitions`: how many there are, and the age of the oldest arrival among them. -/
def unfinalizedPartitions (T : Tables) (now quiet : Int) : Nat × Int :=
  let cold := (joined T).filter fun (_, lastL0) => lastL0.all fun last => last < now - quiet
  (cold.length, ((cold.filterMap Prod.snd).map fun last => now - last).max?.getD 0)

variable {T T' : Tables} {h : HypertableId} {partition : Json} {cfg : CompactorConfig}

/-- The live parts of a partition, among all. -/
theorem allLive_filter (T : Tables) (h : HypertableId) (partition : Json) :
    ((allLive T).filter fun p => (p.hypertableId, p.partMeta.partitionValues) = (h, partition)) =
      livePartitionParts T.parts h partition := by
  unfold allLive livePartitionParts
  rw [List.filter_filter]
  refine List.filter_congr fun p _ => ?_
  simp [Bool.and_assoc]

theorem allLive_filter_level (T : Tables) (h : HypertableId) (partition : Json) (level : Int) :
    ((allLive T).filter fun p =>
      (p.hypertableId, p.partMeta.partitionValues, p.partMeta.level) = (h, partition, level)) =
      atLevel (livePartitionParts T.parts h partition) level := by
  rw [← allLive_filter]
  unfold atLevel
  rw [List.filter_filter]
  refine List.filter_congr fun p _ => ?_
  simp [Bool.and_left_comm, Bool.and_comm]

/-! ## 2. The backlog -/

instance (trigger : Int → Nat) (r : Int → Nat) (L : Int) : Decidable (Carry.Full trigger r L) :=
  inferInstanceAs (Decidable (_ ∧ _))

/-- The levels of all partitions that have the runs for a merge. -/
def fullLevels (cfg : CompactorConfig) (T : Tables) : Finset (HypertableId × Json × Int) :=
  ((allLive T).map fun p =>
      (p.hypertableId, p.partMeta.partitionValues, p.partMeta.level)).toFinset.filter
    fun (h, partition, level) =>
      Carry.Full cfg.trigger (runsAt (livePartitionParts T.parts h partition)) level

theorem mem_fullLevels {level : Int} :
    (h, partition, level) ∈ fullLevels cfg T ↔
      Carry.Full cfg.trigger (runsAt (livePartitionParts T.parts h partition)) level := by
  unfold fullLevels
  rw [Finset.mem_filter, List.mem_toFinset]
  refine and_iff_right_of_imp fun hfull => ?_
  -- a level with a run has a part
  obtain ⟨p, hp⟩ := List.exists_mem_of_ne_nil _ (runs_pos.mp hfull.1)
  rw [← allLive_filter_level, List.mem_filter, decide_eq_true_eq] at hp
  exact List.mem_map.mpr ⟨p, hp.1, hp.2⟩

/-- A partition is eligible when one of its levels is full. -/
theorem eligibleLevel_ne_none_iff :
    eligibleLevel cfg (livePartitionParts T.parts h partition) ≠ none ↔
      ∃ level, (h, partition, level) ∈ fullLevels cfg T := by
  rw [ne_eq, eligibleLevel_eq_none, not_forall]
  simp only [not_not, mem_fullLevels]

/-- The query counts the full levels. -/
theorem backlogGroups_eq (hl0 : cfg.l0Fanout < 2 ^ 63) (hf : cfg.fanout < 2 ^ 63) :
    backlogGroups T (asI64 cfg.l0Fanout) (asI64 cfg.fanout) = (fullLevels cfg T).card := by
  unfold backlogGroups
  rw [asI64_of_lt hl0, asI64_of_lt hf]
  dsimp only
  rw [List.filter_map, List.length_map]
  refine (length_filter_groupBy fun (key : HypertableId × Json × Int) rows =>
    (if key.2.2 = 0 then (cfg.l0Fanout : Int) else cfg.fanout) ≤
      (countDistinct PartRow.createdByCommit rows : Int)).trans ?_
  unfold fullLevels
  congr 1
  refine Finset.filter_congr fun ⟨h, partition, level⟩ hmem => ?_
  have hpos : 1 ≤ runsAt (livePartitionParts T.parts h partition) level := by
    obtain ⟨p, hp, heq⟩ := List.mem_map.mp (List.mem_toFinset.mp hmem)
    refine runs_pos.mpr (List.ne_nil_of_mem (a := p) ?_)
    rw [← allLive_filter_level, List.mem_filter, decide_eq_true_eq]
    exact ⟨hp, heq⟩
  have htrigger : (if level = 0 then (cfg.l0Fanout : Int) else cfg.fanout) = cfg.trigger level := by
    unfold CompactorConfig.trigger
    split <;> rfl
  rw [allLive_filter_level, htrigger, Nat.cast_le]
  exact (and_iff_right hpos).symm

/-- The gauge is zero when `eligible_level` finds nothing. -/
theorem backlogGroups_eq_zero_iff (hl0 : cfg.l0Fanout < 2 ^ 63) (hf : cfg.fanout < 2 ^ 63) :
    backlogGroups T (asI64 cfg.l0Fanout) (asI64 cfg.fanout) = 0 ↔ ∀ h partition,
      eligibleLevel cfg (livePartitionParts T.parts h partition) = none := by
  rw [backlogGroups_eq hl0 hf, Finset.card_eq_zero, Finset.eq_empty_iff_forall_notMem]
  constructor
  · intro hnone h partition
    by_contra hne
    obtain ⟨level, hfull⟩ := eligibleLevel_ne_none_iff.mp hne
    exact hnone _ hfull
  · rintro hnone ⟨h, partition, level⟩ hfull
    exact eligibleLevel_ne_none_iff.mpr ⟨level, hfull⟩ (hnone h partition)

/-- The hypertables that have parts. -/
def partHypertables (T : Tables) : Finset HypertableId :=
  (T.parts.map PartRow.hypertableId).toFinset

/-- The full levels of a partition. -/
def fullLevelsOf (cfg : CompactorConfig) (T : Tables) (h : HypertableId) (partition : Json) :
    Finset Int :=
  (levels (livePartitionParts T.parts h partition)).toFinset.filter fun level =>
    Carry.Full cfg.trigger (runsAt (livePartitionParts T.parts h partition)) level

theorem mem_fullLevelsOf {level : Int} :
    level ∈ fullLevelsOf cfg T h partition ↔ (h, partition, level) ∈ fullLevels cfg T := by
  rw [fullLevelsOf, Finset.mem_filter, List.mem_toFinset, mem_fullLevels]
  exact and_iff_right_of_imp fun hfull => mem_levels.mpr (runs_pos.mp hfull.1)

theorem mem_partHypertables {p : PartRow} (hp : p ∈ livePartitionParts T.parts h partition) :
    h ∈ partHypertables T := by
  obtain ⟨hmem, rfl, -⟩ := mem_livePartitionParts.mp hp
  exact List.mem_toFinset.mpr (List.mem_map_of_mem hmem)

theorem mem_partHypertables_of_full {level : Int}
    (hfull : (h, partition, level) ∈ fullLevels cfg T) : h ∈ partHypertables T := by
  obtain ⟨p, hp⟩ := List.exists_mem_of_ne_nil _ (runs_pos.mp (mem_fullLevels.mp hfull).1)
  exact mem_partHypertables (List.mem_filter.mp hp).1

/-- **The backlog gauge.**  For every catalog state and configuration: the gauge is the number of
full levels of the partitions the ladder's listings hold, one at least for each, summed over all
hypertables.  So it is no less than the number of partitions listed, and it is zero exactly when
`eligible_level` finds nothing to merge in any partition. -/
theorem backlog_counts (T : Tables) (cfg : CompactorConfig) (hl0 : cfg.l0Fanout < 2 ^ 63)
    (hf : cfg.fanout < 2 ^ 63) :
    let gauge := backlogGroups T (asI64 cfg.l0Fanout) (asI64 cfg.fanout)
    let listed := fun h => ladderEligible T h (asI64 cfg.l0Fanout) (asI64 cfg.fanout)
    gauge = ∑ h ∈ partHypertables T, ∑ partition ∈ (listed h).toFinset,
      (fullLevelsOf cfg T h partition).card ∧
    (∀ h, ∀ partition ∈ listed h, 1 ≤ (fullLevelsOf cfg T h partition).card) ∧
    ∑ h ∈ partHypertables T, (listed h).length ≤ gauge ∧
    (gauge = 0 ↔ ∀ h partition,
      eligibleLevel cfg (livePartitionParts T.parts h partition) = none) := by
  intro gauge listed
  have hcard : gauge = (fullLevels cfg T).card := backlogGroups_eq hl0 hf
  have hlisted : ∀ {h partition}, partition ∈ listed h ↔
      ∃ level, (h, partition, level) ∈ fullLevels cfg T :=
    fun {h partition} => (mem_ladderEligible_iff hl0 hf).trans eligibleLevel_ne_none_iff
  have hsum : gauge = ∑ h ∈ partHypertables T, ∑ partition ∈ (listed h).toFinset,
      (fullLevelsOf cfg T h partition).card := by
    have hsection : ∀ h x, x ∈ ((fullLevels cfg T).filter fun y => y.1 = h).image Prod.snd ↔
        (h, x) ∈ fullLevels cfg T := by
      simp
    -- once by the hypertables, once by the partitions of each
    rw [hcard, card_pairs fun h x => (and_iff_right_of_imp mem_partHypertables_of_full).symm.trans
      (and_congr_right' (hsection h x).symm)]
    refine Finset.sum_congr rfl fun h _ => card_pairs fun partition level => ?_
    rw [hsection, List.mem_toFinset, hlisted, mem_fullLevelsOf]
    exact (and_iff_right_of_imp fun hfull => ⟨level, hfull⟩).symm
  have hone : ∀ h, ∀ partition ∈ listed h, 1 ≤ (fullLevelsOf cfg T h partition).card := by
    intro h partition hmem
    obtain ⟨level, hfull⟩ := hlisted.mp hmem
    exact Finset.card_pos.mpr ⟨level, mem_fullLevelsOf.mpr hfull⟩
  refine ⟨hsum, hone, ?_, backlogGroups_eq_zero_iff hl0 hf⟩
  rw [hsum]
  refine Finset.sum_le_sum fun h _ => ?_
  rw [← List.toFinset_card_of_nodup (show (listed h).Nodup from List.nodup_dedup _),
    Finset.card_eq_sum_ones]
  exact Finset.sum_le_sum fun partition hmem => hone h partition (List.mem_toFinset.mp hmem)

theorem backlog_counts_two :
    backlogGroups twoDays.tables (asI64 2) (asI64 2) = 2 ∧
    ∑ h ∈ partHypertables twoDays.tables,
      (ladderEligible twoDays.tables h (asI64 2) (asI64 2)).length ≤
        backlogGroups twoDays.tables (asI64 2) (asI64 2) :=
  ⟨by decide +kernel,
    (backlog_counts twoDays.tables ⟨2, 2, 64⟩ (by decide) (by decide)).2.2.1⟩

/-! ## 3. Unfinalized partitions -/

theorem mem_liveRuns :
    (h, partition) ∈ liveRuns T ↔ 2 ≤ runs (livePartitionParts T.parts h partition) := by
  unfold liveRuns
  rw [List.mem_map]
  constructor
  · rintro ⟨⟨_, rows⟩, hgroup, rfl⟩
    obtain ⟨hgroup, hruns⟩ := List.mem_filter.mp hgroup
    obtain ⟨rfl, -⟩ := mem_groupBy.mp hgroup
    rw [allLive_filter] at hruns
    exact of_decide_eq_true hruns
  · intro hruns
    refine ⟨((h, partition), livePartitionParts T.parts h partition), ?_, rfl⟩
    refine List.mem_filter.mpr ⟨mem_groupBy.mpr ⟨(allLive_filter T h partition).symm, ?_⟩,
      decide_eq_true hruns⟩
    exact runs_pos.mp (by omega)

theorem liveRuns_nodup (T : Tables) : (liveRuns T).Nodup :=
  (groupBy_keys_nodup _ _).sublist (List.filter_sublist.map Prod.fst)

/-- The arrivals of a partition are its L0 commits. -/
theorem arrivals_filter (T : Tables) (h : HypertableId) (partition : Json) :
    ((arrivals T).filter fun a => a.1 = (h, partition)).map Prod.snd =
      (l0Commits T h partition).map CommitRow.createdAt := by
  unfold arrivals l0Commits
  induction T.parts with
  | nil => rfl
  | cons p parts ih =>
    by_cases hlevel : p.partMeta.level = 0
    · by_cases hkey : p.hypertableId = h ∧ p.partMeta.partitionValues = partition
      · simp_all [List.filter_map, Function.comp_def]
      · simp_all [List.filter_map, Function.comp_def]
    · simp_all

/-- **The join finds the last L0 commit.** -/
theorem joined_eq (T : Tables) :
    joined T = (liveRuns T).map fun r =>
      (r, ((l0Commits T r.1 r.2).map CommitRow.createdAt).max?) := by
  unfold joined
  dsimp only
  rw [leftJoin_groupBy, List.map_map]
  refine List.map_congr_left fun r _ => ?_
  rw [← arrivals_filter]
  simp only [Function.comp_apply, Prod.mk.eta, Prod.mk.injEq, true_and]
  split
  · rename_i hnone
    simp [hnone]
  · rfl

/-- The partitions that are counted. -/
def cold (T : Tables) (now quiet : Int) : List (HypertableId × Json) :=
  (liveRuns T).filter fun r => partitionL0QuietSince T r.1 r.2 now quiet

theorem mem_cold {now quiet : Int} :
    (h, partition) ∈ cold T now quiet ↔ partition ∈ finalizeEligible T h now quiet := by
  rw [cold, List.mem_filter, mem_liveRuns, mem_finalizeEligible_iff]

theorem cold_nodup (T : Tables) (now quiet : Int) : (cold T now quiet).Nodup :=
  (liveRuns_nodup T).filter _

theorem unfinalizedPartitions_eq (T : Tables) (now quiet : Int) :
    unfinalizedPartitions T now quiet = ((cold T now quiet).length,
      ((cold T now quiet).filterMap fun r =>
        ((l0Commits T r.1 r.2).map CommitRow.createdAt).max?.map fun last =>
          now - last).max?.getD 0) := by
  have hquiet : ∀ h partition, ((((l0Commits T h partition).map CommitRow.createdAt).max?).all
      fun last => last < now - quiet) = partitionL0QuietSince T h partition now quiet := by
    intro h partition
    unfold partitionL0QuietSince
    cases ((l0Commits T h partition).map CommitRow.createdAt).max? <;> rfl
  unfold unfinalizedPartitions cold
  simp [joined_eq, List.filter_map, Function.comp_def, hquiet, List.filterMap_map,
    List.map_filterMap]

/-- The partitions that are counted, hypertable by hypertable. -/
theorem length_cold (T : Tables) (now quiet : Int) :
    (cold T now quiet).length =
      ∑ h ∈ partHypertables T, (finalizeEligible T h now quiet).length := by
  have hlisted : ∀ h, (finalizeEligible T h now quiet).Nodup := fun h =>
    (groupBy_keys_nodup _ _).sublist (List.filter_sublist.map Prod.fst)
  have hht : ∀ {h partition}, partition ∈ finalizeEligible T h now quiet →
      h ∈ partHypertables T := by
    intro h partition hmem
    have hruns := (mem_finalizeEligible_iff.mp hmem).1
    obtain ⟨p, hp⟩ := List.exists_mem_of_ne_nil _ (runs_pos.mp (by omega : 1 ≤ runs
      (livePartitionParts T.parts h partition)))
    exact mem_partHypertables hp
  rw [← List.toFinset_card_of_nodup (cold_nodup T now quiet)]
  refine (card_pairs (u := fun h => (finalizeEligible T h now quiet).toFinset) ?_).trans
    (Finset.sum_congr rfl fun h _ => List.toFinset_card_of_nodup (hlisted h))
  intro h partition
  rw [List.mem_toFinset, List.mem_toFinset, mem_cold]
  exact (and_iff_right_of_imp hht).symm

/-- When the last L0 part of a partition was committed, if one ever was. -/
def LastArrival (T : Tables) (h : HypertableId) (partition : Json) (last : Int) : Prop :=
  IsGreatest {t | ∃ c ∈ l0Commits T h partition, c.createdAt = t} last

theorem max?_eq_some_iff_lastArrival {last : Int} :
    ((l0Commits T h partition).map CommitRow.createdAt).max? = some last ↔
      LastArrival T h partition last := by
  rw [List.max?_eq_some_iff, List.mem_map]
  refine and_congr_right' ⟨fun hle t ⟨c, hc, ht⟩ => ?_, fun hle t ht => ?_⟩
  · exact ht ▸ hle _ (List.mem_map_of_mem hc)
  · obtain ⟨c, hc, rfl⟩ := List.mem_map.mp ht
    exact hle ⟨c, hc, rfl⟩

/-- **The gauges of the finalizer.**  For every catalog state, instant and quiet period: the count
is that of the partitions `finalize_candidates` lists, over all hypertables, so it is zero exactly
when `finalize_partition` would merge nothing.  The age is the greatest of their last arrivals'
ages, all beyond the quiet period, and zero when none of them ever had an arrival. -/
theorem unfinalized_counts (T : Tables) (now quiet : Int) :
    let (count, oldest) := unfinalizedPartitions T now quiet
    let ages := {age | ∃ h, ∃ partition ∈ finalizeEligible T h now quiet, ∃ last,
      LastArrival T h partition last ∧ age = now - last}
    count = ∑ h ∈ partHypertables T, (finalizeEligible T h now quiet).length ∧
    (count = 0 ↔ ∀ h partition, finalizePartition T h partition now quiet = none) ∧
    (∀ age ∈ ages, quiet < age) ∧
    (IsGreatest ages oldest ∨ ages = ∅ ∧ oldest = 0) := by
  rw [unfinalizedPartitions_eq]
  refine ⟨length_cold T now quiet, ?_, ?_, ?_⟩
  · rw [List.length_eq_zero_iff, List.eq_nil_iff_forall_not_mem]
    refine Prod.forall.trans (forall₂_congr fun h partition => ?_)
    rw [mem_cold, mem_finalizeEligible_iff, ← finalizePartition_isSome]
    exact Option.not_isSome_iff_eq_none
  · rintro _ ⟨h, partition, hmem, last, hlast, rfl⟩
    obtain ⟨c, hc, rfl⟩ := hlast.1
    have := partitionL0QuietSince_iff.mp (mem_finalizeEligible.mp hmem).2 c hc
    omega
  · have hages : ∀ age, age ∈ ((cold T now quiet).filterMap fun r =>
          ((l0Commits T r.1 r.2).map CommitRow.createdAt).max?.map fun last => now - last) ↔
        ∃ h, ∃ partition ∈ finalizeEligible T h now quiet, ∃ last,
          LastArrival T h partition last ∧ age = now - last := by
      intro age
      simp only [List.mem_filterMap, Prod.exists, mem_cold, Option.map_eq_some_iff,
        max?_eq_some_iff_lastArrival, @eq_comm _ age]
    cases hmax : ((cold T now quiet).filterMap fun r =>
        ((l0Commits T r.1 r.2).map CommitRow.createdAt).max?.map fun last => now - last).max? with
    | some oldest =>
      obtain ⟨hmem, hle⟩ := List.max?_eq_some_iff.mp hmax
      exact Or.inl ⟨(hages oldest).mp hmem, fun age hage => hle age ((hages age).mpr hage)⟩
    | none =>
      rw [List.max?_eq_none_iff, List.eq_nil_iff_forall_not_mem] at hmax
      exact Or.inr ⟨Set.eq_empty_of_forall_notMem fun age hage => hmax age ((hages age).mpr hage),
        rfl⟩

/-! ## 4. The backlog drains -/

section Drains

variable {text : Json → String} {out : Outputs} {hypertables : List HypertableId}
  {l : Ladder} {s : Ladder × List Merge}

/-- The tables the ladder's part rows are in. -/
def tablesOf (l : Ladder) : Tables := { parts := l.parts }

/-- No part of any partition is eligible, whether or not its hypertable is visited. -/
def Idle (cfg : CompactorConfig) (parts : List PartRow) : Prop :=
  ∀ h partition, eligibleLevel cfg (livePartitionParts parts h partition) = none

/-- A window of partitions that are not eligible is left alone. -/
theorem window_idle (hidle : Idle cfg s.1.parts) (h : HypertableId) (window : List Json) :
    window.foldl (compactPartition cfg out h) s = s := by
  induction window with
  | nil => rfl
  | cons partition window ih =>
    have hsame : compactPartition cfg out h s partition = s := by
      unfold compactPartition
      rw [hidle h partition]
    rw [List.foldl_cons, hsame, ih]

/-- **An idle pass moves no more than the cursors.** -/
theorem runOnce_idle (hidle : Idle cfg s.1.parts) :
    (runOnce text cfg out hypertables s).1.parts = s.1.parts ∧
      (runOnce text cfg out hypertables s).2 = s.2 := by
  unfold runOnce
  induction hypertables generalizing s with
  | nil => exact ⟨rfl, rfl⟩
  | cons h rest ih =>
    rw [List.foldl_cons]
    have hone : (compactHypertable text cfg out s h).1.parts = s.1.parts ∧
        (compactHypertable text cfg out s h).2 = s.2 := by
      unfold compactHypertable
      dsimp only
      rw [window_idle (by exact hidle)]
      exact ⟨rfl, rfl⟩
    obtain ⟨hparts, hmerges⟩ := ih (hone.1.symm ▸ hidle)
    exact ⟨hparts.trans hone.1, hmerges.trans hone.2⟩

/-- From an idle state on all states are. -/
theorem passes_idle {n : Nat} (hidle : Idle cfg (passes text cfg out hypertables l n).1.parts)
    {k : Nat} (hk : n ≤ k) :
    (passes text cfg out hypertables l k).1.parts = (passes text cfg out hypertables l n).1.parts ∧
      (passes text cfg out hypertables l k).2 = (passes text cfg out hypertables l n).2 := by
  induction k, hk using Nat.le_induction with
  | base => exact ⟨rfl, rfl⟩
  | succ k _ ih =>
    obtain ⟨hparts, hmerges⟩ := @runOnce_idle cfg text out hypertables _ (ih.1.symm ▸ hidle)
    exact ⟨hparts.trans ih.1, hmerges.trans ih.2⟩

/-- Merges stay in the hypertables visited. -/
theorem passes_hypertables (hall : ∀ p ∈ l.parts, p.hypertableId ∈ hypertables) (n : Nat) :
    ∀ p ∈ (passes text cfg out hypertables l n).1.parts, p.hypertableId ∈ hypertables := by
  refine passes_inv (I := fun s => ∀ p ∈ s.1.parts, p.hypertableId ∈ hypertables)
    (fun _ _ hs => hs) ?_ hall n
  intro h hh s partition hs
  unfold compactPartition
  split
  · exact hs
  · intro p hp
    rcases List.mem_append.mp hp with hp | hp
    · obtain ⟨q, hq, rfl⟩ := List.mem_map.mp hp
      have := hs q hq
      split <;> exact this
    · exact (mem_newRows hp).1.symm ▸ hh

theorem not_visited {parts : List PartRow} (hall : ∀ p ∈ parts, p.hypertableId ∈ hypertables)
    (hh : h ∉ hypertables) : livePartitionParts parts h partition = [] := by
  rw [List.eq_nil_iff_forall_not_mem]
  intro p hp
  obtain ⟨hmem, rfl, -⟩ := mem_livePartitionParts.mp hp
  exact hh (hall p hmem)

/-- **Passes drain the backlog.**  For a configuration `validate` accepts, with a fanout of two or
more, and any parts below the highest level: after some number of passes over all hypertables the
gauge is zero, it stays zero, and nothing is merged any more. -/
theorem backlog_drains {config : UkieldConfig} (hvalid : validate config = .ok ())
    (hl0 : config.compactor.l0Fanout < 2 ^ 63) (hf : config.compactor.fanout < 2 ^ 63)
    (hfanout : 2 ≤ config.compactor.fanout) (hok : l.Ok)
    (htop : ∀ p ∈ l.parts, p.partMeta.level < maxLevel)
    (hall : ∀ p ∈ l.parts, p.hypertableId ∈ hypertables) (text : Json → String) (out : Outputs) :
    ∃ n, ∀ k, n ≤ k →
      backlogGroups
        (tablesOf (passes text (ofSection config.compactor) out hypertables l k).1)
        (asI64 config.compactor.l0Fanout) (asI64 config.compactor.fanout) = 0 ∧
      (passes text (ofSection config.compactor) out hypertables l k).2 =
        (passes text (ofSection config.compactor) out hypertables l n).2 := by
  have hc : Calm (ofSection config.compactor) hypertables
      (l.parts.map fun p => (p.hypertableId, p.partMeta.partitionValues)).toFinset l :=
    ⟨hok, fun h _ partition => not_spills_of_fanout hfanout htop h partition,
      fun p hp => List.mem_toFinset.mpr (List.mem_map_of_mem hp)⟩
  obtain ⟨⟨n, hquiet⟩, -⟩ := hc.quiescent text out hl0 hf (candidateLimit_pos hvalid)
  have hidle : Idle (ofSection config.compactor)
      (passes text (ofSection config.compactor) out hypertables l n).1.parts := by
    intro h partition
    by_cases hh : h ∈ hypertables
    · exact hquiet h hh partition
    · rw [not_visited (passes_hypertables hall n) hh]
      rfl
  refine ⟨n, fun k hk => ?_⟩
  obtain ⟨hparts, hmerges⟩ := passes_idle hidle hk
  refine ⟨(@backlogGroups_eq_zero_iff _ (ofSection config.compactor) hl0 hf).mpr ?_, hmerges⟩
  intro h partition
  rw [tablesOf, hparts]
  exact hidle h partition

theorem backlog_drains_two :
    ∃ n, backlogGroups
      (tablesOf (passes (fun _ => "") (ofSection (compacting 2).compactor)
        oneFile [1] twoRuns n).1) (asI64 (compacting 2).compactor.l0Fanout)
      (asI64 (compacting 2).compactor.fanout) = 0 := by
  have hok : twoRuns.Ok := ⟨by decide, by decide, by decide, by decide⟩
  have hvalid : validate (compacting 2) = .ok () := rfl
  have hall : ∀ p ∈ twoRuns.parts, p.hypertableId ∈ [1] := by decide
  obtain ⟨n, hn⟩ := backlog_drains hvalid (by decide) (by decide) le_rfl hok (by decide) hall (fun _ => "") oneFile
  exact ⟨n, (hn n le_rfl).1⟩

end Drains

/-! ## 5. A merge that commits -/

/-- What the schema promises of the rows at a commit: part ids are distinct, `created_by_commit`
refers to a commit, and the commit's own id is new. -/
structure Sequenced (T : Tables) (id : Int) : Prop where
  ids : (T.parts.map PartRow.id).Nodup
  born : ∀ p ∈ T.parts, ∃ r ∈ T.commits, r.id = p.createdByCommit
  fresh : ∀ r ∈ T.commits, r.id ≠ id

/-- A compaction commit that puts one run of `level` in the place of `group`. -/
structure Merged (T T' : Tables) (h : HypertableId) (partition : Json) (group : List PartRow)
    (level : Int) : Prop where
  inputs : ∀ p ∈ group, p ∈ livePartitionParts T.parts h partition
  committed : ∃ lease identity new id, new ≠ [] ∧ Sequenced T id ∧
    (∀ m ∈ new, m.partitionValues = partition ∧ m.level = level) ∧
    Applied T (commitCompactionReplace h lease (group.map PartRow.id) new identity) id T'

section Merge

variable {group : List PartRow} {level : Int}

/-- **The live parts after a merge**: of the other partitions the same, of its own the rest and one
new run. -/
theorem Merged.live (hm : Merged T T' h partition group level) :
    ∃ rows id, rows ≠ [] ∧ (∀ p ∈ T.parts, p.createdByCommit ≠ id) ∧
      (∀ p ∈ rows, p.createdByCommit = id ∧ p.partMeta.level = level) ∧
      ∀ h' partition', livePartitionParts T'.parts h' partition' =
        ((livePartitionParts T.parts h' partition').filter fun p => p ∉ group) ++
          if h' = h ∧ partition' = partition then rows else [] := by
  obtain ⟨lease, identity, new, id, hnew, hseq, hplace, happ⟩ := hm.committed
  obtain ⟨rows, hparts, hrows⟩ := happ.parts
  replace hparts : T'.parts = tombstoneParts id (group.map PartRow.id) T.parts ++ rows := hparts
  have hlive : ∀ h', rows.filter (fun p => p.hypertableId = h' ∧ p.live) =
      if h' = h then rows else [] := filter_live_newRows hrows
  have hmeta : ∀ p ∈ rows, p.partMeta.partitionValues = partition ∧ p.partMeta.level = level := by
    intro p hp
    refine hplace _ ?_
    have hmetas : rows.map PartRow.partMeta = new := hrows.metas
    exact hmetas ▸ List.mem_map_of_mem hp
  have hin : ∀ p ∈ T.parts, (!decide (p.id ∈ group.map PartRow.id)) = decide (p ∉ group) := by
    intro p hp
    rw [Bool.not_eq_eq_eq_not, ← decide_not, decide_eq_decide, not_not, List.mem_map]
    constructor
    · rintro ⟨q, hq, heq⟩
      have hqT := (mem_livePartitionParts.mp (hm.inputs q hq)).1
      exact List.inj_on_of_nodup_map hseq.ids hqT hp heq ▸ hq
    · exact fun hg => ⟨p, hg, rfl⟩
  refine ⟨rows, id, ?_, ?_, ?_, ?_⟩
  · rintro rfl
    exact hnew hrows.metas.symm
  · intro p hp heq
    obtain ⟨r, hr, hid⟩ := hseq.born p hp
    exact hseq.fresh r hr (hid.trans heq)
  · exact fun p hp => ⟨(hrows.row p hp).2.1, (hmeta p hp).2⟩
  · intro h' partition'
    rw [livePartitionParts_eq, livePartitionParts_eq T.parts, hparts, List.filter_append,
      List.filter_append, filter_live_tombstone, hlive]
    congr 1
    · simp only [List.filter_filter]
      refine List.filter_congr fun p hp => ?_
      rw [hin p hp]
      exact Bool.and_left_comm _ _ _
    · by_cases hh : h' = h
      · by_cases hp : partition' = partition
        · rw [if_pos hh, if_pos ⟨hh, hp⟩]
          refine List.filter_eq_self.mpr fun p hmem => ?_
          simp [(hmeta p hmem).1, hp]
        · rw [if_pos hh, if_neg fun hand => hp hand.2]
          refine List.filter_eq_nil_iff.mpr fun p hmem => ?_
          simp [(hmeta p hmem).1, Ne.symm hp]
      · rw [if_neg hh, if_neg fun hand => hh hand.1]
        rfl

/-- A merge above L0 is no arrival. -/
theorem Merged.quiet_iff (hm : Merged T T' h partition group level) (hlevel : 1 ≤ level)
    (h' : HypertableId) (partition' : Json) (now quiet : Int) :
    partitionL0QuietSince T' h' partition' now quiet = true ↔
      partitionL0QuietSince T h' partition' now quiet = true := by
  obtain ⟨lease, identity, new, id, hnew, hseq, hplace, happ⟩ := hm.committed
  obtain ⟨rows, hparts, hrows⟩ := happ.parts
  obtain ⟨at', hcommits⟩ := happ.commits
  have hhigh : ∀ p ∈ rows, p.partMeta.level ≠ 0 := by
    intro p hp
    have hmetas : rows.map PartRow.partMeta = new := hrows.metas
    have := (hplace _ (hmetas ▸ List.mem_map_of_mem hp)).2
    omega
  have hsame : ∀ c, c ∈ l0Commits T' h' partition' ↔ c ∈ l0Commits T h' partition' := by
    intro c
    unfold l0Commits
    simp only [List.mem_flatMap, List.mem_filter, decide_eq_true_eq, hparts, hcommits,
      List.mem_append, List.mem_singleton]
    constructor
    · rintro ⟨p, ⟨hp | hp, hat⟩, hc, hid⟩
      · obtain ⟨q, hq, rfl⟩ := List.mem_map.mp hp
        replace hid : c.id = q.createdByCommit := by
          split at hid <;> exact hid
        refine ⟨q, ⟨hq, ?_⟩, ?_, hid⟩
        · split at hat <;> exact hat
        · -- the commit itself is younger than every part that was there
          refine hc.resolve_right ?_
          rintro rfl
          obtain ⟨r, hr, hrid⟩ := hseq.born q hq
          exact hseq.fresh r hr (hrid.trans hid.symm)
      · exact absurd hat.2.2 (hhigh p hp)
    · rintro ⟨p, ⟨hp, hat⟩, hc, hid⟩
      refine ⟨_, ⟨Or.inl (List.mem_map_of_mem hp), ?_⟩, Or.inl hc, ?_⟩
      · split <;> exact hat
      · split <;> exact hid
  rw [partitionL0QuietSince_iff, partitionL0QuietSince_iff]
  simp only [hsame]

/-- A full level that is merged is empty afterwards, and the level above it has one run more. -/
theorem Merged.carry {L : Int} (hm : Merged T T' h partition group (L + 1))
    (he : eligibleLevel cfg (livePartitionParts T.parts h partition) = some (L, group)) :
    runsAt (livePartitionParts T'.parts h partition) =
      Carry.carry (runsAt (livePartitionParts T.parts h partition)) L := by
  obtain ⟨rows, id, hne, hfresh, hrows, hlive⟩ := hm.live
  obtain ⟨hlow, rfl⟩ := eligibleLevel_eq_some.mp he
  have hrest : ((livePartitionParts T.parts h partition).filter fun p =>
      p ∉ atLevel (livePartitionParts T.parts h partition) L) =
      (livePartitionParts T.parts h partition).filter fun p => p.partMeta.level ≠ L := by
    refine List.filter_congr fun p hp => ?_
    rw [decide_eq_decide]
    unfold atLevel
    rw [List.mem_filter, decide_eq_true_eq]
    exact not_congr (and_iff_right hp)
  funext M
  unfold runsAt
  rw [hlive, if_pos ⟨rfl, rfl⟩, hrest, atLevel_append, atLevel_remove,
    atLevel_of_level fun p hp => (hrows p hp).2]
  unfold Carry.carry
  by_cases hML : M = L
  · rw [if_pos hML, if_neg (by omega), if_pos hML]
    rfl
  · rw [if_neg hML, if_neg hML]
    split
    · refine runs_append_fresh hne (fun p hp => (hrows p hp).1) fun p hp => ?_
      exact hfresh p (mem_livePartitionParts.mp (List.mem_filter.mp hp).1).1
    · rw [List.append_nil]

/-- The other partitions keep their parts. -/
theorem Merged.other (hm : Merged T T' h partition group level) {h' : HypertableId}
    {partition' : Json} (hother : ¬ (h' = h ∧ partition' = partition)) :
    livePartitionParts T'.parts h' partition' = livePartitionParts T.parts h' partition' := by
  obtain ⟨rows, id, -, -, -, hlive⟩ := hm.live
  rw [hlive, if_neg hother, List.append_nil]
  refine List.filter_eq_self.mpr fun p hp => decide_eq_true fun hin => ?_
  obtain ⟨-, hht, hpv, -⟩ := mem_livePartitionParts.mp hp
  obtain ⟨-, hht', hpv', -⟩ := mem_livePartitionParts.mp (hm.inputs p hin)
  exact hother ⟨hht.symm.trans hht', hpv.symm.trans hpv'⟩

/-- Of a partition that is merged as a whole, one run is left. -/
theorem Merged.whole (hm : Merged T T' h partition (livePartitionParts T.parts h partition) level) :
    runs (livePartitionParts T'.parts h partition) = 1 ∧
      ∀ p ∈ livePartitionParts T'.parts h partition, p.partMeta.level = level := by
  obtain ⟨rows, id, hne, hfresh, hrows, hlive⟩ := hm.live
  have hnone : ((livePartitionParts T.parts h partition).filter fun p =>
      p ∉ livePartitionParts T.parts h partition) = [] :=
    List.filter_eq_nil_iff.mpr fun p hp => by simp [hp]
  rw [hlive, if_pos ⟨rfl, rfl⟩, hnone, List.nil_append]
  refine ⟨?_, fun p hp => (hrows p hp).2⟩
  have hone : runs ([] ++ rows) = runs [] + 1 :=
    runs_append_fresh hne (fun p hp => (hrows p hp).1) fun p hp => absurd hp List.not_mem_nil
  exact hone

/-- **A ladder merge does not raise the backlog.** -/
theorem Merged.backlog_le {L : Int} (hm : Merged T T' h partition group (L + 1))
    (he : eligibleLevel cfg (livePartitionParts T.parts h partition) = some (L, group)) :
    (fullLevels cfg T').card ≤ (fullLevels cfg T).card := by
  have hfull : (h, partition, L) ∈ fullLevels cfg T :=
    mem_fullLevels.mpr (eligibleLevel_eq_some.mp he).1.full
  -- the level is no longer full, and only the one above can have become so
  have hsub : fullLevels cfg T' ⊆
      insert (h, partition, L + 1) ((fullLevels cfg T).erase (h, partition, L)) := by
    rintro ⟨h', partition', M⟩ hmem
    rw [Finset.mem_insert, Finset.mem_erase, mem_fullLevels]
    rw [mem_fullLevels] at hmem
    by_cases hsame : h' = h ∧ partition' = partition
    · obtain ⟨rfl, rfl⟩ := hsame
      rw [hm.carry he] at hmem
      by_cases hnext : M = L + 1
      · exact Or.inl (by rw [hnext])
      · have hML : M ≠ L := by
          rintro rfl
          exact absurd hmem.1 (by simp)
        have hcarry : Carry.carry (runsAt (livePartitionParts T.parts h' partition')) L M =
            runsAt (livePartitionParts T.parts h' partition') M := by
          unfold Carry.carry
          rw [if_neg hML, if_neg hnext]
        refine Or.inr ⟨fun heq => hML (by simpa using heq), ?_⟩
        exact ⟨hcarry ▸ hmem.1, hcarry ▸ hmem.2⟩
    · rw [hm.other hsame] at hmem
      refine Or.inr ⟨fun heq => hsame ?_, hmem⟩
      rw [Prod.mk.injEq, Prod.mk.injEq] at heq
      exact ⟨heq.1, heq.2.1⟩
  calc (fullLevels cfg T').card
      ≤ _ := Finset.card_le_card hsub
    _ ≤ ((fullLevels cfg T).erase (h, partition, L)).card + 1 := Finset.card_insert_le _ _
    _ = (fullLevels cfg T).card := Finset.card_erase_add_one hfull

/-- **A finalizing merge takes its partition off the list**, and leaves the others on it. -/
theorem Merged.mem_finalizeEligible_iff
    (hm : Merged T T' h partition (livePartitionParts T.parts h partition) level)
    (hlevel : 1 ≤ level) (now quiet : Int) (h' : HypertableId) (partition' : Json) :
    partition' ∈ finalizeEligible T' h' now quiet ↔
      partition' ∈ finalizeEligible T h' now quiet ∧ ¬ (h' = h ∧ partition' = partition) := by
  rw [Sweeps.mem_finalizeEligible_iff, Sweeps.mem_finalizeEligible_iff, hm.quiet_iff hlevel]
  by_cases hsame : h' = h ∧ partition' = partition
  · obtain ⟨rfl, rfl⟩ := hsame
    rw [hm.whole.1]
    simp
  · rw [hm.other hsame]
    exact (and_iff_left hsame).symm

/-- With two runs to a merge, the one run it leaves is not a backlog. -/
theorem Merged.finalized_backlog_le (hfanout : 2 ≤ cfg.fanout)
    (hm : Merged T T' h partition (livePartitionParts T.parts h partition) level)
    (hlevel : 1 ≤ level) : (fullLevels cfg T').card ≤ (fullLevels cfg T).card := by
  refine Finset.card_le_card ?_
  rintro ⟨h', partition', M⟩ hmem
  rw [mem_fullLevels] at hmem ⊢
  by_cases hsame : h' = h ∧ partition' = partition
  · obtain ⟨rfl, rfl⟩ := hsame
    obtain ⟨hone, hat⟩ := hm.whole
    have hruns : runsAt (livePartitionParts T'.parts h' partition') M =
        if M = level then 1 else 0 := by
      unfold runsAt
      rw [atLevel_of_level hat]
      split
      · exact hone
      · rfl
    obtain ⟨hpos, htrigger⟩ := hmem
    rw [hruns] at hpos htrigger
    split at htrigger
    · rename_i hM
      have : cfg.trigger M = cfg.fanout := if_neg (by omega)
      omega
    · rename_i hM
      rw [if_neg hM] at hpos
      omega
  · rwa [hm.other hsame] at hmem

/-- What `finalize_partition` merges: all live parts of a partition that is listed. -/
theorem finalizePartition_eq_some {now quiet : Int}
    (hfinal : finalizePartition T h partition now quiet = some (group, level)) :
    group = livePartitionParts T.parts h partition ∧
      partition ∈ finalizeEligible T h now quiet := by
  refine ⟨(finalizePartition_found hfinal).1,
    Sweeps.mem_finalizeEligible_iff.mpr (finalizePartition_isSome.mp ?_)⟩
  rw [hfinal]
  rfl

/-- **Compaction commits lower the gauges.**  Whatever the state a merge commits in: a merge of the
level `eligible_level` found does not raise the backlog; a merge of what `finalize_partition` was
given neither, and it takes exactly its own partition from the finalizer's listings and one from the
unfinalized partitions. -/
theorem merges_lower_gauges (hl0 : cfg.l0Fanout < 2 ^ 63) (hf : cfg.fanout < 2 ^ 63)
    (hfanout : 2 ≤ cfg.fanout) (hm : Merged T T' h partition group level) :
    let backlog := fun T => backlogGroups T (asI64 cfg.l0Fanout) (asI64 cfg.fanout)
    (∀ L, eligibleLevel cfg (livePartitionParts T.parts h partition) = some (L, group) →
      level = L + 1 → backlog T' ≤ backlog T) ∧
    ∀ now quiet, finalizePartition T h partition now quiet = some (group, level) → 1 ≤ level →
      backlog T' ≤ backlog T ∧
      (∀ h' partition', partition' ∈ finalizeEligible T' h' now quiet ↔
        partition' ∈ finalizeEligible T h' now quiet ∧ ¬ (h' = h ∧ partition' = partition)) ∧
      (unfinalizedPartitions T' now quiet).1 + 1 = (unfinalizedPartitions T now quiet).1 := by
  intro backlog
  have hbacklog : ∀ T, backlog T = (fullLevels cfg T).card := fun T => backlogGroups_eq hl0 hf
  constructor
  · rintro L he rfl
    rw [hbacklog, hbacklog]
    exact hm.backlog_le he
  · intro now quiet hfinal hlevel
    obtain ⟨rfl, hlisted⟩ : group = livePartitionParts T.parts h partition ∧
        partition ∈ finalizeEligible T h now quiet :=
      finalizePartition_eq_some hfinal
    refine ⟨?_, hm.mem_finalizeEligible_iff hlevel now quiet, ?_⟩
    · rw [hbacklog, hbacklog]
      exact hm.finalized_backlog_le hfanout hlevel
    · have herase : (cold T' now quiet).toFinset =
          (cold T now quiet).toFinset.erase (h, partition) := by
        ext ⟨h', partition'⟩
        rw [Finset.mem_erase, List.mem_toFinset, List.mem_toFinset, mem_cold, mem_cold,
          hm.mem_finalizeEligible_iff hlevel, and_comm, ne_eq, Prod.mk.injEq]
      rw [unfinalizedPartitions_eq, unfinalizedPartitions_eq,
        ← List.toFinset_card_of_nodup (cold_nodup T' now quiet),
        ← List.toFinset_card_of_nodup (cold_nodup T now quiet), herase]
      exact Finset.card_erase_add_one (List.mem_toFinset.mpr (mem_cold.mpr hlisted))

end Merge

/-- A cold day with two runs, leased to be merged. -/
def coldDay : Tables where
  commits := [⟨1, 1, .replace, none, none, 3⟩, ⟨2, 1, .replace, none, none, 4⟩]
  parts := [
    ⟨1, 1, ⟨"ht/1/a.parquet", .str "d1", 1, 9, 10, 1000, 1, none⟩, 1, none, none⟩,
    ⟨2, 1, ⟨"ht/1/b.parquet", .str "d1", 1, 9, 10, 1000, 1, none⟩, 2, none, none⟩]
  compactionLeases := fun key => if key = ⟨1, .str "d1"⟩ then some ⟨7, 1, 100⟩ else none

def finalPart : PartMeta := ⟨"ht/1/c.parquet", .str "d1", 1, 9, 20, 2000, 2, none⟩

/-- The day after its merge. -/
def finalDay : Tables :=
  { coldDay with
    commits := coldDay.commits ++ [⟨3, 1, .replace, some "merge", some [], 20⟩]
    parts := tombstoneParts 3 [1, 2] coldDay.parts ++ [⟨3, 1, finalPart, 3, none, none⟩] }

theorem finalDay_merged : Merged coldDay finalDay 1 (.str "d1") coldDay.parts 2 where
  inputs := by decide +kernel
  committed := by
    refine ⟨⟨1, .str "d1", 7, 1, 100⟩, ⟨1, "merge", []⟩, [finalPart], 3, by simp,
      ⟨by decide, by decide, by decide⟩, by decide, ?_⟩
    exact
      { key_free := by decide
        old_matched := by decide
        fenced := by
          rintro lease ⟨⟩
          exact ⟨20, rfl, ⟨_, rfl, rfl, rfl, by decide⟩, _, _, rfl, by decide, by decide +kernel⟩
        commits := ⟨20, rfl⟩
        parts := ⟨_, rfl, rfl, by decide⟩
        pending := rfl
        offsets := rfl
        leases := rfl
        cursors := rfl }

theorem merges_lower_gauges_day :
    (unfinalizedPartitions finalDay 20 5).1 + 1 = (unfinalizedPartitions coldDay 20 5).1 ∧
      Json.str "d1" ∉ finalizeEligible finalDay 1 20 5 := by
  obtain ⟨-, hlisted, hcount⟩ := (@merges_lower_gauges _ _ _ _ ⟨2, 2, 64⟩ _ _ (by decide)
    (by decide) (by decide) finalDay_merged).2 20 5 (by decide +kernel) (by decide)
  exact ⟨hcount, fun hmem => ((hlisted 1 _).mp hmem).2 ⟨rfl, rfl⟩⟩

end Ukiel.Compactor.Gauges
