/-
# When backpressure lets go

A flush that is put off waits for the compactor: the live L0 parts it was told of go only when
they are merged.  The two sides have thresholds of their own, `l0_stop_parts` and `l0_fanout`, and
nothing relates them: `validate` checks neither against the other.

* §1 L0 parts are L0 runs, where a commit adds one part to a partition.
* §2 `relieved_iff`: a flush that is put off again has the ladder at work on one of its partitions,
  if and only if the ladder starts no later than the flush stops.
-/
import Ukiel.Compactor.Ladder
import Ukiel.Ingest.Pressure

namespace Ukiel.Ingest.Pressure

open Ukiel.Catalog Ukiel.Compactor Ukiel.Write

variable {T : Tables} {h : HypertableId} {partition : Json}

/-! ## 1. Parts and runs -/

/-- `max_live_l0_parts`: "each L0 part is one ingest commit". -/
def OnePartACommit (T : Tables) (h : HypertableId) : Prop :=
  ∀ partition, (((T.liveParts h).filter fun p =>
    p.partMeta.level = 0 ∧ p.partMeta.partitionValues = partition).map
      PartRow.createdByCommit).Nodup

theorem atLevel_zero (T : Tables) (h : HypertableId) (partition : Json) :
    atLevel (livePartitionParts T.parts h partition) 0 =
      (T.liveParts h).filter fun p =>
        p.partMeta.level = 0 ∧ p.partMeta.partitionValues = partition := by
  rw [livePartitionParts_eq]
  unfold atLevel Tables.liveParts
  simp only [List.filter_filter]
  refine List.filter_congr fun p _ => ?_
  simp only [Bool.decide_and, Bool.and_assoc]

/-- **The parts that are counted are the runs of the lowest level.** -/
theorem runsAt_zero (hone : OnePartACommit T h) (partition : Json) :
    runsAt (livePartitionParts T.parts h partition) 0 = liveL0 T h partition := by
  unfold runsAt runs liveL0
  rw [atLevel_zero, (hone partition).dedup, List.length_map]

/-- Flushes of one message each keep to that. -/
theorem onePartACommit_flushedTables (part : EncodedPart) (done : List (Nat × Nat)) :
    OnePartACommit (flushedTables part done) 1 := by
  intro partition
  have hids : ∀ done, (flushedTables part done).parts.map PartRow.createdByCommit =
      (List.range done.length).map fun n : Nat => ((n + 1 : Nat) : Int) := by
    intro done
    induction done with
    | nil => rfl
    | cons d done ih =>
      rw [flushedTables, List.map_append, ih, List.length_cons, List.range_succ, List.map_append]
      rfl
  have hparts : ((flushedTables part done).parts.map PartRow.createdByCommit).Nodup := by
    rw [hids]
    exact List.nodup_range.map fun m n heq => by simpa using heq
  exact hparts.sublist ((List.filter_sublist.trans List.filter_sublist).map _)

/-! ## 2. Relief -/

/-- A flush that is put off for the second time in a row, or any later one, waits for work the
ladder has in one of its partitions. -/
def Relieved (limits : FlushConfig) (cfg : CompactorConfig) : Prop :=
  ∀ (T : Tables) (h : HypertableId) (partitions : List Json) (deferred totalRows : Nat),
    OnePartACommit T h → deferred ≠ 0 →
    flushDecision (maxLiveL0Parts T h partitions) deferred totalRows limits = .defer →
    ∃ partition ∈ partitions,
      eligibleLevel cfg (livePartitionParts T.parts h partition) ≠ none

/-- What a flush that is put off again was told. -/
theorem told_of_deferred {limits : FlushConfig} {maxLive : Int} {deferred totalRows : Nat}
    (hagain : deferred ≠ 0)
    (hdefer : flushDecision maxLive deferred totalRows limits = .defer) :
    asI64 limits.l0StopParts.toNat ≤ maxLive := by
  unfold flushDecision at hdefer
  split at hdefer
  · cases hdefer
  · split at hdefer
    · assumption
    · rw [if_neg fun hslow => hagain hslow.2] at hdefer
      cases hdefer

/-- A partition with as many L0 runs as the ladder's trigger is eligible. -/
theorem eligible_of_l0Fanout {cfg : CompactorConfig} (hone : OnePartACommit T h)
    (hsome : 1 ≤ liveL0 T h partition) (hfull : cfg.l0Fanout ≤ liveL0 T h partition) :
    eligibleLevel cfg (livePartitionParts T.parts h partition) ≠ none := by
  intro hnone
  refine eligibleLevel_eq_none.mp hnone 0 ⟨?_, ?_⟩
  · rw [runsAt_zero hone]
    exact hsome
  · rw [runsAt_zero hone]
    exact hfull

/-- Flushes of one day, too few for the trigger, are left alone. -/
theorem not_eligible_flushedTables {cfg : CompactorConfig} {part : EncodedPart}
    {done : List (Nat × Nat)} (hfew : done.length < cfg.l0Fanout) :
    eligibleLevel cfg (livePartitionParts (flushedTables part done).parts 1 firstDay) = none := by
  have hlevels : ∀ p ∈ (flushedTables part done).parts, p.partMeta.level = 0 := by
    clear hfew
    induction done with
    | nil => simp [flushedTables]
    | cons d done ih =>
      intro p hp
      rcases List.mem_append.mp hp with hp | hp
      · exact ih p hp
      · obtain rfl := List.mem_singleton.mp hp
        rfl
  refine eligibleLevel_eq_none.mpr fun L hfull => ?_
  by_cases hL : L = 0
  · subst hL
    have htrigger : cfg.l0Fanout ≤ _ := hfull.2
    rw [runsAt_zero (onePartACommit_flushedTables part done), liveL0_flushedTables] at htrigger
    omega
  · obtain ⟨p, hp⟩ := List.exists_mem_of_ne_nil _ (runs_pos.mp hfull.1)
    obtain ⟨hlive, hlevel⟩ := List.mem_filter.mp hp
    exact hL ((of_decide_eq_true hlevel).symm.trans
      (hlevels p (mem_livePartitionParts.mp hlive).1))

/-- **When backpressure lets go.**  For every configuration with a stop threshold and a buffer: in
every state of the catalog, a flush that is put off again has the ladder at work on one of the
partitions it would write to, if and only if `l0_fanout` is at most `l0_stop_parts`. -/
theorem relieved_iff {limits : FlushConfig} (cfg : CompactorConfig)
    (hstop : 0 < limits.l0StopParts.toNat) (hlt : limits.l0StopParts.toNat < 2 ^ 63)
    (hbuffer : 0 < limits.maxBufferRows.toNat) :
    Relieved limits cfg ↔ cfg.l0Fanout ≤ limits.l0StopParts.toNat := by
  constructor
  · intro hrelieved
    by_contra hfew
    -- as many parts as stop the flush, and too few for the ladder
    obtain ⟨part, -⟩ := oneMessage_encodes 1
    set T := flushedTables part (early limits.l0StopParts.toNat)
    have hlive : liveL0 T 1 firstDay = limits.l0StopParts.toNat :=
      (liveL0_flushedTables part _).trans (length_early _)
    have htold : (limits.l0StopParts.toNat : Int) ≤ maxLiveL0Parts T 1 [firstDay] := by
      have hself := (maxLiveL0Parts_le_iff (maxLiveL0Parts_nonneg T 1 [firstDay])).mp le_rfl firstDay
        (List.mem_singleton_self _)
      rwa [hlive] at hself
    have hvalve : ¬ min (limits.maxBufferRows.toNat * 2) (2 ^ 64 - 1) ≤ 0 := by omega
    have hdefer : flushDecision (maxLiveL0Parts T 1 [firstDay]) 1 0 limits = .defer := by
      rw [flushDecision, if_neg hvalve, if_pos]
      rw [Ingest.asI64_of_lt hlt]
      exact htold
    obtain ⟨partition, hmem, heligible⟩ := hrelieved T 1 [firstDay] 1 0
      (onePartACommit_flushedTables part _) one_ne_zero hdefer
    rw [List.mem_singleton.mp hmem] at heligible
    refine heligible (not_eligible_flushedTables ?_)
    rw [length_early]
    exact not_le.mp hfew
  · intro hle T h partitions deferred totalRows hone hagain hdefer
    have htold := told_of_deferred hagain hdefer
    rw [Ingest.asI64_of_lt hlt] at htold
    by_contra hnone
    -- otherwise every partition has fewer parts than stop the flush
    have hfewer : maxLiveL0Parts T h partitions ≤ (limits.l0StopParts.toNat - 1 : Nat) := by
      refine (maxLiveL0Parts_le_iff (Int.natCast_nonneg _)).mpr fun partition hmem => ?_
      by_contra hmany
      have hstopped : limits.l0StopParts.toNat ≤ liveL0 T h partition := by omega
      exact hnone ⟨partition, hmem, eligible_of_l0Fanout hone (by omega) (hle.trans hstopped)⟩
    omega

/-- The defaults of `config.rs` are on the right side; with a ladder that starts later than the flush
stops they are not. -/
theorem relieved_iff_defaults : Relieved ⟨100000, 30, 200⟩ ⟨4, 10, 64⟩ ∧
    ¬ Relieved ⟨100000, 30, 200⟩ ⟨201, 10, 64⟩ :=
  ⟨(relieved_iff ⟨4, 10, 64⟩ (by decide) (by decide) (by decide)).mpr (by decide),
    mt (relieved_iff ⟨201, 10, 64⟩ (by decide) (by decide) (by decide)).mp (by decide)⟩

end Ukiel.Ingest.Pressure
