/-
# The compactor's sweeps

`sweep` and the rechecks of `compactor.rs`, over the listings of `Catalog/Candidates.lean`.

* §1 the listings are the rechecks: `eligible_level` for the ladder, and what
  `finalize_partition` asks before it merges (`candidates_agree_with_recheck`).
* §2 a sweep, with its cursor, over a catalog that others write to meanwhile.
* §3 a sweep is a turn of a rotating window (`Ukiel.Lib.Rotation`), so none is starved
  (`sweep_fair`).
* §4 with nobody else at work it is the sweep of `Compactor/Ladder.lean`.
-/
import Ukiel.Catalog.Candidates
import Ukiel.Compactor.Ladder
import Mathlib.GroupTheory.GroupAction.Ring

namespace Ukiel.Compactor.Sweeps

open Ukiel.Catalog Ukiel.Catalog.Candidates Grouping

/-! ## 1. The rechecks -/

/-- `finalize_partition` up to the merge: the parts and the level they are merged to, or nothing
for a partition that stopped being a candidate. -/
def finalizePartition (T : Tables) (h : HypertableId) (partition : Json) (now quiet : Int) :
    Option (List PartRow × Int) :=
  if ¬ partitionL0QuietSince T h partition now quiet then none
  else
    let parts := livePartitionParts T.parts h partition
    if runs parts < 2 then none
    else
      let top := (parts.map fun p => p.partMeta.level).max?.getD 0
      some (parts, nextLevel top)

section Rechecks

variable {T : Tables} {h : HypertableId} {partition : Json}

theorem liveParts_filter (T : Tables) (h : HypertableId) (partition : Json) :
    ((T.liveParts h).filter fun p => p.partMeta.partitionValues = partition) =
      livePartitionParts T.parts h partition :=
  (livePartitionParts_eq T.parts h partition).symm

/-- The group of a partition and a level. -/
theorem liveParts_filter_level (T : Tables) (h : HypertableId) (partition : Json) (level : Int) :
    ((T.liveParts h).filter fun p =>
      (p.partMeta.partitionValues, p.partMeta.level) = (partition, level)) =
      atLevel (livePartitionParts T.parts h partition) level := by
  rw [← liveParts_filter]
  unfold atLevel
  rw [List.filter_filter]
  refine List.filter_congr fun p _ => ?_
  rw [← Bool.decide_and, decide_eq_decide, Prod.mk.injEq]
  exact and_comm

/-- **The ladder's listing is `eligible_level`.** -/
theorem mem_ladderEligible_iff {cfg : CompactorConfig} (hl0 : cfg.l0Fanout < 2 ^ 63)
    (hf : cfg.fanout < 2 ^ 63) :
    partition ∈ ladderEligible T h (asI64 cfg.l0Fanout) (asI64 cfg.fanout) ↔
      eligibleLevel cfg (livePartitionParts T.parts h partition) ≠ none := by
  rw [asI64_of_lt hl0, asI64_of_lt hf, mem_ladderEligible, ne_eq, eligibleLevel_eq_none, not_forall]
  refine exists_congr fun level => ?_
  have htrigger : (if level = 0 then (cfg.l0Fanout : Int) else cfg.fanout) = cfg.trigger level := by
    unfold CompactorConfig.trigger
    split <;> rfl
  rw [liveParts_filter_level, exists_eq_left, htrigger, Nat.cast_le, not_not]
  exact and_congr_left fun _ => runs_pos.symm

/-- **The finalizer's listing is what it asks again.** -/
theorem mem_finalizeEligible_iff {now quiet : Int} :
    partition ∈ finalizeEligible T h now quiet ↔
      2 ≤ runs (livePartitionParts T.parts h partition) ∧
        partitionL0QuietSince T h partition now quiet = true := by
  rw [mem_finalizeEligible, liveParts_filter]
  rfl

theorem finalizePartition_isSome {now quiet : Int} :
    (finalizePartition T h partition now quiet).isSome = true ↔
      2 ≤ runs (livePartitionParts T.parts h partition) ∧
        partitionL0QuietSince T h partition now quiet = true := by
  unfold finalizePartition
  by_cases hquiet : partitionL0QuietSince T h partition now quiet = true
  · rw [if_neg (not_not.mpr hquiet)]
    by_cases hruns : runs (livePartitionParts T.parts h partition) < 2
    · simp [hruns, hquiet]
    · simp [hruns, hquiet, not_lt.mp hruns]
  · simp [hquiet]

/-- What it is to merge: all live parts of the partition. -/
theorem finalizePartition_found {now quiet level : Int} {group : List PartRow}
    (hfound : finalizePartition T h partition now quiet = some (group, level)) :
    group = livePartitionParts T.parts h partition ∧ ∃ top, level = nextLevel top := by
  unfold finalizePartition at hfound
  split at hfound
  · cases hfound
  · dsimp only at hfound
    split at hfound
    · cases hfound
    · obtain ⟨rfl, rfl⟩ := Prod.mk.inj (Option.some.inj hfound)
      exact ⟨rfl, _, rfl⟩

/-- **The listings agree with the rechecks.**  For every catalog state and instant: the eligible
set of the ladder holds a partition exactly when `eligible_level` finds a level in its live parts,
and that of the finalizer exactly when it has two live runs and is quiet. -/
theorem candidates_agree_with_recheck (cfg : CompactorConfig) (hl0 : cfg.l0Fanout < 2 ^ 63)
    (hf : cfg.fanout < 2 ^ 63) (r : Reading) (h : HypertableId) (quiet : Int) (partition : Json) :
    (partition ∈ (SweepKind.ladder (asI64 cfg.l0Fanout) (asI64 cfg.fanout)).eligible r h ↔
      (eligibleLevel cfg (livePartitionParts r.tables.parts h partition)).isSome = true) ∧
    (partition ∈ (SweepKind.finalize quiet).eligible r h ↔
      2 ≤ runs (livePartitionParts r.tables.parts h partition) ∧
        partitionL0QuietSince r.tables h partition r.now quiet = true) := by
  refine ⟨?_, mem_finalizeEligible_iff⟩
  rw [Option.isSome_iff_ne_none]
  exact mem_ladderEligible_iff hl0 hf

/-- Two old live runs in the first day, one in the second, and two in the third, of which one has
just come. -/
def threeDays : Reading where
  tables :=
    { commits := [⟨1, 1, .add, none, none, 2⟩, ⟨2, 1, .add, none, none, 3⟩,
        ⟨3, 1, .add, none, none, 4⟩, ⟨4, 1, .add, none, none, 5⟩, ⟨5, 1, .add, none, none, 19⟩]
      parts := [
        ⟨1, 1, ⟨"ht/1/a.parquet", .str "d1", 1, 9, 10, 1000, 0, none⟩, 1, none, none⟩,
        ⟨2, 1, ⟨"ht/1/b.parquet", .str "d1", 1, 9, 10, 1000, 0, none⟩, 2, none, none⟩,
        ⟨3, 1, ⟨"ht/1/c.parquet", .str "d2", 1, 9, 10, 1000, 0, none⟩, 3, none, none⟩,
        ⟨4, 1, ⟨"ht/1/d.parquet", .str "d3", 1, 9, 10, 1000, 0, none⟩, 4, none, none⟩,
        ⟨5, 1, ⟨"ht/1/e.parquet", .str "d3", 1, 9, 10, 1000, 0, none⟩, 5, none, none⟩] }
  now := 20
  clock _ := 20

/-- The first day is a candidate of both, the second of neither, and the third is too young for the
finalizer. -/
theorem candidates_agree_with_recheck_three :
    (.str "d1" ∈ (SweepKind.ladder (asI64 2) (asI64 2)).eligible threeDays 1 ∧
      .str "d1" ∈ (SweepKind.finalize 10).eligible threeDays 1) ∧
    (.str "d2" ∉ (SweepKind.ladder (asI64 2) (asI64 2)).eligible threeDays 1 ∧
      .str "d2" ∉ (SweepKind.finalize 10).eligible threeDays 1) ∧
    (.str "d3" ∈ (SweepKind.ladder (asI64 2) (asI64 2)).eligible threeDays 1 ∧
      .str "d3" ∉ (SweepKind.finalize 10).eligible threeDays 1) := by
  have hday := fun day => candidates_agree_with_recheck ⟨2, 2, 64⟩ (by decide) (by decide)
    threeDays 1 10 (.str day)
  exact ⟨⟨(hday "d1").1.mpr (by decide +kernel), (hday "d1").2.mpr (by decide +kernel)⟩,
    ⟨fun h => absurd ((hday "d2").1.mp h) (by decide +kernel),
      fun h => absurd ((hday "d2").2.mp h) (by decide +kernel)⟩,
    (hday "d3").1.mpr (by decide +kernel),
    fun h => absurd ((hday "d3").2.mp h) (by decide +kernel)⟩

end Rechecks

/-! ## 2. A sweep -/

section Sweep

variable {τ : Type} [LinearOrder τ]

/-- `sweep` of one hypertable: the window, and what becomes of the hypertable's entry in the
cursors.  `first` and `retry` are what its two queries read. -/
def sweep (text : Json → τ) (kind : SweepKind) (h : HypertableId) (owner : Uuid) (limit : Int)
    (first retry : Reading) (cursor : Option τ) : Option (CandidateWindow τ × Option τ) := do
  let resumed := cursor.isSome
  let window ← kind.candidates text first h owner limit cursor
  let ranOffTail := resumed ∧ window.partitions = []
  let window ←
    if ranOffTail then kind.candidates text retry h owner limit none else some window
  -- no query succeeds with a limit that is negative
  let exhausted := window.partitions.length < limit.toNat
  let next := if exhausted then none else window.nextCursor
  return (window, next)

/-- The cursor after so many sweeps.  One that fails leaves it as it is. -/
def cursorAfter (text : Json → τ) (kind : SweepKind) (h : HypertableId) (owner : Uuid)
    (limit : Int) (readings : Nat → Reading × Reading) (start : Option τ) : Nat → Option τ
  | 0 => start
  | n + 1 =>
    let cursor := cursorAfter text kind h owner limit readings start n
    ((sweep text kind h owner limit (readings n).1 (readings n).2 cursor).map Prod.snd).getD cursor

/-- What a sweep of a run offers. -/
def offeredIn (text : Json → τ) (kind : SweepKind) (h : HypertableId) (owner : Uuid)
    (limit : Int) (readings : Nat → Reading × Reading) (start : Option τ) (n : Nat) : List Json :=
  ((sweep text kind h owner limit (readings n).1 (readings n).2
    (cursorAfter text kind h owner limit readings start n)).map fun s => s.1.partitions).getD []

/-! ## 3. Fairness -/

/-- Texts tell the partitions of a listing apart. -/
def TextsDiffer (text : Json → τ) (kind : SweepKind) (r : Reading) (h : HypertableId) : Prop :=
  ∀ p ∈ kind.eligible r h, ∀ q ∈ kind.eligible r h, text p = text q → p = q

variable {text : Json → τ} {kind : SweepKind} {h : HypertableId} {limit : Int}
  {first retry : Reading}

/-- A listing, of which only the window matters here. -/
theorem exists_candidates (owner : Uuid) (hlimit : 1 ≤ limit) {r : Reading}
    (htext : TextsDiffer text kind r h) (after : Option τ) :
    ∃ w, kind.candidates text r h owner limit after = some w ∧
      Rotation.IsWindow text (Claimable kind r h owner) limit.toNat after w.partitions ∧
      w.nextCursor = w.partitions.getLast?.map text := by
  have hrows : (windowSql text r.tables.compactionLeases r.clock h (kind.eligible r h) owner limit
      after).map CandidateWindow.fromRows = _ :=
    fromRows_windowSql (not_lt.mpr (zero_le_one.trans hlimit))
  exact ⟨_, (kind.candidates_eq text r h owner limit after).trans hrows,
    isWindow_offered (kind.eligible_nodup r h) htext, rfl⟩

/-- **A sweep is a turn.** -/
theorem sweep_turn (owner : Uuid) (hlimit : 1 ≤ limit) (hfirst : TextsDiffer text kind first h)
    (hretry : TextsDiffer text kind retry h) (cursor : Option τ) :
    ∃ w next, sweep text kind h owner limit first retry cursor = some (w, next) ∧
      Rotation.Turn text (Claimable kind first h owner) (Claimable kind retry h owner)
        limit.toNat cursor w.partitions next := by
  obtain ⟨w, hw, hwindow, hnext⟩ := exists_candidates owner hlimit hfirst cursor
  obtain ⟨w', hw', hwindow', hnext'⟩ := exists_candidates owner hlimit hretry none
  unfold sweep
  rw [hw]
  by_cases htail : cursor.isSome = true ∧ w.partitions = []
  · refine ⟨w', if w'.partitions.length < limit.toNat then none else w'.nextCursor, ?_,
      Or.inr ⟨htail.2 ▸ hwindow, Option.isSome_iff_ne_none.mp htail.1, hwindow'⟩, by rw [hnext']⟩
    simp only [Option.bind_eq_bind, Option.bind_some, if_pos htail, hw', Option.pure_def]
  · rw [not_and_or, Bool.not_eq_true, Option.isSome_eq_false_iff, Option.isNone_iff_eq_none]
      at htail
    refine ⟨w, if w.partitions.length < limit.toNat then none else w.nextCursor, ?_,
      Or.inl ⟨hwindow, htail⟩, by rw [hnext]⟩
    have htail : ¬ (cursor.isSome = true ∧ w.partitions = []) := by
      rintro ⟨hsome, hempty⟩
      rcases htail with rfl | hne
      · cases hsome
      · exact hne hempty
    simp only [Option.bind_eq_bind, Option.bind_some, if_neg htail, Option.pure_def]

/-- **Sweeps are turns.** -/
theorem sweeps_turns (owner : Uuid) (hlimit : 1 ≤ limit) {readings : Nat → Reading × Reading}
    (htext : ∀ i, TextsDiffer text kind (readings i).1 h ∧ TextsDiffer text kind (readings i).2 h)
    (start : Option τ) :
    Rotation.Turns text (fun i => Claimable kind (readings i).1 h owner)
      (fun i => Claimable kind (readings i).2 h owner) limit.toNat
      (cursorAfter text kind h owner limit readings start)
      (offeredIn text kind h owner limit readings start) := by
  intro i
  obtain ⟨w, next, hsweep, hturn⟩ := sweep_turn owner hlimit (htext i).1 (htext i).2
    (cursorAfter text kind h owner limit readings start i)
  rw [show offeredIn text kind h owner limit readings start i = w.partitions by
      unfold offeredIn; rw [hsweep]; rfl,
    show cursorAfter text kind h owner limit readings start (i + 1) = next by
      simp only [cursorAfter]; rw [hsweep]; rfl]
  exact hturn

/-- **Sweeps starve no partition.**  For every limit, every starting cursor and every history of
the catalog: while the partitions that can be claimed are the same, one rotation and one sweep more
offer each of them; and whatever else comes and goes, a partition that can be claimed throughout is
offered within as many sweeps as there are different partitions seen. -/
theorem sweep_fair (text : Json → τ) (kind : SweepKind) (h : HypertableId) (owner : Uuid)
    {limit : Int} (hlimit : 1 ≤ limit) (readings : Nat → Reading × Reading) (start : Option τ)
    (htext : ∀ i, TextsDiffer text kind (readings i).1 h ∧
      TextsDiffer text kind (readings i).2 h) :
    (∀ S : Finset Json, (∀ i partition,
        (Claimable kind (readings i).1 h owner partition ↔ partition ∈ S) ∧
        (Claimable kind (readings i).2 h owner partition ↔ partition ∈ S)) →
      ∀ k, ∀ partition ∈ S, ∃ i, k ≤ i ∧ i < k + (S.card ⌈/⌉ limit.toNat + 1) ∧
        partition ∈ offeredIn text kind h owner limit readings start i) ∧
    (∀ (seen : Finset Json) (k : Nat), ∀ partition ∈ seen,
      (∀ i, k ≤ i → i < k + seen.card →
        (∀ other, Claimable kind (readings i).1 h owner other → other ∈ seen) ∧
        (∀ other, Claimable kind (readings i).2 h owner other → other ∈ seen) ∧
        Claimable kind (readings i).1 h owner partition ∧
        Claimable kind (readings i).2 h owner partition) →
      ∃ i, k ≤ i ∧ i < k + seen.card ∧
        partition ∈ offeredIn text kind h owner limit readings start i) := by
  have hturns := sweeps_turns owner hlimit htext start
  have hpos : 0 < limit.toNat := by omega
  constructor
  · intro S hfixed k partition hmem
    refine hturns.offered_of_ceilDiv_le hpos hmem (fun i _ _ => ?_) le_rfl
    exact ⟨fun other => (hfixed i other).1.mp, fun other => (hfixed i other).2.mp,
      (hfixed i partition).1.mpr hmem, (hfixed i partition).2.mpr hmem⟩
  · intro seen k partition hmem hstays
    exact hturns.offered_of_card_le hpos hmem hstays le_rfl

end Sweep

/-- Two days with two live runs each, and no lease. -/
def twoFreeDays : Reading :=
  { twoDays with tables := { twoDays.tables with compactionLeases := fun _ => none } }

theorem sweep_fair_two :
    ∃ i, 3 ≤ i ∧ i < 3 + (2 ⌈/⌉ 1 + 1) ∧
      Json.str "d2" ∈ offeredIn stringText (.ladder 2 2) 1 7 1
        (fun _ => (twoFreeDays, twoFreeDays)) (some "\"d0\"") i := by
  have heligible : (SweepKind.ladder 2 2).eligible twoFreeDays 1 = [.str "d1", .str "d2"] := by
    decide +kernel
  refine (sweep_fair stringText (.ladder 2 2) 1 7 (show (1 : Int) ≤ 1 by decide)
    (fun _ => (twoFreeDays, twoFreeDays)) (some "\"d0\"") ?_).1 {.str "d1", .str "d2"} ?_ 3
      (.str "d2") (by decide)
  · intro i
    unfold TextsDiffer
    rw [heligible]
    decide +kernel
  · intro i partition
    have hiff : Claimable (.ladder 2 2) twoFreeDays 1 7 partition ↔
        partition ∈ ({.str "d1", .str "d2"} : Finset Json) := by
      unfold Claimable
      rw [heligible, ← List.mem_toFinset]
      exact and_iff_left fun generation expiresAt => Option.some_ne_none _
    exact ⟨hiff, hiff⟩

/-! ## 4. The ladder's sweep, with nobody else at work -/

section Alone

variable {cfg : CompactorConfig} {l : Ladder} {r : Reading} {h : HypertableId}
  {text : Json → String}

/-- Where no partition is leased, a window of the ladder's listing is `windowAt`. -/
theorem offered_eq_windowAt (hl0 : cfg.l0Fanout < 2 ^ 63) (hf : cfg.fanout < 2 ^ 63)
    (hfree : ∀ key, r.tables.compactionLeases key = none)
    (htext : TextsDiffer text (.ladder (asI64 cfg.l0Fanout) (asI64 cfg.fanout)) r h)
    (owner : Uuid) (after : Option String) :
    offered text (marked r.tables.compactionLeases r.clock h owner
        (ladderEligible r.tables h (asI64 cfg.l0Fanout) (asI64 cfg.fanout)))
      cfg.candidateLimit after = windowAt text cfg r.tables.parts h after := by
  have hunleased : unleased (marked r.tables.compactionLeases r.clock h owner
      (ladderEligible r.tables h (asI64 cfg.l0Fanout) (asI64 cfg.fanout))) =
      ladderEligible r.tables h (asI64 cfg.l0Fanout) (asI64 cfg.fanout) := by
    unfold unleased
    rw [List.filter_eq_self.mpr, marked_fst]
    intro m hm
    obtain ⟨partition, -, rfl⟩ := List.mem_map.mp hm
    simp [hfree]
  have hperm : (ladderEligible r.tables h (asI64 cfg.l0Fanout) (asI64 cfg.fanout)).Perm
      (candidates cfg r.tables.parts h) :=
    (List.perm_ext_iff_of_nodup (List.nodup_dedup _) ((List.nodup_dedup _).filter _)).mpr
      fun partition => (mem_ladderEligible_iff hl0 hf).trans (mem_candidates hl0 hf).symm
  have hpred : ∀ p, decide (∀ c ∈ after, c < text p) = after.all fun a => a < text p := by
    intro p
    cases after <;> simp
  unfold offered windowAt
  rw [hunleased]
  congr 1
  have : Std.Total fun p q : Json => text p ≤ text q := ⟨fun p q => le_total _ _⟩
  have : IsTrans Json fun p q => text p ≤ text q := ⟨fun _ _ _ => le_trans⟩
  refine List.Perm.eq_of_pairwise ?_ (List.pairwise_insertionSort _ _)
    (List.pairwise_insertionSort _ _) ?_
  · intro p q hp hq hle hge
    have hp := (List.mem_filter.mp ((List.mem_insertionSort _).mp hp)).1
    have hq := (List.mem_filter.mp ((List.mem_insertionSort _).mp hq)).1
    exact htext p hp q (hperm.mem_iff.mpr hq) (le_antisymm hle hge)
  · simp only [hpred]
    exact (List.perm_insertionSort _ _).trans
      ((hperm.filter _).trans (List.perm_insertionSort _ _).symm)

/-- **The sweep of the ladder alone is this one**, in a catalog without leases. -/
theorem sweep_eq_ladder (hl0 : cfg.l0Fanout < 2 ^ 63) (hf : cfg.fanout < 2 ^ 63)
    (hlimit : 1 ≤ cfg.candidateLimit) (hparts : r.tables.parts = l.parts)
    (hfree : ∀ key, r.tables.compactionLeases key = none)
    (htext : TextsDiffer text (.ladder (asI64 cfg.l0Fanout) (asI64 cfg.fanout)) r h)
    (owner : Uuid) :
    (sweep text (.ladder (asI64 cfg.l0Fanout) (asI64 cfg.fanout)) h owner cfg.candidateLimit r r
        (l.ladderCursors h)).map (fun s => (s.1.partitions, s.2)) =
      some (Compactor.sweep text cfg l h) := by
  have hcandidates : ∀ after, ∃ w,
      (SweepKind.ladder (asI64 cfg.l0Fanout) (asI64 cfg.fanout)).candidates text r h owner
        cfg.candidateLimit after = some w ∧
      w.partitions = windowAt text cfg l.parts h after ∧
      w.nextCursor = w.partitions.getLast?.map text := by
    intro after
    have hrows : (windowSql text r.tables.compactionLeases r.clock h
        (ladderEligible r.tables h (asI64 cfg.l0Fanout) (asI64 cfg.fanout)) owner
        cfg.candidateLimit after).map CandidateWindow.fromRows = _ :=
      fromRows_windowSql (not_lt.mpr (zero_le_one.trans hlimit))
    exact ⟨_, hrows, hparts ▸ offered_eq_windowAt hl0 hf hfree htext owner after, rfl⟩
  obtain ⟨w, hw, hwindow, hnext⟩ := hcandidates (l.ladderCursors h)
  obtain ⟨w', hw', hwindow', hnext'⟩ := hcandidates none
  unfold sweep Compactor.sweep
  rw [hw]
  dsimp only
  by_cases htail : (l.ladderCursors h).isSome = true ∧ w.partitions = []
  · have htail' : (l.ladderCursors h).isSome = true ∧
        windowAt text cfg l.parts h (l.ladderCursors h) = [] := hwindow ▸ htail
    simp only [Option.bind_eq_bind, Option.bind_some, if_pos htail, hw', Option.pure_def,
      Option.map_some, if_pos htail', ← hwindow', hnext']
  · simp only [Option.bind_eq_bind, Option.bind_some, if_neg htail, Option.pure_def,
      Option.map_some, ← hwindow, hnext]

end Alone

end Ukiel.Compactor.Sweeps
