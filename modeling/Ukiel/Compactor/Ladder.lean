/-
# The ladder

`ukiel-compactor/src/compactor.rs` (`run_once`, `sweep`, `compact_partition`, `eligible_level`) and
the listing in `ukiel-catalog/src/parts.rs`, with nobody else at work: what passes do to the part
rows.  Reading and writing the files of a merge is a parameter; all that matters here is that a
merge of parts has a file.

* §1 configuration and state.
* §2 a merge, a partition, the sweep, a pass.
* §3 to §5 the runs of a partition are a counter that carries (`Ukiel.Lib.Carry`): a merge empties
  a level and adds one run to the next.
* §6 `ladder_quiescent_iff`: from which states the passes come to an end.
-/
import Mathlib.Algebra.Order.BigOperators.Group.Finset
import Mathlib.Data.Finset.Card
import Ukiel.Compactor.Rows
import Ukiel.Daemon.Config
import Ukiel.Lib.Carry

namespace Ukiel.Compactor

open Ukiel.Catalog Ukiel.Daemon

/-! ## 1. Configuration and state -/

/-- The part of `CompactorConfig` the ladder reads. -/
structure CompactorConfig where
  l0Fanout : Nat
  fanout : Nat
  candidateLimit : Int
deriving DecidableEq

/-- `run.rs`: the compactor's configuration is a section of the daemon's. -/
def ofSection (c : CompactorSection) : CompactorConfig := ⟨c.l0Fanout, c.fanout, c.candidateLimit⟩

/-- `n as i64`. -/
def asI64 (n : Nat) : Int := (n : Int).bmod (2 ^ 64)

/-- `L0` files are merged eagerly, the levels above lazily. -/
def CompactorConfig.trigger (c : CompactorConfig) (level : Int) : Nat :=
  if level = 0 then c.l0Fanout else c.fanout

structure Ladder where
  parts : List PartRow
  nextCommit : Int
  nextPart : Int
  /-- The sweep cursors, in the memory of the process. -/
  ladderCursors : HypertableId → Option String := fun _ => none

/-- What a merge writes: for parts that hold rows, at least one file. -/
structure Outputs where
  files : Int → List PartRow → List PartMeta
  nonempty : ∀ commit group, group ≠ [] → files commit group ≠ []

/-- A ladder merge that was committed. -/
structure Merge where
  hypertable : HypertableId
  partition : Json
  level : Int
deriving DecidableEq

/-! ## 2. Passes -/

/-- `live_partition_parts`. -/
def livePartitionParts (parts : List PartRow) (h : HypertableId) (partition : Json) :
    List PartRow :=
  parts.filter fun p => p.hypertableId = h ∧ p.partMeta.partitionValues = partition ∧ p.live

/-- The parts of one level. -/
def atLevel (parts : List PartRow) (level : Int) : List PartRow :=
  parts.filter fun p => p.partMeta.level = level

/-- The runs of a group: its distinct commits. -/
def runs (group : List PartRow) : Nat := (group.map PartRow.createdByCommit).dedup.length

/-- The keys of the `BTreeMap`. -/
def levels (parts : List PartRow) : List Int :=
  (parts.map fun p => p.partMeta.level).dedup.insertionSort (· ≤ ·)

/-- `eligible_level`. -/
def eligibleLevel (cfg : CompactorConfig) (parts : List PartRow) : Option (Int × List PartRow) :=
  ((levels parts).find? fun level => cfg.trigger level ≤ runs (atLevel parts level)).map
    fun level => (level, atLevel parts level)

/-- `level + 1` of an `i16`. -/
def nextLevel (level : Int) : Int := (level + 1).bmod (2 ^ 16)

/-- The rows of new parts. -/
def newRows (h : HypertableId) (commit : Int) : Int → List PartMeta → List PartRow
  | _, [] => []
  | id, m :: rest => ⟨id, h, m, commit, none, none⟩ :: newRows h commit (id + 1) rest

/-- The swap `commit_compaction_replace` makes, with nobody in its way. -/
def Ladder.replace (l : Ladder) (h : HypertableId) (old : List PartRow) (new : List PartMeta) :
    Ladder :=
  { l with
    parts := tombstoneParts l.nextCommit (old.map PartRow.id) l.parts ++
      newRows h l.nextCommit l.nextPart new
    nextCommit := l.nextCommit + 1
    nextPart := l.nextPart + new.length }

/-- The new parts of a merge: in the partition of the inputs, at the level given. -/
def Ladder.merged (out : Outputs) (l : Ladder) (partition : Json) (group : List PartRow)
    (outputLevel : Int) : List PartMeta :=
  (out.files l.nextCommit group).map fun m =>
    { m with partitionValues := partition, level := outputLevel }

/-- `merge_parts`. -/
def Ladder.mergeParts (out : Outputs) (l : Ladder) (h : HypertableId) (partition : Json)
    (group : List PartRow) (outputLevel : Int) : Ladder :=
  l.replace h group (l.merged out partition group outputLevel)

/-- `compact_partition`: one merge at most. -/
def compactPartition (cfg : CompactorConfig) (out : Outputs) (h : HypertableId)
    (s : Ladder × List Merge) (partition : Json) : Ladder × List Merge :=
  match eligibleLevel cfg (livePartitionParts s.1.parts h partition) with
  | none => s
  | some (level, group) =>
    (s.1.mergeParts out h partition group (nextLevel level), s.2 ++ [⟨h, partition, level⟩])

/-- The partitions `compaction_candidates` finds: some level has its trigger's number of runs. -/
def candidates (cfg : CompactorConfig) (parts : List PartRow) (h : HypertableId) : List Json :=
  let live := parts.filter fun p => p.hypertableId = h ∧ p.live
  (live.map fun p => p.partMeta.partitionValues).dedup.filter fun partition =>
    let inside := live.filter fun p => p.partMeta.partitionValues = partition
    (levels inside).any fun level =>
      (if level = 0 then asI64 cfg.l0Fanout else asI64 cfg.fanout) ≤ runs (atLevel inside level)

/-- `window_sql`: in the order of their text, behind the cursor.  No peer holds a lease. -/
def windowAt (text : Json → String) (cfg : CompactorConfig) (parts : List PartRow)
    (h : HypertableId) (after : Option String) : List Json :=
  (((candidates cfg parts h).filter fun p => after.all fun a => a < text p).insertionSort
    fun p q => text p ≤ text q).take cfg.candidateLimit.toNat

/-- `sweep`: the window, and the cursor behind it. -/
def sweep (text : Json → String) (cfg : CompactorConfig) (l : Ladder) (h : HypertableId) :
    List Json × Option String :=
  let cursor := l.ladderCursors h
  let first := windowAt text cfg l.parts h cursor
  let window :=
    if cursor.isSome ∧ first = [] then windowAt text cfg l.parts h none else first
  let exhausted := window.length < cfg.candidateLimit.toNat
  (window, if exhausted then none else window.getLast?.map text)

/-- `compact_hypertable`, of which all merges succeed. -/
def compactHypertable (text : Json → String) (cfg : CompactorConfig) (out : Outputs)
    (s : Ladder × List Merge) (h : HypertableId) : Ladder × List Merge :=
  let (window, cursor) := sweep text cfg s.1 h
  window.foldl (compactPartition cfg out h)
    ({ s.1 with ladderCursors := Function.update s.1.ladderCursors h cursor }, s.2)

/-- `run_once`. -/
def runOnce (text : Json → String) (cfg : CompactorConfig) (out : Outputs)
    (hypertables : List HypertableId) (s : Ladder × List Merge) : Ladder × List Merge :=
  hypertables.foldl (compactHypertable text cfg out) s

/-- So many passes, with the merges they made. -/
def passes (text : Json → String) (cfg : CompactorConfig) (out : Outputs)
    (hypertables : List HypertableId) (l : Ladder) : Nat → Ladder × List Merge
  | 0 => (l, [])
  | n + 1 => runOnce text cfg out hypertables (passes text cfg out hypertables l n)

/-- No partition is eligible. -/
def Quiescent (cfg : CompactorConfig) (hypertables : List HypertableId) (l : Ladder) : Prop :=
  ∀ h ∈ hypertables, ∀ partition,
    eligibleLevel cfg (livePartitionParts l.parts h partition) = none

/-- The swap is what the catalog does when such a call commits. -/
theorem replace_of_applied {T T' : Tables} {l : Ladder} {h : HypertableId}
    {lease : CompactionLease} {group : List PartRow} {new : List PartMeta}
    {identity : OperationIdentity} (hparts : T.parts = l.parts)
    (happ : Applied T (commitCompactionReplace h lease (group.map PartRow.id) new identity)
      l.nextCommit T') :
    ∃ rows, T'.parts = tombstoneParts l.nextCommit (group.map PartRow.id) l.parts ++ rows ∧
      rows.map (fun r => { r with id := 0 }) =
        (newRows h l.nextCommit l.nextPart new).map fun r => { r with id := 0 } := by
  obtain ⟨rows, hrows, hnew⟩ := happ.parts
  refine ⟨rows, hparts ▸ hrows, ?_⟩
  have hshape : ∀ (id : Int) (metas : List PartMeta),
      (newRows h l.nextCommit id metas).map (fun r => { r with id := 0 }) =
        metas.map fun m => (⟨0, h, m, l.nextCommit, none, none⟩ : PartRow) := by
    intro id metas
    induction metas generalizing id with
    | nil => rfl
    | cons m metas ih => rw [newRows, List.map_cons, List.map_cons, ih]
  rw [hshape]
  have hmetas : rows.map PartRow.partMeta = new := hnew.metas
  rw [← hmetas, List.map_map]
  refine List.map_congr_left fun r hr => ?_
  obtain ⟨hht, hcommit, hdel, hpurged⟩ := hnew.row r hr
  cases r
  simp_all [commitCompactionReplace]

/-! ## 3. The runs of a partition -/

variable {cfg : CompactorConfig} {out : Outputs} {l : Ladder} {h : HypertableId}
  {partition : Json} {parts group : List PartRow} {L : Int}

theorem runs_eq_card (group : List PartRow) :
    runs group = (group.map PartRow.createdByCommit).toFinset.card :=
  (List.card_toFinset _).symm

theorem runs_pos : 1 ≤ runs group ↔ group ≠ [] := by
  rw [runs_eq_card, Nat.succ_le_iff, Finset.card_pos, List.toFinset_nonempty_iff]
  simp

/-- The parts of a new commit are one more run. -/
theorem runs_append_fresh {new : List PartRow} {commit : Int} (hne : new ≠ [])
    (hnew : ∀ p ∈ new, p.createdByCommit = commit)
    (hfresh : ∀ p ∈ group, p.createdByCommit ≠ commit) : runs (group ++ new) = runs group + 1 := by
  have hone : (new.map PartRow.createdByCommit).toFinset = {commit} := by
    ext c
    simp only [List.mem_toFinset, List.mem_map, Finset.mem_singleton]
    constructor
    · rintro ⟨p, hp, rfl⟩
      exact hnew p hp
    · rintro rfl
      obtain ⟨p, hp⟩ := List.exists_mem_of_ne_nil _ hne
      exact ⟨p, hp, hnew p hp⟩
  have hdisjoint : Disjoint (group.map PartRow.createdByCommit).toFinset {commit} := by
    rw [Finset.disjoint_singleton_right, List.mem_toFinset, List.mem_map]
    rintro ⟨p, hp, hc⟩
    exact hfresh p hp hc
  rw [runs_eq_card, runs_eq_card, List.map_append, List.toFinset_append, hone,
    Finset.card_union_of_disjoint hdisjoint, Finset.card_singleton]

/-- The runs at each level. -/
def runsAt (parts : List PartRow) (level : Int) : Nat := runs (atLevel parts level)

theorem mem_levels : L ∈ levels parts ↔ atLevel parts L ≠ [] := by
  unfold levels atLevel
  rw [List.mem_insertionSort, List.mem_dedup, List.mem_map, ne_eq, List.filter_eq_nil_iff]
  simp only [decide_eq_true_eq, not_forall, not_not, exists_prop]

theorem levels_sorted (parts : List PartRow) : (levels parts).Pairwise (· < ·) := by
  have hle : (levels parts).Pairwise (· ≤ ·) := List.pairwise_insertionSort _ _
  have hnodup : (levels parts).Nodup :=
    (List.perm_insertionSort _ _).nodup_iff.mpr (List.nodup_dedup _)
  exact (hle.and hnodup).imp fun h => lt_of_le_of_ne h.1 h.2

/-- **`eligible_level` finds the lowest full level.** -/
theorem eligibleLevel_eq_some :
    eligibleLevel cfg parts = some (L, group) ↔
      Carry.Lowest cfg.trigger (runsAt parts) L ∧ group = atLevel parts L := by
  unfold eligibleLevel
  rw [Option.map_eq_some_iff]
  constructor
  · rintro ⟨K, hfind, heq⟩
    obtain ⟨rfl, rfl⟩ := Prod.mk.injEq .. ▸ heq
    obtain ⟨hfull, as, bs, hlevels, hbefore⟩ := List.find?_eq_some_iff_append.mp hfind
    have hmem : K ∈ levels parts := by rw [hlevels]; simp
    refine ⟨⟨⟨runs_pos.mpr (mem_levels.mp hmem), of_decide_eq_true hfull⟩, ?_⟩, rfl⟩
    intro M hM hfullM
    have hmemM : M ∈ levels parts := mem_levels.mpr (runs_pos.mp hfullM.1)
    have hsorted := levels_sorted parts
    rw [hlevels] at hmemM hsorted
    rcases List.mem_append.mp hmemM with hin | hin
    · have := hbefore M hin
      simp only [Bool.not_eq_true', decide_eq_false_iff_not] at this
      exact this hfullM.2
    · have hafter := (List.pairwise_append.mp hsorted).2.1
      rcases List.mem_cons.mp hin with rfl | hin
      · omega
      · have := (List.pairwise_cons.mp hafter).1 M hin
        omega
  · rintro ⟨hlow, rfl⟩
    refine ⟨L, ?_, rfl⟩
    have hmem : L ∈ levels parts := mem_levels.mpr (runs_pos.mp hlow.full.1)
    obtain ⟨as, bs, hlevels⟩ := List.append_of_mem hmem
    refine List.find?_eq_some_iff_append.mpr ⟨decide_eq_true hlow.full.2, as, bs, hlevels, ?_⟩
    intro M hM
    have hsorted := levels_sorted parts
    rw [hlevels] at hsorted
    have hlt := (List.pairwise_append.mp hsorted).2.2 M hM L List.mem_cons_self
    have hmemM : M ∈ levels parts := by rw [hlevels]; simp [hM]
    simp only [Bool.not_eq_true', decide_eq_false_iff_not]
    exact fun htrigger => hlow.least M hlt ⟨runs_pos.mpr (mem_levels.mp hmemM), htrigger⟩

theorem eligibleLevel_eq_none :
    eligibleLevel cfg parts = none ↔ ∀ L, ¬ Carry.Full cfg.trigger (runsAt parts) L := by
  unfold eligibleLevel
  rw [Option.map_eq_none_iff, List.find?_eq_none]
  constructor
  · intro hnone L hfull
    exact hnone L (mem_levels.mpr (runs_pos.mp hfull.1)) (decide_eq_true hfull.2)
  · intro hnone L hL htrigger
    exact hnone L ⟨runs_pos.mpr (mem_levels.mp hL), of_decide_eq_true htrigger⟩

/-! ## 4. A merge -/

/-- What the catalog promises of part rows: the ids are those of a sequence, levels are
`SMALLINT`s. -/
structure Ladder.Ok (l : Ladder) : Prop where
  ids : (l.parts.map PartRow.id).Nodup
  id_lt : ∀ p ∈ l.parts, p.id < l.nextPart
  commit_lt : ∀ p ∈ l.parts, p.createdByCommit < l.nextCommit
  level : ∀ p ∈ l.parts, -2 ^ 15 ≤ p.partMeta.level ∧ p.partMeta.level ≤ 2 ^ 15 - 1

theorem mem_newRows {commit id : Int} {new : List PartMeta} {p : PartRow}
    (hp : p ∈ newRows h commit id new) :
    p.hypertableId = h ∧ p.createdByCommit = commit ∧ p.live ∧ p.partMeta ∈ new ∧
      id ≤ p.id ∧ p.id < id + new.length := by
  induction new generalizing id with
  | nil => cases hp
  | cons m new ih =>
    rw [newRows, List.mem_cons] at hp
    rw [List.length_cons]
    rcases hp with rfl | hp
    · exact ⟨rfl, rfl, rfl, List.mem_cons_self, le_rfl, by push_cast; omega⟩
    · obtain ⟨hht, hcommit, hlive, hmem, hlo, hhi⟩ := ih hp
      refine ⟨hht, hcommit, hlive, List.mem_cons_of_mem m hmem, by omega, ?_⟩
      push_cast
      omega

theorem newRows_ids (h : HypertableId) (commit id : Int) (new : List PartMeta) :
    ((newRows h commit id new).map PartRow.id).Nodup := by
  induction new generalizing id with
  | nil => exact List.nodup_nil
  | cons m new ih =>
    rw [newRows, List.map_cons, List.nodup_cons]
    refine ⟨?_, ih (id + 1)⟩
    intro hmem
    obtain ⟨p, hp, heq⟩ := List.mem_map.mp hmem
    have := (mem_newRows hp).2.2.2.2.1
    simp only at heq
    omega

theorem newRows_ne_nil {commit id : Int} {new : List PartMeta} (hne : new ≠ []) :
    newRows h commit id new ≠ [] := by
  cases new with
  | nil => exact absurd rfl hne
  | cons m new => exact List.cons_ne_nil _ _

theorem nextLevel_range (L : Int) : -2 ^ 15 ≤ nextLevel L ∧ nextLevel L ≤ 2 ^ 15 - 1 := by
  unfold nextLevel
  have hlo := Int.le_bmod (x := L + 1) (m := 2 ^ 16) (by decide)
  have hhi := Int.bmod_lt (x := L + 1) (m := 2 ^ 16) (by decide)
  omega

theorem nextLevel_eq (hlo : -2 ^ 15 ≤ L) (hhi : L < 2 ^ 15 - 1) : nextLevel L = L + 1 := by
  unfold nextLevel
  rw [Int.bmod_eq_of_le (by omega) (by omega)]

theorem mem_merged {outputLevel : Int} {m : PartMeta}
    (hm : m ∈ l.merged out partition group outputLevel) :
    m.partitionValues = partition ∧ m.level = outputLevel := by
  obtain ⟨m', -, rfl⟩ := List.mem_map.mp hm
  exact ⟨rfl, rfl⟩

theorem Ladder.Ok.merge (hok : l.Ok) (L : Int) :
    (l.mergeParts out h partition group (nextLevel L)).Ok := by
  have hold : ∀ p ∈ tombstoneParts l.nextCommit (group.map PartRow.id) l.parts,
      ∃ q ∈ l.parts, p.id = q.id ∧ p.createdByCommit = q.createdByCommit ∧
        p.partMeta = q.partMeta := by
    intro p hp
    obtain ⟨q, hq, rfl⟩ := List.mem_map.mp hp
    refine ⟨q, hq, ?_⟩
    split <;> exact ⟨rfl, rfl, rfl⟩
  have hids : (tombstoneParts l.nextCommit (group.map PartRow.id) l.parts).map PartRow.id =
      l.parts.map PartRow.id := by
    unfold tombstoneParts
    rw [List.map_map]
    refine List.map_congr_left fun p _ => ?_
    simp only [Function.comp_apply]
    split <;> rfl
  refine ⟨?_, ?_, ?_, ?_⟩
  · simp only [Ladder.mergeParts, Ladder.replace, List.map_append, hids]
    refine List.nodup_append.mpr ⟨hok.ids, newRows_ids .., ?_⟩
    rintro i hi j hj rfl
    obtain ⟨p, hp, rfl⟩ := List.mem_map.mp hi
    obtain ⟨q, hq, heq⟩ := List.mem_map.mp hj
    have := hok.id_lt p hp
    have := (mem_newRows hq).2.2.2.2.1
    omega
  · intro p hp
    simp only [Ladder.mergeParts, Ladder.replace, List.mem_append] at hp ⊢
    rcases hp with hp | hp
    · obtain ⟨q, hq, hid, -, -⟩ := hold p hp
      have := hok.id_lt q hq
      omega
    · exact (mem_newRows hp).2.2.2.2.2
  · intro p hp
    simp only [Ladder.mergeParts, Ladder.replace, List.mem_append] at hp ⊢
    rcases hp with hp | hp
    · obtain ⟨q, hq, -, hcommit, -⟩ := hold p hp
      have := hok.commit_lt q hq
      omega
    · have := (mem_newRows hp).2.1
      omega
  · intro p hp
    simp only [Ladder.mergeParts, Ladder.replace, List.mem_append] at hp
    rcases hp with hp | hp
    · obtain ⟨q, hq, -, -, hmeta⟩ := hold p hp
      exact hmeta ▸ hok.level q hq
    · have hlevel := (mem_merged (mem_newRows hp).2.2.2.1).2
      exact hlevel ▸ nextLevel_range L

theorem livePartitionParts_eq (parts : List PartRow) (h : HypertableId) (partition : Json) :
    livePartitionParts parts h partition =
      (parts.filter fun p => p.hypertableId = h ∧ p.live).filter fun p =>
        p.partMeta.partitionValues = partition := by
  unfold livePartitionParts
  rw [List.filter_filter]
  refine List.filter_congr fun p _ => ?_
  simp only [Bool.decide_and, Bool.decide_eq_true]
  exact Bool.and_left_comm _ _ _

/-- The live parts of a partition after a swap. -/
theorem Ladder.Ok.live_replace (hok : l.Ok) (hgroup : ∀ p ∈ group, p ∈ l.parts)
    (new : List PartMeta) (h' : HypertableId) (partition' : Json) :
    livePartitionParts (l.replace h group new).parts h' partition' =
      ((livePartitionParts l.parts h' partition').filter fun p => p ∉ group) ++
        livePartitionParts (newRows h l.nextCommit l.nextPart new) h' partition' := by
  have hmem : ∀ p ∈ l.parts, (!decide (p.id ∈ group.map PartRow.id)) = decide (p ∉ group) := by
    intro p hp
    rw [Bool.not_eq_eq_eq_not, ← decide_not, decide_eq_decide, not_not, List.mem_map]
    constructor
    · rintro ⟨q, hq, heq⟩
      exact List.inj_on_of_nodup_map hok.ids (hgroup q hq) hp heq ▸ hq
    · exact fun hg => ⟨p, hg, rfl⟩
  rw [livePartitionParts_eq, livePartitionParts_eq l.parts]
  simp only [Ladder.replace]
  rw [List.filter_append, List.filter_append, filter_live_tombstone, ← livePartitionParts_eq]
  congr 1
  simp only [List.filter_filter]
  refine List.filter_congr fun p hp => ?_
  rw [hmem p hp]
  exact Bool.and_left_comm _ _ _

theorem mem_livePartitionParts {p : PartRow} :
    p ∈ livePartitionParts parts h partition ↔
      p ∈ parts ∧ p.hypertableId = h ∧ p.partMeta.partitionValues = partition ∧ p.live := by
  unfold livePartitionParts
  rw [List.mem_filter, decide_eq_true_eq]

/-- The rows of a merge, seen from a partition. -/
theorem live_newRows (commit id : Int) (new : List PartMeta)
    (hnew : ∀ m ∈ new, m.partitionValues = partition) (h' : HypertableId) (partition' : Json) :
    livePartitionParts (newRows h commit id new) h' partition' =
      if h' = h ∧ partition' = partition then newRows h commit id new else [] := by
  unfold livePartitionParts
  split
  · rename_i hsame
    refine List.filter_eq_self.mpr fun p hp => ?_
    obtain ⟨hht, -, hlive, hmeta, -⟩ := mem_newRows hp
    simp [hht, hsame, hnew _ hmeta, hlive]
  · rename_i hother
    refine List.filter_eq_nil_iff.mpr fun p hp => ?_
    obtain ⟨hht, -, -, hmeta, -⟩ := mem_newRows hp
    simp only [hht, hnew _ hmeta, decide_eq_true_eq, not_and]
    exact fun hh hp => absurd ⟨hh.symm, hp.symm⟩ hother

/-- **A merge leaves the other partitions alone.** -/
theorem Ladder.Ok.merge_other (hok : l.Ok)
    (he : eligibleLevel cfg (livePartitionParts l.parts h partition) = some (L, group))
    (outputLevel : Int) {h' : HypertableId} {partition' : Json}
    (hother : ¬ (h' = h ∧ partition' = partition)) :
    livePartitionParts (l.mergeParts out h partition group outputLevel).parts h' partition' =
      livePartitionParts l.parts h' partition' := by
  obtain ⟨-, rfl⟩ := eligibleLevel_eq_some.mp he
  have hgroup : ∀ p ∈ atLevel (livePartitionParts l.parts h partition) L, p ∈ l.parts :=
    fun p hp => (mem_livePartitionParts.mp (List.mem_filter.mp hp).1).1
  unfold Ladder.mergeParts
  rw [hok.live_replace hgroup, live_newRows _ _ _ (fun m hm => (mem_merged (l := l) hm).1),
    if_neg hother, List.append_nil]
  refine List.filter_eq_self.mpr fun p hp => ?_
  rw [decide_eq_true_eq]
  intro hin
  obtain ⟨-, hht, hpv, -⟩ := mem_livePartitionParts.mp hp
  obtain ⟨-, hht', hpv', -⟩ := mem_livePartitionParts.mp (List.mem_filter.mp hin).1
  exact hother ⟨hht.symm.trans hht', hpv.symm.trans hpv'⟩

theorem atLevel_append (a b : List PartRow) (L : Int) :
    atLevel (a ++ b) L = atLevel a L ++ atLevel b L := List.filter_append ..

theorem atLevel_of_level {rows : List PartRow} {K M : Int}
    (hrows : ∀ p ∈ rows, p.partMeta.level = K) :
    atLevel rows M = if M = K then rows else [] := by
  unfold atLevel
  split
  · rename_i hM
    exact List.filter_eq_self.mpr fun p hp => by simp [hrows p hp, hM]
  · rename_i hM
    refine List.filter_eq_nil_iff.mpr fun p hp => ?_
    rw [hrows p hp, decide_eq_true_eq]
    exact fun heq => hM heq.symm

theorem atLevel_remove (parts : List PartRow) (L M : Int) :
    atLevel (parts.filter fun p => p.partMeta.level ≠ L) M =
      if M = L then [] else atLevel parts M := by
  unfold atLevel
  rw [List.filter_filter]
  split
  · rename_i hM
    refine List.filter_eq_nil_iff.mpr fun p _ => ?_
    simp [hM]
  · rename_i hM
    refine List.filter_congr fun p _ => ?_
    by_cases hp : p.partMeta.level = M
    · simp [hp, hM]
    · simp [hp]

/-- **A merge is a carry**: its level is emptied, and the level above has one run more. -/
theorem Ladder.Ok.merge_own (hok : l.Ok) (out : Outputs)
    (he : eligibleLevel cfg (livePartitionParts l.parts h partition) = some (L, group))
    (hL : L < 2 ^ 15 - 1) :
    runsAt (livePartitionParts (l.mergeParts out h partition group (nextLevel L)).parts h
      partition) = Carry.carry (runsAt (livePartitionParts l.parts h partition)) L := by
  obtain ⟨hlow, rfl⟩ := eligibleLevel_eq_some.mp he
  have hmemgroup : ∀ p, p ∈ atLevel (livePartitionParts l.parts h partition) L ↔
      p ∈ livePartitionParts l.parts h partition ∧ p.partMeta.level = L := by
    intro p
    unfold atLevel
    rw [List.mem_filter, decide_eq_true_eq]
  have hgroup : ∀ p ∈ atLevel (livePartitionParts l.parts h partition) L, p ∈ l.parts :=
    fun p hp => (mem_livePartitionParts.mp ((hmemgroup p).mp hp).1).1
  have hne : atLevel (livePartitionParts l.parts h partition) L ≠ [] :=
    runs_pos.mp hlow.full.1
  have hnext : nextLevel L = L + 1 := by
    obtain ⟨p, hp⟩ := List.exists_mem_of_ne_nil _ hne
    have := (hok.level p (hgroup p hp)).1
    rw [((hmemgroup p).mp hp).2] at this
    exact nextLevel_eq this hL
  have hlive : livePartitionParts (l.mergeParts out h partition
      (atLevel (livePartitionParts l.parts h partition) L) (nextLevel L)).parts h partition =
      ((livePartitionParts l.parts h partition).filter fun p => p.partMeta.level ≠ L) ++
        newRows h l.nextCommit l.nextPart (l.merged out partition
          (atLevel (livePartitionParts l.parts h partition) L) (L + 1)) := by
    unfold Ladder.mergeParts
    rw [hok.live_replace hgroup, live_newRows _ _ _ (fun m hm => (mem_merged (l := l) hm).1),
      if_pos ⟨rfl, rfl⟩, hnext]
    congr 1
    refine List.filter_congr fun p hp => ?_
    rw [decide_eq_decide, hmemgroup]
    exact not_congr (and_iff_right hp)
  have hnew : ∀ p ∈ newRows h l.nextCommit l.nextPart (l.merged out partition
      (atLevel (livePartitionParts l.parts h partition) L) (L + 1)), p.partMeta.level = L + 1 :=
    fun p hp => (mem_merged (l := l) (mem_newRows hp).2.2.2.1).2
  funext M
  unfold runsAt
  rw [hlive, atLevel_append, atLevel_remove, atLevel_of_level hnew]
  by_cases hML : M = L
  · -- the group is gone
    rw [if_pos hML, if_neg (by omega), hML, Carry.carry_self]
    rfl
  · rw [if_neg hML]
    by_cases hMs : M = L + 1
    · -- the new parts are one more run
      rw [if_pos hMs, hMs, Carry.carry_succ]
      refine runs_append_fresh (newRows_ne_nil ?_) (fun p hp => (mem_newRows hp).2.1) ?_
      · unfold Ladder.merged
        rw [ne_eq, List.map_eq_nil_iff]
        exact out.nonempty _ _ hne
      · intro p hp
        have hin := (mem_livePartitionParts.mp (List.mem_filter.mp hp).1).1
        have := hok.commit_lt p hin
        omega
    · rw [if_neg hMs, List.append_nil]
      unfold Carry.carry
      rw [if_neg hML, if_neg hMs]

/-! ## 5. Passes -/

/-- The highest level there is. -/
def maxLevel : Int := 2 ^ 15 - 1

/-- The counter of a partition. -/
def Ladder.counter (l : Ladder) (h : HypertableId) (partition : Json) : Int → Nat :=
  runsAt (livePartitionParts l.parts h partition)

variable {text : Json → String} {hypertables : List HypertableId} {s : Ladder × List Merge}

/-- **What the merge of a partition keeps, every number of passes keeps.** -/
theorem passes_inv {I : Ladder × List Merge → Prop}
    (hcursors : ∀ (s : Ladder × List Merge) cursors, I s →
      I ({ s.1 with ladderCursors := cursors }, s.2))
    (hstep : ∀ h ∈ hypertables, ∀ s partition, I s → I (compactPartition cfg out h s partition))
    (h : I (l, [])) (n : Nat) : I (passes text cfg out hypertables l n) := by
  have hwindow : ∀ h ∈ hypertables, ∀ (window : List Json) s, I s →
      I (window.foldl (compactPartition cfg out h) s) := by
    intro h hh window
    induction window with
    | nil => exact fun s hs => hs
    | cons partition window ih => exact fun s hs => ih _ (hstep h hh s partition hs)
  have hpass : ∀ rest ⊆ hypertables, ∀ s, I s →
      I (rest.foldl (compactHypertable text cfg out) s) := by
    intro rest
    induction rest with
    | nil => exact fun _ s hs => hs
    | cons h rest ih =>
      intro hsub s hs
      refine ih (fun x hx => hsub (List.mem_cons_of_mem h hx)) _ ?_
      exact hwindow h (hsub List.mem_cons_self) _ _ (hcursors s _ hs)
  induction n with
  | zero => exact h
  | succ n ih => exact hpass hypertables (List.Subset.refl _) _ ih

/-- The partition will spill, or some merge has gone over the highest level already. -/
def Doomed (cfg : CompactorConfig) (h : HypertableId) (partition : Json)
    (s : Ladder × List Merge) : Prop :=
  s.1.Ok ∧ (Carry.Spills cfg.trigger maxLevel (s.1.counter h partition) ∨
    ∃ m ∈ s.2, ¬ m.level < maxLevel)

theorem Doomed.step {h' : HypertableId} {partition' : Json} (hd : Doomed cfg h partition s) :
    Doomed cfg h partition (compactPartition cfg out h' s partition') := by
  unfold compactPartition
  split
  · exact hd
  · rename_i L group he
    refine ⟨hd.1.merge L, ?_⟩
    rcases hd.2 with hspills | ⟨m, hm, hlevel⟩
    · by_cases hL : L < maxLevel
      · refine Or.inl ?_
        unfold Ladder.counter
        by_cases hsame : h = h' ∧ partition = partition'
        · obtain ⟨rfl, rfl⟩ := hsame
          rw [hd.1.merge_own out he hL]
          exact ((eligibleLevel_eq_some.mp he).1.spills_carry_iff hL).mpr hspills
        · rw [hd.1.merge_other he _ hsame]
          exact hspills
      · exact Or.inr ⟨_, List.mem_append_right _ (List.mem_singleton_self _), hL⟩
    · exact Or.inr ⟨m, List.mem_append_left _ hm, hlevel⟩

/-- **A partition that will spill is never quiescent before it has.** -/
theorem spills_not_quiescent (hok : l.Ok) (hh : h ∈ hypertables)
    (hspills : Carry.Spills cfg.trigger maxLevel (l.counter h partition)) (n : Nat)
    (hmerges : ∀ m ∈ (passes text cfg out hypertables l n).2, m.level < maxLevel) :
    ¬ Quiescent cfg hypertables (passes text cfg out hypertables l n).1 := by
  intro hquiet
  have hd : Doomed cfg h partition (passes text cfg out hypertables l n) :=
    passes_inv (I := Doomed cfg h partition)
      (fun s cursors hs => ⟨⟨hs.1.ids, hs.1.id_lt, hs.1.commit_lt, hs.1.level⟩, hs.2⟩)
      (fun h' _ s partition' hs => hs.step) ⟨hok, Or.inl hspills⟩ n
  rcases hd.2 with ⟨L, -, hfull, -⟩ | ⟨m, hm, hlevel⟩
  · exact eligibleLevel_eq_none.mp (hquiet h hh partition) L hfull
  · exact hlevel (hmerges m hm)

/-- Nothing will spill, and the parts are in known partitions. -/
structure Calm (cfg : CompactorConfig) (hypertables : List HypertableId)
    (keys : Finset (HypertableId × Json)) (l : Ladder) : Prop where
  ok : l.Ok
  safe : ∀ h ∈ hypertables, ∀ partition,
    ¬ Carry.Spills cfg.trigger maxLevel (l.counter h partition)
  keys : ∀ p ∈ l.parts, (p.hypertableId, p.partMeta.partitionValues) ∈ keys

/-- How many merges there can be yet. -/
noncomputable def potential (cfg : CompactorConfig) (keys : Finset (HypertableId × Json))
    (l : Ladder) : Nat :=
  ∑ k ∈ keys, Carry.rank cfg.trigger maxLevel (l.counter k.1 k.2)

variable {keys : Finset (HypertableId × Json)}

/-- **A merge stays below the highest level and uses up some of the potential.** -/
theorem Calm.merge (hc : Calm cfg hypertables keys l) (out : Outputs) (hh : h ∈ hypertables)
    (he : eligibleLevel cfg (livePartitionParts l.parts h partition) = some (L, group)) :
    L < maxLevel ∧
    Calm cfg hypertables keys (l.mergeParts out h partition group (nextLevel L)) ∧
    potential cfg keys (l.mergeParts out h partition group (nextLevel L)) <
      potential cfg keys l := by
  obtain ⟨hlow, hgroup⟩ := eligibleLevel_eq_some.mp he
  obtain ⟨p, hp⟩ := List.exists_mem_of_ne_nil _ (runs_pos.mp hlow.full.1)
  obtain ⟨hlive, hlevel⟩ := List.mem_filter.mp hp
  rw [decide_eq_true_eq] at hlevel
  obtain ⟨hin, hht, hpv, -⟩ := mem_livePartitionParts.mp hlive
  have hL : L < maxLevel := by
    have hle := (hc.ok.level p hin).2
    rw [hlevel] at hle
    refine lt_of_le_of_ne hle ?_
    rintro rfl
    exact hc.safe h hh partition hlow.full.spills
  have hown := hc.ok.merge_own out he hL
  have hother : ∀ h' partition', ¬ (h' = h ∧ partition' = partition) →
      (l.mergeParts out h partition group (nextLevel L)).counter h' partition' =
        l.counter h' partition' := by
    intro h' partition' hne
    unfold Ladder.counter
    rw [hc.ok.merge_other he _ hne]
  have hkey : (h, partition) ∈ keys := by
    have := hc.keys p hin
    rwa [hht, hpv] at this
  refine ⟨hL, ⟨hc.ok.merge L, ?_, ?_⟩, ?_⟩
  · intro h' hh' partition'
    by_cases hsame : h' = h ∧ partition' = partition
    · obtain ⟨rfl, rfl⟩ := hsame
      unfold Ladder.counter
      rw [hown, hlow.spills_carry_iff hL]
      exact hc.safe h' hh' partition'
    · rw [hother h' partition' hsame]
      exact hc.safe h' hh' partition'
  · intro q hq
    simp only [Ladder.mergeParts, Ladder.replace, List.mem_append] at hq
    rcases hq with hq | hq
    · obtain ⟨q', hq', rfl⟩ := List.mem_map.mp hq
      have := hc.keys q' hq'
      split <;> exact this
    · obtain ⟨hqh, -, -, hmeta, -⟩ := mem_newRows hq
      rw [hqh, (mem_merged hmeta).1]
      exact hkey
  · refine Finset.sum_lt_sum ?_ ⟨(h, partition), hkey, ?_⟩
    · intro k _
      by_cases hsame : k.1 = h ∧ k.2 = partition
      · obtain ⟨rfl, rfl⟩ := hsame
        unfold Ladder.counter
        rw [hown]
        exact (hlow.rank_carry_lt hL.le).le
      · rw [hother k.1 k.2 hsame]
    · unfold Ladder.counter
      rw [hown]
      exact hlow.rank_carry_lt hL.le

/-- Calm, with no merge over the highest level so far. -/
def Tame (cfg : CompactorConfig) (hypertables : List HypertableId)
    (keys : Finset (HypertableId × Json)) (s : Ladder × List Merge) : Prop :=
  Calm cfg hypertables keys s.1 ∧ ∀ m ∈ s.2, m.level < maxLevel

/-- Some of the potential is used up, or the parts are as they were. -/
def Progress (cfg : CompactorConfig) (keys : Finset (HypertableId × Json))
    (s s' : Ladder × List Merge) : Prop :=
  potential cfg keys s'.1 < potential cfg keys s.1 ∨ s'.1.parts = s.1.parts

theorem potential_congr {l' : Ladder} (h : l'.parts = l.parts) :
    potential cfg keys l' = potential cfg keys l := by
  unfold potential Ladder.counter
  rw [h]

theorem Progress.refl (s : Ladder × List Merge) : Progress cfg keys s s := Or.inr rfl

theorem Progress.lt_of_lt {s₁ s₂ s₃ : Ladder × List Merge} (h : Progress cfg keys s₂ s₃)
    (hlt : potential cfg keys s₂.1 < potential cfg keys s₁.1) :
    potential cfg keys s₃.1 < potential cfg keys s₁.1 := by
  rcases h with h | h
  · exact h.trans hlt
  · rw [potential_congr h]
    exact hlt

theorem Progress.trans {s₁ s₂ s₃ : Ladder × List Merge} (h : Progress cfg keys s₁ s₂)
    (h' : Progress cfg keys s₂ s₃) : Progress cfg keys s₁ s₃ := by
  rcases h with h | h
  · exact Or.inl (h'.lt_of_lt h)
  · rcases h' with h' | h'
    · exact Or.inl (potential_congr h ▸ h')
    · exact Or.inr (h'.trans h)

theorem Tame.step (ht : Tame cfg hypertables keys s) (out : Outputs) (hh : h ∈ hypertables)
    (partition : Json) :
    Tame cfg hypertables keys (compactPartition cfg out h s partition) ∧
      Progress cfg keys s (compactPartition cfg out h s partition) ∧
      (eligibleLevel cfg (livePartitionParts s.1.parts h partition) ≠ none →
        potential cfg keys (compactPartition cfg out h s partition).1 <
          potential cfg keys s.1) := by
  unfold compactPartition
  split
  · rename_i hnone
    exact ⟨ht, Progress.refl s, fun hne => absurd hnone hne⟩
  · rename_i L group he
    obtain ⟨hL, hcalm, hlt⟩ := ht.1.merge out hh he
    refine ⟨⟨hcalm, ?_⟩, Or.inl hlt, fun _ => hlt⟩
    intro m hm
    rcases List.mem_append.mp hm with hm | hm
    · exact ht.2 m hm
    · rw [List.mem_singleton.mp hm]
      exact hL

theorem Tame.window (ht : Tame cfg hypertables keys s) (hh : h ∈ hypertables)
    (window : List Json) :
    Tame cfg hypertables keys (window.foldl (compactPartition cfg out h) s) ∧
      Progress cfg keys s (window.foldl (compactPartition cfg out h) s) := by
  induction window generalizing s with
  | nil => exact ⟨ht, Progress.refl s⟩
  | cons partition window ih =>
    obtain ⟨ht', hp, -⟩ := ht.step out hh partition
    obtain ⟨ht'', hp'⟩ := ih ht'
    exact ⟨ht'', hp.trans hp'⟩

theorem asI64_of_lt {n : Nat} (h : n < 2 ^ 63) : asI64 n = n := by
  unfold asI64
  rw [Int.bmod_eq_of_le (by omega) (by omega)]

/-- **What the listing finds is what the ladder merges.** -/
theorem mem_candidates (hl0 : cfg.l0Fanout < 2 ^ 63) (hf : cfg.fanout < 2 ^ 63) :
    partition ∈ candidates cfg parts h ↔
      eligibleLevel cfg (livePartitionParts parts h partition) ≠ none := by
  have htrigger : ∀ level : Int, (if level = 0 then asI64 cfg.l0Fanout else asI64 cfg.fanout) =
      (cfg.trigger level : Int) := by
    intro level
    unfold CompactorConfig.trigger
    rw [asI64_of_lt hl0, asI64_of_lt hf]
    split <;> rfl
  unfold candidates
  simp only [htrigger, Nat.cast_le, List.mem_filter, List.mem_dedup, ← livePartitionParts_eq,
    List.any_eq_true, decide_eq_true_eq]
  rw [ne_eq, eligibleLevel_eq_none, not_forall]
  constructor
  · rintro ⟨-, L, hL, htrig⟩
    exact ⟨L, not_not.mpr ⟨runs_pos.mpr (mem_levels.mp hL), htrig⟩⟩
  · rintro ⟨L, hfull⟩
    have hfull := not_not.mp hfull
    have hne := runs_pos.mp hfull.1
    refine ⟨?_, L, mem_levels.mpr hne, hfull.2⟩
    obtain ⟨p, hp⟩ := List.exists_mem_of_ne_nil _ hne
    obtain ⟨hin, hht, hpv, hlive⟩ := mem_livePartitionParts.mp (List.mem_filter.mp hp).1
    exact List.mem_map.mpr ⟨p, by simp [hin, hht, hlive], hpv⟩

/-- **A sweep offers eligible partitions, and some if there are any.** -/
theorem sweep_offers (text : Json → String) (hl0 : cfg.l0Fanout < 2 ^ 63) (hf : cfg.fanout < 2 ^ 63)
    (hlimit : 0 < cfg.candidateLimit) (l : Ladder) (h : HypertableId) :
    (∀ partition ∈ (sweep text cfg l h).1,
      eligibleLevel cfg (livePartitionParts l.parts h partition) ≠ none) ∧
    ((∃ partition, eligibleLevel cfg (livePartitionParts l.parts h partition) ≠ none) →
      (sweep text cfg l h).1 ≠ []) := by
  have hwindow : ∀ after, ∀ partition ∈ windowAt text cfg l.parts h after,
      eligibleLevel cfg (livePartitionParts l.parts h partition) ≠ none := by
    intro after partition hp
    have hp := (List.mem_insertionSort _).mp (List.mem_of_mem_take hp)
    exact (mem_candidates hl0 hf).mp (List.mem_filter.mp hp).1
  have hhead : (∃ partition, eligibleLevel cfg (livePartitionParts l.parts h partition) ≠ none) →
      windowAt text cfg l.parts h none ≠ [] := by
    rintro ⟨partition, he⟩ hnil
    have hmem := (mem_candidates hl0 hf).mpr he
    unfold windowAt at hnil
    rw [List.take_eq_nil_iff] at hnil
    rcases hnil with hzero | hnil
    · omega
    · have : partition ∈ ([] : List Json) := hnil ▸
        (List.mem_insertionSort _).mpr (List.mem_filter.mpr ⟨hmem, rfl⟩)
      cases this
  unfold sweep
  dsimp only
  split
  · exact ⟨hwindow none, hhead⟩
  · rename_i hfirst
    refine ⟨hwindow _, ?_⟩
    intro hex
    cases hcursor : l.ladderCursors h with
    | none => exact hhead hex
    | some cursor =>
      rw [hcursor] at hfirst
      exact fun hnil => hfirst ⟨rfl, hnil⟩

theorem Tame.hypertable (ht : Tame cfg hypertables keys s) (text : Json → String)
    (out : Outputs) (hl0 : cfg.l0Fanout < 2 ^ 63) (hf : cfg.fanout < 2 ^ 63)
    (hlimit : 0 < cfg.candidateLimit) (hh : h ∈ hypertables) :
    Tame cfg hypertables keys (compactHypertable text cfg out s h) ∧
      Progress cfg keys s (compactHypertable text cfg out s h) ∧
      ((∃ partition, eligibleLevel cfg (livePartitionParts s.1.parts h partition) ≠ none) →
        potential cfg keys (compactHypertable text cfg out s h).1 < potential cfg keys s.1) := by
  obtain ⟨hoffered, hsome⟩ := sweep_offers text hl0 hf hlimit s.1 h
  unfold compactHypertable
  dsimp only
  generalize (sweep text cfg s.1 h).2 = cursor
  have ht' : Tame cfg hypertables keys
      ({ s.1 with ladderCursors := Function.update s.1.ladderCursors h cursor }, s.2) :=
    ⟨⟨⟨ht.1.ok.ids, ht.1.ok.id_lt, ht.1.ok.commit_lt, ht.1.ok.level⟩, ht.1.safe, ht.1.keys⟩, ht.2⟩
  refine ⟨(ht'.window hh _).1, (ht'.window hh _).2, ?_⟩
  intro hex
  cases hw : (sweep text cfg s.1 h).1 with
  | nil => exact absurd hw (hsome hex)
  | cons partition window =>
    -- the first partition of the window is merged
    have hfirst := hoffered partition (by rw [hw]; exact List.mem_cons_self)
    obtain ⟨htp, -, hlt⟩ := ht'.step out hh partition
    exact (htp.window hh window).2.lt_of_lt (hlt hfirst)

theorem Tame.pass (ht : Tame cfg hypertables keys s) (text : Json → String) (out : Outputs)
    (hl0 : cfg.l0Fanout < 2 ^ 63) (hf : cfg.fanout < 2 ^ 63) (hlimit : 0 < cfg.candidateLimit)
    {rest : List HypertableId} (hsub : rest ⊆ hypertables) :
    Tame cfg hypertables keys (rest.foldl (compactHypertable text cfg out) s) ∧
      Progress cfg keys s (rest.foldl (compactHypertable text cfg out) s) ∧
      ((∃ h ∈ rest, ∃ partition,
          eligibleLevel cfg (livePartitionParts s.1.parts h partition) ≠ none) →
        potential cfg keys (rest.foldl (compactHypertable text cfg out) s).1 <
          potential cfg keys s.1) := by
  induction rest generalizing s with
  | nil => exact ⟨ht, Progress.refl s, fun ⟨_, hmem, _⟩ => absurd hmem List.not_mem_nil⟩
  | cons h rest ih =>
    obtain ⟨ht', hp, hlt⟩ :=
      ht.hypertable text out hl0 hf hlimit (hsub List.mem_cons_self)
    obtain ⟨ht'', hp', hlt'⟩ := ih ht' fun x hx => hsub (List.mem_cons_of_mem h hx)
    refine ⟨ht'', hp.trans hp', ?_⟩
    rintro ⟨k, hk, partition, he⟩
    rcases hp with hless | hsame
    · exact hp'.lt_of_lt hless
    · -- nothing was merged before this hypertable's turn
      rcases List.mem_cons.mp hk with rfl | hk
      · exact hp'.lt_of_lt (hlt ⟨partition, he⟩)
      · rw [List.foldl_cons, ← potential_congr hsame]
        exact hlt' ⟨k, hk, partition, hsame ▸ he⟩

/-- **Calm passes come to an end**, and no merge goes over the highest level. -/
theorem Calm.quiescent (hc : Calm cfg hypertables keys l) (text : Json → String)
    (out : Outputs) (hl0 : cfg.l0Fanout < 2 ^ 63) (hf : cfg.fanout < 2 ^ 63)
    (hlimit : 0 < cfg.candidateLimit) :
    (∃ n, Quiescent cfg hypertables (passes text cfg out hypertables l n).1) ∧
      ∀ n, ∀ m ∈ (passes text cfg out hypertables l n).2, m.level < maxLevel := by
  have htame : ∀ n, Tame cfg hypertables keys (passes text cfg out hypertables l n) := by
    intro n
    induction n with
    | zero => exact ⟨hc, fun m hm => absurd hm List.not_mem_nil⟩
    | succ n ih => exact (ih.pass text out hl0 hf hlimit (List.Subset.refl _)).1
  refine ⟨?_, fun n => (htame n).2⟩
  by_contra hnever
  have hbusy := not_exists.mp hnever
  -- every pass uses up some of the potential
  have hdrop : ∀ n, potential cfg keys (passes text cfg out hypertables l n).1 + n ≤
      potential cfg keys l := by
    intro n
    induction n with
    | zero => exact le_rfl
    | succ n ih =>
      have hlt := ((htame n).pass text out hl0 hf hlimit
        (List.Subset.refl _)).2.2 (by
          have := hbusy n
          unfold Quiescent at this
          push Not at this
          exact this)
      have : potential cfg keys (passes text cfg out hypertables l (n + 1)).1 <
        potential cfg keys (passes text cfg out hypertables l n).1 := hlt
      omega
  have := hdrop (potential cfg keys l + 1)
  omega

/-! ## 6. When the passes come to an end -/

/-- With two runs to a merge nothing spills, as long as nothing is at the highest level. -/
theorem not_spills_of_fanout (hf : 2 ≤ cfg.fanout)
    (htop : ∀ p ∈ l.parts, p.partMeta.level < maxLevel) (h : HypertableId) (partition : Json) :
    ¬ Carry.Spills cfg.trigger maxLevel (l.counter h partition) := by
  have hzero : l.counter h partition maxLevel = 0 := by
    by_contra hne
    obtain ⟨p, hp⟩ := List.exists_mem_of_ne_nil _ (runs_pos.mp (Nat.one_le_iff_ne_zero.mpr hne))
    obtain ⟨hlive, hlevel⟩ := List.mem_filter.mp hp
    have := htop p (mem_livePartitionParts.mp hlive).1
    simp only [decide_eq_true_eq] at hlevel
    omega
  have htrigger : cfg.trigger maxLevel = cfg.fanout := rfl
  rintro ⟨L, hL, hfull, habove⟩
  rcases lt_or_eq_of_le hL with hlt | rfl
  · have := habove maxLevel hlt le_rfl
    rw [hzero, htrigger] at this
    omega
  · have := hfull.1
    omega

/-- With one, whatever is merged once is merged for ever. -/
theorem spills_of_fanout {L : Int} (hf : cfg.fanout ≤ 1) (hL : 0 ≤ L) (hmax : L ≤ maxLevel)
    (hfull : Carry.Full cfg.trigger (l.counter h partition) L) :
    Carry.Spills cfg.trigger maxLevel (l.counter h partition) := by
  refine ⟨L, hmax, hfull, ?_⟩
  intro M hLM _
  have : cfg.trigger M = cfg.fanout := if_neg (by omega)
  omega

/-- **Ladder quiescence.**  For a configuration `validate` accepts, with fanouts that fit the `i64`
of the listing, and any parts: the passes come to a state in which no partition is eligible, and no
merge is of parts at the highest `i16` level, exactly when nothing spills: when in no partition there
is a level with the runs for its merge such that every level above it, up to the highest, is at most
one run short of its own. -/
theorem ladder_quiescent_iff {config : UkieldConfig} (hvalid : validate config = .ok ())
    (hl0 : config.compactor.l0Fanout < 2 ^ 63) (hf : config.compactor.fanout < 2 ^ 63)
    (hok : l.Ok) (text : Json → String) (out : Outputs) (hypertables : List HypertableId) :
    ((∃ n, Quiescent (ofSection config.compactor) hypertables
        (passes text (ofSection config.compactor) out hypertables l n).1) ∧
      ∀ n, ∀ m ∈ (passes text (ofSection config.compactor) out hypertables l n).2,
        m.level + 1 ≤ 2 ^ 15 - 1) ↔
    ∀ h ∈ hypertables, ∀ partition,
      ¬ Carry.Spills (ofSection config.compactor).trigger maxLevel (l.counter h partition) := by
  have hmax : maxLevel = 2 ^ 15 - 1 := rfl
  constructor
  · rintro ⟨⟨n, hquiet⟩, hlevels⟩ h hh partition hspills
    refine spills_not_quiescent hok hh hspills n (fun m hm => ?_) hquiet
    have := hlevels n m hm
    omega
  · intro hsafe
    have hc : Calm (ofSection config.compactor) hypertables
        (l.parts.map fun p => (p.hypertableId, p.partMeta.partitionValues)).toFinset l :=
      ⟨hok, hsafe, fun p hp => List.mem_toFinset.mpr (List.mem_map_of_mem hp)⟩
    obtain ⟨hquiet, hlevels⟩ := hc.quiescent text out hl0 hf (candidateLimit_pos hvalid)
    refine ⟨hquiet, fun n m hm => ?_⟩
    have := hlevels n m hm
    omega

/-- A daemon that only compacts, with this trigger above L0. -/
def compacting (fanout : Nat) : UkieldConfig where
  roles := [.compactor]
  catalog := ⟨"postgres://", 8, 0, 2000, 2000, 100, 5000, 0x3fc999999999999a, 2000, 1000⟩
  query := ⟨"", 1, 1, 1, 1, 300⟩
  mv := ⟨[], 1000, 1, 1, 1, 1⟩
  compactor := ⟨4, fanout, 60, 20, 64⟩
  gc := ⟨0x408c200000000000⟩

/-- A part of one run. -/
def ladderPart (id level commit : Int) : PartRow :=
  ⟨id, 1, ⟨"ht/1/p.parquet", .null, 1, 9, 10, 1000, level, none⟩, commit, none, none⟩

/-- A merge into one file. -/
def oneFile : Outputs where
  files _ _ := [⟨"ht/1/q.parquet", .null, 1, 9, 10, 1000, 0, none⟩]
  nonempty _ _ _ := List.cons_ne_nil _ _

def oneRun : Ladder := ⟨[ladderPart 1 1 1], 2, 2, fun _ => none⟩

theorem oneRun_ok : oneRun.Ok := by
  refine ⟨by simp [oneRun], ?_, ?_, ?_⟩ <;>
  · intro p hp
    rw [List.mem_singleton.mp hp]
    decide

/-- **A single run climbs for ever**: `validate` accepts a trigger of one run, every merge output is
eligible alone, and the passes only end with a level that no `i16` holds. -/
theorem one_run_climbs : validate (compacting 1) = .ok () ∧ oneRun.Ok ∧
    ¬ ((∃ n, Quiescent (ofSection (compacting 1).compactor) [1]
        (passes (fun _ => "") (ofSection (compacting 1).compactor) oneFile [1]
          oneRun n).1) ∧
      ∀ n, ∀ m ∈ (passes (fun _ => "") (ofSection (compacting 1).compactor) oneFile
        [1] oneRun n).2, m.level + 1 ≤ 2 ^ 15 - 1) := by
  refine ⟨rfl, oneRun_ok, ?_⟩
  rintro ⟨⟨n, hquiet⟩, hlevels⟩
  have hfull : Carry.Full (ofSection (compacting 1).compactor).trigger
      (oneRun.counter 1 .null) 1 := by
    constructor <;> decide
  refine spills_not_quiescent oneRun_ok (List.mem_singleton_self 1)
    (spills_of_fanout (by decide) (by decide) (by decide) hfull) n (fun m hm => ?_) hquiet
  have hmax : maxLevel = 2 ^ 15 - 1 := rfl
  have := hlevels n m hm
  omega

/-- Two runs of one level, for a trigger of two. -/
def twoRuns : Ladder := ⟨[ladderPart 1 1 1, ladderPart 2 1 2], 3, 3, fun _ => none⟩

theorem ladder_quiescent_iff_two :
    ∃ n, Quiescent (ofSection (compacting 2).compactor) [1]
      (passes (fun _ => "") (ofSection (compacting 2).compactor) oneFile [1]
        twoRuns n).1 := by
  have hvalid : validate (compacting 2) = .ok () := rfl
  have hok : twoRuns.Ok := by
    refine ⟨by decide, ?_, ?_, ?_⟩ <;>
    · intro p hp
      rcases List.mem_cons.mp hp with rfl | hp
      · decide
      · rw [List.mem_singleton.mp hp]
        decide
  refine ((ladder_quiescent_iff hvalid (by decide) (by decide) hok (fun _ => "") oneFile [1]).mpr ?_).1
  intro h _ partition
  refine not_spills_of_fanout (by decide) ?_ h partition
  intro p hp
  rcases List.mem_cons.mp hp with rfl | hp
  · decide
  · rw [List.mem_singleton.mp hp]
    decide

end Ukiel.Compactor
