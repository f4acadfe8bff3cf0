/-
# The compactor's candidates

The two listings of `parts.rs` the compactor sweeps, `compaction_candidates` and
`finalize_candidates`: a sub-select of eligible partitions, and `window_sql` around it, which
leaves out what a peer has leased and returns one window behind the caller's cursor.

* §1 the sub-selects.
* §2 the window, as rows and as the `CandidateWindow` made of them.
* §3 what the exclusion is: exactly what `try_acquire_compaction_lease` would refuse
  (`candidates_agree_with_lease`).

A row is marked when `clock_timestamp()` is read for it, so the clock is a function of the
partition.  The text of a JSONB value and the order of texts are Postgres's own: parameters.
-/
import Ukiel.Catalog.Leases
import Ukiel.Lib.Grouping
import Ukiel.Lib.Rotation

namespace Ukiel.Catalog.Candidates

open Grouping

/-! ## 1. Eligible partitions -/

/-- The sub-select of `compaction_candidates`: some level has its trigger's number of runs. -/
def ladderEligible (T : Tables) (h : HypertableId) (l0Fanout fanout : Int) : List Json :=
  let g := (groupBy (fun p : PartRow => (p.partMeta.partitionValues, p.partMeta.level))
      (T.liveParts h)).map
    fun (group, rows) => (group, countDistinct PartRow.createdByCommit rows)
  ((g.filter fun ((_, level), runs) =>
      (if level = 0 then l0Fanout else fanout) ≤ (runs : Int)).map
    fun ((partition, _), _) => partition).dedup

/-- `FROM parts p JOIN commits c ON c.id = p.created_by_commit`, of a partition's L0 parts, live
or not. -/
def l0Commits (T : Tables) (h : HypertableId) (partition : Json) : List CommitRow :=
  (T.parts.filter fun p =>
      p.hypertableId = h ∧ p.partMeta.partitionValues = partition ∧ p.partMeta.level = 0).flatMap
    fun p => T.commits.filter fun c => c.id = p.createdByCommit

/-- `partition_l0_quiet_since`. -/
def partitionL0QuietSince (T : Tables) (h : HypertableId) (partition : Json) (now quiet : Int) :
    Bool :=
  match ((l0Commits T h partition).map CommitRow.createdAt).max? with
  | some latest => latest < now - quiet
  | none => true

/-- The sub-select of `finalize_candidates`: cold, with two live runs. -/
def finalizeEligible (T : Tables) (h : HypertableId) (now quiet : Int) : List Json :=
  let r := ((T.liveParts h).map fun p => (p.partMeta.partitionValues, p.createdByCommit)).dedup
  ((groupBy Prod.fst r).filter fun (partition, rows) =>
      2 ≤ rows.length ∧
        ¬ (l0Commits T h partition).any fun c => now - quiet ≤ c.createdAt).map Prod.fst

section Eligible

variable {T : Tables} {h : HypertableId} {partition : Json}

theorem mem_ladderEligible {l0Fanout fanout : Int} :
    partition ∈ ladderEligible T h l0Fanout fanout ↔
      ∃ level rows, rows = ((T.liveParts h).filter fun p =>
          (p.partMeta.partitionValues, p.partMeta.level) = (partition, level)) ∧ rows ≠ [] ∧
        (if level = 0 then l0Fanout else fanout) ≤
          (countDistinct PartRow.createdByCommit rows : Int) := by
  unfold ladderEligible
  simp only [List.mem_dedup, List.mem_map, List.mem_filter, decide_eq_true_eq]
  constructor
  · rintro ⟨_, ⟨⟨⟨⟨partition, level⟩, rows⟩, hgroup, rfl⟩, htrigger⟩, rfl⟩
    obtain ⟨hrows, hne⟩ := mem_groupBy.mp hgroup
    exact ⟨level, rows, hrows, hne, htrigger⟩
  · rintro ⟨level, rows, hrows, hne, htrigger⟩
    exact ⟨_, ⟨⟨((partition, level), rows), mem_groupBy.mpr ⟨hrows, hne⟩, rfl⟩, htrigger⟩, rfl⟩

/-- **A partition is quiet when none of its L0 commits is recent.** -/
theorem partitionL0QuietSince_iff {now quiet : Int} :
    partitionL0QuietSince T h partition now quiet = true ↔
      ∀ c ∈ l0Commits T h partition, c.createdAt < now - quiet := by
  unfold partitionL0QuietSince
  split
  · rename_i latest hmax
    obtain ⟨hmem, hle⟩ := List.max?_eq_some_iff.mp hmax
    rw [decide_eq_true_eq]
    constructor
    · intro hlt c hc
      exact (hle _ (List.mem_map_of_mem hc)).trans_lt hlt
    · intro hall
      obtain ⟨c, hc, rfl⟩ := List.mem_map.mp hmem
      exact hall c hc
  · rename_i hmax
    rw [List.max?_eq_none_iff, List.map_eq_nil_iff] at hmax
    rw [hmax]
    exact ⟨fun _ c hc => absurd hc List.not_mem_nil, fun _ => rfl⟩

/-- The runs of a partition, counted as pairs of a partition and a commit. -/
theorem length_filter_pairs (parts : List PartRow) (partition : Json) :
    (((parts.map fun p => (p.partMeta.partitionValues, p.createdByCommit)).dedup).filter
      fun r => r.1 = partition).length =
    countDistinct PartRow.createdByCommit
      (parts.filter fun p => p.partMeta.partitionValues = partition) := by
  unfold countDistinct
  rw [← List.length_map (f := Prod.snd)]
  refine List.Perm.length_eq ((List.perm_ext_iff_of_nodup ?_ (List.nodup_dedup _)).mpr ?_)
  · refine List.Nodup.map_on ?_ ((List.nodup_dedup _).filter _)
    rintro ⟨p, c⟩ hp ⟨q, d⟩ hq heq
    have hp := of_decide_eq_true (List.mem_filter.mp hp).2
    have hq := of_decide_eq_true (List.mem_filter.mp hq).2
    exact Prod.ext (hp.trans hq.symm) heq
  · intro c
    simp only [List.mem_map, List.mem_filter, List.mem_dedup, decide_eq_true_eq]
    constructor
    · rintro ⟨_, ⟨⟨p, hp, rfl⟩, hpart⟩, rfl⟩
      exact ⟨p, ⟨hp, hpart⟩, rfl⟩
    · rintro ⟨p, ⟨hp, hpart⟩, rfl⟩
      exact ⟨_, ⟨⟨p, hp, rfl⟩, hpart⟩, rfl⟩

theorem mem_finalizeEligible {now quiet : Int} :
    partition ∈ finalizeEligible T h now quiet ↔
      2 ≤ countDistinct PartRow.createdByCommit
          ((T.liveParts h).filter fun p => p.partMeta.partitionValues = partition) ∧
        partitionL0QuietSince T h partition now quiet = true := by
  have hcold : (¬ (l0Commits T h partition).any (fun c => decide (now - quiet ≤ c.createdAt)) = true)
      ↔ partitionL0QuietSince T h partition now quiet = true := by
    rw [partitionL0QuietSince_iff]
    simp only [List.any_eq_true, decide_eq_true_eq, not_exists, not_and, not_le]
  rw [← length_filter_pairs, ← hcold]
  unfold finalizeEligible
  simp only [List.mem_map, List.mem_filter, decide_eq_true_eq]
  constructor
  · rintro ⟨⟨partition, rows⟩, ⟨hgroup, hruns, hquiet⟩, rfl⟩
    exact ⟨(mem_groupBy.mp hgroup).1 ▸ hruns, hquiet⟩
  · rintro ⟨hruns, hquiet⟩
    refine ⟨(partition, _), ⟨mem_groupBy.mpr ⟨rfl, ?_⟩, hruns, hquiet⟩, rfl⟩
    exact List.length_pos_iff.mp (by omega)

end Eligible

/-! ## 2. The window -/

section Window

variable {τ : Type} [LinearOrder τ]

/-- `CandidateWindow`.  The counts are of the whole eligible set. -/
structure CandidateWindow (τ : Type) where
  partitions : List Json
  nextCursor : Option τ
  eligible : Int
  leased : Int
deriving DecidableEq

/-- A row of the query; the last two are NULL on the row of an empty window. -/
structure WindowRow (τ : Type) where
  eligible : Int
  leased : Int
  partitionValues : Option Json
  cursor : Option τ

/-- `CandidateWindow::from_rows`. -/
def CandidateWindow.fromRows (rows : List (WindowRow τ)) : CandidateWindow τ :=
  let (eligible, leased) := rows.head?.elim (0, 0) fun r => (r.eligible, r.leased)
  let nextCursor := rows.getLast?.bind WindowRow.cursor
  ⟨rows.filterMap WindowRow.partitionValues, nextCursor, eligible, leased⟩

/-- `marked`: whether a peer holds the partition. -/
def marked (leases : LeaseKey → Option LeaseRow) (clock : Json → Int) (h : HypertableId)
    (owner : Uuid) (eligible : List Json) : List (Json × Bool) :=
  eligible.map fun partition =>
    (partition, (leases ⟨h, partition⟩).any fun l =>
      clock partition < l.expiresAt ∧ l.ownerId ≠ owner)

/-- The rows of `marked` that are not leased. -/
def unleased (marked : List (Json × Bool)) : List Json :=
  (marked.filter fun m => ¬ m.2).map Prod.fst

/-- The lateral sub-select: one window of them, in the order of their text. -/
def offered (text : Json → τ) (marked : List (Json × Bool)) (limit : Int) (after : Option τ) :
    List Json :=
  (((unleased marked).filter fun partition => ∀ c ∈ after, c < text partition).insertionSort
    fun p q => text p ≤ text q).take limit.toNat

/-- `window_sql`.  It fails for a negative `LIMIT`. -/
def windowSql (text : Json → τ) (leases : LeaseKey → Option LeaseRow) (clock : Json → Int)
    (h : HypertableId) (eligible : List Json) (owner : Uuid) (limit : Int) (after : Option τ) :
    Option (List (WindowRow τ)) :=
  let marked := marked leases clock h owner eligible
  let eligible : Int := marked.length
  let leased : Int := (marked.filter fun m => m.2).length
  let w := offered text marked limit after
  if limit < 0 then none
  else if w = [] then some [⟨eligible, leased, none, none⟩]
  else some (w.map fun partition => ⟨eligible, leased, some partition, some (text partition)⟩)

/-- What one query reads: the tables, `now()`, and `clock_timestamp()` for each row. -/
structure Reading where
  tables : Tables
  now : Int
  clock : Json → Int

/-- `compaction_candidates`. -/
def compactionCandidates (text : Json → τ) (r : Reading) (h : HypertableId) (owner : Uuid)
    (l0Fanout fanout limit : Int) (after : Option τ) : Option (CandidateWindow τ) :=
  (windowSql text r.tables.compactionLeases r.clock h
    (ladderEligible r.tables h l0Fanout fanout) owner limit after).map CandidateWindow.fromRows

/-- `finalize_candidates`. -/
def finalizeCandidates (text : Json → τ) (r : Reading) (h : HypertableId) (owner : Uuid)
    (quiet limit : Int) (after : Option τ) : Option (CandidateWindow τ) :=
  (windowSql text r.tables.compactionLeases r.clock h
    (finalizeEligible r.tables h r.now quiet) owner limit after).map CandidateWindow.fromRows

/-- The two kinds of sweep, with what their listings are bounded by. -/
inductive SweepKind where
  | ladder (l0Fanout fanout : Int)
  | finalize (quiet : Int)
deriving DecidableEq

/-- The eligible set of a sweep. -/
def SweepKind.eligible (kind : SweepKind) (r : Reading) (h : HypertableId) : List Json :=
  match kind with
  | .ladder l0Fanout fanout => ladderEligible r.tables h l0Fanout fanout
  | .finalize quiet => finalizeEligible r.tables h r.now quiet

/-- The listing of a sweep. -/
def SweepKind.candidates (kind : SweepKind) (text : Json → τ) (r : Reading) (h : HypertableId)
    (owner : Uuid) (limit : Int) (after : Option τ) : Option (CandidateWindow τ) :=
  match kind with
  | .ladder l0Fanout fanout => compactionCandidates text r h owner l0Fanout fanout limit after
  | .finalize quiet => finalizeCandidates text r h owner quiet limit after

theorem SweepKind.candidates_eq (kind : SweepKind) (text : Json → τ) (r : Reading)
    (h : HypertableId) (owner : Uuid) (limit : Int) (after : Option τ) :
    kind.candidates text r h owner limit after =
      (windowSql text r.tables.compactionLeases r.clock h (kind.eligible r h) owner limit
        after).map CandidateWindow.fromRows := by
  cases kind <;> rfl

/-- No partition is listed twice. -/
theorem SweepKind.eligible_nodup (kind : SweepKind) (r : Reading) (h : HypertableId) :
    (kind.eligible r h).Nodup := by
  cases kind with
  | ladder l0Fanout fanout => exact List.nodup_dedup _
  | finalize quiet =>
    exact (groupBy_keys_nodup _ _).sublist (List.filter_sublist.map Prod.fst)

/-! ## 3. Offered is what can be claimed -/

/-- A partition of the sweep that a claim at the instant its row is read would be given. -/
def Claimable (kind : SweepKind) (r : Reading) (h : HypertableId) (owner : Uuid)
    (partition : Json) : Prop :=
  partition ∈ kind.eligible r h ∧ ∀ generation expiresAt,
    tryAcquireCompactionLease (r.tables.compactionLeases ⟨h, partition⟩) owner generation expiresAt
      (r.clock partition) ≠ none

/-- **The exclusion is the complement of the claim.** -/
theorem tryAcquire_eq_none_iff {held : Option LeaseRow} {owner : Uuid}
    {generation expiresAt now : Int} :
    tryAcquireCompactionLease held owner generation expiresAt now = none ↔
      (held.any fun l => now < l.expiresAt ∧ l.ownerId ≠ owner) = true := by
  cases held with
  | none => simp [tryAcquireCompactionLease]
  | some r =>
    rw [Option.any_some, decide_eq_true_eq]
    unfold tryAcquireCompactionLease
    dsimp only
    split
    · rename_i hfree
      refine ⟨fun h => absurd h (Option.some_ne_none _), fun h => ?_⟩
      rcases hfree with hexpired | hown
      · omega
      · exact absurd hown h.2
    · rename_i hheld
      rw [not_or, not_le] at hheld
      exact ⟨fun _ => hheld, fun _ => rfl⟩

variable {text : Json → τ} {leases : LeaseKey → Option LeaseRow} {clock : Json → Int}
  {h : HypertableId} {owner : Uuid} {eligible : List Json} {limit : Int} {after : Option τ}

theorem mem_marked_false {partition : Json} :
    (partition, false) ∈ marked leases clock h owner eligible ↔
      partition ∈ eligible ∧ ∀ generation expiresAt,
        tryAcquireCompactionLease (leases ⟨h, partition⟩) owner generation expiresAt
          (clock partition) ≠ none := by
  unfold marked
  simp only [List.mem_map, Prod.mk.injEq, ne_eq, tryAcquire_eq_none_iff, forall_const,
    Bool.not_eq_true]
  constructor
  · rintro ⟨_, hmem, rfl, hmark⟩
    exact ⟨hmem, hmark⟩
  · rintro ⟨hmem, hmark⟩
    exact ⟨partition, hmem, rfl, hmark⟩

theorem mem_unleased {partition : Json} {marked : List (Json × Bool)} :
    partition ∈ unleased marked ↔ (partition, false) ∈ marked := by
  unfold unleased
  simp only [List.mem_map, List.mem_filter, decide_eq_true_eq, Bool.not_eq_true]
  constructor
  · rintro ⟨⟨partition, b⟩, ⟨hmem, rfl⟩, rfl⟩
    exact hmem
  · exact fun hmem => ⟨_, ⟨hmem, rfl⟩, rfl⟩

theorem marked_fst (leases : LeaseKey → Option LeaseRow) (clock : Json → Int) (h : HypertableId)
    (owner : Uuid) (eligible : List Json) :
    (marked leases clock h owner eligible).map Prod.fst = eligible := by
  unfold marked
  rw [List.map_map]
  exact List.map_id _

theorem windowSql_of_neg (hlimit : limit < 0) :
    windowSql text leases clock h eligible owner limit after = none := by
  unfold windowSql
  exact if_pos hlimit

/-- **The rows of a window, put together again**: the counts are there also when no row is. -/
theorem fromRows_windowSql (hlimit : ¬ limit < 0) :
    (windowSql text leases clock h eligible owner limit after).map CandidateWindow.fromRows =
      let w := offered text (marked leases clock h owner eligible) limit after
      some ⟨w, w.getLast?.map text, eligible.length,
        ((marked leases clock h owner eligible).filter fun m => m.2).length⟩ := by
  unfold windowSql
  dsimp only
  rw [if_neg hlimit, show (marked leases clock h owner eligible).length = eligible.length from
    List.length_map _]
  cases offered text (marked leases clock h owner eligible) limit after with
  | nil => rfl
  | cons partition w =>
    rw [if_neg (List.cons_ne_nil _ _), Option.map_some, Option.some.injEq]
    unfold CandidateWindow.fromRows
    rw [CandidateWindow.mk.injEq]
    refine ⟨?_, ?_, rfl, rfl⟩
    · rw [List.filterMap_map]
      exact List.filterMap_some
    · rw [List.getLast?_map, Option.bind_map]
      cases (partition :: w).getLast? <;> rfl

/-- **A window offers the first of what can be claimed.**  Texts tell the partitions apart. -/
theorem isWindow_offered (hnodup : eligible.Nodup)
    (htext : ∀ p ∈ eligible, ∀ q ∈ eligible, text p = text q → p = q) :
    Rotation.IsWindow text
      (fun partition => partition ∈ eligible ∧ ∀ generation expiresAt,
        tryAcquireCompactionLease (leases ⟨h, partition⟩) owner generation expiresAt
          (clock partition) ≠ none)
      limit.toNat after (offered text (marked leases clock h owner eligible) limit after) := by
  have hsub : (unleased (marked leases clock h owner eligible)).Sublist eligible := by
    have := List.Sublist.map Prod.fst (List.filter_sublist (p := fun m : Json × Bool => ¬ m.2)
      (l := marked leases clock h owner eligible))
    rwa [marked_fst] at this
  have hwindow := Rotation.isWindow_take (hnodup.sublist hsub)
    (fun p hp q hq => htext p (hsub.subset hp) q (hsub.subset hq)) limit.toNat after
  have hset : (· ∈ unleased (marked leases clock h owner eligible)) = fun partition =>
      partition ∈ eligible ∧ ∀ generation expiresAt,
        tryAcquireCompactionLease (leases ⟨h, partition⟩) owner generation expiresAt
          (clock partition) ≠ none := by
    funext partition
    rw [mem_unleased, mem_marked_false]
  exact hset ▸ hwindow

theorem length_marked_true {generation expiresAt : Int} :
    ((marked leases clock h owner eligible).filter fun m => m.2).length =
      (eligible.filter fun partition =>
        tryAcquireCompactionLease (leases ⟨h, partition⟩) owner generation expiresAt
          (clock partition) = none).length := by
  unfold marked
  rw [List.filter_map, List.length_map]
  congr 2
  funext partition
  rw [Bool.eq_iff_iff, decide_eq_true_eq, tryAcquire_eq_none_iff]
  rfl

/-- **A window offers what its owner can claim.**  For every state, owner and cursor: a partition
is marked as not leased exactly when an acquisition by this owner at that instant is given the
lease; offered are the first `limit` of these behind the cursor, in the order of their text; the
next cursor is the last one offered; and the counts are those of the whole eligible set. -/
theorem candidates_agree_with_lease (text : Json → τ) (kind : SweepKind) (r : Reading)
    (h : HypertableId) (owner : Uuid) (limit : Int) (after : Option τ)
    (htext : ∀ p ∈ kind.eligible r h, ∀ q ∈ kind.eligible r h, text p = text q → p = q) :
    (∀ partition ∈ kind.eligible r h, ∀ generation expiresAt,
      ((partition, false) ∈
          marked r.tables.compactionLeases r.clock h owner (kind.eligible r h) ↔
        tryAcquireCompactionLease (r.tables.compactionLeases ⟨h, partition⟩) owner generation
          expiresAt (r.clock partition) ≠ none)) ∧
    (kind.candidates text r h owner limit after = none ↔ limit < 0) ∧
    ∀ w, kind.candidates text r h owner limit after = some w →
      Rotation.IsWindow text (Claimable kind r h owner) limit.toNat after w.partitions ∧
      w.nextCursor = w.partitions.getLast?.map text ∧
      w.eligible = (kind.eligible r h).length ∧
      ∀ generation expiresAt, w.leased = ((kind.eligible r h).filter fun partition =>
        tryAcquireCompactionLease (r.tables.compactionLeases ⟨h, partition⟩) owner generation
          expiresAt (r.clock partition) = none).length := by
  refine ⟨?_, ?_, ?_⟩
  · intro partition hmem generation expiresAt
    simp only [mem_marked_false, hmem, true_and, ne_eq, tryAcquire_eq_none_iff, forall_const]
  · rw [SweepKind.candidates_eq]
    by_cases hlimit : limit < 0
    · simp only [windowSql_of_neg hlimit, Option.map_none, hlimit]
    · simp only [fromRows_windowSql hlimit, reduceCtorEq, hlimit]
  · intro w hw
    rw [SweepKind.candidates_eq] at hw
    have hlimit : ¬ limit < 0 := by
      intro hlimit
      simp only [windowSql_of_neg hlimit, Option.map_none, reduceCtorEq] at hw
    rw [fromRows_windowSql hlimit] at hw
    obtain rfl := Option.some.inj hw
    refine ⟨isWindow_offered (kind.eligible_nodup r h) htext, rfl, rfl, ?_⟩
    exact fun generation expiresAt => congrArg _ length_marked_true

end Window

/-- Two live runs in each of two days, of which a peer holds the second until `50`. -/
def twoDays : Reading where
  tables :=
    { parts := [
        ⟨1, 1, ⟨"ht/1/a.parquet", .str "d1", 1, 9, 10, 1000, 0, none⟩, 1, none, none⟩,
        ⟨2, 1, ⟨"ht/1/b.parquet", .str "d1", 1, 9, 10, 1000, 0, none⟩, 2, none, none⟩,
        ⟨3, 1, ⟨"ht/1/c.parquet", .str "d2", 1, 9, 10, 1000, 0, none⟩, 3, none, none⟩,
        ⟨4, 1, ⟨"ht/1/d.parquet", .str "d2", 1, 9, 10, 1000, 0, none⟩, 4, none, none⟩]
      compactionLeases := fun key =>
        if key = ⟨1, .str "d2"⟩ then some ⟨8, 1, 50⟩ else none }
  now := 20
  clock _ := 20

/-- The text of a JSONB string of letters and digits. -/
def stringText : Json → String
  | .str s => "\"" ++ s ++ "\""
  | _ => ""

theorem candidates_agree_with_lease_two :
    ∃ w, (SweepKind.ladder 2 2).candidates stringText twoDays 1 7 64 none = some w ∧
      w.eligible = 2 ∧ w.leased = 1 ∧ w.nextCursor = w.partitions.getLast?.map stringText := by
  obtain ⟨-, hnone, hwindow⟩ := candidates_agree_with_lease stringText (.ladder 2 2) twoDays 1 7 64
    none (by decide +kernel)
  obtain ⟨w, hw⟩ := Option.ne_none_iff_exists'.mp fun h => absurd (hnone.mp h) (by decide)
  obtain ⟨-, hnext, heligible, hleased⟩ := hwindow w hw
  exact ⟨w, hw, heligible.trans (by decide +kernel), (hleased 0 0).trans (by decide +kernel), hnext⟩

end Ukiel.Catalog.Candidates
