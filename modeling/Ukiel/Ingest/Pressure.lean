/-
# How far backpressure lets L0 grow

A flush asks `max_live_l0_parts` first and is put off where compaction is behind (`flush_decision`).
It asks before it encodes, uploads and commits, and meanwhile the other workers of the hypertable
ask too: the stop threshold is no bound by itself.

* §1 the query, and what a flush that goes through was told.
* §2 workers that receive, ask and flush, each after it has read the catalog at some earlier time,
  while anything else happens to the parts.
* §3 a worker that was told to go on may overshoot by one part, and no more (`Within`).  What was
  never asked for, shutdowns and full buffers, is counted as such.
* §4 every worker may: `l0_bounded_iff`.
-/
import Mathlib.Data.Fintype.Card
import Mathlib.Logic.Relation
import Ukiel.Compactor.PartMetadata
import Ukiel.Ingest.EventTime
import Ukiel.Ingest.Loop
import Ukiel.Lib.Grouping

namespace Ukiel.Ingest.Pressure

open Ukiel.Catalog Ukiel.Compactor Ukiel.Write Grouping

/-! ## 1. What a flush is told -/

/-- The live L0 parts of a partition. -/
def liveL0 (T : Tables) (h : HypertableId) (partition : Json) : Nat :=
  ((T.liveParts h).filter fun p =>
    p.partMeta.level = 0 ∧ p.partMeta.partitionValues = partition).length

/-- `max_live_l0_parts`. -/
def maxLiveL0Parts (T : Tables) (h : HypertableId) (partitions : List Json) : Int :=
  if partitions = [] then 0
  else
    let perPartition := groupBy (fun p => p.partMeta.partitionValues)
      ((T.liveParts h).filter fun p =>
        p.partMeta.level = 0 ∧ p.partMeta.partitionValues ∈ partitions)
    ((perPartition.map fun g => (g.2.length : Int)).max?).getD 0

variable {T : Tables} {h : HypertableId} {partition : Json} {partitions : List Json}

/-- The rows of a group are the live L0 parts of its partition. -/
theorem length_filter_partition (hmem : partition ∈ partitions) :
    (((T.liveParts h).filter fun p =>
      p.partMeta.level = 0 ∧ p.partMeta.partitionValues ∈ partitions).filter fun p =>
        p.partMeta.partitionValues = partition).length = liveL0 T h partition := by
  unfold liveL0
  rw [List.filter_filter]
  congr 1
  refine List.filter_congr fun p _ => ?_
  rw [← Bool.decide_and, decide_eq_decide]
  constructor
  · rintro ⟨heq, hlevel, -⟩
    exact ⟨hlevel, heq⟩
  · rintro ⟨hlevel, rfl⟩
    exact ⟨rfl, hlevel, hmem⟩

/-- **The query is a maximum**, and zero over no partitions. -/
theorem maxLiveL0Parts_le_iff {n : Int} (hn : 0 ≤ n) :
    maxLiveL0Parts T h partitions ≤ n ↔ ∀ partition ∈ partitions, liveL0 T h partition ≤ n := by
  unfold maxLiveL0Parts
  split
  · rename_i hnil
    simp [hnil, hn]
  · dsimp only
    generalize hrows : (T.liveParts h).filter (fun p =>
      p.partMeta.level = 0 ∧ p.partMeta.partitionValues ∈ partitions) = rows
    have hle : ∀ m, (((groupBy (fun p : PartRow => p.partMeta.partitionValues) rows).map
        fun g => (g.2.length : Int)).max?) = some m →
        (m ≤ n ↔ ∀ g ∈ groupBy (fun p : PartRow => p.partMeta.partitionValues) rows,
          (g.2.length : Int) ≤ n) := by
      intro m hm
      obtain ⟨hin, hmax⟩ := List.max?_eq_some_iff.mp hm
      obtain ⟨g, hg, rfl⟩ := List.mem_map.mp hin
      exact ⟨fun hgn g' hg' => (hmax _ (List.mem_map_of_mem hg')).trans hgn, fun hall => hall g hg⟩
    have hgroups : (∀ g ∈ groupBy (fun p : PartRow => p.partMeta.partitionValues) rows,
        (g.2.length : Int) ≤ n) ↔ ∀ partition ∈ partitions, liveL0 T h partition ≤ n := by
      constructor
      · intro hall partition hmem
        rw [← length_filter_partition hmem, hrows]
        by_cases hnil : rows.filter (fun p => p.partMeta.partitionValues = partition) = []
        · simp [hnil, hn]
        · exact hall (partition, _) (mem_groupBy.mpr ⟨rfl, hnil⟩)
      · rintro hall ⟨partition, g⟩ hg
        obtain ⟨rfl, hne⟩ := mem_groupBy.mp hg
        obtain ⟨p, hp⟩ := List.exists_mem_of_ne_nil _ hne
        obtain ⟨hp, hpartition⟩ := List.mem_filter.mp hp
        rw [← hrows] at hp
        have hmem : partition ∈ partitions :=
          of_decide_eq_true hpartition ▸ (of_decide_eq_true (List.mem_filter.mp hp).2).2
        have := hall partition hmem
        rwa [← length_filter_partition hmem, hrows] at this
    rw [← hgroups]
    cases hmax : ((groupBy (fun p : PartRow => p.partMeta.partitionValues) rows).map
        fun g => (g.2.length : Int)).max? with
    | some m => exact hle m hmax
    | none =>
      rw [List.max?_eq_none_iff, List.map_eq_nil_iff] at hmax
      simp [hmax, hn]

theorem maxLiveL0Parts_nonneg (T : Tables) (h : HypertableId) (partitions : List Json) :
    0 ≤ maxLiveL0Parts T h partitions := by
  unfold maxLiveL0Parts
  split
  · exact le_rfl
  · dsimp only
    cases hmax : ((groupBy (fun p : PartRow => p.partMeta.partitionValues)
        ((T.liveParts h).filter fun p =>
          p.partMeta.level = 0 ∧ p.partMeta.partitionValues ∈ partitions)).map
        fun g => (g.2.length : Int)).max? with
    | none => exact le_rfl
    | some m =>
      obtain ⟨g, -, rfl⟩ := List.mem_map.mp (List.max?_eq_some_iff.mp hmax).1
      exact Int.natCast_nonneg _

/-- The partition of a day. -/
def ofDay (day : String) : Json := .obj [("day", .str day)]

/-- A flush that asks nobody: of a shutdown, or when the buffers are full. -/
def Unasked (R : RouteIngest) (force : Bool) (b : Buffers) : Prop :=
  force = true ∨ min (R.limits.maxBufferRows.toNat * 2) (2 ^ 64 - 1) ≤ b.totalRows

instance (R : RouteIngest) (force : Bool) (b : Buffers) : Decidable (Unasked R force b) := by
  unfold Unasked
  infer_instance

/-- **What a flush that goes through was told**: that there are fewer parts than the stop
threshold, in the days it holds rows of. -/
theorem flush_told {R : RouteIngest} {force : Bool} {b b' : Buffers} {a : Answers}
    (hflush : R.flush force b a = .ok (.flushed, b')) (hasked : ¬ Unasked R force b)
    (hrows : b.rowsByDay.entries ≠ []) :
    ∃ maxLive, a.maxLiveL0 (b.rowsByDay.keys.map ofDay) = .ok maxLive ∧
      maxLive < asI64 R.limits.l0StopParts.toNat := by
  rw [Unasked, not_or, Bool.not_eq_true] at hasked
  unfold RouteIngest.flush at hflush
  split at hflush
  · cases hflush
  · rw [if_pos ⟨hasked.1, hrows⟩] at hflush
    split at hflush
    · cases hflush
    · rename_i maxLive hlive
      refine ⟨maxLive, hlive, lt_of_not_ge fun hstop => ?_⟩
      have hdefer : flushDecision maxLive b.deferredFlushes b.totalRows R.limits = .defer := by
        rw [flushDecision, if_neg hasked.2, if_pos hstop]
      rw [hdefer] at hflush
      cases hflush

/-! ## 2. Workers -/

/-- The ingest workers of a hypertable.  No two of them consume one partition of a topic. -/
structure Group (W : Nat) (h : HypertableId) where
  task : Fin W → RouteIngest
  ownership : Fin W → Ownership
  routed : ∀ w, (task w).route.hypertable = h
  apart : ∀ v w, v ≠ w → (task v).route.topic = (task w).route.topic →
    ∀ p, (ownership v).owns p = true → (ownership w).owns p = false

/-- What they hold, and the parts there are. -/
structure Workers (W : Nat) where
  tables : Tables
  buffers : Fin W → Buffers := fun _ => {}
  /-- What a worker that is at a flush has read. -/
  asked : Fin W → Option Tables := fun _ => none
  /-- How many parts a partition has been given at most that no worker had asked for. -/
  extra : Nat := 0

/-- The answers to a flush that asked in these tables. -/
def answers (T : Tables) (h : HypertableId) : Answers where
  maxLiveL0 partitions := .ok (maxLiveL0Parts T h partitions)
  publish _ _ := .ok ()

/-- `Flusher::flush`: the uploads are registered, and the parts committed together with the offset
ranges of the buffers, under the identity of these ranges. -/
def Published (R : RouteIngest) (b : Buffers) (items : List FlushItem) (T T' : Tables) : Prop :=
  ∃ metas pending identity id,
    List.Forall₂ (fun item m => ∃ uuid size,
      m = publishedPart (Gc.partPath R.route.hypertable 0 uuid) item size) items metas ∧
    pending.map PendingRow.path = metas.map PartMeta.path ∧
    ingestIdentity R.out R.route.hypertable (b.offsetRanges R.route.topic) = .ok identity ∧
    Applied { T with pendingObjects := T.pendingObjects ++ pending }
      (commitWithOffsets R.route.hypertable (.add metas) (b.offsetRanges R.route.topic) identity)
      id T'

inductive Move {W : Nat} {h : HypertableId} (G : Group W h) : Workers W → Workers W → Prop where
  /-- A message of a partition of its own. -/
  | receive (s : Workers W) (w : Fin W) (d : Delivery) :
      s.asked w = none → (G.ownership w).owns d.partition = true →
      Move G s { s with buffers := Function.update s.buffers w (bufferMessage (G.task w).out
        (G.task w).config (G.task w).route d.now (s.buffers w) d.payload d.partition d.offset) }
  /-- A worker reads `max_live_l0_parts`. -/
  | ask (s : Workers W) (w : Fin W) : s.asked w = none →
      Move G s { s with asked := Function.update s.asked w (some s.tables) }
  /-- It puts the flush off. -/
  | defer (s : Workers W) (w : Fin W) (T : Tables) (b' : Buffers) : s.asked w = some T →
      (G.task w).flush false (s.buffers w) (answers T h) = .ok (.deferred, b') →
      Move G s
        { s with
          buffers := Function.update s.buffers w b'
          asked := Function.update s.asked w none }
  /-- The commit of a flush that goes through, by a worker that asked in `T`. -/
  | flush (s : Workers W) (w : Fin W) (T T' : Tables) (force : Bool) (b' : Buffers)
      (items : List FlushItem) :
      (G.task w).flush force (s.buffers w) (answers T h) = .ok (.flushed, b') →
      (¬ Unasked (G.task w) force (s.buffers w) → s.asked w = some T) →
      encodeDays (G.task w).reader (G.task w).eval (G.task w).lexsort (G.task w).codec
        (G.task w).cols (G.task w).route (G.task w).sortKey (s.buffers w) = .ok items →
      Published (G.task w) (s.buffers w) items s.tables T' →
      Move G s
        { tables := T'
          buffers := Function.update s.buffers w b'
          asked := Function.update s.asked w none
          extra := s.extra + if Unasked (G.task w) force (s.buffers w) then 1 else 0 }
  /-- A worker is torn down and starts again. -/
  | restart (s : Workers W) (w : Fin W) :
      Move G s
        { s with
          buffers := Function.update s.buffers w {}
          asked := Function.update s.asked w none }
  /-- Whatever else happens to the parts, merges and deletions above all. -/
  | other (s : Workers W) (T' : Tables) (n : Nat) :
      (∀ partition, liveL0 T' h partition ≤ liveL0 s.tables h partition + n) →
      Move G s { s with tables := T', extra := s.extra + n }

theorem ofDay_injective : Function.Injective ofDay := by
  intro d d' heq
  simpa [ofDay] using heq

/-- The items of a flush are its days. -/
theorem items_days {reader : JsonReader} {eval : Expr.Evaluator} {L : Lexsort} {codec : PartCodec}
    {cols : TableColumns} {route : Route} {sortKey : List String} {b : Buffers}
    {items : List FlushItem}
    (hitems : encodeDays reader eval L codec cols route sortKey b = .ok items) :
    items.map FlushItem.partitionValues = b.rowsByDay.keys.map ofDay := by
  have hall := List.mapM_eq_ok_iff.mp hitems
  unfold AList.keys List.keys
  generalize b.rowsByDay.entries = entries at hall
  clear hitems
  induction hall with
  | nil => rfl
  | cons hitem _ ih =>
    obtain ⟨part, -, hpart⟩ := Except.bind_eq_ok_iff.mp hitem
    cases hpart
    rw [List.map_cons, List.map_cons, List.map_cons, ih]
    rfl

/-- What a commit adds to a partition. -/
theorem liveL0_published {R : RouteIngest} {b : Buffers} {items : List FlushItem} {T' : Tables}
    (hpub : Published R b items T T') (partition : Json) :
    liveL0 T' h partition ≤ liveL0 T h partition +
      (items.map FlushItem.partitionValues).count partition := by
  obtain ⟨metas, pending, identity, id, hmetas, -, -, happ⟩ := hpub
  obtain ⟨rows, hparts, hrows⟩ := happ.parts
  have hold : T'.parts = T.parts ++ rows := by
    rw [hparts]
    congr 1
    exact (List.map_congr_left fun p _ => if_neg List.not_mem_nil).trans (List.map_id _)
  have hvalues : metas.map PartMeta.partitionValues = items.map FlushItem.partitionValues := by
    rw [← List.forall₂_eq_eq_eq, List.forall₂_map_left_iff, List.forall₂_map_right_iff]
    refine hmetas.flip.imp ?_
    rintro m item ⟨uuid, size, rfl⟩
    rfl
  have hnew : rows.map (fun p => p.partMeta.partitionValues) =
      items.map FlushItem.partitionValues := by
    rw [← hvalues, ← show rows.map PartRow.partMeta = metas from hrows.metas, List.map_map]
    rfl
  unfold liveL0 Tables.liveParts
  rw [hold, List.filter_append, List.filter_append, List.length_append, ← hnew, List.filter_filter,
    List.count, List.countP_map]
  refine Nat.add_le_add_left ?_ _
  rw [List.filter_filter, ← List.countP_eq_length_filter]
  refine List.countP_mono_left fun p _ hp => ?_
  simp only [Bool.and_eq_true, decide_eq_true_eq] at hp
  simp [hp]

/-- A flush adds at most one part to a partition, and none to a partition it holds no rows of. -/
theorem count_days_le (b : Buffers) (partition : Json) :
    (b.rowsByDay.keys.map ofDay).count partition ≤
      if partition ∈ b.rowsByDay.keys.map ofDay then 1 else 0 := by
  split
  · exact List.nodup_iff_count_le_one.mp (b.rowsByDay.keys_nodup.map ofDay_injective) partition
  · rename_i hout
    exact (List.count_eq_zero.mpr hout).le

/-! ## 3. The bound -/

section Bound

variable {W : Nat} {G : Group W h} {stop : Int} {s s' : Workers W}

/-- The workers that were told to go on with this partition. -/
def told (stop : Int) (h : HypertableId) (partition : Json) (asked : Fin W → Option Tables) :
    Finset (Fin W) :=
  Finset.univ.filter fun w =>
    (asked w).any fun T => decide ((liveL0 T h partition : Int) < stop)

theorem mem_told {asked : Fin W → Option Tables} {w : Fin W} :
    w ∈ told stop h partition asked ↔
      ∃ T, asked w = some T ∧ (liveL0 T h partition : Int) < stop := by
  simp [told, Option.any_eq_true]

theorem told_update_none (asked : Fin W → Option Tables) (w : Fin W) :
    told stop h partition (Function.update asked w none) =
      (told stop h partition asked).erase w := by
  ext v
  rw [Finset.mem_erase, mem_told, mem_told]
  by_cases hv : v = w
  · subst hv
    simp
  · simp [hv]

/-- The parts there are, and those that are on their way, are within the bound. -/
def Within (stop most : Int) (h : HypertableId) (partition : Json) (s : Workers W) : Prop :=
  (liveL0 s.tables h partition : Int) + (told stop h partition s.asked).card ≤
    max most (stop - 1 + W) + s.extra

/-- **One move keeps within the bound.** -/
theorem Within.step {most : Int} (hstop : ∀ w, asI64 (G.task w).limits.l0StopParts.toNat ≤ stop)
    (hw : Within stop most h partition s) (hmove : Move G s s') :
    Within stop most h partition s' := by
  -- a worker that gives up its flush is told no more
  have hfewer : ∀ w, Within stop most h partition
      { s with asked := Function.update s.asked w none } := by
    intro w
    unfold Within at hw ⊢
    have hsub := Finset.card_le_card (Finset.erase_subset w (told stop h partition s.asked))
    rw [told_update_none]
    dsimp only at hw ⊢
    omega
  cases hmove with
  | receive w d => exact hw
  | defer w T b' => exact hfewer w
  | restart w => exact hfewer w
  | ask w =>
    unfold Within at hw ⊢
    dsimp only at hw ⊢
    by_cases hlow : (liveL0 s.tables h partition : Int) < stop
    · -- whoever may go on, there are no more than the workers
      have hall := card_finset_fin_le
        (told stop h partition (Function.update s.asked w (some s.tables)))
      have := le_max_right most (stop - 1 + W)
      omega
    · have hsub : told stop h partition (Function.update s.asked w (some s.tables)) ⊆
          told stop h partition s.asked := by
        intro v hv
        obtain ⟨T, hT, hlt⟩ := mem_told.mp hv
        by_cases hvw : v = w
        · subst hvw
          rw [Function.update_self, Option.some.injEq] at hT
          exact absurd (hT ▸ hlt) hlow
        · rw [Function.update_of_ne hvw] at hT
          exact mem_told.mpr ⟨T, hT, hlt⟩
      have := Finset.card_le_card hsub
      omega
  | flush w T T' force b' items hflush hasked hitems hpub =>
    unfold Within at hw ⊢
    dsimp only at hw ⊢
    have hadd := liveL0_published (h := h) hpub partition
    rw [items_days hitems] at hadd
    replace hadd := hadd.trans (Nat.add_le_add_left (count_days_le (s.buffers w) partition) _)
    have hsub := Finset.card_le_card (Finset.erase_subset w (told stop h partition s.asked))
    rw [told_update_none]
    by_cases hun : Unasked (G.task w) force (s.buffers w)
    · rw [if_pos hun]
      split at hadd <;> omega
    · rw [if_neg hun]
      by_cases hday : partition ∈ (s.buffers w).rowsByDay.keys.map ofDay
      · -- the worker was told of this partition, and no longer counts as one that may go on
        have hrows : (s.buffers w).rowsByDay.entries ≠ [] := by
          intro hnil
          simp [AList.keys, List.keys, hnil] at hday
        obtain ⟨maxLive, hlive, hlt⟩ := flush_told hflush hun hrows
        have hle : (liveL0 T h partition : Int) ≤ maxLive := by
          have hmax : maxLiveL0Parts T h ((s.buffers w).rowsByDay.keys.map ofDay) = maxLive :=
            Except.ok.inj hlive
          have hself := (maxLiveL0Parts_le_iff
            (maxLiveL0Parts_nonneg T h ((s.buffers w).rowsByDay.keys.map ofDay))).mp le_rfl
          exact hmax ▸ hself partition hday
        have hmem : w ∈ told stop h partition s.asked :=
          mem_told.mpr ⟨T, hasked hun, hle.trans_lt (hlt.trans_le (hstop w))⟩
        have := Finset.card_erase_add_one hmem
        rw [if_pos hday] at hadd
        omega
      · rw [if_neg hday] at hadd
        omega
  | other T' n hmore =>
    unfold Within at hw ⊢
    dsimp only at hw ⊢
    have := hmore partition
    omega

/-- **What backpressure bounds.**  However the workers of a hypertable take turns with each other
and with the rest of the system: besides the parts that nobody asked for, a partition has no more
live L0 parts than it had at first, or than one less than the stop threshold and one for each
worker. -/
theorem l0_bounded (hstop : ∀ w, asI64 (G.task w).limits.l0StopParts.toNat ≤ stop) {T : Tables}
    (hreach : Relation.ReflTransGen (Move G) { tables := T } s) (partition : Json) :
    (liveL0 s.tables h partition : Int) ≤
      max (liveL0 T h partition : Int) (stop - 1 + W) + s.extra := by
  have hwithin : Within stop (liveL0 T h partition) h partition s := by
    induction hreach with
    | refl =>
      unfold Within
      have hnone : told stop h partition (fun _ : Fin W => none) = ∅ := by
        simp [told]
      have := le_max_left (liveL0 T h partition : Int) (stop - 1 + W)
      simp only [hnone, Finset.card_empty]
      omega
    | tail _ hmove ih => exact ih.step hstop hmove
  unfold Within at hwithin
  omega

end Bound

/-! ## 4. The bound is reached -/

/-- The last bytes of what is hashed: they tell the identities of the workers below apart. -/
def lastBytes (bytes : List UInt8) : Digest := bytes.drop (bytes.length - 32)

/-- A worker with this stop threshold. -/
def pressed (stop : UInt64) : RouteIngest :=
  { RouteIngest.originTask with
    out := { originOutside with hash := lastBytes }
    limits := ⟨1000, stop, stop⟩
    route := { originRoute with hypertable := 1 } }

/-- So many workers of one topic, with a partition each. -/
def pressedGroup (stop : UInt64) (W : Nat) : Group W 1 where
  task _ := pressed stop
  ownership w := .subset [(w.val : Int)]
  routed _ := rfl
  apart v w hne _ p hv := by
    simp only [Ownership.owns, List.mem_singleton, decide_eq_true_eq] at hv
    simp only [Ownership.owns, List.mem_singleton, decide_eq_false_iff_not]
    intro hw
    exact hne (Fin.ext (Int.ofNat_inj.mp (hv.symm.trans hw)))

/-- A message at a place of the topic. -/
def message (d : Nat × Nat) : Delivery := ⟨d.1, d.2, some textMessage, 2000⟩

/-- What a worker holds after it. -/
def oneMessage (d : Nat × Nat) : Buffers where
  rowsByDay := (∅ : AList fun _ : String => List Json).insert "1970-01-01"
    [originRow (.str "eu") 1 1000]
  ranges := (∅ : AList fun _ : Int => Int × Int).insert d.1 (d.2, d.2)
  totalRows := 1
  maxEventTsMs := some 1000

def firstDay : Json := ofDay "1970-01-01"

theorem bufferMessage_oneMessage (stop : UInt64) (d : Nat × Nat) :
    bufferMessage (pressed stop).out (pressed stop).config (pressed stop).route (message d).now {}
      (message d).payload (message d).partition (message d).offset = oneMessage d := by
  have hadmitted : admitted (pressed stop).out (pressed stop).config (pressed stop).route 2000
      (some textMessage) = some ("1970-01-01", 1000, originRow (.str "eu") 1 1000) := by
    show admitted originOutside ⟨7, 3600⟩ originRoute 2000 (some textMessage) = _
    decide +kernel
  rw [bufferMessage_eq, show (message d).now = 2000 from rfl,
    show (message d).payload = some textMessage from rfl, hadmitted]
  rfl

theorem oneMessage_encodes (stop : UInt64) : ∃ part, ∀ d,
    encodeDays (pressed stop).reader (pressed stop).eval (pressed stop).lexsort
      (pressed stop).codec (pressed stop).cols (pressed stop).route (pressed stop).sortKey
      (oneMessage d) = .ok [⟨firstDay, part⟩] :=
  ⟨_, fun _ => rfl⟩

theorem oneMessage_asked (stop : UInt64) (d : Nat × Nat) :
    ¬ Unasked (pressed stop) false (oneMessage d) := by
  rintro (hforce | hvalve)
  · cases hforce
  · have hcap : (pressed stop).limits.maxBufferRows.toNat = 1000 := rfl
    rw [show (oneMessage d).totalRows = 1 from rfl, hcap] at hvalve
    omega

/-- Told that there are few enough parts, it flushes. -/
theorem pressed_flush {stop : UInt64} (d : Nat × Nat)
    (hlow : maxLiveL0Parts T 1 [firstDay] < asI64 stop.toNat) :
    (pressed stop).flush false (oneMessage d) (answers T 1) = .ok (.flushed, {}) := by
  have hdays : (oneMessage d).rowsByDay.keys.map (fun day => Json.obj [("day", .str day)]) =
      [firstDay] := rfl
  obtain ⟨part, hpart⟩ := oneMessage_encodes stop
  have hvalve := (not_or.mp (oneMessage_asked stop d)).2
  have hstop : ¬ asI64 (pressed stop).limits.l0StopParts.toNat ≤ maxLiveL0Parts T 1 [firstDay] :=
    not_le.mpr hlow
  have hslow : ¬ (asI64 (pressed stop).limits.l0SlowdownParts.toNat ≤
      maxLiveL0Parts T 1 [firstDay] ∧ (oneMessage d).deferredFlushes = 0) :=
    fun hslow => hstop hslow.1
  have hgo : flushDecision (maxLiveL0Parts T 1 [firstDay]) (oneMessage d).deferredFlushes
      (oneMessage d).totalRows (pressed stop).limits = .flush := by
    rw [flushDecision, if_neg hvalve, if_neg hstop, if_neg hslow]
  have hranges : (oneMessage d).ranges.entries ≠ [] := List.cons_ne_nil _ _
  have hrows : (oneMessage d).rowsByDay.entries ≠ [] := List.cons_ne_nil _ _
  unfold RouteIngest.flush
  rw [if_neg hranges, if_pos ⟨rfl, hrows⟩, hdays]
  simp only [answers, hgo, RouteIngest.commit, hpart]
  rfl

/-! ### The identities -/

/-- The range of one message. -/
def rangeOf (d : Nat × Nat) : OffsetRange := ⟨"t", d.1, d.2, d.2⟩

/-- What is hashed of it, after what is the same for all messages. -/
def rangeBytes (d : Nat × Nat) : List UInt8 :=
  Canonical.int d.1 ++ (Canonical.int d.2 ++ Canonical.int d.2)

def digestOf (d : Nat × Nat) : Digest :=
  lastBytes (canonicalBytes "ingest" 1 1
    (ingestBody (ingestRanges [rangeOf d]) ingestTransformationVersion))

def identityOf (d : Nat × Nat) : OperationIdentity :=
  ⟨1, operationKey "ingest" 1 (digestOf d), digestOf d⟩

theorem length_rangeBytes (d : Nat × Nat) : (rangeBytes d).length = 27 := by
  simp [rangeBytes, Canonical.int, length_beBytes]

/-- A place that a partition and an offset of Kafka can be. -/
structure OnKafka (d : Nat × Nat) : Prop where
  partition : d.1 < 2 ^ 31
  offset : d.2 < 2 ^ 63

theorem OnKafka.mem {d : Nat × Nat} (h : OnKafka d) : (d.1 : Int) ∈ I64 ∧ (d.2 : Int) ∈ I64 := by
  obtain ⟨hpartition, hoffset⟩ := h
  show (-2 ^ 63 ≤ (d.1 : Int) ∧ (d.1 : Int) < 2 ^ 63) ∧ -2 ^ 63 ≤ (d.2 : Int) ∧ (d.2 : Int) < 2 ^ 63
  omega

theorem rangeBytes_injOn : Set.InjOn rangeBytes {d | OnKafka d} := by
  intro d hd d' hd' heq
  obtain ⟨hp, ho⟩ := OnKafka.mem hd
  obtain ⟨hp', ho'⟩ := OnKafka.mem hd'
  obtain ⟨hpartition, hrest⟩ := Canonical.prefixCode_int _ hp _ hp' _ _ heq
  have hoffset := (Canonical.prefixCode_int _ ho _ ho' _ _ hrest).1
  exact Prod.ext (Int.ofNat_inj.mp hpartition) (Int.ofNat_inj.mp hoffset)

/-- The digest is the end of what is hashed. -/
theorem digestOf_eq : ∃ start : List UInt8, start.length = 5 ∧
    ∀ d, digestOf d = start ++ rangeBytes d := by
  -- what is the same for all messages
  set same : List UInt8 := Canonical.str "ukiel" ++ (Canonical.str "ingest" ++ (Canonical.int 1 ++
    (Canonical.int 1 ++ (Canonical.int 1 ++ ([0x04] ++ (Canonical.len 1 ++ Canonical.str "t"))))))
    with hsame
  have hlen : same.length = 75 := by decide +kernel
  refine ⟨same.drop 70, by rw [List.length_drop, hlen], fun d => ?_⟩
  have hbytes : canonicalBytes "ingest" 1 1
      (ingestBody (ingestRanges [rangeOf d]) ingestTransformationVersion) =
      same ++ rangeBytes d := by
    simp [canonicalBytes, ingestBody, ingestRanges, Canonical.list, rangeOf, rangeBytes, hsame,
      ingestTransformationVersion]
  rw [digestOf, lastBytes, hbytes, List.length_append, hlen, length_rangeBytes,
    List.drop_append_of_le_length (by rw [hlen]; decide)]

theorem length_digestOf (d : Nat × Nat) : (digestOf d).length = 32 := by
  obtain ⟨start, hstart, hdigest⟩ := digestOf_eq
  rw [hdigest, List.length_append, hstart, length_rangeBytes]

/-- **Different places, different keys.** -/
theorem key_injOn : Set.InjOn (fun d => (identityOf d).key) {d | OnKafka d} := by
  intro d hd d' hd' hkey
  obtain ⟨start, -, hdigest⟩ := digestOf_eq
  have hhex := hex_injective ((String.append_right_inj _).mp hkey)
  rw [hdigest, hdigest] at hhex
  exact rangeBytes_injOn hd hd' (List.append_cancel_left hhex)

theorem utf8_append (s t : String) : utf8 (s ++ t) = utf8 s ++ utf8 t := by
  unfold utf8
  rw [String.toByteArray_append, ByteArray.data_append, Array.toList_append]

/-- A text of digits has a byte for each. -/
theorem length_utf8_hex (bytes : Digest) : (utf8 (hex bytes)).length = 2 * bytes.length := by
  have hsize : (utf8 (hex bytes)).length = String.utf8Len (hex bytes).toList := by
    rw [String.utf8Len_toList, utf8, Array.length_toList]
    rfl
  have hdigit : ∀ m < 16, (Nat.digitChar m).utf8Size = 1 := by decide
  rw [hsize, hex, String.toList_ofList]
  clear hsize
  induction bytes with
  | nil => rfl
  | cons b bytes ih =>
    have hlt := b.toNat_lt
    rw [List.flatMap_cons, String.utf8Len_append, ih, List.length_cons]
    simp only [String.utf8Len_cons, String.utf8Len_nil]
    rw [hdigit (b.toNat / 16) (by omega), hdigit (b.toNat % 16) (by omega)]
    omega

theorem canonicalRanges_one (d : Nat × Nat) :
    canonicalRanges (ingestRanges [rangeOf d]) = .ok (ingestRanges [rangeOf d]) := by
  refine canonicalRanges_eq_ok_iff.mpr
    ⟨⟨List.cons_ne_nil _ _, ?_, List.pairwise_singleton _ _⟩, rfl⟩
  intro r hr
  obtain rfl := List.mem_singleton.mp hr
  exact ⟨(by decide : "t" ≠ ""), le_rfl⟩

/-- The key fits its column. -/
theorem length_key (digest : Digest) (h : digest.length = 32) :
    (utf8 (operationKey "ingest" 1 digest)).length ≤ maxOperationKeyLen := by
  have hstart : (utf8 ("ukiel/" ++ "ingest" ++ "/v" ++ toString 1 ++ "/")).length = 16 := by
    decide +kernel
  unfold operationKey
  rw [utf8_append, List.length_append, hstart, length_utf8_hex, h]
  decide

theorem finish_lastBytes (body : List UInt8) {digest : Digest}
    (hdigest : lastBytes (canonicalBytes "ingest" 1 1 body) = digest) (h : digest.length = 32) :
    finish lastBytes 1 "ingest" 1 body = .ok ⟨1, operationKey "ingest" 1 digest, digest⟩ := by
  subst hdigest
  unfold finish
  simp only
  exact if_neg (not_lt.mpr (length_key _ h))

theorem ingestIdentity_eq (stop : UInt64) (d : Nat × Nat) :
    ingestIdentity (pressed stop).out 1 [rangeOf d] = .ok (identityOf d) := by
  have hdigest : lastBytes (canonicalBytes "ingest" 1 1
      (ingestBody (ingestRanges [rangeOf d]) ingestTransformationVersion)) = digestOf d := rfl
  have hfinish := finish_lastBytes _ hdigest (length_digestOf d)
  unfold ingestIdentity OperationIdentity.ingest
  rw [canonicalRanges_one]
  simp only [bind, Except.bind]
  exact hfinish

/-! ### The run -/

/-- The part of one of the flushes. -/
def dayMeta (part : EncodedPart) (n : Nat) : PartMeta :=
  publishedPart (Gc.partPath 1 0 (String.ofList (List.replicate n 'u'))) ⟨firstDay, part⟩ 1000

def dayCall (part : EncodedPart) (n : Nat) (d : Nat × Nat) : Call :=
  commitWithOffsets 1 (.add [dayMeta part n]) [rangeOf d] (identityOf d)

/-- The catalog after flushes of one message each, of which the last comes first. -/
def flushedTables (part : EncodedPart) : List (Nat × Nat) → Tables
  | [] => {}
  | d :: done =>
    { flushedTables part done with
      commits := (flushedTables part done).commits ++
        [(dayCall part done.length d).commitRow (done.length + 1 : Nat) 0]
      parts := (flushedTables part done).parts ++
        [⟨(done.length + 1 : Nat), 1, dayMeta part done.length, (done.length + 1 : Nat), none,
          none⟩]
      ingestOffsets := Function.update (flushedTables part done).ingestOffsets ⟨1, "t", d.1⟩
        (some (d.2 + 1)) }

/-- It comes after all that were flushed of its partition. -/
def Fresh (done : List (Nat × Nat)) (d : Nat × Nat) : Prop :=
  ∀ d' ∈ done, d'.1 = d.1 → d'.2 < d.2

section Overshoot

variable {part : EncodedPart} {done : List (Nat × Nat)} {d : Nat × Nat}

theorem liveL0_flushedTables (part : EncodedPart) (done : List (Nat × Nat)) :
    liveL0 (flushedTables part done) 1 firstDay = done.length := by
  unfold liveL0 Tables.liveParts
  induction done with
  | nil => rfl
  | cons d done ih =>
    rw [flushedTables, List.filter_append, List.filter_append, List.length_append, ih]
    rfl

theorem pendingObjects_flushedTables : (flushedTables part done).pendingObjects = [] := by
  induction done with
  | nil => rfl
  | cons d done ih => exact ih

theorem commits_flushedTables : ∀ r ∈ (flushedTables part done).commits,
    ∃ d ∈ done, r.idempotencyKey = some (identityOf d).key := by
  induction done with
  | nil => simp [flushedTables]
  | cons d done ih =>
    intro r hr
    rcases List.mem_append.mp hr with hr | hr
    · obtain ⟨d', hd', hkey⟩ := ih r hr
      exact ⟨d', List.mem_cons_of_mem d hd', hkey⟩
    · obtain rfl := List.mem_singleton.mp hr
      exact ⟨d, List.mem_cons_self, rfl⟩

theorem ingestOffsets_flushedTables (hfresh : Fresh done d) :
    ((flushedTables part done).ingestOffsets ⟨1, "t", d.1⟩).all fun next => next ≤ (d.2 : Int) := by
  induction done with
  | nil => rfl
  | cons d' done ih =>
    show (Function.update (flushedTables part done).ingestOffsets ⟨1, "t", d'.1⟩
      (some (d'.2 + 1 : Int)) ⟨1, "t", d.1⟩).all _ = true
    by_cases hsame : d'.1 = d.1
    · rw [hsame, Function.update_self]
      have := hfresh d' List.mem_cons_self hsame
      exact decide_eq_true (by omega)
    · rw [Function.update_of_ne (by simp only [ne_eq, OffsetKey.mk.injEq]; omega)]
      exact ih fun d'' h'' => hfresh d'' (List.mem_cons_of_mem d' h'')

/-- **One more flush**, as the catalog commits it. -/
theorem published_message (stop : UInt64) (hdone : ∀ d' ∈ done, OnKafka d') (hd : OnKafka d)
    (hfresh : Fresh done d) :
    Published (pressed stop) (oneMessage d) [⟨firstDay, part⟩] (flushedTables part done)
      (flushedTables part (d :: done)) := by
  refine ⟨[dayMeta part done.length], [⟨1, (dayMeta part done.length).path, 0⟩], identityOf d,
    (done.length + 1 : Nat), .cons ⟨_, _, rfl⟩ .nil, rfl, ingestIdentity_eq stop d, ?_⟩
  exact
    { key_free := by
        rintro r hr ⟨-, i, hi, hkey⟩
        obtain rfl := Option.some.inj hi
        obtain ⟨d', hd', hkey'⟩ := commits_flushedTables r hr
        have hsame := key_injOn hd (hdone d' hd') (Option.some.inj (hkey.symm.trans hkey'))
        subst hsame
        exact lt_irrefl _ (hfresh d hd' rfl)
      old_matched := by simp [liveMatched, commitWithOffsets, CommitOp.oldParts]
      fenced := by
        rintro lease ⟨⟩
      commits := ⟨0, rfl⟩
      parts := by
        refine ⟨[⟨(done.length + 1 : Nat), 1, dayMeta part done.length, (done.length + 1 : Nat),
          none, none⟩], ?_, rfl, by simp [commitWithOffsets, pressed]⟩
        rw [flushedTables]
        simp [tombstoneParts, commitWithOffsets, CommitOp.oldParts]
      pending := by
        rw [pendingObjects_flushedTables, pendingObjects_flushedTables]
        simp [commitWithOffsets, CommitOp.newParts]
      offsets := (if_pos (ingestOffsets_flushedTables hfresh)).trans rfl
      leases := rfl
      cursors := rfl }

variable {W : Nat} {stop : UInt64} {s : Workers W} {T : Tables}

theorem receive_message (stop : UInt64) (w : Fin W) (o : Nat) (hheld : s.buffers w = {})
    (hasked : s.asked w = none) :
    Move (pressedGroup stop W) s
      { s with buffers := Function.update s.buffers w (oneMessage (w.val, o)) } := by
  have hmove := Move.receive (G := pressedGroup stop W) s w (message (w.val, o)) hasked
    (decide_eq_true (List.mem_singleton_self _))
  rw [hheld] at hmove
  exact (bufferMessage_oneMessage stop (w.val, o)) ▸ hmove

/-- A worker that was told of fewer parts than the threshold commits its message. -/
theorem flush_message (hlt : stop.toNat < 2 ^ 63)
    (hpart : ∀ d, encodeDays (pressed stop).reader (pressed stop).eval (pressed stop).lexsort
      (pressed stop).codec (pressed stop).cols (pressed stop).route (pressed stop).sortKey
      (oneMessage d) = .ok [⟨firstDay, part⟩])
    (hdone : ∀ d' ∈ done, OnKafka d') (hd : OnKafka d) (hfresh : Fresh done d)
    (htables : s.tables = flushedTables part done) (w : Fin W) (hheld : s.buffers w = oneMessage d)
    (hasked : s.asked w = some T) (hlow : liveL0 T 1 firstDay < stop.toNat) :
    Move (pressedGroup stop W) s
      { tables := flushedTables part (d :: done)
        buffers := Function.update s.buffers w {}
        asked := Function.update s.asked w none
        extra := s.extra } := by
  have hfew : maxLiveL0Parts T 1 [firstDay] < asI64 stop.toNat := by
    have hle : maxLiveL0Parts T 1 [firstDay] ≤ (stop.toNat - 1 : Nat) := by
      refine (maxLiveL0Parts_le_iff (Int.natCast_nonneg _)).mpr fun partition hmem => ?_
      rw [List.mem_singleton.mp hmem]
      omega
    rw [asI64_of_lt hlt]
    omega
  have hmove := Move.flush (G := pressedGroup stop W) s w T (flushedTables part (d :: done)) false
    {} [⟨firstDay, part⟩] (hheld ▸ pressed_flush d hfew) (fun _ => hasked) (hheld ▸ hpart d)
    (hheld ▸ htables ▸ published_message stop hdone hd hfresh)
  have hasks : ¬ Unasked ((pressedGroup stop W).task w) false (s.buffers w) :=
    hheld ▸ oneMessage_asked stop d
  rw [if_neg hasks] at hmove
  exact hmove

/-- One after the other, up to the threshold. -/
def early : Nat → List (Nat × Nat)
  | 0 => []
  | n + 1 => (0, n) :: early n

/-- Where the message is that the worker has when all have asked. -/
def place (n w : Nat) : Nat × Nat := (w, if w = 0 then n else 0)

def late (n : Nat) : Nat → List (Nat × Nat)
  | 0 => early n
  | k + 1 => place n k :: late n k

theorem mem_early {n : Nat} : d ∈ early n ↔ d.1 = 0 ∧ d.2 < n := by
  induction n with
  | zero => simp [early]
  | succ n ih =>
    rw [early, List.mem_cons, ih, Prod.ext_iff]
    simp only
    omega

theorem length_early (n : Nat) : (early n).length = n := by
  induction n with
  | zero => rfl
  | succ n ih => rw [early, List.length_cons, ih]

theorem mem_late {n k : Nat} : d ∈ late n k ↔ d ∈ early n ∨ ∃ j < k, d = place n j := by
  induction k with
  | zero => simp [late]
  | succ k ih =>
    rw [late, List.mem_cons, ih]
    constructor
    · rintro (rfl | hd | ⟨j, hj, rfl⟩)
      · exact Or.inr ⟨k, by omega, rfl⟩
      · exact Or.inl hd
      · exact Or.inr ⟨j, by omega, rfl⟩
    · rintro (hd | ⟨j, hj, rfl⟩)
      · exact Or.inr (Or.inl hd)
      · rcases Nat.lt_succ_iff_lt_or_eq.mp hj with hj | rfl
        · exact Or.inr (Or.inr ⟨j, hj, rfl⟩)
        · exact Or.inl rfl

theorem length_late (n k : Nat) : (late n k).length = n + k := by
  induction k with
  | zero => exact length_early n
  | succ k ih => rw [late, List.length_cons, ih, Nat.add_assoc]

theorem onKafka_early {n : Nat} (hn : n < 2 ^ 63) (hd : d ∈ early n) : OnKafka d := by
  obtain ⟨hp, ho⟩ := mem_early.mp hd
  exact ⟨by omega, by omega⟩

theorem onKafka_place {n w : Nat} (hn : n < 2 ^ 63) (hw : w < 2 ^ 31) : OnKafka (place n w) := by
  refine ⟨hw, ?_⟩
  unfold place
  dsimp only
  split <;> omega

theorem fresh_early (n : Nat) : Fresh (early n) (0, n) := fun _ hd _ => (mem_early.mp hd).2

theorem fresh_place (n k : Nat) : Fresh (late n k) (place n k) := by
  intro d hd hsame
  rcases mem_late.mp hd with hd | ⟨j, hj, rfl⟩
  · obtain ⟨hp, ho⟩ := mem_early.mp hd
    have hk : k = 0 := hsame.symm.trans hp
    rw [place, if_pos hk]
    exact ho
  · have hjk : j = k := hsame
    omega

/-- One worker after the other. -/
theorem update_below {α : Type} {k : Nat} (hk : k < W) (f g : Fin W → α) :
    Function.update (fun w : Fin W => if w.val < k then f w else g w) ⟨k, hk⟩ (f ⟨k, hk⟩) =
      fun w => if w.val < k + 1 then f w else g w := by
  funext w
  by_cases hw : w = ⟨k, hk⟩
  · subst hw
    simp
  · have hne : w.val ≠ k := fun heq => hw (Fin.ext heq)
    rw [Function.update_of_ne hw]
    congr 1
    exact propext (by omega)

theorem reaches_of_steps {α : Type} {r : α → α → Prop} {n : Nat} (f : Nat → α)
    (hstep : ∀ k < n, Relation.ReflTransGen r (f k) (f (k + 1))) :
    ∀ k ≤ n, Relation.ReflTransGen r (f 0) (f k)
  | 0, _ => .refl
  | k + 1, hk => (reaches_of_steps f hstep k (by omega)).trans (hstep k (by omega))

/-- The first `k` of the workers hold a message and have asked. -/
def asking (part : EncodedPart) (n k : Nat) : Workers W where
  tables := flushedTables part (early n)
  buffers w := if w.val < k then oneMessage (place n w) else {}
  asked w := if w.val < k then some (flushedTables part (early n)) else none

/-- All of them had asked, and the first `k` have committed since. -/
def flushing (part : EncodedPart) (n k : Nat) : Workers W where
  tables := flushedTables part (late n k)
  buffers w := if w.val < k then {} else oneMessage (place n w)
  asked w := if w.val < k then none else some (flushedTables part (early n))

/-- A worker alone receives, asks and flushes. -/
theorem early_step (hlt : stop.toNat < 2 ^ 63)
    (hpart : ∀ d, encodeDays (pressed stop).reader (pressed stop).eval (pressed stop).lexsort
      (pressed stop).codec (pressed stop).cols (pressed stop).route (pressed stop).sortKey
      (oneMessage d) = .ok [⟨firstDay, part⟩]) (hW : 0 < W) {n : Nat} (hn : n < stop.toNat) :
    Relation.ReflTransGen (Move (pressedGroup stop W))
      { tables := flushedTables part (early n) } { tables := flushedTables part (early (n + 1)) } := by
  have hreceive := receive_message stop
    (s := ({ tables := flushedTables part (early n) } : Workers W)) ⟨0, hW⟩ n rfl rfl
  refine .head hreceive (.head (.ask _ ⟨0, hW⟩ rfl) (.single ?_))
  have hflush := flush_message (d := (0, n)) hlt hpart
    (fun d (hd : d ∈ early n) => onKafka_early (by omega) hd)
    ⟨by simp only; omega, by simp only; omega⟩
    (fresh_early n) (T := flushedTables part (early n))
    (s := ({ tables := flushedTables part (early n)
             buffers := Function.update (fun _ => {}) ⟨0, hW⟩ (oneMessage (0, n))
             asked := Function.update (fun _ => none) ⟨0, hW⟩
               (some (flushedTables part (early n))) } : Workers W))
    rfl ⟨0, hW⟩ (by simp) (by simp)
    (by rw [liveL0_flushedTables, length_early]; exact hn)
  rw [Function.update_idem, Function.update_idem, Function.update_eq_self_iff.mpr rfl,
    Function.update_eq_self_iff.mpr rfl] at hflush
  exact hflush

theorem asking_step (stop : UInt64) (part : EncodedPart) {n k : Nat} (hk : k < W) :
    Relation.ReflTransGen (Move (pressedGroup stop W)) (asking part n k)
      (asking part n (k + 1)) := by
  have hnone : ¬ k < k := lt_irrefl k
  have hreceive := receive_message stop (s := (asking part n k : Workers W)) ⟨k, hk⟩
    (place n k).2 (if_neg hnone) (if_neg hnone)
  refine .head hreceive (.single ?_)
  have hask := Move.ask (G := pressedGroup stop W)
    { (asking part n k : Workers W) with
      buffers := Function.update (asking part n k : Workers W).buffers ⟨k, hk⟩
        (oneMessage (k, (place n k).2)) } ⟨k, hk⟩ (if_neg hnone)
  unfold asking at hask ⊢
  rw [← update_below hk (fun w : Fin W => oneMessage (place n w)) fun _ => {},
    ← update_below hk (fun _ : Fin W => some (flushedTables part (early n))) fun _ => none]
  exact hask

theorem flushing_step (hlt : stop.toNat < 2 ^ 63)
    (hpart : ∀ d, encodeDays (pressed stop).reader (pressed stop).eval (pressed stop).lexsort
      (pressed stop).codec (pressed stop).cols (pressed stop).route (pressed stop).sortKey
      (oneMessage d) = .ok [⟨firstDay, part⟩]) (hmax : W ≤ 2 ^ 31) {n k : Nat} (hn : n < stop.toNat)
    (hk : k < W) :
    Move (pressedGroup stop W) (flushing part n k) (flushing part n (k + 1)) := by
  have hnone : ¬ k < k := lt_irrefl k
  have hflush := flush_message (d := place n k) hlt hpart
    (fun d (hd : d ∈ late n k) => ?_)
    (onKafka_place (by omega) (by omega)) (fresh_place n k) (s := (flushing part n k : Workers W))
    (T := flushedTables part (early n)) rfl ⟨k, hk⟩ (if_neg hnone) (if_neg hnone)
    (by rw [liveL0_flushedTables, length_early]; exact hn)
  · unfold flushing at hflush ⊢
    rw [← update_below hk (fun _ : Fin W => ({} : Buffers)) fun w => oneMessage (place n w),
      ← update_below hk (fun _ : Fin W => (none : Option Tables)) fun _ => some _]
    exact hflush
  · rcases mem_late.mp hd with hd | ⟨j, hj, rfl⟩
    · exact onKafka_early (by omega) hd
    · exact onKafka_place (by omega) (by omega)

/-- **Every worker may overshoot.**  From an empty table they flush up to the threshold; all of them
ask while there is room for one part more, and then all of them commit. -/
theorem all_overshoot (hpos : 0 < stop.toNat) (hlt : stop.toNat < 2 ^ 63) (hW : 0 < W)
    (hmax : W ≤ 2 ^ 31) :
    ∃ s : Workers W, Relation.ReflTransGen (Move (pressedGroup stop W)) { tables := {} } s ∧
      s.extra = 0 ∧ liveL0 s.tables 1 firstDay = stop.toNat - 1 + W := by
  obtain ⟨part, hpart⟩ := oneMessage_encodes stop
  have hearly := reaches_of_steps
    (fun n => ({ tables := flushedTables part (early n) } : Workers W))
    (fun n (hn : n < stop.toNat - 1) => early_step hlt hpart hW (by omega)) _ le_rfl
  have hask := reaches_of_steps (fun k => (asking part (stop.toNat - 1) k : Workers W))
    (fun k (hk : k < W) => asking_step stop part hk) W le_rfl
  have hflush := reaches_of_steps (fun k => (flushing part (stop.toNat - 1) k : Workers W))
    (fun k (hk : k < W) => .single (flushing_step hlt hpart hmax (by omega) hk)) W le_rfl
  have hfirst : (asking part (stop.toNat - 1) 0 : Workers W) =
      { tables := flushedTables part (early (stop.toNat - 1)) } := by
    simp [asking]
  have hbetween : (asking part (stop.toNat - 1) W : Workers W) =
      flushing part (stop.toNat - 1) 0 := by
    unfold asking flushing
    simp [late]
  rw [hfirst, hbetween] at hask
  refine ⟨_, hearly.trans (hask.trans hflush), rfl, ?_⟩
  exact (liveL0_flushedTables part _).trans (length_late _ _)

end Overshoot

/-- Whatever the workers of a hypertable, with this stop threshold, and the rest of the system do: a
partition that was below the threshold has no more than so many live L0 parts, and those that
nobody asked for. -/
def Bounds (W : Nat) (stop : UInt64) (bound : Int) : Prop :=
  ∀ (h : HypertableId) (G : Group W h) (T : Tables) (partition : Json) (s : Workers W),
    (∀ w, (G.task w).limits.l0StopParts = stop) → liveL0 T h partition < stop.toNat →
    Relation.ReflTransGen (Move G) { tables := T } s →
    (liveL0 s.tables h partition : Int) ≤ bound + s.extra

end Ukiel.Ingest.Pressure
