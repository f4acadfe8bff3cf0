/-
# What is committed together

`eligible_level` counts the commits of a level for its runs: "parts committed together form one
key-disjoint run".  A flush makes one part for a partition, and a merge cuts its files from one
sorted stream, so that they keep to this.  A deletion rewrites whatever parts have the key in their
range, and commits them together.

* `runs_ordered`: in every run whose deletions rewrite no two parts of one partition and level that
  come from two commits and leave keys that interleave, and whose views write no two partitions that
  the catalog takes for one and whose keys interleave, what is committed together is a run.
* `deletion_breaks_run`: two flushes and one deletion, and it is none.
-/
import Ukiel.Ingest.Flush
import Ukiel.Query.Erasure
import Ukiel.Write.Partitions

namespace Ukiel.Query
open Ukiel.Catalog Ukiel.Compactor Ukiel.Expr Ukiel.Write
open scoped List

variable {H : Warehouse}

/-! ## 1. Key ranges side by side -/

/-- Of one partition, as the catalog compares them, and of one level. -/
def Alike (m m' : PartMeta) : Prop :=
  m.level = m'.level ∧ Json.jsonbEq m.partitionValues m'.partitionValues = true

/-- The key ranges have no more than an end in common. -/
def Abut (m m' : PartMeta) : Prop :=
  m.packingKeyMax ≤ m'.packingKeyMin ∨ m'.packingKeyMax ≤ m.packingKeyMin

/-- The parts of one commit, where those of one partition and level abut. -/
def InRuns (metas : List PartMeta) : Prop := metas.Pairwise fun m m' => Alike m m' → Abut m m'

/-- No key of the ones is greater than a key of the others. -/
def KeysBelow (H : Warehouse) (A B : Set (Row H.schema)) : Prop :=
  ∀ r ∈ A, ∀ r' ∈ B, ∀ k ∈ packingKeyOf H.ht.packingKey r,
    ∀ k' ∈ packingKeyOf H.ht.packingKey r', k.val ≤ k'.val

/-- **The keys of the rows do not interleave**: those of the ones go up to those of the others. -/
def KeysApart (H : Warehouse) (A B : Set (Row H.schema)) : Prop :=
  KeysBelow H A B ∨ KeysBelow H B A

/-- Every key of the ones is a key of the others. -/
def KeysWithin (H : Warehouse) (A B : Set (Row H.schema)) : Prop :=
  ∀ r ∈ A, ∃ r' ∈ B, packingKeyOf H.ht.packingKey r = packingKeyOf H.ht.packingKey r'

theorem Alike.symm {m m' : PartMeta} (h : Alike m m') : Alike m' m :=
  ⟨h.1.symm, Json.jsonbEq_symm h.2⟩

theorem Abut.symm {m m' : PartMeta} (h : Abut m m') : Abut m' m := Or.symm h

theorem KeysWithin.of_subset {A B : Set (Row H.schema)} (h : A ⊆ B) : KeysWithin H A B :=
  fun r hr => ⟨r, h hr, rfl⟩

theorem KeysWithin.trans {A B C : Set (Row H.schema)} (h : KeysWithin H A B)
    (h' : KeysWithin H B C) : KeysWithin H A C := fun r hr =>
  let ⟨r₁, hr₁, heq⟩ := h r hr
  let ⟨r₂, hr₂, heq'⟩ := h' r₁ hr₁
  ⟨r₂, hr₂, heq.trans heq'⟩

theorem KeysBelow.mono {A A' B B' : Set (Row H.schema)} (h : KeysBelow H A B)
    (hA : KeysWithin H A' A) (hB : KeysWithin H B' B) : KeysBelow H A' B' := by
  intro r hr s hs
  obtain ⟨r₀, hr₀, hkey⟩ := hA r hr
  obtain ⟨s₀, hs₀, hkey'⟩ := hB s hs
  rw [hkey, hkey']
  exact h r₀ hr₀ s₀ hs₀

theorem KeysApart.mono {A A' B B' : Set (Row H.schema)} (h : KeysApart H A B)
    (hA : KeysWithin H A' A) (hB : KeysWithin H B' B) : KeysApart H A' B' :=
  h.imp (fun h => h.mono hA hB) fun h => h.mono hB hA

/-- The rows of a part's object. -/
def rowsIn (H : Warehouse) (m : PartMeta) : Set (Row H.schema) := {r | r ∈ H.content m.path}

/-- What is recorded of the keys of a part that is there: the least and the greatest there are. -/
theorem holds_range {m : PartMeta} (h : H.Holds m) :
    (∃ r ∈ rowsIn H m, ∃ k ∈ packingKeyOf H.ht.packingKey r, k.val = m.packingKeyMin) ∧
    (∃ r ∈ rowsIn H m, ∃ k ∈ packingKeyOf H.ht.packingKey r, k.val = m.packingKeyMax) ∧
    ∀ r ∈ rowsIn H m, ∀ k ∈ packingKeyOf H.ht.packingKey r,
      m.packingKeyMin ≤ k.val ∧ k.val ≤ m.packingKeyMax := by
  obtain ⟨groups, hgroups, hmade⟩ := h
  obtain ⟨i, hi, -, -, lo, hi', hmin, hmax, hlo, hhi⟩ := hmade.recorded.toRanged.column
  have hrow : ∀ r, r ∈ rowsIn H m ↔ r ∈ groups.flatten := fun r => by
    show r ∈ H.content m.path ↔ _
    rw [content_of_store hgroups, Multiset.mem_coe]
  have hkey : ∀ r : Row H.schema, packingKeyOf H.ht.packingKey r = (r.cell i).asInt64? := by
    intro r
    rw [packingKeyOf, show H.schema.indexOf H.ht.packingKey = some i from hi, Option.bind_some]
  obtain ⟨hlomem, hle⟩ := arrowMin_eq_some.mp hlo
  obtain ⟨hhimem, hge⟩ := arrowMax_eq_some.mp hhi
  obtain ⟨r, hr, hcell⟩ := List.mem_map.mp hlomem
  obtain ⟨r', hr', hcell'⟩ := List.mem_map.mp hhimem
  refine ⟨⟨r, (hrow r).mpr hr, lo, (hkey r).trans hcell, hmin.symm⟩,
    ⟨r', (hrow r').mpr hr', hi', (hkey r').trans hcell', hmax.symm⟩, fun s hs k hk => ?_⟩
  have hmem : some k ∈ int64Array i groups.flatten :=
    List.mem_map.mpr ⟨s, (hrow s).mp hs, (hkey s).symm.trans hk⟩
  exact ⟨hmin ▸ hle k hmem, hmax ▸ hge k hmem⟩

/-- A part that is there has a key. -/
theorem holds_min_le {m : PartMeta} (h : H.Holds m) : m.packingKeyMin ≤ m.packingKeyMax := by
  obtain ⟨⟨r, hr, k, hk, hmin⟩, -, hall⟩ := holds_range h
  exact hmin ▸ (hall r hr k hk).2

theorem max_le_min_iff {m m' : PartMeta} (h : H.Holds m) (h' : H.Holds m') :
    m.packingKeyMax ≤ m'.packingKeyMin ↔ KeysBelow H (rowsIn H m) (rowsIn H m') := by
  obtain ⟨-, ⟨r, hr, k, hk, hmax⟩, hall⟩ := holds_range h
  obtain ⟨⟨r', hr', k', hk', hmin⟩, -, hall'⟩ := holds_range h'
  constructor
  · exact fun hle a ha b hb x hx y hy => ((hall a ha x hx).2.trans hle).trans (hall' b hb y hy).1
  · exact fun hbelow => hmax ▸ hmin ▸ hbelow r hr r' hr' k hk k' hk'

/-- **The ranges abut** exactly where the keys of the rows do not interleave. -/
theorem abut_iff {m m' : PartMeta} (h : H.Holds m) (h' : H.Holds m') :
    Abut m m' ↔ KeysApart H (rowsIn H m) (rowsIn H m') :=
  or_congr (max_le_min_iff h h') (max_le_min_iff h' h)

/-! ## 2. The writers, one by one -/

/-- `publish_add` has put the item where its part says. -/
def Uploaded (H : Warehouse) (item : FlushItem) (m : PartMeta) : Prop :=
  ∃ path sizeBytes groups, m = publishedPart path item sizeBytes ∧ H.store path = some groups ∧
    itemFile item = ⟨H.schema, groups⟩

/-- **The partitions of a flush are apart**: rows whose partition values differ in how a number is
written, and not to the catalog, have keys that do not interleave. -/
def PartitionsApart (H : Warehouse) (partitions : List String) (rows : List (Row H.schema)) :
    Prop :=
  ∀ v v', v ≠ v' → Json.jsonbEq v v' = true →
    KeysApart H {r | r ∈ rows ∧ partitionValues partitions r = .ok v}
      {r | r ∈ rows ∧ partitionValues partitions r = .ok v'}

/-- The rows a deletion of the key leaves of a part. -/
def leftIn (H : Warehouse) (key : I64) (m : PartMeta) : Set (Row H.schema) :=
  {r | r ∈ H.content m.path ∧ ¬ H.ofKey key r}

/-- **The parts that a deletion rewrites are apart**: two of one partition and level are of one
commit, or the keys that are left in them do not interleave. -/
def DeletionApart (H : Warehouse) (T : Tables) (key : I64) : Prop :=
  ∀ p ∈ overlappingParts T H.ht.id key, ∀ q ∈ overlappingParts T H.ht.id key, p.id ≠ q.id →
    Alike p.partMeta q.partMeta → p.createdByCommit = q.createdByCommit ∨
      KeysApart H (leftIn H key p.partMeta) (leftIn H key q.partMeta)

/-- **A writer's call**, as in `Wrote`, with what its parts were made of.  Where `careful` holds, a
view's flush keeps its partitions apart, and a deletion the parts it rewrites. -/
inductive Makes (H : Warehouse) (careful : Prop) (T : Tables) :
    Call → List PartRow → Effect H → Prop where
  /-- A flush of the ingest. -/
  | ingest {c : Call} {json : Ingest.JsonReader} {eval : Evaluator} {L : Lexsort}
      {route : Ingest.Route} {buffers : Ingest.Buffers} {items : List FlushItem}
      {parts : List PartMeta} (table : c.hypertableId = H.ht.id)
      (key : route.packingKey = H.ht.packingKey)
      (encode : Ingest.encodeDays json eval L H.codec H.cols route H.ht.sortKey buffers = .ok items)
      (op : c.op = .add parts) (published : List.Forall₂ (Uploaded H) items parts) :
      Makes H careful T c [] { added := rowsOf H.content parts }
  /-- Output of a view. -/
  | view {c : Call} {kernel : CastKernel} {eval : Evaluator}
      {memory : List (List Value) → Nat} {render : Json → String} {L : Lexsort}
      {batches : List RecordBatch} {maxBytes : Nat} {partitions : List String}
      {items : List FlushItem} {parts : List PartMeta} (table : c.hypertableId = H.ht.id)
      (columns : partitionColumns H.ht = .ok partitions)
      (encode : batchesToL0Items kernel eval memory render L H.codec batches H.ht maxBytes =
        .ok items)
      (renders : ∀ rows, InputRows kernel eval H.cols batches rows →
        RendersApart render partitions rows)
      (apart : careful → ∀ rows, InputRows kernel eval H.cols batches rows →
        PartitionsApart H partitions rows)
      (op : c.op = .add parts) (published : List.Forall₂ (Uploaded H) items parts) :
      Makes H careful T c [] { added := rowsOf H.content parts }
  /-- `merge_parts`, of compaction and of finalization. -/
  | merge {group : List PartRow} {eval : Evaluator} {store : String → Option PartFile}
      {streams : List (PartBatchStream H.schema)} {converter : RowConverter}
      {batches : List (List (Row H.schema))} {env : ChunkWriterEnv}
      {written : List (Written H.schema)} {lease : CompactionLease} {identity : OperationIdentity}
      {partitionValues : Json} {level : Int} (live : ∀ p ∈ group, p ∈ T.liveParts H.ht.id)
      (objects : ∀ p ∈ group, store p.partMeta.path = H.file p.partMeta.path)
      (read : partStreams eval store H.schema H.cols (group.map PartRow.partMeta) = .ok streams)
      (drained : mergeStreams converter streams H.ht.sortKey = (batches, .drained))
      (key : env.packingKey = H.ht.packingKey) (code : env.codec = H.codec)
      (write : StreamingChunkWriter.write env (batches.map .ok) = .ok written)
      (put : ∀ x ∈ written, H.store x.output.path = some x.rowGroups) :
      Makes H careful T (commitCompactionReplace H.ht.id lease (group.map PartRow.id)
        (written.map fun x => mergedPart partitionValues level x.output) identity) group {}
  /-- `delete_key`, where some live part overlaps. -/
  | deleteKey {env : DeletionEnv} {store : String → Option PartFile} {key : I64} {d : Erasure}
      (objects : ∀ p ∈ T.liveParts H.ht.id, store p.partMeta.path = H.file p.partMeta.path)
      (fresh : FreshNames env H.ht.id T) (reader : env.reader = H.reader)
      (code : env.codec = H.codec) (run : deleteKey env store T H.ht key = .ok (some d))
      (put : ∀ done p rest w new groups, overlappingParts T H.ht.id key = done ++ p :: rest →
        done.foldlM (rewritePart env H.ht H.cols key) { store := store } = .ok w →
        RoundWrites env H key w p new groups → H.store new.path = some groups)
      (apart : careful → DeletionApart H T key) :
      Makes H careful T d.call (overlappingParts T H.ht.id key)
        { erased := (rowsOf H.content ((overlappingParts T H.ht.id key).map
          PartRow.partMeta)).filter fun r => H.ofKey key r }

/-- **These are writers** of the table. -/
theorem Makes.wrote {careful : Prop} {T : Tables} {c : Call} {inputs : List PartRow} {e : Effect H}
    (h : Makes H careful T c inputs e) : Wrote H T c inputs e := by
  cases h with
  | @ingest _ json eval L route buffers items parts table key encode op published =>
    refine .add table op fun m hm => ?_
    obtain ⟨item, hitem, path, sizeBytes, groups, rfl, hgroups, hfile⟩ :=
      published.flip.exists_of_mem hm
    obtain ⟨e, -, -, hrows⟩ := (Ingest.encodeDays_eq_ok encode).flip.exists_of_mem hitem
    exact ⟨groups, hgroups, hfile ▸ .ingest H.version (key ▸ hrows)⟩
  | @view _ kernel eval memory render L batches maxBytes partitions items parts table columns
      encode renders apart op published =>
    refine .add table op fun m hm => ?_
    obtain ⟨item, hitem, path, sizeBytes, groups, rfl, hgroups, hfile⟩ :=
      published.flip.exists_of_mem hm
    exact ⟨groups, hgroups, hfile ▸ .view H.version encode hitem⟩
  | merge live objects read drained key code write put =>
    exact .merge live objects read drained key code write put
  | deleteKey objects fresh reader code run put apart =>
    exact .deleteKey objects fresh reader code run put

/-! ## 3. What a call commits together -/

/-- **The parts of a table that share their commit, partition and level abut**, the dead ones
too. -/
structure InOrder (H : Warehouse) (T : Tables) : Prop where
  nodup : (T.parts.map PartRow.id).Nodup
  abut : ∀ p ∈ T.parts, ∀ q ∈ T.parts, p.hypertableId = H.ht.id → q.hypertableId = H.ht.id →
    p.id ≠ q.id → p.createdByCommit = q.createdByCommit → Alike p.partMeta q.partMeta →
      Abut p.partMeta q.partMeta

section Calls

variable {careful : Prop} {T : Tables}

/-- The days of a flush are different partitions. -/
theorem inRuns_of_days {json : Ingest.JsonReader} {eval : Evaluator} {L : Lexsort}
    {route : Ingest.Route} {buffers : Ingest.Buffers} {sortKey : List String}
    {items : List FlushItem} {parts : List PartMeta}
    (h : Ingest.encodeDays json eval L H.codec H.cols route sortKey buffers = .ok items)
    (hparts : List.Forall₂ (Uploaded H) items parts) : InRuns parts := by
  have hdays : buffers.rowsByDay.entries.Pairwise fun e e' => e.1 ≠ e'.1 :=
    List.pairwise_map.mp buffers.rowsByDay.nodupKeys
  have hmade := (Ingest.encodeDays_eq_ok h).comp hparts
    (R := fun e m => m.partitionValues = .obj [("day", .str e.1)]) ?_
  · refine hmade.pairwise hdays fun {e e' m m'} hm hm' hne halike => ?_
    rw [Alike, hm, hm'] at halike
    exact absurd (by simpa [Json.jsonbEq, Json.jsonbEqObj] using halike.2) hne
  · rintro e item _ ⟨hvalue, -⟩ ⟨path, sizeBytes, groups, rfl, -⟩
    exact hvalue

/-- The rows of a published item. -/
theorem rowsIn_published {L : Lexsort} {g : String × Json × List (Row H.schema)} {item : FlushItem}
    {m : PartMeta} (hitem : Finished L H.codec H.ht.sortKey H.ht.packingKey g item)
    (hm : Uploaded H item m) :
    m.partitionValues = g.2.1 ∧ ∀ r ∈ rowsIn H m, r ∈ g.2.2 := by
  obtain ⟨path, sizeBytes, groups, rfl, hgroups, hfile⟩ := hm
  obtain ⟨-, hperm, -⟩ := finishPart_spec hitem.part
  refine ⟨hitem.value, fun r hr => ?_⟩
  have hcells : item.part.rows.map Subtype.val = groups.flatten.map Subtype.val :=
    congrArg (fun f : DataFile => f.rows.map Subtype.val) hfile
  have hr' : r ∈ groups.flatten := by
    rw [← Multiset.mem_coe, ← content_of_store hgroups]
    exact hr
  obtain ⟨r₀, hr₀, hval⟩ := List.mem_map.mp
    (hperm.mem_iff.mp (hcells ▸ List.mem_map_of_mem (f := Subtype.val) hr'))
  exact Subtype.ext hval ▸ hr₀

/-- The groups of a view's flush keep apart, if the rows do. -/
theorem inRuns_of_groups {kernel : CastKernel} {eval : Evaluator}
    {memory : List (List Value) → Nat} {render : Json → String} {L : Lexsort}
    {batches : List RecordBatch} {maxBytes : Nat} {partitions : List String}
    {items : List FlushItem} {parts : List PartMeta}
    (hcolumns : partitionColumns H.ht = .ok partitions)
    (hencode : batchesToL0Items kernel eval memory render L H.codec batches H.ht maxBytes =
      .ok items)
    (hrenders : ∀ rows, InputRows kernel eval H.cols batches rows →
      RendersApart render partitions rows)
    (hapart : ∀ rows, InputRows kernel eval H.cols batches rows → PartitionsApart H partitions rows)
    (hparts : List.Forall₂ (Uploaded H) items parts) (hholds : ∀ m ∈ parts, H.Holds m) :
    InRuns parts := by
  obtain ⟨rows, hrows, ⟨-, rfl⟩ | ⟨groups, hfold, hitems⟩⟩ :=
    batchesToL0Items_eq_ok hencode H.version.parse hcolumns
  · cases hparts
    exact .nil
  have hstart : Grouped render partitions ([] : List (Row H.schema)) [] :=
    ⟨.nil, fun _ hg => absurd hg List.not_mem_nil, List.Perm.refl _⟩
  have hg : Grouped render partitions rows groups := hstart.run (hrenders rows hrows) hfold
  have hmade := hitems.comp hparts (R := fun g m =>
    m.partitionValues = g.2.1 ∧ ∀ r ∈ rowsIn H m, r ∈ g.2.2) fun _ _ _ => rowsIn_published
  have hmade' := (List.forall₂_and_left _ _).mpr ⟨fun g hg => hg,
    ((List.forall₂_and_left _ _).mpr ⟨hholds, hmade.flip⟩).flip⟩
  refine hmade'.pairwise hg.sorted ?_
  rintro g g' m m' ⟨hgm, hm, hvalue, hin⟩ ⟨hgm', hm', hvalue', hin'⟩ hlt halike
  rw [abut_iff hm hm']
  -- the texts of the groups differ, so their values do
  obtain ⟨htext, -, hvalues⟩ := hg.group g hgm
  obtain ⟨htext', -, hvalues'⟩ := hg.group g' hgm'
  have hne : g.2.1 ≠ g'.2.1 := by
    intro heq
    rw [htext, htext', heq] at hlt
    exact lt_irrefl _ hlt
  have hrow : ∀ {g : String × Json × List (Row H.schema)} {r}, g ∈ groups → r ∈ g.2.2 → r ∈ rows :=
    fun hgm hr => hg.perm.mem_iff.mp (List.mem_flatMap.mpr ⟨_, hgm, hr⟩)
  refine (hapart rows hrows _ _ hne (hvalue ▸ hvalue' ▸ halike.2)).mono
    (.of_subset ?_) (.of_subset ?_)
  · exact fun r hr => ⟨hrow hgm (hin r hr), hvalues r (hin r hr)⟩
  · exact fun r hr => ⟨hrow hgm' (hin' r hr), hvalues' r (hin' r hr)⟩

/-- The files of a merge abut. -/
theorem inRuns_of_merge {metas : List PartMeta} {eval : Evaluator}
    {store : String → Option PartFile} {streams : List (PartBatchStream H.schema)}
    {converter : RowConverter} {batches : List (List (Row H.schema))} {env : ChunkWriterEnv}
    {written : List (Written H.schema)} (h : Opened H store metas)
    (hread : partStreams eval store H.schema H.cols metas = .ok streams)
    (hdrained : mergeStreams converter streams H.ht.sortKey = (batches, .drained))
    (hkey : env.packingKey = H.ht.packingKey)
    (hwrite : StreamingChunkWriter.write env (batches.map .ok) = .ok written)
    (partitionValues : Json) (level : Int) :
    InRuns (written.map fun x => mergedPart partitionValues level x.output) := by
  refine List.pairwise_map.mpr ?_
  cases hwritten : written with
  | nil => exact .nil
  | cons x rest =>
    have hfiles : ∀ m ∈ metas, Ranged H.ht m (storedBatch store m) ∧
        partRows store m = some (storedBatch store m) := by
      intro m hm
      obtain ⟨rows, -, hrows, hbatch, hranged⟩ := h.rows hm
      exact ⟨hbatch ▸ hranged, hbatch ▸ hrows⟩
    obtain ⟨i, -, -, -, -, -, -, hchunks⟩ := chunks_of_merge H.version
      (fun m hm => (hfiles m hm).1) (fun m hm => (hfiles m hm).2) hread hdrained hkey hwrite
      (hwritten ▸ List.mem_cons_self)
    exact hwritten ▸ hchunks.ordered.imp fun hle _ => Or.inl hle

/-- A row that is read again has the key it was stored with, whatever its columns are called. -/
theorem packingKeyOf_eq_of_readByName {r r' : Row H.schema} (h : ReadByName H.cols r r') :
    packingKeyOf H.ht.packingKey r' = packingKeyOf H.ht.packingKey r := by
  unfold packingKeyOf
  cases hi : H.schema.indexOf H.ht.packingKey with
  | none => rfl
  | some i =>
    obtain ⟨f, hf, hname, -⟩ := Schema.indexOf_eq_some.mp hi
    rw [Option.bind_some, Option.bind_some, h i f i hf (hname ▸ hi)]

/-- **The keys of a part that is written again** were left in the part it replaces. -/
theorem keysWithin_rewritten {store : String → Option PartFile} {key : I64} {m new : PartMeta}
    {metas : List PartMeta} {w : Rewriting} (h : Opened H store metas) (hm : m ∈ metas)
    (hnew : Opened H w.store w.newParts) (hmem : new ∈ w.newParts)
    (hrewritten : Rewritten (fun _ => ReadByName H.cols) w.store H.ht.packingKey key m
      (storedBatch store m) new) : KeysWithin H (rowsIn H new) (leftIn H key m) := by
  obtain ⟨kept, out, hkept, hout, hkeeps⟩ := rows_rewritten h hm hnew hmem hrewritten
  intro r' (hr' : r' ∈ H.content new.path)
  rw [hout, Multiset.mem_coe] at hr'
  obtain ⟨r, hr, hread⟩ := hkeeps.flip.exists_of_mem hr'
  rw [← Multiset.mem_coe, ← hkept] at hr
  exact ⟨r, Multiset.mem_filter.mp hr, packingKeyOf_eq_of_readByName hread⟩

/-- What a deletion leaves of parts that abut, or were apart, abuts. -/
theorem inRuns_of_deletion {env : DeletionEnv} {store : String → Option PartFile} {key : I64}
    {w : Rewriting} (hapart : DeletionApart H T key) (hordered : InOrder H T)
    (hparts : ∀ p ∈ overlappingParts T H.ht.id key, p ∈ T.parts ∧ p.hypertableId = H.ht.id)
    (hold : Opened H store ((overlappingParts T H.ht.id key).map PartRow.partMeta))
    (hnew : Opened H w.store w.newParts)
    (hw : Rewrites env H.ht H.cols key store (overlappingParts T H.ht.id key) w) :
    InRuns w.newParts := by
  have hids : (overlappingParts T H.ht.id key).Pairwise fun p q => p.id ≠ q.id := by
    have hperm : overlappingParts T H.ht.id key ~ livePartsWithKey T H.ht.id key.val :=
      List.perm_insertionSort _ _
    have hsub : livePartsWithKey T H.ht.id key.val <+ T.parts :=
      List.filter_sublist.trans List.filter_sublist
    exact List.pairwise_map.mp
      ((hperm.map PartRow.id).nodup_iff.mpr (hordered.nodup.sublist (hsub.map PartRow.id)))
  have hmade := (List.forall₂_and_left _ _).mpr ⟨fun p hp => (List.mem_filter.mp hp).1,
      ((List.forall₂_and_left _ _).mpr ⟨fun _ h => h, hw.parts.flip⟩).flip⟩
  refine hmade.pairwise (hids.sublist List.filter_sublist) ?_
  rintro p q new new' ⟨hp, hmem, hrewritten⟩ ⟨hq, hmem', hrewritten'⟩ hne halike
  have halike' : Alike p.partMeta q.partMeta := by
    rwa [Alike, hrewritten.partition, hrewritten'.partition, hrewritten.level,
      hrewritten'.level] at halike
  have hleft := keysWithin_rewritten hold (List.mem_map_of_mem hp) hnew hmem hrewritten
  have hleft' := keysWithin_rewritten hold (List.mem_map_of_mem hq) hnew hmem' hrewritten'
  have hthere : ∀ m, KeysWithin H (leftIn H key m) (rowsIn H m) := fun m =>
    .of_subset fun r hr => hr.1
  rw [abut_iff (hnew.holds _ hmem) (hnew.holds _ hmem')]
  rcases hapart p hp q hq hne halike' with hcommit | hapart
  · have habut := hordered.abut p (hparts p hp).1 q (hparts q hq).1 (hparts p hp).2
      (hparts q hq).2 hne hcommit halike'
    rw [abut_iff (hold.holds _ (List.mem_map_of_mem hp)) (hold.holds _ (List.mem_map_of_mem hq))]
      at habut
    exact habut.mono (hleft.trans (hthere _)) (hleft'.trans (hthere _))
  · exact hapart.mono hleft hleft'

/-- **A careful call** makes runs. -/
theorem Makes.inRuns {c : Call} {inputs : List PartRow} {e : Effect H}
    (h : Makes H True T c inputs e) (hordered : InOrder H T)
    (hholds : ∀ p ∈ T.parts, p.hypertableId = H.ht.id → H.Holds p.partMeta) :
    InRuns c.op.newParts := by
  have hexchange := h.wrote.exchange hholds
  have hlive : ∀ p ∈ T.liveParts H.ht.id, p ∈ T.parts ∧ p.hypertableId = H.ht.id := by
    intro p hp
    obtain ⟨hp, hcond⟩ := List.mem_filter.mp hp
    exact ⟨hp, (of_decide_eq_true hcond).1⟩
  cases h with
  | ingest table key encode op published =>
    rw [op]
    exact inRuns_of_days encode published
  | view table columns encode renders apart op published =>
    have hparts := hexchange.holds
    rw [op] at hparts ⊢
    exact inRuns_of_groups columns encode renders (apart trivial) published hparts
  | merge live objects read drained key code write put =>
    refine inRuns_of_merge ⟨fun m hm => ?_, fun m hm => ?_⟩ read drained key write _ _ <;>
      obtain ⟨p, hp, rfl⟩ := List.mem_map.mp hm
    · exact hholds p (hlive p (live p hp)).1 (hlive p (live p hp)).2
    · exact objects p hp
  | @deleteKey env store key d objects fresh reader code run put apart =>
    obtain ⟨identity, cols, w, hparse, hloop, rfl, -⟩ := deleteKey_eq_ok run
    obtain rfl : cols = H.cols := Except.ok.inj (hparse.symm.trans H.version.parse)
    have hparts : ∀ p ∈ overlappingParts T H.ht.id key, p ∈ T.parts ∧ p.hypertableId = H.ht.id :=
      fun p hp => hlive p (mem_overlappingParts.mp hp).1
    have hold := @overlapping_opened H T store key
      (fun p hp => hholds p (hlive p hp).1 (hlive p hp).2) objects
    have hnew := opened_foldlM fresh (fun p hp => (hparts p hp).1) reader code hold put hloop
    have hw := rewrites_foldlM fresh (fun p hp => ⟨p, (hparts p hp).1, rfl⟩)
      (fun p hp => hold.sealed (List.mem_map_of_mem hp)) hloop
    exact inRuns_of_deletion (apart trivial) hordered hparts hold hnew hw

end Calls

/-! ## 4. Every run -/

/-- **The steps of a lake** in which each call of the table is one of these. -/
inductive Proceeds (H : Warehouse) (careful : Prop) : Lake H → Lake H → Prop where
  /-- A writer that has read `T` calls the catalog. -/
  | submit {s : Lake H} {T : Tables} {c : Call} {inputs : List PartRow} {e : Effect H} {db : Db}
      (read : T ∈ s.reads) (writes : Makes H careful T c inputs e)
      (begins : step s.db (.begin c) = some db) :
      Proceeds H careful s { s with db := db, effect := Function.update s.effect s.db.nextTxn e }
  /-- Any other step, in which no call of the table is opened. -/
  | other {s s' : Lake H} (steps : Lake.Step s s')
      (opens : ∀ t τ, s'.db.txns.lookup t = some τ → τ.call.hypertableId = H.ht.id →
        ∃ τ₀, s.db.txns.lookup t = some τ₀ ∧ τ.call = τ₀.call) : Proceeds H careful s s'

variable {careful : Prop} {s s' : Lake H}

theorem Proceeds.step (h : Proceeds H careful s s') : Lake.Step s s' := by
  cases h with
  | submit read writes begins => exact .submit read writes.wrote begins
  | other steps opens => exact steps

/-- **What holds of a lake** whose calls are careful. -/
structure Laid (s : Lake H) : Prop where
  sound : s.Sound
  born : ∀ p ∈ s.db.tables.parts, p.hypertableId = H.ht.id →
    ∃ r ∈ s.db.tables.commits, r.id = p.createdByCommit
  ordered : InOrder H s.db.tables
  reads : ∀ T ∈ s.reads, InOrder H T
  opened : ∀ t τ, s.db.txns.lookup t = some τ → τ.call.hypertableId = H.ht.id →
    InRuns τ.call.op.newParts

/-- A row without what a commit or a purge changes of it. -/
def SameRow (p p' : PartRow) : Prop :=
  p'.id = p.id ∧ p'.hypertableId = p.hypertableId ∧ p'.createdByCommit = p.createdByCommit ∧
    p'.partMeta = p.partMeta

/-- Rows that were there are as they were. -/
theorem InOrder.kept {T : Tables} (h : InOrder H T) {p' q' : PartRow}
    (hp : ∃ p ∈ T.parts, SameRow p p') (hq : ∃ q ∈ T.parts, SameRow q q')
    (hht : p'.hypertableId = H.ht.id) (hht' : q'.hypertableId = H.ht.id) (hne : p'.id ≠ q'.id)
    (hcommit : p'.createdByCommit = q'.createdByCommit) (halike : Alike p'.partMeta q'.partMeta) :
    Abut p'.partMeta q'.partMeta := by
  obtain ⟨p, hp, hid, hpht, hpc, hmeta⟩ := hp
  obtain ⟨q, hq, hid', hqht, hqc, hmeta'⟩ := hq
  rw [hmeta, hmeta'] at halike ⊢
  exact h.abut p hp q hq (hpht ▸ hht) (hqht ▸ hht') (hid ▸ hid' ▸ hne) (hpc ▸ hqc ▸ hcommit) halike

/-- The parts of the next state, as rows that were there and rows that are new. -/
theorem InOrder.of_rows {T T' : Tables} {old rows : List PartRow} {id : Int} (h : InOrder H T)
    (hparts : T'.parts = old ++ rows) (hnodup : (T'.parts.map PartRow.id).Nodup)
    (hold : ∀ p' ∈ old, ∃ p ∈ T.parts, SameRow p p')
    (hfresh : ∀ p ∈ T.parts, p.hypertableId = H.ht.id → p.createdByCommit ≠ id)
    (hrows : ∀ p ∈ rows, p.createdByCommit = id)
    (hruns : (∃ p ∈ rows, p.hypertableId = H.ht.id) → InRuns (rows.map PartRow.partMeta)) :
    InOrder H T' where
  nodup := hnodup
  abut p' hp' q' hq' hht hht' hne hcommit halike := by
    rw [hparts, List.mem_append] at hp' hq'
    rcases hp' with hp' | hp' <;> rcases hq' with hq' | hq'
    · exact h.kept (hold p' hp') (hold q' hq') hht hht' hne hcommit halike
    · -- what is there already is of another commit
      obtain ⟨p, hp, -, hpht, hpc, -⟩ := hold p' hp'
      exact absurd (hpc ▸ hcommit.trans (hrows q' hq')) (hfresh p hp (hpht ▸ hht))
    · obtain ⟨q, hq, -, hqht, hqc, -⟩ := hold q' hq'
      exact absurd (hqc ▸ hcommit.symm.trans (hrows p' hp')) (hfresh q hq (hqht ▸ hht'))
    · have : Std.Symm fun p q : PartRow =>
          Alike p.partMeta q.partMeta → Abut p.partMeta q.partMeta :=
        ⟨fun p q h halike => (h halike.symm).symm⟩
      have hpairs := List.pairwise_map.mp (hruns ⟨p', hp', hht⟩)
      exact hpairs.forall hp' hq' (fun heq => hne (heq ▸ rfl)) halike

/-- **An event of the catalog** keeps it. -/
theorem Laid.ordered_step {e : Event} {db : Db} (h : Laid s) (hs : Catalog.step s.db e = some db) :
    (∀ p ∈ db.tables.parts, p.hypertableId = H.ht.id →
      ∃ r ∈ db.tables.commits, r.id = p.createdByCommit) ∧ InOrder H db.tables := by
  have hi := h.sound.reachable.inv
  have hi' := (h.sound.reachable.next hs).inv
  rcases step_tables hi hs with ⟨t, τ, id, -, hlook, -, happ, -⟩ | ⟨-, -, hside⟩
  · obtain ⟨at', hcommits⟩ := happ.commits
    obtain ⟨rows, hparts, hnew⟩ := happ.parts
    have hold : ∀ p' ∈ tombstoneParts id τ.call.op.oldParts s.db.tables.parts,
        ∃ p ∈ s.db.tables.parts, SameRow p p' := by
      intro p' hp'
      obtain ⟨p, hp, rfl⟩ := List.mem_map.mp hp'
      refine ⟨p, hp, ?_⟩
      split <;> exact ⟨rfl, rfl, rfl, rfl⟩
    have hfresh : ∀ p ∈ s.db.tables.parts, p.hypertableId = H.ht.id → p.createdByCommit ≠ id := by
      intro p hp hht heq
      obtain ⟨r, hr, hid⟩ := h.born p hp hht
      have hnodup := hi'.stored.commit_nodup
      rw [hcommits, List.map_append, List.nodup_append] at hnodup
      exact hnodup.2.2 r.id (List.mem_map_of_mem hr) id (List.mem_singleton_self _) (hid.trans heq)
    constructor
    · intro p' hp' hht
      rw [hparts, List.mem_append] at hp'
      rw [hcommits]
      rcases hp' with hp' | hp'
      · obtain ⟨p, hp, -, hpht, hpc, -⟩ := hold p' hp'
        obtain ⟨r, hr, hid⟩ := h.born p hp (hpht ▸ hht)
        exact ⟨r, List.mem_append_left _ hr, hid.trans hpc.symm⟩
      · exact ⟨_, List.mem_append_right _ (List.mem_singleton_self _), (hnew.row p' hp').2.1.symm⟩
    · refine h.ordered.of_rows hparts hi'.stored.part_nodup hold hfresh
        (fun p hp => (hnew.row p hp).2.1) ?_
      rintro ⟨p, hp, hht⟩
      rw [hnew.metas]
      exact h.opened t τ hlook ((hnew.row p hp).1.symm.trans hht)
  · obtain ⟨f, hparts, hf⟩ := hside.parts
    have hold : ∀ p' ∈ db.tables.parts, ∃ p ∈ s.db.tables.parts, SameRow p p' := by
      intro p' hp'
      rw [hparts] at hp'
      obtain ⟨p, hp, rfl⟩ := List.mem_map.mp hp'
      refine ⟨p, hp, ?_⟩
      rw [hf p]
      exact ⟨rfl, rfl, rfl, rfl⟩
    constructor
    · intro p' hp' hht
      obtain ⟨p, hp, -, hpht, hpc, -⟩ := hold p' hp'
      rw [hside.commits, hpc]
      exact h.born p hp (hpht ▸ hht)
    · exact ⟨hi'.stored.part_nodup, fun p' hp' q' hq' => h.ordered.kept (hold p' hp') (hold q' hq')⟩

/-- What a step does to the catalog and to what has been read. -/
theorem step_origin (h : Lake.Step s s') :
    (s'.db = s.db ∨ ∃ e, Catalog.step s.db e = some s'.db) ∧
      ∀ T ∈ s'.reads, T ∈ s.reads ∨ T = s.db.tables := by
  cases h with
  | read => exact ⟨Or.inl rfl, fun T hT => (List.mem_cons.mp hT).symm⟩
  | submit _ _ begins => exact ⟨Or.inr ⟨_, begins⟩, fun T hT => Or.inl hT⟩
  | other _ begins => exact ⟨Or.inr ⟨_, begins⟩, fun T hT => Or.inl hT⟩
  | commit commits => exact ⟨Or.inr ⟨_, commits⟩, fun T hT => Or.inl hT⟩
  | event _ _ steps => exact ⟨Or.inr ⟨_, steps⟩, fun T hT => Or.inl hT⟩

/-- **Every step keeps it.** -/
theorem Laid.next (h : Laid s) (hs : Proceeds H True s s') : Laid s' := by
  obtain ⟨hdb, hreads⟩ := step_origin hs.step
  have hparts : (∀ p ∈ s'.db.tables.parts, p.hypertableId = H.ht.id →
      ∃ r ∈ s'.db.tables.commits, r.id = p.createdByCommit) ∧ InOrder H s'.db.tables := by
    rcases hdb with hdb | ⟨e, hstep⟩
    · rw [hdb]
      exact ⟨h.born, h.ordered⟩
    · exact h.ordered_step hstep
  refine ⟨h.sound.next hs.step, hparts.1, hparts.2, fun T hT => ?_, ?_⟩
  · rcases hreads T hT with hT | rfl
    · exact h.reads T hT
    · exact h.ordered
  · cases hs with
    | @submit T c inputs e db read writes begins =>
      intro t τ hlook hht
      rcases step_call begins hlook with ⟨τ₀, hlook₀, hcall⟩ | ⟨heq, -⟩
      · rw [hcall] at hht ⊢
        exact h.opened t τ₀ hlook₀ hht
      · rw [← Event.begin.inj heq]
        exact writes.inRuns (h.reads T read) (h.sound.holds_read read)
    | other steps opens =>
      intro t τ hlook hht
      obtain ⟨τ₀, hlook₀, hcall⟩ := opens t τ hlook hht
      rw [hcall] at hht ⊢
      exact h.opened t τ₀ hlook₀ hht

/-- The live parts of a partition and level that a commit has created. -/
def runParts (T : Tables) (h : HypertableId) (partition : Json) (level commit : Int) :
    List PartRow :=
  (T.liveParts h).filter fun p => Json.jsonbEq p.partMeta.partitionValues partition = true ∧
    p.partMeta.level = level ∧ p.createdByCommit = commit

/-- **A run**: the parts can be put in an order in which each begins where the one before it ends,
or later. -/
def IsRun (parts : List PartRow) : Prop :=
  ∃ l, l ~ parts ∧ l.IsChain fun p q => p.partMeta.packingKeyMax ≤ q.partMeta.packingKeyMin

theorem Laid.isRun (h : Laid s) (partition : Json) (level commit : Int) :
    IsRun (runParts s.db.tables H.ht.id partition level commit) := by
  have hmem : ∀ p ∈ runParts s.db.tables H.ht.id partition level commit,
      (p ∈ s.db.tables.parts ∧ p.hypertableId = H.ht.id) ∧
      Json.jsonbEq p.partMeta.partitionValues partition = true ∧
        p.partMeta.level = level ∧ p.createdByCommit = commit := by
    intro p hp
    obtain ⟨hp, hcond⟩ := List.mem_filter.mp hp
    obtain ⟨hp, hlive⟩ := List.mem_filter.mp hp
    exact ⟨⟨hp, (of_decide_eq_true hlive).1⟩, of_decide_eq_true hcond⟩
  have hids : (runParts s.db.tables H.ht.id partition level commit).Pairwise
      fun p q => p.id ≠ q.id :=
    List.pairwise_map.mp (h.ordered.nodup.sublist
      ((List.filter_sublist.trans List.filter_sublist).map PartRow.id))
  obtain ⟨l, hperm, hpairs⟩ := List.exists_perm_pairwise_le
    (fun p : PartRow => p.partMeta.packingKeyMin) (fun p => p.partMeta.packingKeyMax)
    (fun p hp => holds_min_le (h.sound.holds p (hmem p hp).1.1 (hmem p hp).1.2))
    (hids.imp_of_mem fun {p q} hp hq hne => by
      obtain ⟨⟨hp, hht⟩, hvalue, hlevel, hcommit⟩ := hmem p hp
      obtain ⟨⟨hq, hht'⟩, hvalue', hlevel', hcommit'⟩ := hmem q hq
      exact h.ordered.abut p hp q hq hht hht' hne (hcommit.trans hcommit'.symm)
        ⟨hlevel.trans hlevel'.symm, Json.jsonbEq_of_common hvalue hvalue'⟩)
  exact ⟨l, hperm, hpairs.isChain⟩

/-- **The parts of a commit are a run.**  In every run that starts without a part of the table and
in which each writer's call is careful, the live parts of every partition and level that share their
commit can be put in an order in which each has no key less than those of the one before it. -/
theorem runs_ordered {s₀ s : Lake H} (hstart : s₀.Start)
    (hempty : ∀ p ∈ s₀.db.tables.parts, p.hypertableId ≠ H.ht.id)
    (hrun : Relation.ReflTransGen (Proceeds H True) s₀ s) (partition : Json) (level commit : Int) :
    IsRun (runParts s.db.tables H.ht.id partition level commit) := by
  have hlaid : Laid s := by
    induction hrun with
    | refl =>
      refine ⟨hstart.sound, fun p hp hht => absurd hht (hempty p hp),
        ⟨hstart.db.inv.stored.part_nodup, fun p hp _ _ hht => absurd hht (hempty p hp)⟩, ?_, ?_⟩
      · rw [hstart.reads]
        exact fun _ hT => nomatch hT
      · intro t τ hlook
        rw [hstart.db.txns] at hlook
        exact nomatch hlook
    | tail _ hs ih => exact ih.next hs
  exact hlaid.isRun partition level commit

/-! ## 5. A deletion over two flushes -/

/-- Events that open no call. -/
theorem proceeds_events {es : List Event} {db : Db} (hes : ∀ e ∈ es, ∀ c, e ≠ .begin c)
    (h : Lts.run Catalog.step s.db es = some db) :
    ∃ s', Relation.ReflTransGen (Proceeds H careful) s s' ∧ s'.db = db := by
  induction es generalizing s with
  | nil =>
    cases h
    exact ⟨s, .refl, rfl⟩
  | cons e es ih =>
    obtain ⟨hcall, hes⟩ := List.forall_mem_cons.mp hes
    obtain ⟨db₁, hstep, hrest⟩ := Lts.run_cons.mp h
    have hopens : ∀ t τ, db₁.txns.lookup t = some τ → τ.call.hypertableId = H.ht.id →
        ∃ τ₀, s.db.txns.lookup t = some τ₀ ∧ τ.call = τ₀.call := fun t τ hlook _ =>
      (step_call hstep hlook).resolve_right fun hbegin => hcall _ hbegin.1
    have hwork : ∃ s₁ : Lake H, Proceeds H careful s s₁ ∧ s₁.db = db₁ := by
      by_cases hlate : ∃ t, e = .commit t
      · obtain ⟨t, rfl⟩ := hlate
        exact ⟨_, .other (.commit hstep) hopens, rfl⟩
      · exact ⟨_, .other (.event hcall (fun t ht => hlate ⟨t, ht⟩) hstep) hopens, rfl⟩
    obtain ⟨s₁, hwork, rfl⟩ := hwork
    obtain ⟨s', hrun, hdb⟩ := ih hes hrest
    exact ⟨s', .head hwork hrun, hdb⟩

/-- A writer reads, and its call is answered. -/
theorem proceeds_turn {c : Call} {inputs : List PartRow} {e : Effect H} {es : List Event} {db : Db}
    (hwrites : Makes H careful s.db.tables c inputs e) (hes : ∀ e ∈ es, ∀ c, e ≠ .begin c)
    (h : Lts.run Catalog.step s.db (.begin c :: es) = some db) :
    ∃ s', Relation.ReflTransGen (Proceeds H careful) s s' ∧ s'.db = db := by
  obtain ⟨db₁, hbegin, hrest⟩ := Lts.run_cons.mp h
  have hread : Proceeds H careful s { s with reads := s.db.tables :: s.reads } :=
    .other .read fun t τ hlook _ => ⟨τ, hlook, rfl⟩
  have hsubmit : ∃ s₁, Proceeds H careful { s with reads := s.db.tables :: s.reads } s₁ ∧
      s₁.db = db₁ := ⟨_, .submit List.mem_cons_self hwrites hbegin, rfl⟩
  obtain ⟨s₁, hsubmit, rfl⟩ := hsubmit
  obtain ⟨s', hrun, hdb⟩ := proceeds_events hes hrest
  exact ⟨s', .head hread (.head hsubmit hrun), hdb⟩

/-- The statements of call `t`, up to its COMMIT. -/
def landing (t n : Nat) : List Event := sends t n ++ [.commit t]

theorem landing_begins (t n : Nat) : ∀ e ∈ landing t n, ∀ c, e ≠ .begin c := by
  intro e he c
  simp only [landing, sends, List.mem_append, List.mem_replicate, List.mem_singleton] at he
  rcases he with (⟨-, rfl⟩ | rfl) | rfl <;> simp

/-- The table of two tenants, a file for each tenant. -/
def depotTable : Hypertable := { shopTable with placement := .separated }

theorem depot_version : Version depotTable depotTable.tableSchema shopColumns := ⟨by rfl, by rfl⟩

def depotRows (tenants : List UInt8) : List (Row shopColumns.physicalSchema) :=
  tenants.map fun tenant => shopRow (smallI64 tenant) (smallI64 0)

/-- What a view gives for rows of these tenants. -/
def depotItems (tenants : List UInt8) : Except WriteError (List FlushItem) :=
  batchesToL0Items .equal oneExpr (fun _ => 0) (fun _ => "\x7b\x7d") .stable .characters
    [⟨[⟨"tenant_id", .int64, true, none⟩, ⟨"x", .int64, true, none⟩], depotRows tenants⟩]
    depotTable 1000

/-- The part that is published. -/
def depotPart (uuid : String) (tenants : List UInt8) : PartMeta :=
  match depotItems tenants with
  | .ok [item] => publishedPart (Gc.partPath 1 0 uuid) item 100
  | _ => ⟨uuid, .null, 0, 0, 0, 0, 0, none⟩

def depotAdd (uuid : String) (tenants : List UInt8) : Call :=
  Catalog.commit 1 (.add [depotPart uuid tenants]) none

def depotWriter : ChunkWriterEnv where
  codec := .characters
  placement := .separated
  maxRowGroupRows := 10
  packingKey := "tenant_id"
  nextPath n := Gc.partPath 1 1 n.repr
  onOpen _ := .ok ()
  encodedSize _ := 0
  head _ := 90

/-- The second flush, as a merge reads it and writes it. -/
def depotStreams : List (PartBatchStream shopColumns.physicalSchema) :=
  (partStreams oneExpr (fun _ => some (noteEnv.reader.file [depotRows [1, 2, 5, 9]]))
    shopColumns.physicalSchema shopColumns [depotPart "b" [1, 2, 5, 9]]).toOption.getD []

def depotBatches : List (List (Row shopColumns.physicalSchema)) :=
  (mergeStreams .codes depotStreams depotTable.sortKey).1

def depotWritten : List (Written shopColumns.physicalSchema) :=
  (StreamingChunkWriter.write depotWriter (depotBatches.map .ok)).toOption.getD []

/-- The objects: the two flushes, what a deletion of tenant 2 leaves of them, and the files of the
merge. -/
def depotStore (path : String) : Option (List (List (Row shopColumns.physicalSchema))) :=
  if path = Gc.partPath 1 0 "a" then some [depotRows [1, 2, 9]]
  else if path = Gc.partPath 1 0 "b" then some [depotRows [1, 2, 5, 9]]
  else if path = Gc.partPath 1 0 "u" then some [depotRows [1, 9]]
  else if path = Gc.partPath 1 0 "uu" then some [depotRows [1, 5, 9]]
  else (depotWritten.find? fun x => x.output.path = path).map Written.rowGroups

def depot : Warehouse where
  ht := depotTable
  cols := shopColumns
  reader := noteEnv.reader
  codec := .characters
  store := depotStore
  version := depot_version

def depotMerge : Call := commitCompactionReplace 1 ⟨1, .obj [], 5, 1, 1000000⟩ [2]
  (depotWritten.map fun x => mergedPart (.obj []) 1 x.output) ⟨1, "merge", [8]⟩

/-- The tenant that is deleted. -/
abbrev depotLeaver : I64 := smallI64 2

/-- The two parts, as the catalog has them. -/
def depotParts : List PartRow :=
  [⟨1, 1, depotPart "a" [1, 2, 9], 1, none, none⟩,
    ⟨2, 1, depotPart "b" [1, 2, 5, 9], 2, none, none⟩]

section Depot

variable {T : Tables}

/-- The partition columns are none. -/
theorem partitionValues_nil {s : Schema} {r : Row s} {v : Json}
    (h : partitionValues [] r = .ok v) : v = .obj [] := by
  cases h
  rfl

/-- A flush of the depot is a writer's. -/
theorem depot_makes_add {uuid : String} {tenants : List UInt8}
    (hpublishes : publishes (depotItems tenants) (depotPart uuid tenants) [depotRows tenants] =
      true)
    (hput : depot.store (depotPart uuid tenants).path = some [depotRows tenants]) :
    Makes depot careful T (depotAdd uuid tenants) []
      { added := rowsOf depot.content [depotPart uuid tenants] } := by
  obtain ⟨items, hitems, hobs⟩ := Except.map_eq_ok_iff.mp (of_decide_eq_true hpublishes)
  obtain ⟨item, rfl, hitem⟩ := List.map_eq_singleton_iff.mp hobs
  obtain ⟨hmeta, hschema, hcells⟩ := of_decide_eq_true hitem
  refine .view (by rfl) (by rfl) hitems (fun _ _ r _ r' _ v v' hv hv' _ => ?_)
    (fun _ rows _ v v' hne _ => Or.inl ?_) rfl
    (.cons ⟨_, _, _, hmeta.symm, hput, dataFile_eq hschema hcells⟩ .nil)
  · rw [partitionValues_nil hv, partitionValues_nil hv']
  · rintro r ⟨-, hv⟩ r' ⟨-, hv'⟩
    exact absurd ((partitionValues_nil hv).trans (partitionValues_nil hv').symm) hne

/-- So is its merge. -/
theorem depot_makes_merge (hT : T.liveParts 1 = depotParts) :
    Makes depot careful T depotMerge (depotParts.drop 1) {} := by
  have hstreams : partStreams oneExpr (fun _ => some (noteEnv.reader.file [depotRows [1, 2, 5, 9]]))
      shopColumns.physicalSchema shopColumns [depotPart "b" [1, 2, 5, 9]] = .ok depotStreams :=
    eq_ok_getD (by decide +kernel) []
  have hdrained : (mergeStreams .codes depotStreams depotTable.sortKey).2 = .drained := by
    decide +kernel
  have hwritten : StreamingChunkWriter.write depotWriter (depotBatches.map .ok) =
      .ok depotWritten := eq_ok_getD (by decide +kernel) []
  have hput : ∀ x ∈ depotWritten, depotStore x.output.path = some x.rowGroups := by
    decide +kernel
  have hstored : depotStore (depotPart "b" [1, 2, 5, 9]).path = some [depotRows [1, 2, 5, 9]] := by
    decide +kernel
  have hfile : depot.file (depotPart "b" [1, 2, 5, 9]).path =
      some (noteEnv.reader.file [depotRows [1, 2, 5, 9]]) :=
    congrArg (Option.map noteEnv.reader.file) hstored
  have hlive : ∀ p ∈ depotParts.drop 1, p ∈ T.liveParts 1 := fun p hp =>
    hT ▸ List.mem_of_mem_drop hp
  refine @Makes.merge depot careful T (depotParts.drop 1) oneExpr _ depotStreams .codes depotBatches
    depotWriter depotWritten _ _ _ _ hlive (fun p hp => ?_) hstreams (Prod.ext rfl hdrained) rfl rfl
    hwritten hput
  obtain rfl : p = _ := List.mem_singleton.mp hp
  exact hfile.symm

/-- And a deletion. -/
theorem depot_makes_deletion {d : Erasure} {names : List (Int × String)}
    (hT : T.parts.map (fun p => p.partMeta.path) = names.map fun n => Gc.partPath 1 n.1 n.2)
    (hnames : ∀ n ∈ names, n.2.toList.head? ≠ some 'u')
    (hd : d ∈ (deleteKey noteEnv depot.file T depotTable depotLeaver).toOption.join)
    (hputs : putsRounds noteEnv depot depotLeaver (overlappingParts T 1 depotLeaver) = true)
    (hapart : careful → DeletionApart depot T depotLeaver) :
    ∃ e, Makes depot careful T d.call (overlappingParts T 1 depotLeaver) e :=
  ⟨_, .deleteKey (fun _ _ => rfl) (noteEnv_fresh names hT hnames) rfl rfl (eq_ok_of_mem hd)
    (fun _ _ _ _ _ _ hsplit hdone hwrites => put_of_putsRounds hputs hsplit hdone hwrites) hapart⟩

end Depot

/-- The two flushes are published. -/
def depotFlushes : List Event :=
  (.begin (depotAdd "a" [1, 2, 9]) :: landing 0 5) ++
    (.begin (depotAdd "b" [1, 2, 5, 9]) :: landing 1 5)

theorem depot_flushed {db : Db} (h : Lts.run Catalog.step {} depotFlushes = some db) :
    ∃ s : Lake depot, Relation.ReflTransGen (Proceeds depot careful) {} s ∧ s.db = db := by
  obtain ⟨db₁, hfirst, hsecond⟩ := Lts.run_append.mp h
  obtain ⟨s₁, hrun, rfl⟩ := @proceeds_turn depot careful {} _ _ _ _ _
    (depot_makes_add (by decide +kernel) (by decide +kernel : depotStore _ = _))
    (landing_begins 0 5) hfirst
  obtain ⟨s₂, hrun', rfl⟩ := proceeds_turn
    (depot_makes_add (by decide +kernel) (by decide +kernel : depotStore _ = _))
    (landing_begins 1 5) hsecond
  exact ⟨s₂, hrun.trans hrun', rfl⟩

/-- The tenant is deleted of both. -/
theorem depot_deletes : ∃ db ∈ Lts.run Catalog.step {} depotFlushes,
    db.tables.parts.map (fun p => p.partMeta.path) =
      [((0 : Int), "a"), (0, "b")].map (fun n => Gc.partPath 1 n.1 n.2) ∧
    ∃ d ∈ (deleteKey noteEnv depot.file db.tables depotTable depotLeaver).toOption.join,
      putsRounds noteEnv depot depotLeaver (overlappingParts db.tables 1 depotLeaver) = true ∧
      ∃ db' ∈ Lts.run Catalog.step db (.begin d.call :: landing 2 7),
        (runParts db'.tables 1 (.obj []) 0 3).map (fun p =>
          (p.partMeta.packingKeyMin, p.partMeta.packingKeyMax)) = [(1, 9), (1, 9)] := by
  decide +kernel

/-- The second is merged first. -/
theorem depot_merges : ∃ db ∈ Lts.run Catalog.step {} depotFlushes,
    ∃ db₁ ∈ Lts.run Catalog.step db [.drawLease ⟨1, .obj []⟩ 5 1000, .installLease 0],
    db₁.tables.liveParts 1 = depotParts ∧
    ∃ db₂ ∈ Lts.run Catalog.step db₁ (.begin depotMerge :: landing 2 12),
    db₂.tables.parts.map (fun p => p.partMeta.path) =
      [((0 : Int), "a"), (0, "b"), (1, "0"), (1, "1"), (1, "2"), (1, "3")].map
        (fun n => Gc.partPath 1 n.1 n.2) ∧
    (∀ p ∈ overlappingParts db₂.tables 1 depotLeaver,
      ∀ q ∈ overlappingParts db₂.tables 1 depotLeaver, p.id ≠ q.id →
        p.partMeta.level ≠ q.partMeta.level) ∧
    ∃ d ∈ (deleteKey noteEnv depot.file db₂.tables depotTable depotLeaver).toOption.join,
      putsRounds noteEnv depot depotLeaver (overlappingParts db₂.tables 1 depotLeaver) = true ∧
      ∃ db₃ ∈ Lts.run Catalog.step db₂ (.begin d.call :: landing 3 6),
        (runParts db₃.tables 1 (.obj []) 1 3).map PartRow.id = [3, 5, 6] := by
  decide +kernel

theorem depot_start : Lake.Start ({} : Lake depot) := ⟨initial_empty, by simp, rfl, rfl⟩

/-- Two parts with one range of two keys or more are no run. -/
theorem not_isRun_of_ranges {parts : List PartRow} {lo hi : Int} (hlt : lo < hi)
    (hranges : parts.map (fun p => (p.partMeta.packingKeyMin, p.partMeta.packingKeyMax)) =
      [(lo, hi), (lo, hi)]) : ¬ IsRun parts := by
  rintro ⟨l, hperm, hchain⟩
  have hall : ∀ p ∈ l, p.partMeta.packingKeyMin = lo ∧ p.partMeta.packingKeyMax = hi := by
    intro p hp
    have hmem := List.mem_map_of_mem (f := fun p : PartRow =>
      (p.partMeta.packingKeyMin, p.partMeta.packingKeyMax)) (hperm.mem_iff.mp hp)
    rw [hranges] at hmem
    simpa using hmem
  have hlength : l.length = 2 := by
    rw [hperm.length_eq, ← List.length_map, hranges]
    rfl
  obtain ⟨p, q, rfl⟩ := List.length_eq_two.mp hlength
  have hle := (List.isChain_cons_cons.mp hchain).1
  rw [(hall p (by simp)).2, (hall q (by simp)).1] at hle
  exact absurd hlt (not_lt.mpr hle)

/-- **A deletion breaks it**: what it leaves of two flushes whose keys interleave is of one commit
and no run. -/
theorem deletion_breaks_run :
    ¬ ∀ (H : Warehouse) (s₀ s : Lake H), s₀.Start →
      (∀ p ∈ s₀.db.tables.parts, p.hypertableId ≠ H.ht.id) →
      Relation.ReflTransGen (Proceeds H False) s₀ s → ∀ (partition : Json) (level commit : Int),
        IsRun (runParts s.db.tables H.ht.id partition level commit) := by
  intro h
  obtain ⟨db, hflushed, hpaths, d, hd, hputs, db', hdeleted, hranges⟩ := depot_deletes
  obtain ⟨s, hrun, rfl⟩ := depot_flushed hflushed
  obtain ⟨e, hwrites⟩ := depot_makes_deletion hpaths (by decide) hd hputs False.elim
  obtain ⟨s', hrun', rfl⟩ := proceeds_turn hwrites (landing_begins 2 7) hdeleted
  exact not_isRun_of_ranges (by decide) hranges
    (h depot {} s' depot_start (by simp) (hrun.trans hrun') (.obj []) 0 3)

theorem runs_ordered_depot : ∃ s : Lake depot, Relation.ReflTransGen (Proceeds depot True) {} s ∧
    (runParts s.db.tables 1 (.obj []) 1 3).map PartRow.id = [3, 5, 6] ∧
    IsRun (runParts s.db.tables 1 (.obj []) 1 3) := by
  obtain ⟨db, hflushed, db₁, hlease, hlive, db₂, hmerged, hpaths, hlevels, d, hd, hputs, db₃,
    hdeleted, hids⟩ := depot_merges
  obtain ⟨s, hrun, rfl⟩ := depot_flushed hflushed
  obtain ⟨s₁, hrun₁, rfl⟩ := @proceeds_events depot True s _ _ (by simp) hlease
  obtain ⟨s₂, hrun₂, rfl⟩ := proceeds_turn (depot_makes_merge hlive) (landing_begins 2 12) hmerged
  have hapart : DeletionApart depot s₂.db.tables depotLeaver := fun p hp q hq hne halike =>
    absurd halike.1 (hlevels p hp q hq hne)
  obtain ⟨e, hwrites⟩ := depot_makes_deletion hpaths (by decide) hd hputs fun _ => hapart
  obtain ⟨s₃, hrun₃, rfl⟩ := proceeds_turn hwrites (landing_begins 3 6) hdeleted
  have hall := ((hrun.trans hrun₁).trans hrun₂).trans hrun₃
  exact ⟨s₃, hall, hids, runs_ordered depot_start (by simp) hall (.obj []) 1 3⟩

end Ukiel.Query
