/-
# The metadata of a part

Three writers make parts: the write path encodes a sorted batch in one go, for ingest and for
views (`encode_batch`); the streaming merge folds the slices it writes (`OpenFile::close`); and
the deletion of a key records the rows that stay (`delete_key`).  `Made` is any history of these,
over any schemas the table has had while it kept its sort key and its packing key: a merge and a
deletion read files that were made before.

`metadata_exact_iff`: what is recorded of every part is exact, whatever its history, but for the
ranges of `Int64` columns that share a name and differ in them.
-/
import Ukiel.Core.PartStats
import Ukiel.Compactor.Deletion
import Ukiel.Ingest.Writer

namespace Ukiel.Compactor
open Ukiel.Catalog Ukiel.Expr Ukiel.Write

/-! ## 1. Parts and their files -/

/-- A Parquet file. -/
structure DataFile where
  schema : Schema
  rowGroups : List (List (Row schema))

def DataFile.rows (f : DataFile) : List (Row f.schema) := f.rowGroups.flatten

/-- **What is recorded of a file is exact**, its `Int64` ranges apart. -/
structure KeysExact (codec : KeyCodec) (ht : Hypertable) (m : PartMeta) (f : DataFile) : Prop where
  keyed : ∀ r ∈ f.rows, packingKeyOf ht.packingKey r ≠ none
  min : ∃ lo : I64, m.packingKeyMin = lo.val ∧ IsLeast (keysOf f.rows ht.packingKey) lo
  max : ∃ hi : I64, m.packingKeyMax = hi.val ∧ IsGreatest (keysOf f.rows ht.packingKey) hi
  count : m.rowCount = f.rows.length
  sorted : ∃ columns, sortColumns f.schema ht.sortKey = .ok columns ∧ SortedRows columns f.rows
  index : KeyIndexExact codec ht.packingKey m.columnStats f.rowGroups

/-- **All that is recorded of a file is exact.** -/
structure MetadataExact (codec : KeyCodec) (ht : Hypertable) (m : PartMeta) (f : DataFile) : Prop
    extends KeysExact codec ht m f where
  ranges : RangesExact m.columnStats f.rows

/-- **What a scan relies on**: of what is recorded of a file, the key range, the index and the
ranges of the columns, none of which is said to be there. -/
structure MetadataSound (codec : KeyCodec) (ht : Hypertable) (m : PartMeta) (f : DataFile) :
    Prop where
  min : ∃ lo : I64, m.packingKeyMin = lo.val ∧ IsLeast (keysOf f.rows ht.packingKey) lo
  max : ∃ hi : I64, m.packingKeyMax = hi.val ∧ IsGreatest (keysOf f.rows ht.packingKey) hi
  index : KeyIndexSound codec ht.packingKey m.columnStats f.rowGroups
  ranges : RangesSound m.columnStats f.rows

/-- The part of a new L0 file, as `publish_add` commits it. -/
def publishedPart (path : String) (item : FlushItem) (sizeBytes : Int) : PartMeta :=
  ⟨path, item.partitionValues, item.part.keyMin, item.part.keyMax, item.part.rowCount, sizeBytes, 0,
    item.part.columnStats⟩

/-- The file of an item. -/
def itemFile (item : FlushItem) : DataFile := ⟨item.part.schema, item.part.rowGroups⟩

/-- The part of a merged file, as `merge_parts` commits it. -/
def mergedPart (partitionValues : Json) (level : Int) (c : ChunkOutput) : PartMeta :=
  ⟨c.path, partitionValues, c.keyMin, c.keyMax, c.rowCount, c.sizeBytes, level, c.columnStats⟩

/-- A schema of the table: it parses, and it has the columns of the sort key, as
`create_hypertable` checks them. -/
structure Version (ht : Hypertable) (tableSchema : Json) (cols : TableColumns) : Prop where
  parse : TableColumns.parse tableSchema = .ok cols
  sortKey : validateSortKey cols.physicalSchema ht.sortKey ht.packingKey none = .ok ()

/-- **The parts of a hypertable**, each made by one of the writers, with their files. -/
inductive Made (reader : ParquetReader) (codec : PartCodec) (ht : Hypertable) :
    PartMeta → DataFile → Prop where
  /-- A flush of the ingest. -/
  | ingest {tableSchema : Json} {cols : TableColumns} {json : Ingest.JsonReader} {eval : Evaluator}
      {L : Lexsort} {tsColumn : String} {rows : List Json} {item : FlushItem} {path : String}
      {sizeBytes : Int} (version : Version ht tableSchema cols)
      (encode : Ingest.encodeRows json eval L codec cols ht.packingKey tsColumn ht.sortKey rows =
        .ok item.part) :
      Made reader codec ht (publishedPart path item sizeBytes) (itemFile item)
  /-- Output of a view. -/
  | view {tableSchema : Json} {cols : TableColumns} {kernel : CastKernel} {eval : Evaluator}
      {memory : List (List Value) → Nat} {render : Json → String} {L : Lexsort}
      {batches : List RecordBatch} {maxBytes : Nat} {items : List FlushItem} {item : FlushItem}
      {path : String} {sizeBytes : Int} (version : Version ht tableSchema cols)
      (encode : batchesToL0Items kernel eval memory render L codec batches { ht with tableSchema }
        maxBytes = .ok items) (mem : item ∈ items) :
      Made reader codec ht (publishedPart path item sizeBytes) (itemFile item)
  /-- A merge of parts whose streams come to their end. -/
  | merge {tableSchema : Json} {cols : TableColumns} {eval : Evaluator}
      {store : String → Option PartFile} {group : List PartMeta} {files : PartMeta → DataFile}
      {streams : List (PartBatchStream cols.physicalSchema)} {converter : RowConverter}
      {batches : List (List (Row cols.physicalSchema))} {env : ChunkWriterEnv}
      {written : List (Written cols.physicalSchema)} {x : Written cols.physicalSchema}
      {partitionValues : Json} {level : Int} (version : Version ht tableSchema cols)
      (made : ∀ m ∈ group, Made reader codec ht m (files m))
      (stored : ∀ m ∈ group, store m.path = some (reader.file (files m).rowGroups))
      (read : partStreams eval store cols.physicalSchema cols group = .ok streams)
      (drained : mergeStreams converter streams ht.sortKey = (batches, .drained))
      (key : env.packingKey = ht.packingKey) (code : env.codec = codec)
      (write : StreamingChunkWriter.write env (batches.map .ok) = .ok written)
      (mem : x ∈ written) :
      Made reader codec ht (mergedPart partitionValues level x.output)
        ⟨cols.physicalSchema, x.rowGroups⟩
  /-- The rewrite of a part without a key. -/
  | rewrite {tableSchema : Json} {cols : TableColumns} {env : DeletionEnv} {key : I64}
      {w w' : Rewriting} {p : PartRow} {file : DataFile} {new : PartMeta}
      {batch : List (Row cols.physicalSchema)} {keys : List (Option I64)}
      {groups : List (List (Row cols.physicalSchema))} {spans : Option Json}
      (version : Version ht tableSchema cols) (made : Made reader codec ht p.partMeta file)
      (stored : w.store p.partMeta.path = some (reader.file file.rowGroups))
      (code : env.codec = codec) (round : rewritePart env ht cols key w p = .ok w')
      (added : w'.newParts = w.newParts ++ [new])
      -- the file that was put
      (read : readPartsForRewrite env.eval w.store cols [p.partMeta] = .ok batch)
      (column : int64Column batch ht.packingKey = .ok keys)
      (write : batchToParquetKeyAligned env.codec.parquet defaultMaxRowGroupRows
        (filterNeq batch keys key) ht.packingKey = .ok (groups, spans)) :
      Made reader codec ht new ⟨cols.physicalSchema, groups⟩

/-! ## 2. What every writer knows -/

section Facts

variable {codec : KeyCodec} {ht : Hypertable} {s : Schema} {rows : List (Row s)}
  {groups : List (List (Row s))} {i : Nat}

/-- **What a writer has recorded of the rows of a part**, and their order. -/
structure Ranged (ht : Hypertable) (m : PartMeta) (b : RecordBatch) : Prop where
  column : ∃ i, b.schema.indexOf ht.packingKey = some i ∧
    b.schema[i]?.map Field.dataType = some .int64 ∧
    (∀ r ∈ b.rows, (r.cell i).asInt64? ≠ none) ∧
    ∃ lo hi : I64, m.packingKeyMin = lo.val ∧ m.packingKeyMax = hi.val ∧
      arrowMin (int64Array i b.rows) = some lo ∧ arrowMax (int64Array i b.rows) = some hi
  count : m.rowCount = b.rows.length
  sorted : ∃ columns, sortColumns b.schema ht.sortKey = .ok columns ∧ SortedRows columns b.rows

/-- **What a writer has recorded of a file**: as much as it could. -/
structure Recorded (codec : KeyCodec) (ht : Hypertable) (m : PartMeta) (f : DataFile) : Prop
    extends Ranged ht m ⟨f.schema, f.rows⟩ where
  stats : ∃ ranges bitmap spans,
    StatsOf codec ht.packingKey m.columnStats f.rowGroups ranges bitmap spans

/-- A row's key is one of the keys. -/
theorem mem_keysOf {packingKey : String} {r : Row s} {key : I64} (hr : r ∈ rows)
    (h : packingKeyOf packingKey r = some key) : key ∈ keysOf rows packingKey := by
  obtain ⟨i, hi, hcell⟩ := Option.bind_eq_some_iff.mp h
  have hint : r.cell i = .int64 key := by
    revert hcell
    cases r.cell i <;> simp [Value.asInt64?]
  obtain ⟨f, hf, -⟩ := Schema.indexOf_eq_some.mp hi
  have htype : s[i]?.map Field.dataType = some .int64 := by
    have hadmits := r.admits hf
    simpa [hint, Field.admits, hf] using hadmits
  rw [← columnValues_eq_keysOf hi htype]
  exact ⟨htype, List.mem_map.mpr ⟨r, hr, hcell⟩⟩

/-- The rows have keys, and the key range is theirs. -/
theorem Ranged.keys {m : PartMeta} {b : RecordBatch} (h : Ranged ht m b) :
    (∀ r ∈ b.rows, ∃ v, packingKeyOf ht.packingKey r = some v) ∧
      ∃ lo hi : I64, m.packingKeyMin = lo.val ∧ m.packingKeyMax = hi.val ∧
        IsLeast (keysOf b.rows ht.packingKey) lo ∧ IsGreatest (keysOf b.rows ht.packingKey) hi := by
  obtain ⟨i, hi, htype, hkeyed, lo, hi', hmin, hmax, hlo, hhi⟩ := h.column
  have hkeys : ∀ {v}, v ∈ keysOf b.rows ht.packingKey ↔ some v ∈ int64Array i b.rows := by
    intro v
    rw [← columnValues_eq_keysOf hi htype]
    exact ⟨fun hv => hv.2, fun hv => ⟨htype, hv⟩⟩
  obtain ⟨hlomem, hle⟩ := arrowMin_eq_some.mp hlo
  obtain ⟨hhimem, hge⟩ := arrowMax_eq_some.mp hhi
  refine ⟨fun r hr => ?_, lo, hi', hmin, hmax, ⟨hkeys.mpr hlomem, fun v hv => hle v (hkeys.mp hv)⟩,
    hkeys.mpr hhimem, fun v hv => hge v (hkeys.mp hv)⟩
  rw [packingKeyOf, hi, Option.bind_some]
  exact Option.ne_none_iff_exists'.mp (hkeyed r hr)

theorem Recorded.keysExact {m : PartMeta} {f : DataFile} (h : Recorded codec ht m f)
    (hfree : Unreserved f.schema) : KeysExact codec ht m f := by
  obtain ⟨hkeyed, lo, hi, hmin, hmax, hlo, hhi⟩ := h.toRanged.keys
  obtain ⟨ranges, bitmap, spans, hstats⟩ := h.stats
  exact ⟨fun r hr => Option.ne_none_iff_exists'.mpr (hkeyed r hr), ⟨lo, hmin, hlo⟩, ⟨hi, hmax, hhi⟩,
    h.count, h.sorted, hstats.keyIndexExact hfree⟩

/-- **The ranges are exact** where columns of one name agree. -/
theorem Recorded.metadataExact_iff {m : PartMeta} {f : DataFile} (h : Recorded codec ht m f)
    (hfree : Unreserved f.schema) : MetadataExact codec ht m f ↔ TwinsAlike f.rows := by
  obtain ⟨ranges, bitmap, spans, hstats⟩ := h.stats
  have hiff := hstats.rangesExact_iff hfree
  exact ⟨fun hexact => hiff.mp hexact.ranges, fun htwins => ⟨h.keysExact hfree, hiff.mpr htwins⟩⟩

/-- Where columns of one name agree, whatever the columns are called. -/
theorem Recorded.metadataSound {m : PartMeta} {f : DataFile} (h : Recorded codec ht m f)
    (halike : TwinsAlike f.rows) : MetadataSound codec ht m f := by
  obtain ⟨-, lo, hi, hmin, hmax, hlo, hhi⟩ := h.toRanged.keys
  obtain ⟨ranges, bitmap, spans, hstats⟩ := h.stats
  exact ⟨⟨lo, hmin, hlo⟩, ⟨hi, hmax, hhi⟩, hstats.keyIndexSound, hstats.rangesSound halike⟩

end Facts

/-! ## 3. The write path -/

section L0

variable {codec : PartCodec} {ht : Hypertable} {s : Schema} {rows : List (Row s)} {L : Lexsort}

/-- The writers that have all the rows of the file at once. -/
theorem recorded_of_batch {i : Nat} {columns : List Nat} {groups : List (List (Row s))}
    {lo hi : I64} {bitmap : Option String} {spans : Option Json}
    (hindex : s.indexOf ht.packingKey = some i) (htype : s[i]?.map Field.dataType = some .int64)
    (hkeyed : ∀ r ∈ rows, (r.cell i).asInt64? ≠ none)
    (hmin : arrowMin (int64Array i rows) = some lo) (hmax : arrowMax (int64Array i rows) = some hi)
    (hcolumns : sortColumns s ht.sortKey = .ok columns) (hsorted : SortedRows columns rows)
    (hrows : groups.flatten = rows)
    (hbitmap : bitmap = none ∨ bitmap = keyBitmap codec rows ht.packingKey)
    (hspans : spans = none ∨ spans = keyRowGroups groups ht.packingKey) (path : String)
    (partitionValues : Json) (sizeBytes level : Int) :
    Recorded codec ht ⟨path, partitionValues, lo, hi, rows.length, sizeBytes, level,
      withKeyIndex (int64ColumnStats rows) bitmap spans⟩ ⟨s, groups⟩ := by
  have hstats := @statsOf_batch codec _ _ _ _ _ _ hrows hbitmap hspans
  subst hrows
  exact ⟨⟨⟨i, hindex, htype, hkeyed, lo, hi, rfl, rfl, hmin, hmax⟩, rfl,
    ⟨columns, hcolumns, hsorted⟩⟩, _, _, _, hstats⟩

/-- A part of the write path. -/
theorem recorded_of_finishPart {item : FlushItem}
    (h : finishPart L codec rows ht.sortKey ht.packingKey = .ok item.part) (path : String)
    (sizeBytes : Int) :
    Recorded codec ht (publishedPart path item sizeBytes) (itemFile item) := by
  obtain ⟨sorted, hsort, hencode⟩ := finishPart_eq_ok_iff.mp h
  obtain ⟨columns, hcols, -, -, hsorted⟩ := sortBatch_eq_ok hsort
  obtain ⟨i, f, keyMin, keyMax, hi, hf, htype, hnone, hmin, hmax, hpart⟩ := encodeBatch_eq_ok hencode
  obtain ⟨value, part⟩ := item
  subst hpart
  refine recorded_of_batch hi (by rw [hf]; exact congrArg some htype) ?_ hmin hmax hcols
    hsorted (flatten_write _ _ sorted) ?_ (Or.inl rfl) path value sizeBytes 0
  · intro r hr hcell
    exact hnone (hcell ▸ List.mem_map_of_mem (f := fun r => (Row.cell r i).asInt64?) hr)
  · split
    · exact Or.inr rfl
    · exact Or.inl rfl

theorem recorded_of_encodeRows {cols : TableColumns}
    {json : Ingest.JsonReader} {eval : Evaluator} {tsColumn : String} {jsonRows : List Json}
    {item : FlushItem} (h : Ingest.encodeRows json eval L codec cols ht.packingKey tsColumn
      ht.sortKey jsonRows = .ok item.part) (path : String) (sizeBytes : Int) :
    Recorded codec ht (publishedPart path item sizeBytes) (itemFile item) := by
  obtain ⟨batch, filled, -, -, hfinish⟩ := Ingest.encodeRows_eq_ok_iff.mp h
  exact recorded_of_finishPart hfinish path sizeBytes

theorem recorded_of_items {tableSchema : Json} {cols : TableColumns} {kernel : CastKernel}
    {eval : Evaluator} {memory : List (List Value) → Nat} {render : Json → String}
    {batches : List RecordBatch} {maxBytes : Nat} {items : List FlushItem} {item : FlushItem}
    (version : Version ht tableSchema cols)
    (h : batchesToL0Items kernel eval memory render L codec batches { ht with tableSchema }
      maxBytes = .ok items) (hmem : item ∈ items) (path : String) (sizeBytes : Int) :
    Recorded codec ht (publishedPart path item sizeBytes) (itemFile item) := by
  obtain ⟨partitions, hpartitions⟩ : ∃ partitions,
      partitionColumns { ht with tableSchema } = .ok partitions := by
    unfold batchesToL0Items at h
    obtain ⟨_, -, h⟩ := Except.bind_eq_ok_iff.mp h
    obtain ⟨partitions, hpartitions, -⟩ := Except.bind_eq_ok_iff.mp h
    exact ⟨partitions, hpartitions⟩
  obtain ⟨rows, -, ⟨-, rfl⟩ | ⟨-, -, groups, -, hitems⟩⟩ :=
    (batchesToL0Items_eq_ok_iff version.parse hpartitions).mp h
  · exact absurd hmem List.not_mem_nil
  · obtain ⟨g, -, hitem⟩ := hitems.flip.exists_of_mem hmem
    obtain ⟨part, hpart, rfl⟩ := Except.map_eq_ok_iff.mp hitem
    exact recorded_of_finishPart hpart path sizeBytes

end L0

/-! ## 4. A rewrite of rows -/

section Rows

variable {codec : PartCodec} {ht : Hypertable} {cols : TableColumns} {file : Schema}
  {sortKey : List String} {columns columns' : List Nat}

/-- A row that is read is in the order it was stored in. -/
theorem sortCode_of_readByName {r : Row file} {r' : Row cols.physicalSchema}
    (hfile : sortColumns file sortKey = .ok columns')
    (hcolumns : sortColumns cols.physicalSchema sortKey = .ok columns) (h : ReadByName cols r r') :
    sortCode columns r' = sortCode columns' r := by
  rw [sortColumns_eq_ok] at hfile hcolumns
  unfold sortCode
  induction hcolumns generalizing columns' with
  | nil =>
    cases hfile
    rfl
  | cons hi _ ih =>
    cases hfile with
    | cons hj hfile =>
      obtain ⟨f, hf, hname, -⟩ := Schema.indexOf_eq_some.mp hi
      rw [List.map_cons, List.map_cons, ih hfile, h _ f _ hf (hname ▸ hj)]

theorem sortedRows_of_readByName {rows : List (Row file)} {batch : List (Row cols.physicalSchema)}
    (hfile : sortColumns file sortKey = .ok columns')
    (hcolumns : sortColumns cols.physicalSchema sortKey = .ok columns)
    (h : List.Forall₂ (ReadByName cols) rows batch) (hsorted : SortedRows columns' rows) :
    SortedRows columns batch := by
  have hcodes : rows.map (sortCode columns') = batch.map (sortCode columns) := by
    rw [← List.forall₂_eq_eq_eq, List.forall₂_map_left_iff, List.forall₂_map_right_iff]
    exact h.imp fun _ _ hr => (sortCode_of_readByName hfile hcolumns hr).symm
  exact List.pairwise_map.mp (hcodes ▸ List.pairwise_map.mpr hsorted)

/-- The columns a version of the table has. -/
theorem Version.sortColumns {tableSchema : Json} (version : Version ht tableSchema cols) :
    ∃ i rest, sortColumns cols.physicalSchema ht.sortKey = .ok (i :: rest) ∧
      cols.physicalSchema.indexOf ht.packingKey = some i :=
  validateSortKey_eq_ok version.sortKey

end Rows

/-! ## 5. The deletion -/

section Rewrite

variable {reader : ParquetReader} {codec : PartCodec} {ht : Hypertable} {cols : TableColumns}

/-- The spans are those of the row groups the file has. -/
theorem spans_keyAligned {P : ParquetWriter} {s : Schema} {n : Nat} {batch : List (Row s)}
    {packingKey : String} {out : List (List (Row s)) × Option Json}
    (h : batchToParquetKeyAligned P n batch packingKey = .ok out) :
    out.2 = keyRowGroups out.1 packingKey := by
  obtain ⟨slices, -, h⟩ := Except.bind_eq_ok_iff.mp h
  cases h
  rw [P.close_eq, P.flush_flush]

theorem recorded_of_rewritePart {tableSchema : Json} {env : DeletionEnv} {key : I64}
    {w w' : Rewriting} {p : PartRow} {b : RecordBatch} {new : PartMeta}
    {batch : List (Row cols.physicalSchema)} {keys : List (Option I64)}
    {groups : List (List (Row cols.physicalSchema))} {spans : Option Json}
    (version : Version ht tableSchema cols) (hranged : Ranged ht p.partMeta b)
    (hstored : partRows w.store p.partMeta = some b)
    (hcode : env.codec = codec) (hround : rewritePart env ht cols key w p = .ok w')
    (hadded : w'.newParts = w.newParts ++ [new])
    (hread : readPartsForRewrite env.eval w.store cols [p.partMeta] = .ok batch)
    (hcolumn : int64Column batch ht.packingKey = .ok keys)
    (hwrite : batchToParquetKeyAligned env.codec.parquet defaultMaxRowGroupRows
      (filterNeq batch keys key) ht.packingKey = .ok (groups, spans)) :
    Recorded codec ht new ⟨cols.physicalSchema, groups⟩ := by
  have hself : ∀ {l : List PartMeta}, w.newParts ≠ w.newParts ++ new :: l :=
    fun h => by simpa using congrArg List.length h
  rcases rewritePart_cases hround with ⟨-, rfl⟩ |
    ⟨-, batch', i, kept, hread', hi, htype, hkept, -, ⟨-, hparts, -⟩ |
      ⟨-, range, groups', spans', new', hrange, hwrite', hnew, hparts, -⟩⟩
  · exact absurd hadded hself
  · exact absurd (hparts.symm.trans hadded) hself
  obtain rfl : batch' = batch := Except.ok.inj (hread'.symm.trans hread)
  obtain ⟨i', hi', -, rfl⟩ := int64Column_eq_ok hcolumn
  obtain rfl : i' = i := Option.some.inj (hi'.symm.trans hi)
  rw [← hkept] at hwrite
  cases hwrite'.symm.trans hwrite
  obtain rfl : new' = new := by simpa using hparts.symm.trans hadded
  -- the rows that stay, in their order
  obtain ⟨b', hb, hkeeps⟩ := readPartsForRewrite_eq_ok hread
  obtain rfl : b' = b := Option.some.inj (hb.symm.trans hstored)
  obtain ⟨hsurvivors, hothers⟩ := @filterNeq_readByName _ key _ _ _ _ hi hranged.keys.1 hkeeps
  rw [← hkept] at hsurvivors hothers
  obtain ⟨columns, hcolumns⟩ : ∃ columns, sortColumns cols.physicalSchema ht.sortKey = .ok columns := by
    obtain ⟨i, rest, hcolumns, -⟩ := version.sortColumns
    exact ⟨_, hcolumns⟩
  obtain ⟨columns', hcolumns', hsorted⟩ := hranged.sorted
  obtain ⟨j, hj, hmin, hmax⟩ := keyRange_eq_ok hrange
  obtain rfl : j = i' := Option.some.inj (hj.symm.trans hi)
  subst hnew hcode
  refine recorded_of_batch hi htype ?_ hmin hmax hcolumns
    (sortedRows_of_readByName hcolumns' hcolumns hsurvivors (hsorted.sublist List.filter_sublist))
    (flatten_keyAligned hwrite) ?_ ?_ _ _ _ _
  · intro r hr
    obtain ⟨v, hv, -⟩ := hothers r hr
    rw [hv]
    exact Option.some_ne_none v
  · split
    · exact Or.inr rfl
    · exact Or.inl rfl
  · split
    · exact Or.inr (spans_keyAligned hwrite)
    · exact Or.inl rfl

end Rewrite

/-! ## 6. The merge -/

section Merge

variable {codec : PartCodec} {ht : Hypertable} {cols : TableColumns} {s : Schema}

/-- What the open file has been given, slice by slice. -/
def Sliced (env : ChunkWriterEnv) (f : OpenFile env s) : Prop :=
  f.packingKey = env.packingKey ∧ ∃ slices : List (List (Row s)),
    env.parquet.rows f.writer = slices.flatten ∧
    f.stats = slices.foldl Int64StatsAccumulator.update .empty ∧
    f.keys = KeyBitmapAccumulator.empty.updates slices env.packingKey

/-- **The statistics of every file** are those of its rows. -/
theorem statsOf_files (env : ChunkWriterEnv) : FileRule env (Sliced (s := s) env) fun x =>
    ∃ ranges bitmap spans,
      StatsOf env.codec env.packingKey x.output.columnStats x.rowGroups ranges bitmap spans where
  fresh _ _ _ := ⟨rfl, [], env.parquet.rows_new _, rfl, rfl⟩
  flush f h := by
    obtain ⟨hkey, slices, hrows, hstats, hkeys⟩ := h
    exact ⟨hkey, slices, by rw [env.parquet.rows_flush, hrows], hstats, hkeys⟩
  slice f k rows h := by
    obtain ⟨hkey, slices, hrows, hstats, hkeys⟩ := h
    refine ⟨hkey, slices ++ [rows], ?_, ?_, ?_⟩
    · simp [OpenFile.writeSlice, hrows]
    · simp [OpenFile.writeSlice, hstats]
    · simp [OpenFile.writeSlice, hkeys, hkey, KeyBitmapAccumulator.updates]
  close f h := by
    obtain ⟨hkey, slices, hrows, hstats, hkeys⟩ := h
    have hfile : (env.parquet.close f.writer).flatten = slices.flatten := by
      rw [env.parquet.flatten_close, hrows]
    simp only [OpenFile.close, hstats, hkeys, hkey, ← env.parquet.close_eq]
    refine ⟨_, _, _, statsOf_slices hfile ?_ ?_⟩
    · split
      · exact Or.inr rfl
      · exact Or.inl rfl
    · split
      · exact Or.inr rfl
      · exact Or.inl rfl

theorem mem_streamRows {α : Type} {stream : List (Except CompactorError (List α))} {a : α} :
    a ∈ streamRows stream ↔ ∃ batch, .ok batch ∈ stream ∧ a ∈ batch := by
  induction stream with
  | nil => simp [streamRows]
  | cons item stream ih =>
    cases item with
    | ok batch => simp [streamRows, ih]
    | error e => simp [streamRows, ih]

theorem streamRows_ok {α : Type} (batches : List (List α)) :
    streamRows (batches.map .ok) = batches.flatten := by
  induction batches with
  | nil => rfl
  | cons batch batches ih => rw [List.map_cons, streamRows, ih, List.flatten_cons]

/-- **Every row of a stream** is one of the file, as it is stored. -/
theorem stored_of_stream {eval : Evaluator} {path : String} {file : PartFile}
    {rows : List (Row file.schema)} {r' : Row cols.physicalSchema} (hrows : file.rows = some rows)
    (h : r' ∈ streamRows (file.batches.map (readBatch eval cols.physicalSchema cols path))) :
    ∃ r ∈ rows, ReadByName cols r r' := by
  obtain ⟨stored, hstored, rfl⟩ := Option.map_eq_some_iff.mp hrows
  obtain ⟨out, hout, hr'⟩ := mem_streamRows.mp h
  obtain ⟨item, hitem, hread⟩ := List.mem_map.mp hout
  obtain ⟨rows, hmem, rfl⟩ := (List.mapM_eq_some_iff.mp hstored).exists_of_mem hitem
  obtain ⟨r, hr, hkeeps⟩ := (readByName_of_readBatch hread).flip.exists_of_mem hr'
  exact ⟨r, List.mem_flatten_of_mem hmem hr, hkeeps⟩

/-- The rows of a merge have the keys they were stored with. -/
theorem keyed_of_streams {eval : Evaluator} {store : String → Option PartFile}
    {group : List PartMeta} {content : PartMeta → RecordBatch}
    {streams : List (PartBatchStream cols.physicalSchema)} {i : Nat}
    (hi : cols.physicalSchema.indexOf ht.packingKey = some i)
    (hranged : ∀ m ∈ group, Ranged ht m (content m))
    (hstored : ∀ m ∈ group, partRows store m = some (content m))
    (hread : partStreams eval store cols.physicalSchema cols group = .ok streams) :
    ∀ input ∈ streams, ∀ r ∈ streamRows input.stream, (r.cell i).asInt64? ≠ none := by
  intro input hinput r' hr'
  obtain ⟨m, hm, hopen⟩ := (List.mapM_eq_ok_iff.mp hread).flip.exists_of_mem hinput
  obtain ⟨file, hfile, hrows⟩ := Option.bind_eq_some_iff.mp (hstored m hm)
  obtain ⟨rows, hrows, hcontent⟩ := Option.map_eq_some_iff.mp hrows
  rw [hfile] at hopen
  cases hopen
  obtain ⟨r, hr, hkeeps⟩ := stored_of_stream hrows hr'
  have hkeyed := (hranged m hm).keys.1
  rw [← hcontent] at hkeyed
  obtain ⟨v, hv⟩ := hkeyed r hr
  rw [packingKeyOf_of_readByName hi hkeeps hv]
  exact Option.some_ne_none v

/-- Rows in the order of the sort key are in that of the packing key. -/
theorem slots_sorted {i : Nat} {rest : List Nat} {rows : List (Row s)}
    (hkeyed : ∀ r ∈ rows, (r.cell i).asInt64? ≠ none) (h : SortedRows (i :: rest) rows) :
    rows.Pairwise fun a b => (a.cell i).slot ≤ (b.cell i).slot := by
  have hslot : ∀ r ∈ rows, r.cell i = .int64 (r.cell i).slot := by
    intro r hr
    have := hkeyed r hr
    cases hcell : r.cell i with
    | int64 n => rfl
    | null => rw [hcell] at this; exact absurd rfl this
    | float64 bits => rw [hcell] at this; exact absurd rfl this
    | utf8 text => rw [hcell] at this; exact absurd rfl this
    | bool b => rw [hcell] at this; exact absurd rfl this
  refine h.imp_of_mem fun {a b} ha hb hab => ?_
  have hle := head_le_of_sortCode_le hab
  rw [hslot a ha, hslot b hb] at hle
  exact code_int64_le.mp hle

/-- What is recorded of the keys of a file, in terms of its packing key column. -/
theorem range_of_exact {i : Nat} {rows : List (Row s)} {lo hi : I64} {count : Int}
    (hkeyed : ∀ r ∈ rows, (r.cell i).asInt64? ≠ none)
    (h : Exact (fun r => (r.cell i).slot) rows lo hi count) :
    arrowMin (int64Array i rows) = some lo ∧ arrowMax (int64Array i rows) = some hi := by
  have hcell : ∀ r ∈ rows, (r.cell i).asInt64? = some (r.cell i).slot := by
    intro r hr
    obtain ⟨v, hv⟩ := Option.ne_none_iff_exists'.mp (hkeyed r hr)
    cases hcell : r.cell i <;> rw [hcell] at hv <;> cases hv
    rfl
  have hmem : ∀ v, some v ∈ int64Array i rows ↔ ∃ r ∈ rows, (r.cell i).slot = v := by
    intro v
    rw [int64Array, List.mem_map]
    refine exists_congr fun r => and_congr_right fun hr => ?_
    rw [hcell r hr, Option.some.injEq]
  rw [arrowMin_eq_some, arrowMax_eq_some]
  simp only [hmem, forall_exists_index, and_imp]
  exact ⟨⟨h.min_mem, fun _ r hr hv => hv ▸ h.min_le r hr⟩,
    h.max_mem, fun _ r hr hv => hv ▸ h.le_max r hr⟩

/-- A file of a stream has a packing key. -/
theorem int64_of_written {env : ChunkWriterEnv} {i : Nat} (hi : s.indexOf env.packingKey = some i)
    {batches : List (List (Row s))} {written : List (Written s)} {x : Written s}
    (h : StreamingChunkWriter.write env (batches.map .ok) = .ok written) (hmem : x ∈ written) :
    s[i]?.map Field.dataType = some .int64 := by
  obtain ⟨w, hw, rfl⟩ := write_eq_ok h
  cases batches with
  | nil =>
    cases hw
    exact absurd hmem List.not_mem_nil
  | cons batch batches =>
    obtain ⟨runs, hruns, -⟩ := Except.bind_eq_ok_iff.mp hw
    obtain ⟨keys, hkeys, -⟩ := Except.bind_eq_ok_iff.mp hruns
    obtain ⟨j, hj, htype, -⟩ := int64Column_eq_ok hkeys
    exact Option.some.inj (hj.symm.trans hi) ▸ htype

/-- **A merge** of parts that are recorded as they are: its rows have keys and are in order, and
they are spread over its files. -/
theorem chunks_of_merge {tableSchema : Json} {eval : Evaluator} {store : String → Option PartFile}
    {group : List PartMeta} {content : PartMeta → RecordBatch}
    {streams : List (PartBatchStream cols.physicalSchema)} {converter : RowConverter}
    {batches : List (List (Row cols.physicalSchema))} {env : ChunkWriterEnv}
    {written : List (Written cols.physicalSchema)} {x : Written cols.physicalSchema}
    (version : Version ht tableSchema cols) (hranged : ∀ m ∈ group, Ranged ht m (content m))
    (hstored : ∀ m ∈ group, partRows store m = some (content m))
    (hread : partStreams eval store cols.physicalSchema cols group = .ok streams)
    (hdrained : mergeStreams converter streams ht.sortKey = (batches, .drained))
    (hkey : env.packingKey = ht.packingKey)
    (hwrite : StreamingChunkWriter.write env (batches.map .ok) = .ok written)
    (hmem : x ∈ written) :
    ∃ i rest, sortColumns cols.physicalSchema ht.sortKey = .ok (i :: rest) ∧
      cols.physicalSchema.indexOf ht.packingKey = some i ∧
      cols.physicalSchema[i]?.map Field.dataType = some .int64 ∧
      (∀ r ∈ batches.flatten, (r.cell i).asInt64? ≠ none) ∧
      SortedRows (i :: rest) batches.flatten ∧
      ChunksOf (fun r => (r.cell i).slot) env.placement batches.flatten written := by
  obtain ⟨i, rest, hcolumns, hi⟩ := version.sortColumns
  obtain ⟨-, hperm, hsorted⟩ := mergeStreams_drained hcolumns hdrained
  have hkeyed : ∀ r ∈ batches.flatten, (r.cell i).asInt64? ≠ none := by
    intro r hr
    obtain ⟨rows, hrows, hr⟩ := List.mem_flatten.mp (hperm.mem_iff.mp hr)
    obtain ⟨input, hinput, rfl⟩ := List.mem_map.mp hrows
    exact keyed_of_streams hi hranged hstored hread input hinput r hr
  rw [← hkey] at hi
  have hint := int64_of_written hi hwrite hmem
  have hchunks := chunksOf_of_written hi hint
    (fun item hitem => (List.mem_map.mp hitem).imp fun _ h => h.2.symm)
    (by rw [streamRows_ok]; exact slots_sorted hkeyed hsorted) hwrite
  rw [streamRows_ok] at hchunks
  exact ⟨i, rest, hcolumns, hkey ▸ hi, hint, hkeyed, hsorted, hchunks⟩

theorem recorded_of_merge {tableSchema : Json} {eval : Evaluator}
    {store : String → Option PartFile} {group : List PartMeta} {content : PartMeta → RecordBatch}
    {streams : List (PartBatchStream cols.physicalSchema)} {converter : RowConverter}
    {batches : List (List (Row cols.physicalSchema))} {env : ChunkWriterEnv}
    {written : List (Written cols.physicalSchema)} {x : Written cols.physicalSchema}
    (version : Version ht tableSchema cols) (hranged : ∀ m ∈ group, Ranged ht m (content m))
    (hstored : ∀ m ∈ group, partRows store m = some (content m))
    (hread : partStreams eval store cols.physicalSchema cols group = .ok streams)
    (hdrained : mergeStreams converter streams ht.sortKey = (batches, .drained))
    (hkey : env.packingKey = ht.packingKey) (hcode : env.codec = codec)
    (hwrite : StreamingChunkWriter.write env (batches.map .ok) = .ok written)
    (hmem : x ∈ written) (partitionValues : Json) (level : Int) :
    Recorded codec ht (mergedPart partitionValues level x.output)
      ⟨cols.physicalSchema, x.rowGroups⟩ := by
  obtain ⟨i, rest, hcolumns, hi, hint, hkeyed, hsorted, hchunks⟩ :=
    chunks_of_merge version hranged hstored hread hdrained hkey hwrite hmem
  obtain ⟨ranges, bitmap, spans, hstats⟩ := (statsOf_files env).written hwrite x hmem
  have hrows : x.rows.Sublist batches.flatten := by
    rw [← hchunks.rows, List.flatMap_def]
    exact List.sublist_flatten_of_mem (List.mem_map_of_mem hmem)
  have hkeyed' : ∀ r ∈ x.rows, (r.cell i).asInt64? ≠ none := fun r hr =>
    hkeyed r (hrows.subset hr)
  have hexact := hchunks.exact x hmem
  obtain ⟨hmin, hmax⟩ := range_of_exact hkeyed' hexact
  subst hcode
  rw [hkey] at hstats
  exact ⟨⟨⟨i, hi, hint, hkeyed', _, _, rfl, rfl, hmin, hmax⟩, hexact.count,
    ⟨i :: rest, hcolumns, hsorted.sublist hrows⟩⟩, ranges, bitmap, spans, hstats⟩

end Merge

/-! ## 7. Every history -/

section History

variable {reader : ParquetReader} {codec : PartCodec} {ht : Hypertable} {m : PartMeta} {f : DataFile}

/-- **Every writer keeps the books**, over files that were made before. -/
theorem Made.recorded (h : Made reader codec ht m f) : Recorded codec ht m f := by
  induction h with
  | ingest _ encode => exact recorded_of_encodeRows encode _ _
  | view version encode mem => exact recorded_of_items version encode mem _ _
  | @merge _ _ _ _ _ files _ _ _ _ _ _ _ _ version _ stored read drained key code write mem ih =>
    exact recorded_of_merge version (fun m hm => (ih m hm).toRanged)
      (fun m hm => partRows_of_file reader (stored m hm) rfl) read drained key code write mem _ _
  | rewrite version _ stored code round added read column write ih =>
    exact recorded_of_rewritePart version ih.toRanged (partRows_of_file reader stored rfl) code
      round added read column write

/-- **The metadata of every part is exact**, whoever made it and of whatever files, if and only if
the `Int64` columns of one name have one range. -/
theorem metadata_exact_iff (h : Made reader codec ht m f) (hfree : Unreserved f.schema) :
    MetadataExact codec ht m f ↔ TwinsAlike f.rows :=
  h.recorded.metadataExact_iff hfree

end History

/-! ## 8. Columns of one name -/

/-- A table with two columns `x`, the second of which is computed. -/
def twinTable : Hypertable where
  id := 1
  name := "events"
  tableSchema := .obj [("fields", .arr [
    .obj [("name", .str "tenant_id"), ("type", .str "int64")],
    .obj [("name", .str "x"), ("type", .str "int64")],
    .obj [("name", .str "x"), ("type", .str "int64"), ("materialized", .str "1")]])]
  partitionSpec := .obj [("columns", .arr [])]
  sortKey := ["tenant_id"]
  packingKey := "tenant_id"
  placement := .packed

def twinColumns : TableColumns := ⟨[⟨"tenant_id", .int64, true, .stored, "int64", false⟩,
  ⟨"x", .int64, true, .stored, "int64", false⟩,
  ⟨"x", .int64, true, .materialized "1", "int64", false⟩]⟩

/-- What a view gives: tenants and values. -/
def twinOutput (rows : List (UInt8 × UInt8)) : RecordBatch :=
  ⟨[⟨"tenant_id", .int64, true, none⟩, ⟨"x", .int64, true, none⟩],
    rows.map fun r => ⟨[.int64 (smallI64 r.1), .int64 (smallI64 r.2)], rfl⟩⟩

/-- The expression `1`. -/
def oneExpr : Evaluator := fun _ _ _ rows => some (rows.map fun _ => .int64 (smallI64 1))

/-- The parts of a view's output. -/
def twinItems (rows : List (UInt8 × UInt8)) : Except WriteError (List FlushItem) :=
  batchesToL0Items .equal oneExpr (fun _ => 0) (fun _ => "\x7b\x7d") .stable .characters
    [twinOutput rows] twinTable 1000

/-- Values of two tenants that are not what is computed, and values that are. -/
def otherValues : List (UInt8 × UInt8) := [(1, 7), (2, 9), (2, 7)]

def sameValues : List (UInt8 × UInt8) := [(1, 1), (2, 1), (3, 1)]

theorem twin_version : Version twinTable twinTable.tableSchema twinColumns :=
  ⟨by rfl, by rfl⟩

theorem twin_unreserved : Unreserved twinColumns.physicalSchema := by
  unfold Unreserved
  decide

/-- The value goes to the second column, what is computed to the first. -/
theorem exists_twinItem {rows : List (UInt8 × UInt8)} {alike : Prop} [Decidable alike]
    (hobs : (twinItems rows).map (List.map fun item => decide ((itemFile item).schema =
      twinColumns.physicalSchema ∧
        (columnRange 1 (itemFile item).rows = columnRange 2 (itemFile item).rows ↔ alike))) =
      .ok [true]) :
    ∃ item, twinItems rows = .ok [item] ∧ (itemFile item).schema = twinColumns.physicalSchema ∧
      (columnRange 1 (itemFile item).rows = columnRange 2 (itemFile item).rows ↔ alike) := by
  obtain ⟨items, hitems, hobs⟩ := Except.map_eq_ok_iff.mp hobs
  obtain ⟨item, rfl, hitem⟩ := List.map_eq_singleton_iff.mp hobs
  exact ⟨item, hitems, of_decide_eq_true hitem⟩

theorem twin_made {rows : List (UInt8 × UInt8)} {item : FlushItem}
    (h : twinItems rows = .ok [item]) :
    Made noteEnv.reader .characters twinTable (publishedPart "ht/1/L0/a.parquet" item 100)
      (itemFile item) :=
  .view twin_version h List.mem_cons_self

/-- Of the columns of one name there are two. -/
theorem twinsAlike_iff {s : Schema} {rows : List (Row s)} (hs : s = twinColumns.physicalSchema) :
    TwinsAlike rows ↔ columnRange 1 rows = columnRange 2 rows := by
  subst hs
  refine ⟨fun h => h 1 2 _ _ rfl rfl rfl rfl rfl, fun h i j f g hf hg _ _ hname => ?_⟩
  have hplaces : ∀ i < 3, ∀ j < 3, (twinColumns.physicalSchema[i]?.map Field.name) =
      (twinColumns.physicalSchema[j]?.map Field.name) → i = j ∨ i = 1 ∧ j = 2 ∨ i = 2 ∧ j = 1 := by
    decide
  obtain ⟨hi, -⟩ := List.getElem?_eq_some_iff.mp hf
  obtain ⟨hj, -⟩ := List.getElem?_eq_some_iff.mp hg
  rcases hplaces i hi j hj (by rw [hf, hg, Option.map_some, Option.map_some, hname]) with
    rfl | ⟨rfl, rfl⟩ | ⟨rfl, rfl⟩
  · rfl
  · exact h
  · exact h.symm

/-- Files of two and of three tenants: what is recorded of the first is not exact. -/
theorem metadata_exact_iff_twin :
    (∃ item, twinItems otherValues = .ok [item] ∧
      ¬ MetadataExact .characters twinTable (publishedPart "ht/1/L0/a.parquet" item 100)
        (itemFile item)) ∧
    ∃ item, twinItems sameValues = .ok [item] ∧
      MetadataExact .characters twinTable (publishedPart "ht/1/L0/a.parquet" item 100)
        (itemFile item) := by
  obtain ⟨other, hother, hschema, hranges⟩ :=
    @exists_twinItem otherValues False _ (by decide +kernel)
  obtain ⟨same, hsame, hschema', hranges'⟩ :=
    @exists_twinItem sameValues True _ (by decide +kernel)
  refine ⟨⟨other, hother, fun h => ?_⟩, same, hsame, ?_⟩
  · exact hranges.mp ((twinsAlike_iff hschema).mp
      ((metadata_exact_iff (twin_made hother) (hschema ▸ twin_unreserved)).mp h))
  · exact (metadata_exact_iff (twin_made hsame) (hschema' ▸ twin_unreserved)).mpr
      ((twinsAlike_iff hschema').mpr (hranges'.mpr trivial))

/-- **The ranges of the two columns are not both recorded.** -/
theorem twin_metadata_inexact : ¬ ∀ (reader : ParquetReader) (codec : PartCodec) (ht : Hypertable)
    (m : PartMeta) (f : DataFile), Made reader codec ht m f → Unreserved f.schema →
      MetadataExact codec ht m f := by
  intro hall
  obtain ⟨item, hitems, hschema, hranges⟩ :=
    @exists_twinItem otherValues False _ (by decide +kernel)
  have hmade := twin_made hitems
  have hfree : Unreserved (itemFile item).schema := hschema ▸ twin_unreserved
  exact hranges.mp ((twinsAlike_iff hschema).mp
    ((hmade.recorded.metadataExact_iff hfree).mp (hall _ _ _ _ _ hmade hfree)))

end Ukiel.Compactor
