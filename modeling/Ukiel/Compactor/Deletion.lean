/-
# The deletion of a key

`ukiel-compactor/src/deletion.rs`.  `delete_key` reads the live parts whose key range contains the
key, and replaces all of them in one commit.  A part that is the key's alone is only dropped; any
other is read, filtered and written again, at its level and in its partition, unless nothing is
left of it.

`delete_key_erases`: whatever commits between the read and the deletion's own commit, it is the
parts that were read whose rows of the key are gone, and every row of another key is in exactly one
new part, as it was and where it was.
-/
import Ukiel.Compactor.Rewrite
import Ukiel.Compactor.ChunkWriter
import Ukiel.Compactor.Rows
import Ukiel.Gc.World
import Ukiel.Write.Batches

namespace Ukiel.Compactor
open Ukiel.Catalog Ukiel.Expr Ukiel.Write

/-! ## 1. The rewrite of a part -/

/-- `DELETION_TRANSFORMATION_VERSION`. -/
def deletionTransformationVersion : Nat := 2

structure DeletionStats where
  droppedParts : Nat := 0
  rewrittenParts : Nat := 0
  rowsDeleted : Int := 0
deriving DecidableEq

/-- The Parquet reader: how it cuts a file of these row groups into batches. -/
structure ParquetReader where
  batches : {α : Type} → List (List α) → List (List α)
  /-- Reading a file gives its rows back. -/
  flatten_batches : ∀ {α : Type} (groups : List (List α)), (batches groups).flatten = groups.flatten

/-- A file of these row groups, as its reader gives it. -/
def ParquetReader.file (reader : ParquetReader) {s : Schema} (groups : List (List (Row s))) :
    PartFile := ⟨s, (reader.batches groups).map some⟩

/-- What a deletion is told by others. -/
structure DeletionEnv where
  eval : Evaluator
  codec : PartCodec
  hash : List UInt8 → Digest
  float : UInt64 → String
  reader : ParquetReader
  /-- The n-th UUID it draws. -/
  uuid : Nat → String
  /-- The intent is registered, and the object put. -/
  publish : String → Except CompactorError Unit
  /-- How many bytes the Parquet file has. -/
  encodedLen : {s : Schema} → List (List (Row s)) → Int

/-- `read_parts_for_rewrite`. -/
def readPartsForRewrite (eval : Evaluator) (store : String → Option PartFile)
    (cols : TableColumns) (parts : List PartMeta) :
    Except CompactorError (List (Row cols.physicalSchema)) := do
  let inputs ← partStreams eval store cols.physicalSchema cols parts
  let batches ← (inputs.flatMap PartBatchStream.stream).mapM fun batch => batch
  return batches.flatten

/-- `neq` and `filter_record_batch`: a row stays where the comparison says so, which it does not
where the key is NULL. -/
def filterNeq {s : Schema} (batch : List (Row s)) (keys : List (Option I64)) (key : I64) :
    List (Row s) :=
  ((batch.zip keys).filter fun r => r.2.any fun v => v ≠ key).map Prod.fst

/-- A slice goes to the writer; before one that would overflow it the row group ends. -/
def writeAligned (P : ParquetWriter) {α : Type} (maxRowGroupRows : Nat) (writer : P.ArrowWriter α)
    (slice : List α) : P.ArrowWriter α :=
  let rows := (P.inProgress writer).length
  let writer := if 0 < rows ∧ maxRowGroupRows < rows + slice.length then P.flush writer else writer
  P.write writer slice

/-- `batch_to_parquet_key_aligned`: the row groups of the file, and their key spans. -/
def batchToParquetKeyAligned (P : ParquetWriter) {s : Schema} (maxRowGroupRows : Nat)
    (batch : List (Row s)) (packingKey : String) :
    Except CompactorError (List (List (Row s)) × Option Json) := do
  let slices ← splitByKey batch packingKey
  let writer := (slices.map Prod.snd).foldl (writeAligned P maxRowGroupRows) (P.new maxRowGroupRows)
  let writer := P.flush writer
  return (P.close writer, keyRowGroups (P.flushed writer) packingKey)

/-- The variables of the loop over the parts, and the store. -/
structure Rewriting where
  stats : DeletionStats := {}
  newParts : List PartMeta := []
  store : String → Option PartFile

/-- One round of the loop. -/
def rewritePart (env : DeletionEnv) (ht : Hypertable) (cols : TableColumns) (key : I64)
    (w : Rewriting) (part : PartRow) : Except CompactorError Rewriting := do
  let m := part.partMeta
  if m.packingKeyMin = key.val ∧ m.packingKeyMax = key.val then
    return { w with stats := { w.stats with
      droppedParts := w.stats.droppedParts + 1
      rowsDeleted := w.stats.rowsDeleted + m.rowCount } }
  let batch ← readPartsForRewrite env.eval w.store cols [m]
  let keys ← int64Column batch ht.packingKey
  let kept := filterNeq batch keys key
  let stats := { w.stats with
    rewrittenParts := w.stats.rewrittenParts + 1
    rowsDeleted := w.stats.rowsDeleted + ((batch.length - kept.length : Nat) : Int) }
  if kept = [] then
    return { w with stats := stats }
  let (keyMin, keyMax) ← keyRange kept ht.packingKey
  let (groups, spans) ←
    batchToParquetKeyAligned env.codec.parquet defaultMaxRowGroupRows kept ht.packingKey
  let path := Gc.partPath ht.id m.level (env.uuid w.newParts.length)
  env.publish path
  let bitmap := if keyMin ≠ keyMax then keyBitmap env.codec kept ht.packingKey else none
  let spans := if keyMin ≠ keyMax then spans else none
  return {
    stats := stats
    newParts := w.newParts ++ [⟨path, m.partitionValues, keyMin, keyMax, kept.length,
      env.encodedLen groups, m.level, withKeyIndex (int64ColumnStats kept) bitmap spans⟩]
    store := Function.update w.store path (some (env.reader.file groups)) }

/-! ## 2. The deletion -/

/-- `live_parts` with a key, `ORDER BY id`. -/
def overlappingParts (T : Tables) (h : HypertableId) (key : I64) : List PartRow :=
  (livePartsWithKey T h key.val).insertionSort fun p q => p.id ≤ q.id

/-- A deletion that is about to commit. -/
structure Erasure where
  stats : DeletionStats
  store : String → Option PartFile
  call : Call

/-- One atomic swap: the parts that were read, for those that were written. -/
def Rewriting.erasure (w : Rewriting) (h : HypertableId) (overlapping : List PartRow)
    (identity : OperationIdentity) : Erasure :=
  ⟨w.stats, w.store,
    Catalog.commit h (.replace (overlapping.map PartRow.id) w.newParts) (some identity)⟩

/-- `delete_key` up to its commit; none where no live part overlaps. -/
def deleteKey (env : DeletionEnv) (store : String → Option PartFile) (T : Tables)
    (ht : Hypertable) (key : I64) : Except CompactorError (Option Erasure) := do
  let overlapping := overlappingParts T ht.id key
  if overlapping = [] then
    return none
  let identity ← (OperationIdentity.deleteKey env.hash env.float ht.id
    ⟨key.val, overlapping.map PartRow.id, ht.tableSchema, ht.sortKey, ht.placement,
      deletionTransformationVersion⟩).mapError .operation
  let cols ← (TableColumns.parse ht.tableSchema).mapError .schema
  let w ← overlapping.foldlM (rewritePart env ht cols key) { store := store }
  return some (w.erasure ht.id overlapping identity)

/-! ## 3. Stored rows -/

/-- The rows of a file, where all of its batches can be read. -/
def PartFile.rows (file : PartFile) : Option (List (Row file.schema)) :=
  (file.batches.mapM fun batch => batch).map List.flatten

/-- The rows of a part; none where it cannot be read. -/
def partRows (store : String → Option PartFile) (m : PartMeta) : Option RecordBatch :=
  (store m.path).bind fun file => file.rows.map fun rows => ⟨file.schema, rows⟩

/-- A row's packing key, unless it is NULL. -/
def packingKeyOf (packingKey : String) {s : Schema} (r : Row s) : Option I64 :=
  (s.indexOf packingKey).bind fun i => (r.cell i).asInt64?

/-- The rows of the key. -/
def rowsOfKey (packingKey : String) (key : I64) (b : RecordBatch) : List (Row b.schema) :=
  b.rows.filter fun r => packingKeyOf packingKey r = some key

/-- The rows of the other keys. -/
def survivors (packingKey : String) (key : I64) (b : RecordBatch) : List (Row b.schema) :=
  b.rows.filter fun r => packingKeyOf packingKey r ≠ some key

section Rows

variable {eval : Evaluator} {store : String → Option PartFile} {cols : TableColumns}
  {packingKey : String} {key : I64}

theorem rows_file (reader : ParquetReader) {s : Schema} (groups : List (List (Row s))) :
    (reader.file groups).rows = some groups.flatten := by
  have hall : ((reader.batches groups).map some).mapM (fun batch => batch) =
      some (reader.batches groups) := by
    rw [List.mapM_eq_some_iff, List.forall₂_map_left_iff, List.forall₂_same]
    exact fun _ _ => rfl
  rw [← reader.flatten_batches groups]
  exact congrArg (Option.map List.flatten) hall

theorem partRows_of_file (reader : ParquetReader) {s : Schema} {groups : List (List (Row s))}
    {m : PartMeta} {rows : List (Row s)} (hstore : store m.path = some (reader.file groups))
    (hrows : groups.flatten = rows) : partRows store m = some ⟨s, rows⟩ := by
  rw [partRows, hstore, Option.bind_some, rows_file, hrows]
  rfl

/-- Batches that were read have what is found by name. -/
theorem stored_of_readBatches {file : Schema} {path : String}
    {items : List (Option (List (Row file)))} {outs : List (List (Row cols.physicalSchema))}
    (h : List.Forall₂ (fun item out =>
      readBatch eval cols.physicalSchema cols path item = .ok out) items outs) :
    ∃ stored, items.mapM (fun batch => batch) = some stored ∧
      List.Forall₂ (List.Forall₂ (ReadByName cols)) stored outs := by
  simp only [List.mapM_eq_some_iff]
  induction h with
  | nil => exact ⟨[], .nil, .nil⟩
  | @cons item out items outs hread _ ih =>
    obtain ⟨stored, hstored, hkeeps⟩ := ih
    cases item with
    | none => cases hread
    | some rows =>
      exact ⟨rows :: stored, .cons rfl hstored, .cons (readByName_of_readBatch hread) hkeeps⟩

/-- A part is read for a rewrite row by row, with what is found by name. -/
theorem readPartsForRewrite_eq_ok {m : PartMeta} {batch : List (Row cols.physicalSchema)}
    (h : readPartsForRewrite eval store cols [m] = .ok batch) :
    ∃ b, partRows store m = some b ∧ List.Forall₂ (ReadByName cols) b.rows batch := by
  obtain ⟨inputs, hinputs, h⟩ := Except.bind_eq_ok_iff.mp h
  obtain ⟨batches, hbatches, h⟩ := Except.bind_eq_ok_iff.mp h
  cases h
  cases List.mapM_eq_ok_iff.mp hinputs with
  | cons hopen hnil =>
  cases hnil
  cases hstore : store m.path with
  | none =>
    rw [hstore] at hopen
    cases hopen
  | some file =>
    rw [hstore] at hopen
    cases hopen
    rw [List.flatMap_singleton, List.mapM_eq_ok_iff, List.forall₂_map_left_iff] at hbatches
    obtain ⟨stored, hstored, hkeeps⟩ := stored_of_readBatches hbatches
    refine ⟨⟨file.schema, stored.flatten⟩, ?_, List.rel_flatten hkeeps⟩
    rw [partRows, hstore, Option.bind_some, PartFile.rows, hstored]
    rfl

/-- What is read depends on that one file alone. -/
theorem readPartsForRewrite_congr {store' : String → Option PartFile} {m : PartMeta}
    (h : store' m.path = store m.path) :
    readPartsForRewrite eval store' cols [m] = readPartsForRewrite eval store cols [m] := by
  unfold readPartsForRewrite partStreams
  rw [List.mapM_cons, List.mapM_cons, h]
  rfl

theorem int64Column_eq_ok {s : Schema} {batch : List (Row s)} {name : String}
    {keys : List (Option I64)} (h : int64Column batch name = .ok keys) :
    ∃ i, s.indexOf name = some i ∧ s[i]?.map Field.dataType = some .int64 ∧
      keys = int64Array i batch := by
  unfold int64Column at h
  split at h
  · cases h
  · rename_i i hi
    split at h
    · rename_i htype
      cases h
      exact ⟨i, hi, htype, rfl⟩
    · cases h

/-- A row that is read has the packing key it was stored with. -/
theorem packingKeyOf_of_readByName {file : Schema} {r : Row file} {r' : Row cols.physicalSchema}
    {i : Nat} (hi : cols.physicalSchema.indexOf packingKey = some i) (h : ReadByName cols r r')
    {v : I64} (hv : packingKeyOf packingKey r = some v) : (r'.cell i).asInt64? = some v := by
  obtain ⟨j, hj, hcell⟩ := Option.bind_eq_some_iff.mp hv
  obtain ⟨f, hf, hname, -⟩ := Schema.indexOf_eq_some.mp hi
  rw [h i f j hf (hname ▸ hj), hcell]

/-- Where no key is NULL, the rows that stay are those of the other keys. -/
theorem filterNeq_eq {s : Schema} (i : Nat) {batch : List (Row s)} :
    filterNeq batch (int64Array i batch) key =
      batch.filter fun r => (r.cell i).asInt64?.any fun v => v ≠ key := by
  unfold filterNeq int64Array
  induction batch with
  | nil => rfl
  | cons r batch ih =>
    rw [List.map_cons, List.zip_cons_cons, List.filter_cons, List.filter_cons]
    split
    · rw [List.map_cons, ih]
    · exact ih

end Rows

/-! ## 4. The file that is written -/

section File

variable {P : ParquetWriter} {α : Type} {s : Schema} {batch : List (Row s)} {packingKey : String}

theorem rows_writeAligned (n : Nat) (w : P.ArrowWriter α) (slice : List α) :
    P.rows (writeAligned P n w slice) = P.rows w ++ slice := by
  unfold writeAligned
  simp only
  split <;> simp

theorem rows_foldl_writeAligned (n : Nat) (slices : List (List α)) (w : P.ArrowWriter α) :
    P.rows (slices.foldl (writeAligned P n) w) = P.rows w ++ slices.flatten := by
  induction slices generalizing w with
  | nil => simp
  | cons slice slices ih =>
    rw [List.foldl_cons, ih, rows_writeAligned, List.flatten_cons, List.append_assoc]

/-- **The file has the rows of the batch**, in their order. -/
theorem flatten_keyAligned {n : Nat} {out : List (List (Row s)) × Option Json}
    (h : batchToParquetKeyAligned P n batch packingKey = .ok out) : out.1.flatten = batch := by
  obtain ⟨slices, hslices, h⟩ := Except.bind_eq_ok_iff.mp h
  cases h
  obtain ⟨_, -, h⟩ := Except.bind_eq_ok_iff.mp hslices
  cases h
  rw [P.flatten_close, P.rows_flush, rows_foldl_writeAligned, P.rows_new, List.nil_append,
    ← List.flatMap_def]
  exact splitRuns_flatMap batch

/-- The range of a batch is that of its keys. -/
theorem keyRange_eq_ok {range : I64 × I64} (h : keyRange batch packingKey = .ok range) :
    ∃ i, s.indexOf packingKey = some i ∧ arrowMin (int64Array i batch) = some range.1 ∧
      arrowMax (int64Array i batch) = some range.2 := by
  obtain ⟨keys, hkeys, h⟩ := Except.bind_eq_ok_iff.mp h
  obtain ⟨i, hi, -, rfl⟩ := int64Column_eq_ok hkeys
  split at h
  · rename_i hmin hmax
    cases h
    exact ⟨i, hi, hmin, hmax⟩
  · cases h

end File

/-! ## 5. A round of the loop -/

/-- **What is recorded of a part is true of its file**: every writer promises it. -/
structure Sealed (store : String → Option PartFile) (packingKey : String) (m : PartMeta)
    (b : RecordBatch) : Prop where
  rows : partRows store m = some b
  count : m.rowCount = b.rows.length
  covers : ∀ r ∈ b.rows, ∃ v, packingKeyOf packingKey r = some v ∧
    m.packingKeyMin ≤ v.val ∧ v.val ≤ m.packingKeyMax

section Writers

variable {s : Schema} {store : String → Option PartFile} {packingKey : String} {m : PartMeta}

/-- A part of the write path. -/
theorem sealed_of_encodeBatch (reader : ParquetReader) {codec : PartCodec} {batch : List (Row s)}
    {n : Nat} {part : EncodedPart} (h : encodeBatch codec batch packingKey n = .ok part)
    (hstore : store m.path = some (reader.file part.rowGroups))
    (hmin : m.packingKeyMin = part.keyMin.val) (hmax : m.packingKeyMax = part.keyMax.val)
    (hcount : m.rowCount = part.rowCount) :
    Sealed store packingKey m ⟨part.schema, part.rows⟩ := by
  obtain ⟨i, f, keyMin, keyMax, hi, -, -, hnone, hlo, hhi, rfl⟩ := encodeBatch_eq_ok h
  refine ⟨partRows_of_file reader hstore rfl, ?_, fun r hr => ?_⟩
  · rw [hcount]
    exact congrArg (fun rows => ((List.length rows : Nat) : Int))
      (flatten_write codec.parquet n batch).symm
  · have hmem : (r.cell i).asInt64? ∈ int64Array i batch :=
      List.mem_map_of_mem (f := fun r => (Row.cell r i).asInt64?)
        (flatten_write codec.parquet n batch ▸ hr)
    obtain ⟨v, hv⟩ := Option.ne_none_iff_exists'.mp fun hcell => hnone (hcell ▸ hmem)
    rw [hv] at hmem
    exact ⟨v, by rw [packingKeyOf, hi]; exact hv, hmin ▸ (arrowMin_eq_some.mp hlo).2 v hmem,
      hmax ▸ (arrowMax_eq_some.mp hhi).2 v hmem⟩

/-- A file of a merge, in which no key is NULL. -/
theorem sealed_of_written (reader : ParquetReader) {x : Written s} {i : Nat}
    (hi : s.indexOf packingKey = some i) (hkeys : ∀ r ∈ x.rows, (r.cell i).asInt64? ≠ none)
    (hexact : Exact (fun r => (r.cell i).slot) x.rows x.output.keyMin x.output.keyMax
      x.output.rowCount)
    (hstore : store m.path = some (reader.file x.rowGroups))
    (hmin : m.packingKeyMin = x.output.keyMin.val) (hmax : m.packingKeyMax = x.output.keyMax.val)
    (hcount : m.rowCount = x.output.rowCount) : Sealed store packingKey m ⟨s, x.rows⟩ := by
  refine ⟨partRows_of_file reader hstore rfl, hcount.trans hexact.count, fun r hr => ?_⟩
  obtain ⟨v, hv⟩ := Option.ne_none_iff_exists'.mp (hkeys r hr)
  have hslot : (r.cell i).slot = v := by
    cases hcell : r.cell i <;> rw [hcell] at hv <;> cases hv
    rfl
  have hlo := hexact.min_le r hr
  have hhi := hexact.le_max r hr
  simp only [hslot] at hlo hhi
  exact ⟨v, by rw [packingKeyOf, hi]; exact hv, hmin ▸ hlo, hmax ▸ hhi⟩

end Writers

/-- What a stored row and a written one have to do with each other. -/
abbrev RowRel (cols : TableColumns) := ∀ file : Schema, Row file → Row cols.physicalSchema → Prop

/-- **The part is written again without the key**: in its partition and at its level, with the
rows of the other keys in their order, and each of them as it was kept. -/
structure Rewritten {cols : TableColumns} (kept : RowRel cols) (store : String → Option PartFile)
    (packingKey : String) (key : I64) (m : PartMeta) (b : RecordBatch) (new : PartMeta) :
    Prop where
  partition : new.partitionValues = m.partitionValues
  level : new.level = m.level
  rows : ∃ out, Sealed store packingKey new ⟨cols.physicalSchema, out⟩ ∧
    (∀ r ∈ out, packingKeyOf packingKey r ≠ some key) ∧
    List.Forall₂ (kept b.schema) (survivors packingKey key b) out

section Round

variable {env : DeletionEnv} {ht : Hypertable} {cols : TableColumns} {key : I64}
  {store : String → Option PartFile} {packingKey : String} {m : PartMeta} {b : RecordBatch}

theorem length_rowsOfKey_add_survivors (packingKey : String) (key : I64) (b : RecordBatch) :
    (rowsOfKey packingKey key b).length + (survivors packingKey key b).length = b.rows.length := by
  have h := List.length_eq_length_filter_add (l := b.rows)
    fun r => decide (packingKeyOf packingKey r = some key)
  simpa [rowsOfKey, survivors] using h.symm

/-- A part that is the key's alone has no other rows. -/
theorem survivors_of_owned (h : Sealed store packingKey m b) (hmin : m.packingKeyMin = key.val)
    (hmax : m.packingKeyMax = key.val) : survivors packingKey key b = [] := by
  refine List.filter_eq_nil_iff.mpr fun r hr => ?_
  obtain ⟨v, hv, hlo, hhi⟩ := h.covers r hr
  have : v = key := Subtype.ext (by omega)
  simp [hv, this]

/-- The rows that stay are the survivors, as they were stored. -/
theorem filterNeq_readByName {batch : List (Row cols.physicalSchema)} {i : Nat}
    (hi : cols.physicalSchema.indexOf packingKey = some i)
    (hkeys : ∀ r ∈ b.rows, ∃ v, packingKeyOf packingKey r = some v)
    (hread : List.Forall₂ (ReadByName cols) b.rows batch) :
    List.Forall₂ (ReadByName cols) (survivors packingKey key b)
        (filterNeq batch (int64Array i batch) key) ∧
      ∀ r ∈ filterNeq batch (int64Array i batch) key,
        ∃ v, (r.cell i).asInt64? = some v ∧ v ≠ key := by
  rw [filterNeq_eq]
  constructor
  · have hkeyed : List.Forall₂ (fun r r' => ∃ v, packingKeyOf packingKey r = some v ∧
        (r'.cell i).asInt64? = some v ∧ ReadByName cols r r') b.rows batch := by
      refine ((List.forall₂_and_left b.rows batch).mpr ⟨hkeys, hread⟩).imp ?_
      rintro r r' ⟨⟨v, hv⟩, hkeeps⟩
      exact ⟨v, hv, packingKeyOf_of_readByName hi hkeeps hv, hkeeps⟩
    refine (List.rel_filter (fun r r' hr => ?_) hkeyed).imp fun r r' hr => ?_
    · obtain ⟨v, hv, hv', -⟩ := hr
      simp [hv, hv']
    · exact hr.choose_spec.2.2
  · intro r hr
    obtain ⟨-, hany⟩ := List.mem_filter.mp hr
    obtain ⟨v, hv, hne⟩ := (Option.any_eq_true _ _).mp hany
    exact ⟨v, hv, of_decide_eq_true hne⟩

/-- What the rows of the key and the survivors are counted as. -/
theorem length_sub_kept {batch kept : List (Row cols.physicalSchema)}
    (hbatch : List.Forall₂ (ReadByName cols) b.rows batch)
    (hkept : List.Forall₂ (ReadByName cols) (survivors packingKey key b) kept) :
    batch.length - kept.length = (rowsOfKey packingKey key b).length := by
  have hsum := length_rowsOfKey_add_survivors packingKey key b
  rw [← hbatch.length_eq, ← hkept.length_eq, ← hsum, Nat.add_sub_cancel]

/-- What is recorded of the rows that stay. -/
def rewrittenPart (env : DeletionEnv) (ht : Hypertable) (m : PartMeta) (n : Nat) {s : Schema}
    (kept : List (Row s)) (range : I64 × I64) (groups : List (List (Row s))) (spans : Option Json) :
    PartMeta :=
  ⟨Gc.partPath ht.id m.level (env.uuid n), m.partitionValues, range.1, range.2, kept.length,
    env.encodedLen groups, m.level, withKeyIndex (int64ColumnStats kept)
      (if range.1 ≠ range.2 then keyBitmap env.codec kept ht.packingKey else none)
      (if range.1 ≠ range.2 then spans else none)⟩

/-- **A round**: the part is dropped, or it is read and what stays of it is written again. -/
theorem rewritePart_cases {w w' : Rewriting} {p : PartRow}
    (h : rewritePart env ht cols key w p = .ok w') :
    whollyOwned key.val p = true ∧ w' = { w with stats := { w.stats with
      droppedParts := w.stats.droppedParts + 1
      rowsDeleted := w.stats.rowsDeleted + p.partMeta.rowCount } } ∨
    whollyOwned key.val p = false ∧ ∃ batch i kept,
      readPartsForRewrite env.eval w.store cols [p.partMeta] = .ok batch ∧
      cols.physicalSchema.indexOf ht.packingKey = some i ∧
      cols.physicalSchema[i]?.map Field.dataType = some .int64 ∧
      kept = filterNeq batch (int64Array i batch) key ∧
      w'.stats = { w.stats with
        rewrittenParts := w.stats.rewrittenParts + 1
        rowsDeleted := w.stats.rowsDeleted + ((batch.length - kept.length : Nat) : Int) } ∧
      (kept = [] ∧ w'.newParts = w.newParts ∧ w'.store = w.store ∨
        kept ≠ [] ∧ ∃ range groups spans new, keyRange kept ht.packingKey = .ok range ∧
          batchToParquetKeyAligned env.codec.parquet defaultMaxRowGroupRows kept ht.packingKey =
            .ok (groups, spans) ∧
          new = rewrittenPart env ht p.partMeta w.newParts.length kept range groups spans ∧
          w'.newParts = w.newParts ++ [new] ∧
          w'.store = Function.update w.store new.path (some (env.reader.file groups))) := by
  unfold rewritePart at h
  simp only at h
  by_cases howned : p.partMeta.packingKeyMin = key.val ∧ p.partMeta.packingKeyMax = key.val
  · rw [if_pos howned] at h
    cases h
    exact Or.inl ⟨decide_eq_true howned, rfl⟩
  · rw [if_neg howned] at h
    obtain ⟨batch, hread, h⟩ := Except.bind_eq_ok_iff.mp h
    obtain ⟨keys, hkeys, h⟩ := Except.bind_eq_ok_iff.mp h
    obtain ⟨i, hi, htype, rfl⟩ := int64Column_eq_ok hkeys
    refine Or.inr ⟨decide_eq_false howned, batch, i, _, hread, hi, htype, rfl, ?_⟩
    by_cases hnil : filterNeq batch (int64Array i batch) key = []
    · rw [if_pos hnil] at h
      cases h
      exact ⟨rfl, Or.inl ⟨hnil, rfl, rfl⟩⟩
    · rw [if_neg hnil] at h
      obtain ⟨range, hrange, h⟩ := Except.bind_eq_ok_iff.mp h
      obtain ⟨⟨groups, spans⟩, hfile, h⟩ := Except.bind_eq_ok_iff.mp h
      obtain ⟨-, -, h⟩ := Except.bind_eq_ok_iff.mp h
      cases h
      exact ⟨rfl, Or.inr ⟨hnil, range, groups, spans, _, hrange, hfile, rfl, rfl, rfl⟩⟩

/-- **What a round does** with a part that is recorded as it is: it counts the rows of the key, and
writes the part again if any other are left. -/
theorem rewritePart_eq_ok {w w' : Rewriting} {p : PartRow}
    (hsealed : Sealed w.store ht.packingKey p.partMeta b)
    (h : rewritePart env ht cols key w p = .ok w') :
    w'.stats = ⟨w.stats.droppedParts + (if whollyOwned key.val p then 1 else 0),
      w.stats.rewrittenParts + (if whollyOwned key.val p then 0 else 1),
      w.stats.rowsDeleted + (rowsOfKey ht.packingKey key b).length⟩ ∧
    (survivors ht.packingKey key b = [] ∧ w'.newParts = w.newParts ∧ w'.store = w.store ∨
      survivors ht.packingKey key b ≠ [] ∧ ∃ new file,
        new.path = Gc.partPath ht.id p.partMeta.level (env.uuid w.newParts.length) ∧
        w'.newParts = w.newParts ++ [new] ∧
        w'.store = Function.update w.store new.path (some file) ∧
        Rewritten (fun _ => ReadByName cols) w'.store ht.packingKey key p.partMeta b new) := by
  rcases rewritePart_cases h with ⟨hw, rfl⟩ |
    ⟨hw, batch, i, kept, hread, hi, -, hfilter, hstats, hkeep⟩
  · obtain ⟨hmin, hmax⟩ := of_decide_eq_true hw
    have hnone := survivors_of_owned hsealed hmin hmax
    have hsum := length_rowsOfKey_add_survivors ht.packingKey key b
    rw [hnone, List.length_nil, Nat.add_zero] at hsum
    refine ⟨?_, Or.inl ⟨hnone, rfl, rfl⟩⟩
    rw [hw, hsum, ← hsealed.count]
    rfl
  · obtain ⟨b', hrows, hbatch⟩ := readPartsForRewrite_eq_ok hread
    obtain rfl : b' = b := Option.some.inj (hrows.symm.trans hsealed.rows)
    obtain ⟨hkept, hothers⟩ := @filterNeq_readByName _ key _ _ _ _ hi
      (fun r hr => (hsealed.covers r hr).imp fun _ hv => hv.1) hbatch
    rw [← hfilter] at hkept hothers
    rw [length_sub_kept hbatch hkept] at hstats
    refine ⟨by rw [hstats, hw]; rfl, ?_⟩
    rcases hkeep with ⟨hnil, hparts, hstore⟩ |
      ⟨hnil, range, groups, spans, new, hrange, hfile, hnew, hparts, hstore⟩
    · rw [hnil, List.forall₂_nil_right_iff] at hkept
      exact Or.inl ⟨hkept, hparts, hstore⟩
    · refine Or.inr ⟨?_, new, _, by rw [hnew]; rfl, hparts, hstore, by rw [hnew]; rfl,
        by rw [hnew]; rfl, kept, ?_, ?_, hkept⟩
      · intro hnone
        rw [hnone, List.forall₂_nil_left_iff] at hkept
        exact hnil hkept
      · obtain ⟨i', hi', hmin, hmax⟩ := keyRange_eq_ok hrange
        obtain rfl : i' = i := Option.some.inj (hi'.symm.trans hi)
        refine ⟨partRows_of_file env.reader (hstore ▸ Function.update_self _ _ _)
          (flatten_keyAligned hfile), by rw [hnew]; rfl, fun r hr => ?_⟩
        obtain ⟨v, hv, -⟩ := hothers r hr
        have hmem : some v ∈ int64Array i' kept := List.mem_map.mpr ⟨r, hr, hv⟩
        refine ⟨v, by rw [packingKeyOf, hi]; exact hv, ?_, ?_⟩
        · rw [hnew]
          exact (arrowMin_eq_some.mp hmin).2 v hmem
        · rw [hnew]
          exact (arrowMax_eq_some.mp hmax).2 v hmem
      · intro r hr
        obtain ⟨v, hv, hne⟩ := hothers r hr
        rw [packingKeyOf, hi, Option.bind_some, hv]
        exact fun h => hne (Option.some.inj h)

end Round

/-! ## 6. The loop -/

/-- UUIDs are fresh: none is drawn twice, and none is in the path of a part in the catalog. -/
structure FreshNames (env : DeletionEnv) (h : HypertableId) (T : Tables) : Prop where
  distinct : Function.Injective env.uuid
  unused : ∀ level n, ∀ p ∈ T.parts, p.partMeta.path ≠ Gc.partPath h level (env.uuid n)

/-- The rows of a part that can be read. -/
def storedBatch (store : String → Option PartFile) (m : PartMeta) : RecordBatch :=
  (partRows store m).getD ⟨[], []⟩

section Loop

variable {env : DeletionEnv} {ht : Hypertable} {cols : TableColumns} {key : I64}
  {store store' : String → Option PartFile} {packingKey : String} {m new : PartMeta}
  {b : RecordBatch}

theorem Sealed.storedBatch_eq (h : Sealed store packingKey m b) : storedBatch store m = b := by
  rw [storedBatch, h.rows]
  rfl

/-- It is so in any store that has the same object there. -/
theorem Sealed.congr (h : Sealed store packingKey m b) (hpath : store' m.path = store m.path) :
    Sealed store' packingKey m b :=
  ⟨by rw [partRows, hpath]; exact h.rows, h.count, h.covers⟩

theorem Rewritten.congr {kept : RowRel cols} (h : Rewritten kept store packingKey key m b new)
    (hpath : store' new.path = store new.path) :
    Rewritten kept store' packingKey key m b new := by
  obtain ⟨out, hsealed, hkey, hrows⟩ := h.rows
  exact ⟨h.partition, h.level, out, hsealed.congr hpath, hkey, hrows⟩

/-- The parts that are not dropped altogether. -/
def surviving (store : String → Option PartFile) (packingKey : String) (key : I64)
    (parts : List PartRow) : List PartRow :=
  parts.filter fun p => survivors packingKey key (storedBatch store p.partMeta) ≠ []

/-- The rows of the key in some parts. -/
def countKey (store : String → Option PartFile) (packingKey : String) (key : I64)
    (parts : List PartRow) : Nat :=
  (parts.map fun p => (rowsOfKey packingKey key (storedBatch store p.partMeta)).length).sum

/-- **The invariant of the loop**, when the parts `done` are done. -/
structure Rewrites (env : DeletionEnv) (ht : Hypertable) (cols : TableColumns) (key : I64)
    (store : String → Option PartFile) (done : List PartRow) (w : Rewriting) : Prop where
  stats : w.stats = ⟨(done.filter fun p => whollyOwned key.val p).length,
    (done.filter fun p => !whollyOwned key.val p).length,
    countKey store ht.packingKey key done⟩
  parts : List.Forall₂ (fun p new => Rewritten (fun _ => ReadByName cols) w.store ht.packingKey
    key p.partMeta (storedBatch store p.partMeta) new)
      (surviving store ht.packingKey key done) w.newParts
  paths : ∀ n new, w.newParts[n]? = some new →
    ∃ level, new.path = Gc.partPath ht.id level (env.uuid n)
  store : ∀ path, (∀ level n, path ≠ Gc.partPath ht.id level (env.uuid n)) →
    w.store path = store path

theorem Rewrites.nil : Rewrites env ht cols key store [] { store := store } :=
  ⟨rfl, .nil, by simp, fun _ _ => rfl⟩

/-- **A round keeps it.** -/
theorem Rewrites.round {T : Tables} {done : List PartRow} {w w' : Rewriting} {p : PartRow}
    (hw : Rewrites env ht cols key store done w) (hfresh : FreshNames env ht.id T)
    (hp : ∃ q ∈ T.parts, q.partMeta = p.partMeta)
    (hsealed : Sealed store ht.packingKey p.partMeta (storedBatch store p.partMeta))
    (h : rewritePart env ht cols key w p = .ok w') :
    Rewrites env ht cols key store (done ++ [p]) w' := by
  have hpath : w.store p.partMeta.path = store p.partMeta.path := by
    obtain ⟨q, hq, hmeta⟩ := hp
    exact hw.store _ fun level n => hmeta ▸ hfresh.unused level n q hq
  obtain ⟨hstats, hround⟩ := rewritePart_eq_ok (hsealed.congr hpath) h
  have hstats' : w'.stats = ⟨((done ++ [p]).filter fun p => whollyOwned key.val p).length,
      ((done ++ [p]).filter fun p => !whollyOwned key.val p).length,
      countKey store ht.packingKey key (done ++ [p])⟩ := by
    rw [hstats, hw.stats, countKey, countKey, List.map_append, List.sum_append, List.filter_append,
      List.filter_append, List.length_append, List.length_append]
    cases hown : whollyOwned key.val p <;> simp [hown]
  rcases hround with ⟨hnone, hparts, hstore⟩ | ⟨hsome, new, file, hname, hparts, hstore, hnew⟩
  · refine ⟨hstats', ?_, by rw [hparts]; exact hw.paths, by rw [hstore]; exact hw.store⟩
    have hsame : surviving store ht.packingKey key (done ++ [p]) =
        surviving store ht.packingKey key done := by
      simp [surviving, List.filter_append, hnone]
    rw [hparts, hstore, hsame]
    exact hw.parts
  · have hmore : surviving store ht.packingKey key (done ++ [p]) =
        surviving store ht.packingKey key done ++ [p] := by
      simp [surviving, List.filter_append, hsome]
    -- the earlier files have other names
    have hother : ∀ new' ∈ w.newParts, w'.store new'.path = w.store new'.path := by
      intro new' hmem
      obtain ⟨n, hlt, rfl⟩ := List.mem_iff_getElem.mp hmem
      obtain ⟨level, hname'⟩ := hw.paths n _ (List.getElem?_eq_getElem hlt)
      rw [hstore]
      refine Function.update_of_ne ?_ _ _
      rw [hname, hname']
      exact fun heq => hlt.ne (hfresh.distinct (Gc.partPath_inj heq).2.2)
    refine ⟨hstats', ?_, ?_, ?_⟩
    · rw [hparts, hmore]
      refine List.rel_append ?_ (.cons hnew .nil)
      refine ((List.forall₂_and_left _ _).mpr ⟨hother, hw.parts.flip⟩).flip.imp ?_
      exact fun _ _ h => h.2.congr h.1
    · intro n new' hn
      rw [hparts, List.getElem?_append] at hn
      split at hn
      · exact hw.paths n new' hn
      · rw [List.getElem?_singleton] at hn
        split at hn
        · cases hn
          obtain rfl : n = w.newParts.length := by omega
          exact ⟨_, hname⟩
        · cases hn
    · intro path hother
      rw [hstore, Function.update_of_ne (hname ▸ hother _ _)]
      exact hw.store path hother

/-- **The loop** over parts that are recorded as they are. -/
theorem rewrites_foldlM {T : Tables} {parts : List PartRow} {w : Rewriting}
    (hfresh : FreshNames env ht.id T) (hparts : ∀ p ∈ parts, ∃ q ∈ T.parts, q.partMeta = p.partMeta)
    (hsealed : ∀ p ∈ parts, Sealed store ht.packingKey p.partMeta (storedBatch store p.partMeta))
    (h : parts.foldlM (rewritePart env ht cols key) { store := store } = .ok w) :
    Rewrites env ht cols key store parts w :=
  List.foldlM_ok_induction h .nil fun _ p hp _ _ hw hround =>
    hw.round hfresh (hparts p hp) (hsealed p hp) hround

/-- The same but for the store, which is the same at these paths. -/
structure Agree (paths : Set String) (w w₂ : Rewriting) : Prop where
  stats : w₂.stats = w.stats
  newParts : w₂.newParts = w.newParts
  store : ∀ path ∈ paths, w₂.store path = w.store path

/-- A part that is the key's alone is not read. -/
theorem rewritePart_agree {paths : Set String} {w w₂ w' : Rewriting} {p : PartRow}
    (hw : Agree paths w w₂) (hp : whollyOwned key.val p = false → p.partMeta.path ∈ paths)
    (h : rewritePart env ht cols key w p = .ok w') :
    ∃ w₂', rewritePart env ht cols key w₂ p = .ok w₂' ∧ Agree paths w' w₂' := by
  unfold rewritePart at h ⊢
  simp only [hw.stats, hw.newParts] at h ⊢
  by_cases howned : p.partMeta.packingKeyMin = key.val ∧ p.partMeta.packingKeyMax = key.val
  · rw [if_pos howned] at h ⊢
    cases h
    exact ⟨_, rfl, rfl, rfl, hw.store⟩
  · rw [if_neg howned] at h ⊢
    rw [readPartsForRewrite_congr (hw.store _ (hp (decide_eq_false howned)))]
    obtain ⟨batch, hread, h⟩ := Except.bind_eq_ok_iff.mp h
    obtain ⟨keys, hkeys, h⟩ := Except.bind_eq_ok_iff.mp h
    simp only [hread, hkeys, bind, Except.bind]
    by_cases hnil : filterNeq batch keys key = []
    · rw [if_pos hnil] at h ⊢
      cases h
      exact ⟨_, rfl, rfl, rfl, hw.store⟩
    · rw [if_neg hnil] at h ⊢
      obtain ⟨range, hrange, h⟩ := Except.bind_eq_ok_iff.mp h
      obtain ⟨file, hfile, h⟩ := Except.bind_eq_ok_iff.mp h
      obtain ⟨_, hpublish, h⟩ := Except.bind_eq_ok_iff.mp h
      cases h
      simp only [hrange, hfile, hpublish]
      refine ⟨_, rfl, rfl, rfl, fun path hpath => ?_⟩
      simp only [Function.update_apply, hw.store path hpath]

theorem foldlM_agree {paths : Set String} {parts : List PartRow} {w w₂ w' : Rewriting}
    (hw : Agree paths w w₂)
    (hparts : ∀ p ∈ parts, whollyOwned key.val p = false → p.partMeta.path ∈ paths)
    (h : parts.foldlM (rewritePart env ht cols key) w = .ok w') :
    ∃ w₂', parts.foldlM (rewritePart env ht cols key) w₂ = .ok w₂' ∧ Agree paths w' w₂' := by
  induction parts generalizing w w₂ with
  | nil =>
    cases h
    exact ⟨w₂, rfl, hw⟩
  | cons p parts ih =>
    rw [List.foldlM_cons] at h ⊢
    obtain ⟨w₁, hround, h⟩ := Except.bind_eq_ok_iff.mp h
    obtain ⟨w₃, hround₂, hw₃⟩ := rewritePart_agree hw (hparts p List.mem_cons_self) hround
    rw [hround₂]
    exact ih hw₃ (fun p' hp' => hparts p' (List.mem_cons_of_mem p hp')) h

end Loop

/-! ## 7. The swap -/

/-- **What a deletion should have done**, which read the tables `T`, found `T₁` when it committed
and left `T₂`: it swapped the parts it had read, as they were, for the rewritten ones. -/
structure Erases {cols : TableColumns} (kept : RowRel cols) (env : DeletionEnv)
    (store : String → Option PartFile) (ht : Hypertable) (key : I64) (T T₁ T₂ : Tables)
    (d : Erasure) : Prop where
  inputs : ∀ p ∈ overlappingParts T ht.id key, ∃ q ∈ T₁.liveParts ht.id, q.id = p.id ∧
    q.partMeta = p.partMeta
  replaced : ∃ rows : List PartRow,
    T₂.liveParts ht.id = ((T₁.liveParts ht.id).filter fun q =>
      !decide (q.id ∈ (overlappingParts T ht.id key).map PartRow.id)) ++ rows ∧
    List.Forall₂ (fun p q => Rewritten kept d.store ht.packingKey key p.partMeta
      (storedBatch store p.partMeta) q.partMeta)
      (surviving store ht.packingKey key (overlappingParts T ht.id key)) rows
  untouched : ∀ q ∈ T₁.parts, ¬ (q.hypertableId = ht.id ∧ q.partMeta.packingKeyMin ≤ key.val ∧
    key.val ≤ q.partMeta.packingKeyMax) → q ∈ T₂.parts
  objects : ∀ q ∈ T₁.parts, d.store q.partMeta.path = store q.partMeta.path
  stats : d.stats = ⟨((overlappingParts T ht.id key).filter fun p => whollyOwned key.val p).length,
    ((overlappingParts T ht.id key).filter fun p => !whollyOwned key.val p).length,
    countKey store ht.packingKey key (overlappingParts T ht.id key)⟩
  unread : ∀ store' : String → Option PartFile,
    (∀ p ∈ overlappingParts T ht.id key, whollyOwned key.val p = false →
      store' p.partMeta.path = store p.partMeta.path) →
    ∃ d', deleteKey env store' T ht key = .ok (some d') ∧ d'.stats = d.stats ∧ d'.call = d.call

section Swap

variable {env : DeletionEnv} {ht : Hypertable} {key : I64} {store : String → Option PartFile}
  {T T₁ T₂ : Tables} {d : Erasure}

theorem mem_overlappingParts {p : PartRow} : p ∈ overlappingParts T ht.id key ↔
    p ∈ T.liveParts ht.id ∧ p.partMeta.packingKeyMin ≤ key.val ∧
      key.val ≤ p.partMeta.packingKeyMax := by
  rw [overlappingParts, (List.perm_insertionSort _ _).mem_iff, livePartsWithKey, List.mem_filter,
    decide_eq_true_eq]

/-- What `delete_key` has done when it commits. -/
theorem deleteKey_eq_ok (h : deleteKey env store T ht key = .ok (some d)) :
    ∃ identity cols w, TableColumns.parse ht.tableSchema = .ok cols ∧
      (overlappingParts T ht.id key).foldlM (rewritePart env ht cols key) { store := store } =
        .ok w ∧
      d = w.erasure ht.id (overlappingParts T ht.id key) identity ∧
      ∀ store' w', (overlappingParts T ht.id key).foldlM (rewritePart env ht cols key)
          { store := store' } = .ok w' →
        deleteKey env store' T ht key =
          .ok (some (w'.erasure ht.id (overlappingParts T ht.id key) identity)) := by
  unfold deleteKey at h ⊢
  simp only at h ⊢
  by_cases hnil : overlappingParts T ht.id key = []
  · rw [if_pos hnil] at h
    cases h
  · simp only [if_neg hnil] at h ⊢
    obtain ⟨identity, hidentity, h⟩ := Except.bind_eq_ok_iff.mp h
    obtain ⟨cols, hcols, h⟩ := Except.bind_eq_ok_iff.mp h
    obtain ⟨w, hw, h⟩ := Except.bind_eq_ok_iff.mp h
    cases h
    have hparse : TableColumns.parse ht.tableSchema = .ok cols := by
      cases hp : TableColumns.parse ht.tableSchema with
      | error e =>
        rw [hp] at hcols
        cases hcols
      | ok cols' =>
        rw [hp] at hcols
        cases hcols
        rfl
    refine ⟨identity, cols, w, hparse, hw, rfl, fun store' w' hw' => ?_⟩
    rw [hidentity, hcols]
    simp only [bind, Except.bind] at hw' ⊢
    rw [hw']
    rfl

/-- A deletion reads nothing of the parts that are the key's alone. -/
theorem deleteKey_unread (h : deleteKey env store T ht key = .ok (some d))
    {store' : String → Option PartFile}
    (hstore : ∀ p ∈ overlappingParts T ht.id key, whollyOwned key.val p = false →
      store' p.partMeta.path = store p.partMeta.path) :
    ∃ d', deleteKey env store' T ht key = .ok (some d') ∧ d'.stats = d.stats ∧
      d'.call = d.call := by
  obtain ⟨identity, cols, w, -, hloop, rfl, hany⟩ := deleteKey_eq_ok h
  have hagree : Agree {path | ∃ p ∈ overlappingParts T ht.id key, whollyOwned key.val p = false ∧
      p.partMeta.path = path} { store := store } { store := store' } := by
    refine ⟨rfl, rfl, ?_⟩
    rintro _ ⟨p, hp, howned, rfl⟩
    exact hstore p hp howned
  obtain ⟨w', hloop', hw'⟩ := foldlM_agree hagree (fun p hp howned => ⟨p, hp, howned, rfl⟩) hloop
  refine ⟨_, hany store' w' hloop', hw'.stats, ?_⟩
  simp only [Rewriting.erasure, hw'.newParts]

/-- **What a deletion that commits has done**, whatever else was committed meanwhile: with the rows
as they are found by name. -/
theorem erases_byName {db db₁ db₂ : Db} {es : List Event} {t : Nat} {τ : Txn}
    (hdb : Reachable db)
    (hsealed : ∀ p ∈ db.tables.liveParts ht.id, ∃ b, Sealed store ht.packingKey p.partMeta b)
    (hdelete : deleteKey env store db.tables ht key = .ok (some d))
    (hrun : Lts.run step db es = some db₁) (hτ : db₁.txns.lookup t = some τ)
    (hcall : τ.call = d.call) (hcommit : step db₁ (.commit t) = some db₂)
    (hfresh : FreshNames env ht.id db₁.tables) :
    ∃ cols, TableColumns.parse ht.tableSchema = .ok cols ∧
      Erases (fun _ => ReadByName cols : RowRel cols) env store ht key db.tables db₁.tables
        db₂.tables d := by
  have hunread := fun store' => @deleteKey_unread _ _ _ _ _ _ hdelete store'
  obtain ⟨identity, cols, w, hcols, hloop, rfl, -⟩ := deleteKey_eq_ok hdelete
  have hi₁ := (hdb.reaches ⟨es, hrun⟩).inv
  have hnd := hi₁.stored.part_nodup
  -- the inputs stay in the catalog, with their metadata
  have hstay : ∀ p ∈ overlappingParts db.tables ht.id key, ∃ q ∈ db₁.tables.parts,
      q.id = p.id ∧ q.hypertableId = ht.id ∧ q.partMeta = p.partMeta := by
    intro p hp
    obtain ⟨hp, hcond⟩ := List.mem_filter.mp (mem_overlappingParts.mp hp).1
    obtain ⟨q, hq, hid, hht, hmeta⟩ := run_part hdb.inv hrun hp
    exact ⟨q, hq, hid, hht.trans (of_decide_eq_true hcond).1, hmeta⟩
  have hw : Rewrites env ht cols key store (overlappingParts db.tables ht.id key) w := by
    refine rewrites_foldlM hfresh (fun p hp => ?_) (fun p hp => ?_) hloop
    · obtain ⟨q, hq, -, -, hmeta⟩ := hstay p hp
      exact ⟨q, hq, hmeta⟩
    · obtain ⟨b, hb⟩ := hsealed p (mem_overlappingParts.mp hp).1
      exact hb.storedBatch_eq.symm ▸ hb
  rcases step_tables hi₁ hcommit with ⟨t', τ', id, he, hlook, -, happ, -⟩ | ⟨hno, -⟩
  · cases he
    obtain rfl : τ' = τ := Option.some.inj (hlook.symm.trans hτ)
    rw [hcall] at happ
    obtain ⟨rows, hparts, hnew⟩ := happ.parts
    refine ⟨cols, hcols, ?_, ⟨rows, liveParts_applied hparts hnew, ?_⟩, ?_, ?_, hw.stats, hunread⟩
    · intro p hp
      obtain ⟨q, hq, hid, hht, hmeta⟩ := hstay p hp
      obtain ⟨-, hmatched⟩ := (List.length_filter_key_eq_iff hnd).mp happ.old_matched
      obtain ⟨x, hx, hxid, -, hdel⟩ := hmatched p.id (List.mem_map_of_mem hp)
      obtain rfl : x = q := List.inj_on_of_nodup_map hnd hx hq (hxid.trans hid.symm)
      refine ⟨x, List.mem_filter.mpr ⟨hx, decide_eq_true ⟨hht, ?_⟩⟩, hid, hmeta⟩
      rw [PartRow.live, hdel]
      rfl
    · have hall := hw.parts
      rw [show w.newParts = rows.map PartRow.partMeta from hnew.metas.symm,
        List.forall₂_map_right_iff] at hall
      exact hall
    · intro q hq hout
      have hnot : q.id ∉ (overlappingParts db.tables ht.id key).map PartRow.id := by
        intro hmem
        obtain ⟨p, hp, hpid⟩ := List.mem_map.mp hmem
        obtain ⟨x, hx, hid, hht, hmeta⟩ := hstay p hp
        obtain rfl : x = q := List.inj_on_of_nodup_map hnd hx hq (hid.trans hpid)
        exact hout ⟨hht, hmeta ▸ (mem_overlappingParts.mp hp).2⟩
      rw [hparts]
      refine List.mem_append_left _ (List.mem_map.mpr ⟨q, hq, ?_⟩)
      exact if_neg hnot
    · intro q hq
      exact hw.store _ fun level n => hfresh.unused level n q hq
  · exact absurd rfl (hno t)

/-- What is kept by name is what is stored, exactly if no survivor has two values under one
name. -/
theorem Rewritten.keepsStored_iff {cols : TableColumns} {packingKey : String} {m new : PartMeta}
    {b : RecordBatch} (h : Rewritten (fun _ => ReadByName cols) store packingKey key m b new) :
    Rewritten (fun _ => KeepsStored cols) store packingKey key m b new ↔
      ∀ r ∈ survivors packingKey key b, TwinsAgree cols.physicalSchema r := by
  obtain ⟨out, hsealed, hkey, hrows⟩ := h.rows
  constructor
  · rintro ⟨-, -, out', hsealed', -, hrows'⟩ r hr
    -- the part has one file
    have hsame := Option.some.inj (hsealed'.rows.symm.trans hsealed.rows)
    obtain rfl : out' = out := by
      cases hsame
      rfl
    obtain ⟨-, -, hagree⟩ := (hrows'.mp (fun _ _ hkeeps hname => hname.keepsStored_iff.mp hkeeps)
      hrows).exists_of_mem hr
    exact hagree
  · intro hagree
    exact ⟨h.partition, h.level, out, hsealed, hkey, ((List.forall₂_and_left _ _).mpr
      ⟨hagree, hrows⟩).imp fun _ _ hr => hr.2.keepsStored_iff.mpr hr.1⟩

theorem Erases.keepsStored_iff {cols : TableColumns}
    (h : Erases (fun _ => ReadByName cols) env store ht key T T₁ T₂ d) :
    Erases (fun _ => KeepsStored cols) env store ht key T T₁ T₂ d ↔
      ∀ p ∈ overlappingParts T ht.id key,
        ∀ r ∈ survivors ht.packingKey key (storedBatch store p.partMeta),
          TwinsAgree cols.physicalSchema r := by
  obtain ⟨rows, hlive, hall⟩ := h.replaced
  constructor
  · intro hkeeps p hp r hr
    obtain ⟨rows', hlive', hall'⟩ := hkeeps.replaced
    obtain rfl : rows' = rows := List.append_cancel_left (hlive'.symm.trans hlive)
    have hmem : p ∈ surviving store ht.packingKey key (overlappingParts T ht.id key) :=
      List.mem_filter.mpr ⟨hp, decide_eq_true (List.ne_nil_of_mem hr)⟩
    obtain ⟨-, -, hagree⟩ := (hall'.mp (fun _ _ hnew hname => hname.keepsStored_iff.mp hnew)
      hall).exists_of_mem hmem
    exact hagree r hr
  · intro hagree
    refine ⟨h.inputs, ⟨rows, hlive, ?_⟩, h.untouched, h.objects, h.stats, h.unread⟩
    refine ((List.forall₂_and_left _ _).mpr ⟨fun p hp => ?_, hall⟩).imp
      fun _ _ hp => hp.2.keepsStored_iff.mpr hp.1
    exact hagree p (List.mem_filter.mp hp).1

/-- **Key deletion.**  A deletion that commits has replaced the parts it read, whatever else was
committed meanwhile: none of the new parts has a row of the key, and every row of another key is in
one of them, in the partition and at the level it had and in its order.  The other parts are as
they were, the rows of the key are counted, and the parts that are the key's alone were not read.
The rows are as they were stored exactly if none has two values in columns of one name. -/
theorem delete_key_erases_iff {db db₁ db₂ : Db} {es : List Event} {t : Nat} {τ : Txn}
    (hdb : Reachable db)
    (hsealed : ∀ p ∈ db.tables.liveParts ht.id, ∃ b, Sealed store ht.packingKey p.partMeta b)
    (hdelete : deleteKey env store db.tables ht key = .ok (some d))
    (hrun : Lts.run step db es = some db₁) (hτ : db₁.txns.lookup t = some τ)
    (hcall : τ.call = d.call) (hcommit : step db₁ (.commit t) = some db₂)
    (hfresh : FreshNames env ht.id db₁.tables) :
    ∃ cols, TableColumns.parse ht.tableSchema = .ok cols ∧
      (Erases (fun _ => KeepsStored cols : RowRel cols) env store ht key db.tables db₁.tables
          db₂.tables d ↔
        ∀ p ∈ overlappingParts db.tables ht.id key,
          ∀ r ∈ survivors ht.packingKey key (storedBatch store p.partMeta),
            TwinsAgree cols.physicalSchema r) := by
  obtain ⟨cols, hcols, herases⟩ :=
    erases_byName hdb hsealed hdelete hrun hτ hcall hcommit hfresh
  exact ⟨cols, hcols, herases.keepsStored_iff⟩

end Swap

/-! ## 8. Deletions -/

def noteEnv : DeletionEnv where
  eval := fun _ _ _ _ => none
  codec := .characters
  hash := fun bytes => bytes.take 32
  float := fun _ => ""
  reader := ⟨fun groups => groups, fun _ => rfl⟩
  uuid := fun n => String.ofList (List.replicate (n + 1) 'u')
  publish := fun _ => .ok ()
  encodedLen := fun _ => 100

/-- A table that has got a column `note`. -/
def noteTable : Hypertable where
  id := 1
  name := "events"
  tableSchema := .obj [("fields", .arr [
    .obj [("name", .str "tenant_id"), ("type", .str "int64"), ("nullable", .bool false)],
    .obj [("name", .str "note"), ("type", .str "utf8")]])]
  partitionSpec := .obj [("columns", .arr [])]
  sortKey := ["tenant_id"]
  packingKey := "tenant_id"
  placement := .packed

def noteColumns : TableColumns :=
  ⟨[⟨"tenant_id", .int64, false, .stored, "int64", false⟩,
    ⟨"note", .utf8, true, .stored, "utf8", false⟩]⟩

/-- A part of these tenants, of a table without partitions. -/
def notePart (uuid : String) (lo hi rows : Int) : PartMeta :=
  ⟨Gc.partPath 1 0 uuid, .obj [], lo, hi, rows, 100, 0, none⟩

/-- Parts that were written before: a packed one, one of tenant 7 alone and one without it. -/
def noteParts : List PartMeta := [notePart "a" 7 8 3, notePart "b" 7 7 1, notePart "c" 9 9 1]

theorem tenantCells_fit (n : UInt8) :
    Schema.fits [⟨"tenant_id", .int64, false, none⟩] [.int64 (smallI64 n)] = true := rfl

def tenantRows (tenants : List UInt8) : List (Row [⟨"tenant_id", .int64, false, none⟩]) :=
  tenants.map fun n => ⟨[.int64 (smallI64 n)], tenantCells_fit n⟩

def tenantsFile (tenants : List UInt8) : PartFile := ⟨_, [some (tenantRows tenants)]⟩

def noteStore : String → Option PartFile := fun path =>
  if path = Gc.partPath 1 0 "a" then some (tenantsFile [7, 7, 8])
  else if path = Gc.partPath 1 0 "b" then some (tenantsFile [7])
  else if path = Gc.partPath 1 0 "c" then some (tenantsFile [9])
  else none

/-- The parts are added. -/
def partAdds (parts : List PartMeta) : List Event :=
  .begin (Catalog.commit 1 (.add parts) none) ::
    (List.replicate (parts.length + 4) (.stmt 0) ++ [.sendCommit 0, .commit 0])

/-- The deletion's transaction, up to its COMMIT. -/
def noteDeletion (d : Erasure) : List Event :=
  .begin d.call :: (List.replicate 6 (.stmt 1) ++ [.sendCommit 1])

/-- The packed part loses two of its three rows, the other one is dropped. -/
example : ((Lts.run step {} (partAdds noteParts)).bind fun db =>
    (deleteKey noteEnv noteStore db.tables noteTable (smallI64 7)).toOption.join.map fun d =>
      (d.stats, d.call.op.oldParts, d.call.op.newParts.map PartMeta.rowCount)) =
    some (⟨1, 1, 3⟩, [1, 2], [1]) := by decide +kernel

/-- A part of one file is recorded as it is, if its numbers are right. -/
theorem sealed_of_file {store : String → Option PartFile} {m : PartMeta} {s : Schema}
    {rows : List (Row s)} {packingKey : String} (hstore : store m.path = some ⟨s, [some rows]⟩)
    (hcount : m.rowCount = rows.length)
    (hcovers : ∀ r ∈ rows, ∃ v, packingKeyOf packingKey r = some v ∧
      m.packingKeyMin ≤ v.val ∧ v.val ≤ m.packingKeyMax) :
    Sealed store packingKey m ⟨s, rows⟩ := by
  refine ⟨?_, hcount, hcovers⟩
  rw [partRows, hstore]
  simp [PartFile.rows]

theorem noteStore_sealed {m : PartMeta} (hm : m ∈ noteParts) :
    ∃ tenants, Sealed noteStore "tenant_id" m ⟨_, tenantRows tenants⟩ := by
  have hfile : ∀ {tenants : List UInt8}, noteStore m.path = some (tenantsFile tenants) →
      m.rowCount = tenants.length →
      (∀ n ∈ tenants, m.packingKeyMin ≤ (smallI64 n).val ∧ (smallI64 n).val ≤ m.packingKeyMax) →
      ∃ tenants, Sealed noteStore "tenant_id" m ⟨_, tenantRows tenants⟩ := by
    intro tenants hstore hcount hcovers
    refine ⟨tenants, sealed_of_file hstore (by rw [hcount, tenantRows, List.length_map]) ?_⟩
    intro r hr
    obtain ⟨n, hn, rfl⟩ := List.mem_map.mp hr
    exact ⟨_, rfl, hcovers n hn⟩
  simp only [noteParts, List.mem_cons, List.not_mem_nil, or_false] at hm
  rcases hm with rfl | rfl | rfl
  · exact @hfile [7, 7, 8] rfl rfl (by decide +kernel)
  · exact @hfile [7] rfl rfl (by decide +kernel)
  · exact @hfile [9] rfl rfl (by decide +kernel)

/-- No name that is drawn is that of a part. -/
theorem noteEnv_fresh {T : Tables}
    (hT : ∀ p ∈ T.parts, p.partMeta.path ∈ ["a", "b", "c"].map (Gc.partPath 1 0)) :
    FreshNames noteEnv 1 T := by
  have hlist : ∀ n, (noteEnv.uuid n).toList = List.replicate (n + 1) 'u' := by
    intro n
    simp [noteEnv]
  refine ⟨fun m n h => ?_, fun level n p hp heq => ?_⟩
  · have := congrArg (fun u : String => u.toList.length) h
    simpa [hlist] using this
  · obtain ⟨uuid, huuid, hpath⟩ := List.mem_map.mp (hT p hp)
    have hdrawn := congrArg String.toList (Gc.partPath_inj (hpath.trans heq)).2.2
    rw [hlist, List.replicate_succ] at hdrawn
    simp only [List.mem_cons, List.not_mem_nil, or_false] at huuid
    rcases huuid with rfl | rfl | rfl <;> simp at hdrawn

theorem eq_ok_of_mem {α ε : Type} {x : Except ε (Option α)} {a : α} (h : a ∈ x.toOption.join) :
    x = .ok (some a) := by
  cases x with
  | error e => cases h
  | ok o => exact congrArg Except.ok h

/-- A file of one column has no two of one name. -/
theorem tenantRows_agree (tenants : List UInt8) :
    ∀ r ∈ tenantRows tenants, TwinsAgree noteColumns.physicalSchema r := by
  intro r _ i j f j₀ _ hj hj₀
  have hplace : Schema.indexOf [⟨"tenant_id", .int64, false, none⟩] "tenant_id" = some 0 := by
    decide
  match j, hj with
  | 0, hj =>
    cases hj
    cases hplace.symm.trans hj₀
    rfl

theorem delete_key_erases_iff_note :
    ∃ db db₁ db₂ d, Lts.run step {} (partAdds noteParts) = some db ∧
      deleteKey noteEnv noteStore db.tables noteTable (smallI64 7) = .ok (some d) ∧
      Lts.run step db (noteDeletion d) = some db₁ ∧ step db₁ (.commit 1) = some db₂ ∧
      Erases (fun _ => KeepsStored noteColumns) noteEnv noteStore noteTable (smallI64 7)
        db.tables db₁.tables db₂.tables d := by
  have hobs : ∃ db ∈ Lts.run step {} (partAdds noteParts),
      ∃ d ∈ (deleteKey noteEnv noteStore db.tables noteTable (smallI64 7)).toOption.join,
        ∃ db₁ ∈ Lts.run step db (noteDeletion d), (∃ τ ∈ db₁.txns.lookup 1, τ.call = d.call) ∧
          (∃ db₂ ∈ step db₁ (.commit 1), True) ∧
          (∀ p ∈ db.tables.liveParts 1, p.partMeta ∈ noteParts) ∧
          ∀ p ∈ db₁.tables.parts,
            p.partMeta.path ∈ ["a", "b", "c"].map (Gc.partPath 1 0) := by decide +kernel
  obtain ⟨db, hadds, d, hd, db₁, hrun, ⟨τ, hτ, hcall⟩, ⟨db₂, hcommit, -⟩, hlive, hpaths⟩ := hobs
  have hdelete := eq_ok_of_mem hd
  obtain ⟨cols, hcols, hiff⟩ := delete_key_erases_iff
    ⟨{}, initial_empty, partAdds noteParts, hadds⟩
    (fun p hp => (noteStore_sealed (hlive p hp)).elim fun _ hb => ⟨_, hb⟩)
    hdelete hrun hτ hcall hcommit (noteEnv_fresh hpaths)
  have hparse : TableColumns.parse noteTable.tableSchema = .ok noteColumns := by decide
  obtain rfl : cols = noteColumns := Except.ok.inj (hcols.symm.trans hparse)
  refine ⟨db, db₁, db₂, d, hadds, hdelete, hrun, hcommit, hiff.mpr fun p hp => ?_⟩
  obtain ⟨tenants, hb⟩ := noteStore_sealed (hlive p (mem_overlappingParts.mp hp).1)
  rw [show storedBatch noteStore p.partMeta = _ from hb.storedBatch_eq]
  exact fun r hr => tenantRows_agree tenants r (List.mem_filter.mp hr).1

/-- A table with two columns `x`, and a part of it. -/
def pairTable : Hypertable where
  id := 1
  name := "pairs"
  tableSchema := .obj [("fields", .arr [
    .obj [("name", .str "tenant_id"), ("type", .str "int64"), ("nullable", .bool false)],
    .obj [("name", .str "x"), ("type", .str "int64")],
    .obj [("name", .str "x"), ("type", .str "int64")]])]
  partitionSpec := .obj [("columns", .arr [])]
  sortKey := ["tenant_id"]
  packingKey := "tenant_id"
  placement := .packed

def pairPart : PartMeta := notePart "a" 7 8 2

/-- **A survivor's value is lost**: the row `[8, 1, 7]` is written again as `[8, 1, 1]`. -/
theorem deletion_mixes_columns :
    ∃ db db₁ db₂ d cols, Lts.run step {} (partAdds [pairPart]) = some db ∧
      deleteKey noteEnv (pairStore [pairRow 7 2 2, pairRow 8 1 7]) db.tables pairTable
        (smallI64 7) = .ok (some d) ∧
      Lts.run step db (noteDeletion d) = some db₁ ∧ step db₁ (.commit 1) = some db₂ ∧
      TableColumns.parse pairTable.tableSchema = .ok cols ∧
      d.call.op.newParts.map (fun m => (partRows d.store m).map fun b => b.rows.map Subtype.val) =
        [some [[.int64 (smallI64 8), .int64 (smallI64 1), .int64 (smallI64 1)]]] ∧
      ¬ Erases (fun _ => KeepsStored cols : RowRel cols) noteEnv
        (pairStore [pairRow 7 2 2, pairRow 8 1 7]) pairTable (smallI64 7) db.tables db₁.tables
        db₂.tables d := by
  have hobs : ∃ db ∈ Lts.run step {} (partAdds [pairPart]),
      ∃ d ∈ (deleteKey noteEnv (pairStore [pairRow 7 2 2, pairRow 8 1 7]) db.tables pairTable
          (smallI64 7)).toOption.join,
        ∃ db₁ ∈ Lts.run step db (noteDeletion d), (∃ τ ∈ db₁.txns.lookup 1, τ.call = d.call) ∧
          (∃ db₂ ∈ step db₁ (.commit 1), True) ∧
          (∀ p ∈ db.tables.liveParts 1, p.partMeta = pairPart) ∧
          ∀ p ∈ db₁.tables.parts,
            p.partMeta.path ∈ ["a", "b", "c"].map (Gc.partPath 1 0) := by decide +kernel
  obtain ⟨db, hadds, d, hd, db₁, hrun, ⟨τ, hτ, hcall⟩, ⟨db₂, hcommit, -⟩, hlive, hpaths⟩ := hobs
  have hread : ((Lts.run step {} (partAdds [pairPart])).map fun db =>
      (overlappingParts db.tables 1 (smallI64 7)).map PartRow.partMeta) = some [pairPart] := by
    decide +kernel
  have hfile : ((Lts.run step {} (partAdds [pairPart])).bind fun db =>
      (deleteKey noteEnv (pairStore [pairRow 7 2 2, pairRow 8 1 7]) db.tables pairTable
        (smallI64 7)).toOption.join.map fun d => d.call.op.newParts.map fun m =>
          (partRows d.store m).map fun b => b.rows.map Subtype.val) =
      some [some [[.int64 (smallI64 8), .int64 (smallI64 1), .int64 (smallI64 1)]]] := by
    decide +kernel
  rw [Option.mem_def.mp hadds, Option.map_some, Option.some.injEq] at hread
  rw [Option.mem_def.mp hadds, Option.bind_some, Option.mem_def.mp hd, Option.map_some,
    Option.some.injEq] at hfile
  obtain ⟨p, hp, hmeta⟩ := List.mem_map.mp (hread ▸ List.mem_singleton_self pairPart)
  have hdelete := eq_ok_of_mem hd
  have hsealed : Sealed (pairStore [pairRow 7 2 2, pairRow 8 1 7]) "tenant_id" pairPart
      ⟨_, [pairRow 7 2 2, pairRow 8 1 7]⟩ :=
    sealed_of_file rfl rfl (List.forall_mem_cons.mpr ⟨⟨smallI64 7, rfl, by decide +kernel⟩,
      List.forall_mem_singleton.mpr ⟨smallI64 8, rfl, by decide +kernel⟩⟩)
  obtain ⟨cols, hcols, herases⟩ := erases_byName
    ⟨{}, initial_empty, partAdds [pairPart], hadds⟩
    (fun p hp => ⟨_, (hlive p hp).symm ▸ hsealed⟩)
    hdelete hrun hτ hcall hcommit (noteEnv_fresh hpaths)
  refine ⟨db, db₁, db₂, d, cols, hadds, hdelete, hrun, hcommit, hcols, hfile, fun hkeeps => ?_⟩
  have hparse : TableColumns.parse pairTable.tableSchema = .ok
      ⟨[⟨"tenant_id", .int64, false, .stored, "int64", false⟩,
        ⟨"x", .int64, true, .stored, "int64", false⟩,
        ⟨"x", .int64, true, .stored, "int64", false⟩]⟩ := by decide
  obtain rfl := Except.ok.inj (hcols.symm.trans hparse)
  have hagree := herases.keepsStored_iff.mp hkeeps p hp
  rw [hmeta, hsealed.storedBatch_eq] at hagree
  have hcell := hagree (pairRow 8 1 7) (by decide +kernel) 2 2 ⟨"x", .int64, true, none⟩ 1
    (by decide) rfl (by decide)
  revert hcell
  decide

end Ukiel.Compactor
