/-
# The two ways to an L0 part

`ukiel-ingest/src/writer.rs`: `encodeRows` decodes JSON rows into the columns of the table, fills
the default and materialized ones, sorts and encodes.  A view's output takes the other way,
`batchesToL0Items`, from Arrow batches.

The two end in the same steps and fill the same columns, so for the same values they should give
the same part.  They differ in when they ask whether a column may be NULL.  A batch is completed
over a schema where every column may be, because "defaults/materialized values can fill a missing
non-null field"; JSON rows are decoded into the real schema, where the NULL that a default was
going to replace is already refused.  `encodeRows_agrees_iff` has the exact extent of that.

`JsonReader` is the JSON decoder of Arrow.
-/
import Ukiel.Write.Batches

namespace Ukiel.Ingest
open Ukiel.Expr Ukiel.Write

/-! ## 1. JSON rows -/

inductive IngestError where
  | schema (e : SchemaError)
  | arrow
  | expr (e : ExprError)
  | sortKey (e : SortKeyError)
  | missingColumn (row : Nat) (column : String)
  | emptyFlush
  | config (reason : String)
deriving DecidableEq

/-- `From<WriteError>`. -/
def IngestError.ofWrite : WriteError → IngestError
  | .schema e => .schema e
  | .arrow => .arrow
  | .expr e => .expr e
  | .sortKey e => .sortKey e
  | .emptyBatch => .emptyFlush
  | .invalidTarget reason => .config reason
  | .budgetExceeded n => .config ("write input exceeds " ++ toString n ++ " bytes")

/-- `ReaderBuilder::new(schema).build_decoder()`, before the columns are checked for NULLs. -/
structure JsonReader where
  /-- A cell for each field: NULL where the row has no such entry, and none where an entry is no
  value of the field's type. -/
  decode : Schema → Json → Option (List Value)
  decode_fits : ∀ {s : Schema} {row : Json} {cells : List Value}, decode s row = some cells →
    s.withNullable.fits cells = true

/-- A decoder to evaluate with: entries by name, in the type of their column. -/
def cellOfJson (f : Field) : Option Json → Option Value
  | none => some .null
  | some .null => some .null
  | some (.bool b) => if f.dataType = .boolean then some (.bool b) else none
  | some (.str text) => if f.dataType = .utf8 then some (.utf8 text) else none
  | some (.num (.int n)) =>
    if h : n ∈ I64 then if f.dataType = .int64 then some (.int64 ⟨n, h⟩) else none else none
  | some (.num (.float bits)) => if f.dataType = .float64 then some (.float64 bits) else none
  | some _ => none

theorem cellOfJson_admits {f : Field} {entry : Option Json} {v : Value}
    (h : cellOfJson f entry = some v) : f.withNullable.admits v = true := by
  unfold cellOfJson at h
  split at h
  all_goals repeat' split at h
  all_goals cases h
  all_goals simp_all [Field.admits, Field.withNullable]

def JsonReader.byName : JsonReader where
  decode s row := s.mapM fun f => cellOfJson f (row.get? f.name)
  decode_fits {s row cells} h := by
    have hcells := List.mapM_eq_some_iff.mp h
    refine Schema.fits_iff.mpr ⟨?_, fun i f v hf hv => ?_⟩
    · unfold Schema.withNullable
      rw [List.length_map, hcells.length_eq]
    · unfold Schema.withNullable at hf
      rw [List.getElem?_map, Option.map_eq_some_iff] at hf
      obtain ⟨f, hf, rfl⟩ := hf
      obtain ⟨hs, rfl⟩ := List.getElem?_eq_some_iff.mp hf
      obtain ⟨hcell, rfl⟩ := List.getElem?_eq_some_iff.mp hv
      exact cellOfJson_admits ((List.forall₂_iff_get.mp hcells).2 i hs hcell)

/-- `row.get(col).and_then(|v| v.as_i64())` is there. -/
def hasInt (row : Json) (column : String) : Bool :=
  ((row.get? column).bind Json.asInt?).isSome

/-- Every row has its key and its time. -/
def Keyed (packingKey tsColumn : String) (rows : List Json) : Prop :=
  ∀ row ∈ rows, hasInt row packingKey = true ∧ hasInt row tsColumn = true

/-- `decode_rows`. -/
def decodeRows (reader : JsonReader) (schema : Schema) (packingKey tsColumn : String)
    (rows : List Json) : Except IngestError (List (Row schema)) := do
  if rows.isEmpty then .error .emptyFlush
  else
    rows.zipIdx.forM fun row => [packingKey, tsColumn].forM fun column =>
      if hasInt row.1 column then .ok () else .error (.missingColumn row.2 column)
    match (rows.mapM (reader.decode schema)).bind schema.tryNew with
    | some batch => .ok batch
    | none => .error .arrow

/-- `encode_rows`. -/
def encodeRows (reader : JsonReader) (eval : Evaluator) (L : Lexsort) (codec : PartCodec)
    (cols : TableColumns) (packingKey tsColumn : String) (sortKey : List String)
    (rows : List Json) : Except IngestError EncodedPart := do
  let batch ← decodeRows reader cols.physicalSchema packingKey tsColumn rows
  let batch ← (applyDefaultsAndMaterialized eval batch cols).mapError .expr
  let batch ← (sortBatch L batch sortKey).mapError .sortKey
  (encodeBatch codec batch packingKey defaultMaxRowGroupRows).mapError .ofWrite

/-! ## 2. The same values, twice -/

/-- A JSON row and a batch's row that hold the same values. -/
def SameValues (reader : JsonReader) (cols : TableColumns) (row : Json)
    (values : String → Value) : Prop :=
  reader.decode cols.physicalSchema row = some (physicalCells cols values)

/-- The two results: one part with the rows in the order of the sort key, or an error. -/
def Agree (sortKey : List String) : Except IngestError EncodedPart →
    Except WriteError (List FlushItem) → Prop
  | .ok part, .ok items => items = [⟨.obj [], part⟩] ∧
      ∀ columns, sortColumns part.schema sortKey = .ok columns → SortedRows columns part.rows
  | .error _, .error _ => True
  | _, _ => False

/-! ## 3. From JSON -/

section Rows

variable {reader : JsonReader} {g : RowExpr} {L : Lexsort} {codec : PartCodec} {cols : TableColumns}
  {packingKey tsColumn : String} {sortKey : List String} {rows : List Json}
  {batches : List RecordBatch}

/-- Rows that were decoded. -/
theorem decodeRows_eq_ok {s : Schema} {batch : List (Row s)}
    (h : decodeRows reader s packingKey tsColumn rows = .ok batch) :
    Keyed packingKey tsColumn rows ∧
      List.Forall₂ (fun row r => reader.decode s row = some r.val) rows batch := by
  unfold decodeRows at h
  split at h
  · cases h
  · obtain ⟨_, hcheck, h⟩ := Except.bind_eq_ok_iff.mp h
    have hint : ∀ row ∈ rows, ∀ column ∈ [packingKey, tsColumn], hasInt row column = true := by
      intro row hrow column hcolumn
      obtain ⟨n, hn, rfl⟩ := List.mem_iff_getElem.mp hrow
      have hmem : (rows[n], n) ∈ rows.zipIdx :=
        List.mk_mem_zipIdx_iff_getElem?.mpr (List.getElem?_eq_getElem hn)
      have hone := List.forM_eq_ok_iff.mp (List.forM_eq_ok_iff.mp hcheck _ hmem) column hcolumn
      by_contra hmissing
      rw [if_neg hmissing] at hone
      cases hone
    refine ⟨fun row hrow => ⟨hint row hrow _ (by simp), hint row hrow _ (by simp)⟩, ?_⟩
    split at h
    · rename_i hnew
      cases h
      obtain ⟨cells, hcells, hnew⟩ := Option.bind_eq_some_iff.mp hnew
      rw [List.mapM_eq_some_iff, ← Schema.tryNew_eq_some.mp hnew,
        List.forall₂_map_right_iff] at hcells
      exact hcells
    · cases h

/-- Rows that can be decoded: there are some, each with its key and its time. -/
theorem decodeRows_eq_ok_iff {s : Schema} {batch : List (Row s)} (hne : rows ≠ [])
    (hkeyed : Keyed packingKey tsColumn rows) :
    decodeRows reader s packingKey tsColumn rows = .ok batch ↔
      List.Forall₂ (fun row r => reader.decode s row = some r.val) rows batch := by
  refine ⟨fun h => (decodeRows_eq_ok h).2, fun h => ?_⟩
  have hcheck : rows.zipIdx.forM (fun row => [packingKey, tsColumn].forM fun column =>
      if hasInt row.1 column then Except.ok ()
      else .error (IngestError.missingColumn row.2 column)) = .ok () := by
    refine List.forM_eq_ok_iff.mpr fun row hrow => List.forM_eq_ok_iff.mpr fun column hcolumn => ?_
    obtain ⟨hkey, hts⟩ := hkeyed row.1 (List.fst_mem_of_mem_zipIdx hrow)
    rw [List.mem_pair] at hcolumn
    rcases hcolumn with rfl | rfl
    · rw [if_pos hkey]
    · rw [if_pos hts]
  have hdecode : rows.mapM (reader.decode s) = some (batch.map Subtype.val) := by
    rw [List.mapM_eq_some_iff, List.forall₂_map_right_iff]
    exact h
  unfold decodeRows
  rw [if_neg (by simpa using hne), hcheck]
  simp only [bind, Except.bind]
  rw [hdecode, Option.bind_some, Schema.tryNew_eq_some.mpr rfl]

theorem decodeRows_of_fits (hne : rows ≠ []) (hkeyed : Keyed packingKey tsColumn rows)
    (hsame : List.Forall₂ (SameValues reader cols) rows (namedRows batches))
    {batch : List (Row cols.physicalSchema)}
    (hbatch : batch.map Subtype.val = (namedRows batches).map (physicalCells cols)) :
    decodeRows reader cols.physicalSchema packingKey tsColumn rows = .ok batch := by
  refine (decodeRows_eq_ok_iff hne hkeyed).mpr ?_
  rw [← List.forall₂_map_right_iff (f := Subtype.val)
    (R := fun row cells => reader.decode cols.physicalSchema row = some cells), hbatch,
    List.forall₂_map_right_iff]
  exact hsame

theorem fits_of_decodeRows (hsame : List.Forall₂ (SameValues reader cols) rows (namedRows batches))
    {batch : List (Row cols.physicalSchema)}
    (h : decodeRows reader cols.physicalSchema packingKey tsColumn rows = .ok batch) :
    batch.map Subtype.val = (namedRows batches).map (physicalCells cols) := by
  have hdecode := List.mapM_eq_some_iff.mpr
    (List.forall₂_map_right_iff.mpr (decodeRows_eq_ok h).2)
  have hsame' := List.mapM_eq_some_iff.mpr (List.forall₂_map_right_iff.mpr hsame)
  exact Option.some.inj (hdecode.symm.trans hsame')

/-- Rows that fit, with their materialized columns. -/
theorem applyDefaults_batch (htyped : RowExprTyped g)
    (hcols : ∀ batch ∈ batches, InputColumns cols batch.schema)
    {batch : List (Row cols.physicalSchema)}
    (hbatch : batch.map Subtype.val = (namedRows batches).map (physicalCells cols)) :
    match ((namedRows batches).map (physicalCells cols)).mapM (complete g cols) with
    | some out => ∃ filled : List (Row cols.physicalSchema),
        applyDefaultsAndMaterialized (rowwise g) batch cols = .ok filled ∧
          filled.map Subtype.val = out
    | none => ∃ e, applyDefaultsAndMaterialized (rowwise g) batch cols = .error e := by
  rw [← hbatch]
  refine applyDefaults_of_fits htyped (Or.inl rfl) ?_
  cases batch with
  | nil => exact Or.inl rfl
  | cons r batch =>
    -- the first row says which columns may be NULL
    refine Or.inr fun spec hspec hkind f hf hname => ?_
    have hr : r.val ∈ (namedRows batches).map (physicalCells cols) :=
      hbatch ▸ List.mem_cons_self
    obtain ⟨values, hvalues, hcells⟩ := List.mem_map.mp hr
    obtain ⟨b, hb, hvalues⟩ := List.mem_flatMap.mp hvalues
    obtain ⟨r', -, rfl⟩ := List.mem_map.mp hvalues
    exact materialized_nullable (hcols b hb) (hcells ▸ r.property) hspec hkind hf hname

theorem encodeRows_eq_ok_iff {eval : Evaluator} {part : EncodedPart} :
    encodeRows reader eval L codec cols packingKey tsColumn sortKey rows = .ok part ↔
      ∃ batch filled, decodeRows reader cols.physicalSchema packingKey tsColumn rows = .ok batch ∧
        applyDefaultsAndMaterialized eval batch cols = .ok filled ∧
        finishPart L codec filled sortKey packingKey = .ok part := by
  unfold encodeRows
  simp only [Except.bind_eq_ok_iff, Except.mapError_eq_ok_iff, finishPart_eq_ok_iff,
    exists_and_left]

theorem encodeRows_of_completed (htyped : RowExprTyped g) (hne : rows ≠ [])
    (hkeyed : Keyed packingKey tsColumn rows)
    (hcols : ∀ batch ∈ batches, InputColumns cols batch.schema)
    (hsame : List.Forall₂ (SameValues reader cols) rows (namedRows batches))
    (hfits : ∀ values ∈ namedRows batches,
      cols.physicalSchema.fits (physicalCells cols values) = true)
    {out : List (Row cols.physicalSchema)} (hout : Completed g cols (namedRows batches) out) :
    encodeRows reader (rowwise g) L codec cols packingKey tsColumn sortKey rows =
      (finishPart L codec out sortKey packingKey).mapError .ofWrite := by
  obtain ⟨batch, hnew⟩ := Schema.tryNew_of_fits (List.forall_mem_map.mpr hfits)
  have hbatch := Schema.tryNew_eq_some.mp hnew
  have hfill := applyDefaults_batch htyped hcols hbatch
  rw [completed_iff.mp hout] at hfill
  obtain ⟨filled, happly, hfilled⟩ := hfill
  obtain rfl : filled = out := List.map_injective_iff.mpr Subtype.val_injective hfilled
  unfold encodeRows finishPart
  rw [decodeRows_of_fits hne hkeyed hsame hbatch]
  simp only [happly, Except.mapError, bind, Except.bind]
  cases hs : sortBatch L filled sortKey with
  | error e => rfl
  | ok sorted => rfl

theorem completed_of_encodeRows (htyped : RowExprTyped g)
    (hcols : ∀ batch ∈ batches, InputColumns cols batch.schema)
    (hsame : List.Forall₂ (SameValues reader cols) rows (namedRows batches)) {part : EncodedPart}
    (h : encodeRows reader (rowwise g) L codec cols packingKey tsColumn sortKey rows = .ok part) :
    Keyed packingKey tsColumn rows ∧
      (∀ values ∈ namedRows batches, cols.physicalSchema.fits (physicalCells cols values) = true) ∧
      ∃ out, Completed g cols (namedRows batches) out ∧
        finishPart L codec out sortKey packingKey = .ok part := by
  obtain ⟨batch, filled, hdecode, happly, hfinish⟩ := encodeRows_eq_ok_iff.mp h
  have hbatch := fits_of_decodeRows hsame hdecode
  refine ⟨(decodeRows_eq_ok hdecode).1, fun values hvalues => ?_, filled, ?_, hfinish⟩
  · obtain ⟨r, -, hr⟩ := List.mem_map.mp (hbatch ▸ List.mem_map_of_mem hvalues)
    exact hr ▸ r.property
  · have hfill := applyDefaults_batch htyped hcols hbatch
    rw [completed_iff]
    cases hcells : ((namedRows batches).map (physicalCells cols)).mapM (complete g cols) with
    | none =>
      rw [hcells] at hfill
      obtain ⟨e, he⟩ := hfill
      cases happly.symm.trans he
    | some cells =>
      rw [hcells] at hfill
      obtain ⟨filled', happly', rfl⟩ := hfill
      rw [Except.ok.inj (happly.symm.trans happly')]

end Rows

/-! ## 4. Agreement -/

section Agreement

variable {reader : JsonReader} {kernel : CastKernel} {g : RowExpr}
  {memory : List (List Value) → Nat} {render : Json → String} {L : Lexsort} {codec : PartCodec}
  {target : Hypertable} {maxBytes : Nat} {cols : TableColumns} {tsColumn : String}
  {rows : List Json} {batches : List RecordBatch}

/-- The row has a place in the table once it is completed. -/
def Storable (g : RowExpr) (cols : TableColumns) (packingKey : String) (cells : List Value) : Prop :=
  ∃ out, complete g cols cells = some out ∧ cols.physicalSchema.fits out = true ∧
    ∀ i, cols.physicalSchema.indexOf packingKey = some i → out[i]? ≠ some .null

/-- Every row can be completed and stored. -/
def AllStorable (g : RowExpr) (cols : TableColumns) (packingKey : String)
    (rows : List (String → Value)) : Prop :=
  KeyedByInt64 cols.physicalSchema packingKey ∧
    ∀ values ∈ rows, Storable g cols packingKey (physicalCells cols values)

/-- No row leaves a non-null column of the files to an expression. -/
def Complete (cols : TableColumns) (rows : List (String → Value)) : Prop :=
  ∀ values ∈ rows, cols.physicalSchema.fits (physicalCells cols values) = true

theorem allStorable_of_completed {packingKey : String} {values : List (String → Value)}
    {out : List (Row cols.physicalSchema)} (hout : Completed g cols values out)
    (hint : KeyedByInt64 cols.physicalSchema packingKey)
    (hkey : ∀ i, cols.physicalSchema.indexOf packingKey = some i → ∀ r ∈ out, r.cell i ≠ .null) :
    AllStorable g cols packingKey values := by
  refine ⟨hint, fun v hv => ?_⟩
  obtain ⟨r, hr, hcomplete⟩ := hout.exists_of_mem hv
  refine ⟨r.val, hcomplete, r.property, fun i hi hcell => hkey i hi r hr ?_⟩
  unfold Row.cell
  rw [hcell]
  rfl

theorem exists_completed {packingKey : String} {values : List (String → Value)}
    (h : AllStorable g cols packingKey values) :
    ∃ out, Completed g cols values out ∧
      ∀ i, cols.physicalSchema.indexOf packingKey = some i → ∀ r ∈ out, r.cell i ≠ .null := by
  have hrow : ∀ v ∈ values, ∃ r : Row cols.physicalSchema,
      complete g cols (physicalCells cols v) = some r.val ∧
        ∀ i, cols.physicalSchema.indexOf packingKey = some i → r.cell i ≠ .null := by
    intro v hv
    obtain ⟨cells, hcells, hfits, hkey⟩ := h.2 v hv
    refine ⟨⟨cells, hfits⟩, hcells, fun i hi hcell => hkey i hi ?_⟩
    obtain ⟨f, hf, -⟩ := Schema.indexOf_eq_some.mp hi
    have hlt : i < cells.length := by
      rw [(Schema.fits_iff.mp hfits).1]
      exact (List.getElem?_eq_some_iff.mp hf).1
    unfold Row.cell at hcell
    rw [List.getElem?_eq_getElem hlt] at hcell ⊢
    exact congrArg some hcell
  obtain ⟨out, hout⟩ := List.exists_forall₂ hrow
  refine ⟨out, hout.imp fun _ _ h => h.1, fun i hi r hr => ?_⟩
  obtain ⟨v, -, -, hkey⟩ := hout.flip.exists_of_mem hr
  exact hkey i hi

end Agreement

/-- A table whose rows say where they are from, or are from `'eu'`. -/
def regionColumns : TableColumns := ⟨[
  ⟨"tenant_id", .int64, true, .stored, "int64", false⟩,
  ⟨"ts", .int64, true, .stored, "timestamp_ms", false⟩,
  ⟨"region", .utf8, false, .default "'eu'", "utf8", false⟩]⟩

def regionTable : Hypertable where
  id := 1
  name := "events"
  tableSchema := .obj [("fields", .arr [
    .obj [("name", .str "tenant_id"), ("type", .str "int64")],
    .obj [("name", .str "ts"), ("type", .str "timestamp_ms")],
    .obj [("default", .str "'eu'"), ("name", .str "region"), ("nullable", .bool false),
      ("type", .str "utf8")]])]
  partitionSpec := .obj [("columns", .arr [])]
  sortKey := ["tenant_id", "ts"]
  packingKey := "tenant_id"
  placement := .packed

def regionExprs : RowExpr := fun sql _ f _ =>
  if sql = "'eu'" ∧ f.dataType = .utf8 then some (.utf8 "eu") else none

/-- A row that may leave out its time and its region, as JSON and as cells. -/
structure RegionRow where
  tenant : UInt8
  ts : Option UInt8
  region : Option String

def smallNumber (n : UInt8) : Json := .num (.int n.toNat)

def RegionRow.json (r : RegionRow) : Json :=
  .obj ([("tenant_id", smallNumber r.tenant)] ++ (r.ts.map fun n => ("ts", smallNumber n)).toList ++
    (r.region.map fun text => ("region", .str text)).toList)

def RegionRow.cells (r : RegionRow) : List Value :=
  [.int64 (smallI64 r.tenant), (r.ts.map fun n => .int64 (smallI64 n)).getD .null,
    (r.region.map .utf8).getD .null]

def regionSchema : Schema :=
  [⟨"tenant_id", .int64, true, none⟩, ⟨"ts", .int64, true, none⟩, ⟨"region", .utf8, true, none⟩]

theorem RegionRow.cells_fit : ∀ r : RegionRow, regionSchema.fits r.cells = true
  | ⟨_, none, none⟩ => rfl
  | ⟨_, none, some _⟩ => rfl
  | ⟨_, some _, none⟩ => rfl
  | ⟨_, some _, some _⟩ => rfl

def regionBatch (rows : List RegionRow) : RecordBatch :=
  ⟨regionSchema, rows.map fun r => ⟨r.cells, r.cells_fit⟩⟩

def cellBytes (rows : List (List Value)) : Nat := (rows.map fun r => 8 * r.length).sum

theorem regionExprs_typed : RowExprTyped regionExprs := by
  intro sql s f r v h
  unfold regionExprs at h
  split at h
  · rename_i hsql
    cases h
    exact decide_eq_true hsql.2
  · cases h

theorem regionBatch_inputColumns (rows : List RegionRow) :
    InputColumns regionColumns (regionBatch rows).schema where
  known := by
    show ∀ f ∈ regionSchema, _
    decide
  input := by
    show ∀ f ∈ regionSchema, _
    decide
  stored := by
    intro spec hspec hkind
    simp only [regionColumns, List.mem_cons, List.not_mem_nil, or_false] at hspec
    rcases hspec with rfl | rfl | rfl
    · exact ⟨0, rfl⟩
    · exact ⟨1, rfl⟩
    · cases hkind
theorem regionBatch_sufficient {rows : List RegionRow} (hlen : rows.length ≤ 40) :
    Sufficient cellBytes regionExprs regionColumns 1000 [regionBatch rows] where
  used := by
    have hbytes : cellBytes ((regionBatch rows).rows.map Subtype.val) = 24 * rows.length := by
      have hconst : (regionBatch rows).rows.map Subtype.val = rows.map RegionRow.cells := by
        rw [regionBatch, List.map_map]
        rfl
      rw [hconst, cellBytes, List.map_map]
      show (rows.map fun _ => 24).sum = 24 * rows.length
      rw [List.map_const', List.sum_replicate_nat, Nat.mul_comm]
    rw [List.map_singleton, List.sum_singleton, hbytes]
    omega
  materialized := by
    intro filled hfilled
    -- a completed row has as many cells as the row
    have hbytes : ∀ cells, ((regionBatch rows).rows.map fun r =>
        physicalCells regionColumns (cellNamed r)).mapM (complete regionExprs regionColumns) =
          some cells → cellBytes cells = 24 * rows.length := by
      intro cells hcells
      have hall := List.mapM_eq_some_iff.mp hcells
      have hconst : cells.map (fun r => 8 * r.length) = cells.map fun _ => 24 := by
        refine List.map_congr_left fun r hr => ?_
        obtain ⟨r₀, hr₀, hcomplete⟩ := hall.flip.exists_of_mem hr
        obtain ⟨_, -, rfl⟩ := List.mem_map.mp hr₀
        rw [foldlM_fillRow_length hcomplete]
        rfl
      have hlength := hall.length_eq
      rw [List.length_map, regionBatch, List.length_map] at hlength
      rw [cellBytes, hconst, List.map_const', List.sum_replicate_nat, ← hlength, Nat.mul_comm]
    cases rows with
    | nil =>
      obtain rfl := List.forall₂_nil_left_iff.mp hfilled
      exact Nat.zero_le _
    | cons r rows =>
      obtain ⟨cells, rest, hcells, hrest, rfl⟩ := List.forall₂_cons_left_iff.mp hfilled
      obtain rfl := List.forall₂_nil_left_iff.mp hrest
      rw [List.map_singleton, List.sum_singleton, hbytes cells hcells]
      omega

/-- The row, once its region is filled in. -/
theorem regionRow_storable (r : RegionRow) : Storable regionExprs regionColumns "tenant_id"
    (physicalCells regionColumns (cellNamed (⟨r.cells, r.cells_fit⟩ : Row regionSchema))) := by
  refine ⟨[.int64 (smallI64 r.tenant), (r.ts.map fun n => .int64 (smallI64 n)).getD .null,
    .utf8 (r.region.getD "eu")], ?_, ?_, ?_⟩
  · rcases r with ⟨tenant, ts, region⟩
    cases ts <;> cases region <;> rfl
  · rcases r with ⟨tenant, ts, region⟩
    cases ts <;> cases region <;> rfl
  · intro i hi
    obtain rfl : 0 = i := Option.some.inj ((by decide : _ = some 0).symm.trans hi)
    simp

theorem regionBatch_storable (rows : List RegionRow) :
    AllStorable regionExprs regionColumns "tenant_id" (namedRows [regionBatch rows]) := by
  refine ⟨⟨0, ⟨"tenant_id", .int64, true, none⟩, by decide, rfl, rfl⟩, fun values hvalues => ?_⟩
  obtain ⟨b, hb, hvalues⟩ := List.mem_flatMap.mp hvalues
  obtain rfl := List.mem_singleton.mp hb
  obtain ⟨_, hr, rfl⟩ := List.mem_map.mp hvalues
  obtain ⟨r, -, rfl⟩ := List.mem_map.mp hr
  exact regionRow_storable r

/-- The rows by the first way. -/
def regionEncoded (rows : List RegionRow) : Except IngestError EncodedPart :=
  encodeRows .byName (rowwise regionExprs) .stable .characters regionColumns regionTable.packingKey
    "ts" regionTable.sortKey (rows.map RegionRow.json)

/-- And by the second. -/
def regionItems (rows : List RegionRow) : Except WriteError (List FlushItem) :=
  batchesToL0Items .equal (rowwise regionExprs) cellBytes (fun _ => "\x7b\x7d") .stable .characters
    [regionBatch rows] regionTable 1000

end Ukiel.Ingest
