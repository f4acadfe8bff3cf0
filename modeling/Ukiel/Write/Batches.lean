/-
# Batches that become parts

What `batchesToL0Items` does with batches of a table's input.  It gives the rows of the batches
one after the other, each completed by its default and materialized columns, and puts them into
one part when the target has no partition columns; it refuses them exactly where a row cannot be
completed or stored, the budget is exceeded, or there are more rows than it can count.
-/
import Ukiel.Expr.Fill
import Ukiel.Write.L0

namespace Ukiel.Write
open Ukiel.Expr

/-! ## 1. Input batches -/

/-- The cell in the column of that name; NULL where the batch has none. -/
def cellNamed {b : Schema} (r : Row b) (name : String) : Value :=
  match b.indexOf name with
  | some i => r.cell i
  | none => .null

/-- The rows of all batches, by column name. -/
def namedRows (batches : List RecordBatch) : List (String → Value) :=
  batches.flatMap fun batch => batch.rows.map cellNamed

/-- A row's values in the columns of the files. -/
def physicalCells (cols : TableColumns) (values : String → Value) : List Value :=
  (cols.specs.filter fun c => !(c.kind matches .aliased _)).map fun spec => values spec.name

/-- A batch of a table's input: its columns are input columns of their own type, all the stored
ones and some of those with a default. -/
structure InputColumns (cols : TableColumns) (b : Schema) : Prop where
  known : ∀ f ∈ b, ∃ spec ∈ cols.specs, spec.name = f.name
  input : ∀ f ∈ b, ∀ spec ∈ cols.specs, spec.name = f.name →
    ColumnSpec.isInput spec = true ∧ spec.dataType = f.dataType
  stored : ∀ spec ∈ cols.specs, spec.kind = .stored → ∃ i, b.indexOf spec.name = some i

/-- The arrays that come in fit the budget, and so do the completed ones. -/
structure Sufficient (memory : List (List Value) → Nat) (g : RowExpr) (cols : TableColumns)
    (maxBytes : Nat) (batches : List RecordBatch) : Prop where
  used : (batches.map fun batch => memory (batch.rows.map Subtype.val)).sum ≤ maxBytes
  materialized : ∀ filled, List.Forall₂ (fun batch cells =>
      (batch.rows.map fun r => physicalCells cols (cellNamed r)).mapM (complete g cols) = some cells)
        (batches.filter fun batch => !batch.rows.isEmpty) filled →
      (filled.map memory).sum ≤ maxBytes

/-- The packing key of the files is an `Int64` column. -/
def KeyedByInt64 (s : Schema) (packingKey : String) : Prop :=
  ∃ i f, s.indexOf packingKey = some i ∧ s[i]? = some f ∧ f.dataType = .int64

/-! ## 2. The last steps -/

section Finish

variable {L : Lexsort} {codec : PartCodec} {s : Schema} {rows : List (Row s)}
  {packingKey : String} {sortKey : List String}

/-- What both ways end in, of the completed rows. -/
def finishPart (L : Lexsort) (codec : PartCodec) {s : Schema} (rows : List (Row s))
    (sortKey : List String) (packingKey : String) : Except WriteError EncodedPart := do
  let sorted ← (sortBatch L rows sortKey).mapError .sortKey
  encodeBatch codec sorted packingKey defaultMaxRowGroupRows

/-- A validated sort key sorts. -/
theorem sortBatch_isOk (hsort : validateSortKey s sortKey packingKey none = .ok ())
    (rows : List (Row s)) : ∃ out, sortBatch L rows sortKey = .ok out ∧ out.Perm rows := by
  obtain ⟨i, rest, hcols, -⟩ := validateSortKey_eq_ok hsort
  have hout : ∃ out, sortBatch L rows sortKey = .ok out := by
    unfold sortBatch
    rw [hcols]
    exact ⟨_, rfl⟩
  obtain ⟨out, hout⟩ := hout
  obtain ⟨-, -, -, hperm, -⟩ := sortBatch_eq_ok hout
  exact ⟨out, hout, hperm⟩

theorem int64Column?_eq_some {i : Nat} {keys : List (Option I64)} :
    int64Column? i rows = some keys ↔
      (∃ f, s[i]? = some f ∧ f.dataType = .int64) ∧ keys = int64Array i rows := by
  unfold int64Column?
  rw [Option.ite_none_right_eq_some, Option.map_eq_some_iff, Option.some.injEq, eq_comm (a := keys)]

/-- In an `Int64` column only NULL has no value. -/
theorem none_mem_int64Array {i : Nat} {f : Field} (hf : s[i]? = some f) (htype : f.dataType = .int64) :
    none ∈ int64Array i rows ↔ ∃ r ∈ rows, r.cell i = .null := by
  unfold int64Array
  rw [List.mem_map]
  refine exists_congr fun r => and_congr_right fun _ => ?_
  have hadmits := r.admits hf
  cases hcell : r.cell i with
  | null => simp [Value.asInt64?]
  | int64 n => simp [Value.asInt64?]
  | float64 bits => simp [hcell, Field.admits, htype] at hadmits
  | utf8 text => simp [hcell, Field.admits, htype] at hadmits
  | bool b => simp [hcell, Field.admits, htype] at hadmits

/-- What is recorded of a batch that was encoded. -/
theorem encodeBatch_eq_ok {n : Nat} {part : EncodedPart}
    (h : encodeBatch codec rows packingKey n = .ok part) :
    ∃ i f keyMin keyMax, s.indexOf packingKey = some i ∧ s[i]? = some f ∧ f.dataType = .int64 ∧
      none ∉ int64Array i rows ∧ arrowMin (int64Array i rows) = some keyMin ∧
      arrowMax (int64Array i rows) = some keyMax ∧
      part = ⟨s, codec.parquet.close (codec.parquet.write (codec.parquet.new n) rows), rows.length,
        keyMin, keyMax, withKeyIndex (int64ColumnStats rows)
          (if keyMin ≠ keyMax then keyBitmap codec rows packingKey else none) none⟩ := by
  unfold encodeBatch at h
  split at h
  · cases h
  rename_i i hi
  split at h
  · cases h
  rename_i keys hcolumn
  obtain ⟨⟨f, hf, htype⟩, rfl⟩ := int64Column?_eq_some.mp hcolumn
  split at h
  · cases h
  rename_i hnone
  split at h
  swap
  · cases h
  rename_i keyMin keyMax hmin hmax
  cases h
  exact ⟨i, f, keyMin, keyMax, hi, hf, htype, hnone, hmin, hmax, rfl⟩

/-- The file has the rows that were written. -/
theorem flatten_write (P : ParquetWriter) (n : Nat) (rows : List (Row s)) :
    (P.close (P.write (P.new n) rows)).flatten = rows := by
  rw [P.flatten_close, P.rows_write, P.rows_new, List.nil_append]

/-- **When a sorted batch can be encoded**: it has rows, and an `Int64` key in each. -/
theorem encodeBatch_isOk_iff (hne : rows ≠ []) {n : Nat} :
    (∃ part, encodeBatch codec rows packingKey n = .ok part) ↔
      KeyedByInt64 s packingKey ∧ ∀ i, s.indexOf packingKey = some i → ∀ r ∈ rows, r.cell i ≠ .null := by
  unfold encodeBatch KeyedByInt64
  cases hi : s.indexOf packingKey with
  | none => simp
  | some i =>
    cases hcol : int64Column? i rows with
    | none =>
      have htype : ¬ ∃ f, s[i]? = some f ∧ f.dataType = .int64 := by
        intro htype
        rw [int64Column?_eq_some.mpr ⟨htype, rfl⟩] at hcol
        cases hcol
      simp only [hcol]
      constructor
      · rintro ⟨part, h⟩
        cases h
      · rintro ⟨⟨j, f, hj, hf⟩, -⟩
        cases hj
        exact absurd ⟨f, hf⟩ htype
    | some keys =>
      obtain ⟨⟨f, hf, htype⟩, rfl⟩ := int64Column?_eq_some.mp hcol
      have hnull : none ∈ int64Array i rows ↔ ∃ r ∈ rows, r.cell i = .null :=
        none_mem_int64Array hf htype
      simp only [hcol]
      by_cases hkey : none ∈ int64Array i rows
      · rw [if_pos hkey]
        obtain ⟨r, hr, hcell⟩ := hnull.mp hkey
        constructor
        · rintro ⟨part, h⟩
          cases h
        · rintro ⟨-, hall⟩
          exact absurd hcell (hall i rfl r hr)
      · rw [if_neg hkey]
        have hall : ∀ j, some i = some j → ∀ r ∈ rows, r.cell j ≠ .null := by
          rintro j hj r hr hcell
          cases hj
          exact hkey (hnull.mpr ⟨r, hr, hcell⟩)
        refine iff_of_true ?_ ⟨⟨i, f, rfl, hf, htype⟩, hall⟩
        -- a key that is there has a range
        obtain ⟨r, hr⟩ := List.exists_mem_of_ne_nil rows hne
        have hmem : (r.cell i).asInt64? ∈ int64Array i rows := List.mem_map_of_mem hr
        obtain ⟨n, hn⟩ : ∃ n, (r.cell i).asInt64? = some n :=
          Option.ne_none_iff_exists'.mp fun hnone => hkey (hnone ▸ hmem)
        rw [hn] at hmem
        cases hmin : arrowMin (int64Array i rows) with
        | none => exact absurd hmem (arrowMin_eq_none.mp hmin n)
        | some keyMin =>
          cases hmax : arrowMax (int64Array i rows) with
          | none => exact absurd hmem (arrowMax_eq_none.mp hmax n)
          | some keyMax => exact ⟨_, rfl⟩

/-- A part has the rows it was encoded from. -/
theorem rows_of_encodeBatch {n : Nat} {part : EncodedPart}
    (h : encodeBatch codec rows packingKey n = .ok part) :
    ∃ hs : part.schema = s, hs ▸ part.rows = rows := by
  obtain ⟨i, f, keyMin, keyMax, -, -, -, -, -, -, rfl⟩ := encodeBatch_eq_ok h
  exact ⟨rfl, flatten_write codec.parquet n rows⟩

theorem finishPart_eq_ok_iff {part : EncodedPart} :
    finishPart L codec rows sortKey packingKey = .ok part ↔ ∃ sorted,
      sortBatch L rows sortKey = .ok sorted ∧
        encodeBatch codec sorted packingKey defaultMaxRowGroupRows = .ok part := by
  unfold finishPart
  simp only [Except.bind_eq_ok_iff, Except.mapError_eq_ok_iff]

theorem finishPart_isOk_iff (hne : rows ≠ [])
    (hsort : validateSortKey s sortKey packingKey none = .ok ()) :
    (∃ part, finishPart L codec rows sortKey packingKey = .ok part) ↔
      KeyedByInt64 s packingKey ∧ ∀ i, s.indexOf packingKey = some i → ∀ r ∈ rows, r.cell i ≠ .null := by
  obtain ⟨out, hout, hperm⟩ := sortBatch_isOk (L := L) hsort rows
  have hfinish : finishPart L codec rows sortKey packingKey =
      encodeBatch codec out packingKey defaultMaxRowGroupRows := by
    unfold finishPart
    rw [hout]
    rfl
  have hout' : out ≠ [] := by
    rintro rfl
    exact hne hperm.nil_eq.symm
  rw [hfinish, encodeBatch_isOk_iff hout']
  simp only [hperm.mem_iff]

theorem finishPart_sorted {part : EncodedPart}
    (h : finishPart L codec rows sortKey packingKey = .ok part) {columns : List Nat}
    (hcols : sortColumns part.schema sortKey = .ok columns) : SortedRows columns part.rows := by
  obtain ⟨out, hout, hpart⟩ := finishPart_eq_ok_iff.mp h
  obtain ⟨hs, hrows⟩ := rows_of_encodeBatch hpart
  obtain ⟨columns', hcols', -, -, hsorted⟩ := sortBatch_eq_ok hout
  obtain ⟨ps, groups, count, keyMin, keyMax, stats⟩ := part
  cases hs
  rw [hcols', Except.ok.injEq] at hcols
  subst hcols hrows
  exact hsorted

end Finish

/-! ## 3. What a batch brings -/

section Input

variable {cols : TableColumns}

variable {b : Schema}

theorem physicalSchema_eq (cols : TableColumns) : cols.physicalSchema =
    (cols.specs.filter fun c => !(c.kind matches .aliased _)).map ColumnSpec.field := rfl

/-- The cell a batch has for a column is one of the column's type. -/
theorem fits_physicalCells (hcols : InputColumns cols b) (r : Row b) :
    cols.physicalSchema.withNullable.fits (physicalCells cols (cellNamed r)) = true := by
  refine Schema.fits_iff.mpr ⟨?_, ?_⟩
  · unfold physicalCells Schema.withNullable
    rw [physicalSchema_eq]
    simp only [List.length_map]
  · intro i f v hf hv
    unfold physicalCells at hv
    unfold Schema.withNullable at hf
    rw [physicalSchema_eq] at hf
    rw [List.getElem?_map, Option.map_eq_some_iff] at hv
    obtain ⟨spec, hspec, rfl⟩ := hv
    rw [List.getElem?_map, List.getElem?_map, hspec] at hf
    cases hf
    have hmem := (List.mem_filter.mp (List.mem_of_getElem? hspec)).1
    unfold cellNamed
    cases hi : b.indexOf spec.name with
    | none => rfl
    | some i =>
      obtain ⟨field, hfield, hname, -⟩ := Schema.indexOf_eq_some.mp hi
      obtain ⟨-, htype⟩ := hcols.input field (List.mem_of_getElem? hfield) spec hmem hname.symm
      exact Field.admits_mono (f := spec.field.withNullable) (g := field) htype.symm (fun _ => rfl)
        (r.admits hfield)

/-- A cast to a column's own type leaves the cell as it is. -/
theorem castRow_eq (kernel : CastKernel) (hcols : InputColumns cols b) (r : Row b) :
    castRow kernel cols r = some (physicalCells cols (cellNamed r)) := by
  unfold castRow physicalCells
  rw [List.mapM_eq_some_iff, List.forall₂_map_right_iff]
  refine List.forall₂_same.mpr fun spec hspec => ?_
  have hmem := (List.mem_filter.mp hspec).1
  unfold cellNamed
  cases hi : b.indexOf spec.name with
  | none => rfl
  | some i =>
    obtain ⟨field, hfield, hname, -⟩ := Schema.indexOf_eq_some.mp hi
    obtain ⟨-, htype⟩ := hcols.input field (List.mem_of_getElem? hfield) spec hmem hname.symm
    simp only [hfield, htype, kernel.cast_self]

/-- No batch has a materialized column. -/
theorem cellNamed_materialized (hcols : InputColumns cols b) (r : Row b) {spec : ColumnSpec}
    (hspec : spec ∈ cols.specs) (hkind : isMaterialized spec = true) :
    cellNamed r spec.name = .null := by
  unfold cellNamed
  cases hi : b.indexOf spec.name with
  | none => rfl
  | some i =>
    obtain ⟨field, hfield, hname, -⟩ := Schema.indexOf_eq_some.mp hi
    obtain ⟨hinput, -⟩ := hcols.input field (List.mem_of_getElem? hfield) spec hspec hname.symm
    unfold ColumnSpec.isInput at hinput
    unfold isMaterialized at hkind
    cases hk : spec.kind <;> simp_all

/-- Rows of batches fit the table's files only if its materialized columns may be NULL: that is
what they are before they are computed. -/
theorem materialized_nullable (hcols : InputColumns cols b) {r : Row b}
    (hfit : cols.physicalSchema.fits (physicalCells cols (cellNamed r)) = true)
    {spec : ColumnSpec} (hspec : spec ∈ cols.specs) (hkind : isMaterialized spec = true) {f : Field}
    (hf : f ∈ cols.physicalSchema) (hname : f.name = spec.name) : f.nullable = true := by
  obtain ⟨i, hi⟩ := List.mem_iff_getElem?.mp hf
  have hcell : (physicalCells cols (cellNamed r))[i]? = some .null := by
    unfold physicalCells
    rw [physicalSchema_eq, List.getElem?_map, Option.map_eq_some_iff] at hi
    obtain ⟨spec', hspec', rfl⟩ := hi
    rw [List.getElem?_map, hspec']
    show some (cellNamed r spec'.name) = some .null
    rw [show spec'.name = spec.name from hname, cellNamed_materialized hcols r hspec hkind]
  exact (Schema.fits_iff.mp hfit).2 i f .null hi hcell

end Input

/-! ## 4. All batches -/

section Batches

variable {kernel : CastKernel} {g : RowExpr} {memory : List (List Value) → Nat}
  {target : Hypertable} {maxBytes : Nat} {cols : TableColumns} {b : Schema}

/-- A batch of a table's input has a schema that may be written to it. -/
theorem validateOutputSchema_of_inputColumns (hcols : InputColumns cols b)
    (hparse : TableColumns.parse target.tableSchema = .ok cols)
    (hpart : partitionColumns target = .ok [])
    (hsort : validateSortKey cols.physicalSchema target.sortKey target.packingKey none = .ok ()) :
    validateOutputSchema kernel b target = .ok () := by
  have houtput : b.forM (checkOutput kernel cols) = .ok () := by
    refine List.forM_eq_ok_iff.mpr fun f hf => ?_
    unfold checkOutput
    cases hfind : cols.specs.find? fun c => decide (c.name = f.name) with
    | none =>
      obtain ⟨spec, hspec, hname⟩ := hcols.known f hf
      have := List.find?_eq_none.mp hfind spec hspec
      simp [hname] at this
    | some spec =>
      have hname : spec.name = f.name := by simpa using List.find?_some hfind
      obtain ⟨hinput, htype⟩ := hcols.input f hf spec (List.mem_of_find?_eq_some hfind) hname
      unfold ColumnSpec.isInput at hinput
      cases hk : spec.kind <;> simp_all [kernel.canCast_self]
  have hstored : cols.specs.forM (fun spec =>
      if spec.kind = .stored ∧
          (spec.nullable = false ∨ spec.name ∈ target.sortKey ++ [] ++ [target.packingKey]) ∧
          b.indexOf spec.name = none then
        Except.error (WriteError.invalidTarget ("missing required column " ++ spec.name))
      else .ok ()) = .ok () := by
    refine List.forM_eq_ok_iff.mpr fun spec hspec => if_neg ?_
    rintro ⟨hkind, -, hnone⟩
    obtain ⟨i, hi⟩ := hcols.stored spec hspec hkind
    rw [hi] at hnone
    cases hnone
  have hrequired : (target.sortKey ++ [] ++ [target.packingKey]).forM (fun name =>
      if cols.physicalSchema.indexOf name = none then Except.error WriteError.arrow else .ok ()) =
        .ok () := by
    obtain ⟨i, rest, hcolumns, hkey⟩ := validateSortKey_eq_ok hsort
    refine List.forM_eq_ok_iff.mpr fun name hname => if_neg ?_
    rw [List.append_nil, List.mem_append, List.mem_singleton] at hname
    rcases hname with hname | rfl
    · obtain ⟨j, -, hj⟩ := (sortColumns_eq_ok.mp hcolumns).exists_of_mem hname
      rw [hj]
      exact Option.some_ne_none j
    · rw [hkey]
      exact Option.some_ne_none i
  unfold validateOutputSchema
  simp only [hparse, hpart, hsort, houtput, hstored, hrequired, Except.mapError, bind, Except.bind]

/-- The completed rows of the values. -/
def Completed (g : RowExpr) (cols : TableColumns) (values : List (String → Value))
    (out : List (Row cols.physicalSchema)) : Prop :=
  List.Forall₂ (fun values r => complete g cols (physicalCells cols values) = some r.val) values out

theorem completed_iff {values : List (String → Value)} {out : List (Row cols.physicalSchema)} :
    Completed g cols values out ↔
      (values.map (physicalCells cols)).mapM (complete g cols) = some (out.map Subtype.val) := by
  unfold Completed
  rw [List.mapM_eq_some_iff, List.forall₂_map_left_iff, List.forall₂_map_right_iff]

/-- The rows of a batch before they are completed. -/
theorem exists_evaluation (kernel : CastKernel) (hcols : InputColumns cols b) (rows : List (Row b)) :
    ∃ evaluation, (rows.mapM (castRow kernel cols)).bind
        cols.physicalSchema.withNullable.tryNew = some evaluation ∧
      evaluation.map Subtype.val = (rows.map cellNamed).map (physicalCells cols) := by
  have hcast : rows.mapM (castRow kernel cols) =
      some ((rows.map cellNamed).map (physicalCells cols)) := by
    rw [List.mapM_eq_some_iff, List.map_map, List.forall₂_map_right_iff]
    exact List.forall₂_same.mpr fun r _ => castRow_eq kernel hcols r
  have hfits : ∀ cells ∈ (rows.map cellNamed).map (physicalCells cols),
      cols.physicalSchema.withNullable.fits cells = true := by
    intro cells hcells
    rw [List.map_map] at hcells
    obtain ⟨r, -, rfl⟩ := List.mem_map.mp hcells
    exact fits_physicalCells hcols r
  obtain ⟨evaluation, hnew⟩ := Schema.tryNew_of_fits hfits
  exact ⟨evaluation, by rw [hcast]; exact hnew, Schema.tryNew_eq_some.mp hnew⟩

/-- The loop of defaults over a batch. -/
theorem applyDefaults_evaluation (htyped : RowExprTyped g) {rows : List (Row b)}
    {evaluation : List (Row cols.physicalSchema.withNullable)}
    (heval : evaluation.map Subtype.val = (rows.map cellNamed).map (physicalCells cols)) :
    match ((rows.map cellNamed).map (physicalCells cols)).mapM (complete g cols) with
    | some out => ∃ filled : List (Row cols.physicalSchema.withNullable),
        applyDefaultsAndMaterialized (rowwise g) evaluation cols = .ok filled ∧
          filled.map Subtype.val = out
    | none => ∃ e, applyDefaultsAndMaterialized (rowwise g) evaluation cols = .error e := by
  have hnullable : ∀ f ∈ cols.physicalSchema.withNullable, f.nullable = true := by
    intro f hf
    obtain ⟨f, -, rfl⟩ := List.mem_map.mp hf
    rfl
  rw [← heval]
  exact applyDefaults_of_fits htyped (Or.inr rfl)
    (Or.inr fun spec _ _ f hf _ => hnullable f hf)

theorem adaptBatch_of_completed (htyped : RowExprTyped g) (hcols : InputColumns cols b)
    {rows : List (Row b)} {out : List (Row cols.physicalSchema)}
    (hout : Completed g cols (rows.map cellNamed) out) {i : Nat}
    (hi : cols.physicalSchema.indexOf target.packingKey = some i)
    (hkey : ∀ r ∈ out, r.cell i ≠ .null) {m : Nat}
    (hbudget : m + memory (out.map Subtype.val) ≤ maxBytes) :
    adaptBatch kernel (rowwise g) memory target maxBytes cols rows m =
      .ok (out, m + memory (out.map Subtype.val)) := by
  obtain ⟨evaluation, hcast, heval⟩ := exists_evaluation kernel hcols rows
  have hfill := applyDefaults_evaluation htyped heval
  rw [completed_iff.mp hout] at hfill
  obtain ⟨filled, happly, hfilled⟩ := hfill
  have hnull : cols.physicalSchema.zipIdx.find? (fun f =>
      !f.1.nullable && (out.map Subtype.val).any fun r => r[f.2]? = some .null) = none := by
    refine List.find?_eq_none.mpr fun f hf => ?_
    rw [Bool.and_eq_true, Bool.not_eq_true', List.any_eq_true]
    rintro ⟨hnullable, cells, hcells, hcell⟩
    obtain ⟨r, -, rfl⟩ := List.mem_map.mp hcells
    have hadmits := (Schema.fits_iff.mp r.property).2 f.2 f.1 .null
      (List.mem_zipIdx_iff_getElem?.mp hf) (by simpa using hcell)
    rw [Field.admits, hnullable] at hadmits
    cases hadmits
  have hkeys : ¬ ((out.map Subtype.val).any fun r => r[i]? = some .null) = true := by
    rw [List.any_eq_true]
    rintro ⟨cells, hcells, hcell⟩
    obtain ⟨r, hr, rfl⟩ := List.mem_map.mp hcells
    refine hkey r hr ?_
    unfold Row.cell
    rw [of_decide_eq_true hcell]
    rfl
  have hnew : cols.physicalSchema.tryNew (out.map Subtype.val) = some out :=
    Schema.tryNew_eq_some.mpr rfl
  unfold adaptBatch
  simp only [hcast, happly, hfilled, hnull, hi, hnew]
  rw [if_neg (Nat.not_lt.mpr hbudget), if_neg hkeys]

theorem completed_of_adaptBatch (htyped : RowExprTyped g) (hcols : InputColumns cols b)
    {rows : List (Row b)} {out : List (Row cols.physicalSchema)} {m m' : Nat}
    (h : adaptBatch kernel (rowwise g) memory target maxBytes cols rows m = .ok (out, m')) :
    Completed g cols (rows.map cellNamed) out ∧
      ∀ i, cols.physicalSchema.indexOf target.packingKey = some i → ∀ r ∈ out, r.cell i ≠ .null := by
  obtain ⟨evaluation, hcast, heval⟩ := exists_evaluation kernel hcols rows
  have hfill := applyDefaults_evaluation htyped heval
  unfold adaptBatch at h
  simp only [hcast] at h
  cases hcells : ((rows.map cellNamed).map (physicalCells cols)).mapM (complete g cols) with
  | none =>
    rw [hcells] at hfill
    obtain ⟨e, he⟩ := hfill
    simp only [he] at h
    cases h
  | some cells =>
    rw [hcells] at hfill
    obtain ⟨filled, happly, hfilled⟩ := hfill
    simp only [happly, hfilled] at h
    -- the checks that were passed
    split at h
    · cases h
    · split at h
      · cases h
      · split at h
        · cases h
        · rename_i i hi
          split at h
          · cases h
          · rename_i hkeys
            split at h
            · cases h
            · rename_i out' hnew
              cases h
              have hval := Schema.tryNew_eq_some.mp hnew
              refine ⟨completed_iff.mpr (by rw [hcells, hval]), ?_⟩
              intro j hj r hr hcell
              rw [hi, Option.some.injEq] at hj
              subst hj
              refine hkeys (List.any_eq_true.mpr ⟨r.val, ?_, ?_⟩)
              · rw [← hval]
                exact List.mem_map_of_mem hr
              · have hlt : i < r.val.length := by
                  obtain ⟨f, hf, -⟩ := Schema.indexOf_eq_some.mp hi
                  rw [r.length]
                  exact (List.getElem?_eq_some_iff.mp hf).1
                unfold Row.cell at hcell
                rw [List.getElem?_eq_getElem hlt] at hcell ⊢
                exact decide_eq_true (congrArg some hcell)

theorem namedRows_cons (batch : RecordBatch) (batches : List RecordBatch) :
    namedRows (batch :: batches) = batch.rows.map cellNamed ++ namedRows batches := rfl

/-- Completed rows of an append, in its two parts. -/
theorem Completed.of_append {u v : List (String → Value)} {out : List (Row cols.physicalSchema)}
    (h : Completed g cols (u ++ v) out) :
    ∃ out₁ out₂, out = out₁ ++ out₂ ∧ Completed g cols u out₁ ∧ Completed g cols v out₂ := by
  refine ⟨out.take u.length, out.drop u.length, (List.take_append_drop _ out).symm, ?_, ?_⟩
  · exact (List.forall₂_take_append out u v h.flip).flip
  · exact (List.forall₂_drop_append out u v h.flip).flip

/-- **The loop over the batches** gives the completed rows, where they have keys and the budget
suffices. -/
theorem adaptBatches_of_completed (htyped : RowExprTyped g) {batches : List RecordBatch}
    (hcols : ∀ batch ∈ batches, InputColumns cols batch.schema)
    (hvalid : ∀ batch ∈ batches, validateOutputSchema kernel batch.schema target = .ok ())
    {out : List (Row cols.physicalSchema)} (hout : Completed g cols (namedRows batches) out)
    {i : Nat} (hi : cols.physicalSchema.indexOf target.packingKey = some i)
    (hkey : ∀ r ∈ out, r.cell i ≠ .null) {used m : Nat}
    (hused : used + (batches.map fun batch => memory (batch.rows.map Subtype.val)).sum ≤ maxBytes)
    (hmem : ∀ filled, List.Forall₂ (fun batch cells =>
        (batch.rows.map fun r => physicalCells cols (cellNamed r)).mapM (complete g cols) =
          some cells) (batches.filter fun batch => !batch.rows.isEmpty) filled →
        m + (filled.map memory).sum ≤ maxBytes) :
    adaptBatches kernel (rowwise g) memory target maxBytes cols batches used m = .ok out := by
  induction batches generalizing out used m with
  | nil =>
    cases hout
    rfl
  | cons batch batches ih =>
    have hrest := fun batch' (h' : batch' ∈ batches) => List.mem_cons_of_mem batch h'
    rw [namedRows_cons] at hout
    obtain ⟨out₁, out₂, rfl, hout₁, hout₂⟩ := hout.of_append
    rw [List.map_cons, List.sum_cons] at hused
    unfold adaptBatches
    rw [hvalid batch List.mem_cons_self]
    simp only [bind, Except.bind]
    rw [if_neg (by omega)]
    by_cases hempty : batch.rows.isEmpty = true
    · rw [if_pos hempty]
      rw [List.isEmpty_iff.mp hempty] at hout₁
      cases hout₁
      refine ih (fun b' h' => hcols b' (hrest b' h')) (fun b' h' => hvalid b' (hrest b' h')) hout₂
        hkey (by omega) ?_
      rw [List.filter_cons_of_neg (by simp [hempty])] at hmem
      exact hmem
    · rw [if_neg hempty]
      rw [List.filter_cons_of_pos (by simpa using hempty)] at hmem
      have hcells := completed_iff.mp hout₁
      rw [List.map_map] at hcells
      -- some batches are completed after this one, whatever they are
      have hothers : ∃ filled, List.Forall₂ (fun batch cells =>
          (batch.rows.map fun r => physicalCells cols (cellNamed r)).mapM (complete g cols) =
            some cells) (batches.filter fun batch => !batch.rows.isEmpty) filled := by
        refine List.exists_forall₂ fun batch' hbatch' => ?_
        obtain ⟨cells, hcells⟩ := List.exists_forall₂ (l := batch'.rows)
          (R := fun r cells => complete g cols (physicalCells cols (cellNamed r)) = some cells) (by
            intro r hr
            have hmem' : cellNamed r ∈ namedRows batches := List.mem_flatMap.mpr
              ⟨batch', (List.mem_filter.mp hbatch').1, List.mem_map_of_mem hr⟩
            obtain ⟨r', -, hr'⟩ := hout₂.exists_of_mem hmem'
            exact ⟨r'.val, hr'⟩)
        refine ⟨cells, ?_⟩
        rw [List.mapM_eq_some_iff, List.forall₂_map_left_iff]
        exact hcells
      obtain ⟨filled, hfilled⟩ := hothers
      have hbudget := hmem (out₁.map Subtype.val :: filled) (.cons hcells hfilled)
      rw [List.map_cons, List.sum_cons] at hbudget
      rw [adaptBatch_of_completed htyped (hcols batch List.mem_cons_self) hout₁ hi
        (fun r hr => hkey r (List.mem_append_left _ hr)) (m := m) (by omega)]
      simp only
      rw [ih (fun b' h' => hcols b' (hrest b' h')) (fun b' h' => hvalid b' (hrest b' h')) hout₂
        (fun r hr => hkey r (List.mem_append_right _ hr)) (by omega) (m := m + memory (out₁.map Subtype.val)) (by
          intro filled' hfilled'
          have := hmem (out₁.map Subtype.val :: filled') (.cons hcells hfilled')
          rw [List.map_cons, List.sum_cons] at this
          omega)]
      rfl

/-- One round of the loop over the batches: the batch is empty, or its rows come first. -/
theorem adaptBatches_cons_eq_ok {batch : RecordBatch} {batches : List RecordBatch}
    {eval : Evaluator} {out : List (Row cols.physicalSchema)} {used m : Nat}
    (h : adaptBatches kernel eval memory target maxBytes cols (batch :: batches) used m =
      .ok out) :
    ∃ used', batch.rows = [] ∧
        adaptBatches kernel eval memory target maxBytes cols batches used' m = .ok out ∨
      batch.rows ≠ [] ∧ ∃ first m' rest,
        adaptBatch kernel eval memory target maxBytes cols batch.rows m = .ok (first, m') ∧
        adaptBatches kernel eval memory target maxBytes cols batches used' m' = .ok rest ∧
        out = first ++ rest := by
  unfold adaptBatches at h
  obtain ⟨-, -, h⟩ := Except.bind_eq_ok_iff.mp h
  dsimp only at h
  split at h
  · cases h
  · refine ⟨used + memory (batch.rows.map Subtype.val), ?_⟩
    split at h
    · rename_i hempty
      exact Or.inl ⟨List.isEmpty_iff.mp hempty, h⟩
    · rename_i hfull
      obtain ⟨⟨first, m'⟩, hfirst, h⟩ := Except.bind_eq_ok_iff.mp h
      obtain ⟨rest, hrest, h⟩ := Except.bind_eq_ok_iff.mp h
      cases h
      exact Or.inr ⟨by simpa using hfull, first, m', rest, hfirst, hrest, rfl⟩

theorem completed_of_adaptBatches (htyped : RowExprTyped g) {batches : List RecordBatch}
    (hcols : ∀ batch ∈ batches, InputColumns cols batch.schema)
    {out : List (Row cols.physicalSchema)} {used m : Nat}
    (h : adaptBatches kernel (rowwise g) memory target maxBytes cols batches used m = .ok out) :
    Completed g cols (namedRows batches) out ∧
      ∀ i, cols.physicalSchema.indexOf target.packingKey = some i → ∀ r ∈ out, r.cell i ≠ .null := by
  induction batches generalizing out used m with
  | nil =>
    cases h
    exact ⟨.nil, fun _ _ r hr => absurd hr List.not_mem_nil⟩
  | cons batch batches ih =>
    have hrest := fun batch' (h' : batch' ∈ batches) => hcols batch' (List.mem_cons_of_mem batch h')
    rw [namedRows_cons]
    obtain ⟨used', ⟨hempty, h⟩ | ⟨-, first, m', rest, hfirst, hafter, rfl⟩⟩ :=
      adaptBatches_cons_eq_ok h
    · rw [hempty]
      exact ih hrest h
    · obtain ⟨h₁, hkey₁⟩ := completed_of_adaptBatch htyped (hcols batch List.mem_cons_self) hfirst
      obtain ⟨h₂, hkey₂⟩ := ih hrest hafter
      refine ⟨List.rel_append h₁ h₂, fun i hi r hr => ?_⟩
      rcases List.mem_append.mp hr with hr | hr
      · exact hkey₁ i hi r hr
      · exact hkey₂ i hi r hr

theorem groups_from (render : Json → String) {s : Schema} (before rows : List (Row s)) :
    (rows.foldlM (fun groups r => (partitionValues [] r).map fun value =>
        pushGroup (render value) value r groups) [(render (.obj []), .obj [], before)] :
          Except WriteError _) = .ok [(render (.obj []), .obj [], before ++ rows)] := by
  induction rows generalizing before with
  | nil =>
    rw [List.append_nil]
    rfl
  | cons r rows ih =>
    have hpush : pushGroup (render (.obj [])) (.obj []) r [(render (.obj []), .obj [], before)] =
        [(render (.obj []), .obj [], before ++ [r])] := if_pos rfl
    rw [List.append_cons, ← ih (before ++ [r]), ← hpush]
    rfl

/-- Without partition columns all rows are of one group. -/
theorem groups_of_unpartitioned (render : Json → String) {s : Schema} {rows : List (Row s)}
    (h : rows ≠ []) :
    (rows.foldlM (fun groups r => (partitionValues [] r).map fun value =>
        pushGroup (render value) value r groups) [] : Except WriteError _) =
      .ok [(render (.obj []), .obj [], rows)] := by
  obtain ⟨r, rows, rfl⟩ := List.exists_cons_of_ne_nil h
  exact groups_from render [r] rows

variable {render : Json → String} {L : Lexsort} {codec : PartCodec} {batches : List RecordBatch}

/-- What the function did where it succeeds: there are no rows, or each group was finished. -/
theorem batchesToL0Items_eq_ok_iff {eval : Evaluator} {partitions : List String}
    (hparse : TableColumns.parse target.tableSchema = .ok cols)
    (hpart : partitionColumns target = .ok partitions) {items : List FlushItem} :
    batchesToL0Items kernel eval memory render L codec batches target maxBytes = .ok items ↔
      ∃ rows, adaptBatches kernel eval memory target maxBytes cols batches 0 0 = .ok rows ∧
        (rows = [] ∧ items = [] ∨ rows ≠ [] ∧ rows.length ≤ maxRows ∧ ∃ groups,
          rows.foldlM (fun groups r => (partitionValues partitions r).map fun value =>
            pushGroup (render value) value r groups) [] = .ok groups ∧
          List.Forall₂ (fun g item =>
            (finishPart L codec g.2.2 target.sortKey target.packingKey).map
              (FlushItem.mk g.2.1) = .ok item) groups items) := by
  have hitem : ∀ g : String × Json × List (Row cols.physicalSchema),
      ((sortBatch L g.2.2 target.sortKey).mapError .sortKey >>= fun sorted =>
        encodeBatch codec sorted target.packingKey defaultMaxRowGroupRows >>= fun part =>
          pure (FlushItem.mk g.2.1 part)) =
      (finishPart L codec g.2.2 target.sortKey target.packingKey).map (FlushItem.mk g.2.1) := by
    intro g
    unfold finishPart
    cases (sortBatch L g.2.2 target.sortKey).mapError WriteError.sortKey with
    | error e => rfl
    | ok sorted => cases encodeBatch codec sorted target.packingKey defaultMaxRowGroupRows <;> rfl
  unfold batchesToL0Items
  simp only [hparse, hpart, Except.mapError, Except.bind_eq_ok_iff, Except.ok.injEq,
    exists_eq_left']
  refine exists_congr fun rows => and_congr_right fun _ => ?_
  by_cases hne : rows = []
  · subst hne
    simp [pure, Except.pure, eq_comm]
  · rw [if_neg (by simpa using hne)]
    by_cases hlen : maxRows < rows.length
    · rw [if_pos hlen]
      simp [hne, Nat.not_le.mpr hlen]
    · rw [if_neg hlen]
      simp only [Except.bind_eq_ok_iff, hne, false_and, false_or, ne_eq, not_false_eq_true,
        Nat.not_lt.mp hlen, true_and]
      refine exists_congr fun groups => and_congr_right fun _ => ?_
      rw [List.mapM_eq_ok_iff]
      simp only [← hitem]
      rfl

theorem batchesToL0Items_of_completed (htyped : RowExprTyped g)
    (hparse : TableColumns.parse target.tableSchema = .ok cols)
    (hpart : partitionColumns target = .ok [])
    (hsort : validateSortKey cols.physicalSchema target.sortKey target.packingKey none = .ok ())
    (hcols : ∀ batch ∈ batches, InputColumns cols batch.schema)
    (hbudget : Sufficient memory g cols maxBytes batches) {out : List (Row cols.physicalSchema)}
    (hout : Completed g cols (namedRows batches) out) (hne : out ≠ [])
    (hkey : ∀ i, cols.physicalSchema.indexOf target.packingKey = some i →
      ∀ r ∈ out, r.cell i ≠ .null) (hlen : out.length ≤ maxRows) :
    batchesToL0Items kernel (rowwise g) memory render L codec batches target maxBytes =
      (finishPart L codec out target.sortKey target.packingKey).map
        fun part => [⟨.obj [], part⟩] := by
  obtain ⟨i, rest, -, hi⟩ := validateSortKey_eq_ok hsort
  have hvalid : ∀ batch ∈ batches, validateOutputSchema kernel batch.schema target = .ok () :=
    fun batch hbatch => validateOutputSchema_of_inputColumns (hcols batch hbatch) hparse hpart hsort
  have hadapt : adaptBatches kernel (rowwise g) memory target maxBytes cols batches 0 0 =
      .ok out := by
    refine adaptBatches_of_completed htyped hcols hvalid hout hi (hkey i hi) ?_ ?_
    · rw [Nat.zero_add]
      exact hbudget.used
    · intro filled hfilled
      rw [Nat.zero_add]
      exact hbudget.materialized filled hfilled
  unfold batchesToL0Items finishPart
  simp only [hparse, hpart, hadapt, Except.mapError, bind, Except.bind]
  rw [if_neg (by simpa using hne), if_neg (Nat.not_lt.mpr hlen),
    groups_of_unpartitioned render hne]
  show List.mapM _ _ = _
  rw [List.mapM_cons, List.mapM_nil]
  cases hs : sortBatch L out target.sortKey with
  | error e => rfl
  | ok sorted =>
    simp only [bind, Except.bind, pure, Except.pure]
    cases encodeBatch codec sorted target.packingKey defaultMaxRowGroupRows <;> rfl

theorem completed_of_batchesToL0Items (htyped : RowExprTyped g)
    (hparse : TableColumns.parse target.tableSchema = .ok cols)
    (hpart : partitionColumns target = .ok [])
    (hcols : ∀ batch ∈ batches, InputColumns cols batch.schema) (hne : namedRows batches ≠ [])
    {items : List FlushItem}
    (h : batchesToL0Items kernel (rowwise g) memory render L codec batches target maxBytes =
      .ok items) :
    ∃ out part, Completed g cols (namedRows batches) out ∧ out.length ≤ maxRows ∧
      (∀ i, cols.physicalSchema.indexOf target.packingKey = some i → ∀ r ∈ out, r.cell i ≠ .null) ∧
      finishPart L codec out target.sortKey target.packingKey = .ok part := by
  obtain ⟨out, hadapt, ⟨rfl, -⟩ | ⟨hne', hlen, groups, hgroups, hitems⟩⟩ :=
    (batchesToL0Items_eq_ok_iff hparse hpart).mp h
  · have hnil := (completed_of_adaptBatches htyped hcols hadapt).1
    exact absurd (List.forall₂_nil_right_iff.mp hnil) hne
  · obtain ⟨hout, hkey⟩ := completed_of_adaptBatches htyped hcols hadapt
    rw [groups_of_unpartitioned render hne', Except.ok.injEq] at hgroups
    subst hgroups
    obtain ⟨item, -, hitem, -, -⟩ := List.forall₂_cons_left_iff.mp hitems
    obtain ⟨part, hfinish, -⟩ := Except.map_eq_ok_iff.mp hitem
    exact ⟨out, part, hout, hlen, hkey, hfinish⟩

end Batches

end Ukiel.Write
