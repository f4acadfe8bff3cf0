/-
# L0 parts

`ukiel-write/src/lib.rs`: how batches become L0 files.  `encodeBatch` writes one sorted batch and
records what the catalog keeps of it; ingest and materialized views share it.  `batchesToL0Items`
is the whole way of a view's output: its batches are cast to the target's columns, completed by
the default and materialized ones over a schema in which every column may be NULL, checked against
the real one, and split by partition.

`CastKernel`, `render` and `memory` are Arrow's casts, the text of a JSON value and the size of a
batch's arrays.
-/
import Ukiel.Core.Sorting
import Ukiel.Core.Stats
import Ukiel.Expr.Defaults
import Ukiel.Write.Parquet

namespace Ukiel.Write
open Ukiel.Expr

inductive WriteError where
  | schema (e : SchemaError)
  | arrow
  | expr (e : ExprError)
  | sortKey (e : SortKeyError)
  | invalidTarget (reason : String)
  | budgetExceeded (limit : Nat)
  | emptyBatch
deriving DecidableEq

/-! ## 1. One file -/

/-- `EncodedPart`, its bytes read as a file. -/
structure EncodedPart where
  schema : Schema
  rowGroups : List (List (Row schema))
  rowCount : Int
  keyMin : I64
  keyMax : I64
  columnStats : Option Json

def EncodedPart.rows (part : EncodedPart) : List (Row part.schema) := part.rowGroups.flatten

/-- `encode_batch`, of a batch that is already sorted. -/
def encodeBatch (codec : PartCodec) {s : Schema} (batch : List (Row s)) (packingKey : String)
    (maxRowGroupRows : Nat) : Except WriteError EncodedPart :=
  match s.indexOf packingKey with
  | none => .error .arrow
  | some i =>
    match int64Column? i batch with
    | none => .error (.invalidTarget "packing key must be Int64")
    | some keys =>
      if none ∈ keys then .error (.invalidTarget "packing key contains NULL")
      else
        match arrowMin keys, arrowMax keys with
        | some keyMin, some keyMax =>
          let bitmap := if keyMin ≠ keyMax then keyBitmap codec batch packingKey else none
          let writer := codec.parquet.write (codec.parquet.new maxRowGroupRows) batch
          .ok ⟨s, codec.parquet.close writer, batch.length, keyMin, keyMax,
            withKeyIndex (int64ColumnStats batch) bitmap none⟩
        | _, _ => .error .emptyBatch

/-! ## 2. The target -/

/-- `partition_columns`. -/
def partitionColumns (target : Hypertable) : Except WriteError (List String) :=
  match (target.partitionSpec.get? "columns").bind Json.asArray? with
  | none => .error (.invalidTarget "partition spec must contain a columns array")
  | some columns => columns.mapM fun c =>
    match c.asStr? with
    | some name => .ok name
    | none => .error (.invalidTarget "partition columns must be names")

/-- Arrow's casts; one to the same type does nothing. -/
structure CastKernel where
  canCast : DataType → DataType → Bool
  /-- None where the cast fails; a value that has no counterpart becomes NULL. -/
  cast : DataType → DataType → Value → Option Value
  canCast_self : ∀ t, canCast t t = true
  cast_self : ∀ t v, cast t t v = some v

/-- A kernel to evaluate with, that casts to a column's own type only. -/
def CastKernel.equal : CastKernel where
  canCast a b := a = b
  cast a b v := if a = b then some v else none
  canCast_self _ := decide_eq_true rfl
  cast_self _ _ := if_pos rfl

/-- A column of the output that may be written. -/
def checkOutput (kernel : CastKernel) (cols : TableColumns) (field : Field) :
    Except WriteError Unit :=
  match cols.specs.find? fun c => c.name = field.name with
  | none => .error (.invalidTarget ("unknown output column " ++ field.name))
  | some spec =>
    if spec.kind matches .aliased _ | .materialized _ then
      .error (.invalidTarget ("column " ++ spec.name ++ " is not writable"))
    else if kernel.canCast field.dataType spec.dataType then .ok ()
    else .error (.invalidTarget ("column " ++ spec.name ++ " cannot be cast"))

/-- `validate_output_schema`. -/
def validateOutputSchema (kernel : CastKernel) (output : Schema) (target : Hypertable) :
    Except WriteError Unit := do
  let cols ← (TableColumns.parse target.tableSchema).mapError .schema
  let partitions ← partitionColumns target
  let required := target.sortKey ++ partitions ++ [target.packingKey]
  output.forM (checkOutput kernel cols)
  cols.specs.forM fun spec =>
    if spec.kind = .stored ∧ (spec.nullable = false ∨ spec.name ∈ required) ∧
        output.indexOf spec.name = none then
      .error (.invalidTarget ("missing required column " ++ spec.name))
    else .ok ()
  let physical := cols.physicalSchema
  (validateSortKey physical target.sortKey target.packingKey none).mapError .sortKey
  required.forM fun name => if physical.indexOf name = none then .error .arrow else .ok ()

/-! ## 3. Batches -/

section Batches

variable (kernel : CastKernel) (eval : Evaluator) (memory : List (List Value) → Nat)
  (target : Hypertable) (maxBytes : Nat) (cols : TableColumns)

/-- A row's arrays, cast to the columns of the table; NULL where the batch has none. -/
def castRow {b : Schema} (r : Row b) : Option (List Value) :=
  (cols.specs.filter fun c => !(c.kind matches .aliased _)).mapM fun spec =>
    match b.indexOf spec.name with
    | none => some .null
    | some i =>
      match b[i]? with
      | none => none
      | some field => kernel.cast field.dataType spec.dataType (r.cell i)

/-- One round of the loop over the batches, after its budget check. -/
def adaptBatch {b : Schema} (rows : List (Row b)) (materialized : Nat) :
    Except WriteError (List (Row cols.physicalSchema) × Nat) :=
  let schema := cols.physicalSchema
  match (rows.mapM (castRow kernel cols)).bind schema.withNullable.tryNew with
  | none => .error .arrow
  | some evaluation =>
    match applyDefaultsAndMaterialized eval evaluation cols with
    | .error e => .error (.expr e)
    | .ok filled =>
      let cells := filled.map Subtype.val
      let materialized := materialized + memory cells
      if maxBytes < materialized then .error (.budgetExceeded maxBytes)
      else
        -- the target's contract, now that the columns are complete
        match schema.zipIdx.find? fun f => !f.1.nullable && cells.any fun r => r[f.2]? = some .null with
        | some f => .error (.invalidTarget ("NULL in non-null column " ++ f.1.name))
        | none =>
          match schema.indexOf target.packingKey with
          | none => .error .arrow
          | some i =>
            if cells.any fun r => r[i]? = some .null then
              .error (.invalidTarget "packing key contains NULL")
            else
              match schema.tryNew cells with
              | none => .error .arrow
              | some out => .ok (out, materialized)

/-- The loop over the batches; empty ones are skipped. -/
def adaptBatches : List RecordBatch → Nat → Nat →
    Except WriteError (List (Row cols.physicalSchema))
  | [], _, _ => .ok []
  | batch :: batches, used, materialized => do
    validateOutputSchema kernel batch.schema target
    let used := used + memory (batch.rows.map Subtype.val)
    if maxBytes < used then .error (.budgetExceeded maxBytes)
    else if batch.rows.isEmpty then adaptBatches batches used materialized
    else
      let (out, materialized) ←
        adaptBatch kernel eval memory target maxBytes cols batch.rows materialized
      let rest ← adaptBatches batches used materialized
      return out ++ rest

end Batches

/-! ## 4. Partitions -/

/-- `f64::is_finite`. -/
def isFinite (bits : UInt64) : Bool := (bits >>> 52) &&& 0x7FF != 0x7FF

/-- The JSON of a partition cell. -/
def partitionCell (name : String) : Value → Except WriteError Json
  | .null => .ok .null
  | .int64 n => .ok (.num (.int n.val))
  | .float64 bits =>
    if isFinite bits then .ok (.num (.float bits))
    else .error (.invalidTarget ("non-finite partition value in " ++ name))
  | .bool b => .ok (.bool b)
  | .utf8 text => .ok (.str text)

/-- A row's partition values. -/
def partitionValues {s : Schema} (partitions : List String) (r : Row s) : Except WriteError Json := do
  let values ← partitions.foldlM (fun values name =>
    match s.indexOf name with
    | none => .error .arrow
    | some i => (partitionCell name (r.cell i)).map fun v => Json.insertEntry name v values) []
  return .obj values

/-- `groups.entry(key).or_insert_with(..).1.push(row)`, in a map ordered by its keys. -/
def pushGroup {ρ : Type} (key : String) (value : Json) (r : ρ) :
    List (String × Json × List ρ) → List (String × Json × List ρ)
  | [] => [(key, value, [r])]
  | (k, v, rows) :: groups =>
    if key = k then (k, v, rows ++ [r]) :: groups
    else if key < k then (key, value, [r]) :: (k, v, rows) :: groups
    else (k, v, rows) :: pushGroup key value r groups

structure FlushItem where
  partitionValues : Json
  part : EncodedPart

/-- `u32::MAX`. -/
def maxRows : Nat := 2 ^ 32 - 1

/-- `batches_to_l0_items`. -/
def batchesToL0Items (kernel : CastKernel) (eval : Evaluator) (memory : List (List Value) → Nat)
    (render : Json → String) (L : Lexsort) (codec : PartCodec) (batches : List RecordBatch)
    (target : Hypertable) (maxBytes : Nat) : Except WriteError (List FlushItem) := do
  let cols ← (TableColumns.parse target.tableSchema).mapError .schema
  let partitions ← partitionColumns target
  let batch ← adaptBatches kernel eval memory target maxBytes cols batches 0 0
  if batch.isEmpty then return []
  else if maxRows < batch.length then
    .error (.invalidTarget "too many output rows for one write")
  else
    let groups ← batch.foldlM (fun groups r =>
      (partitionValues partitions r).map fun value => pushGroup (render value) value r groups) []
    groups.mapM fun group => do
      let sorted ← (sortBatch L group.2.2 target.sortKey).mapError .sortKey
      let part ← encodeBatch codec sorted target.packingKey defaultMaxRowGroupRows
      return ⟨group.2.1, part⟩

end Ukiel.Write
