/-
# Default and materialized columns

`ukiel-expr/src/lib.rs`: a batch gets its default and materialized columns, at ingest all of
them (`apply_defaults_and_materialized`) and at a rewrite those its file predates
(`apply_missing_defaults_and_materialized`).  The columns are computed one after the other in
the order of their specs, each over the batch as the specs before it have left it.

Compiling and evaluating an expression is DataFusion's business: `Evaluator` is any function
that gives a column for a batch, or fails.  It is shown the columns without their nullability,
which the planner may use but which is no part of an expression's value.
-/
import Mathlib.Data.List.Forall2
import Ukiel.Core.Batch

namespace Ukiel.Expr

/-! ## 1. The operations -/

inductive ExprError where
  | schema (e : SchemaError)
  | dataFusion
  | arrow
deriving DecidableEq, Repr

/-- `compile_for_field`, then `evaluate`: the column the expression gives for the field. -/
abbrev Evaluator := String → Schema → Field → List (List Value) → Option (List Value)

/-- The cells of a column, put into the rows. -/
def setColumn (i : Nat) (computed : List Value) (rows : List (List Value)) : List (List Value) :=
  rows.zipWith (fun r v => r.set i v) computed

/-- `is_null` and `zip`: the computed cell where the column has a NULL. -/
def fillColumn (i : Nat) (computed : List Value) (rows : List (List Value)) :
    List (List Value) :=
  rows.zipWith (fun r v => if r[i]? = some .null then r.set i v else r) computed

/-- One round of the loop of `apply_defaults_and_materialized`. -/
def fillSpec (eval : Evaluator) (s : Schema) (columns : List (List Value)) (spec : ColumnSpec) :
    Except ExprError (List (List Value)) :=
  let compute (sql : String) (set : Nat → List Value → List (List Value) → List (List Value)) :=
    match s.indexOf spec.name with
    | none => .error .arrow
    | some i =>
      -- the batch with the columns filled so far
      match s.tryNew columns, s[i]? with
      | some _, some field =>
        match eval sql s.withNullable field.withNullable columns with
        | none => .error .dataFusion
        | some computed =>
          if computed.length = columns.length then .ok (set i computed columns)
          else .error .arrow
      | _, _ => .error .arrow
  match spec.kind with
  | .materialized sql => compute sql setColumn
  | .default sql => compute sql fillColumn
  | .stored => .ok columns
  | .aliased _ => .ok columns

/-- `apply_defaults_and_materialized`. -/
def applyDefaultsAndMaterialized (eval : Evaluator) {s : Schema} (batch : List (Row s))
    (cols : TableColumns) : Except ExprError (List (Row s)) := do
  let columns ← cols.specs.foldlM (fillSpec eval s) (batch.map Subtype.val)
  match s.tryNew columns with
  | some out => .ok out
  | none => .error .arrow

/-- A batch with its defaults is what the loop left. -/
theorem applyDefaults_eq_ok {eval : Evaluator} {s : Schema} {cols : TableColumns}
    {batch out : List (Row s)}
    (h : applyDefaultsAndMaterialized eval batch cols = .ok out) :
    cols.specs.foldlM (fillSpec eval s) (batch.map Subtype.val) = .ok (out.map Subtype.val) := by
  obtain ⟨columns, hfold, h⟩ := Except.bind_eq_ok_iff.mp h
  split at h
  · rename_i filled hnew
    cases h
    rw [hfold, Schema.tryNew_eq_some.mp hnew]
  · cases h

/-- `apply_missing_defaults_and_materialized`: for the columns the file does not have. -/
def applyMissingDefaultsAndMaterialized (eval : Evaluator) {s : Schema} (batch : List (Row s))
    (cols : TableColumns) (fileSchema : Schema) : Except ExprError (List (Row s)) :=
  applyDefaultsAndMaterialized eval batch
    ⟨cols.specs.filter fun spec => (fileSchema.indexOf spec.name).isNone⟩

/-- `validate_table_schema`: a write-time expression compiles against the columns an insert
carries, an alias against everything stored. -/
def validateTableSchema (compiles : String → Schema → Field → Bool) (v : Json) :
    Except ExprError TableColumns :=
  match TableColumns.parse v with
  | .error e => .error (.schema e)
  | .ok cols =>
    let ok (spec : ColumnSpec) : Bool :=
      match cols.querySchema.find? fun f => f.name = spec.name, spec.kind with
      | _, .stored => true
      | some f, .default sql => compiles sql cols.inputSchema f
      | some f, .materialized sql => compiles sql cols.inputSchema f
      | some f, .aliased sql => compiles sql cols.physicalSchema f
      | none, _ => false
    if cols.specs.all ok then .ok cols else .error .dataFusion

end Ukiel.Expr
