/-
# A scan

`UkielTableProvider::scan` of `ukiel-query/src/provider.rs`: the parts the catalog has left are
made into a plan, a source of files under the filter of the namespace and a projection onto the
columns asked for.  A plan is data; `Yields` is what the engine may make of one.  The engine reads
the row groups a plan leaves it, in any order, and is free to leave out a row that its own filters
would drop; those filters are applied again above the plan (`Inexact`).

* `scan_answers`: the answer to a query is that of the whole table, read without the catalog's
  metadata and without projection, though the scan opens few of the files.
* `scan_ordered`: the order that a plan says its files are in is there.
* `scan_isolated`: no row of another key is ever returned, whatever the metadata says.
-/
import Ukiel.Query.Pruning
import Ukiel.Expr.Fill
import Ukiel.Lib.Skips

namespace Ukiel.Query
open Ukiel.Catalog Ukiel.Compactor Ukiel.Expr
open scoped List

/-! ## 1. The provider -/

/-- `Schema::project`. -/
def projectSchema (s : Schema) (p : List Nat) : Option Schema := p.mapM fun i => s[i]?

def projectCells (p : List Nat) (cells : List Value) : List Value :=
  p.map fun i => cells[i]?.getD .null

/-- `ukiel-expr`, for aliases: what `column_refs` finds, what `compile_for_field` accepts, and the
value of an expression on a row, which is cast to the type of its field. -/
structure Exprs where
  columnRefs : String → Schema → Option (List String)
  compiles : String → Schema → Field → Bool
  value : RowExpr
  typed : ∀ {sql s f cells v}, value sql s f cells = some v → f.withNullable.admits v = true

/-- `UkielTableProvider`. -/
structure TableProvider where
  hypertable : Hypertable
  columns : TableColumns
  /-- The isolation slice. -/
  slice : Option I64

/-- `try_new`. -/
def TableProvider.tryNew (ht : Hypertable) (slice : Option I64) :
    Except SchemaError TableProvider :=
  (TableColumns.parse ht.tableSchema).map fun columns => ⟨ht, columns, slice⟩

abbrev TableProvider.physicalSchema (t : TableProvider) : Schema := t.columns.physicalSchema

/-- `PartitionedFile`, with the access plan it may carry. -/
structure PartitionedFile where
  path : String
  sizeBytes : Int
  accessPlan : Option (List Bool)

inductive PhysicalExpr where
  /-- `col(name, schema)`, resolved. -/
  | column (index : Nat)
  | compiled (sql : String) (schema : Schema) (field : Field)

inductive ExecutionPlan where
  | dataSource (fileGroups : List (List PartitionedFile)) (projection : List Nat)
      (predicate : Option (Nat × I64)) (outputOrdering : List Nat)
  | filter (column : Nat) (key : I64) (input : ExecutionPlan)
  | projection (exprs : List (PhysicalExpr × String)) (input : ExecutionPlan)
  | globalLimit (fetch : Nat) (input : ExecutionPlan)

inductive ScanError where
  | ranges (e : Failure)
  | catalog (e : CatalogError)
  | expr
  | schema
deriving DecidableEq

/-- What the loop over the parts makes of one. -/
def fileFor (codec : KeyCodec) (slice : Option I64) (m : PartMeta) : Option PartitionedFile :=
  match slice with
  | none => some ⟨m.path, m.sizeBytes, none⟩
  | some key =>
    if partExcludesKey codec m key then none
    else
      match accessPlanFor m key with
      | some plan => if plan.any id then some ⟨m.path, m.sizeBytes, some plan⟩ else none
      | none => some ⟨m.path, m.sizeBytes, none⟩

/-- `col(name, schema)?` and `index_of(name)?`. -/
def col (s : Schema) (name : String) : Except ScanError Nat :=
  match s.indexOf name with
  | some i => .ok i
  | none => .error .schema

/-- The physical columns that one of the requested columns is made of. -/
def columnNeeds (x : Exprs) (t : TableProvider) (i : Nat) : Except ScanError (List String) :=
  match t.columns.specs[i]? with
  | none => .error .schema
  | some spec =>
    match spec.kind with
    | .aliased sql =>
      match x.columnRefs sql t.physicalSchema with
      | some refs => .ok refs
      | none => .error .expr
    | _ => .ok [spec.name]

/-- `needed`: the packing key when there is a slice, though it may be projected away. -/
def neededColumns (x : Exprs) (t : TableProvider) (indices : List Nat) :
    Except ScanError (List String) := do
  let requested ← indices.mapM (columnNeeds x t)
  return (match t.slice with
    | some _ => [t.hypertable.packingKey]
    | none => []) ++ requested.flatten

/-- The longest prefix of the sort key that the files have. -/
def orderingPrefix (s : Schema) : List String → List Nat
  | [] => []
  | name :: names =>
    match s.indexOf name with
    | some i => i :: orderingPrefix s names
    | none => []

/-- One expression of the final projection. -/
def outputExpr (x : Exprs) (t : TableProvider) (scanned : Schema) (i : Nat) :
    Except ScanError (PhysicalExpr × String) :=
  match t.columns.querySchema[i]?, t.columns.specs[i]? with
  | some field, some spec =>
    match spec.kind with
    | .aliased sql =>
      if x.compiles sql scanned field then .ok (.compiled sql scanned field, field.name)
      else .error .expr
    | _ => do return (.column (← col scanned field.name), field.name)
  | _, _ => .error .schema

/-- The requested columns; all of them when the engine names none. -/
def TableProvider.indices (t : TableProvider) (projection : Option (List Nat)) : List Nat :=
  projection.getD (List.range t.columns.querySchema.length)

/-- `scan_projection`: sorted, and each column once. -/
def scanProjection (x : Exprs) (t : TableProvider) (indices : List Nat) :
    Except ScanError (List Nat) := do
  let needed ← neededColumns x t indices
  let columns ← needed.mapM (col t.physicalSchema)
  return (columns.insertionSort (· ≤ ·)).dedup

/-- The source, and the mandatory filter of the namespace before a projection can drop the
column.  The files are sorted each for itself; an order is declared where there is a predicate. -/
def sourceFor (t : TableProvider) (files : List PartitionedFile) (projection : List Nat)
    (scanned : Schema) : Except ScanError ExecutionPlan :=
  -- one group for each file: files may overlap
  let groups := files.map fun file => [file]
  match t.slice with
  | some key => do
    let pushdown ← col t.physicalSchema t.hypertable.packingKey
    let column ← col scanned t.hypertable.packingKey
    return .filter column key (.dataSource groups projection (some (pushdown, key))
      (orderingPrefix t.physicalSchema t.hypertable.sortKey))
  | none => .ok (.dataSource groups projection none [])

/-- `GlobalLimitExec`, where there is a limit. -/
def ExecutionPlan.limited (plan : ExecutionPlan) : Option Nat → ExecutionPlan
  | some n => .globalLimit n plan
  | none => plan

/-- `scan`. -/
def scan (pg : BigintCast) (codec : KeyCodec) (x : Exprs) (T : Tables) (t : TableProvider)
    (projection : Option (List Nat)) (filters : List Expr) (limit : Option Nat) :
    Except ScanError ExecutionPlan := do
  let ranges ← (extractInt64Ranges filters t.physicalSchema).mapError .ranges
  let parts ← (livePartsPruned pg codec T t.hypertable.id t.slice ranges).mapError .catalog
  let files := parts.filterMap fun p => fileFor codec t.slice p.partMeta
  let columns ← scanProjection x t (t.indices projection)
  match projectSchema t.physicalSchema columns with
  | none => .error .schema
  | some scanned => do
    let filtered ← sourceFor t files columns scanned
    let exprs ← (t.indices projection).mapM (outputExpr x t scanned)
    return (ExecutionPlan.projection exprs filtered).limited limit

/-! ## 2. What the engine makes of a plan -/

section Yields

variable {s : Schema}

/-- The row groups an access plan leaves of a file; it must have a flag for each of them. -/
def selectGroups (groups : List (List (Row s))) : Option (List Bool) → Option (List (List (Row s)))
  | none => some groups
  | some plan =>
    if plan.length = groups.length then
      some (((plan.zip groups).filter Prod.fst).map Prod.snd)
    else none

/-- The predicate pushed into the source. -/
def pushedDown (predicate : Option (Nat × I64)) (r : Row s) : Bool :=
  predicate.all fun (i, key) => r.cell i = .int64 key

/-- **Reading a file**: rows of the row groups that are left, in their order, and among them all
that the pushed predicates hold of. -/
def FileYields (store : String → Option (List (List (Row s)))) (pushed : Row s → Bool)
    (file : PartitionedFile) (out : List (Row s)) : Prop :=
  ∃ groups selected, store file.path = some groups ∧
    selectGroups groups file.accessPlan = some selected ∧ selected.flatten.Keeps pushed out

def PhysicalExpr.eval (x : Exprs) (cells : List Value) : PhysicalExpr → Option Value
  | .column i => cells[i]?
  | .compiled sql schema field => x.value sql schema field cells

/-- **What a plan may yield.**  Beside the predicate of the plan the engine has pushed one of its
own into the source; files are read in any order. -/
inductive Yields (x : Exprs) (store : String → Option (List (List (Row s))))
    (pushed : Row s → Bool) : ExecutionPlan → List (List Value) → Prop where
  | dataSource {groups : List (List PartitionedFile)} {projection : List Nat}
      {predicate : Option (Nat × I64)} {ordering : List Nat} {outs : List (List (Row s))}
      {rows : List (Row s)}
      (read : List.Forall₂ (FileYields store fun r => pushedDown predicate r && pushed r)
        groups.flatten outs) (gather : rows ~ outs.flatten) :
      Yields x store pushed (.dataSource groups projection predicate ordering)
        (rows.map fun r => projectCells projection r.val)
  | filter {column : Nat} {key : I64} {input : ExecutionPlan} {rows : List (List Value)}
      (run : Yields x store pushed input rows) :
      Yields x store pushed (.filter column key input)
        (rows.filter fun r => r[column]? = some (.int64 key))
  | projection {exprs : List (PhysicalExpr × String)} {input : ExecutionPlan}
      {rows out : List (List Value)} (run : Yields x store pushed input rows)
      (eval : rows.mapM (fun r => exprs.mapM fun e => e.1.eval x r) = some out) :
      Yields x store pushed (.projection exprs input) out
  | globalLimit {fetch : Nat} {input : ExecutionPlan} {rows : List (List Value)}
      (run : Yields x store pushed input rows) :
      Yields x store pushed (.globalLimit fetch input) (rows.take fetch)

end Yields

/-! ## 3. The answer -/

section Answer

variable (x : Exprs) (t : TableProvider)

/-- A column of a stored row, as SQL sees it. -/
def queryCell (r : Row t.physicalSchema) (i : Nat) : Option Value :=
  match t.columns.querySchema[i]?, t.columns.specs[i]? with
  | some field, some spec =>
    match spec.kind with
    | .aliased sql => x.value sql t.physicalSchema field r.val
    | _ => (t.physicalSchema.indexOf field.name).map r.cell
  | _, _ => none

def queryRow (indices : List Nat) (r : Row t.physicalSchema) : Option (List Value) :=
  indices.mapM (queryCell x t r)

/-- The fields of the columns asked for. -/
def outputSchema (indices : List Nat) : Schema :=
  Schema.withNullable (indices.filterMap fun i => t.columns.querySchema[i]?)

variable {t} in
/-- The filters hold of an output row. -/
def filtersHold {indices : List Nat} (m : Meaning (outputSchema t indices)) (filters : List Expr)
    (cells : List Value) : Bool :=
  if h : (outputSchema t indices).fits cells = true then
    filters.all fun filter => filter.eval m ⟨cells, h⟩ = .bool true
  else false

/-- The row is one of the slice's. -/
def visible (r : Row t.physicalSchema) : Bool :=
  t.slice.all fun key => packingKeyOf t.hypertable.packingKey r = some key

/-- **The answer to a query** over the rows of a table. -/
def answer {indices : List Nat} (m : Meaning (outputSchema t indices)) (filters : List Expr)
    (rows : List (Row t.physicalSchema)) : Option (List (List Value)) :=
  ((rows.filter (visible t)).mapM (queryRow x t indices)).map (·.filter (filtersHold m filters))

end Answer

/-! ## 4. Columns by name -/

/-- **An expression reads the columns it refers to**, and no others. -/
def ReadsRefs (x : Exprs) : Prop :=
  ∀ sql s names p scanned f cells, (s.map Field.name).Nodup → x.columnRefs sql s = some names →
    projectSchema s p = some scanned → p.Nodup → (∀ n ∈ names, ∃ i ∈ p, s.indexOf n = some i) →
    x.value sql scanned f (projectCells p cells) = x.value sql s f cells

section Columns

variable {s scanned : Schema} {p : List Nat}

theorem col_eq_ok {name : String} {i : Nat} : col s name = .ok i ↔ s.indexOf name = some i := by
  unfold col
  split <;> simp_all

/-- A column of the projected schema, and the one it was. -/
theorem indexOf_projected (hproject : projectSchema s p = some scanned)
    (hnames : (s.map Field.name).Nodup) {name : String} {j : Nat}
    (h : scanned.indexOf name = some j) :
    ∃ i, s.indexOf name = some i ∧ ∀ cells : List Value,
      (projectCells p cells)[j]? = some (cells[i]?.getD .null) := by
  obtain ⟨f, hf, rfl, -⟩ := Schema.indexOf_eq_some.mp h
  have hall := List.mapM_eq_some_iff.mp hproject
  obtain ⟨hj, hget⟩ := List.getElem?_eq_some_iff.mp hf
  have hlt : j < p.length := hall.length_eq ▸ hj
  have hi := hall.get hlt hj
  simp only [List.get_eq_getElem, hget] at hi
  exact ⟨p[j], Schema.indexOf_of_nodup hnames hi, fun cells => by simp [projectCells, hlt]⟩

end Columns

section Provider

variable {x : Exprs} {t : TableProvider} {indices p : List Nat} {scanned : Schema}

/-- **What is scanned**: each column once, and all that the requested columns are made of. -/
theorem scanProjection_eq_ok (h : scanProjection x t indices = .ok p) :
    p.Nodup ∧ ∀ i ∈ indices, ∃ names, columnNeeds x t i = .ok names ∧
      ∀ n ∈ names, ∃ j ∈ p, t.physicalSchema.indexOf n = some j := by
  obtain ⟨needed, hneeded, h⟩ := Except.bind_eq_ok_iff.mp h
  obtain ⟨columns, hcolumns, h⟩ := Except.bind_eq_ok_iff.mp h
  obtain ⟨requested, hrequested, hall⟩ := Except.bind_eq_ok_iff.mp hneeded
  cases h
  cases hall
  refine ⟨List.nodup_dedup _, fun i hi => ?_⟩
  obtain ⟨names, hnames, hneeds⟩ := (List.mapM_eq_ok_iff.mp hrequested).exists_of_mem hi
  refine ⟨names, hneeds, fun n hn => ?_⟩
  obtain ⟨j, hj, hcol⟩ := (List.mapM_eq_ok_iff.mp hcolumns).exists_of_mem
    (List.mem_append_right _ (List.mem_flatten.mpr ⟨names, hnames, hn⟩))
  refine ⟨j, ?_, col_eq_ok.mp hcol⟩
  rw [List.mem_dedup]
  exact (List.perm_insertionSort _ _).mem_iff.mpr hj

/-- **A column of the output** has its value, though the projection sees the scanned columns
only. -/
theorem eval_outputExpr (hreads : ReadsRefs x)
    (hnames : (t.columns.specs.map ColumnSpec.name).Nodup) (hp : scanProjection x t indices = .ok p)
    (hproject : projectSchema t.physicalSchema p = some scanned) {i : Nat} (hi : i ∈ indices)
    {e : PhysicalExpr × String} (he : outputExpr x t scanned i = .ok e)
    (r : Row t.physicalSchema) : e.1.eval x (projectCells p r.val) = queryCell x t r i := by
  obtain ⟨hnodup, hneeds⟩ := scanProjection_eq_ok hp
  obtain ⟨names, hneed, hall⟩ := hneeds i hi
  have hphysical := TableColumns.physicalSchema_nodup hnames
  unfold outputExpr at he
  unfold columnNeeds at hneed
  unfold queryCell
  cases hfield : t.columns.querySchema[i]? with
  | none => simp [hfield] at he
  | some field =>
    cases hspec : t.columns.specs[i]? with
    | none => simp [hspec] at hneed
    | some spec =>
      simp only [hfield, hspec] at he hneed ⊢
      -- a stored column is looked up by its name
      have hstored : (do return (PhysicalExpr.column (← col scanned field.name), field.name)) =
          Except.ok e → e.1.eval x (projectCells p r.val) =
            (t.physicalSchema.indexOf field.name).map r.cell := by
        intro he
        obtain ⟨j, hj, he⟩ := Except.bind_eq_ok_iff.mp he
        cases he
        obtain ⟨k, hk, hcells⟩ := indexOf_projected hproject hphysical (col_eq_ok.mp hj)
        rw [hk, PhysicalExpr.eval, hcells]
        rfl
      cases hkind : spec.kind with
      | aliased sql =>
        simp only [hkind] at he hneed ⊢
        split at he
        · cases he
          cases hrefs : x.columnRefs sql t.physicalSchema with
          | none => simp [hrefs] at hneed
          | some refs =>
            simp only [hrefs, Except.ok.injEq] at hneed
            subst hneed
            exact hreads _ _ _ _ _ _ _ hphysical hrefs hproject hnodup hall
        · cases he
      | stored => simp only [hkind] at he; exact hstored he
      | default sql => simp only [hkind] at he; exact hstored he
      | materialized sql => simp only [hkind] at he; exact hstored he

end Provider

/-! ## 5. What the filters say of a stored row -/

section Filters

variable {s : Schema} {x : Exprs} {t : TableProvider} {indices : List Nat}

/-- The comparison that a filter is, if it is one, holds of the row. -/
def Compares (r : Row s) (filter : Expr) : Prop :=
  ∀ name op value cmp, comparison? filter = some (name, op, value) → isInt64 s name = true →
    op.compare = some cmp → ∃ v, columnValue r name = .int64 v ∧ cmp v value = true

/-- **One filter**: what it adds to the bounds, the row is inside of. -/
theorem applyFilter_inside_of_compares {r : Row s} {filter : Expr} {bounds bounds' : Bounds}
    (h : AllInside r bounds) (hcompares : Compares r filter)
    (happly : applyFilter s bounds filter = .ok bounds') : AllInside r bounds' := by
  unfold applyFilter at happly
  split at happly
  · rename_i name op value hcomparison
    unfold apply at happly
    split at happly
    · rename_i hint
      obtain ⟨entry, hop, hentry⟩ := Except.bind_eq_ok_iff.mp happly
      cases hentry
      have hold : Inside (columnValue r name) ((bounds.lookup name).getD (none, none)) := by
        cases hlook : bounds.lookup name with
        | none => exact ⟨fun _ h => (nomatch h), fun _ h => (nomatch h)⟩
        | some entry => exact h name entry hlook
      have hnew : Inside (columnValue r name) entry := by
        cases hcmp : op.compare with
        | none =>
          rw [applyOp_of_not_compare hcmp] at hop
          cases hop
          exact hold
        | some cmp =>
          obtain ⟨v, hv, hcv⟩ := hcompares name op value cmp hcomparison hint hcmp
          rw [hv] at hold ⊢
          exact applyOp_inside hold (fun cmp' h' => Option.some.inj (hcmp.symm.trans h') ▸ hcv) hop
      intro n e hn
      by_cases heq : n = name
      · subst heq
        rw [AList.lookup_insert] at hn
        cases hn
        exact hnew
      · rw [AList.lookup_insert_ne heq] at hn
        exact h n e hn
    · cases happly
      exact h
  · cases happly
    exact h

/-- **All filters**: a row of which the comparisons hold is inside all ranges. -/
theorem inside_of_compares {r : Row s} {filters : List Expr} {ranges : List ColumnRange}
    (hcompares : ∀ filter ∈ filters, Compares r filter)
    (hranges : extractInt64Ranges filters s = .ok ranges) :
    ∀ range ∈ ranges, Inside (columnValue r range.column) (range.min, range.max) := by
  obtain ⟨bounds, hfold, h⟩ := Except.bind_eq_ok_iff.mp hranges
  cases h
  have hall : AllInside r bounds :=
    @List.foldlM_ok_induction _ _ _ _ (fun _ b => AllInside r b) _ _ _ hfold
      (fun _ _ h => nomatch h) fun _ filter hfilter _ _ hinside happly =>
        applyFilter_inside_of_compares hinside (hcompares filter hfilter) happly
  intro range hrange
  obtain ⟨e, he, rfl⟩ := List.mem_map.mp hrange
  exact hall e.1 e.2 (AList.mem_lookup_iff.mpr he)

/-- The cells of an output row, one for each column asked for. -/
theorem queryRow_eq_some {r : Row t.physicalSchema} {cells : List Value} :
    queryRow x t indices r = some cells ↔
      List.Forall₂ (fun i v => queryCell x t r i = some v) indices cells :=
  List.mapM_eq_some_iff

theorem outputSchema_forall₂ {r : Row t.physicalSchema} {cells : List Value}
    (h : queryRow x t indices r = some cells) :
    List.Forall₂ (fun f v => ∃ i field, t.columns.querySchema[i]? = some field ∧
      f = field.withNullable ∧ queryCell x t r i = some v) (outputSchema t indices) cells := by
  rw [queryRow_eq_some] at h
  unfold outputSchema Schema.withNullable
  induction h with
  | nil => exact .nil
  | @cons i v _ _ hcell _ ih =>
    cases hfield : t.columns.querySchema[i]? with
    | none => simp [queryCell, hfield] at hcell
    | some field =>
      rw [List.filterMap_cons_some hfield, List.map_cons]
      exact .cons ⟨i, field, hfield, rfl, hcell⟩ ih

/-- A column of the query schema is the field of its spec. -/
theorem querySchema_getElem? {cols : TableColumns} {i : Nat} :
    cols.querySchema[i]? = cols.specs[i]?.map ColumnSpec.field := by
  simp [TableColumns.querySchema, TableColumns.schemaWhere]

/-- The specs of the physical columns. -/
theorem spec_of_physical {k : Nat} {f : Field} (h : t.physicalSchema[k]? = some f) :
    ∃ spec ∈ t.columns.specs, f = spec.field ∧ ∀ sql, spec.kind ≠ .aliased sql := by
  obtain ⟨spec, hspec, rfl⟩ := List.mem_map.mp (List.mem_of_getElem? h)
  obtain ⟨hmem, hkept⟩ := List.mem_filter.mp hspec
  exact ⟨spec, hmem, rfl, fun sql hkind => by simp [hkind] at hkept⟩

/-- **A cell of the output** is that of an alias, or the one that is stored under its name. -/
theorem queryCell_eq_some (hnames : (t.columns.specs.map ColumnSpec.name).Nodup) {i : Nat}
    {spec : ColumnSpec} (hspec : t.columns.specs[i]? = some spec) {r : Row t.physicalSchema}
    {v : Value} (h : queryCell x t r i = some v) :
    (∃ sql, spec.kind = .aliased sql ∧
      x.value sql t.physicalSchema spec.field r.val = some v) ∨
    ∃ k, t.physicalSchema.indexOf spec.name = some k ∧
      t.physicalSchema[k]? = some spec.field ∧ v = r.cell k := by
  have hstored : (t.physicalSchema.indexOf spec.field.name).map r.cell = some v →
      ∃ k, t.physicalSchema.indexOf spec.name = some k ∧
        t.physicalSchema[k]? = some spec.field ∧ v = r.cell k := by
    intro h
    obtain ⟨k, hk, rfl⟩ := Option.map_eq_some_iff.mp h
    obtain ⟨f, hf, hname, -⟩ := Schema.indexOf_eq_some.mp hk
    obtain ⟨spec', hmem, rfl, -⟩ := spec_of_physical hf
    obtain rfl : spec' = spec :=
      List.inj_on_of_nodup_map hnames hmem (List.mem_of_getElem? hspec) hname
    exact ⟨k, hk, hf, rfl⟩
  unfold queryCell at h
  rw [querySchema_getElem?, hspec] at h
  cases hkind : spec.kind with
  | aliased sql => exact .inl ⟨sql, rfl, by simpa [hkind] using h⟩
  | stored => exact .inr (hstored (by simpa [hkind] using h))
  | default sql => exact .inr (hstored (by simpa [hkind] using h))
  | materialized sql => exact .inr (hstored (by simpa [hkind] using h))

/-- A column of the output, its spec and its cell. -/
theorem output_getElem? {r : Row t.physicalSchema} {cells : List Value}
    (h : queryRow x t indices r = some cells) {j : Nat} {f : Field}
    (hf : (outputSchema t indices)[j]? = some f) :
    ∃ i spec v, t.columns.specs[i]? = some spec ∧ f = spec.field.withNullable ∧
      cells[j]? = some v ∧ queryCell x t r i = some v := by
  have hall := outputSchema_forall₂ h
  obtain ⟨hlt, hget⟩ := List.getElem?_eq_some_iff.mp hf
  have hlt' : j < cells.length := hall.length_eq ▸ hlt
  obtain ⟨i, field, hfield, hnull, hquery⟩ := hall.get hlt hlt'
  rw [querySchema_getElem?] at hfield
  obtain ⟨spec, hspec, rfl⟩ := Option.map_eq_some_iff.mp hfield
  exact ⟨i, spec, cells[j], hspec, hget ▸ hnull, List.getElem?_eq_getElem hlt', hquery⟩

/-- **A stored column of the output** has the value it is stored with. -/
theorem columnValue_output (hnames : (t.columns.specs.map ColumnSpec.name).Nodup)
    {r : Row t.physicalSchema} {cells : List Value} (h : queryRow x t indices r = some cells)
    (hfits : (outputSchema t indices).fits cells = true) {name : String}
    (hint : isInt64 t.physicalSchema name = true) {j : Nat}
    (hj : (outputSchema t indices).indexOf name = some j) :
    isInt64 (outputSchema t indices) name = true ∧
      columnValue (⟨cells, hfits⟩ : Row (outputSchema t indices)) name = columnValue r name := by
  obtain ⟨f, hf, hname, -⟩ := Schema.indexOf_eq_some.mp hj
  obtain ⟨i, spec, v, hspec, rfl, hv, hquery⟩ := output_getElem? h hf
  replace hname : spec.name = name := hname
  unfold isInt64 at hint
  cases hk : t.physicalSchema.indexOf name with
  | none => simp [hk] at hint
  | some k =>
    simp only [hk, decide_eq_true_eq] at hint
    obtain ⟨g, hg, hname', -⟩ := Schema.indexOf_eq_some.mp hk
    obtain ⟨spec', hmem, rfl, hkind'⟩ := spec_of_physical hg
    obtain rfl : spec' = spec := List.inj_on_of_nodup_map hnames hmem (List.mem_of_getElem? hspec)
      (hname'.trans hname.symm)
    rcases queryCell_eq_some hnames hspec hquery with ⟨sql, hkind, -⟩ | ⟨k', hk', -, rfl⟩
    · exact absurd hkind (hkind' sql)
    · rw [hname, hk, Option.some.injEq] at hk'
      subst hk'
      refine ⟨?_, ?_⟩
      · simpa [isInt64, hj, hf, hg, Field.withNullable] using hint
      · simp [columnValue, hj, hk, Row.cell, hv]

/-- A comparison with a column that is not there is NULL. -/
theorem eval_absent {s : Schema} {m : Meaning s} {row : Row s} {filter : Expr} {name : String}
    {op : Operator} {value : I64} {cmp : I64 → I64 → Bool}
    (hfilter : comparison? filter = some (name, op, value)) (habsent : s.indexOf name = none)
    (hcmp : op.compare = some cmp) : filter.eval m row = .null := by
  unfold comparison? at hfilter
  split at hfilter
  · cases hfilter
    simp [Expr.eval, columnValue, habsent, Meaning.binary, hcmp]
  · cases hfilter
    obtain ⟨cmp', hcmp', -⟩ := Operator.mirrored_compare hcmp
    simp [Expr.eval, columnValue, habsent, Meaning.binary, hcmp']
  · cases hfilter

/-- **Filters that hold of an output row** hold, where they are comparisons, of the stored row. -/
theorem compares_of_filtersHold (hnames : (t.columns.specs.map ColumnSpec.name).Nodup)
    {m : Meaning (outputSchema t indices)} {filters : List Expr} {r : Row t.physicalSchema}
    {cells : List Value} (h : queryRow x t indices r = some cells)
    (hholds : filtersHold m filters cells = true) : ∀ filter ∈ filters, Compares r filter := by
  unfold filtersHold at hholds
  split at hholds
  · rename_i hfits
    intro filter hfilter name op value cmp hcomparison hint hcmp
    have heval : filter.eval m ⟨cells, hfits⟩ = .bool true := by
      simpa using List.all_eq_true.mp hholds filter hfilter
    cases hj : (outputSchema t indices).indexOf name with
    | none =>
      rw [eval_absent hcomparison hj hcmp] at heval
      cases heval
    | some j =>
      obtain ⟨hint', hvalue⟩ := columnValue_output hnames h hfits hint hj
      rw [← hvalue]
      exact comparison_holds hcomparison hint' heval hcmp
  · cases hholds

/-- An output row fits the columns asked for. -/
theorem fits_of_queryRow (hnames : (t.columns.specs.map ColumnSpec.name).Nodup)
    {r : Row t.physicalSchema} {cells : List Value} (h : queryRow x t indices r = some cells) :
    (outputSchema t indices).fits cells = true := by
  refine Schema.fits_iff.mpr ⟨(outputSchema_forall₂ h).length_eq.symm, fun j f v hf hv => ?_⟩
  obtain ⟨i, spec, v', hspec, rfl, hv', hquery⟩ := output_getElem? h hf
  obtain rfl : v' = v := Option.some.inj (hv'.symm.trans hv)
  rcases queryCell_eq_some hnames hspec hquery with ⟨sql, -, hvalue⟩ | ⟨k, -, hk, rfl⟩
  · exact x.typed hvalue
  · exact @Field.admits_mono spec.field.withNullable spec.field rfl (fun _ => rfl) _ (r.admits hk)

end Filters

/-! ## 6. The rows of the source -/

section Source

variable {x : Exprs} {t : TableProvider} {p : List Nat} {scanned : Schema}
  {store : String → Option (List (List (Row t.physicalSchema)))}
  {pushed : Row t.physicalSchema → Bool}

/-- The key of the slice is in the cell of the packing key. -/
theorem visible_eq {i : Nat} {key : I64} (hslice : t.slice = some key)
    (hi : t.physicalSchema.indexOf t.hypertable.packingKey = some i) (r : Row t.physicalSchema) :
    visible t r = decide (r.cell i = .int64 key) := by
  have hkey : packingKeyOf t.hypertable.packingKey r = some key ↔ r.cell i = .int64 key := by
    rw [packingKeyOf, hi, Option.bind_some]
    cases r.cell i <;> simp [Value.asInt64?]
  simp [visible, hslice, hkey]

/-- **The filtered source** yields the rows of the slice that the files give, with the columns
that are scanned. -/
theorem yields_sourceFor (hnames : (t.columns.specs.map ColumnSpec.name).Nodup)
    (hproject : projectSchema t.physicalSchema p = some scanned) {files : List PartitionedFile}
    {plan : ExecutionPlan} (h : sourceFor t files p scanned = .ok plan) {rows : List (List Value)} :
    Yields x store pushed plan rows ↔ ∃ outs R,
      List.Forall₂ (FileYields store fun r => visible t r && pushed r) files outs ∧
        R ~ outs.flatten ∧ rows = (R.filter (visible t)).map fun r => projectCells p r.val := by
  have hgroups : (files.map fun file => [file]).flatten = files := by
    rw [← List.flatMap_def, List.flatMap_singleton']
  unfold sourceFor at h
  cases hslice : t.slice with
  | none =>
    simp only [hslice, Except.ok.injEq] at h
    subst h
    have hall : ∀ r : Row t.physicalSchema, visible t r = true := fun r => by simp [visible, hslice]
    have hfilter : ∀ R : List (Row t.physicalSchema), R.filter (visible t) = R := fun R =>
      List.filter_eq_self.mpr fun r _ => hall r
    have hpred : (fun r : Row t.physicalSchema => pushedDown none r && pushed r) =
        fun r => visible t r && pushed r := funext fun r => by simp [pushedDown, hall r]
    constructor
    · rintro ⟨hread, hgather⟩
      rw [hgroups, hpred] at hread
      exact ⟨_, _, hread, hgather, by rw [hfilter]⟩
    · rintro ⟨outs, R, hread, hgather, rfl⟩
      rw [hfilter]
      rw [← hgroups, ← hpred] at hread
      exact .dataSource hread hgather
  | some key =>
    simp only [hslice] at h
    obtain ⟨i, hi, h⟩ := Except.bind_eq_ok_iff.mp h
    obtain ⟨j, hj, h⟩ := Except.bind_eq_ok_iff.mp h
    cases h
    rw [col_eq_ok] at hi hj
    obtain ⟨i', hi', hcells⟩ :=
      indexOf_projected hproject (TableColumns.physicalSchema_nodup hnames) hj
    obtain rfl : i = i' := Option.some.inj (hi.symm.trans hi')
    have hfilter : ∀ R : List (Row t.physicalSchema),
        (R.map fun r => projectCells p r.val).filter (fun r => r[j]? = some (.int64 key)) =
          (R.filter (visible t)).map fun r => projectCells p r.val := by
      intro R
      rw [List.filter_map]
      refine congrArg _ (List.filter_congr fun r _ => ?_)
      rw [visible_eq hslice hi]
      exact decide_eq_decide.mpr (by rw [hcells, Option.some.injEq]; rfl)
    have hpred : (fun r : Row t.physicalSchema => pushedDown (some (i, key)) r && pushed r) =
        fun r => visible t r && pushed r := funext fun r => by
      rw [visible_eq hslice hi]
      rfl
    constructor
    · intro hyields
      cases hyields with
      | filter run =>
        cases run with
        | dataSource hread hgather =>
          rw [hgroups, hpred] at hread
          exact ⟨_, _, hread, hgather, hfilter _⟩
    · rintro ⟨outs, R, hread, hgather, rfl⟩
      rw [← hfilter]
      rw [← hgroups, ← hpred] at hread
      exact .filter (.dataSource hread hgather)

end Source

/-! ## 7. The plan -/

section Plan

variable {pg : BigintCast} {codec : KeyCodec} {x : Exprs} {T : Tables} {t : TableProvider}
  {projection : Option (List Nat)} {filters : List Expr} {limit : Option Nat}
  {plan : ExecutionPlan} {store : String → Option (List (List (Row t.physicalSchema)))}
  {pushed : Row t.physicalSchema → Bool}

/-- The files that are opened, of the parts the catalog has left. -/
def openedFiles (codec : KeyCodec) (t : TableProvider) (kept : List PartRow) :
    List PartitionedFile :=
  kept.filterMap fun p => fileFor codec t.slice p.partMeta

/-- The output of a limit. -/
def limited {α : Type} (rows : List α) : Option Nat → List α
  | some n => rows.take n
  | none => rows

/-- Whether there is a source is not a matter of its files. -/
theorem sourceFor_congr {p : List Nat} {scanned : Schema} {files : List PartitionedFile}
    (files' : List PartitionedFile) (h : sourceFor t files p scanned = .ok plan) :
    ∃ plan', sourceFor t files' p scanned = .ok plan' := by
  unfold sourceFor at h ⊢
  split at h
  · obtain ⟨pushdown, hpushdown, h⟩ := Except.bind_eq_ok_iff.mp h
    obtain ⟨column, hcolumn, -⟩ := Except.bind_eq_ok_iff.mp h
    simp [hpushdown, hcolumn, bind, Except.bind, pure, Except.pure]
  · exact ⟨_, rfl⟩

/-- **A scan over other tables, under other filters**, can be planned as well as this one, if it
can be pruned. -/
theorem scan_congr {T' : Tables} {filters' : List Expr} {ranges : List ColumnRange}
    {parts : List PartRow} (hplan : scan pg codec x T t projection filters limit = .ok plan)
    (hranges : extractInt64Ranges filters' t.physicalSchema = .ok ranges)
    (hparts : livePartsPruned pg codec T' t.hypertable.id t.slice ranges = .ok parts) :
    ∃ plan', scan pg codec x T' t projection filters' limit = .ok plan' := by
  obtain ⟨_, -, hplan⟩ := Except.bind_eq_ok_iff.mp hplan
  obtain ⟨_, -, hplan⟩ := Except.bind_eq_ok_iff.mp hplan
  obtain ⟨columns, hcolumns, hplan⟩ := Except.bind_eq_ok_iff.mp hplan
  unfold scan
  simp only [hranges, hparts, hcolumns, Except.mapError, bind, Except.bind]
  split at hplan
  · cases hplan
  · rename_i scanned hscanned
    obtain ⟨filtered, hfiltered, hplan⟩ := Except.bind_eq_ok_iff.mp hplan
    obtain ⟨exprs, hexprs, -⟩ := Except.bind_eq_ok_iff.mp hplan
    obtain ⟨filtered', hfiltered'⟩ :=
      sourceFor_congr (parts.filterMap fun p => fileFor codec t.slice p.partMeta) hfiltered
    simp only [hfiltered', hexprs]
    exact ⟨_, rfl⟩

/-- **What a scan yields**: the rows of the slice that its files give, as the columns asked for. -/
theorem yields_scan (hnames : (t.columns.specs.map ColumnSpec.name).Nodup) (hreads : ReadsRefs x)
    (hplan : scan pg codec x T t projection filters limit = .ok plan) :
    ∃ ranges kept, extractInt64Ranges filters t.physicalSchema = .ok ranges ∧
      livePartsPruned pg codec T t.hypertable.id t.slice ranges = .ok kept ∧
      ∀ out, Yields x store pushed plan out ↔ ∃ outs R all,
        List.Forall₂ (FileYields store fun r => visible t r && pushed r) (openedFiles codec t kept)
          outs ∧ R ~ outs.flatten ∧
        (R.filter (visible t)).mapM (queryRow x t (t.indices projection)) = some all ∧
        out = limited all limit := by
  obtain ⟨ranges, hranges, hplan⟩ := Except.bind_eq_ok_iff.mp hplan
  obtain ⟨kept, hkept, hplan⟩ := Except.bind_eq_ok_iff.mp hplan
  obtain ⟨p, hp, hplan⟩ := Except.bind_eq_ok_iff.mp hplan
  refine ⟨ranges, kept, Except.mapError_eq_ok_iff.mp hranges,
    Except.mapError_eq_ok_iff.mp hkept, ?_⟩
  split at hplan
  · cases hplan
  rename_i scanned hproject
  obtain ⟨filtered, hfiltered, hplan⟩ := Except.bind_eq_ok_iff.mp hplan
  obtain ⟨exprs, hexprs, hplan⟩ := Except.bind_eq_ok_iff.mp hplan
  cases hplan
  have hsource := @yields_sourceFor x t p scanned store pushed hnames hproject _ _ hfiltered
  -- the expressions on a scanned row are the columns of the stored one
  have heval : ∀ r : Row t.physicalSchema, (exprs.mapM fun e => e.1.eval x (projectCells p r.val)) =
      queryRow x t (t.indices projection) r := by
    intro r
    have hall : ∀ {indices : List Nat} {es : List (PhysicalExpr × String)},
        List.Forall₂ (fun i e => outputExpr x t scanned i = .ok e) indices es →
        (∀ i ∈ indices, i ∈ t.indices projection) →
        (es.mapM fun e => e.1.eval x (projectCells p r.val)) = indices.mapM (queryCell x t r) := by
      intro indices es h
      induction h with
      | nil => exact fun _ => rfl
      | cons he _ ih =>
        intro hsub
        obtain ⟨hi, hrest⟩ := List.forall_mem_cons.mp hsub
        rw [List.mapM_cons, List.mapM_cons, ih hrest,
          eval_outputExpr hreads hnames hp hproject hi he r]
    exact hall (List.mapM_eq_ok_iff.mp hexprs) fun i hi => hi
  have hrows : ∀ R : List (Row t.physicalSchema),
      ((R.map fun r => projectCells p r.val).mapM fun c => exprs.mapM fun e => e.1.eval x c) =
        R.mapM (queryRow x t (t.indices projection)) := by
    intro R
    rw [List.mapM_map]
    exact congrArg (fun f => R.mapM f) (funext heval)
  have hprojection : ∀ all, Yields x store pushed (.projection exprs filtered) all ↔ ∃ outs R,
      List.Forall₂ (FileYields store fun r => visible t r && pushed r) (openedFiles codec t kept)
        outs ∧ R ~ outs.flatten ∧
      (R.filter (visible t)).mapM (queryRow x t (t.indices projection)) = some all := by
    intro all
    constructor
    · intro hyields
      cases hyields with
      | projection run hall =>
        obtain ⟨outs, R, hread, hgather, rfl⟩ := hsource.mp run
        exact ⟨outs, R, hread, hgather, (hrows _).symm.trans hall⟩
    · rintro ⟨outs, R, hread, hgather, hall⟩
      exact .projection (hsource.mpr ⟨outs, R, hread, hgather, rfl⟩) ((hrows _).trans hall)
  intro out
  cases limit with
  | none =>
    rw [ExecutionPlan.limited, hprojection]
    constructor
    · rintro ⟨outs, R, hread, hgather, hall⟩
      exact ⟨outs, R, out, hread, hgather, hall, rfl⟩
    · rintro ⟨outs, R, all, hread, hgather, hall, rfl⟩
      exact ⟨outs, R, hread, hgather, hall⟩
  | some n =>
    rw [ExecutionPlan.limited]
    constructor
    · intro hyields
      cases hyields with
      | globalLimit run =>
        obtain ⟨outs, R, hread, hgather, hall⟩ := (hprojection _).mp run
        exact ⟨outs, R, _, hread, hgather, hall, rfl⟩
    · rintro ⟨outs, R, all, hread, hgather, hall, rfl⟩
      exact .globalLimit ((hprojection _).mpr ⟨outs, R, hread, hgather, hall⟩)

/-! ## 8. What is not read -/

section Parts

variable {m : PartMeta} {groups : List (List (Row t.physicalSchema))}

theorem packingKeyOf_of_visible {key : I64} (hslice : t.slice = some key)
    {r : Row t.physicalSchema} (h : visible t r = true) :
    packingKeyOf t.hypertable.packingKey r = some key := by
  simpa [visible, hslice] using h

/-- The row groups under the flags of a plan have all rows of the slice. -/
theorem keeps_accessPlan (h : KeyIndexSound codec t.hypertable.packingKey m.columnStats groups)
    {key : I64} (hslice : t.slice = some key) {flags : List Bool}
    (hplan : accessPlanFor m key = some flags) : flags.length = groups.length ∧
      groups.flatten.Keeps (visible t)
        (((flags.zip groups).filter Prod.fst).map Prod.snd).flatten := by
  have hall := accessPlanFor_keeps h hplan
  refine ⟨hall.length_eq, List.keeps_flags (hall.imp ?_)⟩
  rintro flag group hflag ⟨r, hr, hv⟩
  exact hflag ⟨r, hr, packingKeyOf_of_visible hslice hv⟩

/-- **A file that is not opened** has no row of the slice. -/
theorem not_visible_of_fileFor
    (h : KeyIndexSound codec t.hypertable.packingKey m.columnStats groups)
    (hnone : fileFor codec t.slice m = none) : ∀ r ∈ groups.flatten, visible t r = false := by
  intro r hr
  by_contra hv
  rw [Bool.not_eq_false] at hv
  unfold fileFor at hnone
  cases hslice : t.slice with
  | none => simp [hslice] at hnone
  | some key =>
    have hkey := packingKeyOf_of_visible hslice hv
    simp only [hslice, not_partExcludesKey h hr hkey] at hnone
    cases hplan : accessPlanFor m key with
    | none => simp [hplan] at hnone
    | some flags =>
      -- some row group has the row, and its flag is up
      obtain ⟨group, hgroup, hr⟩ := List.mem_flatten.mp hr
      obtain ⟨flag, hflag, hup⟩ := (accessPlanFor_keeps h hplan).flip.exists_of_mem hgroup
      obtain rfl := hup ⟨r, hr, hkey⟩
      simp [hplan, hflag] at hnone

/-- **A file that is opened** is the part's, and the row groups left of it have all rows of the
slice. -/
theorem keeps_of_fileFor (h : KeyIndexSound codec t.hypertable.packingKey m.columnStats groups)
    {file : PartitionedFile} (hfile : fileFor codec t.slice m = some file) :
    file.path = m.path ∧ ∃ selected, selectGroups groups file.accessPlan = some selected ∧
      groups.flatten.Keeps (visible t) selected.flatten := by
  unfold fileFor at hfile
  split at hfile
  · cases hfile
    exact ⟨rfl, groups, rfl, .refl _ _⟩
  · rename_i key hslice
    split at hfile
    · cases hfile
    · split at hfile
      · rename_i flags hplan
        obtain ⟨hlength, hkeeps⟩ := keeps_accessPlan h hslice hplan
        split at hfile
        · cases hfile
          exact ⟨rfl, _, if_pos hlength, hkeeps⟩
        · cases hfile
      · cases hfile
        exact ⟨rfl, groups, rfl, .refl _ _⟩

end Parts

theorem path_of_fileFor {slice : Option I64} {m : PartMeta} {file : PartitionedFile}
    (h : fileFor codec slice m = some file) : file.path = m.path := by
  unfold fileFor at h
  split at h
  · cases h
    rfl
  · split at h
    · cases h
    · split at h
      · split at h
        · cases h
          rfl
        · cases h
      · cases h
        rfl

theorem sublist_of_selectGroups {s : Schema} {groups selected : List (List (Row s))}
    {accessPlan : Option (List Bool)} (h : selectGroups groups accessPlan = some selected) :
    selected <+ groups := by
  unfold selectGroups at h
  split at h
  · cases h
    exact .refl _
  · split at h
    · rename_i flags hlength
      cases h
      refine (List.filter_sublist.map Prod.snd).trans ?_
      rw [List.map_snd_zip (Nat.le_of_eq hlength.symm)]
    · cases h

/-- **A row that was read** is in the file of a live part of the hypertable, whatever the metadata
says. -/
theorem live_of_read {parts : List PartRow} (hlive : ∀ p ∈ parts, p ∈ T.liveParts t.hypertable.id)
    {outs : List (List (Row t.physicalSchema))}
    (hread : List.Forall₂ (FileYields store pushed) (openedFiles codec t parts) outs)
    {r : Row t.physicalSchema} (hr : r ∈ outs.flatten) :
    ∃ p ∈ T.liveParts t.hypertable.id, ∃ groups, store p.partMeta.path = some groups ∧
      r ∈ groups.flatten := by
  obtain ⟨out, hout, hr⟩ := List.mem_flatten.mp hr
  obtain ⟨file, hfile, groups, selected, hgroups, hselected, hkeeps⟩ :=
    hread.flip.exists_of_mem hout
  obtain ⟨p, hp, hopened⟩ := List.mem_filterMap.mp hfile
  rw [path_of_fileFor hopened] at hgroups
  exact ⟨p, hlive p hp, groups, hgroups,
    (sublist_of_selectGroups hselected).flatten.subset (hkeeps.sublist.subset hr)⟩

/-! ## 9. The answer of a scan -/

/-- The rows of the live parts of a hypertable. -/
def tableRows (T : Tables) (t : TableProvider)
    (files : PartRow → List (List (Row t.physicalSchema))) : List (Row t.physicalSchema) :=
  (T.liveParts t.hypertable.id).flatMap fun p => (files p).flatten

variable {files : PartRow → List (List (Row t.physicalSchema))}

/-- A row is visible, and the filters hold of what is made of it. -/
def answered (x : Exprs) (t : TableProvider) {indices : List Nat}
    (m : Meaning (outputSchema t indices)) (filters : List Expr) (r : Row t.physicalSchema) :
    Bool :=
  visible t r && filtersHold m filters ((queryRow x t indices r).getD [])

/-- A row that the filters hold of is one that the ranges want. -/
theorem wanted_of_filtersHold (hnames : (t.columns.specs.map ColumnSpec.name).Nodup)
    {m : Meaning (outputSchema t (t.indices projection))} {ranges : List ColumnRange}
    (hranges : extractInt64Ranges filters t.physicalSchema = .ok ranges)
    {r : Row t.physicalSchema} {cells : List Value} (hv : visible t r = true)
    (hcells : queryRow x t (t.indices projection) r = some cells)
    (hholds : filtersHold m filters cells = true) :
    Wanted t.hypertable.packingKey t.slice ranges r :=
  ⟨fun _ hkey => packingKeyOf_of_visible hkey hv,
    inside_of_compares (compares_of_filtersHold hnames hcells hholds) hranges⟩

/-- **The rows read**, and the rows there are: of those in the answer, none is lost, but for the
parts that the ranges are blind to. -/
theorem filter_answered (hnames : (t.columns.specs.map ColumnSpec.name).Nodup)
    {m : Meaning (outputSchema t (t.indices projection))}
    (hstore : ∀ p ∈ T.liveParts t.hypertable.id, store p.partMeta.path = some (files p))
    (hsound : ∀ p ∈ T.liveParts t.hypertable.id,
      MetadataSound codec t.hypertable p.partMeta ⟨t.physicalSchema, files p⟩)
    (hseen : ∀ p ∈ T.liveParts t.hypertable.id, Blind t.physicalSchema filters p.partMeta →
      ∀ r ∈ (files p).flatten, answered x t m filters r = false)
    (htotal : ∀ r ∈ tableRows T t files, visible t r = true →
      ∃ cells, queryRow x t (t.indices projection) r = some cells)
    (hpushed : ∀ r ∈ tableRows T t files, answered x t m filters r = true → pushed r = true)
    {ranges : List ColumnRange} (hranges : extractInt64Ranges filters t.physicalSchema = .ok ranges)
    {parts : List PartRow}
    (hparts : livePartsPruned pg codec T t.hypertable.id t.slice ranges = .ok parts)
    {outs : List (List (Row t.physicalSchema))}
    (hread : List.Forall₂ (FileYields store fun r => visible t r && pushed r)
      (openedFiles codec t parts) outs) :
    outs.flatten.filter (answered x t m filters) ~
      (tableRows T t files).filter (answered x t m filters) := by
  obtain ⟨hok, hkept⟩ := livePartsPruned_eq_ok pg hsound (isInt64_of_extracted hranges)
  obtain rfl := Except.ok.inj (hok.symm.trans hparts)
  set live := T.liveParts t.hypertable.id
  set keep := kept pg codec t.hypertable.id t.slice ranges
  have hperm := List.perm_insertionSort (fun p q : PartRow => p.id ≤ q.id) (live.filter keep)
  have hvisible : ∀ r, answered x t m filters r = true → visible t r = true := fun r hr =>
    (Bool.and_eq_true_iff.mp hr).1
  have hrows : ∀ p ∈ live, ∀ r ∈ (files p).flatten, r ∈ tableRows T t files := fun p hp r hr =>
    List.mem_flatMap.mpr ⟨p, hp, hr⟩
  -- the parts that the catalog leaves out
  have hcatalog : (tableRows T t files).Keeps (answered x t m filters)
      ((live.filter keep).flatMap fun p => (files p).flatten) := by
    refine List.keeps_filter fun p hp hdropped r hr => ?_
    cases hblind : ranges.any (ColumnRange.blind p.partMeta.columnStats) with
    | true => exact hseen p hp ((blind_iff hranges p.partMeta).mpr hblind) r hr
    | false =>
      by_contra hr'
      rw [Bool.not_eq_false] at hr'
      obtain ⟨hv, hholds⟩ := Bool.and_eq_true_iff.mp hr'
      obtain ⟨cells, hcells⟩ := htotal r (hrows p hp r hr) hv
      rw [hcells, Option.getD_some] at hholds
      have hwanted := wanted_of_filtersHold hnames hranges hv hcells hholds
      have hkeep := (hkept p hp).1 hblind r hr hwanted
      exact absurd (hkeep.symm.trans hdropped) (by decide)
  -- the files, and the row groups, that the provider leaves out, and the rows that the engine does
  have hprovider : List.Keeps (answered x t m filters)
      (((live.filter keep).insertionSort fun p q => p.id ≤ q.id).flatMap fun p => (files p).flatten)
      outs.flatten := by
    have hlive : ∀ p ∈ (live.filter keep).insertionSort fun p q => p.id ≤ q.id, p ∈ live :=
      fun p hp => (List.mem_filter.mp (hperm.mem_iff.mp hp)).1
    refine List.keeps_filterMap hread (fun p hp hnone r hr => ?_) fun p hp file hfile out hout => ?_
    · have hv := not_visible_of_fileFor (hsound p (hlive p hp)).index hnone r hr
      simp [answered, hv]
    · obtain ⟨hpath, selected, hselected, hkeeps⟩ :=
        keeps_of_fileFor (hsound p (hlive p hp)).index hfile
      obtain ⟨groups, selected', hgroups, hselected', hkeeps'⟩ := hout
      rw [hpath, hstore p (hlive p hp), Option.some.injEq] at hgroups
      subst hgroups
      obtain rfl := Option.some.inj (hselected.symm.trans hselected')
      refine (hkeeps.mono fun r _ hr => hvisible r hr).trans (hkeeps'.mono fun r hmem hr => ?_)
      have hmem' := hrows p (hlive p hp) r (hkeeps.sublist.subset hmem)
      simp [hvisible r hr, hpushed r hmem' hr]
  rw [hprovider.filter_self, ← hcatalog.filter_self]
  exact (hperm.flatMap_right _).filter _

/-- The output rows that the filters hold of, by the stored rows. -/
theorem filter_of_mapM {indices : List Nat} (m : Meaning (outputSchema t indices))
    (filters : List Expr) {rows : List (Row t.physicalSchema)} {all : List (List Value)}
    (h : (rows.filter (visible t)).mapM (queryRow x t indices) = some all) :
    all.filter (filtersHold m filters) =
      (rows.filter (answered x t m filters)).map fun r => (queryRow x t indices r).getD [] := by
  rw [List.eq_map_of_mapM h [], List.filter_map, List.filter_filter]
  refine congrArg _ (List.filter_congr fun r _ => ?_)
  rw [Bool.and_comm]
  rfl

/-- What the writers record of a file without columns of one name is sound. -/
theorem metadataSound_of_made {reader : ParquetReader} {codec : Write.PartCodec} {m : PartMeta}
    {groups : List (List (Row t.physicalSchema))}
    (hnames : (t.columns.specs.map ColumnSpec.name).Nodup)
    (h : Made reader codec t.hypertable m ⟨t.physicalSchema, groups⟩) :
    MetadataSound codec t.hypertable m ⟨t.physicalSchema, groups⟩ := by
  refine h.recorded.metadataSound fun i j f g hf hg _ _ hname => ?_
  have hi := Schema.indexOf_of_nodup (TableColumns.physicalSchema_nodup hnames) hf
  have hj := Schema.indexOf_of_nodup (TableColumns.physicalSchema_nodup hnames) hg
  rw [hname, hj] at hi
  rw [Option.some.inj hi]

/-- **What a scan over parts that were made by the writers yields**: under the filters there is what
they leave of all the rows of the slice. -/
theorem yields_answered {m : Meaning (outputSchema t (t.indices projection))}
    (hnames : (t.columns.specs.map ColumnSpec.name).Nodup) (hreads : ReadsRefs x)
    (hstore : ∀ p ∈ T.liveParts t.hypertable.id, store p.partMeta.path = some (files p))
    (hsound : ∀ p ∈ T.liveParts t.hypertable.id,
      MetadataSound codec t.hypertable p.partMeta ⟨t.physicalSchema, files p⟩)
    (hseen : ∀ p ∈ T.liveParts t.hypertable.id, Blind t.physicalSchema filters p.partMeta →
      ∀ r ∈ (files p).flatten, answered x t m filters r = false)
    (hplan : scan pg codec x T t projection filters limit = .ok plan)
    (hpushed : ∀ r cells, queryRow x t (t.indices projection) r = some cells →
      filtersHold m filters cells = true → pushed r = true)
    (htotal : ∀ r ∈ tableRows T t files, visible t r = true →
      ∃ cells, queryRow x t (t.indices projection) r = some cells) :
    (∃ out, Yields x store pushed plan out) ∧
      ∀ out, Yields x store pushed plan out → ∃ all, out = limited all limit ∧
        (∀ cells ∈ all, (outputSchema t (t.indices projection)).fits cells = true) ∧
        all.filter (filtersHold m filters) ~ ((tableRows T t files).filter
          (answered x t m filters)).map fun r =>
            (queryRow x t (t.indices projection) r).getD [] := by
  obtain ⟨ranges, parts, hranges, hparts, hyields⟩ :=
    @yields_scan pg codec x T t projection filters limit plan store pushed hnames hreads hplan
  have hpushed' : ∀ r ∈ tableRows T t files, answered x t m filters r = true →
      pushed r = true := by
    intro r hr hanswered
    obtain ⟨hv, hholds⟩ := Bool.and_eq_true_iff.mp hanswered
    obtain ⟨cells, hcells⟩ := htotal r hr hv
    rw [hcells] at hholds
    exact hpushed r cells hcells hholds
  have hrows : ∀ {outs : List (List (Row t.physicalSchema))},
      List.Forall₂ (FileYields store fun r => visible t r && pushed r) (openedFiles codec t parts)
        outs → ∀ r ∈ outs.flatten, r ∈ tableRows T t files := by
    intro outs hread r hr
    obtain ⟨p, hp, groups, hgroups, hr⟩ := live_of_read (live_of_pruned hparts) hread hr
    obtain rfl := Option.some.inj ((hstore p hp).symm.trans hgroups)
    exact List.mem_flatMap.mpr ⟨p, hp, hr⟩
  constructor
  · -- the engine that drops nothing
    have hopen : ∀ file ∈ openedFiles codec t parts, ∃ out,
        FileYields store (fun r => visible t r && pushed r) file out := by
      intro file hfile
      obtain ⟨p, hp, hopened⟩ := List.mem_filterMap.mp hfile
      have hp := live_of_pruned hparts p hp
      obtain ⟨hpath, selected, hselected, -⟩ := keeps_of_fileFor (hsound p hp).index hopened
      exact ⟨_, files p, selected, by rw [hpath, hstore p hp], hselected, .refl _ _⟩
    obtain ⟨outs, hread⟩ := List.exists_forall₂ hopen
    have hcells : ∀ r ∈ outs.flatten.filter (visible t),
        ∃ cells, queryRow x t (t.indices projection) r = some cells := fun r hr =>
      htotal r (hrows hread r (List.mem_filter.mp hr).1) (List.mem_filter.mp hr).2
    obtain ⟨all, hall⟩ := List.exists_forall₂ hcells
    exact ⟨_, (hyields _).mpr ⟨outs, _, all, hread, .refl _, List.mapM_eq_some_iff.mpr hall, rfl⟩⟩
  · intro out hout
    obtain ⟨outs, R, all, hread, hgather, hall, rfl⟩ := (hyields out).mp hout
    have hfilter := filter_answered hnames hstore hsound hseen htotal hpushed' hranges hparts hread
    refine ⟨all, rfl, fun cells hmem => ?_, ?_⟩
    · obtain ⟨r, -, hr⟩ := (List.mapM_eq_some_iff.mp hall).flip.exists_of_mem hmem
      exact fits_of_queryRow hnames hr
    · rw [filter_of_mapM m filters hall]
      exact ((hgather.filter _).trans hfilter).map _

/-- **What is left of it under the filters**, which no limit is handed down beneath. -/
theorem answers_of_yields {m : Meaning (outputSchema t (t.indices projection))}
    {ans : List (List Value)}
    (hnames : (t.columns.specs.map ColumnSpec.name).Nodup) (hreads : ReadsRefs x)
    (hstore : ∀ p ∈ T.liveParts t.hypertable.id, store p.partMeta.path = some (files p))
    (hsound : ∀ p ∈ T.liveParts t.hypertable.id,
      MetadataSound codec t.hypertable p.partMeta ⟨t.physicalSchema, files p⟩)
    (hseen : ∀ p ∈ T.liveParts t.hypertable.id, Blind t.physicalSchema filters p.partMeta →
      ∀ r ∈ (files p).flatten, answered x t m filters r = false)
    (hplan : scan pg codec x T t projection filters limit = .ok plan)
    (hlimit : limit = none ∨ filters = [])
    (hpushed : ∀ r cells, queryRow x t (t.indices projection) r = some cells →
      filtersHold m filters cells = true → pushed r = true)
    (hanswer : answer x t m filters (tableRows T t files) = some ans) :
    (∃ out, Yields x store pushed plan out) ∧
      ∀ out, Yields x store pushed plan out → ∃ all, all ~ ans ∧
        out.filter (filtersHold m filters) = limited all limit := by
  obtain ⟨whole, hwhole, rfl⟩ := Option.map_eq_some_iff.mp hanswer
  have htotal : ∀ r ∈ tableRows T t files, visible t r = true →
      ∃ cells, queryRow x t (t.indices projection) r = some cells := by
    intro r hr hv
    obtain ⟨cells, -, hcells⟩ :=
      (List.mapM_eq_some_iff.mp hwhole).exists_of_mem (List.mem_filter.mpr ⟨hr, hv⟩)
    exact ⟨cells, hcells⟩
  obtain ⟨hruns, hall⟩ :=
    yields_answered hnames hreads hstore hsound hseen hplan hpushed htotal
  refine ⟨hruns, fun out hout => ?_⟩
  obtain ⟨all, rfl, hfits, hfilter⟩ := hall out hout
  refine ⟨all.filter (filtersHold m filters), ?_, ?_⟩
  · rw [filter_of_mapM m filters hwhole]
    exact hfilter
  · rcases hlimit with rfl | rfl
    · rfl
    · -- where there are no filters they hold of every row
      have hself : ∀ cells ∈ all, filtersHold m [] cells = true := fun cells hmem => by
        simp [filtersHold, hfits cells hmem]
      rw [List.filter_eq_self.mpr hself, List.filter_eq_self]
      intro cells hmem
      cases limit with
      | none => exact hself cells hmem
      | some n => exact hself cells (List.mem_of_mem_take hmem)

/-- Where the names are free, the filters are blind to no part. -/
theorem not_blind_of_made {reader : ParquetReader} {codec : Write.PartCodec} {m : PartMeta}
    {groups : List (List (Row t.physicalSchema))} (hfree : Unreserved t.physicalSchema)
    (h : Made reader codec t.hypertable m ⟨t.physicalSchema, groups⟩) :
    ¬ Blind t.physicalSchema filters m := by
  rintro ⟨filter, -, name, ⟨hint, -⟩, hindexed⟩
  obtain ⟨i, f, -, hf, rfl, -⟩ := isInt64_eq_true hint
  obtain ⟨ranges, bitmap, spans, hstats⟩ := h.recorded.stats
  have hplain := hstats.indexed_eq_false (hfree f (List.mem_of_getElem? hf))
  exact absurd (hindexed.symm.trans hplain) (by decide)

/-- **A query is answered as over the whole table.**  Over parts that were made by the writers, by
whatever history, a scan that opens only what the metadata does not rule out, and reads of it only
the columns it needs, can be run, and however the engine runs it: under the filters, which are
applied again, there is what they leave of all the rows of the slice. -/
theorem scan_answers {reader : ParquetReader} {codec : Write.PartCodec}
    {m : Meaning (outputSchema t (t.indices projection))} {ans : List (List Value)}
    (hnames : (t.columns.specs.map ColumnSpec.name).Nodup)
    (hfree : Unreserved t.physicalSchema) (hreads : ReadsRefs x)
    (hstore : ∀ p ∈ T.liveParts t.hypertable.id, store p.partMeta.path = some (files p))
    (hmade : ∀ p ∈ T.liveParts t.hypertable.id,
      Made reader codec t.hypertable p.partMeta ⟨t.physicalSchema, files p⟩)
    (hplan : scan pg codec x T t projection filters limit = .ok plan)
    -- the engine hands down a limit where no filter is left above the scan
    (hlimit : limit = none ∨ filters = [])
    (hpushed : ∀ r cells, queryRow x t (t.indices projection) r = some cells →
      filtersHold m filters cells = true → pushed r = true)
    (hanswer : answer x t m filters (tableRows T t files) = some ans) :
    (∃ out, Yields x store pushed plan out) ∧
      ∀ out, Yields x store pushed plan out → ∃ all, all ~ ans ∧
        out.filter (filtersHold m filters) = limited all limit :=
  answers_of_yields hnames hreads hstore (fun p hp => metadataSound_of_made hnames (hmade p hp))
    (fun p hp hblind => absurd hblind (not_blind_of_made hfree (hmade p hp))) hplan hlimit hpushed
    hanswer

/-- What a plan reads: its groups of files, and the order they are said to be in. -/
def ExecutionPlan.source : ExecutionPlan → List (List PartitionedFile) × List Nat
  | .dataSource fileGroups _ _ outputOrdering => (fileGroups, outputOrdering)
  | .filter _ _ input => input.source
  | .projection _ input => input.source
  | .globalLimit _ input => input.source

/-- A plan reads the files that are opened, each in a group of its own, and the order that it says
they are in is that of the sort key, or none. -/
theorem source_of_scan (hplan : scan pg codec x T t projection filters limit = .ok plan) :
    ∃ ranges parts, livePartsPruned pg codec T t.hypertable.id t.slice ranges = .ok parts ∧
      plan.source.1 = (openedFiles codec t parts).map (fun file => [file]) ∧
      (plan.source.2 = [] ∨
        plan.source.2 = orderingPrefix t.physicalSchema t.hypertable.sortKey) := by
  obtain ⟨ranges, -, hplan⟩ := Except.bind_eq_ok_iff.mp hplan
  obtain ⟨parts, hparts, hplan⟩ := Except.bind_eq_ok_iff.mp hplan
  obtain ⟨p, -, hplan⟩ := Except.bind_eq_ok_iff.mp hplan
  refine ⟨ranges, parts, Except.mapError_eq_ok_iff.mp hparts, ?_⟩
  split at hplan
  · cases hplan
  obtain ⟨filtered, hfiltered, hplan⟩ := Except.bind_eq_ok_iff.mp hplan
  obtain ⟨exprs, -, hplan⟩ := Except.bind_eq_ok_iff.mp hplan
  cases hplan
  have hsource : ((ExecutionPlan.projection exprs filtered).limited limit).source =
      filtered.source := by
    cases limit <;> rfl
  rw [hsource]
  unfold sourceFor at hfiltered
  split at hfiltered
  · obtain ⟨pushdown, -, hfiltered⟩ := Except.bind_eq_ok_iff.mp hfiltered
    obtain ⟨column, -, hfiltered⟩ := Except.bind_eq_ok_iff.mp hfiltered
    cases hfiltered
    exact ⟨rfl, Or.inr rfl⟩
  · cases hfiltered
    exact ⟨rfl, Or.inl rfl⟩

/-- The sort key as far as there are columns for it is all of it, where there are. -/
theorem orderingPrefix_eq {s : Schema} {sortKey : List String} {columns : List Nat}
    (h : sortColumns s sortKey = .ok columns) : orderingPrefix s sortKey = columns := by
  have hall := sortColumns_eq_ok.mp h
  clear h
  induction hall with
  | nil => rfl
  | cons hi _ ih => rw [orderingPrefix, hi, ih]

/-- **The order a plan declares is there**: whatever the engine reads of a group of files, and
whatever it pushes down, the rows come in the order that the plan says they are in. -/
theorem scan_ordered {reader : ParquetReader} {codec : Write.PartCodec}
    {pushed' : Row t.physicalSchema → Bool}
    (hstore : ∀ p ∈ T.liveParts t.hypertable.id, store p.partMeta.path = some (files p))
    (hmade : ∀ p ∈ T.liveParts t.hypertable.id,
      Made reader codec t.hypertable p.partMeta ⟨t.physicalSchema, files p⟩)
    (hplan : scan pg codec x T t projection filters limit = .ok plan) :
    ∀ group ∈ plan.source.1, ∀ outs, List.Forall₂ (FileYields store pushed') group outs →
      SortedRows plan.source.2 outs.flatten := by
  obtain ⟨ranges, parts, hparts, hgroups, hordering⟩ := source_of_scan hplan
  intro group hgroup outs houts
  rw [hgroups] at hgroup
  obtain ⟨file, hfile, rfl⟩ := List.mem_map.mp hgroup
  obtain ⟨p, hp, hopened⟩ := List.mem_filterMap.mp hfile
  have hlive := live_of_pruned hparts p hp
  obtain ⟨out, rfl, groups, selected, hfound, hselected, hkeeps⟩ :
      ∃ out, outs = [out] ∧ FileYields store pushed' file out := by
    cases houts with
    | cons hout hnil =>
      cases hnil
      exact ⟨_, rfl, hout⟩
  rw [path_of_fileFor hopened, hstore p hlive, Option.some.injEq] at hfound
  subst hfound
  rw [List.flatten_singleton]
  rcases hordering with hordering | hordering <;> rw [hordering]
  · exact List.pairwise_of_forall fun _ _ => le_refl _
  · obtain ⟨columns, hcolumns, hsorted⟩ := (hmade p hlive).recorded.toRanged.sorted
    rw [orderingPrefix_eq hcolumns]
    exact hsorted.sublist
      (hkeeps.sublist.trans (sublist_of_selectGroups hselected).flatten)

/-- A row of the output is made of one of the slice's, in the file of a live part. -/
theorem row_of_yields {out : List (List Value)}
    (hnames : (t.columns.specs.map ColumnSpec.name).Nodup) (hreads : ReadsRefs x)
    (hplan : scan pg codec x T t projection filters limit = .ok plan)
    (hout : Yields x store pushed plan out) :
    ∀ cells ∈ out, ∃ p ∈ T.liveParts t.hypertable.id, ∃ groups,
      store p.partMeta.path = some groups ∧ ∃ r ∈ groups.flatten,
        visible t r = true ∧ queryRow x t (t.indices projection) r = some cells := by
  obtain ⟨ranges, parts, -, hparts, hyields⟩ :=
    @yields_scan pg codec x T t projection filters limit plan store pushed hnames hreads hplan
  obtain ⟨outs, R, all, hread, hgather, hall, rfl⟩ := (hyields out).mp hout
  intro cells hcells
  have hmem : cells ∈ all := by
    cases limit with
    | none => exact hcells
    | some n => exact List.mem_of_mem_take hcells
  obtain ⟨r, hr, hrow⟩ := (List.mapM_eq_some_iff.mp hall).flip.exists_of_mem hmem
  obtain ⟨hr, hv⟩ := List.mem_filter.mp hr
  obtain ⟨p, hp, groups, hgroups, hr⟩ :=
    live_of_read (live_of_pruned hparts) hread (hgather.mem_iff.mp hr)
  exact ⟨p, hp, groups, hgroups, r, hr, hv, hrow⟩

/-- **No row of another key** is ever returned, whatever the metadata says, whatever the engine has
pushed down and whatever it makes of the predicate it was given: an output row is made of a row
of the key, in the file of a live part of the hypertable. -/
theorem scan_isolated {key : I64} {out : List (List Value)}
    (hnames : (t.columns.specs.map ColumnSpec.name).Nodup) (hreads : ReadsRefs x)
    (hslice : t.slice = some key)
    (hplan : scan pg codec x T t projection filters limit = .ok plan)
    (hout : Yields x store pushed plan out) :
    ∀ cells ∈ out, ∃ p ∈ T.liveParts t.hypertable.id, ∃ groups,
      store p.partMeta.path = some groups ∧ ∃ r ∈ groups.flatten,
        packingKeyOf t.hypertable.packingKey r = some key ∧
          queryRow x t (t.indices projection) r = some cells := by
  intro cells hcells
  obtain ⟨p, hp, groups, hgroups, r, hr, hv, hrow⟩ :=
    row_of_yields hnames hreads hplan hout cells hcells
  exact ⟨p, hp, groups, hgroups, r, hr, packingKeyOf_of_visible hslice hv, hrow⟩

end Plan

/-! ## 10. A table of two tenants -/

/-- A stored column `x` and an alias for it. -/
def shopTable : Hypertable where
  id := 1
  name := "events"
  tableSchema := .obj [("fields", .arr [
    .obj [("name", .str "tenant_id"), ("type", .str "int64")],
    .obj [("name", .str "x"), ("type", .str "int64")],
    .obj [("name", .str "y"), ("type", .str "int64"), ("alias", .str "x")]])]
  partitionSpec := .obj [("columns", .arr [])]
  sortKey := ["tenant_id"]
  packingKey := "tenant_id"
  placement := .packed

def shopColumns : TableColumns := ⟨[⟨"tenant_id", .int64, true, .stored, "int64", false⟩,
  ⟨"x", .int64, true, .stored, "int64", false⟩,
  ⟨"y", .int64, true, .aliased "x", "int64", false⟩]⟩

def shopRow (tenant x : I64) : Row shopColumns.physicalSchema :=
  ⟨[.int64 tenant, .int64 x], rfl⟩

/-- One row group, of both tenants. -/
def shopGroups : List (List (Row shopColumns.physicalSchema)) :=
  [[shopRow (smallI64 1) (smallI64 7), shopRow (smallI64 2) (smallI64 3)]]

def shopMeta : PartMeta where
  path := "ht/1/L0/a.parquet"
  partitionValues := .obj []
  packingKeyMin := 1
  packingKeyMax := 2
  rowCount := 2
  sizeBytes := 100
  level := 0
  columnStats := some (.obj [("packing_keys", .str "011"),
    ("tenant_id", .obj [("max", .num (.int 2)), ("min", .num (.int 1))]),
    ("x", .obj [("max", .num (.int 7)), ("min", .num (.int 3))])])

/-- The view's output that the part was made of. -/
def shopItems : Except Write.WriteError (List Write.FlushItem) :=
  Write.batchesToL0Items .equal oneExpr (fun _ => 0) (fun _ => "\x7b\x7d") .stable .characters
    [⟨[⟨"tenant_id", .int64, true, none⟩, ⟨"x", .int64, true, none⟩],
      [shopRow (smallI64 2) (smallI64 3), shopRow (smallI64 1) (smallI64 7)]⟩]
    shopTable 1000

/-- A file with the same cells is the same file. -/
theorem dataFile_eq {s : Schema} {f : DataFile} {groups : List (List (Row s))}
    (hschema : f.schema = s)
    (hcells : f.rowGroups.map (List.map Subtype.val) = groups.map (List.map Subtype.val)) :
    f = ⟨s, groups⟩ := by
  obtain ⟨schema, rowGroups⟩ := f
  obtain rfl : schema = s := hschema
  have hinjective : Function.Injective (List.map (Subtype.val : Row schema → List Value)) :=
    List.map_injective_iff.mpr Subtype.val_injective
  obtain rfl : rowGroups = groups := List.map_injective_iff.mpr hinjective hcells
  rfl

/-- The output is one item, and once published it is the part, with the cells of the file. -/
def publishes (items : Except Write.WriteError (List Write.FlushItem)) (m : PartMeta) {s : Schema}
    (groups : List (List (Row s))) : Bool :=
  items.map (List.map fun item =>
    decide (publishedPart m.path item m.sizeBytes = m ∧ (itemFile item).schema = s ∧
      (itemFile item).rowGroups.map (List.map Subtype.val) = groups.map (List.map Subtype.val))) =
    .ok [true]

theorem made_of_publishes {ht : Hypertable} {cols : TableColumns} {batches : List RecordBatch}
    {items : Except Write.WriteError (List Write.FlushItem)} {m : PartMeta}
    {groups : List (List (Row cols.physicalSchema))} (version : Version ht ht.tableSchema cols)
    (hitems : items = Write.batchesToL0Items .equal oneExpr (fun _ => 0) (fun _ => "\x7b\x7d")
      .stable .characters batches ht 1000) (h : publishes items m groups = true) :
    Made noteEnv.reader .characters ht m ⟨cols.physicalSchema, groups⟩ := by
  obtain ⟨made, hmade, hobs⟩ := Except.map_eq_ok_iff.mp (of_decide_eq_true h)
  obtain ⟨item, rfl, hitem⟩ := List.map_eq_singleton_iff.mp hobs
  obtain ⟨hmeta, hschema, hcells⟩ := of_decide_eq_true hitem
  rw [← hmeta, ← dataFile_eq hschema hcells]
  exact .view version (hitems ▸ hmade) List.mem_cons_self

theorem shop_version : Version shopTable shopTable.tableSchema shopColumns := ⟨by rfl, by rfl⟩

theorem shop_made : Made noteEnv.reader .characters shopTable shopMeta
    ⟨shopColumns.physicalSchema, shopGroups⟩ :=
  made_of_publishes shop_version (by rfl : shopItems = _) (by decide +kernel)

/-- The expression that is the name of a column. -/
def shopExprs : Exprs where
  columnRefs sql _ := some [sql]
  compiles sql s _ := (s.indexOf sql).isSome
  value sql s f cells := ((s.indexOf sql).map fun i => cells[i]?.getD .null).filter
    f.withNullable.admits
  typed h := (Option.filter_eq_some_iff.mp h).2

theorem shopExprs_readsRefs : ReadsRefs shopExprs := by
  intro sql s names p scanned f cells hnames hrefs hproject _ hall
  obtain rfl : [sql] = names := Option.some.inj hrefs
  obtain ⟨i, hi, hindex⟩ := hall sql List.mem_cons_self
  obtain ⟨g, hg, hgi⟩ := (List.mapM_eq_some_iff.mp hproject).exists_of_mem hi
  obtain ⟨g', hg', hname, -⟩ := Schema.indexOf_eq_some.mp hindex
  obtain rfl : g = g' := Option.some.inj (hgi.symm.trans hg')
  obtain ⟨j, hj⟩ := Schema.exists_indexOf hg
  obtain ⟨i', hi', hcells⟩ := indexOf_projected hproject hnames hj
  rw [hname] at hj hi'
  simp [shopExprs, hj, hi', hcells]

/-- The table as tenant 2 sees it. -/
def shopProvider : TableProvider := ⟨shopTable, shopColumns, some (smallI64 2)⟩

def shopTables : Tables := { parts := [⟨5, 1, shopMeta, 1, none, none⟩] }

def shopStore (path : String) : Option (List (List (Row shopColumns.physicalSchema))) :=
  if path = "ht/1/L0/a.parquet" then some shopGroups else none

/-- A cast of whole numbers. -/
def shopCast : BigintCast where
  cast v := v.asInt?.bind fun n => if h : n ∈ I64 then some ⟨n, h⟩ else none
  int n := by simp [asInt?_int]

/-- `x < 5`. -/
def shopFilters : List Expr :=
  [.binaryExpr (.column "x") .lt (.literal (.int64 (smallI64 5)))]

def shopMeaning (s : Schema) : Meaning s := ⟨fun _ _ _ => .null, fun _ _ => .null⟩

/-- `SELECT x, y … WHERE x < 5`. -/
def shopPlan : Except ScanError ExecutionPlan :=
  scan shopCast .characters shopExprs shopTables shopProvider (some [1, 2]) shopFilters none

theorem shop_names : (shopProvider.columns.specs.map ColumnSpec.name).Nodup := by decide

theorem shop_unreserved : Unreserved shopProvider.physicalSchema := by
  unfold Unreserved
  decide

theorem shop_liveParts : ∀ p ∈ shopTables.liveParts shopProvider.hypertable.id,
    p = ⟨5, 1, shopMeta, 1, none, none⟩ := by decide

theorem shop_plan : ∃ plan, shopPlan = .ok plan := by
  obtain ⟨ranges, hranges⟩ :
      ∃ ranges, extractInt64Ranges shopFilters shopProvider.physicalSchema = .ok ranges := ⟨_, rfl⟩
  have hsound : ∀ p ∈ shopTables.liveParts shopProvider.hypertable.id, MetadataSound .characters
      shopTable p.partMeta ⟨shopProvider.physicalSchema, (fun _ => shopGroups) p⟩ := by
    intro p hp
    rw [shop_liveParts p hp]
    exact metadataSound_of_made shop_names shop_made
  obtain ⟨hparts, -⟩ := @livePartsPruned_eq_ok _ _ _ shopCast shopTables _ shopProvider.slice ranges
    (fun _ => shopGroups) hsound (isInt64_of_extracted hranges)
  simp only [shopPlan, scan, hranges, hparts, Except.mapError, bind, Except.bind]
  exact ⟨_, rfl⟩

theorem scan_answers_shop : ∃ plan, shopPlan = .ok plan ∧
    (∃ out, Yields shopExprs shopStore (fun _ => true) plan out) ∧
      ∀ out, Yields shopExprs shopStore (fun _ => true) plan out →
        ∃ all, all ~ [[.int64 (smallI64 3), .int64 (smallI64 3)]] ∧
          out.filter (filtersHold (shopMeaning (outputSchema shopProvider [1, 2])) shopFilters) =
            limited all none := by
  obtain ⟨plan, hplan⟩ := shop_plan
  refine ⟨plan, hplan, @scan_answers shopCast shopExprs shopTables shopProvider
    (some [1, 2]) shopFilters none plan shopStore (fun _ => true) (fun _ => shopGroups)
    noteEnv.reader .characters (shopMeaning _) _ shop_names shop_unreserved shopExprs_readsRefs
    ?_ ?_ hplan (.inl rfl) (fun _ _ _ _ => rfl) (by decide +kernel)⟩
  · intro p hp
    rw [shop_liveParts p hp]
    rfl
  · intro p hp
    rw [shop_liveParts p hp]
    exact shop_made

theorem scan_ordered_shop : ∃ plan, shopPlan = .ok plan ∧
    ∀ group ∈ plan.source.1, ∀ outs, List.Forall₂ (FileYields shopStore fun _ => true) group outs →
      SortedRows plan.source.2 outs.flatten := by
  obtain ⟨plan, hplan⟩ := shop_plan
  refine ⟨plan, hplan, @scan_ordered shopCast shopExprs shopTables shopProvider (some [1, 2])
    shopFilters none plan shopStore (fun _ => shopGroups) noteEnv.reader .characters
    (fun _ => true) ?_ ?_ hplan⟩
  · intro p hp
    rw [shop_liveParts p hp]
    rfl
  · intro p hp
    rw [shop_liveParts p hp]
    exact shop_made

theorem scan_isolated_shop : ∃ plan, shopPlan = .ok plan ∧
    ∀ out, Yields shopExprs shopStore (fun _ => true) plan out →
      ∀ cells ∈ out, ∃ p ∈ shopTables.liveParts 1, ∃ groups,
        shopStore p.partMeta.path = some groups ∧ ∃ r ∈ groups.flatten,
          packingKeyOf "tenant_id" r = some (smallI64 2) ∧
            queryRow shopExprs shopProvider [1, 2] r = some cells := by
  obtain ⟨plan, hplan⟩ := shop_plan
  exact ⟨plan, hplan, fun out hout =>
    scan_isolated shop_names shopExprs_readsRefs rfl hplan hout⟩

end Ukiel.Query
