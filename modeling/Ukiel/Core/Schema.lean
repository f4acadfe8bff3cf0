/-
# Table schemas

`ukiel-core/src/schema.rs`: the catalog's JSON table schema, read into column specs, and the
Arrow schemas derived from it.  Nothing here asks for the names of the columns to be different,
and neither does the source: a schema may name two columns alike, and `Schema.indexOf` then
finds the first.
-/
import Ukiel.Core.Types

namespace Ukiel

/-! ## 1. Column specs -/

/-- The Arrow types a table's columns have (`DataType`). -/
inductive DataType where
  | int64
  | float64
  | utf8
  | boolean
deriving DecidableEq, Repr

/-- How a column gets its value.  Expressions are SQL over the table's own columns. -/
inductive ColumnKind where
  /-- The value comes from the insert. -/
  | stored
  /-- The value comes from the insert; a NULL or missing one is filled by the expression. -/
  | default (expr : String)
  /-- Always computed at write time. -/
  | materialized (expr : String)
  /-- Computed at query time and never stored. -/
  | aliased (expr : String)
deriving DecidableEq, Repr

structure ColumnSpec where
  name : String
  dataType : DataType
  nullable : Bool
  kind : ColumnKind
  /-- The declared type name: `timestamp_ms` and `int64` are one Arrow type. -/
  ukielType : String
  bloomFilter : Bool
deriving DecidableEq, Repr

inductive SchemaError where
  | invalid (reason : String)
  | unsupportedType (name : String)
deriving DecidableEq, Repr

/-- The Arrow type of a declared type. -/
def dataTypeOf (typeName : String) : Except SchemaError DataType :=
  if typeName = "int64" ∨ typeName = "timestamp_ms" then .ok .int64
  else if typeName = "float64" then .ok .float64
  else if typeName = "utf8" then .ok .utf8
  else if typeName = "bool" then .ok .boolean
  else .error (.unsupportedType typeName)

/-- `default`, `materialized` and `alias` exclude each other. -/
def columnKindOf (name : String) (f : Json) : Except SchemaError ColumnKind :=
  let exprOf (key : String) : Option String := (f.get? key).bind Json.asStr?
  match exprOf "default", exprOf "materialized", exprOf "alias" with
  | none, none, none => .ok .stored
  | some e, none, none => .ok (.default e)
  | none, some e, none => .ok (.materialized e)
  | none, none, some e => .ok (.aliased e)
  | _, _, _ => .error (.invalid
      ("field '" ++ name ++ "': default/materialized/alias are mutually exclusive"))

/-- One entry of the `fields` array. -/
def ColumnSpec.parse (f : Json) : Except SchemaError ColumnSpec :=
  match (f.get? "name").bind Json.asStr? with
  | none => .error (.invalid "field missing 'name'")
  | some name =>
    match (f.get? "type").bind Json.asStr? with
    | none => .error (.invalid ("field '" ++ name ++ "' missing 'type'"))
    | some typeName => do
      let nullable := ((f.get? "nullable").bind Json.asBool?).getD true
      let dataType ← dataTypeOf typeName
      let kind ← columnKindOf name f
      let bloomFilter := ((f.get? "bloom_filter").bind Json.asBool?).getD false
      if bloomFilter ∧ kind matches .aliased _ then
        .error (.invalid
          ("field '" ++ name ++ "': bloom_filter is invalid on an alias column (never stored)"))
      else
        .ok ⟨name, dataType, nullable, kind, typeName, bloomFilter⟩

structure TableColumns where
  specs : List ColumnSpec
deriving DecidableEq, Repr

/-- `TableColumns::parse`. -/
def TableColumns.parse (v : Json) : Except SchemaError TableColumns :=
  match (v.get? "fields").bind Json.asArray? with
  | none => .error (.invalid "missing 'fields' array")
  | some fields => (fields.mapM ColumnSpec.parse).map TableColumns.mk

/-- A hypertable (`ukiel-core/src/table.rs`). -/
structure Hypertable where
  id : HypertableId
  name : String
  tableSchema : Json
  /-- For example `{"columns": ["key_bucket", "day"]}`. -/
  partitionSpec : Json
  /-- The sort order of its files. -/
  sortKey : List String
  packingKey : String
  placement : Placement
deriving DecidableEq

/-! ## 2. Arrow schemas -/

/-- An Arrow field.  `ukielType` is the metadata entry under `ukiel:type`. -/
structure Field where
  name : String
  dataType : DataType
  nullable : Bool
  ukielType : Option String := none
deriving DecidableEq, Repr

abbrev Schema := List Field

/-- `Schema::index_of`: the first field of that name. -/
def Schema.indexOf (s : Schema) (name : String) : Option Nat := s.findIdx? fun f => f.name = name

/-- The type hint rides along where the Arrow type does not determine the declared one. -/
def ColumnSpec.field (c : ColumnSpec) : Field :=
  ⟨c.name, c.dataType, c.nullable,
    if c.ukielType = "timestamp_ms" then some c.ukielType else none⟩

def Field.withNullable (f : Field) : Field := { f with nullable := true }

/-- The schema in which every field may be NULL. -/
def Schema.withNullable (s : Schema) : Schema := s.map Field.withNullable

namespace TableColumns

def schemaWhere (cols : TableColumns) (keep : ColumnKind → Bool) : Schema :=
  (cols.specs.filter fun c => keep c.kind).map ColumnSpec.field

/-- What ingested rows may carry. -/
def inputSchema (cols : TableColumns) : Schema :=
  cols.schemaWhere fun k => k matches .stored | .default _

/-- What Parquet files contain. -/
def physicalSchema (cols : TableColumns) : Schema :=
  cols.schemaWhere fun k => !(k matches .aliased _)

/-- What SQL sees. -/
def querySchema (cols : TableColumns) : Schema := cols.schemaWhere fun _ => true

end TableColumns

theorem Schema.indexOf_eq_some {s : Schema} {name : String} {i : Nat} :
    s.indexOf name = some i ↔
      ∃ f, s[i]? = some f ∧ f.name = name ∧ ∀ j < i, ∀ g, s[j]? = some g → g.name ≠ name := by
  unfold indexOf
  rw [List.findIdx?_eq_some_iff_getElem]
  constructor
  · rintro ⟨h, hi, hj⟩
    refine ⟨s[i], List.getElem?_eq_getElem h, by simpa using hi, ?_⟩
    intro j hji g hg
    obtain ⟨hlt, rfl⟩ := List.getElem?_eq_some_iff.mp hg
    simpa using hj j hji
  · rintro ⟨f, hf, hname, hj⟩
    obtain ⟨h, rfl⟩ := List.getElem?_eq_some_iff.mp hf
    refine ⟨h, by simpa using hname, ?_⟩
    intro j hji
    simpa using hj j hji _ (List.getElem?_eq_getElem (Nat.lt_trans hji h))

theorem Schema.indexOf_eq_none {s : Schema} {name : String} :
    s.indexOf name = none ↔ ∀ f ∈ s, f.name ≠ name := by
  unfold indexOf
  rw [List.findIdx?_eq_none_iff]
  simp

theorem Schema.exists_indexOf {s : Schema} {f : Field} (h : f ∈ s) :
    ∃ i, s.indexOf f.name = some i := by
  cases hi : s.indexOf f.name with
  | none => exact absurd rfl (Schema.indexOf_eq_none.mp hi f h)
  | some i => exact ⟨i, rfl⟩

/-- Where no two columns are named alike, a column is the one of its name. -/
theorem Schema.indexOf_of_nodup {s : Schema} (hnames : (s.map Field.name).Nodup) {i : Nat}
    {f : Field} (hf : s[i]? = some f) : s.indexOf f.name = some i := by
  refine Schema.indexOf_eq_some.mpr ⟨f, hf, rfl, fun j hj g hg hname => ?_⟩
  obtain ⟨hi, -⟩ := List.getElem?_eq_some_iff.mp hf
  refine (List.nodup_iff_getElem?_ne_getElem?.mp hnames) j i hj (by simpa using hi) ?_
  rw [List.getElem?_map, List.getElem?_map, hf, hg, Option.map_some, Option.map_some, hname]

/-- The names of the physical columns are some of the columns' names. -/
theorem TableColumns.physicalSchema_nodup {cols : TableColumns}
    (hnames : (cols.specs.map ColumnSpec.name).Nodup) :
    (cols.physicalSchema.map Field.name).Nodup := by
  refine hnames.sublist ?_
  rw [TableColumns.physicalSchema, TableColumns.schemaWhere, List.map_map]
  exact List.filter_sublist.map ColumnSpec.name

@[simp] theorem Schema.indexOf_withNullable (s : Schema) (name : String) :
    s.withNullable.indexOf name = s.indexOf name := by
  unfold indexOf withNullable
  rw [List.findIdx?_map]
  rfl

@[simp] theorem Schema.withNullable_withNullable (s : Schema) :
    s.withNullable.withNullable = s.withNullable := by
  unfold withNullable
  rw [List.map_map]
  rfl

end Ukiel
