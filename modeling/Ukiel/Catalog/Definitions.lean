/-
# The tables the catalog defines

`ukiel-catalog/src/tables.rs` over the tables `hypertables` and `logical_tables`.  Every function
is one statement that commits by itself, so that processes that call them are interleaved call by
call.  A call may fail without an effect, or with the statement rolled back, or after it was
carried out (`Answers`).

Nothing here is ever deleted, and nothing but the placement is ever changed (`Answers.grows`).
-/
import Mathlib.Data.List.Nodup
import Ukiel.Core.Sorting

namespace Ukiel

/-! ## 1. Rows -/

abbrev NamespaceId := I64

/-- A namespaced view over a slice of a hypertable (`ukiel-core/src/table.rs`). -/
structure LogicalTable where
  id : Int
  namespaceId : NamespaceId
  name : String
  hypertableId : HypertableId
  columnMapping : Option Json := none
deriving DecidableEq

/-- `Placement::from_db`: no target is packed, and none above 0 keeps every key apart. -/
def Placement.fromDb : Option Int → Placement
  | none => .packed
  | some n => if n ≤ 0 then .separated else .sizeTargeted n

/-- `Placement::to_db`. -/
def Placement.toDb : Placement → Option Int
  | .packed => none
  | .separated => some 0
  | .sizeTargeted n => some n

namespace Catalog

/-- A row of `hypertables`. -/
structure HypertableRow where
  id : HypertableId
  name : String
  tableSchema : Json
  partitionSpec : Json
  sortKey : List String
  packingKey : String
  targetFileBytes : Option Int := none
deriving DecidableEq

/-- `hypertable_from_row`. -/
def HypertableRow.hypertable (r : HypertableRow) : Hypertable :=
  ⟨r.id, r.name, r.tableSchema, r.partitionSpec, r.sortKey, r.packingKey,
    .fromDb r.targetFileBytes⟩

/-- The row, but for the placement. -/
def HypertableRow.definition (r : HypertableRow) : HypertableRow :=
  { r with targetFileBytes := none }

/-- What identifies a row is in its definition. -/
theorem HypertableRow.eq_of_definition {r r' : HypertableRow} (h : r'.definition = r.definition) :
    r'.id = r.id ∧ r'.name = r.name := by
  rw [definition, definition, mk.injEq] at h
  exact ⟨h.1, h.2.1⟩

/-- `CatalogError`, the variants these calls can return. -/
inductive TableError where
  | schema (e : SchemaError)
  | sortKey (e : SortKeyError)
  | notFound (what : String)
  | db (failure : DbFailure)
deriving DecidableEq

structure Definitions where
  hypertables : List HypertableRow := []
  logicalTables : List LogicalTable := []
  /-- The sequences of the ids.  No rollback takes them back. -/
  nextHypertable : HypertableId := 1
  nextLogical : Int := 1
deriving DecidableEq

namespace Definitions

/-! ## 2. The calls -/

def getHypertable (s : Definitions) (name : String) : Except TableError Hypertable :=
  match s.hypertables.find? fun r => r.name = name with
  | some r => .ok r.hypertable
  | none => .error (.notFound ("hypertable '" ++ name ++ "'"))

def getHypertableById (s : Definitions) (id : HypertableId) : Except TableError Hypertable :=
  match s.hypertables.find? fun r => r.id = id with
  | some r => .ok r.hypertable
  | none => .error (.notFound ("hypertable id " ++ toString id))

def getLogicalTable (s : Definitions) (ns : NamespaceId) (name : String) :
    Except TableError LogicalTable :=
  match s.logicalTables.find? fun l => l.namespaceId = ns ∧ l.name = name with
  | some l => .ok l
  | none => .error (.notFound
      ("logical table '" ++ name ++ "' in namespace " ++ toString ns.val))

/-- In the order of their names. -/
def listLogicalTables (s : Definitions) (ns : NamespaceId) : List LogicalTable :=
  (s.logicalTables.filter fun l => l.namespaceId = ns).insertionSort fun a b => a.name ≤ b.name

/-- In the order of their ids. -/
def listHypertables (s : Definitions) : List Hypertable :=
  (s.hypertables.insertionSort fun a b => a.id ≤ b.id).map HypertableRow.hypertable

/-- `create_hypertable`: nothing is sent of a schema that does not parse, or with a sort key that
does not fit it.  The name is unique. -/
def createHypertable (s : Definitions) (name : String) (tableSchema partitionSpec : Json)
    (sortKey : List String) (packingKey : String) :
    Except TableError HypertableId × Definitions :=
  match TableColumns.parse tableSchema with
  | .error e => (.error (.schema e), s)
  | .ok cols =>
    match validateSortKey cols.physicalSchema sortKey packingKey none with
    | .error e => (.error (.sortKey e), s)
    | .ok () =>
      let drawn := { s with nextHypertable := s.nextHypertable + 1 }
      if name ∈ s.hypertables.map HypertableRow.name then (.error (.db .permanent), drawn)
      else
        (.ok s.nextHypertable, { drawn with hypertables := s.hypertables ++
          [⟨s.nextHypertable, name, tableSchema, partitionSpec, sortKey, packingKey, none⟩] })

/-- `create_logical_table`: the name is unique in its namespace, and the hypertable exists. -/
def createLogicalTable (s : Definitions) (ns : NamespaceId) (name : String)
    (hypertableId : HypertableId) : Except TableError Int × Definitions :=
  let drawn := { s with nextLogical := s.nextLogical + 1 }
  if (ns, name) ∈ s.logicalTables.map (fun l => (l.namespaceId, l.name)) ∨
      hypertableId ∉ s.hypertables.map HypertableRow.id then (.error (.db .permanent), drawn)
  else
    (.ok s.nextLogical, { drawn with
      logicalTables := s.logicalTables ++ [⟨s.nextLogical, ns, name, hypertableId, none⟩] })

/-- `set_placement`: a row with a target below 0 is refused.  No row is no error. -/
def setPlacement (s : Definitions) (id : HypertableId) (placement : Placement) :
    Except TableError Unit × Definitions :=
  if id ∈ s.hypertables.map HypertableRow.id ∧ ∃ n ∈ placement.toDb, n < 0 then
    (.error (.db .permanent), s)
  else
    (.ok (), { s with hypertables := s.hypertables.map fun r =>
      if r.id = id then { r with targetFileBytes := placement.toDb } else r })

end Definitions

inductive Request where
  | getHypertable (name : String)
  | getHypertableById (id : HypertableId)
  | getLogicalTable (ns : NamespaceId) (name : String)
  | listLogicalTables (ns : NamespaceId)
  | listHypertables
  | createHypertable (name : String) (tableSchema partitionSpec : Json) (sortKey : List String)
      (packingKey : String)
  | createLogicalTable (ns : NamespaceId) (name : String) (hypertableId : HypertableId)
  | setPlacement (id : HypertableId) (placement : Placement)

/-- What a call returns if it succeeds. -/
abbrev Request.Value : Request → Type
  | .getHypertable _ | .getHypertableById _ => Hypertable
  | .getLogicalTable _ _ => LogicalTable
  | .listLogicalTables _ => List LogicalTable
  | .listHypertables => List Hypertable
  | .createHypertable .. => HypertableId
  | .createLogicalTable .. => Int
  | .setPlacement _ _ => Unit

abbrev Request.Answer (r : Request) : Type := Except TableError r.Value

namespace Definitions

/-- The call, carried out and answered. -/
def answer (s : Definitions) : (r : Request) → r.Answer × Definitions
  | .getHypertable name => (s.getHypertable name, s)
  | .getHypertableById id => (s.getHypertableById id, s)
  | .getLogicalTable ns name => (s.getLogicalTable ns name, s)
  | .listLogicalTables ns => (.ok (s.listLogicalTables ns), s)
  | .listHypertables => (.ok s.listHypertables, s)
  | .createHypertable name tableSchema partitionSpec sortKey packingKey =>
    s.createHypertable name tableSchema partitionSpec sortKey packingKey
  | .createLogicalTable ns name hypertableId => s.createLogicalTable ns name hypertableId
  | .setPlacement id placement => s.setPlacement id placement

/-- What is left of a statement that is rolled back: the id it has drawn. -/
def rolledBack (s : Definitions) : Request → Definitions
  | .createHypertable .. => { s with nextHypertable := s.nextHypertable + 1 }
  | .createLogicalTable .. => { s with nextLogical := s.nextLogical + 1 }
  | _ => s

/-- What a caller may be told of a call, and what has become of it. -/
inductive Answers : Definitions → (r : Request) → r.Answer → Definitions → Prop
  | answered (s : Definitions) (r : Request) : Answers s r (s.answer r).1 (s.answer r).2
  /-- The statement did not get to the database. -/
  | unsent (s : Definitions) (r : Request) (f : DbFailure) : Answers s r (.error (.db f)) s
  | aborted (s : Definitions) (r : Request) (f : DbFailure) :
    Answers s r (.error (.db f)) (s.rolledBack r)
  /-- It was carried out, and the answer was lost. -/
  | lost (s : Definitions) (r : Request) (f : DbFailure) :
    Answers s r (.error (.db f)) (s.answer r).2

/-! ## 3. What the constraints keep -/

/-- The constraints of the tables. -/
structure Wf (s : Definitions) : Prop where
  ids : (s.hypertables.map HypertableRow.id).Nodup
  id_lt : ∀ r ∈ s.hypertables, r.id < s.nextHypertable
  names : (s.hypertables.map HypertableRow.name).Nodup
  logical : (s.logicalTables.map fun l => (l.namespaceId, l.name)).Nodup
  references : ∀ l ∈ s.logicalTables, l.hypertableId ∈ s.hypertables.map HypertableRow.id

/-- A logical table is a view of the hypertable of its name. -/
def Linked (s : Definitions) : Prop :=
  ∀ l ∈ s.logicalTables, ∃ r ∈ s.hypertables, r.id = l.hypertableId ∧ r.name = l.name

/-- What `s` defines is still defined in `s'`, and the hypertables below an id are as they were. -/
structure Grows (old : HypertableId) (s s' : Definitions) : Prop where
  wf : s'.Wf
  rows : ∀ r ∈ s.hypertables, ∃ r' ∈ s'.hypertables, r'.definition = r.definition
  kept : ∀ r ∈ s.hypertables, r.id < old → r ∈ s'.hypertables
  logical : ∀ l ∈ s.logicalTables, l ∈ s'.logicalTables
  next : s.nextHypertable ≤ s'.nextHypertable
  linked : s.Linked → s'.Linked

variable {s s' s'' : Definitions} {old : HypertableId}

theorem Wf.grows (h : s.Wf) : Grows old s s :=
  ⟨h, fun r hr => ⟨r, hr, rfl⟩, fun _ hr _ => hr, fun _ hl => hl, le_rfl, id⟩

theorem Grows.trans (h : Grows old s s') (h' : Grows old s' s'') : Grows old s s'' where
  wf := h'.wf
  rows r hr := by
    obtain ⟨r₁, hr₁, he₁⟩ := h.rows r hr
    obtain ⟨r₂, hr₂, he₂⟩ := h'.rows r₁ hr₁
    exact ⟨r₂, hr₂, he₂.trans he₁⟩
  kept r hr hlt := h'.kept r (h.kept r hr hlt) hlt
  logical l hl := h'.logical l (h.logical l hl)
  next := h.next.trans h'.next
  linked hl := h'.linked (h.linked hl)

/-- What identifies a row stays. -/
theorem Grows.row (h : Grows old s s') {r : HypertableRow} (hr : r ∈ s.hypertables) :
    ∃ r' ∈ s'.hypertables, r'.id = r.id ∧ r'.name = r.name := by
  obtain ⟨r', hr', he⟩ := h.rows r hr
  exact ⟨r', hr', HypertableRow.eq_of_definition he⟩

/-- A sequence that has moved on. -/
theorem Wf.drawn (h : s.Wf) {next : HypertableId} (hnext : s.nextHypertable ≤ next)
    (logical : Int) : Grows old s { s with nextHypertable := next, nextLogical := logical } :=
  ⟨{ h with id_lt := fun r hr => (h.id_lt r hr).trans_le hnext }, fun r hr => ⟨r, hr, rfl⟩,
    fun _ hr _ => hr, fun _ hl => hl, hnext, id⟩

theorem Wf.createHypertable (h : s.Wf) (name : String) (tableSchema partitionSpec : Json)
    (sortKey : List String) (packingKey : String) :
    Grows old s (s.createHypertable name tableSchema partitionSpec sortKey packingKey).2 := by
  unfold Definitions.createHypertable
  split
  · exact h.grows
  · split
    · exact h.grows
    · have hdrawn : Grows old s _ := h.drawn (Int.le.intro 1 rfl) s.nextLogical
      simp only
      split
      · exact hdrawn
      · rename_i hname
        refine ⟨⟨?_, ?_, ?_, h.logical, ?_⟩, fun r hr => ⟨r, List.mem_append_left _ hr, rfl⟩,
          fun r hr _ => List.mem_append_left _ hr, fun _ hl => hl, hdrawn.next, ?_⟩
        · rw [List.map_append, List.map_singleton]
          refine List.nodup_append.mpr ⟨h.ids, List.nodup_singleton _, ?_⟩
          rintro a ha b hb rfl
          obtain ⟨r, hr, rfl⟩ := List.mem_map.mp ha
          exact (h.id_lt r hr).ne (List.mem_singleton.mp hb)
        · intro r hr
          rcases List.mem_append.mp hr with hr | hr
          · exact (h.id_lt r hr).trans (Int.lt_succ _)
          · rw [List.mem_singleton.mp hr]
            exact Int.lt_succ _
        · rw [List.map_append, List.map_singleton]
          refine List.nodup_append.mpr ⟨h.names, List.nodup_singleton _, ?_⟩
          rintro a ha b hb rfl
          obtain rfl : a = name := List.mem_singleton.mp hb
          exact hname ha
        · intro l hl
          rw [List.map_append]
          exact List.mem_append_left _ (h.references l hl)
        · intro hlinked l hl
          obtain ⟨r, hr, he⟩ := hlinked l hl
          exact ⟨r, List.mem_append_left _ hr, he⟩

/-- A logical table is created for the hypertable of its name. -/
theorem Wf.createLogicalTable (h : s.Wf) (ns : NamespaceId) {r : HypertableRow}
    (hr : r ∈ s.hypertables) : Grows old s (s.createLogicalTable ns r.name r.id).2 := by
  unfold Definitions.createLogicalTable
  have hdrawn : Grows old s _ := h.drawn le_rfl (s.nextLogical + 1)
  simp only
  split
  · exact hdrawn
  · rename_i hnew
    rw [not_or, not_not] at hnew
    refine ⟨⟨h.ids, h.id_lt, h.names, ?_, ?_⟩, hdrawn.rows, hdrawn.kept,
      fun l hl => List.mem_append_left _ hl, le_rfl, ?_⟩
    · rw [List.map_append, List.map_singleton]
      refine List.nodup_append.mpr ⟨h.logical, List.nodup_singleton _, ?_⟩
      rintro a ha b hb rfl
      exact hnew.1 (List.mem_singleton.mp hb ▸ ha)
    · intro l hl
      rcases List.mem_append.mp hl with hl | hl
      · exact h.references l hl
      · rw [List.mem_singleton.mp hl]
        exact hnew.2
    · intro hlinked l hl
      rcases List.mem_append.mp hl with hl | hl
      · exact hlinked l hl
      · rw [List.mem_singleton.mp hl]
        exact ⟨r, hr, rfl, rfl⟩

/-- A placement is set on a hypertable that is not one of the old ones. -/
theorem Wf.setPlacement (h : s.Wf) {id : HypertableId} (hid : old ≤ id) (placement : Placement) :
    Grows old s (s.setPlacement id placement).2 := by
  unfold Definitions.setPlacement
  split
  · exact h.grows
  · set place := fun r : HypertableRow =>
      if r.id = id then { r with targetFileBytes := placement.toDb } else r
    have hdef : ∀ r, (place r).definition = r.definition := by
      intro r
      unfold place
      split <;> rfl
    have hids : (s.hypertables.map place).map HypertableRow.id =
        s.hypertables.map HypertableRow.id := by
      rw [List.map_map]
      exact List.map_congr_left fun r _ => (HypertableRow.eq_of_definition (hdef r)).1
    have hnames : (s.hypertables.map place).map HypertableRow.name =
        s.hypertables.map HypertableRow.name := by
      rw [List.map_map]
      exact List.map_congr_left fun r _ => (HypertableRow.eq_of_definition (hdef r)).2
    refine ⟨⟨hids ▸ h.ids, ?_, hnames ▸ h.names, h.logical, fun l hl => hids ▸ h.references l hl⟩,
      fun r hr => ⟨place r, List.mem_map_of_mem hr, hdef r⟩, ?_, fun _ hl => hl, le_rfl, ?_⟩
    · intro r' hr'
      obtain ⟨r, hr, rfl⟩ := List.mem_map.mp hr'
      exact (HypertableRow.eq_of_definition (hdef r)).1.trans_lt (h.id_lt r hr)
    · intro r hr hlt
      have hplace : place r = r := if_neg (hlt.trans_le hid).ne
      exact hplace ▸ List.mem_map_of_mem hr
    · intro hlinked l hl
      obtain ⟨r, hr, hrid, hrname⟩ := hlinked l hl
      obtain ⟨hid', hname'⟩ := HypertableRow.eq_of_definition (hdef r)
      exact ⟨place r, List.mem_map_of_mem hr, hid'.trans hrid, hname'.trans hrname⟩

/-- What a process may ask for that leaves the old hypertables alone and keeps to the names. -/
def Allowed (old : HypertableId) (s : Definitions) : Request → Prop
  | .createLogicalTable _ name hypertableId =>
    ∃ r ∈ s.hypertables, r.id = hypertableId ∧ r.name = name
  | .setPlacement id _ => old ≤ id
  | _ => True

/-- **Nothing is deleted or altered** by a call that is allowed, whatever becomes of it. -/
theorem Answers.grows {r : Request} {a : r.Answer} (h : s.Wf) (hr : s.Allowed old r)
    (ha : Answers s r a s') : Grows old s s' := by
  have hanswer : Grows old s (s.answer r).2 := by
    cases r with
    | createHypertable name tableSchema partitionSpec sortKey packingKey =>
      exact h.createHypertable name tableSchema partitionSpec sortKey packingKey
    | createLogicalTable ns name hypertableId =>
      obtain ⟨row, hrow, rfl, rfl⟩ := hr
      exact h.createLogicalTable ns hrow
    | setPlacement id placement => exact h.setPlacement hr placement
    | _ => exact h.grows
  cases ha with
  | answered => exact hanswer
  | unsent => exact h.grows
  | aborted =>
    cases r with
    | createHypertable => exact h.drawn (Int.le.intro 1 rfl) s.nextLogical
    | createLogicalTable => exact h.drawn le_rfl (s.nextLogical + 1)
    | _ => exact h.grows
  | lost => exact hanswer

/-- A call that succeeded was carried out. -/
theorem Answers.ok {r : Request} {a : r.Answer} (ha : Answers s r a s') {v : r.Value}
    (hv : a = .ok v) : (s.answer r).1 = .ok v ∧ s' = (s.answer r).2 := by
  cases ha with
  | answered => exact ⟨hv, rfl⟩
  | _ => cases hv

end Definitions

end Catalog

end Ukiel
