/-
# Bootstrapping tables

`ukield/src/bootstrap.rs`: `apply`, which every process runs when it starts, and runs again when
the catalog did not answer.  Processes start, stop and fail at any time, so that any number of
boots are under way at once, each of them anywhere in its loop.

* `apply_keeps`: whatever boots do, they alter nothing that was there, and a boot that has
  succeeded has found or made all that its configuration names.
* `apply_again`: from then on the same boot does nothing.
* `apply_defines`: what a boot makes that has the catalog for itself.
* `placement_lost`: what a boot does not do again.
-/
import Ukiel.Catalog.Callers
import Ukiel.Expr.Defaults

namespace Ukiel.Daemon
open Ukiel.Catalog Ukiel.Catalog.Definitions Ukiel.Expr

/-! ## 1. Configuration -/

structure ColumnConfig where
  name : String
  typeName : String
  nullable : Option Bool := none
  default : Option String := none
  materialized : Option String := none
  aliased : Option String := none

/-- A table of the configuration.  Its topic is not for the catalog. -/
structure TableConfig where
  name : String
  tsColumn : String
  packingKey : String
  sortKey : List String
  partitionColumns : List String := []
  placement : Option String := none
  targetFileMb : Option UInt64 := none
  /-- The namespaces that get a logical table of the name. -/
  namespaces : List NamespaceId
  columns : List ColumnConfig

def ColumnConfig.json (c : ColumnConfig) : Json :=
  let opt (key : String) (v : Option String) : List (String × Json) :=
    v.toList.map fun e => (key, .str e)
  .obj (Json.ofEntries ([("name", .str c.name), ("type", .str c.typeName)] ++
    c.nullable.toList.map (fun n => ("nullable", .bool n)) ++ opt "default" c.default ++
    opt "materialized" c.materialized ++ opt "alias" c.aliased))

/-- `schema_json`. -/
def TableConfig.schemaJson (t : TableConfig) : Json :=
  .obj [("fields", .arr (t.columns.map ColumnConfig.json))]

/-- `partition_spec`. -/
def TableConfig.partitionSpec (t : TableConfig) : Json :=
  .obj [("columns", .arr (t.partitionColumns.map .str))]

inductive BootstrapError where
  | invalidSchema (table : String) (e : ExprError)
  | parsing (table : String) (e : SchemaError)
  | invalidSortKey (table : String) (e : SortKeyError)
  | creating (table : String) (e : TableError)
  | creatingLogical (table : String) (ns : NamespaceId) (e : TableError)
  /-- `placement` and `target_file_mb` are mutually exclusive. -/
  | exclusive (table : String)
  | unknownPlacement (table placement : String)
  | catalog (e : TableError)
deriving DecidableEq

/-- `placement_from`.  The bytes are an `i64`, which wraps, as it does in a build without overflow
checks (`--release`); one with them panics. -/
def TableConfig.placementFrom (t : TableConfig) : Except BootstrapError Placement :=
  match t.placement, t.targetFileMb with
  | some _, some _ => .error (.exclusive t.name)
  | _, some mb => .ok (.sizeTargeted (((mb.toNat : Int) * 1024 * 1024).bmod (2 ^ 64)))
  | some "separated", none => .ok .separated
  | some "packed", none | none, none => .ok .packed
  | some other, none => .error (.unknownPlacement t.name other)

/-- What `apply` asks of a table before it looks at the catalog. -/
def TableConfig.check (compiles : String → Schema → Field → Bool) (t : TableConfig) :
    Except BootstrapError Unit := do
  let _ ← (validateTableSchema compiles t.schemaJson).mapError (.invalidSchema t.name)
  let cols ← (TableColumns.parse t.schemaJson).mapError (.parsing t.name)
  (validateSortKey cols.physicalSchema t.sortKey t.packingKey (some t.tsColumn)).mapError
    (.invalidSortKey t.name)

/-! ## 2. `apply` -/

/-- A boot, which calls the catalog. -/
abbrev Boot := Caller BootstrapError

def createTable (t : TableConfig) : Boot Hypertable := do
  let id ← call (.createHypertable t.name t.schemaJson t.partitionSpec t.sortKey t.packingKey)
    (.creating t.name)
  let placement ← ExceptT.mk (pure t.placementFrom)
  if placement ≠ .packed then
    call (.setPlacement id placement) .catalog
  call (.getHypertable t.name) .catalog

def ensureHypertable (t : TableConfig) : Boot Hypertable := do
  match ← Program.ask (.getHypertable t.name) with
  | .ok existing => pure existing
  | .error (.notFound _) => createTable t
  | .error e => throw (.catalog e)

def ensureLogicalTable (t : TableConfig) (id : HypertableId) (ns : NamespaceId) : Boot Unit := do
  match ← Program.ask (.getLogicalTable ns t.name) with
  | .ok _ => pure ()
  | .error (.notFound _) =>
    let _ ← call (.createLogicalTable ns t.name id) (.creatingLogical t.name ns)
  | .error e => throw (.catalog e)

/-- A round of `apply`. -/
def applyTable (compiles : String → Schema → Field → Bool) (t : TableConfig) : Boot Unit := do
  ExceptT.mk (pure (t.check compiles))
  let hypertable ← ensureHypertable t
  t.namespaces.forM (ensureLogicalTable t hypertable.id)

def apply (compiles : String → Schema → Field → Bool) (tables : List TableConfig) : Boot Unit :=
  tables.forM (applyTable compiles)

/-! ## 3. Boots at once -/

section Ensures

variable {old : HypertableId} {s s' : Definitions} {compiles : String → Schema → Field → Bool}

theorem ensures_createTable (t : TableConfig) (hs : Settled old s) :
    Ensures old (createTable t) (fun h => Known t.name h.id) s := by
  -- the id is a new one, so that the placement of no old table is set
  have hcreate : ∀ s' id, s.Grows old s' → Settled old s' →
      (s'.createHypertable t.name t.schemaJson t.partitionSpec t.sortKey t.packingKey).1 = .ok id →
        old ≤ id := by
    intro s' id _ hs' hid
    unfold Definitions.createHypertable at hid
    split at hid
    · cases hid
    · split at hid
      · cases hid
      · simp only at hid
        split at hid
        · cases hid
        · cases hid
          exact hs'.2
  have hget : ∀ s, Settled old s → Ensures old (call (.getHypertable t.name) BootstrapError.catalog)
      (fun h => Known t.name h.id) s := fun s hs =>
    ensures_call hs (fun _ _ => trivial) (fun _ _ _ _ => known_of_getHypertable)
      fun h => known_stable t.name h.id
  refine .bind hs (ensures_call (r := .createHypertable t.name t.schemaJson t.partitionSpec
    t.sortKey t.packingKey) (Q := fun id _ => old ≤ id) hs (fun _ _ => trivial) hcreate
    fun _ _ _ _ h => h) fun id s₁ _ hs₁ hid => ?_
  refine .bind hs₁ (ensures_except hs₁) fun placement s₂ _ hs₂ _ => ?_
  simp only
  split
  · exact .bind hs₂ (ensures_call (r := .setPlacement id placement) (Q := fun _ _ => True) hs₂
      (fun _ _ => hid) (fun _ _ _ _ _ => trivial) fun _ _ _ _ h => h) fun _ s₃ _ hs₃ _ => hget s₃ hs₃
  · exact hget s₂ hs₂

theorem ensures_ensureHypertable (t : TableConfig) (hs : Settled old s) :
    Ensures old (ensureHypertable t) (fun h => Known t.name h.id) s := by
  refine .bind hs (ensures_ask (r := .getHypertable t.name) (Q := fun h => Known t.name h.id) hs
    (fun _ _ => trivial) (fun _ _ _ _ => known_of_getHypertable)
    fun h => known_stable t.name h.id) fun a s₁ _ hs₁ ha => ?_
  split
  · rename_i existing
    exact ensures_pure hs₁ (ha existing rfl) (known_stable t.name existing.id)
  · exact ensures_createTable t hs₁
  · exact ensures_throw

theorem ensures_ensureLogicalTable (t : TableConfig) {id : HypertableId} (ns : NamespaceId)
    (hs : Settled old s) (hid : Known t.name id s) :
    Ensures old (ensureLogicalTable t id ns) (fun _ => Viewed t.name ns) s := by
  have hcreate : ∀ s' v, Settled old s' → (s'.createLogicalTable ns t.name id).1 = .ok v →
      Viewed t.name ns (s'.createLogicalTable ns t.name id).2 := by
    intro s' v _ hv
    unfold Definitions.createLogicalTable at hv ⊢
    simp only at hv ⊢
    split at hv
    · cases hv
    · rename_i hnew
      rw [if_neg hnew]
      exact ⟨_, List.mem_append_right _ (List.mem_singleton_self _), rfl, rfl⟩
  refine .bind hs (ensures_ask (r := .getLogicalTable ns t.name) (Q := fun _ => Viewed t.name ns) hs
    (fun _ _ => trivial) (fun _ _ _ _ => viewed_of_getLogicalTable)
    fun _ => viewed_stable t.name ns) fun a s₁ hgrows₁ hs₁ ha => ?_
  split
  · rename_i l
    exact ensures_pure hs₁ (ha l rfl) (viewed_stable t.name ns)
  · exact .bind hs₁ (ensures_call (r := .createLogicalTable ns t.name id)
      (Q := fun _ => Viewed t.name ns) hs₁
      (fun s₂ hgrows₂ => known_stable t.name id _ _ (hgrows₁.trans hgrows₂) hid)
      (fun s' v _ => hcreate s' v) fun _ => viewed_stable t.name ns) fun _ s₂ _ hs₂ hv =>
        ensures_pure hs₂ hv (viewed_stable t.name ns)
  · exact ensures_throw

/-- The hypertable of a table, and its logical tables, are there. -/
def Present (t : TableConfig) (s : Definitions) : Prop :=
  (∃ id, Known t.name id s) ∧ ∀ ns ∈ t.namespaces, Viewed t.name ns s

theorem present_stable (t : TableConfig) : Stable old (Present t) :=
  fun s s' hgrows ⟨⟨id, hid⟩, hviews⟩ => ⟨⟨id, known_stable t.name id s s' hgrows hid⟩,
    fun ns hns => viewed_stable t.name ns s s' hgrows (hviews ns hns)⟩

theorem ensures_applyTable (t : TableConfig) (hs : Settled old s) :
    Ensures old (applyTable compiles t) (fun _ s => t.check compiles = .ok () ∧ Present t s) s := by
  refine .bind hs (ensures_except hs) fun _ s₁ _ hs₁ hcheck => ?_
  refine .bind hs₁ (ensures_ensureHypertable t hs₁) fun h s₂ _ hs₂ hid => ?_
  have hloop : Ensures old (t.namespaces.forM (ensureLogicalTable t h.id))
      (fun _ s => ∀ ns ∈ t.namespaces, Viewed t.name ns s) s₂ :=
    ensures_forM (viewed_stable t.name) t.namespaces hs₂ fun ns _ s₃ hs₃ hgrows =>
      ensures_ensureLogicalTable t ns hs₃ (known_stable t.name h.id s₂ s₃ hgrows hid)
  refine (hloop.and hs₂ (known_stable t.name h.id) hid).mono fun _ s₃ hb b he => ?_
  obtain ⟨hs₃, hknown, hviews⟩ := hb b he
  exact ⟨hs₃, hcheck, ⟨h.id, hknown⟩, hviews⟩

/-- **A boot among others.** -/
theorem ensures_apply (tables : List TableConfig) (hs : Settled old s) :
    Ensures old (apply compiles tables)
      (fun _ s => ∀ t ∈ tables, t.check compiles = .ok () ∧ Present t s) s :=
  ensures_forM (fun t s s' hgrows h => ⟨h.1, present_stable t s s' hgrows h.2⟩) tables hs
    fun t _ _ hs' _ => ensures_applyTable t hs'

end Ensures

/-- The catalog, and processes that boot. -/
abbrev Boots :=
  Pool Definitions Request Request.Answer fun _ : Nat => Except BootstrapError Unit

section Boots

variable {compiles : String → Schema → Field → Bool} {boots : Nat → List TableConfig}
  {s : Definitions} {c : Boots}

/-- Processes that boot at once, each with a configuration of its own. -/
abbrev booting (compiles : String → Schema → Field → Bool) (boots : Nat → List TableConfig)
    (s : Definitions) : Boots :=
  ⟨s, fun i => (apply compiles (boots i)).run⟩

theorem boots_grow (hwf : s.Wf) (hrun : Pool.Run Definitions.Answers (booting compiles boots s) c) :
    s.Grows s.nextHypertable c.state :=
  (Pool.run_meets (Discipline.refl _) (Discipline.trans _) hrun
    fun i => ensures_apply (boots i) ⟨hwf, le_rfl⟩).1 ⟨hwf, le_rfl⟩

theorem boot_done (hwf : s.Wf) (hrun : Pool.Run Definitions.Answers (booting compiles boots s) c)
    {i : Nat} (hi : c.procs i = .pure (.ok ())) :
    ∀ t ∈ boots i, t.check compiles = .ok () ∧ Present t c.state :=
  (Pool.run_done (Discipline.refl _) (Discipline.trans _) hrun
    (fun i => ensures_apply (boots i) ⟨hwf, le_rfl⟩) hi () rfl).2

/-- **Boots at once**, of any configurations: they start, fail and are dropped at any time, and are
told anything of what they have called. -/
theorem apply_keeps (hwf : s.Wf)
    (hrun : Pool.Run Definitions.Answers (booting compiles boots s) c) :
    (∀ r ∈ s.hypertables, r ∈ c.state.hypertables) ∧
    (∀ l ∈ s.logicalTables, l ∈ c.state.logicalTables) ∧
    (s.Linked → c.state.Linked) ∧
    ∀ i, c.procs i = .pure (.ok ()) → ∀ t ∈ boots i, Present t c.state := by
  have hgrows := boots_grow hwf hrun
  exact ⟨fun r hr => hgrows.kept r hr (hwf.id_lt r hr), hgrows.logical, hgrows.linked,
    fun i hi t ht => (boot_done hwf hrun hi t ht).2⟩

/-- A table of two tenants, each of whose rows are to have files of their own. -/
def clicks : TableConfig where
  name := "clicks"
  tsColumn := "ts"
  packingKey := "tenant_id"
  sortKey := ["tenant_id", "ts"]
  placement := some "separated"
  namespaces := [smallI64 1, smallI64 2]
  columns := [{ name := "tenant_id", typeName := "int64" },
    { name := "ts", typeName := "timestamp_ms" }]

theorem empty_wf : ({} : Definitions).Wf := ⟨by simp, by simp, by simp, by simp, by simp⟩

/-- The first process boots, and the others have yet to. -/
theorem clicks_booted : ∃ c, Pool.Run Definitions.Answers
    (booting (fun _ _ _ => true) (fun _ => [clicks]) {}) c ∧ c.procs 0 = .pure (.ok ()) := by
  have hrun := Pool.run_exec (fun s r => Definitions.Answers.answered s r) 0
    (c := booting (fun _ _ _ => true) (fun _ => [clicks]) {}) rfl
  refine ⟨_, hrun, ?_⟩
  have hok : ((apply (fun _ _ _ => true) [clicks]).run.exec Definitions.answer {}).1 = .ok () := by
    decide +kernel
  simp [hok]

/-- A table that is packed. -/
def orders : TableConfig := { clicks with name := "orders", placement := none }

/-- The catalog after a boot that has made it. -/
def stocked : Definitions := (alone (apply (fun _ _ _ => true) [orders]) {}).2

theorem stocked_wf : stocked.Wf :=
  ⟨by decide +kernel, by decide +kernel, by decide +kernel, by decide +kernel, by decide +kernel⟩

/-- The boot of one table that has looked for it. -/
def slower : Program Request Request.Answer (Except BootstrapError Unit) × Definitions :=
  (apply (fun _ _ _ => true) [clicks]).run.after Definitions.answer 1 stocked

/-- The boot of both tables that runs next. -/
def faster : Except BootstrapError Unit × Definitions :=
  alone (apply (fun _ _ _ => true) [orders, clicks]) slower.2

/-- A boot has not found a table, another makes it meanwhile, and the first fails. -/
theorem clicks_contended : ∃ c, Pool.Run Definitions.Answers (booting (fun _ _ _ => true)
    (fun i => if i = 0 then [orders, clicks] else [clicks]) stocked) c ∧
    c.procs 0 = .pure (.ok ()) ∧ ∃ e, c.procs 1 = .pure (.error e) := by
  have hanswered : ∀ s r, Definitions.Answers s r (Definitions.answer s r).1
      (Definitions.answer s r).2 := fun s r => Definitions.Answers.answered s r
  obtain ⟨c₁, hasked, hstate₁, hother, hslower⟩ : ∃ c₁ : Boots, Pool.Run Definitions.Answers
      (booting (fun _ _ _ => true) (fun i => if i = 0 then [orders, clicks] else [clicks])
        stocked) c₁ ∧ c₁.state = slower.2 ∧
      c₁.procs 0 = (apply (fun _ _ _ => true) [orders, clicks]).run ∧ c₁.procs 1 = slower.1 :=
    ⟨_, Pool.run_after hanswered 1 1 rfl, rfl, by simp, by simp [slower]⟩
  have hmade := Pool.run_exec hanswered 0 hother
  obtain ⟨c₂, hmade, hstate₂, hdone, hslower⟩ : ∃ c₂, Pool.Run Definitions.Answers c₁ c₂ ∧
      c₂.state = faster.2 ∧ c₂.procs 0 = .pure faster.1 ∧ c₂.procs 1 = slower.1 :=
    ⟨_, hmade, by rw [hstate₁]; rfl, by simp [hstate₁, faster], by simp [hslower]⟩
  have hfailed := Pool.run_exec hanswered 1 hslower
  have hok : faster.1 = .ok () := by decide +kernel
  have herror : (slower.1.exec Definitions.answer faster.2).1.toOption = none := by decide +kernel
  rw [hstate₂] at hfailed
  refine ⟨_, (hasked.trans hmade).trans hfailed, by simp [hdone, hok], ?_⟩
  simp only [Function.update_self]
  revert herror
  rcases (slower.1.exec Definitions.answer faster.2).1 with e | u
  · exact fun _ => ⟨e, rfl⟩
  · exact fun h => nomatch h

theorem apply_keeps_clicks : ∃ c, Pool.Run Definitions.Answers (booting (fun _ _ _ => true)
    (fun i => if i = 0 then [orders, clicks] else [clicks]) stocked) c ∧
    (∃ e, c.procs 1 = .pure (.error e)) ∧
    stocked.hypertables.map HypertableRow.name = ["orders"] ∧
    (∀ r ∈ stocked.hypertables, r ∈ c.state.hypertables) ∧
    (∀ l ∈ stocked.logicalTables, l ∈ c.state.logicalTables) ∧ c.state.Linked ∧
    Present orders c.state ∧ Present clicks c.state := by
  obtain ⟨c, hrun, hok, hfailed⟩ := clicks_contended
  obtain ⟨hrows, hviews, hlinked, hpresent⟩ := apply_keeps stocked_wf hrun
  have hstocked : stocked.Linked := by
    unfold Definitions.Linked
    decide +kernel
  exact ⟨c, hrun, hfailed, by decide +kernel, hrows, hviews, hlinked hstocked,
    hpresent 0 hok orders (by simp), hpresent 0 hok clicks (by simp)⟩

end Boots

/-! ## 4. A boot alone -/

section Alone

variable {compiles : String → Schema → Field → Bool} {t : TableConfig} {s s' : Definitions}
  {β : Type}

theorem alone_ensureHypertable_of_known {id : HypertableId} (hid : Known t.name id s) :
    ∃ h, alone (ensureHypertable t) s = (.ok h, s) ∧ Known t.name h.id s := by
  obtain ⟨h, hget⟩ := getHypertable_of_known hid
  refine ⟨h, (Program.exec_run_bind_eq_ok _).mpr ⟨.ok h, s, ?_, rfl⟩, known_of_getHypertable hget⟩
  exact congrArg (fun r => (Except.ok r, s)) hget

/-- **A table that is there** is left alone. -/
theorem alone_applyTable (hcheck : t.check compiles = .ok ()) (h : Present t s) :
    alone (applyTable compiles t) s = (.ok (), s) := by
  obtain ⟨⟨id, hid⟩, hviews⟩ := h
  obtain ⟨hypertable, hensure, -⟩ := alone_ensureHypertable_of_known hid
  refine (Program.exec_run_bind_eq_ok _).mpr ⟨(), s, alone_except.mpr ⟨hcheck, rfl⟩, ?_⟩
  refine (Program.exec_run_bind_eq_ok _).mpr ⟨hypertable, s, hensure, ?_⟩
  refine Program.exec_forM_eq_self _ fun ns hns => ?_
  obtain ⟨l, hl⟩ := getLogicalTable_of_viewed (hviews ns hns)
  refine (Program.exec_run_bind_eq_ok _).mpr ⟨.ok l, s, ?_, rfl⟩
  exact congrArg (fun r => (Except.ok r, s)) hl

/-- The row of a new hypertable. -/
def TableConfig.row (t : TableConfig) (id : HypertableId) : HypertableRow :=
  ⟨id, t.name, t.schemaJson, t.partitionSpec, t.sortKey, t.packingKey, none⟩

/-- The catalog with the new hypertable, before its placement is set. -/
def created (t : TableConfig) (s : Definitions) : Definitions :=
  { s with
    nextHypertable := s.nextHypertable + 1
    hypertables := s.hypertables ++ [t.row s.nextHypertable] }

/-- The row is the table's, as the configuration has it. -/
def Made (t : TableConfig) (r : HypertableRow) : Prop :=
  ∃ placement, t.placementFrom = .ok placement ∧
    r = { t.row r.id with targetFileBytes := placement.toDb }

theorem Made.name {r : HypertableRow} (h : Made t r) : r.name = t.name := by
  obtain ⟨_, -, hr⟩ := h
  rw [hr]
  rfl

theorem createHypertable_eq_ok {id : HypertableId}
    (h : s.createHypertable t.name t.schemaJson t.partitionSpec t.sortKey t.packingKey =
      (.ok id, s')) :
    id = s.nextHypertable ∧ s' = created t s := by
  unfold Definitions.createHypertable at h
  split at h
  · cases h
  · split at h
    · cases h
    · simp only at h
      split at h
      · cases h
      · cases h
        exact ⟨rfl, rfl⟩

theorem setPlacement_eq_ok {id : HypertableId} {placement : Placement} {u : Unit}
    (h : s.setPlacement id placement = (.ok u, s')) :
    s' = { s with hypertables := s.hypertables.map fun r =>
      if r.id = id then { r with targetFileBytes := placement.toDb } else r } := by
  unfold Definitions.setPlacement at h
  split at h
  · cases h
  · cases h
    rfl

/-- **A table that was not there** is made as the configuration has it. -/
theorem alone_createTable (hwf : s.Wf) {h : Hypertable}
    (hexec : alone (createTable t) s = (.ok h, s')) :
    ∃ r, Made t r ∧ s'.hypertables = s.hypertables ++ [r] ∧ s'.logicalTables = s.logicalTables := by
  obtain ⟨id, s₁, hcreate, hexec⟩ := (Program.exec_run_bind_eq_ok _).mp hexec
  obtain ⟨rfl, rfl⟩ := createHypertable_eq_ok (alone_call.mp hcreate)
  obtain ⟨placement, s₂, hresolve, hexec⟩ := (Program.exec_run_bind_eq_ok _).mp hexec
  obtain ⟨hplacement, rfl⟩ := alone_except.mp hresolve
  -- what there was has smaller ids, so that only the new row is updated
  have hold : ∀ r ∈ s.hypertables, ¬ r.id = s.nextHypertable := fun r hr => (hwf.id_lt r hr).ne
  have hget : ∀ s₁, alone (call (.getHypertable t.name) BootstrapError.catalog) s₁ = (.ok h, s') →
      s' = s₁ := fun s₁ hs₁ => (Prod.mk.inj (alone_call.mp hs₁)).2.symm
  simp only at hexec
  split at hexec
  · obtain ⟨⟨⟩, s₂, hset, hexec⟩ := (Program.exec_run_bind_eq_ok _).mp hexec
    obtain rfl := setPlacement_eq_ok (alone_call.mp hset)
    obtain rfl := hget _ hexec
    refine ⟨{ t.row s.nextHypertable with targetFileBytes := placement.toDb },
      ⟨placement, hplacement, rfl⟩, ?_, rfl⟩
    refine List.map_append.trans (congrArg₂ _ ?_ (by simp [TableConfig.row]))
    exact (List.map_congr_left fun r hr => if_neg (hold r hr)).trans (List.map_id' _)
  · rename_i hpacked
    obtain rfl := hget _ hexec
    refine ⟨t.row s.nextHypertable, ⟨placement, hplacement, ?_⟩, rfl, rfl⟩
    rw [not_not.mp hpacked]
    rfl

theorem alone_ensureHypertable (hwf : s.Wf) {h : Hypertable}
    (hexec : alone (ensureHypertable t) s = (.ok h, s')) :
    s' = s ∨ (∀ r ∈ s.hypertables, r.name ≠ t.name) ∧ ∃ r, Made t r ∧
      s'.hypertables = s.hypertables ++ [r] ∧ s'.logicalTables = s.logicalTables := by
  obtain ⟨a, s₁, hask, hexec⟩ := (Program.exec_run_bind_eq_ok _).mp hexec
  obtain ⟨ha, rfl⟩ : s.getHypertable t.name = a ∧ s = s₁ := by
    cases hask
    exact ⟨rfl, rfl⟩
  split at hexec
  · cases hexec
    exact Or.inl rfl
  · refine Or.inr ⟨fun r hr hname => ?_, alone_createTable hwf hexec⟩
    obtain ⟨h', hget⟩ := getHypertable_of_known (s := s) ⟨r, hr, rfl, hname⟩
    rw [hget] at ha
    cases ha
  · cases hexec

theorem alone_ensureLogicalTable {id : HypertableId} {ns : NamespaceId}
    (hexec : alone (ensureLogicalTable t id ns) s = (.ok (), s')) :
    s'.hypertables = s.hypertables ∧ ∀ l ∈ s'.logicalTables, l ∈ s.logicalTables ∨
      l.name = t.name ∧ l.namespaceId = ns := by
  obtain ⟨a, s₁, hask, hexec⟩ := (Program.exec_run_bind_eq_ok _).mp hexec
  obtain rfl : s = s₁ := by
    cases hask
    rfl
  split at hexec
  · cases hexec
    exact ⟨rfl, fun l hl => Or.inl hl⟩
  · obtain ⟨id', s₁, hcreate, hexec⟩ := (Program.exec_run_bind_eq_ok _).mp hexec
    cases hexec
    have hanswer : s.createLogicalTable ns t.name id = (.ok id', s') := alone_call.mp hcreate
    unfold Definitions.createLogicalTable at hanswer
    simp only at hanswer
    split at hanswer
    · cases hanswer
    · cases hanswer
      refine ⟨rfl, fun l hl => (List.mem_append.mp hl).imp_right fun hl => ?_⟩
      rw [List.mem_singleton.mp hl]
      exact ⟨rfl, rfl⟩
  · cases hexec

theorem alone_ensureLogicalTables {id : HypertableId} {namespaces : List NamespaceId}
    (hexec : alone (namespaces.forM (ensureLogicalTable t id)) s = (.ok (), s')) :
    s'.hypertables = s.hypertables ∧ ∀ l ∈ s'.logicalTables, l ∈ s.logicalTables ∨
      l.name = t.name ∧ l.namespaceId ∈ namespaces := by
  refine Program.exec_forM_eq_ok Definitions.answer (I := fun done s₁ =>
    s₁.hypertables = s.hypertables ∧ ∀ l ∈ s₁.logicalTables, l ∈ s.logicalTables ∨
      l.name = t.name ∧ l.namespaceId ∈ done) ?_ ⟨rfl, fun l hl => Or.inl hl⟩ hexec
  rintro done ns s₁ s₂ ⟨hsame, hviews⟩ hround
  obtain ⟨hsame', hviews'⟩ := alone_ensureLogicalTable hround
  refine ⟨hsame'.trans hsame, fun l hl => ?_⟩
  rcases hviews' l hl with hl | ⟨hname, rfl⟩
  · exact (hviews l hl).imp_right fun h => ⟨h.1, List.mem_append_left _ h.2⟩
  · exact Or.inr ⟨hname, List.mem_append_right _ (List.mem_singleton_self _)⟩

/-- What a round of `apply` makes. -/
theorem alone_applyTable_eq_ok (hwf : s.Wf)
    (hexec : alone (applyTable compiles t) s = (.ok (), s')) :
    (s'.hypertables = s.hypertables ∨ (∀ r ∈ s.hypertables, r.name ≠ t.name) ∧
      ∃ r, Made t r ∧ s'.hypertables = s.hypertables ++ [r]) ∧
    ∀ l ∈ s'.logicalTables, l ∈ s.logicalTables ∨
      l.name = t.name ∧ l.namespaceId ∈ t.namespaces := by
  obtain ⟨⟨⟩, s₁, hcheck, hrest⟩ := (Program.exec_run_bind_eq_ok _).mp hexec
  obtain ⟨-, rfl⟩ := alone_except.mp hcheck
  obtain ⟨h, s₂, hmake, hloop⟩ := (Program.exec_run_bind_eq_ok _).mp hrest
  obtain ⟨hsame, hviews⟩ := alone_ensureLogicalTables hloop
  rcases alone_ensureHypertable hwf hmake with rfl | ⟨hnew, r, hr, hrows, hlogical⟩
  · exact ⟨Or.inl hsame, hviews⟩
  · exact ⟨Or.inr ⟨hnew, r, hr, hsame.trans hrows⟩, hlogical ▸ hviews⟩

end Alone

/-- **Once a boot has succeeded** it does nothing more, whatever other boots do meanwhile. -/
theorem apply_again {compiles : String → Schema → Field → Bool} {boots : Nat → List TableConfig}
    {s : Definitions} {c : Boots} {i : Nat}
    (hwf : s.Wf) (hrun : Pool.Run Definitions.Answers (booting compiles boots s) c)
    (hi : c.procs i = .pure (.ok ())) :
    alone (apply compiles (boots i)) c.state = (.ok (), c.state) := by
  refine Program.exec_forM_eq_self _ fun t ht => ?_
  obtain ⟨hcheck, hpresent⟩ := boot_done hwf hrun hi t ht
  exact alone_applyTable hcheck hpresent

theorem apply_again_clicks : ∃ s, Present clicks s ∧
    alone (apply (fun _ _ _ => true) [clicks]) s = (.ok (), s) := by
  obtain ⟨c, hrun, hok⟩ := clicks_booted
  exact ⟨c.state, (boot_done empty_wf hrun hok clicks (by simp)).2, apply_again empty_wf hrun hok⟩

/-- **What a boot makes** that has the catalog for itself: of the tables of its configuration
those that are not there, each as the first entry of its name has it, and nothing else. -/
theorem apply_defines {compiles : String → Schema → Field → Bool} {tables : List TableConfig}
    {s s' : Definitions} (hwf : s.Wf) (hexec : alone (apply compiles tables) s = (.ok (), s')) :
    (∀ r ∈ s.hypertables, r ∈ s'.hypertables) ∧ (∀ t ∈ tables, Present t s') ∧
    (∀ r ∈ s'.hypertables, r ∈ s.hypertables ∨
      ∃ t, tables.find? (fun t => t.name = r.name) = some t ∧ Made t r) ∧
    ∀ l ∈ s'.logicalTables, l ∈ s.logicalTables ∨
      ∃ t ∈ tables, l.name = t.name ∧ l.namespaceId ∈ t.namespaces := by
  have hs : Settled s.nextHypertable s := ⟨hwf, le_rfl⟩
  obtain ⟨hgrows, hpresent⟩ := (ensures_apply tables hs).alone hs hexec
  refine ⟨fun r hr => hgrows.kept r hr (hwf.id_lt r hr), fun t ht => (hpresent t ht).2, ?_⟩
  refine (Program.exec_forM_eq_ok Definitions.answer (I := fun done s₁ => s₁.Wf ∧
    (∀ t ∈ done, ∃ id, Known t.name id s₁) ∧ (∀ r ∈ s₁.hypertables, r ∈ s.hypertables ∨
      ∃ t, done.find? (fun t => t.name = r.name) = some t ∧ Made t r) ∧
    ∀ l ∈ s₁.logicalTables, l ∈ s.logicalTables ∨
      ∃ t ∈ done, l.name = t.name ∧ l.namespaceId ∈ t.namespaces) ?_
    ⟨hwf, by simp, fun r hr => Or.inl hr, fun l hl => Or.inl hl⟩ hexec).2.2
  rintro done t s₁ s₂ ⟨hwf₁, hknown, hrows, hviews⟩ hround
  have hs₁ : Settled s₁.nextHypertable s₁ := ⟨hwf₁, le_rfl⟩
  obtain ⟨hgrows₁, -, hpresent₁⟩ := (ensures_applyTable t hs₁).alone hs₁ hround
  obtain ⟨hrows₁, hviews₁⟩ := alone_applyTable_eq_ok hwf₁ hround
  -- an entry that was first is first still
  have hold : ∀ r ∈ s₁.hypertables, r ∈ s.hypertables ∨
      ∃ t', (done ++ [t]).find? (fun t => t.name = r.name) = some t' ∧ Made t' r := by
    refine fun r hr => (hrows r hr).imp_right ?_
    rintro ⟨t', hfind, hmade⟩
    exact ⟨t', by rw [List.find?_append, hfind]; rfl, hmade⟩
  refine ⟨hgrows₁.wf, fun t' ht' => ?_, fun r hr => ?_, fun l hl => ?_⟩
  · rcases List.mem_append.mp ht' with ht' | ht'
    · obtain ⟨id, hid⟩ := hknown t' ht'
      exact ⟨id, known_stable t'.name id _ _ hgrows₁ hid⟩
    · rw [List.mem_singleton.mp ht']
      exact hpresent₁.1
  · rcases hrows₁ with hsame | ⟨hnew, r', hmade, happend⟩
    · exact hold r (hsame ▸ hr)
    · rw [happend] at hr
      rcases List.mem_append.mp hr with hr | hr
      · exact hold r hr
      · obtain rfl := List.mem_singleton.mp hr
        have hnone : done.find? (fun t => t.name = r.name) = none := by
          refine List.find?_eq_none.mpr fun t' ht' hname => ?_
          obtain ⟨id, r', hr', -, hname'⟩ := hknown t' ht'
          exact hnew r' hr' ((hname'.trans (of_decide_eq_true hname)).trans hmade.name)
        refine Or.inr ⟨t, ?_, hmade⟩
        rw [List.find?_append, hnone]
        simp [hmade.name]
  · rcases hviews₁ l hl with hl | ⟨hname, hns⟩
    · exact (hviews l hl).imp_right fun ⟨t', ht', h⟩ => ⟨t', List.mem_append_left _ ht', h⟩
    · exact Or.inr ⟨t, List.mem_append_right _ (List.mem_singleton_self _), hname, hns⟩

theorem apply_defines_clicks : ∃ s, alone (apply (fun _ _ _ => true) [clicks]) {} = (.ok (), s) ∧
    ∀ r ∈ s.hypertables, Made clicks r := by
  obtain ⟨s, hs⟩ : ∃ s, alone (apply (fun _ _ _ => true) [clicks]) {} = (.ok (), s) :=
    ⟨_, Prod.ext (by decide +kernel) rfl⟩
  refine ⟨s, hs, fun r hr => ?_⟩
  obtain ⟨-, -, hrows, -⟩ := apply_defines empty_wf hs
  obtain hold | ⟨t, hfind, hmade⟩ := hrows r hr
  · cases hold
  · rwa [← List.mem_singleton.mp (List.mem_of_find?_eq_some hfind)]

/-! ## 5. A boot that is interrupted -/

section Interrupted

variable {compiles : String → Schema → Field → Bool} {t : TableConfig} {s s' : Definitions}

theorem validateSortKey_none {schema : Schema} {sortKey : List String} {packingKey : String}
    {tsColumn : Option String} (h : validateSortKey schema sortKey packingKey tsColumn = .ok ()) :
    validateSortKey schema sortKey packingKey none = .ok () := by
  unfold validateSortKey at h ⊢
  split at h
  · cases h
  · split at h
    · cases h
    · rename_i hfirst
      rw [if_neg hfirst]
      split at h
      · cases h
      · rfl

/-- What has passed the check of `apply` passes that of the catalog. -/
theorem createHypertable_of_check (hcheck : t.check compiles = .ok ())
    (hnew : ∀ r ∈ s.hypertables, r.name ≠ t.name) :
    s.createHypertable t.name t.schemaJson t.partitionSpec t.sortKey t.packingKey =
      (.ok s.nextHypertable, created t s) := by
  obtain ⟨_, -, hcheck⟩ := Except.bind_eq_ok_iff.mp hcheck
  obtain ⟨cols, hcols, hkey⟩ := Except.bind_eq_ok_iff.mp hcheck
  have hname : t.name ∉ s.hypertables.map HypertableRow.name := by
    intro hmem
    obtain ⟨r, hr, he⟩ := List.mem_map.mp hmem
    exact hnew r hr he
  simp only [Definitions.createHypertable, Except.mapError_eq_ok_iff.mp hcols,
    validateSortKey_none (Except.mapError_eq_ok_iff.mp hkey), if_neg hname]
  rfl

/-- The catalog, but for the answer to a new hypertable: that is lost. -/
def lossy (s : Definitions) : (r : Request) → r.Answer × Definitions
  | .createHypertable name tableSchema partitionSpec sortKey packingKey =>
    (.error (.db .transport),
      (s.createHypertable name tableSchema partitionSpec sortKey packingKey).2)
  | r => s.answer r

theorem answers_lossy (s : Definitions) (r : Request) :
    Definitions.Answers s r (lossy s r).1 (lossy s r).2 := by
  cases r with
  | createHypertable name tableSchema partitionSpec sortKey packingKey =>
    exact .lost s (.createHypertable name tableSchema partitionSpec sortKey packingKey) .transport
  | _ => exact .answered s _

theorem lossy_applyTable (hcheck : t.check compiles = .ok ())
    (hnew : ∀ r ∈ s.hypertables, r.name ≠ t.name) :
    (applyTable compiles t).run.exec lossy s =
      (.error (.creating t.name (.db .transport)), created t s) := by
  have hget : s.getHypertable t.name = .error (.notFound ("hypertable '" ++ t.name ++ "'")) := by
    have hnone : s.hypertables.find? (fun r => r.name = t.name) = none :=
      List.find?_eq_none.mpr fun r hr => by simpa using hnew r hr
    simp only [Definitions.getHypertable, hnone]
  have hensure : (ensureHypertable t).run.exec lossy s =
      (createTable t).run.exec lossy s := by
    rw [ensureHypertable, Program.exec_run_bind]
    rw [show (Program.ask (.getHypertable t.name) : Boot _).run.exec lossy s =
      (.ok (s.getHypertable t.name), s) from rfl, hget]
  have hcreate : (createTable t).run.exec lossy s =
      (.error (.creating t.name (.db .transport)), created t s) := by
    rw [createTable, Program.exec_run_bind, call, Program.exec_run_bind]
    rw [show (Program.ask (.createHypertable t.name t.schemaJson t.partitionSpec t.sortKey
      t.packingKey) : Boot _).run.exec lossy s = (.ok (.error (.db .transport)),
        (s.createHypertable t.name t.schemaJson t.partitionSpec t.sortKey t.packingKey).2) from rfl,
      createHypertable_of_check hcheck hnew]
    rfl
  rw [applyTable, Program.exec_run_bind]
  rw [show (ExceptT.mk (pure (t.check compiles)) : Boot _).run.exec lossy s =
    (t.check compiles, s) from rfl, hcheck]
  simp only
  rw [Program.exec_run_bind, hensure, hcreate]

theorem alone_ensureLogicalTable_of_known {id : HypertableId} (ns : NamespaceId)
    (hid : Known t.name id s) :
    ∃ s', alone (ensureLogicalTable t id ns) s = (.ok (), s') ∧ Known t.name id s' := by
  by_cases hview : Viewed t.name ns s
  · obtain ⟨l, hget⟩ := getLogicalTable_of_viewed hview
    refine ⟨s, (Program.exec_run_bind_eq_ok _).mpr ⟨.ok l, s, ?_, rfl⟩, hid⟩
    exact congrArg (fun r => (Except.ok r, s)) hget
  · have hnone : s.logicalTables.find? (fun l => l.namespaceId = ns ∧ l.name = t.name) = none :=
      List.find?_eq_none.mpr fun l hl h => hview ⟨l, hl, of_decide_eq_true h⟩
    have hget : s.getLogicalTable ns t.name = .error (.notFound
        ("logical table '" ++ t.name ++ "' in namespace " ++ toString ns.val)) := by
      simp only [Definitions.getLogicalTable, hnone]
    have hnew : ¬((ns, t.name) ∈ s.logicalTables.map (fun l => (l.namespaceId, l.name)) ∨
        id ∉ s.hypertables.map HypertableRow.id) := by
      obtain ⟨r, hr, rfl, -⟩ := hid
      rintro (hmem | hmem)
      · obtain ⟨l, hl, he⟩ := List.mem_map.mp hmem
        exact hview ⟨l, hl, (Prod.mk.inj he).1, (Prod.mk.inj he).2⟩
      · exact hmem (List.mem_map_of_mem hr)
    have hcreate : s.answer (.createLogicalTable ns t.name id) = (.ok s.nextLogical, { s with
        nextLogical := s.nextLogical + 1
        logicalTables := s.logicalTables ++ [⟨s.nextLogical, ns, t.name, id, none⟩] }) := by
      simp only [Definitions.answer, Definitions.createLogicalTable, if_neg hnew]
    refine ⟨_, (Program.exec_run_bind_eq_ok _).mpr ⟨_, s,
      congrArg (fun r => (Except.ok r, s)) hget, (Program.exec_run_bind_eq_ok _).mpr
        ⟨s.nextLogical, _, alone_call.mpr hcreate, rfl⟩⟩, hid⟩

/-- **A boot whose hypertables are there succeeds.** -/
theorem alone_applyTable_of_known {id : HypertableId} (hcheck : t.check compiles = .ok ())
    (hid : Known t.name id s) : ∃ s', alone (applyTable compiles t) s = (.ok (), s') := by
  obtain ⟨h, hensure, hid⟩ := alone_ensureHypertable_of_known hid
  obtain ⟨s', hloop⟩ := Program.exec_forM_isOk Definitions.answer (l := t.namespaces)
    (fun ns s hs => alone_ensureLogicalTable_of_known ns hs) hid
  exact ⟨s', (Program.exec_run_bind_eq_ok _).mpr ⟨(), s, alone_except.mpr ⟨hcheck, rfl⟩,
    (Program.exec_run_bind_eq_ok _).mpr ⟨h, s, hensure, hloop⟩⟩⟩

/-- A configuration of one table. -/
theorem exec_apply_singleton (f : Definitions → (r : Request) → r.Answer × Definitions) :
    (apply compiles [t]).run.exec f s = (applyTable compiles t).run.exec f s := by
  refine (Program.exec_run_bind f _ _ s).trans ?_
  rcases (applyTable compiles t).run.exec f s with ⟨e | u, s'⟩ <;> rfl

/-- **The placement is set once, or never.**  The answer to a new hypertable is lost, and the boot
fails with it.  The next boot finds the hypertable there and succeeds, and it stays packed whatever
boots there are, and whatever the configuration says. -/
theorem placement_lost (hwf : s.Wf) (hcheck : t.check compiles = .ok ())
    (hnew : ∀ r ∈ s.hypertables, r.name ≠ t.name) :
    ∃ c₁ c₂, Pool.Run Definitions.Answers (booting compiles (fun _ => [t]) s) c₁ ∧
      c₁.procs 0 = .pure (.error (.creating t.name (.db .transport))) ∧
      c₁.procs 1 = (apply compiles [t]).run ∧ c₁.state = created t s ∧
      Pool.Run Definitions.Answers c₁ c₂ ∧ c₂.procs 1 = .pure (.ok ()) ∧
      ∃ r ∈ c₂.state.hypertables, r.name = t.name ∧ r.hypertable.placement = .packed ∧
        ∀ boots c', Pool.Run Definitions.Answers (booting compiles boots c₂.state) c' →
          r ∈ c'.state.hypertables := by
  set r := t.row s.nextHypertable
  have hr : r ∈ (created t s).hypertables := List.mem_append_right _ (List.mem_singleton_self _)
  have hwf₁ : (created t s).Wf := by
    have hgrows : s.Grows 0 _ := hwf.createHypertable t.name t.schemaJson t.partitionSpec t.sortKey
      t.packingKey
    rw [createHypertable_of_check hcheck hnew] at hgrows
    exact hgrows.wf
  -- the first boot is not told that the hypertable was created
  have hfirst := Pool.run_exec answers_lossy 0 (c := booting compiles (fun _ => [t]) s) rfl
  simp only [exec_apply_singleton, lossy_applyTable hcheck hnew] at hfirst
  -- the second boot finds it there
  obtain ⟨s₂, hround⟩ := alone_applyTable_of_known hcheck (s := created t s) ⟨r, hr, rfl, rfl⟩
  have hok := (exec_apply_singleton Definitions.answer).trans hround
  have hs₁ : Settled (created t s).nextHypertable (created t s) := ⟨hwf₁, le_rfl⟩
  have hgrows : (created t s).Grows _ s₂ := ((ensures_apply [t] hs₁).alone hs₁ hok).1
  have hkept := hgrows.kept r hr (hwf₁.id_lt r hr)
  have hsecond := Pool.run_exec (fun s r => Definitions.Answers.answered s r) 1
    (p := (apply compiles [t]).run)
    (c := ⟨created t s, Function.update (booting compiles (fun _ => [t]) s).procs 0
      (.pure (.error (.creating t.name (.db .transport))))⟩) (by simp)
  simp only [hok] at hsecond
  refine ⟨_, _, hfirst, by simp, by simp, rfl, hsecond, by simp, r, hkept, rfl, rfl,
    fun boots c' hrun => ?_⟩
  exact (boots_grow hgrows.wf hrun).kept r hkept (hgrows.wf.id_lt r hkept)

theorem placement_lost_clicks : clicks.placementFrom = .ok .separated ∧ ∃ c₁ c₂,
    Pool.Run Definitions.Answers (booting (fun _ _ _ => true) (fun _ => [clicks]) {}) c₁ ∧
      c₁.procs 0 = .pure (.error (.creating "clicks" (.db .transport))) ∧
      c₁.procs 1 = (apply (fun _ _ _ => true) [clicks]).run ∧ c₁.state = created clicks {} ∧
      Pool.Run Definitions.Answers c₁ c₂ ∧ c₂.procs 1 = .pure (.ok ()) ∧
      ∃ r ∈ c₂.state.hypertables, r.name = "clicks" ∧ r.hypertable.placement = .packed ∧
        ∀ boots c', Pool.Run Definitions.Answers (booting (fun _ _ _ => true) boots c₂.state) c' →
          r ∈ c'.state.hypertables :=
  ⟨rfl, placement_lost empty_wf (by decide +kernel) (by simp)⟩

end Interrupted

end Ukiel.Daemon
