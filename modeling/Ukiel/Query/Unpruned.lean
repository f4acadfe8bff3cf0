/-
# The scan that prunes and the one that does not

What `UkielTableProvider::scan` opens, and what is returned, against a scan of every live part
(`ScansWhole`), for every schema that parses and every part that a writer makes.

The index of a part's keys is an object's entries among the ranges of the columns, under names that
a column may have (`with_key_index`, `PACKING_KEYS_STAT`, `KEY_ROW_GROUPS_STAT`).  Where it stands
over the range of a column that is filtered on, `->> 'max'` of it is NULL, and so is the condition
of `live_parts_pruned`: the part is left out, and nothing was proved of it.  `scansWhole_iff`: such
a part, with a row to return, is all that a scan ever loses.
-/
import Ukiel.Query.Scan

namespace Ukiel.Query
open Ukiel.Catalog Ukiel.Compactor Ukiel.Expr
open scoped List

/-! ## 1. The naive scan -/

/-- The engine's planner, by the tables it takes: none that has two columns of one name. -/
structure Planner where
  accepts : Schema → Bool
  distinct : ∀ {s : Schema}, accepts s = true → (s.map Field.name).Nodup

section Naive

variable {pg : BigintCast} {codec : KeyCodec} {x : Exprs} {T : Tables} {t : TableProvider}
  {projection : Option (List Nat)} {filters : List Expr} {limit : Option Nat}
  {store : String → Option (List (List (Row t.physicalSchema)))}
  {pushed : Row t.physicalSchema → Bool} {files : PartRow → List (List (Row t.physicalSchema))}

/-- A row of the slice that satisfies the filters. -/
def Matches (x : Exprs) (t : TableProvider) {indices : List Nat}
    (m : Meaning (outputSchema t indices)) (filters : List Expr) (r : Row t.physicalSchema) :
    Prop :=
  visible t r = true ∧ ∃ cells, queryRow x t indices r = some cells ∧
    filtersHold m filters cells = true

/-- **The pruned scan is the naive one.** -/
structure ScansWhole (pg : BigintCast) (codec : KeyCodec) (x : Exprs) (T : Tables)
    (t : TableProvider) (projection : Option (List Nat)) (filters : List Expr) (limit : Option Nat)
    (store : String → Option (List (List (Row t.physicalSchema))))
    (pushed : Row t.physicalSchema → Bool) (files : PartRow → List (List (Row t.physicalSchema)))
    (m : Meaning (outputSchema t (t.indices projection))) : Prop where
  /-- The parts that the catalog returns, the files that are made of them and the row groups that
  are left of those: no row is lost that is asked for. -/
  opened : ∃ ranges parts, extractInt64Ranges filters t.physicalSchema = .ok ranges ∧
    livePartsPruned pg codec T t.hypertable.id t.slice ranges = .ok parts ∧
    ∀ p ∈ T.liveParts t.hypertable.id, ∀ r ∈ (files p).flatten, Matches x t m filters r →
      p ∈ parts ∧ ∃ file selected, fileFor codec t.slice p.partMeta = some file ∧
        selectGroups (files p) file.accessPlan = some selected ∧ r ∈ selected.flatten
  /-- What is returned is the answer over all live parts, and no row of another key. -/
  returned : ∃ plan, scan pg codec x T t projection filters limit = .ok plan ∧
    (∀ ans, answer x t m filters (tableRows T t files) = some ans →
      (∃ out, Yields x store pushed plan out) ∧
        ∀ out, Yields x store pushed plan out → ∃ all, all ~ ans ∧
          out.filter (filtersHold m filters) = limited all limit) ∧
    ∀ key, t.slice = some key → ∀ out, Yields x store pushed plan out → ∀ cells ∈ out,
      ∃ p ∈ T.liveParts t.hypertable.id, ∃ r ∈ (files p).flatten,
        packingKeyOf t.hypertable.packingKey r = some key ∧
          queryRow x t (t.indices projection) r = some cells

theorem names_of_accepts {planner : Planner}
    (h : planner.accepts t.columns.querySchema = true) :
    (t.columns.specs.map ColumnSpec.name).Nodup := by
  have hnames := planner.distinct h
  simpa [TableColumns.querySchema, TableColumns.schemaWhere, Function.comp_def, ColumnSpec.field]
    using hnames

/-! ## 2. What the pruned one loses -/

/-- A matching row of a part that no filter is blind to is read. -/
theorem read_of_matches {ranges : List ColumnRange} {parts : List PartRow}
    {m : Meaning (outputSchema t (t.indices projection))}
    (hnames : (t.columns.specs.map ColumnSpec.name).Nodup)
    (hsound : ∀ p ∈ T.liveParts t.hypertable.id,
      MetadataSound codec t.hypertable p.partMeta ⟨t.physicalSchema, files p⟩)
    (hranges : extractInt64Ranges filters t.physicalSchema = .ok ranges)
    (hparts : livePartsPruned pg codec T t.hypertable.id t.slice ranges = .ok parts)
    {p : PartRow} (hp : p ∈ T.liveParts t.hypertable.id) {r : Row t.physicalSchema}
    (hr : r ∈ (files p).flatten) (hmatches : Matches x t m filters r)
    (hseen : ¬ Blind t.physicalSchema filters p.partMeta) :
    p ∈ parts ∧ ∃ file selected, fileFor codec t.slice p.partMeta = some file ∧
      selectGroups (files p) file.accessPlan = some selected ∧ r ∈ selected.flatten := by
  obtain ⟨hv, cells, hcells, hholds⟩ := hmatches
  obtain ⟨hok, hkept⟩ := livePartsPruned_eq_ok pg hsound (isInt64_of_extracted hranges)
  obtain rfl := Except.ok.inj (hok.symm.trans hparts)
  rw [blind_iff hranges, Bool.not_eq_true] at hseen
  have hwanted := wanted_of_filtersHold hnames hranges hv hcells hholds
  have hkeep := (hkept p hp).1 hseen r hr hwanted
  refine ⟨(List.perm_insertionSort _ _).mem_iff.mpr (List.mem_filter.mpr ⟨hp, hkeep⟩), ?_⟩
  cases hfile : fileFor codec t.slice p.partMeta with
  | none =>
    have hhidden := not_visible_of_fileFor (hsound p hp).index hfile r hr
    exact absurd (hv.symm.trans hhidden) (by decide)
  | some file =>
    obtain ⟨-, selected, hselected, hkeeps⟩ := keeps_of_fileFor (hsound p hp).index hfile
    exact ⟨file, selected, rfl, hselected,
      hkeeps.kept.subset (List.mem_filter.mpr ⟨hr, hv⟩)⟩

/-- A part that a filter is blind to is not among those that the catalog returns. -/
theorem not_mem_of_blind {ranges : List ColumnRange} {parts : List PartRow}
    (hsound : ∀ p ∈ T.liveParts t.hypertable.id,
      MetadataSound codec t.hypertable p.partMeta ⟨t.physicalSchema, files p⟩)
    (hranges : extractInt64Ranges filters t.physicalSchema = .ok ranges)
    (hparts : livePartsPruned pg codec T t.hypertable.id t.slice ranges = .ok parts)
    {p : PartRow} (hblind : Blind t.physicalSchema filters p.partMeta) : p ∉ parts := by
  obtain ⟨hok, hkept⟩ := livePartsPruned_eq_ok pg hsound (isInt64_of_extracted hranges)
  obtain rfl := Except.ok.inj (hok.symm.trans hparts)
  intro hmem
  obtain ⟨hp, hkeep⟩ := List.mem_filter.mp ((List.perm_insertionSort _ _).mem_iff.mp hmem)
  have hdrop := (hkept p hp).2 ((blind_iff hranges p.partMeta).mp hblind)
  exact absurd (hkeep.symm.trans hdrop) (by decide)

/-- **The pruned scan is the naive one** exactly where no filter is at a limit, and none is blind
to a part that has a row it is to return. -/
theorem scansWhole_iff {reader : ParquetReader} {codec : Write.PartCodec} {planner : Planner}
    {m : Meaning (outputSchema t (t.indices projection))}
    (hplanner : planner.accepts t.columns.querySchema = true) (hreads : ReadsRefs x)
    (hstore : ∀ p ∈ T.liveParts t.hypertable.id, store p.partMeta.path = some (files p))
    (hmade : ∀ p ∈ T.liveParts t.hypertable.id,
      Made reader codec t.hypertable p.partMeta ⟨t.physicalSchema, files p⟩)
    -- the columns asked for can be scanned
    (hcolumns : ∃ plan, scan pg codec x {} t projection [] limit = .ok plan)
    -- filters are applied again, so the engine hands no limit down beneath them
    (hlimit : limit = none ∨ filters = [])
    (hpushed : ∀ r cells, queryRow x t (t.indices projection) r = some cells →
      filtersHold m filters cells = true → pushed r = true) :
    ScansWhole pg codec x T t projection filters limit store pushed files m ↔
      (∀ filter ∈ filters, ¬ AtLimit t.physicalSchema filter) ∧
      ∀ p ∈ T.liveParts t.hypertable.id, Blind t.physicalSchema filters p.partMeta →
        ∀ r ∈ (files p).flatten, ¬ Matches x t m filters r := by
  have hnames := names_of_accepts hplanner
  have hsound : ∀ p ∈ T.liveParts t.hypertable.id,
      MetadataSound codec.toKeyCodec t.hypertable p.partMeta ⟨t.physicalSchema, files p⟩ :=
    fun p hp => metadataSound_of_made hnames (hmade p hp)
  rw [← extractInt64Ranges_isOk_iff]
  constructor
  · rintro ⟨⟨ranges, parts, hranges, hparts, hopened⟩, -⟩
    refine ⟨⟨ranges, hranges⟩, fun p hp hblind r hr hmatches => ?_⟩
    exact not_mem_of_blind hsound hranges hparts hblind (hopened p hp r hr hmatches).1
  · rintro ⟨⟨ranges, hranges⟩, hseen⟩
    obtain ⟨hparts, -⟩ := @livePartsPruned_eq_ok _ _ _ pg _ _ t.slice _ _ hsound
      (isInt64_of_extracted hranges)
    obtain ⟨_, hplan₀⟩ := hcolumns
    obtain ⟨plan, hplan⟩ := scan_congr hplan₀ hranges hparts
    refine ⟨⟨ranges, _, hranges, hparts, fun p hp r hr hmatches => ?_⟩, plan, hplan, ?_, ?_⟩
    · exact read_of_matches hnames hsound hranges hparts hp hr hmatches
        fun hblind => hseen p hp hblind r hr hmatches
    · intro ans hanswer
      refine answers_of_yields hnames hreads hstore hsound (fun p hp hblind r hr => ?_) hplan hlimit
        hpushed hanswer
      by_contra hr'
      rw [Bool.not_eq_false] at hr'
      obtain ⟨hv, hholds⟩ := Bool.and_eq_true_iff.mp hr'
      obtain ⟨whole, hwhole, -⟩ := Option.map_eq_some_iff.mp hanswer
      obtain ⟨cells, -, hcells⟩ := (List.mapM_eq_some_iff.mp hwhole).exists_of_mem
        (List.mem_filter.mpr ⟨List.mem_flatMap.mpr ⟨p, hp, hr⟩, hv⟩)
      rw [hcells] at hholds
      exact hseen p hp hblind r hr ⟨hv, cells, hcells, hholds⟩
    · intro key hslice out hout cells hcells
      obtain ⟨p, hp, groups, hgroups, r, hr, hv, hrow⟩ :=
        row_of_yields hnames hreads hplan hout cells hcells
      obtain rfl := Option.some.inj ((hstore p hp).symm.trans hgroups)
      exact ⟨p, hp, r, hr, packingKeyOf_of_visible hslice hv, hrow⟩

end Naive

/-! ## 3. A column called packing_keys -/

/-- A table that counts what its tenants pack. -/
def cratesTable : Hypertable where
  id := 1
  name := "crates"
  tableSchema := .obj [("fields", .arr [
    .obj [("name", .str "tenant_id"), ("type", .str "int64")],
    .obj [("name", .str "packing_keys"), ("type", .str "int64")]])]
  partitionSpec := .obj [("columns", .arr [])]
  sortKey := ["tenant_id"]
  packingKey := "tenant_id"
  placement := .packed

def cratesColumns : TableColumns := ⟨[⟨"tenant_id", .int64, true, .stored, "int64", false⟩,
  ⟨"packing_keys", .int64, true, .stored, "int64", false⟩]⟩

def cratesRow (tenant packed : I64) : Row cratesColumns.physicalSchema :=
  ⟨[.int64 tenant, .int64 packed], rfl⟩

/-- Of tenants 1 and 3. -/
def sharedGroups : List (List (Row cratesColumns.physicalSchema)) :=
  [[cratesRow (smallI64 1) (smallI64 7), cratesRow (smallI64 3) (smallI64 4)]]

/-- Of tenant 2. -/
def ownGroups : List (List (Row cratesColumns.physicalSchema)) :=
  [[cratesRow (smallI64 2) (smallI64 3), cratesRow (smallI64 2) (smallI64 8)]]

def sharedMeta : PartMeta where
  path := "ht/1/L0/shared.parquet"
  partitionValues := .obj []
  packingKeyMin := 1
  packingKeyMax := 3
  rowCount := 2
  sizeBytes := 100
  level := 0
  columnStats := some (.obj [("packing_keys", .str "0101"),
    ("tenant_id", .obj [("max", .num (.int 3)), ("min", .num (.int 1))])])

def ownMeta : PartMeta where
  path := "ht/1/L0/own.parquet"
  partitionValues := .obj []
  packingKeyMin := 2
  packingKeyMax := 2
  rowCount := 2
  sizeBytes := 100
  level := 0
  columnStats := some (.obj [
    ("packing_keys", .obj [("max", .num (.int 8)), ("min", .num (.int 3))]),
    ("tenant_id", .obj [("max", .num (.int 2)), ("min", .num (.int 2))])])

theorem crates_version : Version cratesTable cratesTable.tableSchema cratesColumns :=
  ⟨by rfl, by rfl⟩

/-- The view's outputs that the parts were made of. -/
def cratesItems (rows : List (Row cratesColumns.physicalSchema)) :
    Except Write.WriteError (List Write.FlushItem) :=
  Write.batchesToL0Items .equal oneExpr (fun _ => 0) (fun _ => "\x7b\x7d") .stable .characters
    [⟨cratesColumns.physicalSchema, rows⟩] cratesTable 1000

theorem shared_made : Made noteEnv.reader .characters cratesTable sharedMeta
    ⟨cratesColumns.physicalSchema, sharedGroups⟩ :=
  made_of_publishes crates_version (by rfl : cratesItems sharedGroups.flatten = _)
    (by decide +kernel)

theorem own_made : Made noteEnv.reader .characters cratesTable ownMeta
    ⟨cratesColumns.physicalSchema, ownGroups⟩ :=
  made_of_publishes crates_version (by rfl : cratesItems ownGroups.flatten = _)
    (by decide +kernel)

def sharedPart : PartRow := ⟨5, 1, sharedMeta, 1, none, none⟩

def ownPart : PartRow := ⟨6, 1, ownMeta, 2, none, none⟩

def cratesTables : Tables := { parts := [sharedPart, ownPart] }

def cratesFiles (p : PartRow) : List (List (Row cratesColumns.physicalSchema)) :=
  if p.id = 5 then sharedGroups else ownGroups

def cratesStore (path : String) : Option (List (List (Row cratesColumns.physicalSchema))) :=
  if path = sharedMeta.path then some sharedGroups
  else if path = ownMeta.path then some ownGroups else none

/-- The table as a tenant sees it. -/
def cratesProvider (tenant : I64) : TableProvider := ⟨cratesTable, cratesColumns, some tenant⟩

/-- `packing_keys < 5`. -/
def cratesFilters : List Expr :=
  [.binaryExpr (.column "packing_keys") .lt (.literal (.int64 (smallI64 5)))]

theorem crates_liveParts : cratesTables.liveParts 1 = [sharedPart, ownPart] := by decide

/-- The row that tenant 3 asks for. -/
theorem crates_mem : cratesRow (smallI64 3) (smallI64 4) ∈ sharedGroups.flatten :=
  List.mem_cons_of_mem _ List.mem_cons_self

theorem crates_live : ∀ p ∈ cratesTables.liveParts 1,
    cratesStore p.partMeta.path = some (cratesFiles p) ∧
      Made noteEnv.reader .characters cratesTable p.partMeta
        ⟨cratesColumns.physicalSchema, cratesFiles p⟩ := by
  rw [crates_liveParts, List.forall_mem_cons, List.forall_mem_singleton]
  exact ⟨⟨rfl, shared_made⟩, ⟨rfl, own_made⟩⟩

/-- Planners refuse twins. -/
def distinctPlanner : Planner where
  accepts s := (s.map Field.name).Nodup
  distinct h := of_decide_eq_true h

/-- `SELECT * … WHERE packing_keys < 5`, of a tenant. -/
def CratesWhole (tenant : I64) : Prop :=
  ScansWhole shopCast .characters shopExprs cratesTables (cratesProvider tenant) none cratesFilters
    none cratesStore (fun _ => true) cratesFiles (shopMeaning _)

/-- A comparison with 5 is at no limit. -/
theorem crates_not_atLimit : ∀ filter ∈ cratesFilters,
    ¬ AtLimit cratesColumns.physicalSchema filter := by
  rw [cratesFilters, List.forall_mem_singleton]
  rintro ⟨name, value, -, ⟨⟨⟩, -⟩ | ⟨⟨⟩, hvalue⟩⟩
  exact absurd hvalue (by decide)

/-- The bitmap stands where the range of the column would. -/
theorem crates_blind : Blind cratesColumns.physicalSchema cratesFilters sharedMeta :=
  ⟨_, List.mem_cons_self, "packing_keys", ⟨rfl, .lt, _, rfl, rfl⟩, rfl⟩

theorem crates_matches : Matches shopExprs (cratesProvider (smallI64 3)) (shopMeaning
    (outputSchema (cratesProvider (smallI64 3)) ((cratesProvider (smallI64 3)).indices none)))
    cratesFilters (cratesRow (smallI64 3) (smallI64 4)) :=
  ⟨rfl, [.int64 (smallI64 3), .int64 (smallI64 4)], rfl, by decide⟩

/-- Tenant 2 has what it asked for, tenant 3 has not. -/
theorem scansWhole_iff_crates : CratesWhole (smallI64 2) ∧ ¬ CratesWhole (smallI64 3) := by
  have hiff := fun tenant => @scansWhole_iff shopCast shopExprs cratesTables
    (cratesProvider tenant) none cratesFilters none cratesStore (fun _ => true) cratesFiles
    noteEnv.reader .characters distinctPlanner (shopMeaning _) rfl shopExprs_readsRefs
    (fun p hp => (crates_live p hp).1) (fun p hp => (crates_live p hp).2) ⟨_, rfl⟩ (.inl rfl)
    fun _ _ _ _ => rfl
  refine ⟨(hiff _).mpr ⟨crates_not_atLimit, ?_⟩, fun hwhole => ?_⟩
  · -- the part of tenant 2 has the range of the column, and the other no row of it
    have hother : ∀ r ∈ sharedGroups.flatten, visible (cratesProvider (smallI64 2)) r = false :=
      List.forall_mem_cons.mpr ⟨rfl, List.forall_mem_singleton.mpr rfl⟩
    have hrange : indexed ownMeta.columnStats "packing_keys" = false := by decide
    refine crates_liveParts ▸ List.forall_mem_cons.mpr ⟨fun _ r hr hmatches => ?_,
      List.forall_mem_singleton.mpr ?_⟩
    · exact absurd (hmatches.1.symm.trans (hother r hr)) (by decide)
    · rintro ⟨filter, hfilter, name, ⟨-, op, value, hcompare, -⟩, hindexed⟩
      obtain rfl := List.mem_singleton.mp hfilter
      cases hcompare
      exact absurd (hindexed.symm.trans hrange) (by decide)
  · exact ((hiff _).mp hwhole).2 sharedPart (by decide) crates_blind _ crates_mem crates_matches

/-- The row of tenant 3 is the answer, and the catalog does not return its part. -/
theorem crates_lost :
    answer shopExprs (cratesProvider (smallI64 3)) (shopMeaning (outputSchema _
      ((cratesProvider (smallI64 3)).indices none))) cratesFilters
        (tableRows cratesTables (cratesProvider (smallI64 3)) cratesFiles) =
      some [[.int64 (smallI64 3), .int64 (smallI64 4)]] ∧ ¬ CratesWhole (smallI64 3) := by
  refine ⟨by decide +kernel, ?_⟩
  rintro ⟨⟨ranges, parts, hranges, hparts, hopened⟩, -⟩
  have hsound : ∀ p ∈ cratesTables.liveParts 1, MetadataSound .characters cratesTable p.partMeta
      ⟨cratesColumns.physicalSchema, cratesFiles p⟩ := fun p hp =>
    @metadataSound_of_made (cratesProvider (smallI64 3)) _ _ _ _ (by decide) (crates_live p hp).2
  exact @not_mem_of_blind _ _ _ (cratesProvider (smallI64 3)) _ _ _ _ hsound hranges hparts
    sharedPart crates_blind (hopened sharedPart (by decide) _ crates_mem crates_matches).1

end Ukiel.Query
