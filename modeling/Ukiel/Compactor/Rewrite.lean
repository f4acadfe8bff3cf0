/-
# Reading parts for a rewrite

`ukiel-compactor/src/rewrite.rs`: a merge and a key deletion read their inputs as batches of the
current physical schema, whatever schema a file was written under.  A column the file has keeps
every stored value; a column it predates gets NULLs (`adaptToSchema`), and where it has a default
or a materialized expression, then the expression's values.

The NULLs are put into a batch of the current schema, which checks them, BEFORE the expressions
have replaced them.  So a column that is not nullable and has an expression cannot be added to a
table with old files: every read of an old row fails.  The write path of materialized views
evaluates over an all-nullable schema and checks afterwards.

And a column is looked up in the file by its NAME.  A table may name two columns alike; the second
then gets the cells of the first.

* §1 the code;
* §2 what the rows should be, column by column, whatever the columns are called;
* §3, §4 adapting a row, and the columns that are found by name;
* §5 `partStreams_iff`: when a rewrite reads what is stored;
* §6 a column that was added to a table with files.
-/
import Ukiel.Core.Operation
import Ukiel.Core.Sorting
import Ukiel.Expr.Fill

namespace Ukiel.Compactor
open Ukiel.Expr

/-! ## 1. Streams -/

inductive CompactorError where
  | schema (e : SchemaError)
  | arrow
  | expr (e : ExprError)
  | catalog (e : CatalogError)
  | operation (e : OperationError)
  | missingColumn (name : String)
  | notInt64 (name : String)
  | partRead (path : String)
  | mergeOrderViolation (path : String) (row : Nat)
deriving DecidableEq

/-- `MERGE_BATCH_ROWS`. -/
def mergeBatchRows : Nat := 8 * 1024

/-- A part file as its reader gives it: the schema it was written under, and its batches.  One
that cannot be read is `none`. -/
structure PartFile where
  schema : Schema
  batches : List (Option (List (Row schema)))

structure PartBatchStream (s : Schema) where
  path : String
  stream : List (Except CompactorError (List (Row s)))

/-- The columns of a row in the order of the target; NULL for one the file predates. -/
def adaptRow {file : Schema} (target : Schema) (r : Row file) : List Value :=
  target.map fun f =>
    match file.indexOf f.name with
    | some i => r.cell i
    | none => .null

/-- The type of the column that `adapt_to_schema` puts there. -/
def adaptedType (file : Schema) (f : Field) : Option DataType :=
  match file.indexOf f.name with
  | some i => file[i]?.map Field.dataType
  | none => some f.dataType

/-- `adapt_to_schema`.  `RecordBatch::try_new` checks the types of the columns and their NULLs. -/
def adaptToSchema {file : Schema} (batch : List (Row file)) (target : Schema) :
    Except CompactorError (List (Row target)) :=
  if target.all fun f => adaptedType file f = some f.dataType then
    match target.tryNew (batch.map (adaptRow target)) with
    | some out => .ok out
    | none => .error .arrow
  else .error .arrow

/-- What `part_streams` makes of one batch of the file. -/
def readBatch (eval : Evaluator) (s : Schema) (cols : TableColumns) (path : String)
    {file : Schema} : Option (List (Row file)) → Except CompactorError (List (Row s))
  | none => .error (.partRead path)
  | some batch => do
    let adapted ← adaptToSchema batch s
    (applyMissingDefaultsAndMaterialized eval adapted cols file).mapError .expr

/-- `part_streams`.  The store gives the files that open. -/
def partStreams (eval : Evaluator) (store : String → Option PartFile) (s : Schema)
    (cols : TableColumns) (parts : List PartMeta) :
    Except CompactorError (List (PartBatchStream s)) :=
  parts.mapM fun part =>
    match store part.path with
    | none => .error (.partRead part.path)
    | some file => .ok ⟨part.path, file.batches.map (readBatch eval s cols part.path)⟩

/-- `int64_column`. -/
def int64Column {s : Schema} (batch : List (Row s)) (name : String) :
    Except CompactorError (List (Option I64)) :=
  match s.indexOf name with
  | none => .error (.missingColumn name)
  | some i =>
    if s[i]?.map Field.dataType = some .int64 then .ok (int64Array i batch)
    else .error (.notInt64 name)

/-- Rows of one key that follow each other. -/
def splitRuns {α κ : Type} [DecidableEq κ] (key : α → κ) : List α → List (κ × List α)
  | [] => []
  | a :: rows =>
    match splitRuns key rows with
    | [] => [(key a, [a])]
    | (k, run) :: runs =>
      if key a = k then (k, a :: run) :: runs else (key a, [a]) :: (k, run) :: runs

/-- `split_by_key`: one slice for each run of the packing key. -/
def splitByKey {s : Schema} (batch : List (Row s)) (packingKey : String) :
    Except CompactorError (List (I64 × List (Row s))) := do
  let _ ← int64Column batch packingKey
  return splitRuns (fun r => (r.cell ((s.indexOf packingKey).getD 0)).slot) batch

/-- `key_range`. -/
def keyRange {s : Schema} (batch : List (Row s)) (packingKey : String) :
    Except CompactorError (I64 × I64) := do
  let keys ← int64Column batch packingKey
  match arrowMin keys, arrowMax keys with
  | some min, some max => .ok (min, max)
  | _, _ => .error (.missingColumn packingKey)

/-! ## 2. What the rows should be -/

/-- The column of that name whose turn it is. -/
def nthNamed : Schema → String → Nat → Option Nat
  | [], _, _ => none
  | f :: s, name, k =>
    if f.name = name then
      match k with
      | 0 => some 0
      | k + 1 => (nthNamed s name k).map (· + 1)
    else (nthNamed s name k).map (· + 1)

/-- How many columns of the name there are before the `i`-th. -/
def turn (s : Schema) (name : String) (i : Nat) : Nat :=
  (s.take i).countP fun f => f.name = name

/-- **The column of the file that is the `i`-th of the current schema**: the one of its name, and
of several the one whose turn it is. -/
def storedColumn (file s : Schema) (i : Nat) : Option Nat :=
  s[i]?.bind fun f => nthNamed file f.name (turn s f.name i)

/-- What is stored of the row, under the current schema; NULL for a column the file predates. -/
def storedRow {file : Schema} (s : Schema) (r : Row file) : List Value :=
  (List.range s.length).map fun i => ((storedColumn file s i).map r.cell).getD .null

/-- The column at a place, computed over the rows as they are. -/
def backfillAt (eval : Evaluator) (s : Schema) (rows : List (List Value)) (c : ColumnSpec × Nat) :
    Option (List (List Value)) :=
  let computed (sql : String) := s[c.2]?.bind fun f => eval sql s.withNullable f.withNullable rows
  match c.1.kind with
  | .default sql => (computed sql).map fun cells => fillColumn c.2 cells rows
  | .materialized sql => (computed sql).map fun cells => setColumn c.2 cells rows
  | .stored => some rows
  | .aliased _ => some rows

/-- The columns that the file predates. -/
def absentSpecs (file : Schema) (cols : TableColumns) : List (ColumnSpec × Nat) :=
  (physicalSpecs cols).filter fun c => (storedColumn file cols.physicalSchema c.2).isNone

/-- **The rows of a file under the current schema**: what is stored, NULLs for the columns the
file predates, and over these the values of their expressions. -/
def backfilled (eval : Evaluator) (cols : TableColumns) {file : Schema} (rows : List (Row file)) :
    Option (List (List Value)) :=
  (absentSpecs file cols).foldlM (backfillAt eval cols.physicalSchema)
    (rows.map (storedRow cols.physicalSchema))

/-- Stored cells are kept, NULLs among them. -/
def KeepsStored (cols : TableColumns) {file : Schema} (r : Row file)
    (r' : Row cols.physicalSchema) : Prop :=
  ∀ i j, storedColumn file cols.physicalSchema i = some j → r'.cell i = r.cell j

/-- The reasons a batch that was read may yet fail: a plain column that the file predates is not
nullable, an expression fails, or one gives NULL for a column that is not nullable. -/
def MayFail (eval : Evaluator) (cols : TableColumns) {file : Schema} (rows : List (Row file)) :
    Prop :=
  (∃ c ∈ absentSpecs file cols, c.1.kind = .stored ∧ c.1.nullable = false) ∨
  backfilled eval cols rows = none ∨
  ∃ out, backfilled eval cols rows = some out ∧
    ∃ c ∈ absentSpecs file cols, computedKind c.1 = true ∧ c.1.nullable = false ∧
      ∃ r ∈ out, r[c.2]? = some .null

/-- What the stream may give for a batch of the file. -/
def BatchRead (eval : Evaluator) (cols : TableColumns) {file : Schema} :
    Option (List (Row file)) → Except CompactorError (List (Row cols.physicalSchema)) → Prop
  | none, .error _ => True
  | none, .ok _ => False
  | some rows, .ok out =>
    backfilled eval cols rows = some (out.map Subtype.val) ∧
      List.Forall₂ (KeepsStored cols) rows out
  | some rows, .error _ => MayFail eval cols rows

/-- **A rewrite reads what is stored**: it fails where a file does not open, and its streams give
every batch of the other files as they should. -/
def PartsRead (eval : Evaluator) (store : String → Option PartFile) (cols : TableColumns)
    (parts : List PartMeta) :
    Except CompactorError (List (PartBatchStream cols.physicalSchema)) → Prop
  | .error _ => ∃ part ∈ parts, store part.path = none
  | .ok streams => List.Forall₂ (fun part input => input.path = part.path ∧
      ∃ file, store part.path = some file ∧
        List.Forall₂ (BatchRead eval cols) file.batches input.stream) parts streams

/-- The NULLs that stand in for the columns the file predates are admitted. -/
def Fillable (file : Schema) (cols : TableColumns) : Prop :=
  ∀ c ∈ absentSpecs file cols, computedKind c.1 = true → c.1.nullable = true

/-- The first column of each name is of the type of all columns of that name. -/
def SameTypes (file s : Schema) : Prop :=
  ∀ f ∈ s, ∀ j, file.indexOf f.name = some j → file[j]?.map Field.dataType = some f.dataType

/-- A row has no two values in stored columns of one name. -/
def TwinsAgree {file : Schema} (s : Schema) (r : Row file) : Prop :=
  ∀ i j f j₀, storedColumn file s i = some j → file[j]? = some f →
    file.indexOf f.name = some j₀ → r.cell j = r.cell j₀

/-- No other column has this one's name. -/
def OwnName (names : List String) (i : Nat) : Prop :=
  ∀ i', names[i']? = names[i]? → i' = i

/-- The file was written under an earlier schema: a column of its that the current one still has
is of the type it was, and may hold what it held; and one that was added since has a name of its
own. -/
structure Earlier (file s : Schema) : Prop where
  kept : ∀ i f j, s[i]? = some f → storedColumn file s i = some j →
    ∃ g, file[j]? = some g ∧ g.dataType = f.dataType ∧ (g.nullable = true → f.nullable = true)
  added : ∀ i < s.length, storedColumn file s i = none → OwnName (s.map Field.name) i

/-- Rows with the same cells in the columns that have names of their own. -/
def AgreeOnOwn (names : List String) (a b : List Value) : Prop :=
  ∀ i < names.length, OwnName names i → a[i]? = b[i]?

/-- An expression reads no column whose name another one has too: the reference is ambiguous, and
it does not compile. -/
def Unambiguous (eval : Evaluator) : Prop :=
  ∀ sql (s : Schema) f rows rows', List.Forall₂ (AgreeOnOwn (s.map Field.name)) rows rows' →
    eval sql s f rows = eval sql s f rows'

/-! ## 3. Columns of one name -/

section Columns

variable {file s : Schema} {name : String} {i j : Nat} {f : Field}

theorem nthNamed_zero : ∀ {s : Schema}, nthNamed s name 0 = s.indexOf name
  | [] => rfl
  | f :: s => by
    rw [nthNamed, Schema.indexOf, List.findIdx?_cons, nthNamed_zero]
    by_cases h : f.name = name
    · simp [h]
    · simp [h, Schema.indexOf]

theorem name_of_nthNamed : ∀ {s : Schema} {k j : Nat}, nthNamed s name k = some j →
    ∃ f, s[j]? = some f ∧ f.name = name
  | f :: s, k, j, h => by
    have hrest : ∀ {k}, (nthNamed s name k).map (· + 1) = some j →
        ∃ f', (f :: s)[j]? = some f' ∧ f'.name = name := by
      intro k h
      obtain ⟨j', hj', rfl⟩ := Option.map_eq_some_iff.mp h
      obtain ⟨f', hf', hname⟩ := name_of_nthNamed hj'
      exact ⟨f', hf', hname⟩
    unfold nthNamed at h
    split at h
    · rename_i hname
      split at h
      · cases h
        exact ⟨f, rfl, hname⟩
      · exact hrest h
    · exact hrest h

/-- The first of its name is that of the file. -/
theorem storedColumn_first (hf : s[i]? = some f) (hfirst : s.indexOf f.name = some i) :
    storedColumn file s i = file.indexOf f.name := by
  have hturn : turn s f.name i = 0 := by
    refine List.countP_eq_zero.mpr fun g hg => ?_
    obtain ⟨_, _, _, hother⟩ := Schema.indexOf_eq_some.mp hfirst
    obtain ⟨k, hk, rfl⟩ := List.mem_take_iff_getElem.mp hg
    simpa using hother k (by omega) _ (List.getElem?_eq_getElem (by omega))
  rw [storedColumn, hf, Option.bind_some, hturn, nthNamed_zero]

theorem storedColumn_own (hf : s[i]? = some f) (hown : OwnName (s.map Field.name) i) :
    storedColumn file s i = file.indexOf f.name := by
  obtain ⟨i₀, hi₀⟩ := Schema.exists_indexOf (List.mem_of_getElem? hf)
  obtain ⟨g, hg, hname, -⟩ := Schema.indexOf_eq_some.mp hi₀
  obtain rfl := hown i₀ (by rw [List.getElem?_map, List.getElem?_map, hf, hg]; simp [hname])
  exact storedColumn_first hf hi₀

/-- A stored column is one of its name. -/
theorem storedColumn_eq_some (h : storedColumn file s i = some j) :
    ∃ f g j₀, s[i]? = some f ∧ file[j]? = some g ∧ g.name = f.name ∧
      file.indexOf f.name = some j₀ := by
  obtain ⟨f, hf, h⟩ := Option.bind_eq_some_iff.mp h
  obtain ⟨g, hg, hname⟩ := name_of_nthNamed h
  obtain ⟨j₀, hj₀⟩ := Schema.exists_indexOf (List.mem_of_getElem? hg)
  exact ⟨f, g, j₀, hf, hg, hname, hname ▸ hj₀⟩

/-- A column that was added has a name the file does not know. -/
theorem Earlier.absent_iff (h : Earlier file s) (hf : s[i]? = some f) :
    storedColumn file s i = none ↔ file.indexOf f.name = none := by
  constructor
  · intro hnone
    rw [← storedColumn_own hf (h.added i (List.getElem?_eq_some_iff.mp hf).1 hnone)]
    exact hnone
  · intro hnone
    rw [Option.eq_none_iff_forall_ne_some]
    intro j hj
    obtain ⟨f', _, _, hf', -, -, hsome⟩ := storedColumn_eq_some hj
    cases hf.symm.trans hf'
    rw [hnone] at hsome
    cases hsome

/-- A physical column is plain, or it has an expression. -/
theorem exists_spec {cols : TableColumns} (hf : cols.physicalSchema[i]? = some f) :
    ∃ spec, (spec, i) ∈ physicalSpecs cols ∧ spec.field = f ∧
      (spec.kind = .stored ∨ computedKind spec = true) := by
  rw [physicalSchema_eq, List.getElem?_map] at hf
  obtain ⟨spec, hspec, rfl⟩ := Option.map_eq_some_iff.mp hf
  refine ⟨spec, List.mem_zipIdx_iff_getElem?.mpr hspec, rfl, ?_⟩
  obtain ⟨-, hkind⟩ := List.mem_filter.mp (List.mem_of_getElem? hspec)
  unfold isPhysical at hkind
  unfold computedKind
  cases hk : spec.kind <;> simp_all

theorem mem_absentSpecs {cols : TableColumns} {c : ColumnSpec × Nat} :
    c ∈ absentSpecs file cols ↔
      c ∈ physicalSpecs cols ∧ storedColumn file cols.physicalSchema c.2 = none := by
  rw [absentSpecs, List.mem_filter, Option.isNone_iff_eq_none]

end Columns

/-! ## 4. Adapting a row -/

section Adapt

variable {file s : Schema} {r : Row file} {i : Nat} {f : Field}

theorem adaptRow_getElem? (hf : s[i]? = some f) :
    (adaptRow s r)[i]? = some (match file.indexOf f.name with
      | some j => r.cell j
      | none => .null) := by
  rw [adaptRow, List.getElem?_map, hf]
  rfl

theorem storedRow_getElem? (hf : s[i]? = some f) :
    (storedRow s r)[i]? = some (((storedColumn file s i).map r.cell).getD .null) := by
  obtain ⟨hi, -⟩ := List.getElem?_eq_some_iff.mp hf
  rw [storedRow, List.getElem?_map, List.getElem?_range hi]
  rfl

/-- **What is found by name is what is stored**, where the columns of one name agree. -/
theorem adaptRow_eq_storedRow (hearlier : Earlier file s) (h : TwinsAgree s r) :
    adaptRow s r = storedRow s r := by
  refine List.ext_getElem? fun i => ?_
  cases hf : s[i]? with
  | none =>
    have hi := List.getElem?_eq_none_iff.mp hf
    rw [List.getElem?_eq_none (by simpa [adaptRow] using hi),
      List.getElem?_eq_none (by simpa [storedRow] using hi)]
  | some f =>
    rw [adaptRow_getElem? hf, storedRow_getElem? hf]
    cases hj : storedColumn file s i with
    | none =>
      rw [(hearlier.absent_iff hf).mp hj]
      rfl
    | some j =>
      obtain ⟨f', g, j₀, hf', hg, hname, hj₀⟩ := storedColumn_eq_some hj
      cases hf.symm.trans hf'
      rw [hj₀, Option.map_some, Option.getD_some, h i j g j₀ hj hg (hname ▸ hj₀)]

/-- The columns with names of their own are found in any case. -/
theorem agreeOnOwn_adaptRow (s : Schema) (r : Row file) :
    AgreeOnOwn (s.map Field.name) (adaptRow s r) (storedRow s r) := by
  intro i hi hown
  rw [List.length_map] at hi
  have hf := List.getElem?_eq_getElem hi
  rw [adaptRow_getElem? hf, storedRow_getElem? hf, storedColumn_own hf hown]
  cases file.indexOf (s[i]).name <;> rfl

/-- What is stored of a row fits the current schema unless a column the file predates takes no
NULL. -/
theorem fits_storedRow (hearlier : Earlier file s)
    (hnull : ∀ i f, s[i]? = some f → storedColumn file s i = none → f.nullable = true) :
    s.fits (storedRow s r) = true := by
  refine Schema.fits_iff.mpr ⟨by simp [storedRow], fun i f v hf hv => ?_⟩
  rw [storedRow_getElem? hf, Option.some.injEq] at hv
  subst hv
  cases hj : storedColumn file s i with
  | none => exact hnull i f hf hj
  | some j =>
    obtain ⟨g, hg, htype, hnullable⟩ := hearlier.kept i f j hf hj
    exact Field.admits_mono htype hnullable (r.admits hg)

/-- A column the file predates takes NULLs, if an adapted row fits. -/
theorem nullable_of_fits (hfit : s.fits (adaptRow s r) = true) (hf : s[i]? = some f)
    (hnone : file.indexOf f.name = none) : f.nullable = true := by
  have := (Schema.fits_iff.mp hfit).2 i f _ hf (adaptRow_getElem? hf)
  rw [hnone] at this
  exact this

theorem adaptedTypes_iff : (s.all fun f => adaptedType file f = some f.dataType) = true ↔
    SameTypes file s := by
  rw [List.all_eq_true]
  refine forall_congr' fun f => forall_congr' fun _ => ?_
  rw [decide_eq_true_eq, adaptedType]
  cases file.indexOf f.name with
  | none => simp
  | some j => simp

theorem adaptToSchema_eq_ok (htypes : SameTypes file s) {batch : List (Row file)}
    (hfit : ∀ r ∈ batch, s.fits (adaptRow s r) = true) :
    ∃ out, adaptToSchema batch s = .ok out ∧ out.map Subtype.val = batch.map (adaptRow s) := by
  unfold adaptToSchema
  rw [if_pos (adaptedTypes_iff.mpr htypes)]
  obtain ⟨out, hnew⟩ := @Schema.tryNew_of_fits s (batch.map (adaptRow s))
    (List.forall_mem_map.mpr hfit)
  exact ⟨out, by rw [hnew], Schema.tryNew_eq_some.mp hnew⟩

/-- **The NULLs are checked before they are replaced**, and so are the types. -/
theorem adaptToSchema_eq_error {batch : List (Row file)}
    (h : ¬ (SameTypes file s ∧ ∀ r ∈ batch, s.fits (adaptRow s r) = true)) :
    adaptToSchema batch s = .error .arrow := by
  unfold adaptToSchema
  split
  · rename_i htypes
    have hunfit : ∃ r ∈ batch, s.fits (adaptRow s r) = false := by
      by_contra hall
      push Not at hall
      exact h ⟨adaptedTypes_iff.mp htypes, fun r hr => by simpa using hall r hr⟩
    obtain ⟨r, hr, hfit⟩ := hunfit
    rw [Schema.tryNew_eq_none.mpr ⟨_, List.mem_map_of_mem hr, hfit⟩]
  · rfl

/-- What a batch was adapted to. -/
theorem map_val_adaptToSchema {batch : List (Row file)} {out : List (Row s)}
    (h : adaptToSchema batch s = .ok out) : out.map Subtype.val = batch.map (adaptRow s) := by
  unfold adaptToSchema at h
  split at h
  · split at h
    · rename_i hnew
      cases h
      exact Schema.tryNew_eq_some.mp hnew
    · cases h
  · cases h

end Adapt

/-! ## 5. What the streams give -/

section Streams

variable {eval : Evaluator} {cols : TableColumns} {file : Schema} {path : String}
  {rows : List (Row file)}

/-- A cell is the one that the file has in the first column of the name. -/
def ReadByName (cols : TableColumns) {file : Schema} (r : Row file)
    (r' : Row cols.physicalSchema) : Prop :=
  ∀ i f j, cols.physicalSchema[i]? = some f → file.indexOf f.name = some j → r'.cell i = r.cell j

/-- What is found by name is what is stored, where the columns of one name agree, and nowhere
else. -/
theorem ReadByName.keepsStored_iff {r : Row file} {r' : Row cols.physicalSchema}
    (h : ReadByName cols r r') : KeepsStored cols r r' ↔ TwinsAgree cols.physicalSchema r := by
  constructor
  · intro hkeeps i j g j₀ hj hg hj₀
    obtain ⟨f, g', _, hf, hg', hname, -⟩ := storedColumn_eq_some hj
    cases hg.symm.trans hg'
    rw [← hkeeps i j hj, h i f j₀ hf (hname ▸ hj₀)]
  · intro hagree i j hj
    obtain ⟨f, g, j₀, hf, hg, hname, hj₀⟩ := storedColumn_eq_some hj
    rw [h i f j₀ hf hj₀, hagree i j g j₀ hj hg (hname ▸ hj₀)]

/-- **A batch that is read has what is found by name.** -/
theorem readByName_of_readBatch {out : List (Row cols.physicalSchema)}
    (h : readBatch eval cols.physicalSchema cols path (some rows) = .ok out) :
    List.Forall₂ (ReadByName cols) rows out := by
  obtain ⟨adapted, hadapted, h⟩ := Except.bind_eq_ok_iff.mp h
  have happly := Except.mapError_eq_ok_iff.mp h
  have hcells := foldlM_fillSpec_getElem? (applyDefaults_eq_ok happly)
  rw [map_val_adaptToSchema hadapted, List.forall₂_map_left_iff,
    List.forall₂_map_right_iff] at hcells
  refine hcells.imp fun r r' hr i f j hf hj => ?_
  -- no spec the file predates writes a column of a name that it has
  have hcell : r'.val[i]? = (adaptRow cols.physicalSchema r)[i]? := by
    refine hr i fun spec hspec _ hi => ?_
    obtain ⟨-, habsent⟩ := List.mem_filter.mp hspec
    obtain ⟨f', hf', hname, -⟩ := Schema.indexOf_eq_some.mp hi
    cases hf.symm.trans hf'
    rw [Option.isNone_iff_eq_none, ← hname, hj] at habsent
    cases habsent
  rw [adaptRow_getElem? hf, hj] at hcell
  rw [Row.cell, hcell]
  rfl

/-- What the code computes without its checks: the columns are found by name. -/
def foundByName (eval : Evaluator) (cols : TableColumns) {file : Schema} (rows : List (Row file)) :
    Option (List (List Value)) :=
  (cols.specs.filter fun spec => (file.indexOf spec.name).isNone).foldlM
    (backfillSpec eval cols.physicalSchema) (rows.map (adaptRow cols.physicalSchema))

theorem readBatch_eq_error (path : String) (h : ¬ (SameTypes file cols.physicalSchema ∧
      ∀ r ∈ rows, cols.physicalSchema.fits (adaptRow cols.physicalSchema r) = true)) :
    readBatch eval cols.physicalSchema cols path (some rows) = .error .arrow := by
  rw [readBatch, adaptToSchema_eq_error h]
  rfl

/-- Where the adapted rows fit, the batch is what is found by name, or an expression fails. -/
theorem readBatch_of_fits (htyped : EvaluatorTyped eval) (path : String)
    (htypes : SameTypes file cols.physicalSchema)
    (hfit : ∀ r ∈ rows, cols.physicalSchema.fits (adaptRow cols.physicalSchema r) = true) :
    match foundByName eval cols rows with
    | some columns => ∃ out, readBatch eval cols.physicalSchema cols path (some rows) = .ok out ∧
        out.map Subtype.val = columns
    | none => ∃ e, readBatch eval cols.physicalSchema cols path (some rows) = .error e := by
  obtain ⟨adapted, hadapted, hval⟩ := adaptToSchema_eq_ok htypes hfit
  have hfits : ∀ r ∈ rows.map (adaptRow cols.physicalSchema),
      cols.physicalSchema.fits r = true := List.forall_mem_map.mpr hfit
  have hmissing : rows.map (adaptRow cols.physicalSchema) = [] ∨
      ∀ spec ∈ cols.specs.filter fun spec => (file.indexOf spec.name).isNone,
        isMaterialized spec = true → ∀ f ∈ cols.physicalSchema, f.name = spec.name →
          f.nullable = true := by
    cases rows with
    | nil => exact Or.inl rfl
    | cons r rows =>
      refine Or.inr fun spec hspec _ f hf hname => ?_
      obtain ⟨i, hi⟩ := List.mem_iff_getElem?.mp hf
      refine nullable_of_fits (hfit r List.mem_cons_self) hi ?_
      rw [hname]
      simpa using (List.mem_filter.mp hspec).2
  have hloop := foldlM_fillSpec_of_fits htyped hfits hmissing
  rw [readBatch, hadapted]
  unfold foundByName applyMissingDefaultsAndMaterialized applyDefaultsAndMaterialized
  simp only [bind, Except.bind, hval]
  generalize (cols.specs.filter fun spec => (file.indexOf spec.name).isNone).foldlM
    (backfillSpec eval cols.physicalSchema) (rows.map (adaptRow cols.physicalSchema)) = found
      at hloop ⊢
  cases found with
  | none =>
    obtain ⟨e, he⟩ := hloop
    exact ⟨.expr e, by rw [he]; rfl⟩
  | some columns =>
    obtain ⟨hfold, hfits⟩ := hloop
    obtain ⟨out, hout⟩ := Schema.tryNew_of_fits hfits
    refine ⟨out, ?_, Schema.tryNew_eq_some.mp hout⟩
    rw [hfold]
    simp only [hout]
    rfl

/-- An added column is the one of its name. -/
theorem backfillSpec_of_added (hearlier : Earlier file cols.physicalSchema) {c : ColumnSpec × Nat}
    (hc : c ∈ absentSpecs file cols) (rows : List (List Value)) :
    backfillSpec eval cols.physicalSchema rows c.1 = backfillAt eval cols.physicalSchema rows c := by
  obtain ⟨hmem, hnone⟩ := mem_absentSpecs.mp hc
  have hf := field_of_mem hmem
  have hown := hearlier.added c.2 (List.getElem?_eq_some_iff.mp hf).1 hnone
  obtain ⟨i₀, hi₀⟩ := Schema.exists_indexOf (List.mem_of_getElem? hf)
  obtain ⟨g, hg, hname, -⟩ := Schema.indexOf_eq_some.mp hi₀
  have hindex : cols.physicalSchema.indexOf c.1.name = some c.2 := by
    rw [← hown i₀ (by rw [List.getElem?_map, List.getElem?_map, hf, hg]; simp [hname])]
    exact hi₀
  unfold backfillSpec backfillAt computedCells
  cases c.1.kind <;> simp only [hindex, hf, Option.bind_eq_bind, Option.bind_some]
  all_goals
    first
    | rfl
    | (cases eval _ cols.physicalSchema.withNullable c.1.field.withNullable rows <;> rfl)

theorem foldlM_congr_mem {α β : Type} {g g' : β → α → Option β} {l : List α}
    (h : ∀ a ∈ l, ∀ b, g b a = g' b a) (b : β) : l.foldlM g b = l.foldlM g' b := by
  induction l generalizing b with
  | nil => rfl
  | cons a l ih =>
    rw [List.foldlM_cons, List.foldlM_cons, h a List.mem_cons_self]
    exact congrArg _ (funext fun b' => ih (fun x hx => h x (List.mem_cons_of_mem a hx)) b')

/-- **The specs of the columns the file predates**, found by name or by place. -/
theorem foldlM_backfillAt (hearlier : Earlier file cols.physicalSchema)
    (rows : List (List Value)) :
    (cols.specs.filter fun spec => (file.indexOf spec.name).isNone).foldlM
        (backfillSpec eval cols.physicalSchema) rows =
      (absentSpecs file cols).foldlM (backfillAt eval cols.physicalSchema) rows := by
  -- a spec that is no physical column changes nothing
  have hphysical : ((cols.specs.filter fun spec => (file.indexOf spec.name).isNone).filter
      isPhysical).foldlM (backfillSpec eval cols.physicalSchema) rows =
      (cols.specs.filter fun spec => (file.indexOf spec.name).isNone).foldlM
        (backfillSpec eval cols.physicalSchema) rows := by
    rw [List.foldlM_filter]
    refine foldlM_congr_mem (fun spec _ rows => ?_) rows
    unfold isPhysical backfillSpec
    cases spec.kind <;> rfl
  have hzip : cols.specs.filter isPhysical = (physicalSpecs cols).map Prod.fst :=
    (List.zipIdx_map_fst 0 _).symm
  have habsent : (physicalSpecs cols).filter (fun c => (file.indexOf c.1.name).isNone) =
      absentSpecs file cols := by
    refine List.filter_congr fun c hc => ?_
    have := hearlier.absent_iff (field_of_mem hc)
    exact Bool.eq_iff_iff.mpr (by
      rw [Option.isNone_iff_eq_none, Option.isNone_iff_eq_none]
      exact this.symm)
  rw [← hphysical, List.filter_filter, List.filter_congr fun _ _ => Bool.and_comm _ _,
    ← List.filter_filter, hzip, List.filter_map, List.foldlM_map]
  show ((physicalSpecs cols).filter fun c => (file.indexOf c.1.name).isNone).foldlM _ _ = _
  rw [habsent]
  exact foldlM_congr_mem (fun c hc rows => backfillSpec_of_added hearlier hc rows) rows

/-! ### What the expressions see -/

theorem AgreeOnOwn.set {names : List String} {a b : List Value} (h : AgreeOnOwn names a b)
    {i : Nat} (hi : i < names.length) (hown : OwnName names i) (v : Value) :
    AgreeOnOwn names (a.set i v) (b.set i v) := by
  intro k hk hown'
  rw [List.getElem?_set, List.getElem?_set]
  split
  · have hlen : i < a.length ↔ i < b.length := by
      rw [← not_iff_not, Nat.not_lt, Nat.not_lt, ← List.getElem?_eq_none_iff,
        ← List.getElem?_eq_none_iff, h i hi hown]
    simp only [hlen]
  · exact h k hk hown'

theorem forall₂_zipWith {α β : Type} {R : α → α → Prop} {g : α → β → α} {l l' : List α}
    (h : List.Forall₂ R l l') (hg : ∀ a a' b, R a a' → R (g a b) (g a' b)) (m : List β) :
    List.Forall₂ R (l.zipWith g m) (l'.zipWith g m) := by
  induction h generalizing m with
  | nil => exact .nil
  | cons hr _ ih =>
    cases m with
    | nil => exact .nil
    | cons b m => exact .cons (hg _ _ b hr) (ih m)

/-- A column with a name of its own is computed alike over rows that agree. -/
theorem backfillAt_agree (hunambiguous : Unambiguous eval) {s : Schema} {c : ColumnSpec × Nat}
    (hc : c.2 < s.length) (hown : OwnName (s.map Field.name) c.2) {rows rows' : List (List Value)}
    (h : List.Forall₂ (AgreeOnOwn (s.map Field.name)) rows rows') {out : List (List Value)}
    (hout : backfillAt eval s rows c = some out) :
    ∃ out', backfillAt eval s rows' c = some out' ∧
      List.Forall₂ (AgreeOnOwn (s.map Field.name)) out out' := by
  have hnames : s.withNullable.map Field.name = s.map Field.name := by
    rw [Schema.withNullable, List.map_map]
    rfl
  have heval : ∀ sql f, eval sql s.withNullable f rows = eval sql s.withNullable f rows' :=
    fun sql f => hunambiguous sql _ f rows rows' (hnames.symm ▸ h)
  have hlen : c.2 < (s.map Field.name).length := by rwa [List.length_map]
  unfold backfillAt at hout ⊢
  simp only [heval] at hout
  cases hkind : c.1.kind with
  | stored =>
    rw [hkind] at hout
    cases hout
    exact ⟨rows', rfl, h⟩
  | aliased sql =>
    rw [hkind] at hout
    cases hout
    exact ⟨rows', rfl, h⟩
  | materialized sql =>
    simp only [hkind] at hout ⊢
    obtain ⟨cells, hcells, rfl⟩ := Option.map_eq_some_iff.mp hout
    exact ⟨_, Option.map_eq_some_iff.mpr ⟨cells, hcells, rfl⟩,
      forall₂_zipWith h (fun _ _ v hr => hr.set hlen hown v) cells⟩
  | default sql =>
    simp only [hkind] at hout ⊢
    obtain ⟨cells, hcells, rfl⟩ := Option.map_eq_some_iff.mp hout
    refine ⟨_, Option.map_eq_some_iff.mpr ⟨cells, hcells, rfl⟩,
      forall₂_zipWith h (fun a b v hr => ?_) cells⟩
    rw [hr c.2 hlen hown]
    split
    · exact hr.set hlen hown v
    · exact hr

theorem foldlM_backfillAt_agree (hunambiguous : Unambiguous eval) {s : Schema}
    {specs : List (ColumnSpec × Nat)}
    (hspecs : ∀ c ∈ specs, c.2 < s.length ∧ OwnName (s.map Field.name) c.2)
    {rows rows' out : List (List Value)}
    (h : List.Forall₂ (AgreeOnOwn (s.map Field.name)) rows rows')
    (hout : specs.foldlM (backfillAt eval s) rows = some out) :
    ∃ out', specs.foldlM (backfillAt eval s) rows' = some out' := by
  induction specs generalizing rows rows' with
  | nil => exact ⟨rows', rfl⟩
  | cons c specs ih =>
    rw [List.foldlM_cons] at hout ⊢
    obtain ⟨middle, hmiddle, hout⟩ := Option.bind_eq_some_iff.mp hout
    obtain ⟨hlen, hown⟩ := hspecs c List.mem_cons_self
    obtain ⟨middle', hmiddle', hagree⟩ := backfillAt_agree hunambiguous hlen hown h hmiddle
    rw [hmiddle']
    exact ih (fun c' hc' => hspecs c' (List.mem_cons_of_mem c hc')) hagree hout

/-- Where what is found by name can be completed, what is stored can. -/
theorem backfilled_of_foundByName (hunambiguous : Unambiguous eval)
    (hearlier : Earlier file cols.physicalSchema) {out : List (List Value)}
    (h : foundByName eval cols rows = some out) : ∃ out', backfilled eval cols rows = some out' := by
  rw [foundByName, foldlM_backfillAt hearlier] at h
  refine foldlM_backfillAt_agree hunambiguous (fun c hc => ?_) ?_ h
  · obtain ⟨hmem, hnone⟩ := mem_absentSpecs.mp hc
    have hlen := (List.getElem?_eq_some_iff.mp (field_of_mem hmem)).1
    exact ⟨hlen, hearlier.added c.2 hlen hnone⟩
  · rw [List.forall₂_map_left_iff, List.forall₂_map_right_iff]
    exact List.forall₂_same.mpr fun r _ => agreeOnOwn_adaptRow _ r

/-- The two are the same where the columns of one name agree. -/
theorem foundByName_eq (hearlier : Earlier file cols.physicalSchema)
    (hagree : ∀ r ∈ rows, TwinsAgree cols.physicalSchema r) :
    foundByName eval cols rows = backfilled eval cols rows := by
  rw [foundByName, foldlM_backfillAt hearlier, backfilled,
    List.map_congr_left fun r hr => adaptRow_eq_storedRow hearlier (hagree r hr)]

/-! ### The batches -/

/-- A batch whose adapted rows fit has none of the reasons to fail that lie in its columns. -/
theorem not_mayFail_of_fits (hearlier : Earlier file cols.physicalSchema) {r : Row file}
    (hfit : cols.physicalSchema.fits (adaptRow cols.physicalSchema r) = true)
    {out : List (List Value)} (hout : backfilled eval cols rows = some out) :
    ¬ MayFail eval cols rows := by
  have hnullable : ∀ c ∈ absentSpecs file cols, c.1.nullable = true := by
    intro c hc
    obtain ⟨hmem, hnone⟩ := mem_absentSpecs.mp hc
    have hf := field_of_mem hmem
    exact nullable_of_fits hfit hf ((hearlier.absent_iff hf).mp hnone)
  rintro (⟨c, hc, -, hnull⟩ | hnone | ⟨out', -, c, hc, -, hnull, -⟩)
  · exact Bool.false_ne_true (hnull.symm.trans (hnullable c hc))
  · cases hnone.symm.trans hout
  · exact Bool.false_ne_true (hnull.symm.trans (hnullable c hc))

/-- **When a batch is read as it should be.** -/
theorem batchRead_iff (htyped : EvaluatorTyped eval) (hunambiguous : Unambiguous eval)
    (hearlier : Earlier file cols.physicalSchema) (path : String) (rows : List (Row file)) :
    BatchRead eval cols (some rows)
        (readBatch eval cols.physicalSchema cols path (some rows)) ↔
      MayFail eval cols rows ∨ SameTypes file cols.physicalSchema ∧
        (rows = [] ∨ Fillable file cols ∧ ∀ r ∈ rows, TwinsAgree cols.physicalSchema r) := by
  by_cases hfits : SameTypes file cols.physicalSchema ∧
      ∀ r ∈ rows, cols.physicalSchema.fits (adaptRow cols.physicalSchema r) = true
  swap
  · -- the batch is refused
    rw [readBatch_eq_error path hfits]
    refine ⟨Or.inl, ?_⟩
    rintro (hmay | ⟨htypes, rfl | ⟨hfill, hagree⟩⟩)
    · exact hmay
    · exact absurd ⟨htypes, fun r hr => absurd hr List.not_mem_nil⟩ hfits
    · by_contra hno
      refine hfits ⟨htypes, fun r hr => ?_⟩
      rw [adaptRow_eq_storedRow hearlier (hagree r hr)]
      refine fits_storedRow hearlier fun i f hf hnone => ?_
      obtain ⟨spec, hspec, rfl, hkind⟩ := exists_spec hf
      have habsent : (spec, i) ∈ absentSpecs file cols := mem_absentSpecs.mpr ⟨hspec, hnone⟩
      obtain hstored | hcomputed := hkind
      · by_contra hnull
        exact hno (Or.inl ⟨_, habsent, hstored, Bool.eq_false_iff.mpr hnull⟩)
      · exact hfill _ habsent hcomputed
  · obtain ⟨htypes, hfit⟩ := hfits
    have hread := readBatch_of_fits htyped path htypes hfit
    by_cases hagree : ∀ r ∈ rows, TwinsAgree cols.physicalSchema r
    · refine iff_of_true ?_ (Or.inr ⟨htypes, ?_⟩)
      · rw [foundByName_eq hearlier hagree] at hread
        cases hideal : backfilled eval cols rows with
        | none =>
          rw [hideal] at hread
          obtain ⟨e, he⟩ := hread
          rw [he]
          exact Or.inr (Or.inl hideal)
        | some columns =>
          rw [hideal] at hread
          obtain ⟨out, hout, rfl⟩ := hread
          rw [hout]
          refine ⟨hideal, ((List.forall₂_and_left _ _).mpr
            ⟨hagree, readByName_of_readBatch hout⟩).imp ?_⟩
          exact fun r r' h => h.2.keepsStored_iff.mpr h.1
      · cases rows with
        | nil => exact Or.inl rfl
        | cons r rows =>
          refine Or.inr ⟨fun c hc _ => ?_, hagree⟩
          obtain ⟨hmem, hnone⟩ := mem_absentSpecs.mp hc
          have hf := field_of_mem hmem
          exact nullable_of_fits (hfit r List.mem_cons_self) hf ((hearlier.absent_iff hf).mp hnone)
    · -- a row has two values under one name
      rw [or_iff_left (by
        rintro ⟨-, rfl | ⟨-, hall⟩⟩
        · exact hagree fun r hr => absurd hr List.not_mem_nil
        · exact hagree hall)]
      cases hfound : foundByName eval cols rows with
      | none =>
        rw [hfound] at hread
        obtain ⟨e, he⟩ := hread
        rw [he]
        exact Iff.rfl
      | some columns =>
        rw [hfound] at hread
        obtain ⟨out, hout, -⟩ := hread
        rw [hout]
        refine iff_of_false (fun h => hagree fun r hr => ?_) ?_
        · obtain ⟨-, -, h⟩ := (h.2.mp (fun _ _ hkeeps hname => hname.keepsStored_iff.mp hkeeps)
            (readByName_of_readBatch hout)).exists_of_mem hr
          exact h
        · push Not at hagree
          obtain ⟨r, hr, -⟩ := hagree
          obtain ⟨ideal, hideal⟩ := backfilled_of_foundByName hunambiguous hearlier hfound
          exact not_mayFail_of_fits hearlier (hfit r hr) hideal

end Streams

/-! ## 6. A column added to a table with files -/

/-- A table that has got a column `region`, never NULL and `'eu'` unless it is given. -/
def regionSchema : Json :=
  .obj [("fields", .arr [
    .obj [("name", .str "tenant_id"), ("type", .str "int64"), ("nullable", .bool false)],
    .obj [("name", .str "region"), ("type", .str "utf8"), ("nullable", .bool false),
      ("default", .str "'eu'")]])]

def regionColumns : TableColumns :=
  ⟨[⟨"tenant_id", .int64, false, .stored, "int64", false⟩,
    ⟨"region", .utf8, false, .default "'eu'", "utf8", false⟩]⟩

def tenantRow : Row [⟨"tenant_id", .int64, false, none⟩] := ⟨[.int64 (smallI64 7)], by decide⟩

/-- A file that was written before, and the part that names it. -/
def tenantFile : PartFile := ⟨[⟨"tenant_id", .int64, false, none⟩], [some [tenantRow]]⟩

def tenantPart : PartMeta := ⟨"ht/1/L0/a.parquet", .obj [], 7, 7, 1, 100, 0, none⟩

def tenantStore : String → Option PartFile := fun path =>
  if path = tenantPart.path then some tenantFile else none

/-- The expression, as SQL evaluates it. -/
def regionExprs : Evaluator := fun sql _ f rows =>
  if sql = "'eu'" ∧ f.dataType = .utf8 then some (rows.map fun _ => .utf8 "eu") else none

theorem regionExprs_typed : EvaluatorTyped regionExprs := by
  intro sql s f rows out h
  unfold regionExprs at h
  split at h
  · rename_i hsql
    cases h
    refine ⟨List.length_map _, ?_⟩
    intro v hv
    obtain ⟨r, -, rfl⟩ := List.mem_map.mp hv
    exact decide_eq_true hsql.2
  · cases h

theorem regionExprs_unambiguous : Unambiguous regionExprs := by
  intro sql s f rows rows' h
  have hrows : (rows.map fun _ => Value.utf8 "eu") = rows'.map fun _ => Value.utf8 "eu" := by
    rw [List.map_const', List.map_const', h.length_eq]
  unfold regionExprs
  rw [hrows]

theorem tenantFile_earlier : ∀ part ∈ [tenantPart], ∀ file, tenantStore part.path = some file →
    Earlier file.schema regionColumns.physicalSchema := by
  intro part hpart file hfile
  rw [List.mem_singleton.mp hpart] at hfile
  cases hfile
  have hstored : storedColumn tenantFile.schema regionColumns.physicalSchema 0 = some 0 ∧
      storedColumn tenantFile.schema regionColumns.physicalSchema 1 = none := by decide
  refine ⟨fun i f j hf hj => ?_, fun i hi hnone i' hname => ?_⟩
  · match i, hf with
    | 0, hf =>
      cases hf
      cases hstored.1.symm.trans hj
      exact ⟨_, rfl, rfl, id⟩
    | 1, hf => cases hstored.2.symm.trans hj
  · match i, i', hname with
    | 0, _, _ => cases hstored.1.symm.trans hnone
    | 1, 1, _ => rfl
    | 1, 0, hname => exact absurd hname (by decide)
    | 1, i' + 2, hname => cases hname

/-- A table with two columns `x`, that has got a column `region` which may be NULL. -/
def pairColumns : TableColumns :=
  ⟨[⟨"tenant_id", .int64, false, .stored, "int64", false⟩,
    ⟨"x", .int64, true, .stored, "int64", false⟩, ⟨"x", .int64, true, .stored, "int64", false⟩,
    ⟨"region", .utf8, true, .default "'eu'", "utf8", false⟩]⟩

def pairSchema : Schema :=
  [⟨"tenant_id", .int64, false, none⟩, ⟨"x", .int64, true, none⟩, ⟨"x", .int64, true, none⟩]

theorem pairRow_fits (tenant x x' : UInt8) : Schema.fits pairSchema
    [.int64 (smallI64 tenant), .int64 (smallI64 x), .int64 (smallI64 x')] = true := rfl

def pairRow (tenant x x' : UInt8) : Row pairSchema :=
  ⟨[.int64 (smallI64 tenant), .int64 (smallI64 x), .int64 (smallI64 x')],
    pairRow_fits tenant x x'⟩

def pairFile (rows : List (Row pairSchema)) : PartFile := ⟨pairSchema, [some rows]⟩

def pairStore (rows : List (Row pairSchema)) : String → Option PartFile := fun path =>
  if path = tenantPart.path then some (pairFile rows) else none

theorem pairFile_earlier : Earlier pairSchema pairColumns.physicalSchema := by
  have hstored : ∀ i < 4, storedColumn pairSchema pairColumns.physicalSchema i =
      if i < 3 then some i else none := by decide
  refine ⟨fun i f j hf hj => ?_, fun i hi hnone i' hname => ?_⟩
  · match i, hf with
    | 0, hf | 1, hf | 2, hf =>
      cases hf
      cases (hstored _ (by omega)).symm.trans hj
      exact ⟨_, rfl, rfl, id⟩
    | 3, hf => cases (hstored 3 (by omega)).symm.trans hj
  · match i, i', hname with
    | 0, _, _ | 1, _, _ | 2, _, _ => cases (hstored _ (by omega)).symm.trans hnone
    | 3, 3, _ => rfl
    | 3, 0, hname | 3, 1, hname | 3, 2, hname => exact absurd hname (by decide)
    | 3, i' + 4, hname => cases hname

theorem pairRow_agrees (tenant x : UInt8) :
    TwinsAgree pairColumns.physicalSchema (pairRow tenant x x) := by
  intro i j f j₀ _ hj hj₀
  have hplaces : pairSchema.indexOf "tenant_id" = some 0 ∧ pairSchema.indexOf "x" = some 1 := by
    decide
  match j, hj with
  | 0, hj =>
    cases hj
    cases hplaces.1.symm.trans hj₀
    rfl
  | 1, hj | 2, hj =>
    cases hj
    cases hplaces.2.symm.trans hj₀
    rfl

end Ukiel.Compactor
