/-
# The loop of defaults, without its checks

`fillSpec` rebuilds the batch in every round, which checks each time that no NULL stands where none
may.  `backfillSpec` is the round without the check: what the expressions give.  The two agree as
long as the rows fit (`foldlM_fillSpec_of_fits`), and they stay fitting if no materialized column
refuses NULLs; a default is put only where there is a NULL.
-/
import Ukiel.Expr.Defaults

namespace Ukiel.Expr

/-! ## 1. A round without checks -/

/-- A column with an expression that is evaluated at write time. -/
def computedKind (spec : ColumnSpec) : Bool := spec.kind matches .default _ | .materialized _

def isMaterialized (spec : ColumnSpec) : Bool := spec.kind matches .materialized _

/-- What an insert carries: stored and default columns. -/
def ColumnSpec.isInput (spec : ColumnSpec) : Bool := spec.kind matches .stored | .default _

def isPhysical (c : ColumnSpec) : Bool := !(c.kind matches .aliased _)

/-- The physical columns, with their places. -/
def physicalSpecs (cols : TableColumns) : List (ColumnSpec × Nat) :=
  (cols.specs.filter isPhysical).zipIdx

theorem physicalSchema_eq (cols : TableColumns) :
    cols.physicalSchema = (cols.specs.filter isPhysical).map ColumnSpec.field := rfl

theorem field_of_mem {cols : TableColumns} {c : ColumnSpec × Nat} (h : c ∈ physicalSpecs cols) :
    cols.physicalSchema[c.2]? = some c.1.field := by
  rw [physicalSchema_eq, List.getElem?_map, List.mem_zipIdx_iff_getElem?.mp h]
  rfl

/-- The columns of the files: the stored ones and those with an expression. -/
theorem mem_physicalSchema {cols : TableColumns} {f : Field} : f ∈ cols.physicalSchema ↔
    ∃ spec ∈ cols.specs, (spec.kind = .stored ∨ computedKind spec = true) ∧ spec.field = f := by
  unfold TableColumns.physicalSchema TableColumns.schemaWhere computedKind
  rw [List.mem_map]
  constructor
  · rintro ⟨spec, hspec, rfl⟩
    obtain ⟨hmem, hkind⟩ := List.mem_filter.mp hspec
    refine ⟨spec, hmem, ?_, rfl⟩
    cases hk : spec.kind <;> simp_all
  · rintro ⟨spec, hmem, hkind, rfl⟩
    refine ⟨spec, List.mem_filter.mpr ⟨hmem, ?_⟩, rfl⟩
    cases hk : spec.kind <;> simp_all

/-- An expression's cells for the column of that name, and the column's place. -/
def computedCells (eval : Evaluator) (s : Schema) (name sql : String) (rows : List (List Value)) :
    Option (Nat × List Value) := do
  let i ← s.indexOf name
  let f ← s[i]?
  let computed ← eval sql s.withNullable f.withNullable rows
  return (i, computed)

/-- The column of a spec with an expression, computed over the rows as they are.  Nothing here
asks whether a cell may be NULL. -/
def backfillSpec (eval : Evaluator) (s : Schema) (rows : List (List Value)) (spec : ColumnSpec) :
    Option (List (List Value)) :=
  match spec.kind with
  | .default sql => (computedCells eval s spec.name sql rows).map fun c => fillColumn c.1 c.2 rows
  | .materialized sql =>
    (computedCells eval s spec.name sql rows).map fun c => setColumn c.1 c.2 rows
  | .stored => some rows
  | .aliased _ => some rows

/-- An expression is cast to the column's type and gives one cell for each row. -/
def EvaluatorTyped (eval : Evaluator) : Prop :=
  ∀ sql s f rows out, eval sql s f rows = some out →
    out.length = rows.length ∧ ∀ v ∈ out, f.withNullable.admits v = true

/-! ## 2. What a round does -/

section Fill

variable {eval : Evaluator} {s : Schema}

theorem forall_mem_zipWith {α β γ : Type} {f : α → β → γ} {l : List α} {m : List β} {P : γ → Prop}
    (h : ∀ a ∈ l, ∀ b ∈ m, P (f a b)) : ∀ c ∈ l.zipWith f m, P c := by
  intro c hc
  obtain ⟨i, hi⟩ := List.mem_iff_getElem?.mp hc
  rw [List.getElem?_zipWith] at hi
  split at hi
  · rename_i a b ha hb
    cases hi
    exact h a (List.mem_of_getElem? ha) b (List.mem_of_getElem? hb)
  · cases hi

theorem fits_setColumn {rows : List (List Value)} (h : ∀ r ∈ rows, s.fits r = true) {i : Nat}
    {f : Field} (hf : s[i]? = some f) {computed : List Value}
    (hv : ∀ v ∈ computed, f.admits v = true) : ∀ r ∈ setColumn i computed rows, s.fits r = true :=
  forall_mem_zipWith fun r hr v hc => Schema.fits_set (h r hr) hf (hv v hc)

/-- A NULL is replaced only where NULLs are admitted. -/
theorem fits_fillColumn {rows : List (List Value)} (h : ∀ r ∈ rows, s.fits r = true) {i : Nat}
    {f : Field} (hf : s[i]? = some f) {computed : List Value}
    (hv : ∀ v ∈ computed, f.withNullable.admits v = true) :
    ∀ r ∈ fillColumn i computed rows, s.fits r = true := by
  refine forall_mem_zipWith fun r hr v hc => ?_
  split
  · rename_i hcell
    have hnullable : f.nullable = true := (Schema.fits_iff.mp (h r hr)).2 i f .null hf hcell
    exact Schema.fits_set (h r hr) hf
      (Field.admits_mono (f := f) (g := f.withNullable) rfl (fun _ => hnullable) (hv v hc))
  · exact h r hr

theorem computedCells_eq_some {name sql : String} {rows : List (List Value)}
    {c : Nat × List Value} :
    computedCells eval s name sql rows = some c ↔
      s.indexOf name = some c.1 ∧ ∃ f, s[c.1]? = some f ∧
        eval sql s.withNullable f.withNullable rows = some c.2 := by
  obtain ⟨i, computed⟩ := c
  unfold computedCells
  simp only [Option.bind_eq_bind, Option.bind_eq_some_iff, Option.pure_def, Option.some.injEq,
    Prod.mk.injEq]
  constructor
  · rintro ⟨j, hj, f, hf, cells, heval, rfl, rfl⟩
    exact ⟨hj, f, hf, heval⟩
  · rintro ⟨hj, f, hf, heval⟩
    exact ⟨i, hj, f, hf, computed, heval, rfl, rfl⟩

/-- What the columns of a spec are replaced by. -/
theorem backfillSpec_eq_some {rows out : List (List Value)} {spec : ColumnSpec}
    (h : backfillSpec eval s rows spec = some out) :
    computedKind spec = false ∧ out = rows ∨
    computedKind spec = true ∧ ∃ i f sql computed, s.indexOf spec.name = some i ∧
      s[i]? = some f ∧ eval sql s.withNullable f.withNullable rows = some computed ∧
        (out = fillColumn i computed rows ∨
          isMaterialized spec = true ∧ out = setColumn i computed rows) := by
  unfold backfillSpec at h
  unfold computedKind
  split at h
  · rename_i sql hkind
    obtain ⟨c, hc, rfl⟩ := Option.map_eq_some_iff.mp h
    obtain ⟨hi, f, hf, heval⟩ := computedCells_eq_some.mp hc
    exact Or.inr ⟨by rw [hkind], c.1, f, sql, c.2, hi, hf, heval, Or.inl rfl⟩
  · rename_i sql hkind
    obtain ⟨c, hc, rfl⟩ := Option.map_eq_some_iff.mp h
    obtain ⟨hi, f, hf, heval⟩ := computedCells_eq_some.mp hc
    exact Or.inr ⟨by rw [hkind], c.1, f, sql, c.2, hi, hf, heval,
      Or.inr ⟨by rw [isMaterialized, hkind], rfl⟩⟩
  · rename_i hkind
    cases h
    exact Or.inl ⟨by rw [hkind], rfl⟩
  · rename_i hkind
    cases h
    exact Or.inl ⟨by rw [hkind], rfl⟩

/-- **A round of the loop**, over rows that fit: it computes the spec's column, or fails where
the expression does. -/
theorem fillSpec_of_fits (htyped : EvaluatorTyped eval) {rows : List (List Value)}
    (hfit : ∀ r ∈ rows, s.fits r = true) (spec : ColumnSpec) :
    match backfillSpec eval s rows spec with
    | some out => fillSpec eval s rows spec = .ok out
    | none => ∃ e, fillSpec eval s rows spec = .error e := by
  obtain ⟨current, hcurrent⟩ := Schema.tryNew_of_fits hfit
  unfold backfillSpec fillSpec computedCells
  -- the two kinds of expression columns differ in how the cells are put in
  cases hkind : spec.kind with
  | stored => rfl
  | aliased sql => rfl
  | default sql =>
    cases hi : s.indexOf spec.name with
    | none => simp
    | some i =>
      cases hf : s[i]? with
      | none => simp [hcurrent, hf]
      | some f =>
        cases heval : eval sql s.withNullable f.withNullable rows with
        | none => simp [hcurrent, hf, heval]
        | some computed => simp [hcurrent, hf, heval, (htyped _ _ _ _ _ heval).1]
  | materialized sql =>
    cases hi : s.indexOf spec.name with
    | none => simp
    | some i =>
      cases hf : s[i]? with
      | none => simp [hcurrent, hf]
      | some f =>
        cases heval : eval sql s.withNullable f.withNullable rows with
        | none => simp [hcurrent, hf, heval]
        | some computed => simp [hcurrent, hf, heval, (htyped _ _ _ _ _ heval).1]

/-- A round leaves rows that fit, where a materialized column may be NULL or there are no rows. -/
theorem fits_backfillSpec (htyped : EvaluatorTyped eval) {rows out : List (List Value)}
    (hfit : ∀ r ∈ rows, s.fits r = true) {spec : ColumnSpec}
    (hnull : rows = [] ∨ (isMaterialized spec = true → ∀ f ∈ s, f.name = spec.name →
      f.nullable = true))
    (h : backfillSpec eval s rows spec = some out) :
    (∀ r ∈ out, s.fits r = true) ∧ out.length = rows.length := by
  rcases backfillSpec_eq_some h with ⟨-, rfl⟩ | ⟨-, i, f, sql, computed, hi, hf, heval, hout⟩
  · exact ⟨hfit, rfl⟩
  · obtain ⟨hlen, hcells⟩ := htyped _ _ _ _ _ heval
    rcases hout with rfl | ⟨hkind, rfl⟩
    · exact ⟨fits_fillColumn hfit hf hcells, by simp [fillColumn, hlen]⟩
    · refine ⟨fits_setColumn hfit hf fun v hv => ?_, by simp [setColumn, hlen]⟩
      rcases hnull with rfl | hnull
      · rw [List.length_nil, List.length_eq_zero_iff] at hlen
        rw [hlen] at hv
        cases hv
      · obtain ⟨f', hf', hname, -⟩ := Schema.indexOf_eq_some.mp hi
        rw [hf, Option.some.injEq] at hf'
        have hnullable := hnull hkind f (List.mem_of_getElem? hf) (hf' ▸ hname)
        exact Field.admits_mono (f := f) (g := f.withNullable) rfl (fun _ => hnullable) (hcells v hv)

/-- **The loop**, over rows that fit and materialized columns that may be NULL. -/
theorem foldlM_fillSpec_of_fits (htyped : EvaluatorTyped eval) {specs : List ColumnSpec}
    {rows : List (List Value)} (hfit : ∀ r ∈ rows, s.fits r = true)
    (hnull : rows = [] ∨ ∀ spec ∈ specs, isMaterialized spec = true → ∀ f ∈ s,
      f.name = spec.name → f.nullable = true) :
    match specs.foldlM (backfillSpec eval s) rows with
    | some out => specs.foldlM (fillSpec eval s) rows = .ok out ∧ ∀ r ∈ out, s.fits r = true
    | none => ∃ e, specs.foldlM (fillSpec eval s) rows = .error e := by
  induction specs generalizing rows with
  | nil => exact ⟨rfl, hfit⟩
  | cons spec specs ih =>
    have hstep := fillSpec_of_fits htyped hfit spec
    rw [List.foldlM_cons, List.foldlM_cons]
    cases hspec : backfillSpec eval s rows spec with
    | none =>
      rw [hspec] at hstep
      obtain ⟨e, he⟩ := hstep
      exact ⟨e, by rw [he]; rfl⟩
    | some middle =>
      rw [hspec] at hstep
      simp only at hstep
      obtain ⟨hfit', hlen⟩ := fits_backfillSpec htyped hfit
        (hnull.imp_right fun h => h spec List.mem_cons_self) hspec
      rw [hstep]
      refine ih hfit' (hnull.imp ?_ fun h spec' hspec' => h spec' (List.mem_cons_of_mem spec hspec'))
      rintro rfl
      exact List.length_eq_zero_iff.mp hlen

/-- Cells put into one column leave those of the others. -/
theorem putColumn_getElem? {rows out : List (List Value)} {i : Nat} {computed : List Value}
    (hlen : computed.length = rows.length)
    (hout : out = fillColumn i computed rows ∨ out = setColumn i computed rows) :
    List.Forall₂ (fun r r' : List Value => ∀ j ≠ i, r'[j]? = r[j]?) rows out := by
  have hcells : List.Forall₂ (fun (_ : List Value) (_ : Value) => True) rows computed :=
    List.forall₂_iff_get.mpr ⟨hlen.symm, fun _ _ _ => trivial⟩
  rcases hout with rfl | rfl
  · refine hcells.zipWith_right fun r v _ j hj => ?_
    split
    · exact List.getElem?_set_ne hj.symm
    · rfl
  · exact hcells.zipWith_right fun r v _ j hj => List.getElem?_set_ne hj.symm

/-- What a round that comes to its end has done. -/
theorem fillSpec_eq_ok {rows out : List (List Value)} {spec : ColumnSpec}
    (h : fillSpec eval s rows spec = .ok out) :
    computedKind spec = false ∧ out = rows ∨
    computedKind spec = true ∧ ∃ i computed, s.indexOf spec.name = some i ∧
      computed.length = rows.length ∧
        (out = fillColumn i computed rows ∨ out = setColumn i computed rows) := by
  unfold fillSpec at h
  unfold computedKind
  cases hkind : spec.kind with
  | stored =>
    rw [hkind] at h
    cases h
    exact Or.inl ⟨rfl, rfl⟩
  | aliased sql =>
    rw [hkind] at h
    cases h
    exact Or.inl ⟨rfl, rfl⟩
  | materialized sql =>
    simp only [hkind] at h
    refine Or.inr ⟨rfl, ?_⟩
    repeat' split at h
    all_goals cases h
    rename_i i hi _ _ _ _ _ _ _ computed _ hlen
    exact ⟨i, computed, hi, hlen, Or.inr rfl⟩
  | default sql =>
    simp only [hkind] at h
    refine Or.inr ⟨rfl, ?_⟩
    repeat' split at h
    all_goals cases h
    rename_i i hi _ _ _ _ _ _ _ computed _ hlen
    exact ⟨i, computed, hi, hlen, Or.inl rfl⟩

/-- A round writes no cell of a column that is not its own. -/
theorem fillSpec_getElem? {rows out : List (List Value)} {spec : ColumnSpec}
    (h : fillSpec eval s rows spec = .ok out) :
    List.Forall₂ (fun r r' : List Value => ∀ j,
      (computedKind spec = true → s.indexOf spec.name ≠ some j) → r'[j]? = r[j]?) rows out := by
  rcases fillSpec_eq_ok h with ⟨-, rfl⟩ | ⟨hkind, i, computed, hi, hlen, hout⟩
  · exact List.forall₂_same.mpr fun r _ j _ => rfl
  · refine (putColumn_getElem? hlen hout).imp fun r r' hr j hj => hr j ?_
    rintro rfl
    exact hj hkind hi

/-- Nor does the loop. -/
theorem foldlM_fillSpec_getElem? {specs : List ColumnSpec} {rows out : List (List Value)}
    (h : specs.foldlM (fillSpec eval s) rows = .ok out) :
    List.Forall₂ (fun r r' : List Value => ∀ j,
      (∀ spec ∈ specs, computedKind spec = true → s.indexOf spec.name ≠ some j) →
        r'[j]? = r[j]?) rows out := by
  induction specs generalizing rows with
  | nil =>
    cases h
    exact List.forall₂_same.mpr fun r _ j _ => rfl
  | cons spec specs ih =>
    obtain ⟨middle, hspec, hrest⟩ := List.foldlM_cons_eq_ok_iff.mp h
    refine (fillSpec_getElem? hspec).comp (ih hrest) fun r r₁ r₂ h₁ h₂ j hj => ?_
    rw [h₂ j fun spec' hspec' => hj spec' (List.mem_cons_of_mem spec hspec'),
      h₁ j (hj spec List.mem_cons_self)]

/-! ## 3. Row by row -/

/-- A deterministic function of the row. -/
abbrev RowExpr := String → Schema → Field → List Value → Option Value

/-- Expressions evaluated row by row. -/
def rowwise (g : RowExpr) : Evaluator := fun sql s f rows => rows.mapM (g sql s f)

/-- The cell an expression gives for a column of the row. -/
def cellFor (g : RowExpr) (s : Schema) (i : Nat) (sql : String) (r : List Value) : Option Value :=
  s[i]?.bind fun f => g sql s.withNullable f.withNullable r

/-- What a spec does to a row. -/
def fillRow (g : RowExpr) (s : Schema) (r : List Value) (spec : ColumnSpec) :
    Option (List Value) :=
  match spec.kind with
  | .materialized sql => (s.indexOf spec.name).bind fun i =>
      (cellFor g s i sql r).map fun v => r.set i v
  | .default sql => (s.indexOf spec.name).bind fun i =>
      (cellFor g s i sql r).map fun v => if r[i]? = some .null then r.set i v else r
  | .stored => some r
  | .aliased _ => some r

variable {g : RowExpr}

theorem fillRow_length {spec : ColumnSpec} {r r' : List Value}
    (h : fillRow g s r spec = some r') : r'.length = r.length := by
  unfold fillRow at h
  split at h
  · obtain ⟨i, -, h⟩ := Option.bind_eq_some_iff.mp h
    obtain ⟨v, -, rfl⟩ := Option.map_eq_some_iff.mp h
    exact List.length_set
  · obtain ⟨i, -, h⟩ := Option.bind_eq_some_iff.mp h
    obtain ⟨v, -, rfl⟩ := Option.map_eq_some_iff.mp h
    split
    · exact List.length_set
    · rfl
  · cases h
    rfl
  · cases h
    rfl

theorem foldlM_fillRow_length {specs : List ColumnSpec} {r r' : List Value}
    (h : specs.foldlM (fillRow g s) r = some r') : r'.length = r.length := by
  induction specs generalizing r with
  | nil =>
    cases h
    rfl
  | cons spec specs ih =>
    rw [List.foldlM_cons] at h
    obtain ⟨r₁, h₁, h₂⟩ := Option.bind_eq_some_iff.mp h
    exact (ih h₂).trans (fillRow_length h₁)

theorem backfillSpec_rowwise {spec : ColumnSpec}
    (hi : computedKind spec = true → ∃ i, s.indexOf spec.name = some i) (rows : List (List Value)) :
    backfillSpec (rowwise g) s rows spec = rows.mapM fun r => fillRow g s r spec := by
  -- a column is computed over all rows, then put into them
  have hcells : ∀ (i : Nat) (sql : String) (set : List Value → Value → List Value),
      s.indexOf spec.name = some i →
      ((computedCells (rowwise g) s spec.name sql rows).map fun c =>
          rows.zipWith (fun r v => set r v) c.2) =
        rows.mapM fun r => (cellFor g s i sql r).map (set r) := by
    intro i sql set hi
    obtain ⟨f, hf, -⟩ := Schema.indexOf_eq_some.mp hi
    rw [List.mapM_map_eq_zipWith]
    unfold computedCells rowwise cellFor
    simp only [hi, hf, Option.bind_eq_bind, Option.bind_some]
    cases rows.mapM (g sql s.withNullable f.withNullable) <;> rfl
  unfold backfillSpec fillRow
  unfold computedKind at hi
  cases hkind : spec.kind with
  | stored => exact (List.mapM_eq_some_iff.mpr (List.forall₂_same.mpr fun _ _ => rfl)).symm
  | aliased sql => exact (List.mapM_eq_some_iff.mpr (List.forall₂_same.mpr fun _ _ => rfl)).symm
  | materialized sql =>
    obtain ⟨i, hi⟩ := hi (by rw [hkind])
    simp only [hi, Option.bind_some]
    rw [← hcells i sql (fun r v => r.set i v) hi]
    cases hc : computedCells (rowwise g) s spec.name sql rows with
    | none => rfl
    | some c =>
      obtain ⟨hi', -⟩ := computedCells_eq_some.mp hc
      obtain rfl := Option.some.inj (hi.symm.trans hi')
      rfl
  | default sql =>
    obtain ⟨i, hi⟩ := hi (by rw [hkind])
    simp only [hi, Option.bind_some]
    rw [← hcells i sql (fun r v => if r[i]? = some .null then r.set i v else r) hi]
    cases hc : computedCells (rowwise g) s spec.name sql rows with
    | none => rfl
    | some c =>
      obtain ⟨hi', -⟩ := computedCells_eq_some.mp hc
      obtain rfl := Option.some.inj (hi.symm.trans hi')
      rfl

/-- **Without checks a batch is filled row by row.** -/
theorem foldlM_backfillSpec_rowwise {specs : List ColumnSpec}
    (hi : ∀ spec ∈ specs, computedKind spec = true → ∃ i, s.indexOf spec.name = some i)
    (rows : List (List Value)) :
    specs.foldlM (backfillSpec (rowwise g) s) rows =
      rows.mapM fun r => specs.foldlM (fillRow g s) r := by
  induction specs generalizing rows with
  | nil => exact (List.mapM_eq_some_iff.mpr (List.forall₂_same.mpr fun _ _ => rfl)).symm
  | cons spec specs ih =>
    have hrest := ih fun spec' h' => hi spec' (List.mem_cons_of_mem spec h')
    simp only [List.foldlM_cons]
    rw [backfillSpec_rowwise (hi spec List.mem_cons_self)]
    simp only [Option.bind_eq_bind, hrest]
    exact List.bind_mapM_mapM _ _ rows

end Fill

/-! ## 4. Completed rows -/

/-- A row with its default and materialized columns. -/
def complete (g : RowExpr) (cols : TableColumns) (cells : List Value) : Option (List Value) :=
  cols.specs.foldlM (fillRow g cols.physicalSchema) cells

/-- A row's expression is cast to the column's type. -/
def RowExprTyped (g : RowExpr) : Prop :=
  ∀ sql s f r v, g sql s f r = some v → f.withNullable.admits v = true

theorem evaluatorTyped_rowwise {g : RowExpr} (htyped : RowExprTyped g) :
    EvaluatorTyped (rowwise g) := by
  intro sql s f rows out h
  have hcells := List.mapM_eq_some_iff.mp h
  refine ⟨hcells.length_eq.symm, fun v hv => ?_⟩
  obtain ⟨r, -, hr⟩ := hcells.flip.exists_of_mem hv
  exact htyped sql s f r v hr

section Complete

variable {g : RowExpr} {cols : TableColumns}

/-- Expressions are shown the columns without their nullability. -/
theorem fillRow_withNullable (s : Schema) : fillRow g s.withNullable = fillRow g s := by
  have hcell : ∀ i sql r, cellFor g s.withNullable i sql r = cellFor g s i sql r := by
    intro i sql r
    unfold cellFor
    rw [Schema.withNullable_withNullable]
    unfold Schema.withNullable
    rw [List.getElem?_map]
    cases s[i]? <;> rfl
  funext r spec
  unfold fillRow
  simp only [Schema.indexOf_withNullable, hcell]

/-- A column with an expression is in the files. -/
theorem exists_indexOf_computed {spec : ColumnSpec} (hspec : spec ∈ cols.specs)
    (hkind : computedKind spec = true) :
    ∃ i, cols.physicalSchema.indexOf spec.name = some i :=
  Schema.exists_indexOf (f := spec.field) (mem_physicalSchema.mpr ⟨spec, hspec, Or.inr hkind, rfl⟩)

/-- **The loop of defaults is the completion of each row**, over the real schema and over the one
in which every column may be NULL. -/
theorem applyDefaults_of_fits (htyped : RowExprTyped g) {s : Schema}
    (hs : s = cols.physicalSchema ∨ s = cols.physicalSchema.withNullable) {rows : List (Row s)}
    (hnull : rows = [] ∨ ∀ spec ∈ cols.specs, isMaterialized spec = true → ∀ f ∈ s,
      f.name = spec.name → f.nullable = true) :
    match (rows.map Subtype.val).mapM (complete g cols) with
    | some out => ∃ filled : List (Row s),
        applyDefaultsAndMaterialized (rowwise g) rows cols = .ok filled ∧
          filled.map Subtype.val = out
    | none => ∃ e, applyDefaultsAndMaterialized (rowwise g) rows cols = .error e := by
  have hfill : fillRow g s = fillRow g cols.physicalSchema := by
    rcases hs with rfl | rfl
    · rfl
    · exact fillRow_withNullable _
  have hindex : ∀ spec ∈ cols.specs, computedKind spec = true →
      ∃ i, s.indexOf spec.name = some i := by
    intro spec hspec hkind
    rcases hs with rfl | rfl
    · exact exists_indexOf_computed hspec hkind
    · rw [Schema.indexOf_withNullable]
      exact exists_indexOf_computed hspec hkind
  have hfit : ∀ r ∈ rows.map Subtype.val, s.fits r = true := by
    intro r hr
    obtain ⟨r, -, rfl⟩ := List.mem_map.mp hr
    exact r.property
  have hloop := @foldlM_fillSpec_of_fits (rowwise g) s (evaluatorTyped_rowwise htyped) cols.specs _
    hfit (hnull.imp_left fun h => by rw [h]; rfl)
  rw [foldlM_backfillSpec_rowwise hindex, hfill] at hloop
  unfold applyDefaultsAndMaterialized
  show match (rows.map Subtype.val).mapM fun r => cols.specs.foldlM (fillRow g cols.physicalSchema) r
    with | some out => _ | none => _
  cases hout : (rows.map Subtype.val).mapM
      fun r => cols.specs.foldlM (fillRow g cols.physicalSchema) r with
  | none =>
    rw [hout] at hloop
    obtain ⟨e, he⟩ := hloop
    exact ⟨e, by rw [he]; rfl⟩
  | some out =>
    rw [hout] at hloop
    obtain ⟨hok, hfits⟩ := hloop
    obtain ⟨filled, hfilled⟩ := Schema.tryNew_of_fits hfits
    refine ⟨filled, ?_, Schema.tryNew_eq_some.mp hfilled⟩
    rw [hok]
    simp only [bind, Except.bind, hfilled]

/-! ## 5. The loop's own checks -/

/-- A round whose result fits the schema again. -/
def fillFit (g : RowExpr) (s : Schema) (r : List Value) (spec : ColumnSpec) :
    Option (List Value) :=
  (fillRow g s r spec).filter fun r' => s.fits r'

theorem fits_of_fillFit {s : Schema} {specs : List ColumnSpec} {r out : List Value}
    (hfit : s.fits r = true) (h : specs.foldlM (fillFit g s) r = some out) : s.fits out = true := by
  induction specs generalizing r with
  | nil =>
    cases h
    exact hfit
  | cons spec specs ih =>
    rw [List.foldlM_cons] at h
    obtain ⟨middle, hspec, hrest⟩ := Option.bind_eq_some_iff.mp h
    exact ih (Option.filter_eq_some_iff.mp hspec).2 hrest

/-- The loop and the batch that is built at its end. -/
def fillAll (eval : Evaluator) (s : Schema) (specs : List ColumnSpec) (rows : List (List Value)) :
    Except ExprError (List (Row s)) := do
  let columns ← specs.foldlM (fillSpec eval s) rows
  match s.tryNew columns with
  | some out => .ok out
  | none => .error .arrow

/-- A row that does not fit is found by the next check, at the latest by the last one. -/
theorem fillAll_of_unfit (eval : Evaluator) {s : Schema} (specs : List ColumnSpec)
    {rows : List (List Value)} (h : ∃ r ∈ rows, s.fits r = false) :
    ∃ e, fillAll eval s specs rows = .error e := by
  have hnone : s.tryNew rows = none := Schema.tryNew_eq_none.mpr h
  induction specs with
  | nil => exact ⟨.arrow, by simp [fillAll, hnone, bind, Except.bind, pure, Except.pure]⟩
  | cons spec specs ih =>
    unfold fillAll
    rw [List.foldlM_cons]
    have hskip : fillSpec eval s rows spec = .ok rows ∨
        ∃ e, fillSpec eval s rows spec = .error e := by
      unfold fillSpec
      cases spec.kind with
      | stored => exact .inl rfl
      | aliased sql => exact .inl rfl
      | default sql => cases s.indexOf spec.name <;> exact .inr ⟨.arrow, by simp [hnone]⟩
      | materialized sql => cases s.indexOf spec.name <;> exact .inr ⟨.arrow, by simp [hnone]⟩
    rcases hskip with hskip | ⟨e, he⟩
    · rw [hskip]
      exact ih
    · exact ⟨e, by rw [he]; rfl⟩

theorem fits_of_fillAll {eval : Evaluator} {s : Schema} {specs : List ColumnSpec}
    {rows : List (List Value)} {out : List (Row s)} (h : fillAll eval s specs rows = .ok out) :
    ∀ r ∈ rows, s.fits r = true := by
  by_contra hunfit
  push Not at hunfit
  obtain ⟨r, hr, hunfit⟩ := hunfit
  obtain ⟨e, he⟩ := fillAll_of_unfit eval specs ⟨r, hr, by simpa using hunfit⟩
  cases h.symm.trans he

theorem fillAll_cons_eq_ok_iff {eval : Evaluator} {s : Schema} {spec : ColumnSpec}
    {specs : List ColumnSpec} {rows : List (List Value)} {out : List (Row s)} :
    fillAll eval s (spec :: specs) rows = .ok out ↔
      ∃ middle, fillSpec eval s rows spec = .ok middle ∧
        fillAll eval s specs middle = .ok out := by
  unfold fillAll
  rw [List.foldlM_cons, bind_assoc, Except.bind_eq_ok_iff]

/-- One round over rows that fit. -/
theorem fillSpec_eq_ok_iff (htyped : RowExprTyped g) {s : Schema} {spec : ColumnSpec}
    (hindex : computedKind spec = true → ∃ i, s.indexOf spec.name = some i)
    {rows middle : List (List Value)} (hfit : ∀ r ∈ rows, s.fits r = true) :
    fillSpec (rowwise g) s rows spec = .ok middle ↔
      (rows.mapM fun r => fillRow g s r spec) = some middle := by
  have hround := fillSpec_of_fits (evaluatorTyped_rowwise htyped) hfit spec
  rw [backfillSpec_rowwise hindex] at hround
  cases hrow : rows.mapM fun r => fillRow g s r spec with
  | none =>
    rw [hrow] at hround
    obtain ⟨e, he⟩ := hround
    rw [he]
    exact iff_of_false (fun h => nomatch h) fun h => nomatch h
  | some out =>
    rw [hrow] at hround
    rw [hround, Except.ok.injEq, Option.some.injEq]

theorem mapM_fillFit_eq_some_iff {s : Schema} {spec : ColumnSpec}
    {rows middle : List (List Value)} :
    (rows.mapM fun r => fillFit g s r spec) = some middle ↔
      (rows.mapM fun r => fillRow g s r spec) = some middle ∧ ∀ r ∈ middle, s.fits r = true := by
  rw [List.mapM_eq_some_iff, List.mapM_eq_some_iff]
  constructor
  · intro hall
    refine ⟨hall.imp fun _ _ h => (Option.filter_eq_some_iff.mp h).1, fun r hr => ?_⟩
    obtain ⟨_, -, h⟩ := hall.flip.exists_of_mem hr
    exact (Option.filter_eq_some_iff.mp h).2
  · rintro ⟨hall, hfits⟩
    refine ((List.forall₂_and_left middle rows).mpr ⟨hfits, hall.flip⟩).flip.imp ?_
    exact fun r r' h => Option.filter_eq_some_iff.mpr ⟨h.2, h.1⟩

/-- **The loop, row by row**: every row goes through all rounds and fits after each. -/
theorem fillAll_eq_ok_iff (htyped : RowExprTyped g) {s : Schema} {specs : List ColumnSpec}
    (hindex : ∀ spec ∈ specs, computedKind spec = true → ∃ i, s.indexOf spec.name = some i)
    {rows : List (List Value)} (hfit : ∀ r ∈ rows, s.fits r = true) {out : List (Row s)} :
    fillAll (rowwise g) s specs rows = .ok out ↔
      rows.mapM (fun r => specs.foldlM (fillFit g s) r) = some (out.map Subtype.val) := by
  induction specs generalizing rows with
  | nil =>
    have hnew : fillAll (rowwise g) s [] rows = .ok out ↔ s.tryNew rows = some out := by
      simp only [fillAll, List.foldlM_nil, bind, Except.bind, pure, Except.pure]
      cases s.tryNew rows <;> simp
    have hself : rows.mapM (fun r => [].foldlM (fillFit g s) r) = some rows :=
      List.mapM_eq_some_iff.mpr (List.forall₂_same.mpr fun _ _ => rfl)
    rw [hnew, Schema.tryNew_eq_some, hself, Option.some.injEq, eq_comm]
  | cons spec specs ih =>
    have hsplit : (rows.mapM fun r => (spec :: specs).foldlM (fillFit g s) r) =
        (rows.mapM fun r => fillFit g s r spec).bind fun m =>
          m.mapM fun r => specs.foldlM (fillFit g s) r := by
      rw [List.bind_mapM_mapM]
      rfl
    have hround := hindex spec List.mem_cons_self
    have hrounds := fun spec' h' => hindex spec' (List.mem_cons_of_mem spec h')
    rw [fillAll_cons_eq_ok_iff, hsplit, Option.bind_eq_some_iff]
    refine exists_congr fun middle => ?_
    constructor
    · rintro ⟨hspec, hrest⟩
      have hmiddle := fits_of_fillAll hrest
      have hrow := (fillSpec_eq_ok_iff htyped hround hfit).mp hspec
      exact ⟨mapM_fillFit_eq_some_iff.mpr ⟨hrow, hmiddle⟩, (ih hrounds hmiddle).mp hrest⟩
    · rintro ⟨hm, hrest⟩
      obtain ⟨hrow, hmiddle⟩ := mapM_fillFit_eq_some_iff.mp hm
      exact ⟨(fillSpec_eq_ok_iff htyped hround hfit).mpr hrow, (ih hrounds hmiddle).mpr hrest⟩

end Complete

end Ukiel.Expr
