/-
# Ranges from filters

`extract_int64_ranges` of `ukiel-query/src/provider.rs`: the filters that a scan is handed are
read for bounds on `Int64` columns, with which the catalog drops parts.  A filter that is no
comparison of a column with a literal bounds nothing.

The filters are applied again by the engine, so a bound may be too wide; a row it leaves out is
lost.  `extractInt64Ranges_iff`: no row is lost, and the extraction comes to its end on all filters
but the ones that hold of no row, `x > i64::MAX` and `x < i64::MIN`.

What the engine makes of any other expression is a parameter (`Meaning`).
-/
import Mathlib.Data.List.AList
import Ukiel.Core.Batch
import Ukiel.Lib.Kleene

namespace Ukiel.Query

/-! ## 1. Filters -/

/-- `Operator`. -/
inductive Operator where
  | eq
  | notEq
  | lt
  | ltEq
  | gt
  | gtEq
  | and
  | or
  | isDistinctFrom
  | isNotDistinctFrom
  /-- Arithmetic, patterns and the rest. -/
  | other (name : String)
deriving DecidableEq

/-- `Expr`. -/
inductive Expr where
  | column (name : String)
  | literal (v : Value)
  | binaryExpr (left : Expr) (op : Operator) (right : Expr)
  | not (e : Expr)
  | isNull (e : Expr)
  /-- A cast, a function and the rest. -/
  | other (text : String)

/-- The engine's meaning of what is not read here. -/
structure Meaning (s : Schema) where
  operator : Operator → Value → Value → Value
  other : String → Row s → Value

/-- The comparison of two numbers. -/
def Operator.compare : Operator → Option (I64 → I64 → Bool)
  | .eq => some (· = ·)
  | .notEq => some (· ≠ ·)
  | .lt => some (· < ·)
  | .ltEq => some (· ≤ ·)
  | .gt => some (· > ·)
  | .gtEq => some (· ≥ ·)
  | _ => none

/-- The truth value in a boolean cell. -/
def truth : Value → Option Bool
  | .bool b => some b
  | _ => none

def ofTruth : Option Bool → Value
  | some b => .bool b
  | none => .null

/-- A comparison with NULL is NULL. -/
def Meaning.binary {s : Schema} (m : Meaning s) (op : Operator) (a b : Value) : Value :=
  match op, op.compare, a, b with
  | _, some cmp, .int64 x, .int64 y => .bool (cmp x y)
  | _, some _, .null, _ => .null
  | _, some _, _, .null => .null
  | .and, _, a, b => ofTruth (Kleene.and (truth a) (truth b))
  | .or, _, a, b => ofTruth (Kleene.or (truth a) (truth b))
  | op, _, a, b => m.operator op a b

/-- The value of a column of a row: the first of the name. -/
def columnValue {s : Schema} (row : Row s) (name : String) : Value :=
  match s.indexOf name with
  | some i => row.cell i
  | none => .null

def Expr.eval {s : Schema} (m : Meaning s) (row : Row s) : Expr → Value
  | .column name => columnValue row name
  | .literal v => v
  | .binaryExpr left op right => m.binary op (left.eval m row) (right.eval m row)
  | .not e => ofTruth ((truth (e.eval m row)).map (!·))
  | .isNull e => .bool (e.eval m row = .null)
  | .other text => m.other text row

/-! ## 2. Extraction -/

/-- `ColumnRange`; either bound may be open. -/
structure ColumnRange where
  column : String
  min : Option I64
  max : Option I64

inductive Failure where
  | overflow
deriving DecidableEq

/-- `value + 1` and `value - 1` in a build with overflow checks, as the tests are: a panic is the
error.  In one without (`--release`) the bound wraps, to one that bounds nothing. -/
def addI64 (value : I64) (n : Int) : Except Failure I64 :=
  if h : value.val + n ∈ I64 then .ok ⟨value.val + n, h⟩ else .error .overflow

abbrev Bounds := AList fun _ : String => Option I64 × Option I64

/-- `Some(entry.0.map_or(value, |m| m.max(value)))`. -/
def raise (bound : Option I64) (value : I64) : Option I64 := some (bound.elim value (max · value))

/-- `Some(entry.1.map_or(value, |m| m.min(value)))`. -/
def lower (bound : Option I64) (value : I64) : Option I64 := some (bound.elim value (min · value))

/-- The `match` in `apply`. -/
def applyOp (entry : Option I64 × Option I64) (op : Operator) (value : I64) :
    Except Failure (Option I64 × Option I64) :=
  match op with
  | .eq => .ok (raise entry.1 value, lower entry.2 value)
  | .gt => do return (raise entry.1 (← addI64 value 1), entry.2)
  | .gtEq => .ok (raise entry.1 value, entry.2)
  | .lt => do return (entry.1, lower entry.2 (← addI64 value (-1)))
  | .ltEq => .ok (entry.1, lower entry.2 value)
  | _ => .ok entry

/-- `field_with_name` has an `Int64` field. -/
def isInt64 (s : Schema) (name : String) : Bool :=
  match s.indexOf name with
  | some i => s[i]?.map Field.dataType = some .int64
  | none => false

/-- `apply`. -/
def apply (s : Schema) (bounds : Bounds) (name : String) (op : Operator) (value : I64) :
    Except Failure Bounds :=
  if isInt64 s name then do
    let entry ← applyOp ((bounds.lookup name).getD (none, none)) op value
    return bounds.insert name entry
  else .ok bounds

/-- The operator of the comparison read from the right. -/
def Operator.mirrored : Operator → Operator
  | .lt => .gt
  | .ltEq => .gtEq
  | .gt => .lt
  | .gtEq => .ltEq
  | op => op

/-- The comparison of a column with a literal that a filter is, with the column on the left. -/
def comparison? : Expr → Option (String × Operator × I64)
  | .binaryExpr (.column c) op (.literal (.int64 v)) => some (c, op, v)
  | .binaryExpr (.literal (.int64 v)) op (.column c) => some (c, op.mirrored, v)
  | _ => none

/-- One turn of the loop over the filters. -/
def applyFilter (s : Schema) (bounds : Bounds) (filter : Expr) : Except Failure Bounds :=
  match comparison? filter with
  | some (name, op, value) => apply s bounds name op value
  | none => .ok bounds

/-- `extract_int64_ranges`; the order of a hash map's entries is any order. -/
def extractInt64Ranges (filters : List Expr) (s : Schema) : Except Failure (List ColumnRange) := do
  let bounds ← filters.foldlM (applyFilter s) ∅
  return bounds.entries.map fun e => ⟨e.1, e.2.1, e.2.2⟩

/-! ## 3. What a bound lets through -/

/-- The value is in the range: an open bound admits NULL as well. -/
def Inside (value : Value) (entry : Option I64 × Option I64) : Prop :=
  (∀ lo, entry.1 = some lo → ∃ v, value = .int64 v ∧ lo ≤ v) ∧
  (∀ hi, entry.2 = some hi → ∃ v, value = .int64 v ∧ v ≤ hi)

theorem inside_raise {v : I64} {bound : Option I64} {value : I64}
    (h : ∀ lo, bound = some lo → ∃ w, Value.int64 v = .int64 w ∧ lo ≤ w) (hv : value ≤ v) :
    ∀ lo, raise bound value = some lo → ∃ w, Value.int64 v = .int64 w ∧ lo ≤ w := by
  rintro _ ⟨⟩
  refine ⟨v, rfl, ?_⟩
  cases bound with
  | none => exact hv
  | some lo =>
    obtain ⟨_, ⟨⟩, hlo⟩ := h lo rfl
    exact max_le hlo hv

theorem inside_lower {v : I64} {bound : Option I64} {value : I64}
    (h : ∀ hi, bound = some hi → ∃ w, Value.int64 v = .int64 w ∧ w ≤ hi) (hv : v ≤ value) :
    ∀ hi, lower bound value = some hi → ∃ w, Value.int64 v = .int64 w ∧ w ≤ hi := by
  rintro _ ⟨⟩
  refine ⟨v, rfl, ?_⟩
  cases bound with
  | none => exact hv
  | some hi =>
    obtain ⟨_, ⟨⟩, hhi⟩ := h hi rfl
    exact le_min hhi hv

theorem addI64_eq_ok {value v : I64} {n : Int} (h : addI64 value n = .ok v) :
    v.val = value.val + n := by
  unfold addI64 at h
  split at h
  · cases h
    rfl
  · cases h

/-- **A comparison that holds leaves the value inside** of what it makes of the bounds. -/
theorem applyOp_inside {v : I64} {entry entry' : Option I64 × Option I64} {op : Operator}
    {value : I64} (h : Inside (.int64 v) entry)
    (hholds : ∀ cmp, op.compare = some cmp → cmp v value)
    (happly : applyOp entry op value = .ok entry') : Inside (.int64 v) entry' := by
  obtain ⟨hlo, hhi⟩ := h
  unfold applyOp at happly
  split at happly
  · cases happly
    obtain rfl : v = value := by simpa using hholds _ rfl
    exact ⟨inside_raise hlo le_rfl, inside_lower hhi le_rfl⟩
  · cases hadd : addI64 value 1 with
    | error _ => rw [hadd] at happly; cases happly
    | ok value' =>
      rw [hadd] at happly
      cases happly
      have hgt : value < v := by simpa using hholds _ rfl
      refine ⟨inside_raise hlo ?_, hhi⟩
      have hval := addI64_eq_ok hadd
      have hlt : value.val < v.val := hgt
      exact show value'.val ≤ v.val by omega
  · cases happly
    exact ⟨inside_raise hlo (by simpa using hholds _ rfl), hhi⟩
  · cases hadd : addI64 value (-1) with
    | error _ => rw [hadd] at happly; cases happly
    | ok value' =>
      rw [hadd] at happly
      cases happly
      have hlt : v < value := by simpa using hholds _ rfl
      refine ⟨hlo, inside_lower hhi ?_⟩
      have hval := addI64_eq_ok hadd
      have hlt' : v.val < value.val := hlt
      exact show v.val ≤ value'.val by omega
  · cases happly
    exact ⟨hlo, inside_lower hhi (by simpa using hholds _ rfl)⟩
  · cases happly
    exact ⟨hlo, hhi⟩

/-! ## 4. The loop -/

theorem isInt64_eq_true {s : Schema} {name : String} (h : isInt64 s name = true) :
    ∃ i f, s.indexOf name = some i ∧ s[i]? = some f ∧ f.name = name ∧ f.dataType = .int64 := by
  unfold isInt64 at h
  split at h
  · rename_i i hi
    obtain ⟨f, hf, hname, -⟩ := Schema.indexOf_eq_some.mp hi
    rw [hf] at h
    exact ⟨i, f, hi, hf, hname, by simpa using h⟩
  · cases h

/-- An `Int64` column holds numbers and NULLs. -/
theorem columnValue_of_isInt64 {s : Schema} {name : String} (h : isInt64 s name = true)
    (row : Row s) : columnValue row name = .null ∨ ∃ v, columnValue row name = .int64 v := by
  unfold isInt64 at h
  unfold columnValue
  cases hi : s.indexOf name with
  | none => rw [hi] at h; cases h
  | some i =>
    rw [hi] at h
    simp only [decide_eq_true_eq] at h
    obtain ⟨f, hf, htype⟩ := Option.map_eq_some_iff.mp h
    have hadmits := row.admits hf
    show row.cell i = .null ∨ ∃ v, row.cell i = .int64 v
    cases hcell : row.cell i with
    | null => exact .inl rfl
    | int64 v => exact .inr ⟨v, rfl⟩
    | float64 _ => simp [hcell, Field.admits, htype] at hadmits
    | utf8 _ => simp [hcell, Field.admits, htype] at hadmits
    | bool _ => simp [hcell, Field.admits, htype] at hadmits

theorem Operator.mirrored_compare {op : Operator} {cmp : I64 → I64 → Bool}
    (h : op.mirrored.compare = some cmp) :
    ∃ cmp', op.compare = some cmp' ∧ ∀ x y, cmp x y = cmp' y x := by
  cases op with
  | eq => cases h; exact ⟨_, rfl, fun x y => decide_eq_decide.mpr eq_comm⟩
  | notEq => cases h; exact ⟨_, rfl, fun x y => decide_eq_decide.mpr ne_comm⟩
  | lt => cases h; exact ⟨_, rfl, fun x y => rfl⟩
  | ltEq => cases h; exact ⟨_, rfl, fun x y => rfl⟩
  | gt => cases h; exact ⟨_, rfl, fun x y => rfl⟩
  | gtEq => cases h; exact ⟨_, rfl, fun x y => rfl⟩
  | and => cases h
  | or => cases h
  | isDistinctFrom => cases h
  | isNotDistinctFrom => cases h
  | other => cases h

/-- A comparison of an `Int64` column that holds of a row, with the column on the left. -/
theorem comparison_holds {s : Schema} {m : Meaning s} {row : Row s} {filter : Expr}
    {name : String} {op : Operator} {value : I64} {cmp : I64 → I64 → Bool}
    (hfilter : comparison? filter = some (name, op, value)) (hint : isInt64 s name = true)
    (hholds : filter.eval m row = .bool true) (hcmp : op.compare = some cmp) :
    ∃ v, columnValue row name = .int64 v ∧ cmp v value = true := by
  unfold comparison? at hfilter
  split at hfilter
  · cases hfilter
    rcases columnValue_of_isInt64 hint row with hnull | ⟨v, hv⟩
    · simp [Expr.eval, Meaning.binary, hnull, hcmp] at hholds
    · exact ⟨v, hv, by simpa [Expr.eval, Meaning.binary, hv, hcmp] using hholds⟩
  · cases hfilter
    obtain ⟨cmp', hcmp', hflip⟩ := Operator.mirrored_compare hcmp
    rcases columnValue_of_isInt64 hint row with hnull | ⟨v, hv⟩
    · simp [Expr.eval, Meaning.binary, hnull, hcmp'] at hholds
    · exact ⟨v, hv, by simpa [Expr.eval, Meaning.binary, hv, hcmp', hflip] using hholds⟩
  · cases hfilter

theorem applyOp_of_not_compare {op : Operator} (h : op.compare = none)
    (entry : Option I64 × Option I64) (value : I64) : applyOp entry op value = .ok entry := by
  cases op <;> first | rfl | cases h

/-- The row is inside all bounds. -/
def AllInside {s : Schema} (row : Row s) (bounds : Bounds) : Prop :=
  ∀ name entry, bounds.lookup name = some entry → Inside (columnValue row name) entry

/-- **One filter** keeps every row it holds of inside. -/
theorem applyFilter_inside {s : Schema} {m : Meaning s} {row : Row s} {filter : Expr}
    {bounds bounds' : Bounds} (h : AllInside row bounds) (hholds : filter.eval m row = .bool true)
    (happly : applyFilter s bounds filter = .ok bounds') : AllInside row bounds' := by
  unfold applyFilter at happly
  cases hfilter : comparison? filter with
  | none =>
    rw [hfilter] at happly
    cases happly
    exact h
  | some c =>
    obtain ⟨name, op, value⟩ := c
    rw [hfilter] at happly
    simp only [apply] at happly
    split at happly
    · rename_i hint
      have hentry : Inside (columnValue row name) ((bounds.lookup name).getD (none, none)) := by
        cases hlook : bounds.lookup name with
        | none => exact ⟨fun _ h => (nomatch h), fun _ h => (nomatch h)⟩
        | some entry => exact h name entry hlook
      cases hop : applyOp ((bounds.lookup name).getD (none, none)) op value with
      | error _ => rw [hop] at happly; cases happly
      | ok entry =>
        rw [hop] at happly
        cases happly
        intro n e hn
        by_cases heq : n = name
        · subst heq
          rw [AList.lookup_insert] at hn
          cases hn
          cases hcmp : op.compare with
          | none =>
            rw [applyOp_of_not_compare hcmp] at hop
            cases hop
            exact hentry
          | some cmp =>
            obtain ⟨v, hv, hcv⟩ := comparison_holds hfilter hint hholds hcmp
            rw [hv] at hentry ⊢
            refine applyOp_inside hentry (fun cmp' hcmp' => ?_) hop
            rw [hcmp] at hcmp'
            cases hcmp'
            exact hcv
        · rw [AList.lookup_insert_ne heq] at hn
          exact h n e hn
    · cases happly
      exact h

/-- **All of them**: a row they all hold of is inside what they make. -/
theorem applyFilters_inside {s : Schema} {m : Meaning s} {row : Row s} {filters : List Expr}
    {bounds bounds' : Bounds} (h : AllInside row bounds)
    (hholds : ∀ filter ∈ filters, filter.eval m row = .bool true)
    (hfold : filters.foldlM (applyFilter s) bounds = .ok bounds') : AllInside row bounds' := by
  induction filters generalizing bounds with
  | nil => cases hfold; exact h
  | cons filter filters ih =>
    obtain ⟨hfilter, hrest⟩ := List.forall_mem_cons.mp hholds
    rw [List.foldlM_cons] at hfold
    cases hstep : applyFilter s bounds filter with
    | error _ => rw [hstep] at hfold; cases hfold
    | ok bounds₁ =>
      rw [hstep] at hfold
      exact ih (applyFilter_inside h hfilter hstep) hrest hfold

/-! ## 5. What the filters bound -/

/-- The operators that bound a column. -/
def Operator.bounds : Operator → Bool
  | .eq | .gt | .gtEq | .lt | .ltEq => true
  | _ => false

/-- The filter bounds the column. -/
def bounding (s : Schema) (filter : Expr) (name : String) : Prop :=
  isInt64 s name = true ∧ ∃ op value, comparison? filter = some (name, op, value) ∧
    op.bounds = true

/-- There is a bound on the column. -/
def Bounds.Bound (bounds : Bounds) (name : String) : Prop :=
  ∃ entry, bounds.lookup name = some entry ∧ (entry.1.isSome || entry.2.isSome) = true

theorem applyOp_bound {entry entry' : Option I64 × Option I64} {op : Operator} {value : I64}
    (h : applyOp entry op value = .ok entry') : (entry'.1.isSome || entry'.2.isSome) =
      (entry.1.isSome || entry.2.isSome || op.bounds) := by
  unfold applyOp at h
  split at h
  · cases h
    simp [raise, lower, Operator.bounds]
  · obtain ⟨_, -, h⟩ := Except.bind_eq_ok_iff.mp h
    cases h
    simp [raise, Operator.bounds]
  · cases h
    simp [raise, Operator.bounds]
  · obtain ⟨_, -, h⟩ := Except.bind_eq_ok_iff.mp h
    cases h
    simp [lower, Operator.bounds]
  · cases h
    simp [lower, Operator.bounds]
  · cases h
    rename_i hne heq hgt hge hlt
    cases op <;> simp_all [Operator.bounds]

/-- **One filter** adds a bound to the column it bounds, and takes none away. -/
theorem bound_applyFilter {s : Schema} {bounds bounds' : Bounds} {filter : Expr}
    (h : applyFilter s bounds filter = .ok bounds') (name : String) :
    bounds'.Bound name ↔ bounds.Bound name ∨ bounding s filter name := by
  unfold applyFilter at h
  unfold bounding
  cases hfilter : comparison? filter with
  | none =>
    rw [hfilter] at h
    cases h
    simp
  | some c =>
    obtain ⟨column, op, value⟩ := c
    simp only [hfilter, apply] at h
    split at h
    · rename_i hint
      obtain ⟨entry, hentry, h⟩ := Except.bind_eq_ok_iff.mp h
      cases h
      have hbound := applyOp_bound hentry
      by_cases heq : name = column
      · subst heq
        have hold : bounds.Bound name ↔ (((bounds.lookup name).getD (none, none)).1.isSome ||
            ((bounds.lookup name).getD (none, none)).2.isSome) = true := by
          unfold Bounds.Bound
          cases bounds.lookup name <;> simp
        have hnew : Bounds.Bound (bounds.insert name entry) name ↔
            (entry.1.isSome || entry.2.isSome) = true := by
          simp [Bounds.Bound]
        rw [hold, hnew, hbound, Bool.or_eq_true _ op.bounds]
        simp [hint]
      · have hne : ¬ column = name := fun h => heq h.symm
        simp [Bounds.Bound, AList.lookup_insert_ne heq, hne]
    · rename_i hint
      cases h
      constructor
      · exact Or.inl
      · rintro (h | ⟨hint', _, _, ⟨⟩, -⟩)
        · exact h
        · exact absurd hint' hint

theorem bound_applyFilters {s : Schema} {bounds bounds' : Bounds} {filters : List Expr}
    (h : filters.foldlM (applyFilter s) bounds = .ok bounds') (name : String) :
    bounds'.Bound name ↔ bounds.Bound name ∨ ∃ filter ∈ filters, bounding s filter name := by
  induction filters generalizing bounds with
  | nil =>
    cases h
    simp
  | cons filter filters ih =>
    rw [List.foldlM_cons] at h
    obtain ⟨bounds₁, hstep, hrest⟩ := Except.bind_eq_ok_iff.mp h
    rw [ih hrest, bound_applyFilter hstep, or_assoc, List.exists_mem_cons_iff]

/-- **The columns with a bound** are those the filters bound. -/
theorem bounded_extracted {s : Schema} {filters : List Expr} {ranges : List ColumnRange}
    (h : extractInt64Ranges filters s = .ok ranges) (name : String) :
    (∃ range ∈ ranges, range.column = name ∧ (range.min.isSome || range.max.isSome) = true) ↔
      ∃ filter ∈ filters, bounding s filter name := by
  obtain ⟨bounds, hfold, h⟩ := Except.bind_eq_ok_iff.mp h
  cases h
  have hnone : ¬ Bounds.Bound ∅ name := fun ⟨_, h, _⟩ => nomatch h
  rw [← or_iff_right (b := ∃ filter ∈ filters, bounding s filter name) hnone,
    ← bound_applyFilters hfold]
  constructor
  · rintro ⟨range, hrange, rfl, hbound⟩
    obtain ⟨e, he, rfl⟩ := List.mem_map.mp hrange
    exact ⟨e.2, AList.mem_lookup_iff.mpr he, hbound⟩
  · rintro ⟨entry, hlook, hbound⟩
    exact ⟨_, List.mem_map_of_mem (AList.mem_lookup_iff.mp hlook), rfl, hbound⟩

/-! ## 6. Where a bound overflows -/

/-- `x > i64::MAX` or `x < i64::MIN`, either way round, on an `Int64` column. -/
def AtLimit (s : Schema) (filter : Expr) : Prop :=
  ∃ name value, isInt64 s name = true ∧
    (comparison? filter = some (name, .gt, value) ∧ value.val = 2 ^ 63 - 1 ∨
      comparison? filter = some (name, .lt, value) ∧ value.val = -2 ^ 63)

theorem addI64_isOk_iff {value : I64} {n : Int} :
    (∃ v, addI64 value n = .ok v) ↔ value.val + n ∈ I64 := by
  unfold addI64
  split
  · rename_i h
    exact iff_of_true ⟨_, rfl⟩ h
  · rename_i h
    exact iff_of_false (fun ⟨_, hv⟩ => nomatch hv) h

theorem applyOp_isOk_iff (entry : Option I64 × Option I64) (op : Operator) (value : I64) :
    (∃ entry', applyOp entry op value = .ok entry') ↔
      ¬ (op = .gt ∧ value.val = 2 ^ 63 - 1 ∨ op = .lt ∧ value.val = -2 ^ 63) := by
  have hrange : -2 ^ 63 ≤ value.val ∧ value.val < 2 ^ 63 := value.property
  have hadd : ∀ (n : Int) (f : I64 → Option I64 × Option I64), (∃ entry', (do
      let v ← addI64 value n
      return f v) = Except.ok entry') ↔ value.val + n ∈ I64 := by
    intro n f
    rw [← addI64_isOk_iff]
    cases addI64 value n with
    | error _ => exact iff_of_false (fun ⟨_, h⟩ => nomatch h) fun ⟨_, h⟩ => nomatch h
    | ok v => exact iff_of_true ⟨_, rfl⟩ ⟨v, rfl⟩
  cases op with
  | gt =>
    rw [applyOp, hadd]
    simp only [I64, Set.mem_ofPred_eq, true_and, reduceCtorEq, false_and, or_false]
    omega
  | lt =>
    rw [applyOp, hadd]
    simp only [I64, Set.mem_ofPred_eq, true_and, reduceCtorEq, false_and, false_or]
    omega
  | eq => exact iff_of_true ⟨_, rfl⟩ (by simp)
  | notEq => exact iff_of_true ⟨_, rfl⟩ (by simp)
  | ltEq => exact iff_of_true ⟨_, rfl⟩ (by simp)
  | gtEq => exact iff_of_true ⟨_, rfl⟩ (by simp)
  | and => exact iff_of_true ⟨_, rfl⟩ (by simp)
  | or => exact iff_of_true ⟨_, rfl⟩ (by simp)
  | isDistinctFrom => exact iff_of_true ⟨_, rfl⟩ (by simp)
  | isNotDistinctFrom => exact iff_of_true ⟨_, rfl⟩ (by simp)
  | other => exact iff_of_true ⟨_, rfl⟩ (by simp)

/-- A step fails at a limit and nowhere else, whatever the bounds are. -/
theorem applyFilter_isOk_iff (s : Schema) (bounds : Bounds) (filter : Expr) :
    (∃ bounds', applyFilter s bounds filter = .ok bounds') ↔ ¬ AtLimit s filter := by
  unfold applyFilter AtLimit
  cases hfilter : comparison? filter with
  | none => exact iff_of_true ⟨_, rfl⟩ (by simp)
  | some c =>
    obtain ⟨name, op, value⟩ := c
    have hlimit : (∃ n v, isInt64 s n = true ∧
        (some (name, op, value) = some (n, .gt, v) ∧ v.val = 2 ^ 63 - 1 ∨
          some (name, op, value) = some (n, .lt, v) ∧ v.val = -2 ^ 63)) ↔
        isInt64 s name = true ∧
          (op = .gt ∧ value.val = 2 ^ 63 - 1 ∨ op = .lt ∧ value.val = -2 ^ 63) := by
      constructor
      · rintro ⟨n, v, hint, ⟨⟨⟩, hv⟩ | ⟨⟨⟩, hv⟩⟩
        · exact ⟨hint, .inl ⟨rfl, hv⟩⟩
        · exact ⟨hint, .inr ⟨rfl, hv⟩⟩
      · rintro ⟨hint, ⟨rfl, hv⟩ | ⟨rfl, hv⟩⟩
        · exact ⟨name, value, hint, .inl ⟨rfl, hv⟩⟩
        · exact ⟨name, value, hint, .inr ⟨rfl, hv⟩⟩
    simp only [apply]
    rw [hlimit, not_and]
    by_cases hint : isInt64 s name = true
    · have hop := applyOp_isOk_iff ((bounds.lookup name).getD (none, none)) op value
      rw [if_pos hint, forall_prop_of_true hint, ← hop]
      cases applyOp ((bounds.lookup name).getD (none, none)) op value with
      | error _ => exact iff_of_false (fun ⟨_, h⟩ => nomatch h) fun ⟨_, h⟩ => nomatch h
      | ok entry => exact iff_of_true ⟨_, rfl⟩ ⟨entry, rfl⟩
    · rw [if_neg hint]
      exact iff_of_true ⟨bounds, rfl⟩ fun h => absurd h hint

theorem extractInt64Ranges_isOk_iff {s : Schema} {filters : List Expr} :
    (∃ ranges, extractInt64Ranges filters s = .ok ranges) ↔
      ∀ filter ∈ filters, ¬ AtLimit s filter := by
  rw [← List.foldlM_isOk_iff (applyFilter_isOk_iff s) (a := ∅)]
  constructor
  · rintro ⟨ranges, hranges⟩
    obtain ⟨bounds, hfold, -⟩ := Except.bind_eq_ok_iff.mp hranges
    exact ⟨bounds, hfold⟩
  · rintro ⟨bounds, hfold⟩
    exact ⟨_, Except.bind_eq_ok_iff.mpr ⟨bounds, hfold, rfl⟩⟩

/-- **Ranges from filters**: every row that the filters hold of is in every range, and the
extraction ends well exactly where no filter is at a limit. -/
theorem extractInt64Ranges_iff (s : Schema) (m : Meaning s) (filters : List Expr) :
    (∃ ranges, extractInt64Ranges filters s = .ok ranges ∧
      ∀ row : Row s, (∀ filter ∈ filters, filter.eval m row = .bool true) →
        ∀ range ∈ ranges, Inside (columnValue row range.column) (range.min, range.max)) ↔
    ∀ filter ∈ filters, ¬ AtLimit s filter := by
  rw [← extractInt64Ranges_isOk_iff]
  constructor
  · rintro ⟨ranges, hranges, -⟩
    exact ⟨ranges, hranges⟩
  · rintro ⟨ranges, hranges⟩
    refine ⟨ranges, hranges, fun row hholds range hrange => ?_⟩
    obtain ⟨bounds, hfold, hentries⟩ := Except.bind_eq_ok_iff.mp hranges
    cases hentries
    obtain ⟨e, he, rfl⟩ := List.mem_map.mp hrange
    have hstart : AllInside row ∅ := fun _ _ h => nomatch h
    have hinside := applyFilters_inside hstart hholds hfold
    exact hinside e.1 e.2 (AList.mem_lookup_iff.mpr he)

/-- `i64::MAX`. -/
def maxI64 : I64 := ⟨2 ^ 63 - 1, by decide⟩

/-- `x > 9223372036854775807`, which no row satisfies. -/
theorem limit_overflows :
    extractInt64Ranges [.binaryExpr (.column "x") .gt (.literal (.int64 maxI64))]
      [⟨"x", .int64, true, none⟩] = .error .overflow := by
  rfl

end Ukiel.Query
