/-
# Rows and columns

An Arrow record batch is a list of rows of one schema.  A row of a schema (`Row s`) has one cell
for each field, of the field's type, and a NULL only where the field is nullable: what
`RecordBatch::try_new` checks (`Schema.tryNew`) is part of the type, so no later function has to
look again.  Slices, filters, concatenations and reorderings of batches are those of lists.

A cell holds what the Arrow array holds; a float is its bit pattern.
-/
import Mathlib.Data.Int.Order.Basic
import Mathlib.Data.Set.CoeSort
import Mathlib.Order.Basic
import Mathlib.Data.List.ReduceOption
import Ukiel.Lib.Folds
import Ukiel.Core.Schema

namespace Ukiel

/-! ## 1. Cells and rows -/

inductive Value where
  | null
  | int64 (n : I64)
  | float64 (bits : UInt64)
  | utf8 (s : String)
  | bool (b : Bool)
deriving DecidableEq

instance : LinearOrder I64 := @Subtype.instLinearOrder Int Int.instLinearOrder fun n => n ∈ I64

instance (m n : I64) : Decidable (m ≤ n) := Int.decLe m.val n.val
instance (m n : I64) : Decidable (m < n) := Int.decLt m.val n.val

/-- The cell an `Int64Array` has there: NULL is `none`. -/
def Value.asInt64? : Value → Option I64
  | .int64 n => some n
  | _ => none

/-- `Int64Array::value`, which does not ask whether there is one: the slot under a NULL has 0. -/
def Value.slot : Value → I64
  | .int64 n => n
  | _ => ⟨0, by decide⟩

/-- A cell a field admits. -/
def Field.admits (f : Field) : Value → Bool
  | .null => f.nullable
  | .int64 _ => f.dataType = .int64
  | .float64 _ => f.dataType = .float64
  | .utf8 _ => f.dataType = .utf8
  | .bool _ => f.dataType = .boolean

/-- One cell for each field, each of them admitted. -/
def Schema.fits : Schema → List Value → Bool
  | [], [] => true
  | f :: s, v :: vs => f.admits v && Schema.fits s vs
  | _, _ => false

/-- A row of a schema. -/
abbrev Row (s : Schema) := { cells : List Value // s.fits cells = true }

/-- The cell in a column. -/
def Row.cell {s : Schema} (r : Row s) (i : Nat) : Value := r.val[i]?.getD .null

theorem Schema.fits_iff {s : Schema} {vs : List Value} :
    s.fits vs = true ↔ vs.length = s.length ∧
      ∀ (i : Nat) (f : Field) (v : Value),
        s[i]? = some f → vs[i]? = some v → f.admits v = true := by
  induction s generalizing vs with
  | nil => cases vs <;> simp [Schema.fits]
  | cons f s ih =>
    cases vs with
    | nil => simp [Schema.fits]
    | cons v vs =>
      rw [Schema.fits, Bool.and_eq_true, ih]
      constructor
      · rintro ⟨hv, hlen, hrest⟩
        refine ⟨by simp [hlen], ?_⟩
        intro i g w hg hw
        cases i with
        | zero =>
          simp only [List.getElem?_cons_zero, Option.some.injEq] at hg hw
          exact hg ▸ hw ▸ hv
        | succ i => exact hrest i g w (by simpa using hg) (by simpa using hw)
      · rintro ⟨hlen, hall⟩
        refine ⟨hall 0 f v rfl rfl, by simpa using hlen, ?_⟩
        intro i g w hg hw
        exact hall (i + 1) g w (by simpa using hg) (by simpa using hw)

/-- A field of the same type that may hold NULL if the other one may. -/
theorem Field.admits_mono {f g : Field} (htype : g.dataType = f.dataType)
    (hnull : g.nullable = true → f.nullable = true) {v : Value} (h : g.admits v = true) :
    f.admits v = true := by
  cases v with
  | null => exact hnull h
  | int64 n => simpa only [Field.admits, htype] using h
  | float64 bits => simpa only [Field.admits, htype] using h
  | utf8 text => simpa only [Field.admits, htype] using h
  | bool b => simpa only [Field.admits, htype] using h

/-- A cell is replaced by one its field admits. -/
theorem Schema.fits_set {s : Schema} {r : List Value} (h : s.fits r = true) {i : Nat} {f : Field}
    (hf : s[i]? = some f) {v : Value} (hv : f.admits v = true) : s.fits (r.set i v) = true := by
  rw [Schema.fits_iff] at h ⊢
  refine ⟨by rw [List.length_set]; exact h.1, ?_⟩
  intro j g w hg hw
  rw [List.getElem?_set] at hw
  split at hw
  · rename_i hij
    subst hij
    split at hw
    · rw [Option.some.injEq] at hw
      rw [hf, Option.some.injEq] at hg
      exact hg ▸ hw ▸ hv
    · cases hw
  · exact h.2 j g w hg hw

theorem Row.length {s : Schema} (r : Row s) : r.val.length = s.length :=
  (Schema.fits_iff.mp r.property).1

/-- The cell of a row is one its field admits. -/
theorem Row.admits {s : Schema} (r : Row s) {i : Nat} {f : Field} (hf : s[i]? = some f) :
    f.admits (r.cell i) = true := by
  obtain ⟨hlt, -⟩ := List.getElem?_eq_some_iff.mp hf
  have hr : i < r.val.length := r.length.symm ▸ hlt
  refine (Schema.fits_iff.mp r.property).2 i f _ hf ?_
  unfold Row.cell
  rw [List.getElem?_eq_getElem hr]
  rfl

/-- `RecordBatch::try_new`: all rows fit, or there is no batch. -/
def Schema.tryNew (s : Schema) (rows : List (List Value)) : Option (List (Row s)) :=
  rows.mapM fun cells => if h : s.fits cells = true then some ⟨cells, h⟩ else none

theorem Schema.tryNew_eq_some {s : Schema} {rows : List (List Value)} {out : List (Row s)} :
    s.tryNew rows = some out ↔ out.map Subtype.val = rows := by
  unfold tryNew
  rw [List.mapM_eq_some_iff]
  have hcell : ∀ (cells : List Value) (r : Row s),
      (if h : s.fits cells = true then some (⟨cells, h⟩ : Row s) else none) = some r ↔
        cells = r.val := by
    intro cells r
    constructor
    · intro h
      split at h
      · cases h
        rfl
      · cases h
    · rintro rfl
      rw [dif_pos r.property]
  simp only [hcell]
  rw [← List.forall₂_map_right_iff (f := Subtype.val) (R := (· = ·)), List.forall₂_eq_eq_eq]
  exact eq_comm

theorem Schema.tryNew_eq_none {s : Schema} {rows : List (List Value)} :
    s.tryNew rows = none ↔ ∃ cells ∈ rows, s.fits cells = false := by
  constructor
  · intro h
    by_contra hall
    push Not at hall
    have hfit : ∀ cells ∈ rows, s.fits cells = true := by
      intro cells hc
      simpa using hall cells hc
    have hsome : s.tryNew rows = some (rows.attachWith _ hfit) :=
      Schema.tryNew_eq_some.mpr (by simp)
    rw [h] at hsome
    cases hsome
  · rintro ⟨cells, hc, hfit⟩
    cases h : s.tryNew rows with
    | none => rfl
    | some out =>
      rw [← Schema.tryNew_eq_some.mp h] at hc
      obtain ⟨r, -, rfl⟩ := List.mem_map.mp hc
      rw [r.property] at hfit
      cases hfit

/-- Rows that all fit are a batch. -/
theorem Schema.tryNew_of_fits {s : Schema} {rows : List (List Value)}
    (h : ∀ r ∈ rows, s.fits r = true) : ∃ out, s.tryNew rows = some out := by
  cases hnew : s.tryNew rows with
  | some out => exact ⟨out, rfl⟩
  | none =>
    obtain ⟨r, hr, hfit⟩ := Schema.tryNew_eq_none.mp hnew
    rw [h r hr] at hfit
    cases hfit

/-- `RecordBatch`. -/
structure RecordBatch where
  schema : Schema
  rows : List (Row schema)

/-! ## 2. `Int64` columns -/

/-- A column as an `Int64Array`. -/
def int64Array {s : Schema} (i : Nat) (rows : List (Row s)) : List (Option I64) :=
  rows.map fun r => (r.cell i).asInt64?

/-- `arrow::compute::min`, over the values that are not NULL. -/
def arrowMin (column : List (Option I64)) : Option I64 := column.reduceOption.min?

/-- `arrow::compute::max`. -/
def arrowMax (column : List (Option I64)) : Option I64 := column.reduceOption.max?

theorem arrowMin_eq_some {column : List (Option I64)} {n : I64} :
    arrowMin column = some n ↔ some n ∈ column ∧ ∀ m, some m ∈ column → n ≤ m := by
  unfold arrowMin
  rw [List.min?_eq_some_iff]
  simp only [List.reduceOption_mem_iff]

theorem arrowMax_eq_some {column : List (Option I64)} {n : I64} :
    arrowMax column = some n ↔ some n ∈ column ∧ ∀ m, some m ∈ column → m ≤ n := by
  unfold arrowMax
  rw [List.max?_eq_some_iff]
  simp only [List.reduceOption_mem_iff]

theorem arrowMin_eq_none {column : List (Option I64)} :
    arrowMin column = none ↔ ∀ n, some n ∉ column := by
  unfold arrowMin
  rw [List.min?_eq_none_iff, List.eq_nil_iff_forall_not_mem]
  simp only [List.reduceOption_mem_iff]

theorem arrowMax_eq_none {column : List (Option I64)} :
    arrowMax column = none ↔ ∀ n, some n ∉ column := by
  unfold arrowMax
  rw [List.max?_eq_none_iff, List.eq_nil_iff_forall_not_mem]
  simp only [List.reduceOption_mem_iff]

end Ukiel
