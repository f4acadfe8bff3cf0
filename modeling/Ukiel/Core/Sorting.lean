/-
# The canonical order

`ukiel-core/src/sorting.rs`: one convention for every writer, ascending with NULLs first, and
the check of a `sort_key` at registration.  A cell is ordered by a code, a list of numbers, so
that comparing rows is comparing lists (as in Arrow's row format, which the merge compares and
whose order is the sort kernel's).

Which of several equal rows the sort kernel puts first is not specified.  `Lexsort` is any
kernel that sorts.
-/
import Mathlib.Data.List.Lex
import Mathlib.Data.List.Sort
import Mathlib.Tactic.NormNum
import Ukiel.Lib.SortedLists
import Ukiel.Core.Batch

namespace Ukiel

/-! ## 1. The order of cells and rows -/

/-- Floats are in their total order: a negative one by its complemented bits. -/
def floatCode (bits : UInt64) : Nat :=
  if bits.toNat < 2 ^ 63 then bits.toNat + 2 ^ 63 else 2 ^ 64 - 1 - bits.toNat

/-- The code of a cell: NULL first, then the values of the column's type in ascending order.
Text is in the order of its code points, which is that of its UTF-8 bytes. -/
def Value.code : Value → List Nat
  | .null => [0]
  | .int64 n => [1, (n.val + 2 ^ 63).toNat]
  | .float64 bits => [1, floatCode bits]
  | .bool b => [1, b.toNat]
  | .utf8 s => 1 :: s.toList.map Char.toNat

/-- The codes of a row's cells in the sort columns. -/
def sortCode {s : Schema} (columns : List Nat) (r : Row s) : List (List Nat) :=
  columns.map fun i => (r.cell i).code

/-- Rows in the canonical order of the columns. -/
def SortedRows {s : Schema} (columns : List Nat) (rows : List (Row s)) : Prop :=
  rows.Pairwise fun a b => sortCode columns a ≤ sortCode columns b

/-- Lists are compared at their first elements first. -/
theorem head_le_of_cons_le {α : Type} [LinearOrder α] {x y : α} {xs ys : List α}
    (h : x :: xs ≤ y :: ys) : x ≤ y := by
  by_contra hlt
  exact absurd (List.cons_lt_cons_iff.mpr (Or.inl (not_le.mp hlt))) (not_lt.mpr h)

theorem code_int64_le {m n : I64} : (Value.int64 m).code ≤ (Value.int64 n).code ↔ m ≤ n := by
  have hm : -2 ^ 63 ≤ m.val := m.property.1
  have hn : -2 ^ 63 ≤ n.val := n.property.1
  rw [← not_lt, ← not_lt, ← Subtype.coe_lt_coe]
  simp only [Value.code, List.cons_lt_cons_iff, and_false, or_false,
    lt_self_iff_false, true_and, false_or]
  omega

theorem head_le_of_sortCode_le {s : Schema} {i : Nat} {columns : List Nat} {a b : Row s}
    (h : sortCode (i :: columns) a ≤ sortCode (i :: columns) b) :
    (a.cell i).code ≤ (b.cell i).code :=
  head_le_of_cons_le h

/-! ## 2. Sorting a batch -/

inductive SortKeyError where
  | empty
  | packingKeyNotFirst (first packingKey : String)
  | unknownColumn (name : String)
  | tsNotInSortKey (name : String)
  | arrow
deriving DecidableEq, Repr

/-- The columns of a sort key. -/
def sortColumns (s : Schema) (sortKey : List String) : Except SortKeyError (List Nat) :=
  sortKey.mapM fun name =>
    match s.indexOf name with
    | some i => .ok i
    | none => .error (.unknownColumn name)

/-- `lexsort_to_indices`, on the codes of the rows: the row numbers, in sorted order. -/
structure Lexsort where
  toIndices : List (List (List Nat)) → List Nat
  perm : ∀ codes, (toIndices codes).Perm (List.range codes.length)
  sorted : ∀ codes, ((toIndices codes).map fun i => codes.getD i []).Pairwise (· ≤ ·)

/-- `take` of whole rows. -/
def takeRows {α : Type} (rows : List α) (indices : List Nat) : List α :=
  indices.filterMap fun i => rows[i]?

/-- `sort_batch`: Arrow refuses to sort by no column at all. -/
def sortBatch (L : Lexsort) {s : Schema} (rows : List (Row s)) (sortKey : List String) :
    Except SortKeyError (List (Row s)) := do
  let columns ← sortColumns s sortKey
  if columns = [] then .error .arrow
  else .ok (takeRows rows (L.toIndices (rows.map (sortCode columns))))

/-- The kernel that keeps equal rows in the order it found them. -/
def Lexsort.stable : Lexsort where
  toIndices codes := (List.range codes.length).insertionSort
    fun i j => codes.getD i [] ≤ codes.getD j []
  perm _ := List.perm_insertionSort _ _
  sorted codes := List.pairwise_map.mpr
    (List.pairwise_insertionSort (fun i j => codes.getD i [] ≤ codes.getD j []) _)

/-- What is taken, row by row. -/
theorem map_takeRows {α : Type} {rows : List α} {indices : List Nat}
    (h : ∀ i ∈ indices, i < rows.length) :
    (takeRows rows indices).map some = indices.map fun i => rows[i]? := by
  unfold takeRows
  induction indices with
  | nil => rfl
  | cons i indices ih =>
    have hlt := h i List.mem_cons_self
    have hi : rows[i]? = some rows[i] := List.getElem?_eq_getElem hlt
    rw [List.filterMap_cons_some hi, List.map_cons, List.map_cons, hi,
      ih fun j hj => h j (List.mem_cons_of_mem i hj)]

theorem takeRows_range {α : Type} (rows : List α) :
    takeRows rows (List.range rows.length) = rows := by
  refine List.map_injective_iff.mpr (Option.some_injective α) ?_
  rw [map_takeRows fun i hi => List.mem_range.mp hi]
  refine List.ext_getElem? fun i => ?_
  rw [List.getElem?_map, List.getElem?_map]
  by_cases hi : i < rows.length
  · rw [List.getElem?_range hi, List.getElem?_eq_getElem hi]
    simp [hi]
  · rw [List.getElem?_eq_none (Nat.le_of_not_lt hi),
      List.getElem?_eq_none (by rw [List.length_range]; omega)]
    rfl

/-- Taking every row once rearranges the rows. -/
theorem takeRows_perm {α : Type} {rows : List α} {indices : List Nat}
    (h : indices.Perm (List.range rows.length)) : (takeRows rows indices).Perm rows :=
  (h.filterMap _).trans (List.Perm.of_eq (takeRows_range rows))

theorem sortColumns_eq_ok {s : Schema} {sortKey : List String} {columns : List Nat} :
    sortColumns s sortKey = .ok columns ↔
      List.Forall₂ (fun name i => s.indexOf name = some i) sortKey columns := by
  unfold sortColumns
  rw [List.mapM_eq_ok_iff]
  have hname : ∀ name i, (match s.indexOf name with
      | some i => Except.ok i
      | none => .error (SortKeyError.unknownColumn name)) = .ok i ↔ s.indexOf name = some i := by
    intro name i
    cases s.indexOf name <;> simp
  simp only [hname]

/-- **`sort_batch` sorts**: the rows it was given, in the canonical order of the sort key. -/
theorem sortBatch_eq_ok {L : Lexsort} {s : Schema} {rows out : List (Row s)}
    {sortKey : List String} (h : sortBatch L rows sortKey = .ok out) :
    ∃ columns, sortColumns s sortKey = .ok columns ∧ columns ≠ [] ∧ out.Perm rows ∧
      SortedRows columns out := by
  obtain ⟨columns, hcols, h⟩ := Except.bind_eq_ok_iff.mp h
  split at h
  · cases h
  · rename_i hne
    cases h
    have hperm := L.perm (rows.map (sortCode columns))
    have hsorted := L.sorted (rows.map (sortCode columns))
    rw [List.length_map] at hperm
    have hlt : ∀ i ∈ L.toIndices (rows.map (sortCode columns)), i < rows.length :=
      fun i hi => List.mem_range.mp (hperm.mem_iff.mp hi)
    refine ⟨columns, hcols, hne, takeRows_perm hperm, ?_⟩
    have hcodes : (takeRows rows (L.toIndices (rows.map (sortCode columns)))).map
        (sortCode columns) = (L.toIndices (rows.map (sortCode columns))).map
          fun i => (rows.map (sortCode columns)).getD i [] := by
      refine List.map_injective_iff.mpr (Option.some_injective _) ?_
      calc ((takeRows rows _).map (sortCode columns)).map some
          = ((takeRows rows _).map some).map (Option.map (sortCode columns)) := by
            rw [List.map_map, List.map_map]
            rfl
        _ = _ := by
            rw [map_takeRows hlt, List.map_map, List.map_map]
            refine List.map_congr_left fun i hi => ?_
            simp [List.getD, hlt i hi]
    exact List.pairwise_map.mp (hcodes ▸ hsorted)

/-! ## 3. Registration -/

/-- `validate_sort_key`. -/
def validateSortKey (s : Schema) (sortKey : List String) (packingKey : String)
    (tsColumn : Option String) : Except SortKeyError Unit :=
  match sortKey with
  | [] => .error .empty
  | first :: _ =>
    if first ≠ packingKey then .error (.packingKeyNotFirst first packingKey)
    else
      match sortKey.find? fun name => (s.indexOf name).isNone with
      | some name => .error (.unknownColumn name)
      | none =>
        match tsColumn with
        | some ts => if ts ∈ sortKey then .ok () else .error (.tsNotInSortKey ts)
        | none => .ok ()

/-- `DEFAULT_MAX_ROW_GROUP_ROWS`. -/
def defaultMaxRowGroupRows : Nat := 128 * 1024

/-- What a validated sort key is: the packing key first, and every name a column. -/
theorem validateSortKey_eq_ok {s : Schema} {sortKey : List String} {packingKey : String}
    (h : validateSortKey s sortKey packingKey none = .ok ()) :
    ∃ i rest, sortColumns s sortKey = .ok (i :: rest) ∧ s.indexOf packingKey = some i := by
  unfold validateSortKey at h
  cases sortKey with
  | nil => cases h
  | cons first rest =>
    simp only [ne_eq, ite_not] at h
    split at h
    · rename_i hfirst
      split at h
      · cases h
      · rename_i hfind
        have hall : ∀ name ∈ first :: rest, ∃ i, s.indexOf name = some i := by
          intro name hname
          have := List.find?_eq_none.mp hfind name hname
          exact Option.ne_none_iff_exists'.mp (by simpa using this)
        obtain ⟨i, hi⟩ := hall first List.mem_cons_self
        obtain ⟨columns, hcols⟩ : ∃ columns, List.Forall₂ (fun name i => s.indexOf name = some i)
            rest columns :=
          List.exists_forall₂ fun name hname => hall name (List.mem_cons_of_mem first hname)
        exact ⟨i, columns, sortColumns_eq_ok.mpr (.cons hi hcols), hfirst ▸ hi⟩
    · cases h

end Ukiel
