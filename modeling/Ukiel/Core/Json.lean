/-
# JSON values

`serde_json::Value`, as the catalog stores it in its JSONB columns: partition values, table
schemas and `column_stats`.  Numbers keep serde's split between integers and floats; a float
is its bit pattern, because nothing here computes with one.

Two objects are compared as their entry lists.  The catalog only ever compares objects it has
itself normalized (JSONB sorts the keys), so the list IS the object.  That is about the keys alone.
Of the numbers it is assumed that what is stored has one spelling for one number (no `1` beside
`1.0`), so that equality of stored values is the catalog's; `Core/Jsonb.lean` has the comparison
without it.
-/
import Mathlib.Algebra.Group.Int.Defs
import Mathlib.Data.List.Induction
import Mathlib.Data.String.Basic
import Ukiel.Lib.SortedLists

namespace Ukiel

/-- `serde_json::Number`. -/
inductive Number where
  | int (n : Int)
  | float (bits : UInt64)
deriving DecidableEq, Repr

/-- `serde_json::Value`. -/
inductive Json where
  | null
  | bool (b : Bool)
  | num (n : Number)
  | str (s : String)
  | arr (xs : List Json)
  | obj (kvs : List (String × Json))
deriving Repr, Inhabited

namespace Json

/-! ## 1. Equality is decidable -/

mutual

/-- Structural comparison. -/
def beq : Json → Json → Bool
  | .null, .null => true
  | .bool a, .bool b => a == b
  | .num a, .num b => decide (a = b)
  | .str a, .str b => a == b
  | .arr xs, .arr ys => beqArr xs ys
  | .obj xs, .obj ys => beqObj xs ys
  | _, _ => false

/-- Structural comparison of array items. -/
def beqArr : List Json → List Json → Bool
  | [], [] => true
  | x :: xs, y :: ys => beq x y && beqArr xs ys
  | _, _ => false

/-- Structural comparison of object entries. -/
def beqObj : List (String × Json) → List (String × Json) → Bool
  | [], [] => true
  | (k, x) :: xs, (l, y) :: ys => k == l && (beq x y && beqObj xs ys)
  | _, _ => false

end

mutual

theorem beq_iff : ∀ a b : Json, beq a b = true ↔ a = b
  | .null, b => by cases b <;> simp [beq]
  | .bool a, b => by cases b <;> simp [beq]
  | .num a, b => by cases b <;> simp [beq]
  | .str a, b => by cases b <;> simp [beq]
  | .arr xs, b => by cases b <;> simp [beq, beqArr_iff]
  | .obj xs, b => by cases b <;> simp [beq, beqObj_iff]

theorem beqArr_iff : ∀ xs ys : List Json, beqArr xs ys = true ↔ xs = ys
  | [], ys => by cases ys <;> simp [beqArr]
  | x :: xs, ys => by cases ys <;> simp [beqArr, beq_iff x, beqArr_iff xs]

theorem beqObj_iff : ∀ xs ys : List (String × Json), beqObj xs ys = true ↔ xs = ys
  | [], ys => by cases ys <;> simp [beqObj]
  | (k, x) :: xs, ys => by
    rcases ys with _ | ⟨⟨l, y⟩, ys⟩ <;>
      simp [beqObj, beq_iff x, beqObj_iff xs, and_assoc]

end

instance : DecidableEq Json := fun a b => decidable_of_iff _ (beq_iff a b)

/-! ## 2. The accessors the program uses -/

/-- `Value::get` on an object: the entry under `key`. -/
def get? (key : String) : Json → Option Json
  | .obj kvs => kvs.lookup key
  | _ => none

/-- `Map::insert`: the entries of an object are kept in the order of their keys. -/
def insertEntry (key : String) (v : Json) : List (String × Json) → List (String × Json)
  | [] => [(key, v)]
  | (k, w) :: kvs =>
    if key = k then (key, v) :: kvs
    else if key < k then (key, v) :: (k, w) :: kvs
    else (k, w) :: insertEntry key v kvs

/-- `Value::get` on an array: the item at `i`. -/
def item? (i : Nat) : Json → Option Json
  | .arr xs => xs[i]?
  | _ => none

/-- `Value::as_i64`. -/
def asInt? : Json → Option Int
  | .num (.int n) => if -2 ^ 63 ≤ n ∧ n < 2 ^ 63 then some n else none
  | _ => none

/-- `Value::as_str`. -/
def asStr? : Json → Option String
  | .str s => some s
  | _ => none

/-- `Value::as_array`. -/
def asArray? : Json → Option (List Json)
  | .arr xs => some xs
  | _ => none

/-- `Value::as_bool`. -/
def asBool? : Json → Option Bool
  | .bool b => some b
  | _ => none

theorem lookup_insertEntry (key : String) (v : Json) (kvs : List (String × Json)) (k : String) :
    (insertEntry key v kvs).lookup k = if k = key then some v else kvs.lookup k := by
  induction kvs with
  | nil =>
    rw [insertEntry, List.lookup_cons]
    by_cases hk : k = key
    · simp [hk]
    · simp [hk, beq_eq_false_iff_ne.mpr hk]
  | cons e kvs ih =>
    obtain ⟨l, w⟩ := e
    rw [insertEntry]
    split
    · rename_i hkey
      subst hkey
      by_cases hk : k = key
      · simp [hk]
      · simp [List.lookup_cons, hk, beq_eq_false_iff_ne.mpr hk]
    · rename_i hne
      split
      · by_cases hk : k = key
        · simp [hk]
        · simp [List.lookup_cons, hk, beq_eq_false_iff_ne.mpr hk]
      · rw [List.lookup_cons, ih, List.lookup_cons]
        by_cases hl : k = l
        · subst hl
          simp [Ne.symm hne]
        · simp [beq_eq_false_iff_ne.mpr hl]

/-! ## 3. Objects built entry by entry -/

/-- The entries of an object, in the order of their distinct keys. -/
def Sorted (kvs : List (String × Json)) : Prop := kvs.Pairwise fun a b => a.1 < b.1

theorem mem_insertEntry {key : String} {v : Json} {kvs : List (String × Json)}
    {e : String × Json} (h : e ∈ insertEntry key v kvs) : e = (key, v) ∨ e ∈ kvs := by
  induction kvs with
  | nil => exact .inl (List.mem_singleton.mp h)
  | cons d kvs ih =>
    rw [insertEntry] at h
    split at h
    · exact (List.mem_cons.mp h).imp_right (List.mem_cons_of_mem d)
    · split at h
      · exact List.mem_cons.mp h
      · rcases List.mem_cons.mp h with rfl | h
        · exact .inr List.mem_cons_self
        · exact (ih h).imp_right (List.mem_cons_of_mem d)

theorem Sorted.insertEntry {kvs : List (String × Json)} (h : Sorted kvs) (key : String)
    (v : Json) : Sorted (insertEntry key v kvs) := by
  induction kvs with
  | nil => exact List.pairwise_singleton _ _
  | cons d kvs ih =>
    obtain ⟨hd, hkvs⟩ := List.pairwise_cons.mp h
    rw [Json.insertEntry]
    split
    · rename_i hkey
      exact List.pairwise_cons.mpr ⟨fun e he => hkey ▸ hd e he, hkvs⟩
    · rename_i hne
      split
      · rename_i hlt
        refine List.pairwise_cons.mpr ⟨?_, h⟩
        exact List.forall_mem_cons.mpr ⟨hlt, fun e he => hlt.trans (hd e he)⟩
      · rename_i hnlt
        refine List.pairwise_cons.mpr ⟨fun e he => ?_, ih hkvs⟩
        rcases mem_insertEntry he with rfl | he
        · exact lt_of_le_of_ne (not_lt.mp hnlt) (Ne.symm hne)
        · exact hd e he

/-- Inserts one after the other. -/
def ofEntries (es : List (String × Json)) : List (String × Json) :=
  es.foldl (fun kvs e => insertEntry e.1 e.2 kvs) []

theorem sorted_ofEntries (es : List (String × Json)) : Sorted (ofEntries es) := by
  unfold ofEntries
  induction es using List.reverseRecOn with
  | nil => exact List.Pairwise.nil
  | append_singleton es e ih =>
    rw [List.foldl_append]
    exact ih.insertEntry e.1 e.2

/-- The last one under a key stays. -/
theorem lookup_ofEntries (es : List (String × Json)) (k : String) :
    (ofEntries es).lookup k = es.reverse.lookup k := by
  unfold ofEntries
  induction es using List.reverseRecOn with
  | nil => rfl
  | append_singleton es e ih =>
    rw [List.foldl_append, List.foldl_cons, List.foldl_nil, lookup_insertEntry, ih,
      List.reverse_append, List.reverse_singleton, List.singleton_append, List.lookup_cons]
    by_cases hk : k = e.1
    · simp [hk]
    · simp [hk, beq_eq_false_iff_ne.mpr hk]

end Json

end Ukiel
