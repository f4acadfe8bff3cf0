/-
# JSONB equality

How Postgres compares the values of a JSONB column, and so tells partitions apart: strings by
their characters, arrays and objects entry by entry, and numbers by what they are worth, however
they were written.  A `float64` is worth an integer once it is multiplied by `2 ^ 1074`, so that
two numbers are compared as integers.

Postgres does not see the float but the decimal text that serde writes, the shortest that reads back
as the float, and compares these texts as numerics.  For two integers or two floats that comes to
the same.  A float of `2 ^ 53` and more may have a text that is worth another integer than the float:
`9.223372036854776e18` and the integer `9223372036854775808` are different to Postgres, and one
number here.

Two floats are the same number only if they are the same float, but for the two zeros
(`floatScaled_eq_iff`).
-/
import Mathlib.Algebra.Order.Ring.Nat
import Mathlib.Order.Monotone.Basic
import Ukiel.Core.Json

namespace Ukiel

/-! ## 1. Numbers -/

/-- A float without its sign, times `2 ^ 1074`: the significand, shifted by the exponent. -/
def floatMagnitude (m : Nat) : Nat :=
  if m / 2 ^ 52 = 0 then m % 2 ^ 52 else (2 ^ 52 + m % 2 ^ 52) * 2 ^ (m / 2 ^ 52 - 1)

/-- A float times `2 ^ 1074`. -/
def floatScaled (bits : UInt64) : Int :=
  if bits.toNat < 2 ^ 63 then floatMagnitude bits.toNat
  else -floatMagnitude (bits.toNat - 2 ^ 63)

/-- A number times `2 ^ 1074`: a float by its binary value, not by its decimal text. -/
def Number.scaled : Number → Int
  | .int n => n * 2 ^ 1074
  | .float bits => floatScaled bits

/-- Either zero. -/
def isZero (bits : UInt64) : Bool := bits.toNat % 2 ^ 63 = 0

theorem floatMagnitude_lt (m : Nat) : floatMagnitude m < 2 ^ (52 + m / 2 ^ 52) := by
  unfold floatMagnitude
  have hf : m % 2 ^ 52 < 2 ^ 52 := Nat.mod_lt _ (by decide)
  split
  · rename_i he
    rw [he]
    exact hf
  · rename_i he
    calc (2 ^ 52 + m % 2 ^ 52) * 2 ^ (m / 2 ^ 52 - 1)
        < 2 ^ 53 * 2 ^ (m / 2 ^ 52 - 1) :=
          Nat.mul_lt_mul_of_pos_right (by omega) (Nat.pow_pos (by decide))
      _ = 2 ^ (52 + m / 2 ^ 52) := by
          rw [← pow_add]
          congr 1
          omega

theorem le_floatMagnitude {m : Nat} (he : m / 2 ^ 52 ≠ 0) :
    2 ^ (51 + m / 2 ^ 52) ≤ floatMagnitude m := by
  unfold floatMagnitude
  rw [if_neg he]
  calc 2 ^ (51 + m / 2 ^ 52) = 2 ^ 52 * 2 ^ (m / 2 ^ 52 - 1) := by
        rw [← pow_add]
        congr 1
        omega
    _ ≤ (2 ^ 52 + m % 2 ^ 52) * 2 ^ (m / 2 ^ 52 - 1) :=
        Nat.mul_le_mul_right _ (Nat.le_add_right _ _)

/-- **Floats of one sign are ordered as their bits are.** -/
theorem floatMagnitude_strictMono : StrictMono floatMagnitude := by
  intro m n hmn
  rcases (Nat.div_le_div_right hmn.le : m / 2 ^ 52 ≤ n / 2 ^ 52).lt_or_eq with he | he
  · calc floatMagnitude m < 2 ^ (52 + m / 2 ^ 52) := floatMagnitude_lt m
      _ ≤ 2 ^ (51 + n / 2 ^ 52) := Nat.pow_le_pow_right (by decide) (by omega)
      _ ≤ floatMagnitude n := le_floatMagnitude (by omega)
  · -- one exponent, so the significands decide
    have hf : m % 2 ^ 52 < n % 2 ^ 52 := by omega
    unfold floatMagnitude
    rw [he]
    split
    · exact hf
    · exact Nat.mul_lt_mul_of_pos_right (by omega) (Nat.pow_pos (by decide))

theorem floatMagnitude_eq_zero {m : Nat} : floatMagnitude m = 0 ↔ m = 0 :=
  ⟨fun h => floatMagnitude_strictMono.injective (h.trans (by rfl)), by rintro rfl; rfl⟩

/-- **Floats of the same value are the same, or zeros.** -/
theorem floatScaled_eq_iff {a b : UInt64} :
    floatScaled a = floatScaled b ↔ a = b ∨ isZero a = true ∧ isZero b = true := by
  have hinj := floatMagnitude_strictMono.injective
  have ha := a.toNat_lt
  have hb := b.toNat_lt
  unfold isZero
  rw [decide_eq_true_eq, decide_eq_true_eq, ← UInt64.toNat_inj]
  have hcross : ∀ m n : Nat, (floatMagnitude m : Int) = -floatMagnitude n ↔ m = 0 ∧ n = 0 := by
    intro m n
    rw [← floatMagnitude_eq_zero (m := m), ← floatMagnitude_eq_zero (m := n)]
    omega
  unfold floatScaled
  split <;> split
  · rw [Int.natCast_inj, hinj.eq_iff]
    omega
  · rw [hcross]
    omega
  · rw [eq_comm, hcross]
    omega
  · rw [neg_inj, Int.natCast_inj, hinj.eq_iff]
    omega

theorem scaled_int_eq_iff {m n : Int} :
    (Number.int m).scaled = (Number.int n).scaled ↔ m = n := by
  unfold Number.scaled
  exact Int.mul_eq_mul_right_iff (Int.pow_ne_zero (by decide))

theorem scaled_float_eq_iff {a b : UInt64} :
    (Number.float a).scaled = (Number.float b).scaled ↔
      a = b ∨ isZero a = true ∧ isZero b = true := floatScaled_eq_iff

/-! ## 2. Values -/

namespace Json

mutual

/-- `jsonb_eq`, but for a large integer against a float. -/
def jsonbEq : Json → Json → Bool
  | .null, .null => true
  | .bool a, .bool b => a == b
  | .num a, .num b => decide (a.scaled = b.scaled)
  | .str a, .str b => a == b
  | .arr xs, .arr ys => jsonbEqArr xs ys
  | .obj xs, .obj ys => jsonbEqObj xs ys
  | _, _ => false

/-- Array items. -/
def jsonbEqArr : List Json → List Json → Bool
  | [], [] => true
  | x :: xs, y :: ys => jsonbEq x y && jsonbEqArr xs ys
  | _, _ => false

/-- Object entries. -/
def jsonbEqObj : List (String × Json) → List (String × Json) → Bool
  | [], [] => true
  | (k, x) :: xs, (l, y) :: ys => k == l && (jsonbEq x y && jsonbEqObj xs ys)
  | _, _ => false

end

/-- Objects with the same keys, and related values under them. -/
def Entries (R : Json → Json → Prop) : List (String × Json) → List (String × Json) → Prop :=
  List.Forall₂ fun e e' => e.1 = e'.1 ∧ R e.2 e'.2

theorem jsonbEqObj_iff {xs ys : List (String × Json)} :
    jsonbEqObj xs ys = true ↔ Entries (fun x y => jsonbEq x y = true) xs ys := by
  unfold Entries
  induction xs generalizing ys with
  | nil => cases ys <;> simp [jsonbEqObj]
  | cons e xs ih =>
    obtain ⟨k, x⟩ := e
    cases ys with
    | nil => simp [jsonbEqObj]
    | cons e' ys =>
      obtain ⟨l, y⟩ := e'
      rw [jsonbEqObj, List.forall₂_cons, Bool.and_eq_true, Bool.and_eq_true, beq_iff_eq, ih,
        and_assoc]

theorem entries_eq_iff {xs ys : List (String × Json)} : Entries Eq xs ys ↔ xs = ys := by
  unfold Entries
  rw [← List.forall₂_eq_eq_eq]
  exact ⟨fun h => h.imp fun _ _ he => Prod.ext he.1 he.2,
    fun h => h.imp fun _ _ he => he ▸ ⟨rfl, rfl⟩⟩

variable {R : Json → Json → Prop} {xs ys : List (String × Json)}

/-- Related values put under one key. -/
theorem Entries.insertEntry (h : Entries R xs ys) (key : String) {v w : Json} (hvw : R v w) :
    Entries R (Json.insertEntry key v xs) (Json.insertEntry key w ys) := by
  unfold Entries at h ⊢
  induction h with
  | nil => exact .cons ⟨rfl, hvw⟩ .nil
  | @cons e e' xs ys he hrest ih =>
    obtain ⟨k, x⟩ := e
    obtain ⟨l, y⟩ := e'
    obtain ⟨rfl, hxy⟩ : k = l ∧ R x y := he
    rw [Json.insertEntry, Json.insertEntry]
    split
    · exact .cons ⟨rfl, hvw⟩ hrest
    · split
      · exact .cons ⟨rfl, hvw⟩ (.cons ⟨rfl, hxy⟩ hrest)
      · exact .cons ⟨rfl, hxy⟩ ih

theorem Entries.lookup (h : Entries R xs ys) {key : String} {v w : Json}
    (hv : xs.lookup key = some v) (hw : ys.lookup key = some w) : R v w := by
  unfold Entries at h
  induction h with
  | nil => cases hv
  | @cons e e' xs ys he hrest ih =>
    obtain ⟨k, x⟩ := e
    obtain ⟨l, y⟩ := e'
    obtain ⟨rfl, hxy⟩ : k = l ∧ R x y := he
    rw [List.lookup_cons] at hv hw
    by_cases hk : (key == k) = true
    · rw [hk] at hv hw
      cases hv
      cases hw
      exact hxy
    · rw [Bool.not_eq_true] at hk
      rw [hk] at hv hw
      exact ih hv hw

/-! ## 3. What values are worth -/

mutual

/-- The value with every number as what it is worth. -/
def worth : Json → Json
  | .num n => .num (.int n.scaled)
  | .arr xs => .arr (worthArr xs)
  | .obj xs => .obj (worthObj xs)
  | j => j

/-- Array items. -/
def worthArr : List Json → List Json
  | [] => []
  | x :: xs => worth x :: worthArr xs

/-- Object entries. -/
def worthObj : List (String × Json) → List (String × Json)
  | [] => []
  | (k, x) :: xs => (k, worth x) :: worthObj xs

end

mutual

/-- **Equality is that of what the values are worth**, and so an equivalence. -/
theorem jsonbEq_iff_worth : ∀ a b : Json, jsonbEq a b = true ↔ a.worth = b.worth
  | .null, b => by cases b <;> simp [jsonbEq, worth]
  | .bool a, b => by cases b <;> simp [jsonbEq, worth]
  | .num a, b => by cases b <;> simp [jsonbEq, worth]
  | .str a, b => by cases b <;> simp [jsonbEq, worth]
  | .arr xs, b => by cases b <;> simp [jsonbEq, worth, jsonbEqArr_iff_worth xs]
  | .obj xs, b => by cases b <;> simp [jsonbEq, worth, jsonbEqObj_iff_worth xs]

theorem jsonbEqArr_iff_worth : ∀ xs ys : List Json,
    jsonbEqArr xs ys = true ↔ worthArr xs = worthArr ys
  | [], ys => by cases ys <;> simp [jsonbEqArr, worthArr]
  | x :: xs, ys => by
    cases ys <;> simp [jsonbEqArr, worthArr, jsonbEq_iff_worth x, jsonbEqArr_iff_worth xs]

theorem jsonbEqObj_iff_worth : ∀ xs ys : List (String × Json),
    jsonbEqObj xs ys = true ↔ worthObj xs = worthObj ys
  | [], ys => by cases ys <;> simp [jsonbEqObj, worthObj]
  | (k, x) :: xs, ys => by
    rcases ys with _ | ⟨⟨l, y⟩, ys⟩ <;>
      simp [jsonbEqObj, worthObj, jsonbEq_iff_worth x, jsonbEqObj_iff_worth xs, and_assoc]

end

theorem jsonbEq_self (a : Json) : jsonbEq a a = true := (jsonbEq_iff_worth a a).mpr rfl

/-- Values that equal the same one equal each other. -/
theorem jsonbEq_of_common {a b c : Json} (ha : jsonbEq a c = true) (hb : jsonbEq b c = true) :
    jsonbEq a b = true := by
  rw [jsonbEq_iff_worth] at ha hb ⊢
  exact ha.trans hb.symm

theorem jsonbEq_symm {a b : Json} (h : jsonbEq a b = true) : jsonbEq b a = true :=
  jsonbEq_of_common (jsonbEq_self b) h

end Json

end Ukiel
