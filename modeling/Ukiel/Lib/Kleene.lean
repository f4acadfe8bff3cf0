/-
# Three-valued logic

The truth values of SQL: `some b` is a determined one and `none` is NULL.  A `WHERE` keeps the
rows on which its condition is `some true`.
-/
import Ukiel.Lib.Folds

namespace Kleene

/-! ## 1. Connectives -/

def and : Option Bool → Option Bool → Option Bool
  | some false, _ => some false
  | _, some false => some false
  | some true, some true => some true
  | _, _ => none

def or : Option Bool → Option Bool → Option Bool
  | some true, _ => some true
  | _, some true => some true
  | some false, some false => some false
  | _, _ => none

@[simp] theorem and_some (a b : Bool) : and (some a) (some b) = some (a && b) := by
  cases a <;> cases b <;> rfl

@[simp] theorem or_some (a b : Bool) : or (some a) (some b) = some (a || b) := by
  cases a <;> cases b <;> rfl

@[simp] theorem or_true_left (b : Option Bool) : or (some true) b = some true := by
  cases b <;> rfl

theorem and_eq_true {a b : Option Bool} : and a b = some true ↔ a = some true ∧ b = some true := by
  rcases a with _ | _ | _ <;> rcases b with _ | _ | _ <;> simp [and]

theorem or_eq_true {a b : Option Bool} : or a b = some true ↔ a = some true ∨ b = some true := by
  rcases a with _ | _ | _ <;> rcases b with _ | _ | _ <;> simp [or]

/-! ## 2. Selections -/

section Select

variable {α ε : Type} {cond : α → Except ε (Option Bool)} {rows out : List α}

/-- `SELECT … WHERE`: the rows on which the condition is TRUE, unless it raises on one. -/
def select (cond : α → Except ε (Option Bool)) (rows : List α) : Except ε (List α) := do
  let truths ← rows.mapM cond
  return ((rows.zip truths).filter fun e => e.2 = some true).map Prod.fst

/-- A condition that raises nowhere. -/
theorem select_eq_ok {g : α → Bool} (h : ∀ a ∈ rows, ∃ t, cond a = .ok t ∧ (t = some true ↔ g a)) :
    select cond rows = .ok (rows.filter g) := by
  obtain ⟨truths, htruths⟩ := List.exists_forall₂ h
  have hconds : rows.mapM cond = .ok truths :=
    List.mapM_eq_ok_iff.mpr (htruths.imp fun _ _ hat => hat.1)
  simp only [select, hconds, bind, Except.bind, pure, Except.pure, Except.ok.injEq]
  clear h hconds
  induction htruths with
  | nil => rfl
  | @cons a t _ _ hat _ ih =>
    rw [List.zip_cons_cons, List.filter_cons, List.filter_cons]
    by_cases hg : g a = true
    · simp [hat.2.mpr hg, hg, ih]
    · have hne : t ≠ some true := fun ht => hg (hat.2.mp ht)
      simp [hne, hg, ih]

/-- Nothing is made up, nor turned around. -/
theorem sublist_of_select (h : select cond rows = .ok out) : out.Sublist rows := by
  obtain ⟨truths, htruths, h⟩ := Except.bind_eq_ok_iff.mp h
  cases h
  have hlength := (List.mapM_eq_ok_iff.mp htruths).length_eq
  refine (List.filter_sublist.map Prod.fst).trans ?_
  rw [List.map_fst_zip (Nat.le_of_eq hlength)]

end Select

end Kleene
