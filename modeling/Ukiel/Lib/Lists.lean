/-
# Counting matched keys

An optimistic UPDATE names rows by key and compares the number of rows it matched with the
number of keys it was given.  These are the facts that make the comparison mean something:
over rows with DISTINCT keys, the counts agree exactly when the given keys are distinct and
each of them is the key of a matching row.  Totals over rows then follow the keys.
-/
import Mathlib.Data.List.Basic
import Mathlib.Data.List.AList
import Mathlib.Data.List.Nodup
import Mathlib.Data.List.Perm.Subperm
import Mathlib.Algebra.BigOperators.Group.List.Basic
import Mathlib.Tactic.Basic

namespace List

section Positions

variable {α : Type}

/-- An element found after neither `A` nor `x` has `x` somewhere in front of it. -/
theorem mem_of_append_cons_eq {pre post A B : List α} {s x : α}
    (h : pre ++ s :: post = A ++ x :: B) (hA : s ∉ A) (hx : s ≠ x) : x ∈ pre := by
  rcases List.append_eq_append_iff.mp h with ⟨as, rfl, hs⟩ | ⟨cs, rfl, hs⟩
  · cases as with
    | nil => exact absurd (List.cons.inj hs).1 hx
    | cons a as =>
      obtain ⟨rfl, -⟩ := List.cons.inj hs
      exact absurd (by simp) hA
  · cases cs with
    | nil => exact absurd (List.cons.inj hs).1.symm hx
    | cons a cs =>
      obtain ⟨rfl, -⟩ := List.cons.inj hs
      simp

end Positions

variable {α β : Type} [DecidableEq β]

/-- The keys of the rows that match are among the keys asked for, each once. -/
theorem map_filter_key_subperm {f : α → β} {P : α → Prop} [DecidablePred P] {l : List α}
    (hl : (l.map f).Nodup) (ids : List β) :
    ((l.filter fun x => f x ∈ ids ∧ P x).map f) <+~ ids := by
  refine List.subperm_of_subset ?_ ?_
  · exact hl.sublist (List.Sublist.map f List.filter_sublist)
  · intro i hi
    obtain ⟨x, hx, rfl⟩ := List.mem_map.mp hi
    have hm := (List.mem_filter.mp hx).2
    simp only [decide_eq_true_eq] at hm
    exact hm.1

/-- When as many rows match as keys were given, the keys of the matching rows are the given
ones. -/
theorem map_filter_key_perm {f : α → β} {P : α → Prop} [DecidablePred P] {l : List α}
    (hl : (l.map f).Nodup) {ids : List β}
    (h : (l.filter fun x => f x ∈ ids ∧ P x).length = ids.length) :
    ((l.filter fun x => f x ∈ ids ∧ P x).map f).Perm ids :=
  (map_filter_key_subperm hl ids).perm_of_length_le (by rw [List.length_map, h])

/-- **The count check, read back.**  As many rows match as keys were given exactly when the
keys are distinct and each of them is the key of a matching row. -/
theorem length_filter_key_eq_iff {f : α → β} {P : α → Prop} [DecidablePred P] {l : List α}
    (hl : (l.map f).Nodup) {ids : List β} :
    (l.filter fun x => f x ∈ ids ∧ P x).length = ids.length ↔
      ids.Nodup ∧ ∀ i ∈ ids, ∃ x ∈ l, f x = i ∧ P x := by
  have hsub := map_filter_key_subperm (P := P) hl ids
  constructor
  · intro h
    have hperm := map_filter_key_perm hl h
    refine ⟨hperm.nodup_iff.mp (hl.sublist (List.Sublist.map f List.filter_sublist)), ?_⟩
    intro i hi
    obtain ⟨x, hx, rfl⟩ := List.mem_map.mp (hperm.mem_iff.mpr hi)
    have hm := List.mem_filter.mp hx
    simp only [decide_eq_true_eq] at hm
    exact ⟨x, hm.1, rfl, hm.2.2⟩
  · rintro ⟨hnd, hex⟩
    refine Nat.le_antisymm ?_ ?_
    · simpa using hsub.length_le
    · have hback : ids <+~ (l.filter fun x => f x ∈ ids ∧ P x).map f := by
        refine List.subperm_of_subset hnd ?_
        intro i hi
        obtain ⟨x, hx, rfl, hP⟩ := hex i hi
        exact List.mem_map_of_mem (List.mem_filter.mpr ⟨hx, by simp [hi, hP]⟩)
      simpa using hback.length_le

section Sums

omit [DecidableEq β]

variable {M : Type} [AddCommMonoid M]

/-- A total splits along a test. -/
theorem sum_map_filter_add_not (w : α → M) (p : α → Bool) (l : List α) :
    ((l.filter p).map w).sum + ((l.filter fun x => !p x).map w).sum = (l.map w).sum := by
  rw [← List.sum_append, ← List.map_append]
  exact ((List.filter_append_perm p l).map w).sum_eq

/-- One entry is replaced. -/
theorem sum_set_add {x : M} (v : M) :
    ∀ {l : List M} {i : Nat}, l[i]? = some x → (l.set i v).sum + x = l.sum + v
  | y :: l, 0, h => by
    obtain rfl : y = x := Option.some.inj h
    rw [set_cons_zero, sum_cons, sum_cons, add_right_comm, add_comm v, add_right_comm]
  | y :: l, i + 1, h => by
    have ih := sum_set_add v (l := l) (i := i) h
    rw [set_cons_succ, sum_cons, sum_cons, add_assoc, ih, add_assoc]

/-- Rows with the same keys have the same total when a row's weight is determined by its key. -/
theorem sum_map_eq_of_keys {f : α → β} {w : α → M} :
    ∀ {l₁ l₂ : List α}, (l₁.map f).Perm (l₂.map f) →
      (∀ x ∈ l₁, ∀ y ∈ l₂, f x = f y → w x = w y) → (l₁.map w).sum = (l₂.map w).sum := by
  intro l₁
  induction l₁ with
  | nil =>
    intro l₂ h _
    rw [List.map_nil, List.nil_perm, List.map_eq_nil_iff] at h
    rw [h]
  | cons x l₁ ih =>
    intro l₂ h hw
    have hx : f x ∈ l₂.map f := h.subset List.mem_cons_self
    obtain ⟨y, hy, hfy⟩ := List.mem_map.mp hx
    obtain ⟨A, B, rfl⟩ := List.append_of_mem hy
    have hperm : (A ++ y :: B).Perm (y :: (A ++ B)) := List.perm_middle
    have hrest : (l₁.map f).Perm ((A ++ B).map f) := by
      refine List.Perm.cons_inv (a := f x) ?_
      rw [← hfy]
      rw [List.map_cons, ← hfy] at h
      exact h.trans (hperm.map f)
    rw [(hperm.map w).sum_eq, List.map_cons, List.map_cons, List.sum_cons, List.sum_cons,
      hw x List.mem_cons_self y hy hfy.symm, ih hrest]
    intro z hz y' hy' hf
    exact hw z (List.mem_cons_of_mem x hz) y' (hperm.mem_iff.mpr (List.mem_cons_of_mem y hy')) hf

end Sums

/-- Two disjoint selections, put together. -/
theorem filter_append_filter_perm {α : Type*} {p q : α → Bool} {l : List α}
    (h : ∀ x ∈ l, p x = true → q x = false) :
    (l.filter p ++ l.filter q).Perm (l.filter fun x => p x || q x) := by
  induction l with
  | nil => exact List.Perm.refl _
  | cons x l ih =>
    have ih' := ih fun y hy => h y (mem_cons_of_mem x hy)
    cases hp : p x with
    | true =>
      have hq := h x mem_cons_self hp
      rw [filter_cons_of_pos hp, filter_cons_of_neg (by simp [hq]),
        filter_cons_of_pos (by simp [hp]), cons_append]
      exact ih'.cons x
    | false =>
      cases hq : q x with
      | true =>
        rw [filter_cons_of_neg (by simp [hp]), filter_cons_of_pos hq,
          filter_cons_of_pos (by simp [hq])]
        exact perm_middle.trans (ih'.cons x)
      | false =>
        rw [filter_cons_of_neg (by simp [hp]), filter_cons_of_neg (by simp [hq]),
          filter_cons_of_neg (by simp [hp, hq])]
        exact ih'

/-- What stands before the first occurrence of a separator is determined. -/
theorem append_sep_inj {α : Type*} {a : α} {z₁ z₂ : List α} :
    ∀ {x₁ x₂ : List α}, a ∉ x₁ → a ∉ x₂ → x₁ ++ a :: z₁ = x₂ ++ a :: z₂ → x₁ = x₂
  | [], [], _, _, _ => rfl
  | [], b :: x₂, _, h₂, h => by
    rw [nil_append, cons_append, cons.injEq] at h
    exact absurd (mem_cons.mpr (Or.inl h.1)) h₂
  | b :: x₁, [], h₁, _, h => by
    rw [nil_append, cons_append, cons.injEq] at h
    exact absurd (mem_cons.mpr (Or.inl h.1.symm)) h₁
  | b :: x₁, c :: x₂, h₁, h₂, h => by
    rw [cons_append, cons_append, cons.injEq] at h
    rw [h.1, append_sep_inj (fun hm => h₁ (mem_cons_of_mem b hm))
      (fun hm => h₂ (mem_cons_of_mem c hm)) h.2]

end List

/-! ## Totals over a map -/

namespace AList

variable {κ β M : Type} [DecidableEq κ] [AddCommMonoid M]

theorem sum_kerase (w : β → M) (k : κ) (l : List (Sigma fun _ : κ => β)) :
    ((List.kerase k l).map fun e => w e.2).sum + ((List.dlookup k l).elim 0 w) =
      (l.map fun e => w e.2).sum := by
  induction l with
  | nil => simp
  | cons e l ih =>
    obtain ⟨k', v⟩ := e
    by_cases hk : k = k'
    · subst hk
      simp [add_comm]
    · have herase : List.kerase k (⟨k', v⟩ :: l) = ⟨k', v⟩ :: List.kerase k l :=
        List.kerase_cons_ne hk
      have hlook : List.dlookup k (⟨k', v⟩ :: l) = List.dlookup k l :=
        List.dlookup_cons_ne _ _ hk
      rw [herase, hlook, List.map_cons, List.sum_cons, List.map_cons, List.sum_cons, add_assoc, ih]

/-- An upsert takes the old value out of the total and puts the new one in. -/
theorem sum_insert (w : β → M) (m : AList fun _ : κ => β) (k : κ) (v : β) :
    ((m.insert k v).entries.map fun e => w e.2).sum + ((m.lookup k).elim 0 w) =
      w v + (m.entries.map fun e => w e.2).sum := by
  rw [AList.entries_insert, List.map_cons, List.sum_cons, add_assoc]
  exact congrArg (w v + ·) (sum_kerase w k m.entries)

end AList
