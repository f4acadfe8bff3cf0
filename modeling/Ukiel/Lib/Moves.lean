/-
# Moving an element of a list

`l.moveTo i j` is the list with what stood at place `i` taken out and put in at place `j`; the
others keep their order.  What stood at place `p` is then at `placeAfter i j p`.
-/
import Mathlib.Data.List.InsertIdx
import Mathlib.Data.List.Perm.Basic

namespace List

variable {α β : Type}

/-- The list with the element at one place moved to another. -/
def moveTo (i j : Nat) (l : List α) : List α :=
  match l[i]? with
  | some x => if j < l.length then (l.eraseIdx i).insertIdx j x else l
  | none => l

/-- Where an element is after the move. -/
def placeAfter (i j p : Nat) : Nat :=
  if p = i then j
  else
    let q := if p < i then p else p - 1
    if q < j then q else q + 1

/-! ## 1. Places -/

section Places

variable {i j p q : Nat}

@[simp] theorem placeAfter_self : placeAfter i j i = j := by
  simp [placeAfter]

theorem placeAfter_placeAfter : placeAfter j i (placeAfter i j p) = p := by
  unfold placeAfter
  simp only
  repeat' split
  all_goals omega

theorem placeAfter_injective (h : placeAfter i j p = placeAfter i j q) : p = q := by
  rw [← placeAfter_placeAfter (i := i) (j := j) (p := p), h, placeAfter_placeAfter]

/-- The others keep their order. -/
theorem placeAfter_lt_iff (hp : p ≠ i) (hq : q ≠ i) :
    placeAfter i j p < placeAfter i j q ↔ p < q := by
  unfold placeAfter
  rw [if_neg hp, if_neg hq]
  simp only
  repeat' split
  all_goals omega

end Places

/-! ## 2. The moved list -/

section Moved

variable {l : List α} {i j p : Nat}

theorem moveTo_eq {x : α} (hx : l[i]? = some x) (hj : j < l.length) :
    l.moveTo i j = (l.eraseIdx i).insertIdx j x := by
  unfold moveTo
  rw [hx]
  exact if_pos hj

theorem moveTo_of_le (h : l.length ≤ i ∨ l.length ≤ j) : l.moveTo i j = l := by
  unfold moveTo
  cases hx : l[i]? with
  | none => rfl
  | some x =>
    obtain ⟨hlt, -⟩ := getElem?_eq_some_iff.mp hx
    exact if_neg (by omega)

theorem moveTo_perm (i j : Nat) (l : List α) : (l.moveTo i j).Perm l := by
  by_cases h : i < l.length ∧ j < l.length
  · rw [moveTo_eq (getElem?_eq_getElem h.1) h.2]
    have hlen := length_eraseIdx_of_lt h.1
    exact (perm_insertIdx _ _ (by omega)).trans (getElem_cons_eraseIdx_perm h.1)
  · rw [moveTo_of_le (by omega)]

@[simp] theorem length_moveTo (i j : Nat) (l : List α) : (l.moveTo i j).length = l.length :=
  (moveTo_perm i j l).length_eq

/-- **Every element is where the move has put it.** -/
theorem getElem?_moveTo (hi : i < l.length) (hj : j < l.length) (p : Nat) :
    (l.moveTo i j)[placeAfter i j p]? = l[p]? := by
  have hlen := length_eraseIdx_of_lt hi
  rw [moveTo_eq (getElem?_eq_getElem hi) hj, getElem?_insertIdx]
  unfold placeAfter
  by_cases hp : p = i
  · subst hp
    rw [if_pos rfl, if_neg (by omega), if_pos rfl, if_pos (by omega), getElem?_eq_getElem hi]
  · rw [if_neg hp]
    -- what is not moved is found in the list without the moved element
    have hrest : (l.eraseIdx i)[if p < i then p else p - 1]? = l[p]? := by
      rw [getElem?_eraseIdx]
      by_cases hlt : p < i
      · rw [if_pos hlt, if_pos hlt]
      · rw [if_neg hlt, if_neg (by omega), Nat.sub_add_cancel (by omega)]
    simp only
    generalize (if p < i then p else p - 1) = q at hrest
    by_cases hq : q < j
    · rw [if_pos hq, if_pos hq, hrest]
    · rw [if_neg hq, if_neg (by omega), if_neg (by omega), Nat.add_sub_cancel, hrest]

/-- A cell is replaced before the move, or after it at its new place. -/
theorem moveTo_set (hi : i < l.length) (hj : j < l.length) (p : Nat) (x : α) :
    (l.set p x).moveTo i j = (l.moveTo i j).set (placeAfter i j p) x := by
  refine ext_getElem? fun q => ?_
  obtain ⟨k, rfl⟩ : ∃ k, placeAfter i j k = q := ⟨placeAfter j i q, placeAfter_placeAfter⟩
  rw [getElem?_moveTo (by rwa [length_set]) (by rwa [length_set]), getElem?_set, getElem?_set,
    getElem?_moveTo hi hj]
  by_cases hpk : p = k
  · subst hpk
    have hlt : placeAfter i j p < (l.moveTo i j).length ↔ p < l.length := by
      rw [← not_iff_not, Nat.not_lt, Nat.not_lt, ← getElem?_eq_none_iff, ← getElem?_eq_none_iff,
        getElem?_moveTo hi hj]
    rw [if_pos rfl, if_pos rfl]
    simp only [hlt]
  · rw [if_neg hpk, if_neg fun h => hpk (placeAfter_injective h)]

theorem moveTo_injective {m : List α} (hi : i < l.length) (hj : j < l.length)
    (hlen : m.length = l.length) (h : l.moveTo i j = m.moveTo i j) : l = m := by
  refine ext_getElem? fun p => ?_
  rw [← getElem?_moveTo hi hj p, h, getElem?_moveTo (hlen ▸ hi) (hlen ▸ hj)]

theorem insertIdx_append_length (x : α) (b : List α) :
    ∀ a : List α, (a ++ b).insertIdx a.length x = a ++ x :: b
  | [] => by rw [nil_append, length_nil, insertIdx_zero, nil_append]
  | y :: a => by
    rw [cons_append, length_cons, insertIdx_succ_cons, insertIdx_append_length x b a, cons_append]

theorem moveTo_append {a b a' b' : List α} (x : α) (h : a ++ b = a' ++ b') :
    (a ++ x :: b).moveTo a.length a'.length = a' ++ x :: b' := by
  have hlen := congrArg length h
  rw [length_append, length_append] at hlen
  rw [moveTo_eq (x := x) (by simp) (by rw [length_append, length_cons]; omega),
    eraseIdx_append_of_length_le (Nat.le_refl _), Nat.sub_self, eraseIdx_cons_zero, h]
  exact insertIdx_append_length x b' a'

end Moved

/-! ## 3. Places in a filtered list -/

section Filter

variable {p : α → Bool}

/-- An element of the filtered list, in the list. -/
theorem exists_append_of_filter {l : List α} {i : Nat} {x : α} (h : (l.filter p)[i]? = some x) :
    ∃ a b, l = a ++ x :: b ∧ (a.filter p).length = i := by
  induction l generalizing i with
  | nil => cases h
  | cons y l ih =>
    by_cases hy : p y = true
    · rw [filter_cons_of_pos hy] at h
      cases i with
      | zero => exact ⟨[], l, by rw [← Option.some.inj h, nil_append], rfl⟩
      | succ i =>
        obtain ⟨a, b, rfl, hlen⟩ := ih h
        exact ⟨y :: a, b, rfl, by rw [filter_cons_of_pos hy, length_cons, hlen]⟩
    · rw [filter_cons_of_neg hy] at h
      obtain ⟨a, b, rfl, hlen⟩ := ih h
      exact ⟨y :: a, b, rfl, by rw [filter_cons_of_neg hy, hlen]⟩

/-- Every number of elements the filter keeps is that of some first elements of the list. -/
theorem exists_take_filter {l : List α} {k : Nat} (h : k ≤ (l.filter p).length) :
    ∃ n ≤ l.length, ((l.take n).filter p).length = k := by
  induction l generalizing k with
  | nil => exact ⟨0, Nat.le_refl 0, (Nat.le_zero.mp h).symm⟩
  | cons y l ih =>
    cases k with
    | zero => exact ⟨0, Nat.zero_le _, rfl⟩
    | succ k =>
      by_cases hy : p y = true
      · rw [filter_cons_of_pos hy, length_cons] at h
        obtain ⟨n, hn, hlen⟩ := ih (Nat.le_of_succ_le_succ h)
        refine ⟨n + 1, Nat.succ_le_succ hn, ?_⟩
        rw [take_succ_cons, filter_cons_of_pos hy, length_cons, hlen]
      · rw [filter_cons_of_neg hy] at h
        obtain ⟨n, hn, hlen⟩ := ih h
        refine ⟨n + 1, Nat.succ_le_succ hn, ?_⟩
        rw [take_succ_cons, filter_cons_of_neg hy, hlen]

end Filter

end List
