/-
# Stretches of a sparse sequence

Positions of a linear order, of which some are present (`P`): a log with gaps.  `Stretch P a b l`
says that `l` is what a reader who starts at `a` has read when it stands at `b`: every present
position of `[a, b)`, once, in order.  Stretches grow at the end by one position, are laid end
to end, and do not notice that their start moves over a gap.

`ends` is what a reader who keeps only the first and the last position remembers.
-/
import Mathlib.Data.List.Pairwise
import Mathlib.Order.Lattice
import Mathlib.Tactic.Basic

variable {α : Type} [LinearOrder α]

/-- `l` lists the present positions of `[a, b)` in increasing order. -/
structure Stretch (P : α → Prop) (a b : α) (l : List α) : Prop where
  sorted : l.Pairwise (· < ·)
  mem : ∀ x, x ∈ l ↔ P x ∧ a ≤ x ∧ x < b

namespace Stretch

variable {P : α → Prop} {a b c : α} {l m : List α}

theorem nil (a : α) : Stretch P a a [] where
  sorted := List.Pairwise.nil
  mem x := by simp

/-- The reader takes the next present position `o` and stands at `c`, past it. -/
theorem snoc {o : α} (h : Stretch P a b l) (hab : a ≤ b) (hbo : b ≤ o) (hoc : o < c) (ho : P o)
    (hnext : ∀ x, P x → b ≤ x → x < c → x = o) : Stretch P a c (l ++ [o]) where
  sorted := by
    refine List.pairwise_append.mpr ⟨h.sorted, List.pairwise_singleton _ _, ?_⟩
    intro x hx y hy
    rw [List.mem_singleton.mp hy]
    exact lt_of_lt_of_le ((h.mem x).mp hx).2.2 hbo
  mem x := by
    rw [List.mem_append, List.mem_singleton, h.mem]
    constructor
    · rintro (⟨hx, hax, hxb⟩ | rfl)
      · exact ⟨hx, hax, lt_trans (lt_of_lt_of_le hxb hbo) hoc⟩
      · exact ⟨ho, le_trans hab hbo, hoc⟩
    · rintro ⟨hx, hax, hxc⟩
      rcases lt_or_ge x b with hxb | hbx
      · exact Or.inl ⟨hx, hax, hxb⟩
      · exact Or.inr (hnext x hx hbx hxc)

/-- Two readers, the second from where the first stopped. -/
theorem append (h : Stretch P a b l) (h' : Stretch P b c m) (hab : a ≤ b) (hbc : b ≤ c) :
    Stretch P a c (l ++ m) where
  sorted := by
    refine List.pairwise_append.mpr ⟨h.sorted, h'.sorted, ?_⟩
    intro x hx y hy
    exact lt_of_lt_of_le ((h.mem x).mp hx).2.2 ((h'.mem y).mp hy).2.1
  mem x := by
    rw [List.mem_append, h.mem, h'.mem]
    constructor
    · rintro (⟨hx, hax, hxb⟩ | ⟨hx, hbx, hxc⟩)
      · exact ⟨hx, hax, lt_of_lt_of_le hxb hbc⟩
      · exact ⟨hx, le_trans hab hbx, hxc⟩
    · rintro ⟨hx, hax, hxc⟩
      rcases lt_or_ge x b with hxb | hbx
      · exact Or.inl ⟨hx, hax, hxb⟩
      · exact Or.inr ⟨hx, hbx, hxc⟩

/-- Starting anywhere between the start and the first position read makes no difference. -/
theorem from_later (h : Stretch P a b l) (hac : a ≤ c) (hc : ∀ x ∈ l, c ≤ x) :
    Stretch P c b l where
  sorted := h.sorted
  mem x := by
    refine ⟨fun hx => ⟨((h.mem x).mp hx).1, hc x hx, ((h.mem x).mp hx).2.2⟩, ?_⟩
    rintro ⟨hx, hcx, hxb⟩
    exact (h.mem x).mpr ⟨hx, le_trans hac hcx, hxb⟩

end Stretch

/-! ## First and last -/

/-- The first and the last item of a list. -/
def ends (l : List α) : Option (α × α) :=
  match l.head?, l.getLast? with
  | some x, some y => some (x, y)
  | _, _ => none

omit [LinearOrder α] in
theorem ends_eq_none_iff {l : List α} : ends l = none ↔ l = [] := by
  cases l with
  | nil => simp [ends]
  | cons x l =>
    obtain ⟨y, hy⟩ := Option.isSome_iff_exists.mp
      (List.getLast?_isSome.mpr (List.cons_ne_nil x l))
    simp [ends, hy]

omit [LinearOrder α] in
/-- One more item: the first stays, the last is the new one. -/
theorem ends_concat (l : List α) (y : α) :
    ends (l ++ [y]) = some (((ends l).getD (y, y)).1, y) := by
  cases l with
  | nil => rfl
  | cons x l =>
    obtain ⟨z, hz⟩ := Option.isSome_iff_exists.mp
      (List.getLast?_isSome.mpr (List.cons_ne_nil x l))
    have hlast : (x :: (l ++ [y])).getLast? = some y := by
      rw [← List.cons_append, List.getLast?_concat]
    simp [ends, hz, hlast]

omit [LinearOrder α] in
theorem mem_of_ends {l : List α} {x y : α} (h : ends l = some (x, y)) : x ∈ l ∧ y ∈ l := by
  unfold ends at h
  split at h
  · rename_i hx hy
    cases h
    exact ⟨List.mem_of_head? hx, List.mem_of_getLast? hy⟩
  · cases h

/-- In an increasing list everything lies between the ends. -/
theorem between_ends {l : List α} {x y z : α} (hl : l.Pairwise (· < ·)) (h : ends l = some (x, y))
    (hz : z ∈ l) : x ≤ z ∧ z ≤ y := by
  unfold ends at h
  split at h
  · rename_i hx hy
    cases h
    constructor
    · obtain ⟨t, rfl⟩ := List.head?_eq_some_iff.mp hx
      rcases List.mem_cons.mp hz with rfl | hzt
      · exact le_refl z
      · exact le_of_lt ((List.pairwise_cons.mp hl).1 z hzt)
    · obtain ⟨t, rfl⟩ := List.getLast?_eq_some_iff.mp hy
      rcases List.mem_append.mp hz with hzt | hzy
      · exact le_of_lt ((List.pairwise_append.mp hl).2.2 z hzt y (List.mem_singleton_self y))
      · rw [List.mem_singleton.mp hzy]
  · cases h
