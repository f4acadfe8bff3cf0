/-
# Stable merges

Several lists are merged by a key.  The result has all their elements in order of their keys;
elements of one key come in the order of the lists they are from, and those of one list in the
order they had there.  That is the stable sort of the lists put one behind the other, and its
first element is the first of the least heads: what a k-way merge takes next.
-/
import Mathlib.Data.List.Sort
import Mathlib.Data.List.Flatten
import Mathlib.Tactic.Basic
import Ukiel.Lib.SortedLists

namespace List

variable {α κ : Type} [LinearOrder κ] {key : α → κ}

/-! ## 1. What a stable merge is -/

/-- Every element with the number of its list and its position there. -/
def tagged (ins : List (List α)) : List (α × Nat × Nat) :=
  ins.zipIdx.flatMap fun l => l.1.zipIdx.map fun a => (a.1, l.2, a.2)

/-- Of an earlier list, or earlier in the same one. -/
def TagLt (a b : α × Nat × Nat) : Prop := a.2.1 < b.2.1 ∨ a.2.1 = b.2.1 ∧ a.2.2 < b.2.2

/-- **The stable merge of `ins` is `out`**: all the elements, by key, by list, by position. -/
def IsStableMerge (key : α → κ) (ins : List (List α)) (out : List α) : Prop :=
  ∃ items : List (α × Nat × Nat), items.Perm (tagged ins) ∧
    items.Pairwise (fun a b => key a.1 < key b.1 ∨ key a.1 = key b.1 ∧ TagLt a b) ∧
    items.map Prod.fst = out

/-! ## 2. It is the stable sort -/

theorem pairwise_zipIdx_snd (l : List α) (n : Nat) :
    (l.zipIdx n).Pairwise fun a b => a.2 < b.2 := by
  have h : ((l.zipIdx n).map Prod.snd).Pairwise (· < ·) := by
    rw [zipIdx_map_snd]
    exact pairwise_lt_range'
  exact pairwise_map.mp h

theorem tagged_pairwise (ins : List (List α)) : (tagged ins).Pairwise TagLt := by
  unfold tagged
  rw [pairwise_flatMap]
  constructor
  · intro l _
    rw [pairwise_map]
    exact (pairwise_zipIdx_snd l.1 0).imp fun h => Or.inr ⟨rfl, h⟩
  · refine (pairwise_zipIdx_snd ins 0).imp ?_
    intro l l' hlt x hx y hy
    obtain ⟨a, -, rfl⟩ := mem_map.mp hx
    obtain ⟨b, -, rfl⟩ := mem_map.mp hy
    exact Or.inl hlt

theorem map_fst_tagged (ins : List (List α)) : (tagged ins).map Prod.fst = ins.flatten := by
  unfold tagged
  rw [map_flatMap]
  calc ins.zipIdx.flatMap (fun l => (l.1.zipIdx.map fun a => (a.1, l.2, a.2)).map Prod.fst)
      = ins.zipIdx.flatMap Prod.fst := by
        refine flatMap_congr fun l _ => ?_
        rw [map_map]
        exact zipIdx_map_fst 0 l.1
    _ = (ins.zipIdx.map Prod.fst).flatten := rfl
    _ = ins.flatten := by rw [zipIdx_map_fst]

/-- A stable sort breaks ties by the order it was given. -/
theorem insertionSort_pairwise_lex {R : α → α → Prop} {l : List α} (h : l.Pairwise R) :
    (l.insertionSort fun a b => key a ≤ key b).Pairwise
      fun a b => key a < key b ∨ key a = key b ∧ R a b := by
  induction l with
  | nil => exact Pairwise.nil
  | cons a l ih =>
    obtain ⟨ha, hl⟩ := pairwise_cons.mp h
    have hsorted := ih hl
    have hmem : ∀ b ∈ l.insertionSort fun a b => key a ≤ key b, R a b :=
      fun b hb => ha b ((mem_insertionSort _).mp hb)
    rw [insertionSort_cons]
    -- the new element goes in front of its equals, which all came after it
    revert hsorted hmem
    generalize l.insertionSort (fun a b => key a ≤ key b) = m
    intro hsorted hmem
    induction m with
    | nil => exact pairwise_singleton _ a
    | cons b m ihm =>
      obtain ⟨hb, hm⟩ := pairwise_cons.mp hsorted
      by_cases hab : key a ≤ key b
      · rw [orderedInsert_cons_of_le (r := fun a b => key a ≤ key b) m hab]
        refine pairwise_cons.mpr ⟨?_, hsorted⟩
        intro c hc
        have hac : key a ≤ key c := by
          rcases mem_cons.mp hc with rfl | hc
          · exact hab
          · rcases hb c hc with hlt | ⟨heq, -⟩
            · exact hab.trans hlt.le
            · exact hab.trans heq.le
        rcases hac.lt_or_eq with hlt | heq
        · exact Or.inl hlt
        · exact Or.inr ⟨heq, hmem c hc⟩
      · rw [orderedInsert_of_not_le (r := fun a b => key a ≤ key b) m hab]
        refine pairwise_cons.mpr ⟨?_, ihm hm fun c hc => hmem c (mem_cons_of_mem b hc)⟩
        intro c hc
        rcases (mem_orderedInsert (r := fun a b => key a ≤ key b)).mp hc with rfl | hc
        · exact Or.inl (not_le.mp hab)
        · exact hb c hc

/-- **The stable sort of the lists in their order is their stable merge.** -/
theorem isStableMerge_insertionSort (ins : List (List α)) :
    IsStableMerge key ins (ins.flatten.insertionSort fun a b => key a ≤ key b) := by
  refine ⟨(tagged ins).insertionSort fun a b => key a.1 ≤ key b.1, perm_insertionSort _ _,
    ?_, ?_⟩
  · exact @insertionSort_pairwise_lex _ _ _ (fun a : α × Nat × Nat => key a.1) _ _
      (tagged_pairwise ins)
  · rw [map_insertionSort (s := fun a b => key a ≤ key b) (f := Prod.fst)
      (fun a b : α × Nat × Nat => key a.1 ≤ key b.1) (tagged ins) fun _ _ _ _ => Iff.rfl,
      map_fst_tagged]

/-- A sort by two relations that agree. -/
theorem insertionSort_congr {r s : α → α → Prop} [DecidableRel r] [DecidableRel s]
    (h : ∀ a b, r a b ↔ s a b) (l : List α) : l.insertionSort r = l.insertionSort s := by
  have hrs : r = s := funext fun a => funext fun b => propext (h a b)
  subst hrs
  congr

/-! ## 3. Its first element -/

/-- What is less than everything in front of it and at most everything behind it comes first. -/
theorem insertionSort_append_cons {A C : List α} {a : α} (hA : ∀ b ∈ A, key a < key b)
    (hC : ∀ b ∈ C, key a ≤ key b) :
    (A ++ a :: C).insertionSort (fun a b => key a ≤ key b) =
      a :: (A ++ C).insertionSort fun a b => key a ≤ key b := by
  induction A with
  | nil => exact insertionSort_cons_of_forall_rel (r := fun a b => key a ≤ key b) hC
  | cons b A ih =>
    have hb : ¬ key b ≤ key a := not_le.mpr (hA b mem_cons_self)
    rw [cons_append, insertionSort_cons, ih fun c hc => hA c (mem_cons_of_mem b hc),
      orderedInsert_of_not_le (r := fun a b => key a ≤ key b) _ hb, cons_append,
      insertionSort_cons]

end List
