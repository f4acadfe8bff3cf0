/-
# Canonical offset ranges

`canonical_ranges` sorts the ranges of an ingest intent and compares neighbours only.  The order
it sorts by puts the ranges of one partition together and the one that starts first in front, so
that a range which meets any later one meets the next one already; that is what makes the
comparison of neighbours a comparison of all pairs (`overlaps_of_between`).
-/
import Mathlib
import Ukiel.Lib.SortedLists
import Ukiel.Core.Operation

namespace Ukiel
namespace IngestRange

/-! ## 1. The derived order -/

/-- The derived order is the lexicographic one. -/
def lexKey (r : IngestRange) : String ×ₗ Int ×ₗ Int ×ₗ Int :=
  toLex (r.topic, toLex (r.partition, toLex (r.first, r.last)))

theorem le_iff {a b : IngestRange} : a.le b ↔ a.lexKey ≤ b.lexKey := by
  simp [IngestRange.le, lexKey, Prod.Lex.le_iff]

theorem lexKey_injective : Function.Injective lexKey := by
  rintro ⟨t, p, f, l⟩ ⟨t', p', f', l'⟩ h
  simpa [lexKey] using h

instance : Std.Total IngestRange.le :=
  ⟨fun a b => by simpa only [le_iff] using le_total a.lexKey b.lexKey⟩

instance : IsTrans IngestRange IngestRange.le :=
  ⟨fun a b c => by simpa only [le_iff] using le_trans⟩

instance : Std.Antisymm IngestRange.le :=
  ⟨fun _ _ hab hba => lexKey_injective (le_antisymm (le_iff.mp hab) (le_iff.mp hba))⟩

/-! ## 2. Overlaps -/

/-- The test of the second loop. -/
def Overlaps (prev next : IngestRange) : Prop :=
  prev.topic = next.topic ∧ prev.partition = next.partition ∧ next.first ≤ prev.last

/-- Two ranges of one partition have an offset in common. -/
def Shares (a b : IngestRange) : Prop :=
  a.topic = b.topic ∧ a.partition = b.partition ∧
    ∃ offset, a.first ≤ offset ∧ offset ≤ a.last ∧ b.first ≤ offset ∧ offset ≤ b.last

theorem Shares.symm {a b : IngestRange} (h : Shares a b) : Shares b a := by
  obtain ⟨htopic, hpartition, offset, hfa, hla, hfb, hlb⟩ := h
  exact ⟨htopic.symm, hpartition.symm, offset, hfb, hlb, hfa, hla⟩

/-- Within a partition the order is by the first offset. -/
theorem first_le_of_le {a b : IngestRange} (hle : a.le b) (htopic : a.topic = b.topic)
    (hpartition : a.partition = b.partition) : a.first ≤ b.first := by
  rcases hle with htopic' | ⟨-, hpartition' | ⟨-, hfirst | ⟨hfirst, -⟩⟩⟩
  · exact absurd htopic' (htopic ▸ lt_irrefl a.topic)
  · exact absurd hpartition' (hpartition ▸ lt_irrefl a.partition)
  · exact hfirst.le
  · exact hfirst.le

/-- The order keeps the ranges of a partition together. -/
theorem partition_of_between {a b c : IngestRange} (hab : a.le b) (hbc : b.le c)
    (htopic : a.topic = c.topic) (hpartition : a.partition = c.partition) :
    a.topic = b.topic ∧ a.partition = b.partition := by
  have topic_le : ∀ {r s : IngestRange}, r.le s → r.topic ≤ s.topic := by
    rintro r s (hlt | ⟨heq, -⟩)
    · exact hlt.le
    · exact heq.le
  have partition_le : ∀ {r s : IngestRange}, r.le s → r.topic = s.topic →
      r.partition ≤ s.partition := by
    rintro r s (hlt | ⟨-, hlt | ⟨heq, -⟩⟩) htopic
    · exact absurd hlt (htopic ▸ lt_irrefl r.topic)
    · exact hlt.le
    · exact heq.le
  have hab' : a.topic = b.topic :=
    le_antisymm (topic_le hab) ((topic_le hbc).trans_eq htopic.symm)
  refine ⟨hab', le_antisymm (partition_le hab hab') ?_⟩
  exact (partition_le hbc (hab'.symm.trans htopic)).trans_eq hpartition.symm

/-- A range that meets a later one meets everything in between. -/
theorem overlaps_of_between {a b c : IngestRange} (hab : a.le b) (hbc : b.le c)
    (h : Overlaps a c) : Overlaps a b := by
  obtain ⟨htopic, hpartition, hfirst⟩ := h
  obtain ⟨htopic', hpartition'⟩ := partition_of_between hab hbc htopic hpartition
  refine ⟨htopic', hpartition', (first_le_of_le hbc ?_ ?_).trans hfirst⟩
  · exact htopic'.symm.trans htopic
  · exact hpartition'.symm.trans hpartition

/-- For ranges in order that are not inverted, the test is the right one. -/
theorem overlaps_iff_shares {a b : IngestRange} (hle : a.le b) (hb : b.first ≤ b.last) :
    Overlaps a b ↔ Shares a b := by
  constructor
  · rintro ⟨htopic, hpartition, hfirst⟩
    exact ⟨htopic, hpartition, b.first, first_le_of_le hle htopic hpartition, hfirst, le_refl _,
      hb⟩
  · rintro ⟨htopic, hpartition, offset, -, hla, hfb, -⟩
    exact ⟨htopic, hpartition, hfb.trans hla⟩

end IngestRange

/-! ## 3. The two loops -/

theorem checkRanges_eq_ok_iff {ranges : List IngestRange} :
    checkRanges ranges = .ok () ↔ ∀ r ∈ ranges, r.topic ≠ "" ∧ r.first ≤ r.last := by
  induction ranges with
  | nil => simp [checkRanges]
  | cons r ranges ih =>
    rw [checkRanges, List.forall_mem_cons]
    split
    · rename_i htopic
      exact iff_of_false (fun h => nomatch h) fun h => h.1.1 htopic
    · rename_i htopic
      split
      · rename_i hinverted
        exact iff_of_false (fun h => nomatch h) fun h => hinverted.not_ge h.1.2
      · rename_i hvalid
        rw [ih]
        exact (and_iff_right ⟨htopic, not_lt.mp hvalid⟩).symm

theorem checkOverlaps_eq_ok_iff : ∀ {ranges : List IngestRange},
    checkOverlaps ranges = .ok () ↔ ranges.IsChain fun a b => ¬ IngestRange.Overlaps a b
  | [] => iff_of_true rfl List.isChain_nil
  | [r] => iff_of_true rfl (List.isChain_singleton r)
  | prev :: next :: rest => by
    rw [checkOverlaps, List.isChain_cons_cons]
    split
    · rename_i hoverlap
      exact iff_of_false (fun h => nomatch h) fun h => h.1 hoverlap
    · rename_i hfree
      rw [checkOverlaps_eq_ok_iff]
      exact (and_iff_right hfree).symm

/-- What the two loops let through, among ranges in order: valid ranges no two of which have an
offset in common. -/
theorem checks_eq_ok_iff {sorted : List IngestRange} (hsorted : sorted.Pairwise IngestRange.le) :
    checkRanges sorted = .ok () ∧ checkOverlaps sorted = .ok () ↔
      (∀ r ∈ sorted, r.topic ≠ "" ∧ r.first ≤ r.last) ∧
        sorted.Pairwise fun a b => ¬ IngestRange.Shares a b := by
  rw [checkRanges_eq_ok_iff, checkOverlaps_eq_ok_iff]
  refine and_congr_right fun hvalid => ?_
  have hpairs : (sorted.IsChain fun a b => ¬ IngestRange.Overlaps a b) ↔
      sorted.Pairwise fun a b => ¬ IngestRange.Overlaps a b := by
    refine ⟨fun h => hsorted.of_isChain (fun hab hbc hfree hac => ?_) h, List.Pairwise.isChain⟩
    exact hfree (IngestRange.overlaps_of_between hab hbc hac)
  rw [hpairs]
  have hagree : sorted.Pairwise fun a b => IngestRange.Overlaps a b ↔ IngestRange.Shares a b :=
    hsorted.imp_of_mem fun _ hb hle => IngestRange.overlaps_iff_shares hle (hvalid _ hb).2
  constructor
  · exact fun h => (hagree.and h).imp fun hab hshares => hab.2 (hab.1.mpr hshares)
  · exact fun h => (hagree.and h).imp fun hab hoverlaps => hab.2 (hab.1.mp hoverlaps)

/-! ## 4. `canonical_ranges` -/

theorem canonicalRanges_eq_ok_iff {ranges sorted : List IngestRange} :
    canonicalRanges ranges = .ok sorted ↔
      (ranges ≠ [] ∧ (∀ r ∈ ranges, r.topic ≠ "" ∧ r.first ≤ r.last) ∧
        ranges.Pairwise fun a b => ¬ IngestRange.Shares a b) ∧
      sorted = ranges.insertionSort IngestRange.le := by
  have hperm := List.perm_insertionSort IngestRange.le ranges
  have hchecks := checks_eq_ok_iff (List.pairwise_insertionSort IngestRange.le ranges)
  -- both sides of the specification forget the order
  rw [hperm.pairwise_iff fun h h' => h h'.symm] at hchecks
  simp only [hperm.mem_iff] at hchecks
  rw [← hchecks, canonicalRanges]
  by_cases hnil : ranges = []
  · simp [hnil, throw, throwThe, MonadExceptOf.throw, bind, Except.bind]
  · simp only [hnil, if_false, ne_eq, not_false_iff, true_and]
    cases checkRanges (ranges.insertionSort IngestRange.le) with
    | error e => simp [bind, Except.bind]
    | ok =>
      cases checkOverlaps (ranges.insertionSort IngestRange.le) with
      | error e => simp [bind, Except.bind]
      | ok => simp [bind, Except.bind, pure, Except.pure, eq_comm]

theorem canonicalRanges_perm {ranges ranges' : List IngestRange} (h : ranges.Perm ranges') :
    canonicalRanges ranges = canonicalRanges ranges' := by
  have hnil : ranges = [] ↔ ranges' = [] := by
    rw [← List.length_eq_zero_iff, ← List.length_eq_zero_iff, h.length_eq]
  unfold canonicalRanges
  simp only [hnil, List.insertionSort_eq_iff.mpr h]

/-- **Offset ranges are canonicalized**: they are accepted exactly when there are any, all of them
valid and no two with an offset in common; they come out sorted; and the result, an error
included, does not depend on their order. -/
theorem canonicalRanges_spec (ranges : List IngestRange) :
    ((∃ sorted, canonicalRanges ranges = .ok sorted) ↔
      ranges ≠ [] ∧ (∀ r ∈ ranges, r.topic ≠ "" ∧ r.first ≤ r.last) ∧
        ranges.Pairwise fun a b => ¬ IngestRange.Shares a b) ∧
    (∀ sorted, canonicalRanges ranges = .ok sorted →
      sorted.Perm ranges ∧ sorted.Pairwise IngestRange.le) ∧
    ∀ ranges', ranges'.Perm ranges → canonicalRanges ranges' = canonicalRanges ranges := by
  refine ⟨?_, ?_, fun ranges' => canonicalRanges_perm⟩
  · constructor
    · rintro ⟨sorted, h⟩
      exact (canonicalRanges_eq_ok_iff.mp h).1
    · exact fun h => ⟨_, canonicalRanges_eq_ok_iff.mpr ⟨h, rfl⟩⟩
  · intro sorted h
    obtain ⟨-, rfl⟩ := canonicalRanges_eq_ok_iff.mp h
    exact ⟨List.perm_insertionSort IngestRange.le ranges,
      List.pairwise_insertionSort IngestRange.le ranges⟩

/-- Accepted ranges come out sorted. -/
theorem canonicalRanges_ok {ranges sorted : List IngestRange}
    (h : canonicalRanges ranges = .ok sorted) : sorted = ranges.insertionSort IngestRange.le :=
  (canonicalRanges_eq_ok_iff.mp h).2

/-- None of them was given twice: a valid range has an offset in common with itself. -/
theorem canonicalRanges_nodup {ranges sorted : List IngestRange}
    (h : canonicalRanges ranges = .ok sorted) : ranges.Nodup := by
  obtain ⟨⟨-, hvalid, hdisjoint⟩, -⟩ := canonicalRanges_eq_ok_iff.mp h
  refine hdisjoint.imp_of_mem fun {r s} hr _ hfree => ?_
  rintro rfl
  exact hfree ⟨rfl, rfl, r.first, le_refl _, (hvalid r hr).2, le_refl _, (hvalid r hr).2⟩

end Ukiel
