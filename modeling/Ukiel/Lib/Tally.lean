/-
# Totals over association lists

The number of entries of an `AList` and the sum of a weight over them, as entries come and go:
an insertion under a fresh key adds its weight, an erasure takes it away, an exchange under a key
that is there does both.
-/
import Mathlib.Data.List.AList
import Mathlib.Algebra.BigOperators.Group.List.Basic
import Mathlib.Algebra.GroupWithZero.Nat
import Mathlib.Tactic.Basic

namespace AList

section Totals

variable {α β : Type}

/-- The sum of `f` over the entries. -/
def tally (f : β → Nat) (m : AList fun _ : α => β) : Nat := (m.entries.map fun e => f e.2).sum

/-- The number of entries. -/
def count (m : AList fun _ : α => β) : Nat := m.entries.length

@[simp] theorem tally_empty (f : β → Nat) : (∅ : AList fun _ : α => β).tally f = 0 := rfl

@[simp] theorem count_empty : (∅ : AList fun _ : α => β).count = 0 := rfl

end Totals

variable {α β : Type} [DecidableEq α] {f : β → Nat} {m : AList fun _ : α => β} {a a' : α}
  {b b' : β}

theorem entries_split (h : m.lookup a = some b) : ∃ l₁ l₂, m.entries = l₁ ++ ⟨a, b⟩ :: l₂ ∧
    (m.erase a).entries = l₁ ++ l₂ := by
  have hkey : a ∈ m.entries.keys := AList.lookup_isSome.mp (by rw [h]; rfl)
  obtain ⟨b₁, l₁, l₂, -, hm, herase⟩ := List.exists_of_kerase hkey
  have hb : m.lookup a = some b₁ :=
    AList.mem_lookup_iff.mpr (hm ▸ List.mem_append_right _ List.mem_cons_self)
  obtain rfl : b = b₁ := Option.some.inj (h.symm.trans hb)
  exact ⟨l₁, l₂, hm, herase⟩

theorem tally_erase (h : m.lookup a = some b) : (m.erase a).tally f + f b = m.tally f := by
  obtain ⟨l₁, l₂, hm, herase⟩ := entries_split h
  rw [tally, tally, hm, herase]
  simp only [List.map_append, List.map_cons, List.sum_append, List.sum_cons]
  omega

theorem count_erase (h : m.lookup a = some b) : (m.erase a).count + 1 = m.count := by
  obtain ⟨l₁, l₂, hm, herase⟩ := entries_split h
  rw [count, count, hm, herase]
  simp only [List.length_append, List.length_cons]
  omega

/-- No entry weighs more than all together. -/
theorem le_tally (h : m.lookup a = some b) : f b ≤ m.tally f :=
  tally_erase h ▸ Nat.le_add_left _ _

theorem tally_insert_fresh (h : m.lookup a = none) :
    (m.insert a b).tally f = f b + m.tally f := by
  rw [tally, AList.entries_insert_of_notMem (AList.lookup_eq_none.mp h)]
  rfl

theorem count_insert_fresh (h : m.lookup a = none) : (m.insert a b).count = m.count + 1 := by
  rw [count, AList.entries_insert_of_notMem (AList.lookup_eq_none.mp h)]
  rfl

theorem tally_insert (h : m.lookup a = some b) (c : β) :
    (m.insert a c).tally f + f b = f c + m.tally f := by
  have herase : (m.insert a c).tally f = f c + (m.erase a).tally f := by
    rw [tally, AList.entries_insert]
    rfl
  rw [herase, Nat.add_assoc, tally_erase h]

theorem count_insert (h : m.lookup a = some b) : (m.insert a b').count = m.count := by
  have herase : (m.insert a b').count = (m.erase a).count + 1 := by
    rw [count, AList.entries_insert]
    rfl
  rw [herase, count_erase h]

/-- The value under a key changes in its place. -/
def adjust (a : α) (g : β → β) (m : AList fun _ : α => β) : AList fun _ : α => β where
  entries := m.entries.map fun e => if e.1 = a then ⟨e.1, g e.2⟩ else e
  nodupKeys := by
    have hkeys : (m.entries.map fun e => if e.1 = a then (⟨e.1, g e.2⟩ : Sigma fun _ : α => β)
        else e).keys = m.entries.keys := by
      simp only [List.keys, List.map_map]
      refine List.map_congr_left fun e _ => ?_
      simp only [Function.comp_apply]
      split <;> rfl
    rw [List.NodupKeys, hkeys]
    exact m.nodupKeys

theorem lookup_adjust (g : β → β) (a' : α) : (m.adjust a g).lookup a' =
    if a' = a then (m.lookup a').map g else m.lookup a' := by
  refine Option.ext fun b => ?_
  refine (AList.mem_lookup_iff (s := m.adjust a g)).trans ?_
  rw [adjust, List.mem_map]
  constructor
  · rintro ⟨⟨a₁, b₁⟩, hmem, heq⟩
    have hlook : m.lookup a₁ = some b₁ := AList.mem_lookup_iff.mpr hmem
    split at heq
    · rename_i ha
      cases heq
      rw [if_pos ha, hlook]
      rfl
    · rename_i ha
      cases heq
      rw [if_neg ha]
      exact hlook
  · intro h
    split at h
    · rename_i ha
      obtain ⟨b₁, hb₁, rfl⟩ := Option.map_eq_some_iff.mp h
      exact ⟨⟨a', b₁⟩, AList.mem_lookup_iff.mp hb₁, by rw [if_pos ha]⟩
    · rename_i ha
      exact ⟨⟨a', b⟩, AList.mem_lookup_iff.mp h, by rw [if_neg ha]⟩

theorem tally_adjust {g : β → β} (h : ∀ b, f (g b) = f b) : (m.adjust a g).tally f = m.tally f := by
  rw [tally, tally, adjust, List.map_map]
  congr 1
  refine List.map_congr_left fun e _ => ?_
  simp only [Function.comp_apply]
  split
  · exact h e.2
  · rfl

theorem count_adjust (g : β → β) : (m.adjust a g).count = m.count := by
  rw [count, count, adjust, List.length_map]

end AList
