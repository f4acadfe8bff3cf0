/-
# Groups of rows

What `GROUP BY` makes of a list of rows: one group for each key that occurs, with all the rows
that have it, and `count(DISTINCT …)` of a group.  Last a `LEFT JOIN` with a grouped table, which
finds for each row the group of its key or none.
-/
import Mathlib.Algebra.BigOperators.Group.Finset.Sigma
import Mathlib.Algebra.GroupWithZero.Nat
import Mathlib.Data.List.Dedup

namespace Grouping

variable {ρ κ : Type} [DecidableEq κ] {key : ρ → κ} {rows g : List ρ} {k : κ}

/-- `GROUP BY key`: the keys with their rows. -/
def groupBy (key : ρ → κ) (rows : List ρ) : List (κ × List ρ) :=
  (rows.map key).dedup.map fun k => (k, rows.filter fun r => key r = k)

/-- `count(DISTINCT f)`. -/
def countDistinct (f : ρ → κ) (rows : List ρ) : Nat := (rows.map f).dedup.length

/-- A group is all the rows of its key, and there is one at least. -/
theorem mem_groupBy :
    (k, g) ∈ groupBy key rows ↔ g = (rows.filter fun r => key r = k) ∧ g ≠ [] := by
  unfold groupBy
  simp only [List.mem_map, List.mem_dedup, Prod.mk.injEq]
  constructor
  · rintro ⟨_, ⟨r, hr, rfl⟩, rfl, rfl⟩
    exact ⟨rfl, List.ne_nil_of_mem (List.mem_filter.mpr ⟨hr, decide_eq_true rfl⟩)⟩
  · rintro ⟨rfl, hne⟩
    obtain ⟨r, hr⟩ := List.exists_mem_of_ne_nil _ hne
    obtain ⟨hr, hk⟩ := List.mem_filter.mp hr
    exact ⟨k, ⟨r, hr, of_decide_eq_true hk⟩, rfl, rfl⟩

/-- No key has two groups. -/
theorem groupBy_keys_nodup (key : ρ → κ) (rows : List ρ) :
    ((groupBy key rows).map Prod.fst).Nodup := by
  have hkeys : (groupBy key rows).map Prod.fst = (rows.map key).dedup := by
    unfold groupBy
    rw [List.map_map]
    exact List.map_id _
  rw [hkeys]
  exact List.nodup_dedup _

/-- `HAVING`, counted: the keys whose rows have the property. -/
theorem length_filter_groupBy (P : κ → List ρ → Prop) [∀ k g, Decidable (P k g)] :
    ((groupBy key rows).filter fun g => P g.1 g.2).length =
      ((rows.map key).toFinset.filter fun k => P k (rows.filter fun r => key r = k)).card := by
  unfold groupBy
  rw [List.filter_map, List.length_map,
    ← List.toFinset_card_of_nodup ((List.nodup_dedup _).filter _)]
  congr 1
  ext k
  simp

/-- Pairs are counted by their first halves. -/
theorem card_pairs {α β : Type} {s : Finset (α × β)} {t : Finset α} {u : α → Finset β}
    (h : ∀ a b, (a, b) ∈ s ↔ a ∈ t ∧ b ∈ u a) : s.card = ∑ a ∈ t, (u a).card := by
  rw [← Finset.card_sigma]
  refine Finset.card_nbij' (fun x => ⟨x.1, x.2⟩) (fun x => (x.1, x.2)) ?_ ?_ ?_ ?_
  · exact fun x hx => Finset.mem_sigma.mpr ((h x.1 x.2).mp hx)
  · exact fun x hx => (h x.1 x.2).mpr (Finset.mem_sigma.mp hx)
  · exact fun _ _ => rfl
  · exact fun _ _ => rfl

section Join

variable {α β : Type}

/-- `LEFT JOIN … ON`: a row with each of its matches, and once with NULL when it has none. -/
def leftJoin (on : α → β → Bool) (as : List α) (bs : List β) : List (α × Option β) :=
  as.flatMap fun a =>
    let found := bs.filter (on a)
    if found = [] then [(a, none)] else found.map fun b => (a, some b)

/-- **A row is joined with its key's group**, once. -/
theorem leftJoin_groupBy (as : List κ) :
    leftJoin (fun a g => decide (g.1 = a)) as (groupBy key rows) =
      as.map fun a =>
        let g := rows.filter fun r => key r = a
        (a, if g = [] then none else some (a, g)) := by
  have hkey : ∀ a, (rows.filter fun r => key r = a) = [] ↔ a ∉ rows.map key := by
    simp [List.filter_eq_nil_iff]
  have hfound : ∀ a, (groupBy key rows).filter (fun g => decide (g.1 = a)) =
      if a ∈ rows.map key then [(a, rows.filter fun r => key r = a)] else [] := by
    intro a
    unfold groupBy
    rw [List.filter_map]
    simp only [Function.comp_def]
    rw [List.filter_eq, List.count_dedup]
    split <;> rfl
  unfold leftJoin
  rw [← List.flatMap_pure_eq_map]
  refine List.flatMap_congr fun a _ => ?_
  simp only [Function.comp_apply, hfound, hkey]
  by_cases hmem : a ∈ rows.map key <;> simp [hmem]

end Join

end Grouping
