/-
# Finite graphs as lists of edges

§1 is reachability, and what one more edge does to it: the graph stays acyclic exactly when the
edge does not close a path (`acyclic_cons_iff`).  §2 computes what is reachable round by round,
each round taking the edges out of the nodes the last one found.  §3 looks for one node with a
stack.  Both give exact answers on any graph (`mem_closure_iff`, `search_iff`).
-/
import Mathlib.Data.Finset.Card
import Mathlib.Logic.Relation
import Mathlib.Tactic.Basic

namespace Edges

variable {α : Type} {E : List (α × α)} {a b s t : α}

/-! ## 1. Paths -/

/-- There is a path from `a` to `b`, which may be empty. -/
def Reach (E : List (α × α)) : α → α → Prop := Relation.ReflTransGen fun a b => (a, b) ∈ E

/-- There is a path from `a` to `b` with an edge. -/
def Leads (E : List (α × α)) : α → α → Prop := Relation.TransGen fun a b => (a, b) ∈ E

/-- No path comes back to where it started. -/
def Acyclic (E : List (α × α)) : Prop := ∀ a, ¬ Leads E a a

theorem acyclic_nil : Acyclic ([] : List (α × α)) := by
  intro a h
  obtain ⟨b, -, hb⟩ := Relation.TransGen.tail'_iff.mp h
  cases hb

theorem Reach.mono {F : List (α × α)} (hsub : E ⊆ F) (h : Reach E a b) : Reach F a b :=
  Relation.ReflTransGen.mono (fun _ _ he => hsub he) a b h

theorem Leads.mono {F : List (α × α)} (hsub : E ⊆ F) (h : Leads E a b) : Leads F a b :=
  Relation.TransGen.mono (fun _ _ he => hsub he) a b h

/-- A path in the larger graph is one in the smaller, or its first part up to the new edge and
its last part from there on are. -/
theorem Leads.of_cons (h : Leads ((s, t) :: E) a b) :
    Leads E a b ∨ Reach E a s ∧ Reach E t b := by
  induction h with
  | single he =>
    rcases List.mem_cons.mp he with heq | he
    · cases heq
      exact Or.inr ⟨.refl, .refl⟩
    · exact Or.inl (.single he)
  | tail _ he ih =>
    rcases List.mem_cons.mp he with heq | he
    · cases heq
      rcases ih with hold | ⟨has, -⟩
      · exact Or.inr ⟨hold.to_reflTransGen, .refl⟩
      · exact Or.inr ⟨has, .refl⟩
    · rcases ih with hold | ⟨has, htb⟩
      · exact Or.inl (hold.tail he)
      · exact Or.inr ⟨has, htb.tail he⟩

/-- **An edge closes a cycle exactly when its end leads back to its start.** -/
theorem acyclic_cons_iff : Acyclic ((s, t) :: E) ↔ Acyclic E ∧ ¬ Reach E t s := by
  constructor
  · intro h
    constructor
    · exact fun a ha => h a (ha.mono (List.subset_cons_self _ _))
    · intro hts
      refine h s (Relation.TransGen.head' List.mem_cons_self ?_)
      exact hts.mono (List.subset_cons_self _ _)
  · rintro ⟨hE, hts⟩ a ha
    rcases ha.of_cons with hold | ⟨has, hta⟩
    · exact hE a hold
    · exact hts (Relation.ReflTransGen.trans hta has)

theorem Acyclic.perm {F : List (α × α)} (h : Acyclic E) (hp : F.Perm E) : Acyclic F :=
  fun a ha => h a (ha.mono hp.subset)

/-- What a set of nodes leads to is in the set, if every edge out of it stays inside. -/
theorem Reach.mem_of_closed {set : List α} (h : Reach E a b) (ha : a ∈ set)
    (hclosed : ∀ x ∈ set, ∀ y, (x, y) ∈ E → y ∈ set) : b ∈ set := by
  induction h with
  | refl => exact ha
  | tail _ he ih => exact hclosed _ ih _ he

/-- A path from a visited node to one that is not leaves through the stack. -/
theorem Reach.exits {stack visited : List α} {goal : α} (h : Reach E a goal) (ha : a ∈ visited)
    (hgoal : goal ∉ visited)
    (hclosed : ∀ v ∈ visited, ∀ w, (v, w) ∈ E → w ∈ visited ∨ w ∈ stack) :
    ∃ n ∈ stack, Reach E n goal := by
  induction h using Relation.ReflTransGen.head_induction_on with
  | refl => exact absurd ha hgoal
  | head hxy hrest ih =>
    rcases hclosed _ ha _ hxy with hy | hy
    · exact ih hy
    · exact ⟨_, hy, hrest⟩

variable [DecidableEq α]

/-- Where the edges out of a node go. -/
def successors (E : List (α × α)) (a : α) : List α := (E.filter fun e => e.1 = a).map Prod.snd

@[simp] theorem mem_successors : b ∈ successors E a ↔ (a, b) ∈ E := by
  unfold successors
  constructor
  · intro h
    obtain ⟨⟨x, y⟩, he, rfl⟩ := List.mem_map.mp h
    obtain ⟨hmem, hx⟩ := List.mem_filter.mp he
    simp only [decide_eq_true_eq] at hx
    exact hx ▸ hmem
  · exact fun h => List.mem_map.mpr ⟨(a, b), List.mem_filter.mpr ⟨h, by simp⟩, rfl⟩

/-! ## 2. Everything that can be reached -/

/-- The nodes a round finds. -/
def found (E : List (α × α)) (result working : List α) : List α :=
  ((working.flatMap (successors E)).filter fun b => b ∉ result).dedup

/-- Rounds until one finds nothing new. -/
def closure (E : List (α × α)) : Nat → List α → List α → List α
  | 0, result, _ => result
  | n + 1, result, working =>
    if found E result working = [] then result
    else closure E n (result ++ found E result working) (found E result working)

theorem mem_found {result working : List α} :
    b ∈ found E result working ↔ (∃ a ∈ working, (a, b) ∈ E) ∧ b ∉ result := by
  simp [found, List.mem_dedup]

/-- How many nodes there are still to find. -/
def missing (E : List (α × α)) (result : List α) : Nat :=
  ((E.map Prod.snd).toFinset \ result.toFinset).card

theorem missing_lt {result working : List α} (h : found E result working ≠ []) :
    missing E (result ++ found E result working) < missing E result := by
  obtain ⟨b, hb⟩ := List.exists_mem_of_ne_nil _ h
  obtain ⟨⟨a, -, hab⟩, hnew⟩ := mem_found.mp hb
  refine Finset.card_lt_card (Finset.ssubset_iff_of_subset ?_ |>.mpr ⟨b, ?_, ?_⟩)
  · refine Finset.sdiff_subset_sdiff (Finset.Subset.refl _) ?_
    intro x hx
    simp only [List.mem_toFinset, List.mem_append] at hx ⊢
    exact Or.inl hx
  · simp only [Finset.mem_sdiff, List.mem_toFinset]
    exact ⟨List.mem_map.mpr ⟨(a, b), hab, rfl⟩, hnew⟩
  · simp only [Finset.mem_sdiff, List.mem_toFinset, List.mem_append, not_and, not_not]
    exact fun _ => Or.inr hb

/-- **The rounds find exactly what can be reached**, when there are as many of them as there are
nodes to find. -/
theorem mem_closure_iff {n : Nat} {result working : List α} (hn : missing E result < n)
    (hw : working ⊆ result)
    (hdone : ∀ a ∈ result, a ∉ working → ∀ b, (a, b) ∈ E → b ∈ result) :
    b ∈ closure E n result working ↔ ∃ a ∈ result, Reach E a b := by
  induction n generalizing result working with
  | zero => omega
  | succ n ih =>
    rw [closure]
    split
    · rename_i hnil
      constructor
      · exact fun hb => ⟨b, hb, .refl⟩
      · rintro ⟨a, ha, hab⟩
        refine hab.mem_of_closed ha ?_
        intro x hx y hxy
        by_cases hxw : x ∈ working
        · by_contra hy
          have : y ∈ found E result working := mem_found.mpr ⟨⟨x, hxw, hxy⟩, hy⟩
          rw [hnil] at this
          cases this
        · exact hdone x hx hxw y hxy
    · rename_i hnew
      rw [ih (by have := missing_lt hnew; omega) (List.subset_append_right _ _)]
      · constructor
        · rintro ⟨a, ha, hab⟩
          rcases List.mem_append.mp ha with ha | ha
          · exact ⟨a, ha, hab⟩
          · obtain ⟨⟨x, hx, hxa⟩, -⟩ := mem_found.mp ha
            exact ⟨x, hw hx, Relation.ReflTransGen.head hxa hab⟩
        · rintro ⟨a, ha, hab⟩
          exact ⟨a, List.mem_append_left _ ha, hab⟩
      · -- the nodes of this round are done
        intro a ha hnot b hab
        rcases List.mem_append.mp ha with ha | ha
        · by_cases haw : a ∈ working
          · by_cases hb : b ∈ result
            · exact List.mem_append_left _ hb
            · exact List.mem_append_right _ (mem_found.mpr ⟨⟨a, haw, hab⟩, hb⟩)
          · exact List.mem_append_left _ (hdone a ha haw b hab)
        · exact absurd ha hnot

/-! ## 3. Looking for one node -/

/-- The nodes a search can still visit. -/
def unvisited (E : List (α × α)) (stack visited : List α) : Finset α :=
  ((E.map Prod.snd).toFinset ∪ stack.toFinset) \ visited.toFinset

theorem unvisited_pop (E : List (α × α)) (node : α) (rest visited : List α) :
    unvisited E rest visited ⊆ unvisited E (node :: rest) visited := by
  refine Finset.sdiff_subset_sdiff (Finset.union_subset_union_right ?_) (Finset.Subset.refl _)
  intro x hx
  simp only [List.mem_toFinset, List.mem_cons] at hx ⊢
  exact Or.inr hx

theorem unvisited_visit {node : α} {rest visited : List α} (h : node ∉ visited) :
    unvisited E ((successors E node).reverse ++ rest) (node :: visited) ⊂
      unvisited E (node :: rest) visited := by
  refine Finset.ssubset_iff_of_subset ?_ |>.mpr ⟨node, ?_, ?_⟩
  · intro x hx
    simp only [unvisited, Finset.mem_sdiff, Finset.mem_union, List.mem_toFinset, List.mem_append,
      List.mem_reverse, mem_successors, List.mem_cons, not_or] at hx ⊢
    obtain ⟨hx, -, hnot⟩ := hx
    refine ⟨?_, hnot⟩
    rcases hx with hx | hx | hx
    · exact Or.inl hx
    · exact Or.inl (List.mem_map.mpr ⟨(node, x), hx, rfl⟩)
    · exact Or.inr (Or.inr hx)
  · simp [unvisited, h]
  · simp [unvisited]

/-- Is the goal reached from a node of the stack?  A node is taken off, and if it was not visited
before, the ends of its edges are put on, the last one on top. -/
def search (E : List (α × α)) (goal : α) (stack visited : List α) : Bool :=
  match stack with
  | [] => false
  | node :: rest =>
    if node = goal then true
    else if node ∈ visited then search E goal rest visited
    else search E goal ((successors E node).reverse ++ rest) (node :: visited)
termination_by ((unvisited E stack visited).card, stack.length)
decreasing_by
  · rcases (Finset.card_le_card (unvisited_pop E node rest visited)).lt_or_eq with hlt | heq
    · exact Prod.Lex.left _ _ hlt
    · rw [heq]
      exact Prod.Lex.right _ (by simp)
  · exact Prod.Lex.left _ _ (Finset.card_lt_card (unvisited_visit (by assumption)))

/-- **The search answers exactly.** -/
theorem search_iff {goal : α} {stack visited : List α} (hgoal : goal ∉ visited)
    (hclosed : ∀ v ∈ visited, ∀ w, (v, w) ∈ E → w ∈ visited ∨ w ∈ stack) :
    search E goal stack visited = true ↔ ∃ n ∈ stack, Reach E n goal := by
  induction stack, visited using search.induct E goal with
  | case1 => simp [search]
  | case2 visited rest =>
    rw [search, if_pos rfl]
    exact iff_of_true rfl ⟨goal, List.mem_cons_self, .refl⟩
  | case3 visited node rest hne hmem ih =>
    have hclosed' : ∀ v ∈ visited, ∀ w, (v, w) ∈ E → w ∈ visited ∨ w ∈ rest := by
      intro v hv w hvw
      rcases hclosed v hv w hvw with hw | hw
      · exact Or.inl hw
      · rcases List.mem_cons.mp hw with rfl | hw
        · exact Or.inl hmem
        · exact Or.inr hw
    rw [search, if_neg hne, if_pos hmem, ih hgoal hclosed']
    constructor
    · rintro ⟨n, hn, hreach⟩
      exact ⟨n, List.mem_cons_of_mem node hn, hreach⟩
    · rintro ⟨n, hn, hreach⟩
      rcases List.mem_cons.mp hn with rfl | hn
      · exact hreach.exits hmem hgoal hclosed'
      · exact ⟨n, hn, hreach⟩
  | case4 visited node rest hne hmem ih =>
    rw [search, if_neg hne, if_neg hmem, ih ?_ ?_]
    · constructor
      · rintro ⟨n, hn, hreach⟩
        rcases List.mem_append.mp hn with hn | hn
        · have hedge := mem_successors.mp (List.mem_reverse.mp hn)
          exact ⟨node, List.mem_cons_self, Relation.ReflTransGen.head hedge hreach⟩
        · exact ⟨n, List.mem_cons_of_mem node hn, hreach⟩
      · rintro ⟨n, hn, hreach⟩
        rcases List.mem_cons.mp hn with rfl | hn
        · -- the path has a first edge
          rcases Relation.ReflTransGen.cases_head hreach with heq | ⟨w, hnw, hrest⟩
          · exact absurd heq hne
          · exact ⟨w, List.mem_append_left _ (List.mem_reverse.mpr (mem_successors.mpr hnw)),
              hrest⟩
        · exact ⟨n, List.mem_append_right _ hn, hreach⟩
    · exact fun h => (List.mem_cons.mp h).elim (fun heq => hne heq.symm) hgoal
    · intro v hv w hvw
      rcases List.mem_cons.mp hv with rfl | hv
      · exact Or.inr (List.mem_append_left _ (List.mem_reverse.mpr (mem_successors.mpr hvw)))
      · rcases hclosed v hv w hvw with hw | hw
        · exact Or.inl (List.mem_cons_of_mem node hw)
        · rcases List.mem_cons.mp hw with rfl | hw
          · exact Or.inl List.mem_cons_self
          · exact Or.inr (List.mem_append_right _ hw)

end Edges
