/-
# Bipartite degree sequences

When can a list of degrees be met by parts of given capacities, every part serving a node at most
once?  The condition of Gale and Ryser compares, for every `k`, the `k` largest degrees with what
the parts can give to `k` nodes.

* §1 the `k` largest entries of a list, by THRESHOLDS: the sum is the least of
  `sum of (x - t) + k * t` over all `t`, which makes it monotone in the list;
* §2 the condition itself, and that the GREEDY choice keeps it: the largest degree is served by
  parts that have the most left;
* §3 two edges that trade their ends: both sides keep their degrees, and a simple graph stays
  simple when neither new edge was there;
* §4 edges scattered over lists, one for each right end, and gathered again.
-/
import Mathlib.Algebra.BigOperators.Group.Finset.Basic
import Mathlib.Algebra.BigOperators.Group.Finset.Piecewise
import Mathlib.Algebra.BigOperators.Group.List.Lemmas
import Mathlib.Algebra.GroupWithZero.Nat
import Mathlib.Algebra.Order.BigOperators.Group.Finset
import Mathlib.Algebra.Order.BigOperators.Group.List
import Mathlib.Algebra.Ring.Nat
import Mathlib.Data.List.Sort
import Mathlib.Data.Nat.Cast.Basic
import Ukiel.Lib.Lists

/-! ## 1. The largest entries of a list -/

namespace List

/-- The sum of the `k` largest entries. -/
def topSum (l : List ℕ) (k : ℕ) : ℕ := ((l.insertionSort (· ≥ ·)).take k).sum

theorem topSum_eq_take {l m : List ℕ} (hp : m ~ l) (hs : m.Pairwise (· ≥ ·)) (k : ℕ) :
    l.topSum k = (m.take k).sum := by
  have hsort : l.insertionSort (· ≥ ·) = m :=
    ((perm_insertionSort _ l).trans hp.symm).eq_of_pairwise'
      (pairwise_insertionSort _ l) hs
  rw [topSum, hsort]

theorem Perm.topSum_eq {l m : List ℕ} (h : l ~ m) (k : ℕ) : l.topSum k = m.topSum k :=
  topSum_eq_take ((perm_insertionSort _ m).trans h.symm) (pairwise_insertionSort _ m) k

theorem topSum_of_length_le {l : List ℕ} {k : ℕ} (h : l.length ≤ k) : l.topSum k = l.sum := by
  have hp := perm_insertionSort (· ≥ ·) l
  rw [topSum, take_of_length_le (hp.length_eq.trans_le h), hp.sum_eq]

theorem sum_le_sum_tsub (t : ℕ) : ∀ l : List ℕ, l.sum ≤ (l.map (· - t)).sum + l.length * t
  | [] => Nat.zero_le _
  | x :: l => by
    have := sum_le_sum_tsub t l
    simp only [sum_cons, map_cons, length_cons, Nat.add_mul]
    omega

theorem sum_eq_sum_tsub {t : ℕ} : ∀ {l : List ℕ}, (∀ x ∈ l, t ≤ x) →
    l.sum = (l.map (· - t)).sum + l.length * t
  | [], _ => by simp
  | x :: l, h => by
    have hl := sum_eq_sum_tsub fun y hy => h y (mem_cons_of_mem x hy)
    have hx := h x mem_cons_self
    simp only [sum_cons, map_cons, length_cons, Nat.add_mul]
    omega

/-- Every threshold bounds the sum of the `k` largest from above. -/
theorem topSum_le (l : List ℕ) (k t : ℕ) : l.topSum k ≤ (l.map (· - t)).sum + k * t := by
  have hp : l.insertionSort (· ≥ ·) ~ l := perm_insertionSort _ l
  rw [topSum, ← (hp.map (· - t)).sum_eq]
  generalize l.insertionSort (· ≥ ·) = s
  have htake : ((s.take k).map (· - t)).sum ≤ (s.map (· - t)).sum :=
    ((take_sublist k s).map _).sum_le_sum fun _ _ => Nat.zero_le _
  have hlen : (s.take k).length * t ≤ k * t := Nat.mul_le_mul_right t (length_take_le k s)
  have hsum := sum_le_sum_tsub t (s.take k)
  omega

/-- And some threshold meets it: the first entry that is not among the `k` largest. -/
theorem exists_topSum_eq (l : List ℕ) (k : ℕ) :
    ∃ t, l.topSum k = (l.map (· - t)).sum + k * t := by
  have hp : l.insertionSort (· ≥ ·) ~ l := perm_insertionSort _ l
  have hsorted : (l.insertionSort (· ≥ ·)).Pairwise (· ≥ ·) := pairwise_insertionSort _ l
  simp only [topSum, ← (hp.map _).sum_eq]
  generalize l.insertionSort (· ≥ ·) = s at hsorted
  rw [← take_append_drop k s, pairwise_append] at hsorted
  obtain ⟨-, hdrop, hcross⟩ := hsorted
  cases hs : s.drop k with
  | nil =>
    refine ⟨0, ?_⟩
    rw [take_of_length_le (drop_eq_nil_iff.mp hs)]
    simp
  | cons t rest =>
    rw [hs] at hdrop hcross
    have hlen : k ≤ s.length := by
      by_contra hk
      rw [drop_eq_nil_of_le (by omega)] at hs
      exact nomatch hs
    have hrest : ((t :: rest).map (· - t)).sum = 0 := by
      refine sum_eq_zero fun x hx => ?_
      obtain ⟨y, hy, rfl⟩ := mem_map.mp hx
      obtain rfl | hy := mem_cons.mp hy
      · exact Nat.sub_self y
      · exact Nat.sub_eq_zero_of_le (rel_of_pairwise_cons hdrop hy)
    refine ⟨t, ?_⟩
    conv_rhs => rw [← take_append_drop k s, hs, map_append, sum_append, hrest]
    rw [sum_eq_sum_tsub fun x hx => hcross x hx t mem_cons_self, length_take_of_le hlen,
      Nat.add_zero]

/-- So the `k` largest grow with what lies above each threshold. -/
theorem topSum_le_topSum {l m : List ℕ}
    (h : ∀ t, (l.map (· - t)).sum ≤ (m.map (· - t)).sum) (k : ℕ) : l.topSum k ≤ m.topSum k := by
  obtain ⟨t, ht⟩ := exists_topSum_eq m k
  calc l.topSum k ≤ (l.map (· - t)).sum + k * t := topSum_le l k t
    _ ≤ (m.map (· - t)).sum + k * t := Nat.add_le_add_right (h t) _
    _ = m.topSum k := ht.symm

theorem Sublist.topSum_le {l m : List ℕ} (h : l <+ m) (k : ℕ) : l.topSum k ≤ m.topSum k :=
  topSum_le_topSum (fun _ => (h.map _).sum_le_sum fun _ _ => Nat.zero_le _) k

/-- They grow with each entry. -/
theorem topSum_le_topSum_set {l : List ℕ} {i x y : ℕ} (hi : l[i]? = some x) (hxy : x ≤ y)
    (k : ℕ) : l.topSum k ≤ (l.set i y).topSum k := by
  refine topSum_le_topSum (fun t => ?_) k
  have hi' : (l.map (· - t))[i]? = some (x - t) := by rw [getElem?_map, hi, Option.map_some]
  have hsum := sum_set_add (y - t) hi'
  have hle : x - t ≤ y - t := Nat.sub_le_sub_right hxy t
  rw [map_set]
  omega

theorem topSum_le_sum (l : List ℕ) (k : ℕ) : l.topSum k ≤ l.sum := by
  simpa using topSum_le l k 0

/-- Entries that are not zero add at least one each to the sum. -/
theorem topSum_add_le_sum {l : List ℕ} (hpos : ∀ x ∈ l, 1 ≤ x) (k : ℕ) :
    l.topSum k + (l.length - k) ≤ l.sum := by
  have hp : l.insertionSort (· ≥ ·) ~ l := perm_insertionSort _ l
  have hrest := ((l.insertionSort (· ≥ ·)).drop k).card_nsmul_le_sum 1 fun x hx =>
    hpos x (hp.mem_iff.mp (mem_of_mem_drop hx))
  rw [length_drop, hp.length_eq, nsmul_eq_mul, Nat.cast_id, Nat.mul_one] at hrest
  have hsplit := sum_take_add_sum_drop (l.insertionSort (· ≥ ·)) k
  rw [topSum, ← hp.sum_eq]
  omega

/-- What comes after the `h` largest is no more than their average. -/
theorem topSum_le_average (l : List ℕ) {h k : ℕ} (hpos : 0 < h) (hle : h ≤ k) :
    l.topSum k ≤ l.topSum h + (k - h) * (l.topSum h / h) := by
  have hsorted : (l.insertionSort (· ≥ ·)).Pairwise (· ≥ ·) := pairwise_insertionSort _ l
  simp only [topSum]
  generalize l.insertionSort (· ≥ ·) = s at hsorted
  rw [← take_append_drop h s, pairwise_append] at hsorted
  have hsplit : s.take k = s.take h ++ (s.drop h).take (k - h) := by
    rw [← take_add, Nat.add_sub_cancel' hle]
  have hrest : ∀ x ∈ (s.drop h).take (k - h), x ≤ (s.take h).sum / h := by
    intro x hx
    have hmem := mem_of_mem_take hx
    have hlen : (s.take h).length = h := by
      have := length_pos_of_mem hmem
      rw [length_drop] at this
      exact length_take_of_le (by omega)
    have hsum := (s.take h).card_nsmul_le_sum x fun y hy => hsorted.2.2 y hy x hmem
    rw [hlen, nsmul_eq_mul, Nat.cast_id] at hsum
    exact (Nat.le_div_iff_mul_le hpos).mpr (Nat.mul_comm x h ▸ hsum)
  rw [hsplit, sum_append]
  refine Nat.add_le_add_left ((sum_le_card_nsmul _ _ hrest).trans ?_) _
  rw [nsmul_eq_mul, Nat.cast_id]
  exact Nat.mul_le_mul_right _ (length_take_le _ _)

end List

/-! ## 2. The condition, and the greedy choice -/

section GaleRyser

variable {ι : Type*} {s A : Finset ι} {c : ι → ℕ} {d k : ℕ} {ds : List ℕ}

/-- What the parts can give to `k` nodes, each part serving a node at most once. -/
def served (s : Finset ι) (c : ι → ℕ) (k : ℕ) : ℕ := ∑ j ∈ s, min (c j) k

/-- For every `k`, the `k` largest degrees ask for no more than the parts can give to `k` nodes. -/
def GaleRyser (s : Finset ι) (c : ι → ℕ) (ds : List ℕ) : Prop :=
  ∀ k, ds.topSum k ≤ served s c k

/-- The capacities as a list, numbered from `0`. -/
theorem sum_map_eq_sum_range (f : ℕ → ℕ) : ∀ l : List ℕ,
    (l.map f).sum = ∑ j ∈ Finset.range l.length, f (l.getD j 0)
  | [] => rfl
  | x :: l => by
    rw [List.map_cons, List.sum_cons, sum_map_eq_sum_range f l, List.length_cons,
      Finset.sum_range_succ', Nat.add_comm]
    rfl

theorem served_one (s : Finset ι) (c : ι → ℕ) :
    served s c 1 = (s.filter fun j => 0 < c j).card := by
  rw [Finset.card_filter]
  refine Finset.sum_congr rfl fun j _ => ?_
  split <;> omega

variable [DecidableEq ι]

/-- What is left when every part of `A` has served one node. -/
def serve (A : Finset ι) (c : ι → ℕ) (j : ι) : ℕ := if j ∈ A then c j - 1 else c j

/-- `A` has the most left. -/
def Fullest (s A : Finset ι) (c : ι → ℕ) : Prop :=
  A ⊆ s ∧ ∀ a ∈ A, ∀ b ∈ s, b ∉ A → c b ≤ c a

omit [DecidableEq ι] in
/-- No degree exceeds the number of parts. -/
theorem GaleRyser.head_le (h : GaleRyser s c (d :: ds)) : d ≤ s.card := by
  have hone : d ≤ (d :: ds).topSum 1 := by
    have hle := (List.singleton_sublist.mpr (List.mem_cons_self (a := d) (l := ds))).topSum_le 1
    simpa [List.topSum] using hle
  calc d ≤ served s c 1 := hone.trans (h 1)
    _ ≤ s.card := by
      rw [served_one]
      exact Finset.card_filter_le _ _

theorem Fullest.pos (h : Fullest s A c) (hcard : A.card ≤ served s c 1) :
    ∀ a ∈ A, 0 < c a := by
  intro a ha
  by_contra hzero
  -- A part with nothing left would leave the others of `A` to be all that have something.
  have hsub : s.filter (fun j => 0 < c j) ⊆ A.erase a := by
    intro j hj
    obtain ⟨hjs, hjpos⟩ := Finset.mem_filter.mp hj
    have hne : j ≠ a := by
      rintro rfl
      exact hzero hjpos
    refine Finset.mem_erase.mpr ⟨hne, ?_⟩
    by_contra hjA
    have := h.2 a ha j hjs hjA
    omega
  have hle := Finset.card_le_card hsub
  rw [← served_one, Finset.card_erase_of_mem ha] at hle
  have hpos := Finset.card_pos.mpr ⟨a, ha⟩
  omega

theorem card_eq_sum (hA : A ⊆ s) : A.card = ∑ j ∈ s, if j ∈ A then 1 else 0 := by
  rw [← Finset.card_filter, Finset.filter_mem_eq_inter, Finset.inter_eq_right.mpr hA]

theorem sum_serve (hA : A ⊆ s) (hpos : ∀ a ∈ A, 0 < c a) :
    (∑ j ∈ s, serve A c j) + A.card = ∑ j ∈ s, c j := by
  rw [card_eq_sum hA, ← Finset.sum_add_distrib]
  refine Finset.sum_congr rfl fun j _ => ?_
  unfold serve
  split
  · have := hpos j ‹_›
    omega
  · rfl

/-- A choice of the fullest parts that leaves a part of more than `k` outside takes nothing that
`k` nodes could use; otherwise it takes one edge from each part of `A`. -/
theorem Fullest.served_serve (h : Fullest s A c) (hpos : ∀ a ∈ A, 0 < c a) (k : ℕ) :
    served s (serve A c) k = served s c k ∨
    served s (serve A c) k + A.card = served s c (k + 1) := by
  by_cases hout : ∃ b ∈ s, b ∉ A ∧ k < c b
  · obtain ⟨b, hb, hbA, hk⟩ := hout
    refine Or.inl (Finset.sum_congr rfl fun j _ => ?_)
    unfold serve
    split
    · have := h.2 j ‹_› b hb hbA
      omega
    · rfl
  · push Not at hout
    refine Or.inr ?_
    rw [served, served, card_eq_sum h.1, ← Finset.sum_add_distrib]
    refine Finset.sum_congr rfl fun j hj => ?_
    unfold serve
    split
    · have := hpos j ‹_›
      omega
    · have := hout j hj ‹_›
      omega

/-- **The greedy choice is safe.**  When the largest degree is served by the fullest parts, each of
them has something to give, and the other degrees can still be met. -/
theorem GaleRyser.serve_fullest (h : GaleRyser s c (d :: ds))
    (hsorted : (d :: ds).Pairwise (· ≥ ·)) (hA : Fullest s A c) (hcard : A.card = d) :
    (∀ a ∈ A, 0 < c a) ∧ GaleRyser s (serve A c) ds := by
  have hsum : ∀ k, ((d :: ds).take k).sum ≤ served s c k := fun k =>
    (List.topSum_eq_take (List.Perm.refl _) hsorted k).symm.trans_le (h k)
  have hpos : ∀ a ∈ A, 0 < c a := by
    refine hA.pos ?_
    simpa [hcard] using hsum 1
  refine ⟨hpos, fun k => ?_⟩
  obtain hk | hk := hA.served_serve hpos k
  · -- The `k` first of the rest ask for no more than the `k` first of all.
    rw [hk]
    exact ((List.sublist_cons_self d ds).topSum_le k).trans (h k)
  · have := hsum (k + 1)
    rw [List.topSum_eq_take (List.Perm.refl _) hsorted.of_cons]
    simp only [List.take_succ_cons, List.sum_cons] at this
    omega

end GaleRyser

/-! ## 3. Trading ends -/

namespace List

variable {α β : Type*} {edges : List (α × β)} {a b : ℕ} {e f : α × β}

/-- The edges `e` and `f`, at the places `a` and `b`, trade their right ends. -/
def tradeEnds (edges : List (α × β)) (a b : ℕ) (e f : α × β) : List (α × β) :=
  (edges.set a (e.1, f.2)).set b (f.1, e.2)

theorem map_fst_tradeEnds (ha : edges[a]? = some e) (hb : edges[b]? = some f) :
    (edges.tradeEnds a b e f).map Prod.fst = edges.map Prod.fst := by
  obtain ⟨hlta, rfl⟩ := getElem?_eq_some_iff.mp ha
  obtain ⟨hltb, rfl⟩ := getElem?_eq_some_iff.mp hb
  have hset : ∀ i (hi : i < edges.length),
      (edges.map Prod.fst).set i (edges[i]).1 = edges.map Prod.fst := fun i hi => by
    rw [← getElem_map Prod.fst (h := by simpa), set_getElem_self]
  rw [tradeEnds, map_set, map_set, hset a hlta, hset b hltb]

theorem map_snd_tradeEnds (ha : edges[a]? = some e) (hb : edges[b]? = some f) :
    (edges.tradeEnds a b e f).map Prod.snd ~ edges.map Prod.snd := by
  obtain ⟨ha, rfl⟩ := getElem?_eq_some_iff.mp ha
  obtain ⟨hb, rfl⟩ := getElem?_eq_some_iff.mp hb
  rw [tradeEnds, map_set, map_set]
  have hswap := @set_set_perm _ (edges.map Prod.snd) a b (by simpa) (by simpa)
  simpa using hswap

theorem Nodup.mem_set {l : List α} (hl : l.Nodup) {i : ℕ} {x y : α} (hi : l[i]? = some x)
    {z : α} (hz : z ∈ l.set i y) : z = y ∨ z ∈ l ∧ z ≠ x := by
  obtain ⟨j, hj⟩ := mem_iff_getElem?.mp hz
  rw [getElem?_set] at hj
  split at hj
  · split at hj
    · exact Or.inl (Option.some.inj hj).symm
    · exact nomatch hj
  · refine Or.inr ⟨mem_of_getElem? hj, ?_⟩
    rintro rfl
    obtain ⟨hilt, -⟩ := getElem?_eq_some_iff.mp hi
    exact absurd ((getElem?_inj hilt hl).mp (hi.trans hj.symm)) ‹_›

theorem Nodup.mem_tradeEnds (h : edges.Nodup) (ha : edges[a]? = some e)
    (hb : edges[b]? = some f) (hne : e.1 ≠ f.1) (hfresh : (e.1, f.2) ∉ edges) {x : α × β}
    (hx : x ∈ edges.tradeEnds a b e f) :
    x = (e.1, f.2) ∨ x = (f.1, e.2) ∨ x ∈ edges ∧ x ≠ e ∧ x ≠ f := by
  have hab : a ≠ b := by
    rintro rfl
    rw [ha, Option.some.injEq] at hb
    exact hne (congrArg Prod.fst hb)
  have hset : (edges.set a (e.1, f.2)).Nodup := h.set hfresh
  have hb' : (edges.set a (e.1, f.2))[b]? = some f := by rw [getElem?_set_ne hab, hb]
  obtain rfl | ⟨hx, hxf⟩ := hset.mem_set hb' hx
  · exact Or.inr (Or.inl rfl)
  · obtain rfl | ⟨hx, hxe⟩ := h.mem_set ha hx
    · exact Or.inl rfl
    · exact Or.inr (Or.inr ⟨hx, hxe, hxf⟩)

/-- A trade whose two new edges were not there leaves the graph simple. -/
theorem Nodup.tradeEnds (h : edges.Nodup) (hne : e.1 ≠ f.1) (hef : (e.1, f.2) ∉ edges)
    (hfe : (f.1, e.2) ∉ edges) : (edges.tradeEnds a b e f).Nodup := by
  refine (h.set hef).set fun hmem => ?_
  obtain hmem | heq := mem_or_eq_of_mem_set hmem
  · exact hfe hmem
  · exact hne (congrArg Prod.fst heq).symm

/-! ## 4. Adjacency lists -/

/-- Each edge is pushed to the list of its right end. -/
def scatter (lists : List (List α)) (edges : List (α × ℕ)) : List (List α) :=
  edges.foldl (fun lists e => lists.modify e.2 (· ++ [e.1])) lists

/-- The edges of the lists, with the right ends as `g` writes them. -/
def gather (g : ℕ → β) (lists : List (List α)) : List (α × β) :=
  lists.zipIdx.flatMap fun m => m.1.map (·, g m.2)

theorem map_fst_gather (g : ℕ → β) (lists : List (List α)) :
    (gather g lists).map Prod.fst = lists.flatten := by
  rw [gather, map_flatMap]
  simp only [map_map, Function.comp_def, map_id']
  rw [flatMap_def, zipIdx_map_fst]

theorem scatter_append (lists : List (List α)) (es fs : List (α × ℕ)) :
    scatter lists (es ++ fs) = scatter (scatter lists es) fs := foldl_append

@[simp] theorem length_scatter (lists : List (List α)) (es : List (α × ℕ)) :
    (scatter lists es).length = lists.length := by
  induction es generalizing lists with
  | nil => rfl
  | cons e es ih => exact (ih _).trans (length_modify ..)

/-- A list has its edges in the order in which they came. -/
theorem getElem?_scatter (es : List (α × ℕ)) (j : ℕ) : ∀ lists : List (List α),
    (scatter lists es)[j]? = lists[j]?.map (· ++ (es.filter (·.2 = j)).map Prod.fst) := by
  induction es with
  | nil => simp [scatter]
  | cons e es ih =>
    intro lists
    have hcons : scatter lists (e :: es) = scatter (lists.modify e.2 (· ++ [e.1])) es := rfl
    rw [hcons, ih, getElem?_modify, Option.map_eq_map, Option.map_map]
    by_cases h : e.2 = j
    · rw [filter_cons_of_pos (by simpa using h)]
      refine congrArg (Option.map · _) (funext fun m => ?_)
      simp [h]
    · rw [filter_cons_of_neg (by simpa using h)]
      refine congrArg (Option.map · _) (funext fun m => ?_)
      simp [h]

theorem gather_modify (g : ℕ → β) (x : α) : ∀ (lists : List (List α)) (n j : ℕ), j < lists.length →
    (((lists.modify j (· ++ [x])).zipIdx n).flatMap fun m => m.1.map (·, g m.2)) ~
      (x, g (n + j)) :: (lists.zipIdx n).flatMap fun m => m.1.map (·, g m.2)
  | m :: lists, n, 0, _ => by
    simp only [modify_zero_cons, zipIdx_cons, flatMap_cons, map_append, map_cons, map_nil,
      append_assoc, Nat.add_zero]
    exact perm_middle
  | m :: lists, n, j + 1, h => by
    simp only [modify_succ_cons, zipIdx_cons, flatMap_cons]
    have ih := gather_modify g x lists (n + 1) j (Nat.lt_of_succ_lt_succ h)
    rw [Nat.add_right_comm] at ih
    exact (ih.append_left _).trans perm_middle

/-- Nothing is lost in between. -/
theorem gather_scatter_perm (g : ℕ → β) (es : List (α × ℕ)) : ∀ lists : List (List α),
    (∀ e ∈ es, e.2 < lists.length) →
    gather g (scatter lists es) ~ gather g lists ++ es.map fun e => (e.1, g e.2) := by
  induction es with
  | nil =>
    intro lists _
    simp [scatter]
  | cons e es ih =>
    intro lists h
    have hmodify := gather_modify g e.1 lists 0 e.2 (h e mem_cons_self)
    rw [Nat.zero_add] at hmodify
    have hrest := ih (lists.modify e.2 (· ++ [e.1])) fun f hf => by
      rw [length_modify]
      exact h f (mem_cons_of_mem e hf)
    refine hrest.trans ((hmodify.append_right _).trans ?_)
    exact perm_middle.symm

theorem gather_replicate_nil (g : ℕ → β) (p : ℕ) :
    gather g (replicate p ([] : List α)) = [] := by
  refine flatMap_eq_nil_iff.mpr fun m hm => ?_
  rw [eq_of_mem_replicate (fst_mem_of_mem_zipIdx hm), map_nil]

end List
