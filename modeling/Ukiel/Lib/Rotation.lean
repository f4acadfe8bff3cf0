/-
# A bounded window that rotates

Work is offered a few items at a time, in the order of a key, each time behind the key of the
last item offered.  A window that cannot be filled sends the next one to the head, and a window
that is empty is taken from the head at once.

What there is may change from one turn to the next.  An item that is always there is offered all
the same: what lies ahead of it (`ahead`) shrinks with every turn it is not offered in
(`Turn.shrinks`), so that the number of items there are bounds the number of turns
(`Turns.offered_of_card_le`, `Turns.offered_of_ceilDiv_le`).
-/
import Mathlib.Algebra.Order.Floor.Div
import Mathlib.Data.Finset.Card
import Mathlib.Data.List.Sort
import Mathlib.Tactic.Linarith

namespace Rotation

variable {ι α : Type} [LinearOrder α] {key : ι → α} {S S' : ι → Prop} {limit : Nat}
  {cursor next : Option α} {w : List ι} {U : Finset ι} {a : ι}

/-! ## 1. Windows -/

/-- Strictly behind the cursor.  Without one, everything is. -/
def Beyond (key : ι → α) (cursor : Option α) (x : ι) : Prop := ∀ c ∈ cursor, c < key x

instance (key : ι → α) (cursor : Option α) (x : ι) : Decidable (Beyond key cursor x) :=
  inferInstanceAs (Decidable (∀ c ∈ cursor, c < key x))

/-- The first `limit` of the items behind the cursor, in the order of their keys. -/
structure IsWindow (key : ι → α) (S : ι → Prop) (limit : Nat) (cursor : Option α) (w : List ι) :
    Prop where
  sorted : w.Pairwise fun x y => key x < key y
  mem : ∀ x ∈ w, S x ∧ Beyond key cursor x
  length_le : w.length ≤ limit
  /-- What is left out comes later, and there was no room for it. -/
  rest : ∀ x, S x → Beyond key cursor x → x ∉ w → w.length = limit ∧ ∀ y ∈ w, key y < key x

theorem beyond_none (x : ι) : Beyond key none x := fun _ hc => by cases hc

theorem beyond_some {c : α} {x : ι} : Beyond key (some c) x ↔ c < key x :=
  ⟨fun h => h c rfl, fun h c' hc => by cases hc; exact h⟩

/-- Sorting what lies behind the cursor and taking `limit` of it makes a window. -/
theorem isWindow_take {xs : List ι} (hxs : xs.Nodup)
    (hkey : ∀ x ∈ xs, ∀ y ∈ xs, key x = key y → x = y) (limit : Nat) (cursor : Option α) :
    IsWindow key (· ∈ xs) limit cursor
      (((xs.filter fun x => Beyond key cursor x).insertionSort
        fun x y => key x ≤ key y).take limit) := by
  generalize hall : (xs.filter fun x => Beyond key cursor x).insertionSort
    (fun x y => key x ≤ key y) = all
  have hmem : ∀ x, x ∈ all ↔ x ∈ xs ∧ Beyond key cursor x := by
    intro x
    rw [← hall, List.mem_insertionSort, List.mem_filter, decide_eq_true_eq]
  have hsorted : all.Pairwise fun x y => key x < key y := by
    have : Std.Total fun x y : ι => key x ≤ key y := ⟨fun x y => le_total _ _⟩
    have : IsTrans ι fun x y => key x ≤ key y := ⟨fun _ _ _ => le_trans⟩
    have hle : all.Pairwise fun x y => key x ≤ key y := hall ▸ List.pairwise_insertionSort _ _
    have hnodup : all.Nodup := hall ▸
      (List.perm_insertionSort _ _).nodup_iff.mpr (hxs.filter _)
    refine (hle.and hnodup).imp_of_mem fun hx hy h => lt_of_le_of_ne h.1 fun he => h.2 ?_
    exact hkey _ ((hmem _).mp hx).1 _ ((hmem _).mp hy).1 he
  refine ⟨hsorted.sublist (List.take_sublist _ _), ?_, List.length_take_le _ _, ?_⟩
  · intro x hx
    exact (hmem x).mp (List.mem_of_mem_take hx)
  · intro x hx hbeyond hout
    have hsplit := List.take_append_drop limit all
    have hdrop : x ∈ all.drop limit := by
      have := (hmem x).mpr ⟨hx, hbeyond⟩
      rw [← hsplit] at this
      exact (List.mem_append.mp this).resolve_left hout
    constructor
    · rw [List.length_take]
      have := List.length_pos_of_mem hdrop
      rw [List.length_drop] at this
      omega
    · rw [← hsplit] at hsorted
      exact fun y hy => (List.pairwise_append.mp hsorted).2.2 y hy x hdrop

theorem IsWindow.nodup (hw : IsWindow key S limit cursor w) : w.Nodup :=
  hw.sorted.imp fun h => ne_of_apply_ne key h.ne

/-- The last item of a window has the greatest key. -/
theorem IsWindow.le_last (hw : IsWindow key S limit cursor w) {d x : ι}
    (hd : w.getLast? = some d) (hx : x ∈ w) : key x ≤ key d := by
  obtain ⟨front, rfl⟩ := List.getLast?_eq_some_iff.mp hd
  rcases List.mem_append.mp hx with hx | hx
  · exact ((List.pairwise_append.mp hw.sorted).2.2 x hx d List.mem_cons_self).le
  · rw [List.mem_singleton.mp hx]

/-! ## 2. Turns -/

/-- One turn: the window behind the cursor, or the one at the head where that is empty.  The two
are taken one after the other: of `S` and of `S'`.  The next cursor is the key of the last item
offered, none when the window was not filled. -/
structure Turn (key : ι → α) (S S' : ι → Prop) (limit : Nat) (cursor : Option α) (w : List ι)
    (next : Option α) : Prop where
  window : IsWindow key S limit cursor w ∧ (cursor = none ∨ w ≠ []) ∨
    IsWindow key S limit cursor [] ∧ cursor ≠ none ∧ IsWindow key S' limit none w
  next : next = if w.length < limit then none else w.getLast?.map key

/-- Turn after turn. -/
def Turns (key : ι → α) (S S' : Nat → ι → Prop) (limit : Nat) (cursor : Nat → Option α)
    (w : Nat → List ι) : Prop :=
  ∀ i, Turn key (S i) (S' i) limit (cursor i) (w i) (cursor (i + 1))

open Classical in
/-- What may be offered before `a` is: what lies between the cursor and `a`, through the end and
the head where the cursor is behind `a`. -/
noncomputable def ahead (key : ι → α) (U : Finset ι) (a : ι) (cursor : Option α) : Finset ι :=
  U.filter fun u => if Beyond key cursor a then Beyond key cursor u ∧ key u < key a
    else Beyond key cursor u ∨ key u < key a

/-- Whether the end comes before `a`. -/
def wraps (key : ι → α) (a : ι) (cursor : Option α) : Nat := if Beyond key cursor a then 0 else 1

theorem wraps_of_beyond (h : Beyond key cursor a) : wraps key a cursor = 0 := if_pos h

theorem mem_ahead_of_beyond (h : Beyond key cursor a) {u : ι} :
    u ∈ ahead key U a cursor ↔ u ∈ U ∧ Beyond key cursor u ∧ key u < key a := by
  unfold ahead
  rw [Finset.mem_filter, if_pos h]

theorem mem_ahead_of_not_beyond (h : ¬ Beyond key cursor a) {u : ι} :
    u ∈ ahead key U a cursor ↔ u ∈ U ∧ (Beyond key cursor u ∨ key u < key a) := by
  unfold ahead
  rw [Finset.mem_filter, if_neg h]

theorem card_ahead_lt (key : ι → α) (ha : a ∈ U) (cursor : Option α) :
    (ahead key U a cursor).card < U.card := by
  refine Finset.card_lt_card (Finset.ssubset_iff_of_subset (Finset.filter_subset _ _) |>.mpr
    ⟨a, ha, fun hmem => ?_⟩)
  by_cases h : Beyond key cursor a
  · exact lt_irrefl _ ((mem_ahead_of_beyond h).mp hmem).2.2
  · rcases ((mem_ahead_of_not_beyond h).mp hmem).2 with hb | hlt
    · exact h hb
    · exact lt_irrefl _ hlt

/-- What was offered is not ahead any more. -/
theorem card_ahead_add (hw : w.Nodup) (hin : ∀ x ∈ w, x ∈ ahead key U a cursor)
    (hout : ∀ x ∈ w, x ∉ ahead key U a next)
    (hsub : ahead key U a next ⊆ ahead key U a cursor) :
    (ahead key U a next).card + w.length ≤ (ahead key U a cursor).card := by
  classical
  rw [← List.toFinset_card_of_nodup hw, ← Finset.card_union_of_disjoint]
  · refine Finset.card_le_card (Finset.union_subset hsub fun x hx => ?_)
    exact hin x (List.mem_toFinset.mp hx)
  · rw [Finset.disjoint_right]
    exact fun x hx => hout x (List.mem_toFinset.mp hx)

/-- A window taken in front of `a` that leaves it out is full, and ends in front of it. -/
theorem IsWindow.before (hw : IsWindow key S limit cursor w) (hlimit : 0 < limit)
    (hU : ∀ x, S x → x ∈ U) (ha : S a) (hbefore : Beyond key cursor a) (hmiss : a ∉ w) :
    w.length = limit ∧ Beyond key (w.getLast?.map key) a ∧
      (ahead key U a (w.getLast?.map key)).card + limit ≤ (ahead key U a cursor).card := by
  obtain ⟨hfull, hlt⟩ := hw.rest a ha hbefore hmiss
  obtain ⟨d, hd⟩ : ∃ d, w.getLast? = some d :=
    Option.ne_none_iff_exists'.mp fun h => by
      rw [List.getLast?_eq_none_iff.mp h] at hfull
      exact hlimit.ne hfull
  have hdw := List.mem_of_getLast? hd
  have hnext : Beyond key (some (key d)) a := beyond_some.mpr (hlt d hdw)
  rw [hd, Option.map_some]
  refine ⟨hfull, hnext, ?_⟩
  rw [← hfull]
  refine card_ahead_add hw.nodup ?_ ?_ ?_
  · intro x hx
    exact (mem_ahead_of_beyond hbefore).mpr
      ⟨hU x (hw.mem x hx).1, (hw.mem x hx).2, hlt x hx⟩
  · intro x hx hmem
    have := beyond_some.mp ((mem_ahead_of_beyond hnext).mp hmem).2.1
    exact absurd (hw.le_last hd hx) (not_le.mpr this)
  · intro u hu
    obtain ⟨huU, hb, hua⟩ := (mem_ahead_of_beyond hnext).mp hu
    refine (mem_ahead_of_beyond hbefore).mpr ⟨huU, fun c hc => ?_, hua⟩
    exact ((hw.mem d hdw).2 c hc).trans (beyond_some.mp hb)

/-- One taken behind `a` uses up what lies behind it, up to the end when it is not filled. -/
theorem IsWindow.behind (hw : IsWindow key S limit cursor w) (hne : w ≠ [])
    (hU : ∀ x, S x → x ∈ U) (hbehind : ¬ Beyond key cursor a)
    (hnext : next = if w.length < limit then none else w.getLast?.map key) :
    (ahead key U a next).card + w.length ≤ (ahead key U a cursor).card ∧
      (w.length < limit → wraps key a next = 0) := by
  have hlater : ∀ x ∈ w, key a < key x := by
    intro x hx
    by_contra hle
    exact hbehind fun c hc => ((hw.mem x hx).2 c hc).trans_le (not_lt.mp hle)
  have hin : ∀ x ∈ w, x ∈ ahead key U a cursor := fun x hx =>
    (mem_ahead_of_not_beyond hbehind).mpr ⟨hU x (hw.mem x hx).1, Or.inl (hw.mem x hx).2⟩
  by_cases hshort : w.length < limit
  · rw [if_pos hshort] at hnext
    subst hnext
    refine ⟨card_ahead_add hw.nodup hin ?_ ?_, fun _ => wraps_of_beyond (beyond_none a)⟩
    · intro x hx hmem
      exact lt_asymm (hlater x hx) ((mem_ahead_of_beyond (beyond_none a)).mp hmem).2.2
    · intro u hu
      obtain ⟨huU, -, hua⟩ := (mem_ahead_of_beyond (beyond_none a)).mp hu
      exact (mem_ahead_of_not_beyond hbehind).mpr ⟨huU, Or.inr hua⟩
  · rw [if_neg hshort] at hnext
    obtain ⟨d, hd⟩ : ∃ d, w.getLast? = some d :=
      Option.ne_none_iff_exists'.mp fun h => hne (List.getLast?_eq_none_iff.mp h)
    have hdw := List.mem_of_getLast? hd
    rw [hd, Option.map_some] at hnext
    subst hnext
    have hstill : ¬ Beyond key (some (key d)) a := fun h =>
      lt_asymm (hlater d hdw) (beyond_some.mp h)
    refine ⟨card_ahead_add hw.nodup hin ?_ ?_, fun h => absurd h hshort⟩
    · intro x hx hmem
      rcases ((mem_ahead_of_not_beyond hstill).mp hmem).2 with hb | hlt
      · exact absurd (hw.le_last hd hx) (not_le.mpr (beyond_some.mp hb))
      · exact lt_asymm (hlater x hx) hlt
    · intro u hu
      obtain ⟨huU, hb | hua⟩ := (mem_ahead_of_not_beyond hstill).mp hu
      · refine (mem_ahead_of_not_beyond hbehind).mpr ⟨huU, Or.inl fun c hc => ?_⟩
        exact ((hw.mem d hdw).2 c hc).trans (beyond_some.mp hb)
      · exact (mem_ahead_of_not_beyond hbehind).mpr ⟨huU, Or.inr hua⟩

theorem ahead_none_subset (key : ι → α) (U : Finset ι) (a : ι) (cursor : Option α)
    (hbehind : ¬ Beyond key cursor a) : ahead key U a none ⊆ ahead key U a cursor := by
  intro u hu
  obtain ⟨huU, -, hua⟩ := (mem_ahead_of_beyond (beyond_none a)).mp hu
  exact (mem_ahead_of_not_beyond hbehind).mpr ⟨huU, Or.inr hua⟩

/-- **A turn that leaves `a` out brings it closer**: by a whole window, unless the turn comes to
the end, which happens once. -/
theorem Turn.shrinks (ht : Turn key S S' limit cursor w next) (hlimit : 0 < limit)
    (hU : ∀ x, S x → x ∈ U) (hU' : ∀ x, S' x → x ∈ U) (ha : S a) (ha' : S' a) (hmiss : a ∉ w) :
    (ahead key U a next).card < (ahead key U a cursor).card ∧
      (ahead key U a next).card + wraps key a next * (limit - 1) + limit ≤
        (ahead key U a cursor).card + wraps key a cursor * (limit - 1) := by
  have hnext := ht.next
  rcases ht.window with ⟨hw, hfirst⟩ | ⟨hempty, -, hw⟩
  · by_cases hbefore : Beyond key cursor a
    · obtain ⟨hfull, hb, hcard⟩ := hw.before hlimit hU ha hbefore hmiss
      rw [if_neg (by omega)] at hnext
      subst hnext
      rw [wraps_of_beyond hb, wraps_of_beyond hbefore]
      omega
    · have hne : w ≠ [] := hfirst.resolve_left fun h => hbefore (h ▸ beyond_none a)
      obtain ⟨hcard, hend⟩ := hw.behind hne hU hbefore hnext
      have hpos := List.length_pos_iff.mpr hne
      have hone : wraps key a cursor = 1 := if_neg hbefore
      have hle : wraps key a next ≤ 1 := by unfold wraps; split <;> omega
      rw [hone, one_mul]
      by_cases hshort : w.length < limit
      · rw [hend hshort, zero_mul]
        omega
      · have hwlen := hw.length_le
        have := Nat.mul_le_mul_right (limit - 1) hle
        omega
  · -- nothing behind the cursor, so `a` is not: the window is that at the head
    have hbehind : ¬ Beyond key cursor a := fun hbefore => by
      have := (hempty.rest a ha hbefore List.not_mem_nil).1
      exact hlimit.ne this
    obtain ⟨hfull, hb, hcard⟩ := hw.before hlimit hU' ha' (beyond_none a) hmiss
    have hsub := Finset.card_le_card (ahead_none_subset key U a cursor hbehind)
    rw [if_neg (by omega)] at hnext
    subst hnext
    rw [wraps_of_beyond hb, zero_mul]
    omega

/-! ## 3. Every item has its turn -/

section Runs

variable {T T' : Nat → ι → Prop} {cursors : Nat → Option α} {ws : Nat → List ι} {k n : Nat}

/-- Turns that leave `a` out are few. -/
theorem Turns.missed (ht : Turns key T T' limit cursors ws) (hlimit : 0 < limit) (haU : a ∈ U)
    (hT : ∀ i, k ≤ i → i < k + n → (∀ x, T i x → x ∈ U) ∧ (∀ x, T' i x → x ∈ U) ∧ T i a ∧ T' i a)
    (hmiss : ∀ i, k ≤ i → i < k + n → a ∉ ws i) :
    n < U.card ∧ n * limit + 2 ≤ U.card + limit := by
  -- what is ahead at the end, and what has been offered meanwhile
  have hrun : ∀ m, m ≤ n →
      (ahead key U a (cursors (k + m))).card + m ≤ (ahead key U a (cursors k)).card ∧
        (ahead key U a (cursors (k + m))).card + wraps key a (cursors (k + m)) * (limit - 1) +
            m * limit ≤
          (ahead key U a (cursors k)).card + wraps key a (cursors k) * (limit - 1) := by
    intro m hm
    induction m with
    | zero => simp
    | succ m ih =>
      obtain ⟨ih₁, ih₂⟩ := ih (by omega)
      obtain ⟨hU, hU', ha, ha'⟩ := hT (k + m) (by omega) (by omega)
      obtain ⟨h₁, h₂⟩ := (ht (k + m)).shrinks hlimit hU hU' ha ha' (hmiss _ (by omega) (by omega))
      rw [show k + (m + 1) = k + m + 1 from rfl, Nat.succ_mul]
      omega
  obtain ⟨h₁, h₂⟩ := hrun n le_rfl
  have hlt := card_ahead_lt key haU (cursors k)
  have hle : wraps key a (cursors k) ≤ 1 := by unfold wraps; split <;> omega
  have := Nat.mul_le_mul_right (limit - 1) hle
  omega

/-- **As many turns as there are items ever seen offer an item that stays.** -/
theorem Turns.offered_of_card_le (ht : Turns key T T' limit cursors ws) (hlimit : 0 < limit)
    (haU : a ∈ U)
    (hT : ∀ i, k ≤ i → i < k + n → (∀ x, T i x → x ∈ U) ∧ (∀ x, T' i x → x ∈ U) ∧ T i a ∧ T' i a)
    (hcard : U.card ≤ n) : ∃ i, k ≤ i ∧ i < k + n ∧ a ∈ ws i := by
  by_contra hnone
  push Not at hnone
  have := (ht.missed hlimit haU hT hnone).1
  omega

/-- **One rotation and one turn more offer an item that stays.** -/
theorem Turns.offered_of_ceilDiv_le (ht : Turns key T T' limit cursors ws) (hlimit : 0 < limit)
    (haU : a ∈ U)
    (hT : ∀ i, k ≤ i → i < k + n → (∀ x, T i x → x ∈ U) ∧ (∀ x, T' i x → x ∈ U) ∧ T i a ∧ T' i a)
    (hcard : U.card ⌈/⌉ limit + 1 ≤ n) : ∃ i, k ≤ i ∧ i < k + n ∧ a ∈ ws i := by
  by_contra hnone
  push Not at hnone
  have hmissed := (ht.missed hlimit haU hT hnone).2
  have hceil : U.card ≤ limit * (U.card ⌈/⌉ limit) := le_smul_ceilDiv hlimit
  have hmul := Nat.mul_le_mul_right limit hcard
  rw [Nat.succ_mul, Nat.mul_comm] at hmul
  omega

end Runs

end Rotation
