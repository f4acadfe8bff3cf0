/-
# The repair of the tenant degrees

`repair` brings sampled tenant degrees to a sequence that has the sum of the part capacities and
can be realized against them.  It lowers the head until the condition of Gale and Ryser holds, and
then closes the gap to the sum one degree at a time, in a shuffled order.

* §1 the loops, as the source runs them;
* §2 the first loop: it ends, and what it ends with meets the condition at EVERY prefix, for its
  early exit leaves out only prefixes that cannot fail;
* §3 the second loop: it ends, and it ends at the sum;
* §4 the second loop tests a HEAD of the degrees only.  What it ends with meets the condition
  exactly when no increment it let through broke a longer prefix.
-/
import Mathlib.Algebra.Ring.Nat
import Mathlib.Data.Finset.Insert
import Mathlib.Data.List.GetD
import Mathlib.Data.Nat.Cast.Basic
import Mathlib.Data.Prod.Lex
import Ukiel.Lib.Bipartite
import Ukiel.Lib.Folds
import Ukiel.Lib.Lts
import Ukiel.Lib.SortedLists
import Ukiel.Synth.Rng

namespace Ukiel.Synth

/-! ## 1. The code -/

inductive TopologyError where
  | notBigraphic (reason : String)

/-- A call comes back with an error, or it panics. -/
inductive Failure where
  | error (e : TopologyError)
  | panic

/-- `sum_j min(capacity_j, k)`: the most edges any `k` tenants can absorb. -/
def rhs (capacities : List ℕ) (k : ℕ) : ℕ := (capacities.map (min · k)).sum

/-- `d.clamp(lo, hi)`. -/
def clamp (lo hi d : ℕ) : ℕ := if d < lo then lo else if hi < d then hi else d

/-- The indices by descending degree, of equal degrees the greater index first. -/
def descending (degrees : List ℕ) : List ℕ :=
  (List.range degrees.length).sortDescBy fun i => toLex (degrees.getD i 0, i)

/-- The first place at which the running sum of the degrees passes the capacities.  The source
stops looking where no larger prefix can fail. -/
def violated (capacities degrees : List ℕ) : List ℕ → ℕ → ℕ → Option ℕ
  | [], _, _ => none
  | i :: order, k, running =>
    let running := running + degrees.getD i 0
    let k := k + 1
    let partCount := capacities.length
    if rhs capacities k < running then
      some i
    else if partCount < k ∧ running + (degrees.length - k) * partCount ≤ rhs capacities k then
      none
    else
      violated capacities degrees order k running

/-- The first loop: while a prefix fails, the degree it fails at loses one. -/
def lowerHead (capacities : List ℕ) :
    ℕ → List ℕ × Finset ℕ → Except Failure (List ℕ × Finset ℕ)
  | 0, s => .ok s
  | fuel + 1, (degrees, repaired) =>
    match violated capacities degrees (descending degrees) 0 0 with
    | none => .ok (degrees, repaired)
    | some i =>
      if degrees.getD i 0 ≤ 1 then
        .error (.error (.notBigraphic s!"even a degree-1 tenant cannot be placed: part capacities sum to {capacities.sum}, tenants {degrees.length}"))
      else
        lowerHead capacities fuel (degrees.set i (degrees.getD i 0 - 1), insert i repaired)

/-- The prefixes fit, from the `k`-th on. -/
def prefixesFit (capacities : List ℕ) : List ℕ → ℕ → ℕ → Bool
  | [], _, _ => true
  | d :: top, k, running =>
    let running := running + d
    if rhs capacities (k + 1) < running then false
    else prefixesFit capacities top (k + 1) running

/-- Gale–Ryser, over the first `4 * part_count` prefixes. -/
def feasible (degrees capacities : List ℕ) : Bool :=
  let head := min (capacities.length * 4) degrees.length
  prefixesFit capacities ((degrees.insertionSort (· ≥ ·)).take head) 0 0

/-- What the second loop keeps. -/
structure Balance where
  degrees : List ℕ
  repaired : Finset ℕ
  current : ℕ
  cursor : ℕ
  stalled : ℕ

namespace Balance

/-- The tenant whose turn it is. -/
def turn (order : List ℕ) (s : Balance) : ℕ := order.getD (s.cursor % order.length) 0

/-- The tenant's degree. -/
def degree (order : List ℕ) (s : Balance) : ℕ := s.degrees.getD (s.turn order) 0

/-- The degrees with one more for the tenant. -/
def raised (order : List ℕ) (s : Balance) : List ℕ :=
  s.degrees.set (s.turn order) (s.degree order + 1)

def raise (order : List ℕ) (s : Balance) : Balance where
  degrees := s.raised order
  repaired := insert (s.turn order) s.repaired
  current := s.current + 1
  cursor := s.cursor + 1
  stalled := 0

def lower (order : List ℕ) (s : Balance) : Balance where
  degrees := s.degrees.set (s.turn order) (s.degree order - 1)
  repaired := insert (s.turn order) s.repaired
  current := s.current - 1
  cursor := s.cursor + 1
  stalled := 0

/-- The degree stays, and the loop moves on. -/
def stall (s : Balance) : Balance :=
  { s with cursor := s.cursor + 1, stalled := s.stalled + 1 }

/-- The body of the second loop. -/
def visit (capacities order : List ℕ) (targetSum : ℕ) (s : Balance) : Balance :=
  if s.current < targetSum then
    if s.degree order < capacities.length then
      if feasible (s.raised order) capacities then s.raise order else s.stall
    else s.stall
  else if 1 < s.degree order then s.lower order
  else s.stall

end Balance

/-- The second loop: until the sums agree, or every tenant has been visited in vain. -/
def closeGap (capacities order : List ℕ) (targetSum : ℕ) : ℕ → Balance → Except Failure Balance
  | 0, s => .ok s
  | fuel + 1, s =>
    if s.current = targetSum then .ok s
    else if s.degrees.length < s.stalled then
      .error (.error (.notBigraphic s!"tenant degrees sum to {s.current} but the part margin is {targetSum}, and no feasible single-degree change closes the gap"))
    else if order.length = 0 then .error .panic -- `cursor % 0`
    else closeGap capacities order targetSum fuel (s.visit capacities order targetSum)

/-- More visits than the second loop can make. -/
def visits (targetSum : ℕ) (s : Balance) : ℕ :=
  (targetSum - s.current + (s.current - targetSum)) * (s.degrees.length + 2) +
    (s.degrees.length + 2 - s.stalled)

/-- The order in which the second loop visits the tenants. -/
def visitOrder (seed : UInt64) (tenants : ℕ) : List ℕ :=
  (StableRng.stream seed "degree-repair").shuffle (List.range tenants)

/-- The second loop before its first visit. -/
def Balance.start (degrees : List ℕ) (repaired : Finset ℕ) : Balance where
  degrees := degrees
  repaired := repaired
  current := degrees.sum
  cursor := 0
  stalled := 0

/-- The degrees when the first loop begins. -/
def clamped (degrees capacities : List ℕ) : List ℕ := degrees.map (clamp 1 capacities.length)

/-- The first loop of `repair`. -/
def lowered (degrees capacities : List ℕ) : Except Failure (List ℕ × Finset ℕ) :=
  let degrees := clamped degrees capacities
  lowerHead capacities (degrees.sum + 1) (degrees, ∅)

/-- The degrees after the repair, and the tenants that were repaired. -/
def repair (degrees capacities : List ℕ) (targetSum : ℕ) (seed : UInt64) :
    Except Failure (List ℕ × Finset ℕ) :=
  if capacities.length = 0 ∧ degrees ≠ [] then .error .panic -- `clamp(1, 0)`
  else do
    let (degrees, repaired) ← lowered degrees capacities
    let order := visitOrder seed degrees.length
    let s := Balance.start degrees repaired
    let s ← closeGap capacities order targetSum (visits targetSum s) s
    return (s.degrees, s.repaired)

/-! ## 2. The first loop -/

/-- The condition of Gale and Ryser: for every `k`, the `k` largest degrees sum to no more than
`k` tenants can absorb. -/
def Bigraphic (capacities degrees : List ℕ) : Prop :=
  ∀ k, degrees.topSum k ≤ rhs capacities k

variable {capacities degrees order : List ℕ} {targetSum : ℕ}

theorem rhs_mono (capacities : List ℕ) : Monotone (rhs capacities) := fun _ _ h =>
  List.sum_le_sum fun _ _ => min_le_min_left _ h

theorem rhs_le_sum (capacities : List ℕ) (k : ℕ) : rhs capacities k ≤ capacities.sum := by
  have := List.sum_le_sum (l := capacities) (f := (min · k)) (g := id) fun _ _ => min_le_left _ _
  rwa [List.map_id] at this

theorem descending_perm (degrees : List ℕ) :
    ((descending degrees).map fun i => degrees.getD i 0).Perm degrees := by
  have hmap := ((List.range degrees.length).sortDescBy_perm
    fun i => toLex (degrees.getD i 0, i)).map fun i => degrees.getD i 0
  refine hmap.trans (List.Perm.of_eq ?_)
  refine List.ext_getElem (by simp) fun i hi _ => ?_
  simp only [List.length_map, List.length_range] at hi
  simp [hi]

theorem pairwise_descending (degrees : List ℕ) :
    ((descending degrees).map fun i => degrees.getD i 0).Pairwise (· ≥ ·) := by
  rw [List.pairwise_map]
  refine (List.pairwise_sortDescBy _ _).imp fun {i j} h => ?_
  exact ((Prod.Lex.le_iff.mp h).elim le_of_lt fun h => h.1.le)

theorem length_descending (degrees : List ℕ) : (descending degrees).length = degrees.length := by
  simpa using (descending_perm degrees).length_eq

/-- No prefix fails that the search looks at, and none that it leaves out. -/
theorem le_of_violated_eq_none (hle : ∀ i, degrees.getD i 0 ≤ capacities.length) :
    ∀ {order : List ℕ} {k running : ℕ}, order.length + k = degrees.length →
      violated capacities degrees order k running = none → ∀ j < order.length,
      running + ((order.map fun i => degrees.getD i 0).take (j + 1)).sum ≤
        rhs capacities (k + (j + 1))
  | i :: order, k, running, hlen, hnone, j, hj => by
    rw [violated] at hnone
    rw [List.map_cons, List.take_succ_cons, List.sum_cons, ← Nat.add_assoc, ← Nat.add_assoc,
      Nat.add_right_comm k]
    rw [List.length_cons] at hlen hj
    split at hnone
    · exact nomatch hnone
    next hfits =>
    rw [Nat.not_lt] at hfits
    split at hnone
    · next hexit =>
      -- What is left adds at most `part_count` a tenant.
      have hrest : ((order.map fun i => degrees.getD i 0).take j).sum ≤ j * capacities.length := by
        refine (List.sum_le_card_nsmul _ capacities.length fun x hx => ?_).trans ?_
        · obtain ⟨i, -, rfl⟩ := List.mem_map.mp (List.mem_of_mem_take hx)
          exact hle i
        · rw [nsmul_eq_mul, Nat.cast_id]
          exact Nat.mul_le_mul_right _ (List.length_take_le _ _)
      have hleft : j * capacities.length ≤ (degrees.length - (k + 1)) * capacities.length :=
        Nat.mul_le_mul_right _ (by omega)
      have hrhs := rhs_mono capacities (Nat.le_add_right (k + 1) j)
      omega
    · cases j with
      | zero => simpa using hfits
      | succ j =>
        have ih := le_of_violated_eq_none hle (by omega) hnone j (by omega)
        rwa [← Nat.add_assoc] at ih

/-- Beyond the last tenant the left side stays, and the right side does not fall. -/
theorem topSum_le_rhs {b : ℕ}
    (h : ∀ j < min b degrees.length, degrees.topSum (j + 1) ≤ rhs capacities (j + 1)) :
    ∀ k ≤ b, degrees.topSum k ≤ rhs capacities k := by
  intro k hk
  obtain hlen | hlen := Nat.lt_or_ge degrees.length k
  · rw [List.topSum_of_length_le hlen.le, ← List.topSum_of_length_le le_rfl]
    refine le_trans ?_ (rhs_mono capacities hlen.le)
    cases hn : degrees.length with
    | zero => simp [List.length_eq_zero_iff.mp hn, List.topSum]
    | succ n => exact h n (by omega)
  · cases k with
    | zero => exact Nat.zero_le _
    | succ k => exact h k (by omega)

theorem bigraphic_of_violated (hle : ∀ i, degrees.getD i 0 ≤ capacities.length)
    (h : violated capacities degrees (descending degrees) 0 0 = none) :
    Bigraphic capacities degrees := by
  have hlen := length_descending degrees
  intro k
  refine topSum_le_rhs (fun j hj => ?_) k le_rfl
  rw [List.topSum_eq_take (descending_perm degrees) (pairwise_descending degrees)]
  simpa using le_of_violated_eq_none hle (by omega) h j (by omega)

theorem getD_set_le {d b : ℕ} (i : ℕ) (hd : d ≤ b) (h : ∀ i, degrees.getD i 0 ≤ b) (j : ℕ) :
    (degrees.set i d).getD j 0 ≤ b := by
  rw [List.getD_eq_getElem?_getD, List.getElem?_set]
  split
  · split
    · exact hd
    · exact Nat.zero_le b
  · rw [← List.getD_eq_getElem?_getD]
    exact h j

theorem pos_set {d : ℕ} (i : ℕ) (hd : 1 ≤ d) (h : ∀ d ∈ degrees, 1 ≤ d) :
    ∀ d' ∈ degrees.set i d, 1 ≤ d' := fun d' hmem =>
  (List.mem_or_eq_of_mem_set hmem).elim (h d') fun heq => heq ▸ hd

/-- A degree that is not zero is some tenant's. -/
theorem getElem?_of_getD_pos {i : ℕ} (h : 0 < degrees.getD i 0) :
    degrees[i]? = some (degrees.getD i 0) := by
  rw [List.getD_eq_getElem?_getD] at h ⊢
  cases hi : degrees[i]? with
  | none =>
    rw [hi] at h
    exact absurd h (Nat.lt_irrefl 0)
  | some d => rfl

/-- **The first loop ends, and it repairs.**  With more fuel than there are degrees to lose, what
it returns meets the condition at every prefix, and no degree is zero. -/
theorem lowerHead_eq_ok {after : List ℕ} {tenants : Finset ℕ} : ∀ {fuel : ℕ}
    {degrees : List ℕ} {repaired : Finset ℕ}, degrees.sum < fuel →
      (∀ i, degrees.getD i 0 ≤ capacities.length) →
      (∀ d ∈ degrees, 1 ≤ d) →
      lowerHead capacities fuel (degrees, repaired) = .ok (after, tenants) →
      after.length = degrees.length ∧ Bigraphic capacities after ∧ ∀ d ∈ after, 1 ≤ d
  | fuel + 1, degrees, repaired, hfuel, hle, hpos, h => by
    rw [lowerHead] at h
    split at h
    · next hnone =>
      cases h
      exact ⟨rfl, bigraphic_of_violated hle hnone, hpos⟩
    · next i _ =>
      split at h
      · exact nomatch h
      next hd =>
      -- The degree that loses one is a tenant's, so that the sum loses one.
      have hsum := List.sum_set_add (degrees.getD i 0 - 1)
        (getElem?_of_getD_pos (Nat.zero_lt_of_lt (Nat.not_le.mp hd)))
      have hle' := getD_set_le i ((Nat.sub_le _ 1).trans (hle i)) hle
      have hpos' := pos_set i (Nat.le_sub_one_of_lt (Nat.not_le.mp hd)) hpos
      obtain ⟨hlen, hafter⟩ := lowerHead_eq_ok (by omega) hle' hpos' h
      exact ⟨hlen.trans List.length_set, hafter⟩

theorem clamp_le {b d : ℕ} (hb : 1 ≤ b) : clamp 1 b d ≤ b := by
  unfold clamp
  split
  · exact hb
  · split <;> omega

theorem le_clamp {b d : ℕ} (hb : 1 ≤ b) : 1 ≤ clamp 1 b d := by
  unfold clamp
  split
  · exact le_rfl
  · split <;> omega

theorem lowered_eq_ok {after : List ℕ} {tenants : Finset ℕ}
    (hparts : ¬ (capacities.length = 0 ∧ degrees ≠ []))
    (h : lowered degrees capacities = .ok (after, tenants)) :
    after.length = degrees.length ∧ Bigraphic capacities after ∧ ∀ d ∈ after, 1 ≤ d := by
  have hpos : ∀ d ∈ clamped degrees capacities, 1 ≤ d := by
    intro d hd
    obtain ⟨d₀, hmem, rfl⟩ := List.mem_map.mp hd
    exact le_clamp (Nat.one_le_iff_ne_zero.mpr fun hzero =>
      hparts ⟨hzero, List.ne_nil_of_mem hmem⟩)
  have hle : ∀ i, (clamped degrees capacities).getD i 0 ≤ capacities.length := by
    intro i
    rw [clamped, List.getD_eq_getElem?_getD, List.getElem?_map]
    cases hi : degrees[i]? with
    | none => exact Nat.zero_le _
    | some d =>
      refine clamp_le (Nat.one_le_iff_ne_zero.mpr fun hzero => hparts ⟨hzero, ?_⟩)
      rintro rfl
      exact nomatch hi
  obtain ⟨hlen, hafter⟩ := lowerHead_eq_ok (Nat.lt_succ_self _) hle hpos h
  exact ⟨hlen.trans (List.length_map _), hafter⟩

/-! ## 3. The second loop -/

/-- The second loop as a system: it takes a step while the sums differ, not every tenant has been
visited in vain, and there is a tenant to visit. -/
def tick (capacities order : List ℕ) (targetSum : ℕ) (s : Balance) (_ : Unit) : Option Balance :=
  if s.current = targetSum ∨ s.degrees.length < s.stalled ∨ order.length = 0 then none
  else some (s.visit capacities order targetSum)

theorem tick_eq_some {s s' : Balance} {u : Unit} :
    tick capacities order targetSum s u = some s' ↔
      (s.current ≠ targetSum ∧ s.stalled ≤ s.degrees.length ∧ order.length ≠ 0) ∧
        s.visit capacities order targetSum = s' := by
  unfold tick
  split
  · next h =>
    refine iff_of_false (by simp) ?_
    rintro ⟨⟨hne, hstalled, horder⟩, -⟩
    obtain h | h | h := h
    · exact hne h
    · omega
    · exact horder h
  · next h =>
    push Not at h
    simp only [Option.some.injEq, ne_eq, h, not_false_eq_true, and_self, true_and]

namespace Balance

theorem sum_raised_le (order : List ℕ) (s : Balance) :
    (s.raised order).sum ≤ s.degrees.sum + 1 := by
  unfold raised degree
  cases hi : s.degrees[s.turn order]? with
  | none =>
    rw [List.set_eq_of_length_le (List.getElem?_eq_none_iff.mp hi)]
    exact Nat.le_succ _
  | some d =>
    have hsum := List.sum_set_add (d + 1) hi
    rw [List.getD_eq_getElem?_getD, hi, Option.getD_some]
    omega

/-- What a visit can do. -/
theorem visit_cases (capacities order : List ℕ) (targetSum : ℕ) (s : Balance) :
    (s.visit capacities order targetSum = s.raise order ∧ s.current < targetSum ∧
      s.degree order < capacities.length ∧ feasible (s.raised order) capacities = true) ∨
    (s.visit capacities order targetSum = s.lower order ∧ targetSum ≤ s.current ∧
      1 < s.degree order) ∨
    s.visit capacities order targetSum = s.stall := by
  unfold visit
  split
  · split
    · split
      · exact Or.inl ⟨rfl, ‹_›, ‹_›, ‹_›⟩
      · exact Or.inr (Or.inr rfl)
    · exact Or.inr (Or.inr rfl)
  · split
    · exact Or.inr (Or.inl ⟨rfl, Nat.not_lt.mp ‹_›, ‹_›⟩)
    · exact Or.inr (Or.inr rfl)

end Balance

/-- The sum is kept, no degree is zero, and no more than a round is in vain. -/
structure Balanced (n : ℕ) (s : Balance) : Prop where
  length : s.degrees.length = n
  current : s.current = s.degrees.sum
  pos : ∀ d ∈ s.degrees, 1 ≤ d
  stalled : s.stalled ≤ n + 1

section Order

variable {n : ℕ} {s s' : Balance}

/-- The order names tenants. -/
def Names (n : ℕ) (order : List ℕ) : Prop := ∀ i ∈ order, i < n

theorem Balanced.degree (h : Balanced n s) (hnames : Names n order) (horder : order.length ≠ 0) :
    s.degrees[s.turn order]? = some (s.degree order) := by
  have hlt : s.cursor % order.length < order.length := Nat.mod_lt _ (Nat.pos_of_ne_zero horder)
  have hturn : s.turn order < s.degrees.length := by
    rw [h.length, Balance.turn, List.getD_eq_getElem _ _ hlt]
    exact hnames _ (List.getElem_mem hlt)
  rw [Balance.degree, List.getD_eq_getElem _ _ hturn, List.getElem?_eq_getElem hturn]

theorem Balanced.visit (h : Balanced n s) (hnames : Names n order)
    (hs : tick capacities order targetSum s () = some s') : Balanced n s' := by
  obtain ⟨⟨-, hstalled, horder⟩, rfl⟩ := tick_eq_some.mp hs
  have hdegree := h.degree hnames horder
  have hcurrent := h.current
  have hlength := h.length
  obtain ⟨hv, -⟩ | ⟨hv, -, hd⟩ | hv := s.visit_cases capacities order targetSum <;> rw [hv]
  · have hsum := List.sum_set_add (s.degree order + 1) hdegree
    refine ⟨List.length_set.trans hlength, ?_, pos_set _ (Nat.succ_pos _) h.pos, Nat.zero_le _⟩
    show s.current + 1 = (s.degrees.set (s.turn order) (s.degree order + 1)).sum
    omega
  · have hsum := List.sum_set_add (s.degree order - 1) hdegree
    refine ⟨List.length_set.trans hlength, ?_, pos_set _ (Nat.le_sub_one_of_lt hd) h.pos,
      Nat.zero_le _⟩
    show s.current - 1 = (s.degrees.set (s.turn order) (s.degree order - 1)).sum
    omega
  · exact ⟨hlength, hcurrent, h.pos, Nat.succ_le_succ (hstalled.trans hlength.le)⟩

/-- Every visit brings the sums closer, or is one more in vain. -/
theorem visits_lt (hs : tick capacities order targetSum s () = some s') :
    visits targetSum s' < visits targetSum s := by
  obtain ⟨⟨hne, hstalled, -⟩, rfl⟩ := tick_eq_some.mp hs
  have hround : ∀ {gap gap' : ℕ}, gap' + 1 = gap →
      gap' * (s.degrees.length + 2) + (s.degrees.length + 2 - 0) <
        gap * (s.degrees.length + 2) + (s.degrees.length + 2 - s.stalled) := by
    rintro gap gap' rfl
    rw [Nat.add_mul]
    omega
  obtain ⟨hv, hlt, -⟩ | ⟨hv, hle, -⟩ | hv := s.visit_cases capacities order targetSum <;> rw [hv]
  · simp only [visits, Balance.raise, Balance.raised, List.length_set]
    exact hround (by omega)
  · simp only [visits, Balance.lower, List.length_set]
    exact hround (by omega)
  · simp only [visits, Balance.stall]
    omega

theorem Balanced.visits_pos (h : Balanced n s) (targetSum : ℕ) : 0 < visits targetSum s := by
  have := h.stalled
  have := h.length
  unfold visits
  omega

/-- A run of the loop that returns is at the sum already, or it returns from its next state. -/
theorem closeGap_succ_eq_ok {fuel : ℕ} {after : Balance} :
    closeGap capacities order targetSum (fuel + 1) s = .ok after ↔
      s.current = targetSum ∧ s = after ∨
      ∃ s', tick capacities order targetSum s () = some s' ∧
        closeGap capacities order targetSum fuel s' = .ok after := by
  simp only [closeGap, tick_eq_some]
  by_cases hsum : s.current = targetSum
  · simp [hsum]
  by_cases hstalled : s.degrees.length < s.stalled
  · simp [hsum, hstalled, Nat.not_le.mpr hstalled]
  by_cases horder : order.length = 0
  · simp [hsum, hstalled, horder]
  · simp [hsum, hstalled, horder, Nat.not_lt.mp hstalled]

/-- **The second loop ends, and at the sum.**  When it returns, it has come there from its start
step by step. -/
theorem closeGap_eq_ok (hnames : Names n order) {after : Balance} {fuel : ℕ} :
    ∀ {s : Balance}, Balanced n s → visits targetSum s ≤ fuel →
      closeGap capacities order targetSum fuel s = .ok after →
      Lts.Reaches (tick capacities order targetSum) s after ∧ after.current = targetSum := by
  induction fuel with
  | zero => exact fun hs hfuel => absurd (hs.visits_pos targetSum) (Nat.not_lt.mpr hfuel)
  | succ fuel ih =>
    intro s hs hfuel h
    obtain ⟨hsum, rfl⟩ | ⟨s', hstep, h⟩ := closeGap_succ_eq_ok.mp h
    · exact ⟨Lts.Reaches.refl s, hsum⟩
    · have hlt := visits_lt hstep
      obtain ⟨hreach, hsum⟩ := ih (hs.visit hnames hstep) (by omega) h
      exact ⟨(Lts.Reaches.single hstep).trans hreach, hsum⟩

end Order

/-! ## 4. The head test -/

theorem prefixesFit_iff : ∀ {top : List ℕ} {k running : ℕ},
    prefixesFit capacities top k running = true ↔
      ∀ j < top.length, running + (top.take (j + 1)).sum ≤ rhs capacities (k + (j + 1))
  | [], _, _ => by simp [prefixesFit]
  | d :: top, k, running => by
    have hsucc : ∀ j, running + ((d :: top).take (j + 1)).sum = running + d + (top.take j).sum := by
      intro j
      rw [List.take_succ_cons, List.sum_cons, Nat.add_assoc]
    simp only [prefixesFit, hsucc, List.length_cons]
    split
    · next hlt =>
      refine iff_of_false (by simp) fun h => ?_
      have := h 0 (Nat.succ_pos _)
      simp only [List.take_zero, List.sum_nil, Nat.zero_add] at this
      omega
    · next hle =>
      rw [prefixesFit_iff]
      constructor
      · intro h j hj
        cases j with
        | zero => simpa using hle
        | succ j =>
          rw [← Nat.add_assoc k, Nat.add_right_comm k]
          exact h j (Nat.lt_of_succ_lt_succ hj)
      · intro h j hj
        rw [Nat.add_assoc k, Nat.add_comm 1]
        exact h (j + 1) (Nat.succ_lt_succ hj)

/-- What the test says: it is the condition for the first `4 * part_count` prefixes. -/
theorem feasible_iff : feasible degrees capacities = true ↔
    ∀ k ≤ capacities.length * 4, degrees.topSum k ≤ rhs capacities k := by
  have hlen : (degrees.insertionSort (· ≥ ·)).length = degrees.length :=
    List.length_insertionSort _ _
  have htake : ∀ j < min (capacities.length * 4) degrees.length,
      (((degrees.insertionSort (· ≥ ·)).take
        (min (capacities.length * 4) degrees.length)).take (j + 1)).sum =
          degrees.topSum (j + 1) := by
    intro j hj
    rw [List.take_take, Nat.min_eq_left hj, List.topSum]
  rw [feasible, prefixesFit_iff, List.length_take, hlen, Nat.min_assoc, Nat.min_self]
  constructor
  · intro h
    refine topSum_le_rhs fun j hj => ?_
    have := h j hj
    rwa [htake j hj, Nat.zero_add, Nat.zero_add] at this
  · intro h j hj
    rw [htake j hj, Nat.zero_add, Nat.zero_add]
    exact h (j + 1) (by omega)

/-- The second loop of `repair` comes to this state. -/
def Visited (degrees capacities : List ℕ) (targetSum : ℕ) (seed : UInt64) (s : Balance) : Prop :=
  ∃ after tenants, lowered degrees capacities = .ok (after, tenants) ∧
    Lts.Reaches (tick capacities (visitOrder seed degrees.length) targetSum)
      (Balance.start after tenants) s

/-- The increment that is tried in this state does not break a prefix beyond the head when the
test lets it through. -/
def HeadDecides (capacities order : List ℕ) (targetSum : ℕ) (s : Balance) : Prop :=
  s.current < targetSum → s.degree order < capacities.length →
    feasible (s.raised order) capacities = true →
      ∀ k, capacities.length * 4 < k → (s.raised order).topSum k ≤ rhs capacities k

/-- It does so in no state that the second loop comes to. -/
def HeadSuffices (degrees capacities : List ℕ) (targetSum : ℕ) (seed : UInt64) : Prop :=
  ∀ s, Visited degrees capacities targetSum seed s →
    HeadDecides capacities (visitOrder seed degrees.length) targetSum s

theorem Bigraphic.sum_le (h : Bigraphic capacities degrees) : degrees.sum ≤ capacities.sum := by
  rw [← List.topSum_of_length_le le_rfl]
  exact (h degrees.length).trans (rhs_le_sum capacities _)

theorem names_visitOrder (seed : UInt64) (n : ℕ) : Names n (visitOrder seed n) := fun _ hi =>
  List.mem_range.mp ((StableRng.shuffle_perm _ _).mem_iff.mp hi)

theorem repair_eq_ok {seed : UInt64} {after : List ℕ} {tenants : Finset ℕ} :
    repair degrees capacities targetSum seed = .ok (after, tenants) →
      ∃ low lowTenants s, lowered degrees capacities = .ok (low, lowTenants) ∧
        low.length = degrees.length ∧ Bigraphic capacities low ∧ (∀ d ∈ low, 1 ≤ d) ∧
        closeGap capacities (visitOrder seed degrees.length) targetSum
          (visits targetSum (Balance.start low lowTenants)) (Balance.start low lowTenants) =
            .ok s ∧ s.degrees = after := by
  intro h
  unfold repair at h
  split at h
  · exact nomatch h
  next hparts =>
  obtain ⟨⟨low, lowTenants⟩, hlow, h⟩ := Except.bind_eq_ok_iff.mp h
  obtain ⟨s, hs, h⟩ := Except.bind_eq_ok_iff.mp h
  obtain ⟨hlen, hbi, hpos⟩ := lowered_eq_ok hparts hlow
  cases h
  rw [hlen] at hs
  exact ⟨low, lowTenants, s, hlow, hlen, hbi, hpos, hs, rfl⟩

section Runs

variable {n : ℕ} {s s' after : Balance}

/-- Below the target a visit only raises. -/
theorem tick_le_target (hle : s.current ≤ targetSum)
    (hs : tick capacities order targetSum s () = some s') : s'.current ≤ targetSum := by
  obtain ⟨⟨hne, -⟩, rfl⟩ := tick_eq_some.mp hs
  obtain ⟨hv, hlt, -⟩ | ⟨-, hge, -⟩ | hv := s.visit_cases capacities order targetSum
  · rw [hv]
    exact hlt
  · omega
  · rw [hv]
    exact hle

/-- So that no prefix sum falls. -/
theorem tick_topSum_le (hnames : Names n order) (hbal : Balanced n s)
    (hle : s.current ≤ targetSum) (hs : tick capacities order targetSum s () = some s') (k : ℕ) :
    s.degrees.topSum k ≤ s'.degrees.topSum k := by
  obtain ⟨⟨hne, -, horder⟩, rfl⟩ := tick_eq_some.mp hs
  obtain ⟨hv, -⟩ | ⟨-, hge, -⟩ | hv := s.visit_cases capacities order targetSum
  · rw [hv]
    exact List.topSum_le_topSum_set (hbal.degree hnames horder) (Nat.le_succ _) k
  · omega
  · rw [hv]
    exact le_rfl

theorem reaches_topSum_le (hnames : Names n order) (hbal : Balanced n s)
    (hle : s.current ≤ targetSum) (h : Lts.Reaches (tick capacities order targetSum) s s')
    (k : ℕ) : s.degrees.topSum k ≤ s'.degrees.topSum k := by
  obtain ⟨es, hrun⟩ := h
  exact Lts.run_rel (I := fun s => Balanced n s ∧ s.current ≤ targetSum)
    (R := fun s s' => s.degrees.topSum k ≤ s'.degrees.topSum k) (fun _ => le_rfl)
    (fun _ _ _ => le_trans) (fun _ _ _ hs hi => ⟨hi.1.visit hnames hs, tick_le_target hi.2 hs⟩)
    (fun _ _ _ hi hs => tick_topSum_le hnames hi.1 hi.2 hs k) hrun ⟨hbal, hle⟩

/-- A run of the loop that returns goes on to return from each state it comes to. -/
theorem closeGap_of_reaches (hreach : Lts.Reaches (tick capacities order targetSum) s s')
    {fuel : ℕ} (hfuel : visits targetSum s ≤ fuel)
    (h : closeGap capacities order targetSum fuel s = .ok after) :
    ∃ fuel', visits targetSum s' ≤ fuel' ∧
      closeGap capacities order targetSum fuel' s' = .ok after := by
  obtain ⟨es, hrun⟩ := hreach
  induction es generalizing s fuel with
  | nil =>
    obtain rfl : s = s' := Option.some.inj hrun
    exact ⟨fuel, hfuel, h⟩
  | cons e es ih =>
    obtain ⟨s₁, hs, hrun⟩ := Lts.run_cons.mp hrun
    have hlt := visits_lt hs
    cases fuel with
    | zero => omega
    | succ fuel =>
      obtain ⟨hsum, -⟩ | ⟨s₂, hs₂, h⟩ := closeGap_succ_eq_ok.mp h
      · exact absurd hsum (tick_eq_some.mp hs).1.1
      · obtain rfl : s₁ = s₂ := Option.some.inj (hs.symm.trans hs₂)
        exact ih (by omega) h hrun

/-- While the test decides, the condition holds in every state. -/
theorem bigraphic_of_headDecides (hstart : Bigraphic capacities s.degrees)
    (hle : s.current ≤ targetSum)
    (hhead : ∀ s', Lts.Reaches (tick capacities order targetSum) s s' →
      HeadDecides capacities order targetSum s')
    (hreach : Lts.Reaches (tick capacities order targetSum) s s') :
    Bigraphic capacities s'.degrees := by
  obtain ⟨es, hrun⟩ := hreach
  refine (Lts.run_snoc_induction (P := fun _ s' => Bigraphic capacities s'.degrees ∧
    s'.current ≤ targetSum) ⟨hstart, hle⟩ ?_ hrun).1
  intro es a _ b ha ⟨hbi, hcurrent⟩ hb
  refine ⟨?_, tick_le_target hcurrent hb⟩
  obtain ⟨⟨hne, -⟩, rfl⟩ := tick_eq_some.mp hb
  obtain ⟨hv, hlt, hdegree, hfeasible⟩ | ⟨-, hge, -⟩ | hv :=
    a.visit_cases capacities order targetSum
  · rw [hv]
    intro k
    obtain hk | hk := Nat.lt_or_ge (capacities.length * 4) k
    · exact hhead a ⟨es, ha⟩ hlt hdegree hfeasible k hk
    · exact feasible_iff.mp hfeasible k hk
  · omega
  · rw [hv]
    exact hbi

/-- And a prefix that one increment broke is still broken at the end. -/
theorem headDecides_of_bigraphic (hnames : Names n order) (hbal : Balanced n s)
    {fuel : ℕ} (hfuel : visits targetSum s ≤ fuel)
    (h : closeGap capacities order targetSum fuel s = .ok after)
    (hbi : Bigraphic capacities after.degrees) : HeadDecides capacities order targetSum s := by
  intro hlt hdegree hfeasible k _
  cases fuel with
  | zero => exact absurd (hbal.visits_pos targetSum) (Nat.not_lt.mpr hfuel)
  | succ fuel =>
    obtain ⟨hsum, -⟩ | ⟨s', hstep, h⟩ := closeGap_succ_eq_ok.mp h
    · exact absurd hsum (Nat.ne_of_lt hlt)
    have hbal' := hbal.visit hnames hstep
    have hlts := visits_lt hstep
    have hle := tick_le_target hlt.le hstep
    have hreach := (closeGap_eq_ok hnames hbal' (by omega) h).1
    have hvisit : s' = s.raise order := by
      rw [← (tick_eq_some.mp hstep).2, Balance.visit, if_pos hlt, if_pos hdegree,
        if_pos hfeasible]
    rw [← show s'.degrees = s.raised order by rw [hvisit]; rfl]
    exact (reaches_topSum_le hnames hbal' hle hreach k).trans (hbi k)

end Runs

theorem balanced_start {low : List ℕ} (hpos : ∀ d ∈ low, 1 ≤ d) (tenants : Finset ℕ) :
    Balanced low.length (Balance.start low tenants) := ⟨rfl, rfl, hpos, Nat.zero_le _⟩

/-- **When the repair is one.**  What `repair` returns has the sum it was asked for.  It meets the
condition of Gale and Ryser exactly when no increment that passed the head test broke a longer
prefix. -/
theorem repair_sound {seed : UInt64} {after : List ℕ} {tenants : Finset ℕ}
    (h : repair degrees capacities capacities.sum seed = .ok (after, tenants)) :
    after.sum = capacities.sum ∧
      (Bigraphic capacities after ↔ HeadSuffices degrees capacities capacities.sum seed) := by
  obtain ⟨low, lowTenants, s, hlow, hlen, hbi, hpos, hs, rfl⟩ := repair_eq_ok h
  have hnames : Names low.length (visitOrder seed degrees.length) :=
    hlen ▸ names_visitOrder seed degrees.length
  have hbal := balanced_start hpos lowTenants
  obtain ⟨hreach, hcurrent⟩ := closeGap_eq_ok hnames hbal le_rfl hs
  have hreachable : ∀ {a}, Lts.Reaches (tick capacities (visitOrder seed degrees.length)
      capacities.sum) (Balance.start low lowTenants) a → Balanced low.length a := fun ha =>
    ha.inv (fun _ _ _ hstep hi => hi.visit hnames hstep) hbal
  refine ⟨(hreachable hreach).current.symm.trans hcurrent, fun hafter a ha => ?_, fun hhead => ?_⟩
  · obtain ⟨low', lowTenants', hlow', ha⟩ := ha
    cases hlow.symm.trans hlow'
    obtain ⟨fuel, hfuel, hend⟩ := closeGap_of_reaches ha le_rfl hs
    exact headDecides_of_bigraphic hnames (hreachable ha) hfuel hend hafter
  · exact bigraphic_of_headDecides hbi hbi.sum_le
      (fun a ha => hhead a ⟨low, lowTenants, hlow, ha⟩) hreach

/-- The head is enough for these parts and so many tenants: at every longer prefix `k`, what the
parts keep for the tenants after it is no more than one edge for each of them, or `k` tenants fit
that have no more than the head's average from its end on. -/
def HeadEnough (capacities : List ℕ) (tenants : ℕ) : Prop :=
  let head := capacities.length * 4
  ∀ k, head < k → k ≤ tenants →
    (capacities.map (· - k)).sum ≤ tenants - k ∨
    rhs capacities head + (k - head) * (rhs capacities head / head) ≤ rhs capacities k

/-- What `k` tenants cannot take of the parts is kept for the others. -/
theorem rhs_add_sum_tsub (capacities : List ℕ) (k : ℕ) :
    rhs capacities k + (capacities.map (· - k)).sum = capacities.sum := by
  have hsplit : ∀ c ∈ capacities, min c k + (c - k) = c := fun c _ =>
    (Nat.add_comm _ _).trans (Nat.sub_add_min_cancel c k)
  rw [rhs, ← List.sum_map_add, List.map_congr_left hsplit, List.map_id']

/-- Degrees that pass the head test, none of them zero and with no greater sum than the parts, meet
the condition where the head is enough. -/
theorem topSum_le_of_headEnough (henough : HeadEnough capacities degrees.length)
    (hfeasible : feasible degrees capacities = true) (hpos : ∀ d ∈ degrees, 1 ≤ d)
    (hsum : degrees.sum ≤ capacities.sum) : Bigraphic capacities degrees := by
  have hhead := feasible_iff.mp hfeasible
  intro k
  refine topSum_le_rhs (fun j hj => ?_) k le_rfl
  obtain hin | hbeyond := Nat.lt_or_ge (capacities.length * 4) (j + 1)
  swap
  · exact hhead _ hbeyond
  obtain hkept | haverage := henough (j + 1) hin (by omega)
  · -- every tenant after the prefix has an edge at least
    have hrest := List.topSum_add_le_sum hpos (j + 1)
    have hparts := rhs_add_sum_tsub capacities (j + 1)
    omega
  · -- from the end of the head on, no degree is above its average
    obtain hnone | hsome := Nat.eq_zero_or_pos (capacities.length * 4)
    · obtain rfl : capacities = [] := List.length_eq_zero_iff.mp (by omega)
      exact (List.topSum_le_sum _ _).trans (hsum.trans (Nat.zero_le _))
    · calc degrees.topSum (j + 1)
          ≤ degrees.topSum (capacities.length * 4) + (j + 1 - capacities.length * 4) *
              (degrees.topSum (capacities.length * 4) / (capacities.length * 4)) :=
            degrees.topSum_le_average hsome hin.le
        _ ≤ rhs capacities (capacities.length * 4) + (j + 1 - capacities.length * 4) *
              (rhs capacities (capacities.length * 4) / (capacities.length * 4)) :=
            Nat.add_le_add (hhead _ le_rfl)
              (Nat.mul_le_mul_left _ (Nat.div_le_div_right (hhead _ le_rfl)))
        _ ≤ rhs capacities (j + 1) := haverage

/-- Where the head is enough, it is enough in every state of the loop. -/
theorem headSuffices_of_headEnough {seed : UInt64}
    (henough : HeadEnough capacities degrees.length) :
    HeadSuffices degrees capacities capacities.sum seed := by
  rintro a ⟨low, lowTenants, hlow, hreach⟩ hlt hdegree hfeasible k -
  obtain ⟨hlen, -, hpos⟩ := lowered_eq_ok (fun hparts => by omega) hlow
  have hnames : Names low.length (visitOrder seed degrees.length) :=
    hlen ▸ names_visitOrder seed degrees.length
  have hbal : Balanced low.length a := hreach.inv
    (fun _ _ _ hstep hi => hi.visit hnames hstep) (balanced_start hpos lowTenants)
  have hraised : (a.raised (visitOrder seed degrees.length)).length = degrees.length :=
    List.length_set.trans (hbal.length.trans hlen)
  have hsum := a.sum_raised_le (visitOrder seed degrees.length)
  have hcurrent := hbal.current
  exact topSum_le_of_headEnough (by rwa [hraised]) hfeasible
    (pos_set _ (Nat.succ_pos _) hbal.pos) (by omega) k

end Ukiel.Synth
