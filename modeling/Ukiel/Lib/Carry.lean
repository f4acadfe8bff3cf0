/-
# Counters that carry

A counter has a number at every level.  A level that is full, with at least as many as its
trigger and not empty, can be carried: it is emptied, and the level above gets one more.  The
lowest full level goes first.

Carrying never has to go back (`Lowest.lt`), so it ends, unless a carry goes over the top level.
Whether it will can be read off the counter before the first carry (`Spills`): from some full
level up to the top every level is at most one short of its trigger.
-/
import Mathlib.Data.Int.Order.Basic
import Mathlib.Tactic.Basic

namespace Carry

variable {trigger : Int → Nat} {top : Int} {r : Int → Nat} {L M : Int}

/-- The level can be carried. -/
def Full (trigger : Int → Nat) (r : Int → Nat) (L : Int) : Prop := 1 ≤ r L ∧ trigger L ≤ r L

/-- The lowest level that can be. -/
structure Lowest (trigger : Int → Nat) (r : Int → Nat) (L : Int) : Prop where
  full : Full trigger r L
  least : ∀ M < L, ¬ Full trigger r M

/-- The counter after the carry of a level. -/
def carry (r : Int → Nat) (L : Int) : Int → Nat :=
  fun M => if M = L then 0 else if M = L + 1 then r M + 1 else r M

/-- A carry from some level will go over the top. -/
def Spills (trigger : Int → Nat) (top : Int) (r : Int → Nat) : Prop :=
  ∃ L ≤ top, Full trigger r L ∧ ∀ M, L < M → M ≤ top → trigger M ≤ r M + 1

@[simp] theorem carry_self : carry r L L = 0 := by simp [carry]

@[simp] theorem carry_succ : carry r L (L + 1) = r (L + 1) + 1 := by
  unfold carry
  rw [if_neg (by omega), if_pos rfl]

theorem carry_of_lt (h : M < L) : carry r L M = r M := by
  unfold carry
  rw [if_neg (by omega), if_neg (by omega)]

theorem carry_of_succ_lt (h : L + 1 < M) : carry r L M = r M := by
  unfold carry
  rw [if_neg (by omega), if_neg (by omega)]

theorem Lowest.unique (h : Lowest trigger r L) (h' : Lowest trigger r M) : L = M := by
  rcases lt_trichotomy L M with hlt | heq | hgt
  · exact absurd h.full (h'.least L hlt)
  · exact heq
  · exact absurd h'.full (h.least M hgt)

/-- **The next carry is higher up.** -/
theorem Lowest.lt (h : Lowest trigger r L) (h' : Full trigger (carry r L) M) : L < M := by
  by_contra hle
  rcases lt_or_eq_of_le (not_lt.mp hle) with hlt | rfl
  · have hsame := carry_of_lt (r := r) hlt
    exact h.least M hlt ⟨hsame ▸ h'.1, hsame ▸ h'.2⟩
  · have := h'.1
    rw [carry_self] at this
    omega

/-- **A carry below the top changes nothing about what will happen there.** -/
theorem Lowest.spills_carry_iff (h : Lowest trigger r L) (hL : L < top) :
    Spills trigger top (carry r L) ↔ Spills trigger top r := by
  constructor
  · rintro ⟨K, hK, hfull, habove⟩
    have hLK := h.lt hfull
    by_cases hnext : K = L + 1
    · -- the level above got full by this very carry
      subst hnext
      refine ⟨L, le_of_lt hL, h.full, ?_⟩
      intro M hLM hM
      by_cases hM' : M = L + 1
      · have := hfull.2
        rw [carry_succ] at this
        exact hM' ▸ this
      · have := habove M (by omega) hM
        rwa [carry_of_succ_lt (by omega)] at this
    · have hsame : ∀ M, K ≤ M → carry r L M = r M := fun M hM => carry_of_succ_lt (by omega)
      refine ⟨K, hK, ⟨hsame K le_rfl ▸ hfull.1, hsame K le_rfl ▸ hfull.2⟩, ?_⟩
      intro M hKM hM
      exact hsame M (le_of_lt hKM) ▸ habove M hKM hM
  · rintro ⟨K, hK, hfull, habove⟩
    have hLK : L ≤ K := by
      by_contra hlt
      exact h.least K (not_le.mp hlt) hfull
    -- if the carry was of that level, the one above is full now
    by_cases hnear : K ≤ L + 1
    · refine ⟨L + 1, by omega, ⟨by rw [carry_succ]; omega, ?_⟩, ?_⟩
      · rw [carry_succ]
        rcases Int.le_iff_lt_or_eq.mp hnear with hlt | rfl
        · have hKL : K = L := by omega
          subst hKL
          exact habove (K + 1) (by omega) (by omega)
        · have := hfull.2
          omega
      · intro M hLM hM
        rw [carry_of_succ_lt hLM]
        exact habove M (by omega) hM
    · have hsame : ∀ M, K ≤ M → carry r L M = r M := fun M hM => carry_of_succ_lt (by omega)
      refine ⟨K, hK, ⟨(hsame K le_rfl).symm ▸ hfull.1, (hsame K le_rfl).symm ▸ hfull.2⟩, ?_⟩
      intro M hKM hM
      exact (hsame M (le_of_lt hKM)).symm ▸ habove M hKM hM

/-- A full top level spills. -/
theorem Full.spills (h : Full trigger r top) : Spills trigger top r :=
  ⟨top, le_rfl, h, fun M hlt hle => by omega⟩

/-- How many carries there can be yet. -/
noncomputable def rank (trigger : Int → Nat) (top : Int) (r : Int → Nat) : Nat :=
  open Classical in
  if h : ∃ L, Lowest trigger r L then (top + 1 - h.choose).toNat else 0

theorem Lowest.rank (h : Lowest trigger r L) : rank trigger top r = (top + 1 - L).toNat := by
  have hex : ∃ L, Lowest trigger r L := ⟨L, h⟩
  unfold Carry.rank
  rw [dif_pos hex, hex.choose_spec.unique h]

theorem rank_of_none (h : ∀ L, ¬ Lowest trigger r L) : rank trigger top r = 0 := by
  unfold Carry.rank
  rw [dif_neg (not_exists.mpr h)]

/-- **Carrying ends.** -/
theorem Lowest.rank_carry_lt (h : Lowest trigger r L) (hL : L ≤ top) :
    Carry.rank trigger top (carry r L) < Carry.rank trigger top r := by
  rw [h.rank]
  by_cases hnext : ∃ K, Lowest trigger (carry r L) K
  · obtain ⟨K, hK⟩ := hnext
    have := h.lt hK.full
    rw [hK.rank]
    omega
  · rw [rank_of_none (not_exists.mp hnext)]
    omega

end Carry
