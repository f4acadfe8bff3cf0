/-
# The pinned generator

`rng.rs` writes its generator out, so that a seed names one fixture for good: SplitMix64 over
64-bit words, a stream for each phase, Lemire's `below`, and the one shuffle of the tool.

* §1 the words and their streams;
* §2 `below`: its rejection loop ENDS, since the state runs through every word and one of them
  is always accepted; and no answer comes from more of the accepted words than another
  (`below_uniform`);
* §3 the shuffle, a permutation.
-/
import Mathlib.Algebra.Group.Nat.Defs
import Mathlib.Data.List.Perm.Basic
import Mathlib.Algebra.Order.Floor.Div
import Mathlib.Order.Interval.Finset.Nat

namespace Ukiel.Synth

/-! ## 1. The words -/

structure StableRng where
  state : UInt64

/-- `2^64`: the number of words, and more draws than any rejection needs. -/
def modulus : ℕ := 2 ^ 64

/-- The increment of the state. -/
def gamma : UInt64 := 0x9e3779b97f4a7c15

def mix (z : UInt64) : UInt64 :=
  let z := (z ^^^ (z >>> 30)) * 0xbf58476d1ce4e5b9
  let z := (z ^^^ (z >>> 27)) * 0x94d049bb133111eb
  z ^^^ (z >>> 31)

/-- FNV-1a over the bytes of the name. -/
def fnv1a (domain : String) : UInt64 :=
  domain.toUTF8.data.toList.foldl (fun h b => (h ^^^ b.toUInt64) * 0x100000001b3)
    0xcbf29ce484222325

namespace StableRng

def stream (seed : UInt64) (domain : String) : StableRng := ⟨mix (seed ^^^ fnv1a domain)⟩

def nextU64 (rng : StableRng) : UInt64 × StableRng :=
  let state := rng.state + gamma
  (mix state, ⟨state⟩)

/-- The generator after `k` draws. -/
def skip (rng : StableRng) (k : ℕ) : StableRng := ⟨rng.state + UInt64.ofNat k * gamma⟩

theorem skip_zero (rng : StableRng) : rng.skip 0 = rng := by
  show StableRng.mk (rng.state + 0 * gamma) = rng
  rw [UInt64.zero_mul, UInt64.add_zero]

theorem skip_succ (rng : StableRng) (k : ℕ) : rng.skip (k + 1) = rng.nextU64.2.skip k := by
  have hone : UInt64.ofNat 1 = 1 := rfl
  simp only [skip, nextU64, UInt64.ofNat_add, hone, UInt64.add_mul, UInt64.one_mul, mk.injEq]
  rw [UInt64.add_assoc, UInt64.add_comm gamma]

/-! ## 2. `below` -/

/-- The rejection: draw until the low word is not below the threshold. -/
def reject (n threshold : ℕ) : ℕ → StableRng → ℕ → ℕ × StableRng
  | 0, rng, m => (m, rng)
  | fuel + 1, rng, m =>
    if m % modulus < threshold then
      reject n threshold fuel rng.nextU64.2 (rng.nextU64.1.toNat * n)
    else
      (m, rng)

/-- `n.wrapping_neg() % n`. -/
def threshold (n : ℕ) : ℕ := (modulus - n) % n

/-- Uniform in `[0, n)`.  The product is a `u128`, and its low word the cast to `u64`. -/
def below (rng : StableRng) (n : ℕ) : ℕ × StableRng :=
  let m := rng.nextU64.1.toNat * n
  let rng := rng.nextU64.2
  if m % modulus < n then
    let r := rng.reject n (threshold n) modulus m
    (r.1 / modulus, r.2)
  else
    (m / modulus, rng)

theorem draw_lt {n : ℕ} (hn : 0 < n) (x : UInt64) : x.toNat * n / modulus < n := by
  rw [Nat.div_lt_iff_lt_mul (by decide), Nat.mul_comm n]
  exact Nat.mul_lt_mul_of_pos_right x.toNat_lt hn

/-- The state whose draw is `1`. -/
def toOne : UInt64 := 0x966dbfc16913c5d2

/-- The inverse of the increment, modulo `2^64`. -/
def gammaInv : UInt64 := 0xf1de83e19937733d

theorem mix_toOne : mix toOne = 1 := by decide +kernel

theorem gammaInv_mul : gammaInv * gamma = 1 := by decide +kernel

/-- The increment is odd, so that every state comes, and the draw `1` with it. -/
theorem exists_draw_one (rng : StableRng) : ∃ k < modulus, (rng.skip k).nextU64.1 = 1 := by
  let k := (toOne - gamma - rng.state) * gammaInv
  refine ⟨k.toNat, k.toNat_lt, ?_⟩
  have hstate : (rng.skip k.toNat).state + gamma = toOne := by
    simp only [skip, UInt64.ofNat_toNat, k, UInt64.mul_assoc, gammaInv_mul, UInt64.mul_one]
    rw [UInt64.add_comm rng.state, UInt64.sub_add_cancel, UInt64.sub_add_cancel]
  rw [nextU64, hstate]
  exact mix_toOne

/-- The draw `1` is accepted at every bound. -/
theorem threshold_le_one {n : ℕ} (hn : 0 < n) (hlt : n < modulus) :
    threshold n ≤ (1 : UInt64).toNat * n % modulus := by
  rw [show (1 : UInt64).toNat = 1 from rfl, Nat.one_mul, Nat.mod_eq_of_lt hlt]
  exact Nat.le_of_lt (Nat.mod_lt _ hn)

/-- The word of the `k`-th draw from here. -/
def word (rng : StableRng) (k : ℕ) : UInt64 := (rng.skip k).nextU64.1

/-- The low word of the product is not below the threshold. -/
def Accepted (n x : ℕ) : Prop := threshold n ≤ x * n % modulus

instance (n x : ℕ) : Decidable (Accepted n x) := Nat.decLe _ _

theorem word_succ (rng : StableRng) (k : ℕ) : rng.word (k + 1) = rng.nextU64.2.word k := by
  rw [word, skip_succ, word]

theorem reject_accepted {n fuel : ℕ} {rng : StableRng} {x : UInt64} (hx : Accepted n x.toNat) :
    rng.reject n (threshold n) fuel (x.toNat * n) = (x.toNat * n, rng) := by
  cases fuel with
  | zero => rfl
  | succ fuel => rw [reject, if_neg (Nat.not_lt.mpr hx)]

/-- **The rejection** goes on to the first word that is accepted, if that comes in time. -/
theorem reject_eq {n fuel : ℕ} : ∀ {k : ℕ} {rng : StableRng} {x : UInt64}, k < fuel →
    ¬ Accepted n x.toNat → (∀ i < k, ¬ Accepted n (rng.word i).toNat) →
    Accepted n (rng.word k).toNat →
    rng.reject n (threshold n) fuel (x.toNat * n) = ((rng.word k).toNat * n, rng.skip (k + 1)) := by
  induction fuel with
  | zero => exact fun hk => absurd hk (Nat.not_lt_zero _)
  | succ fuel ih =>
    intro k rng x hk hx hfirst hacc
    rw [reject, if_pos (Nat.not_le.mp hx), skip_succ]
    cases k with
    | zero =>
      -- the draw is the accepted one, and no later one is made
      rw [word, skip_zero] at hacc ⊢
      rw [skip_zero]
      exact reject_accepted hacc
    | succ k =>
      have hzero : ¬ Accepted n rng.nextU64.1.toNat := by
        have hfirst := hfirst 0 (Nat.succ_pos k)
        rwa [word, skip_zero] at hfirst
      rw [word_succ] at hacc ⊢
      exact ih (Nat.succ_lt_succ_iff.mp hk) hzero
        (fun i hi => word_succ rng i ▸ hfirst (i + 1) (Nat.succ_lt_succ hi)) hacc

/-- Some word is accepted before the generator has gone through all of them. -/
theorem exists_accepted (rng : StableRng) {n : ℕ} (hn : 0 < n) (hlt : n < modulus) :
    ∃ k < modulus, Accepted n (rng.word k).toNat := by
  obtain ⟨k, hk, hone⟩ := exists_draw_one rng
  exact ⟨k, hk, by rw [word, hone]; exact threshold_le_one hn hlt⟩

/-- **The accepted words of an answer** are as many for each. -/
theorem card_accepted {n : ℕ} (hn : 0 < n) (hlt : n < modulus) {j : ℕ} (hj : j < n) :
    ((Finset.range modulus).filter fun x => Accepted n x ∧ x * n / modulus = j).card =
      modulus / n := by
  obtain ⟨M, hM⟩ : ∃ M, M = modulus := ⟨_, rfl⟩
  have hpos : 0 < M := hM ▸ by decide
  have hthreshold : threshold n = M % n := by
    rw [threshold, ← hM, ← Nat.mod_eq_sub_mod (hM ▸ hlt.le)]
  have hsplit : n * (M / n) + M % n = M := Nat.div_add_mod M n
  -- they are the multiples of `n` in a stretch whose length `n` divides
  have hmem : ∀ x, (Accepted n x ∧ x * n / M = j) ↔
      j * M + M % n ≤ x * n ∧ x * n < j * M + M % n + n * (M / n) := by
    intro x
    have hdiv := Nat.div_add_mod (x * n) M
    have hmod := Nat.mod_lt (x * n) hpos
    rw [Accepted, hthreshold, ← hM]
    constructor
    · rintro ⟨hacc, rfl⟩
      rw [Nat.mul_comm (x * n / M) M]
      omega
    · rintro ⟨hge, hlt⟩
      have hq : x * n / M = j :=
        Nat.div_eq_of_lt_le (by omega) (by rw [Nat.add_mul, Nat.one_mul]; omega)
      rw [hq, Nat.mul_comm M j] at hdiv
      omega
  have hset : ((Finset.range modulus).filter fun x => Accepted n x ∧ x * n / modulus = j) =
      Finset.Ico ((j * M + M % n) ⌈/⌉ n) ((j * M + M % n) ⌈/⌉ n + M / n) := by
    ext x
    rw [Finset.mem_filter, Finset.mem_range, ← hM, hmem, Finset.mem_Ico, ceilDiv_le_iff_le_mul hn,
      Nat.mul_comm x n]
    have hupper : n * x < j * M + M % n + n * (M / n) ↔ x < (j * M + M % n) ⌈/⌉ n + M / n := by
      rw [← not_iff_not, Nat.not_lt, Nat.not_lt]
      rcases Nat.lt_or_ge x (M / n) with hx | hx
      · have hmul := Nat.mul_lt_mul_of_pos_left hx hn
        exact iff_of_false (by omega) (by omega)
      · obtain ⟨y, rfl⟩ := Nat.exists_eq_add_of_le' hx
        rw [Nat.mul_add, Nat.add_le_add_iff_right, Nat.add_le_add_iff_right,
          ceilDiv_le_iff_le_mul hn]
    rw [hupper, and_iff_right_of_imp]
    rintro ⟨-, hx⟩
    have hanswer : (j + 1) * M ≤ n * M := Nat.mul_le_mul_right M hj
    rw [Nat.add_mul, Nat.one_mul] at hanswer
    exact Nat.lt_of_mul_lt_mul_left ((hupper.mpr hx).trans_le (by omega))
  rw [hset, Nat.card_Ico, Nat.add_sub_cancel_left, hM]

/-- **`below`**: it goes on to the first word that is accepted, which comes, and answers below
its bound; and every answer is that of equally many accepted words. -/
theorem below_uniform (rng : StableRng) {n : ℕ} (hn : 0 < n) (hlt : n < modulus) :
    (∃ k < modulus, (∀ i < k, ¬ Accepted n (rng.word i).toNat) ∧ Accepted n (rng.word k).toNat ∧
      rng.below n = ((rng.word k).toNat * n / modulus, rng.skip (k + 1))) ∧
    (rng.below n).1 < n ∧
    ∀ j < n, ((Finset.range modulus).filter fun x => Accepted n x ∧ x * n / modulus = j).card =
      modulus / n := by
  have hrun : ∃ k < modulus, (∀ i < k, ¬ Accepted n (rng.word i).toNat) ∧
      Accepted n (rng.word k).toNat ∧
      rng.below n = ((rng.word k).toNat * n / modulus, rng.skip (k + 1)) := by
    have hexists : ∃ k, Accepted n (rng.word k).toNat :=
      (exists_accepted rng hn hlt).imp fun _ h => h.2
    obtain ⟨bound, hbound, haccepted⟩ := exists_accepted rng hn hlt
    have hfirst : ∀ i < Nat.find hexists, ¬ Accepted n (rng.word i).toNat :=
      fun i hi => Nat.find_min hexists hi
    refine ⟨Nat.find hexists, (Nat.find_min' hexists haccepted).trans_lt hbound, hfirst,
      Nat.find_spec hexists, ?_⟩
    have hacc := Nat.find_spec hexists
    have hlt' := (Nat.find_min' hexists haccepted).trans_lt hbound
    generalize Nat.find hexists = k at hfirst hacc hlt'
    cases k with
    | zero =>
      rw [word, skip_zero] at hacc ⊢
      rw [skip_succ, skip_zero, below]
      simp only
      rw [reject_accepted hacc, ite_self]
    | succ k =>
      have hzero : ¬ Accepted n rng.nextU64.1.toNat := by
        have hfirst := hfirst 0 (Nat.succ_pos k)
        rwa [word, skip_zero] at hfirst
      rw [word_succ] at hacc ⊢
      have hlow : rng.nextU64.1.toNat * n % modulus < n :=
        (Nat.not_le.mp hzero).trans (Nat.mod_lt _ hn)
      rw [below]
      simp only
      rw [if_pos hlow, reject_eq (Nat.lt_of_succ_lt hlt') hzero
        (fun i hi => word_succ rng i ▸ hfirst (i + 1) (Nat.succ_lt_succ hi)) hacc, ← skip_succ]
  refine ⟨hrun, ?_, fun j hj => card_accepted hn hlt hj⟩
  obtain ⟨k, -, -, -, hbelow⟩ := hrun
  rw [hbelow]
  exact draw_lt hn _

/-- Ten does not divide the number of words; every digit is still as likely as another. -/
theorem below_uniform_ten : (below ⟨7⟩ 10).1 < 10 ∧
    ∀ j < 10, ((Finset.range modulus).filter fun x =>
      Accepted 10 x ∧ x * 10 / modulus = j).card = 1844674407370955161 :=
  have h := below_uniform ⟨7⟩ (n := 10) (by decide) (by decide)
  ⟨h.2.1, h.2.2⟩

/-! ## 3. The shuffle -/

variable {α : Type}

/-- `items.swap(i, j)`. -/
def swap (items : List α) (i j : ℕ) : List α :=
  match items[i]?, items[j]? with
  | some a, some b => (items.set i b).set j a
  | _, _ => items

theorem swap_perm (items : List α) (i j : ℕ) : (swap items i j).Perm items := by
  unfold swap
  split
  · next a b hi hj =>
    obtain ⟨hlti, rfl⟩ := List.getElem?_eq_some_iff.mp hi
    obtain ⟨hltj, rfl⟩ := List.getElem?_eq_some_iff.mp hj
    exact List.set_set_perm hlti hltj
  · rfl

/-- The swaps of the positions from `i` down to `1`. -/
def shuffleFrom : ℕ → StableRng → List α → List α
  | 0, _, items => items
  | i + 1, rng, items =>
    let j := rng.below (i + 2)
    shuffleFrom i j.2 (swap items (i + 1) j.1)

/-- In-place Fisher–Yates.  No caller draws from the generator again. -/
def shuffle (rng : StableRng) (items : List α) : List α :=
  shuffleFrom (items.length - 1) rng items

theorem shuffleFrom_perm : ∀ (i : ℕ) (rng : StableRng) (items : List α),
    (shuffleFrom i rng items).Perm items
  | 0, _, _ => .refl _
  | i + 1, _, items => (shuffleFrom_perm i _ _).trans (swap_perm items _ _)

theorem shuffle_perm (rng : StableRng) (items : List α) : (rng.shuffle items).Perm items :=
  shuffleFrom_perm _ rng items

end StableRng

end Ukiel.Synth
