/-
# Slices and patches

A file is a list of bytes, a range read takes a SLICE of it and a positioned write PATCHES it.
Slices of slices are slices, consecutive slices join, and a slice of a prefix is a slice of the
whole; a patch is seen inside its range and nowhere else.  So pieces written in any order, each
at its own offset, make up the file they were cut from (`eq_flatten_of_pieces`).  A decoder that
moves a position along the bytes finds there, one after the other, the pieces that were written
one after the other (`At`).
-/
import Mathlib.Data.List.Basic
import Mathlib.Data.List.Flatten
import Mathlib.Data.List.Induction
import Mathlib.Algebra.BigOperators.Group.List.Basic
import Mathlib.Algebra.GroupWithZero.Nat
import Mathlib.Tactic.Basic

namespace List

variable {α : Type}

/-! ## 1. Slices -/

/-- The elements at positions `lo` up to `hi`, without `hi`. -/
def slice (l : List α) (lo hi : Nat) : List α := (l.drop lo).take (hi - lo)

theorem length_slice {l : List α} {lo hi : Nat} (h : hi ≤ l.length) :
    (l.slice lo hi).length = hi - lo := by
  rw [slice, length_take, length_drop]
  omega

theorem getElem?_slice (l : List α) (lo hi j : Nat) :
    (l.slice lo hi)[j]? = if j < hi - lo then l[lo + j]? else none := by
  rw [slice, getElem?_take]
  split
  · rw [getElem?_drop]
  · rfl

@[simp] theorem slice_self (l : List α) (a : Nat) : l.slice a a = [] := by simp [slice]

@[simp] theorem slice_length (l : List α) : l.slice 0 l.length = l := by simp [slice]

theorem slice_append {l : List α} {a b c : Nat} (hab : a ≤ b) (hbc : b ≤ c) :
    l.slice a b ++ l.slice b c = l.slice a c := by
  have hsplit : c - a = (b - a) + (c - b) := by omega
  have hdrop : l.drop b = (l.drop a).drop (b - a) := by
    rw [drop_drop]
    congr 1
    omega
  rw [slice, slice, slice, hsplit, hdrop, take_add]

/-- A part of a slice, given by its positions in the whole. -/
theorem slice_slice {l : List α} {a b lo hi : Nat} (ha : a ≤ lo) (hb : hi ≤ b) :
    (l.slice a b).slice (lo - a) (hi - a) = l.slice lo hi := by
  refine List.ext_getElem? fun j => ?_
  simp only [getElem?_slice]
  by_cases hj : j < hi - lo
  · rw [if_pos (by omega), if_pos (by omega), if_pos hj]
    congr 1
    omega
  · rw [if_neg (by omega), if_neg hj]

/-- A prefix has the slices that end inside it. -/
theorem IsPrefix.slice_eq {p l : List α} (h : p <+: l) {lo hi : Nat} (hhi : hi ≤ p.length) :
    p.slice lo hi = l.slice lo hi := by
  obtain ⟨rest, rfl⟩ := h
  refine List.ext_getElem? fun j => ?_
  simp only [getElem?_slice]
  split
  · rw [getElem?_append_left (by omega)]
  · rfl

/-! ## 2. Patches -/

/-- `p` written over `l` at an offset; what lies between the end of `l` and the offset becomes
`z`. -/
def patch (z : α) (l : List α) (off : Nat) (p : List α) : List α :=
  (l ++ replicate (off - l.length) z).take off ++ (p ++ l.drop (off + p.length))

theorem patch_inside (z : α) (l p : List α) {off j : Nat} (hj : j < p.length) :
    (l.patch z off p)[off + j]? = p[j]? := by
  have hlen : ((l ++ replicate (off - l.length) z).take off).length = off := by
    rw [length_take, length_append, length_replicate]
    omega
  rw [patch, getElem?_append_right (by omega), hlen, Nat.add_sub_cancel_left,
    getElem?_append_left hj]

theorem patch_before (z : α) (l p : List α) {off j : Nat} (hj : j < off) (hl : j < l.length) :
    (l.patch z off p)[j]? = l[j]? := by
  have hlen : ((l ++ replicate (off - l.length) z).take off).length = off := by
    rw [length_take, length_append, length_replicate]
    omega
  rw [patch, getElem?_append_left (by omega), getElem?_take_of_lt hj, getElem?_append_left hl]

theorem patch_after (z : α) (l p : List α) {off j : Nat} (hj : off + p.length ≤ j) :
    (l.patch z off p)[j]? = l[j]? := by
  have hlen : ((l ++ replicate (off - l.length) z).take off).length = off := by
    rw [length_take, length_append, length_replicate]
    omega
  rw [patch, getElem?_append_right (by omega), hlen, getElem?_append_right (by omega),
    getElem?_drop]
  congr 1
  omega

/-- A patch leaves alone what is outside its range. -/
theorem patch_outside (z : α) (l p : List α) {off j : Nat} (hl : j < l.length)
    (hj : j < off ∨ off + p.length ≤ j) : (l.patch z off p)[j]? = l[j]? := by
  rcases hj with hj | hj
  · exact patch_before z l p hj hl
  · exact patch_after z l p hj

@[simp] theorem patch_nil (z : α) (p : List α) : ([] : List α).patch z 0 p = p := by
  simp [patch]

theorem length_patch_le {z : α} {l p : List α} {off n : Nat} (hl : l.length ≤ n)
    (hp : off + p.length ≤ n) : (l.patch z off p).length ≤ n := by
  simp only [patch, length_append, length_take, length_replicate, length_drop]
  omega

/-! ## 3. Pieces -/

/-- Where piece `k` begins. -/
def offset (ps : List (List α)) (k : Nat) : Nat := ((ps.take k).map length).sum

theorem offset_append_of_le {ps qs : List (List α)} {k : Nat} (hk : k ≤ ps.length) :
    (ps ++ qs).offset k = ps.offset k := by
  rw [offset, take_append_of_le_length hk, offset]

theorem offset_length (ps : List (List α)) : ps.offset ps.length = ps.flatten.length := by
  rw [offset, take_length, length_flatten]

theorem offset_succ {ps : List (List α)} {k : Nat} {p : List α} (hk : ps[k]? = some p) :
    ps.offset (k + 1) = ps.offset k + p.length := by
  rw [offset, offset, take_add_one, hk]
  simp

theorem offset_mono {ps : List (List α)} {j k : Nat} (h : j ≤ k) : ps.offset j ≤ ps.offset k := by
  rw [offset, offset, ← Nat.add_sub_cancel' h, take_add, map_append, sum_append]
  exact Nat.le_add_right _ _

/-- Different pieces do not overlap. -/
theorem offset_disjoint {ps : List (List α)} {j k : Nat} {p q : List α} (hj : ps[j]? = some p)
    (hk : ps[k]? = some q) (hne : j ≠ k) :
    ps.offset j + p.length ≤ ps.offset k ∨ ps.offset k + q.length ≤ ps.offset j := by
  rcases Nat.lt_or_gt_of_ne hne with hlt | hlt
  · exact Or.inl (offset_succ hj ▸ offset_mono hlt)
  · exact Or.inr (offset_succ hk ▸ offset_mono hlt)

/-- The list holds the piece at the offset. -/
def Holds (l : List α) (off : Nat) (p : List α) : Prop := ∀ j < p.length, l[off + j]? = p[j]?

theorem holds_patch (z : α) (l p : List α) (off : Nat) : (l.patch z off p).Holds off p :=
  fun _ hj => patch_inside z l p hj

/-- Writing another piece elsewhere takes nothing away. -/
theorem Holds.patch {l p q : List α} {off off' : Nat} (h : l.Holds off p)
    (hd : off + p.length ≤ off' ∨ off' + q.length ≤ off) (z : α) :
    (l.patch z off' q).Holds off p := by
  intro j hj
  have hget : l[off + j]? = some p[j] := (h j hj).trans (getElem?_eq_getElem hj)
  obtain ⟨hlt, -⟩ := List.getElem?_eq_some_iff.mp hget
  rw [patch_outside z l q hlt (by omega)]
  exact h j hj

/-- **All pieces in place make up the whole**, if there is nothing behind them. -/
theorem eq_flatten_of_pieces {ps : List (List α)} :
    ∀ {l : List α}, l.length = ps.flatten.length →
      (∀ k p, ps[k]? = some p → l.Holds (ps.offset k) p) → l = ps.flatten := by
  induction ps using List.reverseRecOn with
  | nil =>
    intro l hlen _
    exact List.eq_nil_of_length_eq_zero hlen
  | append_singleton ps p ih =>
    intro l hlen hpieces
    have hlast : l.Holds ps.flatten.length p := by
      have h := hpieces ps.length p (by simp)
      rwa [offset_append_of_le (Nat.le_refl _), offset_length] at h
    rw [flatten_append, flatten_singleton] at hlen ⊢
    rw [length_append] at hlen
    have hinit : l.take ps.flatten.length = ps.flatten := by
      refine ih (by rw [length_take]; omega) ?_
      intro k q hk j hj
      have hklt : k < ps.length := (List.getElem?_eq_some_iff.mp hk).1
      have h := hpieces k q (by rw [getElem?_append_left hklt]; exact hk) j hj
      rw [offset_append_of_le (Nat.le_of_lt hklt)] at h
      rw [← h, getElem?_take_of_lt]
      have hend : ps.offset (k + 1) ≤ ps.offset ps.length := offset_mono hklt
      rw [offset_succ hk, offset_length] at hend
      omega
    have htail : l.drop ps.flatten.length = p := by
      refine List.ext_getElem? fun j => ?_
      rw [getElem?_drop]
      by_cases hj : j < p.length
      · exact hlast j hj
      · rw [getElem?_eq_none (by omega), getElem?_eq_none (by omega)]
    calc l = l.take ps.flatten.length ++ l.drop ps.flatten.length := (take_append_drop _ _).symm
      _ = ps.flatten ++ p := by rw [hinit, htail]

/-! ## 3. Positions -/

/-- At the position, which is none behind the end, the list goes on with the piece. -/
def At (l : List α) (pos : Nat) (piece : List α) : Prop := pos ≤ l.length ∧ piece <+: l.drop pos

theorem at_zero (l : List α) : l.At 0 l := ⟨Nat.zero_le _, prefix_rfl⟩

/-- Behind a piece comes the next one. -/
theorem At.append {l p q : List α} {pos : Nat} (h : l.At pos (p ++ q)) :
    l.At pos p ∧ l.At (pos + p.length) q := by
  obtain ⟨hpos, rest, hrest⟩ := h
  have hlen := congrArg length hrest
  rw [length_append, length_append, length_drop] at hlen
  refine ⟨⟨hpos, q ++ rest, by rw [← hrest, append_assoc]⟩, by omega, rest, ?_⟩
  rw [← drop_drop, ← hrest, append_assoc, drop_left]

theorem At.cons {l p : List α} {a : α} {pos : Nat} (h : l.At pos (a :: p)) :
    l[pos]? = some a ∧ l.At (pos + 1) p := by
  obtain ⟨⟨-, rest, hrest⟩, hp⟩ := @At.append _ l [a] p pos h
  refine ⟨?_, hp⟩
  have hhead := congrArg (·[0]?) hrest
  rw [singleton_append, getElem?_cons_zero, getElem?_drop, Nat.add_zero] at hhead
  exact hhead.symm

theorem At.le {l p : List α} {pos : Nat} (h : l.At pos p) : pos + p.length ≤ l.length := by
  obtain ⟨hpos, hp⟩ := h
  have hlen := hp.length_le
  rw [length_drop] at hlen
  omega

theorem At.slice_eq {l p : List α} {pos : Nat} (h : l.At pos p) :
    l.slice pos (pos + p.length) = p := by
  obtain ⟨-, rest, hrest⟩ := h
  rw [slice, ← hrest, Nat.add_sub_cancel_left, take_left]

end List
