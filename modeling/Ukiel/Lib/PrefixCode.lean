/-
# Prefix codes

An encoding whose concatenations can be taken apart again: if `enc x ++ u = enc y ++ v` then
`x = y` and `u = v`.  Codes compose (one after the other, behind a tag, behind a length), and a
concatenation of code words determines their list.  Nothing here says what is encoded.

Lengths and integers are written in a fixed number of bytes, most significant first, so a value
is recovered only below the width: the conditions are the sets the codes are codes ON.
-/
import Mathlib.Algebra.Group.Nat.Defs
import Mathlib.Data.List.Basic
import Mathlib.Data.Set.Prod
import Mathlib.Data.Set.Function
import Mathlib.Tactic.Basic

variable {α β γ : Type}

/-- `enc` is a prefix code on the values in `S`. -/
def PrefixCode (S : Set α) (enc : α → List β) : Prop :=
  ∀ x ∈ S, ∀ y ∈ S, ∀ u v, enc x ++ u = enc y ++ v → x = y ∧ u = v

namespace PrefixCode

variable {S : Set α} {T : Set γ} {f : α → List β} {g : γ → List β}

theorem injOn (h : PrefixCode S f) : Set.InjOn f S := by
  intro x hx y hy heq
  exact (h x hx y hy [] [] (by rw [heq])).1

theorem eq_iff (h : PrefixCode S f) {x y : α} (hx : x ∈ S) (hy : y ∈ S) : f x = f y ↔ x = y :=
  h.injOn.eq_iff hx hy

/-- Words of one length are told apart by their letters. -/
theorem of_length {n : Nat} (hlen : ∀ x ∈ S, (f x).length = n) (hinj : Set.InjOn f S) :
    PrefixCode S f := by
  intro x hx y hy u v h
  obtain ⟨hxy, huv⟩ := List.append_inj h ((hlen x hx).trans (hlen y hy).symm)
  exact ⟨hinj hx hy hxy, huv⟩

/-- One code after another. -/
theorem prod (hf : PrefixCode S f) (hg : PrefixCode T g) :
    PrefixCode (S ×ˢ T) fun p => f p.1 ++ g p.2 := by
  rintro ⟨a, c⟩ ⟨ha, hc⟩ ⟨b, d⟩ ⟨hb, hd⟩ u v h
  rw [List.append_assoc, List.append_assoc] at h
  obtain ⟨rfl, hrest⟩ := hf a ha b hb _ _ h
  obtain ⟨rfl, huv⟩ := hg c hc d hd u v hrest
  exact ⟨rfl, huv⟩

/-- Behind a fixed word, such as a tag. -/
theorem tagged (hf : PrefixCode S f) (tag : List β) : PrefixCode S fun x => tag ++ f x := by
  intro x hx y hy u v h
  rw [List.append_assoc, List.append_assoc] at h
  exact hf x hx y hy u v (List.append_cancel_left h)

/-- Read through a function that loses nothing. -/
theorem comap {e : γ → α} (hf : PrefixCode S f) (he : Set.MapsTo e T S) (hinj : Set.InjOn e T) :
    PrefixCode T fun x => f (e x) := by
  intro x hx y hy u v h
  obtain ⟨hxy, huv⟩ := hf (e x) (he hx) (e y) (he hy) u v h
  exact ⟨hinj hx hy hxy, huv⟩

/-- Behind its own length. -/
theorem delimited {len : Nat → List β} {N : Set Nat} (hlen : PrefixCode N len)
    (hN : ∀ x ∈ S, (f x).length ∈ N) (hinj : Set.InjOn f S) :
    PrefixCode S fun x => len (f x).length ++ f x := by
  intro x hx y hy u v h
  rw [List.append_assoc, List.append_assoc] at h
  obtain ⟨hl, hrest⟩ := hlen _ (hN x hx) _ (hN y hy) _ _ h
  obtain ⟨hxy, huv⟩ := List.append_inj hrest hl
  exact ⟨hinj hx hy hxy, huv⟩

/-- **A concatenation of code words determines the words**, when none of them is empty. -/
theorem flatMap_inj (hf : PrefixCode S f) (hne : ∀ x ∈ S, f x ≠ []) :
    ∀ {l₁ l₂ : List α}, (∀ x ∈ l₁, x ∈ S) → (∀ x ∈ l₂, x ∈ S) →
      l₁.flatMap f = l₂.flatMap f → l₁ = l₂ := by
  intro l₁
  induction l₁ with
  | nil =>
    intro l₂ _ h₂ h
    cases l₂ with
    | nil => rfl
    | cons y l₂ =>
      rw [List.flatMap_nil, List.flatMap_cons] at h
      exact absurd (List.append_eq_nil_iff.mp h.symm).1 (hne y (h₂ y List.mem_cons_self))
  | cons x l₁ ih =>
    intro l₂ h₁ h₂ h
    cases l₂ with
    | nil =>
      rw [List.flatMap_nil, List.flatMap_cons] at h
      exact absurd (List.append_eq_nil_iff.mp h).1 (hne x (h₁ x List.mem_cons_self))
    | cons y l₂ =>
      rw [List.flatMap_cons, List.flatMap_cons] at h
      obtain ⟨rfl, hrest⟩ := hf x (h₁ x List.mem_cons_self) y (h₂ y List.mem_cons_self) _ _ h
      rw [ih (fun z hz => h₁ z (List.mem_cons_of_mem x hz))
        (fun z hz => h₂ z (List.mem_cons_of_mem x hz)) hrest]

/-- As many code words on either side can be taken off both. -/
theorem flatMap_append_inj (hf : PrefixCode S f) :
    ∀ {l₁ l₂ : List α} {u v : List β}, l₁.length = l₂.length → (∀ x ∈ l₁, x ∈ S) →
      (∀ x ∈ l₂, x ∈ S) → l₁.flatMap f ++ u = l₂.flatMap f ++ v → l₁ = l₂ ∧ u = v := by
  intro l₁
  induction l₁ with
  | nil =>
    intro l₂ u v hlen _ _ h
    obtain rfl := List.length_eq_zero_iff.mp hlen.symm
    exact ⟨rfl, h⟩
  | cons x l₁ ih =>
    intro l₂ u v hlen h₁ h₂ h
    cases l₂ with
    | nil => cases hlen
    | cons y l₂ =>
      rw [List.flatMap_cons, List.flatMap_cons, List.append_assoc, List.append_assoc] at h
      obtain ⟨rfl, hrest⟩ := hf x (h₁ x List.mem_cons_self) y (h₂ y List.mem_cons_self) _ _ h
      obtain ⟨rfl, huv⟩ := ih (Nat.succ.inj hlen) (fun z hz => h₁ z (List.mem_cons_of_mem x hz))
        (fun z hz => h₂ z (List.mem_cons_of_mem x hz)) hrest
      exact ⟨rfl, huv⟩

/-- **A list behind its count** is a code word again. -/
theorem counted {len : Nat → List β} {N : Set Nat} (hlen : PrefixCode N len)
    (hf : PrefixCode S f) :
    PrefixCode {l : List α | l.length ∈ N ∧ ∀ x ∈ l, x ∈ S}
      fun l => len l.length ++ l.flatMap f := by
  rintro l₁ ⟨hn₁, h₁⟩ l₂ ⟨hn₂, h₂⟩ u v h
  rw [List.append_assoc, List.append_assoc] at h
  obtain ⟨hcount, hrest⟩ := hlen _ hn₁ _ hn₂ _ _ h
  exact hf.flatMap_append_inj hcount h₁ h₂ hrest

end PrefixCode

/-! ## Integers in a fixed number of bytes -/

/-- The low `w` bytes of `n`, most significant first. -/
def beBytes : Nat → Nat → List UInt8
  | 0, _ => []
  | w + 1, n => beBytes w (n / 256) ++ [UInt8.ofNat (n % 256)]

theorem length_beBytes (w n : Nat) : (beBytes w n).length = w := by
  induction w generalizing n with
  | zero => rfl
  | succ w ih => rw [beBytes, List.length_append, ih, List.length_singleton]

theorem beBytes_injOn (w : Nat) : Set.InjOn (beBytes w) {n | n < 256 ^ w} := by
  induction w with
  | zero =>
    intro m hm n hn _
    have hm0 : m < 1 := hm
    have hn0 : n < 1 := hn
    omega
  | succ w ih =>
    intro m hm n hn h
    have hm' : m < 256 ^ (w + 1) := hm
    have hn' : n < 256 ^ (w + 1) := hn
    rw [Nat.pow_succ] at hm' hn'
    simp only [beBytes] at h
    obtain ⟨hhi, hlo⟩ := List.append_inj h (by rw [length_beBytes, length_beBytes])
    have hquot : m / 256 = n / 256 :=
      ih (Nat.div_lt_of_lt_mul (by rwa [Nat.mul_comm] at hm'))
        (Nat.div_lt_of_lt_mul (by rwa [Nat.mul_comm] at hn')) hhi
    have hrem : m % 256 = n % 256 := by
      have hbyte := congrArg UInt8.toNat (List.cons.inj hlo).1
      rw [UInt8.toNat_ofNat_of_lt' (Nat.mod_lt _ (by decide)),
        UInt8.toNat_ofNat_of_lt' (Nat.mod_lt _ (by decide))] at hbyte
      exact hbyte
    omega

theorem prefixCode_beBytes (w : Nat) : PrefixCode {n | n < 256 ^ w} (beBytes w) :=
  PrefixCode.of_length (fun n _ => length_beBytes w n) (beBytes_injOn w)
