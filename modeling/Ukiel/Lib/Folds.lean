/-
# Loops that may fail

A loop over a list in `Option` or `Except` that has come to its end, read element by element.
-/
import Mathlib.Data.List.Forall2
import Mathlib.Tactic.Basic

/-- A computation goes on with the result of its first step. -/
theorem Except.bind_eq_ok_iff {ε α β : Type} {x : Except ε α} {f : α → Except ε β} {b : β} :
    (x >>= f) = .ok b ↔ ∃ a, x = .ok a ∧ f a = .ok b := by
  cases x <;> simp [bind, Except.bind]

theorem Except.mapError_eq_ok_iff {ε ε' α : Type} {x : Except ε α} {f : ε → ε'} {a : α} :
    x.mapError f = .ok a ↔ x = .ok a := by
  cases x <;> simp [Except.mapError]

theorem Except.map_eq_ok_iff {ε α β : Type} {x : Except ε α} {f : α → β} {b : β} :
    x.map f = .ok b ↔ ∃ a, x = .ok a ∧ f a = b := by
  cases x <;> simp [Except.map]

namespace List

variable {α β γ ε : Type}

/-- A loop that has come to its end, after its first round. -/
theorem foldlM_cons_eq_ok_iff {f : β → α → Except ε β} {a : α} {l : List α} {b c : β} :
    (a :: l).foldlM f b = .ok c ↔ ∃ b', f b a = .ok b' ∧ l.foldlM f b' = .ok c := by
  rw [foldlM_cons, Except.bind_eq_ok_iff]

/-- A map that may fail has succeeded: it has at every element. -/
theorem mapM_eq_some_iff {f : α → Option β} {l : List α} {out : List β} :
    l.mapM f = some out ↔ Forall₂ (fun a b => f a = some b) l out := by
  induction l generalizing out with
  | nil => cases out <;> simp
  | cons a l ih =>
    rw [mapM_cons]
    cases out with
    | nil => simp [Option.bind_eq_some_iff]
    | cons b out =>
      simp only [Option.pure_def, Option.bind_eq_bind, Option.bind_eq_some_iff, Option.some.injEq,
        cons.injEq, forall₂_cons]
      constructor
      · rintro ⟨b', hb, out', hout, rfl, rfl⟩
        exact ⟨hb, ih.mp hout⟩
      · rintro ⟨hb, hout⟩
        exact ⟨b, hb, out, ih.mpr hout, rfl, rfl⟩

/-- A map that has come to its end, as one that cannot fail. -/
theorem eq_map_of_mapM {f : α → Option β} {l : List α} {out : List β} (h : l.mapM f = some out)
    (d : β) : out = l.map fun a => (f a).getD d := by
  have hall := mapM_eq_some_iff.mp h
  clear h
  induction hall with
  | nil => rfl
  | cons hab _ ih => rw [map_cons, hab, ← ih, Option.getD_some]

theorem mapM_eq_ok_iff {f : α → Except ε β} {l : List α} {out : List β} :
    l.mapM f = .ok out ↔ Forall₂ (fun a b => f a = .ok b) l out := by
  induction l generalizing out with
  | nil => cases out <;> simp [pure, Except.pure]
  | cons a l ih =>
    rw [mapM_cons]
    cases out with
    | nil =>
      cases hf : f a <;> cases hl : l.mapM f <;> simp [bind, Except.bind, pure, Except.pure]
    | cons b out =>
      rw [forall₂_cons, ← ih]
      cases hf : f a <;> cases hl : l.mapM f <;> simp [bind, Except.bind, pure, Except.pure]

/-- A map that may fail comes to its end when it can at every element. -/
theorem mapM_isOk_iff {f : α → Except ε β} {l : List α} :
    (∃ out, l.mapM f = .ok out) ↔ ∀ a ∈ l, ∃ b, f a = .ok b := by
  simp only [mapM_eq_ok_iff]
  constructor
  · rintro ⟨out, hout⟩ a ha
    induction hout with
    | nil => cases ha
    | cons hab _ ih =>
      rcases mem_cons.mp ha with rfl | ha
      · exact ⟨_, hab⟩
      · exact ih ha
  · intro h
    induction l with
    | nil => exact ⟨[], .nil⟩
    | cons a l ih =>
      obtain ⟨b, hb⟩ := h a mem_cons_self
      obtain ⟨m, hm⟩ := ih fun a' ha' => h a' (mem_cons_of_mem a ha')
      exact ⟨b :: m, .cons hb hm⟩

/-- A check of every element has passed. -/
theorem forM_eq_ok_iff {f : α → Except ε Unit} {l : List α} :
    l.forM f = .ok () ↔ ∀ a ∈ l, f a = .ok () := by
  induction l with
  | nil => exact ⟨fun _ _ h => absurd h not_mem_nil, fun _ => rfl⟩
  | cons a l ih =>
    rw [forall_mem_cons, ← ih]
    show (f a >>= fun _ => l.forM f) = .ok () ↔ _
    cases hf : f a <;> simp [bind, Except.bind]

/-- Every step of a loop succeeds, and what it has done for its element lasts. -/
theorem exists_foldlM_ok {f : α → β → Except ε α} (R : α → α → Prop) (Done : β → α → Prop)
    {l : List β} {a : α} (hrefl : ∀ a, R a a) (htrans : ∀ {a b c}, R a b → R b c → R a c)
    (hlasts : ∀ {b a a'}, R a a' → Done b a → Done b a')
    (hstep : ∀ b ∈ l, ∀ {a'}, R a a' → ∃ a'', f a' b = .ok a'' ∧ R a' a'' ∧ Done b a'') :
    ∃ a', l.foldlM f a = .ok a' ∧ R a a' ∧ ∀ b ∈ l, Done b a' := by
  induction l generalizing a with
  | nil => exact ⟨a, rfl, hrefl a, fun _ h => absurd h not_mem_nil⟩
  | cons b l ih =>
    obtain ⟨a₁, hf, hR, hdone⟩ := hstep b mem_cons_self (hrefl a)
    obtain ⟨a₂, hl, hR', hrest⟩ := ih fun b' hb' _ h =>
      hstep b' (mem_cons_of_mem b hb') (htrans hR h)
    refine ⟨a₂, ?_, htrans hR hR', ?_⟩
    · rw [foldlM_cons, hf]
      exact hl
    · rintro b' (_ | ⟨_, hb'⟩)
      · exact hlasts hR' hdone
      · exact hrest b' hb'

/-- The rule for a loop that has come to its end, with the place of a round in it. -/
theorem foldlM_ok_prefix_induction {f : α → β → Except ε α} {I : List β → α → Prop} {l : List β}
    {a a' : α} (h : l.foldlM f a = .ok a') (hnil : I [] a)
    (hstep : ∀ done b rest a₁ a₂, l = done ++ b :: rest → I done a₁ → f a₁ b = .ok a₂ →
      I (done ++ [b]) a₂) : I l a' := by
  have hrest : ∀ {rest done : List β} {a₁ : α}, l = done ++ rest → I done a₁ →
      rest.foldlM f a₁ = .ok a' → I (done ++ rest) a' := by
    intro rest
    induction rest with
    | nil =>
      intro done a₁ _ hI hfold
      cases hfold
      rwa [append_nil]
    | cons b rest ih =>
      intro done a₁ hl hI hfold
      rw [foldlM_cons] at hfold
      obtain ⟨a₂, hf, hfold⟩ := Except.bind_eq_ok_iff.mp hfold
      have := ih (by simpa using hl) (hstep done b rest a₁ a₂ hl hI hf) hfold
      rwa [append_assoc, singleton_append] at this
  exact hrest (nil_append l).symm hnil h

/-- **The rule for a loop that has come to its end**: what a round makes hold of the elements done
so far and its own holds of all of them. -/
theorem foldlM_ok_induction {f : α → β → Except ε α} {I : List β → α → Prop} {l : List β}
    {a a' : α} (h : l.foldlM f a = .ok a') (hnil : I [] a)
    (hstep : ∀ done, ∀ b ∈ l, ∀ a₁ a₂, I done a₁ → f a₁ b = .ok a₂ → I (done ++ [b]) a₂) :
    I l a' := by
  refine foldlM_ok_prefix_induction h hnil fun done b rest a₁ a₂ hl hI hf => ?_
  exact hstep done b (hl ▸ mem_append_right _ mem_cons_self) a₁ a₂ hI hf

/-- A loop whose steps fail for their element alone ends well when none of them does. -/
theorem foldlM_isOk_iff {f : α → β → Except ε α} {P : β → Prop}
    (hstep : ∀ a b, (∃ a', f a b = .ok a') ↔ P b) {l : List β} {a : α} :
    (∃ a', l.foldlM f a = .ok a') ↔ ∀ b ∈ l, P b := by
  induction l generalizing a with
  | nil => exact iff_of_true ⟨a, rfl⟩ fun _ h => absurd h not_mem_nil
  | cons b l ih =>
    rw [forall_mem_cons, ← hstep a b, foldlM_cons]
    cases hf : f a b with
    | error e => exact iff_of_false (fun ⟨_, h⟩ => nomatch h) fun ⟨⟨_, h⟩, _⟩ => nomatch h
    | ok a' => exact ih.trans ⟨fun h => ⟨⟨a', rfl⟩, h⟩, fun h => h.2⟩

/-- Two passes that may fail are one. -/
theorem bind_mapM_mapM (f : α → Option β) (h : β → Option γ) (l : List α) :
    ((l.mapM f).bind fun m => m.mapM h) = l.mapM fun a => (f a).bind h := by
  induction l with
  | nil => rfl
  | cons a l ih =>
    rw [mapM_cons, mapM_cons, ← ih]
    cases hf : f a with
    | none => rfl
    | some b =>
      cases hl : l.mapM f with
      | none => cases hh : h b <;> simp [hh]
      | some m => cases hh : h b <;> simp [hh]

/-- A pass that computes something for each element, and then uses it there. -/
theorem mapM_map_eq_zipWith (f : α → Option β) (k : α → β → γ) (l : List α) :
    (l.mapM fun a => (f a).map (k a)) = (l.mapM f).map fun vs => l.zipWith k vs := by
  induction l with
  | nil => rfl
  | cons a l ih =>
    rw [mapM_cons, mapM_cons, ih]
    cases hf : f a with
    | none => rfl
    | some b => cases hl : l.mapM f <;> simp

/-- Something for each element. -/
theorem exists_forall₂ {R : α → β → Prop} {l : List α} (h : ∀ a ∈ l, ∃ b, R a b) :
    ∃ m, Forall₂ R l m := by
  induction l with
  | nil => exact ⟨[], .nil⟩
  | cons a l ih =>
    obtain ⟨b, hb⟩ := h a mem_cons_self
    obtain ⟨m, hm⟩ := ih fun a' ha' => h a' (mem_cons_of_mem a ha')
    exact ⟨b :: m, .cons hb hm⟩

theorem Forall₂.exists_of_mem {R : α → β → Prop} {l : List α} {m : List β} (h : Forall₂ R l m)
    {a : α} (ha : a ∈ l) : ∃ b ∈ m, R a b := by
  induction h with
  | nil => cases ha
  | cons hab _ ih =>
    rcases mem_cons.mp ha with rfl | ha
    · exact ⟨_, mem_cons_self, hab⟩
    · obtain ⟨b, hb, hR⟩ := ih ha
      exact ⟨b, mem_cons_of_mem _ hb, hR⟩

/-- What the elements on the right were made of. -/
theorem Forall₂.exists_map_right {R : γ → α → Prop} {g : γ → β} {l : List α} {m : List β}
    (h : Forall₂ (fun a b => ∃ c, R c a ∧ b = g c) l m) :
    ∃ cs, m = cs.map g ∧ Forall₂ R cs l := by
  induction h with
  | nil => exact ⟨[], rfl, .nil⟩
  | cons hab _ ih =>
    obtain ⟨c, hc, rfl⟩ := hab
    obtain ⟨cs, rfl, hcs⟩ := ih
    exact ⟨c :: cs, rfl, .cons hc hcs⟩

/-- One element on the right is replaced by another that does as well. -/
theorem Forall₂.replace_right {R : α → β → Prop} {l : List α} {A C : List β} {b b' : β}
    (h : Forall₂ R l (A ++ b :: C)) (hb : ∀ a, R a b → R a b') : Forall₂ R l (A ++ b' :: C) := by
  induction A generalizing l with
  | nil =>
    cases h with
    | cons hab hrest => exact .cons (hb _ hab) hrest
  | cons c A ih =>
    cases h with
    | cons hac hrest => exact .cons hac (ih hrest)

/-- Two lists put together element by element, each result known from its two origins. -/
theorem Forall₂.zipWith_right {P : α → β → Prop} {Q : α → γ → Prop} {h : α → β → γ} {l : List α}
    {vs : List β} (hall : Forall₂ P l vs) (hstep : ∀ a v, P a v → Q a (h a v)) :
    Forall₂ Q l (zipWith h l vs) := by
  induction hall with
  | nil => exact .nil
  | cons hav _ ih => exact .cons (hstep _ _ hav) ih

/-- One pass after the other. -/
theorem Forall₂.comp {P : α → β → Prop} {Q : β → γ → Prop} {R : α → γ → Prop} {l : List α}
    {m : List β} {n : List γ} (h₁ : Forall₂ P l m) (h₂ : Forall₂ Q m n)
    (hstep : ∀ a b c, P a b → Q b c → R a c) : Forall₂ R l n := by
  induction h₁ generalizing n with
  | nil => cases h₂; exact .nil
  | cons hab _ ih =>
    cases h₂ with
    | cons hbc hrest => exact .cons (hstep _ _ _ hab hbc) (ih hrest)

/-- A relation that comes down to its left side. -/
theorem Forall₂.iff_forall_left {R P : α → β → Prop} {Q : α → Prop} {l : List α} {m : List β}
    (hall : Forall₂ R l m) (h : ∀ a b, R a b → (P a b ↔ Q a)) :
    Forall₂ P l m ↔ ∀ a ∈ l, Q a := by
  induction hall with
  | nil => simp
  | cons hab _ ih => rw [forall₂_cons, forall_mem_cons, h _ _ hab, ih]

theorem Forall₂.and {R S : α → β → Prop} {l : List α} {m : List β} (h : Forall₂ R l m)
    (h' : Forall₂ S l m) : Forall₂ (fun a b => R a b ∧ S a b) l m := by
  induction h with
  | nil => exact .nil
  | cons hab _ ih =>
    obtain ⟨hS, hrest⟩ := forall₂_cons.mp h'
    exact .cons ⟨hab, hS⟩ (ih hrest)

/-- What holds of the elements of one list, two by two, holds in its way of those they are related
to. -/
theorem Forall₂.pairwise {R : α → β → Prop} {P : α → α → Prop} {Q : β → β → Prop}
    {l : List α} {m : List β} (h : Forall₂ R l m) (hl : l.Pairwise P)
    (hstep : ∀ {a a' b b'}, R a b → R a' b' → P a a' → Q b b') : m.Pairwise Q := by
  induction h with
  | nil => exact .nil
  | cons hab hrest ih =>
    obtain ⟨ha, hl⟩ := pairwise_cons.mp hl
    refine pairwise_cons.mpr ⟨fun b' hb' => ?_, ih hl⟩
    obtain ⟨a', ha', hab'⟩ := hrest.flip.exists_of_mem hb'
    exact hstep hab hab' (ha a' ha')

end List
