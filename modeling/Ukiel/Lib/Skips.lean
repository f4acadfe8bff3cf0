/-
# Skipping what a filter would drop

A reader of a list may leave out elements of which nothing will remain after it (`Keeps`): whole
sections at once, by what is known of them, or one by one.  A filter that is at least as strict as
what the reader goes by then makes no difference between what was read and what was there
(`Keeps.filter_eq`).
-/
import Ukiel.Lib.Folds

namespace List

variable {α β : Type} {q w : α → Bool} {l m n out : List α}

/-- **What was read of a list**, in its order: all that the predicate holds of, and perhaps more. -/
structure Keeps (q : α → Bool) (l out : List α) : Prop where
  sublist : out <+ l
  kept : l.filter q <+ out

theorem Keeps.filter_self (h : Keeps q l out) : out.filter q = l.filter q := by
  have hkept := h.kept.filter q
  rw [filter_filter] at hkept
  simp only [Bool.and_self] at hkept
  exact (h.sublist.filter q).antisymm hkept

theorem keeps_iff : Keeps q l out ↔ out <+ l ∧ out.filter q = l.filter q :=
  ⟨fun h => ⟨h.sublist, h.filter_self⟩, fun h => ⟨h.1, h.2 ▸ filter_sublist⟩⟩

/-- A stricter predicate asks for less. -/
theorem Keeps.mono (h : Keeps q l out) (hw : ∀ a ∈ l, w a = true → q a = true) : Keeps w l out := by
  refine ⟨h.sublist, Sublist.trans ?_ h.kept⟩
  have heq : l.filter w = (l.filter q).filter w := by
    rw [filter_filter]
    exact filter_congr fun a ha => by
      cases hwa : w a with
      | false => simp
      | true => simp [hw a ha hwa]
  rw [heq]
  exact filter_sublist

/-- **A filter above the reader.** -/
theorem Keeps.filter_eq (h : Keeps q l out) (hw : ∀ a ∈ l, w a = true → q a = true) :
    out.filter w = l.filter w :=
  (h.mono hw).filter_self

theorem Keeps.refl (q : α → Bool) (l : List α) : Keeps q l l := ⟨.refl _, filter_sublist⟩

theorem Keeps.trans (h₁ : Keeps q l m) (h₂ : Keeps q m n) : Keeps q l n :=
  keeps_iff.mpr ⟨h₂.sublist.trans h₁.sublist, h₂.filter_self.trans h₁.filter_self⟩

theorem Keeps.append {l' out' : List α} (h : Keeps q l out) (h' : Keeps q l' out') :
    Keeps q (l ++ l') (out ++ out') :=
  ⟨h.sublist.append h'.sublist, by rw [filter_append]; exact h.kept.append h'.kept⟩

/-- A section that has nothing to keep need not be read. -/
theorem keeps_nil (h : ∀ a ∈ l, q a = false) : Keeps q l [] :=
  ⟨nil_sublist l, by rw [filter_eq_nil_iff.mpr fun a ha => by simp [h a ha]]⟩

/-- **Sections under flags**: one with something to keep is under a flag that is up. -/
theorem keeps_flags {flags : List Bool} {sections : List (List α)}
    (h : Forall₂ (fun flag section_ => (∃ a ∈ section_, q a = true) → flag = true) flags sections) :
    Keeps q sections.flatten (((flags.zip sections).filter Prod.fst).map Prod.snd).flatten := by
  induction h with
  | nil => exact .refl q []
  | @cons flag section_ _ _ hflag _ ih =>
    rw [zip_cons_cons, flatten_cons]
    cases flag with
    | true => exact (Keeps.refl q section_).append ih
    | false =>
      refine (keeps_nil fun a ha => ?_).append ih
      by_contra hq
      exact absurd (hflag ⟨a, ha, by simpa using hq⟩) Bool.false_ne_true

/-- **Sections read one by one**, where some are passed over. -/
theorem keeps_filterMap {γ : Type} {f : β → Option γ} {content : β → List α}
    {R : γ → List α → Prop} {sources : List β} {outs : List (List α)}
    (hread : Forall₂ R (sources.filterMap f) outs)
    (hpassed : ∀ b ∈ sources, f b = none → ∀ a ∈ content b, q a = false)
    (hopened : ∀ b ∈ sources, ∀ c, f b = some c → ∀ out, R c out → Keeps q (content b) out) :
    Keeps q (sources.flatMap content) outs.flatten := by
  induction sources generalizing outs with
  | nil =>
    cases hread
    exact .refl q []
  | cons b sources ih =>
    obtain ⟨hpassed₁, hpassed₂⟩ := forall_mem_cons.mp hpassed
    obtain ⟨hopened₁, hopened₂⟩ := forall_mem_cons.mp hopened
    rw [flatMap_cons]
    cases hf : f b with
    | none =>
      rw [filterMap_cons_none hf] at hread
      exact (keeps_nil (hpassed₁ hf)).append (ih hread hpassed₂ hopened₂)
    | some c =>
      rw [filterMap_cons_some hf] at hread
      cases hread with
      | cons hout hrest =>
        exact (hopened₁ c hf _ hout).append (ih hrest hpassed₂ hopened₂)

/-- Sections that are passed over. -/
theorem keeps_filter {keep : β → Bool} {content : β → List α} {sources : List β}
    (h : ∀ b ∈ sources, keep b = false → ∀ a ∈ content b, q a = false) :
    Keeps q (sources.flatMap content) ((sources.filter keep).flatMap content) := by
  induction sources with
  | nil => exact .refl q []
  | cons b sources ih =>
    obtain ⟨hb, hrest⟩ := forall_mem_cons.mp h
    rw [flatMap_cons, filter_cons]
    cases hk : keep b with
    | true => exact (Keeps.refl q _).append (ih hrest)
    | false => exact (keeps_nil (hb hk)).append (ih hrest)

end List
