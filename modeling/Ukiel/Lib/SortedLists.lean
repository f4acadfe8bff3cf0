/-
# Sorting as a normal form

A list sorted by a total order forgets in which order it was given and nothing else; a list of
entries sorted by key does so when the keys are distinct; and in a sorted list a repeated
element repeats next to itself.  Entries sorted by distinct keys are known from what is found
under each key.  Last, the sort by key that puts the greatest first, and the one that puts intervals
in a row.
-/
import Mathlib.Data.List.Sort
import Mathlib.Data.List.Nodup
import Mathlib.Data.Prod.Lex
import Mathlib.Tactic.Basic

namespace List

section Total

variable {α : Type} {r : α → α → Prop} [DecidableRel r] [Std.Total r] [IsTrans α r]

/-- **Sorting decides equality up to order.** -/
theorem insertionSort_eq_iff [Std.Antisymm r] {l₁ l₂ : List α} :
    l₁.insertionSort r = l₂.insertionSort r ↔ l₁.Perm l₂ := by
  constructor
  · intro h
    exact (perm_insertionSort r l₁).symm.trans (h ▸ perm_insertionSort r l₂)
  · intro h
    have hperm := (perm_insertionSort r l₁).trans (h.trans (perm_insertionSort r l₂).symm)
    exact hperm.eq_of_pairwise' (pairwise_insertionSort r l₁) (pairwise_insertionSort r l₂)

/-- Lists without repetition are equal up to order when they have the same elements. -/
theorem insertionSort_eq_iff_mem [Std.Antisymm r] {l₁ l₂ : List α} (h₁ : l₁.Nodup)
    (h₂ : l₂.Nodup) :
    l₁.insertionSort r = l₂.insertionSort r ↔ ∀ x, x ∈ l₁ ↔ x ∈ l₂ := by
  rw [insertionSort_eq_iff]
  exact perm_ext_iff_of_nodup h₁ h₂

omit [DecidableRel r] [Std.Total r] [IsTrans α r] in
/-- What holds of neighbours in a sorted list holds of all pairs, if it only gets truer with the
distance. -/
theorem Pairwise.of_isChain {P : α → α → Prop} {l : List α} (h : l.Pairwise r)
    (hstep : ∀ {a b c : α}, r a b → r b c → P a b → P a c) (hP : l.IsChain P) :
    l.Pairwise P := by
  induction l with
  | nil => exact Pairwise.nil
  | cons a l ih =>
    obtain ⟨ha, hl⟩ := pairwise_cons.mp h
    cases l with
    | nil => exact pairwise_singleton P a
    | cons b l =>
      obtain ⟨hab, hP⟩ := isChain_cons_cons.mp hP
      refine pairwise_cons.mpr ⟨?_, ih hl hP⟩
      intro c hc
      rcases mem_cons.mp hc with rfl | hc
      · exact hab
      · exact hstep (ha b mem_cons_self) ((pairwise_cons.mp hl).1 c hc) hab

omit [DecidableRel r] [Std.Total r] [IsTrans α r] in
/-- A sorted list in which no two neighbours agree has no repetition at all. -/
theorem Pairwise.nodup_of_isChain_ne [Std.Antisymm r] {l : List α} (h : l.Pairwise r)
    (hne : l.IsChain (· ≠ ·)) : l.Nodup := by
  refine h.of_isChain (fun {a b c} hab hbc hne hac => ?_) hne
  -- what returns to its first element has not moved in between
  exact hne (antisymm hab (hac ▸ hbc))

end Total

section Keys

variable {α κ : Type} [LinearOrder κ] (key : α → κ)

instance total_key_le : Std.Total fun a b : α => key a ≤ key b := ⟨fun a b => le_total (key a) (key b)⟩

instance trans_key_le : IsTrans α fun a b => key a ≤ key b := ⟨fun _ _ _ h₁ h₂ => le_trans h₁ h₂⟩

variable {key}

/-- **Entries with distinct keys**, sorted by key. -/
theorem insertionSort_key_eq_iff {l₁ l₂ : List α} (hnd : (l₁.map key).Nodup) :
    l₁.insertionSort (fun a b => key a ≤ key b) = l₂.insertionSort (fun a b => key a ≤ key b) ↔
      l₁.Perm l₂ := by
  let r : α → α → Prop := fun a b => key a ≤ key b
  constructor
  · intro h
    exact (perm_insertionSort r l₁).symm.trans (h ▸ perm_insertionSort r l₂)
  · intro h
    have hperm := (perm_insertionSort r l₁).trans (h.trans (perm_insertionSort r l₂).symm)
    refine hperm.eq_of_pairwise ?_ (pairwise_insertionSort r l₁) (pairwise_insertionSort r l₂)
    intro a b ha hb hab hba
    have ha' := (mem_insertionSort r).mp ha
    have hb' := h.mem_iff.mpr ((mem_insertionSort r).mp hb)
    exact inj_on_of_nodup_map hnd ha' hb' (le_antisymm hab hba)

end Keys

section Lookup

variable {κ β : Type} [LinearOrder κ] [BEq κ] [LawfulBEq κ]

theorem lookup_eq_none_of_lt {k : κ} {l : List (κ × β)} (h : ∀ e ∈ l, k < e.1) :
    l.lookup k = none := by
  rw [List.lookup_eq_none_iff]
  intro e he
  exact bne_iff_ne.mpr (h e he).ne

/-- **Entries sorted by distinct keys**, from what is found under each of them. -/
theorem Pairwise.eq_of_lookup {l m : List (κ × β)} (hl : l.Pairwise fun a b => a.1 < b.1)
    (hm : m.Pairwise fun a b => a.1 < b.1) (h : ∀ k, l.lookup k = m.lookup k) : l = m := by
  induction l generalizing m with
  | nil =>
    cases m with
    | nil => rfl
    | cons e m =>
      have := h e.1
      rw [lookup_nil, lookup_cons_self] at this
      cases this
  | cons d l ih =>
    obtain ⟨hd, hl⟩ := pairwise_cons.mp hl
    cases m with
    | nil =>
      have := h d.1
      rw [lookup_nil, lookup_cons_self] at this
      cases this
    | cons e m =>
      obtain ⟨he, hm'⟩ := pairwise_cons.mp hm
      have hhead := h d.1
      rw [lookup_cons_self] at hhead
      have hkey : d.1 = e.1 := by
        rcases lt_trichotomy d.1 e.1 with hlt | heq | hlt
        · rw [lookup_eq_none_of_lt (forall_mem_cons.mpr ⟨hlt, fun x hx => hlt.trans (he x hx)⟩)]
            at hhead
          cases hhead
        · exact heq
        · have hhead' := h e.1
          rw [lookup_cons_self, lookup_eq_none_of_lt
            (forall_mem_cons.mpr ⟨hlt, fun x hx => hlt.trans (hd x hx)⟩)] at hhead'
          cases hhead'
      rw [hkey, lookup_cons_self, Option.some.injEq] at hhead
      obtain rfl : d = e := Prod.ext hkey hhead
      refine congrArg (d :: ·) (ih hl hm' fun k => ?_)
      by_cases hk : k = d.1
      · rw [hk, lookup_eq_none_of_lt hd, lookup_eq_none_of_lt he]
      · have := h k
        rwa [lookup_cons, lookup_cons, beq_eq_false_iff_ne.mpr hk] at this

end Lookup

section Descending

variable {α κ : Type} [LinearOrder κ] (key : α → κ)

/-- Sorted by key, the greatest first. -/
def sortDescBy (l : List α) : List α := l.insertionSort fun a b => key b ≤ key a

theorem sortDescBy_perm (l : List α) : (l.sortDescBy key).Perm l := perm_insertionSort _ l

theorem pairwise_sortDescBy (l : List α) :
    (l.sortDescBy key).Pairwise fun a b => key b ≤ key a := by
  have : Std.Total fun a b : α => key b ≤ key a := ⟨fun a b => le_total (key b) (key a)⟩
  have : IsTrans α fun a b => key b ≤ key a := ⟨fun _ _ _ hab hbc => hbc.trans hab⟩
  exact pairwise_insertionSort _ l

end Descending

section Intervals

variable {α κ : Type} [LinearOrder κ] (lo hi : α → κ)

/-- **Intervals that overlap in no more than an end**, two by two, can be put in a row. -/
theorem exists_perm_pairwise_le {l : List α} (hle : ∀ a ∈ l, lo a ≤ hi a)
    (h : l.Pairwise fun a b => hi a ≤ lo b ∨ hi b ≤ lo a) :
    ∃ l' : List α, l'.Perm l ∧ l'.Pairwise fun a b => hi a ≤ lo b := by
  set key : α → κ ×ₗ κ := fun a => toLex (lo a, hi a)
  have : Std.Total fun a b : α => key a ≤ key b := ⟨fun a b => le_total (key a) (key b)⟩
  have : IsTrans α fun a b => key a ≤ key b := ⟨fun _ _ _ hab hbc => hab.trans hbc⟩
  have hperm := perm_insertionSort (fun a b => key a ≤ key b) l
  refine ⟨_, hperm, ?_⟩
  have hsorted := pairwise_insertionSort (fun a b => key a ≤ key b) l
  have hapart := (hperm.pairwise_iff fun {a b} (h : hi a ≤ lo b ∨ hi b ≤ lo a) => h.symm).mpr h
  refine (hsorted.and hapart).imp_of_mem fun {a b} ha hb ⟨hab, hdisj⟩ => ?_
  rcases hdisj with hdisj | hdisj
  · exact hdisj
  · -- the second ends where the first begins, so both begin and end there
    have hb' := hle b (hperm.mem_iff.mp hb)
    rcases Prod.Lex.toLex_le_toLex.mp hab with hlt | ⟨heq, hhi⟩
    · exact absurd hlt (not_lt.mpr (hb'.trans hdisj))
    · exact (hhi.trans hdisj).trans (le_of_eq heq)

end Intervals

end List
