/-
# Runs of a partial step function

A system is a step function `step : σ → ε → Option σ`: the state after the event, or `none`
when the event cannot happen there.  An interleaving of any number of processes is then
nothing but a LIST of events, and "for any interleaving" is a quantifier over that list.

This module has the rules the rest of the development reasons with, and no others: how runs
compose, how an invariant of one step becomes an invariant of a run, how a relation between
the state before and after one step becomes a relation between the ends of a run, and how a
machine embedded in a larger system inherits the smaller one's runs.
-/
import Mathlib.Data.List.Induction
import Mathlib.Data.Option.Basic
import Mathlib.Tactic.Basic

namespace Lts

variable {σ τ ε φ : Type}

/-- The state after a list of events, when every one of them can happen. -/
def run (step : σ → ε → Option σ) : σ → List ε → Option σ
  | s, [] => some s
  | s, e :: es => (step s e).bind fun s' => run step s' es

/-- `s'` is reached from `s` by some run. -/
def Reaches (step : σ → ε → Option σ) (s s' : σ) : Prop := ∃ es, run step s es = some s'

/-- The condition holds of every event of the run, in the state it happens in. -/
def Along (step : σ → ε → Option σ) (C : σ → ε → Prop) : σ → List ε → Prop
  | _, [] => True
  | s, e :: es => C s e ∧ ∀ s' ∈ step s e, Along step C s' es

instance Along.decidable (step : σ → ε → Option σ) (C : σ → ε → Prop)
    [∀ s e, Decidable (C s e)] : ∀ s es, Decidable (Along step C s es)
  | _, [] => isTrue trivial
  | s, e :: es =>
    have : ∀ s', Decidable (Along step C s' es) := fun s' => Along.decidable step C s' es
    match h : step s e with
    | none => decidable_of_iff (C s e) (by simp [Along, h])
    | some s' => decidable_of_iff (C s e ∧ Along step C s' es) (by simp [Along, h])

variable {step : σ → ε → Option σ}

theorem run_cons {s s' : σ} {e : ε} {es : List ε} :
    run step s (e :: es) = some s' ↔ ∃ s₁, step s e = some s₁ ∧ run step s₁ es = some s' := by
  simp [run, Option.bind_eq_some_iff]

theorem run_append {s' : σ} {fs : List ε} : ∀ {es : List ε} {s : σ},
    run step s (es ++ fs) = some s' ↔ ∃ s₁, run step s es = some s₁ ∧ run step s₁ fs = some s'
  | [], s => by simp [run]
  | e :: es, s => by
    simp only [List.cons_append, run_cons]
    constructor
    · rintro ⟨s₁, h₁, h₂⟩
      obtain ⟨s₂, h₃, h₄⟩ := run_append.mp h₂
      exact ⟨s₂, ⟨s₁, h₁, h₃⟩, h₄⟩
    · rintro ⟨s₂, ⟨s₁, h₁, h₃⟩, h₄⟩
      exact ⟨s₁, h₁, run_append.mpr ⟨s₂, h₃, h₄⟩⟩

theorem run_singleton {s s' : σ} {e : ε} : run step s [e] = some s' ↔ step s e = some s' := by
  simp [run]

/-- **The invariant rule.**  What every step keeps, every run keeps. -/
theorem run_inv {I : σ → Prop} (hstep : ∀ s e s', step s e = some s' → I s → I s') :
    ∀ {es : List ε} {s s' : σ}, run step s es = some s' → I s → I s'
  | [], s, s', h, hi => by
    simp only [run, Option.some.injEq] at h
    exact h ▸ hi
  | e :: es, s, s', h, hi => by
    obtain ⟨s₁, h₁, h₂⟩ := run_cons.mp h
    exact run_inv hstep h₂ (hstep s e s₁ h₁ hi)

/-- The invariant rule when the events of the run are known to meet a condition in the state
they happen in. -/
theorem run_inv_of {I : σ → Prop} {C : σ → ε → Prop}
    (hstep : ∀ s e s', step s e = some s' → C s e → I s → I s') :
    ∀ {es : List ε} {s s' : σ}, run step s es = some s' →
      (∀ pre e post s₁, es = pre ++ e :: post → run step s pre = some s₁ → C s₁ e) →
      I s → I s'
  | [], s, s', h, _, hi => by
    simp only [run, Option.some.injEq] at h
    exact h ▸ hi
  | e :: es, s, s', h, hc, hi => by
    obtain ⟨s₁, h₁, h₂⟩ := run_cons.mp h
    refine run_inv_of hstep h₂ ?_ (hstep s e s₁ h₁ (hc [] e es s rfl rfl) hi)
    intro pre e' post s₂ he hr
    exact hc (e :: pre) e' post s₂ (by rw [he]; rfl) (run_cons.mpr ⟨s₁, h₁, hr⟩)

/-- Under an invariant, a condition along a run gives every condition it implies. -/
theorem Along.imp {I : σ → Prop} {C D : σ → ε → Prop}
    (hinv : ∀ s e s', step s e = some s' → I s → I s') (himp : ∀ s e, I s → C s e → D s e) :
    ∀ {es : List ε} {s : σ}, I s → Along step C s es → Along step D s es
  | [], _, _, _ => trivial
  | e :: _, s, hi, hc =>
    ⟨himp s e hi hc.1, fun s' hs => Along.imp hinv himp (hinv s e s' hs hi) (hc.2 s' hs)⟩

theorem along_of_forall {C : σ → ε → Prop} :
    ∀ {es : List ε} {s : σ}, (∀ e ∈ es, ∀ s, C s e) → Along step C s es
  | [], _, _ => trivial
  | e :: _, s, h => ⟨h e List.mem_cons_self s, fun _ _ =>
      along_of_forall fun e' he' => h e' (List.mem_cons_of_mem e he')⟩

theorem Along.snoc {C : σ → ε → Prop} {e : ε} :
    ∀ {es : List ε} {s : σ}, Along step C s es → (∀ s', run step s es = some s' → C s' e) →
      Along step C s (es ++ [e])
  | [], s, _, he => ⟨he s rfl, fun _ _ => trivial⟩
  | _ :: _, _, hc, he => ⟨hc.1, fun s' hs =>
      Along.snoc (hc.2 s' hs) fun s₂ hr => he s₂ (run_cons.mpr ⟨s', hs, hr⟩)⟩

theorem Along.and {C D : σ → ε → Prop} :
    ∀ {es : List ε} {s : σ}, Along step C s es → Along step D s es →
      Along step (fun s e => C s e ∧ D s e) s es
  | [], _, _, _ => trivial
  | _ :: _, _, hc, hd =>
    ⟨⟨hc.1, hd.1⟩, fun s' hs => Along.and (hc.2 s' hs) (hd.2 s' hs)⟩

/-- The invariant rule for runs along which a condition holds. -/
theorem Along.run_inv {I : σ → Prop} {C : σ → ε → Prop}
    (hstep : ∀ s e s', step s e = some s' → C s e → I s → I s') :
    ∀ {es : List ε} {s s' : σ}, run step s es = some s' → Along step C s es → I s → I s'
  | [], s, s', h, _, hi => by
    simp only [run, Option.some.injEq] at h
    exact h ▸ hi
  | e :: es, s, s', h, hc, hi => by
    obtain ⟨s₁, h₁, h₂⟩ := run_cons.mp h
    exact Along.run_inv hstep h₂ (hc.2 s₁ h₁) (hstep s e s₁ h₁ hc.1 hi)

/-- **Two conditions that come to the same along every run**: they do in a state with the
invariant, and an event that meets the first keeps it. -/
theorem along_iff {I : σ → Prop} {C D : σ → ε → Prop} (hiff : ∀ s e, I s → (C s e ↔ D s e))
    (hinv : ∀ s e s', step s e = some s' → I s → C s e → I s') :
    ∀ {es : List ε} {s : σ}, I s → (Along step C s es ↔ Along step D s es)
  | [], _, _ => Iff.rfl
  | e :: es, s, hi => by
    rw [Along, Along, ← hiff s e hi]
    refine and_congr_right fun hc => forall₂_congr fun s' hs => ?_
    exact along_iff hiff hinv (hinv s e s' hs hi hc)

/-- What holds along a run holds at any of its events. -/
theorem Along.at {C : σ → ε → Prop} {e : ε} {post : List ε} :
    ∀ {pre : List ε} {s s' : σ}, Along step C s (pre ++ e :: post) → run step s pre = some s' →
      C s' e
  | [], s, s', hc, hr => by
    simp only [run, Option.some.injEq] at hr
    subst hr
    exact hc.1
  | e' :: pre, s, s', hc, hr => by
    obtain ⟨s₁, h₁, h₂⟩ := run_cons.mp hr
    exact Along.at (hc.2 s₁ h₁) h₂

/-- **Induction on the end of a run**, for statements that mention the events so far. -/
theorem run_snoc_induction {s : σ} {P : List ε → σ → Prop} (hnil : P [] s)
    (hstep : ∀ es a e b, run step s es = some a → P es a → step a e = some b → P (es ++ [e]) b) :
    ∀ {es : List ε} {s' : σ}, run step s es = some s' → P es s' := by
  intro es
  induction es using List.reverseRecOn with
  | nil =>
    intro s' h
    simp only [run, Option.some.injEq] at h
    exact h ▸ hnil
  | append_singleton es e ih =>
    intro s' h
    obtain ⟨a, ha, hb⟩ := run_append.mp h
    exact hstep es a e s' ha (ih ha) (run_singleton.mp hb)

/-- **The two-state rule.**  A reflexive and transitive relation that holds across every step
taken in a state with the invariant holds across every run from such a state. -/
theorem run_rel {I : σ → Prop} {R : σ → σ → Prop} (hrefl : ∀ s, R s s)
    (htrans : ∀ a b c, R a b → R b c → R a c)
    (hinv : ∀ s e s', step s e = some s' → I s → I s')
    (hstep : ∀ s e s', I s → step s e = some s' → R s s') :
    ∀ {es : List ε} {s s' : σ}, run step s es = some s' → I s → R s s'
  | [], s, s', h, _ => by
    simp only [run, Option.some.injEq] at h
    exact h ▸ hrefl s
  | e :: es, s, s', h, hi => by
    obtain ⟨s₁, h₁, h₂⟩ := run_cons.mp h
    exact htrans _ _ _ (hstep s e s₁ hi h₁)
      (run_rel hrefl htrans hinv hstep h₂ (hinv s e s₁ h₁ hi))

theorem Reaches.refl (s : σ) : Reaches step s s := ⟨[], rfl⟩

theorem Reaches.trans {a b c : σ} (h₁ : Reaches step a b) (h₂ : Reaches step b c) :
    Reaches step a c := by
  obtain ⟨es, h₁⟩ := h₁
  obtain ⟨fs, h₂⟩ := h₂
  exact ⟨es ++ fs, run_append.mpr ⟨b, h₁, h₂⟩⟩

theorem Reaches.single {s s' : σ} {e : ε} (h : step s e = some s') : Reaches step s s' :=
  ⟨[e], run_singleton.mpr h⟩

theorem Reaches.inv {I : σ → Prop} (hstep : ∀ s e s', step s e = some s' → I s → I s')
    {s s' : σ} (h : Reaches step s s') (hi : I s) : I s' :=
  h.elim fun _ hr => run_inv hstep hr hi

/-- Every event of a run happens, and the end of the run is reached from there. -/
theorem run_along : ∀ {es : List ε} {s s' : σ}, run step s es = some s' →
    Along step (fun a e => ∃ b, step a e = some b ∧ Reaches step b s') s es
  | [], _, _, _ => trivial
  | e :: es, s, s', h => by
    obtain ⟨s₁, h₁, h₂⟩ := run_cons.mp h
    refine ⟨⟨s₁, h₁, es, h₂⟩, ?_⟩
    intro b hb
    obtain rfl : b = s₁ := Option.some.inj (hb.symm.trans h₁)
    exact run_along h₂

end Lts
