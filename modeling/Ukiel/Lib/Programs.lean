/-
# Programs that call a component

A program asks a component for one thing after another and goes on with what it is answered.  What
may be answered, and what it does to the component's state, is a relation: a call may fail, and it
may fail after it was carried out.

Any number of programs run at once, interleaved call by call (`Pool.Run`).  One that is not
scheduled again has crashed.  All of them keep to a discipline, a relation between the states
before and after a call; what a program does for itself is proved against that, not against the
other programs (`Program.Meets`), and holds whatever programs there are (`Pool.run_meets`).
-/
import Mathlib.Logic.Function.Basic
import Mathlib.Logic.Relation
import Mathlib.Tactic.Basic

variable {σ ρ ι β γ ε : Type} {α : ρ → Type}

/-- A program over requests, with an answer for each. -/
inductive Program (ρ : Type) (α : ρ → Type) (β : Type) where
  | pure (b : β)
  | call (r : ρ) (next : α r → Program ρ α β)

namespace Program

/-! ## 1. How programs compose -/

protected def bind : Program ρ α β → (β → Program ρ α γ) → Program ρ α γ
  | .pure b, f => f b
  | .call r next, f => .call r fun a => (next a).bind f

instance : Monad (Program ρ α) where
  pure := .pure
  bind := Program.bind

/-- One call. -/
def ask (r : ρ) : ExceptT ε (Program ρ α) (α r) := ExceptT.mk (.call r fun a => .pure (.ok a))

/-! ## 2. A program alone -/

/-- The answers of a component to a program that has it for itself. -/
def exec (f : σ → (r : ρ) → α r × σ) : Program ρ α β → σ → β × σ
  | .pure b, s => (b, s)
  | .call r next, s => exec f (next (f s r).1) (f s r).2

/-- What is left of a program after `n` calls, and the state. -/
def after (f : σ → (r : ρ) → α r × σ) : Nat → Program ρ α β → σ → Program ρ α β × σ
  | n + 1, .call r next, s => after f n (next (f s r).1) (f s r).2
  | _, p, s => (p, s)

variable (f : σ → (r : ρ) → α r × σ)

theorem exec_bind (g : β → Program ρ α γ) : ∀ (p : Program ρ α β) (s : σ),
    exec f (p.bind g) s = exec f (g (exec f p s).1) (exec f p s).2
  | .pure _, _ => rfl
  | .call r next, s => exec_bind g (next (f s r).1) (f s r).2

/-- What a program does that may fail goes on where it has not. -/
theorem exec_run_bind (x : ExceptT ε (Program ρ α) β) (g : β → ExceptT ε (Program ρ α) γ) (s : σ) :
    exec f (x >>= g).run s =
      match exec f x.run s with
      | (.ok b, s') => exec f (g b).run s'
      | (.error e, s') => (.error e, s') := by
  refine (exec_bind f (ExceptT.bindCont g) x.run s).trans ?_
  rcases exec f x.run s with ⟨b | e, s'⟩ <;> rfl

/-- A program that has succeeded alone has done so step by step. -/
theorem exec_run_bind_eq_ok {x : ExceptT ε (Program ρ α) β} {g : β → ExceptT ε (Program ρ α) γ}
    {s s' : σ} {c : γ} : exec f (x >>= g).run s = (.ok c, s') ↔
      ∃ b s₁, exec f x.run s = (.ok b, s₁) ∧ exec f (g b).run s₁ = (.ok c, s') := by
  rw [exec_run_bind]
  rcases exec f x.run s with ⟨e | b, s₁⟩
  · simp
  · refine ⟨fun h => ⟨b, s₁, rfl, h⟩, ?_⟩
    rintro ⟨b', s₂, hb, h⟩
    cases hb
    exact h

/-- A loop that has nothing to do. -/
theorem exec_forM_eq_self {body : β → ExceptT ε (Program ρ α) PUnit} {s : σ} {l : List β}
    (h : ∀ b ∈ l, exec f (body b).run s = (.ok ⟨⟩, s)) :
    exec f (l.forM body).run s = (.ok ⟨⟩, s) := by
  induction l with
  | nil => rfl
  | cons b l ih =>
    obtain ⟨hfirst, hrest⟩ := List.forall_mem_cons.mp h
    exact (exec_run_bind_eq_ok f).mpr ⟨⟨⟩, s, hfirst, ih hrest⟩

/-- **A loop that has succeeded alone**: what every round keeps, with those that are over. -/
theorem exec_forM_eq_ok {body : β → ExceptT ε (Program ρ α) PUnit} {I : List β → σ → Prop}
    {l : List β} {s s' : σ} {u : PUnit}
    (hbody : ∀ done b s s', I done s → exec f (body b).run s = (.ok ⟨⟩, s') → I (done ++ [b]) s')
    (hs : I [] s) (h : exec f (l.forM body).run s = (.ok u, s')) : I l s' := by
  have hloop : ∀ (l done : List β) (s : σ), I done s →
      exec f (l.forM body).run s = (.ok u, s') → I (done ++ l) s' := by
    intro l
    induction l with
    | nil =>
      intro done s hs h
      cases h
      simpa using hs
    | cons b l ih =>
      intro done s hs h
      obtain ⟨⟨⟩, s₁, hfirst, hrest⟩ := (exec_run_bind_eq_ok f).mp h
      simpa using ih (done ++ [b]) s₁ (hbody done b s s₁ hs hfirst) hrest
  exact hloop l [] s hs h

/-- A loop of which every round succeeds. -/
theorem exec_forM_isOk {body : β → ExceptT ε (Program ρ α) PUnit} {I : σ → Prop}
    (hbody : ∀ b s, I s → ∃ s', exec f (body b).run s = (.ok ⟨⟩, s') ∧ I s') :
    ∀ {l : List β} {s : σ}, I s → ∃ s', exec f (l.forM body).run s = (.ok ⟨⟩, s')
  | [], s, _ => ⟨s, rfl⟩
  | b :: l, s, hs => by
    obtain ⟨s₁, hfirst, hs₁⟩ := hbody b s hs
    obtain ⟨s₂, hrest⟩ := exec_forM_isOk hbody hs₁
    exact ⟨s₂, (exec_run_bind_eq_ok f).mpr ⟨⟨⟩, s₁, hfirst, hrest⟩⟩

/-! ## 3. What a program does among others -/

/-- The program keeps to the discipline `R`, whatever it is answered and whatever others do that
keep to it, and `Q` holds of what it ends with from then on. -/
def Meets (T : σ → (r : ρ) → α r → σ → Prop) (R : σ → σ → Prop) (Q : β → σ → Prop) :
    Program ρ α β → σ → Prop
  | .pure b, s => ∀ s', R s s' → Q b s'
  | .call r next, s => ∀ s', R s s' → ∀ a s'', T s' r a s'' →
      R s' s'' ∧ Meets T R Q (next a) s''

/-- A condition on what a program ends with if it succeeds. -/
def OnOk (Q : β → σ → Prop) (r : Except ε β) (s : σ) : Prop := ∀ b, r = .ok b → Q b s

variable {T : σ → (r : ρ) → α r → σ → Prop} {R : σ → σ → Prop} {Q Q' : β → σ → Prop}

/-- What others do that keep to the discipline makes no difference. -/
theorem Meets.stable (htrans : ∀ a b c, R a b → R b c → R a c) {p : Program ρ α β} {s s' : σ}
    (h : Meets T R Q p s) (hs : R s s') : Meets T R Q p s' := by
  cases p with
  | pure b => exact fun s'' hs' => h s'' (htrans _ _ _ hs hs')
  | call r next => exact fun s'' hs' => h s'' (htrans _ _ _ hs hs')

theorem Meets.mono (hQ : ∀ b s, Q b s → Q' b s) : ∀ {p : Program ρ α β} {s : σ},
    Meets T R Q p s → Meets T R Q' p s
  | .pure b, _, h => fun s' hs => hQ b s' (h s' hs)
  | .call _ _, _, h => fun s' hs a s'' ht =>
    ⟨(h s' hs a s'' ht).1, Meets.mono hQ (h s' hs a s'' ht).2⟩

/-- A program ends where others, and its own calls, may have taken it. -/
theorem Meets.reaches (htrans : ∀ a b c, R a b → R b c → R a c) : ∀ {p : Program ρ α β} {s : σ},
    Meets T R Q p s → Meets T R (fun b s' => R s s' ∧ Q b s') p s
  | .pure _, _, h => fun s' hs => ⟨hs, h s' hs⟩
  | .call _ _, _, h => fun s' hs a s'' ht => by
    obtain ⟨hR, hnext⟩ := h s' hs a s'' ht
    exact ⟨hR, (hnext.reaches htrans).mono fun b s₃ hb =>
      ⟨htrans _ _ _ (htrans _ _ _ hs hR) hb.1, hb.2⟩⟩

/-- **One program after another.** -/
theorem Meets.bind (hrefl : ∀ s, R s s) {g : β → Program ρ α γ} {Q : γ → σ → Prop} :
    ∀ {p : Program ρ α β} {s : σ}, Meets T R (fun b s => Meets T R Q (g b) s) p s →
      Meets T R Q (p.bind g) s
  | .pure _, s, h => h s (hrefl s)
  | .call _ _, _, h => fun s' hs a s'' ht =>
    ⟨(h s' hs a s'' ht).1, Meets.bind hrefl (h s' hs a s'' ht).2⟩

/-- **A program alone** is one of those that are among others. -/
theorem Meets.exec (hrefl : ∀ s, R s s) (htrans : ∀ a b c, R a b → R b c → R a c)
    {f : σ → (r : ρ) → α r × σ} (hf : ∀ s r, T s r (f s r).1 (f s r).2) :
    ∀ {p : Program ρ α β} {s : σ}, Meets T R Q p s →
      R s (p.exec f s).2 ∧ Q (p.exec f s).1 (p.exec f s).2
  | .pure _, s, h => ⟨hrefl s, h s (hrefl s)⟩
  | .call r _, s, h => by
    obtain ⟨hR, hnext⟩ := h s (hrefl s) _ _ (hf s r)
    obtain ⟨hrest, hQ⟩ := hnext.exec hrefl htrans hf
    exact ⟨htrans _ _ _ hR hrest, hQ⟩

section MayFail

variable {x : ExceptT ε (Program ρ α) β} {s : σ}

/-- **One program after another**, if the first succeeds. -/
theorem Meets.bindOk (hrefl : ∀ s, R s s) {g : β → ExceptT ε (Program ρ α) γ} {Q : γ → σ → Prop}
    (h : Meets T R (OnOk fun b s => Meets T R (OnOk Q) (g b).run s) x.run s) :
    Meets T R (OnOk Q) (x >>= g).run s := by
  refine Meets.bind hrefl (g := ExceptT.bindCont g) (Meets.mono (fun r s hr => ?_) h)
  cases r with
  | ok b => exact hr b rfl
  | error e => exact fun s' _ c hc => nomatch hc

/-- One call, and what holds of its answer. -/
theorem meets_ask {r : ρ} {Q : α r → σ → Prop}
    (h : ∀ s', R s s' → ∀ a s'', T s' r a s'' → R s' s'' ∧ Q a s'')
    (hQ : ∀ a s s', Q a s → R s s' → Q a s') :
    Meets T R (OnOk Q) (ask r : ExceptT ε (Program ρ α) (α r)).run s := by
  intro s' hs a s'' ht
  obtain ⟨hR, ha⟩ := h s' hs a s'' ht
  exact ⟨hR, fun s₃ hs₃ b hb => Except.ok.inj hb ▸ hQ a _ _ ha hs₃⟩

theorem meets_pure {Q : β → σ → Prop} {b : β} (h : ∀ s', R s s' → Q b s') :
    Meets T R (OnOk Q) (Pure.pure b : ExceptT ε (Program ρ α) β).run s :=
  fun s' hs _ hc => Except.ok.inj hc ▸ h s' hs

theorem meets_throw {Q : β → σ → Prop} {e : ε} :
    Meets T R (OnOk Q) (throw e : ExceptT ε (Program ρ α) β).run s :=
  fun _ _ _ hc => nomatch hc

/-- **A loop**: what its rounds have done holds when it is over. -/
theorem meets_forM (hrefl : ∀ s, R s s) (htrans : ∀ a b c, R a b → R b c → R a c)
    {body : β → ExceptT ε (Program ρ α) PUnit} {I : β → σ → Prop}
    (hstable : ∀ b s s', I b s → R s s' → I b s') (l : List β)
    (hbody : ∀ b ∈ l, ∀ s', R s s' → Meets T R (OnOk fun _ s => I b s) (body b).run s') :
    Meets T R (OnOk fun _ s => ∀ b ∈ l, I b s) (l.forM body).run s := by
  induction l generalizing s with
  | nil => exact meets_pure fun _ _ _ hb => absurd hb List.not_mem_nil
  | cons b l ih =>
    obtain ⟨hfirst, hrest⟩ := List.forall_mem_cons.mp hbody
    refine Meets.bindOk hrefl (((hfirst s (hrefl s)).reaches htrans).mono fun r s₁ h u hu => ?_)
    obtain ⟨hs, hdone⟩ := h
    have hloop := ih fun b' hb' s' hs' => hrest b' hb' s' (htrans _ _ _ hs hs')
    refine (hloop.reaches htrans).mono fun r' s₂ h' u' hu' => ?_
    exact List.forall_mem_cons.mpr ⟨hstable b _ _ (hdone u hu) h'.1, h'.2 u' hu'⟩

end MayFail

end Program

/-! ## 4. Programs at once -/

/-- The component, and its programs, with what each of them ends with. -/
structure Pool (σ ρ : Type) (α : ρ → Type) {ι : Type} (δ : ι → Type) where
  state : σ
  procs : (i : ι) → Program ρ α (δ i)

namespace Pool

open Program

variable [DecidableEq ι] {δ : ι → Type} {T : σ → (r : ρ) → α r → σ → Prop} {R : σ → σ → Prop}

/-- One of the programs makes its next call. -/
inductive Step (T : σ → (r : ρ) → α r → σ → Prop) : Pool σ ρ α δ → Pool σ ρ α δ → Prop where
  | call {c : Pool σ ρ α δ} {i : ι} {r : ρ} {next : α r → Program ρ α (δ i)} {a : α r} {s : σ}
      (calls : c.procs i = .call r next) (answers : T c.state r a s) :
      Step T c ⟨s, Function.update c.procs i (next a)⟩

/-- Any number of calls. -/
abbrev Run (T : σ → (r : ρ) → α r → σ → Prop) : Pool σ ρ α δ → Pool σ ρ α δ → Prop :=
  Relation.ReflTransGen (Step T)

/-- **Programs that keep to the discipline**, one by one, keep to it together, and what each of
them ends with is what it ends with for itself. -/
theorem run_meets (hrefl : ∀ s, R s s) (htrans : ∀ a b c, R a b → R b c → R a c)
    {Q : (i : ι) → δ i → σ → Prop} {c c' : Pool σ ρ α δ} (hrun : Run T c c')
    (h : ∀ i, (c.procs i).Meets T R (Q i) c.state) :
    R c.state c'.state ∧ ∀ i, (c'.procs i).Meets T R (Q i) c'.state := by
  induction hrun with
  | refl => exact ⟨hrefl _, h⟩
  | tail _ hstep ih =>
    obtain ⟨hreach, hmeets⟩ := ih
    cases hstep with
    | @call i r next a s calls answers =>
      have hi := hmeets i
      rw [calls] at hi
      obtain ⟨hR, hnext⟩ := hi _ (hrefl _) a s answers
      refine ⟨htrans _ _ _ hreach hR, fun j => ?_⟩
      rcases eq_or_ne j i with rfl | hj
      · simpa using hnext
      · simpa [hj] using (hmeets j).stable htrans hR

/-- What a program has ended with. -/
theorem run_done (hrefl : ∀ s, R s s) (htrans : ∀ a b c, R a b → R b c → R a c)
    {Q : (i : ι) → δ i → σ → Prop} {c c' : Pool σ ρ α δ} (hrun : Run T c c')
    (h : ∀ i, (c.procs i).Meets T R (Q i) c.state) {i : ι} {b : δ i}
    (hdone : c'.procs i = .pure b) : Q i b c'.state := by
  have hi := (run_meets hrefl htrans hrun h).2 i
  rw [hdone] at hi
  exact hi _ (hrefl _)

/-- **What one program has ended with**, by what it was to meet from a state on the way: the others
may be anywhere in theirs. -/
theorem run_done_of (hrefl : ∀ s, R s s) (htrans : ∀ a b c, R a b → R b c → R a c)
    {Q : (i : ι) → δ i → σ → Prop} {c c' : Pool σ ρ α δ} (hrun : Run T c c')
    (h : ∀ i, (c.procs i).Meets T R (Q i) c.state) {i : ι} {P : δ i → σ → Prop}
    (hi : (c.procs i).Meets T R P c.state) {b : δ i} (hdone : c'.procs i = .pure b) :
    P b c'.state := by
  have hall : ∀ j, (c.procs j).Meets T R (Function.update Q i P j) c.state := by
    intro j
    rcases eq_or_ne j i with rfl | hj
    · simpa using hi
    · simpa [hj] using h j
  simpa using run_done hrefl htrans hrun hall hdone

/-- A program that runs by itself, with the answers it gets alone. -/
theorem run_exec {f : σ → (r : ρ) → α r × σ} (hf : ∀ s r, T s r (f s r).1 (f s r).2) (i : ι) :
    ∀ {p : Program ρ α (δ i)} {c : Pool σ ρ α δ}, c.procs i = p →
      Run T c ⟨(p.exec f c.state).2, Function.update c.procs i (.pure (p.exec f c.state).1)⟩
  | .pure b, c, h => by
    have hprocs : Function.update c.procs i (.pure b) = c.procs := h ▸ Function.update_eq_self i _
    simp only [exec, hprocs]
    exact .refl
  | .call r next, c, h => by
    refine .head (.call h (hf c.state r)) ?_
    have hrest := run_exec hf i (c := ⟨(f c.state r).2,
      Function.update c.procs i (next (f c.state r).1)⟩) (Function.update_self i _ _)
    simpa only [exec, Function.update_idem] using hrest

/-- A program that runs by itself for some calls. -/
theorem run_after {f : σ → (r : ρ) → α r × σ} (hf : ∀ s r, T s r (f s r).1 (f s r).2) (i : ι) :
    ∀ (n : Nat) {p : Program ρ α (δ i)} {c : Pool σ ρ α δ}, c.procs i = p →
      Run T c ⟨(p.after f n c.state).2, Function.update c.procs i (p.after f n c.state).1⟩
  | n + 1, .call r next, c, h => by
    refine .head (.call h (hf c.state r)) ?_
    have hrest := run_after hf i n (c := ⟨(f c.state r).2,
      Function.update c.procs i (next (f c.state r).1)⟩) (Function.update_self i _ _)
    simpa only [after, Function.update_idem] using hrest
  | 0, p, c, h => by
    have hprocs : Function.update c.procs i p = c.procs := h ▸ Function.update_eq_self i _
    simp only [after, hprocs]
    exact .refl
  | _ + 1, .pure b, c, h => by
    have hprocs : Function.update c.procs i (.pure b) = c.procs := h ▸ Function.update_eq_self i _
    simp only [after, hprocs]
    exact .refl

end Pool
