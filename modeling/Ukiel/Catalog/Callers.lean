/-
# Callers of the catalog

Processes that define tables and look them up (`Definitions.lean`), any number of them at once.
A call of theirs adds to what is defined and leaves the rest as it is; the placement alone is set
after a hypertable is there, and is set only of a hypertable that was not there at the start
(`Discipline`).

What a caller finds out about the catalog is true from then on, whatever the others do (`Stable`).
`Ensures` has the rules by which that is carried from call to call.
-/
import Ukiel.Catalog.Definitions
import Ukiel.Lib.Programs

namespace Ukiel.Catalog

/-- What a process does, with errors of its own. -/
abbrev Caller (ε : Type) := ExceptT ε (Program Request Request.Answer)

namespace Definitions

variable {β γ ε : Type} {old : HypertableId} {s s' : Definitions}

/-- A call, and `?`. -/
def call (r : Request) (context : TableError → ε) : Caller ε r.Value := do
  match ← Program.ask r with
  | .ok v => pure v
  | .error e => throw (context e)

/-! ## 1. Callers at once -/

/-- The ids below `old` are given out. -/
def Settled (old : HypertableId) (s : Definitions) : Prop := s.Wf ∧ old ≤ s.nextHypertable

theorem Settled.next (h : Settled old s) (hs : s.Grows old s') : Settled old s' :=
  ⟨hs.wf, h.2.trans hs.next⟩

/-- What every call keeps to, from a state in which the ids below `old` are given out. -/
def Discipline (old : HypertableId) (s s' : Definitions) : Prop := Settled old s → s.Grows old s'

theorem Discipline.refl (old : HypertableId) (s : Definitions) : Discipline old s s :=
  fun h => h.1.grows

theorem Discipline.trans (old : HypertableId) (a b c : Definitions) (h : Discipline old a b)
    (h' : Discipline old b c) : Discipline old a c :=
  fun ha => (h ha).trans (h' (ha.next (h ha)))

/-- What stays when the catalog grows. -/
def Stable (old : HypertableId) (P : Definitions → Prop) : Prop :=
  ∀ s s', s.Grows old s' → P s → P s'

/-- A caller, among others: it keeps to the discipline, and what holds when it succeeds. -/
def Ensures (old : HypertableId) (x : Caller ε β) (Q : β → Definitions → Prop) (s : Definitions) :
    Prop :=
  Program.Meets Definitions.Answers (Discipline old)
    (Program.OnOk fun b s => Settled old s ∧ Q b s) x.run s

theorem ensures_pure {b : β} {Q : β → Definitions → Prop} (hs : Settled old s) (h : Q b s)
    (hQ : Stable old (Q b)) : Ensures old (pure b : Caller ε β) Q s :=
  Program.meets_pure fun _ hR => ⟨hs.next (hR hs), hQ _ _ (hR hs) h⟩

theorem ensures_throw {e : ε} {Q : β → Definitions → Prop} :
    Ensures old (throw e : Caller ε β) Q s := Program.meets_throw

/-- A check that does not look at the catalog. -/
theorem ensures_except {r : Except ε β} (hs : Settled old s) :
    Ensures old (ExceptT.mk (pure r)) (fun b _ => r = .ok b) s :=
  fun _ hR _ hb => ⟨hs.next (hR hs), hb⟩

theorem Ensures.bind {x : Caller ε β} {g : β → Caller ε γ} {Q : β → Definitions → Prop}
    {P : γ → Definitions → Prop} (hs : Settled old s) (h : Ensures old x Q s)
    (hg : ∀ b s', s.Grows old s' → Settled old s' → Q b s' → Ensures old (g b) P s') :
    Ensures old (x >>= g) P s := by
  refine Program.Meets.bindOk (Discipline.refl old)
    ((h.reaches (Discipline.trans old)).mono fun _ s' hb b he => ?_)
  exact hg b s' (hb.1 hs) (hb.2 b he).1 (hb.2 b he).2

/-- What stays when the catalog grows is there when a caller has succeeded. -/
theorem Ensures.and {x : Caller ε β} {Q : β → Definitions → Prop} {P : Definitions → Prop}
    (hs : Settled old s) (h : Ensures old x Q s) (hP : Stable old P) (hp : P s) :
    Ensures old x (fun b s => P s ∧ Q b s) s :=
  (h.reaches (Discipline.trans old)).mono fun _ s' hb b he =>
    ⟨(hb.2 b he).1, hP s s' (hb.1 hs) hp, (hb.2 b he).2⟩

/-- **A call among others**, whatever has become of it. -/
theorem ensures_answer {r : Request} {Q : r.Answer → Definitions → Prop} (hs : Settled old s)
    (hallowed : ∀ s', s.Grows old s' → s'.Allowed old r)
    (hanswer : ∀ s' a s'', s.Grows old s' → Settled old s' → Answers s' r a s'' → Q a s'')
    (hQ : ∀ a, Stable old (Q a)) : Ensures old (Program.ask r : Caller ε r.Answer) Q s := by
  refine Program.meets_ask (fun s' hR a s'' ha => ?_) ?_
  · have hs' := hs.next (hR hs)
    have hgrows : s'.Grows old s'' := ha.grows hs'.1 (hallowed s' (hR hs))
    exact ⟨fun _ => hgrows, hs'.next hgrows, hanswer s' a s'' (hR hs) hs' ha⟩
  · rintro a s s' ⟨hs, h⟩ hR
    exact ⟨hs.next (hR hs), hQ a _ _ (hR hs) h⟩

/-- **A call among others** that succeeds: what it is answered holds of the state it is carried out
in. -/
theorem ensures_ask {r : Request} {Q : r.Value → Definitions → Prop} (hs : Settled old s)
    (hallowed : ∀ s', s.Grows old s' → s'.Allowed old r)
    (hanswer : ∀ s' v, s.Grows old s' → Settled old s' → (s'.answer r).1 = .ok v →
      Q v (s'.answer r).2)
    (hQ : ∀ v, Stable old (Q v)) :
    Ensures old (Program.ask r : Caller ε r.Answer) (fun a s => ∀ v, a = .ok v → Q v s) s := by
  refine ensures_answer hs hallowed (fun s' a s'' hgrows hs' ha v hv => ?_)
    fun a s s' hgrows h v hv => hQ v s s' hgrows (h v hv)
  obtain ⟨hok, rfl⟩ := ha.ok hv
  exact hanswer s' v hgrows hs' hok

theorem ensures_call {r : Request} {context : TableError → ε}
    {Q : r.Value → Definitions → Prop} (hs : Settled old s)
    (hallowed : ∀ s', s.Grows old s' → s'.Allowed old r)
    (hanswer : ∀ s' v, s.Grows old s' → Settled old s' → (s'.answer r).1 = .ok v →
      Q v (s'.answer r).2)
    (hQ : ∀ v, Stable old (Q v)) : Ensures old (call r context) Q s := by
  refine .bind hs (ensures_ask hs hallowed hanswer hQ) fun a s' _ hs' ha => ?_
  cases a with
  | ok v => exact ensures_pure hs' (ha v rfl) (hQ v)
  | error e => exact ensures_throw

theorem ensures_forM {body : β → Caller ε Unit} {I : β → Definitions → Prop}
    (hI : ∀ b, Stable old (I b)) (l : List β) (hs : Settled old s)
    (hbody : ∀ b ∈ l, ∀ s', Settled old s' → s.Grows old s' →
      Ensures old (body b) (fun _ => I b) s') :
    Ensures old (l.forM body) (fun _ s => ∀ b ∈ l, I b s) s := by
  have hloop := Program.meets_forM (T := Definitions.Answers) (R := Discipline old) (s := s)
    (Discipline.refl old) (Discipline.trans old) (I := fun b s => Settled old s ∧ I b s)
    (fun b s s' h hR => ⟨h.1.next (hR h.1), hI b _ _ (hR h.1) h.2⟩) l
    (fun b hb s' hR => hbody b hb s' (hs.next (hR hs)) (hR hs))
  refine (hloop.reaches (Discipline.trans old)).mono fun r s' h u hu => ?_
  exact ⟨hs.next (h.1 hs), fun b hb => (h.2 u hu b hb).2⟩

/-- The hypertable of an id and a name is there. -/
def Known (name : String) (id : HypertableId) (s : Definitions) : Prop :=
  ∃ r ∈ s.hypertables, r.id = id ∧ r.name = name

theorem known_stable (name : String) (id : HypertableId) : Stable old (Known name id) := by
  rintro s s' hgrows ⟨r, hr, rfl, rfl⟩
  exact hgrows.row hr

/-- The logical table of a name is there. -/
def Viewed (name : String) (ns : NamespaceId) (s : Definitions) : Prop :=
  ∃ l ∈ s.logicalTables, l.namespaceId = ns ∧ l.name = name

theorem viewed_stable (name : String) (ns : NamespaceId) : Stable old (Viewed name ns) :=
  fun _ _ hgrows ⟨l, hl, he⟩ => ⟨l, hgrows.logical l hl, he⟩

theorem known_of_getHypertable {name : String} {h : Hypertable}
    (hget : s.getHypertable name = .ok h) : Known name h.id s := by
  unfold Definitions.getHypertable at hget
  split at hget
  · rename_i r hfind
    cases hget
    exact ⟨r, List.mem_of_find?_eq_some hfind, rfl, by simpa using List.find?_some hfind⟩
  · cases hget

theorem mem_of_getLogicalTable {name : String} {ns : NamespaceId} {l : LogicalTable}
    (hget : s.getLogicalTable ns name = .ok l) :
    l ∈ s.logicalTables ∧ l.namespaceId = ns ∧ l.name = name := by
  unfold Definitions.getLogicalTable at hget
  split at hget
  · rename_i l' hfind
    cases hget
    exact ⟨List.mem_of_find?_eq_some hfind, by simpa using List.find?_some hfind⟩
  · cases hget

theorem viewed_of_getLogicalTable {name : String} {ns : NamespaceId} {l : LogicalTable}
    (hget : s.getLogicalTable ns name = .ok l) : Viewed name ns s :=
  ⟨l, mem_of_getLogicalTable hget⟩

/-! ## 2. A caller alone -/

/-- A caller that has the catalog for itself, and is answered. -/
abbrev alone (x : Caller ε β) (s : Definitions) : Except ε β × Definitions :=
  x.run.exec Definitions.answer s

theorem getHypertable_of_known {name : String} {id : HypertableId} (h : Known name id s) :
    ∃ h, s.getHypertable name = .ok h := by
  obtain ⟨r, hr, -, hname⟩ := h
  obtain ⟨r', hr'⟩ := Option.isSome_iff_exists.mp
    (List.find?_isSome (p := fun r : HypertableRow => r.name = name) |>.mpr ⟨r, hr, by simpa⟩)
  exact ⟨r'.hypertable, by simp only [Definitions.getHypertable, hr']⟩

theorem getLogicalTable_of_viewed {name : String} {ns : NamespaceId} (h : Viewed name ns s) :
    ∃ l, s.getLogicalTable ns name = .ok l := by
  obtain ⟨l, hl, he⟩ := h
  obtain ⟨l', hl'⟩ := Option.isSome_iff_exists.mp (List.find?_isSome
    (p := fun l : LogicalTable => l.namespaceId = ns ∧ l.name = name) |>.mpr ⟨l, hl, by simpa⟩)
  exact ⟨l', by simp only [Definitions.getLogicalTable, hl']⟩

theorem alone_except {r : Except ε β} {b : β} :
    alone (ExceptT.mk (pure r)) s = (.ok b, s') ↔ r = .ok b ∧ s' = s := by
  refine ⟨fun h => ⟨(Prod.mk.inj h).1, (Prod.mk.inj h).2.symm⟩, ?_⟩
  rintro ⟨rfl, rfl⟩
  rfl

theorem alone_call {r : Request} {context : TableError → ε} {v : r.Value} :
    alone (call r context) s = (.ok v, s') ↔ s.answer r = (.ok v, s') := by
  unfold alone call
  rw [Program.exec_run_bind_eq_ok]
  constructor
  · rintro ⟨a, s₁, hask, h⟩
    cases hask
    revert h
    generalize s.answer r = a
    rcases a with ⟨e | v', s₁⟩
    · intro h
      cases h
    · intro h
      cases h
      rfl
  · intro h
    refine ⟨.ok v, s', ?_, rfl⟩
    exact congrArg (fun a : r.Answer × Definitions => (Except.ok a.1, a.2)) h

/-- What a caller ensures among others it ensures alone. -/
theorem Ensures.alone {old : HypertableId} {x : Caller ε β} {Q : β → Definitions → Prop} {b : β}
    (hs : Settled old s) (h : Ensures old x Q s) (hexec : alone x s = (.ok b, s')) :
    s.Grows old s' ∧ Q b s' := by
  obtain ⟨hR, hQ⟩ := Program.Meets.exec (Discipline.refl old) (Discipline.trans old)
    (fun s r => Definitions.Answers.answered s r) h
  rw [show x.run.exec Definitions.answer s = _ from hexec] at hR hQ
  exact ⟨hR hs, (hQ b rfl).2⟩

end Definitions

end Ukiel.Catalog
