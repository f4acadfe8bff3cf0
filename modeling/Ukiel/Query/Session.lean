/-
# The session of a namespace

`ukiel-query/src/context.rs`: a query of a namespace sees the tables of the namespace.  Which these
are is looked up in the catalog, in one statement for the list and in two for a table, while other
processes bootstrap tables (`Daemon/Bootstrap.lean`) and other sessions look theirs up.

`session_resolves`: what a session finds is always scoped to its namespace, and is the hypertable
of the name it was asked for; what was there when the session began is found.
-/
import Ukiel.Daemon.Bootstrap
import Ukiel.Query.Scan

namespace Ukiel.Query
open Ukiel.Catalog Ukiel.Catalog.Definitions Ukiel.Daemon

/-! ## 1. Sessions -/

inductive SessionError where
  | catalog (e : TableError)
  | schema (e : SchemaError)

/-- `UkielSchemaProvider`. -/
structure SchemaProvider where
  namespaceId : NamespaceId
  /-- The names when the session was built. -/
  tableNames : List String

/-- `session_for_namespace`. -/
def sessionForNamespace (ns : NamespaceId) : Caller SessionError SchemaProvider := do
  let tables ← call (.listLogicalTables ns) SessionError.catalog
  pure ⟨ns, tables.map LogicalTable.name⟩

namespace SchemaProvider

/-- `SchemaProvider::table`: the slice is the namespace. -/
def table (p : SchemaProvider) (name : String) : Caller SessionError (Option TableProvider) := do
  match ← Program.ask (Request.getLogicalTable p.namespaceId name) with
  | .ok logical =>
    let hypertable ← call (.getHypertableById logical.hypertableId) SessionError.catalog
    let provider ← ExceptT.mk (pure
      ((TableProvider.tryNew hypertable (some p.namespaceId)).mapError SessionError.schema))
    pure (some provider)
  | .error (.notFound _) => pure none
  | .error e => throw (.catalog e)

def tableExist (p : SchemaProvider) (name : String) : Bool := p.tableNames.any fun n => n = name

end SchemaProvider

/-- A query of a namespace builds its session and resolves a table. -/
def resolve (ns : NamespaceId) (name : String) :
    Caller SessionError (SchemaProvider × Option TableProvider) := do
  let session ← sessionForNamespace ns
  let provider ← session.table name
  pure (session, provider)

/-! ## 2. What a session finds -/

/-- The provider is that of the namespace's logical table of the name. -/
def Resolved (ns : NamespaceId) (name : String) (t : TableProvider) (s : Definitions) : Prop :=
  t.slice = some ns ∧ TableColumns.parse t.hypertable.tableSchema = .ok t.columns ∧
    ∃ l ∈ s.logicalTables, l.namespaceId = ns ∧ l.name = name ∧ l.hypertableId = t.hypertable.id ∧
      ∃ r ∈ s.hypertables, { r.hypertable with placement := t.hypertable.placement } = t.hypertable

section Ensures

variable {old : HypertableId} {s s' : Definitions}

/-- A hypertable that was read is there, but for its placement. -/
def Read (h : Hypertable) (s : Definitions) : Prop :=
  ∃ r ∈ s.hypertables, { r.hypertable with placement := h.placement } = h

theorem read_stable (h : Hypertable) : Stable old (Read h) := by
  rintro s s' hgrows ⟨r, hr, he⟩
  obtain ⟨r', hr', hdef⟩ := hgrows.rows r hr
  refine ⟨r', hr', Eq.trans ?_ he⟩
  rw [HypertableRow.definition, HypertableRow.definition, HypertableRow.mk.injEq] at hdef
  obtain ⟨hid, hname, hschema, hspec, hsort, hkey, -⟩ := hdef
  simp only [HypertableRow.hypertable, hid, hname, hschema, hspec, hsort, hkey]

theorem read_of_getHypertableById {id : HypertableId} {h : Hypertable}
    (hget : s.getHypertableById id = .ok h) : Read h s ∧ h.id = id := by
  unfold Definitions.getHypertableById at hget
  split at hget
  · rename_i r hfind
    cases hget
    have hid : r.id = id := by simpa using List.find?_some hfind
    exact ⟨⟨r, List.mem_of_find?_eq_some hfind, rfl⟩, hid⟩
  · cases hget

theorem resolved_stable (ns : NamespaceId) (name : String) (t : TableProvider) :
    Stable old (Resolved ns name t) := by
  rintro s s' hgrows ⟨hslice, hparse, l, hl, hns, hname, hid, hread⟩
  exact ⟨hslice, hparse, l, hgrows.logical l hl, hns, hname, hid,
    read_stable t.hypertable s s' hgrows hread⟩

/-- The names of a session: those of the logical tables when it was built. -/
theorem ensures_sessionForNamespace (ns : NamespaceId) (hs : Settled old s) :
    Ensures old (sessionForNamespace ns) (fun p s' => p.namespaceId = ns ∧
      (∀ name, Viewed name ns s → p.tableExist name = true) ∧
      ∀ name, p.tableExist name = true → Viewed name ns s') s := by
  have hlisted : ∀ (s : Definitions) name, (∃ l ∈ s.listLogicalTables ns, l.name = name) ↔
      Viewed name ns s := by
    intro s name
    simp [Definitions.listLogicalTables, Viewed, and_assoc]
  refine .bind hs (ensures_call (r := .listLogicalTables ns) (Q := fun tables s' =>
    (∀ name, Viewed name ns s → ∃ l ∈ tables, l.name = name) ∧
      ∀ name, (∃ l ∈ tables, l.name = name) → Viewed name ns s') hs (fun _ _ => trivial) ?_ ?_) ?_
  · intro s' tables hgrows _ hok
    cases hok
    exact ⟨fun name h => (hlisted s' name).mpr (viewed_stable name ns s s' hgrows h),
      fun name h => (hlisted s' name).mp h⟩
  · exact fun tables s₁ s₂ hgrows h =>
      ⟨h.1, fun name hname => viewed_stable name ns s₁ s₂ hgrows (h.2 name hname)⟩
  · rintro tables s₁ - hs₁ ⟨hall, honly⟩
    have hexist : ∀ name, SchemaProvider.tableExist ⟨ns, tables.map LogicalTable.name⟩ name = true ↔
        ∃ l ∈ tables, l.name = name := by
      simp [SchemaProvider.tableExist]
    refine ensures_pure hs₁ ⟨rfl, fun name h => (hexist name).mpr (hall name h), fun name h =>
      honly name ((hexist name).mp h)⟩ fun s₂ s₃ hgrows h => ⟨rfl, h.2.1, fun name hname =>
        viewed_stable name ns s₂ s₃ hgrows (h.2.2 name hname)⟩

/-- **A table is resolved** as that of the namespace, if it is there. -/
theorem ensures_table {p : SchemaProvider} (name : String) (hs : Settled old s) :
    Ensures old (p.table name) (fun t s' => (∀ t', t = some t' →
      Resolved p.namespaceId name t' s') ∧ (t = none → ¬ Viewed name p.namespaceId s)) s := by
  have hanswer : ∀ (s₁ : Definitions) a s₂, s.Grows old s₁ → Settled old s₁ →
      Answers s₁ (.getLogicalTable p.namespaceId name) a s₂ →
        (∀ l, a = .ok l → l ∈ s₂.logicalTables ∧ l.namespaceId = p.namespaceId ∧ l.name = name) ∧
          ∀ what, a = .error (.notFound what) → ¬ Viewed name p.namespaceId s := by
    intro s₁ a s₂ hgrows _ ha
    refine ⟨fun l hl => ?_, fun what hwhat hview => ?_⟩
    · obtain ⟨hok, rfl⟩ := ha.ok hl
      exact mem_of_getLogicalTable hok
    · obtain ⟨l, hget⟩ :=
        getLogicalTable_of_viewed (viewed_stable name p.namespaceId s s₁ hgrows hview)
      cases ha with
      | answered =>
        rw [show (s₁.answer (.getLogicalTable p.namespaceId name)).1 = _ from hget] at hwhat
        cases hwhat
      | _ => cases hwhat
  refine .bind hs (ensures_answer hs (fun _ _ => trivial) hanswer ?_) fun a s₁ _ hs₁ ha => ?_
  · rintro a s₁ s₂ hgrows ⟨hfound, hmissing⟩
    exact ⟨fun l hl => ⟨hgrows.logical l (hfound l hl).1, (hfound l hl).2⟩, hmissing⟩
  · split
    · rename_i l
      obtain ⟨hl, hns, hname⟩ := ha.1 l rfl
      refine .bind hs₁ (ensures_call (r := .getHypertableById l.hypertableId)
        (Q := fun h s => Read h s ∧ h.id = l.hypertableId) hs₁ (fun _ _ => trivial)
        (fun _ _ _ _ => read_of_getHypertableById)
        fun h s s' hgrows hread => ⟨read_stable h s s' hgrows hread.1, hread.2⟩)
        fun h s₂ hgrows₂ hs₂ hread => ?_
      refine .bind hs₂ (ensures_except hs₂) fun t s₃ hgrows₃ hs₃ ht => ?_
      obtain ⟨columns, hparse, rfl⟩ :=
        Except.map_eq_ok_iff.mp (Except.mapError_eq_ok_iff.mp ht)
      refine ensures_pure hs₃ ⟨fun t' ht' => ?_, by simp⟩ fun s₄ s₅ hgrows h =>
        ⟨fun t' ht' => resolved_stable p.namespaceId name t' s₄ s₅ hgrows (h.1 t' ht'), by simp⟩
      obtain rfl := Option.some.inj ht'
      exact ⟨rfl, hparse, l, hgrows₃.logical l (hgrows₂.logical l hl), hns, hname, hread.2.symm,
        read_stable h s₂ s₃ hgrows₃ hread.1⟩
    · rename_i what
      exact ensures_pure hs₁ ⟨by simp, fun _ => ha.2 what rfl⟩ fun _ _ _ h => ⟨by simp, h.2⟩
    · exact ensures_throw

/-- What a query that began in `s` has found. -/
def Found (ns : NamespaceId) (name : String) (s : Definitions)
    (r : SchemaProvider × Option TableProvider) (s' : Definitions) : Prop :=
  (∀ t, r.2 = some t → Resolved ns name t s') ∧ (Viewed name ns s → r.2.isSome) ∧
    (r.1.tableExist name = true → r.2.isSome)

theorem ensures_resolve (ns : NamespaceId) (name : String) (hs : Settled old s) :
    Ensures old (resolve ns name) (Found ns name s) s := by
  refine .bind hs (ensures_sessionForNamespace ns hs) fun p s₁ hgrows₁ hs₁ hp => ?_
  obtain ⟨rfl, -, honly⟩ := hp
  refine .bind hs₁ (ensures_table name hs₁) fun t s₂ _ hs₂ ht => ?_
  have hsome : Viewed name p.namespaceId s₁ → t.isSome := by
    intro hview
    by_contra hnone
    exact ht.2 (by simpa using hnone) hview
  refine ensures_pure hs₂ ⟨ht.1, fun hview => hsome (viewed_stable name _ s s₁ hgrows₁ hview),
    fun hexist => hsome (honly name hexist)⟩ fun s₃ s₄ hgrows h =>
      ⟨fun t' ht' => resolved_stable p.namespaceId name t' s₃ s₄ hgrows (h.1 t' ht'), h.2⟩

end Ensures

/-! ## 3. Sessions and boots at once -/

section Serving

variable {compiles : String → Schema → Field → Bool} {boots : Nat → List TableConfig}
  {queries : Nat → NamespaceId × String} {s : Definitions}

/-- What a process ends with. -/
abbrev Ends : Nat ⊕ Nat → Type
  | .inl _ => Except BootstrapError Unit
  | .inr _ => Except SessionError (SchemaProvider × Option TableProvider)

/-- Processes that boot, and queries. -/
def serving (compiles : String → Schema → Field → Bool) (boots : Nat → List TableConfig)
    (queries : Nat → NamespaceId × String) (s : Definitions) :
    Pool Definitions Request Request.Answer Ends where
  state := s
  procs
    | .inl i => (Daemon.apply compiles (boots i)).run
    | .inr j => (resolve (queries j).1 (queries j).2).run

/-- What holds when one of them has succeeded. -/
def Done (compiles : String → Schema → Field → Bool) (boots : Nat → List TableConfig)
    (queries : Nat → NamespaceId × String) (s : Definitions) :
    (i : Nat ⊕ Nat) → Ends i → Definitions → Prop
  | .inl i => Program.OnOk fun _ s' => Settled s.nextHypertable s' ∧ ∀ t ∈ boots i,
    t.check compiles = .ok () ∧ Present t s'
  | .inr j => Program.OnOk fun r s' => Settled s.nextHypertable s' ∧
    Found (queries j).1 (queries j).2 s r s'

theorem serving_meets (hwf : s.Wf) : ∀ i, ((serving compiles boots queries s).procs i).Meets
    Answers (Discipline s.nextHypertable) (Done compiles boots queries s i) s
  | .inl i => ensures_apply (boots i) ⟨hwf, le_rfl⟩
  | .inr j => ensures_resolve (queries j).1 (queries j).2 ⟨hwf, le_rfl⟩

/-- The name of the hypertable of a logical table. -/
theorem name_of_resolved {ns : NamespaceId} {name : String} {t : TableProvider} (hwf : s.Wf)
    (hlinked : s.Linked) (h : Resolved ns name t s) : t.hypertable.name = name := by
  obtain ⟨-, -, l, hl, -, rfl, hid, r, hr, he⟩ := h
  obtain ⟨r', hr', hid', hname'⟩ := hlinked l hl
  have hrid : r.id = t.hypertable.id := congrArg Hypertable.id he
  obtain rfl : r = r' :=
    List.inj_on_of_nodup_map hwf.ids hr hr' (hrid.trans (hid.symm.trans hid'.symm))
  exact (congrArg Hypertable.name he).symm.trans hname'

/-- **What a query finds**, while tables are made: a provider that is scoped to its namespace, of
the hypertable that the logical table of the name is linked to, which has that name too if boots
alone have linked them; and it finds one if there was one in the state it began in, or its session
lists one. -/
theorem session_resolves {c c' : Pool Definitions Request Request.Answer Ends} {j : Nat}
    {session : SchemaProvider} {provider : Option TableProvider} (hwf : s.Wf)
    (hrun : Pool.Run Answers (serving compiles boots queries s) c)
    -- the query begins in `c`
    (hbegin : c.procs (.inr j) = (resolve (queries j).1 (queries j).2).run)
    (hrun' : Pool.Run Answers c c')
    (hj : c'.procs (.inr j) = .pure (.ok (session, provider))) :
    (∀ t, provider = some t → Resolved (queries j).1 (queries j).2 t c'.state ∧
      (s.Linked → t.hypertable.name = (queries j).2)) ∧
    (Viewed (queries j).2 (queries j).1 c.state → provider.isSome) ∧
    (session.tableExist (queries j).2 = true → provider.isSome) := by
  obtain ⟨hreach, hmeets⟩ := Pool.run_meets (Discipline.refl _) (Discipline.trans _) hrun
    (serving_meets hwf)
  have hgrows := hreach ⟨hwf, le_rfl⟩
  have hs : Settled s.nextHypertable c.state := Settled.next ⟨hwf, le_rfl⟩ hgrows
  have hquery := ensures_resolve (queries j).1 (queries j).2 hs
  unfold Ensures at hquery
  rw [← hbegin] at hquery
  obtain ⟨-, hresolved, hviewed, hexist⟩ := Pool.run_done_of (Discipline.refl _)
    (Discipline.trans _) hrun' hmeets hquery hj _ rfl
  have hgrows' := hgrows.trans ((Pool.run_meets (Discipline.refl _) (Discipline.trans _) hrun'
    hmeets).1 hs)
  exact ⟨fun t ht => ⟨hresolved t ht, fun hlinked =>
    name_of_resolved hgrows'.wf (hgrows'.linked hlinked) (hresolved t ht)⟩, hviewed, hexist⟩

theorem session_resolves_clicks : ∃ c c', Pool.Run Answers (serving (fun _ _ _ => true)
    (fun _ => [clicks]) (fun _ => (smallI64 2, "clicks")) {}) c ∧
    Viewed "clicks" (smallI64 2) c.state ∧ Pool.Run Answers c c' ∧
    ∃ session t, c'.procs (.inr 0) = .pure (.ok (session, some t)) ∧
      t.slice = some (smallI64 2) ∧ t.hypertable.name = "clicks" := by
  set c₀ := serving (fun _ _ _ => true) (fun _ => [clicks])
    (fun _ => (smallI64 2, "clicks")) {}
  set s₁ := (alone (Daemon.apply (fun _ _ _ => true) [clicks]) {}).2
  -- a boot, and then a query
  obtain ⟨c, hboot, hstate, hproc⟩ : ∃ c : Pool Definitions Request Request.Answer Ends,
      Pool.Run Answers c₀ c ∧ c.state = s₁ ∧
        c.procs (.inr 0) = (resolve (smallI64 2) "clicks").run :=
    ⟨_, Pool.run_exec (fun s r => Answers.answered s r) (.inl 0) (c := c₀) rfl, rfl,
      by simp [c₀, serving]⟩
  have hquery := Pool.run_exec (fun s r => Answers.answered s r) (Sum.inr 0) hproc
  have hview : Viewed "clicks" (smallI64 2) c.state := by
    have h : ∃ l ∈ s₁.logicalTables, l.namespaceId = smallI64 2 ∧ l.name = "clicks" := by
      decide +kernel
    exact hstate ▸ h
  have hended : ((resolve (smallI64 2) "clicks").run.exec Definitions.answer s₁).1.isOk := by
    decide +kernel
  rw [← hstate] at hended
  rcases hexec : (resolve (smallI64 2) "clicks").run.exec Definitions.answer c.state with
    ⟨e | ⟨session, provider⟩, s₂⟩
  · rw [hexec] at hended
    cases hended
  · rw [hexec] at hquery
    obtain ⟨hfound, hviewed, -⟩ := @session_resolves _ _ _ _ _ _ 0 session provider empty_wf hboot
      hproc hquery (by simp)
    obtain ⟨t, rfl⟩ := Option.isSome_iff_exists.mp (hviewed hview)
    exact ⟨c, _, hboot, hview, hquery, session, t, by simp, (hfound t rfl).1.1,
      (hfound t rfl).2 (by simp [Definitions.Linked])⟩

end Serving

end Ukiel.Query
