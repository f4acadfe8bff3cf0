/-
# Registering pipelines

`ukiel-catalog/src/pipelines.rs`: `ensure_pipeline`, in any number of transactions at once.  Every
statement is a step of its own and reads what is committed then (READ COMMITTED); all that keeps
two registrations apart is the advisory lock each takes first and holds to its end.

* §1 definitions, the tables and the transactions.
* §2 the statements, in the order of the source.
* §3 what a transaction that has the lock has found out stays true (`Registry.Ok`), because only
  the one that has it inserts.
* §4 the graph of the hypertables in every state that is reached.
-/
import Mathlib.Data.List.AList
import Mathlib.Data.List.Nodup
import Ukiel.Core.Types
import Ukiel.Lib.Graphs
import Ukiel.Lib.Lts

namespace Ukiel.Catalog

/-! ## 1. State -/

inductive Endpoint where
  | kafka (streamTable : Int)
  | parquet (hypertable : HypertableId)
deriving DecidableEq

def Endpoint.id : Endpoint → Int
  | .kafka id => id
  | .parquet id => id

/-- `ErrorPolicy`: what a data error of the pipeline does. -/
inductive OnDataError where
  | stall
  | skip
deriving DecidableEq

inductive Delivery where
  | exactlyOnce
deriving DecidableEq

structure PipelineDefinition where
  name : String
  source : Endpoint
  target : HypertableId
  sql : String
  delivery : Delivery
  errorPolicy : OnDataError
  eventTimeColumn : Option String
deriving DecidableEq

/-- A row of `pipelines`. -/
structure PipelineRow where
  id : Int
  definition : PipelineDefinition
deriving DecidableEq

inductive EnsureError where
  | invalidPipeline (reason : String)
  /-- The database did not answer, or not with what was asked for. -/
  | sqlx
deriving DecidableEq

/-- The statement a transaction executes next. -/
inductive Stage where
  | lock
  | lookup
  | source
  | target (sourceExists : Bool)
  | cycle
  | insert
  /-- `COMMIT`, of an old row or of one this transaction has inserted. -/
  | commit (found : PipelineRow) (inserted : Bool)
deriving DecidableEq

/-- A call of `ensure_pipeline` in its transaction. -/
structure EnsureCall where
  definition : PipelineDefinition
  stage : Stage
deriving DecidableEq

structure Registry where
  hypertables : List HypertableId
  streamTables : List Int
  /-- The committed rows. -/
  pipelines : List PipelineRow := []
  /-- The sequence of the ids.  No rollback takes it back. -/
  nextId : Int := 1
  /-- Who holds the advisory lock `(20123, 8)`. -/
  lock : Option Nat := none
  calls : AList (fun _ : Nat => EnsureCall) := ∅
  outcomes : AList (fun _ : Nat => Except EnsureError PipelineRow) := ∅

/-! ## 2. `ensure_pipeline` -/

/-- `White_Space`, what `trim` takes off. -/
def whiteSpace (c : Char) : Bool :=
  let n := c.toNat
  (9 ≤ n && n ≤ 13) || n = 32 || n = 133 || n = 160 || n = 5760 || (8192 ≤ n && n ≤ 8202) ||
    n = 8232 || n = 8233 || n = 8239 || n = 8287 || n = 12288

/-- `trim().is_empty()`. -/
def blank (s : String) : Bool := s.toList.all whiteSpace

/-- The check before the transaction. -/
def PipelineDefinition.valid (d : PipelineDefinition) : Prop :=
  blank d.name = false ∧ blank d.sql = false ∧ 0 < d.source.id ∧ 0 < d.target

instance (d : PipelineDefinition) : Decidable d.valid := by
  unfold PipelineDefinition.valid; infer_instance

/-- The rows with a Parquet source, as edges. -/
def parquetEdges (rows : List PipelineRow) : List (HypertableId × HypertableId) :=
  rows.filterMap fun r =>
    match r.definition.source with
    | .parquet source => some (source, r.definition.target)
    | .kafka _ => none

/-- The recursive query `reachable`, from one hypertable.  Its rounds end when one finds no new
row, which the last of as many rounds as there are edges does at the latest. -/
def reachable (rows : List PipelineRow) (start : HypertableId) : List HypertableId :=
  Edges.closure (parquetEdges rows) ((parquetEdges rows).length + 1) [start] [start]

/-- The constraints of the table: the unique name, the check against a loop, the foreign key. -/
def Registry.insertable (s : Registry) (d : PipelineDefinition) : Prop :=
  d.name ∉ (s.pipelines.map fun r => r.definition.name) ∧ d.source ≠ .parquet d.target ∧
    d.target ∈ s.hypertables

instance (s : Registry) (d : PipelineDefinition) : Decidable (s.insertable d) := by
  unfold Registry.insertable; infer_instance

inductive EnsureEvent where
  | createHypertable (h : HypertableId)
  | createStreamTable (id : Int)
  /-- `ensure_pipeline` is called. -/
  | call (t : Nat) (d : PipelineDefinition)
  /-- The transaction's next statement. -/
  | run (t : Nat)
  /-- The transaction fails, or its call is dropped. -/
  | fail (t : Nat)
  /-- The transaction commits and the answer is lost. -/
  | lost (t : Nat)

/-- The transaction is over, and with it its lock. -/
def Registry.finish (s : Registry) (t : Nat) (outcome : Except EnsureError PipelineRow) :
    Registry :=
  { s with
    calls := s.calls.erase t
    lock := if s.lock = some t then none else s.lock
    outcomes := s.outcomes.insert t outcome }

def Registry.goto (s : Registry) (t : Nat) (c : EnsureCall) (stage : Stage) : Registry :=
  { s with calls := s.calls.insert t { c with stage := stage } }

/-- The rows after a `COMMIT`. -/
def Registry.committed (s : Registry) (found : PipelineRow) (inserted : Bool) :
    List PipelineRow :=
  if inserted then s.pipelines ++ [found] else s.pipelines

/-- One statement. -/
def Registry.statement (s : Registry) (t : Nat) (c : EnsureCall) : Option Registry :=
  let reject (reason : String) := s.finish t (.error (.invalidPipeline reason))
  match c.stage with
  | .lock =>
    match s.lock with
    | some _ => none
    | none => some { s.goto t c .lookup with lock := some t }
  | .lookup =>
    match s.pipelines.find? fun r => r.definition.name = c.definition.name with
    | some found =>
      if found.definition = c.definition then some (s.goto t c (.commit found false))
      else some (reject
        ("pipeline " ++ c.definition.name ++ " differs from its immutable definition"))
    | none => some (s.goto t c .source)
  | .source =>
    match c.definition.source with
    | .kafka id => some (s.goto t c (.target (decide (id ∈ s.streamTables))))
    | .parquet id => some (s.goto t c (.target (decide (id ∈ s.hypertables))))
  | .target sourceExists =>
    if sourceExists = true ∧ c.definition.target ∈ s.hypertables then
      match c.definition.source with
      | .parquet _ => some (s.goto t c .cycle)
      | .kafka _ => some (s.goto t c .insert)
    else some (reject "pipeline endpoint does not exist in the declared kind")
  | .cycle =>
    if c.definition.source.id ∈ reachable s.pipelines c.definition.target then
      some (reject "pipeline would create a cycle")
    else some (s.goto t c .insert)
  | .insert =>
    -- the id is drawn before the constraints are looked at
    let s' := { s with nextId := s.nextId + 1 }
    if s.insertable c.definition then
      some (s'.goto t c (.commit ⟨s.nextId, c.definition⟩ true))
    else some (s'.finish t (.error .sqlx))
  | .commit found inserted =>
    some { s.finish t (.ok found) with pipelines := s.committed found inserted }

/-- **One step of the registry.** -/
def ensureStep (s : Registry) : EnsureEvent → Option Registry
  | .createHypertable h => some { s with hypertables := h :: s.hypertables }
  | .createStreamTable id => some { s with streamTables := id :: s.streamTables }
  | .call t d =>
    if t ∈ s.calls ∨ t ∈ s.outcomes then none
    else if d.valid then some { s with calls := s.calls.insert t ⟨d, .lock⟩ }
    else some (s.finish t (.error (.invalidPipeline
      "pipeline name, SQL, and valid endpoints are required")))
  | .run t => (s.calls.lookup t).bind (s.statement t)
  | .fail t =>
    match s.calls.lookup t with
    | none => none
    | some _ => some (s.finish t (.error .sqlx))
  | .lost t =>
    match s.calls.lookup t with
    | some ⟨_, .commit found inserted⟩ =>
      some { s.finish t (.error .sqlx) with pipelines := s.committed found inserted }
    | _ => none

/-! ## 3. What the lock protects -/

theorem mem_reachable {rows : List PipelineRow} {a b : HypertableId} :
    b ∈ reachable rows a ↔ Edges.Reach (parquetEdges rows) a b := by
  have hrounds : Edges.missing (parquetEdges rows) [a] < (parquetEdges rows).length + 1 := by
    have hle : Edges.missing (parquetEdges rows) [a] ≤ (parquetEdges rows).length :=
      calc _ ≤ ((parquetEdges rows).map Prod.snd).toFinset.card :=
            Finset.card_le_card Finset.sdiff_subset
        _ ≤ ((parquetEdges rows).map Prod.snd).length := List.toFinset_card_le _
        _ = _ := List.length_map ..
    omega
  unfold reachable
  rw [Edges.mem_closure_iff hrounds (List.Subset.refl _) fun x hx hnot => absurd hx hnot]
  simp

theorem parquetEdges_append (rows : List PipelineRow) (r : PipelineRow) :
    parquetEdges (rows ++ [r]) = parquetEdges rows ++ parquetEdges [r] :=
  List.filterMap_append ..

/-- **One more row keeps the graph acyclic** if its target does not lead back to its source. -/
theorem acyclic_append {rows : List PipelineRow} {r : PipelineRow}
    (h : Edges.Acyclic (parquetEdges rows))
    (hr : ∀ source, r.definition.source = .parquet source →
      ¬ Edges.Reach (parquetEdges rows) r.definition.target source) :
    Edges.Acyclic (parquetEdges (rows ++ [r])) := by
  rw [parquetEdges_append]
  cases hsource : r.definition.source with
  | kafka id => simpa [parquetEdges, hsource] using h
  | parquet source =>
    have hone : parquetEdges [r] = [(source, r.definition.target)] := by
      simp [parquetEdges, hsource]
    rw [hone]
    exact (Edges.acyclic_cons_iff.mpr ⟨h, hr source hsource⟩).perm List.perm_append_comm

/-- The names in use. -/
def names (rows : List PipelineRow) : List String := rows.map fun r => r.definition.name

/-- What a transaction has found out by the time it executes its next statement. -/
def EnsureCall.Knows (c : EnsureCall) (rows : List PipelineRow) : Prop :=
  match c.stage with
  | .lock | .lookup => True
  | .source | .target _ | .cycle => c.definition.name ∉ names rows
  | .insert => c.definition.name ∉ names rows ∧
      ∀ source, c.definition.source = .parquet source →
        ¬ Edges.Reach (parquetEdges rows) c.definition.target source
  | .commit found inserted => found.definition = c.definition ∧
      if inserted = true then
        c.definition.name ∉ names rows ∧ Edges.Acyclic (parquetEdges (rows ++ [found]))
      else found ∈ rows

/-- **The invariant**: the graph is acyclic, and every transaction that is past its first
statement has the lock and what it has found out is true. -/
structure Registry.Ok (s : Registry) : Prop where
  acyclic : Edges.Acyclic (parquetEdges s.pipelines)
  names : (names s.pipelines).Nodup
  holder : ∀ t, s.lock = some t → t ∈ s.calls
  locked : ∀ t c, s.calls.lookup t = some c → c.stage ≠ .lock → s.lock = some t
  knows : ∀ t c, s.calls.lookup t = some c → c.Knows s.pipelines
  /-- A call that is open has no outcome yet. -/
  apart : ∀ t ∈ s.calls, t ∉ s.outcomes

variable {s s' : Registry} {t : Nat} {c : EnsureCall}

theorem Registry.Ok.goto (h : s.Ok) (hc : s.calls.lookup t = some c) (hpast : c.stage ≠ .lock)
    {stage : Stage} (hknows : ({ c with stage := stage } : EnsureCall).Knows s.pipelines) :
    (s.goto t c stage).Ok where
  acyclic := h.acyclic
  names := h.names
  holder u hu := AList.mem_insert _ |>.mpr (Or.inr (h.holder u hu))
  locked u c' hu hstage := by
    by_cases hut : u = t
    · exact hut ▸ h.locked t c hc hpast
    · exact h.locked u c' ((AList.lookup_insert_ne hut).symm.trans hu) hstage
  knows u c' hu := by
    by_cases hut : u = t
    · subst hut
      cases (AList.lookup_insert ..).symm.trans hu
      exact hknows
    · exact h.knows u c' ((AList.lookup_insert_ne hut).symm.trans hu)
  apart u hu := by
    rcases (AList.mem_insert _).mp hu with rfl | hu
    · exact h.apart u (AList.lookup_isSome.mp (by rw [hc]; rfl))
    · exact h.apart u hu

theorem Registry.lookup_finish {outcome : Except EnsureError PipelineRow} {u : Nat}
    {c' : EnsureCall} (h : (s.finish t outcome).calls.lookup u = some c') :
    u ≠ t ∧ s.calls.lookup u = some c' := by
  have hut : u ≠ t := by
    rintro rfl
    cases (AList.lookup_erase ..).symm.trans h
  exact ⟨hut, (AList.lookup_erase_ne hut).symm.trans h⟩

theorem Registry.Ok.finish (h : s.Ok) (outcome : Except EnsureError PipelineRow) :
    (s.finish t outcome).Ok where
  acyclic := h.acyclic
  names := h.names
  holder u hu := by
    simp only [Registry.finish] at hu
    split at hu
    · cases hu
    · rename_i hne
      refine AList.mem_erase.mpr ⟨?_, h.holder u hu⟩
      rintro rfl
      exact hne hu
  locked u c' hu hstage := by
    obtain ⟨hut, hu⟩ := Registry.lookup_finish hu
    have hlock := h.locked u c' hu hstage
    simp only [Registry.finish]
    rw [if_neg ?_]
    · exact hlock
    · rw [hlock]
      exact fun heq => hut (Option.some.inj heq)
  knows u c' hu := h.knows u c' (Registry.lookup_finish hu).2
  apart u hu := by
    obtain ⟨hut, hu⟩ := AList.mem_erase.mp hu
    exact fun hmem => ((AList.mem_insert _).mp hmem).elim hut (h.apart u hu)

/-- The transaction that has the lock commits: every other one is before its first statement. -/
theorem Registry.Ok.commit (h : s.Ok) {found : PipelineRow} {inserted : Bool}
    (hc : s.calls.lookup t = some c) (hstage : c.stage = .commit found inserted)
    (outcome : Except EnsureError PipelineRow) :
    Registry.Ok { s.finish t outcome with pipelines := s.committed found inserted } := by
  have hfin : (s.finish t outcome).Ok := h.finish outcome
  have hknows := h.knows t c hc
  rw [EnsureCall.Knows, hstage] at hknows
  obtain ⟨hdef, hknows⟩ := hknows
  cases inserted with
  | false => exact hfin
  | true =>
    simp only [if_true] at hknows
    refine ⟨hknows.2, ?_, hfin.holder, hfin.locked, ?_, hfin.apart⟩
    · simp only [Registry.committed, if_true, Catalog.names, List.map_append, List.map_cons,
        List.map_nil]
      refine List.nodup_append.mpr ⟨h.names, by simp, ?_⟩
      rintro name hname name' hname' rfl
      rw [List.mem_singleton] at hname'
      rw [hname', hdef] at hname
      exact hknows.1 hname
    · intro u c' hu
      have hlocked : c'.stage = .lock := by
        by_contra hpast
        have hmine := hfin.locked u c' hu hpast
        have hlock : s.lock = some t := h.locked t c hc (by rw [hstage]; simp)
        simp only [Registry.finish, if_pos hlock] at hmine
        cases hmine
      simp only [EnsureCall.Knows, hlocked]

/-- The first statement takes the lock. -/
theorem Registry.Ok.lock (h : s.Ok) (hc : s.calls.lookup t = some c) (hfree : s.lock = none) :
    Registry.Ok { s.goto t c .lookup with lock := some t } := by
  have hothers : ∀ u c', s.calls.lookup u = some c' → c'.stage = .lock := by
    intro u c' hu
    by_contra hpast
    have := h.locked u c' hu hpast
    rw [hfree] at this
    cases this
  have hgoto : ∀ u ∈ (s.goto t c .lookup).calls, u ∉ s.outcomes := by
    intro u hu
    rcases (AList.mem_insert _).mp hu with rfl | hu
    · exact h.apart u (AList.lookup_isSome.mp (by rw [hc]; rfl))
    · exact h.apart u hu
  refine ⟨h.acyclic, h.names, ?_, ?_, ?_, hgoto⟩
  · rintro u hu
    cases hu
    exact AList.mem_insert _ |>.mpr (Or.inl rfl)
  · intro u c' hu hstage
    by_cases hut : u = t
    · rw [hut]
    · exact absurd (hothers u c' ((AList.lookup_insert_ne hut).symm.trans hu)) hstage
  · intro u c' hu
    by_cases hut : u = t
    · subst hut
      cases (AList.lookup_insert ..).symm.trans hu
      trivial
    · exact h.knows u c' ((AList.lookup_insert_ne hut).symm.trans hu)

/-- **What one statement does**: it takes the lock, finds something out, rejects, inserts or
fails to, or commits. -/
theorem Registry.statement_cases (hs : s.statement t c = some s') :
    (c.stage = .lock ∧ s.lock = none ∧ s' = { s.goto t c .lookup with lock := some t }) ∨
    (∃ stage, c.stage ≠ .lock ∧ s' = s.goto t c stage ∧
      (c.Knows s.pipelines → ({ c with stage := stage } : EnsureCall).Knows s.pipelines)) ∨
    (∃ reason, s' = s.finish t (.error (.invalidPipeline reason))) ∨
    (c.stage = .insert ∧ s' = Registry.goto { s with nextId := s.nextId + 1 } t c
      (.commit ⟨s.nextId, c.definition⟩ true)) ∨
    (c.stage = .insert ∧ s' = Registry.finish { s with nextId := s.nextId + 1 } t
      (.error .sqlx)) ∨
    ∃ found inserted, c.stage = .commit found inserted ∧
      s' = { s.finish t (.ok found) with pipelines := s.committed found inserted } := by
  unfold Registry.statement at hs
  unfold EnsureCall.Knows
  cases hstage : c.stage with
  | lock =>
    simp only [hstage] at hs
    split at hs
    · cases hs
    · rename_i hfree
      exact Or.inl ⟨rfl, hfree, (Option.some.inj hs).symm⟩
  | lookup =>
    simp only [hstage] at hs
    split at hs
    · rename_i found hfound
      split at hs
      · rename_i hsame
        refine Or.inr (Or.inl ⟨_, by simp, (Option.some.inj hs).symm, fun _ => ⟨hsame, ?_⟩⟩)
        simpa using List.mem_of_find?_eq_some hfound
      · exact Or.inr (Or.inr (Or.inl ⟨_, (Option.some.inj hs).symm⟩))
    · rename_i hnone
      refine Or.inr (Or.inl ⟨_, by simp, (Option.some.inj hs).symm, fun _ hname => ?_⟩)
      obtain ⟨r, hr, heq⟩ := List.mem_map.mp hname
      exact List.find?_eq_none.mp hnone r hr (by simpa using heq)
  | source =>
    simp only [hstage] at hs
    split at hs
    · exact Or.inr (Or.inl ⟨_, by simp, (Option.some.inj hs).symm, id⟩)
    · exact Or.inr (Or.inl ⟨_, by simp, (Option.some.inj hs).symm, id⟩)
  | target sourceExists =>
    simp only [hstage] at hs
    split at hs
    · split at hs
      · exact Or.inr (Or.inl ⟨_, by simp, (Option.some.inj hs).symm, id⟩)
      · rename_i id hsource
        refine Or.inr (Or.inl ⟨_, by simp, (Option.some.inj hs).symm, fun hname => ⟨hname, ?_⟩⟩)
        intro source hparquet
        rw [hsource] at hparquet
        cases hparquet
    · exact Or.inr (Or.inr (Or.inl ⟨_, (Option.some.inj hs).symm⟩))
  | cycle =>
    simp only [hstage] at hs
    split at hs
    · exact Or.inr (Or.inr (Or.inl ⟨_, (Option.some.inj hs).symm⟩))
    · rename_i hnot
      refine Or.inr (Or.inl ⟨_, by simp, (Option.some.inj hs).symm, fun hname => ⟨hname, ?_⟩⟩)
      intro source hparquet hreach
      refine hnot (mem_reachable.mpr ?_)
      rw [hparquet]
      exact hreach
  | insert =>
    simp only [hstage] at hs
    split at hs
    · exact Or.inr (Or.inr (Or.inr (Or.inl ⟨rfl, (Option.some.inj hs).symm⟩)))
    · exact Or.inr (Or.inr (Or.inr (Or.inr (Or.inl ⟨rfl, (Option.some.inj hs).symm⟩))))
  | commit found inserted =>
    simp only [hstage] at hs
    exact Or.inr (Or.inr (Or.inr (Or.inr (Or.inr ⟨_, _, rfl, (Option.some.inj hs).symm⟩))))

theorem Registry.Ok.statement (h : s.Ok) (hc : s.calls.lookup t = some c)
    (hs : s.statement t c = some s') : s'.Ok := by
  have hnext : Registry.Ok { s with nextId := s.nextId + 1 } :=
    ⟨h.acyclic, h.names, h.holder, h.locked, h.knows, h.apart⟩
  rcases Registry.statement_cases hs with ⟨-, hfree, rfl⟩ | ⟨stage, hpast, rfl, hknows⟩ |
    ⟨reason, rfl⟩ | ⟨hinsert, rfl⟩ | ⟨-, rfl⟩ | ⟨found, inserted, hcommit, rfl⟩
  · exact h.lock hc hfree
  · exact h.goto hc hpast (hknows (h.knows t c hc))
  · exact h.finish _
  · have hknows := h.knows t c hc
    simp only [EnsureCall.Knows, hinsert] at hknows
    refine hnext.goto hc (by rw [hinsert]; simp) ⟨rfl, ?_⟩
    rw [if_pos rfl]
    exact ⟨hknows.1, acyclic_append h.acyclic hknows.2⟩
  · exact hnext.finish _
  · exact h.commit hc hcommit _

theorem Registry.Ok.step {e : EnsureEvent} (h : s.Ok) (hs : ensureStep s e = some s') : s'.Ok := by
  cases e with
  | createHypertable k =>
    cases hs
    exact ⟨h.acyclic, h.names, h.holder, h.locked, h.knows, h.apart⟩
  | createStreamTable id =>
    cases hs
    exact ⟨h.acyclic, h.names, h.holder, h.locked, h.knows, h.apart⟩
  | call t d =>
    simp only [ensureStep] at hs
    split at hs
    · cases hs
    · rename_i hfresh
      split at hs
      · cases hs
        refine ⟨h.acyclic, h.names, ?_, ?_, ?_, ?_⟩
        · exact fun u hu => AList.mem_insert _ |>.mpr (Or.inr (h.holder u hu))
        · intro u c hu hstage
          by_cases hut : u = t
          · subst hut
            cases (AList.lookup_insert ..).symm.trans hu
            exact absurd rfl hstage
          · exact h.locked u c ((AList.lookup_insert_ne hut).symm.trans hu) hstage
        · intro u c hu
          by_cases hut : u = t
          · subst hut
            cases (AList.lookup_insert ..).symm.trans hu
            trivial
          · exact h.knows u c ((AList.lookup_insert_ne hut).symm.trans hu)
        · intro u hu
          rcases (AList.mem_insert _).mp hu with rfl | hu
          · exact fun hmem => hfresh (Or.inr hmem)
          · exact h.apart u hu
      · cases hs
        exact h.finish _
  | run t =>
    obtain ⟨c, hc, hs⟩ := Option.bind_eq_some_iff.mp hs
    exact h.statement hc hs
  | fail t =>
    simp only [ensureStep] at hs
    split at hs
    · cases hs
    · cases hs
      exact h.finish _
  | lost t =>
    simp only [ensureStep] at hs
    split at hs
    · rename_i hc
      cases hs
      exact h.commit hc rfl _
    · cases hs

/-! ## 4. Runs -/

/-- The call an event belongs to. -/
def EnsureEvent.callId : EnsureEvent → Option Nat
  | .createHypertable _ => none
  | .createStreamTable _ => none
  | .call t _ => some t
  | .run t => some t
  | .fail t => some t
  | .lost t => some t

/-- What the database has on disk. -/
def Registry.tables (s : Registry) :
    List HypertableId × List Int × List PipelineRow × Int :=
  (s.hypertables, s.streamTables, s.pipelines, s.nextId)

/-- The call can no longer be answered with `InvalidPipeline`. -/
def Registry.Spent (s : Registry) (t : Nat) : Prop :=
  (t ∉ s.outcomes ∧ ∃ d found inserted, s.calls.lookup t = some ⟨d, .commit found inserted⟩) ∨
    ∃ o, s.outcomes.lookup t = some o ∧ ∀ reason, o ≠ .error (.invalidPipeline reason)

theorem Registry.spent_finish {outcome : Except EnsureError PipelineRow}
    (h : ∀ reason, outcome ≠ .error (.invalidPipeline reason)) : (s.finish t outcome).Spent t :=
  Or.inr ⟨outcome, AList.lookup_insert _, h⟩

/-- Another call's events leave it alone. -/
theorem Registry.Spent.finish {u : Nat} (h : s.Spent u) (hut : u ≠ t)
    (outcome : Except EnsureError PipelineRow) : (s.finish t outcome).Spent u := by
  rcases h with ⟨hnone, d, found, inserted, hc⟩ | ⟨o, ho, hne⟩
  · refine Or.inl ⟨?_, d, found, inserted, (AList.lookup_erase_ne hut).trans hc⟩
    exact fun hmem => ((AList.mem_insert _).mp hmem).elim hut hnone
  · exact Or.inr ⟨o, (AList.lookup_insert_ne hut).trans ho, hne⟩

theorem Registry.Spent.goto {u : Nat} (h : s.Spent u) (hut : u ≠ t) (stage : Stage) :
    (s.goto t c stage).Spent u := by
  rcases h with ⟨hnone, d, found, inserted, hc⟩ | ⟨o, ho, hne⟩
  · exact Or.inl ⟨hnone, d, found, inserted, (AList.lookup_insert_ne hut).trans hc⟩
  · exact Or.inr ⟨o, ho, hne⟩

theorem Registry.Spent.statement {u : Nat} (h : s.Spent u) (hut : u ≠ t)
    (hs : s.statement t c = some s') : s'.Spent u := by
  rcases Registry.statement_cases hs with ⟨-, -, rfl⟩ | ⟨stage, -, rfl, -⟩ | ⟨reason, rfl⟩ |
    ⟨-, rfl⟩ | ⟨-, rfl⟩ | ⟨found, inserted, -, rfl⟩
  · exact h.goto hut _
  · exact h.goto hut _
  · exact h.finish hut _
  · exact h.goto hut _
  · exact h.finish hut _
  · exact h.finish hut _

/-- Once it cannot be rejected any more, a call stays so. -/
theorem Registry.Spent.step {e : EnsureEvent} {u : Nat} (h : s.Spent u) (hok : s.Ok)
    (hs : ensureStep s e = some s') : s'.Spent u := by
  cases e with
  | createHypertable k =>
    cases hs
    exact h
  | createStreamTable id =>
    cases hs
    exact h
  | call t d =>
    simp only [ensureStep] at hs
    split at hs
    · cases hs
    · rename_i hfresh
      have hut : u ≠ t := by
        rintro rfl
        rcases h with ⟨-, d, found, inserted, hc⟩ | ⟨o, ho, -⟩
        · exact hfresh (Or.inl (AList.lookup_isSome.mp (by rw [hc]; rfl)))
        · exact hfresh (Or.inr (AList.lookup_isSome.mp (by rw [ho]; rfl)))
      split at hs
      · cases hs
        rcases h with ⟨hnone, d, found, inserted, hc⟩ | ⟨o, ho, hne⟩
        · exact Or.inl ⟨hnone, d, found, inserted, (AList.lookup_insert_ne hut).trans hc⟩
        · exact Or.inr ⟨o, ho, hne⟩
      · cases hs
        exact h.finish hut _
  | run t =>
    obtain ⟨c, hc, hs⟩ := Option.bind_eq_some_iff.mp hs
    by_cases hut : u = t
    · subst hut
      have hopen := hok.apart u (AList.lookup_isSome.mp (by rw [hc]; rfl))
      rcases h with ⟨-, d, found, inserted, hcommit⟩ | ⟨o, ho, -⟩
      · -- only the COMMIT is left, and it is not a rejection
        cases hc.symm.trans hcommit
        cases hs
        exact Registry.spent_finish (fun _ => by simp)
      · exact absurd (AList.lookup_isSome.mp (by rw [ho]; rfl)) hopen
    · exact h.statement hut hs
  | fail t =>
    simp only [ensureStep] at hs
    split at hs
    · cases hs
    · cases hs
      by_cases hut : u = t
      · exact hut ▸ Registry.spent_finish (fun _ => by simp)
      · exact h.finish hut _
  | lost t =>
    simp only [ensureStep] at hs
    split at hs
    · cases hs
      by_cases hut : u = t
      · subst hut
        exact Registry.spent_finish (s := s) (fun _ => by simp)
      · exact h.finish hut _
    · cases hs

/-- **A call that changes the tables is never rejected.** -/
theorem Registry.Ok.spent_of_change {e : EnsureEvent} (h : s.Ok)
    (hs : ensureStep s e = some s') (ht : e.callId = some t) :
    s'.tables = s.tables ∨ s'.Spent t := by
  cases e with
  | createHypertable k => cases ht
  | createStreamTable id => cases ht
  | call u d =>
    simp only [ensureStep] at hs
    split at hs
    · cases hs
    · split at hs
      · cases hs
        exact Or.inl rfl
      · cases hs
        exact Or.inl rfl
  | fail u =>
    simp only [ensureStep] at hs
    split at hs
    · cases hs
    · cases hs
      exact Or.inl rfl
  | lost u =>
    cases ht
    simp only [ensureStep] at hs
    split at hs
    · cases hs
      exact Or.inr (Registry.spent_finish (s := s) (fun _ => by simp))
    · cases hs
  | run u =>
    cases ht
    obtain ⟨c, hc, hs⟩ := Option.bind_eq_some_iff.mp hs
    have hopen := h.apart t (AList.lookup_isSome.mp (by rw [hc]; rfl))
    rcases Registry.statement_cases hs with ⟨-, -, rfl⟩ | ⟨stage, -, rfl, -⟩ | ⟨reason, rfl⟩ |
      ⟨-, rfl⟩ | ⟨-, rfl⟩ | ⟨found, inserted, -, rfl⟩
    · exact Or.inl rfl
    · exact Or.inl rfl
    · exact Or.inl rfl
    · exact Or.inr (Or.inl ⟨hopen, _, _, _, AList.lookup_insert _⟩)
    · exact Or.inr (Registry.spent_finish (s := { s with nextId := s.nextId + 1 })
        (fun _ => by simp))
    · exact Or.inr (Registry.spent_finish (s := s) (fun _ => by simp))

/-- Rows are only ever added. -/
theorem pipelines_mono {e : EnsureEvent} (hs : ensureStep s e = some s') :
    s.pipelines <+: s'.pipelines := by
  have hcommitted : ∀ found inserted, s.pipelines <+: s.committed found inserted := by
    intro found inserted
    unfold Registry.committed
    split
    · exact List.prefix_append ..
    · exact List.prefix_refl _
  cases e with
  | createHypertable k =>
    cases hs
    exact List.prefix_refl _
  | createStreamTable id =>
    cases hs
    exact List.prefix_refl _
  | call t d =>
    simp only [ensureStep] at hs
    repeat' split at hs
    all_goals cases hs
    all_goals exact List.prefix_refl _
  | fail t =>
    simp only [ensureStep] at hs
    split at hs
    · cases hs
    · cases hs
      exact List.prefix_refl _
  | lost t =>
    simp only [ensureStep] at hs
    split at hs
    · cases hs
      exact hcommitted _ _
    · cases hs
  | run t =>
    obtain ⟨c, -, hs⟩ := Option.bind_eq_some_iff.mp hs
    rcases Registry.statement_cases hs with ⟨-, -, rfl⟩ | ⟨stage, -, rfl, -⟩ | ⟨reason, rfl⟩ |
      ⟨-, rfl⟩ | ⟨-, rfl⟩ | ⟨found, inserted, -, rfl⟩
    · exact List.prefix_refl _
    · exact List.prefix_refl _
    · exact List.prefix_refl _
    · exact List.prefix_refl _
    · exact List.prefix_refl _
    · exact hcommitted found inserted

/-- A catalog in which no pipeline was ever registered. -/
structure Registry.Fresh (s : Registry) : Prop where
  pipelines : s.pipelines = []
  lock : s.lock = none
  calls : s.calls = ∅
  outcomes : s.outcomes = ∅

theorem Registry.Fresh.ok (h : s.Fresh) : s.Ok := by
  obtain ⟨hpipelines, hlock, hcalls, houtcomes⟩ := h
  refine ⟨?_, ?_, ?_, ?_, ?_, ?_⟩
  · rw [hpipelines]
    exact Edges.acyclic_nil
  · rw [hpipelines]
    exact List.nodup_nil
  · intro t ht
    rw [hlock] at ht
    cases ht
  · intro t c hc
    rw [hcalls] at hc
    cases hc
  · intro t c hc
    rw [hcalls] at hc
    cases hc
  · intro t ht
    rw [hcalls] at ht
    exact absurd ht (AList.notMem_empty t)

/-- The event changes nothing in the database if its call is rejected in the end. -/
def Harmless (s' : Registry) (a : Registry) (e : EnsureEvent) : Prop :=
  ∀ t reason, e.callId = some t →
    s'.outcomes.lookup t = some (.error (.invalidPipeline reason)) →
    ∀ b ∈ ensureStep a e, b.tables = a.tables

theorem Registry.Ok.harmless {es : List EnsureEvent} (h : s.Ok)
    (hrun : Lts.run ensureStep s es = some s') :
    Lts.Along ensureStep (Harmless s') s es := by
  have hspent : ∀ {a b : Registry} {t : Nat}, a.Ok → a.Spent t → Lts.Reaches ensureStep a b →
      b.Spent t := by
    intro a b t ha hsp hreach
    have hboth : b.Ok ∧ b.Spent t := hreach.inv (I := fun x => x.Ok ∧ x.Spent t)
      (fun _ _ _ hs hx => ⟨hx.1.step hs, hx.2.step hx.1 hs⟩) ⟨ha, hsp⟩
    exact hboth.2
  refine Lts.Along.imp (I := Registry.Ok) (fun _ _ _ hs ha => ha.step hs) ?_ h
    (Lts.run_along hrun)
  rintro a e ha ⟨b, hb, hreach⟩ t reason ht hrejected b' hb'
  cases hb.symm.trans hb'
  rcases ha.spent_of_change hb ht with hsame | hsp
  · exact hsame
  · exfalso
    rcases hspent (ha.step hb) hsp hreach with ⟨hopen, -⟩ | ⟨o, ho, hne⟩
    · exact hopen (AList.lookup_isSome.mp (by rw [hrejected]; rfl))
    · exact hne reason (Option.some.inj (ho.symm.trans hrejected))

end Ukiel.Catalog
