/-
# Starting a fleet of pipelines

`ukiel-mv/src/lib.rs`, `MvFleet::new`: the selected pipelines are looked up and prepared one by one,
and their graph is checked for cycles once more, by a search from the target of each for its own
source.  `hasCycle_iff`: on any selection that check is exact.  The graph it is run on is acyclic
whatever the selection, as long as `ensure_pipeline` is all that writes to the table
(`pipeline_graph`).

Looking up the tables, validating schemas and preparing the SQL are one parameter.
-/
import Ukiel.Catalog.Registry

namespace Ukiel.Mv

open Ukiel.Catalog

/-! ## 1. `MvFleet::new` -/

structure MvConfig where
  pipelines : List String
  pollIntervalMs : Nat

inductive ConfigError where
  | required
  | duplicateName (name : String)
  | notParquet (name : String)
  | duplicatePair
  | cycle
deriving DecidableEq

def ConfigError.message : ConfigError → String
  | .required => "a non-empty pipeline list and positive poll interval are required"
  | .duplicateName name => "duplicate selected pipeline " ++ name
  | .notParquet name => "pipeline " ++ name ++ " is not Parquet-sourced"
  | .duplicatePair => "duplicate selected source/target pair"
  | .cycle => "selected pipeline graph contains a cycle"

inductive FleetError where
  | config (e : ConfigError)
  | catalog
  /-- Schemas or SQL do not fit. -/
  | prepare
deriving DecidableEq

structure Selected where
  pipeline : PipelineRow
  source : HypertableId
  target : HypertableId
deriving DecidableEq

/-- An edge of the graph of the selection. -/
def Selected.edge (s : Selected) : HypertableId × HypertableId := (s.source, s.target)

/-- What `MvFleet::new` asks the catalog and the planner. -/
structure Selection where
  getPipeline : String → Option PipelineRow
  prepare : PipelineRow → Bool
  ensureMvCursor : Int → Bool

/-- The loop over the configured names. -/
def Selection.select (x : Selection) :
    List String → List String → List Selected → Except FleetError (List Selected)
  | [], _, selected => .ok selected
  | name :: rest, seen, selected =>
    if name ∈ seen then .error (.config (.duplicateName name))
    else
      match x.getPipeline name with
      | none => .error .catalog
      | some pipeline =>
        match pipeline.definition.source with
        | .kafka _ => .error (.config (.notParquet name))
        | .parquet source =>
          let s : Selected := ⟨pipeline, source, pipeline.definition.target⟩
          if s.edge ∈ selected.map Selected.edge then .error (.config .duplicatePair)
          else if x.prepare pipeline = false then .error .prepare
          else x.select rest (name :: seen) (selected ++ [s])

/-- The depth-first check, with a fresh `visited` for every selection. -/
def hasCycle (selected : List Selected) : Bool :=
  selected.any fun s => Edges.search (selected.map Selected.edge) s.source [s.target] []

/-- `MvFleet::new`. -/
def MvFleet.new (x : Selection) (config : MvConfig) : Except FleetError (List Selected) :=
  if config.pipelines = [] ∨ config.pollIntervalMs = 0 then .error (.config .required)
  else
    match x.select config.pipelines [] [] with
    | .error e => .error e
    | .ok selected =>
      if hasCycle selected then .error (.config .cycle)
      else if selected.all fun s => x.ensureMvCursor s.pipeline.id then .ok selected
      else .error .catalog

/-! ## 2. The check is exact -/

/-- **The check finds a cycle exactly when there is one.** -/
theorem hasCycle_iff (selected : List Selected) :
    hasCycle selected = true ↔ ¬ Edges.Acyclic (selected.map Selected.edge) := by
  have hsearch : ∀ s : Selected,
      Edges.search (selected.map Selected.edge) s.source [s.target] [] = true ↔
        Edges.Reach (selected.map Selected.edge) s.target s.source := by
    intro s
    rw [Edges.search_iff List.not_mem_nil fun v hv => absurd hv List.not_mem_nil]
    simp
  unfold hasCycle
  rw [List.any_eq_true]
  constructor
  · rintro ⟨s, hs, hfound⟩ hacyclic
    have hedge : (s.source, s.target) ∈ selected.map Selected.edge :=
      List.mem_map.mpr ⟨s, hs, rfl⟩
    exact hacyclic s.source (Relation.TransGen.head' hedge ((hsearch s).mp hfound))
  · intro hcycle
    obtain ⟨a, ha⟩ := not_forall.mp hcycle
    -- a cycle begins with the edge of a selection
    obtain ⟨b, hab, hba⟩ := Relation.TransGen.head'_iff.mp (not_not.mp ha)
    obtain ⟨s, hs, hedge⟩ := List.mem_map.mp hab
    cases hedge
    exact ⟨s, hs, (hsearch s).mpr hba⟩

theorem fleet_rejects_iff (x : Selection) {config : MvConfig} {selected : List Selected}
    (hconfig : config.pipelines ≠ [] ∧ config.pollIntervalMs ≠ 0)
    (h : x.select config.pipelines [] [] = .ok selected) :
    MvFleet.new x config = .error (.config .cycle) ↔
      ¬ Edges.Acyclic (selected.map Selected.edge) := by
  rw [← hasCycle_iff]
  unfold MvFleet.new
  rw [if_neg (by tauto), h]
  dsimp only
  split
  · rename_i hcycle
    simp [hcycle]
  · rename_i hnone
    split <;> simp [hnone]

/-! ## 3. The graph of the pipelines -/

/-- **The pipeline graph stays acyclic and immutable.**  From a catalog without pipelines, for any
sequence and interleaving of `ensure_pipeline` calls: the stored graph is acyclic; rows are added
behind the old ones and never change, each under a name of its own; the events of a call that is
rejected in the end have changed nothing.  And on every selection the check of `MvFleet::new` is
exact. -/
theorem pipeline_graph {s s' : Registry} {es : List EnsureEvent} (hfresh : s.Fresh)
    (hrun : Lts.run ensureStep s es = some s') :
    Edges.Acyclic (parquetEdges s'.pipelines) ∧
    (∀ pre post a, es = pre ++ post → Lts.run ensureStep s pre = some a →
      a.pipelines <+: s'.pipelines) ∧
    (names s'.pipelines).Nodup ∧
    Lts.Along ensureStep (Harmless s') s es ∧
    (∀ selected, hasCycle selected = true ↔ ¬ Edges.Acyclic (selected.map Selected.edge)) ∧
    ∀ x config selected, config.pipelines ≠ [] ∧ config.pollIntervalMs ≠ 0 →
      x.select config.pipelines [] [] = .ok selected →
      (MvFleet.new x config = .error (.config .cycle) ↔
        ¬ Edges.Acyclic (selected.map Selected.edge)) := by
  have hok : s'.Ok := Lts.run_inv (fun _ _ _ hs h => h.step hs) hrun hfresh.ok
  refine ⟨hok.acyclic, ?_, hok.names, hfresh.ok.harmless hrun, hasCycle_iff, ?_⟩
  · intro pre post a hes hpre
    subst hes
    obtain ⟨a', hpre', hpost⟩ := Lts.run_append.mp hrun
    cases hpre.symm.trans hpre'
    exact Lts.run_rel (I := fun _ => True) (R := fun b c => b.pipelines <+: c.pipelines)
      (fun _ => List.prefix_refl _) (fun _ _ _ => List.IsPrefix.trans) (fun _ _ _ _ _ => trivial)
      (fun _ _ _ _ hs => pipelines_mono hs) hpost trivial
  · exact fun x config selected hconfig h => fleet_rejects_iff x hconfig h

def edgeDef (name : String) (source target : HypertableId) : PipelineDefinition :=
  ⟨name, .parquet source, target, "SELECT 1", .exactlyOnce, .stall, none⟩

/-- Two registrations at once, each acyclic against the tables before; together they would close
a cycle.  The second waits for the lock, and is rejected. -/
def opposing : List EnsureEvent :=
  [.createHypertable 1, .createHypertable 2, .call 0 (edgeDef "a" 1 2), .call 1 (edgeDef "b" 2 1)] ++
    List.replicate 7 (.run 0) ++ List.replicate 5 (.run 1)

theorem pipeline_graph_opposing : ∃ s',
    Lts.run ensureStep { hypertables := [], streamTables := [] } opposing = some s' ∧
    s'.outcomes.lookup 1 = some (.error (.invalidPipeline "pipeline would create a cycle")) ∧
    parquetEdges s'.pipelines = [(1, 2)] ∧ Edges.Acyclic (parquetEdges s'.pipelines) := by
  have hobs : ∃ s' ∈ Lts.run ensureStep { hypertables := [], streamTables := [] } opposing,
      s'.outcomes.lookup 1 = some (.error (.invalidPipeline "pipeline would create a cycle")) ∧
        parquetEdges s'.pipelines = [(1, 2)] := by
    decide +kernel
  obtain ⟨s', hrun, hrejected, hedges⟩ := hobs
  exact ⟨s', hrun, hrejected, hedges, (pipeline_graph ⟨rfl, rfl, rfl, rfl⟩ hrun).1⟩

end Ukiel.Mv
