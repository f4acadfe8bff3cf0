/-
# Upload intents against the orphan sweep

A sweep takes an intent that has reached the orphan grace for the trace of a dead writer and
deletes its object.  The grace is measured from the moment the file was OPENED, while the commit
that turns the object into a part comes after the last file is closed, and nothing in the commit
looks at the intents again: `insert_parts` deletes them, present or not.  So the grace protects
exactly the writers that commit before their first intent reaches it.
-/
import Ukiel.Gc.World

namespace Ukiel.Gc
open Ukiel.Catalog

variable {cfg : GcConfig} {s s' : World} {db db' : Db}

/-! ## 1. What a commit makes live -/

/-- The row, live after the move, was not live before it. -/
def MadeLive (s : World) (p : PartRow) : Prop :=
  p.live = true ∧ ∀ q ∈ s.db.tables.parts, q.id = p.id → q.live = false

instance (s : World) (p : PartRow) : Decidable (MadeLive s p) := by
  unfold MadeLive; infer_instance

/-- The move makes live no part whose object a sweep has already deleted. -/
def Spares (cfg : GcConfig) (s : World) (m : Move) : Prop :=
  ∀ s' ∈ move cfg s m, ∀ p ∈ s'.db.tables.parts, MadeLive s p → p.partMeta.path ∉ s.swept

instance (cfg : GcConfig) (s : World) (m : Move) : Decidable (Spares cfg s m) := by
  unfold Spares; infer_instance

/-- If the move is a commit, the intents of its new parts are at most `age` old. -/
def LandsWithin (age : Int) (s : World) : Move → Prop
  | .catalog (.commit t) => ∀ τ ∈ s.db.txns.lookup t, ∀ p ∈ τ.call.op.newParts,
      ∃ at' ∈ s.opened p.path, s.db.clock - at' ≤ age
  | _ => True

instance (age : Int) (s : World) (m : Move) : Decidable (LandsWithin age s m) := by
  rcases m with e | _ | _ | _ | _ | _ | _ | _ | _
  · rcases e <;> unfold LandsWithin <;> infer_instance
  all_goals exact instDecidableTrue

/-- **Only a commit makes parts live, and only those it registers.** -/
theorem madeLive_commit {m : Move} (hok : Ok cfg s) (h : move cfg s m = some s') {p : PartRow}
    (hp : p ∈ s'.db.tables.parts) (hmade : MadeLive s p) :
    ∃ t τ, m = .catalog (.commit t) ∧ s.db.txns.lookup t = some τ ∧
      p.partMeta ∈ τ.call.op.newParts := by
  obtain ⟨hlive, hdead⟩ := hmade
  have habsurd : ∀ q ∈ s.db.tables.parts, q.id = p.id → q.live = true → False := by
    intro q hq hid hl
    rw [hdead q hq hid] at hl
    cases hl
  rcases move_db h with hsame | ⟨e, hs, hm⟩
  · rw [hsame] at hp
    exact (habsurd p hp rfl hlive).elim
  · rcases step_tables hok.named.reachable.inv hs with
      ⟨t, τ, id, rfl, hlook, -, happ, -, -, -⟩ | ⟨-, -, hside⟩
    · obtain ⟨rows, hparts, hnew⟩ := happ.parts
      rw [hparts, List.mem_append] at hp
      rcases hp with hold | hrow
      · obtain ⟨q, hq, rfl⟩ := List.mem_map.mp hold
        split at hlive
        · cases hlive
        · exact (habsurd q hq (by rw [if_neg ‹_›]) hlive).elim
      · refine ⟨t, τ, hm t rfl, hlook, ?_⟩
        rw [← hnew.metas]
        exact List.mem_map_of_mem hrow
    · obtain ⟨f, hparts, hf⟩ := hside.parts
      rw [hparts] at hp
      obtain ⟨q, hq, rfl⟩ := List.mem_map.mp hp
      rw [PartRow.live, hf q] at hlive
      exact (habsurd q hq (by rw [hf q]) hlive).elim

/-- A commit whose intents are younger than the grace lands on objects no sweep has touched. -/
theorem spares_of_young {m : Move} {age : Int} (hage : age < cfg.orphanGrace) (hok : Ok cfg s)
    (hyoung : LandsWithin age s m) : Spares cfg s m := by
  intro s' hs p hp hmade hswept
  obtain ⟨t, τ, rfl, hlook, hnew⟩ := madeLive_commit hok hs hp hmade
  obtain ⟨at', hat, hle⟩ := hyoung τ hlook p.partMeta hnew
  obtain ⟨at₂, hat₂, hexp⟩ := hok.swept _ hswept
  rw [Option.mem_def, hat₂, Option.some.injEq] at hat
  omega

/-! ## 2. A writer that is too slow -/

/-- The sweep asks and deletes once the intent is `age` old. -/
def sweptMeanwhile (age : Int) : List Move :=
  flushSent ++ [.runOnce [1], .catalog (.tick age), .collect 0 0, .collect 0 0]

/-- What the runs below need to know of a world in which COMMIT is on its way. -/
structure Waiting (s : World) : Prop where
  clock : s.db.clock = 0
  parts : s.db.tables.parts = []
  pending : s.db.tables.pendingObjects = [⟨1, flushPath, 0⟩]
  opened : s.opened flushPath = some 0
  object : s.holds flushPath
  pass : s.nextPass = 0
  txn : ∃ τ ∈ s.db.txns.lookup 0, τ.sent = true ∧ τ.call.op.newParts = [flushPart] ∧
    τ.w.inserted = [⟨1, 1, flushPart, 1, none, none⟩]

theorem flushSent_waiting (cfg : GcConfig) :
    ∃ s, Lts.run (move cfg) {} flushSent = some s ∧ Waiting s := by
  have hcfg : Lts.run (move cfg) {} flushSent = Lts.run (move .default) {} flushSent := by
    simp only [flushSent, Lts.run, move]
  have hobs : ∃ s ∈ Lts.run (move .default) {} flushSent,
      (s.db.clock = 0 ∧ s.db.tables.parts = [] ∧
        s.db.tables.pendingObjects = [⟨1, flushPath, 0⟩] ∧ s.opened flushPath = some 0 ∧
        s.holds flushPath) ∧ s.nextPass = 0 ∧
      ∃ τ ∈ s.db.txns.lookup 0, τ.sent = true ∧ τ.call.op.newParts = [flushPart] ∧
        τ.w.inserted = [⟨1, 1, flushPart, 1, none, none⟩] := by decide
  obtain ⟨s, hs, ⟨h₁, h₂, h₃, h₄, h₅⟩, h₆, h₇⟩ := hobs
  exact ⟨s, hcfg.trans hs, h₁, h₂, h₃, h₄, h₅, h₆, h₇⟩

theorem move_tick {now : Int} (h : s.db.clock ≤ now) :
    move cfg s (.catalog (.tick now)) = some { s with db := { s.db with clock := now } } := by
  simp only [move, Aloof, step, if_pos h]
  rfl

theorem move_ask {g : Nat} {now : Int} {k : HypertableId} {hs : List HypertableId}
    {path : String} (hlook : s.passes.lookup g = some (.sweep (k :: hs)))
    (h : nextOrphanedPendingObject s.db.tables k s.db.clock cfg.orphanGrace = some path) :
    move cfg s (.collect g now) = some (s.goto g (.sweepDelete path (k :: hs))) := by
  simp only [move, hlook, World.collect, h]

theorem move_delete {g : Nat} {now : Int} {hs : List HypertableId} {path : String}
    (hlook : s.passes.lookup g = some (.sweepDelete path hs)) (h : s.holds path) :
    move cfg s (.collect g now) = some { (s.delete path).goto g (.sweepClear path hs) with
      swept := path :: s.swept } := by
  simp only [move, hlook, World.collect, if_pos h]

theorem move_commit {t : Nat} {τ : Txn} (hlook : s.db.txns.lookup t = some τ)
    (hsent : τ.sent = true) : ∃ db', move cfg s (.catalog (.commit t)) = some { s with db := db' } ∧
      db'.tables = τ.w.apply s.db.tables := by
  simp only [move, Aloof, step, hlook, hsent, if_true, Option.map_some]
  exact ⟨_, rfl, rfl⟩

/-- **However large the grace, a commit that waits so long loses its object to the sweep.** -/
theorem sweptMeanwhile_swept {age : Int} (hpos : 0 ≤ age) (hage : cfg.orphanGrace ≤ age) :
    ∃ s τ, Lts.run (move cfg) {} (sweptMeanwhile age) = some s ∧ flushPath ∈ s.swept ∧
      s.db.tables.parts = [] ∧ s.db.clock = age ∧ s.opened flushPath = some 0 ∧
      s.db.txns.lookup 0 = some τ ∧ τ.sent = true ∧ τ.call.op.newParts = [flushPart] ∧
      τ.w.inserted = [⟨1, 1, flushPart, 1, none, none⟩] := by
  obtain ⟨s, hrun, hw⟩ := flushSent_waiting cfg
  obtain ⟨τ, hτ, hsent, hnew, hins⟩ := hw.txn
  have hnext : nextOrphanedPendingObject s.db.tables 1 age cfg.orphanGrace = some flushPath := by
    simp [nextOrphanedPendingObject, orphanedPendingObjects, hw.pending, hage]
  let sp : World := { s.goto s.nextPass (.sweep [1]) with nextPass := s.nextPass + 1 }
  let s₁ : World := { sp with db := { s.db with clock := age } }
  have hpass : move cfg s (.runOnce [1]) = some sp := rfl
  have htick : move cfg sp (.catalog (.tick age)) = some s₁ :=
    move_tick (by rw [show sp.db.clock = 0 from hw.clock]; exact hpos)
  have hask : move cfg s₁ (.collect 0 0) = some (s₁.goto 0 (.sweepDelete flushPath [1])) :=
    move_ask (by rw [← hw.pass]; exact AList.lookup_insert _) hnext
  have hdelete : move cfg (s₁.goto 0 (.sweepDelete flushPath [1])) (.collect 0 0) = some _ :=
    move_delete (AList.lookup_insert _) hw.object
  have hrest := Lts.run_cons.mpr ⟨sp, hpass, Lts.run_cons.mpr ⟨s₁, htick,
    Lts.run_cons.mpr ⟨_, hask, Lts.run_singleton.mpr hdelete⟩⟩⟩
  refine ⟨_, τ, Lts.run_append.mpr ⟨s, hrun, hrest⟩, ?_⟩
  exact ⟨List.mem_cons_self, hw.parts, rfl, hw.opened, hτ, hsent, hnew, hins⟩

/-! ## 3. Exactly the commits younger than the grace are safe -/

/-- Everything a slow writer does before its commit lands is in time. -/
theorem sweptMeanwhile_landsWithin {age : Int} :
    Lts.Along (move cfg) (LandsWithin age) {} (sweptMeanwhile age) := by
  refine Lts.along_of_forall ?_
  intro m hm s
  simp only [sweptMeanwhile, flushSent, List.cons_append, List.nil_append, List.mem_cons,
    List.not_mem_nil, or_false] at hm
  rcases hm with rfl | rfl | rfl | rfl | rfl | rfl | rfl | rfl | rfl | rfl | rfl | rfl | rfl | rfl
  all_goals trivial

/-- **The orphan grace bounds the age at which a commit may land.**  Whatever the grace and
whatever the writers, sweeps and their interleaving: if every commit lands while the intents of
its new parts are at most `age` old, then no commit makes live a part whose object a sweep has
already deleted; and this is so exactly when `age` is below the grace. -/
theorem sweep_spares_commits_iff (hpos : 0 < cfg.orphanGraceSecs) (age : Int) :
    (∀ s₀ ms, Start s₀ → Lts.Along (move cfg) (LandsWithin age) s₀ ms →
      Lts.Along (move cfg) (Spares cfg) s₀ ms) ↔ age < cfg.orphanGrace := by
  constructor
  · intro hspare
    by_contra hage
    have hgrace : 0 < cfg.orphanGrace := by unfold GcConfig.orphanGrace; omega
    obtain ⟨s, τ, hrun, hswept, hparts, hclock, hopen, hlook, hsent, hnew, hins⟩ :=
      sweptMeanwhile_swept (Int.le_trans (Int.le_of_lt hgrace) (Int.not_lt.mp hage))
        (Int.not_lt.mp hage)
    have halong : Lts.Along (move cfg) (LandsWithin age) {}
        (sweptMeanwhile age ++ [.catalog (.commit 0)]) := by
      refine sweptMeanwhile_landsWithin.snoc ?_
      intro s' hrun'
      obtain rfl : s' = s := Option.some.inj (hrun'.symm.trans hrun)
      intro τ' hτ' p hp
      obtain rfl : τ' = τ := Option.some.inj (hτ'.symm.trans hlook)
      rw [hnew, List.mem_singleton] at hp
      subst hp
      exact ⟨0, hopen, by omega⟩
    -- the commit lands, and its part has lost its object
    have hbad := (hspare {} _ start_empty halong).at hrun
    obtain ⟨db', hcommit, htables⟩ := move_commit hlook hsent
    refine hbad _ hcommit ⟨1, 1, flushPart, 1, none, none⟩ ?_ ⟨rfl, by simp [hparts]⟩ hswept
    dsimp only
    rw [htables]
    simp [Writes.apply, hparts, hins]
  · intro hage s₀ ms hstart hlands
    exact hlands.imp (I := Ok cfg) (fun _ _ _ hs hok => ok_move hs hok)
      (fun s m hok hyoung => spares_of_young hage hok hyoung) hstart.ok

/-- The intent is a second short of the default grace when the sweep asks and the commit
lands. -/
def justInTime : List Move :=
  flushSent ++ [.runOnce [1], .catalog (.tick 3599000000), .collect 0 0, .catalog (.commit 0)]

theorem sweep_spares_just_in_time :
    (∃ s ∈ Lts.run (move .default) {} justInTime,
      s.db.tables.parts.map PartRow.partMeta = [flushPart]) ∧
      Lts.Along (move .default) (Spares .default) {} justInTime :=
  ⟨by decide, (sweep_spares_commits_iff (by decide) 3599000000).mpr (by decide) {} justInTime
    start_empty (by decide +kernel)⟩

/-- The output of a merge of the object above. -/
def mergedPart : PartMeta := ⟨partPath 1 1 "v", .null, 7, 7, 1, 1, 1, none⟩

def slowMergeCall : Call :=
  commitCompactionReplace 1 ⟨1, .null, 5, 1, 4400000000⟩ [1] [mergedPart] ⟨1, "merge", [7]⟩

/-- The flush commits, and a merge of its part takes the partition's lease and uploads its
output. -/
def mergeUploaded : List Move :=
  flushSent ++ [.catalog (.commit 0), .catalog (.drawLease ⟨1, .null⟩ 5 2400000),
    .catalog (.installLease 0), .start 1, .openFiles 1 [(1, "v")],
    .upload 1 (partPath 1 1 "v") 0]

/-- The merge renews its lease; an hour after the file was opened a sweep passes, and then the
merge sends its commit. -/
def mergeSwept : List Move :=
  [.catalog (.tick 2000000000), .catalog (.renewLease ⟨1, .null, 5, 1, 2400000000⟩ 2400000),
    .catalog (.tick 3600000000), .runOnce [1], .collect 0 0, .collect 0 0, .collect 0 0,
    .submit 1 slowMergeCall, .catalog (.stmt 1), .catalog (.stmt 1), .catalog (.stmt 1),
    .catalog (.stmt 1), .catalog (.stmt 1), .catalog (.stmt 1), .catalog (.stmt 1),
    .catalog (.stmt 1), .catalog (.stmt 1), .catalog (.sendCommit 1)]

/-- **The sweep deletes the output of a running merge, and the commit goes through.** -/
theorem slow_merge_swept :
    ¬ ∀ cfg : GcConfig, 0 < cfg.orphanGraceSecs → ∀ s₀ ms, Start s₀ →
      Lts.Along (move cfg) (Spares cfg) s₀ ms := by
  intro h
  have hobs : ∃ s ∈ Lts.run (move .default) {} (mergeUploaded ++ mergeSwept),
      ∃ s' ∈ move .default s (.catalog (.commit 1)), ∃ p ∈ s'.db.tables.parts,
        MadeLive s p ∧ p.partMeta.path ∈ s.swept := by decide +kernel
  obtain ⟨s, hrun, s', hcommit, p, hp, hmade, hswept⟩ := hobs
  have halong := h .default (by decide) {} (mergeUploaded ++ mergeSwept ++ [.catalog (.commit 1)])
    start_empty
  exact halong.at hrun s' hcommit p hp hmade hswept

end Ukiel.Gc
