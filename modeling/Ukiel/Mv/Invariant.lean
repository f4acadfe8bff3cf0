/-
# What holds while replicas race

Nothing a replica remembers is trusted: the cursor is a row, and the outcome of an event is the
row its publication left under the event's identity.  §1 is what the catalog knows of the
publications, whoever made them (`Published`); §2 what it means that a position has been reached
(`Covered`); §3 what a replica knows in each phase; §4 and §5 show that every move keeps it.
-/
import Ukiel.Mv.World

namespace Ukiel.Mv
open Ukiel.Catalog

variable {hash : List UInt8 → Digest} {defs : PipelineId → Option Pipeline} {s s' : World}
  {db db' : Db} {attempts attempts' : AList fun _ : Nat => Attempt}

/-! ## 1. Publications -/

/-- The source commit is an ADD. -/
def Adds (db : Db) (source : HypertableId) (c : Int) : Prop :=
  ∃ r ∈ db.tables.commits, r.hypertableId = source ∧ r.id = c ∧ r.kind = .add

/-- A publication is made for an ADD of the pipeline's source, under the identity of that
event. -/
structure Attempt.Ok (hash : List UInt8 → Digest) (defs : PipelineId → Option Pipeline) (db : Db)
    (a : Attempt) : Prop where
  defined : defs a.id = some a.pipeline
  identity : mvIdentity hash a.id a.pipeline a.commit = .ok a.identity
  adds : Adds db a.pipeline.source a.commit

/-- A call is a replica's publication, or somebody else's. -/
def Origin (attempts : AList fun _ : Nat => Attempt) (t : Nat) (c : Call) : Prop :=
  (∃ a, attempts.lookup t = some a ∧ c = a.call) ∨ (attempts.lookup t = none ∧ Foreign c)

/-- **What the catalog knows of the publications.** -/
structure Published (hash : List UInt8 → Digest) (defs : PipelineId → Option Pipeline) (db : Db)
    (attempts : AList fun _ : Nat => Attempt) : Prop where
  reach : Reachable db
  attempt : ∀ t a, attempts.lookup t = some a → t < db.nextTxn ∧ a.Ok hash defs db
  opened : ∀ t τ, db.txns.lookup t = some τ → Origin attempts t τ.call
  durable : ∀ x ∈ db.history, Origin attempts x.txn x.call
  keyed : ∀ r ∈ db.tables.commits, ∀ key, r.idempotencyKey = some key → MvKey key →
    ∃ x ∈ db.history, ∃ at', r = x.call.commitRow x.id at'
  settled : ∀ t a res, attempts.lookup t = some a → db.replies t = some (.ok res) →
    ∃ id, DurableUnder db.tables a.identity id

theorem Adds.mono {e : Event} {source : HypertableId} {c : Int} (h : Adds db source c)
    (hi : Inv db) (hs : step db e = some db') : Adds db' source c := by
  obtain ⟨r, hr, hrest⟩ := h
  exact ⟨r, step_commits_mono hi hs hr, hrest⟩

theorem durableUnder_mono {e : Event} {i : OperationIdentity} {id : Int}
    (h : DurableUnder db.tables i id) (hi : Inv db) (hs : step db e = some db') :
    DurableUnder db'.tables i id := by
  obtain ⟨r, hr, hrest⟩ := h
  exact ⟨r, step_commits_mono hi hs hr, hrest⟩

/-- The attempts after an event: those of before, and perhaps the one whose call it opens. -/
structure Extends (hash : List UInt8 → Digest) (defs : PipelineId → Option Pipeline) (db : Db)
    (e : Event) (attempts attempts' : AList fun _ : Nat => Attempt) : Prop where
  keep : ∀ t a, attempts.lookup t = some a → attempts'.lookup t = some a
  fresh : ∀ t a, attempts'.lookup t = some a → attempts.lookup t = some a ∨
    (t = db.nextTxn ∧ e = .begin a.call ∧ a.Ok hash defs db)
  opens : ∀ c, e = .begin c → Origin attempts' db.nextTxn c

theorem Extends.lookup_old {e : Event} (g : Extends hash defs db e attempts attempts') {t : Nat}
    (ht : t ≠ db.nextTxn) : attempts'.lookup t = attempts.lookup t := by
  cases ha : attempts'.lookup t with
  | some a =>
    rcases g.fresh t a ha with hold | ⟨hnew, -⟩
    · exact hold.symm
    · exact absurd hnew ht
  | none =>
    cases ha' : attempts.lookup t with
    | none => rfl
    | some a =>
      rw [g.keep t a ha'] at ha
      cases ha

theorem Extends.origin {e : Event} (g : Extends hash defs db e attempts attempts') {t : Nat}
    {c : Call} (ht : t ≠ db.nextTxn) (h : Origin attempts t c) : Origin attempts' t c := by
  unfold Origin
  rw [g.lookup_old ht]
  exact h

/-- Somebody else's event. -/
theorem Published.elsewhere {e : Event} (h : Published hash defs db attempts)
    (he : ∀ c, e = .begin c → Foreign c) : Extends hash defs db e attempts attempts where
  keep _ _ ha := ha
  fresh _ _ ha := Or.inl ha
  opens c hc := by
    refine Or.inr ⟨?_, he c hc⟩
    cases ha : attempts.lookup db.nextTxn with
    | none => rfl
    | some a => exact absurd (h.attempt _ a ha).1 (Nat.lt_irrefl _)

/-- A durable call of an attempt is durable under its identity. -/
theorem Published.durable_settled (h : Published hash defs db attempts) {x : Committed}
    (hx : x ∈ db.history) {a : Attempt} (ha : attempts.lookup x.txn = some a) :
    ∃ id, DurableUnder db.tables a.identity id := by
  rcases h.durable x hx with ⟨a', ha', hcall⟩ | ⟨hnone, -⟩
  · rw [ha, Option.some.injEq] at ha'
    subst ha'
    exact ⟨x.id, durable_lookup h.reach hx (by rw [hcall]; rfl)⟩
  · rw [ha] at hnone
    cases hnone

/-- **Every event keeps it**, whoever causes it. -/
theorem Published.event {e : Event} (h : Published hash defs db attempts)
    (hs : step db e = some db') (g : Extends hash defs db e attempts attempts') :
    Published hash defs db' attempts' := by
  have hi := h.reach.inv
  have hpast : ∀ x ∈ db.history, x.txn ≠ db.nextTxn := by
    intro x hx he
    exact ((h.reach.callOk x.txn).fresh (le_of_eq he.symm)).2.2 x hx rfl
  constructor
  · exact h.reach.next hs
  · intro t a ha
    rcases g.fresh t a ha with hold | ⟨rfl, rfl, hok⟩
    · obtain ⟨hlt, hok⟩ := h.attempt t a hold
      exact ⟨Nat.lt_of_lt_of_le hlt (step_nextTxn hs), hok.defined, hok.identity,
        hok.adds.mono hi hs⟩
    · refine ⟨?_, hok.defined, hok.identity, hok.adds.mono hi hs⟩
      simp only [step] at hs
      split at hs <;> cases hs <;> exact Nat.lt_succ_self _
  · intro t τ' hlook
    rcases step_call hs hlook with ⟨τ, hold, hcall⟩ | ⟨rfl, rfl⟩
    · rw [hcall]
      exact g.origin (Nat.ne_of_lt (hi.txn_lt t τ hold)) (h.opened t τ hold)
    · exact g.opens τ'.call rfl
  · intro x hx
    rcases step_tables hi hs with ⟨t, τ, id, -, hlook, -, -, -, hhist, -⟩ | ⟨-, hhist, -⟩
    · rw [hhist, List.mem_append, List.mem_singleton] at hx
      rcases hx with hx | rfl
      · exact g.origin (hpast x hx) (h.durable x hx)
      · exact g.origin (Nat.ne_of_lt (hi.txn_lt t τ hlook)) (h.opened t τ hlook)
    · rw [hhist] at hx
      exact g.origin (hpast x hx) (h.durable x hx)
  · intro r hr key hkey hmv
    rcases step_tables hi hs with ⟨t, τ, id, -, -, -, happ, -, hhist, -⟩ | ⟨-, hhist, hside⟩
    · obtain ⟨at', hcommits⟩ := happ.commits
      rw [hcommits, List.mem_append, List.mem_singleton] at hr
      rw [hhist]
      rcases hr with hold | hnew
      · obtain ⟨x, hx, hrow⟩ := h.keyed r hold key hkey hmv
        exact ⟨x, List.mem_append_left _ hx, hrow⟩
      · exact ⟨_, List.mem_append_right _ (List.mem_singleton_self _), at', hnew⟩
    · rw [hside.commits] at hr
      rw [hhist]
      exact h.keyed r hr key hkey hmv
  · intro t a res ha hreply
    have hold : t ≠ db.nextTxn → attempts.lookup t = some a := fun ht => g.lookup_old ht ▸ ha
    have hdone : ∃ id, DurableUnder db.tables a.identity id := by
      rcases step_reply_ok hs hreply with hsame | ⟨x, hx, rfl⟩ | ⟨τ, i, id, hlook, hident, hd⟩
      · have ht : t ≠ db.nextTxn := by
          intro he
          rw [((h.reach.callOk t).fresh (le_of_eq he.symm)).1] at hsame
          cases hsame
        exact h.settled t a res (hold ht) hsame
      · exact h.durable_settled hx (hold (hpast x hx))
      · have ht := Nat.ne_of_lt (hi.txn_lt t τ hlook)
        rcases h.opened t τ hlook with ⟨a', ha', hcall⟩ | ⟨hnone, -⟩
        · rw [hold ht, Option.some.injEq] at ha'
          subst ha'
          rw [hcall] at hident
          obtain rfl : a.identity = i := Option.some.inj hident
          exact ⟨id, hd⟩
        · rw [hold ht] at hnone
          cases hnone
    obtain ⟨id, hd⟩ := hdone
    exact ⟨id, durableUnder_mono hd hi hs⟩

/-! ## 2. Positions -/

/-- The source commit has an outcome: a row under the identity of processing it. -/
def Outcome (hash : List UInt8 → Digest) (db : Db) (id : PipelineId) (p : Pipeline) (c : Int) :
    Prop :=
  ∃ i x, mvIdentity hash id p c = .ok i ∧ DurableUnder db.tables i x

/-- **The pipeline, registered at `H`, may stand at `v`**: nothing can become visible at or behind
it any more, and every ADD in between has its outcome. -/
structure Covered (hash : List UInt8 → Digest) (db : Db) (id : PipelineId) (p : Pipeline)
    (H v : Int) : Prop where
  final : ∃ head, (p.source, head) ∈ db.heads ∧ v ≤ head
  outcome : ∀ c, Adds db p.source c → H < c → c ≤ v → Outcome hash db id p c

theorem Outcome.mono {e : Event} {id : PipelineId} {p : Pipeline} {c : Int}
    (h : Outcome hash db id p c) (hi : Inv db) (hs : step db e = some db') :
    Outcome hash db' id p c := by
  obtain ⟨i, x, hident, hd⟩ := h
  exact ⟨i, x, hident, durableUnder_mono hd hi hs⟩

/-- Behind a published head every ADD was there already. -/
theorem Adds.before {e : Event} {source : HypertableId} {c head : Int} (h : Adds db' source c)
    (hi : Inv db) (hs : step db e = some db') (hH : (source, head) ∈ db.heads) (hle : c ≤ head) :
    Adds db source c := by
  obtain ⟨r, hr, hht, rfl, hkind⟩ := h
  exact ⟨r, head_step hi hs hH hr hht hle, hht, rfl, hkind⟩

theorem Covered.event {e : Event} {id : PipelineId} {p : Pipeline} {H v : Int}
    (h : Covered hash db id p H v) (hi : Inv db) (hs : step db e = some db') :
    Covered hash db' id p H v := by
  obtain ⟨head, hhead, hle⟩ := h.final
  refine ⟨⟨head, heads_mono hs hhead, hle⟩, ?_⟩
  intro c hadds hlo hhi
  exact (h.outcome c (hadds.before hi hs hhead (hhi.trans hle)) hlo hhi).mono hi hs

/-- A position that has been passed may be passed again. -/
theorem Covered.max {id : PipelineId} {p : Pipeline} {H v w : Int}
    (h : Covered hash db id p H v) (h' : Covered hash db id p H w) :
    Covered hash db id p H (max v w) := by
  rcases max_choice v w with hmax | hmax
  · rw [hmax]
    exact h
  · rw [hmax]
    exact h'

/-! ## 3. What a replica knows -/

variable {feed feed' : Pipelines} {f : PipelineEvent} {id : PipelineId} {p : Pipeline} {v : Int}
  {ev : ChangeEvent} {i : OperationIdentity}

/-- The pipeline is registered and may stand at `v`. -/
def Reached (hash : List UInt8 → Digest) (feed : Pipelines) (id : PipelineId) (p : Pipeline)
    (v : Int) : Prop :=
  ∃ H, feed.registered (id, p.source) = some H ∧ Covered hash feed.db id p H v

/-- The event is the next of the pipeline's source. -/
structure Next (hash : List UInt8 → Digest) (feed : Pipelines) (id : PipelineId) (p : Pipeline)
    (ev : ChangeEvent) : Prop where
  reached : Reached hash feed id p (ev.commitId - 1)
  final : ∃ head, (p.source, head) ∈ feed.db.heads ∧ ev.commitId ≤ head
  row : ∃ r ∈ feed.db.tables.commits, r.hypertableId = p.source ∧ r.id = ev.commitId ∧
    r.kind = ev.kind

/-- It is an ADD, to be processed under the identity. -/
structure Due (hash : List UInt8 → Digest) (feed : Pipelines) (id : PipelineId) (p : Pipeline)
    (ev : ChangeEvent) (i : OperationIdentity) : Prop where
  next : Next hash feed id p ev
  add : ev.kind = .add
  identity : mvIdentity hash id p ev.commitId = .ok i

/-- What a replica knows in each phase. -/
def Phase.Ok (hash : List UInt8 → Digest) (feed : Pipelines)
    (attempts : AList fun _ : Nat => Attempt) (id : PipelineId) (p : Pipeline) : Phase → Prop
  | .page cursor => Reached hash feed id p cursor
  | .process ev => Next hash feed id p ev
  | .check ev i _ | .lookup ev i _ | .read ev i | .transform ev i | .publish ev i _ =>
    Due hash feed id p ev i
  | .wait ev i t =>
    Due hash feed id p ev i ∧ ∃ a, attempts.lookup t = some a ∧ a.identity = i
  | .advance ev => Reached hash feed id p ev.commitId

theorem Reached.mono (h : Reached hash feed id p v) (hf : feed.Ok)
    (hs : pipelineStep feed f = some feed') : Reached hash feed' id p v := by
  obtain ⟨H, hH, hc⟩ := h
  refine ⟨H, pipelineStep_registered hf hs hH, ?_⟩
  refine (pipelineStep_db (I := fun db => Inv db ∧ Covered hash db id p H v)
    (G := fun _ _ => True) ?_ (fun _ _ _ => trivial) hs (fun _ _ => trivial) ⟨hf.inv, hc⟩).2
  rintro db e db' hs - ⟨hi, hc⟩
  exact ⟨inv_step hs hi, hc.event hi hs⟩

theorem Next.mono (h : Next hash feed id p ev) (hf : feed.Ok)
    (hs : pipelineStep feed f = some feed') : Next hash feed' id p ev where
  reached := h.reached.mono hf hs
  final := by
    obtain ⟨head, hhead, hle⟩ := h.final
    refine ⟨head, ?_, hle⟩
    exact pipelineStep_db (I := fun db => (p.source, head) ∈ db.heads) (G := fun _ _ => True)
      (fun _ _ _ hs _ h => heads_mono hs h) (fun _ _ _ => trivial) hs (fun _ _ => trivial) hhead
  row := by
    obtain ⟨r, hr, hrest⟩ := h.row
    refine ⟨r, ?_, hrest⟩
    refine (pipelineStep_db (I := fun db => Inv db ∧ r ∈ db.tables.commits)
      (G := fun _ _ => True) ?_ (fun _ _ _ => trivial) hs (fun _ _ => trivial) ⟨hf.inv, hr⟩).2
    rintro db e db' hs - ⟨hi, hr⟩
    exact ⟨inv_step hs hi, step_commits_mono hi hs hr⟩

theorem Due.mono (h : Due hash feed id p ev i) (hf : feed.Ok)
    (hs : pipelineStep feed f = some feed') : Due hash feed' id p ev i :=
  ⟨h.next.mono hf hs, h.add, h.identity⟩

theorem Phase.Ok.mono {phase : Phase} (h : phase.Ok hash feed attempts id p) (hf : feed.Ok)
    (hs : pipelineStep feed f = some feed')
    (hkeep : ∀ t a, attempts.lookup t = some a → attempts'.lookup t = some a) :
    phase.Ok hash feed' attempts' id p := by
  cases phase with
  | page _ | advance _ => exact Reached.mono h hf hs
  | process _ => exact Next.mono h hf hs
  | check _ _ _ | lookup _ _ _ | read _ _ | transform _ _ | publish _ _ _ =>
    exact Due.mono h hf hs
  | wait _ _ t =>
    obtain ⟨hdue, a, ha, hident⟩ := h
    exact ⟨hdue.mono hf hs, a, hkeep t a ha, hident⟩

/-- The kind of a commit is the kind of its row. -/
theorem commit_unique (hs : Stored db) {r r' : CommitRow} (hr : r ∈ db.tables.commits)
    (hr' : r' ∈ db.tables.commits) (hid : r.id = r'.id) : r = r' :=
  List.inj_on_of_nodup_map hs.commit_nodup hr hr' hid

/-- An event without an ADD, or with an outcome, may be passed. -/
theorem Next.advance (h : Next hash feed id p ev) (hf : feed.Ok)
    (hout : ev.kind = .add → Outcome hash feed.db id p ev.commitId) :
    Reached hash feed id p ev.commitId := by
  obtain ⟨H, hH, hc⟩ := h.reached
  refine ⟨H, hH, h.final, ?_⟩
  intro c hadds hlo hhi
  rcases Int.lt_or_eq_of_le hhi with hlt | rfl
  · exact hc.outcome c hadds hlo (Int.le_sub_one_of_lt hlt)
  · obtain ⟨r, hr, hht, hid, hkind⟩ := h.row
    obtain ⟨r', hr', hht', hid', hadd⟩ := hadds
    obtain rfl := commit_unique hf.inv.stored hr hr' (hid.trans hid'.symm)
    exact hout (hkind.symm.trans hadd)

theorem Due.outcome {x : Int} (h : Due hash feed id p ev i)
    (hd : DurableUnder feed.db.tables i x) : Outcome hash feed.db id p ev.commitId :=
  ⟨i, x, h.identity, hd⟩

/-- **The first event of a page is the next one**: nothing lies between it and the cursor. -/
theorem Reached.next {H : Int} {rest : List ChangeEvent} (h : Reached hash feed id p v)
    (hf : feed.Ok) (hH : (p.source, H) ∈ feed.db.heads)
    (hpage : changesSince feed.db.tables p.source v H 1 = ev :: rest) :
    Next hash feed id p ev := by
  have hp := changesSince_page hf.inv.stored p.source v H 1
  rw [hpage] at hp
  obtain ⟨-, -, hhead⟩ := hp.visible ev.commitId List.mem_cons_self
  obtain ⟨r, hr, hev⟩ : ∃ r ∈ feedRows feed.db.tables p.source v H,
      r.id = ev.commitId ∧ r.kind = ev.kind := by
    have hmem : ev ∈ changesSince feed.db.tables p.source v H 1 := hpage ▸ List.mem_cons_self
    obtain ⟨r, hr, rfl⟩ := List.mem_map.mp hmem
    exact ⟨r, List.mem_of_mem_take hr, rfl, rfl⟩
  obtain ⟨hmem, hht, hlo, -⟩ := mem_feedRows.mp hr
  obtain ⟨H₀, hH₀, hc⟩ := h
  refine ⟨⟨H₀, hH₀, ⟨H, hH, by omega⟩, ?_⟩, ⟨H, hH, hhead⟩, ⟨r, hmem, hht, hev⟩⟩
  intro c hadds hgt hle
  refine hc.outcome c hadds hgt ?_
  -- an ADD between the cursor and the event would be on the page, before it
  by_contra hpast
  obtain ⟨q, hq, hqht, rfl, -⟩ := hadds
  have hin := hp.complete ev.commitId List.mem_cons_self q.id ⟨q, hq, hqht, rfl⟩ (by omega)
    (by omega)
  have hlen : rest = [] := by
    have hle : (ev :: rest).length ≤ 1 := by
      rw [← hpage, changesSince, List.length_map]
      exact List.length_take_le 1 _
    exact List.eq_nil_of_length_eq_zero (by simpa using hle)
  rw [hlen] at hin
  have heq : q.id = ev.commitId := by simpa using hin
  omega

/-! ## 4. The invariant -/

/-- **What holds after any run.** -/
structure Ok (hash : List UInt8 → Digest) (defs : PipelineId → Option Pipeline) (s : World) :
    Prop where
  feed : s.feed.Ok
  published : Published hash defs s.db s.attempts
  cursor : ∀ id p v, defs id = some p →
    s.db.tables.workerCursors (mvWorker id, p.source) = some v → Reached hash s.feed id p v
  replica : ∀ n r, s.replicas.lookup n = some r → defs r.id = some r.pipeline ∧
    r.phase.Ok hash s.feed s.attempts r.id r.pipeline

/-- Where replicas start: no pipeline is registered, and no key of theirs is taken. -/
structure Start (s : World) : Prop where
  feed : s.feed.Start
  unregistered : ∀ k, s.feed.registered k = none
  keys : ∀ r ∈ s.db.tables.commits, ∀ key, r.idempotencyKey = some key → ¬ MvKey key
  replicas : s.replicas = ∅
  attempts : s.attempts = ∅

theorem Start.ok (h : Start s) : Ok hash defs s where
  feed := h.feed.ok
  published := by
    refine ⟨⟨s.db, h.feed.db, Lts.Reaches.refl _⟩, ?_, ?_, ?_, ?_, ?_⟩
    · intro t a ha
      rw [h.attempts] at ha
      cases ha
    · intro t τ hlook
      rw [World.db, h.feed.db.txns] at hlook
      cases hlook
    · intro x hx
      rw [World.db, h.feed.db.history] at hx
      cases hx
    · exact fun r hr key hkey hmv => absurd hmv (h.keys r hr key hkey)
    · intro t a res ha
      rw [h.attempts] at ha
      cases ha
  cursor id p v _ hv := by
    obtain ⟨H, hH, -⟩ := h.feed.registered id p.source v hv
    rw [h.unregistered] at hH
    cases hH
  replica n r hlook := by
    rw [h.replicas] at hlook
    cases hlook

theorem Ok.goto {n : Nat} {r : Replica} {phase : Phase} (h : Ok hash defs s)
    (hdef : defs r.id = some r.pipeline)
    (hp : phase.Ok hash s.feed s.attempts r.id r.pipeline) : Ok hash defs (s.goto n r phase) where
  feed := h.feed
  published := h.published
  cursor := h.cursor
  replica n' r' hlook := by
    by_cases hn : n' = n
    · subst hn
      rw [World.goto, AList.lookup_insert, Option.some.injEq] at hlook
      subst hlook
      exact ⟨hdef, hp⟩
    · rw [World.goto, AList.lookup_insert_ne hn] at hlook
      exact h.replica n' r' hlook

theorem Ok.done {n : Nat} (h : Ok hash defs s) : Ok hash defs (s.done n) where
  feed := h.feed
  published := h.published
  cursor := h.cursor
  replica n' r hlook := by
    by_cases hn : n' = n
    · subst hn
      rw [World.done, AList.lookup_erase] at hlook
      cases hlook
    · rw [World.done, AList.lookup_erase_ne hn] at hlook
      exact h.replica n' r hlook

theorem Reached.max {w : Int} (h : Reached hash feed id p v) (h' : Reached hash feed id p w) :
    Reached hash feed id p (max v w) := by
  obtain ⟨H, hH, hc⟩ := h
  obtain ⟨H', hH', hc'⟩ := h'
  rw [hH, Option.some.injEq] at hH'
  subst hH'
  exact ⟨H, hH, hc.max hc'⟩

/-- A pipeline that has just registered at the head has nothing behind it to process. -/
theorem Enrolls.reached (h : Enrolls feed f id p.source v) (hf : feed.Ok)
    (hs : pipelineStep feed f = some feed') (hhead : (p.source, v) ∈ feed.db.heads) :
    Reached hash feed' id p v := by
  refine ⟨v, h.registered hs, ?_⟩
  have hnow : Covered hash feed.db id p v v := by
    refine ⟨⟨v, hhead, le_refl v⟩, ?_⟩
    intro c _ hlo hhi
    exact absurd hhi (Int.not_le.mpr hlo)
  refine (pipelineStep_db (I := fun db => Inv db ∧ Covered hash db id p v v)
    (G := fun _ _ => True) ?_ (fun _ _ _ => trivial) hs (fun _ _ => trivial) ⟨hf.inv, hnow⟩).2
  rintro db e db' hs - ⟨hi, hc⟩
  exact ⟨inv_step hs hi, hc.event hi hs⟩

/-- A step of the catalog keeps the invariant, if it moves a pipeline's cursor only to where the
pipeline may stand. -/
theorem Ok.feedStep (h : Ok hash defs s) (hs : pipelineStep s.feed f = some feed')
    (hpub : Published hash defs feed'.db attempts')
    (hkeep : ∀ t a, s.attempts.lookup t = some a → attempts'.lookup t = some a)
    (hset : ∀ id p c, defs id = some p → f = .catalog (.setCursor (mvWorker id) p.source c) →
      Reached hash s.feed id p c) :
    Ok hash defs { s with feed := feed', attempts := attempts' } where
  feed := h.feed.step hs
  published := hpub
  cursor id p v hdef hv := by
    rcases pipelineStep_cursor h.feed hs hv with hsame | ⟨v₀, c, hf, hv₀, rfl⟩ | ⟨hnew, hhead, -⟩
    · exact (h.cursor id p v hdef hsame).mono h.feed hs
    · exact ((h.cursor id p v₀ hdef hv₀).max (hset id p c hdef hf)).mono h.feed hs
    · exact Enrolls.reached hnew h.feed hs hhead
  replica n r hlook := by
    obtain ⟨hdef, hp⟩ := h.replica n r hlook
    exact ⟨hdef, hp.mono h.feed hs hkeep⟩

/-- An event that is no publication. -/
theorem Published.feedStep (h : Published hash defs feed.db attempts)
    (hs : pipelineStep feed f = some feed')
    (hf : ∀ e, f = .catalog e → ∀ c, e = .begin c → Foreign c) :
    Published hash defs feed'.db attempts := by
  refine pipelineStep_db (I := fun db => Published hash defs db attempts)
    (G := fun _ e => ∀ c, e = .begin c → Foreign c) ?_ ?_ hs hf h
  · intro db e db' hs he hp
    exact hp.event hs (hp.elsewhere he)
  · intro _ e he c hc
    exact absurd hc (he c)

/-! ## 5. Every move keeps it -/

variable {n : Nat} {r : Replica} {m : Move}

theorem Ok.resume {c : Check} (h : Ok hash defs s) (hdef : defs r.id = some r.pipeline)
    (hdue : Due hash s.feed r.id r.pipeline ev i) : Ok hash defs (s.resume n r ev i c) := by
  cases c with
  | beforeRead => exact h.goto hdef hdue
  | sourceRead => exact h.done
  | transform dataError =>
    simp only [World.resume]
    split
    · exact h.goto hdef hdue
    · exact h.done
  | beforePublish items => exact h.goto hdef hdue

/-- The publication is opened under the next transaction number. -/
theorem Ok.publish {items : List PartMeta} {feed' : Pipelines} {a : Attempt} (h : Ok hash defs s)
    (hdef : defs r.id = some r.pipeline) (hdue : Due hash s.feed r.id r.pipeline ev i)
    (ha : a = ⟨r.id, r.pipeline, ev.commitId, i, items⟩)
    (hs : pipelineStep s.feed (.catalog (.begin a.call)) = some feed') :
    Ok hash defs { s.goto n r (.wait ev i s.db.nextTxn) with
      feed := feed'
      attempts := s.attempts.insert s.db.nextTxn a } := by
  have hok : a.Ok hash defs s.db := by
    subst ha
    obtain ⟨q, hq, hht, hid, hkind⟩ := hdue.next.row
    exact ⟨hdef, hdue.identity, q, hq, hht, hid, hkind.trans hdue.add⟩
  have hkeep : ∀ t b, s.attempts.lookup t = some b →
      (s.attempts.insert s.db.nextTxn a).lookup t = some b := by
    intro t b hb
    rw [AList.lookup_insert_ne (Nat.ne_of_lt (h.published.attempt t b hb).1)]
    exact hb
  have hext : Extends hash defs s.db (.begin a.call) s.attempts
      (s.attempts.insert s.db.nextTxn a) := by
    refine ⟨hkeep, ?_, ?_⟩
    · intro t b hb
      by_cases ht : t = s.db.nextTxn
      · subst ht
        rw [AList.lookup_insert, Option.some.injEq] at hb
        subst hb
        exact Or.inr ⟨rfl, rfl, hok⟩
      · rw [AList.lookup_insert_ne ht] at hb
        exact Or.inl hb
    · intro c hc
      cases hc
      exact Or.inl ⟨a, AList.lookup_insert _, rfl⟩
  have hpub : Published hash defs feed'.db (s.attempts.insert s.db.nextTxn a) := by
    have hs' := hs
    simp only [pipelineStep] at hs'
    split at hs'
    · obtain ⟨db', hdb, rfl⟩ := Option.map_eq_some_iff.mp hs'
      exact h.published.event hdb hext
    · cases hs'
  have hbase := h.feedStep hs hpub hkeep (by simp)
  have hwait : Phase.Ok hash feed' (s.attempts.insert s.db.nextTxn a) r.id r.pipeline
      (.wait ev i s.db.nextTxn) :=
    ⟨hdue.mono h.feed hs, a, AList.lookup_insert _, by rw [ha]⟩
  exact hbase.goto (n := n) hdef hwait

theorem Ok.act (h : Ok hash defs s) (hlook : s.replicas.lookup n = some r)
    (hs : s.act hash n r m r.phase = some s') : Ok hash defs s' := by
  obtain ⟨hdef, hp⟩ := h.replica n r hlook
  cases hphase : r.phase with
  | page cursor =>
    rw [hphase] at hs hp
    cases m <;> simp only [World.act, reduceCtorEq] at hs
    split at hs
    · rename_i H hhead
      split at hs <;> cases hs
      · exact h.done
      · rename_i hpage
        exact h.goto hdef (Reached.next hp h.feed hhead hpage)
    · cases hs
  | process ev =>
    rw [hphase] at hs hp
    cases m <;> simp only [World.act, reduceCtorEq] at hs
    split at hs
    · rename_i hkind
      cases hs
      exact h.goto hdef (Next.advance hp h.feed (by simp [hkind]))
    · rename_i hkind
      cases hs
      exact h.goto hdef (Next.advance hp h.feed (by simp [hkind]))
    · rename_i hkind
      split at hs <;> cases hs
      · exact h.done
      · rename_i i hident
        exact h.goto hdef ⟨hp, hkind, hident⟩
  | check ev i c =>
    rw [hphase] at hs hp
    cases m <;> simp only [World.act, reduceCtorEq] at hs
    split at hs
    · cases hs
      exact h.done
    · split at hs <;> cases hs
      · exact h.done
      · exact h.goto hdef hp
  | lookup ev i c =>
    rw [hphase] at hs hp
    cases m <;> simp only [World.act, reduceCtorEq] at hs
    split at hs <;> cases hs
    · exact h.done
    · rename_i x hfound
      have hdue : Due hash s.feed r.id r.pipeline ev i := hp
      have hd := (lookupOperation_committed_iff h.feed.inv.stored).mp hfound
      exact h.goto hdef (hdue.next.advance h.feed fun _ => hdue.outcome hd)
    · exact h.resume hdef hp
  | read ev i =>
    rw [hphase] at hs hp
    cases m <;> simp only [World.act, reduceCtorEq] at hs
    split at hs <;> cases hs <;> exact h.goto hdef hp
  | transform ev i =>
    rw [hphase] at hs hp
    cases m <;> simp only [World.act, reduceCtorEq] at hs
    split at hs
    · split at hs <;> cases hs
      exact h.goto hdef hp
    · cases hs
      exact h.goto hdef hp
  | publish ev i items =>
    rw [hphase] at hs hp
    cases m <;> simp only [World.act, reduceCtorEq] at hs
    obtain ⟨feed', hfeed, rfl⟩ := Option.map_eq_some_iff.mp hs
    exact h.publish hdef hp rfl hfeed
  | wait ev i t =>
    rw [hphase] at hs hp
    cases m <;> simp only [World.act, reduceCtorEq] at hs
    split at hs <;> cases hs
    · exact h.done
    · rename_i res hreply
      obtain ⟨hdue, a, ha, rfl⟩ := hp
      obtain ⟨x, hd⟩ := h.published.settled t a res ha hreply
      exact h.goto hdef (hdue.next.advance h.feed fun _ => hdue.outcome hd)
  | advance ev =>
    rw [hphase] at hs hp
    cases m <;> simp only [World.act, reduceCtorEq] at hs
    obtain ⟨feed', hfeed, rfl⟩ := Option.map_eq_some_iff.mp hs
    have hpub := h.published.feedStep hfeed (by simp)
    refine (h.feedStep hfeed hpub (fun _ _ ha => ha) ?_).done
    intro id p c hdef' he
    obtain ⟨hw, hsource, rfl⟩ : mvWorker r.id = mvWorker id ∧ r.pipeline.source = p.source ∧
        ev.commitId = c := by simpa using he
    obtain rfl := mvWorker_injective hw
    rw [hdef, Option.some.injEq] at hdef'
    subst hdef'
    exact hp

/-- **Every move keeps the invariant.** -/
theorem ok_move (h : Ok hash defs s) (hs : move hash defs s m = some s') : Ok hash defs s' := by
  cases m with
  | feed f =>
    simp only [move] at hs
    split at hs
    · rename_i hreg
      obtain ⟨feed', hfeed, rfl⟩ := Option.map_eq_some_iff.mp hs
      have hforeign : ∀ e, f = .catalog e → ∀ c, e = .begin c → Foreign c := by
        rintro e rfl c rfl
        exact hreg
      refine h.feedStep hfeed (h.published.feedStep hfeed hforeign) (fun _ _ ha => ha) ?_
      rintro id p c - rfl
      -- the cursor of a pipeline is moved by replicas only
      have hmine : isMvWorker (mvWorker id) = false := hreg
      rw [isMvWorker_mvWorker] at hmine
      cases hmine
    · cases hs
  | poll n id =>
    simp only [move] at hs
    split at hs
    · rename_i p hfree hdef
      split at hs <;> cases hs
      rename_i cursor hcursor
      exact h.goto (r := ⟨id, p, .page cursor⟩) hdef (h.cursor id p cursor hdef hcursor)
    · cases hs
  | crash n =>
    cases hs
    exact h.done
  | page n _ | process n | check n | lookup n | read n _ | transform n _ | publish n | hear n
  | advance n =>
    simp only [move, Move.replica] at hs
    split at hs
    · cases hs
    · rename_i r hlook
      exact h.act hlook hs

theorem ok_run {s₀ : World} {ms : List Move} (h : Start s₀)
    (hrun : Lts.run (move hash defs) s₀ ms = some s) : Ok hash defs s :=
  Lts.run_inv (fun _ _ _ hs hok => ok_move hok hs) hrun h.ok

end Ukiel.Mv
