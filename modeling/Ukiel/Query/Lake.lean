/-
# Queries over a table at work

A table while its writers work, all at once: each of them has read the catalog at some moment,
works for as long as it takes and calls the catalog with what it has made
(`Compactor/Exchange.lean`); the catalog takes the calls apart into statements and answers them in
any order (`Catalog/Machine.lean`).  A query reads the catalog at a moment too, and the objects of
the parts that are live then, which stay as they are.

* `lake_answers`: a query has the answers of the rows that were added, but for those that were
  erased.
* `lake_agree`: two lakes of one history of rows answer alike.  How their parts were made, merged
  and moved between levels, and what failed on the way, makes no difference.
* `lake_noninterference`: nor do the rows of other keys, to the session of a key.
-/
import Ukiel.Compactor.Exchange
import Ukiel.Query.Scan

namespace Ukiel.Query
open Ukiel.Catalog Ukiel.Compactor Ukiel.Expr
open scoped List

variable {H : Warehouse}

/-! ## 1. The lake -/

/-- The catalog, and what the writers of the table are about. -/
structure Lake (H : Warehouse) where
  db : Db := {}
  /-- The tables as writers have read them. -/
  reads : List Tables := []
  /-- What a call is there to do to the rows of the table. -/
  effect : Nat → Effect H := fun _ => {}
  /-- What the commits have done, in their order. -/
  ledger : List (Effect H) := []

namespace Lake

def added (s : Lake H) : Multiset (Row H.schema) := (s.ledger.map Effect.added).sum

def erased (s : Lake H) : Multiset (Row H.schema) := (s.ledger.map Effect.erased).sum

/-- The rows of the live parts. -/
def rows (s : Lake H) : Multiset (Row H.schema) := liveRows H.content s.db.tables H.ht.id

/-- **One step.** -/
inductive Step : Lake H → Lake H → Prop where
  /-- A writer reads. -/
  | read {s : Lake H} : Step s { s with reads := s.db.tables :: s.reads }
  /-- A writer that has read `T` calls the catalog. -/
  | submit {s : Lake H} {T : Tables} {c : Call} {inputs : List PartRow} {e : Effect H} {db : Db}
      (read : T ∈ s.reads) (wrote : Wrote H T c inputs e)
      (begins : step s.db (.begin c) = some db) :
      Step s { s with db := db, effect := Function.update s.effect s.db.nextTxn e }
  /-- A call for another table. -/
  | other {s : Lake H} {c : Call} {db : Db} (table : c.hypertableId ≠ H.ht.id)
      (begins : step s.db (.begin c) = some db) :
      Step s { s with db := db, effect := Function.update s.effect s.db.nextTxn {} }
  /-- A call is durable. -/
  | commit {s : Lake H} {t : Nat} {db : Db} (commits : step s.db (.commit t) = some db) :
      Step s { s with db := db, ledger := s.ledger ++ [s.effect t] }
  /-- Anything else in the catalog: a statement, a failure, an answer, a lease, a purge. -/
  | event {s : Lake H} {e : Event} {db : Db} (call : ∀ c, e ≠ .begin c) (late : ∀ t, e ≠ .commit t)
      (steps : step s.db e = some db) : Step s { s with db := db }

/-- Any number of steps. -/
abbrev Run : Lake H → Lake H → Prop := Relation.ReflTransGen Step

/-- Where a run starts: parts that are there, and no writer under way. -/
structure Start (s : Lake H) : Prop where
  db : Initial s.db
  holds : ∀ p ∈ s.db.tables.parts, p.hypertableId = H.ht.id → H.Holds p.partMeta
  reads : s.reads = []
  ledger : s.ledger = []

/-! ## 2. What holds of every lake -/

/-- The call is a writer's, with what it is there to do, or another table's. -/
def Justified (s : Lake H) (t : Nat) (c : Call) : Prop :=
  (∃ T ∈ s.reads, ∃ inputs, Exchange H T c inputs (s.effect t)) ∨
    c.hypertableId ≠ H.ht.id ∧ s.effect t = {}

structure Sound (s : Lake H) : Prop where
  reachable : Reachable s.db
  holds : ∀ p ∈ s.db.tables.parts, p.hypertableId = H.ht.id → H.Holds p.partMeta
  reads : ∀ T ∈ s.reads, ∀ p ∈ T.parts, ∃ q ∈ s.db.tables.parts, q.id = p.id ∧
    q.hypertableId = p.hypertableId ∧ q.partMeta = p.partMeta
  opened : ∀ t τ, s.db.txns.lookup t = some τ → s.Justified t τ.call

theorem Start.sound {s : Lake H} (h : Start s) : Sound s where
  reachable := ⟨s.db, h.db, Lts.Reaches.refl _⟩
  holds := h.holds
  reads T hT := by simp [h.reads] at hT
  opened t τ hlook := by simp [h.db.txns] at hlook

/-- What is there when a writer reads stays there. -/
theorem Sound.holds_read {s : Lake H} (h : Sound s) {T : Tables} (hT : T ∈ s.reads) :
    ∀ p ∈ T.parts, p.hypertableId = H.ht.id → H.Holds p.partMeta := by
  intro p hp hht
  obtain ⟨q, hq, -, hqht, hmeta⟩ := h.reads T hT p hp
  exact hmeta ▸ h.holds q hq (hqht.trans hht)

/-- **An event of the catalog keeps it**, given that a call it opens is justified. -/
theorem Sound.step {s s' : Lake H} {e : Event} (h : Sound s) (hs : Catalog.step s.db e = some s'.db)
    (hreads : s'.reads = s.reads)
    (heffect : ∀ t, t < s.db.nextTxn → s'.effect t = s.effect t)
    (hbegin : ∀ c, e = .begin c → s'.Justified s.db.nextTxn c) : Sound s' where
  reachable := h.reachable.next hs
  holds p hp hht := by
    rcases step_part_origin h.reachable.inv hs hp with
      ⟨q, hq, hqht, hmeta, -⟩ | ⟨t, τ, -, hlook, hτ, hnew⟩
    · exact hmeta ▸ h.holds q hq (hqht.symm.trans hht)
    · rcases h.opened t τ hlook with ⟨T, -, inputs, hexchange⟩ | ⟨hother, -⟩
      · exact hexchange.holds _ hnew
      · exact absurd (hτ.symm.trans hht) hother
  reads T hT p hp := by
    obtain ⟨q, hq, hid, hht, hmeta⟩ := h.reads T (hreads ▸ hT) p hp
    obtain ⟨q', hq', hid', hht', hmeta'⟩ := step_part h.reachable.inv hs hq
    exact ⟨q', hq', hid'.trans hid, hht'.trans hht, hmeta'.trans hmeta⟩
  opened t τ hlook := by
    rcases step_call hs hlook with ⟨τ₀, hlook₀, hcall⟩ | ⟨rfl, rfl⟩
    · have hlt := h.reachable.inv.txn_lt t τ₀ hlook₀
      unfold Justified
      rw [heffect t hlt, hreads, hcall]
      exact h.opened t τ₀ hlook₀
    · exact hbegin τ.call rfl

/-- **Every step keeps it.** -/
theorem Sound.next {s s' : Lake H} (h : Sound s) (hs : Step s s') : Sound s' := by
  cases hs with
  | read =>
    refine ⟨h.reachable, h.holds, fun T hT p hp => ?_, fun t τ hlook => ?_⟩
    · rcases List.mem_cons.mp hT with rfl | hT
      · exact ⟨p, hp, rfl, rfl, rfl⟩
      · exact h.reads T hT p hp
    · rcases h.opened t τ hlook with ⟨T, hT, hexchange⟩ | hother
      · exact Or.inl ⟨T, List.mem_cons_of_mem _ hT, hexchange⟩
      · exact Or.inr hother
  | @submit T c inputs e db read wrote begins =>
    refine h.step begins rfl (fun t ht => Function.update_of_ne ht.ne _ _) fun c' hc => ?_
    cases hc
    refine Or.inl ⟨T, read, inputs, ?_⟩
    simp only [Function.update_self]
    exact wrote.exchange (h.holds_read read)
  | other table begins =>
    refine h.step begins rfl (fun t ht => Function.update_of_ne ht.ne _ _) fun c' hc => ?_
    cases hc
    exact Or.inr ⟨table, Function.update_self _ _ _⟩
  | commit commits => exact h.step commits rfl (fun _ _ => rfl) fun _ hc => nomatch hc
  | event call late steps => exact h.step steps rfl (fun _ _ => rfl) fun c hc => absurd hc (call c)

/-! ## 3. The rows of the table -/

/-- **A commit** takes the rows of the parts it replaces out and puts those of its own in. -/
theorem Sound.commit {s : Lake H} {t : Nat} {db : Db} (hnames : H.Distinct) (h : Sound s)
    (hs : Catalog.step s.db (.commit t) = some db) :
    liveRows H.content db.tables H.ht.id + (s.effect t).erased =
      s.rows + (s.effect t).added := by
  have hi := h.reachable.inv
  have hnd := hi.stored.part_nodup
  rcases step_tables hi hs with ⟨t', τ, id, he, hlook, -, happ, -⟩ | ⟨hno, -⟩
  · cases he
    rcases h.opened t τ hlook with ⟨T, hT, inputs, hexchange⟩ | ⟨hother, heffect⟩
    · obtain ⟨rows, hparts, hnew⟩ := happ.parts
      have hknown : Known s.db ⟨.merge, H.ht.id, inputs, 0⟩ := by
        refine ⟨by simp, fun p hp => ?_⟩
        obtain ⟨hp, hht⟩ := hexchange.seen p hp
        exact ⟨hht, h.reads T hT p hp⟩
      have htotal := applied_liveSum (fun _ m => H.content m.path) hparts hnew
      rw [partSum_matched hnd hknown hexchange.named happ.old_matched, partSum_rows, partSum_rows,
        hnew.metas, hexchange.table] at htotal
      -- the rows of the parts that are replaced cancel out
      refine add_right_cancel (b := rowsOf H.content (inputs.map PartRow.partMeta)) ?_
      calc liveRows H.content db.tables H.ht.id + (s.effect t).erased +
            rowsOf H.content (inputs.map PartRow.partMeta)
          = (liveRows H.content db.tables H.ht.id +
              rowsOf H.content (inputs.map PartRow.partMeta)) + (s.effect t).erased := by abel
        _ = s.rows + (rowsOf H.content τ.call.op.newParts + (s.effect t).erased) := by
            rw [show liveRows H.content db.tables H.ht.id + _ = _ from htotal, add_assoc]
            rfl
        _ = _ := by rw [hexchange.balance hnames]; abel
    · have hsame : liveRows H.content db.tables H.ht.id = s.rows :=
        applied_liveSum_other _ happ hnd (Ne.symm hother)
      rw [hsame, heffect]
  · exact absurd rfl (hno t)

/-- The rows are those there were at the start and those added, but for those erased. -/
def Balanced (base : Multiset (Row H.schema)) (s : Lake H) : Prop :=
  s.rows + s.erased = base + s.added

/-- **Every step keeps the books.** -/
theorem Balanced.next {base : Multiset (Row H.schema)} {s s' : Lake H} (hnames : H.Distinct)
    (h : Balanced base s) (hsound : Sound s) (hs : Step s s') : Balanced base s' := by
  -- what is not a commit leaves the live parts alone
  have haside : ∀ {e : Event} {db : Db}, (∀ t, e ≠ .commit t) → Catalog.step s.db e = some db →
      liveRows H.content db.tables H.ht.id = s.rows := by
    intro e db hlate hs
    rcases step_tables hsound.reachable.inv hs with ⟨t, -, -, he, -⟩ | ⟨-, -, hside⟩
    · exact absurd he (hlate t)
    · exact aside_liveSum _ hside _
  cases hs with
  | read => exact h
  | submit read wrote begins =>
    have hrows := haside (by simp) begins
    exact (congrArg (· + s.erased) hrows).trans h
  | other table begins =>
    have hrows := haside (by simp) begins
    exact (congrArg (· + s.erased) hrows).trans h
  | event call late steps => exact (congrArg (· + s.erased) (haside late steps)).trans h
  | @commit t db commits =>
    have hcommit := hsound.commit hnames commits
    unfold Balanced rows added erased at h ⊢
    simp only [List.map_append, List.map_cons, List.map_nil, List.sum_append, List.sum_cons,
      List.sum_nil, add_zero]
    calc liveRows H.content db.tables H.ht.id +
            ((s.ledger.map Effect.erased).sum + (s.effect t).erased)
        = (liveRows H.content db.tables H.ht.id + (s.effect t).erased) +
            (s.ledger.map Effect.erased).sum := by abel
      _ = (s.rows + (s.ledger.map Effect.erased).sum) + (s.effect t).added := by
          rw [hcommit]
          abel
      _ = base + ((s.ledger.map Effect.added).sum + (s.effect t).added) := by
          rw [show s.rows + _ = _ from h, add_assoc]

/-- **Every run**: the parts are there, and the books balance. -/
theorem Start.run {s₀ s : Lake H} (hnames : H.Distinct) (hstart : Start s₀) (hrun : Run s₀ s) :
    Sound s ∧ Balanced s₀.rows s := by
  induction hrun with
  | refl =>
    refine ⟨hstart.sound, ?_⟩
    rw [Balanced, added, erased, hstart.ledger]
    rfl
  | tail _ hs ih => exact ⟨ih.1.next hs, ih.2.next hnames ih.1 hs⟩

/-- Events of the catalog alone. -/
theorem run_events {es : List Event} {s : Lake H} {db : Db}
    (hes : ∀ e ∈ es, (∀ c, e ≠ .begin c) ∧ ∀ t, e ≠ .commit t)
    (h : Lts.run Catalog.step s.db es = some db) : Run s { s with db := db } := by
  induction es generalizing s with
  | nil =>
    cases h
    exact .refl
  | cons e es ih =>
    obtain ⟨⟨hcall, hlate⟩, hes⟩ := List.forall_mem_cons.mp hes
    obtain ⟨db₁, hstep, hrest⟩ := Lts.run_cons.mp h
    exact .head (.event hcall hlate hstep) (@ih { s with db := db₁ } hes hrest)

/-- A writer's call that is answered without another in between. -/
theorem run_call {s : Lake H} {T : Tables} {c : Call} {inputs : List PartRow} {e : Effect H}
    {es : List Event} {db : Db} (hread : T ∈ s.reads) (hwrote : Wrote H T c inputs e)
    (hes : ∀ e ∈ es, (∀ c, e ≠ .begin c) ∧ ∀ t, e ≠ .commit t)
    (h : Lts.run Catalog.step s.db (.begin c :: (es ++ [.commit s.db.nextTxn])) = some db) :
    ∃ s', Run s s' ∧ s'.db = db ∧ s'.reads = s.reads ∧ s'.ledger = s.ledger ++ [e] := by
  obtain ⟨db₁, hbegin, h⟩ := Lts.run_cons.mp h
  obtain ⟨db₂, hes', hcommit⟩ := Lts.run_append.mp h
  have hsubmit : Step s { s with db := db₁, effect := Function.update s.effect s.db.nextTxn e } :=
    .submit hread hwrote hbegin
  refine ⟨_, (Relation.ReflTransGen.single hsubmit).trans
    ((run_events hes hes').tail (.commit (Lts.run_singleton.mp hcommit))), rfl, rfl, ?_⟩
  simp only [Function.update_self]

end Lake

/-! ## 4. The answers -/

/-- The table as a session sees it. -/
abbrev provider (H : Warehouse) (slice : Option I64) : TableProvider := ⟨H.ht, H.cols, slice⟩

section Answers

variable {pg : BigintCast} {x : Exprs} {slice : Option I64} {projection : Option (List Nat)}
  {filters : List Expr} {plan : ExecutionPlan} {pushed : Row H.schema → Bool}
  {m : Meaning (outputSchema (provider H slice) ((provider H slice).indices projection))}

/-- **The answers of a query** to rows: to those that are visible and that the filters hold of. -/
def answers (x : Exprs) {indices : List Nat}
    (m : Meaning (outputSchema (provider H slice) indices)) (filters : List Expr)
    (rows : Multiset (Row H.schema)) : Multiset (List Value) :=
  (rows.filter fun r => answered x (provider H slice) m filters r).map fun r =>
    (queryRow x (provider H slice) indices r).getD []

theorem answers_add (x : Exprs) {indices : List Nat}
    (m : Meaning (outputSchema (provider H slice) indices)) (filters : List Expr)
    (rows rows' : Multiset (Row H.schema)) :
    answers x m filters (rows + rows') = answers x m filters rows + answers x m filters rows' := by
  rw [answers, Multiset.filter_add, Multiset.map_add]
  rfl

/-- The row groups of a part. -/
def groupsOf (H : Warehouse) (p : PartRow) : List (List (Row H.schema)) :=
  (H.store p.partMeta.path).getD []

theorem coe_tableRows (s : Lake H) (slice : Option I64) :
    Multiset.ofList (tableRows s.db.tables (provider H slice) (groupsOf H)) = s.rows := by
  have hrows : rowsOf H.content ((s.db.tables.liveParts H.ht.id).map PartRow.partMeta) =
      Multiset.ofList ((s.db.tables.liveParts H.ht.id).map fun p =>
        (groupsOf H p).flatten).flatten := by
    refine rowsOf_eq (List.forall₂_map_left_iff.mpr (List.forall₂_map_right_iff.mpr ?_))
    exact List.forall₂_same.mpr fun p _ => rfl
  rw [Lake.rows, liveRows, liveSum, partSum_rows, hrows, tableRows, List.flatMap_def]

theorem Lake.Sound.live {s : Lake H} (h : s.Sound) : ∀ p ∈ s.db.tables.liveParts H.ht.id,
    H.store p.partMeta.path = some (groupsOf H p) ∧
      Made H.reader H.codec H.ht p.partMeta ⟨H.schema, groupsOf H p⟩ := by
  intro p hp
  obtain ⟨hp, hcond⟩ := List.mem_filter.mp hp
  obtain ⟨groups, hgroups, hmade⟩ := h.holds p hp (of_decide_eq_true hcond).1
  rw [groupsOf, hgroups, Option.getD_some]
  exact ⟨rfl, hmade⟩

theorem Lake.Sound.metadata {s : Lake H} (hnames : H.Distinct) (h : s.Sound) :
    ∀ p ∈ s.db.tables.liveParts H.ht.id,
      MetadataSound H.codec.toKeyCodec H.ht p.partMeta ⟨H.schema, groupsOf H p⟩ := fun p hp =>
  @metadataSound_of_made (provider H none) H.reader H.codec p.partMeta _ hnames (h.live p hp).2

/-- **A query reads the rows of the live parts**, whatever the catalog leaves out and the engine
pushes down. -/
theorem Lake.Sound.answers {s : Lake H} (hnames : H.Distinct) (h : s.Sound)
    (hfree : Unreserved H.schema) (hreads : ReadsRefs x)
    (hquery : ∀ r ∈ s.rows, visible (provider H slice) r = true →
      ∃ cells, queryRow x (provider H slice) ((provider H slice).indices projection) r = some cells)
    (hpushed : ∀ r cells,
      queryRow x (provider H slice) ((provider H slice).indices projection) r = some cells →
        filtersHold m filters cells = true → pushed r = true)
    (hplan : scan pg H.codec x s.db.tables (provider H slice) projection filters none = .ok plan) :
    (∃ out, Yields x H.store pushed plan out) ∧ ∀ out, Yields x H.store pushed plan out →
      Multiset.ofList (out.filter (filtersHold m filters)) = Query.answers x m filters s.rows := by
  obtain ⟨hruns, hall⟩ := yields_answered hnames hreads (fun p hp => (h.live p hp).1)
    (h.metadata hnames) (fun p hp hblind => absurd hblind (not_blind_of_made hfree (h.live p hp).2))
    hplan hpushed (fun r hr => hquery r (coe_tableRows s slice ▸ Multiset.mem_coe.mpr hr))
  refine ⟨hruns, fun out hout => ?_⟩
  obtain ⟨all, rfl, -, hperm⟩ := hall out hout
  rw [← coe_tableRows s slice, Query.answers, Multiset.filter_coe, Multiset.map_coe]
  exact Multiset.coe_eq_coe.mpr (by simpa [limited] using hperm)

/-- **A query over a table at work.**  Whatever the writers of the table and of others have done,
in whatever order: the catalog's plan can be run, and what the query returns, with the answers of
the rows that were erased, are the answers of all rows there were at the start or that were added
since. -/
theorem lake_answers {s₀ s : Lake H} (hstart : s₀.Start) (hrun : s₀.Run s) (hnames : H.Distinct)
    (hfree : Unreserved H.schema) (hreads : ReadsRefs x)
    (hquery : ∀ r ∈ s₀.rows + s.added, visible (provider H slice) r = true →
      ∃ cells, queryRow x (provider H slice) ((provider H slice).indices projection) r = some cells)
    (hpushed : ∀ r cells,
      queryRow x (provider H slice) ((provider H slice).indices projection) r = some cells →
        filtersHold m filters cells = true → pushed r = true)
    (hplan : scan pg H.codec x s.db.tables (provider H slice) projection filters none = .ok plan) :
    (∃ out, Yields x H.store pushed plan out) ∧ ∀ out, Yields x H.store pushed plan out →
      Multiset.ofList (out.filter (filtersHold m filters)) + answers x m filters s.erased =
        answers x m filters (s₀.rows + s.added) := by
  obtain ⟨hsound, hbalanced⟩ := hstart.run hnames hrun
  obtain ⟨hruns, hall⟩ := hsound.answers hnames hfree hreads (fun r hr => hquery r
    (hbalanced ▸ Multiset.mem_add.mpr (Or.inl hr))) hpushed hplan
  refine ⟨hruns, fun out hout => ?_⟩
  rw [hall out hout, ← answers_add, hbalanced]

/-- Whether a query can be planned is not a matter of the parts. -/
theorem Lake.Sound.plans {s : Lake H} (hnames : H.Distinct) (h : s.Sound) {T : Tables}
    (hplan : scan pg H.codec x T (provider H slice) projection filters none = .ok plan) :
    ∃ plan', scan pg H.codec x s.db.tables (provider H slice) projection filters none =
      .ok plan' := by
  obtain ⟨ranges, hranges, -⟩ := Except.bind_eq_ok_iff.mp hplan
  rw [Except.mapError_eq_ok_iff] at hranges
  exact scan_congr hplan hranges
    (livePartsPruned_eq_ok pg (h.metadata hnames) (isInt64_of_extracted hranges)).1

/-- **Two lakes of one history of rows** answer every query alike: where it can be planned over the
one it can over the other, and the answers are the same, but for their order. -/
theorem lake_agree {s₀ s s' : Lake H} {pushed' : Row H.schema → Bool}
    (hstart : s₀.Start) (hrun : s₀.Run s) (hrun' : s₀.Run s') (hadded : s'.added = s.added)
    (herased : s'.erased = s.erased) (hnames : H.Distinct) (hfree : Unreserved H.schema)
    (hreads : ReadsRefs x)
    (hquery : ∀ r ∈ s₀.rows + s.added, visible (provider H slice) r = true →
      ∃ cells, queryRow x (provider H slice) ((provider H slice).indices projection) r = some cells)
    (hpushed : ∀ r cells,
      queryRow x (provider H slice) ((provider H slice).indices projection) r = some cells →
        filtersHold m filters cells = true → pushed r = true ∧ pushed' r = true)
    (hplan : scan pg H.codec x s.db.tables (provider H slice) projection filters none = .ok plan) :
    ∃ plan', scan pg H.codec x s'.db.tables (provider H slice) projection filters none =
        .ok plan' ∧
      ∀ out out', Yields x H.store pushed plan out → Yields x H.store pushed' plan' out' →
        out'.filter (filtersHold m filters) ~ out.filter (filtersHold m filters) := by
  obtain ⟨hsound, hbalanced⟩ := hstart.run hnames hrun
  obtain ⟨hsound', hbalanced'⟩ := hstart.run hnames hrun'
  have hrows : s'.rows = s.rows := by
    unfold Lake.Balanced at hbalanced hbalanced'
    rw [hadded, herased, ← hbalanced] at hbalanced'
    exact add_right_cancel hbalanced'
  obtain ⟨plan', hplan'⟩ := hsound'.plans hnames hplan
  have hquery' : ∀ r ∈ s.rows, visible (provider H slice) r = true → ∃ cells,
      queryRow x (provider H slice) ((provider H slice).indices projection) r = some cells :=
    fun r hr => hquery r (hbalanced ▸ Multiset.mem_add.mpr (Or.inl hr))
  refine ⟨plan', hplan', fun out out' hout hout' => Multiset.coe_eq_coe.mp ?_⟩
  rw [(hsound.answers hnames hfree hreads hquery' (fun r c h h' => (hpushed r c h h').1) hplan).2
      out hout,
    (hsound'.answers hnames hfree hreads (hrows ▸ hquery') (fun r c h h' => (hpushed r c h h').2)
      hplan').2 out' hout', hrows]

/-- What a session sees of rows is its own key's. -/
theorem answers_of_key (x : Exprs) {key : I64} {indices : List Nat}
    (m : Meaning (outputSchema (provider H (some key)) indices)) (filters : List Expr)
    (rows : Multiset (Row H.schema)) :
    answers x m filters (rows.filter fun r => H.ofKey key r) = answers x m filters rows := by
  rw [answers, answers, Multiset.filter_filter]
  refine congrArg _ (Multiset.filter_congr fun r _ => and_iff_left_of_imp fun h => ?_)
  have hvisible := (Bool.and_eq_true_iff.mp h).1
  exact decide_eq_true (packingKeyOf_of_visible rfl hvisible)

/-- **What others do is not seen**: two lakes that have the same rows of a key answer every query of
its session alike, whatever rows of other keys there are, and were ever added or erased. -/
theorem lake_noninterference {key : I64} {s₀ s s₀' s' : Lake H} {pushed' : Row H.schema → Bool}
    {m : Meaning (outputSchema (provider H (some key))
      ((provider H (some key)).indices projection))}
    (hstart : s₀.Start) (hrun : s₀.Run s) (hstart' : s₀'.Start) (hrun' : s₀'.Run s')
    (hrows : (s'.rows.filter fun r => H.ofKey key r) = s.rows.filter fun r => H.ofKey key r)
    (hnames : H.Distinct) (hfree : Unreserved H.schema) (hreads : ReadsRefs x)
    (hquery : ∀ r ∈ s.rows, H.ofKey key r = true → ∃ cells, queryRow x (provider H (some key))
      ((provider H (some key)).indices projection) r = some cells)
    (hpushed : ∀ r cells, queryRow x (provider H (some key))
      ((provider H (some key)).indices projection) r = some cells →
        filtersHold m filters cells = true → pushed r = true ∧ pushed' r = true)
    (hplan : scan pg H.codec x s.db.tables (provider H (some key)) projection filters none =
      .ok plan) :
    ∃ plan', scan pg H.codec x s'.db.tables (provider H (some key)) projection filters none =
        .ok plan' ∧
      ∀ out out', Yields x H.store pushed plan out → Yields x H.store pushed' plan' out' →
        out'.filter (filtersHold m filters) ~ out.filter (filtersHold m filters) := by
  obtain ⟨hsound, -⟩ := hstart.run hnames hrun
  obtain ⟨hsound', -⟩ := hstart'.run hnames hrun'
  obtain ⟨plan', hplan'⟩ := hsound'.plans hnames hplan
  have hquery' : ∀ r ∈ s'.rows, H.ofKey key r = true → ∃ cells,
      queryRow x (provider H (some key)) ((provider H (some key)).indices projection) r =
        some cells := by
    intro r hr hkey
    have hmem : r ∈ s'.rows.filter fun r => H.ofKey key r := Multiset.mem_filter.mpr ⟨hr, hkey⟩
    exact hquery r (Multiset.mem_filter.mp (hrows ▸ hmem)).1 hkey
  refine ⟨plan', hplan', fun out out' hout hout' => Multiset.coe_eq_coe.mp ?_⟩
  rw [(hsound.answers hnames hfree hreads (fun r hr hv => hquery r hr
      (decide_eq_true (packingKeyOf_of_visible rfl hv)))
      (fun r c h h' => (hpushed r c h h').1) hplan).2 out hout,
    (hsound'.answers hnames hfree hreads (fun r hr hv => hquery' r hr
      (decide_eq_true (packingKeyOf_of_visible rfl hv)))
      (fun r c h h' => (hpushed r c h h').2) hplan').2 out' hout',
    ← answers_of_key x m filters s'.rows, hrows, answers_of_key]

end Answers

/-! ## 5. The table of two tenants, merged -/

/-- The object of the part, as a merge opens it. -/
def shopObject (path : String) : Option PartFile :=
  if path = shopMeta.path then some (noteEnv.reader.file shopGroups) else none

def shopStreams : List (PartBatchStream shopColumns.physicalSchema) :=
  (partStreams oneExpr shopObject shopColumns.physicalSchema shopColumns
    [shopMeta]).toOption.getD []

def shopBatches : List (List (Row shopColumns.physicalSchema)) :=
  (mergeStreams .codes shopStreams shopTable.sortKey).1

def shopWriter : ChunkWriterEnv where
  codec := .characters
  placement := .packed
  maxRowGroupRows := 10
  packingKey := "tenant_id"
  nextPath _ := "ht/1/L1/b.parquet"
  onOpen _ := .ok ()
  encodedSize _ := 0
  head _ := 90

/-- The files of the merge. -/
def shopWritten : List (Written shopColumns.physicalSchema) :=
  (StreamingChunkWriter.write shopWriter (shopBatches.map .ok)).toOption.getD []

/-- The objects of the part and of its merge. -/
def shopWarehouse : Warehouse where
  ht := shopTable
  cols := shopColumns
  reader := noteEnv.reader
  codec := .characters
  store path := if path = shopMeta.path then some shopGroups
    else (shopWritten.find? fun x => x.output.path = path).map Written.rowGroups
  version := shop_version

theorem shop_distinct : shopWarehouse.Distinct := shop_names

def shopAdd : Call := Catalog.commit 1 (.add [shopMeta]) none

def shopLease : CompactionLease := ⟨1, .obj [], 5, 1, 1000000⟩

def shopMerge : Call := commitCompactionReplace 1 shopLease [1]
  (shopWritten.map fun x => mergedPart (.obj []) 1 x.output) ⟨1, "merge", [8]⟩

theorem eq_ok_getD {ε α : Type} {e : Except ε α} (h : e.toOption.isSome = true) (d : α) :
    e = .ok (e.toOption.getD d) := by
  cases e with
  | ok a => rfl
  | error e => cases h

theorem shop_streams : partStreams oneExpr shopObject shopColumns.physicalSchema shopColumns
    [shopMeta] = .ok shopStreams := eq_ok_getD (by decide +kernel) []

theorem shop_written : StreamingChunkWriter.write shopWriter (shopBatches.map .ok) =
    .ok shopWritten := eq_ok_getD (by decide +kernel) []

theorem shop_drained : (mergeStreams .codes shopStreams shopTable.sortKey).2 = .drained := by
  decide +kernel

/-- The statements of call `t`, and that its COMMIT is sent. -/
def sends (t n : Nat) : List Event := List.replicate n (.stmt t) ++ [.sendCommit t]

/-- The part is added, and then merged. -/
theorem shop_events : ∃ db₁ ∈ Lts.run step {} (.begin shopAdd :: (sends 0 5 ++ [.commit 0])),
    db₁.tables.liveParts 1 = [⟨1, 1, shopMeta, 1, none, none⟩] ∧
    ∃ db₂ ∈ Lts.run step db₁ [.drawLease ⟨1, .obj []⟩ 5 1000, .installLease 0], db₂.nextTxn = 1 ∧
    ∃ db₃ ∈ Lts.run step db₂ (.begin shopMerge :: (sends 1 9 ++ [.commit 1])),
      (db₃.tables.liveParts 1).map PartRow.id = [2] := by
  decide +kernel

theorem shop_start : Lake.Start ({} : Lake shopWarehouse) :=
  ⟨initial_empty, by simp, rfl, rfl⟩

theorem shop_stored : shopWarehouse.store shopMeta.path = some shopGroups := by
  simp only [shopWarehouse, if_true]

theorem shop_holds : shopWarehouse.Holds shopMeta := ⟨shopGroups, shop_stored, shop_made⟩

theorem shop_wrote_add (T : Tables) : Wrote shopWarehouse T shopAdd []
    { added := rowsOf shopWarehouse.content [shopMeta] } :=
  .add rfl rfl fun _ hm => List.mem_singleton.mp hm ▸ shop_holds

theorem shop_wrote_merge {T : Tables} (hT : T.liveParts 1 = [⟨1, 1, shopMeta, 1, none, none⟩]) :
    Wrote shopWarehouse T shopMerge [⟨1, 1, shopMeta, 1, none, none⟩] {} := by
  have hput : ∀ x ∈ shopWritten, shopWarehouse.store x.output.path = some x.rowGroups := by
    have hpaths : shopWritten.map (fun x => x.output.path) = ["ht/1/L1/b.parquet"] := by
      decide +kernel
    obtain ⟨x, hx, hpath⟩ := List.map_eq_singleton_iff.mp hpaths
    intro y hy
    rw [hx, List.mem_singleton] at hy
    subst hy
    have hother : y.output.path ≠ shopMeta.path := hpath ▸ by decide
    simp [shopWarehouse, hother, hx]
  have hlive : ∀ p ∈ [(⟨1, 1, shopMeta, 1, none, none⟩ : PartRow)], p ∈ T.liveParts 1 ∧
      shopObject p.partMeta.path = shopWarehouse.file p.partMeta.path := by
    intro p hp
    refine ⟨hT ▸ hp, ?_⟩
    rw [List.mem_singleton.mp hp]
    simp [shopObject, shopWarehouse, Warehouse.file]
  exact .merge (fun p hp => (hlive p hp).1) (fun p hp => (hlive p hp).2) shop_streams
    (Prod.ext rfl shop_drained) rfl rfl shop_written hput

/-- The lake with the part, and with its merge. -/
theorem shop_lakes : ∃ s s' : Lake shopWarehouse, Lake.Run {} s ∧ Lake.Run s s' ∧
    s.ledger = [{ added := rowsOf shopWarehouse.content [shopMeta] }] ∧
    s'.ledger = s.ledger ++ [⟨0, 0⟩] ∧ (s'.db.tables.liveParts 1).map PartRow.id = [2] := by
  obtain ⟨db₁, hadd, hlive, db₂, hlease, hnext, db₃, hmerge, hids⟩ := shop_events
  have hsends : ∀ t n, ∀ e ∈ sends t n, (∀ c, e ≠ .begin c) ∧ ∀ t, e ≠ .commit t := by
    intro t n e he
    simp only [sends, List.mem_append, List.mem_replicate, List.mem_singleton] at he
    rcases he with ⟨-, rfl⟩ | rfl <;> simp
  obtain ⟨s, hrun, rfl, hreads, hledger⟩ := @Lake.run_call shopWarehouse
    { reads := [({} : Db).tables] } {} shopAdd [] _ _ _ List.mem_cons_self (shop_wrote_add _)
    (hsends 0 5) hadd
  have hlease' : Lake.Run { s with reads := s.db.tables :: s.reads }
      { s with db := db₂, reads := s.db.tables :: s.reads } :=
    Lake.run_events (by simp) hlease
  rw [← hnext] at hmerge
  obtain ⟨s', hrun', rfl, -, hledger'⟩ := @Lake.run_call shopWarehouse
    { s with db := db₂, reads := s.db.tables :: s.reads } s.db.tables shopMerge _ _ _ _
    List.mem_cons_self (shop_wrote_merge hlive) (hsends _ 9) hmerge
  exact ⟨s, s', .head .read hrun, .head .read (hlease'.trans hrun'), by simpa using hledger,
    hledger', hids⟩

/-- What tenant 2 asks of the table. -/
abbrev shopSlice : Option I64 := some (smallI64 2)

/-- What was ever added to it. -/
abbrev shopAdded : Multiset (Row shopWarehouse.schema) := Multiset.ofList shopGroups.flatten

theorem shop_added {s : Lake shopWarehouse}
    (h : s.ledger = [{ added := rowsOf shopWarehouse.content [shopMeta] }] ∨
      s.ledger = [{ added := rowsOf shopWarehouse.content [shopMeta] }, ⟨0, 0⟩]) :
    ({} : Lake shopWarehouse).rows + s.added = shopAdded ∧ s.erased = 0 := by
  have hrows : ({} : Lake shopWarehouse).rows = 0 := rfl
  have hadded : rowsOf shopWarehouse.content [shopMeta] = shopAdded :=
    (add_zero _).trans (content_of_store shop_stored)
  rw [hrows, zero_add]
  rcases h with h | h <;> simp [Lake.added, Lake.erased, h, hadded]

theorem shop_query : ∀ r ∈ shopAdded, ∃ cells, queryRow shopExprs (provider shopWarehouse shopSlice)
    ((provider shopWarehouse shopSlice).indices (some [1, 2])) r = some cells := by
  have hall : ∀ r ∈ shopGroups.flatten, (queryRow shopExprs (provider shopWarehouse shopSlice)
      ((provider shopWarehouse shopSlice).indices (some [1, 2])) r).isSome = true := by
    decide +kernel
  exact fun r hr => Option.isSome_iff_exists.mp (hall r hr)

theorem lake_answers_shop : ∃ s : Lake shopWarehouse, Lake.Run {} s ∧
    (s.db.tables.liveParts 1).map PartRow.id = [2] ∧
    ∃ plan, scan shopCast .characters shopExprs s.db.tables (provider shopWarehouse shopSlice)
      (some [1, 2]) shopFilters none = .ok plan ∧
    (∃ out, Yields shopExprs shopWarehouse.store (fun _ => true) plan out) ∧
    ∀ out, Yields shopExprs shopWarehouse.store (fun _ => true) plan out →
      Multiset.ofList (out.filter (filtersHold (shopMeaning
        (outputSchema (provider shopWarehouse shopSlice) [1, 2])) shopFilters)) =
          {[.int64 (smallI64 3), .int64 (smallI64 3)]} := by
  obtain ⟨s, s', hrun, hrun', hledger, hledger', hids⟩ := shop_lakes
  obtain ⟨hadded, herased⟩ := shop_added (s := s') (Or.inr (by rw [hledger', hledger]; rfl))
  obtain ⟨plan₀, hplan₀⟩ := shop_plan
  obtain ⟨plan, hplan⟩ := @Lake.Sound.plans shopWarehouse shopCast shopExprs shopSlice (some [1, 2])
    shopFilters plan₀ s' shop_distinct (shop_start.run shop_distinct (hrun.trans hrun')).1
    shopTables hplan₀
  obtain ⟨hruns, hall⟩ := @lake_answers shopWarehouse shopCast shopExprs shopSlice (some [1, 2])
    shopFilters plan (fun _ => true) (shopMeaning _) {} s' shop_start (hrun.trans hrun')
    shop_distinct shop_unreserved shopExprs_readsRefs (fun r hr _ => shop_query r (hadded ▸ hr))
    (fun _ _ _ _ => rfl) hplan
  refine ⟨s', hrun.trans hrun', hids, plan, hplan, hruns, fun out hout => ?_⟩
  have h := hall out hout
  rw [hadded, herased] at h
  rw [← add_zero (Multiset.ofList _)]
  refine h.trans ?_
  exact congrArg Multiset.ofList (show List.map _ (List.filter _ shopGroups.flatten) = [_] by
    decide +kernel)

theorem lake_agree_shop : ∃ s s' : Lake shopWarehouse, Lake.Run {} s ∧ Lake.Run {} s' ∧
    (s'.db.tables.liveParts 1).map PartRow.id = [2] ∧
    ∃ plan, scan shopCast .characters shopExprs s.db.tables (provider shopWarehouse shopSlice)
      (some [1, 2]) shopFilters none = .ok plan ∧
    ∃ plan', scan shopCast .characters shopExprs s'.db.tables (provider shopWarehouse shopSlice)
      (some [1, 2]) shopFilters none = .ok plan' ∧
    ∀ out out', Yields shopExprs shopWarehouse.store (fun _ => true) plan out →
      Yields shopExprs shopWarehouse.store (fun _ => true) plan' out' →
        out'.filter (filtersHold (shopMeaning
          (outputSchema (provider shopWarehouse shopSlice) [1, 2])) shopFilters) ~
        out.filter (filtersHold (shopMeaning
          (outputSchema (provider shopWarehouse shopSlice) [1, 2])) shopFilters) := by
  obtain ⟨s, s', hrun, hrun', hledger, hledger', hids⟩ := shop_lakes
  obtain ⟨hadded, herased⟩ := shop_added (Or.inl hledger)
  have hledger₂ : s'.added = s.added ∧ s'.erased = s.erased := by
    simp [Lake.added, Lake.erased, hledger']
  obtain ⟨plan₀, hplan₀⟩ := shop_plan
  obtain ⟨plan, hplan⟩ := @Lake.Sound.plans shopWarehouse shopCast shopExprs shopSlice (some [1, 2])
    shopFilters plan₀ s shop_distinct (shop_start.run shop_distinct hrun).1 shopTables hplan₀
  obtain ⟨plan', hplan', hall⟩ := @lake_agree shopWarehouse shopCast shopExprs shopSlice
    (some [1, 2]) shopFilters plan (fun _ => true) (shopMeaning _) {} s s' (fun _ => true)
    shop_start hrun (hrun.trans hrun') hledger₂.1 hledger₂.2 shop_distinct shop_unreserved
    shopExprs_readsRefs
    (fun r hr _ => shop_query r (hadded ▸ hr)) (fun _ _ _ _ => ⟨rfl, rfl⟩) hplan
  exact ⟨s, s', hrun, hrun.trans hrun', hids, plan, hplan, plan', hplan', hall⟩

end Ukiel.Query
