/-
# Queries after a deletion

`delete_key` promises that a tenant who has left is not there any more.  It reads the parts, writes
them again without the key and swaps them; meanwhile merges move the rows of the key to other parts,
the ingest adds new ones, and other keys, or this one, are deleted as well.

`lake_forgets`: from the moment the deletion's commit is durable a session of the key is answered
from rows alone that were added after the deletion had read the catalog, for ever.  What it rests on
is the books of `Query/Lake.lean`: the deletion erases all that its reading had of the key
(`erasure_of_sound`), so that what is left of the key must have been added since
(`Lake.Start.rows_since`).
-/
import Ukiel.Query.Lake

namespace Ukiel.Query
open Ukiel.Catalog Ukiel.Compactor Ukiel.Expr
open scoped List

variable {H : Warehouse} {key : I64}

/-! ## 1. What a deletion erases -/

/-- What `delete_key` is there to do once it has read `T`. -/
def erasure (H : Warehouse) (T : Tables) (key : I64) : Effect H :=
  { erased := (rowsOf H.content ((overlappingParts T H.ht.id key).map PartRow.partMeta)).filter
      fun r => H.ofKey key r }

/-- It is the effect of the call that the code makes. -/
theorem wrote_erasure {T : Tables} {env : DeletionEnv} {store : String → Option PartFile}
    {d : Erasure}
    (objects : ∀ p ∈ T.liveParts H.ht.id, store p.partMeta.path = H.file p.partMeta.path)
    (fresh : FreshNames env H.ht.id T) (reader : env.reader = H.reader) (code : env.codec = H.codec)
    (run : deleteKey env store T H.ht key = .ok (some d))
    (put : ∀ done p rest w new groups, overlappingParts T H.ht.id key = done ++ p :: rest →
      done.foldlM (rewritePart env H.ht H.cols key) { store := store } = .ok w →
      RoundWrites env H key w p new groups → H.store new.path = some groups) :
    Wrote H T d.call (overlappingParts T H.ht.id key) (erasure H T key) :=
  .deleteKey objects fresh reader code run put

/-- A part whose range the key is not in has no row of it. -/
theorem filter_content_of_ranged {m : PartMeta} (hholds : H.Holds m)
    (hout : ¬ (m.packingKeyMin ≤ key.val ∧ key.val ≤ m.packingKeyMax)) :
    (H.content m.path).filter (fun r => H.ofKey key r) = 0 := by
  obtain ⟨groups, hgroups, hmade⟩ := hholds
  obtain ⟨-, lo, hi, hmin, hmax, hlo, hhi⟩ := hmade.recorded.toRanged.keys
  rw [content_of_store hgroups, Multiset.filter_coe, Multiset.coe_eq_zero, List.filter_eq_nil_iff]
  intro r hr hkey
  have hmem := mem_keysOf hr (of_decide_eq_true (of_decide_eq_true hkey))
  exact hout ⟨hmin ▸ hlo.2 hmem, hmax ▸ hhi.2 hmem⟩

/-- **A deletion erases all rows of its key** that the parts it has read have. -/
theorem erasure_of_sound {s : Lake H} (h : s.Sound) :
    (erasure H s.db.tables key).erased = s.rows.filter fun r => H.ofKey key r := by
  set weight := fun p : PartRow => (H.content p.partMeta.path).filter fun r => H.ofKey key r
  set inside := fun p : PartRow =>
    decide (p.partMeta.packingKeyMin ≤ key.val ∧ key.val ≤ p.partMeta.packingKeyMax)
  have hperm : overlappingParts s.db.tables H.ht.id key ~
      (s.db.tables.liveParts H.ht.id).filter inside := List.perm_insertionSort _ _
  have hrows : s.rows = rowsOf H.content ((s.db.tables.liveParts H.ht.id).map PartRow.partMeta) :=
    partSum_rows _
  -- the parts that do not overlap have none
  have hnone :
      (((s.db.tables.liveParts H.ht.id).filter fun p => !inside p).map weight).sum = 0 := by
    refine List.sum_eq_zero fun y hy => ?_
    obtain ⟨p, hp, rfl⟩ := List.mem_map.mp hy
    obtain ⟨hp, hout⟩ := List.mem_filter.mp hp
    obtain ⟨hp, hcond⟩ := List.mem_filter.mp hp
    exact filter_content_of_ranged (h.holds p hp (of_decide_eq_true hcond).1)
      (of_decide_eq_false (Bool.not_eq_true' _ ▸ hout))
  calc (erasure H s.db.tables key).erased
      = ((overlappingParts s.db.tables H.ht.id key).map weight).sum := by
        rw [erasure, filter_rowsOf, List.map_map]
        rfl
    _ = (((s.db.tables.liveParts H.ht.id).filter inside).map weight).sum :=
        (hperm.map weight).sum_eq
    _ = (((s.db.tables.liveParts H.ht.id).filter inside).map weight).sum +
          (((s.db.tables.liveParts H.ht.id).filter fun p => !inside p).map weight).sum := by
        rw [hnone, add_zero]
    _ = ((s.db.tables.liveParts H.ht.id).map weight).sum :=
        List.sum_map_filter_add_not weight inside _
    _ = _ := by
        rw [hrows, filter_rowsOf, List.map_map]
        rfl

/-! ## 2. The rows of the key -/

/-- The rows of calls. -/
def addedBy (since : List (Effect H)) : Multiset (Row H.schema) := (since.map Effect.added).sum

/-- **What is left of the key was added since.**  A lake that has come from `s`, by way of the
commit of a deletion that had read `s`, has no row of the key but those of the calls in between and
after. -/
theorem Lake.Start.rows_since {s₀ s s' : Lake H} {since : List (Effect H)} (hnames : H.Distinct)
    (hstart : s₀.Start) (hrun : s₀.Run s) (hrun' : s.Run s')
    (hledger : s'.ledger = s.ledger ++ since)
    (hdeleted : erasure H s.db.tables key ∈ since) :
    (s'.rows.filter fun r => H.ofKey key r) ≤ (addedBy since).filter fun r => H.ofKey key r := by
  obtain ⟨hsound, hbalanced⟩ := hstart.run hnames hrun
  obtain ⟨-, hbalanced'⟩ := hstart.run hnames (hrun.trans hrun')
  -- the books between the two
  have hbooks : s'.rows + (since.map Effect.erased).sum = s.rows + addedBy since := by
    unfold Lake.Balanced Lake.added Lake.erased at hbalanced hbalanced'
    rw [hledger, List.map_append, List.map_append, List.sum_append, List.sum_append] at hbalanced'
    refine add_right_cancel (b := (s.ledger.map Effect.erased).sum) ?_
    calc s'.rows + (since.map Effect.erased).sum + (s.ledger.map Effect.erased).sum
        = s'.rows + ((s.ledger.map Effect.erased).sum + (since.map Effect.erased).sum) := by abel
      _ = s₀.rows + ((s.ledger.map Effect.added).sum + addedBy since) := hbalanced'
      _ = (s.rows + (s.ledger.map Effect.erased).sum) + addedBy since := by
        rw [hbalanced, add_assoc]
      _ = _ := by abel
  have herased : (s.rows.filter fun r => H.ofKey key r) ≤
      ((since.map Effect.erased).sum).filter fun r => H.ofKey key r := by
    have hle : (erasure H s.db.tables key).erased ≤ (since.map Effect.erased).sum :=
      Multiset.le_sum_of_mem (Multiset.mem_coe.mpr (List.mem_map_of_mem hdeleted))
    have hsame : (erasure H s.db.tables key).erased.filter (fun r => H.ofKey key r) =
        s.rows.filter fun r => H.ofKey key r := by
      rw [erasure_of_sound hsound, Multiset.filter_filter]
      simp
    exact hsame ▸ Multiset.filter_le_filter _ hle
  have hkey := congrArg (Multiset.filter fun r => H.ofKey key r = true) hbooks
  rw [Multiset.filter_add, Multiset.filter_add] at hkey
  refine le_of_add_le_add_left (a := s.rows.filter fun r => H.ofKey key r) ?_
  rw [← hkey, add_comm]
  exact add_le_add_right herased _

/-! ## 3. The answers -/

section Answers

variable {pg : BigintCast} {x : Exprs} {projection : Option (List Nat)} {filters : List Expr}
  {plan : ExecutionPlan} {pushed : Row H.schema → Bool}
  {m : Meaning (outputSchema (provider H (some key))
    ((provider H (some key)).indices projection))}

theorem answers_mono (x : Exprs) {indices : List Nat}
    (m : Meaning (outputSchema (provider H (some key)) indices)) (filters : List Expr)
    {rows rows' : Multiset (Row H.schema)} (h : rows ≤ rows') :
    answers x m filters rows ≤ answers x m filters rows' :=
  Multiset.map_le_map (Multiset.filter_le_filter _ h)

/-- **A deletion is final.**  Once the commit of a deletion of the key is durable, whatever else has
been committed since the deletion read the catalog and whatever is after it: a query of the key's
session can be run, and all it returns are answers of rows that were added since that reading.  If
there are none of the key, it returns nothing. -/
theorem lake_forgets {s₀ s s' : Lake H} {since : List (Effect H)} (hstart : s₀.Start)
    (hrun : s₀.Run s) (hrun' : s.Run s') (hledger : s'.ledger = s.ledger ++ since)
    (hdeleted : erasure H s.db.tables key ∈ since) (hnames : H.Distinct)
    (hfree : Unreserved H.schema) (hreads : ReadsRefs x)
    (hquery : ∀ r ∈ addedBy since, H.ofKey key r = true → ∃ cells, queryRow x
      (provider H (some key)) ((provider H (some key)).indices projection) r = some cells)
    (hpushed : ∀ r cells, queryRow x (provider H (some key))
      ((provider H (some key)).indices projection) r = some cells →
        filtersHold m filters cells = true → pushed r = true)
    (hplan : scan pg H.codec x s'.db.tables (provider H (some key)) projection filters none =
      .ok plan) :
    (∃ out, Yields x H.store pushed plan out) ∧ ∀ out, Yields x H.store pushed plan out →
      Multiset.ofList (out.filter (filtersHold m filters)) ≤ answers x m filters (addedBy since) ∧
      ((∀ r ∈ addedBy since, ¬ H.ofKey key r) → out.filter (filtersHold m filters) = []) := by
  have hrows := hstart.rows_since hnames hrun hrun' hledger hdeleted
  obtain ⟨hsound', -⟩ := hstart.run hnames (hrun.trans hrun')
  have hquery' : ∀ r ∈ s'.rows, visible (provider H (some key)) r = true → ∃ cells, queryRow x
      (provider H (some key)) ((provider H (some key)).indices projection) r = some cells := by
    intro r hr hv
    have hkey : H.ofKey key r = true := decide_eq_true (packingKeyOf_of_visible rfl hv)
    have hmem := Multiset.mem_of_le hrows (Multiset.mem_filter.mpr ⟨hr, hkey⟩)
    exact hquery r (Multiset.mem_filter.mp hmem).1 hkey
  obtain ⟨hruns, hall⟩ := hsound'.answers hnames hfree hreads hquery' hpushed hplan
  refine ⟨hruns, fun out hout => ?_⟩
  have hle : Multiset.ofList (out.filter (filtersHold m filters)) ≤
      answers x m filters ((addedBy since).filter fun r => H.ofKey key r) := by
    rw [hall out hout, ← answers_of_key]
    exact answers_mono x m filters hrows
  refine ⟨answers_of_key x m filters (addedBy since) ▸ hle, fun hnone => ?_⟩
  rw [Multiset.filter_eq_nil.mpr hnone] at hle
  exact (Multiset.coe_eq_zero _).mp (Multiset.le_zero.mp hle)

end Answers

/-! ## 4. What the rounds of a deletion write -/

section Rounds

variable {env : DeletionEnv} {parts done rest : List PartRow}

/-- The paths that a round of a deletion adds, after the rounds `done`, and the file it writes. -/
def roundOf (env : DeletionEnv) (H : Warehouse) (key : I64) (done : List PartRow) (p : PartRow) :
    Option (List String × List (List (Row H.schema))) := do
  let w ← (done.foldlM (rewritePart env H.ht H.cols key) { store := H.file }).toOption
  let w' ← (rewritePart env H.ht H.cols key w p).toOption
  let batch ← (readPartsForRewrite env.eval w.store H.cols [p.partMeta]).toOption
  let keys ← (int64Column batch H.ht.packingKey).toOption
  let out ← (batchToParquetKeyAligned env.codec.parquet defaultMaxRowGroupRows
    (filterNeq batch keys key) H.ht.packingKey).toOption
  return ((w'.newParts.drop w.newParts.length).map PartMeta.path, out.1)

/-- Every file that the rounds write is in the store. -/
def putsRounds (env : DeletionEnv) (H : Warehouse) (key : I64) (parts : List PartRow) : Bool :=
  (List.range parts.length).all fun i => parts[i]?.all fun p =>
    (roundOf env H key (parts.take i) p).all fun o => o.1.all fun path => H.store path = some o.2

theorem roundOf_of_writes {w : Rewriting} {p : PartRow} {new : PartMeta}
    {groups : List (List (Row H.schema))}
    (hdone : done.foldlM (rewritePart env H.ht H.cols key) { store := H.file } = .ok w)
    (h : RoundWrites env H key w p new groups) :
    roundOf env H key done p = some ([new.path], groups) := by
  obtain ⟨w', batch, keys, spans, hround, hparts, hread, hkeys, hwrite⟩ := h
  simp [roundOf, hdone, hround, hparts, hread, hkeys, hwrite, Except.toOption]

theorem put_of_putsRounds (h : putsRounds env H key parts = true) {w : Rewriting} {p : PartRow}
    {new : PartMeta} {groups : List (List (Row H.schema))} (hparts : parts = done ++ p :: rest)
    (hdone : done.foldlM (rewritePart env H.ht H.cols key) { store := H.file } = .ok w)
    (hwrites : RoundWrites env H key w p new groups) : H.store new.path = some groups := by
  subst hparts
  have hi := List.all_eq_true.mp h done.length (by simp)
  simpa [roundOf_of_writes hdone hwrites] using hi

end Rounds

/-! ## 5. A tenant leaves the shop -/

/-- The tenant with the second row. -/
abbrev leaver : I64 := smallI64 2

def remaining : List (List (Row shopColumns.physicalSchema)) :=
  [[shopRow (smallI64 1) (smallI64 7)]]

/-- The object of the part, and that of the one that is written in its place. -/
def leaverWarehouse : Warehouse where
  ht := shopTable
  cols := shopColumns
  reader := noteEnv.reader
  codec := .characters
  store path := if path = shopMeta.path then some shopGroups
    else if path = Gc.partPath 1 0 "u" then some remaining else none
  version := shop_version

theorem leaver_distinct : leaverWarehouse.Distinct := shop_names

/-- The part is added, and rewritten without the tenant. -/
theorem leaver_events : ∃ db₁ ∈ Lts.run step {} (.begin shopAdd :: (sends 0 5 ++ [.commit 0])),
    db₁.tables.parts = [⟨1, 1, shopMeta, 1, none, none⟩] ∧ db₁.nextTxn = 1 ∧
    ∃ d ∈ (deleteKey noteEnv leaverWarehouse.file db₁.tables shopTable leaver).toOption.join,
    ∃ db₂ ∈ Lts.run step db₁ (.begin d.call :: (sends 1 6 ++ [.commit 1])),
      (db₂.tables.liveParts 1).map PartRow.id = [2] := by
  decide +kernel

/-- The names of a deletion are fresh where none in the catalog begins like one. -/
theorem noteEnv_fresh {h : HypertableId} {T : Tables} (names : List (Int × String))
    (hT : T.parts.map (fun p => p.partMeta.path) = names.map fun n => Gc.partPath h n.1 n.2)
    (hnames : ∀ n ∈ names, n.2.toList.head? ≠ some 'u') : FreshNames noteEnv h T := by
  have hlist : ∀ n, (noteEnv.uuid n).toList = List.replicate (n + 1) 'u' := by
    intro n
    simp [noteEnv]
  refine ⟨fun m n heq => ?_, fun level n p hp heq => ?_⟩
  · have := congrArg (fun u : String => u.toList.length) heq
    simpa [hlist] using this
  · obtain ⟨name, hname, hpath⟩ := List.mem_map.mp
      (hT ▸ List.mem_map_of_mem (f := fun p : PartRow => p.partMeta.path) hp)
    have huuid := (Gc.partPath_inj (hpath.trans heq)).2.2
    refine hnames name hname ?_
    rw [huuid, hlist, List.replicate_succ, List.head?_cons]

theorem leaver_holds : leaverWarehouse.Holds shopMeta :=
  ⟨shopGroups, by simp only [leaverWarehouse, if_true], shop_made⟩

/-- The deletion is a writer of the table that it has read. -/
theorem leaver_wrote {T : Tables} {d : Erasure} (hT : T.parts = [⟨1, 1, shopMeta, 1, none, none⟩])
    (hrun : deleteKey noteEnv leaverWarehouse.file T shopTable leaver = .ok (some d)) :
    Wrote leaverWarehouse T d.call (overlappingParts T 1 leaver)
      (erasure leaverWarehouse T leaver) := by
  have hone : overlappingParts T 1 leaver = [⟨1, 1, shopMeta, 1, none, none⟩] := by
    simp only [overlappingParts, livePartsWithKey, Tables.liveParts, hT]
    decide
  have hfresh : FreshNames noteEnv 1 T := noteEnv_fresh [(0, "a")] (by rw [hT]; decide) (by decide)
  have hputs : putsRounds noteEnv leaverWarehouse leaver [⟨1, 1, shopMeta, 1, none, none⟩] =
      true := by decide +kernel
  exact wrote_erasure (fun _ _ => rfl) hfresh rfl rfl hrun fun _ _ _ _ _ _ hsplit hdone hwrites =>
    put_of_putsRounds hputs (hone.symm.trans hsplit) hdone hwrites

theorem leaver_start : Lake.Start ({} : Lake leaverWarehouse) := ⟨initial_empty, by simp, rfl, rfl⟩

/-- The lake with both tenants, and without the one that leaves. -/
theorem leaver_lakes : ∃ s s' : Lake leaverWarehouse, Lake.Run {} s ∧
    Lake.Run { s with reads := s.db.tables :: s.reads } s' ∧
    s.rows = Multiset.ofList shopGroups.flatten ∧
    s'.ledger = s.ledger ++ [erasure leaverWarehouse s.db.tables leaver] ∧
    (s'.db.tables.liveParts 1).map PartRow.id = [2] := by
  obtain ⟨db₁, hadd, hparts, hnext, d, hd, db₂, hdelete, hids⟩ := leaver_events
  have hsends : ∀ t n, ∀ e ∈ sends t n, (∀ c, e ≠ .begin c) ∧ ∀ t, e ≠ .commit t := by
    intro t n e he
    simp only [sends, List.mem_append, List.mem_replicate, List.mem_singleton] at he
    rcases he with ⟨-, rfl⟩ | rfl <;> simp
  obtain ⟨s, hadds, rfl, -, -⟩ := @Lake.run_call leaverWarehouse { reads := [({} : Db).tables] } {}
    shopAdd [] _ _ _ List.mem_cons_self
    (.add rfl rfl fun _ hm => List.mem_singleton.mp hm ▸ leaver_holds) (hsends 0 5) hadd
  rw [← hnext] at hdelete
  obtain ⟨s', hdeletes, rfl, -, hledger⟩ := @Lake.run_call leaverWarehouse
    { s with reads := s.db.tables :: s.reads } s.db.tables d.call _ _ _ _ List.mem_cons_self
    (leaver_wrote hparts (eq_ok_of_mem hd)) (hsends _ 6) hdelete
  refine ⟨s, s', .head .read hadds, hdeletes, ?_, hledger, hids⟩
  have hlive : s.db.tables.liveParts 1 = [⟨1, 1, shopMeta, 1, none, none⟩] := by
    rw [Tables.liveParts, hparts]
    decide
  have hrows : s.rows = rowsOf leaverWarehouse.content
      ((s.db.tables.liveParts 1).map PartRow.partMeta) := partSum_rows _
  rw [hrows, hlive, List.map_singleton]
  exact (add_zero _).trans (content_of_store (by simp only [leaverWarehouse, if_true]))

theorem lake_forgets_shop : ∃ s s' : Lake leaverWarehouse, Lake.Run {} s ∧ Lake.Run s s' ∧
    (∃ r ∈ s.rows, leaverWarehouse.ofKey leaver r = true) ∧
    (s'.db.tables.liveParts 1).map PartRow.id = [2] ∧
    ∃ plan, scan shopCast .characters shopExprs s'.db.tables
      (provider leaverWarehouse (some leaver)) (some [1, 2]) shopFilters none = .ok plan ∧
    ∀ out, Yields shopExprs leaverWarehouse.store (fun _ => true) plan out →
      out.filter (filtersHold (shopMeaning
        (outputSchema (provider leaverWarehouse (some leaver)) [1, 2])) shopFilters) = [] := by
  obtain ⟨s, s', hrun, hrun', hrows, hledger, hids⟩ := leaver_lakes
  have hmember : ∃ r ∈ s.rows, leaverWarehouse.ofKey leaver r = true := by
    rw [hrows]
    exact ⟨shopRow leaver (smallI64 3),
      Multiset.mem_coe.mpr (List.mem_cons_of_mem _ List.mem_cons_self), by decide⟩
  obtain ⟨plan₀, hplan₀⟩ := shop_plan
  have hruns' : Lake.Run s s' := .head .read hrun'
  obtain ⟨plan, hplan⟩ := @Lake.Sound.plans leaverWarehouse shopCast shopExprs (some leaver)
    (some [1, 2]) shopFilters plan₀ s' leaver_distinct
    (leaver_start.run leaver_distinct (hrun.trans hruns')).1 shopTables hplan₀
  have hall := (@lake_forgets leaverWarehouse leaver shopCast shopExprs (some [1, 2]) shopFilters
    plan (fun _ => true) (shopMeaning _) {} { s with reads := s.db.tables :: s.reads } s'
    [erasure leaverWarehouse s.db.tables leaver] leaver_start (hrun.tail .read) hrun' hledger
    (List.mem_singleton_self _) leaver_distinct shop_unreserved shopExprs_readsRefs
    (fun r hr => absurd hr (by simp [addedBy, erasure])) (fun _ _ _ _ => rfl) hplan).2
  exact ⟨s, s', hrun, hruns', hmember, hids, plan, hplan, fun out hout =>
    (hall out hout).2 fun r hr => absurd hr (by simp [addedBy, erasure])⟩

/-- The tenant who stays sees nothing of it. -/
abbrev stayer : I64 := smallI64 1

/-- What is left of the lake, and what has gone. -/
theorem leaver_rows {s s' : Lake leaverWarehouse} (hrun : Lake.Run {} s) (hrun' : Lake.Run {} s')
    (hledger : s'.ledger = s.ledger ++ [erasure leaverWarehouse s.db.tables leaver]) :
    s'.rows + s.rows.filter (fun r => leaverWarehouse.ofKey leaver r) = s.rows := by
  obtain ⟨hsound, hbalanced⟩ := leaver_start.run leaver_distinct hrun
  obtain ⟨-, hbalanced'⟩ := leaver_start.run leaver_distinct hrun'
  unfold Lake.Balanced Lake.added Lake.erased at hbalanced hbalanced'
  rw [hledger, List.map_append, List.map_append, List.sum_append, List.sum_append,
    List.map_singleton, List.map_singleton, List.sum_singleton, List.sum_singleton,
    erasure_of_sound hsound, show (erasure leaverWarehouse s.db.tables leaver).added = 0 from rfl,
    add_zero, ← hbalanced, add_left_comm, add_comm s.rows] at hbalanced'
  exact add_left_cancel hbalanced'

theorem lake_noninterference_shop : ∃ s s' : Lake leaverWarehouse, Lake.Run {} s ∧ Lake.Run {} s' ∧
    (∃ r ∈ s.rows, leaverWarehouse.ofKey leaver r = true) ∧
    (∀ r ∈ s'.rows, leaverWarehouse.ofKey leaver r ≠ true) ∧
    (∃ r ∈ s'.rows, leaverWarehouse.ofKey stayer r = true) ∧
    ∃ plan, scan shopCast .characters shopExprs s.db.tables
      (provider leaverWarehouse (some stayer)) (some [1, 2]) shopFilters none = .ok plan ∧
    ∃ plan', scan shopCast .characters shopExprs s'.db.tables
      (provider leaverWarehouse (some stayer)) (some [1, 2]) shopFilters none = .ok plan' ∧
    ∀ out out', Yields shopExprs leaverWarehouse.store (fun _ => true) plan out →
      Yields shopExprs leaverWarehouse.store (fun _ => true) plan' out' →
        out'.filter (filtersHold (shopMeaning
          (outputSchema (provider leaverWarehouse (some stayer)) [1, 2])) shopFilters) ~
        out.filter (filtersHold (shopMeaning
          (outputSchema (provider leaverWarehouse (some stayer)) [1, 2])) shopFilters) := by
  obtain ⟨s, s', hrun, hrun', hrows, hledger, -⟩ := leaver_lakes
  have hruns' : Lake.Run {} s' := hrun.trans (.head .read hrun')
  have hgone := leaver_rows hrun hruns' hledger
  -- what has gone is no row of the tenant who stays
  have hother : ∀ r, leaverWarehouse.ofKey stayer r = true →
      leaverWarehouse.ofKey leaver r ≠ true := by
    intro r hr hleaver
    have hsame := (of_decide_eq_true hr).symm.trans (of_decide_eq_true hleaver)
    revert hsame
    decide
  have hstays : (s'.rows.filter fun r => leaverWarehouse.ofKey stayer r) =
      s.rows.filter fun r => leaverWarehouse.ofKey stayer r := by
    have h := congrArg (Multiset.filter fun r => leaverWarehouse.ofKey stayer r = true) hgone
    have hnone : (s.rows.filter fun r => leaverWarehouse.ofKey stayer r = true ∧
        leaverWarehouse.ofKey leaver r = true) = 0 :=
      Multiset.filter_eq_nil.mpr fun r _ hr => hother r hr.1 hr.2
    rwa [Multiset.filter_add, Multiset.filter_filter, hnone, add_zero] at h
  have hleft : ∀ r ∈ s'.rows, leaverWarehouse.ofKey leaver r ≠ true := by
    have h := congrArg (Multiset.filter fun r => leaverWarehouse.ofKey leaver r = true) hgone
    simp only [Multiset.filter_add, Multiset.filter_filter, and_self] at h
    exact Multiset.filter_eq_nil.mp (add_right_cancel (h.trans (zero_add _).symm))
  obtain ⟨r₁, hr₁, hkey₁⟩ : ∃ r ∈ s.rows, leaverWarehouse.ofKey stayer r = true := by
    rw [hrows]
    exact ⟨shopRow stayer (smallI64 7), Multiset.mem_coe.mpr List.mem_cons_self, by decide⟩
  have hquery : ∀ r ∈ s.rows, ∃ cells, queryRow shopExprs (provider leaverWarehouse (some stayer))
      ((provider leaverWarehouse (some stayer)).indices (some [1, 2])) r = some cells := by
    have hall : ∀ r ∈ shopGroups.flatten, (queryRow shopExprs
        (provider leaverWarehouse (some stayer))
        ((provider leaverWarehouse (some stayer)).indices (some [1, 2])) r).isSome = true := by
      decide +kernel
    rw [hrows]
    exact fun r hr => Option.isSome_iff_exists.mp (hall r (Multiset.mem_coe.mp hr))
  obtain ⟨plan₀, hplan₀⟩ : ∃ plan, scan shopCast .characters shopExprs {}
      (provider leaverWarehouse (some stayer)) (some [1, 2]) shopFilters none = .ok plan := by
    obtain ⟨ranges, hranges⟩ : ∃ ranges, extractInt64Ranges shopFilters
        (provider leaverWarehouse (some stayer)).physicalSchema = .ok ranges := ⟨_, rfl⟩
    simp only [scan, hranges, Except.mapError, bind, Except.bind]
    exact ⟨_, rfl⟩
  obtain ⟨plan, hplan⟩ := @Lake.Sound.plans leaverWarehouse shopCast shopExprs (some stayer)
    (some [1, 2]) shopFilters plan₀ s leaver_distinct (leaver_start.run leaver_distinct hrun).1 {}
    hplan₀
  obtain ⟨plan', hplan', hall⟩ := @lake_noninterference leaverWarehouse shopCast shopExprs
    (some [1, 2]) shopFilters plan (fun _ => true) stayer {} s {} s' (fun _ => true)
    (shopMeaning _) leaver_start hrun leaver_start hruns' hstays leaver_distinct
    shop_unreserved shopExprs_readsRefs (fun r hr _ => hquery r hr)
    (fun _ _ _ _ => ⟨rfl, rfl⟩) hplan
  refine ⟨s, s', hrun, hruns', ?_, hleft, ?_, plan, hplan, plan', hplan', hall⟩
  · rw [hrows]
    exact ⟨shopRow leaver (smallI64 3),
      Multiset.mem_coe.mpr (List.mem_cons_of_mem _ List.mem_cons_self), by decide⟩
  · have hmem : r₁ ∈ s.rows.filter fun r => leaverWarehouse.ofKey stayer r :=
      Multiset.mem_filter.mpr ⟨hr₁, hkey₁⟩
    rw [← hstays] at hmem
    exact ⟨r₁, Multiset.mem_filter.mp hmem⟩

end Ukiel.Query
