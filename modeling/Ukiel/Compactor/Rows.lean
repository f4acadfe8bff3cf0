/-
# Rows through concurrent mutations

Every mutation of a hypertable's data, whoever makes it: ADDs of ingest and of materialized
views, compaction and finalization merges (`merge_parts`), key deletions (`delete_key`) and plain
DELETEs.  Each of them READS the parts it is going to replace, works for as long as it takes, and
then names them in a commit; all of them may be under way at once, on the same parts.

An object's rows are given by `content`: a path is a fresh UUID and never written twice, so what
is in the object is a function of its path.  That a rewrite writes the rows it read (without the
deleted key) and that a part's key range covers its rows are the writers' side of the bargain,
and are checked where a mutation is submitted (`Job.Carries`).
-/
import Mathlib.Algebra.Order.Group.Multiset
import Mathlib.Tactic.Abel
import Ukiel.Lib.Lists
import Ukiel.Catalog.Calls

namespace Ukiel.Compactor
open Ukiel.Catalog

/-! ## 1. Totals over live parts -/

section Totals

variable {M : Type} [AddCommMonoid M] {T T' : Tables} {c : Call} {id : Int} {h : HypertableId}

/-- The total of a weight of parts, which may depend on everything but their fate. -/
def partSum (v : Int → PartMeta → M) (parts : List PartRow) : M :=
  (parts.map fun p => v p.id p.partMeta).sum

/-- The total over the live parts of a hypertable. -/
def liveSum (v : Int → PartMeta → M) (T : Tables) (h : HypertableId) : M :=
  partSum v (T.liveParts h)

/-- What a commit leaves of the live parts. -/
theorem filter_live_tombstone (id : Int) (old : List Int) (h : HypertableId) (parts : List PartRow) :
    (tombstoneParts id old parts).filter (fun p => p.hypertableId = h ∧ p.live) =
      (parts.filter fun p => p.hypertableId = h ∧ p.live).filter fun p => !decide (p.id ∈ old) := by
  unfold tombstoneParts
  induction parts with
  | nil => rfl
  | cons p parts ih =>
    rw [List.map_cons, List.filter_cons, List.filter_cons, ih]
    by_cases hold : p.id ∈ old
    · rw [if_pos hold, if_neg (by simp [PartRow.live])]
      split <;> simp [hold]
    · rw [if_neg hold]
      split <;> simp [hold]

/-- The input rows of a commit, found among the live parts. -/
theorem liveMatched_eq (T : Tables) (c : Call) (ids : List Int) :
    liveMatched T c ids = (T.liveParts c.hypertableId).filter fun p => decide (p.id ∈ ids) := by
  unfold liveMatched Tables.liveParts PartRow.live
  rw [List.filter_filter]
  refine List.filter_congr ?_
  intro p _
  simp

/-- The rows a commit inserts are all live. -/
theorem filter_live_newRows {rows : List PartRow} {metas : List PartMeta}
    (hnew : NewRows c id metas rows) (h : HypertableId) :
    rows.filter (fun p => p.hypertableId = h ∧ p.live) =
      if h = c.hypertableId then rows else [] := by
  split
  · rename_i heq
    refine List.filter_eq_self.mpr ?_
    intro p hp
    obtain ⟨hht, -, hdel, -⟩ := hnew.row p hp
    simp [hht, heq, PartRow.live, hdel]
  · rename_i hne
    refine List.filter_eq_nil_iff.mpr ?_
    intro p hp
    obtain ⟨hht, -, -, -⟩ := hnew.row p hp
    simp [hht, Ne.symm hne]

/-- **What a commit does to the live parts**: it takes out those it names, and puts its own at the
end. -/
theorem liveParts_applied {rows : List PartRow}
    (hparts : T'.parts = tombstoneParts id c.op.oldParts T.parts ++ rows)
    (hnew : NewRows c id c.op.newParts rows) :
    T'.liveParts c.hypertableId =
      ((T.liveParts c.hypertableId).filter fun p => !decide (p.id ∈ c.op.oldParts)) ++ rows := by
  rw [Tables.liveParts, hparts, List.filter_append, filter_live_tombstone,
    filter_live_newRows hnew, if_pos rfl, Tables.liveParts]

/-- **What a commit does to a total over live parts**: the parts it names leave it, the parts it
registers enter it, and nothing else moves. -/
theorem applied_liveSum (v : Int → PartMeta → M) {rows : List PartRow}
    (hparts : T'.parts = tombstoneParts id c.op.oldParts T.parts ++ rows)
    (hnew : NewRows c id c.op.newParts rows) :
    liveSum v T' c.hypertableId + partSum v (liveMatched T c c.op.oldParts) =
      liveSum v T c.hypertableId + partSum v rows := by
  have hsplit := List.sum_map_filter_add_not (fun p : PartRow => v p.id p.partMeta)
    (fun p => decide (p.id ∈ c.op.oldParts)) (T.liveParts c.hypertableId)
  rw [liveSum, liveParts_applied hparts hnew, liveMatched_eq, liveSum]
  unfold partSum
  rw [List.map_append, List.sum_append, ← hsplit]
  abel

/-- A commit on another hypertable does not touch it. -/
theorem applied_liveSum_other (v : Int → PartMeta → M) (happ : Applied T c id T')
    (hnd : (T.parts.map PartRow.id).Nodup) (hne : h ≠ c.hypertableId) :
    liveSum v T' h = liveSum v T h := by
  obtain ⟨rows, hparts, hnew⟩ := happ.parts
  obtain ⟨-, hmatched⟩ := (List.length_filter_key_eq_iff hnd).mp happ.old_matched
  have hafter : T'.liveParts h = T.liveParts h := by
    rw [Tables.liveParts, hparts, List.filter_append, filter_live_tombstone,
      filter_live_newRows hnew, if_neg hne, List.append_nil]
    refine List.filter_eq_self.mpr ?_
    intro p hp
    obtain ⟨hp, hcond⟩ := List.mem_filter.mp hp
    simp only [decide_eq_true_eq] at hcond
    have hnot : p.id ∉ c.op.oldParts := by
      intro hold
      obtain ⟨q, hq, hid, hht, -⟩ := hmatched p.id hold
      have hqp : q = p := List.inj_on_of_nodup_map hnd hq hp hid
      exact hne (hcond.1 ▸ hqp ▸ hht)
    simp [hnot]
  rw [liveSum, hafter, liveSum]

/-- Anything that is not a commit leaves the totals alone. -/
theorem aside_liveSum (v : Int → PartMeta → M) (hside : Aside T T') (h : HypertableId) :
    liveSum v T' h = liveSum v T h := by
  obtain ⟨f, hparts, hf⟩ := hside.parts
  have hkeep : ∀ p, (f p).hypertableId = p.hypertableId ∧ (f p).live = p.live ∧
      v (f p).id (f p).partMeta = v p.id p.partMeta := by
    intro p
    rw [hf p]
    exact ⟨rfl, rfl, rfl⟩
  unfold liveSum partSum Tables.liveParts
  rw [hparts, List.filter_map, List.map_map]
  have hfilter : T.parts.filter ((fun p => decide (p.hypertableId = h ∧ p.live = true)) ∘ f) =
      T.parts.filter fun p => p.hypertableId = h ∧ p.live := by
    refine List.filter_congr ?_
    intro p _
    obtain ⟨h₁, h₂, -⟩ := hkeep p
    simp only [Function.comp, h₁, h₂]
  rw [hfilter]
  refine congrArg List.sum (List.map_congr_left ?_)
  intro p _
  exact (hkeep p).2.2

end Totals

/-! ## 2. Mutations -/

/-- What a mutation is for. -/
inductive Work where
  /-- New rows: an ingest flush or a materialized-view publish. -/
  | add
  /-- `merge_parts`, of compaction and of finalization. -/
  | merge
  /-- `delete_key`. -/
  | deleteKey (key : Int)
  /-- A plain `CommitOp::Delete`. -/
  | delete
deriving DecidableEq

/-- One mutation, from the moment it has read its inputs. -/
structure Job where
  work : Work
  hypertableId : HypertableId
  inputs : List PartRow
  /-- How many commits were durable then. -/
  readAt : Nat
deriving DecidableEq

/-- `live_parts` with a key: the live parts whose range contains it. -/
def livePartsWithKey (T : Tables) (h : HypertableId) (key : Int) : List PartRow :=
  (T.liveParts h).filter fun p => p.partMeta.packingKeyMin ≤ key ∧ key ≤ p.partMeta.packingKeyMax

/-- What a mutation may find when it reads.  `delete_key` returns early when it finds nothing; a
plain DELETE names any parts it has seen. -/
def Readable (T : Tables) (h : HypertableId) (inputs : List PartRow) : Work → Prop
  | .add => inputs = []
  | .merge => ∀ p ∈ inputs, p ∈ T.liveParts h
  | .deleteKey key => inputs = livePartsWithKey T h key ∧ inputs ≠ []
  | .delete => ∀ p ∈ inputs, p ∈ T.parts ∧ p.hypertableId = h

instance (T : Tables) (h : HypertableId) (inputs : List PartRow) (w : Work) :
    Decidable (Readable T h inputs w) := by
  cases w <;> unfold Readable <;> infer_instance

/-- Wholly owned by the key: `delete_key` tombstones the part without rewriting it. -/
def whollyOwned (key : Int) (p : PartRow) : Bool :=
  p.partMeta.packingKeyMin = key ∧ p.partMeta.packingKeyMax = key

section Mutations

variable {α : Type} (content : String → Multiset α) (key : α → Int)

/-- The rows of some parts. -/
def rowsOf (parts : List PartMeta) : Multiset α := (parts.map fun m => content m.path).sum

/-- The rows a mutation has read. -/
def Job.rows (j : Job) : Multiset α := rowsOf content (j.inputs.map PartRow.partMeta)

/-- The part's key range covers its rows. -/
def Covers (m : PartMeta) : Prop :=
  ∀ r ∈ content m.path, m.packingKeyMin ≤ key r ∧ key r ≤ m.packingKeyMax

instance (m : PartMeta) : Decidable (Covers content key m) := by
  unfold Covers; infer_instance

/-- **The call is the mutation's**: it names exactly the parts that were read, by the function
the writer uses, and its new parts hold the rows the rewrite was to keep. -/
def Job.Carries (j : Job) (c : Call) : Prop :=
  c.hypertableId = j.hypertableId ∧ (∀ m ∈ c.op.newParts, Covers content key m) ∧
    match j.work with
    | .add => c.op = .add c.op.newParts
    | .merge => c.op = .replace (j.inputs.map PartRow.id) c.op.newParts ∧ c.lease ≠ none ∧
        rowsOf content c.op.newParts = j.rows content
    | .deleteKey k => c.op = .replace (j.inputs.map PartRow.id) c.op.newParts ∧ c.lease = none ∧
        rowsOf content c.op.newParts =
          (rowsOf content ((j.inputs.filter fun p => !whollyOwned k p).map
            PartRow.partMeta)).filter fun r => key r ≠ k
    | .delete => c.op = .delete (j.inputs.map PartRow.id)

instance [DecidableEq α] (j : Job) (c : Call) : Decidable (j.Carries content key c) := by
  unfold Job.Carries; cases j.work <;> infer_instance

/-- The catalog and the mutations under way. -/
structure Site where
  db : Db := {}
  /-- Mutations that have read, by number. -/
  reads : AList (fun _ : Nat => Job) := ∅
  nextRead : Nat := 0
  /-- Which mutation a call was made for. -/
  job : Nat → Option Job := fun _ => none

inductive Act where
  /-- Something happens in the catalog other than the opening of a call. -/
  | catalog (e : Event)
  /-- A mutation reads its inputs. -/
  | read (w : Work) (h : HypertableId) (inputs : List PartRow)
  /-- A mutation, its outputs uploaded, calls the catalog. -/
  | submit (n : Nat) (c : Call)

/-- **One action.** -/
def act [DecidableEq α] (s : Site) : Act → Option Site
  | .catalog e =>
    match e with
    | .begin _ => none
    | e => (step s.db e).map fun db => { s with db := db }
  | .read w h inputs =>
    if Readable s.db.tables h inputs w then
      some { s with
        reads := s.reads.insert s.nextRead ⟨w, h, inputs, s.db.history.length⟩
        nextRead := s.nextRead + 1 }
    else none
  | .submit n c =>
    match s.reads.lookup n with
    | none => none
    | some j =>
      if j.Carries content key c then
        (step s.db (.begin c)).map fun db =>
          { s with db := db, job := Function.update s.job s.db.nextTxn (some j) }
      else none

/-! ## 3. The ledger -/

/-- The live rows of a hypertable. -/
def liveRows (T : Tables) (h : HypertableId) : Multiset α :=
  liveSum (fun _ m => content m.path) T h

/-- What a committed mutation added. -/
def Job.added (j : Job) (c : Call) : Multiset α :=
  match j.work with
  | .add => rowsOf content c.op.newParts
  | _ => 0

/-- What a committed mutation removed. -/
def Job.removed (j : Job) : Multiset α :=
  match j.work with
  | .deleteKey k => (j.rows content).filter fun r => key r = k
  | .delete => j.rows content
  | _ => 0

/-- The commits on a hypertable, from the `n`th commit on. -/
def Site.since (s : Site) (n : Nat) (h : HypertableId) : List Committed :=
  (s.db.history.drop n).filter fun x => x.call.hypertableId = h

/-- The total of an entry over these commits, each with the mutation it was made for. -/
def Site.total (s : Site) (n : Nat) (h : HypertableId) (f : Job → Call → Multiset α) :
    Multiset α :=
  ((s.since n h).map fun x => ((s.job x.txn).map fun j => f j x.call).getD 0).sum

/-- The rows of the ADDs committed from the `n`th commit on. -/
def addedSince (s : Site) (n : Nat) (h : HypertableId) : Multiset α :=
  s.total n h (Job.added content)

/-- The rows removed by committed deletions. -/
def removedRows (s : Site) (h : HypertableId) : Multiset α :=
  s.total 0 h fun j _ => j.removed content key

/-! ## 4. What holds at every site -/

/-- Every input of the mutation is a part of the catalog, as it was when it was read. -/
def Known (db : Db) (j : Job) : Prop :=
  (j.work = .add → j.inputs = []) ∧ ∀ p ∈ j.inputs, p.hypertableId = j.hypertableId ∧
    ∃ q ∈ db.tables.parts, q.id = p.id ∧ q.hypertableId = p.hypertableId ∧
      q.partMeta = p.partMeta

variable {content key}

theorem Readable.known {T : Tables} {h : HypertableId} {inputs : List PartRow} {w : Work}
    (hr : Readable T h inputs w) {db : Db} (hdb : db.tables = T) (n : Nat) :
    Known db ⟨w, h, inputs, n⟩ := by
  subst hdb
  have hlive : ∀ p, p ∈ db.tables.liveParts h → p.hypertableId = h ∧ p ∈ db.tables.parts := by
    intro p hp
    obtain ⟨hp, hcond⟩ := List.mem_filter.mp hp
    exact ⟨(of_decide_eq_true hcond).1, hp⟩
  have hall : ∀ p ∈ inputs, p.hypertableId = h ∧ p ∈ db.tables.parts := by
    intro p hp
    cases w with
    | add =>
      rw [show inputs = [] from hr] at hp
      cases hp
    | merge => exact hlive p (hr p hp)
    | deleteKey k =>
      rw [hr.1] at hp
      exact hlive p (List.mem_of_mem_filter hp)
    | delete => exact ⟨(hr p hp).2, (hr p hp).1⟩
  refine ⟨?_, fun p hp => ⟨(hall p hp).1, p, (hall p hp).2, rfl, rfl, rfl⟩⟩
  rintro rfl
  exact hr

theorem Known.step {db db' : Db} {e : Event} {j : Job} (h : Known db j) (hi : Inv db)
    (hs : Catalog.step db e = some db') : Known db' j := by
  refine ⟨h.1, fun p hp => ⟨(h.2 p hp).1, ?_⟩⟩
  obtain ⟨-, q, hq, hid, hht, hmeta⟩ := h.2 p hp
  obtain ⟨q', hq', hid', hht', hmeta'⟩ := step_part hi hs hq
  exact ⟨q', hq', hid'.trans hid, hht'.trans hht, hmeta'.trans hmeta⟩

/-- The mutation names exactly the parts it read. -/
theorem Job.Carries.oldParts {j : Job} {c : Call} {db : Db} (h : j.Carries content key c)
    (hk : Known db j) : c.op.oldParts = j.inputs.map PartRow.id := by
  obtain ⟨-, -, hop⟩ := h
  cases hw : j.work with
  | add =>
    rw [hw] at hop
    rw [hk.1 hw, show c.op = .add c.op.newParts from hop]
    rfl
  | merge =>
    rw [hw] at hop
    rw [hop.1]
    rfl
  | deleteKey k =>
    rw [hw] at hop
    rw [hop.1]
    rfl
  | delete =>
    rw [hw] at hop
    rw [show c.op = .delete (j.inputs.map PartRow.id) from hop]
    rfl

theorem rowsOf_append (a b : List PartMeta) :
    rowsOf content (a ++ b) = rowsOf content a + rowsOf content b := by
  unfold rowsOf
  rw [List.map_append, List.sum_append]

theorem mem_rowsOf {r : α} {parts : List PartMeta} :
    r ∈ rowsOf content parts ↔ ∃ m ∈ parts, r ∈ content m.path := by
  unfold rowsOf
  induction parts with
  | nil => simp
  | cons m parts ih => simp [ih]

/-- A part wholly owned by the key has no row of another. -/
theorem filter_whollyOwned {k : Int} {parts : List PartRow}
    (hcov : ∀ p ∈ parts, Covers content key p.partMeta) :
    (rowsOf content ((parts.filter fun p => whollyOwned k p).map PartRow.partMeta)).filter
      (fun r => key r ≠ k) = 0 := by
  rw [Multiset.filter_eq_nil]
  intro r hr
  rw [not_not]
  obtain ⟨m, hm, hrm⟩ := mem_rowsOf.mp hr
  obtain ⟨p, hp, rfl⟩ := List.mem_map.mp hm
  obtain ⟨hp, howned⟩ := List.mem_filter.mp hp
  obtain ⟨hmin, hmax⟩ := of_decide_eq_true howned
  obtain ⟨hlo, hhi⟩ := hcov p hp r hrm
  omega

/-- **A mutation's own balance**: what it writes and what it removes are what it read and what it
adds. -/
theorem Job.Carries.balance {j : Job} {c : Call} {db : Db} (h : j.Carries content key c)
    (hk : Known db j) (hcov : ∀ p ∈ j.inputs, Covers content key p.partMeta) :
    rowsOf content c.op.newParts + j.removed content key =
      j.rows content + j.added content c := by
  obtain ⟨-, -, hop⟩ := h
  unfold Job.removed Job.added
  cases hw : j.work with
  | add =>
    have hnil : j.rows content = 0 := by
      rw [Job.rows, hk.1 hw]
      rfl
    simp only [hnil, zero_add, add_zero]
  | merge =>
    rw [hw] at hop
    simp only [hop.2.2, add_zero]
  | deleteKey k =>
    rw [hw] at hop
    obtain ⟨-, -, hrows⟩ := hop
    have hsplit : j.rows content =
        rowsOf content ((j.inputs.filter fun p => whollyOwned k p).map PartRow.partMeta) +
        rowsOf content ((j.inputs.filter fun p => !whollyOwned k p).map PartRow.partMeta) := by
      rw [Job.rows, ← rowsOf_append, ← List.map_append]
      exact (((List.filter_append_perm (fun p => whollyOwned k p) j.inputs).map
        PartRow.partMeta).map _).sum_eq.symm
    have hkept : (j.rows content).filter (fun r => key r ≠ k) = rowsOf content c.op.newParts := by
      rw [hsplit, Multiset.filter_add, filter_whollyOwned hcov, zero_add, hrows]
    dsimp only
    rw [← hkept, add_zero, add_comm]
    exact Multiset.filter_add_not _ _
  | delete =>
    rw [hw] at hop
    have hnil : c.op.newParts = [] := by
      rw [show c.op = .delete (j.inputs.map PartRow.id) from hop]
      rfl
    simp only [hnil, rowsOf, List.map_nil, List.sum_nil, zero_add, add_zero]

end Mutations

end Ukiel.Compactor
