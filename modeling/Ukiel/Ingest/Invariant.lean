/-
# The ledger of a partition, and the invariant of ingest

What any interleaving of deliveries, flushes, commits, lost acknowledgements, crashes and
restarts leaves in the catalog, one partition of one topic in one hypertable at a time.

A worker may stand behind the stored offset, never before it; so what it has read from its base
covers everything from the stored offset on, and when its commit passes the compare-and-set the
two stretches fit together (`Ledger.snoc`).  A worker that hears `AlreadyApplied` did not commit
its rows; but the commit that did has the same identity, hence the same ranges, and the worker
may go on behind them.  That step needs the hash not to collide on what was hashed
(`CollisionFree`).
-/
import Ukiel.Ingest.Ledger

namespace Ukiel.Ingest
open Ukiel.Catalog
open Ukiel.Compactor (rowsOf)

variable {out : Outside} {log : Log} {content : String → Multiset Json} {s s' : World}

/-! ## 1. What is recorded -/

def Attempt.key (a : Attempt) (p : Int) : OffsetKey := ⟨a.route.hypertable, a.route.topic, p⟩

/-- The committed ranges of a partition in commit order, each with the id of its commit. -/
def committedRanges (hist : List Committed) (k : OffsetKey) : List (Int × OffsetRange) :=
  hist.flatMap fun x =>
    (x.call.offsets.filter fun r => x.call.offsetKey r = k).map fun r => (x.id, r)

/-- The deliveries to the attempts that committed, in commit order. -/
def consumed (hist : List Committed) (attempts : AList fun _ : Nat => Attempt) :
    List (Attempt × Delivery) :=
  hist.flatMap fun x =>
    match attempts.lookup x.txn with
    | none => []
    | some a => a.seen.map fun d => (a, d)

/-- Their offsets on one partition. -/
def consumedOffsets (hist : List Committed) (attempts : AList fun _ : Nat => Attempt)
    (k : OffsetKey) : List Int :=
  ((consumed hist attempts).filter fun c => c.1.key c.2.partition = k).map fun c => c.2.offset

/-- One row for each of them that its attempt accepted. -/
def acceptedRows (out : Outside) (s : World) (h : HypertableId) : Multiset Json :=
  ((consumed s.db.history s.attempts).filter fun c => c.1.route.hypertable = h).filterMap
    fun c => keptRow out c.1.config c.1.route c.2

/-- The rows of the parts added by committed ingest commits. -/
def addedRows (content : String → Multiset Json) (s : World) (h : HypertableId) : Multiset Json :=
  ((s.db.history.filter fun x => x.call.hypertableId = h ∧ x.call.offsets ≠ []).map
    fun x => rowsOf content x.call.op.newParts).sum

/-- **The ledger of one partition.**  The ranges follow each other without touching, in commit
order and by commit id; the stored offset is behind the last one; and the deliveries that were
committed are exactly the records before it, each once. -/
structure Ledger (log : Log) (hist : List Committed) (attempts : AList fun _ : Nat => Attempt)
    (T : Tables) (k : OffsetKey) : Prop where
  valid : ∀ x ∈ committedRanges hist k, x.2.first ≤ x.2.last
  disjoint : (committedRanges hist k).Pairwise fun x y => x.1 < y.1 ∧ x.2.last < y.2.first
  stored : T.ingestOffsets k = (committedRanges hist k).getLast?.map fun x => x.2.last + 1
  delivered : Stretch (Present log k.topic k.kafkaPartition) 0 (nextOffset T k)
    (consumedOffsets hist attempts k)
  nonneg : 0 ≤ nextOffset T k

/-- The stored offset is behind every committed range. -/
theorem Ledger.le_next {hist : List Committed} {attempts : AList fun _ : Nat => Attempt}
    {T : Tables} {k : OffsetKey} (h : Ledger log hist attempts T k) {x : Int × OffsetRange}
    (hx : x ∈ committedRanges hist k) : x.2.last + 1 ≤ nextOffset T k := by
  obtain ⟨y, hy⟩ := Option.isSome_iff_exists.mp
    (List.getLast?_isSome.mpr (List.ne_nil_of_mem hx))
  have hnext : nextOffset T k = y.2.last + 1 := by
    rw [nextOffset, h.stored, hy]
    rfl
  obtain ⟨init, hinit⟩ := List.getLast?_eq_some_iff.mp hy
  have hpw := h.disjoint
  have hvalid := h.valid y (List.mem_of_getLast? hy)
  rw [hinit] at hx hpw
  rcases List.mem_append.mp hx with hold | hlast
  · have hlt := ((List.pairwise_append.mp hpw).2.2 x hold y (List.mem_singleton_self y)).2
    omega
  · rw [List.mem_singleton.mp hlast, hnext]

/-- **A commit extends the ledger.** -/
theorem Ledger.snoc {hist : List Committed} {attempts attempts' : AList fun _ : Nat => Attempt}
    {T T' : Tables} {k : OffsetKey} {x : Committed} {base : Int} {offsets : List Int}
    {r : OffsetRange} (h : Ledger log hist attempts T k)
    (hranges : committedRanges (hist ++ [x]) k = committedRanges hist k ++ [(x.id, r)])
    (hoffsets : consumedOffsets (hist ++ [x]) attempts' k =
      consumedOffsets hist attempts k ++ offsets)
    (hids : ∀ y ∈ committedRanges hist k, y.1 < x.id)
    (hstretch : Stretch (Present log k.topic k.kafkaPartition) base (r.last + 1) offsets)
    (hends : ends offsets = some (r.first, r.last)) (hbase : base ≤ nextOffset T k)
    (hcas : nextOffset T k ≤ r.first) (hvalid : r.first ≤ r.last)
    (hnew : T'.ingestOffsets k = some (r.last + 1)) :
    Ledger log (hist ++ [x]) attempts' T' k := by
  have hnext : nextOffset T' k = r.last + 1 := by
    rw [nextOffset, hnew]
    rfl
  have hnonneg := h.nonneg
  refine ⟨?_, ?_, ?_, ?_, ?_⟩
  · intro y hy
    rw [hranges] at hy
    rcases List.mem_append.mp hy with hold | hnew
    · exact h.valid y hold
    · rw [List.mem_singleton.mp hnew]
      exact hvalid
  · rw [hranges]
    refine List.pairwise_append.mpr ⟨h.disjoint, List.pairwise_singleton _ _, ?_⟩
    intro y hy z hz
    rw [List.mem_singleton.mp hz]
    have hle := h.le_next hy
    exact ⟨hids y hy, by show y.2.last < r.first; omega⟩
  · rw [hranges, List.getLast?_concat, hnew]
    rfl
  · rw [hoffsets, hnext]
    have hlater : Stretch (Present log k.topic k.kafkaPartition) (nextOffset T k) (r.last + 1)
        offsets := by
      refine hstretch.from_later hbase ?_
      intro o ho
      exact le_trans hcas (between_ends hstretch.sorted hends ho).1
    exact h.delivered.append hlater hnonneg (by omega)
  · rw [hnext]
    omega

/-- Nothing about the partition changed. -/
theorem Ledger.congr {hist hist' : List Committed}
    {attempts attempts' : AList fun _ : Nat => Attempt} {T T' : Tables} {k : OffsetKey}
    (h : Ledger log hist attempts T k)
    (hranges : committedRanges hist' k = committedRanges hist k)
    (hoffsets : consumedOffsets hist' attempts' k = consumedOffsets hist attempts k)
    (hT : T'.ingestOffsets k = T.ingestOffsets k) : Ledger log hist' attempts' T' k := by
  have hnext : nextOffset T' k = nextOffset T k := by rw [nextOffset, nextOffset, hT]
  refine ⟨?_, ?_, ?_, ?_, ?_⟩
  · rw [hranges]
    exact h.valid
  · rw [hranges]
    exact h.disjoint
  · rw [hranges, hT]
    exact h.stored
  · rw [hoffsets, hnext]
    exact h.delivered
  · rw [hnext]
    exact h.nonneg

/-! ## 2. One commit in the ledger -/

theorem committedRanges_append (hist : List Committed) (x : Committed) (k : OffsetKey) :
    committedRanges (hist ++ [x]) k = committedRanges hist k ++
      (x.call.offsets.filter fun r => x.call.offsetKey r = k).map fun r => (x.id, r) := by
  simp [committedRanges]

theorem mem_committedRanges {hist : List Committed} {k : OffsetKey} {y : Int × OffsetRange} :
    y ∈ committedRanges hist k ↔
      ∃ x ∈ hist, x.id = y.1 ∧ y.2 ∈ x.call.offsets ∧ x.call.offsetKey y.2 = k := by
  unfold committedRanges
  rw [List.mem_flatMap]
  constructor
  · rintro ⟨x, hx, hy⟩
    obtain ⟨r, hr, rfl⟩ := List.mem_map.mp hy
    obtain ⟨hmem, hk⟩ := List.mem_filter.mp hr
    exact ⟨x, hx, rfl, hmem, of_decide_eq_true hk⟩
  · rintro ⟨x, hx, hid, hmem, hk⟩
    refine ⟨x, hx, List.mem_map.mpr ⟨y.2, List.mem_filter.mpr ⟨hmem, decide_eq_true hk⟩, ?_⟩⟩
    rw [hid]

theorem consumed_append (hist : List Committed) (attempts : AList fun _ : Nat => Attempt)
    {x : Committed} {a : Attempt} (ha : attempts.lookup x.txn = some a) :
    consumed (hist ++ [x]) attempts = consumed hist attempts ++ a.seen.map fun d => (a, d) := by
  simp [consumed, ha]

theorem consumed_append_none (hist : List Committed) (attempts : AList fun _ : Nat => Attempt)
    {x : Committed} (ha : attempts.lookup x.txn = none) :
    consumed (hist ++ [x]) attempts = consumed hist attempts := by
  simp [consumed, ha]

/-- What one attempt contributes on one partition. -/
theorem offsets_of_attempt (a : Attempt) (k : OffsetKey) :
    ((a.seen.map fun d => (a, d)).filter fun c => c.1.key c.2.partition = k).map
        (fun c => c.2.offset) =
      if a.key k.kafkaPartition = k then read a.seen k.kafkaPartition else [] := by
  rw [List.filter_map, List.map_map]
  split
  · rename_i hk
    have hiff : ∀ d : Delivery, a.key d.partition = k ↔ d.partition = k.kafkaPartition := by
      intro d
      constructor
      · intro he
        rw [← he]
        rfl
      · intro he
        rw [he, hk]
    simp [read, Function.comp_def, hiff]
  · rename_i hk
    have hno : ∀ d : Delivery, a.key d.partition ≠ k := by
      intro d he
      refine hk ?_
      have hp : d.partition = k.kafkaPartition := by rw [← he]; rfl
      rw [← hp, he]
    simp [Function.comp_def, hno]

/-- An attempt's call names each partition once, and under the attempt's topic. -/
theorem Attempt.Ok.keys_nodup {a : Attempt} (h : a.Ok out log content) :
    (a.offsets.map a.call.offsetKey).Nodup := by
  refine List.Nodup.of_map OffsetKey.kafkaPartition ?_
  rw [List.map_map]
  exact h.once

theorem Attempt.Ok.offsetKey {a : Attempt} (h : a.Ok out log content) {r : OffsetRange}
    (hr : r ∈ a.offsets) : a.call.offsetKey r = a.key r.partition := by
  have ht := ((h.range r).mp hr).1
  show (⟨a.route.hypertable, r.topic, r.partition⟩ : OffsetKey) = _
  rw [ht]
  rfl

/-- The ranges of a call under a key it names once. -/
theorem filter_offsetKey {c : Call} {r : OffsetRange} (hnd : (c.offsets.map c.offsetKey).Nodup)
    (hr : r ∈ c.offsets) : (c.offsets.filter fun r' => c.offsetKey r' = c.offsetKey r) = [r] := by
  obtain ⟨A, B, hAB⟩ := List.append_of_mem hr
  rw [hAB, List.map_append, List.map_cons] at hnd
  obtain ⟨hA, hrest, hdisj⟩ := List.nodup_append.mp hnd
  obtain ⟨hB, -⟩ := List.nodup_cons.mp hrest
  have hfA : (A.filter fun r' => c.offsetKey r' = c.offsetKey r) = [] := by
    refine List.filter_eq_nil_iff.mpr ?_
    intro r' hr' he
    exact hdisj _ (List.mem_map_of_mem hr') _ List.mem_cons_self (of_decide_eq_true he)
  have hfB : (B.filter fun r' => c.offsetKey r' = c.offsetKey r) = [] := by
    refine List.filter_eq_nil_iff.mpr ?_
    intro r' hr' he
    exact hB (List.mem_map.mpr ⟨r', hr', of_decide_eq_true he⟩)
  rw [hAB, List.filter_append, List.filter_cons_of_pos (by simp), hfA, hfB, List.nil_append]

theorem filter_offsetKey_nil {c : Call} {k : OffsetKey} (hk : k ∉ c.offsets.map c.offsetKey) :
    (c.offsets.filter fun r => c.offsetKey r = k) = [] := by
  refine List.filter_eq_nil_iff.mpr ?_
  intro r hr he
  exact hk (List.mem_map.mpr ⟨r, hr, of_decide_eq_true he⟩)

/-! ## 3. The invariant -/

/-- A call is an ingest attempt's or somebody else's. -/
def Origin (attempts : AList fun _ : Nat => Attempt) (t : Nat) (c : Call) : Prop :=
  (∃ a, attempts.lookup t = some a ∧ c = a.call) ∨ (attempts.lookup t = none ∧ Foreign c)

/-- An attempt's worker did not start in front of the stored offsets. -/
def Behind (T : Tables) (a : Attempt) : Prop := ∀ p, a.base p ≤ nextOffset T (a.key p)

/-- **A worker** stands where its deliveries have brought it; idle, its buffers hold them;
waiting, they are in its attempt. -/
structure Worker.Ok (out : Outside) (log : Log) (s : World) (W : Worker) : Prop where
  reads : Reads log W.route.topic W.base W.seen
  behind : ∀ p, W.base p ≤ nextOffset s.db.tables ⟨W.route.hypertable, W.route.topic, p⟩
  pos : ∀ p q, W.pos p = some q → q = stop W.base W.seen p ∧ p ∈ I32
  unread : ∀ p, W.pos p = none → read W.seen p = []
  idle : W.inFlight = none → Holds out W.config W.route W.buffers W.seen
  busy : ∀ t, W.inFlight = some t → W.buffers = {} ∧
    ∃ a, s.attempts.lookup t = some a ∧ a.route = W.route ∧ a.base = W.base ∧ a.seen = W.seen

/-- **The invariant of the world.** -/
structure Ok (out : Outside) (log : Log) (content : String → Multiset Json) (s : World) :
    Prop where
  db : Reachable s.db
  attempt : ∀ t a, s.attempts.lookup t = some a →
    a.Ok out log content ∧ t < s.db.nextTxn ∧ Behind s.db.tables a
  opened : ∀ t τ, s.db.txns.lookup t = some τ → Origin s.attempts t τ.call
  durable : ∀ x ∈ s.db.history, Origin s.attempts x.txn x.call
  /-- Ingest keys in the catalog come from the calls of this run. -/
  keyed : ∀ r ∈ s.db.tables.commits, ∀ key, r.idempotencyKey = some key → IngestKey key →
    ∃ x ∈ s.db.history, ∃ at', r = x.call.commitRow x.id at'
  /-- Whoever was told `Ok` may go on behind its ranges. -/
  settled : ∀ t a res, s.attempts.lookup t = some a → s.db.replies t = some (.ok res) →
    ∀ r ∈ a.offsets, r.last + 1 ≤ nextOffset s.db.tables (a.key r.partition)
  /-- What lies behind an open attempt's base has a smaller commit id than it will have. -/
  past : ∀ t τ a, s.db.txns.lookup t = some τ → s.attempts.lookup t = some a →
    ∀ p, ∀ y ∈ committedRanges s.db.history (a.key p), y.2.last < a.base p → Past s.db y.1 τ
  worker : ∀ n W, s.workers.lookup n = some W → W.Ok out log s
  ledger : ∀ k, Ledger log s.db.history s.attempts s.db.tables k
  rows : ∀ h, addedRows content s h = acceptedRows out s h

/-- The hash does not collide on what was hashed for these attempts. -/
def CollisionFree (out : Outside) (s : World) : Prop :=
  ∀ t a t' a', s.attempts.lookup t = some a → s.attempts.lookup t' = some a' →
    out.hash a.bytes = out.hash a'.bytes → a.bytes = a'.bytes

/-! ## 4. Events of the catalog -/

/-- The attempts after an event: the ones there were, and the one the event begins. -/
structure Grows (out : Outside) (log : Log) (content : String → Multiset Json) (s : World)
    (e : Event) (attempts : AList fun _ : Nat => Attempt) : Prop where
  keep : ∀ t a, s.attempts.lookup t = some a → attempts.lookup t = some a
  fresh : ∀ t a, attempts.lookup t = some a → s.attempts.lookup t = some a ∨
    (t = s.db.nextTxn ∧ e = .begin a.call ∧ a.Ok out log content ∧ Behind s.db.tables a)
  begun : ∀ c, e = .begin c → Origin attempts s.db.nextTxn c

section Event

variable {e : Event} {db' : Db} {attempts : AList fun _ : Nat => Attempt}

theorem Grows.lookup_old (g : Grows out log content s e attempts) {t : Nat}
    (ht : t ≠ s.db.nextTxn) : attempts.lookup t = s.attempts.lookup t := by
  cases ha : attempts.lookup t with
  | some a =>
    rcases g.fresh t a ha with hold | ⟨hnew, -⟩
    · exact hold.symm
    · exact absurd hnew ht
  | none =>
    cases ha' : s.attempts.lookup t with
    | none => rfl
    | some a =>
      rw [g.keep t a ha'] at ha
      cases ha

theorem Grows.origin (g : Grows out log content s e attempts) {t : Nat} {c : Call}
    (ht : t ≠ s.db.nextTxn) (h : Origin s.attempts t c) : Origin attempts t c := by
  unfold Origin
  rw [g.lookup_old ht]
  exact h

/-- A durable call is older than the next transaction number. -/
theorem Ok.history_ne (h : Ok out log content s) {x : Committed} (hx : x ∈ s.db.history) :
    x.txn ≠ s.db.nextTxn := by
  intro he
  exact ((h.db.callOk x.txn).fresh (le_of_eq he.symm)).2.2 x hx rfl

/-- **One key of a commit**: either an attempt moves it from at most the start of a range to its
end, or the commit leaves it alone. -/
theorem Ok.landing (h : Ok out log content s) {t : Nat} {τ : Txn} {id : Int}
    {T' : Tables} (hlook : s.db.txns.lookup t = some τ) (happ : Applied s.db.tables τ.call id T')
    (k : OffsetKey) :
    (∃ a r, s.attempts.lookup t = some a ∧ τ.call = a.call ∧ r ∈ a.offsets ∧
      a.key r.partition = k ∧ nextOffset s.db.tables k ≤ r.first ∧
      T'.ingestOffsets k = some (r.last + 1)) ∨
    (k ∉ τ.call.offsets.map τ.call.offsetKey ∧
      T'.ingestOffsets k = s.db.tables.ingestOffsets k) := by
  by_cases hk : k ∈ τ.call.offsets.map τ.call.offsetKey
  · left
    obtain ⟨r, hr, rfl⟩ := List.mem_map.mp hk
    rcases h.opened t τ hlook with ⟨a, ha, hcall⟩ | ⟨-, hforeign⟩
    · obtain ⟨hok, -, -⟩ := h.attempt t a ha
      rw [hcall] at hr happ ⊢
      have hr' : r ∈ a.offsets := hr
      obtain ⟨hcas, hnew⟩ := advance_range happ.offsets hok.keys_nodup hr'
      refine ⟨a, r, ha, rfl, hr', (hok.offsetKey hr').symm, ?_, hnew⟩
      obtain ⟨-, he⟩ := (hok.range r).mp hr'
      obtain ⟨-, hbf, -⟩ := hok.reads.ends_spec he
      have h0 := hok.reads.base_nonneg r.partition
      unfold nextOffset
      cases hn : s.db.tables.ingestOffsets (a.call.offsetKey r) with
      | none =>
        show (0 : Int) ≤ r.first
        omega
      | some n => exact hcas n hn
    · rw [hforeign.1] at hr
      cases hr
  · exact Or.inr ⟨hk, advance_other happ.offsets hk⟩

/-- Stored offsets only grow. -/
theorem Ok.next_mono (h : Ok out log content s) (hs : step s.db e = some db') (k : OffsetKey) :
    nextOffset s.db.tables k ≤ nextOffset db'.tables k := by
  rcases step_tables h.db.inv hs with ⟨t, τ, id, -, hlook, -, happ, -, -, -⟩ | ⟨-, -, hside⟩
  · rcases h.landing hlook happ k with ⟨a, r, ha, -, hr, -, hcas, hnew⟩ | ⟨-, hsame⟩
    · obtain ⟨-, he⟩ := ((h.attempt t a ha).1.range r).mp hr
      have hvalid := ((h.attempt t a ha).1.reads.ends_spec he).1
      have hnext : nextOffset db'.tables k = r.last + 1 := by
        rw [nextOffset, hnew]
        rfl
      omega
    · rw [nextOffset, nextOffset, hsame]
  · rw [nextOffset, nextOffset, hside.offsets]

/-- What was consumed so far does not depend on the attempt that begins. -/
theorem Grows.consumed (g : Grows out log content s e attempts) (h : Ok out log content s) :
    consumed s.db.history attempts = consumed s.db.history s.attempts := by
  unfold Ingest.consumed
  rw [List.flatMap_def, List.flatMap_def]
  refine congrArg List.flatten (List.map_congr_left fun x hx => ?_)
  rw [g.lookup_old (h.history_ne hx)]

theorem Ok.event_ledger (h : Ok out log content s) (hs : step s.db e = some db')
    (g : Grows out log content s e attempts) (k : OffsetKey) :
    Ledger log db'.history attempts db'.tables k := by
  have hconsumed := g.consumed h
  rcases step_tables h.db.inv hs with
    ⟨t, τ, id, -, hlook, hcid, happ, -, hhist, -⟩ | ⟨-, hhist, hside⟩
  · have ht : t ≠ s.db.nextTxn := Nat.ne_of_lt (h.db.inv.txn_lt t τ hlook)
    have hold := g.lookup_old ht
    rw [hhist]
    rcases h.landing hlook happ k with ⟨a, r, ha, hcall, hr, hkey, hcas, hnew⟩ | ⟨hk, hsame⟩
    · obtain ⟨hok, -, hbehind⟩ := h.attempt t a ha
      obtain ⟨-, he⟩ := (hok.range r).mp hr
      obtain ⟨hvalid, hbf, hpres, hstop, -⟩ := hok.reads.ends_spec he
      subst hkey
      have hstretch := hok.reads.stretch r.partition
      rw [hstop] at hstretch
      refine (h.ledger _).snoc (r := r) ?_ ?_ ?_ hstretch he (hbehind _) hcas hvalid hnew
      · rw [committedRanges_append, hcall, ← hok.offsetKey hr,
          filter_offsetKey (c := a.call) hok.keys_nodup hr]
        rfl
      · have hself : a.key (a.key r.partition).kafkaPartition = a.key r.partition := rfl
        unfold consumedOffsets
        rw [consumed_append _ _ (hold.trans ha), hconsumed, List.filter_append, List.map_append,
          offsets_of_attempt, if_pos hself]
        rfl
      · -- What is committed on this partition lies behind the base: otherwise the attempt
        -- would have read it, and its range would start no later.
        intro y hy
        obtain ⟨x, hx, hxid, hmem, hxk⟩ := mem_committedRanges.mp hy
        have hle := (h.ledger _).le_next hy
        refine (h.past t τ a hlook ha r.partition y hy ?_).2 id hcid
        by_contra hge
        push Not at hge
        have hylast : Present log a.route.topic r.partition y.2.last := by
          rcases h.durable x hx with ⟨a', ha', hcall'⟩ | ⟨-, hforeign⟩
          · obtain ⟨hok', -, -⟩ := h.attempt x.txn a' ha'
            rw [hcall'] at hmem hxk
            have hmem' : y.2 ∈ a'.offsets := hmem
            obtain ⟨-, he'⟩ := (hok'.range y.2).mp hmem'
            have hp := (hok'.reads.ends_spec he').2.2.1
            rw [hok'.offsetKey hmem'] at hxk
            have htopic : a'.route.topic = a.route.topic := congrArg OffsetKey.topic hxk
            have hpart : y.2.partition = r.partition := congrArg OffsetKey.kafkaPartition hxk
            rwa [htopic, hpart] at hp
          · rw [hforeign.1] at hmem
            cases hmem
        have hread : y.2.last ∈ read a.seen r.partition :=
          (hstretch.mem _).mpr ⟨hylast, hge, by omega⟩
        have hfirst := (between_ends hstretch.sorted he hread).1
        omega
    · refine (h.ledger k).congr ?_ ?_ hsame
      · rw [committedRanges_append, filter_offsetKey_nil hk, List.map_nil, List.append_nil]
      · unfold consumedOffsets
        rw [← hconsumed]
        rcases h.opened t τ hlook with ⟨a, ha, hcall⟩ | ⟨hnone, -⟩
        · obtain ⟨hok, -, -⟩ := h.attempt t a ha
          rw [consumed_append _ _ (hold.trans ha), List.filter_append, List.map_append,
            offsets_of_attempt]
          have hempty : (if a.key k.kafkaPartition = k then read a.seen k.kafkaPartition else []) =
              [] := by
            split
            · rename_i hkey
              cases hends : ends (read a.seen k.kafkaPartition) with
              | none => exact ends_eq_none_iff.mp hends
              | some fl =>
                have hmem : (⟨a.route.topic, k.kafkaPartition, fl.1, fl.2⟩ : OffsetRange) ∈
                    a.offsets := (hok.range _).mpr ⟨rfl, hends⟩
                refine absurd ?_ hk
                rw [hcall]
                exact List.mem_map.mpr ⟨_, hmem, hkey⟩
            · rfl
          rw [hempty, List.append_nil]
        · rw [consumed_append_none _ _ (hold.trans hnone)]
  · refine (h.ledger k).congr (by rw [hhist]) ?_ (by rw [hside.offsets])
    unfold consumedOffsets
    rw [hhist, hconsumed]

/-- A commit adds the rows its attempt kept. -/
theorem Ok.event_rows (h : Ok out log content s) (hs : step s.db e = some db')
    (g : Grows out log content s e attempts) {workers : AList fun _ : Nat => Worker}
    (k : HypertableId) : addedRows content ⟨db', workers, attempts⟩ k =
      acceptedRows out ⟨db', workers, attempts⟩ k := by
  have hold := h.rows k
  unfold addedRows acceptedRows at hold ⊢
  have hconsumed := g.consumed h
  dsimp only
  rcases step_tables h.db.inv hs with ⟨t, τ, id, -, hlook, -, -, -, hhist, -⟩ | ⟨-, hhist, -⟩
  · have ht : t ≠ s.db.nextTxn := Nat.ne_of_lt (h.db.inv.txn_lt t τ hlook)
    have hlookup := g.lookup_old ht
    rw [hhist]
    rcases h.opened t τ hlook with ⟨a, ha, hcall⟩ | ⟨hnone, hforeign⟩
    · obtain ⟨hok, -, -⟩ := h.attempt t a ha
      rw [consumed_append _ _ (hlookup.trans ha), hconsumed, List.filter_append,
        List.filter_append, List.map_append, List.sum_append, hold, List.filterMap_append,
        ← Multiset.coe_add]
      refine congrArg _ ?_
      rw [hcall]
      by_cases hht : a.route.hypertable = k
      · have hrows : rowsOf content a.parts = ↑(a.seen.filterMap
            (keptRow out a.config a.route)) := hok.rows
        have hkept : ((a.seen.map fun d => (a, d)).filter
            fun c => c.1.route.hypertable = k).filterMap
              (fun c => keptRow out c.1.config c.1.route c.2) =
            a.seen.filterMap (keptRow out a.config a.route) := by
          rw [List.filter_map, List.filterMap_map]
          simp [Function.comp_def, hht]
        rw [hkept, ← hrows]
        have hne : a.offsets ≠ [] := hok.nonempty
        simp [Attempt.call, commitWithOffsets, hht, hne, CommitOp.newParts]
      · have hkept : ((a.seen.map fun d => (a, d)).filter
            fun c => c.1.route.hypertable = k) = [] := by
          rw [List.filter_map]
          simp [Function.comp_def, hht]
        rw [hkept]
        simp [Attempt.call, commitWithOffsets, hht]
    · rw [consumed_append_none _ _ (hlookup.trans hnone), hconsumed, List.filter_append,
        List.map_append, List.sum_append, hold]
      simp [hforeign.1]
  · rw [hhist, hconsumed]
    exact hold

/-- Ingest keys in the catalog come from the calls of the run. -/
theorem Ok.event_keyed (h : Ok out log content s) (hs : step s.db e = some db') :
    ∀ r ∈ db'.tables.commits, ∀ key, r.idempotencyKey = some key → IngestKey key →
      ∃ x ∈ db'.history, ∃ at', r = x.call.commitRow x.id at' := by
  intro r hr key hkey hing
  rcases step_tables h.db.inv hs with ⟨t, τ, id, -, -, -, happ, -, hhist, -⟩ | ⟨-, hhist, hside⟩
  · obtain ⟨at', hcommits⟩ := happ.commits
    rw [hcommits] at hr
    rw [hhist]
    rcases List.mem_append.mp hr with hold | hnew
    · obtain ⟨x, hx, hrow⟩ := h.keyed r hold key hkey hing
      exact ⟨x, List.mem_append_left _ hx, hrow⟩
    · rw [List.mem_singleton] at hnew
      exact ⟨_, List.mem_append_right _ (List.mem_singleton_self _), at', hnew⟩
  · rw [hside.commits] at hr
    rw [hhist]
    exact h.keyed r hr key hkey hing

/-- Behind every range of a durable attempt. -/
theorem Ok.durable_settled (h : Ok out log content s) {x : Committed} (hx : x ∈ s.db.history)
    {a : Attempt} (ha : s.attempts.lookup x.txn = some a) {r : OffsetRange} (hr : r ∈ a.offsets) :
    r.last + 1 ≤ nextOffset s.db.tables (a.key r.partition) := by
  rcases h.durable x hx with ⟨a', ha', hcall⟩ | ⟨hnone, -⟩
  · rw [ha, Option.some.injEq] at ha'
    subst ha'
    have hmem : (x.id, r) ∈ committedRanges s.db.history (a.key r.partition) := by
      refine mem_committedRanges.mpr ⟨x, hx, rfl, ?_, ?_⟩
      · rw [hcall]
        exact hr
      · rw [hcall]
        exact (h.attempt x.txn a ha).1.offsetKey hr
    exact (h.ledger _).le_next hmem
  · rw [ha] at hnone
    cases hnone

/-- **A commit under the same identity consumed the same ranges.** -/
theorem Ok.same_identity (h : Ok out log content s) (hfree : CollisionFree out s) {t : Nat}
    {a : Attempt} {id : Int} (ha : s.attempts.lookup t = some a)
    (hd : DurableUnder s.db.tables a.identity id) {r : OffsetRange} (hr : r ∈ a.offsets) :
    r.last + 1 ≤ nextOffset s.db.tables (a.key r.partition) := by
  obtain ⟨row, hrow, -, hht, hkey, hfp⟩ := hd
  obtain ⟨hok, -, -⟩ := h.attempt t a ha
  obtain ⟨x, hx, at', rfl⟩ := h.keyed row hrow _ hkey hok.ingestKey
  rcases h.durable x hx with ⟨a', ha', hcall⟩ | ⟨-, hforeign⟩
  · obtain ⟨hok', -, -⟩ := h.attempt x.txn a' ha'
    rw [hcall] at hht hfp
    have hfp' : a'.identity.fingerprint = a.identity.fingerprint := Option.some.inj hfp
    have hht' : a'.route.hypertable = a.route.hypertable := by
      have hht'' : a'.route.hypertable = a.identity.hypertableId := hht
      rw [hht'', hok.identity_eq]
    rw [hok.identity_eq, hok'.identity_eq] at hfp'
    have hperm := hok'.offsets_perm hok hht' (hfree _ _ _ _ ha' ha hfp')
    have hsettled := h.durable_settled hx ha' (hperm.mem_iff.mpr hr)
    have hkeys := (hok'.offsetKey (hperm.mem_iff.mpr hr)).symm.trans
      (show a'.call.offsetKey r = a.call.offsetKey r by
        show (⟨a'.route.hypertable, r.topic, r.partition⟩ : OffsetKey) = _
        rw [hht']
        rfl)
    rw [hkeys, hok.offsetKey hr] at hsettled
    exact hsettled
  · obtain ⟨j, hj, hjk⟩ := Option.map_eq_some_iff.mp hkey
    rw [← hjk] at hkey
    exact absurd (hjk ▸ hok.ingestKey) (hforeign.2 j hj)

theorem Ok.event_settled (h : Ok out log content s) (hs : step s.db e = some db')
    (g : Grows out log content s e attempts) (hfree : CollisionFree out s) :
    ∀ t a res, attempts.lookup t = some a → db'.replies t = some (.ok res) →
      ∀ r ∈ a.offsets, r.last + 1 ≤ nextOffset db'.tables (a.key r.partition) := by
  intro t a res ha hreply r hr
  refine le_trans ?_ (h.next_mono hs _)
  have hold : t ≠ s.db.nextTxn → s.attempts.lookup t = some a := by
    intro ht
    rw [← g.lookup_old ht]
    exact ha
  rcases step_reply_ok hs hreply with hsame | ⟨x, hx, rfl⟩ | ⟨τ, i, id, hlook, hident, hd⟩
  · have ht : t ≠ s.db.nextTxn := by
      intro he
      rw [((h.db.callOk t).fresh (le_of_eq he.symm)).1] at hsame
      cases hsame
    exact h.settled t a res (hold ht) hsame r hr
  · exact h.durable_settled hx (hold (h.history_ne hx)) hr
  · have ht : t ≠ s.db.nextTxn := Nat.ne_of_lt (h.db.inv.txn_lt t τ hlook)
    rcases h.opened t τ hlook with ⟨a', ha', hcall⟩ | ⟨hnone, -⟩
    · rw [hold ht, Option.some.injEq] at ha'
      subst ha'
      rw [hcall] at hident
      have hident' : a.identity = i := Option.some.inj hident
      subst hident'
      exact h.same_identity hfree (hold ht) hd hr
    · rw [hold ht] at hnone
      cases hnone

theorem Ok.event_past (h : Ok out log content s) (hs : step s.db e = some db')
    (g : Grows out log content s e attempts) :
    ∀ t τ a, db'.txns.lookup t = some τ → attempts.lookup t = some a →
      ∀ p, ∀ y ∈ committedRanges db'.history (a.key p), y.2.last < a.base p → Past db' y.1 τ := by
  intro t τ' a hlook' ha p y hy hlast
  -- A range that has just been committed does not lie behind the base of an open attempt.
  have hyold : y ∈ committedRanges s.db.history (a.key p) := by
    have hbehind : a.base p ≤ nextOffset s.db.tables (a.key p) := by
      rcases g.fresh t a ha with hold | ⟨-, -, -, hbehind⟩
      · exact (h.attempt t a hold).2.2 p
      · exact hbehind p
    rcases step_tables h.db.inv hs with ⟨t₁, τ₁, id, -, hl₁, -, happ, -, hhist, -⟩ | ⟨-, hhist, -⟩
    · rw [hhist, committedRanges_append] at hy
      rcases List.mem_append.mp hy with hold | hnew
      · exact hold
      · exfalso
        obtain ⟨r, hr, rfl⟩ := List.mem_map.mp hnew
        obtain ⟨hmem, hk⟩ := List.mem_filter.mp hr
        have hk' : τ₁.call.offsetKey r = a.key p := of_decide_eq_true hk
        rcases h.landing hl₁ happ (a.key p) with ⟨a₁, r₁, ha₁, hcall₁, hr₁, hkey₁, hcas, -⟩ | ⟨hno, -⟩
        · obtain ⟨hok₁, -, -⟩ := h.attempt t₁ a₁ ha₁
          rw [hcall₁] at hmem hk'
          have hmem' : r ∈ a₁.offsets := hmem
          have hsame : a₁.call.offsetKey r = a₁.call.offsetKey r₁ := by
            rw [hk', hok₁.offsetKey hr₁, hkey₁]
          have hrr : r = r₁ := by
            have hfilter := filter_offsetKey (c := a₁.call) hok₁.keys_nodup hr₁
            have hin : r ∈ a₁.offsets.filter fun r' =>
                a₁.call.offsetKey r' = a₁.call.offsetKey r₁ :=
              List.mem_filter.mpr ⟨hmem', decide_eq_true hsame⟩
            have hin' : r ∈ [r₁] := hfilter ▸ hin
            exact List.mem_singleton.mp hin'
          subst hrr
          obtain ⟨-, he⟩ := (hok₁.range r).mp hmem'
          have hvalid := (hok₁.reads.ends_spec he).1
          have hlast' : r.last < a.base p := hlast
          omega
        · exact hno (List.mem_map.mpr ⟨r, hmem, hk'⟩)
    · rwa [hhist] at hy
  rcases step_call hs hlook' with ⟨τ, hlook, -⟩ | ⟨-, ht⟩
  · have ht : t ≠ s.db.nextTxn := Nat.ne_of_lt (h.db.inv.txn_lt t τ hlook)
    rw [g.lookup_old ht] at ha
    exact (h.past t τ a hlook ha p y hyold hlast).step hs h.db.inv hlook hlook'
  · -- The transaction is new: it has drawn no id, and every durable id is below the next one.
    obtain ⟨x, hx, hid, -, -⟩ := mem_committedRanges.mp hyold
    obtain ⟨-, at', hrow⟩ := (h.db.callOk x.txn).durable x hx rfl
    have hlt : y.1 < s.db.commitSeq := by
      have hstored := h.db.inv.stored.commit_lt _ hrow
      rw [← hid]
      exact hstored
    refine ⟨lt_of_lt_of_le hlt (step_commitSeq hs), ?_⟩
    intro id hcid
    rcases step_txn hs hlook' with
      ⟨τ, hlook, -, -⟩ | ⟨c, -, -, rfl⟩ | ⟨τ, s', rest, w, -, hlook, -, -, rfl⟩
    · exact absurd ht (Nat.ne_of_lt (h.db.inv.txn_lt t τ hlook))
    · cases hcid
    · exact absurd ht (Nat.ne_of_lt (h.db.inv.txn_lt t τ hlook))

theorem Worker.Ok.event {W : Worker} (hw : W.Ok out log s) (h : Ingest.Ok out log content s)
    (hs : step s.db e = some db') (g : Grows out log content s e attempts)
    {w : AList fun _ : Nat => Worker} : W.Ok out log ⟨db', w, attempts⟩ where
  reads := hw.reads
  behind p := le_trans (hw.behind p) (h.next_mono hs _)
  pos := hw.pos
  unread := hw.unread
  idle := hw.idle
  busy t ht := by
    obtain ⟨hb, a, ha, heq⟩ := hw.busy t ht
    exact ⟨hb, a, g.keep t a ha, heq⟩

/-- **Every event of the catalog keeps the invariant**, whoever causes it. -/
theorem Ok.event (h : Ok out log content s) (hs : step s.db e = some db')
    (g : Grows out log content s e attempts) (hfree : CollisionFree out s)
    {workers : AList fun _ : Nat => Worker}
    (hworkers : ∀ n W, workers.lookup n = some W → W.Ok out log ⟨db', workers, attempts⟩) :
    Ok out log content ⟨db', workers, attempts⟩ where
  db := h.db.next hs
  attempt t a ha := by
    rcases g.fresh t a ha with hold | ⟨ht, he, hok, hbehind⟩
    · obtain ⟨hok, hlt, hbehind⟩ := h.attempt t a hold
      exact ⟨hok, Nat.lt_of_lt_of_le hlt (step_nextTxn hs),
        fun p => le_trans (hbehind p) (h.next_mono hs _)⟩
    · refine ⟨hok, ?_, fun p => le_trans (hbehind p) (h.next_mono hs _)⟩
      subst ht he
      show s.db.nextTxn < db'.nextTxn
      simp only [step] at hs
      split at hs
      · cases hs
        exact Nat.lt_succ_self _
      · cases hs
        exact Nat.lt_succ_self _
  opened t τ hlook := by
    rcases step_call hs hlook with ⟨τ₀, hl₀, hcall⟩ | ⟨he, ht⟩
    · rw [hcall]
      exact g.origin (Nat.ne_of_lt (h.db.inv.txn_lt t τ₀ hl₀)) (h.opened t τ₀ hl₀)
    · subst ht
      exact g.begun _ he
  durable x hx := by
    rcases step_tables h.db.inv hs with ⟨t, τ, id, -, hlook, -, -, -, hhist, -⟩ | ⟨-, hhist, -⟩
    · rw [hhist] at hx
      rcases List.mem_append.mp hx with hold | hnew
      · exact g.origin (h.history_ne hold) (h.durable x hold)
      · rw [List.mem_singleton.mp hnew]
        exact g.origin (Nat.ne_of_lt (h.db.inv.txn_lt t τ hlook)) (h.opened t τ hlook)
    · rw [hhist] at hx
      exact g.origin (h.history_ne hx) (h.durable x hx)
  keyed := h.event_keyed hs
  settled := h.event_settled hs g hfree
  past := h.event_past hs g
  worker := hworkers
  ledger := h.event_ledger hs g
  rows := h.event_rows hs g

end Event

/-! ## 5. Every move keeps the invariant -/

/-- The workers after one of them moved, or stopped. -/
theorem lookup_insert_worker {m : AList fun _ : Nat => Worker} {n n' : Nat} {W W' : Worker}
    (h : (m.insert n W).lookup n' = some W') : W' = W ∨ m.lookup n' = some W' := by
  by_cases hn : n' = n
  · subst hn
    rw [AList.lookup_insert, Option.some.injEq] at h
    exact Or.inl h.symm
  · rw [AList.lookup_insert_ne hn] at h
    exact Or.inr h

theorem lookup_erase_worker {m : AList fun _ : Nat => Worker} {n n' : Nat} {W' : Worker}
    (h : (m.erase n).lookup n' = some W') : m.lookup n' = some W' := by
  by_cases hn : n' = n
  · subst hn
    rw [AList.lookup_erase] at h
    cases h
  · rwa [AList.lookup_erase_ne hn] at h

/-- A move of workers alone. -/
theorem Ok.workers (h : Ok out log content s) {workers : AList fun _ : Nat => Worker}
    (hworkers : ∀ n W, workers.lookup n = some W → W.Ok out log s) :
    Ok out log content { s with workers := workers } :=
  { h with
    worker := fun n W hn =>
      { hworkers n W hn with }
    rows := h.rows }

/-- A worker that connects stands at the stored offsets. -/
theorem Ok.connected (h : Ok out log content s) (config : IngestConfig) (route : Route)
    {existing : List Int} (hexisting : ∀ p ∈ existing, p ∈ I32) :
    Worker.Ok out log s
      { config := config
        route := route
        pos := seek (desiredAssignment existing .all (storedFor s.db.tables route))
        base := fun p => (storedFor s.db.tables route p).getD 0 } where
  reads := Reads.nil fun p => (h.ledger ⟨route.hypertable, route.topic, p⟩).nonneg
  behind p := le_refl _
  pos p q hq := by
    obtain ⟨ps, hps, rfl⟩ := Option.map_eq_some_iff.mp hq
    obtain ⟨hmem, hoff⟩ := desiredAssignment_offset (List.mem_of_find?_eq_some hps)
    have hp := List.find?_some hps
    simp only [decide_eq_true_eq] at hp
    subst hp
    exact ⟨hoff, hexisting _ hmem⟩
  unread p _ := rfl
  idle _ := Holds.empty out config route
  busy t ht := by cases ht

/-- A delivery to an idle worker. -/
theorem Worker.Ok.deliver {W : Worker} (hw : W.Ok out log s) {p q o now : Int}
    {payload : Option (List UInt8)} (hq : W.pos p = some q)
    (hlog : log W.route.topic p o = some payload) (hidle : W.inFlight = none)
    (hd : Delivers log W.route.topic p q o) :
    Worker.Ok out log s { W with
      pos := Function.update W.pos p (some (o + 1))
      buffers := bufferMessage out W.config W.route now W.buffers payload p o
      seen := W.seen ++ [⟨p, o, payload, now⟩] } where
  reads := by
    obtain ⟨hpos, hp⟩ := hw.pos p q hq
    exact hw.reads.concat hp (hpos ▸ hd) hlog
  behind := hw.behind
  pos p' q' hq' := by
    dsimp only at hq' ⊢
    rw [stop_concat]
    by_cases hpp : p' = p
    · subst hpp
      rw [Function.update_self, Option.some.injEq] at hq'
      rw [if_pos rfl]
      exact ⟨hq'.symm, (hw.pos p' q hq).2⟩
    · rw [Function.update_of_ne hpp] at hq'
      rw [if_neg (Ne.symm hpp)]
      exact hw.pos p' q' hq'
  unread p' hp' := by
    dsimp only at hp' ⊢
    have hpp : p' ≠ p := by
      rintro rfl
      rw [Function.update_self] at hp'
      cases hp'
    rw [Function.update_of_ne hpp] at hp'
    rw [read_concat, if_neg (Ne.symm hpp)]
    exact hw.unread p' hp'
  idle _ := (hw.idle hidle).message ⟨p, o, payload, now⟩
  busy t ht := by
    rw [show W.inFlight = some t from ht] at hidle
    cases hidle

/-- A worker that hears `Ok` stands where its deliveries had brought it. -/
theorem Ok.heard (h : Ok out log content s) {W : Worker} (hw : W.Ok out log s) {t : Nat}
    {res : CommitResult} (ht : W.inFlight = some t) (hreply : s.db.replies t = some (.ok res)) :
    Worker.Ok out log s { W with
      inFlight := none
      base := fun p => (W.pos p).getD (W.base p)
      seen := [] } := by
  obtain ⟨hbuf, a, ha, hroute, hbase, hseen⟩ := hw.busy t ht
  have hstand : ∀ p, (W.pos p).getD (W.base p) = stop W.base W.seen p := by
    intro p
    cases hp : W.pos p with
    | some q => exact (hw.pos p q hp).1
    | none =>
      unfold stop
      rw [hw.unread p hp]
      rfl
  have hbehind : ∀ p, stop W.base W.seen p ≤
      nextOffset s.db.tables ⟨W.route.hypertable, W.route.topic, p⟩ := by
    intro p
    unfold stop
    cases he : ends (read W.seen p) with
    | none => exact hw.behind p
    | some fl =>
      have hr : (⟨W.route.topic, p, fl.1, fl.2⟩ : OffsetRange) ∈ a.offsets := by
        refine ((h.attempt t a ha).1.range _).mpr ⟨by rw [hroute], ?_⟩
        rw [hseen]
        exact he
      have hsettled := h.settled t a res ha hreply _ hr
      unfold Attempt.key at hsettled
      rw [hroute] at hsettled
      exact hsettled
  refine ⟨?_, ?_, ?_, ?_, ?_, ?_⟩
  · refine Reads.nil fun p => ?_
    dsimp only
    rw [hstand]
    exact le_trans (hw.reads.base_nonneg p) (hw.reads.base_le p)
  · intro p
    dsimp only
    rw [hstand]
    exact hbehind p
  · intro p q hq
    dsimp only at hq ⊢
    rw [stop_nil, hq]
    exact ⟨rfl, (hw.pos p q hq).2⟩
  · intro p _
    rfl
  · intro _
    dsimp only
    rw [hbuf]
    exact Holds.empty out W.config W.route
  · intro t' ht'
    cases ht'

/-- **Every move keeps the invariant.** -/
theorem ok_move {m : Move} (hs : move out log content s m = some s') (hfree : CollisionFree out s)
    (h : Ok out log content s) : Ok out log content s' := by
  cases m with
  | connect n config route existing =>
    simp only [move] at hs
    split at hs
    · rename_i hc
      cases hs
      refine h.workers fun n' W hn => ?_
      rcases lookup_insert_worker hn with rfl | hold
      · exact h.connected config route hc.2
      · exact h.worker n' W hold
    · cases hs
  | deliver n p o now =>
    simp only [move] at hs
    split at hs
    · cases hs
    · rename_i W hW
      split at hs
      · rename_i q payload hq hlog
        split at hs
        · rename_i hc
          cases hs
          refine h.workers fun n' W' hn => ?_
          rcases lookup_insert_worker hn with rfl | hold
          · exact (h.worker n W hW).deliver hq hlog hc.1 hc.2
          · exact h.worker n' W' hold
        · cases hs
      · cases hs
  | flush n items offsets =>
    simp only [move] at hs
    split at hs
    · cases hs
    · rename_i W hW
      have hw := h.worker n W hW
      split at hs
      · rename_i hc
        obtain ⟨hidle, hne, henc, hoff⟩ := hc
        split at hs
        · cases hs
          exact h.workers fun n' W' hn => h.worker n' W' (lookup_erase_worker hn)
        · rename_i identity hid
          obtain ⟨db, hdb, rfl⟩ := Option.map_eq_some_iff.mp hs
          have hok : Attempt.Ok out log content
              ⟨W.config, W.route, W.base, W.seen, items.map Prod.snd, offsets, identity⟩ :=
            Attempt.ok_of_flush hw.reads (hw.idle hidle) henc hne hoff hid
          have hnone : s.attempts.lookup s.db.nextTxn = none := by
            cases ha : s.attempts.lookup s.db.nextTxn with
            | none => rfl
            | some a => exact absurd (h.attempt _ a ha).2.1 (Nat.lt_irrefl _)
          have hgrows : Grows out log content s (.begin (Attempt.call
              ⟨W.config, W.route, W.base, W.seen, items.map Prod.snd, offsets, identity⟩))
              (s.attempts.insert s.db.nextTxn
                ⟨W.config, W.route, W.base, W.seen, items.map Prod.snd, offsets, identity⟩) := by
            refine ⟨?_, ?_, ?_⟩
            · intro t a ha
              rw [AList.lookup_insert_ne]
              · exact ha
              · rintro rfl
                rw [hnone] at ha
                cases ha
            · intro t a ha
              by_cases ht : t = s.db.nextTxn
              · subst ht
                rw [AList.lookup_insert, Option.some.injEq] at ha
                subst ha
                exact Or.inr ⟨rfl, rfl, hok, hw.behind⟩
              · rw [AList.lookup_insert_ne ht] at ha
                exact Or.inl ha
            · intro c hc
              cases hc
              exact Or.inl ⟨_, AList.lookup_insert _, rfl⟩
          refine h.event hdb hgrows hfree ?_
          intro n' W' hn
          rcases lookup_insert_worker hn with rfl | hold
          · have hw' := hw.event h hdb hgrows (w := s.workers)
            refine { hw' with idle := ?_, busy := ?_ }
            · intro hno
              cases hno
            · intro t ht
              cases ht
              exact ⟨rfl, _, AList.lookup_insert _, rfl, rfl, rfl⟩
          · have hold' := (h.worker n' W' hold).event h hdb hgrows (w := s.workers)
            exact { hold' with }
      · cases hs
  | hear n =>
    simp only [move] at hs
    split at hs
    · cases hs
    · rename_i W hW
      split at hs
      · cases hs
      · cases hs
        exact h.workers fun n' W' hn => h.worker n' W' (lookup_erase_worker hn)
      · rename_i res hreply
        cases hs
        obtain ⟨t, ht, htold⟩ := Option.bind_eq_some_iff.mp hreply
        refine h.workers fun n' W' hn => ?_
        rcases lookup_insert_worker hn with rfl | hold
        · exact h.heard (h.worker n W hW) ht htold
        · exact h.worker n' W' hold
  | crash n =>
    cases hs
    exact h.workers fun n' W' hn => h.worker n' W' (lookup_erase_worker hn)
  | catalog e =>
    simp only [move] at hs
    split at hs
    · rename_i helse
      obtain ⟨db, hdb, rfl⟩ := Option.map_eq_some_iff.mp hs
      have hgrows : Grows out log content s e s.attempts := by
        refine ⟨fun t a ha => ha, fun t a ha => Or.inl ha, ?_⟩
        rintro c rfl
        refine Or.inr ⟨?_, helse⟩
        cases ha : s.attempts.lookup s.db.nextTxn with
        | none => rfl
        | some a => exact absurd (h.attempt _ a ha).2.1 (Nat.lt_irrefl _)
      exact h.event hdb hgrows hfree fun n W hn => (h.worker n W hn).event h hdb hgrows
    · cases hs

end Ukiel.Ingest
