/-
# The loop of an ingest worker

`RouteIngest::run` from its first message on: what it is woken by (§2), and when its buffers are
flushed (§1).  A flush may be put off while compaction is behind; what bounds the buffers then is
the "memory valve" of `flush_decision`.

`seen` is no state of the program: it records what the worker has received since the last flush
that went through.  `Accounted` says that the buffers are an account of it, and `accounted_run`
that no order of messages, ticks and answers makes them anything else.
-/
import Ukiel.Lib.Lts
import Ukiel.Ingest.Flush

namespace Ukiel.Ingest
open Ukiel.Expr Ukiel.Write

/-! ## 1. Flushing -/

/-- `IngestConfig`, as far as it decides when to flush. -/
structure FlushConfig where
  maxBufferRows : UInt64
  l0SlowdownParts : UInt64
  l0StopParts : UInt64
deriving DecidableEq

inductive FlushDecision where
  | flush
  | defer
deriving DecidableEq

/-- `flush_decision`. -/
def flushDecision (maxLiveL0 : Int) (deferred totalRows : Nat) (config : FlushConfig) :
    FlushDecision :=
  -- The memory valve, with `saturating_mul`.
  if min (config.maxBufferRows.toNat * 2) (2 ^ 64 - 1) ≤ totalRows then .flush
  else if asI64 config.l0StopParts.toNat ≤ maxLiveL0 then .defer
  else if asI64 config.l0SlowdownParts.toNat ≤ maxLiveL0 ∧ deferred = 0 then .defer
  else .flush

/-- What ends a task before its shutdown. -/
inductive Failure where
  | ingest (e : IngestError)
  /-- An error of the catalog, the object store or Kafka. -/
  | outside
deriving DecidableEq

/-- What the rest of the system answers to one flush. -/
structure Answers where
  /-- `max_live_l0_parts`, of the partitions the flush would touch. -/
  maxLiveL0 : List Json → Except Failure Int
  /-- `Flusher::flush`. -/
  publish : List FlushItem → List OffsetRange → Except Failure Unit

/-- A `RouteIngest` task whose consumer is connected. -/
structure RouteIngest where
  out : Outside
  config : IngestConfig
  limits : FlushConfig
  route : Route
  reader : JsonReader
  eval : Evaluator
  lexsort : Lexsort
  codec : PartCodec
  cols : TableColumns
  sortKey : List String

/-- How a flush that did not fail ended. -/
inductive FlushOutcome where
  /-- Nothing has been received. -/
  | idle
  | deferred
  | flushed
deriving DecidableEq

namespace RouteIngest

variable (R : RouteIngest)

/-- The second half of `flush`: the rows are encoded, the buffers emptied, and rows and offsets
committed. -/
def commit (b : Buffers) (a : Answers) : Except Failure (FlushOutcome × Buffers) :=
  match encodeDays R.reader R.eval R.lexsort R.codec R.cols R.route R.sortKey b with
  | .error e => .error (.ingest e)
  | .ok items => (a.publish items (b.offsetRanges R.route.topic)).map fun _ => (.flushed, {})

/-- `flush`. -/
def flush (force : Bool) (b : Buffers) (a : Answers) : Except Failure (FlushOutcome × Buffers) :=
  if b.ranges.entries = [] then .ok (.idle, b)
  else if force = false ∧ b.rowsByDay.entries ≠ [] then
    match a.maxLiveL0 (b.rowsByDay.keys.map fun day => .obj [("day", .str day)]) with
    | .error e => .error e
    | .ok maxLive =>
      match flushDecision maxLive b.deferredFlushes b.totalRows R.limits with
      | .defer => .ok (.deferred, { b with deferredFlushes := (b.deferredFlushes + 1) % 2 ^ 32 })
      | .flush => R.commit b a
  else R.commit b a

/-! ## 2. The loop -/

/-- What `select!` wakes for. -/
inductive Wake where
  | shutdown
  | tick
  | message (d : Delivery)
  /-- `recv` failed. -/
  | lost

/-- The state at the end of an iteration. -/
structure Loop where
  buffers : Buffers := {}
  seen : List Delivery := []

/-- The rest of an iteration that flushes.  `none`: the task has ended. -/
def Loop.flush (s : Loop) (a : Answers) : Option Loop :=
  match R.flush false s.buffers a with
  | .error _ => none
  | .ok (.flushed, b) => some ⟨b, []⟩
  | .ok (_, b) => some ⟨b, s.seen⟩

/-- `buffer_message` of the loop. -/
def Loop.receive (s : Loop) (d : Delivery) : Loop where
  buffers := bufferMessage R.out R.config R.route d.now s.buffers d.payload d.partition d.offset
  seen := s.seen ++ [d]

/-- **One iteration.**  The flush of a shutdown is forced, and the last thing the task does. -/
def iterate (s : Loop) : Wake × Answers → Option Loop
  | (.shutdown, _) => none
  | (.tick, a) => Loop.flush R s a
  | (.message d, a) =>
    if R.limits.maxBufferRows.toNat ≤ (Loop.receive R s d).buffers.totalRows then
      Loop.flush R (Loop.receive R s d) a
    else some (Loop.receive R s d)
  | (.lost, _) => none

variable {R : RouteIngest} {b b' : Buffers} {a : Answers}

theorem commit_eq_ok {o : FlushOutcome} (h : R.commit b a = .ok (o, b')) :
    o = .flushed ∧ b' = {} := by
  unfold commit at h
  split at h
  · cases h
  · rename_i items _
    cases hp : a.publish items (b.offsetRanges R.route.topic) with
    | error e =>
      rw [hp] at h
      cases h
    | ok u =>
      rw [hp] at h
      cases h
      exact ⟨rfl, rfl⟩

/-- What the memory valve leaves to be deferred. -/
theorem lt_of_deferred {maxLive : Int} {deferred totalRows : Nat} {config : FlushConfig}
    (h : flushDecision maxLive deferred totalRows config = .defer) :
    totalRows < 2 * config.maxBufferRows.toNat := by
  by_contra hge
  have hvalve : min (config.maxBufferRows.toNat * 2) (2 ^ 64 - 1) ≤ totalRows := by omega
  rw [flushDecision, if_pos hvalve] at h
  cases h

/-- **What a flush does**: nothing, or it is put off, or the buffers are as new. -/
theorem flush_cases {force : Bool} {o : FlushOutcome} (h : R.flush force b a = .ok (o, b')) :
    (o = .idle ∧ b.ranges.entries = [] ∧ b' = b) ∨
    (o = .deferred ∧ force = false ∧ b.totalRows < 2 * R.limits.maxBufferRows.toNat ∧
      b' = { b with deferredFlushes := (b.deferredFlushes + 1) % 2 ^ 32 }) ∨
    (o = .flushed ∧ b' = {}) := by
  unfold flush at h
  split at h
  · rename_i hempty
    cases h
    exact .inl ⟨rfl, hempty, rfl⟩
  · split at h
    · rename_i hprobe
      split at h
      · cases h
      · split at h
        · rename_i hdefer
          cases h
          exact .inr (.inl ⟨rfl, hprobe.1, lt_of_deferred hdefer, rfl⟩)
        · exact .inr (.inr (commit_eq_ok h))
    · exact .inr (.inr (commit_eq_ok h))

end RouteIngest

/-! ## 3. The account -/

/-- The rows in the buffers. -/
def Buffers.rowCount (b : Buffers) : Nat := (b.rowsByDay.entries.map fun e => e.2.length).sum

@[simp] theorem Buffers.rowCount_track (b : Buffers) (partition offset : Int) :
    (b.track partition offset).rowCount = b.rowCount := rfl

@[simp] theorem Buffers.totalRows_track (b : Buffers) (partition offset : Int) :
    (b.track partition offset).totalRows = b.totalRows := rfl

@[simp] theorem Buffers.totalRows_push (b : Buffers) (day : String) (ts : Int) (row : Json) :
    (b.push day ts row).totalRows = b.totalRows + 1 := rfl

@[simp] theorem Buffers.rowCount_push (b : Buffers) (day : String) (ts : Int) (row : Json) :
    (b.push day ts row).rowCount = b.rowCount + 1 := by
  have hsum := AList.sum_insert (fun rows : List Json => rows.length) b.rowsByDay day
    ((b.rowsByDay.lookup day).getD [] ++ [row])
  unfold rowCount push
  cases hday : b.rowsByDay.lookup day with
  | none =>
    simp only [hday, Option.elim_none, Option.getD_none, List.nil_append, List.length_singleton]
      at hsum ⊢
    omega
  | some rows =>
    simp only [hday, Option.elim_some, Option.getD_some, List.length_append,
      List.length_singleton] at hsum ⊢
    omega

section Message

variable (out : Outside) (config : IngestConfig) (route : Route) (b : Buffers) (d : Delivery)

/-- A message adds one row to the count and to the rows, or to neither. -/
theorem message_counts :
    let b' := bufferMessage out config route d.now b d.payload d.partition d.offset
    (b'.totalRows = b.totalRows ∧ b'.rowCount = b.rowCount) ∨
      (b'.totalRows = b.totalRows + 1 ∧ b'.rowCount = b.rowCount + 1) := by
  intro b'
  have hb' : b' = _ := bufferMessage_eq out config route d.now b d.payload d.partition d.offset
  cases hadm : admitted out config route d.now d.payload with
  | none =>
    rw [hadm] at hb'
    simp [hb']
  | some kept =>
    rw [hadm] at hb'
    simp [hb']

/-- A message is remembered, whatever becomes of its row. -/
theorem message_ranges_ne_nil :
    (bufferMessage out config route d.now b d.payload d.partition d.offset).ranges.entries ≠ [] := by
  have hne : (b.track d.partition d.offset).ranges.entries ≠ [] := by
    rw [Buffers.track, AList.entries_insert]
    exact List.cons_ne_nil _ _
  rw [bufferMessage_eq]
  cases admitted out config route d.now d.payload with
  | none => exact hne
  | some kept => exact hne

end Message

namespace RouteIngest

variable {R : RouteIngest} {s s' : Loop} {a : Answers}

/-- **The buffers are an account of what was received**: of the rows by their number, of the
offsets by their ends; and there are not too many rows. -/
structure Accounted (R : RouteIngest) (s : Loop) : Prop where
  holds : Holds R.out R.config R.route s.buffers s.seen
  total : s.buffers.totalRows = s.buffers.rowCount
  bound : s.buffers.totalRows < max 1 (2 * R.limits.maxBufferRows.toNat)

theorem Accounted.init : Accounted R {} where
  holds := Holds.empty R.out R.config R.route
  total := rfl
  bound := Nat.lt_of_lt_of_le Nat.zero_lt_one (Nat.le_max_left _ _)

/-- What a flush leaves, of buffers with any number of rows: it may put off no more of them than
the valve does. -/
theorem Accounted.flush (hholds : Holds R.out R.config R.route s.buffers s.seen)
    (htotal : s.buffers.totalRows = s.buffers.rowCount)
    (hidle : s.buffers.ranges.entries = [] → Accounted R s) (h : Loop.flush R s a = some s') :
    Accounted R s' := by
  unfold Loop.flush at h
  cases hflush : R.flush false s.buffers a with
  | error e =>
    rw [hflush] at h
    cases h
  | ok result =>
    obtain ⟨o, b⟩ := result
    rw [hflush] at h
    rcases flush_cases hflush with ⟨rfl, hempty, rfl⟩ | ⟨rfl, -, hvalve, rfl⟩ | ⟨rfl, rfl⟩
    · cases h
      exact hidle hempty
    · cases h
      exact ⟨⟨hholds.ranges, hholds.rows⟩, htotal, hvalve.trans_le (Nat.le_max_right _ _)⟩
    · cases h
      exact Accounted.init

/-- One iteration keeps the account. -/
theorem Accounted.iterate {e : Wake × Answers} (hs : Accounted R s)
    (h : R.iterate s e = some s') : Accounted R s' := by
  obtain ⟨wake, a⟩ := e
  cases wake with
  | shutdown => cases h
  | lost => cases h
  | tick => exact Accounted.flush hs.holds hs.total (fun _ => hs) h
  | message d =>
    have hholds : Holds R.out R.config R.route (Loop.receive R s d).buffers
        (Loop.receive R s d).seen := hs.holds.message d
    have htotal : (Loop.receive R s d).buffers.totalRows =
        (Loop.receive R s d).buffers.rowCount := by
      rcases message_counts R.out R.config R.route s.buffers d with ⟨ht, hc⟩ | ⟨ht, hc⟩
      · exact ht.trans (hs.total.trans hc.symm)
      · exact ht.trans ((congrArg (· + 1) hs.total).trans hc.symm)
    simp only [RouteIngest.iterate] at h
    split at h
    · refine Accounted.flush hholds htotal (fun hempty => ?_) h
      exact absurd hempty (message_ranges_ne_nil R.out R.config R.route s.buffers d)
    · rename_i hsmall
      cases h
      exact ⟨hholds, htotal, by omega⟩

theorem accounted_run {events : List (Wake × Answers)}
    (h : Lts.run R.iterate {} events = some s) : Accounted R s :=
  Lts.run_inv (fun _ _ _ hstep hs => hs.iterate hstep) h Accounted.init

/-- **Buffer accounting.**  After any iterations of the loop, whatever woke it and whatever it was
answered, the row count is the number of rows held and stays below twice the cap, the range of a
partition is made of the first and the last offset received from it since the last flush that
went through, and such a flush leaves nothing behind. -/
theorem buffers_accounted (R : RouteIngest) (events : List (Wake × Answers)) (s : Loop)
    (h : Lts.run R.iterate {} events = some s) :
    s.buffers.totalRows = (s.buffers.rowsByDay.entries.map fun e => e.2.length).sum ∧
    s.buffers.totalRows < max 1 (2 * R.limits.maxBufferRows.toNat) ∧
    (∀ partition, s.buffers.ranges.lookup partition = ends (read s.seen partition)) ∧
    ∀ (force : Bool) (a : Answers) (b : Buffers), R.flush force s.buffers a = .ok (.flushed, b) →
      b.rowsByDay = ∅ ∧ b.ranges = ∅ ∧ b.totalRows = 0 := by
  have hs := accounted_run h
  refine ⟨hs.total, hs.bound, hs.holds.ranges, fun force a b hflush => ?_⟩
  rcases flush_cases hflush with ⟨habsurd, -⟩ | ⟨habsurd, -⟩ | ⟨-, rfl⟩
  · cases habsurd
  · cases habsurd
  · exact ⟨rfl, rfl, rfl⟩

/-- A worker of a table without expressions. -/
def originTask : RouteIngest where
  out := originOutside
  config := ⟨7, 3600⟩
  limits := ⟨1000, 30, 200⟩
  route := originRoute
  reader := .byName
  eval := rowwise noExprs
  lexsort := .stable
  codec := .characters
  cols := originColumns
  sortKey := ["tenant_id", "ts"]

/-- Compaction is behind. -/
def behind : Answers := ⟨fun _ => .ok 500, fun _ _ => .ok ()⟩

/-- A row and a poison message, and a tick whose flush is put off. -/
def deferredEvents : List (Wake × Answers) :=
  [(.message ⟨0, 0, some textMessage, 2000⟩, behind), (.message ⟨0, 1, none, 2001⟩, behind),
    (.tick, behind)]

theorem buffers_accounted_deferred :
    ∃ s, Lts.run originTask.iterate {} deferredEvents = some s ∧ s.buffers.totalRows = 1 ∧
      s.buffers.ranges.lookup 0 = some (0, 1) ∧
      s.buffers.totalRows = (s.buffers.rowsByDay.entries.map fun e => e.2.length).sum := by
  have hrun : (Lts.run originTask.iterate {} deferredEvents).map
      (fun s => (s.buffers.totalRows, s.buffers.ranges.lookup 0)) = some (1, some (0, 1)) := by
    decide +kernel
  obtain ⟨s, hs, hcounts⟩ := Option.map_eq_some_iff.mp hrun
  obtain ⟨hrows, hranges⟩ := Prod.mk.inj hcounts
  exact ⟨s, hs, hrows, hranges, (buffers_accounted originTask deferredEvents s hs).1⟩

end RouteIngest
end Ukiel.Ingest
