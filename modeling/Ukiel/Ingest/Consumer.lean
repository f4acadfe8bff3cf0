/-
# The ingest worker's buffers

The pure parts of `ukiel-ingest`: where a worker starts (`assignment.rs`), what it does with one
message (`buffer_message`, `event_time_in_bounds` in `consumer.rs`) and the identity of what it
flushes (`flusher.rs`).

What the worker uses from outside the repository is a parameter, `Outside`: the JSON parser, the
calendar and the hash.  Integers the source keeps in an `i64` saturate or wrap here where they
do there.
-/
import Mathlib.Data.List.AList
import Ukiel.Lib.Stretch
import Ukiel.Core.Operation

namespace Ukiel.Ingest

/-! ## 1. Configuration -/

/-- The functions of other packages the worker calls. -/
structure Outside where
  /-- `serde_json::from_slice`. -/
  parse : List UInt8 → Option Json
  /-- `chrono::DateTime::from_timestamp_millis`, as a date. -/
  dayOf : Int → Option String
  /-- `blake3::hash`. -/
  hash : List UInt8 → Digest

/-- `IngestConfig`, as far as it decides what is admitted. -/
structure IngestConfig where
  maxEventAgeDays : Nat
  maxEventFutureSecs : Nat
deriving DecidableEq

/-- A `TableRoute` with the hypertable its name resolves to. -/
structure Route where
  hypertable : HypertableId
  packingKey : String
  topic : String
  tsColumn : String
  /-- A string's length is a `usize`. -/
  topicLen : topic ∈ Str64

/-! ## 2. Assignment -/

/-- The partitions of a topic this worker is responsible for. -/
inductive Ownership where
  | all
  | subset (partitions : List Int)
deriving DecidableEq

def Ownership.owns : Ownership → Int → Bool
  | .all, _ => true
  | .subset set, p => p ∈ set

/-- A partition to consume and the offset to start at. -/
structure PartitionStart where
  partition : Int
  offset : Int
deriving DecidableEq

/-- `desired_assignment`: every existing and owned partition, at its catalog offset or at 0. -/
def desiredAssignment (existing : List Int) (ownership : Ownership) (stored : Int → Option Int) :
    List PartitionStart :=
  ((existing.filter ownership.owns).map fun p => ⟨p, (stored p).getD 0⟩).insertionSort
    fun a b => a.partition ≤ b.partition

theorem desiredAssignment_offset {existing : List Int} {ownership : Ownership}
    {stored : Int → Option Int} {ps : PartitionStart}
    (h : ps ∈ desiredAssignment existing ownership stored) :
    ps.partition ∈ existing ∧ ps.offset = (stored ps.partition).getD 0 := by
  have hmem := (List.perm_insertionSort _ _).mem_iff.mp h
  obtain ⟨p, hp, rfl⟩ := List.mem_map.mp hmem
  exact ⟨(List.mem_filter.mp hp).1, rfl⟩

/-! ## 3. Buffers -/

/-- Buffered state between flushes. -/
structure Buffers where
  rowsByDay : AList (fun _ : String => List Json) := ∅
  ranges : AList (fun _ : Int => Int × Int) := ∅
  totalRows : Nat := 0
  maxEventTsMs : Option Int := none
  deferredFlushes : Nat := 0

/-- `as i64` of a `u64`. -/
def asI64 (n : Nat) : Int := (n : Int).bmod (2 ^ 64)

/-- An `i64` result that saturates. -/
def saturate (v : Int) : Int := max (-2 ^ 63) (min v (2 ^ 63 - 1))

/-- `event_time_in_bounds`. -/
def eventTimeInBounds (tsMs nowMs : Int) (config : IngestConfig) : Bool :=
  let maxAgeMs := saturate (asI64 config.maxEventAgeDays * (24 * 3600 * 1000))
  let maxFutureMs := saturate (asI64 config.maxEventFutureSecs * 1000)
  tsMs ≥ saturate (nowMs - maxAgeMs) && tsMs ≤ saturate (nowMs + maxFutureMs)

/-- `track_event_ts`. -/
def trackEventTs (current : Option Int) (ts : Int) : Int :=
  match current with
  | none => ts
  | some m => max m ts

/-- The first two lines of `buffer_message`: the offset counts whatever becomes of the row. -/
def Buffers.track (b : Buffers) (partition offset : Int) : Buffers :=
  { b with ranges :=
      b.ranges.insert partition (((b.ranges.lookup partition).getD (offset, offset)).1, offset) }

/-- The last lines of `buffer_message`: the row is kept. -/
def Buffers.push (b : Buffers) (day : String) (ts : Int) (row : Json) : Buffers :=
  { b with
    rowsByDay := b.rowsByDay.insert day ((b.rowsByDay.lookup day).getD [] ++ [row])
    totalRows := b.totalRows + 1
    maxEventTsMs := some (trackEventTs b.maxEventTsMs ts) }

variable (out : Outside) (config : IngestConfig) (route : Route)

/-- `buffer_message`, at the time `now` on the worker's clock. -/
def bufferMessage (now : Int) (b : Buffers) (payload : Option (List UInt8))
    (partition offset : Int) : Buffers :=
  let b := b.track partition offset
  match payload with
  | none => b
  | some bytes =>
    match out.parse bytes with
    | none => b
    | some row =>
      match (row.get? route.tsColumn).bind Json.asInt? with
      | none => b
      | some ts =>
        if ((row.get? route.packingKey).bind Json.asInt?).isNone then b
        else if ¬ eventTimeInBounds ts now config then b
        else
          match out.dayOf ts with
          | none => b
          | some day => b.push day ts row

/-- What `buffer_message` decides about the payload alone: the row it keeps, with its day and
its event time, or nothing. -/
def admitted (now : Int) (payload : Option (List UInt8)) : Option (String × Int × Json) := do
  let bytes ← payload
  let row ← out.parse bytes
  let ts ← (row.get? route.tsColumn).bind Json.asInt?
  let _ ← (row.get? route.packingKey).bind Json.asInt?
  guard (eventTimeInBounds ts now config)
  let day ← out.dayOf ts
  return (day, ts, row)

theorem bufferMessage_eq (now : Int) (b : Buffers) (payload : Option (List UInt8))
    (partition offset : Int) :
    bufferMessage out config route now b payload partition offset =
      match admitted out config route now payload with
      | none => b.track partition offset
      | some (day, ts, row) => (b.track partition offset).push day ts row := by
  unfold bufferMessage admitted
  cases payload with
  | none => rfl
  | some bytes =>
    cases hparse : out.parse bytes with
    | none => simp [hparse]
    | some row =>
      cases hts : (row.get? route.tsColumn).bind Json.asInt? with
      | none => simp [hparse, hts]
      | some ts =>
        cases hkey : (row.get? route.packingKey).bind Json.asInt? with
        | none => simp [hparse, hts, hkey]
        | some key =>
          cases hb : eventTimeInBounds ts now config with
          | false => simp [hparse, hts, hkey, hb]
          | true =>
            cases hday : out.dayOf ts with
            | none => simp [hparse, hts, hkey, hb, hday]
            | some day => simp [hparse, hts, hkey, hb, hday]

/-! ## 4. The identity of a flush -/

/-- `INGEST_TRANSFORMATION_VERSION`. -/
def ingestTransformationVersion : Nat := 1

/-- The ranges of the catalog call, as the identity sees them. -/
def ingestRanges (offsets : List OffsetRange) : List IngestRange :=
  offsets.map fun o => ⟨o.topic, o.partition, o.first, o.last⟩

/-- `ingest_identity`: the offset ranges alone, not the rows and not the generated paths. -/
def ingestIdentity (h : HypertableId) (offsets : List OffsetRange) :
    Except OperationError OperationIdentity :=
  OperationIdentity.ingest out.hash h (ingestRanges offsets) ingestTransformationVersion

end Ukiel.Ingest
