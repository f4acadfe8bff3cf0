/-
# Ingest workers over one catalog

Any number of route tasks (`RouteIngest`), on any number of hosts, consuming Kafka topics into
the catalog of `Catalog/Machine.lean`.  A worker positions itself from the stored offsets
(`connect`), buffers what Kafka delivers, flushes its buffers as one commit (`flush`), and waits
for the answer (`hear`): it goes on after any `Ok` and is torn down by any error.  It may vanish
at any moment (`crash`), which leaves its open transaction to the server.

Kafka is the parameter `log`: which records a partition holds, at which offsets (there may be
gaps).  It delivers the next record at or after the position of the reader.  The object store is
the parameter `content`: of which buffered rows the object at a path is the encoding.

`base` and `seen` (of a worker) and `attempts` (of the world) are no state of the program: they
record where the worker stood after its last successful flush, what it has been delivered
since, and what each commit attempt was made of.
-/
import Mathlib.Data.Int.Range
import Ukiel.Catalog.Offsets
import Ukiel.Compactor.Rows
import Ukiel.Ingest.Consumer

namespace Ukiel.Ingest
open Ukiel.Catalog
open Ukiel.Compactor (rowsOf)

/-! ## 1. State -/

/-- The records of each topic's partitions, by offset. -/
abbrev Log := String → Int → Int → Option (Option (List UInt8))

/-- One message as a worker received it. -/
structure Delivery where
  partition : Int
  offset : Int
  payload : Option (List UInt8)
  /-- The worker's clock, in milliseconds. -/
  now : Int
deriving DecidableEq

/-- A `RouteIngest` task. -/
structure Worker where
  config : IngestConfig
  route : Route
  /-- The consumer's position on each assigned partition. -/
  pos : Int → Option Int
  buffers : Buffers := {}
  /-- The commit it is waiting for. -/
  inFlight : Option Nat := none
  base : Int → Int
  seen : List Delivery := []

/-- What a commit attempt is made of. -/
structure Attempt where
  config : IngestConfig
  route : Route
  base : Int → Int
  seen : List Delivery
  parts : List PartMeta
  offsets : List OffsetRange
  identity : OperationIdentity

/-- `AddCommit::Ingest`: parts and offsets in one commit. -/
def Attempt.call (a : Attempt) : Call :=
  commitWithOffsets a.route.hypertable (.add a.parts) a.offsets a.identity

structure World where
  db : Db := {}
  workers : AList (fun _ : Nat => Worker) := ∅
  /-- By transaction number. -/
  attempts : AList (fun _ : Nat => Attempt) := ∅

/-! ## 2. Moves -/

inductive Move where
  /-- A worker starts: it reads its offsets, assigns and seeks. -/
  | connect (n : Nat) (config : IngestConfig) (route : Route) (existing : List Int)
  /-- Kafka delivers a message. -/
  | deliver (n : Nat) (partition offset now : Int)
  /-- The buffers are encoded, uploaded and sent to the catalog. -/
  | flush (n : Nat) (items : List (String × PartMeta)) (offsets : List OffsetRange)
  /-- The worker hears how its commit went. -/
  | hear (n : Nat)
  | crash (n : Nat)
  /-- Anything else that happens in the catalog. -/
  | catalog (e : Event)

/-- The key belongs to the ingest domain. -/
def IngestKey (key : String) : Prop := "ukiel/ingest/".toList <+: key.toList

instance (key : String) : Decidable (IngestKey key) := by unfold IngestKey; infer_instance

/-- A call of some other client: offsets are committed by the flusher alone, and every domain
has keys of its own. -/
def Foreign (c : Call) : Prop := c.offsets = [] ∧ ∀ i ∈ c.identity, ¬ IngestKey i.key

instance (c : Call) : Decidable (Foreign c) := by unfold Foreign; infer_instance

/-- An event of the catalog that no ingest worker causes. -/
def Elsewhere : Event → Prop
  | .begin c => Foreign c
  | _ => True

instance (e : Event) : Decidable (Elsewhere e) := by
  rcases e <;> unfold Elsewhere <;> infer_instance

/-- The offset rows of a route. -/
def storedFor (T : Tables) (route : Route) (p : Int) : Option Int :=
  T.ingestOffsets ⟨route.hypertable, route.topic, p⟩

/-- The position `assign` gives a partition. -/
def seek (starts : List PartitionStart) (p : Int) : Option Int :=
  (starts.find? fun ps => ps.partition = p).map PartitionStart.offset

/-- The ranges of the buffers, as the catalog call lists them (in any order). -/
def Buffers.offsetRanges (b : Buffers) (topic : String) : List OffsetRange :=
  b.ranges.entries.map fun e => ⟨topic, e.1, e.2.1, e.2.2⟩

/-- One L0 part per buffered day, holding that day's rows. -/
def Encoded (content : String → Multiset Json) (b : Buffers) (items : List (String × PartMeta)) :
    Prop :=
  (items.map Prod.fst).Perm b.rowsByDay.keys ∧
    ∀ item ∈ items, content item.2.path = ↑((b.rowsByDay.lookup item.1).getD []) ∧
      item.2.partitionValues = .obj [("day", .str item.1)] ∧ item.2.level = 0

instance (content : String → Multiset Json) (b : Buffers) (items : List (String × PartMeta)) :
    Decidable (Encoded content b items) := by unfold Encoded; infer_instance

section Move

variable (out : Outside) (log : Log) (content : String → Multiset Json)

/-- Kafka's next record for a reader at `q` is the one at `o`.  (The log's end is an offset
too, so no record sits at the largest `i64`.) -/
def Delivers (topic : String) (p q o : Int) : Prop :=
  q ≤ o ∧ o < 2 ^ 63 - 1 ∧ ∀ x, q ≤ x → x < o → log topic p x = none

instance (topic : String) (p q o : Int) : Decidable (Delivers log topic p q o) := by
  unfold Delivers; infer_instance

/-- **One move.**  `none` when it cannot happen. -/
def move (s : World) : Move → Option World
  | .connect n config route existing =>
    -- Partition ids are `i32`s.
    if s.workers.lookup n = none ∧ ∀ p ∈ existing, -2 ^ 31 ≤ p ∧ p < 2 ^ 31 then
      let stored := storedFor s.db.tables route
      let W : Worker :=
        { config := config
          route := route
          pos := seek (desiredAssignment existing .all stored)
          base := fun p => (stored p).getD 0 }
      some { s with workers := s.workers.insert n W }
    else none
  | .deliver n p o now =>
    match s.workers.lookup n with
    | none => none
    | some W =>
      match W.pos p, log W.route.topic p o with
      | some q, some payload =>
        if W.inFlight = none ∧ Delivers log W.route.topic p q o then
          some { s with workers := s.workers.insert n { W with
            pos := Function.update W.pos p (some (o + 1))
            buffers := bufferMessage out W.config W.route now W.buffers payload p o
            seen := W.seen ++ [⟨p, o, payload, now⟩] } }
        else none
      | _, _ => none
  | .flush n items offsets =>
    match s.workers.lookup n with
    | none => none
    | some W =>
      if W.inFlight = none ∧ W.buffers.ranges.entries ≠ [] ∧ Encoded content W.buffers items ∧
          offsets.Perm (W.buffers.offsetRanges W.route.topic) then
        match ingestIdentity out W.route.hypertable offsets with
        | .error _ => some { s with workers := s.workers.erase n }
        | .ok identity =>
          let a : Attempt := ⟨W.config, W.route, W.base, W.seen, items.map Prod.snd, offsets,
            identity⟩
          (step s.db (.begin a.call)).map fun db =>
            { db := db
              attempts := s.attempts.insert s.db.nextTxn a
              workers := s.workers.insert n { W with
                buffers := {}
                inFlight := some s.db.nextTxn } }
      else none
  | .hear n =>
    match s.workers.lookup n with
    | none => none
    | some W =>
      match W.inFlight.bind s.db.replies with
      | none => none
      | some (.error _) => some { s with workers := s.workers.erase n }
      | some (.ok _) =>
        some { s with workers := s.workers.insert n { W with
          inFlight := none
          base := fun p => (W.pos p).getD (W.base p)
          seen := [] } }
  | .crash n => some { s with workers := s.workers.erase n }
  | .catalog e =>
    if Elsewhere e then (step s.db e).map fun db => { s with db := db } else none

end Move

end Ukiel.Ingest
