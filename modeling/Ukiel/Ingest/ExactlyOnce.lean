/-
# Exactly-once ingest

The invariant of `Ingest/Invariant.lean` along whole runs from a deployment that has ingested
nothing yet, and what it says about rows.  The one hypothesis besides the start is that the hash
does not collide on the byte strings this run hashed: with equal fingerprints the catalog takes
two attempts for one.
-/
import Ukiel.Ingest.Invariant

namespace Ukiel.Ingest
open Ukiel.Catalog

variable {out : Outside} {log : Log} {content : String → Multiset Json} {s s' : World}

/-! ## 1. Runs -/

/-- A deployment that has ingested nothing yet. -/
structure Start (s : World) : Prop where
  db : Initial s.db
  workers : s.workers = ∅
  attempts : s.attempts = ∅
  offsets : ∀ k, s.db.tables.ingestOffsets k = none
  keys : ∀ r ∈ s.db.tables.commits, ∀ key, r.idempotencyKey = some key → ¬ IngestKey key

theorem start_empty : Start {} := ⟨initial_empty, rfl, rfl, fun _ => rfl, by simp⟩

theorem Start.ok (h : Start s) : Ok out log content s where
  db := ⟨s.db, h.db, Lts.Reaches.refl _⟩
  attempt t a ha := by rw [h.attempts] at ha; cases ha
  opened t τ hτ := by rw [h.db.txns] at hτ; cases hτ
  durable x hx := by rw [h.db.history] at hx; cases hx
  keyed r hr key hkey hing := absurd hing (h.keys r hr key hkey)
  settled t a res ha := by rw [h.attempts] at ha; cases ha
  past t τ a hτ := by rw [h.db.txns] at hτ; cases hτ
  worker n W hn := by rw [h.workers] at hn; cases hn
  ledger k := by
    have hnext : nextOffset s.db.tables k = 0 := by
      rw [nextOffset, h.offsets]
      rfl
    refine ⟨?_, ?_, ?_, ?_, ?_⟩
    · intro x hx
      rw [h.db.history] at hx
      cases hx
    · rw [h.db.history]
      exact List.Pairwise.nil
    · rw [h.offsets, h.db.history]
      rfl
    · rw [hnext, h.db.history]
      exact Stretch.nil 0
    · rw [hnext]
  rows k := by
    unfold addedRows acceptedRows
    rw [h.db.history]
    rfl

/-- Attempts carry numbers that have been handed out. -/
def Numbered (s : World) : Prop := ∀ t a, s.attempts.lookup t = some a → t < s.db.nextTxn

/-- The attempts of one move: those there were, and at most one under the next number. -/
theorem move_attempts {m : Move} (hs : move out log content s m = some s') :
    s.db.nextTxn ≤ s'.db.nextTxn ∧ (s'.attempts = s.attempts ∨
      ∃ a, s'.attempts = s.attempts.insert s.db.nextTxn a ∧ s.db.nextTxn < s'.db.nextTxn) := by
  cases m with
  | flush n items offsets =>
    simp only [move] at hs
    repeat' split at hs
    all_goals try cases hs
    · exact ⟨Nat.le_refl _, Or.inl rfl⟩
    · obtain ⟨db, hdb, rfl⟩ := Option.map_eq_some_iff.mp hs
      have hlt : s.db.nextTxn < db.nextTxn := by
        simp only [step] at hdb
        split at hdb <;> cases hdb <;> exact Nat.lt_succ_self _
      exact ⟨Nat.le_of_lt hlt, Or.inr ⟨_, rfl, hlt⟩⟩
  | catalog e =>
    simp only [move] at hs
    split at hs
    · obtain ⟨db, hdb, rfl⟩ := Option.map_eq_some_iff.mp hs
      exact ⟨step_nextTxn hdb, Or.inl rfl⟩
    · cases hs
  | connect _ _ _ _ | deliver _ _ _ _ | hear _ | crash _ =>
    simp only [move] at hs
    repeat' split at hs
    all_goals cases hs
    all_goals exact ⟨Nat.le_refl _, Or.inl rfl⟩

theorem Numbered.move {m : Move} (h : Numbered s) (hs : Ingest.move out log content s m = some s') :
    Numbered s' := by
  intro t a ha
  obtain ⟨hle, hsame | ⟨a', hnew, hlt⟩⟩ := move_attempts hs
  · rw [hsame] at ha
    exact Nat.lt_of_lt_of_le (h t a ha) hle
  · by_cases ht : t = s.db.nextTxn
    · exact ht ▸ hlt
    · rw [hnew, AList.lookup_insert_ne ht] at ha
      exact Nat.lt_of_lt_of_le (h t a ha) hle

/-- What was hashed before was hashed. -/
theorem CollisionFree.before {m : Move} (hfree : CollisionFree out s') (h : Numbered s)
    (hs : move out log content s m = some s') : CollisionFree out s := by
  have hkeep : ∀ t a, s.attempts.lookup t = some a → s'.attempts.lookup t = some a := by
    intro t a ha
    obtain ⟨-, hsame | ⟨a', hnew, -⟩⟩ := move_attempts hs
    · rw [hsame]
      exact ha
    · rw [hnew, AList.lookup_insert_ne (Nat.ne_of_lt (h t a ha))]
      exact ha
  intro t a t' a' ha ha'
  exact hfree t a t' a' (hkeep t a ha) (hkeep t' a' ha')

theorem ok_run {s₀ : World} {ms : List Move} (hstart : Start s₀)
    (hrun : Lts.run (move out log content) s₀ ms = some s) (hfree : CollisionFree out s) :
    Ok out log content s := by
  have hall := Lts.run_snoc_induction
    (P := fun _ s => Numbered s ∧ (CollisionFree out s → Ok out log content s)) ?_ ?_ hrun
  · exact hall.2 hfree
  · refine ⟨?_, fun _ => hstart.ok⟩
    intro t a ha
    rw [hstart.attempts] at ha
    cases ha
  · rintro - a m b - ⟨hnum, hok⟩ hs
    refine ⟨hnum.move hs, fun hfree => ?_⟩
    have hbefore := hfree.before hnum hs
    exact ok_move hs hbefore (hok hbefore)

/-! ## 2. The result -/

/-- **Exactly-once ingest.**  After any run of any number of workers, for every partition of every
topic in every hypertable:

* the committed ranges are disjoint and increasing, in commit order and by commit id, the stored
  offset is behind the last of them, and the deliveries that were committed are the records
  before the stored offset, each once (`Ledger`);
* a durable commit with offsets is a worker's attempt, and its deliveries are the log's records;
* the rows added by those commits are one for each delivery its attempt accepted. -/
theorem exactly_once {s₀ : World} {ms : List Move} (hstart : Start s₀)
    (hrun : Lts.run (move out log content) s₀ ms = some s) (hfree : CollisionFree out s) :
    (∀ k, Ledger log s.db.history s.attempts s.db.tables k) ∧
    (∀ x ∈ s.db.history, x.call.offsets ≠ [] → ∃ a, s.attempts.lookup x.txn = some a ∧
      x.call = a.call ∧ ∀ d ∈ a.seen, log a.route.topic d.partition d.offset = some d.payload) ∧
    ∀ h, addedRows content s h = acceptedRows out s h := by
  have hok := ok_run hstart hrun hfree
  refine ⟨hok.ledger, ?_, hok.rows⟩
  intro x hx hne
  rcases hok.durable x hx with ⟨a, ha, hcall⟩ | ⟨-, hforeign⟩
  · exact ⟨a, ha, hcall, fun d hd => ((hok.attempt x.txn a ha).1.reads.record d hd).1⟩
  · exact absurd hforeign.1 hne

/-! ## 3. Two workers, one lost acknowledgement -/

/-- The payload of the run below. -/
def sample : List UInt8 := utf8 "\x7b\"tenant_id\":7,\"ts\":1000\x7d"

def sampleRow : Json := .obj [("tenant_id", .num (.int 7)), ("ts", .num (.int 1000))]

/-- The digest of the only identity the run below hashes, and the parser and the calendar on its
only row. -/
def sampleOutside : Outside where
  parse bytes := if bytes = sample then some sampleRow else none
  dayOf ts := if ts = 1000 then some "1970-01-01" else none
  hash _ := [0x72, 0xd2, 0x77, 0x8d, 0xe5, 0x2e, 0x88, 0xb2, 0x19, 0x11, 0x7e, 0x1b, 0x17, 0xc4,
    0xaf, 0xcd, 0xaa, 0xf6, 0x40, 0xd5, 0x91, 0xd7, 0x00, 0xe0, 0x05, 0x00, 0xb4, 0xf7, 0x53,
    0xca, 0x0d, 0x80]

/-- One row at offset 0, one tombstone at offset 9, nothing in between. -/
def sampleLog : Log := fun topic p o =>
  if topic = "events" ∧ p = 0 then
    if o = 0 then some (some sample) else if o = 9 then some none else none
  else none

def sampleContent (path : String) : Multiset Json :=
  if path = "ht/3/L0/a.parquet" ∨ path = "ht/3/L0/b.parquet" then {sampleRow} else 0

theorem events_mem : "events" ∈ Str64 := by
  show (utf8 "events").length < 256 ^ 8
  decide +kernel

def sampleRoute : Route := ⟨3, "tenant_id", "events", "ts", events_mem⟩

def samplePart (path : String) : String × PartMeta :=
  ("1970-01-01", ⟨path, .obj [("day", .str "1970-01-01")], 7, 7, 1, 1, 0, none⟩)

/-- Both workers read the same records. -/
def bothRead : List Move :=
  [.connect 1 ⟨7, 3600⟩ sampleRoute [0], .connect 2 ⟨7, 3600⟩ sampleRoute [0],
    .deliver 1 0 0 2000, .deliver 1 0 9 2000, .deliver 2 0 0 2000, .deliver 2 0 9 2000]

/-- Both flush; the first commit lands but its acknowledgement is lost, the second finds it. -/
def bothFlush : List Move :=
  [.flush 1 [samplePart "ht/3/L0/a.parquet"] [⟨"events", 0, 0, 9⟩],
    .flush 2 [samplePart "ht/3/L0/b.parquet"] [⟨"events", 0, 0, 9⟩]] ++
  List.replicate 6 (.catalog (.stmt 0)) ++
  [.catalog (.sendCommit 0), .catalog (.commit 0), .catalog (.lost 0), .hear 1] ++
  List.replicate 3 (.catalog (.stmt 1)) ++ [.hear 2]

/-- Attempts with the same ranges have hashed the same bytes. -/
theorem collisionFree_of_same {h : HypertableId} {offsets : List OffsetRange}
    (hsame : ∀ x ∈ s.attempts.entries, x.2.route.hypertable = h ∧ x.2.offsets = offsets) :
    CollisionFree out s := by
  have hbytes : ∀ t a, s.attempts.lookup t = some a →
      a.bytes = canonicalBytes "ingest" 1 h
        (ingestBody ((ingestRanges offsets).insertionSort IngestRange.le)
          ingestTransformationVersion) := by
    intro t a ha
    obtain ⟨hht, hoff⟩ := hsame ⟨t, a⟩ (AList.mem_lookup_iff.mp ha)
    unfold Attempt.bytes
    rw [hht, hoff]
  intro t a t' a' ha ha' _
  rw [hbytes t a ha, hbytes t' a' ha']

theorem exactly_once_replayed :
    ∃ s, Lts.run (move sampleOutside sampleLog sampleContent) {} (bothRead ++ bothFlush) = some s ∧
      s.db.tables.ingestOffsets ⟨3, "events", 0⟩ = some 10 ∧
      consumedOffsets s.db.history s.attempts ⟨3, "events", 0⟩ = [0, 9] ∧
      Ledger sampleLog s.db.history s.attempts s.db.tables ⟨3, "events", 0⟩ ∧
      addedRows sampleContent s 3 = {sampleRow} := by
  have hobs : ∃ s ∈ Lts.run (move sampleOutside sampleLog sampleContent) {}
      (bothRead ++ bothFlush),
      s.db.tables.ingestOffsets ⟨3, "events", 0⟩ = some 10 ∧
      consumedOffsets s.db.history s.attempts ⟨3, "events", 0⟩ = [0, 9] ∧
      acceptedRows sampleOutside s 3 = {sampleRow} ∧
      ∀ x ∈ s.attempts.entries, x.2.route.hypertable = 3 ∧
        x.2.offsets = [⟨"events", 0, 0, 9⟩] := by decide +kernel
  obtain ⟨s, hrun, hstored, hoffsets, hrows, hsame⟩ := hobs
  obtain ⟨hledger, -, hadded⟩ := exactly_once start_empty hrun (collisionFree_of_same hsame)
  exact ⟨s, hrun, hstored, hoffsets, hledger _, (hadded 3).trans hrows⟩

end Ukiel.Ingest
