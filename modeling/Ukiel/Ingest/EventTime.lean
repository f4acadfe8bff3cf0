/-
# Event time

`event_time_in_bounds` and the day of a row, in `ukiel-ingest/src/consumer.rs`, against what
`config.rs` says of the two knobs: a row is skipped when it is more than `max_event_future_secs`
ahead of the clock, or older than `max_event_age_days`, where 0 stands for no bound.

The code has no case for 0, and `as i64` makes a large `u64` negative.  It also takes a timestamp
in bounds for one that has a date, and drops the row without a word where that is not so.
`eventTime_iff` has the rows for which all this makes no difference.
-/
import Ukiel.Ingest.Consumer

namespace Ukiel.Ingest

/-! ## 1. The window -/

/-- What the configuration promises. -/
def InWindow (tsMs nowMs : Int) (config : IngestConfig) : Prop :=
  tsMs ≤ nowMs + config.maxEventFutureSecs * 1000 ∧
  (config.maxEventAgeDays ≠ 0 → nowMs - config.maxEventAgeDays * (24 * 3600 * 1000) ≤ tsMs)

/-- `max_age_ms`. -/
def maxAgeMs (config : IngestConfig) : Int :=
  saturate (asI64 config.maxEventAgeDays * (24 * 3600 * 1000))

/-- `max_future_ms`. -/
def maxFutureMs (config : IngestConfig) : Int := saturate (asI64 config.maxEventFutureSecs * 1000)

theorem eventTimeInBounds_iff {tsMs nowMs : Int} {config : IngestConfig} :
    eventTimeInBounds tsMs nowMs config = true ↔
      saturate (nowMs - maxAgeMs config) ≤ tsMs ∧ tsMs ≤ saturate (nowMs + maxFutureMs config) := by
  simp only [eventTimeInBounds, maxAgeMs, maxFutureMs, Bool.and_eq_true, decide_eq_true_eq,
    ge_iff_le]

theorem asI64_of_lt {n : Nat} (h : n < 2 ^ 63) : asI64 n = n := by
  exact Int.bmod_eq_of_le (by omega) (by omega)

theorem asI64_of_ge {n : Nat} (h : 2 ^ 63 ≤ n) (h' : n < 2 ^ 64) : asI64 n < 0 := by
  refine (Int.bmod_neg_iff (by omega) (by omega)).mpr (.inr ?_)
  omega

/-- A span keeps its sign where the cast does. -/
theorem span_nonneg_iff {n : Nat} (h : n < 2 ^ 64) {unit : Int} (hunit : 0 < unit) :
    0 ≤ saturate (asI64 n * unit) ↔ n < 2 ^ 63 := by
  constructor
  · intro hspan
    by_contra hge
    have hneg : asI64 n * unit < 0 := mul_neg_of_neg_of_pos (asI64_of_ge (not_lt.mp hge) h) hunit
    unfold saturate at hspan
    omega
  · intro hlt
    rw [asI64_of_lt hlt]
    have hpos : 0 ≤ (n : Int) * unit := mul_nonneg (by omega) hunit.le
    unfold saturate
    omega

/-- **The code's window**, where both spans keep their sign: never wider than the configured one,
and at most an `i64` of milliseconds wide to either side. -/
theorem bounds_iff {ts now : I64} {config : IngestConfig}
    (hage : config.maxEventAgeDays < 2 ^ 63) (hfuture : config.maxEventFutureSecs < 2 ^ 63) :
    eventTimeInBounds ts now config = true ↔
      InWindow ts now config ∧ (config.maxEventAgeDays = 0 → now.val ≤ ts.val) ∧
        now.val - ts.val ≤ 2 ^ 63 - 1 ∧ ts.val - now.val ≤ 2 ^ 63 - 1 := by
  have hts : -2 ^ 63 ≤ ts.val ∧ ts.val < 2 ^ 63 := ts.property
  have hnow : -2 ^ 63 ≤ now.val ∧ now.val < 2 ^ 63 := now.property
  rw [eventTimeInBounds_iff, InWindow, maxAgeMs, maxFutureMs, asI64_of_lt hage, asI64_of_lt hfuture]
  unfold saturate
  omega

/-! ## 2. The day -/

/-- The dates of the calendar: the range in which it has any, and how it writes the day after so
many others since 1970. -/
structure Calendar where
  minMs : Int
  maxMs : Int
  format : Int → String

namespace Calendar

variable (calendar : Calendar)

/-- The day that has the timestamp in it. -/
def dayContaining (tsMs : Int) : String := calendar.format (tsMs / (24 * 3600 * 1000))

/-- `DateTime::from_timestamp_millis`, as a date. -/
def dayOf (tsMs : Int) : Option String :=
  if calendar.minMs ≤ tsMs ∧ tsMs ≤ calendar.maxMs then some (calendar.dayContaining tsMs)
  else none

end Calendar

/-! ## 3. Admission -/

/-- A row of the window is not cut off: not by an age of 0, not by more milliseconds than an `i64`
holds, not for want of a date. -/
def Unclipped (calendar : Calendar) (ts now : Int) (config : IngestConfig) : Prop :=
  config.maxEventAgeDays < 2 ^ 63 ∧ config.maxEventFutureSecs < 2 ^ 63 ∧
  (InWindow ts now config →
    (config.maxEventAgeDays = 0 → now ≤ ts) ∧ now - ts ≤ 2 ^ 63 - 1 ∧ ts - now ≤ 2 ^ 63 - 1 ∧
      calendar.minMs ≤ ts ∧ ts ≤ calendar.maxMs)

theorem Buffers.push_ne_track (b : Buffers) (partition offset : Int) (day : String) (ts : Int)
    (row : Json) : (b.track partition offset).push day ts row ≠ b.track partition offset := by
  intro h
  have := congrArg Buffers.totalRows h
  exact absurd this (Nat.succ_ne_self _)

section Admission

variable {calendar : Calendar} {parse : List UInt8 → Option Json} {hash : List UInt8 → Digest}
  {config : IngestConfig} {route : Route} {ts now : I64} {bytes : List UInt8} {row : Json}

/-- What becomes of a well-formed row. -/
theorem bufferMessage_of_row (hparse : parse bytes = some row)
    (hts : (row.get? route.tsColumn).bind Json.asInt? = some ts.val)
    (hkey : ((row.get? route.packingKey).bind Json.asInt?).isSome) (b : Buffers)
    (partition offset : Int) :
    bufferMessage ⟨parse, calendar.dayOf, hash⟩ config route now b (some bytes) partition offset =
      if eventTimeInBounds ts now config ∧ calendar.minMs ≤ ts.val ∧ ts.val ≤ calendar.maxMs then
        (b.track partition offset).push (calendar.dayContaining ts) ts row
      else b.track partition offset := by
  have hkey' : ((row.get? route.packingKey).bind Json.asInt?).isNone = false := by
    rw [Option.isNone_eq_false_iff]
    exact hkey
  simp only [bufferMessage, hparse, hts, hkey', Calendar.dayOf]
  cases hbounds : eventTimeInBounds ts now config with
  | false => simp
  | true =>
    by_cases hrange : calendar.minMs ≤ ts.val ∧ ts.val ≤ calendar.maxMs
    · simp [hrange]
    · simp [hrange]

end Admission

/-- **Event-time admission** is as configured, with spans that keep their sign and a day for every
row admitted, exactly where no row of the window is cut off. -/
theorem eventTime_iff (calendar : Calendar) (parse : List UInt8 → Option Json)
    (hash : List UInt8 → Digest) (route : Route) (age future : UInt64) (ts now : I64) (b : Buffers)
    (bytes : List UInt8) (partition offset : Int) (row : Json) (hparse : parse bytes = some row)
    (hts : (row.get? route.tsColumn).bind Json.asInt? = some ts.val)
    (hkey : ((row.get? route.packingKey).bind Json.asInt?).isSome) :
    ((0 ≤ maxAgeMs ⟨age.toNat, future.toNat⟩ ∧ 0 ≤ maxFutureMs ⟨age.toNat, future.toNat⟩) ∧
      (eventTimeInBounds ts now ⟨age.toNat, future.toNat⟩ = true ↔
        InWindow ts now ⟨age.toNat, future.toNat⟩) ∧
      (eventTimeInBounds ts now ⟨age.toNat, future.toNat⟩ = true →
        bufferMessage ⟨parse, calendar.dayOf, hash⟩ ⟨age.toNat, future.toNat⟩ route now b
            (some bytes) partition offset =
          (b.track partition offset).push (calendar.dayContaining ts) ts row)) ↔
    Unclipped calendar ts now ⟨age.toNat, future.toNat⟩ := by
  have hage := span_nonneg_iff age.toNat_lt (show (0 : Int) < 24 * 3600 * 1000 by decide)
  have hfuture := span_nonneg_iff future.toNat_lt (show (0 : Int) < 1000 by decide)
  rw [bufferMessage_of_row hparse hts hkey, maxAgeMs, maxFutureMs, hage, hfuture, Unclipped,
    and_assoc]
  refine and_congr_right fun hA => and_congr_right fun hF => ?_
  have hbounds := @bounds_iff ts now ⟨age.toNat, future.toNat⟩ hA hF
  cases hpass : eventTimeInBounds ts now ⟨age.toNat, future.toNat⟩ with
  | false =>
    rw [hpass] at hbounds
    constructor
    · rintro ⟨hiff, -⟩ hwindow
      exact absurd (hiff.mpr hwindow) Bool.false_ne_true
    · intro h
      refine ⟨iff_of_false Bool.false_ne_true fun hwindow => ?_, fun hp => nomatch hp⟩
      obtain ⟨hnow, hback, hahead, -⟩ := h hwindow
      exact absurd (hbounds.mpr ⟨hwindow, hnow, hback, hahead⟩) Bool.false_ne_true
  | true =>
    obtain ⟨hwindow, hnow, hback, hahead⟩ := hbounds.mp hpass
    constructor
    · rintro ⟨-, hday⟩ -
      by_cases hrange : calendar.minMs ≤ ts.val ∧ ts.val ≤ calendar.maxMs
      · exact ⟨hnow, hback, hahead, hrange⟩
      · have heq := hday rfl
        rw [if_neg fun h => hrange h.2] at heq
        exact absurd heq.symm (Buffers.push_ne_track b partition offset _ _ _)
    · intro h
      refine ⟨iff_of_true rfl hwindow, fun _ => if_pos ⟨rfl, ?_⟩⟩
      exact (h hwindow).2.2.2

/-- The range of `chrono`'s dates, and the number of the day for its name but for the first. -/
def daysSinceEpoch : Calendar where
  minMs := -8334601228800000
  maxMs := 8210266876799999
  format day := if day = 0 then "1970-01-01" else toString day

/-- A record with a key and a time, and the parser on it. -/
def eventRecord : List UInt8 := utf8 "\x7b\"k\":7,\"ts\":1000\x7d"

def eventRow : Json := .obj [("k", .num (.int 7)), ("ts", .num (.int 1000))]

def parseEvent (bytes : List UInt8) : Option Json :=
  if bytes = eventRecord then some eventRow else none

def eventRoute : Route := ⟨3, "k", "t", "ts", by show (utf8 "t").length < 256 ^ 8; decide +kernel⟩

/-- One second late, within a week. -/
theorem eventTime_week_old :
    (eventTimeInBounds 1000 2000 ⟨7, 3600⟩ = true ↔ InWindow 1000 2000 ⟨7, 3600⟩) ∧
      bufferMessage ⟨parseEvent, daysSinceEpoch.dayOf, fun _ => []⟩ ⟨7, 3600⟩ eventRoute 2000 {}
          (some eventRecord) 0 0 =
        (Buffers.track {} 0 0).push "1970-01-01" 1000 eventRow := by
  have hclip : Unclipped daysSinceEpoch 1000 2000 ⟨7, 3600⟩ :=
    ⟨by decide, by decide, fun _ => ⟨by decide, by decide, by decide, by decide, by decide⟩⟩
  have h := (eventTime_iff daysSinceEpoch parseEvent (fun _ => []) eventRoute 7 3600
    ⟨1000, by decide⟩ ⟨2000, by decide⟩ {} eventRecord 0 0 eventRow (by decide +kernel)
    (by decide +kernel) (by decide +kernel)).mpr hclip
  exact ⟨h.2.1, h.2.2 (by decide)⟩

/-- A second-old row with the age bound disabled: in the window, and skipped. -/
theorem unbounded_past_skipped :
    InWindow 1000 2000 ⟨0, 3600⟩ ∧ eventTimeInBounds 1000 2000 ⟨0, 3600⟩ = false :=
  ⟨⟨by decide, fun h => absurd rfl h⟩, by decide⟩

end Ukiel.Ingest
