/-
# What a worker has read and what it holds

The facts about one worker and one commit attempt, with no catalog in them: §1 what has been
read since the last success is a stretch of the log on every partition (`Reads`); §2 the buffers
hold exactly that (`Holds`); §3 a flush turns it into an attempt whose ranges are the ends of
those stretches and whose parts hold the admitted rows (`Attempt.Ok`); §4 what the identity of
an attempt determines.
-/
import Ukiel.Lib.Lists
import Ukiel.Core.OffsetRanges
import Ukiel.Ingest.World

namespace Ukiel.Ingest
open Ukiel.Catalog
open Ukiel.Compactor (rowsOf)

/-! ## 1. Reading -/

/-- The log has a record at the offset. -/
def Present (log : Log) (topic : String) (p o : Int) : Prop := log topic p o ≠ none

/-- The offsets delivered on a partition, oldest first. -/
def read (l : List Delivery) (p : Int) : List Int :=
  (l.filter fun d => d.partition = p).map Delivery.offset

/-- Where a reader stands that started at `base` and was delivered `seen`. -/
def stop (base : Int → Int) (seen : List Delivery) (p : Int) : Int :=
  match ends (read seen p) with
  | none => base p
  | some (_, last) => last + 1

/-- The values of an `i32`. -/
def I32 : Set Int := {v | -2 ^ 31 ≤ v ∧ v < 2 ^ 31}

theorem I32_subset : I32 ⊆ I64 := by
  rintro v ⟨hlo, hhi⟩
  constructor <;> omega

variable {log : Log} {topic : String} {base : Int → Int} {seen : List Delivery}

/-- **What was read is a stretch of the log** on every partition. -/
structure Reads (log : Log) (topic : String) (base : Int → Int) (seen : List Delivery) : Prop where
  base_nonneg : ∀ p, 0 ≤ base p
  base_le : ∀ p, base p ≤ stop base seen p
  stretch : ∀ p, Stretch (Present log topic p) (base p) (stop base seen p) (read seen p)
  record : ∀ d ∈ seen, log topic d.partition d.offset = some d.payload ∧ d.partition ∈ I32 ∧
    d.offset < 2 ^ 63 - 1

theorem read_concat (d : Delivery) (p : Int) :
    read (seen ++ [d]) p = if d.partition = p then read seen p ++ [d.offset] else read seen p := by
  unfold read
  by_cases hp : d.partition = p
  · simp [List.filter_append, hp]
  · simp [List.filter_append, hp]

theorem stop_nil (base : Int → Int) (p : Int) : stop base [] p = base p := rfl

theorem stop_concat (d : Delivery) (p : Int) :
    stop base (seen ++ [d]) p = if d.partition = p then d.offset + 1 else stop base seen p := by
  unfold stop
  rw [read_concat]
  by_cases hp : d.partition = p
  · simp [hp, ends_concat]
  · simp [hp]

theorem Reads.nil (h : ∀ p, 0 ≤ base p) : Reads log topic base [] where
  base_nonneg := h
  base_le _ := le_refl _
  stretch p := Stretch.nil (base p)
  record d hd := by cases hd

/-- One more delivery. -/
theorem Reads.concat {p o now : Int} {payload : Option (List UInt8)} (h : Reads log topic base seen)
    (hp : p ∈ I32) (hd : Delivers log topic p (stop base seen p) o)
    (hlog : log topic p o = some payload) :
    Reads log topic base (seen ++ [⟨p, o, payload, now⟩]) := by
  obtain ⟨hle, hmax, hgap⟩ := hd
  have hbase := h.base_le p
  refine ⟨h.base_nonneg, ?_, ?_, ?_⟩
  · intro p'
    rw [stop_concat]
    split
    · rename_i he
      have he' : p = p' := he
      subst he'
      show base p ≤ o + 1
      omega
    · exact h.base_le p'
  · intro p'
    rw [stop_concat, read_concat]
    split
    · rename_i he
      have he' : p = p' := he
      subst he'
      refine (h.stretch p).snoc hbase hle (Int.lt_succ o) ?_ ?_
      · rw [Present, hlog]
        exact Option.some_ne_none _
      · intro x hx hqx hxo
        by_contra hne
        have hle' : x ≤ o := Int.lt_add_one_iff.mp hxo
        exact hx (hgap x hqx (lt_of_le_of_ne hle' hne))
    · exact h.stretch p'
  · intro d hd
    rcases List.mem_append.mp hd with hold | hnew
    · exact h.record d hold
    · rw [List.mem_singleton.mp hnew]
      exact ⟨hlog, hp, hmax⟩

/-- The ends of what was read on a partition. -/
theorem Reads.ends_spec {p first last : Int} (h : Reads log topic base seen)
    (he : ends (read seen p) = some (first, last)) :
    first ≤ last ∧ base p ≤ first ∧ Present log topic p last ∧ stop base seen p = last + 1 ∧
      p ∈ I32 ∧ first ∈ I64 ∧ last ∈ I64 := by
  have hstretch := h.stretch p
  obtain ⟨hfirst, hlast⟩ := mem_of_ends he
  have hbounds : ∀ o ∈ read seen p, p ∈ I32 ∧ o < 2 ^ 63 - 1 := by
    intro o ho
    obtain ⟨d, hd, rfl⟩ := List.mem_map.mp ho
    obtain ⟨hmem, hpart⟩ := List.mem_filter.mp hd
    obtain ⟨-, hp, hmax⟩ := h.record d hmem
    have hpart' : d.partition = p := of_decide_eq_true hpart
    exact ⟨hpart' ▸ hp, hmax⟩
  have hfl : first ≤ last := (between_ends hstretch.sorted he hlast).1
  obtain ⟨-, hbf, -⟩ := (hstretch.mem first).mp hfirst
  obtain ⟨hpres, hbl, -⟩ := (hstretch.mem last).mp hlast
  have h0 := h.base_nonneg p
  have hf := (hbounds first hfirst).2
  have hl := (hbounds last hlast).2
  refine ⟨hfl, hbf, hpres, ?_, (hbounds last hlast).1, ⟨?_, ?_⟩, ⟨?_, ?_⟩⟩
  · simp only [stop, he]
  all_goals omega

/-! ## 2. Buffering -/

section Buffering

variable (out : Outside) (config : IngestConfig) (route : Route)

/-- The row the worker kept of a delivery, if it kept one. -/
def keptRow (d : Delivery) : Option Json :=
  (admitted out config route d.now d.payload).map fun kept => kept.2.2

/-- **The buffers hold what was read**: the ends on every partition, and the admitted rows. -/
structure Holds (b : Buffers) (seen : List Delivery) : Prop where
  ranges : ∀ p, b.ranges.lookup p = ends (read seen p)
  rows : (b.rowsByDay.entries.map fun e => (e.2 : Multiset Json)).sum =
    ↑(seen.filterMap (keptRow out config route))

theorem Holds.empty : Holds out config route {} [] where
  ranges _ := rfl
  rows := rfl

variable {out config route}

theorem track_ranges (b : Buffers) (p o p' : Int) :
    (b.track p o).ranges.lookup p' =
      if p = p' then some (((b.ranges.lookup p).getD (o, o)).1, o) else b.ranges.lookup p' := by
  unfold Buffers.track
  by_cases hp : p = p'
  · subst hp
    simp
  · rw [if_neg hp]
    exact AList.lookup_insert_ne (Ne.symm hp)

theorem Holds.message {b : Buffers} (h : Holds out config route b seen) (d : Delivery) :
    Holds out config route
      (bufferMessage out config route d.now b d.payload d.partition d.offset) (seen ++ [d]) := by
  rw [bufferMessage_eq]
  have hranges : ∀ p, (b.track d.partition d.offset).ranges.lookup p =
      ends (read (seen ++ [d]) p) := by
    intro p
    rw [track_ranges, read_concat]
    split
    · rename_i hp
      subst hp
      rw [h.ranges, ends_concat]
    · exact h.ranges p
  cases hadm : admitted out config route d.now d.payload with
  | none =>
    refine ⟨hranges, ?_⟩
    have hnone : keptRow out config route d = none := by simp [keptRow, hadm]
    rw [List.filterMap_append, List.filterMap_cons_none hnone, List.filterMap_nil,
      List.append_nil]
    exact h.rows
  | some kept =>
    obtain ⟨day, ts, row⟩ := kept
    refine ⟨hranges, ?_⟩
    have hsome : keptRow out config route d = some row := by simp [keptRow, hadm]
    rw [List.filterMap_append, List.filterMap_cons_some hsome, List.filterMap_nil,
      ← Multiset.coe_add, ← h.rows]
    have hsum := AList.sum_insert (fun rows : List Json => (rows : Multiset Json)) b.rowsByDay day
      ((b.rowsByDay.lookup day).getD [] ++ [row])
    have hpush : ((b.track d.partition d.offset).push day ts row).rowsByDay =
        b.rowsByDay.insert day ((b.rowsByDay.lookup day).getD [] ++ [row]) := rfl
    rw [hpush]
    cases hl : b.rowsByDay.lookup day with
    | none =>
      rw [hl] at hsum
      simpa [add_comm] using hsum
    | some rows =>
      rw [hl] at hsum
      -- Both sides carry the day's old rows; cancel them.
      have hcancel : ((b.rowsByDay.insert day (rows ++ [row])).entries.map
          fun e => (e.2 : Multiset Json)).sum + (rows : Multiset Json) =
          ((b.rowsByDay.entries.map fun e => (e.2 : Multiset Json)).sum + ↑[row]) +
            (rows : Multiset Json) := by
        simp only [Option.getD_some, Option.elim_some, ← Multiset.coe_add] at hsum ⊢
        rw [hsum]
        abel
      exact add_right_cancel hcancel

end Buffering

/-! ## 3. Flushing -/

/-- The rows the attempt's worker kept. -/
def Attempt.kept (out : Outside) (a : Attempt) : List Json :=
  a.seen.filterMap (keptRow out a.config a.route)

/-- **A commit attempt**: its ranges are the ends of what was read, one a partition, and its
parts hold the rows that were kept. -/
structure Attempt.Ok (out : Outside) (log : Log) (content : String → Multiset Json) (a : Attempt) :
    Prop where
  reads : Reads log a.route.topic a.base a.seen
  range : ∀ r, r ∈ a.offsets ↔ r.topic = a.route.topic ∧
    ends (read a.seen r.partition) = some (r.first, r.last)
  once : (a.offsets.map OffsetRange.partition).Nodup
  nonempty : a.offsets ≠ []
  rows : rowsOf content a.parts = ↑(a.kept out)
  identity : ingestIdentity out a.route.hypertable a.offsets = .ok a.identity

variable {out : Outside} {config : IngestConfig} {route : Route} {content : String → Multiset Json}

theorem mem_offsetRanges {b : Buffers} {r : OffsetRange} :
    r ∈ b.offsetRanges topic ↔
      r.topic = topic ∧ b.ranges.lookup r.partition = some (r.first, r.last) := by
  unfold Buffers.offsetRanges
  rw [List.mem_map]
  constructor
  · rintro ⟨e, he, rfl⟩
    exact ⟨rfl, AList.mem_lookup_iff.mpr he⟩
  · rintro ⟨ht, hl⟩
    obtain ⟨t, p, f, l⟩ := r
    have ht' : t = topic := ht
    subst ht'
    exact ⟨⟨p, f, l⟩, AList.mem_lookup_iff.mp hl, rfl⟩

/-- The parts of a flush hold the buffered rows. -/
theorem Encoded.rows {b : Buffers} {items : List (String × PartMeta)}
    (h : Encoded content b items) :
    rowsOf content (items.map Prod.snd) =
      (b.rowsByDay.entries.map fun e => (e.2 : Multiset Json)).sum := by
  obtain ⟨hdays, hitem⟩ := h
  have hpaths : (items.map Prod.snd).map (fun m => content m.path) =
      (items.map Prod.fst).map fun day => (((b.rowsByDay.lookup day).getD [] : List Json) :
        Multiset Json) := by
    rw [List.map_map, List.map_map]
    exact List.map_congr_left fun item hmem => (hitem item hmem).1
  have hkeys : b.rowsByDay.keys.map (fun day => (((b.rowsByDay.lookup day).getD [] : List Json) :
      Multiset Json)) = b.rowsByDay.entries.map fun e => (e.2 : Multiset Json) := by
    rw [AList.keys, List.keys, List.map_map]
    refine List.map_congr_left fun e he => ?_
    have hl : b.rowsByDay.lookup e.1 = some e.2 := AList.mem_lookup_iff.mpr he
    simp [hl]
  unfold rowsOf
  rw [hpaths, (hdays.map _).sum_eq, hkeys]

/-- **A flush makes an attempt of what the worker holds.** -/
theorem Attempt.ok_of_flush {b : Buffers} {items : List (String × PartMeta)}
    {offsets : List OffsetRange} {identity : OperationIdentity}
    (hreads : Reads log route.topic base seen) (hb : Holds out config route b seen)
    (henc : Encoded content b items) (hne : b.ranges.entries ≠ [])
    (hoff : offsets.Perm (b.offsetRanges route.topic))
    (hid : ingestIdentity out route.hypertable offsets = .ok identity) :
    Attempt.Ok out log content
      ⟨config, route, base, seen, items.map Prod.snd, offsets, identity⟩ where
  reads := hreads
  range r := by
    show r ∈ offsets ↔ _
    rw [hoff.mem_iff, mem_offsetRanges, hb.ranges]
  once := by
    refine (hoff.map OffsetRange.partition).nodup_iff.mpr ?_
    have hparts : (b.offsetRanges route.topic).map OffsetRange.partition = b.ranges.keys := by
      unfold Buffers.offsetRanges
      rw [List.map_map]
      rfl
    rw [hparts]
    exact b.ranges.keys_nodup
  nonempty hnil := by
    have hnil' : offsets = [] := hnil
    rw [hnil', List.nil_perm, Buffers.offsetRanges, List.map_eq_nil_iff] at hoff
    exact hne hoff
  rows := by
    show rowsOf content (items.map Prod.snd) = _
    rw [henc.rows, hb.rows]
    rfl
  identity := hid

/-! ## 4. What the identity of an attempt determines -/

/-- The bytes that were hashed for the attempt. -/
def Attempt.bytes (a : Attempt) : List UInt8 :=
  canonicalBytes "ingest" 1 a.route.hypertable
    (ingestBody ((ingestRanges a.offsets).insertionSort IngestRange.le) ingestTransformationVersion)

theorem ingestRanges_injective : Function.Injective fun o : OffsetRange =>
    (⟨o.topic, o.partition, o.first, o.last⟩ : IngestRange) := by
  rintro ⟨t, p, f, l⟩ ⟨t', p', f', l'⟩ h
  simp only [IngestRange.mk.injEq] at h
  obtain ⟨rfl, rfl, rfl, rfl⟩ := h
  rfl

theorem Attempt.Ok.identity_eq {a : Attempt} (h : a.Ok out log content) :
    a.identity = ⟨a.route.hypertable, operationKey "ingest" 1 (out.hash a.bytes),
      out.hash a.bytes⟩ := by
  obtain ⟨sorted, hsorted, hfinish⟩ := ingest_ok h.identity
  rw [canonicalRanges_ok hsorted] at hfinish
  exact finish_ok hfinish

theorem Attempt.Ok.ingestKey {a : Attempt} (h : a.Ok out log content) :
    IngestKey a.identity.key := by
  rw [h.identity_eq]
  refine ⟨"v".toList ++ ((toString 1).toList ++ ("/".toList ++
    (hex (out.hash a.bytes)).toList)), ?_⟩
  simp [operationKey]

theorem Attempt.Ok.wide {a : Attempt} (h : a.Ok out log content) :
    ∀ r ∈ (ingestRanges a.offsets).insertionSort IngestRange.le, r ∈ IngestRange.Wide := by
  intro r hr
  rw [List.mem_insertionSort, ingestRanges, List.mem_map] at hr
  obtain ⟨o, ho, rfl⟩ := hr
  obtain ⟨ht, he⟩ := (h.range o).mp ho
  obtain ⟨-, -, -, -, hp, hf, hl⟩ := h.reads.ends_spec he
  exact ⟨ht ▸ a.route.topicLen, I32_subset hp, hf, hl⟩

/-- **Attempts on one hypertable with equal hashed bytes commit the same ranges.** -/
theorem Attempt.Ok.offsets_perm {a a' : Attempt} (h : a.Ok out log content)
    (h' : a'.Ok out log content) (hht : a.route.hypertable = a'.route.hypertable)
    (hbytes : a.bytes = a'.bytes) : a.offsets.Perm a'.offsets := by
  unfold Attempt.bytes at hbytes
  rw [hht] at hbytes
  have hsorted := ingestBody_inj h.wide h'.wide hbytes
  have hperm : (ingestRanges a.offsets).Perm (ingestRanges a'.offsets) := by
    refine (List.perm_insertionSort IngestRange.le _).symm.trans ?_
    rw [hsorted]
    exact List.perm_insertionSort _ _
  exact (List.map_perm_map_iff ingestRanges_injective).mp hperm

end Ukiel.Ingest
