/-
# What a flush can encode

`buffer_message` admits a row on two of its fields, "or the Parquet encoder would reject the whole
flush"; the encoder decodes every column of the table and evaluates its expressions.  `HasPlace`
is what the encoder asks of a row, and `encodeDays_isOk_iff` says that a flush is encoded exactly
when every row admitted since the last one has a place: one that has none fails the flush, and
with it every later one.
-/
import Ukiel.Ingest.Ledger
import Ukiel.Ingest.Writer

namespace Ukiel.Ingest
open Ukiel.Expr Ukiel.Write

/-! ## 1. The rows of one day -/

section Rows

variable {reader : JsonReader} {g : RowExpr} {L : Lexsort} {codec : PartCodec} {cols : TableColumns}
  {packingKey tsColumn : String} {sortKey : List String} {rows : List Json}

/-- **A row with a place in the table**: its fields are values of the columns, with no NULL in one
that has none; its default and materialized columns can be computed and fit; and the packing key
it ends up with is an `i64`. -/
def HasPlace (reader : JsonReader) (g : RowExpr) (cols : TableColumns) (packingKey : String)
    (row : Json) : Prop :=
  ∃ cells out, reader.decode cols.physicalSchema row = some cells ∧
    cols.physicalSchema.fits cells = true ∧
    cols.specs.foldlM (fillFit g cols.physicalSchema) cells = some out ∧
    ∃ i f n, cols.physicalSchema.indexOf packingKey = some i ∧
      cols.physicalSchema[i]? = some f ∧ f.dataType = .int64 ∧ out[i]? = some (.int64 n)

/-- A cell of an `Int64` column that is not NULL. -/
theorem int64_cell {s : Schema} (r : Row s) {i : Nat} {f : Field} (hf : s[i]? = some f)
    (htype : f.dataType = .int64) : r.cell i ≠ .null ↔ ∃ n, r.val[i]? = some (.int64 n) := by
  have hlt : i < r.val.length := by
    rw [r.length]
    exact (List.getElem?_eq_some_iff.mp hf).1
  have hget : r.val[i]? = some (r.cell i) := by
    unfold Row.cell
    rw [List.getElem?_eq_getElem hlt]
    rfl
  have hadmits := r.admits hf
  rw [hget]
  cases hcell : r.cell i with
  | null => simp
  | int64 n => simp
  | float64 bits => simp [hcell, Field.admits, htype] at hadmits
  | utf8 text => simp [hcell, Field.admits, htype] at hadmits
  | bool b => simp [hcell, Field.admits, htype] at hadmits

/-- **The rows of one day** are encoded exactly when each of them has a place. -/
theorem encodeRows_isOk_iff (htyped : RowExprTyped g)
    (hsort : validateSortKey cols.physicalSchema sortKey packingKey none = .ok ()) (hne : rows ≠ [])
    (hkeyed : ∀ row ∈ rows, hasInt row packingKey = true ∧ hasInt row tsColumn = true) :
    (∃ part, encodeRows reader (rowwise g) L codec cols packingKey tsColumn sortKey rows =
        .ok part) ↔
      ∀ row ∈ rows, HasPlace reader g cols packingKey row := by
  have happly : ∀ {batch filled : List (Row cols.physicalSchema)},
      applyDefaultsAndMaterialized (rowwise g) batch cols = .ok filled ↔
        List.Forall₂ (fun r r' : Row cols.physicalSchema =>
          cols.specs.foldlM (fillFit g cols.physicalSchema) r.val = some r'.val) batch filled := by
    intro batch filled
    refine (fillAll_eq_ok_iff htyped (fun spec h => exists_indexOf_computed h) ?_).trans ?_
    · intro r hr
      obtain ⟨r, -, rfl⟩ := List.mem_map.mp hr
      exact r.property
    · rw [List.mapM_eq_some_iff, List.forall₂_map_left_iff, List.forall₂_map_right_iff]
  constructor
  · rintro ⟨part, hpart⟩ row hrow
    obtain ⟨batch, filled, hdecode, hfill, hfinish⟩ := encodeRows_eq_ok_iff.mp hpart
    have hdecoded := (decodeRows_eq_ok_iff hne hkeyed).mp hdecode
    have hfilled := happly.mp hfill
    have hne' : filled ≠ [] := by
      rintro rfl
      rw [List.forall₂_nil_right_iff.mp hfilled] at hdecoded
      exact hne (List.forall₂_nil_right_iff.mp hdecoded)
    obtain ⟨⟨i, f, hi, hf, htype⟩, hkey⟩ := (finishPart_isOk_iff hne' hsort).mp ⟨part, hfinish⟩
    obtain ⟨r, hr, hcells⟩ := hdecoded.exists_of_mem hrow
    obtain ⟨r', hr', hout⟩ := hfilled.exists_of_mem hr
    obtain ⟨n, hn⟩ := (int64_cell r' hf htype).mp (hkey i hi r' hr')
    exact ⟨r.val, r'.val, hcells, r.property, hout, i, f, n, hi, hf, htype, hn⟩
  · intro hplace
    obtain ⟨batch, hbatch⟩ := List.exists_forall₂ (l := rows)
      (R := fun row (r : Row cols.physicalSchema) =>
        reader.decode cols.physicalSchema row = some r.val ∧
          ∃ r' : Row cols.physicalSchema,
            cols.specs.foldlM (fillFit g cols.physicalSchema) r.val = some r'.val ∧
            ∃ i f n, cols.physicalSchema.indexOf packingKey = some i ∧
              cols.physicalSchema[i]? = some f ∧ f.dataType = .int64 ∧
                r'.val[i]? = some (.int64 n)) fun row hrow => by
        obtain ⟨cells, out, hcells, hfit, hout, hkey⟩ := hplace row hrow
        exact ⟨⟨cells, hfit⟩, hcells, ⟨out, fits_of_fillFit hfit hout⟩, hout, hkey⟩
    obtain ⟨filled, hfilled⟩ := List.exists_forall₂ fun r hr => (hbatch.flip.exists_of_mem hr).elim
      fun _ h => h.2.2
    have hdecode := (decodeRows_eq_ok_iff hne hkeyed).mpr (hbatch.imp fun _ _ h => h.1)
    have hfill := happly.mpr (hfilled.imp fun _ _ h => h.1)
    suffices hfinish : ∃ part, finishPart L codec filled sortKey packingKey = .ok part by
      obtain ⟨part, hpart⟩ := hfinish
      exact ⟨part, encodeRows_eq_ok_iff.mpr ⟨batch, filled, hdecode, hfill, hpart⟩⟩
    have hkeys : ∀ r ∈ filled, ∃ i f n, cols.physicalSchema.indexOf packingKey = some i ∧
        cols.physicalSchema[i]? = some f ∧ f.dataType = .int64 ∧ r.val[i]? = some (.int64 n) :=
      fun r hr => (hfilled.flip.exists_of_mem hr).elim fun _ h => h.2.2
    obtain ⟨r, hr⟩ : ∃ r, r ∈ filled := by
      refine List.exists_mem_of_ne_nil filled ?_
      rintro rfl
      rw [List.forall₂_nil_right_iff.mp hfilled] at hbatch
      exact hne (List.forall₂_nil_right_iff.mp hbatch)
    obtain ⟨i, f, n, hi, hf, htype, -⟩ := hkeys r hr
    refine (finishPart_isOk_iff (List.ne_nil_of_mem hr) hsort).mpr ⟨⟨i, f, hi, hf, htype⟩, ?_⟩
    intro j hj r' hr'
    obtain ⟨i', f', n', hi', hf', htype', hn'⟩ := hkeys r' hr'
    obtain rfl := Option.some.inj (hi'.symm.trans hj)
    exact (int64_cell r' hf' htype').mpr ⟨n', hn'⟩

end Rows

/-! ## 2. A whole flush -/

/-- The loop over the days of `flush`. -/
def encodeDays (reader : JsonReader) (eval : Evaluator) (L : Lexsort) (codec : PartCodec)
    (cols : TableColumns) (route : Route) (sortKey : List String) (b : Buffers) :
    Except IngestError (List FlushItem) :=
  b.rowsByDay.entries.mapM fun e => do
    let part ← encodeRows reader eval L codec cols route.packingKey route.tsColumn sortKey e.2
    return ⟨.obj [("day", .str e.1)], part⟩

/-- A day's rows, encoded, and its partition. -/
theorem encodeDays_eq_ok {json : JsonReader} {eval : Evaluator} {L : Lexsort}
    {route : Route} {sortKey : List String} {buffers : Buffers} {codec : PartCodec}
    {cols : TableColumns} {items : List FlushItem}
    (h : encodeDays json eval L codec cols route sortKey buffers = .ok items) :
    List.Forall₂ (fun e item => item.partitionValues = .obj [("day", .str e.1)] ∧
      encodeRows json eval L codec cols route.packingKey route.tsColumn sortKey e.2 =
        .ok item.part) buffers.rowsByDay.entries items := by
  refine (List.mapM_eq_ok_iff.mp h).imp fun e item he => ?_
  obtain ⟨part, hpart, hitem⟩ := Except.bind_eq_ok_iff.mp he
  cases hitem
  exact ⟨rfl, hpart⟩

/-- What a worker that held nothing holds after some messages. -/
def received (out : Outside) (config : IngestConfig) (route : Route) (seen : List Delivery) :
    Buffers :=
  seen.foldl (fun b d => bufferMessage out config route d.now b d.payload d.partition d.offset) {}

section Flush

variable {out : Outside} {config : IngestConfig} {route : Route} {seen : List Delivery}

/-- No day is without a row. -/
def NoEmptyDay (b : Buffers) : Prop := ∀ day rows, b.rowsByDay.lookup day = some rows → rows ≠ []

theorem NoEmptyDay.message {b : Buffers} (h : NoEmptyDay b) (d : Delivery) :
    NoEmptyDay (bufferMessage out config route d.now b d.payload d.partition d.offset) := by
  rw [bufferMessage_eq]
  cases admitted out config route d.now d.payload with
  | none => exact h
  | some kept =>
    obtain ⟨day, ts, row⟩ := kept
    intro day' rows hrows
    by_cases hday : day' = day
    · subst hday
      have hinsert : some rows = some ((b.rowsByDay.lookup day').getD [] ++ [row]) :=
        hrows.symm.trans (AList.lookup_insert _)
      rw [Option.some.inj hinsert]
      exact List.append_ne_nil_of_right_ne_nil _ (List.cons_ne_nil row [])
    · exact h day' rows ((AList.lookup_insert_ne hday).symm.trans hrows)

theorem received_holds :
    Holds out config route (received out config route seen) seen ∧
      NoEmptyDay (received out config route seen) := by
  induction seen using List.reverseRecOn with
  | nil => exact ⟨Holds.empty out config route, fun _ _ h => nomatch h⟩
  | append_singleton seen d ih =>
    unfold received at ih ⊢
    rw [List.foldl_append]
    exact ⟨ih.1.message d, ih.2.message d⟩

theorem mem_list_sum {α : Type} {a : α} {l : List (Multiset α)} :
    a ∈ l.sum ↔ ∃ m ∈ l, a ∈ m := by
  induction l with
  | nil => simp
  | cons m l ih => rw [List.sum_cons, Multiset.mem_add, ih, List.exists_mem_cons_iff]

/-- The rows in the buffers are those admitted. -/
theorem mem_received {row : Json} :
    (∃ e ∈ (received out config route seen).rowsByDay.entries, row ∈ e.2) ↔
      ∃ d ∈ seen, keptRow out config route d = some row := by
  have hholds : Holds out config route (received out config route seen) seen := received_holds.1
  rw [← List.mem_filterMap, ← Multiset.mem_coe, ← hholds.rows, mem_list_sum]
  simp only [List.mem_map, exists_exists_and_eq_and, Multiset.mem_coe]

/-- What has been admitted has the two fields that admission looks at. -/
theorem hasInt_of_kept {d : Delivery} {row : Json} (h : keptRow out config route d = some row) :
    hasInt row route.packingKey = true ∧ hasInt row route.tsColumn = true := by
  obtain ⟨⟨day, ts, row'⟩, hadm, rfl⟩ := Option.map_eq_some_iff.mp h
  simp only [admitted, Option.bind_eq_bind] at hadm
  obtain ⟨bytes, -, hadm⟩ := Option.bind_eq_some_iff.mp hadm
  obtain ⟨parsed, -, hadm⟩ := Option.bind_eq_some_iff.mp hadm
  obtain ⟨ts', hts, hadm⟩ := Option.bind_eq_some_iff.mp hadm
  obtain ⟨key, hkey, hadm⟩ := Option.bind_eq_some_iff.mp hadm
  obtain ⟨-, -, hadm⟩ := Option.bind_eq_some_iff.mp hadm
  obtain ⟨day', -, heq⟩ := Option.bind_eq_some_iff.mp hadm
  cases heq
  exact ⟨by rw [hasInt, hkey]; rfl, by rw [hasInt, hts]; rfl⟩

/-- The start-up check has the flush's own. -/
theorem validateSortKey_none {s : Schema} {sortKey : List String} {packingKey ts : String}
    (h : validateSortKey s sortKey packingKey (some ts) = .ok ()) :
    validateSortKey s sortKey packingKey none = .ok () := by
  unfold validateSortKey at h ⊢
  cases sortKey with
  | nil => cases h
  | cons first rest =>
    simp only at h ⊢
    split at h
    · cases h
    · rename_i hfirst
      rw [if_neg hfirst]
      cases hfind : (first :: rest).find? fun name => (s.indexOf name).isNone with
      | none => rfl
      | some name =>
        rw [hfind] at h
        cases h

/-- **A flush is encoded** exactly when every row admitted since the last one has a place. -/
theorem encodeDays_isOk_iff {reader : JsonReader} {g : RowExpr} {L : Lexsort} {codec : PartCodec}
    {cols : TableColumns} {sortKey : List String} (htyped : RowExprTyped g)
    (hsort : validateSortKey cols.physicalSchema sortKey route.packingKey (some route.tsColumn) =
      .ok ()) :
    (∃ items, encodeDays reader (rowwise g) L codec cols route sortKey
        (received out config route seen) = .ok items) ↔
      ∀ d ∈ seen, ∀ row, keptRow out config route d = some row →
        HasPlace reader g cols route.packingKey row := by
  have hb : NoEmptyDay (received out config route seen) := received_holds.2
  have hday : ∀ e ∈ (received out config route seen).rowsByDay.entries,
      (∃ item, (do
        let part ← encodeRows reader (rowwise g) L codec cols route.packingKey route.tsColumn
          sortKey e.2
        return (⟨.obj [("day", .str e.1)], part⟩ : FlushItem)) = Except.ok item) ↔
      ∀ row ∈ e.2, HasPlace reader g cols route.packingKey row := by
    intro e he
    rw [← encodeRows_isOk_iff htyped (validateSortKey_none hsort)
      (hb e.1 e.2 (AList.mem_lookup_iff.mpr he)) fun row hrow => ?_]
    · cases encodeRows reader (rowwise g) L codec cols route.packingKey route.tsColumn sortKey e.2
        <;> simp [bind, Except.bind, pure, Except.pure]
    · obtain ⟨d, -, hd⟩ := mem_received.mp ⟨e, he, hrow⟩
      exact hasInt_of_kept hd
  rw [encodeDays, List.mapM_isOk_iff]
  constructor
  · intro h d hd row hkept
    obtain ⟨e, he, hrow⟩ := mem_received.mpr ⟨d, hd, hkept⟩
    exact (hday e he).mp (h e he) row hrow
  · intro h e he
    refine (hday e he).mpr fun row hrow => ?_
    obtain ⟨d, hd, hkept⟩ := mem_received.mp ⟨e, he, hrow⟩
    exact h d hd row hkept

end Flush

/-! ## 3. A poison message -/

/-- A table whose rows may say where they are from. -/
def originColumns : TableColumns := ⟨[
  ⟨"tenant_id", .int64, true, .stored, "int64", false⟩,
  ⟨"ts", .int64, true, .stored, "timestamp_ms", false⟩,
  ⟨"region", .utf8, true, .stored, "utf8", false⟩]⟩

/-- Two messages of two days say it with a text, and one with a number; one is no JSON. -/
def textMessage : List UInt8 := utf8 "\x7b\"region\":\"eu\",\"tenant_id\":1,\"ts\":1000\x7d"

def laterMessage : List UInt8 := utf8 "\x7b\"region\":\"us\",\"tenant_id\":2,\"ts\":90000000\x7d"

def numberMessage : List UInt8 := utf8 "\x7b\"region\":5,\"tenant_id\":1,\"ts\":1000\x7d"

def brokenMessage : List UInt8 := utf8 "\x7b\"region\":"

def originRow (region : Json) (tenant ts : Int) : Json :=
  .obj [("region", region), ("tenant_id", .num (.int tenant)), ("ts", .num (.int ts))]

def originOutside : Outside where
  parse bytes :=
    if bytes = textMessage then some (originRow (.str "eu") 1 1000)
    else if bytes = laterMessage then some (originRow (.str "us") 2 90000000)
    else if bytes = numberMessage then some (originRow (.num (.int 5)) 1 1000)
    else none
  dayOf ts :=
    if ts = 1000 then some "1970-01-01"
    else if ts = 90000000 then some "1970-01-02"
    else none
  hash _ := []

theorem originTopic_mem : "t" ∈ Str64 := by
  show (utf8 "t").length < 256 ^ 8
  decide +kernel

def originRoute : Route := ⟨3, "tenant_id", "t", "ts", originTopic_mem⟩

/-- The table has no expression. -/
def noExprs : RowExpr := fun _ _ _ _ => none

/-- What two partitions brought: the texts, what is no JSON, and a tombstone. -/
def textDeliveries : List Delivery :=
  [⟨0, 0, some textMessage, 90001000⟩, ⟨0, 1, some brokenMessage, 90001000⟩,
    ⟨1, 0, some laterMessage, 90001000⟩, ⟨0, 2, none, 90001000⟩]

/-- The texts are encoded, without what was rejected; and with the number they no longer are. -/
theorem flush_of_texts :
    (∃ items, encodeDays .byName (rowwise noExprs) .stable .characters originColumns originRoute
      ["tenant_id", "ts"] (received originOutside ⟨7, 3600⟩ originRoute textDeliveries) =
        .ok items) ∧
    ¬ ∃ items, encodeDays .byName (rowwise noExprs) .stable .characters originColumns originRoute
      ["tenant_id", "ts"] (received originOutside ⟨7, 3600⟩ originRoute
        (textDeliveries ++ [⟨1, 1, some numberMessage, 90001000⟩])) = .ok items := by
  have hiff := fun seen => @encodeDays_isOk_iff originOutside ⟨7, 3600⟩ originRoute seen .byName
    noExprs .stable .characters originColumns ["tenant_id", "ts"]
    (fun _ _ _ _ _ h => absurd h.symm (Option.some_ne_none _)) (by rfl)
  have hkept : textDeliveries.map (keptRow originOutside ⟨7, 3600⟩ originRoute) =
      [some (originRow (.str "eu") 1 1000), none, some (originRow (.str "us") 2 90000000),
        none] := by
    decide +kernel
  refine ⟨(hiff textDeliveries).mpr fun d hd row hrow => ?_, fun h => ?_⟩
  · have hmem := List.mem_map_of_mem (f := keptRow originOutside ⟨7, 3600⟩ originRoute) hd
    rw [hkept, hrow] at hmem
    simp only [List.mem_cons, List.not_mem_nil, or_false, Option.some.injEq, reduceCtorEq,
      false_or] at hmem
    rcases hmem with rfl | rfl
    · exact ⟨[.int64 ⟨1, by decide⟩, .int64 ⟨1000, by decide⟩, .utf8 "eu"], _, by rfl, by rfl,
        by rfl, 0, _, _, by rfl, by rfl, by rfl, by rfl⟩
    · exact ⟨[.int64 ⟨2, by decide⟩, .int64 ⟨90000000, by decide⟩, .utf8 "us"], _, by rfl, by rfl,
        by rfl, 0, _, _, by rfl, by rfl, by rfl, by rfl⟩
  · -- the number has no place in the column of texts
    obtain ⟨cells, -, hdecode, -⟩ := (hiff _).mp h _ (List.mem_append_right _ List.mem_cons_self)
      (originRow (.num (.int 5)) 1 1000) (by decide +kernel)
    cases hdecode

/-- The number is admitted with its message, and no flush that has it is encoded. -/
theorem number_poisons_flush :
    keptRow originOutside ⟨7, 3600⟩ originRoute ⟨0, 0, some numberMessage, 2000⟩ =
      some (originRow (.num (.int 5)) 1 1000) ∧
    encodeDays .byName (rowwise noExprs) .stable .characters originColumns originRoute
      ["tenant_id", "ts"] (received originOutside ⟨7, 3600⟩ originRoute
        [⟨0, 0, some numberMessage, 2000⟩]) = .error .arrow := by
  have hbuffers : (received originOutside ⟨7, 3600⟩ originRoute
      [⟨0, 0, some numberMessage, 2000⟩]).rowsByDay.entries =
        [⟨"1970-01-01", [originRow (.num (.int 5)) 1 1000]⟩] := by decide +kernel
  refine ⟨by decide +kernel, ?_⟩
  rw [encodeDays, hbuffers]
  rfl

end Ukiel.Ingest
