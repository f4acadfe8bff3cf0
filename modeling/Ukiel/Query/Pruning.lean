/-
# Pruning

What a scan leaves unread: the parts that `live_parts_pruned` (`ukiel-catalog/src/parts.rs`) does
not return, and of the others those, and the row groups, that `part_excludes_key` and
`access_plan_for` (`ukiel-query/src/provider.rs`) rule out.  All three go by what is recorded of a
part, and none opens a file.

A row that is not read cannot be found again by anything after it.  `livePartsPruned_eq_ok`,
`not_partExcludesKey` and `accessPlanFor_keeps`: where the record is sound, no row of the key that
is inside the ranges is left out, and a plan has a flag for each row group of its file.  But a part
is left out, whatever its rows, where the index stands over the range of a column that is bounded
(`Blind`).
-/
import Ukiel.Compactor.PartMetadata
import Ukiel.Query.Ranges

namespace Ukiel.Query
open Ukiel.Catalog Ukiel.Compactor

/-! ## 1. The catalog's part -/

/-- `(… ->> …)::bigint`: what PostgreSQL reads in the text of a JSON value, if it is a number. -/
structure BigintCast where
  cast : Json → Option I64
  int : ∀ n : I64, cast (.num (.int n.val)) = some n

/-- `column_stats -> $col ->> 'max'` or `'min'`, as a `bigint`; what is not there is NULL. -/
def castBound (pg : BigintCast) (entry : Json) (bound : String) :
    Except CatalogError (Option I64) :=
  match entry.get? bound with
  | none => .ok none
  | some .null => .ok none
  | some v =>
    match pg.cast v with
    | some n => .ok (some n)
    | none => .error (.db .permanent)

/-- `$min IS NULL OR max >= $min`, and the other way round. -/
def boundHolds (pg : BigintCast) (entry : Json) (name : String) (cmp : I64 → I64 → Bool) :
    Option I64 → Except CatalogError (Option Bool)
  | none => .ok (some true)
  | some bind => do return (← castBound pg entry name).map fun stat => cmp stat bind

/-- The condition of one range: a part without statistics of the column is kept. -/
def rangeHolds (pg : BigintCast) (columnStats : Option Json) (range : ColumnRange) :
    Except CatalogError (Option Bool) :=
  match statsEntry columnStats range.column with
  | none => .ok (some true)
  | some entry => do
    return Kleene.and (← boundHolds pg entry "max" (· ≥ ·) range.min)
      (← boundHolds pg entry "min" (· ≤ ·) range.max)

/-- The ranges, joined by `AND`. -/
def rangesHold (pg : BigintCast) (columnStats : Option Json) :
    List ColumnRange → Except CatalogError (Option Bool)
  | [] => .ok (some true)
  | range :: ranges => do
    return Kleene.and (← rangeHolds pg columnStats range) (← rangesHold pg columnStats ranges)

/-- The key clause, on `packing_key_min`, `packing_key_max` and `key_filter`. -/
def keyHolds (codec : KeyCodec) (h : HypertableId) (key : I64) (m : PartMeta) :
    Except CatalogError (Option Bool) :=
  match keyFilter codec m.columnStats >>= fun filter => KeyFilter.sqlKeeps filter h key.val with
  | .error _ => .error (.db .permanent)
  | .ok keeps => .ok (some (m.packingKeyMin ≤ key.val ∧ key.val ≤ m.packingKeyMax ∧ keeps))

/-- With no key there is no membership question, and no clause. -/
def sliceHolds (codec : KeyCodec) (h : HypertableId) (slice : Option I64) (m : PartMeta) :
    Except CatalogError (Option Bool) :=
  match slice with
  | none => .ok (some true)
  | some key => keyHolds codec h key m

/-- The condition on a part.  PostgreSQL is free in what it evaluates first. -/
def partHolds (pg : BigintCast) (codec : KeyCodec) (h : HypertableId) (key : Option I64)
    (ranges : List ColumnRange) (m : PartMeta) : Except CatalogError (Option Bool) := do
  return Kleene.and (← sliceHolds codec h key m) (← rangesHold pg m.columnStats ranges)

/-- The condition is TRUE. -/
def kept (pg : BigintCast) (codec : KeyCodec) (h : HypertableId) (slice : Option I64)
    (ranges : List ColumnRange) (p : PartRow) : Bool :=
  partHolds pg codec h slice ranges p.partMeta matches .ok (some true)

/-- `live_parts_pruned`. -/
def livePartsPruned (pg : BigintCast) (codec : KeyCodec) (T : Tables) (h : HypertableId)
    (key : Option I64) (ranges : List ColumnRange) : Except CatalogError (List PartRow) := do
  let kept ← Kleene.select (fun p => partHolds pg codec h key ranges p.partMeta) (T.liveParts h)
  return kept.insertionSort fun p q => p.id ≤ q.id

/-- Whatever the metadata says, it is live parts of the hypertable. -/
theorem live_of_pruned {pg : BigintCast} {codec : KeyCodec} {T : Tables} {h : HypertableId}
    {key : Option I64} {ranges : List ColumnRange} {parts : List PartRow}
    (hparts : livePartsPruned pg codec T h key ranges = .ok parts) :
    ∀ p ∈ parts, p ∈ T.liveParts h := by
  obtain ⟨selected, hselected, hparts⟩ := Except.bind_eq_ok_iff.mp hparts
  cases hparts
  intro p hp
  exact (Kleene.sublist_of_select hselected).subset ((List.perm_insertionSort _ _).mem_iff.mp hp)

/-! ## 2. The provider's part -/

/-- `part_excludes_key`: only a bitmap that answers, and answers no. -/
def partExcludesKey (codec : KeyCodec) (m : PartMeta) (key : I64) : Bool :=
  match ((statsEntry m.columnStats packingKeysStat).bind Json.asStr?).bind
      fun encoded => bitmapContains codec encoded key with
  | some present => !present
  | none => false

/-- The bounds of one span. -/
def spanBounds (span : Json) : Option (Int × Int) := do
  let lo ← (span.item? 0).bind Json.asInt?
  let hi ← (span.item? 1).bind Json.asInt?
  return (lo, hi)

/-- Whether the row group of a span may hold the key. -/
def scansSpan (key : I64) (span : Json) : Option Bool := do
  let (lo, hi) ← spanBounds span
  return !(key.val < lo || key.val > hi)

/-- `access_plan_for`: which row groups are scanned.  One malformed span spoils them all, and a
plan that skips nothing is none. -/
def accessPlanFor (m : PartMeta) (key : I64) : Option (List Bool) := do
  let spans ← (← statsEntry m.columnStats keyRowGroupsStat).asArray?
  if spans = [] then none
  else
    let plan ← spans.mapM (scansSpan key)
    if plan.all id then none else some plan

/-! ## 3. The rows of a range -/

/-- The range bounds its column, under whose name the key index stands.  Its bounds are then
NULL, which is no proof that the part has no row of the range. -/
def ColumnRange.blind (columnStats : Option Json) (range : ColumnRange) : Bool :=
  (range.min.isSome || range.max.isSome) && indexed columnStats range.column

section Ranges

variable {s : Schema} {rows : List (Row s)} {stats : Option Json}

/-- The row has the key of the slice, if there is one, and is inside all ranges. -/
def Wanted (packingKey : String) (slice : Option I64) (ranges : List ColumnRange) (r : Row s) :
    Prop :=
  (∀ key, slice = some key → packingKeyOf packingKey r = some key) ∧
    ∀ range ∈ ranges, Inside (columnValue r range.column) (range.min, range.max)

/-- The ranges are of `Int64` columns. -/
theorem isInt64_of_extracted {filters : List Expr} {ranges : List ColumnRange}
    (h : extractInt64Ranges filters s = .ok ranges) :
    ∀ range ∈ ranges, isInt64 s range.column = true := by
  obtain ⟨bounds, hfold, h⟩ := Except.bind_eq_ok_iff.mp h
  cases h
  have hall : ∀ name ∈ bounds, isInt64 s name = true := by
    refine @List.foldlM_ok_induction _ _ _ _
      (fun _ (b : Bounds) => ∀ name ∈ b, isInt64 s name = true) _ _ _ hfold
      (fun _ h => absurd h (AList.notMem_empty _)) ?_
    intro _ filter _ b b' hb hstep
    unfold applyFilter at hstep
    split at hstep
    · unfold apply at hstep
      split at hstep
      · rename_i hint
        obtain ⟨entry, -, hentry⟩ := Except.bind_eq_ok_iff.mp hstep
        cases hentry
        intro name hname
        rcases (AList.mem_insert _).mp hname with rfl | hname
        · exact hint
        · exact hb name hname
      · cases hstep
        exact hb
    · cases hstep
      exact hb
  intro range hrange
  obtain ⟨e, he, rfl⟩ := List.mem_map.mp hrange
  exact hall e.1 (AList.mem_keys.mpr (List.mem_map_of_mem he))

/-- A filter bounds a column under whose name the key index of the part stands. -/
def Blind (s : Schema) (filters : List Expr) (m : PartMeta) : Prop :=
  ∃ filter ∈ filters, ∃ name, bounding s filter name ∧ indexed m.columnStats name = true

theorem blind_iff {filters : List Expr} {ranges : List ColumnRange}
    (h : extractInt64Ranges filters s = .ok ranges) (m : PartMeta) :
    Blind s filters m ↔ ranges.any (ColumnRange.blind m.columnStats) = true := by
  rw [List.any_eq_true]
  constructor
  · rintro ⟨filter, hfilter, name, hbound, hindexed⟩
    obtain ⟨range, hrange, rfl, hsome⟩ := (bounded_extracted h name).mpr ⟨filter, hfilter, hbound⟩
    exact ⟨range, hrange, Bool.and_eq_true_iff.mpr ⟨hsome, hindexed⟩⟩
  · rintro ⟨range, hrange, hblind⟩
    obtain ⟨hsome, hindexed⟩ := Bool.and_eq_true_iff.mp hblind
    obtain ⟨filter, hfilter, hbound⟩ :=
      (bounded_extracted h range.column).mp ⟨range, hrange, rfl, hsome⟩
    exact ⟨filter, hfilter, _, hbound, hindexed⟩

theorem boundHolds_eq_ok (pg : BigintCast) {entry : Json} {name : String} {stat : I64}
    (hentry : entry.get? name = some (.num (.int stat.val))) (cmp : I64 → I64 → Bool)
    (bind : Option I64) :
    ∃ t, boundHolds pg entry name cmp bind = .ok t ∧
      ((∀ b, bind = some b → cmp stat b = true) → t = some true) := by
  rcases bind with _ | b
  · exact ⟨_, rfl, fun _ => rfl⟩
  · refine ⟨some (cmp stat b), ?_, fun h => congrArg some (h b rfl)⟩
    simp [boundHolds, castBound, hentry, pg.int, bind, Except.bind, pure, Except.pure]

/-- In an entry of the index there are no bounds to read. -/
theorem boundHolds_index (pg : BigintCast) {entry : Json}
    (hentry : ∀ bound, entry.get? bound = none) (name : String) (cmp : I64 → I64 → Bool)
    (bind : Option I64) :
    boundHolds pg entry name cmp bind = .ok (if bind.isSome then none else some true) := by
  rcases bind with _ | b
  · rfl
  · simp [boundHolds, castBound, hentry, bind, Except.bind, pure, Except.pure]

theorem get?_of_indexed {name : String} (h : indexed stats name = true) :
    ∃ entry, statsEntry stats name = some entry ∧ ∀ bound, entry.get? bound = none := by
  unfold indexed at h
  split at h
  · exact ⟨_, by assumption, fun _ => rfl⟩
  · exact ⟨_, by assumption, fun _ => rfl⟩
  · cases h

/-- **One range**, on what is recorded of a part: nothing raises, and a part with a row inside is
kept, unless the range is blind to it. -/
theorem rangeHolds_eq_ok (pg : BigintCast) (hsound : RangesSound stats rows) {range : ColumnRange}
    (hint : isInt64 s range.column = true) :
    ∃ t, rangeHolds pg stats range = .ok t ∧
      (range.blind stats = false →
        (∃ r ∈ rows, Inside (columnValue r range.column) (range.min, range.max)) → t = some true) ∧
      (range.blind stats = true → t ≠ some true) := by
  obtain ⟨i, f, hi, hf, hname, hf'⟩ := isInt64_eq_true hint
  cases hindexed : indexed stats range.column with
  | true =>
    obtain ⟨entry, hentry, hnone⟩ := get?_of_indexed hindexed
    refine ⟨Kleene.and (if range.min.isSome then none else some true)
      (if range.max.isSome then none else some true), ?_, ?_⟩
    · simp [rangeHolds, hentry, boundHolds_index pg hnone, bind, Except.bind, pure, Except.pure]
    · rw [ColumnRange.blind, hindexed]
      cases range.min <;> cases range.max <;> simp [Kleene.and]
  | false =>
    have hplain : range.blind stats = false := by rw [ColumnRange.blind, hindexed, Bool.and_false]
    obtain ⟨known, hknown, hentry⟩ := hsound i f hf hf' (by rw [hname, hindexed])
    rw [hname] at hentry
    rcases known with _ | ⟨lo, hi'⟩
    · exact ⟨some true, by simp [rangeHolds, hentry], fun _ _ => rfl, by simp [hplain]⟩
    · obtain ⟨t₁, ht₁, hmax⟩ :=
        @boundHolds_eq_ok pg (rangeJson (lo, hi')) "max" hi' rfl (· ≥ ·) range.min
      obtain ⟨t₂, ht₂, hmin⟩ :=
        @boundHolds_eq_ok pg (rangeJson (lo, hi')) "min" lo rfl (· ≤ ·) range.max
      refine ⟨Kleene.and t₁ t₂, ?_, fun _ => ?_, by simp [hplain]⟩
      · simp [rangeHolds, hentry, ht₁, ht₂, bind, Except.bind, pure, Except.pure]
      rintro ⟨r, hr, hlower, hupper⟩
      -- the row's value is one of the column's
      have hvalue : ∀ v, columnValue r range.column = .int64 v → v ∈ columnValues i rows := by
        intro v hv
        simp only [columnValue, hi] at hv
        exact ⟨by rw [hf]; exact congrArg some hf', List.mem_map.mpr ⟨r, hr, by rw [hv]; rfl⟩⟩
      refine Kleene.and_eq_true.mpr ⟨hmax fun b hb => ?_, hmin fun b hb => ?_⟩
      · obtain ⟨v, hv, hle⟩ := hlower b hb
        simpa using hle.trans (hknown.2.2 (hvalue v hv))
      · obtain ⟨v, hv, hle⟩ := hupper b hb
        simpa using (hknown.1.2 (hvalue v hv)).trans hle

theorem rangesHold_eq_ok (pg : BigintCast) (hsound : RangesSound stats rows)
    {ranges : List ColumnRange} (hint : ∀ range ∈ ranges, isInt64 s range.column = true) :
    ∃ t, rangesHold pg stats ranges = .ok t ∧
      (ranges.any (ColumnRange.blind stats) = false → (∃ r ∈ rows, ∀ range ∈ ranges,
        Inside (columnValue r range.column) (range.min, range.max)) → t = some true) ∧
      (ranges.any (ColumnRange.blind stats) = true → t ≠ some true) := by
  induction ranges with
  | nil => exact ⟨_, rfl, fun _ _ => rfl, nofun⟩
  | cons range ranges ih =>
    obtain ⟨hrange, hrest⟩ := List.forall_mem_cons.mp hint
    obtain ⟨t₁, ht₁, hkeep₁, hdrop₁⟩ := rangeHolds_eq_ok pg hsound hrange
    obtain ⟨t₂, ht₂, hkeep₂, hdrop₂⟩ := ih hrest
    refine ⟨Kleene.and t₁ t₂, ?_, ?_, ?_⟩
    · simp [rangesHold, ht₁, ht₂, bind, Except.bind, pure, Except.pure]
    · rw [List.any_cons, Bool.or_eq_false_iff]
      rintro ⟨hseen, hseen'⟩ ⟨r, hr, hinside⟩
      obtain ⟨hhead, htail⟩ := List.forall_mem_cons.mp hinside
      exact Kleene.and_eq_true.mpr ⟨hkeep₁ hseen ⟨r, hr, hhead⟩, hkeep₂ hseen' ⟨r, hr, htail⟩⟩
    · rw [List.any_cons, Bool.or_eq_true, Ne, Kleene.and_eq_true]
      rintro (hblind | hblind) ⟨h₁, h₂⟩
      · exact hdrop₁ hblind h₁
      · exact hdrop₂ hblind h₂

end Ranges

/-! ## 4. What is left unread -/

section Parts

variable {codec : KeyCodec} {ht : Hypertable} {s : Schema} {m : PartMeta}
  {groups : List (List (Row s))} {key : I64}

/-- **The key clause**: nothing raises, and a part with a row of the key is kept. -/
theorem keyHolds_eq_ok (h : MetadataSound codec ht m ⟨s, groups⟩) (id : HypertableId) (key : I64) :
    ∃ t, keyHolds codec id key m = .ok t ∧
      ((∃ r ∈ groups.flatten, packingKeyOf ht.packingKey r = some key) → t = some true) := by
  obtain ⟨built, hbuilt, hkeeps⟩ := h.index.filter
  obtain ⟨keeps, hkeep, -⟩ := KeyFilter.sqlKeeps_eq_ok built id key.val
  refine ⟨some (m.packingKeyMin ≤ key.val ∧ key.val ≤ m.packingKeyMax ∧ keeps), ?_, ?_⟩
  · simp [keyHolds, hbuilt, hkeep, bind, Except.bind]
  rintro ⟨r, hr, hkey⟩
  have hmem := mem_keysOf hr hkey
  obtain ⟨lo, hlo, hleast⟩ := h.min
  obtain ⟨hi, hhi, hgreatest⟩ := h.max
  have hmin : lo ≤ key := hleast.2 hmem
  have hmax : key ≤ hi := hgreatest.2 hmem
  have htrue : keeps = true := Except.ok.inj (hkeep.symm.trans (hkeeps key hmem id).1)
  simp [hlo, hhi, htrue, Subtype.coe_le_coe.mpr hmin, Subtype.coe_le_coe.mpr hmax]

/-- **The condition on a part**. -/
theorem partHolds_eq_ok (pg : BigintCast) (h : MetadataSound codec ht m ⟨s, groups⟩)
    (id : HypertableId) (slice : Option I64) {ranges : List ColumnRange}
    (hint : ∀ range ∈ ranges, isInt64 s range.column = true) :
    ∃ t, partHolds pg codec id slice ranges m = .ok t ∧
      (ranges.any (ColumnRange.blind m.columnStats) = false →
        (∃ r ∈ groups.flatten, Wanted ht.packingKey slice ranges r) → t = some true) ∧
      (ranges.any (ColumnRange.blind m.columnStats) = true → t ≠ some true) := by
  obtain ⟨t₁, ht₁, hkeyed⟩ : ∃ t, sliceHolds codec id slice m = .ok t ∧
      ((∃ r ∈ groups.flatten, ∀ key, slice = some key → packingKeyOf ht.packingKey r = some key) →
        t = some true) := by
    rcases slice with _ | key
    · exact ⟨_, rfl, fun _ => rfl⟩
    · obtain ⟨t, hok, hkeep⟩ := keyHolds_eq_ok h id key
      exact ⟨t, hok, fun ⟨r, hr, hkey⟩ => hkeep ⟨r, hr, hkey key rfl⟩⟩
  obtain ⟨t₂, ht₂, hranged, hblind⟩ := rangesHold_eq_ok pg h.ranges hint
  refine ⟨Kleene.and t₁ t₂, ?_, ?_, ?_⟩
  · simp only [partHolds, ht₁, ht₂, bind, Except.bind, pure, Except.pure]
  · rintro hseen ⟨r, hr, hkey, hinside⟩
    exact Kleene.and_eq_true.mpr ⟨hkeyed ⟨r, hr, hkey⟩, hranged hseen ⟨r, hr, hinside⟩⟩
  · exact fun h htrue => hblind h (Kleene.and_eq_true.mp htrue).2

/-- **The catalog's pruning**: nothing raises; the parts that are left out have no row of the key
inside the ranges, or some range is blind to them, and those are left out. -/
theorem livePartsPruned_eq_ok (pg : BigintCast) {T : Tables} {id : HypertableId}
    {slice : Option I64} {ranges : List ColumnRange} {files : PartRow → List (List (Row s))}
    (hsound : ∀ p ∈ T.liveParts id, MetadataSound codec ht p.partMeta ⟨s, files p⟩)
    (hint : ∀ range ∈ ranges, isInt64 s range.column = true) :
    livePartsPruned pg codec T id slice ranges =
        .ok (((T.liveParts id).filter (kept pg codec id slice ranges)).insertionSort
          fun p q => p.id ≤ q.id) ∧
      ∀ p ∈ T.liveParts id, (ranges.any (ColumnRange.blind p.partMeta.columnStats) = false →
          ∀ r ∈ (files p).flatten, Wanted ht.packingKey slice ranges r →
            kept pg codec id slice ranges p = true) ∧
        (ranges.any (ColumnRange.blind p.partMeta.columnStats) = true →
          kept pg codec id slice ranges p = false) := by
  have hkept : ∀ p t, partHolds pg codec id slice ranges p.partMeta = .ok t →
      (t = some true ↔ kept pg codec id slice ranges p = true) := by
    intro p t hok
    rcases t with _ | _ | _ <;> simp [kept, hok]
  refine ⟨?_, fun p hp => ?_⟩
  · rw [livePartsPruned,
      @Kleene.select_eq_ok _ _ _ _ (kept pg codec id slice ranges) fun p hp => ?_]
    · rfl
    · obtain ⟨t, hok, -⟩ := partHolds_eq_ok pg (hsound p hp) id slice hint
      exact ⟨t, hok, hkept p t hok⟩
  · obtain ⟨t, hok, hkeep, hdrop⟩ := partHolds_eq_ok pg (hsound p hp) id slice hint
    refine ⟨fun hseen r hr hwanted => (hkept p t hok).mp (hkeep hseen ⟨r, hr, hwanted⟩),
      fun hblind => ?_⟩
    rw [← Bool.not_eq_true, ← hkept p t hok]
    exact hdrop hblind

/-- **The bitmap**: a part it excludes has no row of the key. -/
theorem not_partExcludesKey (h : KeyIndexSound codec ht.packingKey m.columnStats groups) {r : Row s}
    (hr : r ∈ groups.flatten) (hkey : packingKeyOf ht.packingKey r = some key) :
    partExcludesKey codec m key = false := by
  unfold partExcludesKey
  cases hentry : (statsEntry m.columnStats packingKeysStat).bind Json.asStr? with
  | none => rfl
  | some text =>
    obtain ⟨entry, hsome, hstr⟩ := Option.bind_eq_some_iff.mp hentry
    obtain rfl : entry = .str text := by
      cases entry <;> simp_all [Json.asStr?]
    obtain ⟨keys, hkeys, hmem⟩ := h.bitmap text hsome
    obtain ⟨set, hset, hlist⟩ := Option.bind_eq_some_iff.mp hkeys
    simp only [Option.bind_some, bitmapContains, hset, Option.map_some]
    by_cases hneg : key.val < 0
    · rw [if_pos hneg]
    -- the key is listed, so its number is in the set
    have hin : key.val.toNat ∈ set := by
      obtain ⟨k, hk, hkv⟩ :=
        (List.mapM_eq_some_iff.mp hlist).flip.exists_of_mem ((hmem key).mpr (mem_keysOf hr hkey))
      split at hkv
      · obtain rfl := Option.some.inj hkv
        exact (Finset.mem_sort _).mp hk
      · cases hkv
    simp [hneg, hin]

theorem asInt?_int (n : I64) : (Json.num (.int n.val)).asInt? = some n.val := if_pos n.property

theorem scansSpan_spanJson (range : I64 × I64) :
    scansSpan key (spanJson range) = some (decide (range.1 ≤ key ∧ key ≤ range.2)) := by
  simp [scansSpan, spanBounds, spanJson, Json.item?, asInt?_int, ← not_lt]

/-- **The plan** has a flag for each row group of the file, and one with a row of the key is
scanned. -/
theorem accessPlanFor_keeps (h : KeyIndexSound codec ht.packingKey m.columnStats groups)
    {plan : List Bool} (hplan : accessPlanFor m key = some plan) :
    List.Forall₂ (fun scanned group =>
      (∃ r ∈ group, packingKeyOf ht.packingKey r = some key) → scanned = true) plan groups := by
  obtain ⟨entry, hentry, hentries⟩ := Option.bind_eq_some_iff.mp hplan
  obtain ⟨spans, harray, hspans⟩ := Option.bind_eq_some_iff.mp hentries
  obtain rfl : entry = .arr spans := by
    cases entry <;> simp_all [Json.asArray?]
  obtain ⟨ranges, rfl, hranges⟩ := h.spans spans hentry
  split at hspans
  · cases hspans
  obtain ⟨flags, hflags, hskips⟩ := Option.bind_eq_some_iff.mp hspans
  split at hskips
  · cases hskips
  cases hskips
  rw [List.mapM_eq_some_iff, List.forall₂_map_left_iff] at hflags
  refine hflags.flip.comp hranges fun flag range group hflag hrange => ?_
  rintro ⟨r, hr, hkey⟩
  have hmem := mem_keysOf hr hkey
  rw [← Option.some.inj ((scansSpan_spanJson range).symm.trans hflag)]
  exact decide_eq_true ⟨hrange.1.2 hmem, hrange.2.2 hmem⟩

end Parts

end Ukiel.Query
