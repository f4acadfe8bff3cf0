/-
# Column statistics and the key index

`ukiel-core/src/stats.rs`: what a writer records of the rows of a part.  Every `Int64` column
gets its smallest and largest value, under its name; a part with several packing keys also gets
the set of them and their span in every row group, under two reserved names of the same object.

The streaming writer folds these slice by slice where the others look at all rows at once:
`Int64StatsAccumulator` and `int64ColumnStats` agree on rows that come in one slice or in many,
unless two columns have one name (`folds_agree_iff`).

The set of keys is stored as base64 of a serialized roaring treemap.  `KeyCodec` is any encoding
that decodes again.
-/
import Mathlib.Data.Finset.Sort
import Mathlib.Order.Lattice.Nat
import Ukiel.Core.Batch

namespace Ukiel

/-! ## 1. `Int64` columns -/

/-- `json!({ "min": min, "max": max })`. -/
def rangeJson (range : I64 × I64) : Json :=
  .obj [("max", .num (.int range.2.val)), ("min", .num (.int range.1.val))]

/-- A column as an `Int64Array`, if it is one. -/
def int64Column? {s : Schema} (i : Nat) (rows : List (Row s)) : Option (List (Option I64)) :=
  if s[i]?.map Field.dataType = some .int64 then some (int64Array i rows) else none

/-- The smallest and the largest value of an `Int64` column; none of an all-NULL or empty one. -/
def columnRange {s : Schema} (i : Nat) (rows : List (Row s)) : Option (I64 × I64) := do
  let column ← int64Column? i rows
  let min ← arrowMin column
  let max ← arrowMax column
  return (min, max)

/-- `int64_column_stats`. -/
def int64ColumnStats {s : Schema} (rows : List (Row s)) : Option Json :=
  let stats := s.zipIdx.foldl (fun stats f =>
    match columnRange f.2 rows with
    | some range => Json.insertEntry f.1.name (rangeJson range) stats
    | none => stats) []
  if stats = [] then none else some (.obj stats)

/-- `Int64StatsAccumulator`. -/
structure Int64StatsAccumulator where
  /-- Column names in first-seen order. -/
  order : List String
  /-- The running smallest and largest value of each. -/
  stats : String → Option (I64 × I64)

namespace Int64StatsAccumulator

def empty : Int64StatsAccumulator := ⟨[], fun _ => none⟩

/-- One column of a batch. -/
def fold (acc : Int64StatsAccumulator) (name : String) (range : I64 × I64) :
    Int64StatsAccumulator :=
  match acc.stats name with
  | some (mn, mx) =>
    ⟨acc.order, Function.update acc.stats name (some (min mn range.1, max mx range.2))⟩
  | none => ⟨acc.order ++ [name], Function.update acc.stats name (some range)⟩

/-- `update`. -/
def update {s : Schema} (acc : Int64StatsAccumulator) (rows : List (Row s)) :
    Int64StatsAccumulator :=
  s.zipIdx.foldl (fun acc f =>
    match columnRange f.2 rows with
    | some range => acc.fold f.1.name range
    | none => acc) acc

/-- `finish`. -/
def finish (acc : Int64StatsAccumulator) : Option Json :=
  if acc.order = [] then none
  else some (.obj (acc.order.foldl (fun stats name =>
    match acc.stats name with
    | some range => Json.insertEntry name (rangeJson range) stats
    | none => stats) []))

end Int64StatsAccumulator

/-! ## 2. The key index -/

/-- `PACKING_KEYS_STAT`. -/
def packingKeysStat : String := "packing_keys"

/-- `KEY_ROW_GROUPS_STAT`. -/
def keyRowGroupsStat : String := "key_row_groups"

/-- `MAX_BITMAP_KEYS`. -/
def maxBitmapKeys : Nat := 10000

/-- Base64 of a serialized `RoaringTreemap`. -/
structure KeyCodec where
  encode : Finset Nat → String
  decode : String → Option (Finset Nat)
  decode_encode : ∀ keys, decode (encode keys) = some keys

/-- A codec to evaluate with: one character for each number up to the largest key. -/
def KeyCodec.characters : KeyCodec where
  encode keys :=
    String.ofList ((List.range (keys.sup id + 1)).map fun n => if n ∈ keys then '1' else '0')
  decode text := some ((Finset.range text.length).filter fun n => text.toList[n]? = some '1')
  decode_encode keys := by
    refine congrArg some (Finset.ext fun n => ?_)
    rw [Finset.mem_filter, Finset.mem_range, String.length_ofList, String.toList_ofList]
    constructor
    · rintro ⟨-, h⟩
      rw [List.getElem?_map, Option.map_eq_some_iff] at h
      obtain ⟨m, hm, hcell⟩ := h
      obtain ⟨hlt, rfl⟩ := List.getElem?_eq_some_iff.mp hm
      rw [List.getElem_range] at hcell
      by_contra hn
      rw [if_neg hn] at hcell
      cases hcell
    · intro hn
      have hlt : n < keys.sup id + 1 := Nat.lt_succ_of_le (Finset.le_sup (f := id) hn)
      refine ⟨by simpa using hlt, ?_⟩
      rw [List.getElem?_map, List.getElem?_range hlt, Option.map_some, if_pos hn]

/-- `KeyBitmapAccumulator`. -/
structure KeyBitmapAccumulator where
  keys : Finset Nat
  poisoned : Bool

namespace KeyBitmapAccumulator

def empty : KeyBitmapAccumulator := ⟨∅, false⟩

/-- The values of the column, up to the first negative one. -/
def insertKeys (acc : KeyBitmapAccumulator) : List I64 → KeyBitmapAccumulator
  | [] => acc
  | v :: vs =>
    if v.val < 0 then { acc with poisoned := true }
    else insertKeys { acc with keys := insert v.val.toNat acc.keys } vs

/-- `update`. -/
def update {s : Schema} (acc : KeyBitmapAccumulator) (rows : List (Row s)) (packingKey : String) :
    KeyBitmapAccumulator :=
  if acc.poisoned then acc
  else
    match (s.indexOf packingKey).bind fun i => int64Column? i rows with
    | none => { acc with poisoned := true }
    | some column => acc.insertKeys column.reduceOption

/-- `finish`: none means no index, never that there are no keys. -/
def finish (codec : KeyCodec) (acc : KeyBitmapAccumulator) : Option String :=
  if acc.poisoned ∨ acc.keys = ∅ then none
  else if maxBitmapKeys < acc.keys.card then none
  else some (codec.encode acc.keys)

end KeyBitmapAccumulator

/-- `key_bitmap`. -/
def keyBitmap (codec : KeyCodec) {s : Schema} (rows : List (Row s)) (packingKey : String) :
    Option String :=
  (KeyBitmapAccumulator.empty.update rows packingKey).finish codec

/-- `bitmap_contains`. -/
def bitmapContains (codec : KeyCodec) (encoded : String) (key : I64) : Option Bool :=
  if key.val < 0 then none
  else (codec.decode encoded).map fun keys => decide (key.val.toNat ∈ keys)

/-- `key_row_groups`: all the groups, or none at all.  The writer's statistics of a group are
those of its rows. -/
def keyRowGroups {s : Schema} (rowGroups : List (List (Row s))) (packingKey : String) :
    Option Json :=
  if rowGroups = [] then none
  else (rowGroups.mapM fun group => do
    let i ← s.indexOf packingKey
    let range ← columnRange i group
    return Json.arr [.num (.int range.1.val), .num (.int range.2.val)]).map Json.arr

/-- `with_key_index`. -/
def withKeyIndex (stats : Option Json) (bitmap : Option String) (spans : Option Json) :
    Option Json :=
  if bitmap = none ∧ spans = none then stats
  else
    let map := match stats with
      | some (.obj kvs) => kvs
      | _ => []
    let map := match bitmap with
      | some b => Json.insertEntry packingKeysStat (.str b) map
      | none => map
    let map := match spans with
      | some s => Json.insertEntry keyRowGroupsStat s map
      | none => map
    some (.obj map)

/-! ## 3. Ranges of values -/

/-- The smallest and the largest of some values, where there are any. -/
def IsRange (V : Set I64) : Option (I64 × I64) → Prop
  | none => V = ∅
  | some range => IsLeast V range.1 ∧ IsGreatest V range.2

theorem IsRange.unique {V : Set I64} {r r' : Option (I64 × I64)} (h : IsRange V r)
    (h' : IsRange V r') : r = r' := by
  cases r with
  | none =>
    cases r' with
    | none => rfl
    | some r' => exact absurd h'.1.1 (h ▸ Set.notMem_empty _)
  | some r =>
    cases r' with
    | none => exact absurd h.1.1 (h' ▸ Set.notMem_empty _)
    | some r' => exact congrArg some (Prod.ext (h.1.unique h'.1) (h.2.unique h'.2))

/-- The values of an `Int64` column; another column has none. -/
def columnValues {s : Schema} (i : Nat) (rows : List (Row s)) : Set I64 :=
  { v | s[i]?.map Field.dataType = some .int64 ∧ some v ∈ int64Array i rows }

theorem columnRange_isRange {s : Schema} (i : Nat) (rows : List (Row s)) :
    IsRange (columnValues i rows) (columnRange i rows) := by
  unfold columnRange int64Column?
  by_cases htype : s[i]?.map Field.dataType = some .int64
  · have hvalues : columnValues i rows = { v | some v ∈ int64Array i rows } := by
      ext v
      exact ⟨fun h => h.2, fun h => ⟨htype, h⟩⟩
    rw [if_pos htype, hvalues]
    cases hmin : arrowMin (int64Array i rows) with
    | none =>
      simp only [Option.bind_eq_bind, Option.bind_some, hmin, Option.bind_none]
      exact Set.eq_empty_iff_forall_notMem.mpr (arrowMin_eq_none.mp hmin)
    | some mn =>
      obtain ⟨hmem, hle⟩ := arrowMin_eq_some.mp hmin
      cases hmax : arrowMax (int64Array i rows) with
      | none => exact absurd hmem (arrowMax_eq_none.mp hmax mn)
      | some mx =>
        obtain ⟨hmem', hge⟩ := arrowMax_eq_some.mp hmax
        simp only [Option.bind_eq_bind, Option.bind_some, hmin, hmax]
        exact ⟨⟨hmem, fun v hv => hle v hv⟩, hmem', fun v hv => hge v hv⟩
  · rw [if_neg htype]
    exact Set.eq_empty_iff_forall_notMem.mpr fun v hv => htype hv.1

theorem columnValues_append {s : Schema} (i : Nat) (rows rows' : List (Row s)) :
    columnValues i (rows ++ rows') = columnValues i rows ∪ columnValues i rows' := by
  ext v
  simp only [columnValues, int64Array, List.map_append, List.mem_append, Set.mem_ofPred_eq,
    Set.mem_union]
  exact and_or_left

/-- The values of the `Int64` columns of a name. -/
def namedValues {s : Schema} (name : String) (rows : List (Row s)) : Set I64 :=
  { v | ∃ f ∈ s.zipIdx, f.1.name = name ∧ v ∈ columnValues f.2 rows }

theorem namedValues_append {s : Schema} (name : String) (rows rows' : List (Row s)) :
    namedValues name (rows ++ rows') = namedValues name rows ∪ namedValues name rows' := by
  ext v
  simp only [namedValues, columnValues_append, Set.mem_ofPred_eq, Set.mem_union]
  constructor
  · rintro ⟨f, hf, hname, hv | hv⟩
    · exact .inl ⟨f, hf, hname, hv⟩
    · exact .inr ⟨f, hf, hname, hv⟩
  · rintro (⟨f, hf, hname, hv⟩ | ⟨f, hf, hname, hv⟩)
    · exact ⟨f, hf, hname, .inl hv⟩
    · exact ⟨f, hf, hname, .inr hv⟩

/-! ## 4. The ranges folded -/

/-- What an accumulator knows of the values it was fed under each name. -/
structure Int64StatsAccumulator.Folded (acc : Int64StatsAccumulator) (V : String → Set I64) :
    Prop where
  range : ∀ name, IsRange (V name) (acc.stats name)
  order : ∀ name, name ∈ acc.order ↔ acc.stats name ≠ none

namespace Int64StatsAccumulator

theorem Folded.empty : Folded .empty fun _ => ∅ :=
  ⟨fun _ => rfl, fun _ => iff_of_false List.not_mem_nil (fun h => h rfl)⟩

theorem Folded.of_eq {acc : Int64StatsAccumulator} {V V' : String → Set I64} (h : Folded acc V)
    (heq : ∀ name, V name = V' name) : Folded acc V' :=
  ⟨fun name => heq name ▸ h.range name, h.order⟩

/-- One column adds its values under its name. -/
theorem Folded.fold {acc : Int64StatsAccumulator} {V : String → Set I64} (h : Folded acc V)
    {W : Set I64} {range : I64 × I64} (hW : IsRange W (some range)) (name : String) :
    Folded (acc.fold name range) fun n => if n = name then V n ∪ W else V n := by
  unfold Int64StatsAccumulator.fold
  have hV := h.range name
  cases hstats : acc.stats name with
  | none =>
    rw [hstats] at hV
    refine ⟨fun n => ?_, fun n => ?_⟩
    · by_cases hn : n = name
      · subst hn
        simp only [Function.update_self, if_true]
        rw [show V n = ∅ from hV, Set.empty_union]
        exact hW
      · simp only [Function.update_of_ne hn, if_neg hn]
        exact h.range n
    · by_cases hn : n = name
      · simp [hn]
      · simp [hn, h.order n]
  | some r =>
    rw [hstats] at hV
    refine ⟨fun n => ?_, fun n => ?_⟩
    · by_cases hn : n = name
      · subst hn
        simp only [Function.update_self, if_true]
        exact ⟨hV.1.union hW.1, hV.2.union hW.2⟩
      · simp only [Function.update_of_ne hn, if_neg hn]
        exact h.range n
    · by_cases hn : n = name
      · simp [hn, h.order name, hstats]
      · simp [hn, h.order n]

/-- One batch adds its values. -/
theorem Folded.update {s : Schema} {acc : Int64StatsAccumulator} {V : String → Set I64}
    (h : Folded acc V) (rows : List (Row s)) :
    Folded (acc.update rows) fun name => V name ∪ namedValues name rows := by
  unfold Int64StatsAccumulator.update namedValues
  induction s.zipIdx generalizing acc V with
  | nil => exact h.of_eq fun name => by simp
  | cons f fs ih =>
    rw [List.foldl_cons]
    have hstep : Folded (match columnRange f.2 rows with
        | some range => acc.fold f.1.name range
        | none => acc) fun n => if n = f.1.name then V n ∪ columnValues f.2 rows else V n := by
      have hrange := columnRange_isRange f.2 rows
      cases hcol : columnRange f.2 rows with
      | some range => exact h.fold (hcol ▸ hrange) f.1.name
      | none =>
        rw [hcol] at hrange
        refine h.of_eq fun n => ?_
        rw [show columnValues f.2 rows = ∅ from hrange, Set.union_empty, ite_self]
    refine (ih hstep).of_eq fun name => ?_
    ext v
    by_cases hname : name = f.1.name
    · subst hname
      simp [or_assoc]
    · simp [hname, Ne.symm hname]

/-- **A run over slices**: the values of them all. -/
theorem Folded.slices {s : Schema} {acc : Int64StatsAccumulator} {V : String → Set I64}
    (h : Folded acc V) (slices : List (List (Row s))) :
    Folded (slices.foldl Int64StatsAccumulator.update acc)
      fun name => V name ∪ namedValues name slices.flatten := by
  induction slices generalizing acc V with
  | nil => exact h.of_eq fun name => by simp [namedValues, columnValues, int64Array]
  | cons rows slices ih =>
    rw [List.foldl_cons]
    refine (ih (h.update rows)).of_eq fun name => ?_
    rw [List.flatten_cons, namedValues_append, Set.union_assoc]

end Int64StatsAccumulator

/-! ## 5. The one-shot ranges -/

/-- The ranges of the `Int64` columns that hold a value, each under its name. -/
def columnRanges {s : Schema} (rows : List (Row s)) : List (String × (I64 × I64)) :=
  s.zipIdx.filterMap fun f => (columnRange f.2 rows).map fun range => (f.1.name, range)

/-- **Of the columns of one name, the last one spans the others**: no `Int64` column holds a value
outside the range of the last one of its name that holds any. -/
def LastSpans {s : Schema} (rows : List (Row s)) : Prop :=
  ∀ name range last, (name, range) ∈ columnRanges rows →
    (columnRanges rows).reverse.lookup name = some last →
    last.1 ≤ range.1 ∧ range.2 ≤ last.2

theorem mem_columnRanges {s : Schema} {rows : List (Row s)} {e : String × (I64 × I64)} :
    e ∈ columnRanges rows ↔
      ∃ f ∈ s.zipIdx, f.1.name = e.1 ∧ columnRange f.2 rows = some e.2 := by
  rw [columnRanges, List.mem_filterMap]
  refine exists_congr fun f => and_congr_right fun _ => ?_
  rw [Option.map_eq_some_iff]
  constructor
  · rintro ⟨range, hrange, rfl⟩
    exact ⟨rfl, hrange⟩
  · rintro ⟨hname, hrange⟩
    exact ⟨e.2, hrange, Prod.ext hname rfl⟩

theorem namedValues_iff {s : Schema} {rows : List (Row s)} {name : String} {v : I64}
    (h : v ∈ namedValues name rows) :
    ∃ range, (name, range) ∈ columnRanges rows ∧ range.1 ≤ v ∧ v ≤ range.2 := by
  obtain ⟨f, hf, hname, hv⟩ := h
  have hrange := columnRange_isRange f.2 rows
  cases hcol : columnRange f.2 rows with
  | none =>
    rw [hcol] at hrange
    exact absurd hv (hrange ▸ Set.notMem_empty v)
  | some range =>
    rw [hcol] at hrange
    exact ⟨range, mem_columnRanges.mpr ⟨f, hf, hname, hcol⟩, hrange.1.2 hv, hrange.2.2 hv⟩

theorem columnRanges_mem {s : Schema} {rows : List (Row s)} {name : String} {range : I64 × I64}
    (h : (name, range) ∈ columnRanges rows) :
    range.1 ∈ namedValues name rows ∧ range.2 ∈ namedValues name rows := by
  obtain ⟨f, hf, hname, hcol⟩ := mem_columnRanges.mp h
  have hrange := columnRange_isRange f.2 rows
  rw [hcol] at hrange
  exact ⟨⟨f, hf, hname, hrange.1.1⟩, ⟨f, hf, hname, hrange.2.1⟩⟩

theorem mem_of_lookup {β : Type} {es : List (String × β)} {name : String} {b : β}
    (h : es.lookup name = some b) : (name, b) ∈ es := by
  obtain ⟨l₁, l₂, rfl, -⟩ := List.lookup_eq_some_iff.mp h
  exact List.mem_append_right l₁ List.mem_cons_self

/-- The last column of a name has the range of all of them exactly where it spans them. -/
theorem lastSpans_iff {s : Schema} {rows : List (Row s)} :
    LastSpans rows ↔
      ∀ name, IsRange (namedValues name rows) ((columnRanges rows).reverse.lookup name) := by
  constructor
  · intro h name
    cases hlast : (columnRanges rows).reverse.lookup name with
    | none =>
      refine Set.eq_empty_iff_forall_notMem.mpr fun v hv => ?_
      obtain ⟨range, hmem, -⟩ := namedValues_iff hv
      have hno := List.lookup_eq_none_iff.mp hlast (name, range) (List.mem_reverse.mpr hmem)
      exact bne_iff_ne.mp hno rfl
    | some last =>
      have hmem := List.mem_reverse.mp (mem_of_lookup hlast)
      obtain ⟨hmin, hmax⟩ := columnRanges_mem hmem
      refine ⟨⟨hmin, fun v hv => ?_⟩, hmax, fun v hv => ?_⟩
      · obtain ⟨range, hrange, hle, -⟩ := namedValues_iff hv
        exact (h name range last hrange hlast).1.trans hle
      · obtain ⟨range, hrange, -, hle⟩ := namedValues_iff hv
        exact hle.trans (h name range last hrange hlast).2
  · intro h name range last hmem hlast
    have hspan := h name
    rw [hlast] at hspan
    obtain ⟨hmin, hmax⟩ := columnRanges_mem hmem
    exact ⟨hspan.1.2 hmin, hspan.2.2 hmax⟩

/-- The ranges of an accumulator, in the order its names were seen. -/
def Int64StatsAccumulator.ranges (acc : Int64StatsAccumulator) : List (String × (I64 × I64)) :=
  acc.order.filterMap fun name => (acc.stats name).map fun range => (name, range)

theorem Int64StatsAccumulator.Folded.lookup_ranges {acc : Int64StatsAccumulator}
    {V : String → Set I64} (h : acc.Folded V) (name : String) :
    acc.ranges.reverse.lookup name = acc.stats name := by
  have hmem : ∀ e, e ∈ acc.ranges → acc.stats e.1 = some e.2 := by
    intro e he
    obtain ⟨n, -, hn⟩ := List.mem_filterMap.mp he
    obtain ⟨range, hrange, rfl⟩ := Option.map_eq_some_iff.mp hn
    exact hrange
  cases hlook : acc.ranges.reverse.lookup name with
  | some range => exact (hmem _ (List.mem_reverse.mp (mem_of_lookup hlook))).symm
  | none =>
    cases hstats : acc.stats name with
    | none => rfl
    | some range =>
      have horder : name ∈ acc.order := (h.order name).mpr (by simp [hstats])
      have hin : (name, range) ∈ acc.ranges :=
        List.mem_filterMap.mpr ⟨name, horder, by rw [hstats]; rfl⟩
      have hno := List.lookup_eq_none_iff.mp hlook _ (List.mem_reverse.mpr hin)
      exact absurd rfl (bne_iff_ne.mp hno)

/-- The entries of ranges in an object. -/
def rangeEntries (ranges : List (String × (I64 × I64))) : List (String × Json) :=
  Json.ofEntries (ranges.map fun e => (e.1, rangeJson e.2))

theorem lookup_rangeEntries (ranges : List (String × (I64 × I64))) (name : String) :
    (rangeEntries ranges).lookup name = (ranges.reverse.lookup name).map rangeJson := by
  rw [rangeEntries, Json.lookup_ofEntries, ← List.map_reverse]
  induction ranges.reverse with
  | nil => rfl
  | cons e es ih =>
    rw [List.map_cons, List.lookup_cons, List.lookup_cons, ih]
    cases name == e.1 <;> rfl

theorem rangeJson_injective : Function.Injective rangeJson := by
  intro r r' h
  simp only [rangeJson, Json.obj.injEq, List.cons.injEq, Prod.mk.injEq, Json.num.injEq,
    Number.int.injEq, true_and, and_true] at h
  exact Prod.ext (Subtype.ext h.2) (Subtype.ext h.1)

/-- Two objects of ranges are equal when the last ranges of each name are. -/
theorem rangeEntries_eq_iff {l m : List (String × (I64 × I64))} :
    rangeEntries l = rangeEntries m ↔
      ∀ name, l.reverse.lookup name = m.reverse.lookup name := by
  constructor
  · intro h name
    have hlook := congrArg (List.lookup name) h
    simp only [lookup_rangeEntries] at hlook
    exact Option.map_injective rangeJson_injective hlook
  · intro h
    refine List.Pairwise.eq_of_lookup (Json.sorted_ofEntries _) (Json.sorted_ofEntries _) ?_
    intro name
    have hl := lookup_rangeEntries l name
    have hm := lookup_rangeEntries m name
    rw [← h name] at hm
    exact hl.trans hm.symm

/-- An object, or nothing where it would be empty. -/
def objectOf (kvs : List (String × Json)) : Option Json :=
  if kvs = [] then none else some (.obj kvs)

theorem objectOf_injective : Function.Injective objectOf := by
  intro l m h
  unfold objectOf at h
  split at h <;> split at h
  · simp_all
  · cases h
  · cases h
  · exact Json.obj.inj (Option.some.inj h)

theorem int64ColumnStats_eq {s : Schema} (rows : List (Row s)) :
    int64ColumnStats rows = objectOf (rangeEntries (columnRanges rows)) := by
  have hfold : (s.zipIdx.foldl (fun stats f =>
      match columnRange f.2 rows with
      | some range => Json.insertEntry f.1.name (rangeJson range) stats
      | none => stats) []) = rangeEntries (columnRanges rows) := by
    rw [rangeEntries, Json.ofEntries, List.foldl_map, columnRanges, List.foldl_filterMap]
    refine congrArg (fun g => List.foldl g [] s.zipIdx) (funext fun stats => funext fun f => ?_)
    cases columnRange f.2 rows <;> rfl
  rw [← hfold]
  rfl

theorem Int64StatsAccumulator.Folded.finish_eq {acc : Int64StatsAccumulator}
    {V : String → Set I64} (h : acc.Folded V) :
    acc.finish = objectOf (rangeEntries acc.ranges) := by
  have hfold : (acc.order.foldl (fun stats name =>
      match acc.stats name with
      | some range => Json.insertEntry name (rangeJson range) stats
      | none => stats) []) = rangeEntries acc.ranges := by
    rw [rangeEntries, Json.ofEntries, List.foldl_map, ranges, List.foldl_filterMap]
    refine congrArg (fun g => List.foldl g [] acc.order) (funext fun stats => funext fun n => ?_)
    cases acc.stats n <;> rfl
  unfold finish
  rw [hfold, objectOf]
  refine if_congr ?_ rfl rfl
  constructor
  · intro horder
    rw [ranges, horder]
    rfl
  · intro hempty
    refine List.eq_nil_iff_forall_not_mem.mpr fun name hname => (h.order name).mp hname ?_
    have hlook := lookup_rangeEntries acc.ranges name
    rw [hempty, h.lookup_ranges] at hlook
    exact Option.map_eq_none_iff.mp hlook.symm

/-- **The two ways to the same object** meet exactly where the last column of each name spans the
others. -/
theorem finish_eq_int64ColumnStats_iff {s : Schema} (slices : List (List (Row s))) :
    (slices.foldl Int64StatsAccumulator.update .empty).finish = int64ColumnStats slices.flatten ↔
      LastSpans slices.flatten := by
  have hfolded := Int64StatsAccumulator.Folded.empty.slices slices
  rw [hfolded.finish_eq, int64ColumnStats_eq, objectOf_injective.eq_iff, rangeEntries_eq_iff,
    lastSpans_iff]
  refine forall_congr' fun name => ?_
  have hrange := hfolded.range name
  rw [Set.empty_union] at hrange
  rw [hfolded.lookup_ranges]
  exact ⟨fun h => h ▸ hrange, fun h => hrange.unique h⟩

/-! ## 6. The set of keys -/

/-- Where the packing key is, if it is an `Int64` column. -/
def keyIndex (s : Schema) (packingKey : String) : Option Nat :=
  (s.indexOf packingKey).filter fun i => s[i]?.map Field.dataType = some .int64

/-- The packing keys of some rows. -/
def packingKeys {s : Schema} (rows : List (Row s)) (packingKey : String) : List I64 :=
  match keyIndex s packingKey with
  | none => []
  | some i => (int64Array i rows).reduceOption

/-- The numbers of some keys. -/
def keySet (vs : List I64) : Finset Nat := (vs.map fun v => v.val.toNat).toFinset

theorem keyColumn_eq {s : Schema} (rows : List (Row s)) (packingKey : String) :
    ((s.indexOf packingKey).bind fun i => int64Column? i rows) =
      (keyIndex s packingKey).map fun i => int64Array i rows := by
  unfold keyIndex int64Column?
  cases s.indexOf packingKey with
  | none => rfl
  | some i =>
    by_cases h : s[i]?.map Field.dataType = some .int64
    · rw [Option.bind_some, if_pos h, Option.filter_some_pos (by simpa using h)]
      rfl
    · rw [Option.bind_some, if_neg h, Option.filter_some_neg (by simpa using h)]
      rfl

theorem packingKeys_append {s : Schema} (rows rows' : List (Row s)) (packingKey : String) :
    packingKeys (rows ++ rows') packingKey =
      packingKeys rows packingKey ++ packingKeys rows' packingKey := by
  unfold packingKeys
  cases keyIndex s packingKey with
  | none => rfl
  | some i => simp only [int64Array, List.map_append, List.reduceOption_append]

namespace KeyBitmapAccumulator

variable {s : Schema} {acc : KeyBitmapAccumulator} {packingKey : String}

theorem insertKeys_of_nonneg {vs : List I64} (h : ∀ v ∈ vs, 0 ≤ v.val) :
    acc.insertKeys vs = ⟨acc.keys ∪ keySet vs, acc.poisoned⟩ := by
  induction vs generalizing acc with
  | nil => simp [insertKeys, keySet]
  | cons v vs ih =>
    obtain ⟨hv, hvs⟩ := List.forall_mem_cons.mp h
    rw [insertKeys, if_neg (not_lt.mpr hv), ih hvs]
    simp [keySet]

theorem insertKeys_of_neg {vs : List I64} (h : ∃ v ∈ vs, v.val < 0) :
    (acc.insertKeys vs).poisoned = true := by
  induction vs generalizing acc with
  | nil => obtain ⟨_, hv, -⟩ := h; cases hv
  | cons v vs ih =>
    rw [insertKeys]
    split
    · rfl
    · rename_i hnonneg
      obtain ⟨w, hw, hneg⟩ := h
      rcases List.mem_cons.mp hw with rfl | hw
      · exact absurd hneg hnonneg
      · exact ih ⟨w, hw, hneg⟩

theorem update_of_poisoned (rows : List (Row s)) (h : acc.poisoned = true) :
    acc.update rows packingKey = acc := if_pos h

theorem update_of_keyed (rows : List (Row s)) {i : Nat} (hi : keyIndex s packingKey = some i)
    (h : acc.poisoned = false) :
    acc.update rows packingKey = acc.insertKeys (packingKeys rows packingKey) := by
  rw [update, if_neg (by simp [h]), keyColumn_eq, packingKeys, hi]
  rfl

theorem update_of_unkeyed (rows : List (Row s)) (hi : keyIndex s packingKey = none) :
    (acc.update rows packingKey).poisoned = true := by
  rw [update, keyColumn_eq, hi]
  split
  · assumption
  · rfl

/-- The loop over the slices. -/
def updates (acc : KeyBitmapAccumulator) (slices : List (List (Row s))) (packingKey : String) :
    KeyBitmapAccumulator := slices.foldl (fun acc rows => acc.update rows packingKey) acc

/-- Poison stays. -/
theorem updates_of_poisoned (slices : List (List (Row s))) (h : acc.poisoned = true) :
    acc.updates slices packingKey = acc := by
  induction slices with
  | nil => rfl
  | cons rows slices ih =>
    rw [updates, List.foldl_cons, update_of_poisoned rows h]
    exact ih

theorem updates_of_nonneg {slices : List (List (Row s))} {i : Nat}
    (hi : keyIndex s packingKey = some i) (hp : acc.poisoned = false)
    (h : ∀ v ∈ packingKeys slices.flatten packingKey, 0 ≤ v.val) :
    acc.updates slices packingKey =
      ⟨acc.keys ∪ keySet (packingKeys slices.flatten packingKey), false⟩ := by
  induction slices generalizing acc with
  | nil => simp [updates, packingKeys, hi, int64Array, keySet, ← hp]
  | cons rows slices ih =>
    rw [List.flatten_cons, packingKeys_append] at h ⊢
    obtain ⟨hrows, hslices⟩ := List.forall_mem_append.mp h
    have hstep : acc.update rows packingKey = ⟨acc.keys ∪ keySet (packingKeys rows packingKey),
        false⟩ := by
      rw [update_of_keyed rows hi hp, insertKeys_of_nonneg hrows, hp]
    rw [updates, List.foldl_cons, ← updates, hstep, ih rfl hslices]
    simp [keySet]

theorem updates_of_neg {slices : List (List (Row s))}
    (h : ∃ v ∈ packingKeys slices.flatten packingKey, v.val < 0) :
    (acc.updates slices packingKey).poisoned = true := by
  induction slices generalizing acc with
  | nil =>
    obtain ⟨_, hv, -⟩ := h
    unfold packingKeys at hv
    split at hv <;> cases hv
  | cons rows slices ih =>
    rw [updates, List.foldl_cons, ← updates]
    cases hp : (acc.update rows packingKey).poisoned with
    | true => rw [updates_of_poisoned slices hp, hp]
    | false =>
      refine ih ?_
      obtain ⟨v, hv, hneg⟩ := h
      rw [List.flatten_cons, packingKeys_append] at hv
      refine ⟨v, (List.mem_append.mp hv).resolve_left fun hv => ?_, hneg⟩
      -- or this slice had poisoned it
      cases hi : keyIndex s packingKey with
      | none => simp [update_of_unkeyed rows hi] at hp
      | some i =>
        cases hacc : acc.poisoned with
        | true => simp [update_of_poisoned rows hacc, hacc] at hp
        | false =>
          rw [update_of_keyed rows hi hacc, insertKeys_of_neg ⟨v, hv, hneg⟩] at hp
          cases hp

theorem finish_of_poisoned (codec : KeyCodec) (h : acc.poisoned = true) :
    acc.finish codec = none := if_pos (.inl h)

/-- What comes of the slices: the keys, if all can be represented. -/
theorem finish_updates (codec : KeyCodec) (slices : List (List (Row s))) (packingKey : String) :
    (empty.updates slices packingKey).finish codec =
      if ∃ v ∈ packingKeys slices.flatten packingKey, v.val < 0 then none
      else finish codec ⟨keySet (packingKeys slices.flatten packingKey), false⟩ := by
  split
  · rename_i hneg
    exact finish_of_poisoned codec (updates_of_neg hneg)
  · rename_i hnonneg
    push Not at hnonneg
    cases hi : keyIndex s packingKey with
    | some i =>
      have hkeys : empty.updates slices packingKey =
          ⟨∅ ∪ keySet (packingKeys slices.flatten packingKey), false⟩ :=
        updates_of_nonneg hi rfl hnonneg
      rw [hkeys, Finset.empty_union]
    | none =>
      have hkeys : packingKeys slices.flatten packingKey = [] := by rw [packingKeys, hi]
      rw [hkeys]
      refine Eq.trans ?_ (show none = _ from (if_pos (.inr rfl)).symm)
      cases slices with
      | nil => exact if_pos (.inr rfl)
      | cons rows slices =>
        refine finish_of_poisoned codec ?_
        rw [updates, List.foldl_cons, ← updates,
          updates_of_poisoned slices (update_of_unkeyed rows hi)]
        exact update_of_unkeyed rows hi

end KeyBitmapAccumulator

/-- The one-shot form is that of a single slice. -/
theorem keyBitmap_eq (codec : KeyCodec) {s : Schema} (rows : List (Row s)) (packingKey : String) :
    keyBitmap codec rows packingKey =
      if ∃ v ∈ packingKeys rows packingKey, v.val < 0 then none
      else KeyBitmapAccumulator.finish codec ⟨keySet (packingKeys rows packingKey), false⟩ := by
  have h := KeyBitmapAccumulator.finish_updates codec [rows] packingKey
  rwa [List.flatten_singleton] at h

theorem mem_keySet {vs : List I64} (h : ∀ v ∈ vs, 0 ≤ v.val) {key : I64} (hkey : 0 ≤ key.val) :
    key.val.toNat ∈ keySet vs ↔ key ∈ vs := by
  simp only [keySet, List.mem_toFinset, List.mem_map]
  constructor
  · rintro ⟨v, hv, heq⟩
    have := h v hv
    have hval : v.val = key.val := by omega
    exact Subtype.ext hval ▸ hv
  · exact fun hmem => ⟨key, hmem, rfl⟩

theorem card_keySet {vs : List I64} (h : ∀ v ∈ vs, 0 ≤ v.val) :
    (keySet vs).card = vs.toFinset.card := by
  have himage : keySet vs = vs.toFinset.image fun v => v.val.toNat := by
    ext n
    simp [keySet]
  rw [himage]
  refine Finset.card_image_of_injOn fun v hv w hw heq => ?_
  have hnonneg := h v (List.mem_toFinset.mp hv)
  have hnonneg' := h w (List.mem_toFinset.mp hw)
  have hval : v.val = w.val := by
    have hnat : v.val.toNat = w.val.toNat := heq
    omega
  exact Subtype.ext hval

theorem packingKeys_of_slice {s : Schema} {slices : List (List (Row s))} {rows : List (Row s)}
    (hrows : rows ∈ slices) {packingKey : String} {v : I64} (hv : v ∈ packingKeys rows packingKey) :
    v ∈ packingKeys slices.flatten packingKey := by
  obtain ⟨before, after, rfl⟩ := List.append_of_mem hrows
  rw [List.flatten_append, List.flatten_cons, packingKeys_append, packingKeys_append]
  exact List.mem_append_right _ (List.mem_append_left _ hv)

/-- A negative key, or too many keys: nothing is written. -/
theorem keyBitmap_none (codec : KeyCodec) {s : Schema} {rows : List (Row s)} {packingKey : String}
    (h : (∃ v ∈ packingKeys rows packingKey, v.val < 0) ∨
      maxBitmapKeys < (packingKeys rows packingKey).toFinset.card) :
    keyBitmap codec rows packingKey = none := by
  rw [keyBitmap_eq]
  split
  · rfl
  · rename_i hnonneg
    have hcap := h.resolve_left hnonneg
    push Not at hnonneg
    rw [← card_keySet hnonneg] at hcap
    unfold KeyBitmapAccumulator.finish
    split
    · rfl
    · rfl

/-- A bitmap that is there has every key and no other. -/
theorem keyBitmap_some {codec : KeyCodec} {s : Schema} {rows : List (Row s)} {packingKey : String}
    {encoded : String} (h : keyBitmap codec rows packingKey = some encoded) :
    (∀ v ∈ packingKeys rows packingKey, 0 ≤ v.val) ∧
      encoded = codec.encode (keySet (packingKeys rows packingKey)) := by
  rw [keyBitmap_eq] at h
  split at h
  · cases h
  · rename_i hnonneg
    push Not at hnonneg
    refine ⟨hnonneg, ?_⟩
    unfold KeyBitmapAccumulator.finish at h
    split at h
    · cases h
    · split at h
      · cases h
      · exact (Option.some.inj h).symm

theorem bitmapContains_keyBitmap {codec : KeyCodec} {s : Schema} {rows : List (Row s)}
    {packingKey encoded : String} (h : keyBitmap codec rows packingKey = some encoded) (key : I64) :
    (bitmapContains codec encoded key = some true ↔ key ∈ packingKeys rows packingKey) ∧
    (bitmapContains codec encoded key = some false ↔
      0 ≤ key.val ∧ key ∉ packingKeys rows packingKey) := by
  obtain ⟨hnonneg, rfl⟩ := keyBitmap_some h
  unfold bitmapContains
  by_cases hkey : key.val < 0
  · have hno : key ∉ packingKeys rows packingKey := fun hmem =>
      absurd hkey (not_lt.mpr (hnonneg _ hmem))
    simp [hkey, hno]
  · have hmem := mem_keySet hnonneg (not_lt.mp hkey)
    simp [hkey, codec.decode_encode, hmem, not_lt.mp hkey]

/-- **The folds and the one-shot forms.**  The bitmaps agree however the rows are cut, and none is
written for a negative key or too many keys, wherever these are; what is written answers for
exactly the keys of the rows.  The ranges agree exactly where the last column of each name spans
the others. -/
theorem folds_agree_iff (codec : KeyCodec) {s : Schema} (slices : List (List (Row s)))
    (packingKey : String) :
    ((slices.foldl Int64StatsAccumulator.update .empty).finish =
        int64ColumnStats slices.flatten ∧
      (slices.foldl (fun acc rows => acc.update rows packingKey) KeyBitmapAccumulator.empty).finish
        codec = keyBitmap codec slices.flatten packingKey ∧
      ((∃ rows ∈ slices, ∃ v ∈ packingKeys rows packingKey, v.val < 0) ∨
          maxBitmapKeys < (packingKeys slices.flatten packingKey).toFinset.card →
        keyBitmap codec slices.flatten packingKey = none) ∧
      (∀ encoded, keyBitmap codec slices.flatten packingKey = some encoded → ∀ key,
        (bitmapContains codec encoded key = some true ↔
          key ∈ packingKeys slices.flatten packingKey) ∧
        (bitmapContains codec encoded key = some false ↔
          0 ≤ key.val ∧ key ∉ packingKeys slices.flatten packingKey))) ↔
    LastSpans slices.flatten := by
  rw [finish_eq_int64ColumnStats_iff]
  refine and_iff_left ⟨?_, ?_, fun encoded h key => bitmapContains_keyBitmap h key⟩
  · rw [keyBitmap_eq]
    exact KeyBitmapAccumulator.finish_updates codec slices packingKey
  · rintro (⟨rows, hrows, v, hv, hneg⟩ | hcap)
    · exact keyBitmap_none codec (.inl ⟨v, packingKeys_of_slice hrows hv, hneg⟩)
    · exact keyBitmap_none codec (.inr hcap)

/-- A row of two columns of one name, which `RecordBatch::try_new` admits. -/
def twinRow : Row [⟨"x", .int64, false, none⟩, ⟨"x", .int64, false, none⟩] :=
  ⟨[.int64 ⟨1, by decide⟩, .int64 ⟨5, by decide⟩], by decide⟩

/-- One slice is enough: the fold has `1..5` under the name, the one-shot form `5..5`. -/
theorem twin_columns_disagree :
    ([[twinRow]].foldl Int64StatsAccumulator.update .empty).finish ≠
      int64ColumnStats [[twinRow]].flatten := by
  decide

end Ukiel
