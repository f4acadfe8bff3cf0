/-
# What is recorded of a part's rows

The column statistics of a part, read back: the range of each `Int64` column under its name, the
set of the packing keys (`bitmap_keys`), the filter the catalog makes of it when the part is
inserted (`key_filter` of `ukiel-catalog/src/commit.rs`), and the key spans of the row groups.

A writer has the ranges from `int64ColumnStats` or from an `Int64StatsAccumulator`.  Either way
what is under a name is exact when the `Int64` columns of that name have one range
(`StatsOf.rangesExact_iff`), and the index has the keys of the rows and no other
(`StatsOf.keyIndexExact`).  Where a column has the name of an entry of the index, one of the two is
not there, and the other is what it should be (`StatsOf.rangesSound`, `StatsOf.keyIndexSound`).
-/
import Ukiel.Core.Stats
import Ukiel.Core.KeyFilter

namespace Ukiel

/-! ## 1. Reading them -/

/-- `column_stats.get(name)`. -/
def statsEntry (columnStats : Option Json) (name : String) : Option Json :=
  columnStats.bind fun stats => stats.get? name

/-- `bitmap_keys`. -/
def bitmapKeys (codec : KeyCodec) (encoded : String) : Option (List I64) :=
  (codec.decode encoded).bind fun keys => keys.sort.mapM fun k : Nat =>
    if h : (k : Int) ∈ I64 then some ⟨k, h⟩ else none

/-- `key_filter`, of the column statistics of a part. -/
def keyFilter (codec : KeyCodec) (columnStats : Option Json) :
    Except KeyFilter.Failure (Option (List UInt8)) :=
  match ((statsEntry columnStats packingKeysStat).bind Json.asStr?).bind (bitmapKeys codec) with
  | none => .ok none
  | some keys => KeyFilter.build (keys.map Subtype.val)

/-- No column is named like an entry of the index. -/
def Unreserved (s : Schema) : Prop :=
  ∀ f ∈ s, f.name ≠ packingKeysStat ∧ f.name ≠ keyRowGroupsStat

/-- Every `Int64` column has the range of its values under its name, or nothing if it has none. -/
def RangesExact (columnStats : Option Json) {s : Schema} (rows : List (Row s)) : Prop :=
  ∀ i f, s[i]? = some f → f.dataType = .int64 → ∃ range, IsRange (columnValues i rows) range ∧
    statsEntry columnStats f.name = range.map rangeJson

/-- The `Int64` columns of one name have one range. -/
def TwinsAlike {s : Schema} (rows : List (Row s)) : Prop :=
  ∀ i j f g, s[i]? = some f → s[j]? = some g → f.dataType = .int64 → g.dataType = .int64 →
    f.name = g.name → columnRange i rows = columnRange j rows

/-- One entry of `key_row_groups`. -/
def spanJson (range : I64 × I64) : Json := .arr [.num (.int range.1.val), .num (.int range.2.val)]

/-- The packing keys of some rows, as a set. -/
def keysOf {s : Schema} (rows : List (Row s)) (packingKey : String) : Set I64 :=
  {v | v ∈ packingKeys rows packingKey}

/-- **The index is exact**, as far as there is one: the bitmap has the keys of the file and no
other, the i-th span is that of the i-th row group, and the filter denies no key. -/
structure KeyIndexExact (codec : KeyCodec) (packingKey : String) (columnStats : Option Json)
    {s : Schema} (groups : List (List (Row s))) : Prop where
  bitmap : ∀ entry, statsEntry columnStats packingKeysStat = some entry → ∃ text keys,
    entry = .str text ∧ bitmapKeys codec text = some keys ∧
      ∀ v, v ∈ keys ↔ v ∈ keysOf groups.flatten packingKey
  spans : ∀ entry, statsEntry columnStats keyRowGroupsStat = some entry → ∃ ranges,
    entry = .arr (ranges.map spanJson) ∧
      List.Forall₂ (fun range group => IsRange (keysOf group packingKey) (some range)) ranges groups
  filter : ∃ built, keyFilter codec columnStats = .ok built ∧
    ∀ v ∈ keysOf groups.flatten packingKey, ∀ hypertable : HypertableId,
      KeyFilter.sqlKeeps built hypertable v.val = .ok true ∧
        KeyFilter.rustKeeps built v.val = .ok true

/-- The key index stands under the name: a bitmap's text, or the list of the spans. -/
def indexed (columnStats : Option Json) (name : String) : Bool :=
  match statsEntry columnStats name with
  | some (.str _) => true
  | some (.arr _) => true
  | _ => false

/-- `RangesExact`, but for the columns under whose names the index stands. -/
def RangesSound (columnStats : Option Json) {s : Schema} (rows : List (Row s)) : Prop :=
  ∀ i f, s[i]? = some f → f.dataType = .int64 → indexed columnStats f.name = false →
    ∃ range, IsRange (columnValues i rows) range ∧
      statsEntry columnStats f.name = range.map rangeJson

/-- `KeyIndexExact`, of the entries that are an index: the range of a column may stand there. -/
structure KeyIndexSound (codec : KeyCodec) (packingKey : String) (columnStats : Option Json)
    {s : Schema} (groups : List (List (Row s))) : Prop where
  bitmap : ∀ text, statsEntry columnStats packingKeysStat = some (.str text) → ∃ keys,
    bitmapKeys codec text = some keys ∧ ∀ v, v ∈ keys ↔ v ∈ keysOf groups.flatten packingKey
  spans : ∀ entries, statsEntry columnStats keyRowGroupsStat = some (.arr entries) → ∃ ranges,
    entries = ranges.map spanJson ∧
      List.Forall₂ (fun range group => IsRange (keysOf group packingKey) (some range)) ranges groups
  filter : ∃ built, keyFilter codec columnStats = .ok built ∧
    ∀ v ∈ keysOf groups.flatten packingKey, ∀ hypertable : HypertableId,
      KeyFilter.sqlKeeps built hypertable v.val = .ok true ∧
        KeyFilter.rustKeeps built v.val = .ok true

/-! ## 2. The entries of the object -/

section Entries

variable {kvs : List (String × Json)} {bitmap : Option String} {spans : Option Json}

theorem statsEntry_objectOf (name : String) :
    statsEntry (objectOf kvs) name = kvs.lookup name := by
  unfold statsEntry objectOf
  split
  · rename_i h
    rw [h]
    rfl
  · rfl

/-- The entries after the index has been folded in. -/
theorem statsEntry_withKeyIndex (name : String) :
    statsEntry (withKeyIndex (objectOf kvs) bitmap spans) name =
      if name = keyRowGroupsStat ∧ spans ≠ none then spans
      else if name = packingKeysStat ∧ bitmap ≠ none then bitmap.map .str
      else kvs.lookup name := by
  unfold withKeyIndex
  split
  · rename_i hnone
    rw [statsEntry_objectOf, hnone.1, hnone.2]
    simp
  · have hobject : objectOf kvs = none ∧ kvs = [] ∨ objectOf kvs = some (.obj kvs) := by
      unfold objectOf
      split
      · rename_i h
        exact Or.inl ⟨rfl, h⟩
      · exact Or.inr rfl
    rcases hobject with ⟨h, rfl⟩ | h
    all_goals
      rw [h]
      cases spans <;> cases bitmap <;> simp [statsEntry, Json.get?, Json.lookup_insertEntry]

theorem statsEntry_packingKeys (h : kvs.lookup packingKeysStat = none) :
    statsEntry (withKeyIndex (objectOf kvs) bitmap spans) packingKeysStat = bitmap.map .str := by
  rw [statsEntry_withKeyIndex, if_neg (fun hc => absurd hc.1 (by decide)), h]
  cases bitmap <;> simp

theorem statsEntry_keyRowGroups (h : kvs.lookup keyRowGroupsStat = none) :
    statsEntry (withKeyIndex (objectOf kvs) bitmap spans) keyRowGroupsStat = spans := by
  rw [statsEntry_withKeyIndex, h, if_neg (fun hc => absurd hc.1 (by decide) :
    ¬ (keyRowGroupsStat = packingKeysStat ∧ bitmap ≠ none))]
  cases spans <;> simp

theorem statsEntry_column {name : String} (h : name ≠ packingKeysStat ∧ name ≠ keyRowGroupsStat) :
    statsEntry (withKeyIndex (objectOf kvs) bitmap spans) name = kvs.lookup name := by
  rw [statsEntry_withKeyIndex, if_neg fun hc => h.2 hc.1, if_neg fun hc => h.1 hc.1]

end Entries

/-! ## 3. The ranges -/

section Ranges

variable {s : Schema} {rows : List (Row s)} {ranges : List (String × (I64 × I64))}

/-- **The ranges of some rows**, by name: where the `Int64` columns of a name agree on one, it is
that one. -/
structure RangesOf (rows : List (Row s)) (ranges : List (String × (I64 × I64))) : Prop where
  agreed : ∀ i f, s[i]? = some f → f.dataType = .int64 →
    (∀ j g, s[j]? = some g → g.dataType = .int64 → g.name = f.name →
      columnRange j rows = columnRange i rows) →
    ranges.reverse.lookup f.name = columnRange i rows
  unknown : ∀ name, (∀ f ∈ s, f.name ≠ name) → ranges.reverse.lookup name = none

theorem int64_of_columnRange {i : Nat} {range : I64 × I64} (h : columnRange i rows = some range) :
    ∃ f, s[i]? = some f ∧ f.dataType = .int64 := by
  have hmin := columnRange_isRange i rows
  rw [h] at hmin
  exact Option.map_eq_some_iff.mp hmin.1.1.1

theorem rangesOf_columnRanges : RangesOf rows (columnRanges rows) := by
  constructor
  · intro i f hf htype hagree
    cases hlook : (columnRanges rows).reverse.lookup f.name with
    | some range =>
      obtain ⟨⟨g, j⟩, hg, hname, hcol⟩ :=
        mem_columnRanges.mp (List.mem_reverse.mp (mem_of_lookup hlook))
      have hg' : s[j]? = some g := List.mem_zipIdx_iff_getElem?.mp hg
      obtain ⟨_, hsome, hint⟩ := int64_of_columnRange hcol
      rw [hg', Option.some.injEq] at hsome
      rw [← hagree j g hg' (hsome ▸ hint) hname]
      exact hcol.symm
    | none =>
      cases hcol : columnRange i rows with
      | none => rfl
      | some range =>
        have hmem : (f.name, range) ∈ columnRanges rows :=
          mem_columnRanges.mpr ⟨(f, i), List.mem_zipIdx_iff_getElem?.mpr hf, rfl, hcol⟩
        have hno := List.lookup_eq_none_iff.mp hlook _ (List.mem_reverse.mpr hmem)
        exact absurd rfl (bne_iff_ne.mp hno)
  · intro name hname
    refine List.lookup_eq_none_iff.mpr fun e he => ?_
    obtain ⟨f, hf, hfe, -⟩ := mem_columnRanges.mp (List.mem_reverse.mp he)
    exact bne_iff_ne.mpr fun heq => hname f.1 (List.fst_mem_of_mem_zipIdx hf) (hfe.trans heq.symm)

theorem mem_namedValues {name : String} {v : I64} :
    v ∈ namedValues name rows ↔
      ∃ i f, s[i]? = some f ∧ f.dataType = .int64 ∧ f.name = name ∧ v ∈ columnValues i rows := by
  constructor
  · rintro ⟨⟨f, i⟩, hf, hname, hv⟩
    have hf' : s[i]? = some f := List.mem_zipIdx_iff_getElem?.mp hf
    obtain ⟨g, hg, htype⟩ := Option.map_eq_some_iff.mp hv.1
    rw [hf', Option.some.injEq] at hg
    exact ⟨i, f, hf', hg ▸ htype, hname, hv⟩
  · rintro ⟨i, f, hf, -, hname, hv⟩
    exact ⟨(f, i), List.mem_zipIdx_iff_getElem?.mpr hf, hname, hv⟩

/-- What was folded from the slices of the rows. -/
theorem rangesOf_folded {acc : Int64StatsAccumulator}
    (h : acc.Folded fun name => namedValues name rows) : RangesOf rows acc.ranges := by
  constructor
  · intro i f hf htype hagree
    rw [h.lookup_ranges]
    refine (h.range f.name).unique ?_
    have hrange := columnRange_isRange i rows
    have hall : ∀ {v}, v ∈ namedValues f.name rows → ∃ j, columnRange j rows = columnRange i rows ∧
        v ∈ columnValues j rows := by
      intro v hv
      obtain ⟨j, g, hg, htype', hname, hv⟩ := mem_namedValues.mp hv
      exact ⟨j, hagree j g hg htype' hname, hv⟩
    have hown : ∀ {v}, v ∈ columnValues i rows → v ∈ namedValues f.name rows :=
      fun hv => mem_namedValues.mpr ⟨i, f, hf, htype, rfl, hv⟩
    cases hcol : columnRange i rows with
    | none =>
      refine Set.eq_empty_iff_forall_notMem.mpr fun v hv => ?_
      obtain ⟨j, hj, hv⟩ := hall hv
      have hempty := columnRange_isRange j rows
      rw [hj, hcol] at hempty
      exact (hempty ▸ hv : v ∈ (∅ : Set I64))
    | some range =>
      rw [hcol] at hrange
      have hbounds : ∀ {v}, v ∈ namedValues f.name rows → range.1 ≤ v ∧ v ≤ range.2 := by
        intro v hv
        obtain ⟨j, hj, hv⟩ := hall hv
        have hrange' := columnRange_isRange j rows
        rw [hj, hcol] at hrange'
        exact ⟨hrange'.1.2 hv, hrange'.2.2 hv⟩
      exact ⟨⟨hown hrange.1.1, fun v hv => (hbounds hv).1⟩, hown hrange.2.1,
        fun v hv => (hbounds hv).2⟩
  · intro name hname
    rw [h.lookup_ranges]
    have hrange := h.range name
    cases hstats : acc.stats name with
    | none => rfl
    | some range =>
      rw [hstats] at hrange
      obtain ⟨i, f, hf, -, hfn, -⟩ := mem_namedValues.mp hrange.1.1
      exact absurd hfn (hname f (List.mem_of_getElem? hf))

end Ranges

/-! ## 4. The index -/

section Index

variable {codec : KeyCodec} {s : Schema} {packingKey : String}

/-- The keys in the bitmap are those of the rows. -/
theorem bitmapKeys_keyBitmap {rows : List (Row s)} {text : String}
    (h : keyBitmap codec rows packingKey = some text) :
    ∃ keys, bitmapKeys codec text = some keys ∧ ∀ v, v ∈ keys ↔ v ∈ keysOf rows packingKey := by
  obtain ⟨hnonneg, rfl⟩ := keyBitmap_some h
  unfold bitmapKeys
  rw [codec.decode_encode, Option.bind_some]
  -- every number in the set is that of a key
  have hkey : ∀ k ∈ (keySet (packingKeys rows packingKey)).sort, ∃ v : I64,
      (if h : (k : Int) ∈ I64 then some (⟨k, h⟩ : I64) else none) = some v := by
    intro k hk
    obtain ⟨v, hv, rfl⟩ := List.mem_map.mp (List.mem_toFinset.mp ((Finset.mem_sort _).mp hk))
    have hval : ((v.val.toNat : Nat) : Int) = v.val := Int.toNat_of_nonneg (hnonneg v hv)
    exact ⟨v, by rw [dif_pos (hval ▸ v.property)]; exact congrArg some (Subtype.ext hval)⟩
  obtain ⟨keys, hkeys⟩ := List.exists_forall₂ hkey
  refine ⟨keys, List.mapM_eq_some_iff.mpr hkeys, fun v => ?_⟩
  have hnum : ∀ {k : Nat} {w : I64},
      (if h : (k : Int) ∈ I64 then some (⟨k, h⟩ : I64) else none) = some w → (k : Int) = w.val := by
    intro k w hw
    split at hw
    · cases hw
      rfl
    · cases hw
  constructor
  · intro hv
    obtain ⟨k, hk, hkv⟩ := hkeys.flip.exists_of_mem hv
    have hval := hnum hkv
    refine (mem_keySet hnonneg (hval ▸ Int.natCast_nonneg k)).mp ?_
    rw [← hval, Int.toNat_natCast]
    exact (Finset.mem_sort _).mp hk
  · intro hv
    have hmem := (mem_keySet hnonneg (hnonneg v hv)).mpr hv
    obtain ⟨w, hw, hkw⟩ := hkeys.exists_of_mem ((Finset.mem_sort (· ≤ ·)).mpr hmem)
    have hval := hnum hkw
    rw [Int.toNat_of_nonneg (hnonneg v hv)] at hval
    exact Subtype.ext hval ▸ hw

/-- The values of the packing key's column are the keys. -/
theorem columnValues_eq_keysOf {i : Nat} (hi : s.indexOf packingKey = some i)
    (htype : s[i]?.map Field.dataType = some .int64) (rows : List (Row s)) :
    columnValues i rows = keysOf rows packingKey := by
  have hindex : keyIndex s packingKey = some i := by
    rw [keyIndex, hi, Option.filter_some_pos (by simpa using htype)]
  ext v
  simp only [columnValues, keysOf, packingKeys, hindex, Set.mem_ofPred_eq,
    List.reduceOption_mem_iff]
  exact ⟨fun h => h.2, fun h => ⟨htype, h⟩⟩

/-- The spans are those of the row groups, one for each. -/
theorem keyRowGroups_eq_some {groups : List (List (Row s))} {spans : Json}
    (h : keyRowGroups groups packingKey = some spans) :
    ∃ ranges, spans = .arr (ranges.map spanJson) ∧ List.Forall₂ (fun range group =>
      IsRange (keysOf group packingKey) (some range)) ranges groups := by
  unfold keyRowGroups at h
  split at h
  · cases h
  · obtain ⟨entries, hentries, rfl⟩ := Option.map_eq_some_iff.mp h
    have hall : List.Forall₂ (fun group entry => ∃ range,
        IsRange (keysOf group packingKey) (some range) ∧ entry = spanJson range) groups entries := by
      refine (List.mapM_eq_some_iff.mp hentries).imp fun group entry hentry => ?_
      obtain ⟨i, hi, hentry⟩ := Option.bind_eq_some_iff.mp hentry
      obtain ⟨range, hrange, hentry⟩ := Option.bind_eq_some_iff.mp hentry
      cases hentry
      obtain ⟨f, hf, htype⟩ := int64_of_columnRange hrange
      refine ⟨range, ?_, rfl⟩
      rw [← columnValues_eq_keysOf hi (by rw [hf]; exact congrArg some htype), ← hrange]
      exact columnRange_isRange i group
    obtain ⟨ranges, rfl, hranges⟩ := hall.exists_map_right
    exact ⟨ranges, rfl, hranges⟩

end Index

/-! ## 5. What a writer records -/

section Writers

variable {codec : KeyCodec} {s : Schema} {packingKey : String} {columnStats : Option Json}
  {groups : List (List (Row s))}

/-- **The column statistics of a file**: ranges of its rows, and as much of the index as the
writer cares to write. -/
structure StatsOf (codec : KeyCodec) (packingKey : String) (columnStats : Option Json)
    (groups : List (List (Row s))) (ranges : List (String × (I64 × I64))) (bitmap : Option String)
    (spans : Option Json) : Prop where
  rangesOf : RangesOf groups.flatten ranges
  eq : columnStats = withKeyIndex (objectOf (rangeEntries ranges)) bitmap spans
  bitmapOf : bitmap = none ∨ bitmap = keyBitmap codec groups.flatten packingKey
  spansOf : spans = none ∨ spans = keyRowGroups groups packingKey

variable {ranges : List (String × (I64 × I64))} {bitmap : Option String} {spans : Option Json}

/-- What stands under a name: an entry of the index, or the range of the columns of the name. -/
theorem StatsOf.entry (h : StatsOf codec packingKey columnStats groups ranges bitmap spans)
    (name : String) :
    statsEntry columnStats name = if name = keyRowGroupsStat ∧ spans ≠ none then spans
      else if name = packingKeysStat ∧ bitmap ≠ none then bitmap.map .str
      else (ranges.reverse.lookup name).map rangeJson := by
  rw [h.eq, statsEntry_withKeyIndex, lookup_rangeEntries]

/-- Under any other name stands no index. -/
theorem StatsOf.indexed_eq_false
    (h : StatsOf codec packingKey columnStats groups ranges bitmap spans) {name : String}
    (hname : name ≠ packingKeysStat ∧ name ≠ keyRowGroupsStat) :
    indexed columnStats name = false := by
  rw [indexed, h.entry, if_neg fun hc => hname.2 hc.1, if_neg fun hc => hname.1 hc.1]
  cases ranges.reverse.lookup name <;> rfl

/-- A text is the bitmap's. -/
theorem StatsOf.bitmap_eq (h : StatsOf codec packingKey columnStats groups ranges bitmap spans)
    {text : String} (htext : statsEntry columnStats packingKeysStat = some (.str text)) :
    bitmap = some text := by
  rw [h.entry, if_neg fun hc => absurd hc.1 (by decide)] at htext
  split at htext
  · obtain ⟨_, hsome, ⟨⟩⟩ := Option.map_eq_some_iff.mp htext
    exact hsome
  · obtain ⟨range, -, hrange⟩ := Option.map_eq_some_iff.mp htext
    cases hrange

/-- A list is that of the spans. -/
theorem StatsOf.spans_eq (h : StatsOf codec packingKey columnStats groups ranges bitmap spans)
    {entries : List Json} (hlist : statsEntry columnStats keyRowGroupsStat = some (.arr entries)) :
    spans = some (.arr entries) := by
  rw [h.entry] at hlist
  split at hlist
  · exact hlist
  · rw [if_neg fun hc => absurd hc.1 (by decide)] at hlist
    obtain ⟨range, -, hrange⟩ := Option.map_eq_some_iff.mp hlist
    cases hrange

theorem StatsOf.keyIndexSound
    (h : StatsOf codec packingKey columnStats groups ranges bitmap spans) :
    KeyIndexSound codec packingKey columnStats groups := by
  have htext : ∀ text, bitmap = some text → ∃ keys, bitmapKeys codec text = some keys ∧
      ∀ v, v ∈ keys ↔ v ∈ keysOf groups.flatten packingKey := by
    intro text hsome
    rcases h.bitmapOf with hnone | hsame
    · cases hnone.symm.trans hsome
    · exact bitmapKeys_keyBitmap (hsame.symm.trans hsome)
  refine ⟨fun text hentry => htext text (h.bitmap_eq hentry), fun entries hentry => ?_, ?_⟩
  · rcases h.spansOf with hnone | hsame
    · cases hnone.symm.trans (h.spans_eq hentry)
    · obtain ⟨ranges, ⟨⟩, hranges⟩ := keyRowGroups_eq_some (hsame.symm.trans (h.spans_eq hentry))
      exact ⟨ranges, rfl, hranges⟩
  · cases hentry : (statsEntry columnStats packingKeysStat).bind Json.asStr? with
    | none =>
      -- as of a single key
      refine ⟨none, by rw [keyFilter, hentry]; rfl, fun v _ hypertable => ?_⟩
      exact @KeyFilter.keeps_of_build [v.val] none rfl v.val List.mem_cons_self hypertable
    | some text =>
      obtain ⟨entry, hsome, hstr⟩ := Option.bind_eq_some_iff.mp hentry
      obtain rfl : entry = .str text := by
        cases entry <;> simp_all [Json.asStr?]
      obtain ⟨keys, hdecoded, hmem⟩ := htext text (h.bitmap_eq hsome)
      obtain ⟨built, hbuilt, -⟩ := KeyFilter.build_eq_ok (keys.map Subtype.val)
      refine ⟨built, ?_, fun v hv hypertable =>
        KeyFilter.keeps_of_build hbuilt (List.mem_map_of_mem ((hmem v).mpr hv)) hypertable⟩
      rw [keyFilter, hentry, Option.bind_some, hdecoded]
      exact hbuilt

/-- **A range that is there is exact** where the columns of each name agree. -/
theorem StatsOf.rangesSound (h : StatsOf codec packingKey columnStats groups ranges bitmap spans)
    (halike : TwinsAlike groups.flatten) : RangesSound columnStats groups.flatten := by
  intro i f hf htype hplain
  refine ⟨_, columnRange_isRange i _, ?_⟩
  rw [← h.rangesOf.agreed i f hf htype fun j g hg htype' hname =>
    halike j i g f hg hf htype' htype hname]
  have hentry := h.entry f.name
  unfold indexed at hplain
  split at hentry
  · -- the spans are a list
    rename_i hspans
    rcases h.spansOf with hnone | hsame
    · exact absurd hnone hspans.2
    · obtain ⟨span, hspan⟩ := Option.ne_none_iff_exists'.mp hspans.2
      obtain ⟨_, rfl, -⟩ := keyRowGroups_eq_some (hsame.symm.trans hspan)
      rw [hentry, hspan] at hplain
      cases hplain
  split at hentry
  · rename_i hbitmap
    obtain ⟨text, htext⟩ := Option.ne_none_iff_exists'.mp hbitmap.2
    rw [hentry, htext] at hplain
    cases hplain
  · exact hentry

/-- **The ranges are exact** where the columns of each name agree, and nowhere else. -/
theorem StatsOf.rangesExact_iff (h : StatsOf codec packingKey columnStats groups ranges bitmap spans)
    (hfree : Unreserved s) : RangesExact columnStats groups.flatten ↔ TwinsAlike groups.flatten := by
  have hentry : ∀ f ∈ s, statsEntry columnStats f.name =
      (ranges.reverse.lookup f.name).map rangeJson := fun f hf => by
    rw [h.eq, statsEntry_column (hfree f hf), lookup_rangeEntries]
  constructor
  · intro hexact i j f g hf hg htf htg hname
    obtain ⟨r, hr, hfr⟩ := hexact i f hf htf
    obtain ⟨r', hr', hgr⟩ := hexact j g hg htg
    rw [hname, hgr] at hfr
    have hrr : r' = r := Option.map_injective rangeJson_injective hfr
    rw [(columnRange_isRange i _).unique hr, (columnRange_isRange j _).unique hr', hrr]
  · intro halike i f hf htype
    refine ⟨_, columnRange_isRange i _, ?_⟩
    rw [hentry f (List.mem_of_getElem? hf), h.rangesOf.agreed i f hf htype fun j g hg htype' hname =>
      halike j i g f hg hf htype' htype hname]

/-- **The index is exact**, whether both its entries are written or not. -/
theorem StatsOf.keyIndexExact (h : StatsOf codec packingKey columnStats groups ranges bitmap spans)
    (hfree : Unreserved s) : KeyIndexExact codec packingKey columnStats groups := by
  have hkeys : statsEntry columnStats packingKeysStat = bitmap.map .str := by
    rw [h.eq]
    refine statsEntry_packingKeys ?_
    rw [lookup_rangeEntries, h.rangesOf.unknown _ fun f hf => (hfree f hf).1]
    rfl
  have hgroups : statsEntry columnStats keyRowGroupsStat = spans := by
    rw [h.eq]
    refine statsEntry_keyRowGroups ?_
    rw [lookup_rangeEntries, h.rangesOf.unknown _ fun f hf => (hfree f hf).2]
    rfl
  refine ⟨fun entry hentry => ?_, fun entry hentry => ?_, h.keyIndexSound.filter⟩
  · obtain ⟨text, -, rfl⟩ := Option.map_eq_some_iff.mp (hkeys ▸ hentry)
    obtain ⟨keys, hdecoded, hmem⟩ := h.keyIndexSound.bitmap text hentry
    exact ⟨text, keys, rfl, hdecoded, hmem⟩
  · rw [hgroups] at hentry
    rcases h.spansOf with hnone | hsame
    · cases hnone.symm.trans hentry
    · exact keyRowGroups_eq_some (hsame.symm.trans hentry)

/-- The writers that look at all rows at once. -/
theorem statsOf_batch {rows : List (Row s)} (hrows : groups.flatten = rows)
    (hbitmap : bitmap = none ∨ bitmap = keyBitmap codec rows packingKey)
    (hspans : spans = none ∨ spans = keyRowGroups groups packingKey) :
    StatsOf codec packingKey (withKeyIndex (int64ColumnStats rows) bitmap spans) groups
      (columnRanges rows) bitmap spans := by
  subst hrows
  exact ⟨rangesOf_columnRanges, by rw [int64ColumnStats_eq], hbitmap, hspans⟩

/-- The writer that folds them slice by slice. -/
theorem statsOf_slices {slices : List (List (Row s))} (hrows : groups.flatten = slices.flatten)
    (hbitmap : bitmap = none ∨
      bitmap = (KeyBitmapAccumulator.empty.updates slices packingKey).finish codec)
    (hspans : spans = none ∨ spans = keyRowGroups groups packingKey) :
    StatsOf codec packingKey
      (withKeyIndex (slices.foldl Int64StatsAccumulator.update .empty).finish bitmap spans) groups
      (slices.foldl Int64StatsAccumulator.update .empty).ranges bitmap spans := by
  have hfolded := (Int64StatsAccumulator.Folded.empty.slices slices).of_eq fun name =>
    Set.empty_union _
  refine ⟨?_, by rw [hfolded.finish_eq], ?_, hspans⟩
  · rw [hrows]
    exact rangesOf_folded hfolded
  · rwa [hrows, keyBitmap_eq, ← KeyBitmapAccumulator.finish_updates]

end Writers

end Ukiel
