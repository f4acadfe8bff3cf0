/-
# The partitions of a write

`batchesToL0Items` sends every row to the part of its partition.  It tells partitions apart by the
text of their JSON, the catalog by JSONB equality (`Ukiel.Core.Jsonb`).

* §1 what two rows' partition values have in common: their cells (`partitionValues_eq_iff`), up to
  the sign of a zero for the catalog (`jsonbEq_partitionValues`).
* §2 the groups the loop makes, one for each text, and the parts made of them.
* §3 the rows that come in, completed.
* §4 `l0_items_iff`: the parts are of different partitions exactly when no two rows differ in
  their partition columns by the signs of zeros alone.
-/
import Ukiel.Core.Jsonb
import Ukiel.Write.Batches

namespace Ukiel.Write
open Ukiel.Expr

/-! ## 1. Partition values -/

/-- The same value, where a zero is a zero whatever its sign. -/
def SameNumber : Value → Value → Prop
  | .float64 a, .float64 b => a = b ∨ isZero a = true ∧ isZero b = true
  | v, w => v = w

/-- The JSON of a cell, if it has one. -/
def cellJson : Value → Json
  | .null => .null
  | .int64 n => .num (.int n.val)
  | .float64 bits => .num (.float bits)
  | .bool b => .bool b
  | .utf8 text => .str text

theorem partitionCell_eq_ok {name : String} {c : Value} {x : Json}
    (h : partitionCell name c = .ok x) : x = cellJson c := by
  unfold partitionCell at h
  split at h
  case h_3 =>
    split at h
    · cases h
      rfl
    · cases h
  all_goals
    cases h
    rfl

theorem cellJson_injective : Function.Injective cellJson := by
  intro c c' h
  cases c <;> cases c' <;> simp_all [cellJson, Subtype.ext_iff]

/-- **Cells of one column are the same to the catalog when they are, up to the sign of zero.** -/
theorem jsonbEq_cellJson {f : Field} {c c' : Value} (hc : f.admits c = true)
    (hc' : f.admits c' = true) :
    Json.jsonbEq (cellJson c) (cellJson c') = true ↔ SameNumber c c' := by
  cases c <;> cases c' <;>
    simp_all [cellJson, Json.jsonbEq, SameNumber, scaled_int_eq_iff, scaled_float_eq_iff,
      Field.admits, Subtype.ext_iff]

section Values

variable {s : Schema} {r r' : Row s} {names partitions : List String} {v v' : Json}
  {R : Json → Json → Prop}

/-- One round of the loop over the partition columns. -/
def putCell (r : Row s) (values : List (String × Json)) (name : String) :
    Except WriteError (List (String × Json)) :=
  match s.indexOf name with
  | none => .error .arrow
  | some i => (partitionCell name (r.cell i)).map fun v => Json.insertEntry name v values

theorem putCell_eq_ok {acc out : List (String × Json)} {name : String}
    (h : putCell r acc name = .ok out) :
    ∃ i, s.indexOf name = some i ∧ out = Json.insertEntry name (cellJson (r.cell i)) acc := by
  unfold putCell at h
  split at h
  · cases h
  · rename_i i hi
    obtain ⟨x, hc, hout⟩ := Except.bind_eq_ok_iff.mp h
    cases hout
    exact ⟨i, hi, partitionCell_eq_ok hc ▸ rfl⟩

theorem partitionValues_eq_ok (h : partitionValues partitions r = .ok v) :
    ∃ entries, partitions.foldlM (putCell r) [] = .ok entries ∧ v = .obj entries := by
  obtain ⟨entries, hfold, hv⟩ := Except.bind_eq_ok_iff.mp h
  cases hv
  exact ⟨entries, hfold, rfl⟩

/-- The loop leaves each partition column's cell under its name. -/
theorem lookup_foldlM_putCell {acc out : List (String × Json)}
    (h : names.foldlM (putCell r) acc = .ok out) :
    (∀ name ∈ names, ∃ i, s.indexOf name = some i ∧
      out.lookup name = some (cellJson (r.cell i))) ∧
    ∀ name ∉ names, out.lookup name = acc.lookup name := by
  induction names generalizing acc with
  | nil =>
    cases h
    exact ⟨fun _ hname => absurd hname List.not_mem_nil, fun _ _ => rfl⟩
  | cons name names ih =>
    obtain ⟨acc', hput, hrest⟩ := List.foldlM_cons_eq_ok_iff.mp h
    obtain ⟨hin, hout⟩ := ih hrest
    obtain ⟨i, hi, rfl⟩ := putCell_eq_ok hput
    constructor
    · intro name' hname'
      by_cases hlater : name' ∈ names
      · exact hin name' hlater
      · obtain rfl := (List.mem_cons.mp hname').resolve_right hlater
        refine ⟨i, hi, ?_⟩
        rw [hout _ hlater, Json.lookup_insertEntry, if_pos rfl]
    · intro name' hname'
      rw [List.mem_cons, not_or] at hname'
      rw [hout _ hname'.2, Json.lookup_insertEntry, if_neg hname'.1]

theorem entries_foldlM_putCell {acc acc' out out' : List (String × Json)}
    (hR : ∀ name ∈ names, ∀ i, s.indexOf name = some i →
      R (cellJson (r.cell i)) (cellJson (r'.cell i)))
    (h : names.foldlM (putCell r) acc = .ok out) (h' : names.foldlM (putCell r') acc' = .ok out')
    (hacc : Json.Entries R acc acc') : Json.Entries R out out' := by
  induction names generalizing acc acc' with
  | nil =>
    cases h
    cases h'
    exact hacc
  | cons name names ih =>
    obtain ⟨next, hput, hrest⟩ := List.foldlM_cons_eq_ok_iff.mp h
    obtain ⟨next', hput', hrest'⟩ := List.foldlM_cons_eq_ok_iff.mp h'
    refine ih (fun n hn => hR n (List.mem_cons_of_mem name hn)) hrest hrest' ?_
    obtain ⟨i, hi, rfl⟩ := putCell_eq_ok hput
    obtain ⟨j, hj, rfl⟩ := putCell_eq_ok hput'
    obtain rfl := Option.some.inj (hi.symm.trans hj)
    exact hacc.insertEntry name (hR name List.mem_cons_self i hi)

/-- **Partition values are related when the cells are.** -/
theorem partitionValues_related (R : Json → Json → Prop)
    (h : partitionValues partitions r = .ok v) (h' : partitionValues partitions r' = .ok v') :
    ∃ entries entries', v = .obj entries ∧ v' = .obj entries' ∧
      (Json.Entries R entries entries' ↔ ∀ name ∈ partitions, ∀ i, s.indexOf name = some i →
        R (cellJson (r.cell i)) (cellJson (r'.cell i))) := by
  obtain ⟨entries, hfold, rfl⟩ := partitionValues_eq_ok h
  obtain ⟨entries', hfold', rfl⟩ := partitionValues_eq_ok h'
  refine ⟨entries, entries', rfl, rfl, ?_, fun hR => entries_foldlM_putCell hR hfold hfold' .nil⟩
  intro hentries name hname i hi
  obtain ⟨j, hj, hlookup⟩ := (lookup_foldlM_putCell hfold).1 name hname
  obtain ⟨j', hj', hlookup'⟩ := (lookup_foldlM_putCell hfold').1 name hname
  obtain rfl := Option.some.inj (hi.symm.trans hj)
  obtain rfl := Option.some.inj (hi.symm.trans hj')
  exact hentries.lookup hlookup hlookup'

theorem partitionValues_eq_iff (h : partitionValues partitions r = .ok v)
    (h' : partitionValues partitions r' = .ok v') :
    v = v' ↔ ∀ name ∈ partitions, ∀ i, s.indexOf name = some i → r.cell i = r'.cell i := by
  obtain ⟨entries, entries', rfl, rfl, hiff⟩ := partitionValues_related Eq h h'
  rw [Json.obj.injEq, ← Json.entries_eq_iff, hiff]
  simp only [cellJson_injective.eq_iff]

theorem jsonbEq_partitionValues (h : partitionValues partitions r = .ok v)
    (h' : partitionValues partitions r' = .ok v') :
    Json.jsonbEq v v' = true ↔
      ∀ name ∈ partitions, ∀ i, s.indexOf name = some i → SameNumber (r.cell i) (r'.cell i) := by
  obtain ⟨entries, entries', rfl, rfl, hiff⟩ :=
    partitionValues_related (fun x y => Json.jsonbEq x y = true) h h'
  rw [Json.jsonbEq, Json.jsonbEqObj_iff, hiff]
  refine forall₂_congr fun name hname => forall₂_congr fun i hi => ?_
  obtain ⟨f, hf, -⟩ := Schema.indexOf_eq_some.mp hi
  exact jsonbEq_cellJson (r.admits hf) (r'.admits hf)

end Values

/-! ## 2. Groups and parts -/

section Groups

variable {ρ : Type} {key : String} {value : Json} {x : ρ} {groups : List (String × Json × List ρ)}

/-- The rows of all groups. -/
def groupedRows (groups : List (String × Json × List ρ)) : List ρ := groups.flatMap fun g => g.2.2

theorem pushGroup_perm (key : String) (value : Json) (x : ρ)
    (groups : List (String × Json × List ρ)) :
    (groupedRows (pushGroup key value x groups)).Perm (groupedRows groups ++ [x]) := by
  induction groups with
  | nil => exact List.Perm.refl _
  | cons g groups ih =>
    obtain ⟨k, v, rows⟩ := g
    rw [pushGroup]
    split
    · show (rows ++ [x] ++ groupedRows groups).Perm (rows ++ groupedRows groups ++ [x])
      rw [List.append_assoc, List.append_assoc]
      exact List.perm_append_comm.append_left rows
    · split
      · show ([x] ++ groupedRows ((k, v, rows) :: groups)).Perm _
        exact List.perm_append_comm
      · show (rows ++ groupedRows (pushGroup key value x groups)).Perm
          (rows ++ groupedRows groups ++ [x])
        rw [List.append_assoc]
        exact ih.append_left rows

theorem mem_pushGroup {g : String × Json × List ρ} (h : g ∈ pushGroup key value x groups) :
    g ∈ groups ∨ g = (key, value, [x]) ∨
      ∃ v rows, (key, v, rows) ∈ groups ∧ g = (key, v, rows ++ [x]) := by
  induction groups with
  | nil => exact Or.inr (Or.inl (List.mem_singleton.mp h))
  | cons g' groups ih =>
    obtain ⟨k, v, rows⟩ := g'
    rw [pushGroup] at h
    split at h
    · rename_i hk
      subst hk
      rcases List.mem_cons.mp h with rfl | h
      · exact Or.inr (Or.inr ⟨v, rows, List.mem_cons_self, rfl⟩)
      · exact Or.inl (List.mem_cons_of_mem _ h)
    · split at h
      · rcases List.mem_cons.mp h with rfl | h
        · exact Or.inr (Or.inl rfl)
        · exact Or.inl h
      · rcases List.mem_cons.mp h with rfl | h
        · exact Or.inl List.mem_cons_self
        · rcases ih h with hold | hnew | ⟨v', rows', hold, rfl⟩
          · exact Or.inl (List.mem_cons_of_mem _ hold)
          · exact Or.inr (Or.inl hnew)
          · exact Or.inr (Or.inr ⟨v', rows', List.mem_cons_of_mem _ hold, rfl⟩)

theorem pushGroup_sorted (h : groups.Pairwise fun g g' => g.1 < g'.1) :
    (pushGroup key value x groups).Pairwise fun g g' => g.1 < g'.1 := by
  induction groups with
  | nil => exact List.pairwise_singleton _ _
  | cons g groups ih =>
    obtain ⟨k, v, rows⟩ := g
    obtain ⟨hfirst, hrest⟩ := List.pairwise_cons.mp h
    rw [pushGroup]
    split
    · exact List.pairwise_cons.mpr ⟨hfirst, hrest⟩
    · rename_i hne
      split
      · rename_i hlt
        refine List.pairwise_cons.mpr ⟨?_, h⟩
        intro g hg
        rcases List.mem_cons.mp hg with rfl | hg
        · exact hlt
        · exact lt_trans hlt (hfirst g hg)
      · rename_i hge
        have hlt : k < key := lt_of_le_of_ne (not_lt.mp hge) (Ne.symm hne)
        refine List.pairwise_cons.mpr ⟨?_, ih hrest⟩
        intro g hg
        rcases mem_pushGroup hg with hg | rfl | ⟨v', rows', -, rfl⟩
        · exact hfirst g hg
        · exact hlt
        · exact hlt

end Groups

section Parts

variable {s : Schema} {partitions sortKey : List String} {render : Json → String} {L : Lexsort}
  {codec : PartCodec} {packingKey : String} {rows before : List (Row s)}
  {groups out : List (String × Json × List (Row s))} {v : Json}

/-- Two rows of different partition values have different texts. -/
def RendersApart (render : Json → String) (partitions : List String) (rows : List (Row s)) : Prop :=
  ∀ r ∈ rows, ∀ r' ∈ rows, ∀ v v', partitionValues partitions r = .ok v →
    partitionValues partitions r' = .ok v' → render v = render v' → v = v'

/-- What the loop over the rows keeps: a group for each text, with the rows that have it. -/
structure Grouped (render : Json → String) (partitions : List String) (rows : List (Row s))
    (groups : List (String × Json × List (Row s))) : Prop where
  sorted : groups.Pairwise fun g g' => g.1 < g'.1
  group : ∀ g ∈ groups, g.1 = render g.2.1 ∧ g.2.2 ≠ [] ∧
    ∀ r ∈ g.2.2, partitionValues partitions r = .ok g.2.1
  perm : (groupedRows groups).Perm rows

theorem Grouped.push (hg : Grouped render partitions before groups) {r : Row s}
    (hr : partitionValues partitions r = .ok v)
    (hapart : RendersApart render partitions (before ++ [r])) :
    Grouped render partitions (before ++ [r]) (pushGroup (render v) v r groups) where
  sorted := pushGroup_sorted hg.sorted
  perm := (pushGroup_perm _ _ _ _).trans (hg.perm.append_right [r])
  group := by
    intro g hmem
    rcases mem_pushGroup hmem with hold | rfl | ⟨v', rows, hold, rfl⟩
    · exact hg.group g hold
    · refine ⟨rfl, List.cons_ne_nil _ _, fun r' hr' => ?_⟩
      rw [List.mem_singleton.mp hr']
      exact hr
    · obtain ⟨htext, hne, hvalues⟩ := hg.group _ hold
      refine ⟨htext, by simp, fun r' hr' => ?_⟩
      rcases List.mem_append.mp hr' with hin | hlast
      · exact hvalues r' hin
      · -- the group found by the text is that of the value
        obtain ⟨r₀, hr₀⟩ := List.exists_mem_of_ne_nil _ hne
        have hbefore : r₀ ∈ before :=
          hg.perm.mem_iff.mp (List.mem_flatMap.mpr ⟨_, hold, hr₀⟩)
        obtain rfl := hapart r (by simp) r₀ (by simp [hbefore]) v v' hr (hvalues r₀ hr₀) htext
        rw [List.mem_singleton.mp hlast]
        exact hr

/-- **The loop over the rows.** -/
theorem Grouped.run (hg : Grouped render partitions before groups)
    (hapart : RendersApart render partitions (before ++ rows))
    (h : rows.foldlM (fun groups r => (partitionValues partitions r).map fun value =>
      pushGroup (render value) value r groups) groups = .ok out) :
    Grouped render partitions (before ++ rows) out := by
  induction rows generalizing before groups with
  | nil =>
    cases h
    rw [List.append_nil]
    exact hg
  | cons r rows ih =>
    obtain ⟨groups', hround, hrest⟩ := List.foldlM_cons_eq_ok_iff.mp h
    obtain ⟨v, hr, hgroups'⟩ := Except.bind_eq_ok_iff.mp hround
    cases hgroups'
    rw [List.append_cons] at hapart ⊢
    refine ih (hg.push hr fun r₁ h₁ r₂ h₂ => ?_) hapart hrest
    exact hapart r₁ (List.mem_append_left _ h₁) r₂ (List.mem_append_left _ h₂)

/-- A part made of rows has them, sorted. -/
theorem finishPart_spec {part : EncodedPart}
    (h : finishPart L codec rows sortKey packingKey = .ok part) :
    part.schema = s ∧ (part.rows.map Subtype.val).Perm (rows.map Subtype.val) ∧
      ∃ columns, sortColumns part.schema sortKey = .ok columns ∧ SortedRows columns part.rows := by
  have hsorted : ∀ columns, sortColumns part.schema sortKey = .ok columns →
      SortedRows columns part.rows := fun columns hcols => finishPart_sorted h hcols
  obtain ⟨sorted, hout, hpart⟩ := finishPart_eq_ok_iff.mp h
  obtain ⟨hs, hrows⟩ := rows_of_encodeBatch hpart
  obtain ⟨columns, hcols, -, hperm, -⟩ := sortBatch_eq_ok hout
  obtain ⟨ps, rowGroups, count, keyMin, keyMax, stats⟩ := part
  cases hs
  subst hrows
  exact ⟨rfl, hperm.map Subtype.val, columns, hcols, hsorted columns hcols⟩

/-- A row with the cells of another has its partition values. -/
theorem partitionValues_congr {s' : Schema} {r : Row s} {r' : Row s'} (hs : s' = s)
    (hcells : r'.val = r.val) : partitionValues partitions r' = partitionValues partitions r := by
  subst hs
  rw [Subtype.ext hcells]

end Parts

/-! ## 3. The rows that come in -/

section Input

variable {kernel : CastKernel} {eval : Evaluator} {memory : List (List Value) → Nat}
  {target : Hypertable} {maxBytes : Nat} {cols : TableColumns}

theorem length_of_tryNew {s : Schema} {cells : List (List Value)} {out : List (Row s)}
    (h : s.tryNew cells = some out) : out.length = cells.length := by
  rw [← Schema.tryNew_eq_some.mp h, List.length_map]

/-- Defaults and materialized columns make no rows and lose none. -/
theorem length_applyDefaults {s : Schema} {batch out : List (Row s)}
    (h : applyDefaultsAndMaterialized eval batch cols = .ok out) : out.length = batch.length := by
  have hlen := (foldlM_fillSpec_getElem? (applyDefaults_eq_ok h)).length_eq
  rw [List.length_map, List.length_map] at hlen
  exact hlen.symm

/-- A batch's rows, cast to the columns of the table and completed by the default and
materialized ones, one for each. -/
structure Adapted (kernel : CastKernel) (eval : Evaluator) (cols : TableColumns)
    (batch : RecordBatch) (out : List (Row cols.physicalSchema)) : Prop where
  length : out.length = batch.rows.length
  completed : ∃ evaluation filled, (batch.rows.mapM (castRow kernel cols)).bind
      cols.physicalSchema.withNullable.tryNew = some evaluation ∧
    applyDefaultsAndMaterialized eval evaluation cols = .ok filled ∧
    out.map Subtype.val = filled.map Subtype.val

/-- The completed rows, computed. -/
def completedCells (kernel : CastKernel) (eval : Evaluator) (cols : TableColumns)
    (batch : RecordBatch) : Option (List (List Value)) :=
  ((batch.rows.mapM (castRow kernel cols)).bind cols.physicalSchema.withNullable.tryNew).bind
    fun evaluation => (applyDefaultsAndMaterialized eval evaluation cols).toOption.map
      (List.map Subtype.val)

theorem Adapted.completedCells_eq {batch : RecordBatch} {out : List (Row cols.physicalSchema)}
    (h : Adapted kernel eval cols batch out) :
    completedCells kernel eval cols batch = some (out.map Subtype.val) := by
  obtain ⟨evaluation, filled, hevaluation, hfilled, hout⟩ := h.completed
  unfold completedCells
  rw [hevaluation, Option.bind_some, hfilled, hout]
  rfl

/-- All the rows that come in, completed, in their order. -/
def InputRows (kernel : CastKernel) (eval : Evaluator) (cols : TableColumns)
    (batches : List RecordBatch) (rows : List (Row cols.physicalSchema)) : Prop :=
  ∃ outs, List.Forall₂ (Adapted kernel eval cols)
      (batches.filter fun batch => !batch.rows.isEmpty) outs ∧ rows = outs.flatten

theorem adapted_of_adaptBatch {batch : RecordBatch} {out : List (Row cols.physicalSchema)}
    {m m' : Nat}
    (h : adaptBatch kernel eval memory target maxBytes cols batch.rows m = .ok (out, m')) :
    Adapted kernel eval cols batch out := by
  unfold adaptBatch at h
  dsimp only at h
  split at h
  · cases h
  · rename_i evaluation hcast
    split at h
    · cases h
    · rename_i filled hfill
      have hout : out.map Subtype.val = filled.map Subtype.val := by
        -- the checks that were passed
        split at h
        · cases h
        · split at h
          · cases h
          · split at h
            · cases h
            · split at h
              · cases h
              · split at h
                · cases h
                · rename_i hnew
                  cases h
                  exact Schema.tryNew_eq_some.mp hnew
      refine ⟨?_, evaluation, filled, hcast, hfill, hout⟩
      have hlen := congrArg List.length hout
      rw [List.length_map, List.length_map, length_applyDefaults hfill] at hlen
      rw [hlen]
      obtain ⟨cells, hcells, hnew⟩ := Option.bind_eq_some_iff.mp hcast
      rw [length_of_tryNew hnew]
      exact (List.mapM_eq_some_iff.mp hcells).length_eq.symm

/-- **The loop over the batches** completes the rows, and loses none. -/
theorem inputRows_of_adaptBatches {batches : List RecordBatch}
    {out : List (Row cols.physicalSchema)} {used m : Nat}
    (h : adaptBatches kernel eval memory target maxBytes cols batches used m = .ok out) :
    InputRows kernel eval cols batches out := by
  induction batches generalizing out used m with
  | nil =>
    cases h
    exact ⟨[], .nil, rfl⟩
  | cons batch batches ih =>
    obtain ⟨used', ⟨hempty, h⟩ | ⟨hfull, first, m', rest, hfirst, hrest, rfl⟩⟩ :=
      adaptBatches_cons_eq_ok h
    · unfold InputRows
      rw [List.filter_cons_of_neg (by simp [hempty])]
      exact ih h
    · obtain ⟨outs, houts, rfl⟩ := ih hrest
      refine ⟨first :: outs, ?_, rfl⟩
      rw [List.filter_cons_of_pos (by simpa using hfull)]
      exact .cons (adapted_of_adaptBatch hfirst) houts

theorem InputRows.eq_nil_iff {batches : List RecordBatch} {rows : List (Row cols.physicalSchema)}
    (h : InputRows kernel eval cols batches rows) :
    rows = [] ↔ ∀ batch ∈ batches, batch.rows = [] := by
  obtain ⟨outs, houts, rfl⟩ := h
  rw [List.flatten_eq_nil_iff]
  constructor
  · intro hnil batch hbatch
    by_contra hne
    have hmem : batch ∈ batches.filter fun batch => !batch.rows.isEmpty :=
      List.mem_filter.mpr ⟨hbatch, by simpa using hne⟩
    obtain ⟨out, hout, hadapted⟩ := houts.exists_of_mem hmem
    have := hadapted.length
    rw [hnil out hout] at this
    exact hne (List.length_eq_zero_iff.mp this.symm)
  · intro hempty out hout
    have hfilter : (batches.filter fun batch => !batch.rows.isEmpty) = [] := by
      refine List.filter_eq_nil_iff.mpr fun batch hbatch => ?_
      simp [hempty batch hbatch]
    rw [hfilter] at houts
    cases houts
    cases hout

end Input

/-! ## 4. One part for each partition -/

section Items

variable {kernel : CastKernel} {eval : Evaluator} {memory : List (List Value) → Nat}
  {render : Json → String} {L : Lexsort} {codec : PartCodec} {batches : List RecordBatch}
  {target : Hypertable} {maxBytes : Nat} {cols : TableColumns} {partitions sortKey : List String}
  {packingKey : String} {items : List FlushItem} {s : Schema} {rows : List (Row s)}
  {groups : List (String × Json × List (Row s))}

/-- What is promised of the parts of a write: each row is in one of them, that of its partition
values; they are of different partitions, and sorted. -/
structure L0Items (partitions sortKey : List String) (rows : List (Row s))
    (items : List FlushItem) : Prop where
  rows : (items.flatMap fun item => item.part.rows.map Subtype.val).Perm (rows.map Subtype.val)
  values : ∀ item ∈ items, item.part.schema = s ∧
    ∀ r ∈ item.part.rows, partitionValues partitions r = .ok item.partitionValues
  differ : items.Pairwise fun item item' =>
    Json.jsonbEq item.partitionValues item'.partitionValues = false
  sorted : ∀ item ∈ items, ∃ columns, sortColumns item.part.schema sortKey = .ok columns ∧
    SortedRows columns item.part.rows

/-- No two rows have partition columns that differ in the signs of zeros and in nothing else. -/
def NoTwinZeros (partitions : List String) (rows : List (Row s)) : Prop :=
  ∀ r ∈ rows, ∀ r' ∈ rows,
    (∀ name ∈ partitions, ∀ i, s.indexOf name = some i → SameNumber (r.cell i) (r'.cell i)) →
    ∀ name ∈ partitions, ∀ i, s.indexOf name = some i → r.cell i = r'.cell i

/-- The item made of a group. -/
structure Finished (L : Lexsort) (codec : PartCodec) (sortKey : List String) (packingKey : String)
    (g : String × Json × List (Row s)) (item : FlushItem) : Prop where
  value : item.partitionValues = g.2.1
  part : finishPart L codec g.2.2 sortKey packingKey = .ok item.part

theorem eq_of_sameNumber {v w : Value} (h : SameNumber v w)
    (hv : ∀ bits, v = .float64 bits → isZero bits = false) : v = w := by
  unfold SameNumber at h
  split at h
  · obtain rfl | ⟨hzero, -⟩ := h
    · rfl
    · rw [hv _ rfl] at hzero
      exact nomatch hzero
  · exact h

theorem SameNumber.symm {v w : Value} (h : SameNumber v w) : SameNumber w v := by
  cases v <;> cases w <;> simp_all [SameNumber]
  exact h.imp Eq.symm And.symm

/-- What the function did where it succeeds. -/
theorem batchesToL0Items_eq_ok
    (h : batchesToL0Items kernel eval memory render L codec batches target maxBytes = .ok items)
    (hcols : TableColumns.parse target.tableSchema = .ok cols)
    (hpart : partitionColumns target = .ok partitions) :
    ∃ rows, InputRows kernel eval cols batches rows ∧
      (rows = [] ∧ items = [] ∨
        ∃ groups, rows.foldlM (fun groups r => (partitionValues partitions r).map fun value =>
            pushGroup (render value) value r groups) [] = .ok groups ∧
          List.Forall₂ (Finished L codec target.sortKey target.packingKey) groups items) := by
  obtain ⟨rows, hrows, ⟨rfl, rfl⟩ | ⟨-, -, groups, hgroups, hitems⟩⟩ :=
    (batchesToL0Items_eq_ok_iff hcols hpart).mp h
  · exact ⟨[], inputRows_of_adaptBatches hrows, Or.inl ⟨rfl, rfl⟩⟩
  · refine ⟨rows, inputRows_of_adaptBatches hrows, Or.inr ⟨groups, hgroups, ?_⟩⟩
    refine hitems.imp fun g item hitem => ?_
    obtain ⟨part, hpart', rfl⟩ := Except.map_eq_ok_iff.mp hitem
    exact ⟨rfl, hpart'⟩

theorem rows_of_finished (h : List.Forall₂ (Finished L codec sortKey packingKey) groups items) :
    (items.flatMap fun item => item.part.rows.map Subtype.val).Perm
      ((groupedRows groups).map Subtype.val) := by
  induction h with
  | nil => exact List.Perm.refl _
  | @cons g item groups items hitem _ ih =>
    show (item.part.rows.map Subtype.val ++ _).Perm ((g.2.2 ++ groupedRows groups).map Subtype.val)
    rw [List.map_append]
    exact (finishPart_spec hitem.part).2.1.append ih

theorem Finished.values {g : String × Json × List (Row s)} {item : FlushItem}
    (h : Finished L codec sortKey packingKey g item)
    (hg : ∀ r ∈ g.2.2, partitionValues partitions r = .ok g.2.1) :
    item.part.schema = s ∧
      ∀ r ∈ item.part.rows, partitionValues partitions r = .ok item.partitionValues := by
  obtain ⟨hs, hperm, -⟩ := finishPart_spec h.part
  refine ⟨hs, fun r hr => ?_⟩
  obtain ⟨r₀, hr₀, hcells⟩ := List.mem_map.mp (hperm.mem_iff.mp (List.mem_map_of_mem hr))
  rw [partitionValues_congr hs hcells.symm, hg r₀ hr₀, h.value]

/-- **The groups are of different partitions** exactly when no rows have twin zeros. -/
theorem Grouped.differ_iff (hg : Grouped render partitions rows groups) :
    (groups.Pairwise fun g g' => Json.jsonbEq g.2.1 g'.2.1 = false) ↔
      NoTwinZeros partitions rows := by
  constructor
  · intro hdiffer r hr r' hr' hsame
    obtain ⟨g, hgm, hrg⟩ := List.mem_flatMap.mp (hg.perm.mem_iff.mpr hr)
    obtain ⟨g', hgm', hrg'⟩ := List.mem_flatMap.mp (hg.perm.mem_iff.mpr hr')
    have hv := (hg.group g hgm).2.2 r hrg
    have hv' := (hg.group g' hgm').2.2 r' hrg'
    by_cases heq : g = g'
    · subst heq
      exact (partitionValues_eq_iff hv hv').mp rfl
    · have : Std.Symm fun g g' : String × Json × List (Row s) =>
          Json.jsonbEq g.2.1 g'.2.1 = false ∨ Json.jsonbEq g'.2.1 g.2.1 = false :=
        ⟨fun _ _ => Or.symm⟩
      have htwo := (hdiffer.imp fun {g g'} h => (Or.inl h :
        Json.jsonbEq g.2.1 g'.2.1 = false ∨ Json.jsonbEq g'.2.1 g.2.1 = false)).forall
          hgm hgm' heq
      have hone := (jsonbEq_partitionValues hv hv').mpr hsame
      have hother := (jsonbEq_partitionValues hv' hv).mpr fun name hname i hi =>
        (hsame name hname i hi).symm
      rw [hone, hother] at htwo
      simp at htwo
  · intro hno
    refine hg.sorted.imp_of_mem fun {g g'} hgm hgm' hlt => ?_
    rw [← Bool.not_eq_true]
    intro hsame
    obtain ⟨htext, hne, hvalues⟩ := hg.group g hgm
    obtain ⟨htext', hne', hvalues'⟩ := hg.group g' hgm'
    obtain ⟨r, hr⟩ := List.exists_mem_of_ne_nil _ hne
    obtain ⟨r', hr'⟩ := List.exists_mem_of_ne_nil _ hne'
    have hin := hg.perm.mem_iff.mp (List.mem_flatMap.mpr ⟨g, hgm, hr⟩)
    have hin' := hg.perm.mem_iff.mp (List.mem_flatMap.mpr ⟨g', hgm', hr'⟩)
    have hcells := hno r hin r' hin'
      ((jsonbEq_partitionValues (hvalues r hr) (hvalues' r' hr')).mp hsame)
    have hv := (partitionValues_eq_iff (hvalues r hr) (hvalues' r' hr')).mpr hcells
    rw [htext, htext', hv] at hlt
    exact lt_irrefl _ hlt

/-- **A part for each partition.**  Of the batches it accepts, the function makes parts such that
each row that came in, completed, is in the one of its partition values, no two parts are of one
partition to the catalog, each is sorted, and there is none exactly if no row came in: all this
exactly when no two rows have partition columns that differ only in the signs of zeros. -/
theorem l0_items_iff
    (h : batchesToL0Items kernel eval memory render L codec batches target maxBytes = .ok items)
    (hcols : TableColumns.parse target.tableSchema = .ok cols)
    (hpart : partitionColumns target = .ok partitions)
    (hrender : ∀ rows, InputRows kernel eval cols batches rows →
      RendersApart render partitions rows) :
    ∃ rows, InputRows kernel eval cols batches rows ∧
      ((L0Items partitions target.sortKey rows items ∧
          (items = [] ↔ ∀ batch ∈ batches, batch.rows = [])) ↔
        NoTwinZeros partitions rows) := by
  obtain ⟨rows, hrows, hdone⟩ := batchesToL0Items_eq_ok h hcols hpart
  refine ⟨rows, hrows, ?_⟩
  rw [← hrows.eq_nil_iff]
  rcases hdone with ⟨rfl, rfl⟩ | ⟨groups, hfold, hitems⟩
  · refine iff_of_true ⟨⟨List.Perm.refl _, ?_, .nil, ?_⟩, iff_of_true rfl rfl⟩ ?_
    · exact fun _ hitem => absurd hitem List.not_mem_nil
    · exact fun _ hitem => absurd hitem List.not_mem_nil
    · exact fun _ hr => absurd hr List.not_mem_nil
  · have hstart : Grouped render partitions ([] : List (Row cols.physicalSchema)) [] :=
      ⟨.nil, fun _ hg => absurd hg List.not_mem_nil, List.Perm.refl _⟩
    have hg : Grouped render partitions rows groups := hstart.run (hrender rows hrows) hfold
    have hvalues : items.map FlushItem.partitionValues = groups.map fun g => g.2.1 := by
      rw [← List.forall₂_eq_eq_eq, List.forall₂_map_left_iff, List.forall₂_map_right_iff]
      exact hitems.flip.imp fun _ _ hitem => hitem.value
    have hdiffer : (items.Pairwise fun item item' =>
        Json.jsonbEq item.partitionValues item'.partitionValues = false) ↔
        NoTwinZeros partitions rows := by
      rw [← hg.differ_iff, ← List.pairwise_map (f := FlushItem.partitionValues)
        (R := fun v v' => Json.jsonbEq v v' = false), hvalues, List.pairwise_map]
    have hof : ∀ item ∈ items, ∃ g ∈ groups,
        Finished L codec target.sortKey target.packingKey g item := fun item hitem =>
      hitems.flip.exists_of_mem hitem
    constructor
    · rintro ⟨hall, -⟩
      exact hdiffer.mp hall.differ
    · intro hno
      refine ⟨⟨(rows_of_finished hitems).trans (hg.perm.map _), ?_, hdiffer.mpr hno, ?_⟩, ?_⟩
      · intro item hitem
        obtain ⟨g, hgm, hfinished⟩ := hof item hitem
        exact hfinished.values (hg.group g hgm).2.2
      · intro item hitem
        obtain ⟨g, -, hfinished⟩ := hof item hitem
        exact (finishPart_spec hfinished.part).2.2
      · -- a group has rows, so without rows there is no group
        rw [← List.map_eq_nil_iff (f := FlushItem.partitionValues), hvalues, List.map_eq_nil_iff]
        constructor
        · rintro rfl
          exact hg.perm.nil_eq.symm
        · rintro rfl
          refine List.eq_nil_iff_forall_not_mem.mpr fun g hgm => ?_
          obtain ⟨r, hr⟩ := List.exists_mem_of_ne_nil _ (hg.group g hgm).2.1
          exact absurd (hg.perm.mem_iff.mp (List.mem_flatMap.mpr ⟨g, hgm, hr⟩)) List.not_mem_nil

end Items

/-- A table partitioned by a float. -/
def weightTable : Hypertable where
  id := 1
  name := "weights"
  tableSchema := .obj [("fields", .arr [
    .obj [("name", .str "k"), ("type", .str "int64")],
    .obj [("name", .str "w"), ("type", .str "float64")]])]
  partitionSpec := .obj [("columns", .arr [.str "w"])]
  sortKey := ["k"]
  packingKey := "k"
  placement := .packed

def weightColumns : TableColumns := ⟨[
  ⟨"k", .int64, true, .stored, "int64", false⟩, ⟨"w", .float64, true, .stored, "float64", false⟩]⟩

def weightSchema : Schema := [⟨"k", .int64, true, none⟩, ⟨"w", .float64, true, none⟩]

/-- A row of the key 1. -/
def weightRow (bits : UInt64) : Row weightSchema :=
  ⟨[.int64 (smallI64 1), .float64 bits], rfl⟩

/-- The texts of the floats below. -/
def floatText (bits : UInt64) : String :=
  if bits = 0 then "0.0"
  else if bits = 0x8000000000000000 then "-0.0"
  else if bits = 0x3FE0000000000000 then "0.5"
  else if bits = 0x4000000000000000 then "2.0"
  else ""

def scalarText : Json → String
  | .bool b => if b then "true" else "false"
  | .num (.int n) => toString n
  | .num (.float bits) => floatText bits
  | .str text => "\"" ++ text ++ "\""
  | _ => "null"

/-- The text of a flat object in which there is nothing to escape. -/
def objectText : Json → String
  | .obj kvs => "\x7b" ++ ",".intercalate (kvs.map fun kv =>
      "\"" ++ kv.1 ++ "\":" ++ scalarText kv.2) ++ "\x7d"
  | v => scalarText v

/-- `0.0` and `-0.0` have two texts, so their rows go to two parts, of one partition. -/
theorem signed_zeros_split : ∃ items,
    batchesToL0Items .equal (fun _ _ _ _ => none) (fun _ => 0) objectText .stable .characters
      [⟨weightSchema, [weightRow 0, weightRow 0x8000000000000000]⟩] weightTable 1000 = .ok items ∧
    ∀ rows : List (Row weightColumns.physicalSchema),
      ¬ L0Items ["w"] weightTable.sortKey rows items := by
  have hvalues : (batchesToL0Items .equal (fun _ _ _ _ => none) (fun _ => 0) objectText .stable
      .characters [⟨weightSchema, [weightRow 0, weightRow 0x8000000000000000]⟩] weightTable
      1000).map (List.map FlushItem.partitionValues) =
      .ok [.obj [("w", .num (.float 0x8000000000000000))], .obj [("w", .num (.float 0))]] := by
    decide +kernel
  cases hitems : batchesToL0Items .equal (fun _ _ _ _ => none) (fun _ => 0) objectText .stable
      .characters [⟨weightSchema, [weightRow 0, weightRow 0x8000000000000000]⟩] weightTable
      1000 with
  | error e =>
    rw [hitems] at hvalues
    cases hvalues
  | ok items =>
    rw [hitems] at hvalues
    refine ⟨items, rfl, fun rows hall => ?_⟩
    have hdiffer : (items.map FlushItem.partitionValues).Pairwise fun v v' =>
        Json.jsonbEq v v' = false := List.pairwise_map.mpr hall.differ
    rw [Except.ok.inj hvalues] at hdiffer
    have := List.rel_of_pairwise_cons hdiffer List.mem_cons_self
    revert this
    decide +kernel

/-- A table partitioned by a text and a float. -/
def tariffTable : Hypertable where
  id := 2
  name := "tariffs"
  tableSchema := .obj [("fields", .arr [
    .obj [("name", .str "k"), ("type", .str "int64")],
    .obj [("name", .str "region"), ("type", .str "utf8")],
    .obj [("name", .str "w"), ("type", .str "float64")]])]
  partitionSpec := .obj [("columns", .arr [.str "region", .str "w"])]
  sortKey := ["k"]
  packingKey := "k"
  placement := .packed

def tariffColumns : TableColumns := ⟨[
  ⟨"k", .int64, true, .stored, "int64", false⟩, ⟨"region", .utf8, true, .stored, "utf8", false⟩,
  ⟨"w", .float64, true, .stored, "float64", false⟩]⟩

def tariffCells (k : UInt8) (region : Option String) (w : UInt64) : List Value :=
  [.int64 (smallI64 k), region.elim .null .utf8, .float64 w]

theorem tariffCells_fit (k : UInt8) (region : Option String) (w : UInt64) :
    tariffColumns.physicalSchema.fits (tariffCells k region w) = true := by
  cases region <;> rfl

def tariffRow (k : UInt8) (region : Option String) (w : UInt64) :
    Row tariffColumns.physicalSchema :=
  ⟨tariffCells k region w, tariffCells_fit k region w⟩

/-- One half, and two. -/
def half : UInt64 := 0x3FE0000000000000
def two : UInt64 := 0x4000000000000000

/-- Two batches: a region with two weights, one that is called `null`, and none. -/
def tariffBatches : List RecordBatch :=
  [⟨tariffColumns.physicalSchema,
      [tariffRow 5 (some "eu") half, tariffRow 3 (some "null") half, tariffRow 4 none half]⟩,
    ⟨tariffColumns.physicalSchema,
      [tariffRow 2 (some "eu") half, tariffRow 1 none half, tariffRow 6 (some "eu") two]⟩]

def tariffRows : List (Row tariffColumns.physicalSchema) :=
  [tariffRow 5 (some "eu") half, tariffRow 3 (some "null") half, tariffRow 4 none half,
    tariffRow 2 (some "eu") half, tariffRow 1 none half, tariffRow 6 (some "eu") two]

theorem tariff_rows {rows : List (Row tariffColumns.physicalSchema)}
    (h : InputRows .equal (fun _ _ _ _ => none) tariffColumns tariffBatches rows) :
    rows = tariffRows := by
  obtain ⟨outs, houts, rfl⟩ := h
  refine List.map_injective_iff.mpr Subtype.val_injective ?_
  have hcells : (tariffBatches.mapM (completedCells .equal (fun _ _ _ _ => none) tariffColumns)).map
      List.flatten = some (tariffRows.map Subtype.val) := by decide +kernel
  have hbatches : tariffBatches.filter (fun batch => !batch.rows.isEmpty) = tariffBatches := by rfl
  rw [hbatches] at houts
  have hmap := List.mapM_eq_some_iff.mpr
    (List.forall₂_map_right_iff.mpr (houts.imp fun _ _ h => h.completedCells_eq))
  rw [hmap, Option.map_some, Option.some.injEq] at hcells
  rw [List.map_flatten]
  exact hcells

theorem l0_items_iff_tariffs : ∃ items,
    batchesToL0Items .equal (fun _ _ _ _ => none) (fun _ => 0) objectText .stable .characters
      tariffBatches tariffTable 1000 = .ok items ∧
    L0Items ["region", "w"] tariffTable.sortKey tariffRows items ∧
    items.map (fun item => item.part.rows.map fun r => r.cell 0) =
      [[.int64 (smallI64 2), .int64 (smallI64 5)], [.int64 (smallI64 6)], [.int64 (smallI64 3)],
        [.int64 (smallI64 1), .int64 (smallI64 4)]] := by
  have hkeys : (batchesToL0Items .equal (fun _ _ _ _ => none) (fun _ => 0) objectText .stable
      .characters tariffBatches tariffTable 1000).map
        (List.map fun item => item.part.rows.map fun r => r.cell 0) =
      .ok [[.int64 (smallI64 2), .int64 (smallI64 5)], [.int64 (smallI64 6)],
        [.int64 (smallI64 3)], [.int64 (smallI64 1), .int64 (smallI64 4)]] := by
    decide +kernel
  cases hitems : batchesToL0Items .equal (fun _ _ _ _ => none) (fun _ => 0) objectText .stable
      .characters tariffBatches tariffTable 1000 with
  | error e =>
    rw [hitems] at hkeys
    cases hkeys
  | ok items =>
    rw [hitems] at hkeys
    have hcols : TableColumns.parse tariffTable.tableSchema = .ok tariffColumns := by rfl
    have hpart : partitionColumns tariffTable = .ok ["region", "w"] := by rfl
    have hrender : ∀ rows, InputRows .equal (fun _ _ _ _ => none) tariffColumns tariffBatches
        rows → RendersApart objectText ["region", "w"] rows := by
      intro rows hrows r hr r' hr' v v' hv hv' htext
      rw [tariff_rows hrows] at hr hr'
      have hall : ∀ r ∈ tariffRows, ∀ r' ∈ tariffRows,
          (partitionValues ["region", "w"] r).map objectText =
            (partitionValues ["region", "w"] r').map objectText →
          partitionValues ["region", "w"] r = partitionValues ["region", "w"] r' := by
        decide +kernel
      have hsame := hall r hr r' hr' (by rw [hv, hv']; exact congrArg Except.ok htext)
      rw [hv, hv'] at hsame
      exact Except.ok.inj hsame
    obtain ⟨rows, hrows, hiff⟩ := l0_items_iff hitems hcols hpart hrender
    obtain rfl := tariff_rows hrows
    refine ⟨items, rfl, (hiff.mpr ?_).1, Except.ok.inj hkeys⟩
    -- no weight is a zero
    intro r hr r' _ hsame name hname i hi
    refine eq_of_sameNumber (hsame name hname i hi) fun bits hbits => ?_
    have hcells : ∀ r ∈ tariffRows, ∀ i ∈ [1, 2], r.cell i ∈
        [.null, .utf8 "eu", .utf8 "null", .float64 half, .float64 two] := by
      decide +kernel
    have hplaces : ∀ name ∈ ["region", "w"],
        tariffColumns.physicalSchema.indexOf name ∈ [1, 2].map some := by
      decide +kernel
    have hplace := hplaces name hname
    rw [hi] at hplace
    have hcell := hcells r hr i ((List.mem_map_of_injective (Option.some_injective _)).mp hplace)
    rw [hbits] at hcell
    obtain rfl | rfl : bits = half ∨ bits = two := by simpa using hcell
    · decide
    · decide

end Ukiel.Write
