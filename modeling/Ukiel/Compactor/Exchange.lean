/-
# What a writer exchanges

A writer reads parts, makes new ones and names both in one call of the catalog.  Here its call is
that of the code: the parts of the write path, the merge of `merge_parts` from its streams to the
files of the chunk writer, and the loop of `delete_key`.

`Wrote.exchange`: the new parts have the rows of the parts that were read, but for what the call is
there to add or to erase, and what is recorded of them is theirs.
-/
import Ukiel.Compactor.Conservation

namespace Ukiel.Compactor
open Ukiel.Catalog Ukiel.Expr Ukiel.Write

/-! ## 1. A table and its objects -/

/-- **A hypertable and the objects of its parts.**  A path is drawn fresh and written once, so that
what is in an object is a function of its path. -/
structure Warehouse where
  ht : Hypertable
  cols : TableColumns
  reader : ParquetReader
  codec : PartCodec
  /-- The row groups of an object. -/
  store : String → Option (List (List (Row cols.physicalSchema)))
  version : Version ht ht.tableSchema cols

namespace Warehouse

/-- No two columns of the table are named alike. -/
abbrev Distinct (H : Warehouse) : Prop := (H.cols.specs.map ColumnSpec.name).Nodup

abbrev schema (H : Warehouse) : Schema := H.cols.physicalSchema

/-- The rows of an object. -/
def content (H : Warehouse) (path : String) : Multiset (Row H.schema) :=
  ((H.store path).getD []).flatten

/-- An object as its reader gives it. -/
def file (H : Warehouse) (path : String) : Option PartFile := (H.store path).map H.reader.file

/-- **The part is there**: some writer made it, with the object that is in the store. -/
def Holds (H : Warehouse) (m : PartMeta) : Prop :=
  ∃ groups, H.store m.path = some groups ∧ Made H.reader H.codec H.ht m ⟨H.schema, groups⟩

/-- The row has the packing key. -/
def ofKey (H : Warehouse) (key : I64) (r : Row H.schema) : Bool :=
  packingKeyOf H.ht.packingKey r = some key

end Warehouse

variable {H : Warehouse}

/-- What a call does to the rows of a table. -/
structure Effect (H : Warehouse) where
  added : Multiset (Row H.schema) := 0
  erased : Multiset (Row H.schema) := 0

/-! ## 2. The writers -/

/-- A round of the deletion of a key has written a file. -/
def RoundWrites (env : DeletionEnv) (H : Warehouse) (key : I64) (w : Rewriting) (p : PartRow)
    (new : PartMeta) (groups : List (List (Row H.schema))) : Prop :=
  ∃ w' batch keys spans, rewritePart env H.ht H.cols key w p = .ok w' ∧
    w'.newParts = w.newParts ++ [new] ∧
    readPartsForRewrite env.eval w.store H.cols [p.partMeta] = .ok batch ∧
    int64Column batch H.ht.packingKey = .ok keys ∧
    batchToParquetKeyAligned env.codec.parquet defaultMaxRowGroupRows (filterNeq batch keys key)
      H.ht.packingKey = .ok (groups, spans)

/-- **A writer's call**: the tables it has read, the parts among them that it replaces, and what it
is there to do. -/
inductive Wrote (H : Warehouse) (T : Tables) : Call → List PartRow → Effect H → Prop where
  /-- `publish_add`, of the ingest and of views. -/
  | add {c : Call} {parts : List PartMeta} (table : c.hypertableId = H.ht.id)
      (op : c.op = .add parts) (holds : ∀ m ∈ parts, H.Holds m) :
      Wrote H T c [] { added := rowsOf H.content parts }
  /-- `merge_parts`, of compaction and of finalization. -/
  | merge {group : List PartRow} {eval : Evaluator} {store : String → Option PartFile}
      {streams : List (PartBatchStream H.schema)} {converter : RowConverter}
      {batches : List (List (Row H.schema))} {env : ChunkWriterEnv}
      {written : List (Written H.schema)} {lease : CompactionLease} {identity : OperationIdentity}
      {partitionValues : Json} {level : Int} (live : ∀ p ∈ group, p ∈ T.liveParts H.ht.id)
      (objects : ∀ p ∈ group, store p.partMeta.path = H.file p.partMeta.path)
      (read : partStreams eval store H.schema H.cols (group.map PartRow.partMeta) = .ok streams)
      (drained : mergeStreams converter streams H.ht.sortKey = (batches, .drained))
      (key : env.packingKey = H.ht.packingKey) (code : env.codec = H.codec)
      (write : StreamingChunkWriter.write env (batches.map .ok) = .ok written)
      (put : ∀ x ∈ written, H.store x.output.path = some x.rowGroups) :
      Wrote H T (commitCompactionReplace H.ht.id lease (group.map PartRow.id)
        (written.map fun x => mergedPart partitionValues level x.output) identity) group {}
  /-- `delete_key`, where some live part overlaps. -/
  | deleteKey {env : DeletionEnv} {store : String → Option PartFile} {key : I64} {d : Erasure}
      (objects : ∀ p ∈ T.liveParts H.ht.id, store p.partMeta.path = H.file p.partMeta.path)
      (fresh : FreshNames env H.ht.id T) (reader : env.reader = H.reader)
      (code : env.codec = H.codec) (run : deleteKey env store T H.ht key = .ok (some d))
      (put : ∀ done p rest w new groups, overlappingParts T H.ht.id key = done ++ p :: rest →
        done.foldlM (rewritePart env H.ht H.cols key) { store := store } = .ok w →
        RoundWrites env H key w p new groups → H.store new.path = some groups) :
      Wrote H T d.call (overlappingParts T H.ht.id key)
        { erased := (rowsOf H.content ((overlappingParts T H.ht.id key).map
          PartRow.partMeta)).filter fun r => H.ofKey key r }
  /-- A plain `CommitOp::Delete` of parts that the caller has seen. -/
  | delete {c : Call} {parts : List PartRow} (table : c.hypertableId = H.ht.id)
      (op : c.op = .delete (parts.map PartRow.id))
      (seen : ∀ p ∈ parts, p ∈ T.parts ∧ p.hypertableId = H.ht.id) :
      Wrote H T c parts { erased := rowsOf H.content (parts.map PartRow.partMeta) }

/-- **The call of a writer, by what it exchanges.**  What is read by name, and written again, has
the rows of before where no two columns are named alike. -/
structure Exchange (H : Warehouse) (T : Tables) (c : Call) (inputs : List PartRow) (e : Effect H) :
    Prop where
  table : c.hypertableId = H.ht.id
  seen : ∀ p ∈ inputs, p ∈ T.parts ∧ p.hypertableId = H.ht.id
  named : c.op.oldParts = inputs.map PartRow.id
  holds : ∀ m ∈ c.op.newParts, H.Holds m
  balance : H.Distinct → rowsOf H.content c.op.newParts + e.erased =
    rowsOf H.content (inputs.map PartRow.partMeta) + e.added

/-! ## 3. Reading a file of the table's own schema -/

section Reading

variable {eval : Evaluator} {cols : TableColumns} {path : String}

/-- Where no two columns are named alike, what is found by name is the row that is stored. -/
theorem eq_of_readByName (hnames : (cols.specs.map ColumnSpec.name).Nodup)
    {r r' : Row cols.physicalSchema} (h : ReadByName cols r r') : r' = r := by
  refine Subtype.ext (List.ext_getElem (r'.length.trans r.length.symm) fun i hi hi' => ?_)
  have hlt : i < cols.physicalSchema.length := r.length ▸ hi'
  have := h i _ i (List.getElem?_eq_getElem hlt) (Schema.indexOf_of_nodup
    (TableColumns.physicalSchema_nodup hnames) (List.getElem?_eq_getElem hlt))
  simpa [Row.cell, hi, hi'] using this

theorem eq_of_forall₂_readByName (hnames : (cols.specs.map ColumnSpec.name).Nodup)
    {rows out : List (Row cols.physicalSchema)} (h : List.Forall₂ (ReadByName cols) rows out) :
    out = rows :=
  (List.forall₂_eq_eq_eq ▸ h.imp fun _ _ hr => (eq_of_readByName hnames hr).symm :
    rows = out).symm

/-- **A stream that can be read to its end** has the rows of the file. -/
theorem streamRows_of_file (hnames : (cols.specs.map ColumnSpec.name).Nodup)
    (reader : ParquetReader) {groups : List (List (Row cols.physicalSchema))}
    (hfree : ErrorFree ((reader.file groups).batches.map
      (readBatch eval cols.physicalSchema cols path))) :
    streamRows ((reader.file groups).batches.map (readBatch eval cols.physicalSchema cols path)) =
      groups.flatten := by
  have hall : ∀ batches : List (List (Row cols.physicalSchema)),
      ErrorFree ((batches.map some).map (readBatch eval cols.physicalSchema cols path)) →
      streamRows ((batches.map some).map (readBatch eval cols.physicalSchema cols path)) =
        batches.flatten := by
    intro batches
    induction batches with
    | nil => exact fun _ => rfl
    | cons batch batches ih =>
      intro hfree
      obtain ⟨⟨out, hout⟩, hrest⟩ := List.forall_mem_cons.mp hfree
      obtain rfl := eq_of_forall₂_readByName hnames (readByName_of_readBatch hout)
      rw [List.map_cons, List.map_cons, hout, streamRows, ih hrest, List.flatten_cons]
  rw [← reader.flatten_batches groups]
  exact hall _ hfree

end Reading

/-! ## 4. The rows of parts -/

section Content

theorem content_of_store {path : String} {groups : List (List (Row H.schema))}
    (h : H.store path = some groups) : H.content path = groups.flatten := by
  rw [Warehouse.content, h, Option.getD_some]

/-- The rows of parts, file by file. -/
theorem rowsOf_eq {metas : List PartMeta} {files : List (List (Row H.schema))}
    (h : List.Forall₂ (fun m rows => H.content m.path = Multiset.ofList rows) metas files) :
    rowsOf H.content metas = Multiset.ofList files.flatten := by
  induction h with
  | nil => rfl
  | cons hm _ ih =>
    rw [List.flatten_cons, ← Multiset.coe_add, ← hm, ← ih]
    rfl

end Content

/-! ## 5. The merge -/

/-- Parts that are there, with the objects they have. -/
structure Opened (H : Warehouse) (store : String → Option PartFile) (metas : List PartMeta) :
    Prop where
  holds : ∀ m ∈ metas, H.Holds m
  objects : ∀ m ∈ metas, store m.path = H.file m.path

section Opened

variable {store : String → Option PartFile} {metas : List PartMeta}

/-- The file of a part that is there. -/
theorem Opened.file (h : Opened H store metas) {m : PartMeta} (hm : m ∈ metas) :
    ∃ groups, H.store m.path = some groups ∧ store m.path = some (H.reader.file groups) ∧
      Made H.reader H.codec H.ht m ⟨H.schema, groups⟩ := by
  obtain ⟨groups, hgroups, hmade⟩ := h.holds m hm
  refine ⟨groups, hgroups, ?_, hmade⟩
  rw [h.objects m hm, Warehouse.file, hgroups, Option.map_some]

/-- Its rows. -/
theorem Opened.rows (h : Opened H store metas) {m : PartMeta} (hm : m ∈ metas) :
    ∃ rows : List (Row H.schema), H.content m.path = Multiset.ofList rows ∧
      partRows store m = some ⟨H.schema, rows⟩ ∧ storedBatch store m = ⟨H.schema, rows⟩ ∧
      Ranged H.ht m ⟨H.schema, rows⟩ := by
  obtain ⟨groups, hgroups, hfile, hmade⟩ := h.file hm
  have hrows := partRows_of_file H.reader hfile rfl
  exact ⟨_, content_of_store hgroups, hrows, by rw [storedBatch, hrows, Option.getD_some],
    hmade.recorded.toRanged⟩

end Opened

section Merge

variable {metas : List PartMeta} {eval : Evaluator} {store : String → Option PartFile}
  {streams : List (PartBatchStream H.schema)}
  {converter : RowConverter} {batches : List (List (Row H.schema))} {env : ChunkWriterEnv}
  {written : List (Written H.schema)}

/-- **The streams of a group** have its rows. -/
theorem Opened.rows_streams (hnames : H.Distinct) (h : Opened H store metas)
    (hread : partStreams eval store H.schema H.cols metas = .ok streams)
    (hfree : ∀ input ∈ streams, ErrorFree input.stream) : rowsOf H.content metas =
      Multiset.ofList (streams.map fun input => streamRows input.stream).flatten := by
  have hopen := List.mapM_eq_ok_iff.mp hread
  refine rowsOf_eq (List.forall₂_map_right_iff.mpr ?_)
  refine ((List.forall₂_and_left _ _).mpr
    ⟨fun _ => h.file, ((List.forall₂_and_left _ _).mpr ⟨hfree, hopen.flip⟩).flip⟩).imp ?_
  rintro m input ⟨⟨groups, hgroups, hfile, -⟩, hfree, hinput⟩
  rw [hfile] at hinput
  cases hinput
  rw [content_of_store hgroups, streamRows_of_file hnames H.reader hfree]

/-- The files of a chunk writer have the rows that it was given. -/
theorem rows_of_write {s : Schema} {i : Nat} {batches : List (List (Row s))}
    {written : List (Written s)} (hi : s.indexOf env.packingKey = some i)
    (hsorted : batches.flatten.Pairwise fun a b => (a.cell i).slot ≤ (b.cell i).slot)
    (hwrite : StreamingChunkWriter.write env (batches.map .ok) = .ok written) :
    written.flatMap Written.rows = batches.flatten := by
  rcases hnil : batches with _ | ⟨batch, rest⟩
  · subst hnil
    obtain ⟨w, hw, rfl⟩ := write_eq_ok hwrite
    cases hw
    rfl
  · have hint : s[i]?.map Field.dataType = some .int64 := by
      obtain ⟨w, hw, -⟩ := write_eq_ok hwrite
      rw [hnil] at hw
      obtain ⟨runs, hruns, -⟩ := Except.bind_eq_ok_iff.mp hw
      obtain ⟨keys, hkeys, -⟩ := Except.bind_eq_ok_iff.mp hruns
      obtain ⟨j, hj, htype, -⟩ := int64Column_eq_ok hkeys
      exact Option.some.inj (hj.symm.trans hi) ▸ htype
    have hfree : ErrorFree (batches.map Except.ok) := fun item hitem =>
      (List.mem_map.mp hitem).imp fun _ h => h.2.symm
    rw [← streamRows_ok] at hsorted
    rw [← hnil, ← streamRows_ok]
    exact (chunksOf_of_written hi hint hfree hsorted hwrite).rows

/-- **A merge keeps the rows** of its group. -/
theorem Opened.rows_merge (hnames : H.Distinct) (h : Opened H store metas)
    (hread : partStreams eval store H.schema H.cols metas = .ok streams)
    (hdrained : mergeStreams converter streams H.ht.sortKey = (batches, .drained))
    (hkey : env.packingKey = H.ht.packingKey)
    (hwrite : StreamingChunkWriter.write env (batches.map .ok) = .ok written)
    (hput : ∀ x ∈ written, H.store x.output.path = some x.rowGroups) (partitionValues : Json)
    (level : Int) :
    rowsOf H.content (written.map fun x => mergedPart partitionValues level x.output) =
      rowsOf H.content metas := by
  obtain ⟨i, rest, hcolumns, hi⟩ := H.version.sortColumns
  obtain ⟨hfree, hperm, hsorted⟩ := mergeStreams_drained hcolumns hdrained
  have hfiles : ∀ m ∈ metas, Ranged H.ht m (storedBatch store m) ∧
      partRows store m = some (storedBatch store m) := by
    intro m hm
    obtain ⟨rows, -, hrows, hbatch, hranged⟩ := h.rows hm
    exact ⟨hbatch ▸ hranged, hbatch ▸ hrows⟩
  have hkeyed : ∀ r ∈ batches.flatten, (r.cell i).asInt64? ≠ none := by
    intro r hr
    obtain ⟨rows, hrows, hr⟩ := List.mem_flatten.mp (hperm.mem_iff.mp hr)
    obtain ⟨input, hinput, rfl⟩ := List.mem_map.mp hrows
    exact keyed_of_streams hi (fun m hm => (hfiles m hm).1) (fun m hm => (hfiles m hm).2) hread
      input hinput r hr
  have hrows := rows_of_write (hkey ▸ hi) (slots_sorted hkeyed hsorted) hwrite
  rw [h.rows_streams hnames hread hfree, @rowsOf_eq H _ (written.map Written.rows)]
  · rw [← List.flatMap_def, hrows]
    exact Multiset.coe_eq_coe.mpr hperm
  · refine List.forall₂_map_left_iff.mpr (List.forall₂_map_right_iff.mpr ?_)
    exact List.forall₂_same.mpr fun x hx => content_of_store (hput x hx)

/-- The files of a merge are there. -/
theorem Opened.holds_merge (h : Opened H store metas)
    (hread : partStreams eval store H.schema H.cols metas = .ok streams)
    (hdrained : mergeStreams converter streams H.ht.sortKey = (batches, .drained))
    (hkey : env.packingKey = H.ht.packingKey) (hcode : env.codec = H.codec)
    (hwrite : StreamingChunkWriter.write env (batches.map .ok) = .ok written)
    {x : Written H.schema} (hx : x ∈ written) (hput : H.store x.output.path = some x.rowGroups)
    (partitionValues : Json) (level : Int) :
    H.Holds (mergedPart partitionValues level x.output) := by
  have hfile : ∀ m ∈ metas, Made H.reader H.codec H.ht m ⟨H.schema, (H.store m.path).getD []⟩ ∧
      store m.path = some (H.reader.file ((H.store m.path).getD [])) := by
    intro m hm
    obtain ⟨groups, hgroups, hfile, hmade⟩ := h.file hm
    rw [hgroups, Option.getD_some]
    exact ⟨hmade, hfile⟩
  exact ⟨x.rowGroups, hput, .merge H.version (fun m hm => (hfile m hm).1)
    (fun m hm => (hfile m hm).2) hread hdrained hkey hcode hwrite hx⟩

end Merge

/-! ## 6. The deletion -/

section Deletion

variable {T : Tables} {env : DeletionEnv} {store : String → Option PartFile} {key : I64}

/-- What is recorded is true of the file. -/
theorem sealed_of_ranged {ht : Hypertable} {m : PartMeta} {b : RecordBatch}
    (hrows : partRows store m = some b) (h : Ranged ht m b) : Sealed store ht.packingKey m b := by
  obtain ⟨hkeyed, lo, hi, hmin, hmax, hlo, hhi⟩ := h.keys
  refine ⟨hrows, h.count, fun r hr => ?_⟩
  obtain ⟨v, hv⟩ := hkeyed r hr
  have hmem := mem_keysOf hr hv
  exact ⟨v, hv, hmin ▸ hlo.2 hmem, hmax ▸ hhi.2 hmem⟩

theorem Opened.sealed {metas : List PartMeta} (h : Opened H store metas) {m : PartMeta}
    (hm : m ∈ metas) : Sealed store H.ht.packingKey m (storedBatch store m) := by
  obtain ⟨rows, -, hrows, hbatch, hranged⟩ := h.rows hm
  exact hbatch ▸ sealed_of_ranged hrows hranged

/-- The parts that a deletion reads, with their objects. -/
theorem overlapping_opened (hholds : ∀ p ∈ T.liveParts H.ht.id, H.Holds p.partMeta)
    (hobjects : ∀ p ∈ T.liveParts H.ht.id, store p.partMeta.path = H.file p.partMeta.path) :
    Opened H store ((overlappingParts T H.ht.id key).map PartRow.partMeta) := by
  refine ⟨fun m hm => ?_, fun m hm => ?_⟩ <;> obtain ⟨p, hp, rfl⟩ := List.mem_map.mp hm
  · exact hholds p (mem_overlappingParts.mp hp).1
  · exact hobjects p (mem_overlappingParts.mp hp).1

/-- One more part is there, put where it should be. -/
theorem Opened.append {metas : List PartMeta} {new : PartMeta}
    {groups : List (List (Row H.schema))} (h : Opened H store metas)
    (hput : H.store new.path = some groups)
    (hmade : Made H.reader H.codec H.ht new ⟨H.schema, groups⟩) :
    Opened H (Function.update store new.path (some (H.reader.file groups))) (metas ++ [new]) := by
  have hnew : H.file new.path = some (H.reader.file groups) := by
    rw [Warehouse.file, hput, Option.map_some]
  constructor
  · intro m hm
    rcases List.mem_append.mp hm with hm | hm
    · exact h.holds m hm
    · obtain rfl := List.mem_singleton.mp hm
      exact ⟨groups, hput, hmade⟩
  · intro m hm
    by_cases hpath : m.path = new.path
    · rw [hpath, Function.update_self, hnew]
    · rw [Function.update_of_ne hpath]
      rcases List.mem_append.mp hm with hm | hm
      · exact h.objects m hm
      · exact absurd (congrArg PartMeta.path (List.mem_singleton.mp hm)) hpath

/-- What a round of the loop has written is there. -/
theorem Opened.round {w w' : Rewriting} {p : PartRow} (hreader : env.reader = H.reader)
    (hcode : env.codec = H.codec) (hp : H.Holds p.partMeta)
    (hpath : w.store p.partMeta.path = H.file p.partMeta.path)
    (hput : ∀ new groups, RoundWrites env H key w p new groups → H.store new.path = some groups)
    (h : Opened H w.store w.newParts) (hround : rewritePart env H.ht H.cols key w p = .ok w') :
    Opened H w'.store w'.newParts := by
  rcases rewritePart_cases hround with ⟨-, rfl⟩ |
    ⟨-, batch, i, kept, hread, hi, htype, rfl, -, ⟨-, hparts, hstore⟩ |
      ⟨-, range, groups, spans, new, -, hwrite, -, hparts, hstore⟩⟩
  · exact h
  · rw [hparts, hstore]
    exact h
  · have hcolumn : int64Column batch H.ht.packingKey = .ok (int64Array i batch) := by
      simp only [int64Column, hi, htype, if_true]
    have hnew := hput new groups
      ⟨w', batch, _, spans, hround, hparts, hread, hcolumn, hwrite⟩
    obtain ⟨old, hold, hmade⟩ := hp
    rw [Warehouse.file, hold, Option.map_some] at hpath
    rw [hparts, hstore, hreader]
    exact h.append hnew
      (.rewrite H.version hmade hpath hcode hround hparts hread hcolumn hwrite)

/-- **The new parts of a deletion** are there. -/
theorem opened_foldlM {w : Rewriting} {parts : List PartRow} (hfresh : FreshNames env H.ht.id T)
    (hparts : ∀ p ∈ parts, p ∈ T.parts) (hreader : env.reader = H.reader)
    (hcode : env.codec = H.codec) (hold : Opened H store (parts.map PartRow.partMeta))
    (hput : ∀ done p rest w new groups, parts = done ++ p :: rest →
      done.foldlM (rewritePart env H.ht H.cols key) { store := store } = .ok w →
      RoundWrites env H key w p new groups → H.store new.path = some groups)
    (hloop : parts.foldlM (rewritePart env H.ht H.cols key) { store := store } = .ok w) :
    Opened H w.store w.newParts := by
  refine (List.foldlM_ok_prefix_induction (I := fun done w =>
    done.foldlM (rewritePart env H.ht H.cols key) { store := store } = .ok w ∧
      Opened H w.store w.newParts) hloop ⟨rfl, by simp, by simp⟩ ?_).2
  rintro done p rest w₁ w₂ hl ⟨hdone, hopened⟩ hround
  have hsub : ∀ q ∈ done, q ∈ parts := fun q hq => hl ▸ List.mem_append_left _ hq
  have hp : p ∈ parts := hl ▸ List.mem_append_right _ List.mem_cons_self
  have hrewrites := rewrites_foldlM hfresh (fun q hq => ⟨q, hparts q (hsub q hq), rfl⟩)
    (fun q hq => hold.sealed (List.mem_map_of_mem (hsub q hq))) hdone
  refine ⟨?_, hopened.round hreader hcode (hold.holds _ (List.mem_map_of_mem hp)) ?_
    (fun new groups => hput done p rest w₁ new groups hl hdone) hround⟩
  · rw [List.foldlM_append, hdone]
    exact List.foldlM_cons_eq_ok_iff.mpr ⟨w₂, hround, rfl⟩
  · -- the part that is read has not been written over
    rw [hrewrites.store _ fun level n => hfresh.unused level n p (hparts p hp)]
    exact hold.objects _ (List.mem_map_of_mem hp)

/-- The rows of parts, filtered. -/
theorem filter_rowsOf {α : Type} {content : String → Multiset α} (P : α → Prop) [DecidablePred P]
    (metas : List PartMeta) : (rowsOf content metas).filter P =
      (metas.map fun m => (content m.path).filter P).sum := by
  unfold rowsOf
  induction metas with
  | nil => rfl
  | cons m metas ih =>
    rw [List.map_cons, List.map_cons, List.sum_cons, List.sum_cons, Multiset.filter_add, ih]

/-- The rows of the other keys, in the object of a part. -/
theorem survivors_content {m : PartMeta} {metas : List PartMeta} (h : Opened H store metas)
    (hm : m ∈ metas) : (H.content m.path).filter (fun r => ¬ H.ofKey key r) = 0 ↔
      survivors H.ht.packingKey key (storedBatch store m) = [] := by
  obtain ⟨rows, hcontent, -, hbatch, -⟩ := h.rows hm
  rw [hcontent, hbatch, Multiset.filter_coe, Multiset.coe_eq_zero]
  simp [survivors, Warehouse.ofKey]

/-- A part that is written again has the rows of the other keys, as they are read by name. -/
theorem rows_rewritten {m new : PartMeta} {metas : List PartMeta} {w : Rewriting}
    (h : Opened H store metas) (hm : m ∈ metas) (hnew : Opened H w.store w.newParts)
    (hmem : new ∈ w.newParts) (hrewritten : Rewritten (fun _ => ReadByName H.cols) w.store
      H.ht.packingKey key m (storedBatch store m) new) :
    ∃ kept out, (H.content m.path).filter (fun r => ¬ H.ofKey key r) = Multiset.ofList kept ∧
      H.content new.path = Multiset.ofList out ∧
      List.Forall₂ (ReadByName H.cols) kept out := by
  obtain ⟨rows, hcontent, -, hbatch, -⟩ := h.rows hm
  obtain ⟨rows', hcontent', hrows', -⟩ := hnew.rows hmem
  obtain ⟨out, hsealed, -, hkeeps⟩ := hrewritten.rows
  cases hsealed.rows.symm.trans hrows'
  rw [hbatch] at hkeeps
  refine ⟨_, _, ?_, hcontent', hkeeps⟩
  rw [hcontent, Multiset.filter_coe]
  simp [survivors, Warehouse.ofKey]

theorem content_rewritten {m new : PartMeta} {metas : List PartMeta} {w : Rewriting}
    (hnames : H.Distinct) (h : Opened H store metas) (hm : m ∈ metas)
    (hnew : Opened H w.store w.newParts) (hmem : new ∈ w.newParts)
    (hrewritten : Rewritten (fun _ => ReadByName H.cols) w.store H.ht.packingKey key m
      (storedBatch store m) new) :
    H.content new.path = (H.content m.path).filter fun r => ¬ H.ofKey key r := by
  obtain ⟨kept, out, hkept, hout, hkeeps⟩ := rows_rewritten h hm hnew hmem hrewritten
  rw [hkept, hout, eq_of_forall₂_readByName hnames hkeeps]

/-- **A deletion keeps the rows of the other keys**, and no others. -/
theorem rows_foldlM {w : Rewriting} {parts : List PartRow} (hnames : H.Distinct)
    (hold : Opened H store (parts.map PartRow.partMeta)) (hnew : Opened H w.store w.newParts)
    (hw : Rewrites env H.ht H.cols key store parts w) : rowsOf H.content w.newParts =
      (rowsOf H.content (parts.map PartRow.partMeta)).filter fun r => ¬ H.ofKey key r := by
  set weight := fun p : PartRow => (H.content p.partMeta.path).filter fun r => ¬ H.ofKey key r
  have hmem : ∀ p ∈ parts, p.partMeta ∈ parts.map PartRow.partMeta := fun p hp =>
    List.mem_map_of_mem hp
  have hkept : (surviving store H.ht.packingKey key parts).map weight =
      w.newParts.map fun m => H.content m.path := by
    rw [← List.forall₂_eq_eq_eq, List.forall₂_map_left_iff, List.forall₂_map_right_iff]
    refine ((List.forall₂_and_left _ _).mpr ⟨fun p hp => (List.mem_filter.mp hp).1,
      ((List.forall₂_and_left _ _).mpr ⟨fun _ h => h, hw.parts.flip⟩).flip⟩).imp ?_
    rintro p new ⟨hp, hmem', hrewritten⟩
    exact (content_rewritten hnames hold (hmem p hp) hnew hmem' hrewritten).symm
  set left := fun p : PartRow =>
    decide (survivors H.ht.packingKey key (storedBatch store p.partMeta) ≠ [])
  -- what is dropped has no row of another key
  have hdropped : ((parts.filter fun p => !left p).map weight).sum = 0 := by
    refine List.sum_eq_zero fun y hy => ?_
    obtain ⟨p, hp, rfl⟩ := List.mem_map.mp hy
    obtain ⟨hp, hnone⟩ := List.mem_filter.mp hp
    exact (survivors_content hold (hmem p hp)).mpr (by simpa [left] using hnone)
  calc rowsOf H.content w.newParts
      = ((parts.filter left).map weight).sum := by rw [rowsOf, ← hkept]; rfl
    _ = ((parts.filter left).map weight).sum +
          ((parts.filter fun p => !left p).map weight).sum := by rw [hdropped, add_zero]
    _ = (parts.map weight).sum := List.sum_map_filter_add_not weight left parts
    _ = _ := by rw [filter_rowsOf, List.map_map]; rfl

end Deletion

/-! ## 7. Every writer -/

/-- **What a writer exchanges.**  Over parts that are there, the new parts are there too, and their
rows are those of the parts they replace, with what is added and without what is erased. -/
theorem Wrote.exchange {T : Tables} {c : Call} {inputs : List PartRow} {e : Effect H}
    (hholds : ∀ p ∈ T.parts, p.hypertableId = H.ht.id → H.Holds p.partMeta)
    (h : Wrote H T c inputs e) : Exchange H T c inputs e := by
  have hlive : ∀ p ∈ T.liveParts H.ht.id, p ∈ T.parts ∧ p.hypertableId = H.ht.id := by
    intro p hp
    obtain ⟨hp, hcond⟩ := List.mem_filter.mp hp
    exact ⟨hp, (of_decide_eq_true hcond).1⟩
  cases h with
  | @add _ parts table op holds =>
    refine ⟨table, by simp, by rw [op]; rfl, by rw [op]; exact holds, fun _ => ?_⟩
    rw [op, add_zero, List.map_nil]
    exact (zero_add _).symm
  | @merge _ eval store streams converter batches env written lease identity partitionValues level
      live objects read drained key code write put =>
    have hopened : Opened H store (inputs.map PartRow.partMeta) := by
      refine ⟨fun m hm => ?_, fun m hm => ?_⟩ <;> obtain ⟨p, hp, rfl⟩ := List.mem_map.mp hm
      · exact hholds p (hlive p (live p hp)).1 (hlive p (live p hp)).2
      · exact objects p hp
    refine ⟨rfl, fun p hp => hlive p (live p hp), rfl, fun m hm => ?_, fun hnames => ?_⟩
    · obtain ⟨x, hx, rfl⟩ := List.mem_map.mp hm
      exact hopened.holds_merge read drained key code write hx (put x hx) partitionValues level
    · rw [add_zero, add_zero]
      exact hopened.rows_merge hnames read drained key write put partitionValues level
  | @deleteKey env store key d objects fresh reader code run put =>
    obtain ⟨identity, cols, w, hparse, hloop, rfl, -⟩ := deleteKey_eq_ok run
    obtain rfl : cols = H.cols := Except.ok.inj (hparse.symm.trans H.version.parse)
    have hparts : ∀ p ∈ overlappingParts T H.ht.id key, p ∈ T.parts ∧ p.hypertableId = H.ht.id :=
      fun p hp => hlive p (mem_overlappingParts.mp hp).1
    have hold := @overlapping_opened H T store key
      (fun p hp => hholds p (hlive p hp).1 (hlive p hp).2) objects
    have hnew := opened_foldlM fresh (fun p hp => (hparts p hp).1) reader code hold put hloop
    have hw := rewrites_foldlM fresh (fun p hp => ⟨p, (hparts p hp).1, rfl⟩)
      (fun p hp => hold.sealed (List.mem_map_of_mem hp)) hloop
    refine ⟨rfl, hparts, rfl, hnew.holds, fun hnames => ?_⟩
    have hrows := rows_foldlM hnames hold hnew hw
    show rowsOf H.content w.newParts + _ = _ + 0
    rw [hrows, add_zero, add_comm]
    exact Multiset.filter_add_not _ _
  | @delete _ _ table op seen =>
    refine ⟨table, seen, by rw [op]; rfl, by simp [op, CommitOp.newParts], fun _ => ?_⟩
    rw [op, add_zero]
    exact zero_add _

end Ukiel.Compactor
