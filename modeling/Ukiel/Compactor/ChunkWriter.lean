/-
# The streaming chunk writer

`ukiel-compactor/src/rewrite.rs`, `StreamingChunkWriter`: a merged stream, sorted by the packing
key, is written out as files of the table's placement.  A file is cut before a key, in the middle
of one or not at all, by the size the Parquet writer says it has; what it says is anybody's guess
here (`encodedSize`, one answer for each time it is asked).

`write_spec`: the files have the rows of the stream in their order, and what is recorded of each
is exact; and how keys are spread over files is as the placement promises, for a `SizeTargeted`
one that a file which goes on with the key of an earlier file has no other.
-/
import Ukiel.Core.Stats
import Ukiel.Write.Parquet
import Ukiel.Compactor.Merge

namespace Ukiel.Compactor
open Ukiel.Write

/-! ## 1. The writer -/

structure ChunkOutput where
  path : String
  keyMin : I64
  keyMax : I64
  rowCount : Int
  sizeBytes : Int
  columnStats : Option Json
deriving DecidableEq

/-- What the writer is made with, and what it is told by others. -/
structure ChunkWriterEnv where
  codec : PartCodec
  placement : Placement
  maxRowGroupRows : Nat
  packingKey : String
  nextPath : Nat → String
  onOpen : String → Except CompactorError Unit
  /-- `encoded_size` of the open file, the n-th time it is asked for. -/
  encodedSize : Nat → Nat
  /-- The size of a stored object. -/
  head : String → Int

abbrev ChunkWriterEnv.parquet (env : ChunkWriterEnv) : ParquetWriter := env.codec.parquet

/-- One open output file. -/
structure OpenFile (env : ChunkWriterEnv) (s : Schema) where
  writer : env.parquet.ArrowWriter (Row s)
  path : String
  keyMin : I64
  keyMax : I64
  currentKey : I64
  rows : Int
  stats : Int64StatsAccumulator
  keys : KeyBitmapAccumulator
  packingKey : String
  /-- A whale continuation, which must not absorb a following different key. -/
  dedicated : Bool

/-- A closed file: its catalog metadata, and what is in the store. -/
structure Written (s : Schema) where
  output : ChunkOutput
  rowGroups : List (List (Row s))

def Written.rows {s : Schema} (w : Written s) : List (Row s) := w.rowGroups.flatten

namespace OpenFile

variable {env : ChunkWriterEnv} {s : Schema}

/-- `write_slice`. -/
def writeSlice (f : OpenFile env s) (key : I64) (slice : List (Row s)) : OpenFile env s :=
  { f with
    writer := env.parquet.write f.writer slice
    keyMax := max f.keyMax key
    currentKey := key
    rows := f.rows + slice.length
    stats := f.stats.update slice
    keys := f.keys.update slice f.packingKey }

/-- `close`: the key index is for files with several keys. -/
def close (env : ChunkWriterEnv) (f : OpenFile env s) : Written s :=
  let multiKey := f.keyMin ≠ f.keyMax
  let bitmap := if multiKey then f.keys.finish env.codec else none
  let ended := env.parquet.flushed (env.parquet.flush f.writer)
  let spans := if multiKey then keyRowGroups ended f.packingKey else none
  ⟨⟨f.path, f.keyMin, f.keyMax, f.rows, env.head f.path, withKeyIndex f.stats.finish bitmap spans⟩,
    env.parquet.close f.writer⟩

end OpenFile

/-- The state of `StreamingChunkWriter::write`. -/
structure ChunkWriter (env : ChunkWriterEnv) (s : Schema) where
  openFile : Option (OpenFile env s)
  outputs : List (Written s)
  lastClosedKey : Option I64
  /-- How many files were opened, and how often a size was asked for. -/
  opened : Nat
  looks : Nat

namespace ChunkWriter

variable {s : Schema} (env : ChunkWriterEnv)

def new : ChunkWriter env s := ⟨none, [], none, 0, 0⟩

/-- The open file is closed, and its last key remembered. -/
def cut (w : ChunkWriter env s) (f : OpenFile env s) : ChunkWriter env s :=
  { w with openFile := none, outputs := w.outputs ++ [f.close env], lastClosedKey := some f.currentKey }

/-- `n as usize`. -/
def targetBytes (n : Int) : Nat := (n % 2 ^ 64).toNat

/-- Cut before a new key when placement demands it. -/
def cutBefore (w : ChunkWriter env s) (k : I64) : ChunkWriter env s :=
  match w.openFile with
  | none => w
  | some f =>
    match env.placement with
    | .packed => w
    | .separated => if f.currentKey ≠ k then w.cut env f else w
    | .sizeTargeted n =>
      if f.currentKey = k then w
      else
        let asked := { w with looks := w.looks + 1 }
        if targetBytes n ≤ env.encodedSize w.looks ∨ f.dedicated then asked.cut env f else asked

/-- `open_file`, unless a file is open. -/
def ensureOpen (w : ChunkWriter env s) (k : I64) :
    Except CompactorError (OpenFile env s × ChunkWriter env s) :=
  match w.openFile with
  | some f => .ok (f, w)
  | none =>
    let path := env.nextPath w.opened
    match env.onOpen path with
    | .error e => .error e
    | .ok () =>
      .ok (⟨env.parquet.new env.maxRowGroupRows, path, k, k, k, 0, .empty, .empty, env.packingKey,
        w.lastClosedKey = some k⟩, { w with opened := w.opened + 1 })

/-- `SizeTargeted`: cut once the file reaches the target. -/
def cutAfter (w : ChunkWriter env s) (f : OpenFile env s) : ChunkWriter env s :=
  match env.placement with
  | .sizeTargeted n =>
    let asked := { w with openFile := some f, looks := w.looks + 1 }
    if targetBytes n ≤ env.encodedSize w.looks then asked.cut env f else asked
  | _ => { w with openFile := some f }

/-- The loop over a key's rows, a row group's worth at a time; each round takes a row at least. -/
def writeRun (k : I64) : Nat → List (Row s) → ChunkWriter env s →
    Except CompactorError (ChunkWriter env s)
  | _, [], w => .ok w
  | 0, _ :: _, w => .ok w
  | fuel + 1, a :: rest, w =>
    let run := a :: rest
    let cap := max env.maxRowGroupRows 1
    match w.ensureOpen env k with
    | .error e => .error e
    | .ok (f, w) =>
      -- key-aligned row groups: end the group this run would overflow
      let rows := (env.parquet.inProgress f.writer).length
      let f := if 0 < rows ∧ cap < rows + run.length
        then { f with writer := env.parquet.flush f.writer } else f
      let take := min run.length cap
      writeRun k fuel (run.drop take) (w.cutAfter env (f.writeSlice k (run.take take)))

/-- `consume_key_run`. -/
def consumeKeyRun (w : ChunkWriter env s) (k : I64) (run : List (Row s)) :
    Except CompactorError (ChunkWriter env s) :=
  writeRun env k run.length run (w.cutBefore env k)

/-- The loop over the batches of the stream. -/
def writeBatches : List (Except CompactorError (List (Row s))) → ChunkWriter env s →
    Except CompactorError (ChunkWriter env s)
  | [], w => .ok w
  | .error e :: _, _ => .error e
  | .ok batch :: stream, w => do
    let runs ← splitByKey batch env.packingKey
    let w ← runs.foldlM (fun w run => w.consumeKeyRun env run.1 run.2) w
    writeBatches stream w

end ChunkWriter

/-- `StreamingChunkWriter::write`. -/
def StreamingChunkWriter.write {s : Schema} (env : ChunkWriterEnv)
    (stream : List (Except CompactorError (List (Row s)))) :
    Except CompactorError (List (Written s)) :=
  match ChunkWriter.writeBatches env stream (.new env) with
  | .error e => .error e
  | .ok w => .ok (w.outputs ++ (w.openFile.map (OpenFile.close env)).toList)

/-! ## 2. What is promised of the files -/

section Promise

variable {α : Type} (key : α → I64)

/-- What is recorded of a file's rows: their smallest and largest key and their number. -/
structure Exact (rows : List α) (keyMin keyMax : I64) (rowCount : Int) : Prop where
  min_mem : ∃ r ∈ rows, key r = keyMin
  min_le : ∀ r ∈ rows, keyMin ≤ key r
  max_mem : ∃ r ∈ rows, key r = keyMax
  le_max : ∀ r ∈ rows, key r ≤ keyMax
  count : rowCount = rows.length

/-- Two files share no key. -/
def Apart (a b : List α) : Prop := ∀ x ∈ a, ∀ y ∈ b, key x ≠ key y

/-- A file with a key of an earlier one has no other key. -/
def Continues (a b : List α) : Prop := ∀ x ∈ a, ∀ y ∈ b, key x = key y → ∀ z ∈ b, key z = key y

/-- How a placement spreads keys over files. -/
def Spread : Placement → List (List α) → Prop
  | .packed, files => files.length ≤ 1
  | .separated, files => (∀ file ∈ files, ∀ x ∈ file, ∀ y ∈ file, key x = key y) ∧
      files.Pairwise (Apart key)
  | .sizeTargeted _, files => files.Pairwise (Continues key)

variable {key}

theorem Exact.append {rows slice : List α} {lo hi k : I64} {n : Int} (h : Exact key rows lo hi n)
    (hne : slice ≠ []) (hk : ∀ r ∈ slice, key r = k) (hle : ∀ r ∈ rows, key r ≤ k) :
    Exact key (rows ++ slice) lo (max hi k) (n + slice.length) ∧ max hi k = k := by
  obtain ⟨r, hr, hrmax⟩ := h.max_mem
  have hhi : hi ≤ k := hrmax ▸ hle r hr
  have hmax : max hi k = k := max_eq_right hhi
  obtain ⟨x, hx⟩ := List.exists_mem_of_ne_nil slice hne
  refine ⟨⟨?_, ?_, ?_, ?_, ?_⟩, hmax⟩
  · obtain ⟨y, hy, hmin⟩ := h.min_mem
    exact ⟨y, List.mem_append_left _ hy, hmin⟩
  · intro y hy
    rcases List.mem_append.mp hy with hy | hy
    · exact h.min_le y hy
    · rw [hk y hy]
      exact (h.min_le r hr).trans (hle r hr)
  · exact ⟨x, List.mem_append_right _ hx, by rw [hmax, hk x hx]⟩
  · intro y hy
    rw [hmax]
    rcases List.mem_append.mp hy with hy | hy
    · exact hle y hy
    · exact (hk y hy).le
  · rw [h.count, List.length_append]
    push_cast
    rfl

theorem exact_of_run {slice : List α} {k : I64} (hne : slice ≠ []) (hk : ∀ r ∈ slice, key r = k) :
    Exact key slice k k slice.length := by
  obtain ⟨x, hx⟩ := List.exists_mem_of_ne_nil slice hne
  exact ⟨⟨x, hx, hk x hx⟩, fun r hr => (hk r hr).ge, ⟨x, hx, hk x hx⟩, fun r hr => (hk r hr).le, rfl⟩

/-- A file of one key is added. -/
theorem Spread.concat {placement : Placement} {files : List (List α)} {slice : List α} {k : I64}
    (h : Spread key placement files) (hk : ∀ r ∈ slice, key r = k)
    (hpacked : placement = .packed → files = [])
    (hseparated : placement = .separated → ∀ r ∈ files.flatten, key r ≠ k) :
    Spread key placement (files ++ [slice]) := by
  cases placement with
  | packed =>
    rw [hpacked rfl]
    exact Nat.le_refl 1
  | separated =>
    refine ⟨?_, List.pairwise_append.mpr ⟨h.2, List.pairwise_singleton _ _, ?_⟩⟩
    · intro file hfile x hx y hy
      rcases List.mem_append.mp hfile with hfile | hfile
      · exact h.1 file hfile x hx y hy
      · rw [List.mem_singleton.mp hfile] at hx hy
        rw [hk x hx, hk y hy]
    · intro a ha b hb x hx y hy
      rw [List.mem_singleton.mp hb] at hy
      rw [hk y hy]
      exact hseparated rfl x (List.mem_flatten_of_mem ha hx)
  | sizeTargeted n =>
    refine List.pairwise_append.mpr ⟨h, List.pairwise_singleton _ _, ?_⟩
    intro a _ b hb x _ y hy _ z hz
    rw [List.mem_singleton.mp hb] at hy hz
    rw [hk y hy, hk z hz]

/-- The last file goes on with rows of one key, which are above all others. -/
theorem Spread.extend {placement : Placement} {files : List (List α)} {last slice : List α}
    {k : I64} (h : Spread key placement (files ++ [last])) (hne : last ≠ [])
    (hk : ∀ r ∈ slice, key r = k) (hle : ∀ r ∈ last, key r ≤ k)
    (horder : ∀ a ∈ files, ∀ x ∈ a, ∀ y ∈ last, key x ≤ key y)
    (hseparated : placement = .separated → ∀ r ∈ last, key r = k)
    (htargeted : ∀ n, placement = .sizeTargeted n →
      (∃ a ∈ files, ∃ x ∈ a, ∃ y ∈ last, key x = key y) → ∃ y ∈ last, key y = k) :
    Spread key placement (files ++ [last ++ slice]) := by
  cases placement with
  | packed => simpa [Spread] using h
  | separated =>
    obtain ⟨hsame, hapart⟩ := h
    obtain ⟨hfiles, -, hlast⟩ := List.pairwise_append.mp hapart
    have hall : ∀ r ∈ last ++ slice, key r = k := by
      intro r hr
      exact (List.mem_append.mp hr).elim (hseparated rfl r) (hk r)
    refine ⟨?_, List.pairwise_append.mpr ⟨hfiles, List.pairwise_singleton _ _, ?_⟩⟩
    · intro file hfile x hx y hy
      rcases List.mem_append.mp hfile with hfile | hfile
      · exact hsame file (List.mem_append_left _ hfile) x hx y hy
      · rw [List.mem_singleton.mp hfile] at hx hy
        rw [hall x hx, hall y hy]
    · intro a ha b hb x hx y hy
      rw [List.mem_singleton.mp hb] at hy
      obtain ⟨r, hr⟩ := List.exists_mem_of_ne_nil last hne
      rw [hall y hy, ← hseparated rfl r hr]
      exact hlast a ha last (List.mem_singleton_self _) x hx r hr
  | sizeTargeted n =>
    obtain ⟨hfiles, -, hlast⟩ := List.pairwise_append.mp h
    refine List.pairwise_append.mpr ⟨hfiles, List.pairwise_singleton _ _, ?_⟩
    intro a ha b hb x hx y hy hxy z hz
    rw [List.mem_singleton.mp hb] at hy hz
    -- the shared key is `k`, and all of the last file has it
    have hlastk : ∀ r ∈ last, key r = k := by
      rcases List.mem_append.mp hy with hy | hy
      · obtain ⟨w, hw, hwk⟩ := htargeted n rfl ⟨a, ha, x, hx, y, hy, hxy⟩
        intro r hr
        rw [hlast a ha last (List.mem_singleton_self _) x hx y hy hxy r hr,
          ← hlast a ha last (List.mem_singleton_self _) x hx y hy hxy w hw, hwk]
      · intro r hr
        have hxr := horder a ha x hx r hr
        rw [hxy, hk y hy] at hxr
        exact le_antisymm (hle r hr) hxr
    have hall : ∀ r ∈ last ++ slice, key r = k := fun r hr =>
      (List.mem_append.mp hr).elim (hlastk r) (hk r)
    rw [hall z hz, hall y hy]

theorem splitRuns_flatMap (rows : List α) : (splitRuns key rows).flatMap Prod.snd = rows := by
  induction rows with
  | nil => rfl
  | cons a rows ih =>
    rw [splitRuns]
    split
    · rename_i hnil
      rw [hnil] at ih
      rw [← ih]
      rfl
    · rename_i k run runs hcons
      rw [hcons] at ih
      rw [← ih]
      split <;> rfl

/-- A run has rows, all of its key. -/
theorem splitRuns_run {rows : List α} :
    ∀ run ∈ splitRuns key rows, run.2 ≠ [] ∧ ∀ r ∈ run.2, key r = run.1 := by
  induction rows with
  | nil => simp [splitRuns]
  | cons a rows ih =>
    rw [splitRuns]
    split
    · simp
    · rename_i k run runs hcons
      rw [hcons] at ih
      obtain ⟨⟨hne, hrun⟩, hruns⟩ := List.forall_mem_cons.mp ih
      split
      · rename_i hka
        refine List.forall_mem_cons.mpr ⟨⟨by simp, ?_⟩, hruns⟩
        exact List.forall_mem_cons.mpr ⟨hka, hrun⟩
      · exact List.forall_mem_cons.mpr ⟨by simp, ih⟩

end Promise

/-! ## 3. The invariant -/

section Writer

variable {s : Schema} {env : ChunkWriterEnv} {key : Row s → I64}

/-- The rows of the files so far, the open one last. -/
def ChunkWriter.files (w : ChunkWriter env s) : List (List (Row s)) :=
  w.outputs.map Written.rows ++ (w.openFile.map fun f => env.parquet.rows f.writer).toList

/-- **The invariant**, when the writer has been given the rows `done`. -/
structure Writes (env : ChunkWriterEnv) (key : Row s → I64) (done : List (Row s))
    (w : ChunkWriter env s) : Prop where
  files : w.files.flatten = done
  sorted : done.Pairwise fun a b => key a ≤ key b
  outputs : ∀ x ∈ w.outputs,
    Exact key x.rows x.output.keyMin x.output.keyMax x.output.rowCount
  current : ∀ f, w.openFile = some f →
    Exact key (env.parquet.rows f.writer) f.keyMin f.keyMax f.rows ∧ f.currentKey = f.keyMax
  closed : ∀ x ∈ w.outputs, ∀ r ∈ x.rows, ∃ l, w.lastClosedKey = some l ∧ key r ≤ l
  last : ∀ l, w.lastClosedKey = some l → ∃ r ∈ done, key r = l
  spread : Spread key env.placement w.files
  packed : env.placement = .packed → w.outputs = []
  dedicated : ∀ n, env.placement = .sizeTargeted n → ∀ f, w.openFile = some f →
    (∃ a ∈ w.outputs.map Written.rows, ∃ x ∈ a, ∃ y ∈ env.parquet.rows f.writer, key x = key y) →
      f.dedicated = true

/-- What the placement asks before rows of key `k` are written. -/
structure Ready (env : ChunkWriterEnv) (key : Row s → I64) (done : List (Row s)) (k : I64)
    (w : ChunkWriter env s) : Prop where
  separated : env.placement = .separated →
    (∀ f, w.openFile = some f → f.currentKey = k) ∧ (w.openFile = none → ∀ r ∈ done, key r ≠ k)
  targeted : ∀ n, env.placement = .sizeTargeted n → ∀ f, w.openFile = some f →
    f.currentKey = k ∨ f.dedicated = false

theorem files_of_open {w : ChunkWriter env s} {f : OpenFile env s} (hf : w.openFile = some f) :
    w.files = w.outputs.map Written.rows ++ [env.parquet.rows f.writer] := by
  rw [ChunkWriter.files, hf]
  rfl

theorem files_of_closed {w : ChunkWriter env s} (hf : w.openFile = none) :
    w.files = w.outputs.map Written.rows := by
  rw [ChunkWriter.files, hf]
  exact List.append_nil _

theorem close_rows (f : OpenFile env s) : (f.close env).rows = env.parquet.rows f.writer :=
  env.parquet.flatten_close f.writer

/-- A closed file is where the open one was. -/
theorem files_cut {w : ChunkWriter env s} {f : OpenFile env s} (hf : w.openFile = some f) :
    (w.cut env f).files = w.files := by
  rw [files_of_open hf, files_of_closed rfl, ChunkWriter.cut, List.map_append, List.map_singleton,
    close_rows]

/-- The rows of the closed files are below those of the open one. -/
theorem Writes.below {done : List (Row s)} {w : ChunkWriter env s} (h : Writes env key done w)
    {f : OpenFile env s} (hf : w.openFile = some f) :
    ∀ a ∈ w.outputs.map Written.rows, ∀ x ∈ a, ∀ y ∈ env.parquet.rows f.writer, key x ≤ key y := by
  intro a ha x hx y hy
  have hsorted := h.sorted
  rw [← h.files, files_of_open hf, List.flatten_append, List.pairwise_append] at hsorted
  exact hsorted.2.2 x (List.mem_flatten_of_mem ha hx) y (by simpa using hy)

theorem Writes.mem_open {done : List (Row s)} {w : ChunkWriter env s} (h : Writes env key done w)
    {f : OpenFile env s} (hf : w.openFile = some f) :
    ∀ r ∈ env.parquet.rows f.writer, r ∈ done := by
  intro r hr
  rw [← h.files, files_of_open hf]
  exact List.mem_flatten_of_mem (List.mem_append_right _ (List.mem_singleton_self _)) hr

/-- **A cut** keeps the invariant. -/
theorem Writes.cut {done : List (Row s)} {w : ChunkWriter env s} (h : Writes env key done w)
    {f : OpenFile env s} (hf : w.openFile = some f) (hpacked : env.placement ≠ .packed) :
    Writes env key done (w.cut env f) := by
  obtain ⟨hexact, hcurrent⟩ := h.current f hf
  refine ⟨?_, h.sorted, ?_, ?_, ?_, ?_, ?_, fun hp => absurd hp hpacked, ?_⟩
  · rw [files_cut hf]
    exact h.files
  · intro x hx
    rcases List.mem_append.mp hx with hx | hx
    · exact h.outputs x hx
    · rw [List.mem_singleton.mp hx, close_rows]
      exact hexact
  · intro f' hf'
    cases hf'
  · intro x hx r hr
    refine ⟨f.currentKey, rfl, ?_⟩
    rw [hcurrent]
    rcases List.mem_append.mp hx with hx | hx
    · obtain ⟨y, hy, hmax⟩ := hexact.max_mem
      rw [← hmax]
      exact h.below hf x.rows (List.mem_map_of_mem hx) r hr y hy
    · rw [List.mem_singleton.mp hx, close_rows] at hr
      exact hexact.le_max r hr
  · rintro _ ⟨⟩
    obtain ⟨y, hy, hmax⟩ := hexact.max_mem
    exact ⟨y, h.mem_open hf y hy, by rw [hmax, hcurrent]⟩
  · rw [files_cut hf]
    exact h.spread
  · intro n _ f' hf'
    cases hf'

/-- Before a key's rows the open file is cut where the placement asks for it. -/
theorem Writes.cutBefore {done : List (Row s)} {w : ChunkWriter env s} (h : Writes env key done w)
    {k : I64} (hle : ∀ r ∈ done, key r ≤ k)
    (hlive : env.placement = .separated → w.openFile = none → done = []) :
    Writes env key done (w.cutBefore env k) ∧ Ready env key done k (w.cutBefore env k) := by
  have hnot : ∀ {p q : Placement}, env.placement = p → p ≠ q → env.placement ≠ q :=
    fun hp hpq hq => hpq (hp.symm.trans hq)
  unfold ChunkWriter.cutBefore
  split
  · rename_i hf
    refine ⟨h, fun hp => ⟨fun f hf' => ?_, fun _ r hr => ?_⟩, fun n _ f hf' => ?_⟩
    · rw [hf] at hf'
      cases hf'
    · rw [hlive hp hf] at hr
      cases hr
    · rw [hf] at hf'
      cases hf'
  · rename_i f hf
    have hopen : ∀ f', w.openFile = some f' → f' = f := fun f' hf' =>
      Option.some.inj (hf'.symm.trans hf)
    split
    · rename_i hp
      exact ⟨h, fun hp' => absurd hp' (hnot hp (by simp)), fun n hp' => absurd hp' (hnot hp (by simp))⟩
    · rename_i hp
      have hcut := h.cut hf (hnot hp (by simp))
      split
      · rename_i hne
        refine ⟨hcut, fun _ => ⟨fun f' hf' => ?_, fun _ r hr heq => ?_⟩,
          fun n hp' => absurd hp' (hnot hp (by simp))⟩
        · cases hf'
        · -- every row is at most the closed file's last key, which is below `k`
          rw [← hcut.files, files_of_closed rfl] at hr
          obtain ⟨a, ha, hra⟩ := List.mem_flatten.mp hr
          obtain ⟨x, hx, rfl⟩ := List.mem_map.mp ha
          obtain ⟨l, hl, hrl⟩ := hcut.closed x hx r hra
          obtain ⟨y, hy, hyl⟩ := hcut.last l hl
          cases hl
          exact hne (le_antisymm (hyl ▸ hle y hy) (heq ▸ hrl))
      · rename_i heq
        refine ⟨h, fun _ => ⟨fun f' hf' => ?_, fun hnone => ?_⟩,
          fun n hp' => absurd hp' (hnot hp (by simp))⟩
        · rw [hopen f' hf']
          exact not_not.mp heq
        · rw [hf] at hnone
          cases hnone
    · rename_i n hp
      have hasked : Writes env key done { w with looks := w.looks + 1 } :=
        ⟨h.files, h.sorted, h.outputs, h.current, h.closed, h.last, h.spread, h.packed, h.dedicated⟩
      split
      · rename_i heq
        refine ⟨h, fun hp' => absurd hp' (hnot hp (by simp)), fun n _ f' hf' => Or.inl ?_⟩
        rw [hopen f' hf']
        exact heq
      · simp only
        split
        · refine ⟨hasked.cut hf (hnot hp (by simp)), fun hp' => absurd hp' (hnot hp (by simp)),
            fun n _ f' hf' => ?_⟩
          cases hf'
        · rename_i hkeep
          refine ⟨hasked, fun hp' => absurd hp' (hnot hp (by simp)), fun n _ f' hf' => Or.inr ?_⟩
          rw [hopen f' hf']
          push Not at hkeep
          simpa using hkeep.2

/-- Rows above all others are sorted behind them. -/
theorem sorted_append_run {done slice : List (Row s)} {k : I64}
    (hsorted : done.Pairwise fun a b => key a ≤ key b) (hk : ∀ r ∈ slice, key r = k)
    (hle : ∀ r ∈ done, key r ≤ k) : (done ++ slice).Pairwise fun a b => key a ≤ key b := by
  refine List.pairwise_append.mpr ⟨hsorted, ?_, fun a ha b hb => (hle a ha).trans (hk b hb).ge⟩
  refine List.Pairwise.imp_of_mem (R := fun _ _ => True) ?_ (List.pairwise_of_forall fun _ _ => trivial)
  intro a b ha hb _
  rw [hk a ha, hk b hb]

/-- **The open file** goes on. -/
theorem Writes.extend {done slice : List (Row s)} {w : ChunkWriter env s} {k : I64}
    (h : Writes env key done w) (hready : Ready env key done k w) (hle : ∀ r ∈ done, key r ≤ k)
    (hne : slice ≠ []) (hk : ∀ r ∈ slice, key r = k) {f : OpenFile env s} (hf : w.openFile = some f)
    {writer : env.parquet.ArrowWriter (Row s)}
    (hwriter : env.parquet.rows writer = env.parquet.rows f.writer) :
    Writes env key (done ++ slice)
      { w with openFile := some (({ f with writer } : OpenFile env s).writeSlice k slice) } := by
  obtain ⟨hexact, hcurrent⟩ := h.current f hf
  have hrows : env.parquet.rows (({ f with writer } : OpenFile env s).writeSlice k slice).writer =
      env.parquet.rows f.writer ++ slice := by
    rw [OpenFile.writeSlice, env.parquet.rows_write, hwriter]
  have hlast : ∀ r ∈ env.parquet.rows f.writer, key r ≤ k := fun r hr => hle r (h.mem_open hf r hr)
  obtain ⟨top, htop, hmax⟩ := hexact.max_mem
  have hspread := h.spread
  rw [files_of_open hf] at hspread
  have hfiles := h.files
  rw [files_of_open hf] at hfiles
  refine ⟨?_, sorted_append_run h.sorted hk hle, h.outputs, ?_, h.closed, ?_, ?_, h.packed, ?_⟩
  · rw [files_of_open rfl, hrows, ← hfiles]
    simp
  · rintro _ ⟨⟩
    rw [hrows]
    obtain ⟨happend, hk'⟩ := hexact.append hne hk hlast
    exact ⟨happend, hk'.symm⟩
  · intro l hl
    obtain ⟨r, hr, hrl⟩ := h.last l hl
    exact ⟨r, List.mem_append_left _ hr, hrl⟩
  · rw [files_of_open rfl, hrows]
    refine hspread.extend (List.ne_nil_of_mem htop) hk hlast (h.below hf) ?_ ?_
    · intro hp r hr
      have hsame : ∀ file ∈ w.outputs.map Written.rows ++ [env.parquet.rows f.writer],
          ∀ x ∈ file, ∀ y ∈ file,
          key x = key y := by
        rw [hp] at hspread
        exact hspread.1
      rw [hsame (env.parquet.rows f.writer) (by simp) r hr top htop, hmax, ← hcurrent]
      exact (hready.separated hp).1 f hf
    · intro n hp hshare
      have hkey := (hready.targeted n hp f hf).resolve_right (by rw [h.dedicated n hp f hf hshare]; simp)
      exact ⟨top, htop, by rw [hmax, ← hcurrent, hkey]⟩
  · rintro n hp _ ⟨⟩ ⟨a, ha, x, hx, y, hy, hxy⟩
    rw [hrows] at hy
    refine h.dedicated n hp f hf ?_
    rcases List.mem_append.mp hy with hy | hy
    · exact ⟨a, ha, x, hx, y, hy, hxy⟩
    · refine ⟨a, ha, x, hx, top, htop, le_antisymm (h.below hf a ha x hx top htop) ?_⟩
      rw [hxy, hk y hy]
      exact hlast top htop

/-- **A new file** is opened. -/
theorem Writes.start {done slice : List (Row s)} {w : ChunkWriter env s} {k : I64}
    (h : Writes env key done w) (hready : Ready env key done k w) (hle : ∀ r ∈ done, key r ≤ k)
    (hne : slice ≠ []) (hk : ∀ r ∈ slice, key r = k) (hnone : w.openFile = none)
    {f : OpenFile env s}
    (hempty : env.parquet.rows f.writer = []) (hfresh : f.keyMin = k ∧ f.keyMax = k ∧ f.rows = 0 ∧
      f.dedicated = decide (w.lastClosedKey = some k)) :
    Writes env key (done ++ slice) { w with openFile := some (f.writeSlice k slice) } := by
  obtain ⟨hmin, hmax, hzero, hdedicated⟩ := hfresh
  have hrows : env.parquet.rows (f.writeSlice k slice).writer = slice := by
    rw [OpenFile.writeSlice, env.parquet.rows_write, hempty, List.nil_append]
  have hspread := h.spread
  have hfiles := h.files
  rw [files_of_closed hnone] at hspread hfiles
  refine ⟨?_, sorted_append_run h.sorted hk hle, h.outputs, ?_, h.closed, ?_, ?_, h.packed, ?_⟩
  · rw [files_of_open rfl, hrows, ← hfiles]
    simp
  · rintro _ ⟨⟩
    rw [hrows]
    have hexact := exact_of_run hne hk
    unfold OpenFile.writeSlice
    simp only [hmin, hmax, hzero, max_self, zero_add]
    exact ⟨hexact, trivial⟩
  · intro l hl
    obtain ⟨r, hr, hrl⟩ := h.last l hl
    exact ⟨r, List.mem_append_left _ hr, hrl⟩
  · rw [files_of_open rfl, hrows]
    refine hspread.concat hk (fun hp => by rw [h.packed hp]; rfl) fun hp r hr => ?_
    exact (hready.separated hp).2 hnone r (hfiles ▸ hr)
  · rintro n hp _ ⟨⟩ ⟨a, ha, x, hx, y, hy, hxy⟩
    rw [hrows] at hy
    obtain ⟨o, ho, rfl⟩ := List.mem_map.mp ha
    -- the file closed last ended with this key
    obtain ⟨l, hl, hxl⟩ := h.closed o ho x hx
    obtain ⟨r, hr, hrl⟩ := h.last l hl
    have hlk : l = k := le_antisymm (hrl ▸ hle r hr) (by rw [← hk y hy, ← hxy]; exact hxl)
    unfold OpenFile.writeSlice
    simp only [hdedicated, hl, hlk, decide_true]

/-- After a slice the file is cut if it has reached its target. -/
theorem Writes.cutAfter {done : List (Row s)} {w : ChunkWriter env s} {f : OpenFile env s} {k : I64}
    (h : Writes env key done { w with openFile := some f }) (hcurrent : f.currentKey = k) :
    Writes env key done (w.cutAfter env f) ∧ Ready env key done k (w.cutAfter env f) := by
  have hready : ∀ looks, Ready env key done k { w with openFile := some f, looks } := by
    refine fun looks => ⟨fun _ => ⟨fun f' hf' => ?_, fun hnone => ?_⟩, fun n _ f' hf' => Or.inl ?_⟩
    · cases hf'
      exact hcurrent
    · cases hnone
    · cases hf'
      exact hcurrent
  unfold ChunkWriter.cutAfter
  split
  · rename_i n hp
    have hasked : Writes env key done { w with openFile := some f, looks := w.looks + 1 } :=
      ⟨h.files, h.sorted, h.outputs, h.current, h.closed, h.last, h.spread, h.packed, h.dedicated⟩
    simp only
    split
    · refine ⟨hasked.cut rfl (by rw [hp]; simp), fun hp' => ?_, fun n _ f' hf' => ?_⟩
      · rw [hp] at hp'
        cases hp'
      · cases hf'
    · exact ⟨hasked, hready _⟩
  · exact ⟨h, hready _⟩

/-- Rows of one key, written into an open file. -/
theorem Writes.slice {done slice : List (Row s)} {w : ChunkWriter env s} {k : I64}
    (h : Writes env key done w) (hready : Ready env key done k w) (hle : ∀ r ∈ done, key r ≤ k)
    (hne : slice ≠ []) (hk : ∀ r ∈ slice, key r = k) {f : OpenFile env s} {w' : ChunkWriter env s}
    (hopen : w.ensureOpen env k = .ok (f, w')) {writer : env.parquet.ArrowWriter (Row s)}
    (hwriter : env.parquet.rows writer = env.parquet.rows f.writer) :
    Writes env key (done ++ slice)
      (w'.cutAfter env (({ f with writer } : OpenFile env s).writeSlice k slice)) ∧
    Ready env key (done ++ slice) k
      (w'.cutAfter env (({ f with writer } : OpenFile env s).writeSlice k slice)) := by
  refine Writes.cutAfter ?_ rfl
  unfold ChunkWriter.ensureOpen at hopen
  split at hopen
  · rename_i f' hf
    cases hopen
    exact h.extend hready hle hne hk hf hwriter
  · rename_i hnone
    simp only at hopen
    split at hopen
    · cases hopen
    · cases hopen
      have hopened : Writes env key done { w with opened := w.opened + 1 } :=
        ⟨h.files, h.sorted, h.outputs, h.current, h.closed, h.last, h.spread, h.packed, h.dedicated⟩
      exact hopened.start ⟨hready.separated, hready.targeted⟩ hle hne hk hnone
        (hwriter.trans (env.parquet.rows_new _)) ⟨rfl, rfl, rfl, rfl⟩

/-- No file opens whose upload intent was refused. -/
def Refused (env : ChunkWriterEnv) (e : CompactorError) : Prop :=
  ∃ path, env.onOpen path = .error e

theorem refused_of_ensureOpen {w : ChunkWriter env s} {k : I64} {e : CompactorError}
    (h : w.ensureOpen env k = .error e) : Refused env e := by
  unfold ChunkWriter.ensureOpen at h
  split at h
  · cases h
  · simp only at h
    split at h
    · rename_i e' he
      cases h
      exact ⟨_, he⟩
    · cases h

/-- **The loop over a key's rows.** -/
theorem Writes.writeRun {k : I64} (fuel : Nat) {done run : List (Row s)} {w : ChunkWriter env s}
    (h : Writes env key done w) (hready : Ready env key done k w) (hle : ∀ r ∈ done, key r ≤ k)
    (hk : ∀ r ∈ run, key r = k) (hfuel : run.length ≤ fuel) :
    match ChunkWriter.writeRun env k fuel run w with
    | .error e => Refused env e
    | .ok w' => Writes env key (done ++ run) w' ∧ Ready env key (done ++ run) k w' := by
  induction fuel generalizing done run w with
  | zero =>
    obtain rfl := List.length_eq_zero_iff.mp (Nat.le_zero.mp hfuel)
    rw [List.append_nil]
    exact ⟨h, hready⟩
  | succ fuel ih =>
    cases run with
    | nil =>
      rw [List.append_nil]
      exact ⟨h, hready⟩
    | cons a rest =>
      rw [ChunkWriter.writeRun]
      cases hopen : w.ensureOpen env k with
      | error e => exact refused_of_ensureOpen hopen
      | ok opened =>
        obtain ⟨f, w'⟩ := opened
        simp only
        -- the file, whether its row group was ended or not
        obtain ⟨writer, hwriter, hf⟩ : ∃ writer : env.parquet.ArrowWriter (Row s),
            env.parquet.rows writer = env.parquet.rows f.writer ∧
            (if 0 < (env.parquet.inProgress f.writer).length ∧ max env.maxRowGroupRows 1 <
                (env.parquet.inProgress f.writer).length + (a :: rest).length
              then { f with writer := env.parquet.flush f.writer } else f) = { f with writer } := by
          split
          · exact ⟨_, env.parquet.rows_flush _, rfl⟩
          · exact ⟨f.writer, rfl, rfl⟩
        rw [hf]
        generalize htake : min (a :: rest).length (max env.maxRowGroupRows 1) = take
        have hpos : 0 < take := by
          rw [List.length_cons] at htake
          omega
        have hne : (a :: rest).take take ≠ [] := by
          rw [← List.length_pos_iff, List.length_take, List.length_cons]
          omega
        have hslice : ∀ r ∈ (a :: rest).take take, key r = k :=
          fun r hr => hk r (List.mem_of_mem_take hr)
        obtain ⟨hstep, hready'⟩ := h.slice hready hle hne hslice hopen hwriter
        have hle' : ∀ r ∈ done ++ (a :: rest).take take, key r ≤ k := by
          intro r hr
          rcases List.mem_append.mp hr with hr | hr
          · exact hle r hr
          · exact (hslice r hr).le
        have hfuel' : ((a :: rest).drop take).length ≤ fuel := by
          rw [List.length_drop]
          rw [List.length_cons] at hfuel htake ⊢
          omega
        have hrec := ih hstep hready' hle' (fun r hr => hk r (List.mem_of_mem_drop hr)) hfuel'
        rw [List.append_assoc, List.take_append_drop] at hrec
        exact hrec

/-- **A key's rows.** -/
theorem Writes.consumeKeyRun {k : I64} {done run : List (Row s)} {w : ChunkWriter env s}
    (h : Writes env key done w)
    (hlive : env.placement = .separated → w.openFile = none → done = [])
    (hle : ∀ r ∈ done, key r ≤ k) (hne : run ≠ []) (hk : ∀ r ∈ run, key r = k) :
    match w.consumeKeyRun env k run with
    | .error e => Refused env e
    | .ok w' => Writes env key (done ++ run) w' ∧
        (env.placement = .separated → w'.openFile = none → done ++ run = []) := by
  obtain ⟨hcut, hready⟩ := h.cutBefore hle hlive
  have hrun := hcut.writeRun run.length hready hle hk (Nat.le_refl _)
  unfold ChunkWriter.consumeKeyRun
  split
  · rename_i e he
    rw [he] at hrun
    exact hrun
  · rename_i w' hw'
    rw [hw'] at hrun
    refine ⟨hrun.1, fun hp hnone => ?_⟩
    obtain ⟨r, hr⟩ := List.exists_mem_of_ne_nil run hne
    exact absurd (hk r hr) ((hrun.2.separated hp).2 hnone r (List.mem_append_right _ hr))

/-- The runs of a batch, one after the other. -/
theorem Writes.consumeRuns {done : List (Row s)} {w : ChunkWriter env s} (h : Writes env key done w)
    (hlive : env.placement = .separated → w.openFile = none → done = [])
    {runs : List (I64 × List (Row s))} (hruns : ∀ run ∈ runs, run.2 ≠ [] ∧ ∀ r ∈ run.2, key r = run.1)
    (hsorted : (done ++ runs.flatMap Prod.snd).Pairwise fun a b => key a ≤ key b) :
    match runs.foldlM (fun w run => w.consumeKeyRun env run.1 run.2) w with
    | .error e => Refused env e
    | .ok w' => Writes env key (done ++ runs.flatMap Prod.snd) w' ∧
        (env.placement = .separated → w'.openFile = none → done ++ runs.flatMap Prod.snd = []) := by
  induction runs generalizing done w with
  | nil =>
    rw [List.flatMap_nil, List.append_nil]
    exact ⟨h, hlive⟩
  | cons run runs ih =>
    obtain ⟨hne, hk⟩ := hruns run List.mem_cons_self
    rw [List.flatMap_cons, ← List.append_assoc] at hsorted ⊢
    have hle : ∀ r ∈ done, key r ≤ run.1 := by
      obtain ⟨x, hx⟩ := List.exists_mem_of_ne_nil run.2 hne
      intro r hr
      rw [← hk x hx]
      exact (List.pairwise_append.mp (List.pairwise_append.mp hsorted).1).2.2 r hr x hx
    have hstep := h.consumeKeyRun hlive hle hne hk
    rw [List.foldlM_cons]
    cases hrun : w.consumeKeyRun env run.1 run.2 with
    | error e =>
      rw [hrun] at hstep
      exact hstep
    | ok w' =>
      rw [hrun] at hstep
      exact ih hstep.1 hstep.2 (fun run' hrun' => hruns run' (List.mem_cons_of_mem run hrun')) hsorted

/-- **The loop over the stream.** -/
theorem Writes.writeBatches {i : Nat} (hi : s.indexOf env.packingKey = some i)
    (hint : s[i]?.map Field.dataType = some .int64)
    {stream : List (Except CompactorError (List (Row s)))} (hfree : ErrorFree stream)
    {done : List (Row s)} {w : ChunkWriter env s}
    (h : Writes env (fun r => (r.cell i).slot) done w)
    (hlive : env.placement = .separated → w.openFile = none → done = [])
    (hsorted : (done ++ streamRows stream).Pairwise fun a b => (a.cell i).slot ≤ (b.cell i).slot) :
    match ChunkWriter.writeBatches env stream w with
    | .error e => Refused env e
    | .ok w' => Writes env (fun r => (r.cell i).slot) (done ++ streamRows stream) w' := by
  induction stream generalizing done w with
  | nil =>
    rw [streamRows, List.append_nil]
    exact h
  | cons item stream ih =>
    obtain ⟨batch, rfl⟩ := hfree item List.mem_cons_self
    rw [streamRows, ← List.append_assoc] at hsorted ⊢
    have hsplit : splitByKey batch env.packingKey =
        .ok (splitRuns (fun r => (r.cell i).slot) batch) := by
      unfold splitByKey int64Column
      simp only [hi, hint, if_pos]
      rfl
    have hrows : (splitRuns (fun r : Row s => (r.cell i).slot) batch).flatMap Prod.snd = batch :=
      splitRuns_flatMap batch
    have hstep := h.consumeRuns hlive splitRuns_run
      (by rw [hrows]; exact (List.pairwise_append.mp hsorted).1)
    rw [hrows] at hstep
    rw [ChunkWriter.writeBatches, hsplit]
    simp only [bind, Except.bind] at hstep ⊢
    split at hstep
    · rename_i e he
      rw [he]
      exact hstep
    · rename_i w' hw'
      rw [hw']
      exact ih (fun item hitem => hfree item (List.mem_cons_of_mem _ hitem)) hstep.1 hstep.2 hsorted

end Writer

/-! ## 4. The files -/

/-- **The output files of a stream**: its rows in their order, recorded exactly, and spread as the
placement says. -/
structure ChunksOf {s : Schema} (key : Row s → I64) (placement : Placement) (input : List (Row s))
    (written : List (Written s)) : Prop where
  rows : written.flatMap Written.rows = input
  exact : ∀ x ∈ written, Exact key x.rows x.output.keyMin x.output.keyMax x.output.rowCount
  packed : placement = .packed → written.length ≤ 1
  separated : placement = .separated → (∀ x ∈ written, x.output.keyMin = x.output.keyMax) ∧
    written.Pairwise fun a b => a.output.keyMax < b.output.keyMin
  targeted : ∀ n, placement = .sizeTargeted n → written.Pairwise fun a b =>
    a.output.keyMax ≤ b.output.keyMin ∧
      ∀ k, (∃ x ∈ a.rows, key x = k) → (∃ y ∈ b.rows, key y = k) →
        b.output.keyMin = k ∧ b.output.keyMax = k

section Files

variable {s : Schema} {key : Row s → I64} {placement : Placement} {input : List (Row s)}
  {written : List (Written s)}

/-- **The files follow each other**, whatever the placement. -/
theorem ChunksOf.ordered (h : ChunksOf key placement input written) :
    written.Pairwise fun a b => a.output.keyMax ≤ b.output.keyMin := by
  cases placement with
  | packed =>
    have hone := h.packed rfl
    rcases written with _ | ⟨x, _ | ⟨y, rest⟩⟩
    · exact .nil
    · exact List.pairwise_singleton _ x
    · exact absurd hone (by simp)
  | separated => exact (h.separated rfl).2.imp fun hlt => hlt.le
  | sizeTargeted n => exact (h.targeted n rfl).imp fun hle => hle.1

/-- What the writer's invariant says of closed files. -/
theorem chunksOf_of_spread (hrows : (written.map Written.rows).flatten = input)
    (hsorted : input.Pairwise fun a b => key a ≤ key b)
    (hexact : ∀ x ∈ written, Exact key x.rows x.output.keyMin x.output.keyMax x.output.rowCount)
    (hspread : Spread key placement (written.map Written.rows)) :
    ChunksOf key placement input written := by
  have horder : written.Pairwise fun a b => ∀ x ∈ a.rows, ∀ y ∈ b.rows, key x ≤ key y := by
    rw [← hrows, List.pairwise_flatten] at hsorted
    exact List.pairwise_map.mp hsorted.2
  refine ⟨by rw [List.flatMap_def]; exact hrows, hexact, ?_, ?_, ?_⟩
  · rintro rfl
    simpa [Spread] using hspread
  · rintro rfl
    obtain ⟨hsame, hapart⟩ := hspread
    constructor
    · intro x hx
      obtain ⟨a, ha, hmin⟩ := (hexact x hx).min_mem
      obtain ⟨b, hb, hmax⟩ := (hexact x hx).max_mem
      rw [← hmin, ← hmax]
      exact hsame x.rows (List.mem_map_of_mem hx) a ha b hb
    · refine (horder.and (List.pairwise_map.mp hapart)).imp_of_mem ?_
      rintro x y hx hy ⟨hle, hne⟩
      obtain ⟨a, ha, hmax⟩ := (hexact x hx).max_mem
      obtain ⟨b, hb, hmin⟩ := (hexact y hy).min_mem
      rw [← hmax, ← hmin]
      exact lt_of_le_of_ne (hle a ha b hb) (hne a ha b hb)
  · rintro n rfl
    refine (horder.and (List.pairwise_map.mp hspread)).imp_of_mem ?_
    rintro x y hx hy ⟨hle, hcontinues⟩
    obtain ⟨a, ha, hmax⟩ := (hexact x hx).max_mem
    obtain ⟨b, hb, hmin⟩ := (hexact y hy).min_mem
    obtain ⟨c, hc, hmax'⟩ := (hexact y hy).max_mem
    refine ⟨by rw [← hmax, ← hmin]; exact hle a ha b hb, ?_⟩
    rintro k ⟨p, hp, hpk⟩ ⟨q, hq, hqk⟩
    have hall := hcontinues p hp q hq (hpk.trans hqk.symm)
    exact ⟨by rw [← hmin, hall b hb, hqk], by rw [← hmax', hall c hc, hqk]⟩

theorem Writes.new (env : ChunkWriterEnv) (key : Row s → I64) : Writes env key [] (.new env) := by
  refine ⟨rfl, List.Pairwise.nil, by simp [ChunkWriter.new], ?_, by simp [ChunkWriter.new], ?_, ?_,
    fun _ => rfl, ?_⟩
  · rintro f ⟨⟩
  · rintro l ⟨⟩
  · cases env.placement with
    | packed => exact Nat.zero_le 1
    | separated => exact ⟨by simp [ChunkWriter.files, ChunkWriter.new], List.Pairwise.nil⟩
    | sizeTargeted n => exact List.Pairwise.nil
  · rintro n _ f ⟨⟩

/-- The last file is closed. -/
theorem Writes.chunksOf {env : ChunkWriterEnv} {done : List (Row s)} {w : ChunkWriter env s}
    (h : Writes env key done w) :
    ChunksOf key env.placement done (w.outputs ++ (w.openFile.map (OpenFile.close env)).toList) := by
  have hfiles : (w.outputs ++ (w.openFile.map (OpenFile.close env)).toList).map Written.rows =
      w.files := by
    cases hf : w.openFile with
    | none =>
      rw [files_of_closed hf]
      simp
    | some f =>
      rw [files_of_open hf]
      simp [close_rows]
  refine chunksOf_of_spread (by rw [hfiles, h.files]) h.sorted ?_ (by rw [hfiles]; exact h.spread)
  intro x hx
  rcases List.mem_append.mp hx with hx | hx
  · exact h.outputs x hx
  · rw [Option.mem_toList, Option.map_eq_some_iff] at hx
    obtain ⟨f, hf, rfl⟩ := hx
    rw [close_rows]
    exact (h.current f hf).1

theorem write_eq_ok {env : ChunkWriterEnv} {stream : List (Except CompactorError (List (Row s)))}
    (h : StreamingChunkWriter.write env stream = .ok written) :
    ∃ w, ChunkWriter.writeBatches env stream (.new env) = .ok w ∧
      written = w.outputs ++ (w.openFile.map (OpenFile.close env)).toList := by
  unfold StreamingChunkWriter.write at h
  split at h
  · cases h
  · rename_i w hw
    cases h
    exact ⟨w, hw, rfl⟩

/-- The files of a stream that was written to its end. -/
theorem chunksOf_of_written {env : ChunkWriterEnv} {i : Nat}
    (hi : s.indexOf env.packingKey = some i) (hint : s[i]?.map Field.dataType = some .int64)
    {stream : List (Except CompactorError (List (Row s)))} (hfree : ErrorFree stream)
    (hsorted : (streamRows stream).Pairwise fun a b => (a.cell i).slot ≤ (b.cell i).slot)
    {written : List (Written s)} (h : StreamingChunkWriter.write env stream = .ok written) :
    ChunksOf (fun r => (r.cell i).slot) env.placement (streamRows stream) written := by
  obtain ⟨w, hw, rfl⟩ := write_eq_ok h
  have hloop := (Writes.new env fun r : Row s => (r.cell i).slot).writeBatches hi hint hfree
    (fun _ _ => rfl) (by rw [List.nil_append]; exact hsorted)
  rw [List.nil_append, hw] at hloop
  exact hloop.chunksOf

/-- **The streaming chunk writer**, over a stream sorted by the packing key: the files are those
of the stream, whatever sizes the Parquet writer reports, unless an upload intent is refused. -/
theorem write_chunks {env : ChunkWriterEnv} {i : Nat} (hi : s.indexOf env.packingKey = some i)
    (hint : s[i]?.map Field.dataType = some .int64)
    {stream : List (Except CompactorError (List (Row s)))} (hfree : ErrorFree stream)
    (hsorted : (streamRows stream).Pairwise fun a b => (a.cell i).slot ≤ (b.cell i).slot) :
    match StreamingChunkWriter.write env stream with
    | .error e => Refused env e
    | .ok written =>
      ChunksOf (fun r => (r.cell i).slot) env.placement (streamRows stream) written := by
  have hloop := (Writes.new env fun r : Row s => (r.cell i).slot).writeBatches hi hint hfree
    (fun _ _ => rfl) (by rw [List.nil_append]; exact hsorted)
  rw [List.nil_append] at hloop
  split
  · rename_i e he
    unfold StreamingChunkWriter.write at he
    split at he
    · rename_i e' he'
      cases he
      rw [he'] at hloop
      exact hloop
    · cases he
  · rename_i written hwritten
    obtain ⟨w, hw, rfl⟩ := write_eq_ok hwritten
    rw [hw] at hloop
    exact hloop.chunksOf

end Files

/-! ## 5. File by file -/

section Rule

variable {s : Schema} {env : ChunkWriterEnv} {Open : OpenFile env s → Prop}
  {Closed : Written s → Prop}

/-- **A rule for the files**, whatever the sizes and cuts: what holds of a new file, and stays
when a row group ends and when rows are written, is brought by every file to its close. -/
structure FileRule (env : ChunkWriterEnv) (Open : OpenFile env s → Prop)
    (Closed : Written s → Prop) :
    Prop where
  fresh : ∀ path k dedicated,
    Open ⟨env.parquet.new env.maxRowGroupRows, path, k, k, k, 0, .empty, .empty,
    env.packingKey, dedicated⟩
  flush : ∀ f, Open f → Open { f with writer := env.parquet.flush f.writer }
  slice : ∀ f k rows, Open f → Open (f.writeSlice k rows)
  close : ∀ f, Open f → Closed (f.close env)

/-- The files of the writer are as the rule says. -/
structure Files (Open : OpenFile env s → Prop) (Closed : Written s → Prop) (w : ChunkWriter env s) :
    Prop where
  outputs : ∀ x ∈ w.outputs, Closed x
  current : ∀ f, w.openFile = some f → Open f

variable {w w' : ChunkWriter env s} {f : OpenFile env s}

theorem Files.cut (rule : FileRule env Open Closed) (h : Files Open Closed w) (hf : Open f) :
    Files Open Closed (w.cut env f) := by
  refine ⟨fun x hx => ?_, fun f' hf' => nomatch hf'⟩
  rcases List.mem_append.mp hx with hx | hx
  · exact h.outputs x hx
  · rw [List.mem_singleton.mp hx]
    exact rule.close f hf

theorem Files.cutBefore (rule : FileRule env Open Closed) (h : Files Open Closed w) (k : I64) :
    Files Open Closed (w.cutBefore env k) := by
  have hasked : Files Open Closed { w with looks := w.looks + 1 } := ⟨h.outputs, h.current⟩
  unfold ChunkWriter.cutBefore
  split
  · exact h
  · rename_i f hf
    split
    · exact h
    · split
      · exact h.cut rule (h.current f hf)
      · exact h
    · split
      · exact h
      · simp only
        split
        · exact hasked.cut rule (h.current f hf)
        · exact hasked

theorem Files.ensureOpen (rule : FileRule env Open Closed) (h : Files Open Closed w) {k : I64}
    (hopen : w.ensureOpen env k = .ok (f, w')) : Open f ∧ ∀ x ∈ w'.outputs, Closed x := by
  unfold ChunkWriter.ensureOpen at hopen
  split at hopen
  · rename_i f' hf
    cases hopen
    exact ⟨h.current f hf, h.outputs⟩
  · simp only at hopen
    split at hopen
    · cases hopen
    · cases hopen
      exact ⟨rule.fresh _ _ _, h.outputs⟩

theorem Files.cutAfter (rule : FileRule env Open Closed) (h : ∀ x ∈ w.outputs, Closed x)
    (hf : Open f) : Files Open Closed (w.cutAfter env f) := by
  have hopen : ∀ looks, Files Open Closed { w with openFile := some f, looks } :=
    fun looks => ⟨h, fun f' hf' => Option.some.inj hf' ▸ hf⟩
  unfold ChunkWriter.cutAfter
  split
  · simp only
    split
    · exact (hopen _).cut rule hf
    · exact hopen _
  · exact hopen w.looks

theorem Files.writeRun (rule : FileRule env Open Closed) (k : I64) (fuel : Nat)
    {run : List (Row s)} (h : Files Open Closed w)
    (hrun : ChunkWriter.writeRun env k fuel run w = .ok w') : Files Open Closed w' := by
  induction fuel generalizing run w with
  | zero =>
    cases run <;> cases hrun <;> exact h
  | succ fuel ih =>
    cases run with
    | nil =>
      cases hrun
      exact h
    | cons a rest =>
      rw [ChunkWriter.writeRun] at hrun
      split at hrun
      · cases hrun
      · rename_i f w₁ hopen
        obtain ⟨hf, houtputs⟩ := h.ensureOpen rule hopen
        refine ih (Files.cutAfter rule houtputs (rule.slice _ _ _ ?_)) hrun
        split
        · exact rule.flush f hf
        · exact hf

theorem Files.consumeRuns (rule : FileRule env Open Closed) {runs : List (I64 × List (Row s))}
    (h : Files Open Closed w)
    (hruns : runs.foldlM (fun w run => w.consumeKeyRun env run.1 run.2) w = .ok w') :
    Files Open Closed w' := by
  induction runs generalizing w with
  | nil =>
    cases hruns
    exact h
  | cons run runs ih =>
    obtain ⟨w₁, hrun, hrest⟩ := List.foldlM_cons_eq_ok_iff.mp hruns
    exact ih ((h.cutBefore rule run.1).writeRun rule run.1 run.2.length hrun) hrest

theorem Files.writeBatches (rule : FileRule env Open Closed)
    {stream : List (Except CompactorError (List (Row s)))} (h : Files Open Closed w)
    (hwrite : ChunkWriter.writeBatches env stream w = .ok w') : Files Open Closed w' := by
  induction stream generalizing w with
  | nil =>
    cases hwrite
    exact h
  | cons item stream ih =>
    cases item with
    | error e => cases hwrite
    | ok batch =>
      obtain ⟨runs, -, hwrite⟩ := Except.bind_eq_ok_iff.mp hwrite
      obtain ⟨w₁, hruns, hrest⟩ := Except.bind_eq_ok_iff.mp hwrite
      exact ih (h.consumeRuns rule hruns) hrest

/-- **Every file that is written** is as the rule says. -/
theorem FileRule.written (rule : FileRule env Open Closed)
    {stream : List (Except CompactorError (List (Row s)))} {written : List (Written s)}
    (h : StreamingChunkWriter.write env stream = .ok written) : ∀ x ∈ written, Closed x := by
  obtain ⟨w, hw, rfl⟩ := write_eq_ok h
  have hnew : Files Open Closed (.new env : ChunkWriter env s) :=
    ⟨fun x hx => absurd hx List.not_mem_nil, fun f hf => nomatch hf⟩
  have hfiles := hnew.writeBatches rule hw
  intro x hx
  rcases List.mem_append.mp hx with hx | hx
  · exact hfiles.outputs x hx
  · rw [Option.mem_toList, Option.map_eq_some_iff] at hx
    obtain ⟨f, hf, rfl⟩ := hx
    exact rule.close f (hfiles.current f hf)

end Rule

/-! ## 6. A whale -/

/-- A writer whose file has reached its target of 100 bytes at every third look. -/
def whaleEnv : ChunkWriterEnv where
  codec := .characters
  placement := .sizeTargeted 100
  maxRowGroupRows := 2
  packingKey := "tenant_id"
  nextPath n := "ht/1/L1/" ++ toString n ++ ".parquet"
  onOpen _ := .ok ()
  encodedSize n := if n % 3 = 2 then 100 else 50
  head _ := 100

/-- Tenant 2 is larger than a file, and comes in two batches. -/
def whaleStream : List (Except CompactorError (List (Row tenantSchema))) :=
  let two := tenant 2
  [.ok [tenant 1, two, two, two], .ok [two, two, two, tenant 3]]

/-- The file that goes on with tenant 2 has no other. -/
example : (match StreamingChunkWriter.write whaleEnv whaleStream with
    | .ok written => written.map fun x => (x.output.keyMin.val, x.output.keyMax.val, x.rows.length)
    | .error _ => []) = [(1, 2, 3), (2, 2, 4), (3, 3, 1)] := by decide

theorem write_chunks_whale :
    match StreamingChunkWriter.write whaleEnv whaleStream with
    | .error e => Refused whaleEnv e
    | .ok written => ChunksOf (fun r => (r.cell 0).slot) whaleEnv.placement (streamRows whaleStream)
        written := by
  refine @write_chunks tenantSchema whaleEnv 0 (by decide) (by decide) whaleStream ?_ (by decide)
  intro item hitem
  simp only [whaleStream, List.mem_cons, List.not_mem_nil, or_false] at hitem
  rcases hitem with rfl | rfl <;> exact ⟨_, rfl⟩

end Ukiel.Compactor
