/-
# The Parquet writer

`ArrowWriter` of the parquet crate, by its laws, as far as the writers use it: rows go into the row
group in progress, which ends when it is full or at a `flush`.  Where a row group is full is the
crate's to say; that no row is lost, added or moved on its way into the file is what the writers
rely on.  Reading a file gives its rows back.
-/
import Ukiel.Core.Stats

namespace Ukiel.Write

/-! ## 1. The laws -/

/-- The operations of `ArrowWriter`, for rows of any type. -/
structure ArrowWriterOps where
  ArrowWriter : Type → Type
  /-- With `max_row_group_row_count`. -/
  new : {α : Type} → Nat → ArrowWriter α
  /-- A batch may be split where a row group is full. -/
  write : {α : Type} → ArrowWriter α → List α → ArrowWriter α
  /-- The row group in progress ends. -/
  flush : {α : Type} → ArrowWriter α → ArrowWriter α
  /-- The row groups of the file. -/
  close : {α : Type} → ArrowWriter α → List (List α)
  /-- `flushed_row_groups`. -/
  flushed : {α : Type} → ArrowWriter α → List (List α)
  /-- The rows that `in_progress_rows` counts. -/
  inProgress : {α : Type} → ArrowWriter α → List α

/-- What was written. -/
def ArrowWriterOps.rows (P : ArrowWriterOps) {α : Type} (w : P.ArrowWriter α) : List α :=
  (P.flushed w).flatten ++ P.inProgress w

/-- **The writer of the parquet crate.** -/
structure ParquetWriter extends ArrowWriterOps where
  rows_new : ∀ {α : Type} (n : Nat), toArrowWriterOps.rows (new n : ArrowWriter α) = []
  rows_write : ∀ {α : Type} (w : ArrowWriter α) (batch : List α),
    toArrowWriterOps.rows (write w batch) = toArrowWriterOps.rows w ++ batch
  rows_flush : ∀ {α : Type} (w : ArrowWriter α),
    toArrowWriterOps.rows (flush w) = toArrowWriterOps.rows w
  inProgress_flush : ∀ {α : Type} (w : ArrowWriter α), inProgress (flush w) = []
  flush_flush : ∀ {α : Type} (w : ArrowWriter α), flush (flush w) = flush w
  close_eq : ∀ {α : Type} (w : ArrowWriter α), close w = flushed (flush w)

namespace ParquetWriter

variable {P : ParquetWriter} {α : Type}

attribute [simp] rows_new rows_write rows_flush

/-- **A closed file has the rows that were written**, in their order. -/
@[simp] theorem flatten_close (w : P.ArrowWriter α) : (P.close w).flatten = P.rows w := by
  rw [P.close_eq, ← P.rows_flush, ArrowWriterOps.rows, P.inProgress_flush, List.append_nil]

end ParquetWriter

/-! ## 2. Row groups in a list -/

/-- A writer whose row groups are as large as they may be. -/
structure RowGroups (α : Type) where
  maxRowGroupRows : Nat
  flushed : List (List α)
  inProgress : List α

namespace RowGroups

variable {α : Type}

def flush (w : RowGroups α) : RowGroups α :=
  if w.inProgress.isEmpty then w else { w with flushed := w.flushed ++ [w.inProgress], inProgress := [] }

def writeRow (w : RowGroups α) (a : α) : RowGroups α :=
  let w := { w with inProgress := w.inProgress ++ [a] }
  if w.maxRowGroupRows ≤ w.inProgress.length then w.flush else w

def rows (w : RowGroups α) : List α := w.flushed.flatten ++ w.inProgress

theorem rows_flush (w : RowGroups α) : w.flush.rows = w.rows := by
  unfold flush rows
  split <;> simp

theorem rows_writeRow (w : RowGroups α) (a : α) : (w.writeRow a).rows = w.rows ++ [a] := by
  unfold writeRow
  simp only
  split
  · rw [rows_flush]
    simp [rows]
  · simp [rows]

theorem rows_write (w : RowGroups α) (batch : List α) :
    (batch.foldl writeRow w).rows = w.rows ++ batch := by
  induction batch generalizing w with
  | nil => simp
  | cons a batch ih => rw [List.foldl_cons, ih, rows_writeRow, List.append_assoc, List.singleton_append]

/-- **The list keeps the laws.** -/
def writer : ParquetWriter where
  ArrowWriter := RowGroups
  new n := ⟨n, [], []⟩
  write w batch := batch.foldl writeRow w
  flush := flush
  close w := w.flush.flushed
  flushed := flushed
  inProgress := inProgress
  rows_new _ := rfl
  rows_write := rows_write
  rows_flush := rows_flush
  inProgress_flush w := by
    unfold flush
    split
    · rename_i hempty
      exact List.isEmpty_iff.mp hempty
    · rfl
  flush_flush w := by
    unfold flush
    split <;> rfl
  close_eq _ := rfl

end RowGroups

/-! ## 3. Parts -/

/-- How a part is encoded: its set of keys, and its file. -/
structure PartCodec extends KeyCodec where
  parquet : ParquetWriter

instance : Coe PartCodec KeyCodec := ⟨PartCodec.toKeyCodec⟩

/-- A codec to evaluate with. -/
def PartCodec.characters : PartCodec := ⟨.characters, RowGroups.writer⟩

end Ukiel.Write
