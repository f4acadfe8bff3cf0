/-
# The k-way merge

`ukiel-compactor/src/merge.rs`: already sorted streams are merged by the sort key.  Each stream
has a cursor with one decoded batch, and the heap has the row each cursor is at.  Nothing is
sorted here: a batch that is out of order, in itself or after the one before it, ends the merge
with the part's path (`convertAndGuard`).

`mergeStreams_stable` says of every input what comes out: the stable merge if the streams are
sorted, and otherwise an error that names one that is not; and what has come out until then is
in order.
-/
import Ukiel.Lib.StableMerge
import Ukiel.Compactor.Rewrite

namespace Ukiel.Compactor

/-! ## 1. The machine -/

section Machine

variable {α κ : Type} [LinearOrder κ] (code : α → κ)

/-- A stream with its current batch.  The `Rows` of the batch are the codes of its rows. -/
structure Cursor (α κ : Type) where
  stream : List (Except CompactorError (List α))
  path : String
  batch : List α
  /-- The next row to emit within `batch`. -/
  idx : Nat
  exhausted : Bool
  /-- The last row of the batches consumed so far. -/
  last : Option κ

structure MergeState (α κ : Type) where
  cursors : List (Cursor α κ)
  /-- Each cursor's current row, with the number of its stream. -/
  heap : List (κ × Nat)

/-- The first row that is less than the one before it. -/
def firstDescent : Nat → α → List α → Option Nat
  | _, _, [] => none
  | i, a, b :: rest => if code b < code a then some i else firstDescent (i + 1) b rest

/-- `convert_and_guard`, of a batch that is not empty; it gives the last row. -/
def convertAndGuard (path : String) (prevLast : Option κ) (a : α) (rest : List α) :
    Except CompactorError κ :=
  match firstDescent code 1 a rest with
  | some row => .error (.mergeOrderViolation path row)
  | none =>
    match prevLast with
    | some prev =>
      if code a < prev then .error (.mergeOrderViolation path 0)
      else .ok (code (rest.getLast?.getD a))
    | none => .ok (code (rest.getLast?.getD a))

/-- The cursor at its next batch that is not empty, and its row for the heap. -/
def Cursor.refill (c : Cursor α κ) : List (Except CompactorError (List α)) →
    Except CompactorError (Cursor α κ × Option κ)
  | [] => .ok ({ c with stream := [], exhausted := true }, none)
  | .error e :: _ => .error e
  | .ok [] :: stream => c.refill stream
  | .ok (a :: rest) :: stream =>
    match convertAndGuard code c.path c.last a rest with
    | .error e => .error e
    | .ok last =>
      .ok ({ c with stream, batch := a :: rest, idx := 0, last := some last }, some (code a))

namespace MergeState

/-- `refill`. -/
def refill (st : MergeState α κ) (s : Nat) : Except CompactorError (MergeState α κ) :=
  match st.cursors[s]? with
  | none => .ok st
  | some c =>
    match c.refill code c.stream with
    | .error e => .error e
    | .ok (c', none) => .ok { st with cursors := st.cursors.set s c' }
    | .ok (c', some head) => .ok ⟨st.cursors.set s c', (head, s) :: st.heap⟩

/-- `init`: the cursors have no batch until `refill` pulls their first one. -/
def init (streams : List (String × List (Except CompactorError (List α)))) :
    Except CompactorError (MergeState α κ) :=
  (List.range streams.length).foldlM (refill code)
    ⟨streams.map fun p => ⟨p.2, p.1, [], 0, false, none⟩, []⟩

/-- The order of the heap: by row, then by the number of the stream. -/
def Before (x y : κ × Nat) : Prop := x.1 < y.1 ∨ x.1 = y.1 ∧ x.2 ≤ y.2

instance (x y : κ × Nat) : Decidable (Before x y) :=
  inferInstanceAs (Decidable (x.1 < y.1 ∨ x.1 = y.1 ∧ x.2 ≤ y.2))

/-- `BinaryHeap::pop`: the least entry, and the others. -/
def pop : List (κ × Nat) → Option ((κ × Nat) × List (κ × Nat))
  | [] => none
  | x :: xs =>
    match pop xs with
    | none => some (x, [])
    | some (y, ys) => if Before x y then some (x, xs) else some (y, x :: ys)

/-- `interleave_record_batch`: rows by batch and position. -/
def interleave (batches : List (List α)) (indices : List (Nat × Nat)) : List α :=
  indices.filterMap fun p => batches[p.1]?.bind fun batch => batch[p.2]?

def build (st : MergeState α κ) (indices : List (Nat × Nat)) : List α :=
  interleave (st.cursors.map Cursor.batch) indices

/-- The loop of `next_batch`, with `n` more rows to `MERGE_BATCH_ROWS`. -/
def nextRows : Nat → List (Nat × Nat) → MergeState α κ →
    Except CompactorError (Option (List α) × MergeState α κ)
  | 0, indices, st => .ok (some (st.build indices), st)
  | n + 1, indices, st =>
    match pop st.heap with
    | none => .ok (if indices = [] then none else some (st.build indices), st)
    | some ((_, s), heap) =>
      match st.cursors[s]? with
      | none => .ok (none, st)
      | some c =>
        let moved : MergeState α κ := ⟨st.cursors.set s { c with idx := c.idx + 1 }, heap⟩
        match c.batch[c.idx + 1]? with
        | some head =>
          nextRows n (indices ++ [(s, c.idx)]) { moved with heap := (code head, s) :: heap }
        | none =>
          -- the indices are looked up in the old batch, so `build` is before `refill`
          let out := moved.build (indices ++ [(s, c.idx)])
          match moved.refill code s with
          | .error e => .error e
          | .ok st' => .ok (some out, st')

/-- `next_batch`. -/
def nextBatch (st : MergeState α κ) :
    Except CompactorError (Option (List α) × MergeState α κ) :=
  nextRows code mergeBatchRows [] st

end MergeState

/-- How a stream of batches ends. -/
inductive Ending where
  | drained
  | failed (e : CompactorError)
  /-- There is no telling: more batches may come. -/
  | running
deriving DecidableEq

/-- `try_unfold`: the batches, one after the other. -/
def unfoldBatches : Nat → MergeState α κ → List (List α) × Ending
  | 0, _ => ([], .running)
  | fuel + 1, st =>
    match st.nextBatch code with
    | .error e => ([], .failed e)
    | .ok (none, _) => ([], .drained)
    | .ok (some batch, st') =>
      let rest := unfoldBatches fuel st'
      (batch :: rest.1, rest.2)

/-- The rows of a stream, errors apart. -/
def streamRows : List (Except CompactorError (List α)) → List α
  | [] => []
  | .ok batch :: stream => batch ++ streamRows stream
  | .error _ :: stream => streamRows stream

/-- A merge by the codes of the rows.  Every batch has a row, so there are no more batches than
rows. -/
def mergeByCode (streams : List (String × List (Except CompactorError (List α)))) :
    List (List α) × Ending :=
  match MergeState.init code streams with
  | .error e => ([], .failed e)
  | .ok st => unfoldBatches code ((streams.flatMap fun p => streamRows p.2).length + 1) st

end Machine

/-- `RowConverter`: Arrow's row format, whose order is that of the rows. -/
structure RowConverter where
  Encoded : Type
  order : LinearOrder Encoded
  convert : List (List Nat) → Encoded
  convert_le : ∀ a b, convert a ≤ convert b ↔ a ≤ b

/-- `merge_streams`. -/
def mergeStreams (converter : RowConverter) {s : Schema} (streams : List (PartBatchStream s))
    (sortKey : List String) : List (List (Row s)) × Ending :=
  let sortIndices : Except CompactorError (List Nat) := sortKey.mapM fun name =>
    match s.indexOf name with
    | some i => .ok i
    | none => .error (.missingColumn name)
  match sortIndices with
  | .error e => ([], .failed e)
  | .ok columns =>
    letI := converter.order
    mergeByCode (fun r => converter.convert (sortCode columns r))
      (streams.map fun input => (input.path, input.stream))

/-! ## 2. Cursors -/

section Cursors

variable {α κ : Type} {code : α → κ}

/-- The row a cursor is at. -/
def Cursor.head? (c : Cursor α κ) : Option α := c.batch[c.idx]?

/-- The rows still to come from a cursor. -/
def Cursor.remaining (c : Cursor α κ) : List α := c.batch.drop c.idx ++ streamRows c.stream

theorem remaining_of_head? {c : Cursor α κ} {a : α} (h : c.head? = some a) :
    c.remaining = a :: (c.batch.drop (c.idx + 1) ++ streamRows c.stream) := by
  obtain ⟨hlt, rfl⟩ := List.getElem?_eq_some_iff.mp h
  rw [Cursor.remaining, List.drop_eq_getElem_cons hlt, List.cons_append]

theorem remaining_sublist (c : Cursor α κ) :
    c.remaining.Sublist (c.batch ++ streamRows c.stream) :=
  (List.drop_sublist _ _).append_right _

/-- The heap's entries: each cursor's row, if it has one. -/
def heads (code : α → κ) : Nat → List (Cursor α κ) → List (κ × Nat)
  | _, [] => []
  | n, c :: cursors => (c.head?.map fun a => (code a, n)).toList ++ heads code (n + 1) cursors

theorem heads_append (n : Nat) (A C : List (Cursor α κ)) :
    heads code n (A ++ C) = heads code n A ++ heads code (n + A.length) C := by
  induction A generalizing n with
  | nil => rfl
  | cons c A ih =>
    rw [List.cons_append, heads, ih, heads, List.append_assoc, List.length_cons,
      Nat.add_right_comm, Nat.add_assoc]

theorem mem_heads {n : Nat} {cursors : List (Cursor α κ)} {x : κ × Nat} :
    x ∈ heads code n cursors ↔
      ∃ A c C a, cursors = A ++ c :: C ∧ c.head? = some a ∧ x = (code a, n + A.length) := by
  induction cursors generalizing n with
  | nil => simp [heads]
  | cons c cursors ih =>
    rw [heads, List.mem_append, ih]
    constructor
    · rintro (hx | ⟨A, c', C, a, rfl, ha, rfl⟩)
      · rw [Option.mem_toList, Option.map_eq_some_iff] at hx
        obtain ⟨a, ha, rfl⟩ := hx
        exact ⟨[], c, cursors, a, rfl, ha, rfl⟩
      · exact ⟨c :: A, c', C, a, rfl, ha, by rw [List.length_cons]; congr 1; omega⟩
    · rintro ⟨A, c', C, a, heq, ha, rfl⟩
      cases A with
      | nil =>
        cases heq
        exact Or.inl (by rw [Option.mem_toList, ha]; rfl)
      | cons c'' A =>
        cases heq
        exact Or.inr ⟨A, c', C, a, rfl, ha, by rw [List.length_cons]; congr 1; omega⟩

/-- The number of rows still to come. -/
def MergeState.left (st : MergeState α κ) : Nat := (st.cursors.flatMap Cursor.remaining).length

/-- The rows gathered so far, with the one the heap gave. -/
theorem build_concat {A C : List (Cursor α κ)} {c c' : Cursor α κ} {heap heap' : List (κ × Nat)}
    {a : α} (hbatch : c'.batch = c.batch) (ha : c.head? = some a) (indices : List (Nat × Nat)) :
    MergeState.build ⟨A ++ c' :: C, heap'⟩ (indices ++ [(A.length, c.idx)]) =
      MergeState.build ⟨A ++ c :: C, heap⟩ indices ++ [a] := by
  unfold MergeState.build MergeState.interleave
  have hrow : c.batch[c.idx]? = some a := ha
  simp only [List.map_append, List.map_cons, hbatch, List.filterMap_append, List.filterMap_cons,
    List.filterMap_nil]
  rw [← List.length_map Cursor.batch, List.getElem?_append_right (Nat.le_refl _), Nat.sub_self,
    List.getElem?_cons_zero, Option.bind_some, hrow]

theorem left_advance {A C : List (Cursor α κ)} {c c' : Cursor α κ} {heap heap' : List (κ × Nat)}
    {a : α} (h : c.remaining = a :: c'.remaining) :
    MergeState.left ⟨A ++ c :: C, heap⟩ = MergeState.left ⟨A ++ c' :: C, heap'⟩ + 1 := by
  unfold MergeState.left
  simp only [List.flatMap_append, List.flatMap_cons, List.length_append, h, List.length_cons]
  omega

end Cursors

/-! ## 3. The order guard -/

section Proofs

variable {α κ : Type} [LinearOrder κ] {code : α → κ}

/-- Rows in order of their codes. -/
abbrev Ordered (code : α → κ) (rows : List α) : Prop := rows.Pairwise fun a b => code a ≤ code b

theorem firstDescent_eq_none {i : Nat} {a : α} {rest : List α} :
    firstDescent code i a rest = none ↔ Ordered code (a :: rest) := by
  induction rest generalizing i a with
  | nil => simp [firstDescent, Ordered]
  | cons b rest ih =>
    rw [firstDescent]
    split
    · rename_i hlt
      refine iff_of_false (by simp) fun h => ?_
      exact absurd hlt (not_lt.mpr (List.rel_of_pairwise_cons h List.mem_cons_self))
    · rename_i hle
      rw [ih]
      constructor
      · intro h
        refine List.pairwise_cons.mpr ⟨?_, h⟩
        intro c hc
        rcases List.mem_cons.mp hc with rfl | hc
        · exact not_lt.mp hle
        · exact (not_lt.mp hle).trans (List.rel_of_pairwise_cons h hc)
      · exact List.Pairwise.of_cons

/-- The last of ordered rows is above them all. -/
theorem le_getLast {a : α} {rest : List α} (h : Ordered code (a :: rest)) :
    ∀ b ∈ a :: rest, code b ≤ code (rest.getLast?.getD a) := by
  induction rest generalizing a with
  | nil => simp
  | cons c rest ih =>
    intro b hb
    have hlast := ih h.of_cons
    rw [List.getLast?_cons, Option.getD_some]
    rcases List.mem_cons.mp hb with rfl | hb
    · exact (List.rel_of_pairwise_cons h List.mem_cons_self).trans (hlast c List.mem_cons_self)
    · exact hlast b hb

/-- **The guard** passes an ordered batch that does not fall below the last one's end. -/
theorem convertAndGuard_eq {path : String} {prevLast : Option κ} {a : α} {rest : List α} :
    (convertAndGuard code path prevLast a rest = .ok (code (rest.getLast?.getD a)) ∧
      Ordered code (a :: rest) ∧ ∀ prev ∈ prevLast, prev ≤ code a) ∨
    ((∃ row, convertAndGuard code path prevLast a rest = .error (.mergeOrderViolation path row)) ∧
      ¬ (Ordered code (a :: rest) ∧ ∀ prev ∈ prevLast, prev ≤ code a)) := by
  unfold convertAndGuard
  cases hdescent : firstDescent code 1 a rest with
  | some row =>
    refine Or.inr ⟨⟨row, rfl⟩, fun h => ?_⟩
    rw [firstDescent_eq_none.mpr h.1] at hdescent
    cases hdescent
  | none =>
    have hordered := firstDescent_eq_none.mp hdescent
    cases prevLast with
    | none => exact Or.inl ⟨rfl, hordered, by simp⟩
    | some prev =>
      by_cases hlt : code a < prev
      · exact Or.inr ⟨⟨0, if_pos hlt⟩, fun h => absurd hlt (not_lt.mpr (h.2 prev rfl))⟩
      · refine Or.inl ⟨if_neg hlt, hordered, ?_⟩
        rintro _ ⟨⟩
        exact not_lt.mp hlt

/-! ## 4. The heap -/

open MergeState

theorem pop_eq_none {heap : List (κ × Nat)} : pop heap = none ↔ heap = [] := by
  cases heap with
  | nil => simp [pop]
  | cons x xs =>
    rw [pop]
    split
    · simp
    · split <;> simp

theorem before_total (x y : κ × Nat) : Before x y ∨ Before y x := by
  unfold Before
  rcases lt_trichotomy x.1 y.1 with h | h | h
  · exact Or.inl (Or.inl h)
  · rcases Nat.le_total x.2 y.2 with h2 | h2
    · exact Or.inl (Or.inr ⟨h, h2⟩)
    · exact Or.inr (Or.inr ⟨h.symm, h2⟩)
  · exact Or.inr (Or.inl h)

theorem before_trans {x y z : κ × Nat} (hxy : Before x y) (hyz : Before y z) : Before x z := by
  rcases hxy with h | ⟨h, hn⟩
  · rcases hyz with h' | ⟨h', -⟩
    · exact Or.inl (h.trans h')
    · exact Or.inl (h' ▸ h)
  · rcases hyz with h' | ⟨h', hn'⟩
    · exact Or.inl (h ▸ h')
    · exact Or.inr ⟨h.trans h', hn.trans hn'⟩

/-- **What is popped** comes before all that stays. -/
theorem pop_eq_some {heap rest : List (κ × Nat)} {x : κ × Nat} (h : pop heap = some (x, rest)) :
    heap.Perm (x :: rest) ∧ ∀ y ∈ rest, Before x y := by
  induction heap generalizing x rest with
  | nil => cases h
  | cons z heap ih =>
    rw [pop] at h
    split at h
    · rename_i hnone
      cases h
      rw [pop_eq_none.mp hnone]
      exact ⟨List.Perm.refl _, by simp⟩
    · rename_i y ys hsome
      obtain ⟨hperm, hleast⟩ := ih hsome
      split at h
      · rename_i hzy
        cases h
        refine ⟨List.Perm.refl _, ?_⟩
        intro w hw
        rcases List.mem_cons.mp (hperm.mem_iff.mp hw) with rfl | hw
        · exact hzy
        · exact before_trans hzy (hleast w hw)
      · rename_i hzy
        cases h
        refine ⟨(hperm.cons z).trans (List.Perm.swap _ _ _), ?_⟩
        intro w hw
        rcases List.mem_cons.mp hw with rfl | hw
        · exact (before_total _ _).resolve_left hzy
        · exact hleast w hw

/-! ## 5. Refilling a cursor -/

/-- A stream without read errors. -/
def ErrorFree (stream : List (Except CompactorError (List α))) : Prop :=
  ∀ item ∈ stream, ∃ batch, item = .ok batch

/-- A cursor whose current batch has passed the guard. -/
structure Guarded (code : α → κ) (c : Cursor α κ) : Prop where
  free : ErrorFree c.stream
  ordered : Ordered code c.batch
  last : c.last = c.batch.getLast?.map code

/-- A cursor that is at a row, if there is one. -/
structure Settled (code : α → κ) (c : Cursor α κ) : Prop extends Guarded code c where
  spent : c.head? = none → streamRows c.stream = []

/-- The next batch that is not empty, and what the guard says of it. -/
theorem Cursor.refill_eq (c : Cursor α κ) {stream : List (Except CompactorError (List α))}
    (hfree : ErrorFree stream) :
    streamRows stream = [] ∧
      c.refill code stream = .ok ({ c with stream := [], exhausted := true }, none) ∨
    ∃ a rest tail, streamRows stream = (a :: rest) ++ streamRows tail ∧ ErrorFree tail ∧
      c.refill code stream =
        match convertAndGuard code c.path c.last a rest with
        | .error e => .error e
        | .ok last => .ok ({ c with stream := tail, batch := a :: rest, idx := 0, last := some last },
            some (code a)) := by
  induction stream with
  | nil => exact Or.inl ⟨rfl, rfl⟩
  | cons item stream ih =>
    have htail : ErrorFree stream := fun x hx => hfree x (List.mem_cons_of_mem _ hx)
    obtain ⟨batch, rfl⟩ := hfree item List.mem_cons_self
    cases batch with
    | nil => exact ih htail
    | cons a rest => exact Or.inr ⟨a, rest, stream, rfl, htail, rfl⟩

/-- **A refill** gives the cursor its next row, or finds the stream out of order. -/
theorem refill_guarded {c : Cursor α κ} (hc : Guarded code c) (hspent : c.head? = none) :
    (∃ row, c.refill code c.stream = .error (.mergeOrderViolation c.path row)) ∧
      ¬ Ordered code (c.batch ++ streamRows c.stream) ∨
    ∃ c', c.refill code c.stream = .ok (c', c'.head?.map code) ∧ Settled code c' ∧
      c'.path = c.path ∧ c'.remaining = streamRows c.stream ∧
      (Ordered code (c'.batch ++ streamRows c'.stream) ↔
        Ordered code (c.batch ++ streamRows c.stream)) ∧
      ∀ prev ∈ c.last, ∀ a ∈ c'.head?, prev ≤ code a := by
  have hnext := @Cursor.refill_eq _ _ _ code c _ hc.free
  rcases hnext with ⟨hrows, hrefill⟩ | ⟨a, rest, tail, hrows, htail, hrefill⟩
  · refine Or.inr ⟨{ c with stream := [], exhausted := true }, ?_, ⟨⟨?_, hc.ordered, hc.last⟩, ?_⟩,
      rfl, ?_, ?_, ?_⟩
    · rw [hrefill, show Cursor.head? { c with stream := [], exhausted := true } = none from hspent]
      rfl
    · exact fun item hitem => absurd hitem List.not_mem_nil
    · exact fun _ => rfl
    · rw [hrows, Cursor.remaining]
      simp only [streamRows, List.append_nil]
      exact List.drop_eq_nil_of_le (List.getElem?_eq_none_iff.mp hspent)
    · rw [hrows]
      rfl
    · intro prev _ a ha
      rw [show Cursor.head? { c with stream := [], exhausted := true } = none from hspent] at ha
      cases ha
  · rw [hrows, hrefill]
    have hguard := @convertAndGuard_eq α κ _ code c.path c.last a rest
    rcases hguard with ⟨hok, hordered, hlast⟩ | ⟨⟨row, herror⟩, hbad⟩
    · refine Or.inr ⟨⟨tail, c.path, a :: rest, 0, c.exhausted, some (code (rest.getLast?.getD a))⟩,
        by rw [hok]; rfl, ⟨⟨htail, hordered, ?_⟩, ?_⟩, rfl, rfl, ?_, ?_⟩
      · rw [List.getLast?_cons]
        rfl
      · intro hnone
        cases hnone
      · -- the batch consumed before was in order and ends below this one
        rw [Ordered, Ordered, @List.pairwise_append _ _ c.batch]
        refine ⟨fun h => ⟨hc.ordered, h, ?_⟩, fun h => h.2.1⟩
        intro x hx y hy
        obtain ⟨b, init, hb⟩ : ∃ b init, c.batch = b :: init := by
          cases hbatch : c.batch with
          | nil =>
            rw [hbatch] at hx
            cases hx
          | cons b init => exact ⟨b, init, rfl⟩
        have hle := le_getLast (hb ▸ hc.ordered) x (hb ▸ hx)
        have hprev : code (init.getLast?.getD b) ≤ code a := by
          refine hlast _ ?_
          rw [hc.last, hb, List.getLast?_cons]
          rfl
        have hay : code a ≤ code y := by
          rcases List.mem_cons.mp hy with rfl | hy
          · exact le_refl _
          · exact List.rel_of_pairwise_cons h hy
        exact (hle.trans hprev).trans hay
      · rintro prev hprev _ ⟨⟩
        exact hlast prev hprev
    · refine Or.inl ⟨⟨row, by rw [herror]⟩, fun h => hbad ?_⟩
      obtain ⟨-, hnew, hcross⟩ := List.pairwise_append.mp h
      refine ⟨(List.pairwise_append.mp hnew).1, ?_⟩
      intro prev hprev
      rw [hc.last] at hprev
      obtain ⟨l, hl, rfl⟩ := Option.map_eq_some_iff.mp hprev
      exact hcross l (List.mem_of_getLast? hl) a (by simp)

/-! ## 6. The invariant -/

/-- A cursor stands for a stream: it has its path, and what it still guards is in order if and
only if the whole stream is. -/
def Origin (code : α → κ) (input : String × List α) (c : Cursor α κ) : Prop :=
  c.path = input.1 ∧ (Ordered code input.2 ↔ Ordered code (c.batch ++ streamRows c.stream))

/-- **The invariant**: the heap has the cursors' rows; what was emitted is in order and below
them; and where every stream is in order it is the beginning of the stable merge. -/
structure Inv (code : α → κ) (inputs : List (String × List α)) (emitted : List α)
    (st : MergeState α κ) : Prop where
  heap : st.heap.Perm (heads code 0 st.cursors)
  settled : ∀ c ∈ st.cursors, Settled code c
  origin : List.Forall₂ (Origin code) inputs st.cursors
  sorted : Ordered code emitted
  below : ∀ a ∈ emitted, ∀ x ∈ st.heap, code a ≤ x.1
  merge : (∀ input ∈ inputs, Ordered code input.2) →
    emitted ++ (st.cursors.flatMap Cursor.remaining).insertionSort (fun a b => code a ≤ code b) =
      (inputs.flatMap Prod.snd).insertionSort fun a b => code a ≤ code b

/-- A cursor that is at no row has none left. -/
theorem remaining_of_spent {c : Cursor α κ} (hc : Settled code c) (h : c.head? = none) :
    c.remaining = [] := by
  rw [Cursor.remaining, hc.spent h, List.append_nil]
  exact List.drop_eq_nil_of_le (List.getElem?_eq_none_iff.mp h)

/-- Where a cursor's rows are in order, the row it is at is the least of those to come. -/
theorem head_le_remaining {c : Cursor α κ} {a : α} (hordered : Ordered code c.remaining)
    (h : c.head? = some a) : ∀ b ∈ c.remaining, code a ≤ code b := by
  rw [remaining_of_head? h] at hordered ⊢
  intro b hb
  rcases List.mem_cons.mp hb with rfl | hb
  · exact le_refl _
  · exact List.rel_of_pairwise_cons hordered hb

variable {inputs : List (String × List α)} {emitted : List α} {st : MergeState α κ}

/-- **What the heap gives**: the row of one of the cursors, less than those of the cursors before
it and at most those of the cursors behind it. -/
theorem Inv.popped (hinv : Inv code inputs emitted st) {k : κ} {s : Nat} {rest : List (κ × Nat)}
    (h : pop st.heap = some ((k, s), rest)) :
    ∃ A c C a, st.cursors = A ++ c :: C ∧ A.length = s ∧ c.head? = some a ∧ k = code a ∧
      rest.Perm (heads code 0 A ++ heads code (s + 1) C) ∧
      (∀ c' ∈ A, ∀ b, c'.head? = some b → code a < code b) ∧
      (∀ c' ∈ C, ∀ b, c'.head? = some b → code a ≤ code b) := by
  obtain ⟨hperm, hbefore⟩ := pop_eq_some h
  have hmem : (k, s) ∈ heads code 0 st.cursors :=
    hinv.heap.mem_iff.mp (hperm.mem_iff.mpr List.mem_cons_self)
  obtain ⟨A, c, C, a, hcursors, ha, heq⟩ := mem_heads.mp hmem
  rw [Nat.zero_add, Prod.mk.injEq] at heq
  obtain ⟨rfl, rfl⟩ := heq
  have hrest : rest.Perm (heads code 0 A ++ heads code (A.length + 1) C) := by
    have hheads : (heads code 0 st.cursors).Perm
        ((code a, A.length) :: (heads code 0 A ++ heads code (A.length + 1) C)) := by
      rw [hcursors, heads_append, heads, ha, Nat.zero_add]
      exact List.perm_middle
    exact (hperm.symm.trans (hinv.heap.trans hheads)).cons_inv
  refine ⟨A, c, C, a, hcursors, rfl, ha, rfl, hrest, ?_, ?_⟩
  · intro c' hc' b hb
    obtain ⟨A₁, A₂, rfl⟩ := List.append_of_mem hc'
    have hx : (code b, A₁.length) ∈ rest :=
      hrest.mem_iff.mpr (List.mem_append_left _
        (mem_heads.mpr ⟨A₁, c', A₂, b, rfl, hb, by rw [Nat.zero_add]⟩))
    rcases hbefore _ hx with hlt | ⟨-, hle⟩
    · exact hlt
    · simp at hle
  · intro c' hc' b hb
    obtain ⟨C₁, C₂, rfl⟩ := List.append_of_mem hc'
    have hx : (code b, A.length + 1 + C₁.length) ∈ rest :=
      hrest.mem_iff.mpr (List.mem_append_right _ (mem_heads.mpr ⟨C₁, c', C₂, b, rfl, hb, rfl⟩))
    rcases hbefore _ hx with hlt | ⟨heq, -⟩
    · exact hlt.le
    · exact heq.le

/-- Streams that are all in order leave cursors whose rows are. -/
theorem Inv.ordered_remaining (hinv : Inv code inputs emitted st)
    (hall : ∀ input ∈ inputs, Ordered code input.2) :
    ∀ c ∈ st.cursors, Ordered code c.remaining := by
  intro c hc
  obtain ⟨input, hinput, -, hordered⟩ := hinv.origin.flip.exists_of_mem hc
  exact (hordered.mp (hall input hinput)).sublist (remaining_sublist c)

/-- **One row goes out**: the cursor it is from moves on by it, within its batch or to the next. -/
theorem Inv.advance (hinv : Inv code inputs emitted st) {k : κ} {rest : List (κ × Nat)}
    {A C : List (Cursor α κ)} {c c' : Cursor α κ} {a : α} (hcursors : st.cursors = A ++ c :: C)
    (hpop : pop st.heap = some ((k, A.length), rest)) (ha : c.head? = some a)
    (hc' : Settled code c') (hpath : c'.path = c.path)
    (hordered : Ordered code (c'.batch ++ streamRows c'.stream) ↔
      Ordered code (c.batch ++ streamRows c.stream))
    (hremaining : c.remaining = a :: c'.remaining)
    (habove : ∀ b, c'.head? = some b → code a ≤ code b) :
    Inv code inputs (emitted ++ [a])
      ⟨A ++ c' :: C, (c'.head?.map fun b => (code b, A.length)).toList ++ rest⟩ := by
  obtain ⟨A', d, C', a', hcursors', hlen, ha', rfl, hrest, hless, hle⟩ := hinv.popped hpop
  obtain ⟨rfl, hcons⟩ := List.append_inj (hcursors.symm.trans hcursors') hlen.symm
  obtain ⟨rfl, rfl⟩ := List.cons.inj hcons
  obtain rfl := Option.some.inj (ha.symm.trans ha')
  have hsettled : ∀ d ∈ A ++ c :: C, Settled code d := hcursors ▸ hinv.settled
  have horigin := hcursors ▸ hinv.origin
  have hbelow : ∀ b ∈ emitted, code b ≤ code a := fun b hb =>
    hinv.below b hb (code a, A.length)
      ((pop_eq_some hpop).1.mem_iff.mpr List.mem_cons_self)
  -- the entries that stayed in the heap are not less than the row
  have hstay : ∀ x ∈ rest, code a ≤ x.1 := fun x hx =>
    ((pop_eq_some hpop).2 x hx).elim le_of_lt fun h => le_of_eq h.1
  refine ⟨?_, ?_, ?_, ?_, ?_, ?_⟩
  · rw [heads_append, heads, Nat.zero_add]
    refine (hrest.append_left _).trans ?_
    rw [← List.append_assoc, ← List.append_assoc]
    exact (List.perm_append_comm).append_right _
  · intro d hd
    rcases List.mem_append.mp hd with hd | hd
    · exact hsettled d (List.mem_append_left _ hd)
    · rcases List.mem_cons.mp hd with rfl | hd
      · exact hc'
      · exact hsettled d (List.mem_append_right _ (List.mem_cons_of_mem _ hd))
  · exact horigin.replace_right fun input hc => ⟨hpath.trans hc.1, hc.2.trans hordered.symm⟩
  · refine List.pairwise_append.mpr ⟨hinv.sorted, List.pairwise_singleton _ _, ?_⟩
    intro b hb x hx
    rw [List.mem_singleton.mp hx]
    exact hbelow b hb
  · intro b hb x hx
    have hbx : code a ≤ x.1 := by
      rcases List.mem_append.mp hx with hx | hx
      · rw [Option.mem_toList, Option.map_eq_some_iff] at hx
        obtain ⟨b', hb', rfl⟩ := hx
        exact habove b' hb'
      · exact hstay x hx
    rcases List.mem_append.mp hb with hb | hb
    · exact (hbelow b hb).trans hbx
    · rw [List.mem_singleton.mp hb]
      exact hbx
  · intro hall
    have hremains : ∀ d ∈ A ++ c :: C, Ordered code d.remaining := fun d hd =>
      hinv.ordered_remaining hall d (hcursors ▸ hd)
    rw [← hinv.merge hall, hcursors, List.flatMap_append, List.flatMap_append, List.flatMap_cons,
      List.flatMap_cons, hremaining, List.cons_append, List.append_assoc,
      List.insertionSort_append_cons]
    · rfl
    · intro b hb
      obtain ⟨d, hd, hbd⟩ := List.mem_flatMap.mp hb
      have hmem := List.mem_append_left (c :: C) hd
      cases hhead : d.head? with
      | none =>
        rw [remaining_of_spent (hsettled d hmem) hhead] at hbd
        cases hbd
      | some a' =>
        exact (hless d hd a' hhead).trans_le (head_le_remaining (hremains d hmem) hhead b hbd)
    · intro b hb
      rcases List.mem_append.mp hb with hb | hb
      · refine head_le_remaining (hremains c (by simp)) ha b ?_
        rw [hremaining]
        exact List.mem_cons_of_mem _ hb
      · obtain ⟨d, hd, hbd⟩ := List.mem_flatMap.mp hb
        have hmem := List.mem_append_right A (List.mem_cons_of_mem c hd)
        cases hhead : d.head? with
        | none =>
          rw [remaining_of_spent (hsettled d hmem) hhead] at hbd
          cases hbd
        | some a' => exact (hle d hd a' hhead).trans (head_le_remaining (hremains d hmem) hhead b hbd)

/-! ## 7. The run -/

/-- The error of an input stream that is out of order. -/
def Violated (code : α → κ) (inputs : List (String × List α)) (e : CompactorError) : Prop :=
  ∃ input ∈ inputs, ¬ Ordered code input.2 ∧ ∃ row, e = .mergeOrderViolation input.1 row

/-- A refill touches one cursor. -/
theorem refill_at (A C : List (Cursor α κ)) (c : Cursor α κ) (heap : List (κ × Nat)) :
    MergeState.refill code ⟨A ++ c :: C, heap⟩ A.length =
      match c.refill code c.stream with
      | .error e => .error e
      | .ok (c', head) =>
        .ok ⟨A ++ c' :: C, (head.map fun x => (x, A.length)).toList ++ heap⟩ := by
  unfold MergeState.refill
  simp only [List.getElem?_append_right (Nat.le_refl _), Nat.sub_self, List.getElem?_cons_zero]
  cases c.refill code c.stream with
  | error e => rfl
  | ok next =>
    obtain ⟨c', head⟩ := next
    cases head <;> simp

/-- The cursor moves on within its batch. -/
theorem Inv.within {A C : List (Cursor α κ)} {c : Cursor α κ} {heap rest : List (κ × Nat)} {k : κ}
    {a head : α} (hinv : Inv code inputs emitted ⟨A ++ c :: C, heap⟩)
    (hpop : pop heap = some ((k, A.length), rest)) (ha : c.head? = some a)
    (hnext : c.batch[c.idx + 1]? = some head) :
    Inv code inputs (emitted ++ [a])
      ⟨A ++ { c with idx := c.idx + 1 } :: C, (code head, A.length) :: rest⟩ := by
  have hc : Settled code c := hinv.settled c (by simp)
  have hhead : Cursor.head? { c with idx := c.idx + 1 } = some head := hnext
  obtain ⟨hlt, rfl⟩ := List.getElem?_eq_some_iff.mp ha
  obtain ⟨hlt', rfl⟩ := List.getElem?_eq_some_iff.mp hnext
  have hle : code c.batch[c.idx] ≤ code c.batch[c.idx + 1] :=
    List.pairwise_iff_getElem.mp hc.ordered _ _ hlt hlt' (Nat.lt_succ_self _)
  have hsettled : Settled code { c with idx := c.idx + 1 } := by
    refine ⟨⟨hc.free, hc.ordered, hc.last⟩, fun h => ?_⟩
    rw [hhead] at h
    cases h
  have hstep := hinv.advance rfl hpop ha hsettled rfl Iff.rfl (remaining_of_head? ha) <| by
    intro b hb
    rw [hhead] at hb
    cases hb
    exact hle
  rw [hhead] at hstep
  exact hstep

/-- The cursor has come to the end of its batch. -/
theorem Inv.refilled {A C : List (Cursor α κ)} {c : Cursor α κ} {heap rest : List (κ × Nat)} {k : κ}
    {a : α} (hinv : Inv code inputs emitted ⟨A ++ c :: C, heap⟩)
    (hpop : pop heap = some ((k, A.length), rest)) (ha : c.head? = some a)
    (hnext : c.batch[c.idx + 1]? = none) :
    match MergeState.refill code ⟨A ++ { c with idx := c.idx + 1 } :: C, rest⟩ A.length with
    | .error e => Violated code inputs e
    | .ok st' => Inv code inputs (emitted ++ [a]) st' ∧
        MergeState.left ⟨A ++ c :: C, heap⟩ = st'.left + 1 := by
  have hc : Settled code c := hinv.settled c (by simp)
  have hguarded : Guarded code { c with idx := c.idx + 1 } := ⟨hc.free, hc.ordered, hc.last⟩
  rw [refill_at]
  rcases refill_guarded hguarded hnext with ⟨⟨row, hrefill⟩, hbad⟩ |
    ⟨c', hrefill, hsettled, hpath, hremaining, hordered, hlast⟩
  · obtain ⟨input, hinput, hpath, horder⟩ := hinv.origin.flip.exists_of_mem
      (show c ∈ A ++ c :: C by simp)
    rw [hrefill]
    exact ⟨input, hinput, fun h => hbad (horder.mp h), row, by rw [← hpath]⟩
  · rw [hrefill]
    have hrest : c.remaining = a :: c'.remaining := by
      rw [remaining_of_head? ha, hremaining, List.drop_eq_nil_of_le (List.getElem?_eq_none_iff.mp hnext)]
      rfl
    -- the row that went out was the last of its batch
    have hout : code a ∈ c.last := by
      obtain ⟨hlt, rfl⟩ := List.getElem?_eq_some_iff.mp ha
      have hend := List.getElem?_eq_none_iff.mp hnext
      rw [hc.last, List.getLast?_eq_getElem?, show c.batch.length - 1 = c.idx by omega,
        List.getElem?_eq_getElem hlt]
      rfl
    have hstep := hinv.advance rfl hpop ha hsettled hpath hordered hrest
      fun b hb => hlast _ hout b hb
    simp only [Option.map_map]
    exact ⟨hstep, left_advance hrest⟩

/-- What one output batch does. -/
def BatchOk (code : α → κ) (inputs : List (String × List α)) (done : List α) (most : Nat)
    (rows : Nat) : Except CompactorError (Option (List α) × MergeState α κ) → Prop
  | .error e => Violated code inputs e
  | .ok (none, st) => Inv code inputs done st ∧ st.heap = []
  | .ok (some out, st) => Inv code inputs (done ++ out) st ∧ out ≠ [] ∧ out.length ≤ most ∧
      st.left + out.length = rows

/-- **The loop of `next_batch`** keeps the invariant, with the rows gathered so far as emitted. -/
theorem nextRows_spec {done : List α} {indices : List (Nat × Nat)} (n : Nat)
    (hinv : Inv code inputs (done ++ st.build indices) st)
    (hbuild : indices = [] ∨ st.build indices ≠ []) (hn : n = 0 → indices ≠ []) :
    BatchOk code inputs done (indices.length + n) (st.left + (st.build indices).length)
      (nextRows code n indices st) := by
  have hlength : ∀ (st : MergeState α κ) indices, (st.build indices).length ≤ indices.length :=
    fun st indices => List.length_filterMap_le _ _
  induction n generalizing indices st with
  | zero =>
    exact ⟨hinv, hbuild.resolve_left (hn rfl), hlength _ _, rfl⟩
  | succ n ih =>
    rw [nextRows]
    cases hpop : pop st.heap with
    | none =>
      have hheap := pop_eq_none.mp hpop
      by_cases hempty : indices = []
      · subst hempty
        exact ⟨by simpa [MergeState.build, MergeState.interleave] using hinv, hheap⟩
      · simp only [if_neg hempty]
        have := hlength st indices
        exact ⟨hinv, hbuild.resolve_left hempty, by omega, rfl⟩
    | some popped =>
      obtain ⟨⟨k, s⟩, rest⟩ := popped
      obtain ⟨A, c, C, a, hcursors, rfl, ha, rfl, -, -, -⟩ := hinv.popped hpop
      obtain ⟨cursors, heap⟩ := st
      obtain rfl : cursors = A ++ c :: C := hcursors
      have hc : Settled code c := hinv.settled c (by simp)
      have hset : ∀ c' : Cursor α κ, (A ++ c :: C).set A.length c' = A ++ c' :: C := by simp
      simp only [List.getElem?_append_right (Nat.le_refl _), Nat.sub_self, List.getElem?_cons_zero,
        hset]
      cases hnext : c.batch[c.idx + 1]? with
      | some head =>
        have hstep := hinv.within hpop ha hnext
        have hrows : MergeState.build ⟨A ++ { c with idx := c.idx + 1 } :: C,
            (code head, A.length) :: rest⟩ (indices ++ [(A.length, c.idx)]) =
              MergeState.build ⟨A ++ c :: C, heap⟩ indices ++ [a] := by
          refine build_concat ?_ ha indices
          rfl
        have hleft : MergeState.left ⟨A ++ c :: C, heap⟩ =
            MergeState.left ⟨A ++ { c with idx := c.idx + 1 } :: C,
              (code head, A.length) :: rest⟩ + 1 := left_advance (remaining_of_head? ha)
        rw [List.append_assoc, ← hrows] at hstep
        have hrec := ih hstep (Or.inr (by rw [hrows]; simp)) (by simp)
        rw [hrows, List.length_append, List.length_append, List.length_singleton,
          List.length_singleton] at hrec
        have hmost : indices.length + 1 + n = indices.length + (n + 1) := by omega
        rw [hleft, Nat.add_right_comm, Nat.add_assoc, ← hmost]
        exact hrec
      | none =>
        have hrefill := hinv.refilled hpop ha hnext
        have hrows : MergeState.build ⟨A ++ { c with idx := c.idx + 1 } :: C, rest⟩
            (indices ++ [(A.length, c.idx)]) =
              MergeState.build ⟨A ++ c :: C, heap⟩ indices ++ [a] := by
          refine build_concat ?_ ha indices
          rfl
        have hlen := hlength ⟨A ++ c :: C, heap⟩ indices
        simp only [hrows]
        split
        · rename_i e he
          rw [he] at hrefill
          exact hrefill
        · rename_i st' hst'
          rw [hst'] at hrefill
          obtain ⟨hstep, hleft⟩ := hrefill
          rw [List.append_assoc] at hstep
          refine ⟨hstep, by simp, ?_, ?_⟩
          · rw [List.length_append, List.length_singleton]
            omega
          · rw [hleft, List.length_append, List.length_singleton]
            omega

/-- **A run of the merge** comes to its end: all rows are out, or a stream is out of order.  Its
batches are in order in any case. -/
theorem unfoldBatches_spec {done : List α} (fuel : Nat) (hinv : Inv code inputs done st)
    (hfuel : st.left < fuel) :
    (∀ batch ∈ (unfoldBatches code fuel st).1, batch ≠ [] ∧ batch.length ≤ mergeBatchRows) ∧
    Ordered code (done ++ (unfoldBatches code fuel st).1.flatten) ∧
    (((unfoldBatches code fuel st).2 = .drained ∧ ∃ st' : MergeState α κ, st'.heap = [] ∧
        Inv code inputs (done ++ (unfoldBatches code fuel st).1.flatten) st') ∨
      ∃ e, (unfoldBatches code fuel st).2 = .failed e ∧ Violated code inputs e) := by
  induction fuel generalizing done st with
  | zero => omega
  | succ fuel ih =>
    have hnone : st.build [] = [] := rfl
    have hbatch : BatchOk code inputs done mergeBatchRows st.left (st.nextBatch code) := by
      have hstart : Inv code inputs (done ++ st.build []) st := by
        rw [hnone, List.append_nil]
        exact hinv
      have := nextRows_spec mergeBatchRows hstart (Or.inl rfl) (by decide)
      simp only [hnone, List.length_nil, Nat.zero_add, Nat.add_zero] at this
      exact this
    rw [unfoldBatches]
    split
    · rename_i e he
      rw [he] at hbatch
      exact ⟨by simp, by simpa using hinv.sorted, Or.inr ⟨e, rfl, hbatch⟩⟩
    · rename_i st' hst'
      rw [hst'] at hbatch
      exact ⟨by simp, by simpa using hinv.sorted,
        Or.inl ⟨rfl, st', hbatch.2, by simpa using hbatch.1⟩⟩
    · rename_i batch st' hst'
      rw [hst'] at hbatch
      obtain ⟨hinv', hne, hmost, hleft⟩ := hbatch
      have hpos : 0 < batch.length := List.length_pos_iff.mpr hne
      obtain ⟨hbatches, hordered, hend⟩ := ih hinv' (by omega)
      simp only [List.flatten_cons, ← List.append_assoc]
      refine ⟨?_, hordered, hend⟩
      intro b hb
      rcases List.mem_cons.mp hb with rfl | hb
      · exact ⟨hne, hmost⟩
      · exact hbatches b hb

/-- Where the heap is empty the streams are used up: they are in order, and all rows are out. -/
theorem Inv.drained (hinv : Inv code inputs emitted st) (hheap : st.heap = []) :
    (∀ input ∈ inputs, Ordered code input.2) ∧
      emitted = (inputs.flatMap Prod.snd).insertionSort fun a b => code a ≤ code b := by
  have hheads : heads code 0 st.cursors = [] :=
    List.Perm.nil_eq (hheap ▸ hinv.heap) |>.symm
  have hspent : ∀ c ∈ st.cursors, c.head? = none := by
    intro c hc
    obtain ⟨A, C, hcursors⟩ := List.append_of_mem hc
    cases hhead : c.head? with
    | none => rfl
    | some a =>
      have : (code a, 0 + A.length) ∈ heads code 0 st.cursors :=
        mem_heads.mpr ⟨A, c, C, a, hcursors, hhead, rfl⟩
      rw [hheads] at this
      cases this
  have hordered : ∀ input ∈ inputs, Ordered code input.2 := by
    intro input hinput
    obtain ⟨c, hc, -, horder⟩ := hinv.origin.exists_of_mem hinput
    rw [horder, (hinv.settled c hc).spent (hspent c hc), List.append_nil]
    exact (hinv.settled c hc).ordered
  have hrest : st.cursors.flatMap Cursor.remaining = [] :=
    List.flatMap_eq_nil_iff.mpr fun c hc => remaining_of_spent (hinv.settled c hc) (hspent c hc)
  refine ⟨hordered, ?_⟩
  have hmerge := hinv.merge hordered
  rwa [hrest, List.insertionSort_nil, List.append_nil] at hmerge

/-! ## 8. The first batches -/

/-- A cursor before its first batch. -/
def freshCursor (p : String × List (Except CompactorError (List α))) : Cursor α κ :=
  ⟨p.2, p.1, [], 0, false, none⟩

/-- The streams whose cursors have been filled, with these cursors and their heap. -/
structure Filled (code : α → κ) (inputs : List (String × List α)) (A : List (Cursor α κ))
    (heap : List (κ × Nat)) : Prop where
  heap : heap.Perm (heads code 0 A)
  settled : ∀ c ∈ A, Settled code c
  origin : List.Forall₂ (Origin code) inputs A
  rows : A.flatMap Cursor.remaining = inputs.flatMap Prod.snd

/-- The rows of the streams, under their paths. -/
def streamInputs (streams : List (String × List (Except CompactorError (List α)))) :
    List (String × List α) :=
  streams.map fun p => (p.1, streamRows p.2)

theorem foldlM_refill {A : List (Cursor α κ)} {heap : List (κ × Nat)}
    (hfilled : Filled code inputs A heap)
    {streams : List (String × List (Except CompactorError (List α)))}
    (hfree : ∀ p ∈ streams, ErrorFree p.2) :
    match (List.range' A.length streams.length).foldlM (MergeState.refill code)
        ⟨A ++ streams.map freshCursor, heap⟩ with
    | .error e => Violated code (streamInputs streams) e
    | .ok st => Filled code (inputs ++ streamInputs streams) st.cursors st.heap := by
  induction streams generalizing A heap inputs with
  | nil =>
    simp only [streamInputs, List.map_nil, List.append_nil]
    exact hfilled
  | cons p streams ih =>
    have hguarded : Guarded code (freshCursor p : Cursor α κ) :=
      ⟨hfree p List.mem_cons_self, List.Pairwise.nil, rfl⟩
    rw [List.length_cons, List.range'_succ, List.foldlM_cons, List.map_cons, refill_at]
    rcases refill_guarded hguarded rfl with ⟨⟨row, hrefill⟩, hbad⟩ |
      ⟨c', hrefill, hsettled, hpath, hremaining, hordered, -⟩
    · rw [hrefill]
      exact ⟨_, List.mem_cons_self, hbad, row, rfl⟩
    · rw [hrefill]
      have hstep : Filled code (inputs ++ [(p.1, streamRows p.2)]) (A ++ [c'])
          (((c'.head?.map code).map fun x => (x, A.length)).toList ++ heap) := by
        refine ⟨?_, ?_, ?_, ?_⟩
        · rw [heads_append, heads, heads, List.append_nil, Nat.zero_add, Option.map_map]
          exact (hfilled.heap.append_left _).trans List.perm_append_comm
        · intro c hc
          rcases List.mem_append.mp hc with hc | hc
          · exact hfilled.settled c hc
          · exact List.mem_singleton.mp hc ▸ hsettled
        · exact List.rel_append hfilled.origin (.cons ⟨hpath, hordered.symm⟩ .nil)
        · rw [List.flatMap_append, List.flatMap_append, hfilled.rows, List.flatMap_singleton,
            List.flatMap_singleton, hremaining]
          rfl
      have hrec := ih hstep fun q hq => hfree q (List.mem_cons_of_mem p hq)
      rw [List.length_append, List.length_singleton, List.append_assoc, List.append_assoc] at hrec
      simp only [List.singleton_append] at hrec
      simp only [bind, Except.bind]
      split at hrec
      · obtain ⟨input, hinput, hviolated⟩ := hrec
        exact ⟨input, List.mem_cons_of_mem _ hinput, hviolated⟩
      · exact hrec

/-- **A merge by codes.** -/
theorem mergeByCode_spec {streams : List (String × List (Except CompactorError (List α)))}
    (hfree : ∀ p ∈ streams, ErrorFree p.2) :
    (∀ batch ∈ (mergeByCode code streams).1, batch ≠ [] ∧ batch.length ≤ mergeBatchRows) ∧
    Ordered code (mergeByCode code streams).1.flatten ∧
    (((mergeByCode code streams).2 = .drained ∧
        (∀ p ∈ streams, Ordered code (streamRows p.2)) ∧
        (mergeByCode code streams).1.flatten =
          (streams.map fun p => streamRows p.2).flatten.insertionSort
            fun a b => code a ≤ code b) ∨
      ∃ e, (mergeByCode code streams).2 = .failed e ∧ Violated code (streamInputs streams) e) := by
  have hempty : Filled code [] [] [] :=
    ⟨List.Perm.refl _, by simp, .nil, rfl⟩
  have hinit := foldlM_refill hempty hfree
  rw [List.length_nil, List.nil_append, List.nil_append, ← List.range_eq_range'] at hinit
  have hrows : (streamInputs streams).flatMap Prod.snd = streams.flatMap fun p => streamRows p.2 := by
    rw [streamInputs, List.flatMap_map]
  unfold mergeByCode MergeState.init
  split at hinit
  · rename_i e he
    simp only [show (streams.map fun p => (⟨p.2, p.1, [], 0, false, none⟩ : Cursor α κ)) =
      streams.map freshCursor from rfl, he]
    exact ⟨by simp, List.Pairwise.nil, Or.inr ⟨e, rfl, hinit⟩⟩
  · rename_i st hst
    simp only [show (streams.map fun p => (⟨p.2, p.1, [], 0, false, none⟩ : Cursor α κ)) =
      streams.map freshCursor from rfl, hst]
    have hinv : Inv code (streamInputs streams) [] st := by
      refine ⟨hinit.heap, hinit.settled, hinit.origin, List.Pairwise.nil, by simp, fun _ => ?_⟩
      rw [List.nil_append, hinit.rows]
    have hleft : st.left < (streams.flatMap fun p => streamRows p.2).length + 1 := by
      rw [MergeState.left, hinit.rows, hrows]
      exact Nat.lt_succ_self _
    obtain ⟨hbatches, hordered, hend⟩ := unfoldBatches_spec _ hinv hleft
    rw [List.nil_append] at hordered
    refine ⟨hbatches, hordered, hend.imp_left ?_⟩
    rintro ⟨hdrained, st', hheap, hinv'⟩
    obtain ⟨hall, hout⟩ := hinv'.drained hheap
    refine ⟨hdrained, ?_, ?_⟩
    · intro p hp
      exact hall (p.1, streamRows p.2) (List.mem_map_of_mem hp)
    · rw [List.nil_append] at hout
      rw [hout, hrows, List.flatMap_def]

end Proofs

/-! ## 9. Streams with read errors -/

section Errors

variable {α κ : Type} {inputs : List (List (Except CompactorError (List α)))}
  {st st' : MergeState α κ}

/-- **No cursor sleeps**: one that is not at the end of its stream is in the heap, but for those
that are just being filled; and what was consumed of the streams were no errors. -/
structure Awake (inputs : List (List (Except CompactorError (List α)))) (filling : List Nat)
    (st : MergeState α κ) : Prop where
  length : st.cursors.length = inputs.length
  free : ∀ (s : Nat) stream (c : Cursor α κ), inputs[s]? = some stream →
    st.cursors[s]? = some c → (ErrorFree stream ↔ ErrorFree c.stream)
  waiting : ∀ s c, s ∉ filling → st.cursors[s]? = some c → c.stream = [] ∨ ∃ k, (k, s) ∈ st.heap
  within : ∀ x ∈ st.heap, x.2 < st.cursors.length

/-- A cursor that has moved on within its stream, and is still being filled. -/
theorem Awake.set {filling filling' : List Nat} (h : Awake inputs filling st) {s : Nat}
    {c c' : Cursor α κ} (hc : st.cursors[s]? = some c)
    (hfree : ErrorFree c.stream ↔ ErrorFree c'.stream) {heap : List (κ × Nat)}
    (hfilling : ∀ t ∈ filling, t ∈ s :: filling')
    (hkeep : ∀ x ∈ st.heap, x.2 = s ∨ x ∈ heap) (hwithin : ∀ x ∈ heap, x ∈ st.heap) :
    Awake inputs (s :: filling') ⟨st.cursors.set s c', heap⟩ := by
  have hlt : s < st.cursors.length := (List.getElem?_eq_some_iff.mp hc).1
  refine ⟨by rw [List.length_set]; exact h.length, ?_, ?_, ?_⟩
  · intro t stream d hstream hd
    by_cases hts : t = s
    · subst hts
      rw [List.getElem?_set_self hlt] at hd
      cases hd
      exact (h.free t stream c hstream hc).trans hfree
    · rw [List.getElem?_set_ne (Ne.symm hts)] at hd
      exact h.free t stream d hstream hd
  · intro t d ht hd
    have hts : t ≠ s := fun hts => ht (hts ▸ List.mem_cons_self)
    rw [List.getElem?_set_ne (Ne.symm hts)] at hd
    refine (h.waiting t d (fun hmem => ht (hfilling t hmem)) hd).imp_right ?_
    rintro ⟨k, hk⟩
    exact ⟨k, (hkeep (k, t) hk).resolve_left hts⟩
  · intro x hx
    rw [List.length_set]
    exact h.within x (hwithin x hx)

/-- A cursor that has been filled is in the heap or at its end. -/
theorem Awake.filled {filling : List Nat} {s : Nat} (h : Awake inputs (s :: filling) st)
    {heap : List (κ × Nat)} (hkeep : ∀ x ∈ st.heap, x ∈ heap)
    (hwithin : ∀ x ∈ heap, x ∈ st.heap ∨ x.2 = s ∧ s < st.cursors.length)
    (hself : ∀ c, st.cursors[s]? = some c → c.stream = [] ∨ ∃ k, (k, s) ∈ heap) :
    Awake inputs filling ⟨st.cursors, heap⟩ := by
  refine ⟨h.length, h.free, fun t c ht hc => ?_, fun x hx => ?_⟩
  · by_cases hts : t = s
    · subst hts
      exact hself c hc
    · refine (h.waiting t c (fun hmem => (List.mem_cons.mp hmem).elim hts ht) hc).imp_right ?_
      rintro ⟨k, hk⟩
      exact ⟨k, hkeep _ hk⟩
  · rcases hwithin x hx with hx | ⟨hx, hlt⟩
    · exact h.within x hx
    · rw [hx]
      exact hlt

variable [LinearOrder κ] {code : α → κ}

/-- A refill passes over no error, and finds no row only at the end. -/
theorem refill_errorFree {c c' : Cursor α κ} {stream : List (Except CompactorError (List α))}
    {head : Option κ} (h : c.refill code stream = .ok (c', head)) :
    (ErrorFree stream ↔ ErrorFree c'.stream) ∧ (head = none → c'.stream = []) := by
  induction stream with
  | nil =>
    cases h
    exact ⟨Iff.rfl, fun _ => rfl⟩
  | cons item stream ih =>
    have htail : ∀ batch, item = .ok batch → (ErrorFree (item :: stream) ↔ ErrorFree stream) := by
      rintro batch rfl
      unfold ErrorFree
      rw [List.forall_mem_cons]
      exact and_iff_right ⟨batch, rfl⟩
    rcases item with e | batch
    · cases h
    cases batch with
    | nil =>
      obtain ⟨hfree, hnone⟩ := ih h
      exact ⟨(htail [] rfl).trans hfree, hnone⟩
    | cons a rest =>
      rw [Cursor.refill] at h
      split at h
      · cases h
      · cases h
        exact ⟨htail (a :: rest) rfl, fun hnone => nomatch hnone⟩

/-- A refill that succeeds wakes its cursor, or leaves it at the end. -/
theorem Awake.refill {s : Nat} {filling : List Nat} (h : Awake inputs (s :: filling) st)
    (hrefill : st.refill code s = .ok st') : Awake inputs filling st' := by
  unfold MergeState.refill at hrefill
  split at hrefill
  · rename_i hnone
    cases hrefill
    refine h.filled (fun x hx => hx) (fun x hx => Or.inl hx) fun c hc => ?_
    rw [hnone] at hc
    cases hc
  · rename_i c hc
    have hlt : s < st.cursors.length := (List.getElem?_eq_some_iff.mp hc).1
    split at hrefill
    · cases hrefill
    · rename_i c' hend
      cases hrefill
      obtain ⟨hfree, hnil⟩ := refill_errorFree hend
      have hset := h.set hc hfree (fun _ ht => ht) (fun x hx => Or.inr hx) fun x hx => hx
      refine hset.filled (fun x hx => hx) (fun x hx => Or.inl hx) fun d hd => ?_
      rw [List.getElem?_set_self hlt] at hd
      cases hd
      exact Or.inl (hnil rfl)
    · rename_i c' head hsome
      cases hrefill
      have hset := h.set hc (refill_errorFree hsome).1 (fun _ ht => ht) (fun x hx => Or.inr hx)
        fun x hx => hx
      refine hset.filled (fun x hx => List.mem_cons_of_mem _ hx) (fun x hx => ?_)
        fun _ _ => Or.inr ⟨head, List.mem_cons_self⟩
      rcases List.mem_cons.mp hx with rfl | hx
      · exact Or.inr ⟨rfl, by rw [List.length_set]; exact hlt⟩
      · exact Or.inl hx

/-- **A batch**: where there is none, no stream had an error. -/
theorem Awake.nextRows {indices : List (Nat × Nat)} (n : Nat) {out : Option (List α)}
    (h : Awake inputs [] st) (hnext : st.nextRows code n indices = .ok (out, st')) :
    Awake inputs [] st' ∧ (out = none → ∀ stream ∈ inputs, ErrorFree stream) := by
  induction n generalizing st indices with
  | zero =>
    cases hnext
    exact ⟨h, fun hnone => nomatch hnone⟩
  | succ n ih =>
    rw [MergeState.nextRows] at hnext
    split at hnext
    · rename_i hpop
      cases hnext
      refine ⟨h, fun _ stream hstream => ?_⟩
      obtain ⟨s, hs⟩ := List.mem_iff_getElem?.mp hstream
      have hlt : s < st'.cursors.length := by
        rw [h.length]
        exact (List.getElem?_eq_some_iff.mp hs).1
      have hc := List.getElem?_eq_getElem hlt
      refine (h.free s stream _ hs hc).mpr ?_
      rcases h.waiting s _ List.not_mem_nil hc with hend | ⟨k, hk⟩
      · rw [hend]
        exact fun item hitem => absurd hitem List.not_mem_nil
      · rw [pop_eq_none.mp hpop] at hk
        cases hk
    · rename_i k s heap hpop
      have hperm := (pop_eq_some hpop).1
      split at hnext
      · rename_i hnone
        have hlt := h.within (k, s) (hperm.mem_iff.mpr List.mem_cons_self)
        rw [List.getElem?_eq_none_iff] at hnone
        omega
      · rename_i c hc
        have hlt : s < st.cursors.length := (List.getElem?_eq_some_iff.mp hc).1
        have hmoved : Awake inputs [s] ⟨st.cursors.set s { c with idx := c.idx + 1 }, heap⟩ := by
          refine h.set hc ?_ (fun t ht => absurd ht List.not_mem_nil) (fun x hx => ?_) fun x hx => ?_
          · exact Iff.rfl
          · rcases List.mem_cons.mp (hperm.mem_iff.mp hx) with rfl | hx
            · exact Or.inl rfl
            · exact Or.inr hx
          · exact hperm.mem_iff.mpr (List.mem_cons_of_mem _ hx)
        split at hnext
        · refine ih (hmoved.filled (fun x hx => List.mem_cons_of_mem _ hx) (fun x hx => ?_)
            fun _ _ => Or.inr ⟨_, List.mem_cons_self⟩) hnext
          rcases List.mem_cons.mp hx with rfl | hx
          · exact Or.inr ⟨rfl, by rw [List.length_set]; exact hlt⟩
          · exact Or.inl hx
        · simp only at hnext
          split at hnext
          · cases hnext
          · rename_i hrefill
            cases hnext
            exact ⟨hmoved.refill hrefill, fun hnone => nomatch hnone⟩

theorem Awake.unfoldBatches (fuel : Nat) (h : Awake inputs [] st)
    (hdrained : (unfoldBatches code fuel st).2 = .drained) :
    ∀ stream ∈ inputs, ErrorFree stream := by
  induction fuel generalizing st with
  | zero => cases hdrained
  | succ fuel ih =>
    rw [Compactor.unfoldBatches] at hdrained
    split at hdrained
    · cases hdrained
    · rename_i hnext
      exact (h.nextRows mergeBatchRows hnext).2 rfl
    · rename_i hnext
      exact ih (h.nextRows mergeBatchRows hnext).1 hdrained

/-- The first batches of the cursors. -/
theorem Awake.foldlM_refill {filling : List Nat} (h : Awake inputs filling st)
    (hfold : filling.foldlM (MergeState.refill code) st = .ok st') : Awake inputs [] st' := by
  induction filling generalizing st with
  | nil =>
    cases hfold
    exact h
  | cons s filling ih =>
    obtain ⟨middle, hrefill, hrest⟩ := List.foldlM_cons_eq_ok_iff.mp hfold
    exact ih (h.refill hrefill) hrest

/-- **A merge that comes to its end has read no error.** -/
theorem errorFree_of_drained {streams : List (String × List (Except CompactorError (List α)))}
    (hdrained : (mergeByCode code streams).2 = .drained) : ∀ p ∈ streams, ErrorFree p.2 := by
  unfold mergeByCode at hdrained
  split at hdrained
  · cases hdrained
  · rename_i st hst
    have hfresh : Awake (streams.map Prod.snd) (List.range streams.length)
        (⟨streams.map freshCursor, []⟩ : MergeState α κ) := by
      refine ⟨by simp, fun s stream c hstream hc => ?_, fun s c hs hc => ?_, by simp⟩
      · rw [List.getElem?_map, Option.map_eq_some_iff] at hstream hc
        obtain ⟨p, hp, rfl⟩ := hstream
        obtain ⟨p', hp', rfl⟩ := hc
        rw [hp, Option.some.injEq] at hp'
        exact hp' ▸ Iff.rfl
      · have hlt := (List.getElem?_eq_some_iff.mp hc).1
        rw [List.length_map] at hlt
        exact absurd (List.mem_range.mpr hlt) hs
    have hall := (hfresh.foldlM_refill hst).unfoldBatches _ hdrained
    exact fun p hp => hall p.2 (List.mem_map_of_mem hp)

end Errors

/-! ## 10. The merge of part streams -/

/-- **A merge of the streams**: it comes to its end if and only if they are all sorted, and then
its batches are the stable merge, none empty and none too long; otherwise it fails at a stream
that is not sorted.  What has come out is sorted in any case. -/
structure IsMergeOf {s : Schema} (columns : List Nat) (streams : List (PartBatchStream s))
    (out : List (List (Row s)) × Ending) : Prop where
  drained_iff : out.2 = .drained ↔
    ∀ input ∈ streams, SortedRows columns (streamRows input.stream)
  stable : out.2 = .drained → List.IsStableMerge (sortCode columns)
    (streams.map fun input => streamRows input.stream) out.1.flatten
  batches : ∀ batch ∈ out.1, batch ≠ [] ∧ batch.length ≤ mergeBatchRows
  violated : out.2 ≠ .drained → ∃ input ∈ streams,
    ¬ SortedRows columns (streamRows input.stream) ∧
      ∃ row, out.2 = .failed (.mergeOrderViolation input.path row)
  sorted : SortedRows columns out.1.flatten

/-- A merge of part streams is one by the codes of the columns. -/
theorem mergeStreams_eq (converter : RowConverter) {s : Schema}
    (streams : List (PartBatchStream s)) {sortKey : List String} {columns : List Nat}
    (hcolumns : sortColumns s sortKey = .ok columns) :
    mergeStreams converter streams sortKey =
      @mergeByCode _ _ converter.order (fun r => converter.convert (sortCode columns r))
        (streams.map fun input => (input.path, input.stream)) := by
  have hindices : sortKey.mapM (fun name =>
      match s.indexOf name with
      | some i => Except.ok i
      | none => .error (CompactorError.missingColumn name)) = .ok columns := by
    refine List.mapM_eq_ok_iff.mpr ((sortColumns_eq_ok.mp hcolumns).imp ?_)
    intro name i hi
    rw [hi]
  unfold mergeStreams
  simp only [hindices]

/-- **A merge that comes to its end** has read all of the streams, and its rows are theirs, in
order. -/
theorem mergeStreams_drained {converter : RowConverter} {s : Schema}
    {streams : List (PartBatchStream s)} {sortKey : List String} {columns : List Nat}
    (hcolumns : sortColumns s sortKey = .ok columns) {batches : List (List (Row s))}
    (h : mergeStreams converter streams sortKey = (batches, .drained)) :
    (∀ input ∈ streams, ErrorFree input.stream) ∧
      batches.flatten.Perm (streams.map fun input => streamRows input.stream).flatten ∧
      SortedRows columns batches.flatten := by
  let _ := converter.order
  rw [mergeStreams_eq converter streams hcolumns] at h
  have hfree := errorFree_of_drained (congrArg Prod.snd h)
  obtain ⟨-, hsorted, hend⟩ := @mergeByCode_spec (Row s) _ _
    (fun r => converter.convert (sortCode columns r)) _ hfree
  rcases hend with ⟨-, -, hrows⟩ | ⟨e, hfailed, -⟩
  · rw [h] at hsorted hrows
    simp only [List.map_map] at hrows
    refine ⟨fun input hinput => hfree (input.path, input.stream) (List.mem_map_of_mem hinput), ?_, ?_⟩
    · rw [hrows]
      exact List.perm_insertionSort _ _
    · exact hsorted.imp fun hab => (converter.convert_le _ _).mp hab
  · cases (congrArg Prod.snd h).symm.trans hfailed

/-- **`merge_streams` is a stable merge** of streams that can be read, by any sort key of existing
columns; a registered key is never empty. -/
theorem mergeStreams_stable (converter : RowConverter) {s : Schema}
    {streams : List (PartBatchStream s)} (hfree : ∀ input ∈ streams, ErrorFree input.stream)
    {first : String} {rest : List String} {columns : List Nat}
    (hcolumns : sortColumns s (first :: rest) = .ok columns) :
    IsMergeOf columns streams (mergeStreams converter streams (first :: rest)) := by
  let _ := converter.order
  have hle : ∀ a b : Row s, converter.convert (sortCode columns a) ≤
      converter.convert (sortCode columns b) ↔ sortCode columns a ≤ sortCode columns b :=
    fun a b => converter.convert_le _ _
  have hfree' : ∀ p ∈ streams.map fun input => (input.path, input.stream), ErrorFree p.2 := by
    simpa using hfree
  have hspec := @mergeByCode_spec (Row s) _ _
    (fun r => converter.convert (sortCode columns r)) _ hfree'
  rw [mergeStreams_eq converter streams hcolumns]
  generalize mergeByCode (fun r : Row s => converter.convert (sortCode columns r))
    (streams.map fun input => (input.path, input.stream)) = out at hspec ⊢
  simp only [List.forall_mem_map, List.map_map] at hspec
  obtain ⟨hbatches, hsorted, hend⟩ := hspec
  simp only [Ordered, hle] at hsorted
  have hviolated : ∀ e, Violated (fun r : Row s => converter.convert (sortCode columns r))
      (streamInputs (streams.map fun input => (input.path, input.stream))) e →
        ∃ input ∈ streams, ¬ SortedRows columns (streamRows input.stream) ∧
          ∃ row, e = .mergeOrderViolation input.path row := by
    rintro e ⟨input, hinput, hbad, row, rfl⟩
    simp only [streamInputs, List.map_map, List.mem_map] at hinput
    obtain ⟨stream, hstream, rfl⟩ := hinput
    simp only [Ordered, hle] at hbad
    exact ⟨stream, hstream, hbad, row, rfl⟩
  rcases hend with ⟨hdrained, hall, hout⟩ | ⟨e, hfailed, hbad⟩
  · simp only [Ordered, hle] at hall
    refine ⟨iff_of_true hdrained hall, fun _ => ?_, hbatches, fun h => absurd hdrained h, hsorted⟩
    rw [hout, List.insertionSort_congr hle]
    exact List.isStableMerge_insertionSort _
  · obtain ⟨input, hinput, hunsorted, row, rfl⟩ := hviolated e hbad
    refine ⟨⟨fun h => ?_, fun h => absurd (h input hinput) hunsorted⟩, fun h => ?_, hbatches,
      fun _ => ⟨input, hinput, hunsorted, row, hfailed⟩, hsorted⟩
    · rw [hfailed] at h
      cases h
    · rw [hfailed] at h
      cases h

/-! ## 11. A merge of two streams -/

/-- Rows that are their own format. -/
def RowConverter.codes : RowConverter := ⟨List (List Nat), inferInstance, id, fun _ _ => Iff.rfl⟩

def tenantSchema : Schema := [⟨"tenant_id", .int64, false, none⟩]

def tenant (n : UInt8) : Row tenantSchema := ⟨[.int64 (smallI64 n)], by rfl⟩

def twoStreams : List (PartBatchStream tenantSchema) :=
  [⟨"a", [.ok [tenant 1], .ok [tenant 3]]⟩,
    ⟨"b", [.ok [], .ok [tenant 2, tenant 2]]⟩]

theorem mergeStreams_stable_twoStreams :
    IsMergeOf [0] twoStreams (mergeStreams .codes twoStreams ["tenant_id"]) := by
  refine mergeStreams_stable .codes ?_ (by rfl)
  intro input hinput item hitem
  simp only [twoStreams, List.mem_cons, List.not_mem_nil, or_false] at hinput
  rcases hinput with rfl | rfl <;>
    · simp only [List.mem_cons, List.not_mem_nil, or_false] at hitem
      rcases hitem with rfl | rfl <;> exact ⟨_, rfl⟩

end Ukiel.Compactor
