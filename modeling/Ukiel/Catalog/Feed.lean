/-
# The change feed

`feed.rs` and `cursors.rs` over the catalog machine.  Commit ids are drawn before commit order
is known, so a lower id can become visible after a higher one; a reader may trust only a HEAD it
was given under the exclusive barrier.  §1 is the page query; §2 shows that nothing becomes
visible behind a published head; §3 adds the consumers (any number of processes, which may share
a worker name, crash at any point and start over from the stored cursor); §4 is their invariant
and §5 the result.
-/
import Mathlib.Data.List.Sort
import Ukiel.Catalog.Isolation

namespace Ukiel.Catalog

variable {db db' : Db}

/-! ## 1. A page of the feed -/

structure ChangeEvent where
  commitId : Int
  kind : CommitKind
  added : List PartRow
  removed : List Int
deriving DecidableEq

/-- The commits a page is taken from, oldest first. -/
def feedRows (T : Tables) (h : HypertableId) (after head : Int) : List CommitRow :=
  (T.commits.filter fun r => r.hypertableId = h ∧ after < r.id ∧ r.id ≤ head).insertionSort
    fun a b => a.id ≤ b.id

/-- `changes_since`, once `feed_head` has returned `head`. -/
def changesSince (T : Tables) (h : HypertableId) (after head : Int) (limit : Nat) :
    List ChangeEvent :=
  ((feedRows T h after head).take limit).map fun r =>
    { commitId := r.id
      kind := r.kind
      added := (T.parts.filter fun p => p.createdByCommit = r.id).insertionSort
        fun a b => a.id ≤ b.id
      removed := ((T.parts.filter fun p => p.deletedByCommit = some r.id).map
        PartRow.id).insertionSort fun a b => a ≤ b }

/-- The hypertable has a commit under this id. -/
def Visible (T : Tables) (h : HypertableId) (id : Int) : Prop :=
  ∃ r ∈ T.commits, r.hypertableId = h ∧ r.id = id

theorem mem_feedRows {T : Tables} {h : HypertableId} {after head : Int} {r : CommitRow} :
    r ∈ feedRows T h after head ↔
      r ∈ T.commits ∧ r.hypertableId = h ∧ after < r.id ∧ r.id ≤ head := by
  simp [feedRows, List.mem_insertionSort]

theorem feedRows_increasing (hs : Stored db) (h : HypertableId) (after head : Int) :
    (feedRows db.tables h after head).Pairwise fun a b => a.id < b.id := by
  have hle : (feedRows db.tables h after head).Pairwise fun a b => a.id ≤ b.id := by
    have : Std.Total fun a b : CommitRow => a.id ≤ b.id := ⟨fun a b => Int.le_total a.id b.id⟩
    have : IsTrans CommitRow fun a b => a.id ≤ b.id := ⟨fun a b c => Int.le_trans⟩
    exact List.pairwise_insertionSort _ _
  have hne : (feedRows db.tables h after head).Pairwise fun a b => a.id ≠ b.id := by
    have hnd : ((feedRows db.tables h after head).map CommitRow.id).Nodup := by
      refine ((List.perm_insertionSort _ _).map CommitRow.id).nodup_iff.mpr ?_
      exact hs.commit_nodup.sublist (List.Sublist.map _ List.filter_sublist)
    exact List.pairwise_map.mp hnd
  exact hle.imp₂ (fun a b h₁ h₂ => by omega) hne

/-- **What a page is**: visible commits after the cursor and up to the head, in increasing
order, with none left out before the last of them. -/
structure Page (T : Tables) (h : HypertableId) (after head : Int) (ids : List Int) : Prop where
  increasing : ids.Pairwise (· < ·)
  visible : ∀ i ∈ ids, Visible T h i ∧ after < i ∧ i ≤ head
  complete : ∀ j ∈ ids, ∀ i, Visible T h i → after < i → i ≤ j → i ∈ ids

theorem changesSince_page (hs : Stored db) (h : HypertableId) (after head : Int) (limit : Nat) :
    Page db.tables h after head
      ((changesSince db.tables h after head limit).map ChangeEvent.commitId) := by
  have hids : (changesSince db.tables h after head limit).map ChangeEvent.commitId =
      ((feedRows db.tables h after head).take limit).map CommitRow.id := by
    simp [changesSince, Function.comp_def]
  have hinc := feedRows_increasing hs h after head
  rw [hids]
  refine ⟨?_, ?_, ?_⟩
  · exact List.pairwise_map.mpr (hinc.sublist (List.take_sublist _ _))
  · intro i hi
    obtain ⟨r, hr, rfl⟩ := List.mem_map.mp hi
    obtain ⟨hmem, hht, hlo, hhi⟩ := mem_feedRows.mp (List.mem_of_mem_take hr)
    exact ⟨⟨r, hmem, hht, rfl⟩, hlo, hhi⟩
  · rintro j hj i ⟨r, hmem, hht, rfl⟩ hlo hle
    obtain ⟨q, hq, rfl⟩ := List.mem_map.mp hj
    have hq' := mem_feedRows.mp (List.mem_of_mem_take hq)
    have hr : r ∈ feedRows db.tables h after head :=
      mem_feedRows.mpr ⟨hmem, hht, hlo, Int.le_trans hle hq'.2.2.2⟩
    -- a row cut off by LIMIT comes after every row of the page
    rw [← List.take_append_drop limit (feedRows db.tables h after head)] at hr hinc
    rcases List.mem_append.mp hr with hr | hr
    · exact List.mem_map_of_mem hr
    · have := (List.pairwise_append.mp hinc).2.2 q hq r hr
      omega

/-- With a positive LIMIT an empty page means that the prefix is exhausted. -/
theorem changesSince_nil {T : Tables} {h : HypertableId} {after head : Int} {limit : Nat}
    (hl : 1 ≤ limit) (he : changesSince T h after head limit = []) :
    ∀ i, Visible T h i → after < i → ¬ i ≤ head := by
  rintro i ⟨r, hmem, hht, rfl⟩ hlo hhi
  have hr := mem_feedRows.mpr ⟨hmem, hht, hlo, hhi⟩
  simp only [changesSince, List.map_eq_nil_iff, List.take_eq_nil_iff] at he
  rcases he with he | he
  · omega
  · rw [he] at hr
    cases hr

/-- No commit is above the head. -/
theorem Visible.le_feedHead {T : Tables} {h : HypertableId} {i : Int} (hv : Visible T h i) :
    i ≤ feedHead T h := by
  obtain ⟨r, hr, hht, rfl⟩ := hv
  have hmem : r.id ∈ (T.commits.filter fun r => r.hypertableId = h).map CommitRow.id :=
    List.mem_map_of_mem (List.mem_filter.mpr ⟨hr, decide_eq_true hht⟩)
  unfold feedHead
  cases hm : ((T.commits.filter fun r => r.hypertableId = h).map CommitRow.id).max? with
  | none =>
    rw [List.max?_eq_none_iff] at hm
    rw [hm] at hmem
    cases hmem
  | some m => exact (List.max?_eq_some_iff.mp hm).2 r.id hmem

theorem feedHead_visible {T : Tables} {h : HypertableId} :
    feedHead T h = 0 ∨ Visible T h (feedHead T h) := by
  unfold feedHead
  cases hm : ((T.commits.filter fun r => r.hypertableId = h).map CommitRow.id).max? with
  | none => exact Or.inl rfl
  | some m =>
    obtain ⟨r, hr, hid⟩ := List.mem_map.mp (List.max?_mem hm)
    obtain ⟨hmem, hht⟩ := List.mem_filter.mp hr
    exact Or.inr ⟨r, hmem, of_decide_eq_true hht, hid⟩

/-! ## 2. Nothing becomes visible behind a head -/

theorem head_step {e : Event} {h : HypertableId} {H : Int} (hi : Inv db)
    (hs : step db e = some db') (hH : (h, H) ∈ db.heads) {r : CommitRow}
    (hr : r ∈ db'.tables.commits) (hht : r.hypertableId = h) (hle : r.id ≤ H) :
    r ∈ db.tables.commits := by
  rcases step_tables hi hs with ⟨t, τ, id, -, hlook, hcid, happ, -, -, -⟩ | ⟨-, -, hside⟩
  · obtain ⟨at', hc⟩ := happ.commits
    rw [hc, List.mem_append, List.mem_singleton] at hr
    rcases hr with hr | rfl
    · exact hr
    · have := (hi.heads h H hH).2 t τ hlook hht id hcid
      simp only [Call.commitRow] at hle
      omega
  · rw [← hside.commits]
    exact hr

@[simp] theorem replyOnce_heads (db : Db) (t : Nat) (r : Reply) :
    (db.replyOnce t r).heads = db.heads := by
  unfold Db.replyOnce
  split <;> rfl

@[simp] theorem runStmt_heads (db : Db) (t : Nat) (τ : Txn) (s : Stmt) (rest : List Stmt) :
    (db.runStmt t τ s rest).heads = db.heads := by
  unfold Db.runStmt
  split
  · exact draw_heads db s
  · rfl

@[simp] theorem runStmt_tables (db : Db) (t : Nat) (τ : Txn) (s : Stmt) (rest : List Stmt) :
    (db.runStmt t τ s rest).tables = db.tables := by
  unfold Db.runStmt
  split
  · exact draw_tables db s
  · rfl

@[simp] theorem installLease_heads (db : Db) (k : Nat) (cl : Claim) :
    (db.installLease k cl).heads = db.heads := by
  unfold Db.installLease
  split
  · rfl
  · dsimp only
    split <;> rfl

@[simp] theorem installLease_cursors (db : Db) (k : Nat) (cl : Claim) :
    (db.installLease k cl).tables.workerCursors = db.tables.workerCursors := by
  unfold Db.installLease
  split
  · rfl
  · dsimp only
    split <;> rfl

/-- Heads are only ever added. -/
theorem heads_mono {e : Event} (hs : step db e = some db') {x : HypertableId × Int}
    (hx : x ∈ db.heads) : x ∈ db'.heads := by
  cases e with
  | readHead r =>
    simp only [step] at hs
    split at hs
    · cases hs
    · cases hs
      exact List.mem_cons_of_mem _ hx
  | rollback _ _ | abandon _ _ | lost _ | ack _ | stmt _ | installLease _ =>
    simp only [step] at hs
    repeat' split at hs
    all_goals cases hs
    all_goals simpa using hx
  | begin _ | sendCommit _ | commit _ | lockBarrier _ _ | unlockBarrier _ | drawLease _ _ _
  | renewLease _ _ | releaseLease _ | registerPending _ _ | clearPending _ | markPurged _
  | setCursor _ _ _ | tick _ =>
    simp only [step] at hs
    repeat' split at hs
    all_goals cases hs
    all_goals exact hx

/-- Only `set_cursor` moves a cursor. -/
theorem step_cursors {e : Event} (hs : step db e = some db')
    (he : ∀ worker h cursor, e ≠ .setCursor worker h cursor) :
    db'.tables.workerCursors = db.tables.workerCursors := by
  cases e with
  | setCursor worker h cursor => exact absurd rfl (he worker h cursor)
  | rollback _ _ | abandon _ _ | lost _ | ack _ | stmt _ | installLease _ =>
    simp only [step] at hs
    repeat' split at hs
    all_goals cases hs
    all_goals simp
  | begin _ | sendCommit _ | commit _ | lockBarrier _ _ | readHead _ | unlockBarrier _
  | drawLease _ _ _ | renewLease _ _ | releaseLease _ | registerPending _ _ | clearPending _
  | markPurged _ | tick _ =>
    simp only [step] at hs
    repeat' split at hs
    all_goals cases hs
    all_goals rfl

/-- `set_cursor` only advances, and only its own row. -/
theorem getCursor_setCursor (T : Tables) (worker w : String) (h k : HypertableId) (cursor : Int) :
    getCursor (setCursor T worker h cursor) w k = getCursor T w k ∨
      w = worker ∧ k = h ∧ getCursor (setCursor T worker h cursor) w k = cursor ∧
        (∀ stored, T.workerCursors (w, k) = some stored → stored < cursor) := by
  by_cases hk : (w, k) = (worker, h)
  · obtain ⟨rfl, rfl⟩ := Prod.mk.injEq .. ▸ hk
    unfold setCursor getCursor
    cases hs : T.workerCursors (w, k) with
    | none => exact Or.inr ⟨rfl, rfl, by simp, by simp⟩
    | some stored =>
      by_cases hlt : stored < cursor
      · exact Or.inr ⟨rfl, rfl, by simp [hlt], by simpa using hlt⟩
      · exact Or.inl (by simp [hlt, hs])
  · refine Or.inl ?_
    unfold setCursor getCursor
    split
    · split
      · exact congrArg (fun o => Option.getD o 0) (Function.update_of_ne hk _ _)
      · rfl
    · exact congrArg (fun o => Option.getD o 0) (Function.update_of_ne hk _ _)

/-- **A published head is final.** -/
theorem head_final {h : HypertableId} {H : Int} (hi : Inv db) (hH : (h, H) ∈ db.heads)
    (hr : Lts.Reaches step db db') :
    ∀ r ∈ db'.tables.commits, r.hypertableId = h → r.id ≤ H → r ∈ db.tables.commits := by
  have hall := hr.inv (I := fun d => Inv d ∧ (h, H) ∈ d.heads ∧
      ∀ r ∈ d.tables.commits, r.hypertableId = h → r.id ≤ H → r ∈ db.tables.commits) ?_
    ⟨hi, hH, fun r hr _ _ => hr⟩
  · exact hall.2.2
  · rintro d e d' hs ⟨hi, hH, hold⟩
    refine ⟨inv_step hs hi, heads_mono hs hH, ?_⟩
    intro r hr hht hle
    exact hold r (head_step hi hs hH hr hht hle) hht hle

/-! ## 3. Consumers -/

/-- One incarnation of a consumer process: everything here is lost when it crashes. -/
structure Consumer where
  worker : String
  hypertableId : HypertableId
  limit : Nat
  /-- The cursor it read when it started. -/
  start : Int
  /-- The last commit it processed, `start` before the first. -/
  pos : Int
  /-- What it has processed, oldest first. -/
  processed : List Int := []
  /-- The head `feed_head` has returned for the page it is about to read. -/
  head : Option Int := none
  /-- What is left of the current page. -/
  page : List ChangeEvent := []
deriving DecidableEq

/-- The catalog, the consumers and, for the record, everything processed under each name. -/
structure Feed where
  db : Db := {}
  running : Nat → Option Consumer := fun _ => none
  done : List (String × HypertableId × Int) := []

inductive FeedEvent where
  /-- Anything else that happens in the catalog. -/
  | db (e : Event)
  /-- A process reads its stored cursor and starts, or starts over. -/
  | start (p : Nat) (worker : String) (h : HypertableId) (limit : Nat)
  /-- Its `feed_head` returns. -/
  | head (p : Nat) (H : Int)
  /-- It reads the page. -/
  | page (p : Nat)
  /-- It processes the next event of the page. -/
  | process (p : Nat)
  /-- `set_cursor` at the last processed commit. -/
  | save (p : Nat)
  | crash (p : Nat)

/-- The event stores a cursor under one of the consumers' names. -/
def FeedEvent.foreignSave (names : List String) : Event → Prop
  | .setCursor worker _ _ => worker ∈ names
  | _ => False

instance (names : List String) (e : Event) : Decidable (FeedEvent.foreignSave names e) := by
  rcases e <;> unfold FeedEvent.foreignSave <;> infer_instance

def Feed.set (s : Feed) (p : Nat) (k : Option Consumer) : Feed :=
  { s with running := Function.update s.running p k }

/-- **One step of the feed system.**  `names` are the worker names that loop
`changes_since` and `set_cursor`; nobody else stores a cursor under them. -/
def feedStep (names : List String) (s : Feed) : FeedEvent → Option Feed
  | .db e =>
    if FeedEvent.foreignSave names e then none
    else (step s.db e).map fun db => { s with db := db }
  | .start p worker h limit =>
    if worker ∈ names ∧ 1 ≤ limit then
      some (s.set p (some
        { worker := worker
          hypertableId := h
          limit := limit
          start := getCursor s.db.tables worker h
          pos := getCursor s.db.tables worker h }))
    else none
  | .head p H =>
    match s.running p with
    | none => none
    | some k =>
      if (k.hypertableId, H) ∈ s.db.heads then some (s.set p (some { k with head := some H }))
      else none
  | .page p =>
    match s.running p with
    | none => none
    | some k =>
      match k.head with
      | none => none
      | some H =>
        some (s.set p (some { k with
          head := none
          page := changesSince s.db.tables k.hypertableId k.pos H k.limit }))
  | .process p =>
    match s.running p with
    | none => none
    | some k =>
      match k.page with
      | [] => none
      | e :: rest =>
        some { s.set p (some { k with
            pos := e.commitId
            processed := k.processed ++ [e.commitId]
            page := rest }) with
          done := s.done ++ [(k.worker, k.hypertableId, e.commitId)] }
  | .save p =>
    match s.running p with
    | none => none
    | some k =>
      (step s.db (.setCursor k.worker k.hypertableId k.pos)).map fun db => { s with db := db }
  | .crash p => some (s.set p none)

/-- The system starts with no cursor stored under the consumers' names. -/
structure FeedInitial (names : List String) (s : Feed) : Prop where
  db : Initial s.db
  cursors : ∀ w ∈ names, ∀ h, s.db.tables.workerCursors (w, h) = none
  running : s.running = fun _ => none
  done : s.done = []

def FeedReachable (names : List String) (s : Feed) : Prop :=
  ∃ s₀, FeedInitial names s₀ ∧ Lts.Reaches (feedStep names) s₀ s

/-! ## 4. Their invariant -/

/-- Nothing can become visible at or below `c` any more. -/
def Settled (db : Db) (h : HypertableId) (c : Int) : Prop :=
  0 ≤ c ∧ (c = 0 ∨ ∃ H, (h, H) ∈ db.heads ∧ c ≤ H)

/-- Every commit up to `c` has been processed under the name. -/
def AllDone (s : Feed) (worker : String) (h : HypertableId) (c : Int) : Prop :=
  ∀ i, Visible s.db.tables h i → i ≤ c → (worker, h, i) ∈ s.done

structure Consumer.Inv (names : List String) (s : Feed) (k : Consumer) : Prop where
  name : k.worker ∈ names
  start_settled : Settled s.db k.hypertableId k.start
  pos_settled : Settled s.db k.hypertableId k.pos
  start_done : AllDone s k.worker k.hypertableId k.start
  start_le : k.start ≤ k.pos
  processed_done : ∀ i ∈ k.processed, (k.worker, k.hypertableId, i) ∈ s.done
  increasing : k.processed.Pairwise (· < ·)
  exact : ∀ i, i ∈ k.processed ↔
    Visible s.db.tables k.hypertableId i ∧ k.start < i ∧ i ≤ k.pos
  head : ∀ H, k.head = some H → (k.hypertableId, H) ∈ s.db.heads
  page : ∃ H, (k.page = [] ∨ (k.hypertableId, H) ∈ s.db.heads) ∧
    Page s.db.tables k.hypertableId k.pos H (k.page.map ChangeEvent.commitId)

structure Feed.Inv (names : List String) (s : Feed) : Prop where
  db : Catalog.Inv s.db
  stored : ∀ w ∈ names, ∀ h, Settled s.db h (getCursor s.db.tables w h) ∧
    AllDone s w h (getCursor s.db.tables w h)
  consumer : ∀ p k, s.running p = some k → k.Inv names s

section Steps

variable {names : List String} {s s' : Feed} {e : Event} {h : HypertableId} {c : Int}

theorem Visible.mono (hi : Inv db) (hs : step db e = some db') {i : Int}
    (hv : Visible db.tables h i) : Visible db'.tables h i := by
  obtain ⟨r, hr, hht, hid⟩ := hv
  rcases step_tables hi hs with ⟨t, τ, id, -, -, -, happ, -, -, -⟩ | ⟨-, -, hside⟩
  · obtain ⟨at', hc⟩ := happ.commits
    exact ⟨r, by rw [hc]; exact List.mem_append_left _ hr, hht, hid⟩
  · exact ⟨r, by rw [hside.commits]; exact hr, hht, hid⟩

theorem Settled.mono (hs : step db e = some db') (hc : Settled db h c) : Settled db' h c := by
  obtain ⟨hpos, hz | ⟨H, hH, hle⟩⟩ := hc
  · exact ⟨hpos, Or.inl hz⟩
  · exact ⟨hpos, Or.inr ⟨H, heads_mono hs hH, hle⟩⟩

/-- What is visible below a settled position was visible before. -/
theorem Settled.visible (hi : Inv db) (hs : step db e = some db') (hc : Settled db h c) {i : Int}
    (hv : Visible db'.tables h i) (hle : i ≤ c) : Visible db.tables h i := by
  obtain ⟨r, hr, hht, rfl⟩ := hv
  obtain ⟨-, rfl | ⟨H, hH, hcH⟩⟩ := hc
  · have := (inv_step hs hi).stored.commit_pos r hr
    omega
  · exact ⟨r, head_step hi hs hH hr hht (Int.le_trans hle hcH), hht, rfl⟩

theorem AllDone.mono {done : List (String × HypertableId × Int)} {w : String}
    {running : Nat → Option Consumer} (hd : AllDone s w h c) (hsub : s.done ⊆ done) :
    AllDone { s with running := running, done := done } w h c :=
  fun i hv hle => hsub (hd i hv hle)

theorem AllDone.catalog {w : String} (hi : Inv s.db) (hs : step s.db e = some db')
    (hc : Settled s.db h c) (hd : AllDone s w h c) : AllDone { s with db := db' } w h c :=
  fun i hv hle => hd i (hc.visible hi hs hv hle) hle

/-- A consumer survives whatever happens in the catalog. -/
theorem Consumer.Inv.catalog {k : Consumer} (hi : Catalog.Inv s.db) (hs : step s.db e = some db')
    (hk : k.Inv names s) : k.Inv names { s with db := db' } where
  name := hk.name
  start_settled := hk.start_settled.mono hs
  pos_settled := hk.pos_settled.mono hs
  start_done := hk.start_done.catalog hi hs hk.start_settled
  start_le := hk.start_le
  processed_done := hk.processed_done
  increasing := hk.increasing
  exact i := by
    rw [hk.exact i]
    constructor
    · rintro ⟨hv, hlo, hhi⟩
      exact ⟨hv.mono hi hs, hlo, hhi⟩
    · rintro ⟨hv, hlo, hhi⟩
      exact ⟨hk.pos_settled.visible hi hs hv hhi, hlo, hhi⟩
  head H hH := heads_mono hs (hk.head H hH)
  page := by
    obtain ⟨H, hor, hp⟩ := hk.page
    rcases hor with hnil | hH
    · refine ⟨H, Or.inl hnil, ?_⟩
      rw [hnil]
      exact ⟨List.Pairwise.nil, by simp, by simp⟩
    · refine ⟨H, Or.inr (heads_mono hs hH), hp.increasing, ?_, ?_⟩
      · intro i hmem
        obtain ⟨hv, hlo, hhi⟩ := hp.visible i hmem
        exact ⟨hv.mono hi hs, hlo, hhi⟩
      · intro j hj i hv hlo hle
        refine hp.complete j hj i ?_ hlo hle
        obtain ⟨r, hr, hht, rfl⟩ := hv
        have hjH := (hp.visible j hj).2.2
        exact ⟨r, head_step hi hs hH hr hht (Int.le_trans hle hjH), hht, rfl⟩

/-- A consumer does not care who else runs, nor about more being done. -/
theorem Consumer.Inv.mono {k : Consumer} {running : Nat → Option Consumer}
    {done : List (String × HypertableId × Int)} (hk : k.Inv names s) (hsub : s.done ⊆ done) :
    k.Inv names { s with running := running, done := done } :=
  { hk with
    start_done := hk.start_done.mono hsub
    processed_done := fun i hi => hsub (hk.processed_done i hi) }

/-- Everything up to the last processed commit is done. -/
theorem Consumer.Inv.pos_done {k : Consumer} (hk : k.Inv names s) :
    AllDone s k.worker k.hypertableId k.pos := by
  intro i hv hle
  by_cases hlo : i ≤ k.start
  · exact hk.start_done i hv hlo
  · exact hk.processed_done i ((hk.exact i).mpr ⟨hv, by omega, hle⟩)

/-- Events that replace one process and possibly add to what is done. -/
theorem feedInv_set {p : Nat} {k : Option Consumer} {done : List (String × HypertableId × Int)}
    (hi : s.Inv names) (hsub : s.done ⊆ done)
    (hk : ∀ k', k = some k' → k'.Inv names { s.set p k with done := done }) :
    Feed.Inv names { s.set p k with done := done } where
  db := hi.db
  stored w hw h := ⟨(hi.stored w hw h).1, (hi.stored w hw h).2.mono hsub⟩
  consumer q k' hq := by
    by_cases hqp : q = p
    · subst hqp
      have hself : (s.set q k).running q = k := Function.update_self _ _ _
      exact hk k' (hself.symm.trans hq)
    · have hother : (s.set p k).running q = s.running q := Function.update_of_ne hqp _ _
      exact (hi.consumer q k' (hother.symm.trans hq)).mono hsub

theorem feedInv_start {p : Nat} {worker : String} {limit : Nat} (hi : s.Inv names)
    (hw : worker ∈ names) :
    Feed.Inv names (s.set p (some
      { worker := worker
        hypertableId := h
        limit := limit
        start := getCursor s.db.tables worker h
        pos := getCursor s.db.tables worker h })) := by
  refine feedInv_set hi (List.Subset.refl _) ?_
  rintro k' ⟨rfl⟩
  obtain ⟨hset, hdone⟩ := hi.stored worker hw h
  exact
    { name := hw
      start_settled := hset
      pos_settled := hset
      start_done := hdone
      start_le := Int.le_refl _
      processed_done := by simp
      increasing := List.Pairwise.nil
      exact := by
        intro i
        simp only [List.not_mem_nil, false_iff]
        omega
      head := by simp
      page := ⟨0, Or.inl rfl, List.Pairwise.nil, by simp, by simp⟩ }

theorem feedInv_page {p : Nat} {k : Consumer} {H : Int} (hi : s.Inv names)
    (hk : k.Inv names s) (hH : k.head = some H) :
    Feed.Inv names (s.set p (some { k with
      head := none
      page := changesSince s.db.tables k.hypertableId k.pos H k.limit })) := by
  refine feedInv_set hi (List.Subset.refl _) ?_
  rintro k' ⟨rfl⟩
  exact
    { hk with
      start_done := hk.start_done
      head := by simp
      page := ⟨H, Or.inr (hk.head H hH), changesSince_page hi.db.stored _ _ _ _⟩ }

/-- The next event of a page is the next commit of the feed. -/
theorem feedInv_process {p : Nat} {k : Consumer} {ev : ChangeEvent} {rest : List ChangeEvent}
    (hi : s.Inv names) (hk : k.Inv names s) (hpage : k.page = ev :: rest) :
    Feed.Inv names { s.set p (some { k with
        pos := ev.commitId
        processed := k.processed ++ [ev.commitId]
        page := rest }) with
      done := s.done ++ [(k.worker, k.hypertableId, ev.commitId)] } := by
  refine feedInv_set hi (List.subset_append_left _ _) ?_
  rintro k' ⟨rfl⟩
  obtain ⟨H, hor, hp⟩ := hk.page
  rw [hpage, List.map_cons] at hp
  have hH : (k.hypertableId, H) ∈ s.db.heads := by
    rcases hor with hnil | hH
    · rw [hpage] at hnil
      cases hnil
    · exact hH
  obtain ⟨hv, hlo, hhi⟩ := hp.visible ev.commitId (List.mem_cons_self ..)
  obtain ⟨hfirst, hrest⟩ := List.pairwise_cons.mp hp.increasing
  have hpos : 0 ≤ ev.commitId := Int.le_trans hk.pos_settled.1 (Int.le_of_lt hlo)
  have hstart : k.start < ev.commitId := Int.lt_of_le_of_lt hk.start_le hlo
  have hsub : s.done ⊆ s.done ++ [(k.worker, k.hypertableId, ev.commitId)] :=
    List.subset_append_left _ _
  refine
    { name := hk.name
      start_settled := hk.start_settled
      pos_settled := ⟨hpos, Or.inr ⟨H, hH, hhi⟩⟩
      start_done := hk.start_done.mono hsub
      start_le := Int.le_of_lt hstart
      processed_done := ?_
      increasing := ?_
      exact := ?_
      head := hk.head
      page := ⟨H, Or.inr hH, hrest, ?_, ?_⟩ }
  · intro i hmem
    rcases List.mem_append.mp hmem with hmem | hmem
    · exact hsub (hk.processed_done i hmem)
    · rw [List.mem_singleton.mp hmem]
      simp
  · refine List.pairwise_append.mpr ⟨hk.increasing, List.pairwise_singleton _ _, ?_⟩
    intro i hmem j hj
    rw [List.mem_singleton.mp hj]
    have := ((hk.exact i).mp hmem).2.2
    omega
  · intro i
    rw [List.mem_append, List.mem_singleton, hk.exact i]
    constructor
    · rintro (⟨hvi, h₁, h₂⟩ | rfl)
      · exact ⟨hvi, h₁, by dsimp only; omega⟩
      · exact ⟨hv, hstart, Int.le_refl _⟩
    · rintro ⟨hvi, h₁, h₂⟩
      by_cases hle' : i ≤ k.pos
      · exact Or.inl ⟨hvi, h₁, hle'⟩
      · -- between the cursor and the next event of the page there is nothing
        have hmem := hp.complete ev.commitId (List.mem_cons_self ..) i hvi (by omega) h₂
        rcases List.mem_cons.mp hmem with rfl | hmem
        · exact Or.inr rfl
        · have := hfirst i hmem
          dsimp only at h₂
          omega
  · intro i hmem
    obtain ⟨hvi, -, hiH⟩ := hp.visible i (List.mem_cons_of_mem _ hmem)
    exact ⟨hvi, hfirst i hmem, hiH⟩
  · intro j hj i hvi h₁ h₂
    dsimp only at h₁
    have hmem := hp.complete j (List.mem_cons_of_mem _ hj) i hvi (by omega) h₂
    rcases List.mem_cons.mp hmem with rfl | hmem
    · omega
    · exact hmem

theorem feedInv_db (hi : s.Inv names) (hs : step s.db e = some db')
    (hcur : ∀ w ∈ names, ∀ h, getCursor db'.tables w h = getCursor s.db.tables w h ∨
      Settled s.db h (getCursor db'.tables w h) ∧ AllDone s w h (getCursor db'.tables w h)) :
    Feed.Inv names { s with db := db' } where
  db := inv_step hs hi.db
  stored w hw h := by
    have hold : Settled s.db h (getCursor db'.tables w h) ∧
        AllDone s w h (getCursor db'.tables w h) := by
      rcases hcur w hw h with heq | hnew
      · rw [heq]
        exact hi.stored w hw h
      · exact hnew
    exact ⟨hold.1.mono hs, hold.2.catalog hi.db hs hold.1⟩
  consumer p k hp := (hi.consumer p k hp).catalog hi.db hs

/-- **Every step of the system keeps the invariant.** -/
theorem feedInv_step {f : FeedEvent} (hs : feedStep names s f = some s') (hi : s.Inv names) :
    s'.Inv names := by
  cases f with
  | db e =>
    simp only [feedStep] at hs
    split at hs
    · cases hs
    · rename_i hforeign
      obtain ⟨db', hstep, rfl⟩ := Option.map_eq_some_iff.mp hs
      refine feedInv_db hi hstep ?_
      intro w hw h
      by_cases hc : ∃ worker k cursor, e = .setCursor worker k cursor
      · obtain ⟨worker, k, cursor, rfl⟩ := hc
        simp only [step, Option.some.injEq] at hstep
        subst hstep
        rcases getCursor_setCursor s.db.tables worker w k h cursor with heq | ⟨rfl, -⟩
        · exact Or.inl heq
        · exact absurd hw hforeign
      · have := step_cursors hstep fun worker k cursor he => hc ⟨worker, k, cursor, he⟩
        exact Or.inl (by unfold getCursor; rw [this])
  | start p worker h limit =>
    simp only [feedStep] at hs
    split at hs
    · rename_i hg
      cases hs
      exact feedInv_start hi hg.1
    · cases hs
  | head p H =>
    simp only [feedStep] at hs
    split at hs
    · cases hs
    · rename_i k hrun
      split at hs
      · rename_i hH
        cases hs
        have hk := hi.consumer p k hrun
        refine feedInv_set hi (List.Subset.refl _) ?_
        rintro k' ⟨rfl⟩
        exact
          { hk with
            start_done := hk.start_done
            head := by
              rintro H' ⟨rfl⟩
              exact hH }
      · cases hs
  | page p =>
    simp only [feedStep] at hs
    split at hs
    · cases hs
    · rename_i k hrun
      split at hs
      · cases hs
      · rename_i H hH
        cases hs
        exact feedInv_page hi (hi.consumer p k hrun) hH
  | process p =>
    simp only [feedStep] at hs
    split at hs
    · cases hs
    · rename_i k hrun
      split at hs
      · cases hs
      · rename_i ev rest hpage
        cases hs
        exact feedInv_process hi (hi.consumer p k hrun) hpage
  | save p =>
    simp only [feedStep] at hs
    split at hs
    · cases hs
    · rename_i k hrun
      obtain ⟨db', hstep, rfl⟩ := Option.map_eq_some_iff.mp hs
      have hk := hi.consumer p k hrun
      refine feedInv_db hi hstep ?_
      intro w hw h
      simp only [step, Option.some.injEq] at hstep
      subst hstep
      rcases getCursor_setCursor s.db.tables k.worker w k.hypertableId h k.pos with
        heq | ⟨rfl, rfl, heq, -⟩
      · exact Or.inl heq
      · refine Or.inr ?_
        rw [heq]
        exact ⟨hk.pos_settled, hk.pos_done⟩
  | crash p =>
    simp only [feedStep] at hs
    cases hs
    refine feedInv_set hi (List.Subset.refl _) ?_
    intro k' hk'
    cases hk'

theorem FeedInitial.inv (h : FeedInitial names s) : s.Inv names where
  db := h.db.inv
  stored w hw k := by
    have hzero : getCursor s.db.tables w k = 0 := by
      unfold getCursor
      rw [h.cursors w hw k]
      rfl
    rw [hzero]
    refine ⟨⟨Int.le_refl _, Or.inl rfl⟩, ?_⟩
    rintro i ⟨r, hr, -, rfl⟩ hle
    have := h.db.stored.commit_pos r hr
    omega
  consumer p k hp := by
    rw [h.running] at hp
    cases hp

theorem FeedReachable.inv (h : FeedReachable names s) : s.Inv names := by
  obtain ⟨s₀, h₀, hr⟩ := h
  exact hr.inv (fun _ _ _ hs hi => feedInv_step hs hi) h₀.inv

/-- A stored cursor never moves backwards. -/
theorem cursor_step {f : FeedEvent} (hi : s.Inv names) (hs : feedStep names s f = some s')
    {w : String} (hw : w ∈ names) :
    getCursor s.db.tables w h ≤ getCursor s'.db.tables w h := by
  cases f with
  | db e =>
    simp only [feedStep] at hs
    split at hs
    · cases hs
    · rename_i hforeign
      obtain ⟨db', hstep, rfl⟩ := Option.map_eq_some_iff.mp hs
      by_cases hc : ∃ worker k cursor, e = .setCursor worker k cursor
      · obtain ⟨worker, k, cursor, rfl⟩ := hc
        simp only [step, Option.some.injEq] at hstep
        subst hstep
        rcases getCursor_setCursor s.db.tables worker w k h cursor with heq | ⟨rfl, -⟩
        · exact Int.le_of_eq heq.symm
        · exact absurd hw hforeign
      · have := step_cursors hstep fun worker k cursor he => hc ⟨worker, k, cursor, he⟩
        unfold getCursor
        rw [this]
  | save p =>
    simp only [feedStep] at hs
    split at hs
    · cases hs
    · rename_i k hrun
      obtain ⟨db', hstep, rfl⟩ := Option.map_eq_some_iff.mp hs
      simp only [step, Option.some.injEq] at hstep
      subst hstep
      rcases getCursor_setCursor s.db.tables k.worker w k.hypertableId h k.pos with
        heq | ⟨-, -, heq, hlt⟩
      · exact Int.le_of_eq heq.symm
      · refine Int.le_trans ?_ (Int.le_of_eq heq.symm)
        unfold getCursor
        cases hstored : s.db.tables.workerCursors (w, h) with
        | none => exact (hi.consumer p k hrun).pos_settled.1
        | some stored => exact Int.le_of_lt (hlt stored hstored)
  | start _ _ _ _ | head _ _ | page _ | process _ | crash _ =>
    simp only [feedStep] at hs
    repeat' split at hs
    all_goals cases hs
    all_goals exact Int.le_refl _

/-! ## 5. Prefix completeness -/

/-- **The feed is complete up to every cursor.**  In every state the catalog, its writers and any
number of crashing consumers can reach:

* no commit at or below a published head ever becomes visible later;
* a consumer has processed, in increasing order, exactly the visible commits between the cursor
  it started from and the last one it processed;
* every commit up to a stored cursor has been processed under that cursor's name;
* no stored cursor will move backwards;
* and a page with a positive LIMIT is empty only when nothing is left up to its head. -/
theorem feed_prefix_complete (hr : FeedReachable names s) :
    (∀ h H, (h, H) ∈ s.db.heads → ∀ db', Lts.Reaches step s.db db' →
      ∀ i, Visible db'.tables h i → i ≤ H → Visible s.db.tables h i) ∧
    (∀ p k, s.running p = some k → k.processed.Pairwise (· < ·) ∧
      ∀ i, i ∈ k.processed ↔ Visible s.db.tables k.hypertableId i ∧ k.start < i ∧ i ≤ k.pos) ∧
    (∀ w ∈ names, ∀ h i, Visible s.db.tables h i → i ≤ getCursor s.db.tables w h →
      (w, h, i) ∈ s.done) ∧
    (∀ s', Lts.Reaches (feedStep names) s s' → ∀ w ∈ names, ∀ h,
      getCursor s.db.tables w h ≤ getCursor s'.db.tables w h) ∧
    (∀ h after head limit, 1 ≤ limit → changesSince s.db.tables h after head limit = [] →
      ∀ i, Visible s.db.tables h i → after < i → ¬ i ≤ head) := by
  have hi := hr.inv
  refine ⟨?_, ?_, ?_, ?_, fun h after head limit hl he => changesSince_nil hl he⟩
  · rintro h H hH db' hreach i ⟨r, hmem, hht, rfl⟩ hle
    exact ⟨r, head_final hi.db hH hreach r hmem hht hle, hht, rfl⟩
  · intro p k hp
    exact ⟨(hi.consumer p k hp).increasing, (hi.consumer p k hp).exact⟩
  · exact fun w hw h i hv hle => (hi.stored w hw h).2 i hv hle
  · rintro s' ⟨fs, hrun⟩ w hw h
    exact Lts.run_rel (I := Feed.Inv names)
      (R := fun a b => getCursor a.db.tables w h ≤ getCursor b.db.tables w h)
      (fun _ => Int.le_refl _) (fun _ _ _ => Int.le_trans)
      (fun _ _ _ hs hi => feedInv_step hs hi) (fun _ _ _ hi hs => cursor_step hi hs hw) hrun hi

end Steps

/-- One commit, read and processed by one consumer. -/
def feedDelivery : List FeedEvent :=
  [.db (.begin (commit 1 (.add []) none)), .db (.stmt 0), .db (.stmt 0), .db (.stmt 0),
    .db (.stmt 0), .db (.sendCommit 0), .db (.commit 0), .db (.lockBarrier 0 1),
    .db (.readHead 0), .db (.unlockBarrier 0), .start 0 "mv" 1 1, .head 0 1, .page 0,
    .process 0, .save 0]

theorem feed_prefix_complete_delivery :
    ∃ s, Lts.run (feedStep ["mv"]) {} feedDelivery = some s ∧ ("mv", 1, 1) ∈ s.done ∧
      ∀ s', Lts.Reaches (feedStep ["mv"]) s s' → 1 ≤ getCursor s'.db.tables "mv" 1 := by
  have hobs : (Lts.run (feedStep ["mv"]) {} feedDelivery).map (fun s =>
      (getCursor s.db.tables "mv" 1, s.db.tables.commits.map fun r => (r.hypertableId, r.id))) =
      some (1, [(1, 1)]) := by decide
  obtain ⟨s, hrun, hobs⟩ := Option.map_eq_some_iff.mp hobs
  simp only [Prod.mk.injEq] at hobs
  obtain ⟨hcur, hcommits⟩ := hobs
  have hr : FeedReachable ["mv"] s :=
    ⟨{}, ⟨initial_empty, fun _ _ _ => rfl, rfl, rfl⟩, feedDelivery, hrun⟩
  have h := feed_prefix_complete hr
  refine ⟨s, hrun, ?_, ?_⟩
  · refine h.2.2.1 "mv" (by simp) 1 1 ?_ (by rw [hcur])
    have hmem : ((1 : HypertableId), (1 : Int)) ∈
        s.db.tables.commits.map fun r => (r.hypertableId, r.id) := by rw [hcommits]; simp
    obtain ⟨r, hr, heq⟩ := List.mem_map.mp hmem
    simp only [Prod.mk.injEq] at heq
    exact ⟨r, hr, heq.1, heq.2⟩
  · intro s' hs'
    have := h.2.2.2.1 s' hs' "mv" (by simp) 1
    rw [hcur] at this
    exact this

end Ukiel.Catalog
