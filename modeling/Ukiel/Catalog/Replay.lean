/-
# Replaying the feed

A change event is not stored: `changes_since` rebuilds it by joining `parts` on the commit ids
that later commits keep writing.  §1 is the reader, one query at a time, with anything happening
in between; §2 shows that what it reads about a visible commit is final; §3 that the events up to
a position add up to the parts alive there; §4 is the invariant of a reader and §5 the result.
-/
import Ukiel.Catalog.Lifetimes

namespace Ukiel.Catalog

variable {db db' : Db}

/-! ## 1. A reader -/

/-- `Part`: a part as registered in the catalog. -/
structure Part where
  id : Int
  hypertableId : HypertableId
  partMeta : PartMeta
  createdByCommit : Int
deriving DecidableEq

def PartRow.part (p : PartRow) : Part := ⟨p.id, p.hypertableId, p.partMeta, p.createdByCommit⟩

/-- A `ChangeEvent` as the reader receives it. -/
structure Change where
  commitId : Int
  kind : CommitKind
  added : List Part
  removed : List Int
deriving DecidableEq

/-- `SELECT … FROM parts WHERE created_by_commit = $1 ORDER BY id`. -/
def addedBy (T : Tables) (id : Int) : List Part :=
  ((T.parts.filter fun p => p.createdByCommit = id).map PartRow.part).insertionSort
    fun a b => a.id ≤ b.id

/-- `SELECT id FROM parts WHERE deleted_by_commit = $1 ORDER BY id`. -/
def removedBy (T : Tables) (id : Int) : List Int :=
  ((T.parts.filter fun p => p.deletedByCommit = some id).map PartRow.id).insertionSort
    fun a b => a ≤ b

/-- The event of a commit, read in one go. -/
def change (T : Tables) (r : CommitRow) : Change := ⟨r.id, r.kind, addedBy T r.id, removedBy T r.id⟩

/-- The page in one go, as the reader receives it. -/
def changes (T : Tables) (h : HypertableId) (after head : Int) (limit : Nat) : List Change :=
  ((feedRows T h after head).take limit).map (change T)

/-- Insert every added part, remove every removed part. -/
def applyChange (live : List Part) (e : Change) : List Part :=
  (live ++ e.added).filter fun p => p.id ∉ e.removed

/-- **The fold of a consumer that mirrors the hypertable.** -/
def replay (events : List Change) : List Part := events.foldl applyChange []

/-- A consumer of one hypertable that starts from cursor 0. -/
structure Mirror where
  db : Db := {}
  hypertableId : HypertableId
  pos : Int := 0
  /-- The commits of the current page that are still to be read. -/
  pending : List CommitRow := []
  /-- The commit whose added parts have been read and whose removed parts have not. -/
  reading : Option (CommitRow × List Part) := none
  events : List Change := []
  /-- For the record: each head anyone has been given, with the parts live at that moment. -/
  marks : List (Int × List Part) := []

inductive MirrorMove where
  /-- Anything else that happens in the catalog. -/
  | catalog (e : Event)
  /-- `feed_head` has returned `H`; the query for the page's commits. -/
  | page (H : Int) (limit : Nat)
  /-- The query for the parts the next commit added. -/
  | added
  /-- The query for the parts it removed. -/
  | removed

/-- `live_parts`, as the caller receives it. -/
def livePartsOf (T : Tables) (h : HypertableId) : List Part := (T.liveParts h).map PartRow.part

/-- The head a reader is given by this event, with the parts live then. -/
def marked (db : Db) (h : HypertableId) : Event → List (Int × List Part)
  | .readHead r =>
    if db.barrier.lookup r = some h then [(feedHead db.tables h, livePartsOf db.tables h)] else []
  | _ => []

/-- **One step of the mirror.** -/
def mirrorStep (m : Mirror) : MirrorMove → Option Mirror
  | .catalog e =>
    if Informed m.db e then
      (step m.db e).map fun db =>
        { m with db := db, marks := m.marks ++ marked m.db m.hypertableId e }
    else none
  | .page H limit =>
    if (m.hypertableId, H) ∈ m.db.heads ∧ m.pending = [] ∧ m.reading = none then
      some { m with pending := (feedRows m.db.tables m.hypertableId m.pos H).take limit }
    else none
  | .added =>
    match m.pending, m.reading with
    | r :: rest, none =>
      some { m with pending := rest, reading := some (r, addedBy m.db.tables r.id) }
    | _, _ => none
  | .removed =>
    match m.reading with
    | some (r, added) =>
      some { m with
        reading := none
        pos := r.id
        events := m.events ++ [⟨r.id, r.kind, added, removedBy m.db.tables r.id⟩] }
    | none => none

/-! ## 2. What is read about a visible commit is final -/

/-- The part rows a step leaves, in order: those there were, of which some have died or been
stamped, and new ones. -/
theorem step_parts_map {e : Event} (hi : Inv db) (hs : step db e = some db') :
    ∃ f rows, db'.tables.parts = db.tables.parts.map f ++ rows ∧
      (∀ p ∈ db.tables.parts, (f p).part = p.part ∧
        ((f p).deletedByCommit = p.deletedByCommit ∨
          ∃ t τ id, db.txns.lookup t = some τ ∧ τ.w.cid = some id ∧
            p.hypertableId = τ.call.hypertableId ∧ p.deletedByCommit = none ∧
            (f p).deletedByCommit = some id)) ∧
      ∀ p ∈ rows, p.deletedByCommit = none ∧ ∃ t τ, db.txns.lookup t = some τ ∧
        τ.w.cid = some p.createdByCommit ∧ p.hypertableId = τ.call.hypertableId := by
  rcases step_tables hi hs with ⟨t, τ, id, -, hlook, hcid, happ, -, -, -⟩ | ⟨-, -, hside⟩
  · obtain ⟨rows, hparts, hnew⟩ := happ.parts
    refine ⟨_, rows, hparts, ?_, ?_⟩
    · intro p hp
      by_cases hold : p.id ∈ τ.call.op.oldParts
      · obtain ⟨hht, hdel⟩ := happ.old_row hi.stored.part_nodup hp hold
        rw [if_pos hold]
        exact ⟨rfl, Or.inr ⟨t, τ, id, hlook, hcid, hht, hdel, rfl⟩⟩
      · rw [if_neg hold]
        exact ⟨rfl, Or.inl rfl⟩
    · intro p hp
      obtain ⟨hht, hborn, hdel, -⟩ := hnew.row p hp
      exact ⟨hdel, t, τ, hlook, hborn ▸ hcid, hht⟩
  · obtain ⟨f, hparts, hf⟩ := hside.parts
    refine ⟨f, [], by rw [hparts, List.append_nil], ?_, by simp⟩
    intro p _
    rw [hf p]
    exact ⟨rfl, Or.inl rfl⟩

/-- An id that is visible is nobody's to draw. -/
theorem Visible.not_drawn {h : HypertableId} {i : Int} (hi : Inv db) (hv : Visible db.tables h i)
    {t : Nat} {τ : Txn} (hlook : db.txns.lookup t = some τ) : τ.w.cid ≠ some i := by
  obtain ⟨r, hr, -, rfl⟩ := hv
  intro hcid
  exact ((hi.txn t τ hlook).cid_fresh r.id hcid).2.2 r hr rfl

theorem addedBy_step {e : Event} {h : HypertableId} {i : Int} (hi : Inv db)
    (hs : step db e = some db') (hv : Visible db.tables h i) :
    addedBy db'.tables i = addedBy db.tables i := by
  obtain ⟨f, rows, hparts, hold, hnew⟩ := step_parts_map hi hs
  have hrows : (rows.filter fun p => p.createdByCommit = i) = [] := by
    refine List.filter_eq_nil_iff.mpr fun p hp hborn => ?_
    obtain ⟨-, t, τ, hlook, hcid, -⟩ := hnew p hp
    have hborn' : p.createdByCommit = i := of_decide_eq_true hborn
    exact hv.not_drawn hi hlook (hborn' ▸ hcid)
  have hkept : ((db.tables.parts.map f).filter fun p => p.createdByCommit = i).map PartRow.part =
      (db.tables.parts.filter fun p => p.createdByCommit = i).map PartRow.part := by
    rw [List.filter_map, List.map_map]
    have hsame : ∀ p ∈ db.tables.parts, (f p).createdByCommit = p.createdByCommit := fun p hp =>
      congrArg Part.createdByCommit (hold p hp).1
    have hfilter : (db.tables.parts.filter ((fun p => decide (p.createdByCommit = i)) ∘ f)) =
        db.tables.parts.filter fun p => p.createdByCommit = i :=
      List.filter_congr fun p hp => by simp [hsame p hp]
    rw [hfilter]
    exact List.map_congr_left fun p hp => (hold p (List.mem_of_mem_filter hp)).1
  unfold addedBy
  rw [hparts, List.filter_append, hrows, List.append_nil, hkept]

theorem removedBy_step {e : Event} {h : HypertableId} {i : Int} (hi : Inv db)
    (hs : step db e = some db') (hv : Visible db.tables h i) :
    removedBy db'.tables i = removedBy db.tables i := by
  obtain ⟨f, rows, hparts, hold, hnew⟩ := step_parts_map hi hs
  have hrows : (rows.filter fun p => p.deletedByCommit = some i) = [] := by
    refine List.filter_eq_nil_iff.mpr fun p hp hdel => ?_
    have hdel' : p.deletedByCommit = some i := of_decide_eq_true hdel
    rw [(hnew p hp).1] at hdel'
    cases hdel'
  have hsame : ∀ p ∈ db.tables.parts,
      ((f p).deletedByCommit = some i ↔ p.deletedByCommit = some i) := by
    intro p hp
    rcases (hold p hp).2 with heq | ⟨t, τ, id, hlook, hcid, -, hlive, hdead⟩
    · rw [heq]
    · rw [hlive, hdead]
      refine ⟨fun he => ?_, fun he => by cases he⟩
      exact absurd (hcid.trans he) (hv.not_drawn hi hlook)
  have hkept : ((db.tables.parts.map f).filter fun p => p.deletedByCommit = some i).map PartRow.id =
      (db.tables.parts.filter fun p => p.deletedByCommit = some i).map PartRow.id := by
    rw [List.filter_map, List.map_map]
    have hfilter : (db.tables.parts.filter ((fun p => decide (p.deletedByCommit = some i)) ∘ f)) =
        db.tables.parts.filter fun p => p.deletedByCommit = some i :=
      List.filter_congr fun p hp => by simp [hsame p hp]
    rw [hfilter]
    exact List.map_congr_left fun p hp =>
      congrArg Part.id (hold p (List.mem_of_mem_filter hp)).1
  unfold removedBy
  rw [hparts, List.filter_append, hrows, List.append_nil, hkept]

/-! ## 3. The parts alive at a position -/

/-- The parts of a hypertable that have been born and not died by commit `K`. -/
def partsAt (T : Tables) (h : HypertableId) (K : Int) : List Part :=
  (T.parts.filter fun p => p.hypertableId = h ∧ p.createdByCommit ≤ K ∧
    ∀ d ∈ p.deletedByCommit, K < d).map PartRow.part

/-- Behind a published head nothing is born any more, and nothing dies. -/
theorem partsAt_step {e : Event} {h : HypertableId} {H : Int} (hi : Inv db)
    (hs : step db e = some db') (hH : (h, H) ∈ db.heads) :
    partsAt db'.tables h H = partsAt db.tables h H := by
  obtain ⟨f, rows, hparts, hold, hnew⟩ := step_parts_map hi hs
  have hlater : ∀ t τ id, db.txns.lookup t = some τ → τ.call.hypertableId = h →
      τ.w.cid = some id → H < id := fun t τ id hlook hht => (hi.heads h H hH).2 t τ hlook hht id
  have hrows : (rows.filter fun p => p.hypertableId = h ∧ p.createdByCommit ≤ H ∧
      ∀ d ∈ p.deletedByCommit, H < d) = [] := by
    refine List.filter_eq_nil_iff.mpr fun p hp halive => ?_
    obtain ⟨hht, hborn, -⟩ := of_decide_eq_true halive
    obtain ⟨-, t, τ, hlook, hcid, hht'⟩ := hnew p hp
    have hlt := hlater t τ _ hlook (hht'.symm.trans hht) hcid
    omega
  have hsame : ∀ p ∈ db.tables.parts, ((f p).hypertableId = h ∧ (f p).createdByCommit ≤ H ∧
      ∀ d ∈ (f p).deletedByCommit, H < d) ↔ (p.hypertableId = h ∧ p.createdByCommit ≤ H ∧
        ∀ d ∈ p.deletedByCommit, H < d) := by
    intro p hp
    obtain ⟨hpart, hdeath⟩ := hold p hp
    have hht : (f p).hypertableId = p.hypertableId := congrArg Part.hypertableId hpart
    have hborn : (f p).createdByCommit = p.createdByCommit :=
      congrArg Part.createdByCommit hpart
    rw [hht, hborn]
    refine and_congr_right fun hph => and_congr_right fun _ => ?_
    rcases hdeath with heq | ⟨t, τ, id, hlook, hcid, hph', hlive, hdead⟩
    · rw [heq]
    · rw [hlive, hdead]
      have hlt := hlater t τ id hlook (hph'.symm.trans hph) hcid
      simpa using hlt
  have hkept : ((db.tables.parts.map f).filter fun p => p.hypertableId = h ∧
      p.createdByCommit ≤ H ∧ ∀ d ∈ p.deletedByCommit, H < d).map PartRow.part =
      partsAt db.tables h H := by
    unfold partsAt
    rw [List.filter_map, List.map_map]
    have hfilter : (db.tables.parts.filter ((fun p => decide (p.hypertableId = h ∧
        p.createdByCommit ≤ H ∧ ∀ d ∈ p.deletedByCommit, H < d)) ∘ f)) =
        db.tables.parts.filter fun p => p.hypertableId = h ∧ p.createdByCommit ≤ H ∧
          ∀ d ∈ p.deletedByCommit, H < d :=
      List.filter_congr fun p hp => decide_eq_decide.mpr (hsame p hp)
    rw [hfilter]
    exact List.map_congr_left fun p hp => (hold p (List.mem_of_mem_filter hp)).1
  unfold partsAt at hkept ⊢
  rw [hparts, List.filter_append, hrows, List.append_nil, hkept]

/-- At the moment a head is read, the parts alive at it are the live parts. -/
theorem partsAt_feedHead (hd : Dated db) (h : HypertableId) :
    partsAt db.tables h (feedHead db.tables h) = livePartsOf db.tables h := by
  unfold partsAt livePartsOf Tables.liveParts
  refine congrArg (List.map PartRow.part) (List.filter_congr fun p hp => ?_)
  by_cases hht : p.hypertableId = h
  · subst hht
    have hborn := (hd.born p hp).le_feedHead
    cases hdel : p.deletedByCommit with
    | none => simp [hborn, PartRow.live, hdel]
    | some d =>
      have hdies := (hd.died p hp d hdel).1.le_feedHead
      simp [hborn, PartRow.live, hdel, not_lt.mpr hdies]
  · simp [hht]

theorem mem_addedBy {T : Tables} {i : Int} {q : Part} :
    q ∈ addedBy T i ↔ ∃ p ∈ T.parts, p.createdByCommit = i ∧ p.part = q := by
  unfold addedBy
  rw [List.mem_insertionSort, List.mem_map]
  constructor
  · rintro ⟨p, hp, rfl⟩
    obtain ⟨hmem, hborn⟩ := List.mem_filter.mp hp
    exact ⟨p, hmem, of_decide_eq_true hborn, rfl⟩
  · rintro ⟨p, hp, hborn, rfl⟩
    exact ⟨p, List.mem_filter.mpr ⟨hp, decide_eq_true hborn⟩, rfl⟩

theorem mem_removedBy {T : Tables} {i j : Int} :
    j ∈ removedBy T i ↔ ∃ p ∈ T.parts, p.deletedByCommit = some i ∧ p.id = j := by
  unfold removedBy
  rw [List.mem_insertionSort, List.mem_map]
  constructor
  · rintro ⟨p, hp, rfl⟩
    obtain ⟨hmem, hdel⟩ := List.mem_filter.mp hp
    exact ⟨p, hmem, of_decide_eq_true hdel, rfl⟩
  · rintro ⟨p, hp, hdel, rfl⟩
    exact ⟨p, List.mem_filter.mpr ⟨hp, decide_eq_true hdel⟩, rfl⟩

/-- Where a list of events ends. -/
def endOf (events : List Change) : Int := (events.getLast?.map Change.commitId).getD 0

/-- **A prefix of the feed**: visible commits in order, none left out before the last of them,
each with the parts it added and removed. -/
structure FeedPrefix (T : Tables) (h : HypertableId) (events : List Change) : Prop where
  increasing : (events.map Change.commitId).Pairwise (· < ·)
  visible : ∀ e ∈ events, Visible T h e.commitId
  complete : ∀ j ∈ events.map Change.commitId, ∀ i, Visible T h i → i ≤ j →
    i ∈ events.map Change.commitId
  faithful : ∀ e ∈ events, e.added = addedBy T e.commitId ∧ e.removed = removedBy T e.commitId

theorem endOf_concat (events : List Change) (e : Change) : endOf (events ++ [e]) = e.commitId := by
  simp [endOf]

theorem FeedPrefix.nil (T : Tables) (h : HypertableId) : FeedPrefix T h [] where
  increasing := List.Pairwise.nil
  visible e he := by cases he
  complete j hj := by cases hj
  faithful e he := by cases he

theorem FeedPrefix.last {T : Tables} {h : HypertableId} {events : List Change} {e : Change}
    (hp : FeedPrefix T h (events ++ [e])) :
    ∀ i ∈ events.map Change.commitId, i < e.commitId := by
  have hinc := hp.increasing
  rw [List.map_append] at hinc
  exact fun i hi => (List.pairwise_append.mp hinc).2.2 i hi e.commitId (by simp)

/-- A shorter prefix. -/
theorem FeedPrefix.init {T : Tables} {h : HypertableId} {events : List Change} {e : Change}
    (hp : FeedPrefix T h (events ++ [e])) : FeedPrefix T h events where
  increasing := by
    have hinc := hp.increasing
    rw [List.map_append] at hinc
    exact (List.pairwise_append.mp hinc).1
  visible e' he' := hp.visible e' (List.mem_append_left _ he')
  complete j hj i hv hle := by
    have hlt := hp.last j hj
    have hmem := hp.complete j (by rw [List.map_append]; exact List.mem_append_left _ hj) i hv hle
    rw [List.map_append] at hmem
    rcases List.mem_append.mp hmem with hold | hnew
    · exact hold
    · simp only [List.map_cons, List.map_nil, List.mem_singleton] at hnew
      omega
  faithful e' he' := hp.faithful e' (List.mem_append_left _ he')

/-- Everything visible up to the end is among the events. -/
theorem FeedPrefix.complete_end {T : Tables} {h : HypertableId} {events : List Change}
    (hp : FeedPrefix T h events) (hpos : ∀ i, Visible T h i → 0 < i) {i : Int}
    (hv : Visible T h i) (hle : i ≤ endOf events) : i ∈ events.map Change.commitId := by
  induction events using List.reverseRecOn with
  | nil =>
    have h0 : i ≤ 0 := hle
    have := hpos i hv
    omega
  | append_singleton events e _ =>
    rw [endOf_concat] at hle
    exact hp.complete e.commitId (by simp) i hv hle

theorem FeedPrefix.le_end {T : Tables} {h : HypertableId} {events : List Change}
    (hp : FeedPrefix T h events) {i : Int} (hi : i ∈ events.map Change.commitId) :
    i ≤ endOf events := by
  induction events using List.reverseRecOn with
  | nil => cases hi
  | append_singleton events e _ =>
    rw [endOf_concat]
    rw [List.map_append] at hi
    rcases List.mem_append.mp hi with hold | hnew
    · exact Int.le_of_lt (hp.last i hold)
    · simp only [List.map_cons, List.map_nil, List.mem_singleton] at hnew
      omega

theorem Dated.visible_pos (hs : Stored db) {h : HypertableId} {i : Int}
    (hv : Visible db.tables h i) : 0 < i := by
  obtain ⟨r, hr, -, rfl⟩ := hv
  exact hs.commit_pos r hr

/-- A commit id belongs to one hypertable. -/
theorem Visible.hypertable_eq (hs : Stored db) {h h' : HypertableId} {i : Int}
    (hv : Visible db.tables h i) (hv' : Visible db.tables h' i) : h = h' := by
  obtain ⟨r, hr, rfl, rfl⟩ := hv
  obtain ⟨r', hr', rfl, hid⟩ := hv'
  rw [List.inj_on_of_nodup_map hs.commit_nodup hr' hr hid]

/-- **A prefix of the feed adds up to the parts alive at its end.** -/
theorem FeedPrefix.replay_perm {h : HypertableId} {events : List Change} (hs : Stored db)
    (hd : Dated db) (hp : FeedPrefix db.tables h events) :
    (replay events).Perm (partsAt db.tables h (endOf events)) := by
  induction events using List.reverseRecOn with
  | nil =>
    have hempty : partsAt db.tables h 0 = [] := by
      unfold partsAt
      rw [List.map_eq_nil_iff, List.filter_eq_nil_iff]
      intro p hp halive
      obtain ⟨-, hborn, -⟩ := of_decide_eq_true halive
      have hpos := Dated.visible_pos hs (hd.born p hp)
      omega
    rw [show endOf [] = 0 from rfl, hempty]
    exact List.Perm.refl _
  | append_singleton events e ih =>
    have ih' := ih hp.init
    obtain ⟨hadded, hremoved⟩ := hp.faithful e (by simp)
    have hvis := hp.visible e (by simp)
    have hlt : endOf events < e.commitId := by
      induction events using List.reverseRecOn with
      | nil => exact Dated.visible_pos hs hvis
      | append_singleton events e' _ =>
        rw [endOf_concat]
        exact hp.last e'.commitId (by simp)
    -- Between the two ends nothing is visible.
    have hgap : ∀ i, Visible db.tables h i → i ≤ e.commitId → i ≤ endOf events ∨ i = e.commitId := by
      intro i hv hle
      have hmem := hp.complete e.commitId (by simp) i hv hle
      rw [List.map_append] at hmem
      rcases List.mem_append.mp hmem with hold | hnew
      · exact Or.inl (hp.init.le_end hold)
      · exact Or.inr (by simpa using hnew)
    have hjoin : (partsAt db.tables h (endOf events) ++ addedBy db.tables e.commitId).Perm
        ((db.tables.parts.filter fun p =>
          decide (p.hypertableId = h ∧ p.createdByCommit ≤ endOf events ∧
            ∀ d ∈ p.deletedByCommit, endOf events < d) ||
          decide (p.createdByCommit = e.commitId)).map PartRow.part) := by
      have hsorted : (addedBy db.tables e.commitId).Perm
          ((db.tables.parts.filter fun p => p.createdByCommit = e.commitId).map PartRow.part) :=
        List.perm_insertionSort _ _
      refine (List.Perm.append_left _ hsorted).trans ?_
      rw [partsAt, ← List.map_append]
      refine (List.filter_append_filter_perm ?_).map PartRow.part
      intro p _ halive
      obtain ⟨-, hborn, -⟩ := of_decide_eq_true halive
      exact decide_eq_false (by omega)
    have hstep : (replay (events ++ [e])).Perm
        (((db.tables.parts.filter fun p =>
          decide (p.hypertableId = h ∧ p.createdByCommit ≤ endOf events ∧
            ∀ d ∈ p.deletedByCommit, endOf events < d) ||
          decide (p.createdByCommit = e.commitId)).map PartRow.part).filter
            fun p => p.id ∉ removedBy db.tables e.commitId) := by
      unfold replay
      rw [List.foldl_append, List.foldl_cons, List.foldl_nil, applyChange, hadded, hremoved]
      exact (((ih'.append_right _).trans hjoin).filter _)
    refine hstep.trans (List.Perm.of_eq ?_)
    rw [endOf_concat, partsAt, List.filter_map, List.filter_filter]
    refine congrArg (List.map PartRow.part) (List.filter_congr fun p hpmem => ?_)
    have hdeath : p.id ∈ removedBy db.tables e.commitId ↔ p.deletedByCommit = some e.commitId := by
      rw [mem_removedBy]
      constructor
      · rintro ⟨q, hq, hdel, hid⟩
        rw [← List.inj_on_of_nodup_map hs.part_nodup hq hpmem hid]
        exact hdel
      · exact fun hdel => ⟨p, hpmem, hdel, rfl⟩
    have halive : (p.id ∉ removedBy db.tables e.commitId ∧
        ((p.hypertableId = h ∧ p.createdByCommit ≤ endOf events ∧
          ∀ d ∈ p.deletedByCommit, endOf events < d) ∨ p.createdByCommit = e.commitId)) ↔
        (p.hypertableId = h ∧ p.createdByCommit ≤ e.commitId ∧
          ∀ d ∈ p.deletedByCommit, e.commitId < d) := by
      rw [hdeath]
      constructor
      · rintro ⟨hne, ⟨rfl, hborn, hlives⟩ | hborn⟩
        · refine ⟨rfl, by omega, fun d hdel => ?_⟩
          have hdd := hlives d hdel
          by_contra hge
          rcases hgap d (hd.died p hpmem d hdel).1 (not_lt.mp hge) with hle | rfl
          · omega
          · exact hne hdel
        · have hht := (hborn ▸ hd.born p hpmem).hypertable_eq hs hvis
          refine ⟨hht, Int.le_of_eq hborn, fun d hdel => ?_⟩
          have hlater := (hd.died p hpmem d hdel).2
          omega
      · rintro ⟨rfl, hborn, hlives⟩
        refine ⟨fun hdel => absurd (hlives _ hdel) (Int.lt_irrefl _), ?_⟩
        rcases hgap _ (hd.born p hpmem) hborn with hle | heq
        · exact Or.inl ⟨rfl, hle, fun d hdel => Int.lt_trans hlt (hlives d hdel)⟩
        · exact Or.inr heq
    rw [Bool.eq_iff_iff]
    simp only [Function.comp, Bool.and_eq_true, Bool.or_eq_true, decide_eq_true_eq]
    exact halive

/-- What a prefix removes was added earlier, and is removed once. -/
theorem FeedPrefix.removed_earlier {h : HypertableId} {events pre post : List Change} {e : Change}
    (hs : Stored db) (hd : Dated db) (hp : FeedPrefix db.tables h events)
    (hsplit : events = pre ++ e :: post) {i : Int} (hi : i ∈ e.removed) :
    ∃ e' ∈ pre, i ∈ e'.added.map Part.id := by
  have he : e ∈ events := by rw [hsplit]; simp
  rw [(hp.faithful e he).2, mem_removedBy] at hi
  obtain ⟨p, hpmem, hdel, rfl⟩ := hi
  obtain ⟨hdies, hlt⟩ := hd.died p hpmem _ hdel
  have hht := hdies.hypertable_eq hs (hp.visible e he)
  have hmem := hp.complete e.commitId (List.mem_map_of_mem he) p.createdByCommit
    (hht ▸ hd.born p hpmem) (Int.le_of_lt hlt)
  obtain ⟨e', he', hborn⟩ := List.mem_map.mp hmem
  have hinc := hp.increasing
  rw [hsplit, List.map_append, List.map_cons] at hinc
  obtain ⟨-, hpost, -⟩ := List.pairwise_append.mp hinc
  refine ⟨e', ?_, ?_⟩
  · rw [hsplit] at he'
    rcases List.mem_append.mp he' with hpre | hrest
    · exact hpre
    · rcases List.mem_cons.mp hrest with rfl | hpost'
      · omega
      · have := (List.pairwise_cons.mp hpost).1 e'.commitId (List.mem_map_of_mem hpost')
        omega
  · rw [(hp.faithful e' he').1]
    exact List.mem_map.mpr ⟨p.part, mem_addedBy.mpr ⟨p, hpmem, hborn.symm, rfl⟩, rfl⟩

theorem FeedPrefix.removed_once {h : HypertableId} {events : List Change} (hs : Stored db)
    (hp : FeedPrefix db.tables h events) : (events.flatMap Change.removed).Nodup := by
  rw [List.nodup_flatMap]
  constructor
  · intro e he
    rw [(hp.faithful e he).2]
    refine (List.perm_insertionSort _ _).nodup_iff.mpr ?_
    exact hs.part_nodup.sublist (List.filter_sublist.map _)
  · refine (List.pairwise_map.mp hp.increasing).imp_of_mem ?_
    intro e e' he he' hlt i hi hi'
    rw [(hp.faithful e he).2, mem_removedBy] at hi
    rw [(hp.faithful e' he').2, mem_removedBy] at hi'
    obtain ⟨p, hpmem, hdel, rfl⟩ := hi
    obtain ⟨q, hqmem, hdel', hid⟩ := hi'
    rw [List.inj_on_of_nodup_map hs.part_nodup hqmem hpmem hid, hdel, Option.some.injEq] at hdel'
    omega

/-! ## 4. The invariant of a reader -/

/-- The commits the reader has read or is about to read. -/
def Mirror.ids (m : Mirror) : List Int :=
  m.events.map Change.commitId ++ ((m.reading.map fun x => x.1.id).toList ++
    m.pending.map CommitRow.id)

structure Mirror.Ok (m : Mirror) : Prop where
  reach : Reachable m.db
  dated : Dated m.db
  increasing : m.ids.Pairwise (· < ·)
  visible : ∀ i ∈ m.ids, Visible m.db.tables m.hypertableId i
  complete : ∀ j ∈ m.ids, ∀ i, Visible m.db.tables m.hypertableId i → i ≤ j → i ∈ m.ids
  /-- All of them are at or below a published head. -/
  bounded : m.ids = [] ∨ ∃ H, (m.hypertableId, H) ∈ m.db.heads ∧ ∀ i ∈ m.ids, i ≤ H
  faithful : ∀ e ∈ m.events, e.added = addedBy m.db.tables e.commitId ∧
    e.removed = removedBy m.db.tables e.commitId
  reading : ∀ r added, m.reading = some (r, added) → added = addedBy m.db.tables r.id
  pos : m.pos = endOf m.events
  marks : ∀ x ∈ m.marks, (m.hypertableId, x.1) ∈ m.db.heads ∧
    x.2 = partsAt m.db.tables m.hypertableId x.1 ∧
    (x.1 = 0 ∨ Visible m.db.tables m.hypertableId x.1)

/-- What has been read whole is a prefix of the feed. -/
theorem Mirror.Ok.prefix {m : Mirror} (h : m.Ok) :
    FeedPrefix m.db.tables m.hypertableId m.events where
  increasing := (List.pairwise_append.mp h.increasing).1
  visible e he := h.visible _ (List.mem_append_left _ (List.mem_map_of_mem he))
  complete j hj i hv hle := by
    have hmem := h.complete j (List.mem_append_left _ hj) i hv hle
    rcases List.mem_append.mp hmem with hold | hrest
    · exact hold
    · have hlt := (List.pairwise_append.mp h.increasing).2.2 j hj i hrest
      omega
  faithful := h.faithful

theorem mark_mem {e : Event} {h : HypertableId} {x : Int × List Part}
    (hx : x ∈ marked db h e) : ∃ r, e = .readHead r ∧ db.barrier.lookup r = some h ∧
      x = (feedHead db.tables h, livePartsOf db.tables h) := by
  unfold marked at hx
  split at hx
  · rename_i r
    split at hx
    · rename_i hb
      exact ⟨r, rfl, hb, List.mem_singleton.mp hx⟩
    · cases hx
  · cases hx

theorem Mirror.Ok.catalog {m : Mirror} {e : Event} (h : m.Ok) (hs : step m.db e = some db')
    (he : Informed m.db e) :
    Mirror.Ok { m with db := db', marks := m.marks ++ marked m.db m.hypertableId e } := by
  have hi := h.reach.inv
  have hadded : ∀ i ∈ m.ids, addedBy db'.tables i = addedBy m.db.tables i := fun i hmem =>
    addedBy_step hi hs (h.visible i hmem)
  have hremoved : ∀ i ∈ m.ids, removedBy db'.tables i = removedBy m.db.tables i := fun i hmem =>
    removedBy_step hi hs (h.visible i hmem)
  have hheads : ∀ x, x ∈ m.db.heads → x ∈ db'.heads := fun x => heads_mono hs
  refine
    { reach := h.reach.next hs
      dated := h.dated.step hi hs he
      increasing := h.increasing
      visible := fun i hmem => (h.visible i hmem).mono hi hs
      complete := ?_
      bounded := ?_
      faithful := ?_
      reading := ?_
      pos := h.pos
      marks := ?_ }
  · intro j hj i hv hle
    rcases h.bounded with hnil | ⟨H, hH, hbound⟩
    · have hj' : j ∈ m.ids := hj
      rw [hnil] at hj'
      cases hj'
    · obtain ⟨r, hr, hht, rfl⟩ := hv
      have hjH := hbound j hj
      exact h.complete j hj r.id ⟨r, head_step hi hs hH hr hht (by omega), hht, rfl⟩ hle
  · rcases h.bounded with hnil | ⟨H, hH, hbound⟩
    · exact Or.inl hnil
    · exact Or.inr ⟨H, hheads _ hH, hbound⟩
  · intro c hc
    have hmem : c.commitId ∈ m.ids := List.mem_append_left _ (List.mem_map_of_mem hc)
    obtain ⟨ha, hr⟩ := h.faithful c hc
    exact ⟨ha.trans (hadded _ hmem).symm, hr.trans (hremoved _ hmem).symm⟩
  · intro r added hr
    have hmem : r.id ∈ m.ids := by
      refine List.mem_append_right _ (List.mem_append_left _ ?_)
      have hr' : m.reading = some (r, added) := hr
      simp [hr']
    exact (h.reading r added hr).trans (hadded _ hmem).symm
  · intro x hx
    rcases List.mem_append.mp hx with hold | hnew
    · obtain ⟨hH, hlive, hlast⟩ := h.marks x hold
      exact ⟨hheads _ hH, hlive.trans (partsAt_step hi hs hH).symm,
        hlast.imp_right fun hv => hv.mono hi hs⟩
    · obtain ⟨r, rfl, hb, rfl⟩ := mark_mem hnew
      simp only [step, hb, Option.some.injEq] at hs
      subst hs
      exact ⟨List.mem_cons_self, (partsAt_feedHead h.dated _).symm, feedHead_visible⟩

theorem mirror_step {m m' : Mirror} {mv : MirrorMove} (hs : mirrorStep m mv = some m')
    (h : m.Ok) : m'.Ok := by
  cases mv with
  | catalog e =>
    simp only [mirrorStep] at hs
    split at hs
    · rename_i he
      obtain ⟨db, hdb, rfl⟩ := Option.map_eq_some_iff.mp hs
      exact h.catalog hdb he
    · cases hs
  | page H limit =>
    simp only [mirrorStep] at hs
    split at hs
    · rename_i hc
      cases hs
      obtain ⟨hH, hpending, hreading⟩ := hc
      have hpage := changesSince_page h.reach.inv.stored m.hypertableId m.pos H limit
      have hids : (changesSince m.db.tables m.hypertableId m.pos H limit).map
          ChangeEvent.commitId =
          ((feedRows m.db.tables m.hypertableId m.pos H).take limit).map CommitRow.id := by
        simp [changesSince, Function.comp_def]
      rw [hids] at hpage
      have hold : m.ids = m.events.map Change.commitId := by
        simp [Mirror.ids, hpending, hreading]
      have hpast := h.prefix
      have hpos := h.pos
      have hle : ∀ i ∈ m.events.map Change.commitId, i ≤ m.pos := fun i hmem =>
        hpos ▸ hpast.le_end hmem
      have hsettled : ∀ i, Visible m.db.tables m.hypertableId i → i ≤ m.pos →
          i ∈ m.events.map Change.commitId := fun i hv hi =>
        hpast.complete_end (fun _ => Dated.visible_pos h.reach.inv.stored) hv (hpos ▸ hi)
      have hnew : ∀ (reading : Option (CommitRow × List Part)), reading = none →
          Mirror.ids { m with
            pending := (feedRows m.db.tables m.hypertableId m.pos H).take limit } =
          m.events.map Change.commitId ++
            ((feedRows m.db.tables m.hypertableId m.pos H).take limit).map CommitRow.id := by
        intro _ _
        simp [Mirror.ids, hreading]
      have hids' := hnew none rfl
      refine
        { reach := h.reach
          dated := h.dated
          increasing := ?_
          visible := ?_
          complete := ?_
          bounded := ?_
          faithful := h.faithful
          reading := h.reading
          pos := h.pos
          marks := h.marks }
      · rw [hids']
        refine List.pairwise_append.mpr ⟨hpast.increasing, hpage.increasing, ?_⟩
        intro i hmem j hj
        have h₁ := hle i hmem
        have h₂ := (hpage.visible j hj).2.1
        omega
      · intro i hmem
        rw [hids'] at hmem
        rcases List.mem_append.mp hmem with hmem | hmem
        · exact h.visible i (hold ▸ hmem)
        · exact (hpage.visible i hmem).1
      · intro j hj i hv hij
        rw [hids'] at hj ⊢
        by_cases hi : i ≤ m.pos
        · exact List.mem_append_left _ (hsettled i hv hi)
        · rcases List.mem_append.mp hj with hj | hj
          · have := hle j hj
            omega
          · exact List.mem_append_right _ (hpage.complete j hj i hv (by omega) hij)
      · -- The larger of the two heads bounds both.
        right
        have hpage' : ∀ i ∈ ((feedRows m.db.tables m.hypertableId m.pos H).take limit).map
            CommitRow.id, i ≤ H := fun i hmem => (hpage.visible i hmem).2.2
        rcases h.bounded with hnil | ⟨H₀, hH₀, hbound⟩
        · refine ⟨H, hH, fun i hmem => ?_⟩
          rw [hids', ← hold, hnil, List.nil_append] at hmem
          exact hpage' i hmem
        · rcases Int.le_total H₀ H with hle₀ | hle₀
          · refine ⟨H, hH, fun i hmem => ?_⟩
            rw [hids', ← hold] at hmem
            rcases List.mem_append.mp hmem with hmem | hmem
            · exact Int.le_trans (hbound i hmem) hle₀
            · exact hpage' i hmem
          · refine ⟨H₀, hH₀, fun i hmem => ?_⟩
            rw [hids', ← hold] at hmem
            rcases List.mem_append.mp hmem with hmem | hmem
            · exact hbound i hmem
            · exact Int.le_trans (hpage' i hmem) hle₀
    · cases hs
  | added =>
    simp only [mirrorStep] at hs
    split at hs
    · rename_i r rest hpending hreading
      cases hs
      have hids : Mirror.ids { m with
          pending := rest, reading := some (r, addedBy m.db.tables r.id) } = m.ids := by
        simp [Mirror.ids, hpending, hreading]
      exact
        { h with
          increasing := hids ▸ h.increasing
          visible := hids ▸ h.visible
          complete := hids ▸ h.complete
          bounded := hids ▸ h.bounded
          reading := fun r' added hr => by cases hr; rfl }
    · cases hs
  | removed =>
    simp only [mirrorStep] at hs
    split at hs
    · rename_i r added hreading
      cases hs
      have hids : Mirror.ids { m with
          reading := none
          pos := r.id
          events := m.events ++ [⟨r.id, r.kind, added, removedBy m.db.tables r.id⟩] } = m.ids := by
        simp [Mirror.ids, hreading]
      exact
        { h with
          increasing := hids ▸ h.increasing
          visible := hids ▸ h.visible
          complete := hids ▸ h.complete
          bounded := hids ▸ h.bounded
          faithful := fun e he => by
            rcases List.mem_append.mp he with hold | hnew
            · exact h.faithful e hold
            · rw [List.mem_singleton.mp hnew]
              exact ⟨h.reading r added hreading, rfl⟩
          reading := fun r' added hr => by cases hr
          pos := (endOf_concat m.events
            ⟨r.id, r.kind, added, removedBy m.db.tables r.id⟩).symm }
    · cases hs

/-! ## 5. Feed replay equals the live set -/

/-- A mirror that has read nothing, over a catalog in which parts have their commits. -/
structure Mirror.Start (m : Mirror) : Prop where
  db : Initial m.db
  dated : Dated m.db
  pos : m.pos = 0
  pending : m.pending = []
  reading : m.reading = none
  events : m.events = []
  marks : m.marks = []

theorem mirror_start (h : HypertableId) : Mirror.Start { hypertableId := h } :=
  ⟨initial_empty, dated_empty, rfl, rfl, rfl, rfl, rfl⟩

theorem Mirror.Start.ok {m : Mirror} (h : m.Start) : m.Ok where
  reach := ⟨m.db, h.db, Lts.Reaches.refl _⟩
  dated := h.dated
  increasing := by simp [Mirror.ids, h.events, h.reading, h.pending]
  visible := by simp [Mirror.ids, h.events, h.reading, h.pending]
  complete := by simp [Mirror.ids, h.events, h.reading, h.pending]
  bounded := Or.inl (by simp [Mirror.ids, h.events, h.reading, h.pending])
  faithful e he := by rw [h.events] at he; cases he
  reading r added hr := by rw [h.reading] at hr; cases hr
  pos := by rw [h.pos, h.events]; rfl
  marks x hx := by rw [h.marks] at hx; cases hx

/-- The event of a visible commit never changes again. -/
theorem change_final {h : HypertableId} {r : CommitRow} (hi : Inv db)
    (hr : Lts.Reaches step db db') (hv : Visible db.tables h r.id) :
    change db'.tables r = change db.tables r := by
  have hall := hr.inv (I := fun d => Inv d ∧ Visible d.tables h r.id ∧
      change d.tables r = change db.tables r) ?_ ⟨hi, hv, rfl⟩
  · exact hall.2.2
  · rintro d e d' hs ⟨hi, hv, heq⟩
    refine ⟨inv_step hs hi, hv.mono hi hs, ?_⟩
    rw [← heq]
    unfold change
    rw [addedBy_step hi hs hv, removedBy_step hi hs hv]

/-- Behind a published head the pages are final. -/
theorem changes_final {h : HypertableId} {H after : Int} {limit : Nat} (hi : Inv db)
    (hH : (h, H) ∈ db.heads) (hr : Lts.Reaches step db db') :
    changes db'.tables h after H limit = changes db.tables h after H limit := by
  have hi' : Inv db' := hr.inv (fun _ _ _ hs hi => inv_step hs hi) hi
  have hsub : ∀ r ∈ db.tables.commits, r ∈ db'.tables.commits := by
    have hall := hr.inv (I := fun d => Inv d ∧ ∀ r ∈ db.tables.commits, r ∈ d.tables.commits)
      (fun _ _ _ hs h => ⟨inv_step hs h.1, fun r hr => step_commits_mono h.1 hs (h.2 r hr)⟩)
      ⟨hi, fun r hr => hr⟩
    exact hall.2
  have hback := head_final hi hH hr
  have hrows : feedRows db'.tables h after H = feedRows db.tables h after H := by
    have hinc := feedRows_increasing hi.stored h after H
    have hinc' := feedRows_increasing hi'.stored h after H
    refine List.Perm.eq_of_pairwise ?_ hinc' hinc ?_
    · intro a b _ _ h₁ h₂
      omega
    · refine (List.perm_ext_iff_of_nodup ?_ ?_).mpr fun r => ?_
      · exact hinc'.imp fun h he => by subst he; exact Int.lt_irrefl _ h
      · exact hinc.imp fun h he => by subst he; exact Int.lt_irrefl _ h
      · rw [mem_feedRows, mem_feedRows]
        exact ⟨fun ⟨hr, hht, hlo, hhi⟩ => ⟨hback r hr hht hhi, hht, hlo, hhi⟩,
          fun ⟨hr, rest⟩ => ⟨hsub r hr, rest⟩⟩
  unfold changes
  rw [hrows]
  refine List.map_congr_left fun r hmem => ?_
  obtain ⟨hr', hht, -, -⟩ := mem_feedRows.mp (List.mem_of_mem_take hmem)
  exact change_final hi hr ⟨r, hr', hht, rfl⟩

/-- **Feed replay equals the live set.**  However the catalog moves while a consumer reads from
cursor 0, page by page and with any limits:

* whenever it stands at a head, what it has folded is the live set at the moment that head was
  read; and a page at that head that comes back empty means that it stands there;
* every part it was told to remove was added by an earlier event, and it is told so once;
* a page behind a published head is the same whenever it is read again. -/
theorem replay_is_live {m₀ m : Mirror} {ms : List MirrorMove} (hstart : m₀.Start)
    (hrun : Lts.run mirrorStep m₀ ms = some m) :
    (∀ H live, (H, live) ∈ m.marks →
      (m.pos = H → (replay m.events).Perm live) ∧
      (∀ limit, 1 ≤ limit → m.pos ≤ H →
        (feedRows m.db.tables m.hypertableId m.pos H).take limit = [] → m.pos = H)) ∧
    (∀ pre e post, m.events = pre ++ e :: post → ∀ i ∈ e.removed,
      ∃ e' ∈ pre, i ∈ e'.added.map Part.id) ∧
    (m.events.flatMap Change.removed).Nodup ∧
    ∀ db' H, (m.hypertableId, H) ∈ m.db.heads → Lts.Reaches step m.db db' →
      ∀ after limit, changes db'.tables m.hypertableId after H limit =
        changes m.db.tables m.hypertableId after H limit := by
  have hok : m.Ok := Lts.run_inv (fun _ _ _ hs h => mirror_step hs h) hrun hstart.ok
  have hs := hok.reach.inv.stored
  refine ⟨?_, ?_, hok.prefix.removed_once hs, ?_⟩
  · intro H live hmark
    obtain ⟨hH, hlive, hlast⟩ := hok.marks _ hmark
    refine ⟨fun hpos => ?_, ?_⟩
    · have hperm := hok.prefix.replay_perm hs hok.dated
      rw [← hok.pos, hpos] at hperm
      rw [show live = _ from hlive]
      exact hperm
    · intro limit hlimit hle hempty
      have hnone : feedRows m.db.tables m.hypertableId m.pos H = [] := by
        rcases List.take_eq_nil_iff.mp hempty with hzero | hnil
        · omega
        · exact hnil
      rcases hlast with hzero | ⟨r, hr, hht, hid⟩
      · have hzero' : H = 0 := hzero
        have hpos : 0 ≤ endOf m.events := by
          induction hev : m.events using List.reverseRecOn with
          | nil => exact Int.le_refl 0
          | append_singleton events e _ =>
            rw [endOf_concat]
            have hv := hok.prefix.visible e (by rw [hev]; simp)
            exact Int.le_of_lt (Dated.visible_pos hs hv)
        rw [← hok.pos] at hpos
        omega
      · by_contra hne
        have hid' : r.id = H := hid
        have hmem : r ∈ feedRows m.db.tables m.hypertableId m.pos H :=
          mem_feedRows.mpr ⟨hr, hht, by omega, by omega⟩
        rw [hnone] at hmem
        cases hmem
  · intro pre e post hsplit i hi
    exact hok.prefix.removed_earlier hs hok.dated hsplit hi
  · intro db' H hH hr after limit
    exact changes_final hok.reach.inv hH hr

/-- The statements of call `t`, and its COMMIT. -/
def mirrorLands (t n : Nat) : List MirrorMove :=
  List.replicate n (.catalog (.stmt t)) ++ [.catalog (.sendCommit t), .catalog (.commit t)]

def mirrored (path : String) : PartMeta := ⟨path, .null, 1, 1, 1, 1, 0, none⟩

/-- A head is read after an ADD; a REPLACE lands; only then is the page behind the head read. -/
def replacedMeanwhile : List MirrorMove :=
  .catalog (.begin (commit 1 (.add [mirrored "a"]) none)) :: mirrorLands 0 5 ++
    [.catalog (.lockBarrier 0 1), .catalog (.readHead 0), .catalog (.unlockBarrier 0)] ++
    .catalog (.begin (commit 1 (.replace [1] [mirrored "b"]) none)) :: mirrorLands 1 6 ++
    [.page 1 10, .added, .removed]

/-- The mirror shows the part that was live at the head, which by now is gone. -/
theorem replay_is_live_replaced :
    ∃ m, Lts.run mirrorStep { hypertableId := 1 } replacedMeanwhile = some m ∧
      (replay m.events).Perm [⟨1, 1, mirrored "a", 1⟩] ∧
      livePartsOf m.db.tables 1 = [⟨2, 1, mirrored "b", 2⟩] := by
  have hobs : ∃ m ∈ Lts.run mirrorStep { hypertableId := 1 } replacedMeanwhile,
      m.marks = [(1, [⟨1, 1, mirrored "a", 1⟩])] ∧ m.pos = 1 ∧
      livePartsOf m.db.tables 1 = [⟨2, 1, mirrored "b", 2⟩] := by decide +kernel
  obtain ⟨m, hrun, hmarks, hpos, hlive⟩ := hobs
  obtain ⟨hmirror, -, -, -⟩ := replay_is_live (mirror_start 1) hrun
  have hmark := hmirror 1 [⟨1, 1, mirrored "a", 1⟩] (by rw [hmarks]; exact List.mem_singleton_self _)
  exact ⟨m, hrun, hmark.1 hpos, hlive⟩

end Ukiel.Catalog
