/-
# The lifetime of a part

A part is born of one commit and dies of at most one later commit.  "Later" is a statement about
commit ids, which are drawn before commit order is known; it holds because a client names only
parts it has read from the catalog, and a transaction draws its id after it begins (`Past`).

§1 states it (`Dated`), §2 keeps it across every event whose calls name only parts there are.
-/
import Ukiel.Catalog.Feed
import Ukiel.Catalog.Offsets

namespace Ukiel.Catalog

variable {db db' : Db}

/-! ## 1. Births and deaths -/

/-- The call's old parts have been read from the catalog. -/
def Names (T : Tables) (c : Call) : Prop := ∀ i ∈ c.op.oldParts, ∃ p ∈ T.parts, p.id = i

instance (T : Tables) (c : Call) : Decidable (Names T c) := by unfold Names; infer_instance

/-- An event whose call, if it begins one, names only parts that are there. -/
def Informed (db : Db) : Event → Prop
  | .begin c => Names db.tables c
  | _ => True

instance (db : Db) (e : Event) : Decidable (Informed db e) := by
  rcases e <;> unfold Informed <;> infer_instance

/-- **Every part is born of a commit of its hypertable and dies, if it does, of a later one.** -/
structure Dated (db : Db) : Prop where
  born : ∀ p ∈ db.tables.parts, Visible db.tables p.hypertableId p.createdByCommit
  died : ∀ p ∈ db.tables.parts, ∀ d, p.deletedByCommit = some d →
    Visible db.tables p.hypertableId d ∧ p.createdByCommit < d
  /-- An open call will die later than what it names was born. -/
  named : ∀ t τ, db.txns.lookup t = some τ → ∀ p ∈ db.tables.parts,
    p.id ∈ τ.call.op.oldParts → Past db p.createdByCommit τ
  known : ∀ t τ, db.txns.lookup t = some τ → Names db.tables τ.call

theorem dated_empty : Dated {} where
  born p hp := by cases hp
  died p hp := by cases hp
  named t τ hτ := by cases hτ
  known t τ hτ := by cases hτ

theorem Dated.born_lt (h : Dated db) (hs : Stored db) {p : PartRow} (hp : p ∈ db.tables.parts) :
    p.createdByCommit < db.commitSeq := by
  obtain ⟨r, hr, -, hid⟩ := h.born p hp
  exact hid ▸ hs.commit_lt r hr

/-! ## 2. Every event keeps it -/

/-- The old parts of a commit were live parts of its hypertable. -/
theorem Applied.old_row {T T' : Tables} {c : Call} {id : Int} (happ : Applied T c id T')
    (hnd : (T.parts.map PartRow.id).Nodup) {p : PartRow} (hp : p ∈ T.parts)
    (hold : p.id ∈ c.op.oldParts) : p.hypertableId = c.hypertableId ∧ p.deletedByCommit = none := by
  obtain ⟨-, hmatched⟩ := (List.length_filter_key_eq_iff hnd).mp happ.old_matched
  obtain ⟨q, hq, hid, hht, hdel⟩ := hmatched p.id hold
  rw [List.inj_on_of_nodup_map hnd hq hp hid] at hht hdel
  exact ⟨hht, hdel⟩

/-- What a commit makes of the parts: the named ones die of it, the others stay as they are, and
the new ones are born of it. -/
theorem Applied.part_cases {T T' : Tables} {c : Call} {id : Int} (happ : Applied T c id T')
    {p' : PartRow} (hp' : p' ∈ T'.parts) :
    (∃ p ∈ T.parts, p.id ∈ c.op.oldParts ∧ p' = { p with deletedByCommit := some id }) ∨
      (p' ∈ T.parts ∧ p'.id ∉ c.op.oldParts) ∨
      (p'.hypertableId = c.hypertableId ∧ p'.createdByCommit = id ∧ p'.deletedByCommit = none ∧
        p'.partMeta ∈ c.op.newParts) := by
  obtain ⟨rows, hparts, hnew⟩ := happ.parts
  rw [hparts] at hp'
  rcases List.mem_append.mp hp' with hold | hrow
  · obtain ⟨p, hp, rfl⟩ := List.mem_map.mp hold
    split
    · rename_i hin
      exact Or.inl ⟨p, hp, hin, rfl⟩
    · rename_i hout
      exact Or.inr (Or.inl ⟨hp, hout⟩)
  · obtain ⟨hht, hborn, hdel, -⟩ := hnew.row p' hrow
    refine Or.inr (Or.inr ⟨hht, hborn, hdel, ?_⟩)
    rw [← hnew.metas]
    exact List.mem_map_of_mem hrow

/-- Asides touch no more of a part than its purge stamp. -/
theorem Aside.part_cases {T T' : Tables} (h : Aside T T') {p' : PartRow} (hp' : p' ∈ T'.parts) :
    ∃ p ∈ T.parts, p' = { p with purgedAt := p'.purgedAt } := by
  obtain ⟨f, hparts, hf⟩ := h.parts
  rw [hparts] at hp'
  obtain ⟨p, hp, rfl⟩ := List.mem_map.mp hp'
  exact ⟨p, hp, hf p⟩

/-- **Where the part rows of the next state come from**: a row that was there (perhaps stamped),
a live row that dies of the commit that has just landed, or a row born of it. -/
theorem step_part_cases {e : Event} (hi : Inv db) (hs : step db e = some db') {p' : PartRow}
    (hp' : p' ∈ db'.tables.parts) :
    (∃ p ∈ db.tables.parts, p' = { p with purgedAt := p'.purgedAt }) ∨
    (∃ t τ id, e = .commit t ∧ db.txns.lookup t = some τ ∧ τ.w.cid = some id ∧
      Visible db'.tables τ.call.hypertableId id ∧
      ((∃ p ∈ db.tables.parts, p.id ∈ τ.call.op.oldParts ∧ p.deletedByCommit = none ∧
          p.hypertableId = τ.call.hypertableId ∧ p' = { p with deletedByCommit := some id }) ∨
        (p'.hypertableId = τ.call.hypertableId ∧ p'.createdByCommit = id ∧
          p'.deletedByCommit = none ∧ p'.partMeta ∈ τ.call.op.newParts))) := by
  rcases step_tables hi hs with ⟨t, τ, id, he, hlook, hcid, happ, -, -, -⟩ | ⟨-, -, hside⟩
  · have hcommits : Visible db'.tables τ.call.hypertableId id := by
      obtain ⟨at', hc⟩ := happ.commits
      refine ⟨τ.call.commitRow id at', ?_, rfl, rfl⟩
      rw [hc]
      exact List.mem_append_right _ (List.mem_singleton_self _)
    rcases happ.part_cases hp' with ⟨p, hp, hold, rfl⟩ | ⟨hp, -⟩ | hborn
    · obtain ⟨hht, hdel⟩ := happ.old_row hi.stored.part_nodup hp hold
      exact Or.inr ⟨t, τ, id, he, hlook, hcid, hcommits, Or.inl ⟨p, hp, hold, hdel, hht, rfl⟩⟩
    · exact Or.inl ⟨p', hp, rfl⟩
    · exact Or.inr ⟨t, τ, id, he, hlook, hcid, hcommits, Or.inr hborn⟩
  · exact Or.inl (hside.part_cases hp')

theorem Names.mono {e : Event} {c : Call} (h : Names db.tables c) (hi : Inv db)
    (hs : step db e = some db') : Names db'.tables c := by
  intro i hmem
  obtain ⟨p, hp, rfl⟩ := h i hmem
  obtain ⟨p', hp', hid, -⟩ := step_part hi hs hp
  exact ⟨p', hp', hid⟩

/-- A part with the id of an older one is the older one, as it is now. -/
theorem step_part_same {e : Event} (hi : Inv db) (hi' : Inv db') (hs : step db e = some db')
    {p p' : PartRow} (hp : p ∈ db.tables.parts) (hp' : p' ∈ db'.tables.parts)
    (hid : p'.id = p.id) : p'.createdByCommit = p.createdByCommit := by
  have hkept : ∃ q ∈ db'.tables.parts, q.id = p.id ∧ q.createdByCommit = p.createdByCommit := by
    rcases step_tables hi hs with ⟨t, τ, id, -, -, -, happ, -, -, -⟩ | ⟨-, -, hside⟩
    · obtain ⟨rows, hparts, -⟩ := happ.parts
      refine ⟨_, by rw [hparts]; exact List.mem_append_left _ (List.mem_map_of_mem hp), ?_⟩
      split <;> exact ⟨rfl, rfl⟩
    · obtain ⟨f, hparts, hf⟩ := hside.parts
      refine ⟨f p, by rw [hparts]; exact List.mem_map_of_mem hp, ?_⟩
      rw [hf p]
      exact ⟨rfl, rfl⟩
  obtain ⟨q, hq, hqid, hqborn⟩ := hkept
  rw [List.inj_on_of_nodup_map hi'.stored.part_nodup hp' hq (hid.trans hqid.symm)]
  exact hqborn

theorem Dated.step {e : Event} (h : Dated db) (hi : Inv db) (hs : Catalog.step db e = some db')
    (he : Informed db e) : Dated db' := by
  have hi' : Inv db' := inv_step hs hi
  have hknown : ∀ t τ, db'.txns.lookup t = some τ → Names db'.tables τ.call := by
    intro t τ hlook
    rcases step_call hs hlook with ⟨τ₀, hl₀, hcall⟩ | ⟨rfl, -⟩
    · rw [hcall]
      exact (h.known t τ₀ hl₀).mono hi hs
    · have hnames : Names db.tables τ.call := he
      exact hnames.mono hi hs
  refine ⟨?_, ?_, ?_, hknown⟩
  · intro p' hp'
    rcases step_part_cases hi hs hp' with
      ⟨p, hp, heq⟩ | ⟨t, τ, id, -, -, -, hc, ⟨p, hp, -, -, -, rfl⟩ | ⟨hht, hborn, -, -⟩⟩
    · rw [heq]
      exact Visible.mono hi hs (h.born p hp)
    · exact Visible.mono hi hs (h.born p hp)
    · rw [hht, hborn]
      exact hc
  · intro p' hp' d hd
    rcases step_part_cases hi hs hp' with
      ⟨p, hp, heq⟩ | ⟨t, τ, id, -, hlook, hcid, hc, ⟨p, hp, hold, -, hht, rfl⟩ | ⟨-, -, hlive, -⟩⟩
    · rw [heq] at hd ⊢
      obtain ⟨hdies, hlt⟩ := h.died p hp d hd
      exact ⟨Visible.mono hi hs hdies, hlt⟩
    · cases hd
      exact ⟨hht ▸ hc, (h.named t τ hlook p hp hold).2 _ hcid⟩
    · rw [hlive] at hd
      cases hd
  · intro t τ' hlook' p' hp' hold
    rcases step_call hs hlook' with ⟨τ, hlook, hcall⟩ | ⟨rfl, ht⟩
    · -- The call named parts that existed already, so the row is an old one.
      rw [hcall] at hold
      obtain ⟨p, hp, hid⟩ := h.known t τ hlook p'.id hold
      rw [step_part_same hi hi' hs hp hp' hid.symm]
      exact (h.named t τ hlook p hp (hid ▸ hold)).step hs hi hlook hlook'
    · -- The transaction is new: it has drawn no id yet.
      have hnames : Names db.tables τ'.call := he
      obtain ⟨p, hp, hid⟩ := hnames p'.id hold
      rw [step_part_same hi hi' hs hp hp' hid.symm]
      refine ⟨Int.lt_of_lt_of_le (h.born_lt hi.stored hp) (step_commitSeq hs), ?_⟩
      intro id hcid
      rcases step_txn hs hlook' with
        ⟨τ, hlook, -, -⟩ | ⟨c, -, -, rfl⟩ | ⟨τ, s, rest, w, he', -⟩
      · exact absurd ht (Nat.ne_of_lt (hi.txn_lt t τ hlook))
      · cases hcid
      · cases he'

/-- The dead stay as they are, but for their purge stamp. -/
theorem step_part_dead {e : Event} (hi : Inv db) (hs : Catalog.step db e = some db') {p : PartRow}
    (hp : p ∈ db.tables.parts) {d : Int} (hd : p.deletedByCommit = some d) :
    ∃ p' ∈ db'.tables.parts, p = { p' with purgedAt := p.purgedAt } := by
  rcases step_tables hi hs with ⟨t, τ, id, -, -, -, happ, -, -, -⟩ | ⟨-, -, hside⟩
  · obtain ⟨rows, hparts, -⟩ := happ.parts
    have hout : p.id ∉ τ.call.op.oldParts := by
      intro hin
      rw [(happ.old_row hi.stored.part_nodup hp hin).2] at hd
      cases hd
    refine ⟨p, ?_, rfl⟩
    rw [hparts]
    refine List.mem_append_left _ (List.mem_map.mpr ⟨p, hp, ?_⟩)
    rw [if_neg hout]
  · obtain ⟨f, hparts, hf⟩ := hside.parts
    refine ⟨f p, by rw [hparts]; exact List.mem_map_of_mem hp, ?_⟩
    rw [hf p]

end Ukiel.Catalog
