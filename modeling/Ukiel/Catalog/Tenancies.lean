/-
# Tenancies of a partition

`leases.rs` over whole runs.  A TENANCY begins with the acquisition that takes a free or an
expired row and keeps its (owner, generation) until the row is released or taken over; the
machine keeps a record of every one.  §1 is the invariant that ties the record to the lease
table; §2 shows that events keep it; §3 follows a leased commit back to the statement that
judged its lease; §4 is the fencing theorem and §5 the question whether generations ORDER the
tenancies of a partition.
-/
import Ukiel.Catalog.Calls

namespace Ukiel.Catalog

variable {db db' : Db}

/-! ## 1. The record and the table -/

/-- The tenancy is unreleased and unexpired. -/
def Db.Live (db : Db) (x : Tenancy) : Prop := x.released = false ∧ db.clock < x.expiresAt

/-- **The record agrees with the table**: generations are drawn once, in the order of the
statements that draw them; every row is a tenancy, and every live tenancy is its row. -/
structure LeaseInv (db : Db) : Prop where
  claim_gen : ∀ k cl, db.claims.lookup k = some cl →
    k < db.nextClaim ∧ cl.generation = k + (db.generationSeq - db.nextClaim) ∧
      ∀ x ∈ db.tenancies, x.stmt ≠ k
  tenancy_gen : ∀ x ∈ db.tenancies,
    x.stmt < db.nextClaim ∧ x.generation = x.stmt + (db.generationSeq - db.nextClaim)
  nodup : (db.tenancies.map Tenancy.generation).Nodup
  row : ∀ key r, db.tables.compactionLeases key = some r → ∃ x ∈ db.tenancies, x.key = key ∧
    x.ownerId = r.ownerId ∧ x.generation = r.generation ∧ x.expiresAt = r.expiresAt ∧
      x.released = false
  live : ∀ x ∈ db.tenancies, db.Live x → ∃ r, db.tables.compactionLeases x.key = some r ∧
    r.ownerId = x.ownerId ∧ r.generation = x.generation

theorem eq_of_generation (h : LeaseInv db) {x y : Tenancy} (hx : x ∈ db.tenancies)
    (hy : y ∈ db.tenancies) (he : x.generation = y.generation) : x = y :=
  List.inj_on_of_nodup_map h.nodup hx hy he

/-- At most one tenancy of a partition is live. -/
theorem live_unique (h : LeaseInv db) {x y : Tenancy} (hx : x ∈ db.tenancies)
    (hy : y ∈ db.tenancies) (hk : x.key = y.key) (hlx : db.Live x) (hly : db.Live y) : x = y := by
  obtain ⟨r, hr, -, hgx⟩ := h.live x hx hlx
  obtain ⟨r', hr', -, hgy⟩ := h.live y hy hly
  rw [hk, hr', Option.some.injEq] at hr
  subst hr
  exact eq_of_generation h hx hy (hgx.symm.trans hgy)

/-! ## 2. Every event keeps it -/

theorem LeaseInv.congr (h : LeaseInv db) (hc : db'.claims = db.claims)
    (ht : db'.tenancies = db.tenancies)
    (hl : db'.tables.compactionLeases = db.tables.compactionLeases)
    (hg : db'.generationSeq = db.generationSeq) (hn : db'.nextClaim = db.nextClaim)
    (hclock : db.clock ≤ db'.clock) : LeaseInv db' where
  claim_gen := by rw [hc, ht, hg, hn]; exact h.claim_gen
  tenancy_gen := by rw [ht, hg, hn]; exact h.tenancy_gen
  nodup := by rw [ht]; exact h.nodup
  row := by rw [hl, ht]; exact h.row
  live := by
    rw [hl, ht]
    intro x hx hlive
    exact h.live x hx ⟨hlive.1, Int.lt_of_le_of_lt hclock hlive.2⟩

theorem leaseInv_draw {key : LeaseKey} {owner : Uuid} {expiresAt : Int} (h : LeaseInv db) :
    LeaseInv { db with
      claims := db.claims.insert db.nextClaim ⟨key, owner, db.generationSeq, expiresAt⟩
      nextClaim := db.nextClaim + 1
      generationSeq := db.generationSeq + 1 } where
  claim_gen k cl hk := by
    dsimp only at hk ⊢
    by_cases hkn : k = db.nextClaim
    · subst hkn
      rw [AList.lookup_insert, Option.some.injEq] at hk
      subst hk
      refine ⟨Nat.lt_succ_self _, by dsimp only; omega, ?_⟩
      intro x hx he
      have := (h.tenancy_gen x hx).1
      omega
    · rw [AList.lookup_insert_ne hkn] at hk
      obtain ⟨hlt, hgen, hx⟩ := h.claim_gen k cl hk
      exact ⟨by omega, by omega, hx⟩
  tenancy_gen x hx := by
    obtain ⟨hlt, hgen⟩ := h.tenancy_gen x hx
    dsimp only
    exact ⟨by omega, by omega⟩
  nodup := h.nodup
  row := h.row
  live := h.live

/-- Another key's row is not touched. -/
theorem update_row_cases {f : LeaseKey → Option LeaseRow} {k key : LeaseKey}
    {row : Option LeaseRow} {r : LeaseRow} (h : Function.update f k row key = some r) :
    (key = k ∧ row = some r) ∨ (key ≠ k ∧ f key = some r) := by
  by_cases hk : key = k
  · subst hk
    rw [Function.update_self] at h
    exact Or.inl ⟨rfl, h⟩
  · rw [Function.update_of_ne hk] at h
    exact Or.inr ⟨hk, h⟩

/-- A new tenancy over a free or an expired row. -/
theorem leaseInv_take {k : Nat} {cl : Claim} (h : LeaseInv db)
    (hcl : db.claims.lookup k = some cl)
    (hfree : ∀ r, db.tables.compactionLeases cl.key = some r → r.expiresAt ≤ db.clock) :
    LeaseInv { ({ db with claims := db.claims.erase k } : Db).setLease cl.key
        (some ⟨cl.ownerId, cl.generation, cl.expiresAt⟩) with
      tenancies := db.tenancies ++ [⟨cl.key, cl.ownerId, cl.generation, k, cl.expiresAt, false⟩] } := by
  obtain ⟨hlt, hgen, hnew⟩ := h.claim_gen k cl hcl
  have hfresh : ∀ x ∈ db.tenancies, x.generation ≠ cl.generation := by
    intro x hx he
    have := (h.tenancy_gen x hx).2
    exact hnew x hx (by omega)
  refine ⟨?_, ?_, ?_, ?_, ?_⟩
  · intro k' cl' hk'
    have hne : k' ≠ k := by
      rintro rfl
      simp [Db.setLease] at hk'
    have hold : db.claims.lookup k' = some cl' := by
      simpa [Db.setLease, AList.lookup_erase_ne hne] using hk'
    obtain ⟨hlt', hgen', hnew'⟩ := h.claim_gen k' cl' hold
    refine ⟨hlt', hgen', ?_⟩
    intro x hx
    rcases List.mem_append.mp hx with hx | hx
    · exact hnew' x hx
    · rw [List.mem_singleton.mp hx]
      exact hne.symm
  · intro x hx
    rcases List.mem_append.mp hx with hx | hx
    · exact h.tenancy_gen x hx
    · rw [List.mem_singleton.mp hx]
      exact ⟨hlt, hgen⟩
  · dsimp only
    rw [List.map_append, List.map_cons, List.map_nil]
    refine List.nodup_append.mpr ⟨h.nodup, List.nodup_singleton _, ?_⟩
    intro g hg g' hg'
    obtain ⟨x, hx, rfl⟩ := List.mem_map.mp hg
    rw [List.mem_singleton.mp hg']
    exact hfresh x hx
  · intro key r hr
    rcases update_row_cases hr with ⟨rfl, he⟩ | ⟨-, hr⟩
    · cases he
      exact ⟨_, List.mem_append_right _ (List.mem_singleton_self _), rfl, rfl, rfl, rfl, rfl⟩
    · obtain ⟨x, hx, hrest⟩ := h.row key r hr
      exact ⟨x, List.mem_append_left _ hx, hrest⟩
  · intro x hx hlive
    rcases List.mem_append.mp hx with hx | hx
    · obtain ⟨r, hr, ho, hg⟩ := h.live x hx hlive
      by_cases hk : x.key = cl.key
      · -- the row it held has expired, and so has the tenancy
        rw [hk] at hr
        obtain ⟨y, hy, -, -, hgy, hey, -⟩ := h.row cl.key r hr
        have hxy := eq_of_generation h hx hy (hg.symm.trans hgy.symm)
        have hexp := hfree r hr
        have hl2 : db.clock < x.expiresAt := hlive.2
        rw [hxy, hey] at hl2
        omega
      · refine ⟨r, ?_, ho, hg⟩
        exact (Function.update_of_ne hk _ _).trans hr
    · rw [List.mem_singleton.mp hx]
      exact ⟨_, Function.update_self _ _ _, rfl, rfl⟩

/-- The owner's row is extended or deleted, and its tenancy follows. -/
theorem leaseInv_follow {key : LeaseKey} {r₀ : LeaseRow} {row : Option LeaseRow} {g : Int}
    {f : Tenancy → Tenancy} (h : LeaseInv db)
    (hr₀ : db.tables.compactionLeases key = some r₀) (hg : r₀.generation = g)
    (hf : ∀ x, (f x).key = x.key ∧ (f x).ownerId = x.ownerId ∧
      (f x).generation = x.generation ∧ (f x).stmt = x.stmt)
    (hsome : ∀ r, row = some r → r.ownerId = r₀.ownerId ∧ r.generation = r₀.generation ∧
      ∀ x, (f x).expiresAt = r.expiresAt ∧ (f x).released = x.released)
    (hnone : row = none → ∀ x, (f x).released = true) :
    LeaseInv ((db.setLease key row).onTenancy g f) := by
  subst hg
  obtain ⟨x₀, hx₀, hkey₀, hown₀, hgen₀, -, hrel₀⟩ := h.row key r₀ hr₀
  -- the updated record keeps everything but the expiry and the release
  have hmem : ∀ y ∈ ((db.setLease key row).onTenancy r₀.generation f).tenancies,
      ∃ x ∈ db.tenancies, y.key = x.key ∧ y.ownerId = x.ownerId ∧
        y.generation = x.generation ∧ y.stmt = x.stmt ∧
        y = if x.generation = r₀.generation then f x else x := by
    intro y hy
    obtain ⟨x, hx, rfl⟩ := List.mem_map.mp hy
    refine ⟨x, hx, ?_⟩
    split
    · exact ⟨(hf x).1, (hf x).2.1, (hf x).2.2.1, (hf x).2.2.2, rfl⟩
    · exact ⟨rfl, rfl, rfl, rfl, rfl⟩
  have hback : ∀ x ∈ db.tenancies, (if x.generation = r₀.generation then f x else x) ∈
      ((db.setLease key row).onTenancy r₀.generation f).tenancies :=
    fun x hx => List.mem_map_of_mem hx
  have hother : ∀ x ∈ db.tenancies, x.key ≠ key → x.generation ≠ r₀.generation := by
    intro x hx hk hg
    rw [eq_of_generation h hx hx₀ (hg.trans hgen₀.symm)] at hk
    exact hk hkey₀
  refine ⟨?_, ?_, ?_, ?_, ?_⟩
  · intro k cl hk
    obtain ⟨hlt, hgen, hnew⟩ := h.claim_gen k cl hk
    refine ⟨hlt, hgen, ?_⟩
    intro y hy
    obtain ⟨x, hx, -, -, -, hstmt, -⟩ := hmem y hy
    rw [hstmt]
    exact hnew x hx
  · intro y hy
    obtain ⟨x, hx, -, -, hgen, hstmt, -⟩ := hmem y hy
    rw [hstmt, hgen]
    exact h.tenancy_gen x hx
  · have hmap : ((db.setLease key row).onTenancy r₀.generation f).tenancies.map
        Tenancy.generation = db.tenancies.map Tenancy.generation := by
      simp only [Db.onTenancy, List.map_map]
      refine List.map_congr_left ?_
      intro x _
      simp only [Function.comp_apply]
      split
      · exact (hf x).2.2.1
      · rfl
    rw [hmap]
    exact h.nodup
  · intro key' r hr
    rcases update_row_cases hr with ⟨rfl, he⟩ | ⟨hk, hr⟩
    · obtain ⟨ho, hg, hx⟩ := hsome r he
      refine ⟨_, hback x₀ hx₀, ?_⟩
      rw [if_pos hgen₀]
      obtain ⟨h₁, h₂, h₃, -⟩ := hf x₀
      exact ⟨h₁.trans hkey₀, h₂.trans (hown₀.trans ho.symm), h₃.trans (hgen₀.trans hg.symm),
        (hx x₀).1, (hx x₀).2.trans hrel₀⟩
    · obtain ⟨x, hx, hxk, hrest⟩ := h.row key' r hr
      refine ⟨_, hback x hx, ?_⟩
      rw [if_neg (hother x hx (by rw [hxk]; exact hk))]
      exact ⟨hxk, hrest⟩
  · intro y hy hlive
    obtain ⟨x, hx, hyk, hyo, hyg, -, hye⟩ := hmem y hy
    by_cases hg : x.generation = r₀.generation
    · -- the tenancy of the row itself: it is live only if the row was extended
      rw [if_pos hg] at hye
      obtain rfl := eq_of_generation h hx hx₀ (hg.trans hgen₀.symm)
      cases hrow : row with
      | none =>
        have hrel := hnone hrow x
        rw [hye] at hlive
        exact absurd hlive.1 (by rw [hrel]; simp)
      | some r =>
        obtain ⟨ho, hg', -⟩ := hsome r hrow
        refine ⟨r, ?_, by rw [hyo, hown₀, ho], by rw [hyg, hgen₀, hg']⟩
        rw [hyk, hkey₀]
        exact Function.update_self _ _ _
    · rw [if_neg hg] at hye
      subst hye
      obtain ⟨r, hr, ho, hgr⟩ := h.live y hx hlive
      refine ⟨r, ?_, ho, hgr⟩
      have hk : y.key ≠ key := by
        intro hk
        rw [hk, hr₀, Option.some.injEq] at hr
        subst hr
        exact hg hgr.symm
      exact (Function.update_of_ne hk _ _).trans hr

theorem leaseInv_install {k : Nat} {cl : Claim} (h : LeaseInv db)
    (hcl : db.claims.lookup k = some cl) : LeaseInv (db.installLease k cl) := by
  have herase : LeaseInv { db with claims := db.claims.erase k } := by
    refine ⟨?_, h.tenancy_gen, h.nodup, h.row, h.live⟩
    intro k' cl' hk'
    by_cases hne : k' = k
    · subst hne
      simp at hk'
    · exact h.claim_gen k' cl' ((AList.lookup_erase_ne hne).symm.trans hk')
  unfold Db.installLease
  split
  · exact herase
  · rename_i row hrow
    dsimp only
    obtain ⟨r₀, hr₀, -, -, rfl⟩ | ⟨hfree, rfl⟩ := tryAcquire_cases hrow
    · obtain ⟨x, hx, -, -, hgx, -⟩ := h.row cl.key r₀ hr₀
      have hne : r₀.generation ≠ cl.generation := by
        intro he
        have h₁ := (h.claim_gen k cl hcl).2
        have h₂ := (h.tenancy_gen x hx).2
        exact h₁.2 x hx (by omega)
      rw [if_neg hne]
      refine leaseInv_follow herase hr₀ rfl (fun _ => ⟨rfl, rfl, rfl, rfl⟩) ?_ (by simp)
      rintro r ⟨rfl⟩
      exact ⟨rfl, rfl, fun _ => ⟨rfl, rfl⟩⟩
    · rw [if_pos rfl]
      exact leaseInv_take h hcl hfree

/-- **Every event keeps the record and the table together.** -/
theorem leaseInv_step {e : Event} (hs : step db e = some db') (h : LeaseInv db) :
    LeaseInv db' := by
  cases e with
  | drawLease key owner ttl =>
    simp only [step] at hs
    split at hs
    · cases hs
    · cases hs
      exact leaseInv_draw h
  | installLease k =>
    simp only [step] at hs
    split at hs
    · cases hs
    · rename_i cl hcl
      split at hs
      · cases hs
        exact leaseInv_install h hcl
      · cases hs
  | renewLease lease ttl =>
    simp only [step] at hs
    split at hs
    · cases hs
    · split at hs
      · split at hs
        · cases hs
          exact h
        · rename_i row hrow
          cases hs
          obtain ⟨r₀, hr₀, -, -, -, rfl⟩ := renew_cases hrow
          refine leaseInv_follow h hr₀ rfl (fun _ => ⟨rfl, rfl, rfl, rfl⟩) ?_ (by simp)
          rintro r ⟨rfl⟩
          exact ⟨rfl, rfl, fun _ => ⟨rfl, rfl⟩⟩
      · cases hs
  | releaseLease lease =>
    simp only [step] at hs
    split at hs
    · split at hs
      · rename_i hrel
        cases hs
        obtain ⟨r₀, hr₀, -, hg⟩ := release_cases hrel
        exact leaseInv_follow h hr₀ hg (fun _ => ⟨rfl, rfl, rfl, rfl⟩) (by simp) (fun _ _ => rfl)
      · cases hs
        exact h
    · cases hs
  | tick now =>
    simp only [step] at hs
    split at hs
    · rename_i hle
      cases hs
      exact h.congr rfl rfl rfl rfl rfl hle
    · cases hs
  | stmt t =>
    obtain ⟨τ, s, rest, -, -, -, -, rfl⟩ := step_stmt hs
    obtain ⟨xs, rs, c, p, he⟩ := runStmt_eq db t τ s rest
    rw [he]
    exact h.congr rfl rfl rfl rfl rfl (Int.le_refl _)
  | rollback t f =>
    obtain ⟨τ, -, rfl⟩ := step_rollback hs
    obtain ⟨rs, he⟩ := replyOnce_eq db t (.error (if τ.sent = true then
      ambiguousOrDefinite τ.call.identity f else .db f))
    rw [he]
    exact h.congr rfl rfl rfl rfl rfl (Int.le_refl _)
  | abandon t f =>
    obtain ⟨τ, -, -, -, rfl⟩ := step_abandon hs
    obtain ⟨rs, he⟩ := replyOnce_eq db t (.error (.db f))
    rw [he]
    exact h.congr rfl rfl rfl rfl rfl (Int.le_refl _)
  | lost t =>
    obtain ⟨c, -, rfl⟩ := step_lost hs
    obtain ⟨rs, he⟩ := replyOnce_eq db t (.error (ambiguousOrDefinite c.identity .transport))
    rw [he]
    exact h.congr rfl rfl rfl rfl rfl (Int.le_refl _)
  | ack t =>
    obtain ⟨x, -, -, rfl⟩ := step_ack hs
    obtain ⟨rs, he⟩ := replyOnce_eq db t (.ok (.committed x.id))
    rw [he]
    exact h.congr rfl rfl rfl rfl rfl (Int.le_refl _)
  | setCursor worker k cursor =>
    simp only [step] at hs
    cases hs
    unfold setCursor
    split
    · split <;> exact h.congr rfl rfl rfl rfl rfl (Int.le_refl _)
    · exact h.congr rfl rfl rfl rfl rfl (Int.le_refl _)
  | begin _ | sendCommit _ | commit _ | lockBarrier _ _ | readHead _ | unlockBarrier _
  | registerPending _ _ | clearPending _ | markPurged _ =>
    simp only [step] at hs
    repeat' split at hs
    all_goals cases hs
    all_goals exact h.congr rfl rfl rfl rfl rfl (Int.le_refl _)

theorem Initial.leaseInv (h : Initial db) : LeaseInv db where
  claim_gen k cl hk := by rw [h.claims] at hk; cases hk
  tenancy_gen x hx := by rw [h.tenancies] at hx; cases hx
  nodup := by rw [h.tenancies]; exact List.nodup_nil
  row key r hr := by rw [h.leases] at hr; cases hr
  live x hx := by rw [h.tenancies] at hx; cases hx

/-! ## 3. The fence of a leased commit -/

/-- In this run the statement that judges the call's lease ran, and it found the call's
(owner, generation) to be the partition's live tenancy. -/
def FencedIn (db₀ : Db) (es : List Event) (t : Nat) (c : Call) (lease : CompactionLease) : Prop :=
  ∃ pre post db₁ τ rest, es = pre ++ .stmt t :: post ∧ Lts.run step db₀ pre = some db₁ ∧
    db₁.txns.lookup t = some τ ∧ τ.call = c ∧ τ.rest = .lockLease lease :: rest ∧
    ∃ x ∈ db₁.tenancies, x.key = ⟨c.hypertableId, lease.partitionValues⟩ ∧
      x.ownerId = lease.ownerId ∧ x.generation = lease.generation ∧ db₁.Live x

theorem FencedIn.snoc {db₀ : Db} {es : List Event} {t : Nat} {c : Call}
    {lease : CompactionLease} (h : FencedIn db₀ es t c lease) (e : Event) :
    FencedIn db₀ (es ++ [e]) t c lease := by
  obtain ⟨pre, post, db₁, τ, rest, rfl, hrest⟩ := h
  exact ⟨pre, post ++ [e], db₁, τ, rest, by simp, hrest⟩

/-- Every input and every output of the call lies in the leased hypertable and partition. -/
def InLease (T : Tables) (c : Call) (lease : CompactionLease) : Prop :=
  c.hypertableId = lease.hypertableId ∧ ∃ old new, c.op = .replace old new ∧
    (∀ p ∈ new, p.partitionValues = lease.partitionValues) ∧
    ∀ i ∈ old, ∃ p ∈ T.parts, p.id = i ∧ p.hypertableId = lease.hypertableId ∧
      p.partMeta.partitionValues = lease.partitionValues

theorem InLease.mono {e : Event} {c : Call} {lease : CompactionLease} (hi : Inv db)
    (hs : step db e = some db') (h : InLease db.tables c lease) : InLease db'.tables c lease := by
  obtain ⟨hht, old, new, hop, hnew, hold⟩ := h
  refine ⟨hht, old, new, hop, hnew, ?_⟩
  intro i hmem
  obtain ⟨p, hp, hid, hph, hpv⟩ := hold i hmem
  obtain ⟨p', hp', hid', hph', hm⟩ := step_part hi hs hp
  exact ⟨p', hp', hid'.trans hid, hph'.trans hph, by rw [hm]; exact hpv⟩

theorem Fenced.inLease {T : Tables} {c : Call} {lease : CompactionLease} {now : Int}
    (hnd : (T.parts.map PartRow.id).Nodup) (h : Fenced T c lease now) : InLease T c lease := by
  obtain ⟨old, new, hop, hnew, hin⟩ := h.replace
  refine ⟨h.hypertable, old, new, hop, hnew, ?_⟩
  intro i hmem
  obtain ⟨p, hp, hid, hph, hpv⟩ := ((List.length_filter_key_eq_iff hnd).mp hin).2 i hmem
  exact ⟨p, hp, hid, hph.trans h.hypertable, hpv⟩

/-- The lease a plan judges is the call's. -/
theorem plan_lockLease {c : Call} {lease : CompactionLease} {pre post : List Stmt}
    (h : pre ++ .lockLease lease :: post = plan c) : c.lease = some lease := by
  have hmem : Stmt.lockLease lease ∈ plan c := by rw [← h]; simp
  unfold plan leasePlan opPlan insertParts at hmem
  cases hl : c.lease with
  | none => cases hop : c.op <;> simp [hl, hop] at hmem
  | some lease' =>
    have he : lease = lease' := by cases hop : c.op <;> simpa [hl, hop] using hmem
    rw [he]

/-- What is true of the leases of open and of durable calls after the events so far. -/
structure FenceInv (db₀ : Db) (es : List Event) (db : Db) : Prop where
  inv : Inv db
  leases : LeaseInv db
  opened : ∀ t τ lease, db.txns.lookup t = some τ → τ.call.lease = some lease →
    τ.w.leaseLocks ≠ [] → FencedIn db₀ es t τ.call lease
  durable : ∀ x ∈ db.history, ∀ lease, x.call.lease = some lease →
    FencedIn db₀ es x.txn x.call lease ∧ InLease db.tables x.call lease

theorem fenceInv_step {db₀ : Db} {es : List Event} {e : Event} (hr : Lts.run step db₀ es = some db)
    (h : FenceInv db₀ es db) (hs : step db e = some db') : FenceInv db₀ (es ++ [e]) db' := by
  refine ⟨inv_step hs h.inv, leaseInv_step hs h.leases, ?_, ?_⟩
  · intro t τ' lease hl hlease hlocks
    rcases step_txn hs hl with
      ⟨τ, hlook, hcall, hw⟩ | ⟨c, -, -, rfl⟩ | ⟨τ, s, rest, w, rfl, hlook, hrest, he, rfl⟩
    · rw [hcall] at hlease ⊢
      rw [hw] at hlocks
      exact (h.opened t τ lease hlook hlease hlocks).snoc e
    · exact absurd rfl hlocks
    · by_cases hold : τ.w.leaseLocks = []
      · -- only the ownership test takes the row lock
        obtain rfl := execStmt_effect he
        cases s with
        | lockLease lease' =>
          obtain ⟨done, hd, -⟩ := (h.inv.txn t τ hlook).ran
          rw [hrest] at hd
          have hcl := plan_lockLease hd
          obtain rfl : lease' = lease := Option.some.inj (hcl.symm.trans hlease)
          obtain ⟨hht, ⟨r, hrow, ho, hg, hnow⟩, -⟩ := execStmt_lockLease he
          obtain ⟨x, hx, hk, hxo, hxg, hxe, hrel⟩ := h.leases.row _ r hrow
          refine ⟨es, [], db, τ, rest, rfl, hr, hlook, rfl, hrest, x, hx, hk, hxo.trans ho,
            hxg.trans hg, hrel, ?_⟩
          rw [hxe]
          exact hnow
        | _ => exact absurd hold hlocks
      · exact (h.opened t τ lease hlook hlease hold).snoc _
  · intro x hx lease hlease
    have hkeep : x ∈ db.history → FencedIn db₀ (es ++ [e]) x.txn x.call lease ∧
        InLease db'.tables x.call lease := by
      intro hx
      obtain ⟨hf, hin⟩ := h.durable x hx lease hlease
      exact ⟨hf.snoc e, hin.mono h.inv hs⟩
    rcases step_tables h.inv hs with ⟨t, τ, id, rfl, hlook, -, happ, -, hh, -⟩ | ⟨-, hh, -⟩
    · rw [hh, List.mem_append, List.mem_singleton] at hx
      rcases hx with hx | rfl
      · exact hkeep hx
      · obtain ⟨τ', hlook', hsent, -⟩ := step_commit hs
        obtain rfl : τ = τ' := Option.some.inj (hlook.symm.trans hlook')
        have hready := (h.inv.txn t τ hlook).ready hsent
        obtain ⟨now, hfenced⟩ := happ.fenced lease hlease
        refine ⟨(h.opened t τ lease hlook hlease (hready.locked ?_)).snoc _, ?_⟩
        · intro hnone
          rw [hnone] at hlease
          cases hlease
        · exact (hfenced.inLease h.inv.stored.part_nodup).mono h.inv hs
    · rw [hh] at hx
      exact hkeep hx

theorem fenceInv_run {db₀ : Db} {es : List Event} (h₀ : Initial db₀)
    (hr : Lts.run step db₀ es = some db) : FenceInv db₀ es db := by
  refine Lts.run_snoc_induction (P := FenceInv db₀) ?_ ?_ hr
  · refine ⟨h₀.inv, h₀.leaseInv, ?_, ?_⟩
    · intro t τ lease hl
      rw [h₀.txns] at hl
      cases hl
    · intro x hx
      rw [h₀.history] at hx
      cases hx
  · exact fun es a e b ha hp hs => fenceInv_step ha hp hs

/-! ## 4. Fencing -/

/-- A renewal or release whose (owner, generation) is not the row's leaves every row alone. -/
theorem stale_token {lease : CompactionLease} {r : LeaseRow}
    (hr : db.tables.compactionLeases (leaseKey lease) = some r)
    (hstale : ¬ (r.ownerId = lease.ownerId ∧ r.generation = lease.generation)) :
    (∀ ttl, step db (.renewLease lease ttl) = some db' → db' = db) ∧
      (step db (.releaseLease lease) = some db' → db' = db) := by
  refine ⟨?_, ?_⟩
  · intro ttl hs
    simp only [step] at hs
    split at hs
    · cases hs
    · split at hs
      · split at hs
        · cases hs
          rfl
        · rename_i row hrow
          obtain ⟨r₀, hr₀, ho, hg, -⟩ := renew_cases hrow
          rw [hr, Option.some.injEq] at hr₀
          subst hr₀
          exact absurd ⟨ho, hg⟩ hstale
      · cases hs
  · intro hs
    simp only [step] at hs
    split at hs
    · split at hs
      · rename_i hrel
        obtain ⟨r₀, hr₀, ho, hg⟩ := release_cases hrel
        rw [hr, Option.some.injEq] at hr₀
        subst hr₀
        exact absurd ⟨ho, hg⟩ hstale
      · cases hs
        rfl
    · cases hs

/-- **Compaction leases fence.**  After any run:

* no two tenancies, of whatever partition, share a generation;
* at most one tenancy of a partition is live, and it is the one in the lease table;
* a call that returned `Committed` is durable, and a leased call that is durable had its (owner,
  generation) found to be the partition's live tenancy by the statement of this run that judged
  it, and stayed inside the leased hypertable and partition;
* a renewal or a release with a stale token changes nothing. -/
theorem lease_fencing {db₀ : Db} {es : List Event} (h₀ : Initial db₀)
    (hr : Lts.run step db₀ es = some db) :
    (db.tenancies.map Tenancy.generation).Nodup ∧
    (∀ x ∈ db.tenancies, ∀ y ∈ db.tenancies, x.key = y.key → db.Live x → db.Live y → x = y) ∧
    (∀ x ∈ db.tenancies, db.Live x → ∃ r, db.tables.compactionLeases x.key = some r ∧
      r.ownerId = x.ownerId ∧ r.generation = x.generation) ∧
    (∀ t id, db.replies t = some (.ok (.committed id)) →
      ∃ x ∈ db.history, x.txn = t ∧ x.id = id) ∧
    (∀ x ∈ db.history, ∀ lease, x.call.lease = some lease →
      FencedIn db₀ es x.txn x.call lease ∧ InLease db.tables x.call lease) ∧
    (∀ lease r db', db.tables.compactionLeases (leaseKey lease) = some r →
      ¬ (r.ownerId = lease.ownerId ∧ r.generation = lease.generation) →
      (∀ ttl, step db (.renewLease lease ttl) = some db' → db' = db) ∧
        (step db (.releaseLease lease) = some db' → db' = db)) := by
  have h := fenceInv_run h₀ hr
  have hok : ∀ t, CallOk db t := Reachable.callOk ⟨db₀, h₀, es, hr⟩
  refine ⟨h.leases.nodup, ?_, h.leases.live, fun t => (hok t).told, h.durable, ?_⟩
  · exact fun x hx y hy hk hlx hly => live_unique h.leases hx hy hk hlx hly
  · exact fun lease r db' hrow hstale => stale_token hrow hstale

/-- A part of one row in the only partition of hypertable 1. -/
def onePart (path : String) : PartMeta := ⟨path, .null, 7, 7, 1, 1, 0, none⟩

def onlyPartition : LeaseKey := ⟨1, .null⟩

/-- A merge of part 1 under the first lease. -/
def leasedMerge : Call :=
  commitCompactionReplace 1 ⟨1, .null, 5, 1, 1000⟩ [1] [onePart "b"] ⟨1, "merge", [7]⟩

/-- A part is added, its partition leased, and the merge committed. -/
def leasedRun : List Event :=
  [.begin (commit 1 (.add [onePart "a"]) none), .stmt 0, .stmt 0, .stmt 0, .stmt 0, .stmt 0,
    .sendCommit 0, .commit 0, .drawLease onlyPartition 5 1, .installLease 0, .begin leasedMerge] ++
    List.replicate 9 (.stmt 1) ++ [.sendCommit 1, .commit 1]

theorem lease_fencing_merge :
    ∃ db, Lts.run step {} leasedRun = some db ∧
      FencedIn {} leasedRun 1 leasedMerge ⟨1, .null, 5, 1, 1000⟩ ∧
      InLease db.tables leasedMerge ⟨1, .null, 5, 1, 1000⟩ := by
  have hobs : (Lts.run step {} leasedRun).map (fun db => db.history) =
      some [⟨0, 1, commit 1 (.add [onePart "a"]) none⟩, ⟨1, 2, leasedMerge⟩] := by decide
  obtain ⟨db, hrun, hhist⟩ := Option.map_eq_some_iff.mp hobs
  have h := (lease_fencing initial_empty hrun).2.2.2.2.1 ⟨1, 2, leasedMerge⟩
    (by rw [hhist]; simp) _ rfl
  exact ⟨db, hrun, h⟩

/-! ## 5. Do generations order tenancies? -/

/-- The generation of each tenancy is greater than that of every earlier one of its
partition. -/
def Ordered (db : Db) : Prop :=
  db.tenancies.Pairwise fun a b => a.key = b.key → a.generation < b.generation

/-- The event is an acquisition that starts a tenancy although one of the same partition was
already started by a statement that drew its generation later. -/
def Overtaken (db : Db) (e : Event) : Prop :=
  ∃ k cl, e = .installLease k ∧ db.claims.lookup k = some cl ∧
    (∀ r, db.tables.compactionLeases cl.key = some r → r.expiresAt ≤ db.clock) ∧
    ∃ x ∈ db.tenancies, x.key = cl.key ∧ k < x.stmt

/-- Generations follow the order in which the statements drew them. -/
theorem generation_lt_iff (h : LeaseInv db) {k : Nat} {cl : Claim}
    (hcl : db.claims.lookup k = some cl) {x : Tenancy} (hx : x ∈ db.tenancies) :
    x.generation < cl.generation ↔ ¬ k < x.stmt := by
  obtain ⟨-, hg, hne⟩ := h.claim_gen k cl hcl
  have hg' := (h.tenancy_gen x hx).2
  have := hne x hx
  omega

/-- What orders the tenancies: their partitions and generations. -/
def Tenancy.token (x : Tenancy) : LeaseKey × Int := (x.key, x.generation)

theorem ordered_iff : Ordered db ↔
    (db.tenancies.map Tenancy.token).Pairwise fun a b => a.1 = b.1 → a.2 < b.2 := by
  rw [List.pairwise_map]
  rfl

theorem tokens_onTenancy (db : Db) (g : Int) {f : Tenancy → Tenancy}
    (hf : ∀ x, (f x).token = x.token) :
    (db.onTenancy g f).tenancies.map Tenancy.token = db.tenancies.map Tenancy.token := by
  simp only [Db.onTenancy, List.map_map]
  refine List.map_congr_left ?_
  intro x _
  simp only [Function.comp_apply]
  split
  · exact hf x
  · rfl

/-- An event starts a tenancy, over a free or an expired row, or starts none. -/
theorem step_tokens {e : Event} (hl : LeaseInv db) (hs : step db e = some db') :
    (db'.tenancies.map Tenancy.token = db.tenancies.map Tenancy.token ∧
      ∀ k cl, e = .installLease k → db.claims.lookup k = some cl →
        ¬ ∀ r, db.tables.compactionLeases cl.key = some r → r.expiresAt ≤ db.clock) ∨
    ∃ k cl x, e = .installLease k ∧ db.claims.lookup k = some cl ∧
      (∀ r, db.tables.compactionLeases cl.key = some r → r.expiresAt ≤ db.clock) ∧
      db'.tenancies = db.tenancies ++ [x] ∧ x.token = (cl.key, cl.generation) := by
  cases e with
  | installLease k =>
    simp only [step] at hs
    split at hs
    · cases hs
    · rename_i cl hcl
      split at hs
      · cases hs
        unfold Db.installLease
        cases hrow : tryAcquireCompactionLease (db.tables.compactionLeases cl.key) cl.ownerId
            cl.generation cl.expiresAt db.clock with
        | none =>
          refine Or.inl ⟨rfl, ?_⟩
          rintro _ cl' ⟨rfl⟩ hcl' hfree
          obtain rfl : cl = cl' := Option.some.inj (hcl.symm.trans hcl')
          -- a refusal means that an unexpired peer holds the row
          cases hheld : db.tables.compactionLeases cl.key with
          | none => simp [hheld, tryAcquireCompactionLease] at hrow
          | some r => simp [hheld, tryAcquireCompactionLease, hfree r hheld] at hrow
        | some row =>
          obtain ⟨r₀, hr₀, -, hnow, rfl⟩ | ⟨hfree, rfl⟩ := tryAcquire_cases hrow
          · obtain ⟨x, hx, -, -, hgx, -⟩ := hl.row cl.key r₀ hr₀
            have hne : r₀.generation ≠ cl.generation := by
              intro he
              have h₁ := (hl.claim_gen k cl hcl).2
              have h₂ := (hl.tenancy_gen x hx).2
              exact h₁.2 x hx (by omega)
            refine Or.inl ⟨?_, ?_⟩
            · dsimp only
              rw [if_neg hne]
              exact tokens_onTenancy _ _ fun _ => rfl
            · rintro _ cl' ⟨rfl⟩ hcl' hfree
              obtain rfl : cl = cl' := Option.some.inj (hcl.symm.trans hcl')
              have := hfree r₀ hr₀
              omega
          · dsimp only
            rw [if_pos rfl]
            exact Or.inr ⟨k, cl, _, rfl, hcl, hfree, rfl, rfl⟩
      · cases hs
  | renewLease lease ttl =>
    refine Or.inl ⟨?_, by simp⟩
    simp only [step] at hs
    repeat' split at hs
    all_goals cases hs
    · rfl
    · exact tokens_onTenancy _ _ fun _ => rfl
  | releaseLease lease =>
    refine Or.inl ⟨?_, by simp⟩
    simp only [step] at hs
    repeat' split at hs
    all_goals cases hs
    · exact tokens_onTenancy _ _ fun _ => rfl
    · rfl
  | stmt t =>
    obtain ⟨τ, s, rest, -, -, -, -, rfl⟩ := step_stmt hs
    obtain ⟨xs, rs, c, p, he⟩ := runStmt_eq db t τ s rest
    rw [he]
    exact Or.inl ⟨rfl, by simp⟩
  | rollback t f =>
    obtain ⟨τ, -, rfl⟩ := step_rollback hs
    obtain ⟨rs, he⟩ := replyOnce_eq db t (.error (if τ.sent = true then
      ambiguousOrDefinite τ.call.identity f else .db f))
    rw [he]
    exact Or.inl ⟨rfl, by simp⟩
  | abandon t f =>
    obtain ⟨τ, -, -, -, rfl⟩ := step_abandon hs
    obtain ⟨rs, he⟩ := replyOnce_eq db t (.error (.db f))
    rw [he]
    exact Or.inl ⟨rfl, by simp⟩
  | lost t =>
    obtain ⟨c, -, rfl⟩ := step_lost hs
    obtain ⟨rs, he⟩ := replyOnce_eq db t (.error (ambiguousOrDefinite c.identity .transport))
    rw [he]
    exact Or.inl ⟨rfl, by simp⟩
  | ack t =>
    obtain ⟨x, -, -, rfl⟩ := step_ack hs
    obtain ⟨rs, he⟩ := replyOnce_eq db t (.ok (.committed x.id))
    rw [he]
    exact Or.inl ⟨rfl, by simp⟩
  | begin _ | sendCommit _ | commit _ | lockBarrier _ _ | readHead _ | unlockBarrier _
  | drawLease _ _ _ | registerPending _ _ | clearPending _ | markPurged _ | setCursor _ _ _
  | tick _ =>
    refine Or.inl ⟨?_, by simp⟩
    simp only [step] at hs
    repeat' split at hs
    all_goals cases hs
    all_goals rfl

/-- One event keeps the order exactly when it is no overtaken acquisition. -/
theorem ordered_step {e : Event} (hl : LeaseInv db) (hs : step db e = some db') :
    Ordered db' ↔ Ordered db ∧ ¬ Overtaken db e := by
  rcases step_tokens hl hs with ⟨hsame, hnot⟩ | ⟨k, cl, x, rfl, hcl, hfree, hten, htok⟩
  · rw [ordered_iff, hsame, ← ordered_iff]
    refine (and_iff_left ?_).symm
    rintro ⟨k, cl, he, hcl, hfree, -⟩
    exact hnot k cl he hcl hfree
  · have hx : ∀ y ∈ db.tenancies, (y.key = x.key → y.generation < x.generation) ↔
        (y.key = cl.key → ¬ k < y.stmt) := by
      intro y hy
      simp only [Tenancy.token, Prod.mk.injEq] at htok
      rw [htok.1, htok.2, generation_lt_iff hl hcl hy]
    unfold Ordered
    rw [hten, List.pairwise_append]
    constructor
    · rintro ⟨hord, -, hlast⟩
      refine ⟨hord, ?_⟩
      rintro ⟨k', cl', he, hcl', -, y, hy, hyk, hlt⟩
      cases he
      obtain rfl : cl = cl' := Option.some.inj (hcl.symm.trans hcl')
      exact (hx y hy).mp (hlast y hy x (List.mem_singleton_self _)) hyk hlt
    · rintro ⟨hord, hnot⟩
      refine ⟨hord, List.pairwise_singleton _ _, ?_⟩
      intro y hy z hz
      rw [List.mem_singleton.mp hz]
      exact (hx y hy).mpr fun hyk hlt => hnot ⟨k, cl, rfl, hcl, hfree, y, hy, hyk, hlt⟩

/-- No acquisition of the run was overtaken. -/
def NeverOvertaken (db₀ : Db) (es : List Event) : Prop :=
  ∀ pre e post db₁, es = pre ++ e :: post → Lts.run step db₀ pre = some db₁ → ¬ Overtaken db₁ e

theorem neverOvertaken_snoc {db₀ : Db} {es : List Event} {e : Event}
    (hr : Lts.run step db₀ es = some db) :
    NeverOvertaken db₀ (es ++ [e]) ↔ NeverOvertaken db₀ es ∧ ¬ Overtaken db e := by
  constructor
  · intro h
    refine ⟨?_, h es e [] db rfl hr⟩
    rintro pre e' post db₁ rfl hpre
    exact h pre e' (post ++ [e]) db₁ (by simp) hpre
  · rintro ⟨hall, hlast⟩ pre e' post db₁ heq hpre
    rcases List.eq_nil_or_concat post with rfl | ⟨post', e'', rfl⟩
    · obtain ⟨rfl, he⟩ := List.append_inj' heq rfl
      cases he
      obtain rfl : db = db₁ := Option.some.inj (hr.symm.trans hpre)
      exact hlast
    · have heq' : es ++ [e] = (pre ++ e' :: post') ++ [e''] := by simpa using heq
      obtain ⟨rfl, -⟩ := List.append_inj' heq' rfl
      exact hall pre e' post' db₁ rfl hpre

/-- **Generations order the tenancies of a partition exactly in the runs in which no
acquisition is overtaken** between drawing its generation and reaching the row. -/
theorem generations_ordered_iff {db₀ : Db} {es : List Event} (h₀ : Initial db₀)
    (hr : Lts.run step db₀ es = some db) : Ordered db ↔ NeverOvertaken db₀ es := by
  have hall := Lts.run_snoc_induction (s := db₀)
    (P := fun es d => LeaseInv d ∧ (Ordered d ↔ NeverOvertaken db₀ es)) ?_ ?_ hr
  · exact hall.2
  · refine ⟨h₀.leaseInv, ?_⟩
    constructor
    · intro _ pre e post db₁ heq
      exact absurd heq (by simp)
    · intro _
      unfold Ordered
      rw [h₀.tenancies]
      exact List.Pairwise.nil
  · rintro es d e d' hrun ⟨hl, hiff⟩ hs
    exact ⟨leaseInv_step hs hl, by rw [ordered_step hl hs, neverOvertaken_snoc hrun, hiff]⟩

/-- Two workers take the partition one after the other. -/
def takeTurns : List Event :=
  [.drawLease onlyPartition 5 1, .installLease 0, .releaseLease ⟨1, .null, 5, 1, 1000⟩,
    .drawLease onlyPartition 6 1, .installLease 1]

theorem generations_ordered_turns : NeverOvertaken {} takeTurns := by
  have hobs : (Lts.run step {} takeTurns).map (fun db => db.tenancies.map Tenancy.token) =
      some [(onlyPartition, 1), (onlyPartition, 2)] := by decide
  obtain ⟨db, hrun, hten⟩ := Option.map_eq_some_iff.mp hobs
  refine (generations_ordered_iff initial_empty hrun).mp ?_
  rw [ordered_iff, hten]
  decide

/-- The second worker draws later, but takes and releases the partition first. -/
def overtake : List Event :=
  [.drawLease onlyPartition 5 1, .drawLease onlyPartition 6 1, .installLease 1,
    .releaseLease ⟨1, .null, 6, 2, 1000⟩, .installLease 0]

/-- **A later tenancy can have a smaller generation.** -/
theorem generations_out_of_order :
    ¬ ∀ db, Reachable db → Ordered db := by
  intro h
  have hobs : (Lts.run step {} overtake).map (fun db => db.tenancies.map Tenancy.token) =
      some [(onlyPartition, 2), (onlyPartition, 1)] := by decide
  obtain ⟨db, hrun, hten⟩ := Option.map_eq_some_iff.mp hobs
  have hord := h db ⟨{}, initial_empty, overtake, hrun⟩
  rw [ordered_iff, hten] at hord
  revert hord
  decide

end Ukiel.Catalog
