/-
# Exactly-once materialized views

What the invariant of `Mv/Invariant.lean` comes to: behind a pipeline's cursor every ADD of its
source has one ADD of the target, and only ADDs of the source have one.  §1 counts, §2 is the
result, §3 a run in which two replicas disagree about an event.
-/
import Ukiel.Mv.Invariant

namespace Ukiel.Mv
open Ukiel.Catalog

variable {hash : List UInt8 → Digest} {defs : PipelineId → Option Pipeline} {s : World}
  {id : PipelineId} {p : Pipeline} {i : OperationIdentity}

/-! ## 1. One ADD for one event -/

/-- What the identity of an event hashes. -/
def eventBytes (id : PipelineId) (p : Pipeline) (commit : Int) : List UInt8 :=
  canonicalBytes "mv" 1 p.target (mvBody (mvIntent id p commit))

theorem mvIdentity_ok {c : Int} (h : mvIdentity hash id p c = .ok i) :
    i = ⟨p.target, operationKey "mv" 1 (hash (eventBytes id p c)), hash (eventBytes id p c)⟩ := by
  unfold mvIdentity OperationIdentity.mv at h
  simp only [bind, Except.bind] at h
  split at h
  · cases h
  · split at h
    · simp [throw, throwThe, MonadExceptOf.throw] at h
    · exact finish_ok h

theorem mvKey_operationKey (d : Digest) : MvKey (operationKey "mv" 1 d) := by
  refine ⟨'v' :: (toString 1 ++ "/" ++ hex d).toList, ?_⟩
  simp [operationKey, String.toList_append]

/-- **Exactly one ADD under the identity**: one row of its target has the key, an ADD with the
fingerprint, and one durable call has the identity, the publication of one attempt. -/
def Once (s : World) (i : OperationIdentity) : Prop :=
  ∃ r ∈ s.db.tables.commits, r.hypertableId = i.hypertableId ∧ r.idempotencyKey = some i.key ∧
    r.operationFingerprint = some i.fingerprint ∧ r.kind = .add ∧
    (∀ q ∈ s.db.tables.commits, q.hypertableId = i.hypertableId →
      q.idempotencyKey = some i.key → q = r) ∧
    ∃ x ∈ s.db.history, x.id = r.id ∧
      (∃ a, s.attempts.lookup x.txn = some a ∧ x.call = a.call) ∧
      ∀ y ∈ s.db.history, y.call.identity = some i → y = x

/-- A row under a key of the mv domain is what one attempt has published. -/
theorem Ok.keyed (h : Ok hash defs s) {r : CommitRow} (hr : r ∈ s.db.tables.commits)
    {key : String} (hkey : r.idempotencyKey = some key) (hmv : MvKey key) :
    ∃ x ∈ s.db.history, ∃ a at', s.attempts.lookup x.txn = some a ∧ a.Ok hash defs s.db ∧
      x.call = a.call ∧ r = a.call.commitRow x.id at' := by
  obtain ⟨x, hx, at', rfl⟩ := h.published.keyed r hr key hkey hmv
  rcases h.published.durable x hx with ⟨a, ha, hcall⟩ | ⟨-, hforeign⟩
  · exact ⟨x, hx, a, at', ha, (h.published.attempt x.txn a ha).2, hcall, by rw [hcall]⟩
  · obtain ⟨j, hj, rfl⟩ := Option.map_eq_some_iff.mp hkey
    exact absurd hmv (hforeign j hj)

/-- Two durable calls with one key are one. -/
theorem history_unique {db : Db} (hreach : Reachable db) {x y : Committed}
    (hx : x ∈ db.history) (hy : y ∈ db.history) (hkey : SameKey x.call y.call) : x = y := by
  by_contra hne
  have hsymm : Std.Symm fun a b : Committed => ¬ SameKey a.call b.call :=
    ⟨fun _ _ h hs => h hs.symm⟩
  exact (history_pairwise hreach).forall hx hy hne hkey

theorem Ok.once (h : Ok hash defs s) {c x : Int} (hident : mvIdentity hash id p c = .ok i)
    (hd : DurableUnder s.db.tables i x) : Once s i := by
  obtain ⟨r, hr, -, hht, hk, hfp⟩ := hd
  have hmv : MvKey i.key := by
    rw [mvIdentity_ok hident]
    exact mvKey_operationKey _
  obtain ⟨y, hy, a, at', ha, -, hcall, hrow⟩ := h.keyed hr hk hmv
  refine ⟨r, hr, hht, hk, hfp, by rw [hrow]; rfl, ?_, y, hy, by rw [hrow]; rfl,
    ⟨a, ha, hcall⟩, ?_⟩
  · intro q hq hqht hqk
    exact h.feed.inv.stored.key_unique q hq r hr i.key (hqht.trans hht.symm) hqk hk
  · intro z hz hzident
    obtain ⟨hscope, -⟩ := (h.published.reach.callOk z.txn).durable z hz rfl
    refine history_unique h.published.reach hz hy ⟨?_, i, a.identity, hzident, ?_, ?_⟩
    · rw [hcall, ← hscope i hzident, ← hht, hrow]
      rfl
    · rw [hcall]
      rfl
    · rw [hrow] at hk
      exact (Option.some.inj hk).symm

/-! ## 2. The result -/

/-- The identifiers of this run fit BIGINT, and the digests of its events do not collide. -/
structure Separated (hash : List UInt8 → Digest) (defs : PipelineId → Option Pipeline)
    (s : World) : Prop where
  pipelines : ∀ id p, defs id = some p → id ∈ I64 ∧ p.source ∈ I64 ∧ p.target ∈ I64
  commits : ∀ r ∈ s.db.tables.commits, r.id ∈ I64
  hash : ∀ id p id' p', defs id = some p → defs id' = some p' →
    ∀ r ∈ s.db.tables.commits, ∀ r' ∈ s.db.tables.commits,
      hash (eventBytes id p r.id) = hash (eventBytes id' p' r'.id) →
        eventBytes id p r.id = eventBytes id' p' r'.id

/-- Events with the same bytes are the same event. -/
theorem eventBytes_inj {id' : PipelineId} {p' : Pipeline} {c c' : Int}
    (hp : id ∈ I64 ∧ p.source ∈ I64 ∧ p.target ∈ I64)
    (hp' : id' ∈ I64 ∧ p'.source ∈ I64 ∧ p'.target ∈ I64) (hc : c ∈ I64) (hc' : c' ∈ I64)
    (h : eventBytes id p c = eventBytes id' p' c') : id = id' ∧ p.source = p'.source ∧ c = c' := by
  have hmv := Intent.str64_domain.1
  obtain ⟨-, -, hbody⟩ := (Intent.canonicalBytes_iff hmv hmv hp.2.2 hp'.2.2).mp h
  have hversion : mvTransformationVersion < 2 ^ 32 := by decide
  have hintent := (Intent.mvBody_iff (i := mvIntent id p c) (j := mvIntent id' p' c')
    ⟨hversion, hp.1, hp.2.1, hc⟩ ⟨hversion, hp'.1, hp'.2.1, hc'⟩).mp hbody
  simp only [mvIntent, MvIntent.mk.injEq] at hintent
  exact ⟨hintent.1, hintent.2.1, hintent.2.2.1⟩

/-- **Exactly-once materialized views.**  After any run of any number of replicas, with crashes
and lost acknowledgements anywhere, and whatever rows, errors or nothing each replica makes of an
event:

* a pipeline with a cursor was registered at a head at or behind it, and for every ADD of its
  source past that head and up to the cursor there is exactly one ADD under its identity;
* every commit under a key of the mv domain is the publication of an attempt at an ADD of a
  pipeline's source;
* so a REPLACE or DELETE of a source has none under its identity. -/
theorem mv_exactly_once {s₀ : World} {ms : List Move} (hstart : Start s₀)
    (hrun : Lts.run (move hash defs) s₀ ms = some s) :
    (∀ id p v, defs id = some p →
      s.db.tables.workerCursors (mvWorker id, p.source) = some v →
      ∃ H, s.feed.registered (id, p.source) = some H ∧ H ≤ v ∧
        ∀ c, Adds s.db p.source c → H < c → c ≤ v →
          ∃ i, mvIdentity hash id p c = .ok i ∧ Once s i) ∧
    (∀ r ∈ s.db.tables.commits, ∀ key, r.idempotencyKey = some key → MvKey key →
      ∃ x ∈ s.db.history, ∃ a at', s.attempts.lookup x.txn = some a ∧ a.Ok hash defs s.db ∧
        x.call = a.call ∧ r = a.call.commitRow x.id at') ∧
    (Separated hash defs s → ∀ id p, defs id = some p → ∀ r ∈ s.db.tables.commits,
      r.hypertableId = p.source → r.kind ≠ .add → ∀ i, mvIdentity hash id p r.id = .ok i →
        ∀ x, ¬ DurableUnder s.db.tables i x) := by
  have hok : Ok hash defs s := ok_run hstart hrun
  refine ⟨?_, fun r hr key hkey hmv => hok.keyed hr hkey hmv, ?_⟩
  · intro id p v hdef hv
    obtain ⟨H, hH, hcovered⟩ := hok.cursor id p v hdef hv
    obtain ⟨H', hH', hle⟩ := hok.feed.registered id p.source v hv
    obtain rfl : H = H' := Option.some.inj (hH.symm.trans hH')
    refine ⟨H, hH, hle, ?_⟩
    intro c hadds hlo hhi
    obtain ⟨i, x, hident, hd⟩ := hcovered.outcome c hadds hlo hhi
    exact ⟨i, hident, hok.once hident hd⟩
  · intro hsep id p hdef r hr hht hkind i hident x hd
    obtain ⟨q, hq, -, -, hk, hfp⟩ := hd
    rw [mvIdentity_ok hident] at hk hfp
    obtain ⟨y, -, a, at', -, ha, -, rfl⟩ := hok.keyed hq hk (mvKey_operationKey _)
    obtain ⟨r', hr', hht', hid', hadd⟩ := ha.adds
    -- the row's digest is that of the attempt's event
    have hdigest : hash (eventBytes a.id a.pipeline r'.id) = hash (eventBytes id p r.id) := by
      have hsame : a.identity.fingerprint = hash (eventBytes id p r.id) := Option.some.inj hfp
      rw [← hsame, hid', mvIdentity_ok ha.identity]
    have hbytes := hsep.hash a.id a.pipeline id p ha.defined hdef r' hr' r hr hdigest
    obtain ⟨-, -, heq⟩ := eventBytes_inj (hsep.pipelines _ _ ha.defined)
      (hsep.pipelines _ _ hdef) (hsep.commits r' hr') (hsep.commits r hr) hbytes
    obtain rfl := commit_unique hok.feed.inv.stored hr' hr heq
    exact hkind hadd

/-! ## 3. Three replicas, one event -/

/-- `mv_identity_is_pinned_and_every_boundary_changes_it`: pipeline 7, from 8 into 10, commit 9. -/
def pinnedPipeline : Pipeline := ⟨8, 10, .skip⟩

def pinnedDefs : PipelineId → Option Pipeline := fun id =>
  if id = 7 then some pinnedPipeline else none

/-- The digest of the only identity the run below hashes. -/
def pinnedHash : List UInt8 → Digest := fun _ =>
  [0x56, 0x9c, 0xc0, 0x2d, 0x4d, 0x6d, 0xff, 0x9c, 0x67, 0x1b, 0x78, 0xc5, 0x7a, 0xf7, 0x8d,
    0xb4, 0x2d, 0x14, 0x40, 0x85, 0x14, 0x0e, 0x34, 0xae, 0x06, 0xce, 0x70, 0x31, 0x8e, 0x62,
    0xb9, 0x6d]

/-- Eight commits have come to nothing. -/
def pinnedStart : World := { feed := { db := { commitSeq := 9 } } }

def sourcePart : PartMeta := ⟨"ht/8/L0/a.parquet", .obj [], 7, 7, 1, 1, 0, none⟩

def outputPart : PartMeta := ⟨"ht/10/L0/b.parquet", .obj [], 7, 7, 1, 1, 0, none⟩

def onFeed (e : Event) : Move := .feed (.catalog e)

/-- The pipeline registers, the source gets commit 9, and its head is read. -/
def sourceAdd : List Move :=
  [.feed (.register 0 7 8), .feed (.head 0), .feed (.save 0),
    onFeed (.begin (Catalog.commit 8 (.add [sourcePart]) none))] ++
  List.replicate 5 (onFeed (.stmt 0)) ++
  [onFeed (.sendCommit 0), onFeed (.commit 0), onFeed (.ack 0),
    onFeed (.lockBarrier 1 8), onFeed (.readHead 1), onFeed (.unlockBarrier 1)]

/-- A replica comes to transform the event. -/
def takesUp (n : Nat) : List Move :=
  [.poll n 7, .page n 9, .process n, .check n, .lookup n, .read n true]

/-- It makes parts of the event, or nothing, and is about to publish. -/
def makes (n : Nat) (items : List PartMeta) : List Move :=
  [.transform n (.ok items), .check n, .lookup n]

/-- It fails on the data, which its pipeline skips. -/
def skips (n : Nat) : List Move :=
  [.transform n (.error true), .check n, .lookup n, .check n, .lookup n]

/-- All publish.  The first commit lands but its acknowledgement is lost, the second finds it, and
the third vanishes. -/
def publishes : List Move :=
  [.publish 1, .publish 2, .publish 3] ++ List.replicate 4 (onFeed (.stmt 1)) ++
  [onFeed (.sendCommit 1), onFeed (.commit 1), onFeed (.lost 1), .hear 1] ++
  List.replicate 3 (onFeed (.stmt 2)) ++ [.hear 2, .crash 3, .advance 2]

def disagreement : List Move :=
  sourceAdd ++ (takesUp 1 ++ (takesUp 2 ++ (takesUp 3 ++
    (makes 1 [] ++ (makes 2 [outputPart] ++ (skips 3 ++ publishes))))))

theorem pinnedStart_start : Start pinnedStart where
  feed := by
    refine ⟨⟨?_, rfl, rfl, rfl, rfl, rfl, rfl, rfl, rfl⟩, rfl, ?_, ?_, ?_⟩
    · exact ⟨by decide, by simp [pinnedStart], by simp [pinnedStart], by decide,
        by simp [pinnedStart], by simp [pinnedStart], by decide⟩
    · exact fun w h hw => absurd rfl hw
    · intro id h v hv
      cases hv
    · intro id h H hH
      cases hH
  unregistered _ := rfl
  keys r hr := by cases hr
  replicas := rfl
  attempts := rfl

instance (db : Db) (source : HypertableId) (c : Int) : Decidable (Adds db source c) := by
  unfold Adds; infer_instance

theorem mv_exactly_once_disagreement :
    ∃ s, Lts.run (move pinnedHash pinnedDefs) pinnedStart disagreement = some s ∧
      s.db.tables.workerCursors (mvWorker 7, 8) = some 9 ∧
      ∃ i, mvIdentity pinnedHash 7 pinnedPipeline 9 = .ok i ∧ Once s i := by
  have hobs : ∃ s ∈ Lts.run (move pinnedHash pinnedDefs) pinnedStart disagreement,
      s.db.tables.workerCursors (mvWorker 7, 8) = some 9 ∧
      s.feed.registered (7, 8) = some 0 ∧ Adds s.db 8 9 := by decide +kernel
  obtain ⟨s, hrun, hcursor, hregistered, hadds⟩ := hobs
  obtain ⟨H, hH, -, hall⟩ := (mv_exactly_once pinnedStart_start hrun).1 7 pinnedPipeline 9 rfl
    hcursor
  obtain rfl : 0 = H := Option.some.inj (hregistered.symm.trans hH)
  exact ⟨s, hrun, hcursor, hall 9 hadds (by decide) (by decide)⟩

end Ukiel.Mv
