/-
# The cache after a crash

A published file is renamed into place without a sync, so that after a crash any prefix of it may
be found.  Startup takes the length a file has for the length of the object: a chunk that was cut
short is noticed, because a read asks for more than there is, and a whole file is not.

* §1 runs with restarts.
* §2 transparency, when no whole file was cut short.
* §3 a whole file that was.
-/
import Ukiel.Cache.Transparency

namespace Ukiel.Cache

variable {P : Type} [DecidableEq P]

/-! ## 1. Restarts -/

inductive Event (P : Type) where
  | move (m : Move P)
  /-- The process is gone, with every call, and another one opens what is left of the directory. -/
  | restart (config : CacheConfig) (io : Io) (leftovers : List (Leftover P))

/-- **One step, or a crash.** -/
def crashStep (C : Crates P) (s : CachingObjectStore P) : Event P → Option (CachingObjectStore P)
  | .move m => storeStep C s m
  | .restart config io leftovers =>
    some (C.withConfig config io (C.leave s.objects leftovers) s.objects)

/-- The whole files that a restart finds have all their bytes. -/
def Untorn (s : CachingObjectStore P) : Event P → Prop
  | .move _ => True
  | .restart _ _ leftovers => ∀ x ∈ leftovers, x.Complete s.objects

/-! ## 2. Without torn files -/

variable {C : Crates P} {s s' : CachingObjectStore P}

theorem StoreOk.crashStep (hC : C.Lawful) (hs : StoreOk C s) {e : Event P}
    (h : crashStep C s e = some s') (hok : Untorn s e) : StoreOk C s' := by
  cases e with
  | move m => exact hs.step hC h
  | restart config io leftovers =>
    cases h
    exact storeOk_withConfig hC hok

/-- **Transparency across crashes**, in a run whose restarts find no whole file cut short.  Chunks
may be cut short anywhere, and interrupted fills hold anything. -/
theorem crash_transparent (hC : C.Lawful) {config : CacheConfig} {io : Io} {objects : Objects P}
    {es : List (Event P)}
    (hrun : Lts.run (crashStep C) (C.withConfig config io ∅ objects) es = some s)
    (hok : Lts.Along (crashStep C) Untorn (C.withConfig config io ∅ objects) es) :
    (∀ t io s' p options res, storeStep C s (.advance t io) = some s' →
      s'.answer t = some (p, options, res) → Agrees options (C.get s.objects p options) res) ∧
    ∀ t io p options phase, s.calls.lookup t = some (.get p options phase) →
      ∃ n s' res, Lts.run (storeStep C) s (List.replicate n (.advance t io)) = some s' ∧
        s'.answer t = some (p, options, res) := by
  have hempty : StoreOk C (C.withConfig config io (C.leave objects []) objects) :=
    storeOk_withConfig hC fun x hx => absurd hx (List.not_mem_nil)
  have hs : StoreOk C s :=
    Lts.Along.run_inv (fun _ _ _ hstep hok hs => hs.crashStep hC hstep hok) hrun hok hempty
  refine ⟨fun t io s' p options res hstep hres => hs.agrees hC hstep hres, ?_⟩
  intro t io p options phase hcall
  obtain ⟨n, s', res, hrun', hanswer⟩ := hs.answered hC io phase s hcall
  exact ⟨n, s', res, hrun', by rw [CachingObjectStore.answer, hanswer]⟩

/-- A crash leaves the last chunk with one of its two bytes. -/
def tornChunk : List (Event Bool) :=
  .restart chunkedConfig {} someChunks :: mixedRead.map .move

theorem crash_transparent_chunk : ∃ s s',
    Lts.run (crashStep twoPaths) (twoPaths.withConfig chunkedConfig {} ∅ tenBytes) tornChunk =
      some s ∧
    storeStep twoPaths s (.advance 1 {}) = some s' ∧
    Agrees { range := some (.bounded 2 9) }
      (twoPaths.get s.objects true { range := some (.bounded 2 9) })
      (.ok ⟨[2, 3, 4, 5, 6, 7, 8], (2, 9), 10⟩) := by
  have hok : Lts.Along (crashStep twoPaths) Untorn
      (twoPaths.withConfig chunkedConfig {} ∅ tenBytes) tornChunk := by
    refine ⟨?_, fun s _ => Lts.along_of_forall fun e he _ => ?_⟩
    · intro x hx
      simp only [someChunks, List.mem_cons, List.not_mem_nil, or_false] at hx
      rcases hx with rfl | rfl | rfl <;> trivial
    · obtain ⟨m, -, rfl⟩ := List.mem_map.mp he
      trivial
  have hobs : ∃ s ∈ Lts.run (crashStep twoPaths)
      (twoPaths.withConfig chunkedConfig {} ∅ tenBytes) tornChunk,
      ∃ s' ∈ storeStep twoPaths s (.advance 1 {}),
        s'.answer 1 = some (true, { range := some (.bounded 2 9) },
          .ok ⟨[2, 3, 4, 5, 6, 7, 8], (2, 9), 10⟩) := by decide +kernel
  obtain ⟨s, hrun, s', hstep, hanswer⟩ := hobs
  exact ⟨s, s', hrun, hstep,
    (crash_transparent twoPaths_lawful hrun hok).1 1 {} s' true _ _ hstep hanswer⟩

/-! ## 3. A torn file -/

/-- An object of two bytes is stored and cached; a crash leaves the first byte of its file; the
object is read. -/
def tornFile : List (Event Bool) :=
  [.move (.put 0 false [7, 8]), .move (.advance 0 {}), .move (.advance 0 {}),
    .restart chunkedConfig {} [.whole false 1], .move (.get 1 false {}), .move (.advance 1 {})]

/-- **A torn file is served as complete**: one byte and size 1, of an object of two bytes. -/
theorem torn_file_served : ∃ published s s',
    Lts.run (crashStep twoPaths) (twoPaths.withConfig chunkedConfig {} ∅ ∅) (tornFile.take 3) =
      some published ∧
    (∃ d ∈ published.disk, d.files.lookup (twoPaths.wholeName false) = some [7, 8]) ∧
    Lts.run (crashStep twoPaths) (twoPaths.withConfig chunkedConfig {} ∅ ∅) tornFile = some s ∧
    storeStep twoPaths s (.advance 1 {}) = some s' ∧
    s'.answer 1 = some (false, {}, .ok ⟨[7], (0, 1), 1⟩) ∧
    twoPaths.get s.objects false {} = .ok ⟨[7, 8], (0, 2), 2⟩ ∧
    ¬ Agrees {} (twoPaths.get s.objects false {}) (.ok ⟨[7], (0, 1), 1⟩) := by
  have hcached : ∃ published ∈ Lts.run (crashStep twoPaths)
      (twoPaths.withConfig chunkedConfig {} ∅ ∅) (tornFile.take 3),
      ∃ d ∈ published.disk, d.files.lookup (twoPaths.wholeName false) = some [7, 8] := by
    decide +kernel
  have hread : ∃ s ∈ Lts.run (crashStep twoPaths) (twoPaths.withConfig chunkedConfig {} ∅ ∅)
      tornFile, ∃ s' ∈ storeStep twoPaths s (.advance 1 {}),
        s'.answer 1 = some (false, {}, .ok ⟨[7], (0, 1), 1⟩) ∧
        twoPaths.get s.objects false {} = .ok ⟨[7, 8], (0, 2), 2⟩ := by
    decide +kernel
  obtain ⟨published, hpub, hfile⟩ := hcached
  obtain ⟨s, hrun, s', hstep, hanswer, hget⟩ := hread
  refine ⟨published, s, s', hpub, hfile, hrun, hstep, hanswer, hget, ?_⟩
  rw [hget]
  decide

end Ukiel.Cache
