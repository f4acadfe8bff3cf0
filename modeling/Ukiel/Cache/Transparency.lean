/-
# The cache is transparent

Whatever is cached, evicted, refused, prewarmed or damaged, and in whatever order, a request is
answered as the backing store would answer it.

* §1 prewarmed uploads: the parts that are written make up the object.
* §2 the invariant of the store.
* §3 one lemma for each step of the store.
* §4 the result.
-/
import Ukiel.Cache.Requests

namespace Ukiel.Cache

variable {P : Type} {C : Crates P}

/-! ## 1. Uploads -/

section Uploads

/-- The object an upload makes. -/
def Upload.whole (u : Upload P) : List UInt8 := (u.parts.map Part.data).flatten

/-- What the fill of a prewarming upload holds. -/
structure Upload.Filling (u : Upload P) (data : List UInt8) : Prop where
  length : data.length ≤ u.whole.length
  teed : ∀ part ∈ u.parts, part.teed = true
  holds : u.poisoned = false → ∀ i part, u.parts[i]? = some part → part.state = .finished →
    data.Holds (u.offset i) part.data

structure Upload.Ok (C : Crates P) (d : Disk) (u : Upload P) : Prop where
  held : u.held = true → u.tee ≠ none
  fresh : ∀ f, u.tee = some f → f < d.nextFill
  tee : ∀ f, u.tee = some f → u.held = true → ∃ data, u.Filling data ∧
    d.fills.lookup f = some ⟨C.wholeName u.location, u.whole.length, data⟩

variable {u : Upload P} {d d' : Disk} {own : Option Nat} {io : Io} {f i : Nat} {part : Part}

theorem Upload.Ok.frame (h : u.Ok C d) (hk : Kept own d d')
    (hown : ∀ f, u.tee = some f → own ≠ some f) : u.Ok C d' where
  held := h.held
  fresh f hf := Nat.lt_of_lt_of_le (h.fresh f hf) hk.next
  tee f hf hheld := by
    obtain ⟨data, hdata, hfill⟩ := h.tee f hf hheld
    exact ⟨data, hdata, (hk.fills f (h.fresh f hf) (hown f hf)).trans hfill⟩

/-- An upload that does not hold the tee promises nothing about the fill. -/
theorem Upload.ok_of_dropped (hheld : u.held = false)
    (hfresh : ∀ f, u.tee = some f → f < d.nextFill) : u.Ok C d where
  held h := absurd h (by rw [hheld]; decide)
  fresh := hfresh
  tee f _ h := absurd h (by rw [hheld]; decide)

theorem Upload.offset_addPart (u : Upload P) (data : List UInt8) (teed : Bool)
    (hi : i ≤ u.parts.length) : (u.addPart data teed).offset i = u.offset i := by
  rw [Upload.offset, Upload.addPart, List.map_append,
    List.offset_append_of_le (by rw [List.length_map]; exact hi), Upload.offset]

theorem Upload.whole_addPart (u : Upload P) (data : List UInt8) (teed : Bool) :
    (u.addPart data teed).whole = u.whole ++ data := by
  rw [Upload.whole, Upload.addPart, List.map_append, List.flatten_append, Upload.whole]
  simp

/-- A part that is admitted is not written yet. -/
theorem Upload.Filling.addPart {held : List UInt8} (h : u.Filling held) (data : List UInt8) :
    (u.addPart data true).Filling held where
  length := by
    rw [Upload.whole_addPart, List.length_append]
    exact Nat.le_trans h.length (Nat.le_add_right _ _)
  teed part hp := by
    rcases List.mem_append.mp hp with hp | hp
    · exact h.teed part hp
    · rw [List.mem_singleton.mp hp]
  holds hok i part hi hfin := by
    by_cases hlt : i < u.parts.length
    · rw [Upload.addPart, List.getElem?_append_left hlt] at hi
      rw [u.offset_addPart data true (Nat.le_of_lt hlt)]
      exact h.holds hok i part hi hfin
    · rw [Upload.addPart, List.getElem?_append_right (Nat.le_of_not_lt hlt)] at hi
      obtain rfl := List.mem_singleton.mp (List.mem_of_getElem? hi)
      cases hfin

theorem Upload.map_endPart (hi : u.parts[i]? = some part) (finished : Bool) :
    (u.endPart i part finished).parts.map Part.data = u.parts.map Part.data := by
  refine List.ext_getElem? fun j => ?_
  rw [Upload.endPart, List.getElem?_map, List.getElem?_map, List.getElem?_set]
  split
  · rename_i hj
    subst hj
    rw [hi, if_pos (List.getElem?_eq_some_iff.mp hi).1]
    rfl
  · rfl

theorem Upload.whole_endPart (hi : u.parts[i]? = some part) (finished : Bool) :
    (u.endPart i part finished).whole = u.whole := by
  rw [Upload.whole, Upload.map_endPart hi, Upload.whole]

theorem Upload.offset_endPart (hi : u.parts[i]? = some part) (finished : Bool) (j : Nat) :
    (u.endPart i part finished).offset j = u.offset j := by
  rw [Upload.offset, Upload.map_endPart hi, Upload.offset]

/-- The parts after one of them has ended. -/
theorem Upload.parts_endPart (hi : u.parts[i]? = some part) (finished : Bool) {j : Nat}
    {part' : Part} (hj : (u.endPart i part finished).parts[j]? = some part') :
    (j ≠ i ∧ u.parts[j]? = some part') ∨
      (j = i ∧ part'.data = part.data ∧ part'.teed = part.teed ∧
        (part'.state = .finished → finished = true)) := by
  rw [Upload.endPart, List.getElem?_set] at hj
  split at hj
  · rename_i heq
    rw [if_pos (heq ▸ (List.getElem?_eq_some_iff.mp hi).1), Option.some.injEq] at hj
    subst hj
    refine Or.inr ⟨heq.symm, rfl, rfl, ?_⟩
    cases finished with
    | true => exact fun _ => rfl
    | false => exact fun h => by cases h
  · rename_i hne
    exact Or.inl ⟨fun h => hne h.symm, hj⟩

/-- A part ends: it was written where it belongs, or it counts as lost, or the tee is poisoned. -/
theorem Upload.Filling.endPart {held data : List UInt8} (h : u.Filling held)
    (hi : u.parts[i]? = some part) {finished poisoned : Bool} (hpoison : poisoned = false →
      u.poisoned = false) (hlen : data.length ≤ u.whole.length)
    (hold : poisoned = false → data = held ∨ data = held.patch 0 (u.offset i) part.data)
    (hnew : poisoned = false → finished = true → data = held.patch 0 (u.offset i) part.data) :
    Upload.Filling { u.endPart i part finished with poisoned := poisoned } data where
  length := by
    have hwhole : Upload.whole { u.endPart i part finished with poisoned := poisoned } = u.whole :=
      Upload.whole_endPart hi finished
    rw [hwhole]
    exact hlen
  teed part' hp := by
    obtain ⟨j, hj⟩ := List.mem_iff_getElem?.mp hp
    rcases Upload.parts_endPart hi finished hj with ⟨-, hj⟩ | ⟨-, -, hteed, -⟩
    · exact h.teed part' (List.mem_of_getElem? hj)
    · exact hteed.trans (h.teed part (List.mem_of_getElem? hi))
  holds hok j part' hj hfin := by
    have hoff : Upload.offset { u.endPart i part finished with poisoned := poisoned } j =
        u.offset j := Upload.offset_endPart hi finished j
    rw [hoff]
    rcases Upload.parts_endPart hi finished hj with ⟨hne, hj⟩ | ⟨rfl, hdata, -, hfin'⟩
    · have hheld := h.holds (hpoison hok) j part' hj hfin
      rcases hold hok with rfl | rfl
      · exact hheld
      · have hj' : (u.parts.map Part.data)[j]? = some part'.data := by
          rw [List.getElem?_map, hj, Option.map_some]
        have hi' : (u.parts.map Part.data)[i]? = some part.data := by
          rw [List.getElem?_map, hi, Option.map_some]
        exact hheld.patch (List.offset_disjoint hj' hi' hne) 0
    · rw [hnew hok (hfin' hfin), hdata]
      exact List.holds_patch _ _ _ _

variable [DecidableEq P] {objects : Objects P}

/-- What a step of an upload does to the cache. -/
structure Upload.Turn (C : Crates P) (objects : Objects P) (d : Disk) (own : Option Nat)
    (out : Disk × Upload P) : Prop where
  sound : Sound C objects out.1
  ok : out.2.Ok C out.1
  kept : Kept own d out.1
  tee : ∀ f, out.2.tee = some f → own = some f

/-- The fill goes with the last clone of the tee. -/
theorem Upload.Turn.settle (h : Upload.Turn C objects d own (d', u)) :
    Upload.Turn C objects d own (u.settle io d') := by
  unfold Upload.settle
  split
  · exact h
  · rename_i hidle
    split
    · exact h
    · rename_i f hf
      obtain rfl := h.tee f hf
      refine ⟨h.sound.dropFill io f, Upload.ok_of_dropped ?_ (fun _ h => by cases h),
        h.kept.trans (kept_dropFill d' io f), fun _ h => by cases h⟩
      exact Bool.eq_false_iff.mpr fun hheld => hidle (Or.inl hheld)

theorem Upload.turn_abort (hs : Sound C objects d) (h : u.Ok C d) :
    Upload.Turn C objects d u.tee (u.abort io d) := by
  have hclosed : Upload.Turn C objects d u.tee (d, { u with held := false, closed := true }) :=
    ⟨hs, Upload.ok_of_dropped rfl h.fresh, Kept.refl _ d, fun _ hf => hf⟩
  exact hclosed.settle

theorem Upload.turn_putPart (hs : Sound C objects d) (h : u.Ok C d) (data : List UInt8) :
    Upload.Turn C objects d u.tee (u.putPart io data d) := by
  unfold Upload.putPart
  split
  · rename_i f hheld hf
    obtain ⟨held, hfilling, hfill⟩ := h.tee f hf hheld
    have hs' := hs.grow io f data.length
    have hk := kept_grow d io f data.length
    have hgrown := grow_spec hfill io data.length
    have hfresh : ∀ g, u.tee = some g → g < (d.grow io f data.length).1.nextFill := fun g hg =>
      Nat.lt_of_lt_of_le (h.fresh g hg) hk.next
    rw [hf]
    split
    · rename_i d' heq
      rw [heq] at hs' hk hgrown hfresh
      refine ⟨hs', ⟨fun _ => hf ▸ Option.some_ne_none f, hfresh, ?_⟩, hk, fun g hg => hf ▸ hg⟩
      intro g hg _
      obtain rfl : f = g := Option.some.inj (hf.symm.trans hg)
      refine ⟨held, hfilling.addPart data, ?_⟩
      rw [Upload.whole_addPart, List.length_append]
      exact hgrown
    · rename_i d' heq
      rw [heq] at hs' hk hfresh
      have hdropped : Upload.Turn C objects d (some f)
          (d', { u.addPart data false with poisoned := true, held := false }) :=
        ⟨hs', Upload.ok_of_dropped rfl hfresh, hk, fun g hg => hf ▸ hg⟩
      exact hdropped.settle
  · rename_i hno
    have hheld : u.held = false := by
      cases hheld : u.held with
      | false => rfl
      | true =>
        obtain ⟨f, hf⟩ := Option.ne_none_iff_exists'.mp (h.held hheld)
        exact absurd hf (hno f hheld)
    exact ⟨hs, Upload.ok_of_dropped hheld h.fresh, Kept.refl _ d, fun _ hf => hf⟩

theorem Upload.turn_runPart (hs : Sound C objects d) (h : u.Ok C d) (hi : u.parts[i]? = some part)
    (written ok : Bool) :
    Upload.Turn C objects d u.tee (u.runPart io i part written ok d) := by
  have hwhole : (u.endPart i part (written && ok)).whole = u.whole := Upload.whole_endPart hi _
  unfold Upload.runPart
  split
  · rename_i f hwrite hf
    rw [Bool.and_eq_true, Bool.and_eq_true] at hwrite
    have hclean : u.poisoned = false := by simpa using hwrite.2
    have hs' := hs.writeAt io f part.data (u.offset i)
    have hk := kept_writeAt d io f part.data (u.offset i)
    rw [hf]
    split
    rename_i d' good heq
    have hended : Upload.Turn C objects d (some f)
        (d', { u.endPart i part (written && ok) with poisoned := !good }) := by
      rw [heq] at hs' hk
      refine ⟨hs', ⟨h.held, fun g hg => Nat.lt_of_lt_of_le (h.fresh g hg) hk.next, ?_⟩, hk,
        fun g hg => hf ▸ hg⟩
      intro g hg hheld
      obtain rfl : f = g := Option.some.inj (hf.symm.trans hg)
      obtain ⟨held, hfilling, hfill⟩ := h.tee f hf hheld
      obtain ⟨data, hdata, hlen, hgood⟩ := writeAt_spec hfill io part.data (u.offset i)
      rw [heq] at hdata hgood
      have hpatch : (!good) = false → data = held.patch 0 (u.offset i) part.data := fun hg =>
        (hgood (by simpa using hg)).2
      refine ⟨data, hfilling.endPart hi (fun _ => hclean) (hlen hfilling.length)
        (fun hg => Or.inr (hpatch hg)) (fun hg _ => hpatch hg), ?_⟩
      have hlen' : Upload.whole { u.endPart i part (written && ok) with poisoned := !good } =
        u.whole := hwhole
      rw [hlen']
      exact hdata
    exact hended.settle
  · rename_i hno
    have hended : Upload.Turn C objects d u.tee (d, u.endPart i part (written && ok)) := by
      refine ⟨hs, ⟨h.held, h.fresh, ?_⟩, Kept.refl _ d, fun _ hf => hf⟩
      intro f hf hheld
      obtain ⟨held, hfilling, hfill⟩ := h.tee f hf hheld
      refine ⟨held, hfilling.endPart hi id hfilling.length (fun _ => Or.inl rfl) ?_, ?_⟩
      · -- an admitted part of a clean tee was not written, and is lost
        intro hclean hfin
        have hteed := hfilling.teed part (List.mem_of_getElem? hi)
        have hwritten : written = true := (Bool.and_eq_true_iff.mp hfin).1
        have hcond : (part.teed && written && !u.poisoned) = true := by
          rw [hteed, hwritten, hclean]
          rfl
        exact absurd hf (hno f hcond)
      · rw [hwhole]
        exact hfill
    exact hended.settle

/-- **A prewarmed upload is published with the object it made**, or not at all. -/
theorem Upload.turn_complete (hC : C.Lawful) (hs : Sound C objects d) (h : u.Ok C d)
    (hobject : objects.lookup u.location = some u.whole)
    (hparts : ∀ part ∈ u.parts, part.state = .finished) :
    Upload.Turn C objects d u.tee (u.complete io d) := by
  unfold Upload.complete
  have hclosed : ∀ d' : Disk, Upload.Ok C d' { u with tee := none, held := false, closed := true } :=
    fun d' => Upload.ok_of_dropped rfl fun _ h => by cases h
  split
  · exact ⟨hs, hclosed d, Kept.refl _ d, fun _ h => by cases h⟩
  · rename_i f hf
    rw [hf]
    split
    · rename_i hpub
      rw [Bool.and_eq_true] at hpub
      obtain ⟨data, hfilling, hfill⟩ := h.tee f hf hpub.1
      refine ⟨hs.publish hC io hfill ?_, hclosed _, kept_publish d io f, fun _ h => by cases h⟩
      intro hlen
      have heq : data = u.whole := by
        refine List.eq_flatten_of_pieces hlen fun k q hk => ?_
        rw [List.getElem?_map] at hk
        obtain ⟨part, hpart, rfl⟩ := Option.map_eq_some_iff.mp hk
        exact hfilling.holds (by simpa using hpub.2) k part hpart
          (hparts part (List.mem_of_getElem? hpart))
      dsimp only
      rw [heq]
      exact .whole hobject
    · exact ⟨hs.dropFill io f, hclosed _, kept_dropFill d io f, fun _ h => by cases h⟩

end Uploads

/-! ## 2. The store -/

variable [DecidableEq P]

/-- The fill a call has. -/
def Call.fill : Call P → Option Nat
  | .get _ _ phase => phase.fill
  | .put _ _ fill => fill
  | .upload u => u.tee

def Call.Ok (C : Crates P) (config : CacheConfig) (objects : Objects P) (d : Disk) : Call P → Prop
  | .get p options phase => phase.Ok C config objects d p options
  | .put p payload fill =>
    objects.lookup p = some payload ∧ ∀ f, fill = some f → Claim d f (C.wholeName p) payload.length
  | .upload u => u.Ok C d

/-- **The store is consistent**: the memo and the directory tell the truth, and every call knows
what it needs about the fill that it alone has. -/
structure StoreOk (C : Crates P) (s : CachingObjectStore P) : Prop where
  sizes : SizesOk C s.objects s.sizes
  chunks : ∀ d, s.disk = some d → 0 < s.config.chunkSize
  sound : ∀ d, s.disk = some d → Sound C s.objects d
  calls : ∀ d, s.disk = some d → ∀ t call, s.calls.lookup t = some call →
    call.Ok C s.config s.objects d
  apart : ∀ t t' call call' f, s.calls.lookup t = some call → s.calls.lookup t' = some call' →
    call.fill = some f → call'.fill = some f → t = t'

section Invariant

variable {config : CacheConfig} {objects objects' : Objects P} {d d' : Disk} {own : Option Nat}
  {call : Call P} {s s' : CachingObjectStore P} {t : Nat} {io : Io}

theorem Phase.Ok.fresh {phase : Phase} {p : P} {options : GetOptions}
    (h : phase.Ok C config objects d p options) (hs : Sound C objects d) {f : Nat}
    (hf : phase.fill = some f) : f < d.nextFill := by
  cases phase with
  | fetch g n =>
    obtain ⟨b, -, -, hc⟩ := h
    cases hf
    exact hs.fresh _ _ hc
  | save g bytes res =>
    cases hf
    exact hs.fresh _ _ h.2.1
  | fetchChunk L g =>
    obtain ⟨b, -, -, -, hc⟩ := h
    cases hf
    exact hs.fresh _ _ hc
  | saveChunk L g bytes =>
    obtain ⟨b, -, -, -, -, hc⟩ := h
    cases hf
    exact hs.fresh _ _ hc
  | _ => cases hf

theorem Call.Ok.fresh (h : call.Ok C config objects d) (hs : Sound C objects d) {f : Nat}
    (hf : call.fill = some f) : f < d.nextFill := by
  cases call with
  | get p options phase => exact Phase.Ok.fresh h hs hf
  | put p payload fill => exact hs.fresh _ _ (h.2 f hf)
  | upload u => exact h.fresh f hf

theorem Call.Ok.frame (h : call.Ok C config objects d) (hs : Sound C objects d)
    (hk : Kept own d d') (hown : ∀ f, call.fill = some f → own ≠ some f)
    (hg : Grown objects objects') : call.Ok C config objects' d' := by
  cases call with
  | get p options phase => exact Phase.Ok.frame h hs hk hown hg
  | put p payload fill =>
    exact ⟨hg p payload h.1, fun f hf => (h.2 f hf).frame hs hk (hown f hf)⟩
  | upload u => exact Upload.Ok.frame h hk hown

/-- The disk cache after a step of call `t`, which had fill `own`. -/
inductive Stepped (C : Crates P) (s : CachingObjectStore P) (t : Nat) (own : Option Nat)
    (s' : CachingObjectStore P) : Prop
  | disabled (before : s.disk = none) (after : s'.disk = none)
      (fill : ∀ call' f, s'.calls.lookup t = some call' → call'.fill = some f → own = some f)
  | enabled (d d' : Disk) (before : s.disk = some d) (after : s'.disk = some d')
      (sound : Sound C s'.objects d') (kept : Kept own d d')
      (ok : ∀ call', s'.calls.lookup t = some call' → call'.Ok C s.config s'.objects d')
      (fill : ∀ call' f, s'.calls.lookup t = some call' → call'.fill = some f →
        own = some f ∨ f = d.nextFill)

/-- **One call moves, and the store stays consistent.** -/
theorem StoreOk.step_call (hs : StoreOk C s) (t : Nat) (own : Option Nat) (hconfig : s'.config = s.config)
    (hothers : ∀ t', t' ≠ t → s'.calls.lookup t' = s.calls.lookup t')
    (hown : ∀ f, own = some f → ∃ call, s.calls.lookup t = some call ∧ call.fill = some f)
    (hg : Grown s.objects s'.objects) (hz : SizesOk C s'.objects s'.sizes)
    (hdisk : Stepped C s t own s') : StoreOk C s' := by
  have hfill : ∀ call' f, s'.calls.lookup t = some call' → call'.fill = some f →
      ∀ t₂ call₂, t₂ ≠ t → s.calls.lookup t₂ = some call₂ → call₂.fill ≠ some f := by
    intro call' f hcall' hf t₂ call₂ hne hcall₂ hf₂
    have hmine : own ≠ some f := by
      intro hmine
      obtain ⟨call, hcall, hf'⟩ := hown f hmine
      exact hne (hs.apart t₂ t call₂ call f hcall₂ hcall hf₂ hf')
    cases hdisk with
    | disabled before after fill => exact hmine (fill call' f hcall' hf)
    | enabled d d' before after sound kept ok fill =>
      rcases fill call' f hcall' hf with hmine' | rfl
      · exact hmine hmine'
      · exact Nat.lt_irrefl _
          ((hs.calls d before t₂ call₂ hcall₂).fresh (hs.sound d before) hf₂)
  refine ⟨hz, ?_, ?_, ?_, ?_⟩
  · intro d' hd'
    rw [hconfig]
    cases hdisk with
    | disabled before after fill => exact absurd (after.symm.trans hd') nofun
    | enabled d _ before => exact hs.chunks d before
  · intro d' hd'
    cases hdisk with
    | disabled before after fill => exact absurd (after.symm.trans hd') nofun
    | enabled d d₁ before after sound => exact Option.some.inj (after.symm.trans hd') ▸ sound
  · intro d' hd' t' call' hcall'
    rw [hconfig]
    cases hdisk with
    | disabled before after fill => exact absurd (after.symm.trans hd') nofun
    | enabled d d₁ before after sound kept ok fill =>
      obtain rfl : d₁ = d' := Option.some.inj (after.symm.trans hd')
      by_cases ht : t' = t
      · subst ht
        exact ok call' hcall'
      · rw [hothers t' ht] at hcall'
        refine (hs.calls d before t' call' hcall').frame (hs.sound d before) kept ?_ hg
        intro f hf hmine
        obtain ⟨call, hcall, hf'⟩ := hown f hmine
        exact ht (hs.apart t' t call' call f hcall' hcall hf hf')
  · intro t₁ t₂ call₁ call₂ f h₁ h₂ hf₁ hf₂
    by_cases ht₁ : t₁ = t <;> by_cases ht₂ : t₂ = t
    · rw [ht₁, ht₂]
    · subst ht₁
      exact absurd hf₂ (hfill call₁ f h₁ hf₁ t₂ call₂ ht₂ (hothers t₂ ht₂ ▸ h₂))
    · subst ht₂
      exact absurd hf₁ (hfill call₂ f h₂ hf₂ t₁ call₁ ht₁ (hothers t₁ ht₁ ▸ h₁))
    · exact hs.apart t₁ t₂ call₁ call₂ f (hothers t₁ ht₁ ▸ h₁) (hothers t₂ ht₂ ▸ h₂) hf₁ hf₂

/-- No call moves. -/
theorem StoreOk.step_none (hs : StoreOk C s) (hconfig : s'.config = s.config)
    (hcalls : s'.calls = s.calls) (hg : Grown s.objects s'.objects)
    (hz : s'.sizes = s.sizes) (hdisk : ∀ d', s'.disk = some d' → ∃ d, s.disk = some d ∧
      Sound C s'.objects d' ∧ Kept none d d') : StoreOk C s' where
  sizes := by
    rw [hz]
    intro p n hn
    obtain ⟨b, hb, hlen⟩ := hs.sizes p n hn
    exact ⟨b, hg p b hb, hlen⟩
  chunks d' hd' := by
    obtain ⟨d, hd, -⟩ := hdisk d' hd'
    exact hconfig ▸ hs.chunks d hd
  sound d' hd' := by
    obtain ⟨d, -, hsound, -⟩ := hdisk d' hd'
    exact hsound
  calls d' hd' t call hcall := by
    obtain ⟨d, hd, -, hk⟩ := hdisk d' hd'
    rw [hcalls] at hcall
    rw [hconfig]
    exact (hs.calls d hd t call hcall).frame (hs.sound d hd) hk (fun _ _ => nofun) hg
  apart := by
    rw [hcalls]
    exact hs.apart

theorem SizesOk.mono {sizes : Sizes} (h : SizesOk C objects sizes) (hg : Grown objects objects') :
    SizesOk C objects' sizes := by
  intro p n hn
  obtain ⟨b, hb, hlen⟩ := h p n hn
  exact ⟨b, hg p b hb, hlen⟩

/-! ## 3. Steps -/

/-- Call `t` is in a new phase. -/
theorem StoreOk.insert (hs : StoreOk C s) (own : Option Nat)
    (hown : ∀ f, own = some f → ∃ call, s.calls.lookup t = some call ∧ call.fill = some f)
    {disk' : Option Disk} {sizes' : Sizes} (hg : Grown s.objects objects')
    (hz : SizesOk C objects' sizes')
    (hnone : s.disk = none → disk' = none ∧ ∀ f, call.fill = some f → own = some f)
    (hsome : ∀ d, s.disk = some d → ∃ d', disk' = some d' ∧ Sound C objects' d' ∧ Kept own d d' ∧
      call.Ok C s.config objects' d' ∧ ∀ f, call.fill = some f → own = some f ∨ f = d.nextFill) :
    StoreOk C { s with
      disk := disk', sizes := sizes', objects := objects', calls := s.calls.insert t call } := by
  have hcall : ∀ call', (s.calls.insert t call).lookup t = some call' → call = call' := by
    intro call' h
    rwa [AList.lookup_insert, Option.some.injEq] at h
  refine hs.step_call t own rfl (fun t' ht => AList.lookup_insert_ne ht) hown hg hz ?_
  cases hd : s.disk with
  | none =>
    obtain ⟨hdisk, hfill⟩ := hnone hd
    exact .disabled hd hdisk fun call' f h hf => hfill f (hcall call' h ▸ hf)
  | some d =>
    obtain ⟨d', hdisk, hsound, hk, hok, hfill⟩ := hsome d hd
    exact .enabled d d' hd hdisk hsound hk (fun call' h => hcall call' h ▸ hok)
      fun call' f h hf => hfill f (hcall call' h ▸ hf)

/-- Call `t` is over. -/
theorem StoreOk.erase (hs : StoreOk C s) (own : Option Nat)
    (hown : ∀ f, own = some f → ∃ call, s.calls.lookup t = some call ∧ call.fill = some f)
    {disk' : Option Disk} (hnone : s.disk = none → disk' = none)
    (hsome : ∀ d, s.disk = some d → ∃ d', disk' = some d' ∧ Sound C s.objects d' ∧ Kept own d d') :
    StoreOk C { s with disk := disk', calls := s.calls.erase t } := by
  have hcall : ∀ call', (s.calls.erase t).lookup t ≠ some call' := fun call' h => by
    rw [AList.lookup_erase] at h
    cases h
  refine hs.step_call t own rfl (fun t' ht => AList.lookup_erase_ne ht) hown (Grown.refl _)
    hs.sizes ?_
  cases hd : s.disk with
  | none => exact .disabled hd (hnone hd) fun call' _ h => absurd h (hcall call')
  | some d =>
    obtain ⟨d', hdisk, hsound, hk⟩ := hsome d hd
    exact .enabled d d' hd hdisk hsound hk (fun call' h => absurd h (hcall call'))
      fun call' _ h => absurd h (hcall call')

/-- A call that has no fill begins. -/
theorem StoreOk.begin (hs : StoreOk C s) (hg : Grown s.objects objects')
    (hok : ∀ d, call.Ok C s.config objects' d) (hfill : call.fill = none) :
    StoreOk C { s with objects := objects', calls := s.calls.insert t call } := by
  refine hs.insert none (fun _ h => by cases h) hg (hs.sizes.mono hg) ?_ ?_
  · exact fun hd => ⟨hd, fun f hf => by rw [hfill] at hf; cases hf⟩
  · exact fun d hd => ⟨d, hd, (hs.sound d hd).mono hg, Kept.refl _ d, hok d, fun f hf => by
      rw [hfill] at hf; cases hf⟩

/-- Objects are created, and no call moves. -/
theorem StoreOk.create (hs : StoreOk C s) (hg : Grown s.objects objects') :
    StoreOk C { s with objects := objects' } :=
  hs.step_none rfl rfl hg rfl fun d hd => ⟨d, hd, (hs.sound d hd).mono hg, Kept.refl _ d⟩

/-- Files change, and no call moves. -/
theorem StoreOk.damage (hs : StoreOk C s) (g : Disk → Disk)
    (hg : ∀ d, Sound C s.objects d → Sound C s.objects (g d) ∧ Kept none d (g d)) :
    StoreOk C { s with disk := s.disk.map g } := by
  refine hs.step_none rfl rfl (Grown.refl _) rfl fun d' hd' => ?_
  obtain ⟨d, hd, rfl⟩ := Option.map_eq_some_iff.mp hd'
  exact ⟨d, hd, hg d (hs.sound d hd)⟩

/-- A request advances, if it has no answer yet. -/
theorem advance_get {p : P} {options : GetOptions} {phase : Phase}
    (hcall : s.calls.lookup t = some (.get p options phase)) (hdone : ∀ res, phase ≠ .done res) :
    storeStep C s (.advance t io) =
      match s.withDisk (C.getStep s.config s.objects io p options s.sizes phase)
        (s.sizes, .done (C.get s.objects p options)) with
      | (s', sizes, phase) =>
        some (CachingObjectStore.setCall { s' with sizes := sizes } t (.get p options phase)) := by
  cases phase with
  | done res => exact absurd rfl (hdone res)
  | _ => simp only [storeStep, hcall]

/-- **A request gets nearer to its answer, and an answer is the backing store's.** -/
theorem StoreOk.get (hC : C.Lawful) (hs : StoreOk C s) {p : P} {options : GetOptions}
    {phase : Phase} (hcall : s.calls.lookup t = some (.get p options phase))
    (hdone : ∀ res, phase ≠ .done res) (io : Io) :
    ∃ s' phase', storeStep C s (.advance t io) = some s' ∧ StoreOk C s' ∧
      s'.objects = s.objects ∧ s'.config = s.config ∧
      s'.calls.lookup t = some (.get p options phase') ∧
      (∀ res, phase' = .done res → Agrees options (C.get s.objects p options) res) ∧
      (phase'.Nearer s.config.chunkSize phase ∨ ∃ res, phase' = .done res) := by
  have hown : ∀ f, phase.fill = some f → ∃ call, s.calls.lookup t = some call ∧
      call.fill = some f := fun f hf => ⟨_, hcall, hf⟩
  rw [advance_get hcall hdone]
  cases hd : s.disk with
  | none =>
    rw [withDisk_none hd]
    refine ⟨_, .done (C.get s.objects p options), rfl, ?_, rfl, rfl, AList.lookup_insert _, ?_,
      Or.inr ⟨_, rfl⟩⟩
    · exact hs.insert phase.fill hown (Grown.refl _) hs.sizes
        (fun hd => ⟨hd, fun f hf => by cases hf⟩) fun d hd' => absurd (hd.symm.trans hd') nofun
    · intro res hres
      cases hres
      exact Agrees.refl _ _
  | some d =>
    rw [withDisk_some hd]
    have hphase := hs.calls d hd t _ hcall
    have hturn : Turn C s.config s.objects p options d phase.fill
        (C.getStep s.config s.objects io p options s.sizes phase d) :=
      turn hC (hs.sound d hd) hs.sizes (hs.chunks d hd) hphase hdone
    refine ⟨_, _, rfl, ?_, rfl, rfl, AList.lookup_insert _, hturn.answer,
      Or.inl (nearer_getStep hphase hdone)⟩
    refine hs.insert phase.fill hown (Grown.refl _) hturn.sizes
      (fun hd' => absurd (hd.symm.trans hd') nofun) fun d' hd' => ?_
    obtain rfl : d = d' := Option.some.inj (hd.symm.trans hd')
    exact ⟨_, rfl, hturn.sound, hturn.kept, hturn.ok, hturn.fill⟩

/-- A request that is left alone comes to its answer, whatever the filesystem does. -/
theorem StoreOk.answered (hC : C.Lawful) (io : Io) {p : P} {options : GetOptions} (phase : Phase)
    (s : CachingObjectStore P) (hs : StoreOk C s)
    (hcall : s.calls.lookup t = some (.get p options phase)) :
    ∃ n s' res, Lts.run (storeStep C) s (List.replicate n (.advance t io)) = some s' ∧
      s'.calls.lookup t = some (.get p options (.done res)) := by
  by_cases hdone : ∃ res, phase = .done res
  · obtain ⟨res, rfl⟩ := hdone
    exact ⟨0, s, res, rfl, hcall⟩
  · rw [not_exists] at hdone
    obtain ⟨s₁, phase₁, hstep, hs₁, -, hconfig, hcall₁, -, hnear⟩ := hs.get hC hcall hdone io
    have hgo : ∃ n s' res, Lts.run (storeStep C) s₁ (List.replicate n (.advance t io)) = some s' ∧
        s'.calls.lookup t = some (.get p options (.done res)) := by
      rcases hnear with hnear | ⟨res, rfl⟩
      · exact StoreOk.answered hC io phase₁ s₁ hs₁ hcall₁
      · exact ⟨0, s₁, res, rfl, hcall₁⟩
    obtain ⟨n, s', res, hrun, hanswer⟩ := hgo
    exact ⟨n + 1, s', res, Lts.run_cons.mpr ⟨s₁, hstep, hrun⟩, hanswer⟩
termination_by (phase.stage, phase.rank s.config.chunkSize)
decreasing_by
  rw [hconfig]
  exact Prod.lex_def.mpr hnear

/-- What the upload of call `t` does. -/
theorem StoreOk.upload (hs : StoreOk C s) {u u' : Upload P}
    (hcall : s.calls.lookup t = some (.upload u)) (hg : Grown s.objects objects')
    (g : Disk → Disk × Upload P) (hnone : u'.tee = u.tee ∨ u'.tee = none)
    (hsome : ∀ d, s.disk = some d → Upload.Turn C objects' d u.tee (g d)) :
    StoreOk C (match CachingObjectStore.withDisk { s with objects := objects' } g u' with
      | (s, u) => s.setCall t (.upload u)) := by
  have hown : ∀ f, u.tee = some f → ∃ call, s.calls.lookup t = some call ∧ call.fill = some f :=
    fun f hf => ⟨_, hcall, hf⟩
  cases hd : s.disk with
  | none =>
    rw [withDisk_none rfl]
    refine hs.insert u.tee hown hg (hs.sizes.mono hg) (fun _ => ⟨rfl, fun f hf => ?_⟩)
      fun d hd' => absurd (hd.symm.trans hd') nofun
    rcases hnone with h | h
    · exact h ▸ hf
    · exact absurd (h.symm.trans hf) nofun
  | some d =>
    rw [withDisk_some rfl]
    have hturn := hsome d hd
    refine hs.insert u.tee hown hg (hs.sizes.mono hg) (fun hd' => absurd (hd.symm.trans hd') nofun)
      fun d' hd' => ?_
    obtain rfl : d = d' := Option.some.inj (hd.symm.trans hd')
    exact ⟨_, rfl, hturn.sound, hturn.kept, hturn.ok, fun f hf => Or.inl (hturn.tee f hf)⟩

/-- A multipart upload begins, with or without a fill. -/
theorem StoreOk.putMultipart (hs : StoreOk C s) (p : P) (io : Io) :
    StoreOk C (match s.withDisk (fun d => d.reserve io (C.wholeName p) 0) none with
      | (s, fill) =>
        s.setCall t (.upload { location := p, tee := fill, held := fill.isSome })) := by
  cases hd : s.disk with
  | none =>
    rw [withDisk_none hd]
    exact hs.insert none (fun _ h => by cases h) (Grown.refl _) hs.sizes
      (fun hd => ⟨hd, fun _ h => h⟩) fun d hd' => absurd (hd.symm.trans hd') nofun
  | some d =>
    rw [withDisk_some hd]
    obtain ⟨hsound, hk, hclaim⟩ := sound_reserve (hs.sound d hd) io (C.wholeName p) 0
    refine hs.insert none (fun _ h => by cases h) (Grown.refl _) hs.sizes
      (fun hd' => absurd (hd.symm.trans hd') nofun) fun d' hd' => ?_
    obtain rfl : d = d' := Option.some.inj (hd.symm.trans hd')
    refine ⟨_, rfl, hsound, hk, ⟨fun h => Option.isSome_iff_ne_none.mp h, ?_, ?_⟩,
      fun f hf => Or.inr (hclaim f hf).1⟩
    · exact fun f hf => hsound.fresh f _ (hclaim f hf).2
    · refine fun f hf _ => ⟨[], ⟨Nat.zero_le _, fun part hp => ?_, fun _ i part hi => ?_⟩,
        (hclaim f hf).2⟩
      · cases hp
      · cases hi

/-- The object of a `put` is offered to the cache. -/
theorem StoreOk.reservePut (hs : StoreOk C s) {p : P} {payload : List UInt8} (io : Io)
    (hcall : s.calls.lookup t = some (.put p payload none))
    (h : storeStep C s (.advance t io) = some s') : StoreOk C s' := by
  simp only [storeStep, hcall] at h
  cases hd : s.disk with
  | none =>
    rw [withDisk_none hd] at h
    cases h
    exact hs.erase none (fun _ h => by cases h) id fun d hd' => absurd (hd.symm.trans hd') nofun
  | some d =>
    have hobject : s.objects.lookup p = some payload := (hs.calls d hd t _ hcall).1
    obtain ⟨hsound, hk, hclaim⟩ := sound_reserve (hs.sound d hd) io (C.wholeName p) payload.length
    rw [withDisk_some hd] at h
    dsimp only at h
    split at h
    · cases h
      refine hs.erase none (fun _ h => by cases h) (fun hd' => absurd (hd.symm.trans hd') nofun)
        fun d' hd' => ?_
      obtain rfl : d = d' := Option.some.inj (hd.symm.trans hd')
      exact ⟨_, rfl, hsound, hk⟩
    · rename_i f hf
      cases h
      refine hs.insert none (fun _ h => by cases h) (Grown.refl _) hs.sizes
        (fun hd' => absurd (hd.symm.trans hd') nofun) fun d' hd' => ?_
      obtain rfl : d = d' := Option.some.inj (hd.symm.trans hd')
      obtain ⟨hfresh, hc⟩ := hclaim f hf
      refine ⟨_, rfl, hsound, hk, ⟨hobject, ?_⟩, ?_⟩
      · rintro g hg
        cases hg
        exact hc
      · rintro g hg
        cases hg
        exact Or.inr hfresh

/-- The object of a `put` is saved. -/
theorem StoreOk.savePut (hC : C.Lawful) (hs : StoreOk C s) {p : P} {payload : List UInt8} {f : Nat}
    (io : Io) (hcall : s.calls.lookup t = some (.put p payload (some f)))
    (h : storeStep C s (.advance t io) = some s') : StoreOk C s' := by
  simp only [storeStep, hcall] at h
  have hown : ∀ g, some f = some g → ∃ call, s.calls.lookup t = some call ∧ call.fill = some g :=
    fun g hg => ⟨_, hcall, hg⟩
  cases hd : s.disk with
  | none =>
    rw [withDisk_none hd] at h
    cases h
    exact hs.erase (some f) hown id fun d hd' => absurd (hd.symm.trans hd') nofun
  | some d =>
    obtain ⟨hobject, hclaim⟩ := hs.calls d hd t _ hcall
    rw [withDisk_some hd] at h
    cases h
    refine hs.erase (some f) hown (fun hd' => absurd (hd.symm.trans hd') nofun) fun d' hd' => ?_
    obtain rfl : d = d' := Option.some.inj (hd.symm.trans hd')
    exact ⟨_, rfl, (hs.sound d hd).save hC io (hclaim f rfl) (.whole hobject),
      kept_save d io f payload⟩

/-- A request is dropped with its fill and its lease. -/
theorem cancel_spec {phase : Phase} (hs : Sound C objects d) (h : phase.cancel io d = some d') :
    Sound C objects d' ∧ Kept phase.fill d d' := by
  unfold Phase.cancel at h
  split at h
  · cases h
    exact ⟨hs.fewer (fewer_release d _), (fewer_release d _).kept _⟩
  · cases h
    exact ⟨hs.fewer (fewer_release d _), (fewer_release d _).kept _⟩
  · cases h
    exact ⟨hs.dropFill io _, kept_dropFill d io _⟩
  · cases h
    exact ⟨hs.dropFill io _, kept_dropFill d io _⟩
  · cases h
  · cases h
  · cases h
    exact ⟨hs, Kept.refl _ d⟩

theorem StoreOk.cancel (hs : StoreOk C s) (h : storeStep C s (.cancel t io) = some s') :
    StoreOk C s' := by
  simp only [storeStep] at h
  split at h
  · rename_i p options phase hcall
    have hown : ∀ f, phase.fill = some f → ∃ call, s.calls.lookup t = some call ∧
        call.fill = some f := fun f hf => ⟨_, hcall, hf⟩
    split at h
    · rename_i hd
      cases h
      exact hs.erase phase.fill hown id fun d hd' => absurd (hd.symm.trans hd') nofun
    · rename_i d hd
      obtain ⟨d', hd', rfl⟩ := Option.map_eq_some_iff.mp h
      obtain ⟨hsound, hk⟩ := cancel_spec (hs.sound d hd) hd'
      refine hs.erase phase.fill hown (fun hd' => absurd (hd.symm.trans hd') nofun) fun d₁ hd₁ => ?_
      obtain rfl : d = d₁ := Option.some.inj (hd.symm.trans hd₁)
      exact ⟨d', rfl, hsound, hk⟩
  · cases h
    exact hs.erase none (fun _ h => by cases h) id fun d hd =>
      ⟨d, hd, hs.sound d hd, Kept.refl _ d⟩
  · cases h

/-- A file that is cut short is still a prefix. -/
theorem Sound.truncate (h : Sound C objects d) (name : String) (n : Nat)
    {data : List UInt8} (hdata : d.files.lookup name = some data) :
    Sound C objects { d with files := d.files.insert name (data.take n) } := by
  refine ⟨?_, h.sized, h.fresh⟩
  intro name' data' hn
  by_cases hname : name' = name
  · subst hname
    rw [AList.lookup_insert, Option.some.injEq] at hn
    subst hn
    exact (h.files name' data hdata).imp_right fun ⟨b, hb, hp⟩ =>
      ⟨b, hb, (List.take_prefix n data).trans hp⟩
  · rw [AList.lookup_insert_ne hname] at hn
    exact h.files name' data' hn

/-- **Every step keeps the store consistent.** -/
theorem StoreOk.step (hC : C.Lawful) (hs : StoreOk C s) {m : Move P}
    (h : storeStep C s m = some s') : StoreOk C s' := by
  cases m with
  | get t p options =>
    simp only [storeStep] at h
    split at h
    · cases h
    · cases h
      exact hs.begin (Grown.refl _) (fun _ => trivial) rfl
  | put t p payload =>
    simp only [storeStep] at h
    split at h
    · cases h
    · rename_i hnew
      rw [not_or] at hnew
      have hg := grown_insert hnew.2 payload
      cases h
      split
      · exact hs.begin hg (fun d => ⟨AList.lookup_insert _, fun _ h => by cases h⟩) rfl
      · exact hs.create hg
  | putMultipart t p io =>
    simp only [storeStep] at h
    split at h
    · cases h
    · split at h
      · cases h
        exact hs.putMultipart p io
      · cases h
        exact hs.begin (Grown.refl _)
          (fun d => Upload.ok_of_dropped rfl fun _ h => by cases h) rfl
  | advance t io =>
    cases hcall : s.calls.lookup t with
    | none =>
      simp only [storeStep, hcall] at h
      cases h
    | some call =>
      cases call with
      | get p options phase =>
        by_cases hdone : ∃ res, phase = .done res
        · obtain ⟨res, rfl⟩ := hdone
          simp only [storeStep, hcall] at h
          cases h
        · rw [not_exists] at hdone
          obtain ⟨s₁, -, hstep, hs₁, -⟩ := hs.get hC hcall hdone io
          exact Option.some.inj (hstep.symm.trans h) ▸ hs₁
      | put p payload fill =>
        cases fill with
        | none => exact hs.reservePut io hcall h
        | some f => exact hs.savePut hC io hcall h
      | upload u =>
        simp only [storeStep, hcall] at h
        cases h
  | cancel t io => exact hs.cancel h
  | putPart t data io =>
    simp only [storeStep] at h
    split at h
    · rename_i u hcall
      split at h
      · cases h
      · cases h
        exact hs.upload hcall (Grown.refl _) _ (Or.inl rfl) fun d hd =>
          Upload.turn_putPart (hs.sound d hd) (hs.calls d hd t _ hcall) data
    · cases h
  | endPart t i written ok io =>
    simp only [storeStep] at h
    split at h
    · rename_i u hcall
      split at h
      · rename_i part hi
        split at h
        · cases h
          exact hs.upload hcall (Grown.refl _) _ (Or.inl rfl) fun d hd =>
            Upload.turn_runPart (hs.sound d hd) (hs.calls d hd t _ hcall) hi written ok
        · cases h
      · cases h
    · cases h
  | complete t io =>
    simp only [storeStep] at h
    split at h
    · rename_i u hcall
      split at h
      · rename_i hready
        have hg := grown_insert hready.2.2 u.whole
        cases h
        exact hs.upload hcall hg _ (Or.inl rfl) fun d hd =>
          Upload.turn_complete hC ((hs.sound d hd).mono hg) (hs.calls d hd t _ hcall)
            (AList.lookup_insert _) hready.2.1
      · cases h
    · cases h
  | abort t io =>
    simp only [storeStep] at h
    split at h
    · rename_i u hcall
      cases h
      exact hs.upload hcall (Grown.refl _) _ (Or.inl rfl) fun d hd =>
        Upload.turn_abort (hs.sound d hd) (hs.calls d hd t _ hcall)
    · cases h
  | create p data =>
    simp only [storeStep] at h
    split at h
    · cases h
    · rename_i hnew
      cases h
      exact hs.create (grown_insert hnew data)
  | truncate name n =>
    simp only [storeStep] at h
    split at h
    · cases h
    · cases h
      refine hs.damage _ fun d hd => ?_
      split
      · exact ⟨hd, Kept.refl _ d⟩
      · exact ⟨hd.truncate name n ‹_›, Nat.le_refl _, fun _ _ _ => rfl⟩
  | remove name =>
    simp only [storeStep] at h
    split at h
    · cases h
    · cases h
      exact hs.damage (fun d => { d with files := d.files.erase name }) fun d hd =>
        ⟨⟨fun name' data hn => hd.files name' data (lookup_of_erase hn), hd.sized, hd.fresh⟩,
          ⟨Nat.le_refl _, fun _ _ _ => rfl⟩⟩

/-! ## 4. The result -/

/-- Every file a process left is a prefix of what its name stands for, or foreign. -/
theorem leave_files (hC : C.Lawful) {leftovers : List (Leftover P)} :
    ∀ name data, (C.leave objects leftovers).lookup name = some data →
      C.Foreign name ∨ ∃ b, Stands C objects name b ∧ data <+: b := by
  induction leftovers with
  | nil =>
    intro name data h
    cases h
  | cons x rest ih =>
    have hinsert : ∀ {m : AList fun _ : String => List UInt8} {name₀ : String} {data₀ : List UInt8},
        (∀ name data, m.lookup name = some data →
          C.Foreign name ∨ ∃ b, Stands C objects name b ∧ data <+: b) →
        (C.Foreign name₀ ∨ ∃ b, Stands C objects name₀ b ∧ data₀ <+: b) →
        ∀ name data, (m.insert name₀ data₀).lookup name = some data →
          C.Foreign name ∨ ∃ b, Stands C objects name b ∧ data <+: b := by
      intro m name₀ data₀ hm h₀ name data h
      by_cases hname : name = name₀
      · subst hname
        rw [AList.lookup_insert, Option.some.injEq] at h
        exact h ▸ h₀
      · rw [AList.lookup_insert_ne hname] at h
        exact hm name data h
    cases x with
    | whole p n =>
      simp only [Crates.leave]
      split
      · exact ih
      · rename_i b hb
        exact hinsert ih (Or.inr ⟨b, .whole hb, List.take_prefix _ _⟩)
    | chunk p size i n =>
      simp only [Crates.leave]
      split
      · exact ih
      · rename_i b hb
        exact hinsert ih (Or.inr ⟨_, .chunk size i hb, List.take_prefix _ _⟩)
    | temporary name id data =>
      exact hinsert ih (Or.inl (foreign_temporary hC name id))

/-- A whole file that is complete has the object's length. -/
theorem leave_whole (hC : C.Lawful) {leftovers : List (Leftover P)}
    (h : ∀ x ∈ leftovers, x.Complete objects) :
    ∀ p data, (C.leave objects leftovers).lookup (C.wholeName p) = some data →
      ∃ b, objects.lookup p = some b ∧ data.length = b.length := by
  induction leftovers with
  | nil =>
    intro p data h
    cases h
  | cons x rest ih =>
    have ih := ih fun y hy => h y (List.mem_cons_of_mem _ hy)
    have hx := h x List.mem_cons_self
    intro p data hdata
    cases x with
    | whole q n =>
      simp only [Crates.leave] at hdata
      split at hdata
      · exact ih p data hdata
      · rename_i b hb
        by_cases hname : C.wholeName p = C.wholeName q
        · rw [hname, AList.lookup_insert, Option.some.injEq] at hdata
          refine ⟨b, wholeName_inj hC hname ▸ hb, ?_⟩
          rw [← hdata, List.take_of_length_le (hx b hb)]
        · rw [AList.lookup_insert_ne hname] at hdata
          exact ih p data hdata
    | chunk q size i n =>
      simp only [Crates.leave] at hdata
      split at hdata
      · exact ih p data hdata
      · rw [AList.lookup_insert_ne (wholeName_ne_chunkName hC)] at hdata
        exact ih p data hdata
    | temporary name id bytes =>
      simp only [Crates.leave] at hdata
      rw [AList.lookup_insert_ne ((foreign_temporary hC name id).1 p).symm] at hdata
      exact ih p data hdata

/-- Startup indexes files at the length they have. -/
theorem sound_recover {rest : List (Sigma fun _ : String => List UInt8)} :
    ∀ {d : Disk}, Sound C objects d → (∀ e ∈ rest, ∀ p, e.1 = C.wholeName p →
        ∃ b, objects.lookup p = some b ∧ e.2.length = b.length) →
      Disk.recover C.isUuid io rest d = some d' → Sound C objects d' := by
  induction rest with
  | nil =>
    rintro d hs - h
    cases h
    exact hs
  | cons e rest ih =>
    intro d hs hsized h
    have hrest : ∀ e ∈ rest, ∀ p, e.1 = C.wholeName p →
        ∃ b, objects.lookup p = some b ∧ e.2.length = b.length := fun e he =>
      hsized e (List.mem_cons_of_mem _ he)
    unfold Disk.recover at h
    split at h
    · obtain ⟨d₁, hu, h⟩ := Option.bind_eq_some_iff.mp h
      exact ih (hs.fewer (fewer_unlink hu)) hrest h
    · have hroom := fewer_makeRoom d io e.2.length true
      split at h
      · cases h
      · rename_i d₁ heq
        rw [heq] at hroom
        have hs₁ : Sound C objects d₁ := hs.fewer hroom
        refine ih (d := { d₁ with
          resident := d₁.resident + e.2.length
          entries := d₁.entries.insert e.1 ⟨e.2.length, 0⟩ }) ⟨hs₁.files, ?_, hs₁.fresh⟩ hrest h
        intro p e' he'
        by_cases hname : C.wholeName p = e.1
        · rw [hname, AList.lookup_insert, Option.some.injEq] at he'
          obtain ⟨b, hb, hlen⟩ := hsized e List.mem_cons_self p hname.symm
          exact ⟨b, hb, by rw [← he']; exact hlen⟩
        · rw [AList.lookup_insert_ne hname] at he'
          exact hs₁.sized p e' he'

/-- **A store that is opened on complete files is consistent.** -/
theorem storeOk_withConfig (hC : C.Lawful) {leftovers : List (Leftover P)}
    (h : ∀ x ∈ leftovers, x.Complete objects) :
    StoreOk C (C.withConfig config io (C.leave objects leftovers) objects) := by
  have hopen : ∀ d, Disk.open C.isUuid config io (C.leave objects leftovers) = some d →
      0 < config.chunkSize ∧ Sound C objects d := by
    intro d hd
    unfold Disk.open at hd
    split at hd
    · cases hd
    · rename_i hpos
      split at hd
      · refine ⟨by omega, sound_recover ?_ ?_ hd⟩
        · exact ⟨leave_files hC, fun p e he => (by cases he), fun f x hx => (by cases hx)⟩
        · intro e he p hname
          have hlookup : (C.leave objects leftovers).lookup e.1 = some e.2 :=
            AList.mem_lookup_iff.mpr he
          rw [hname] at hlookup
          exact leave_whole hC h p e.2 hlookup
      · cases hd
  refine ⟨?_, fun d hd => (hopen d hd).1, fun d hd => (hopen d hd).2, ?_, ?_⟩
  · intro p n hn
    cases hn
  · intro d _ t call hcall
    cases hcall
  · intro t t' call call' f hcall
    cases hcall

omit [DecidableEq P] in
theorem answer_eq {p : P} {options : GetOptions} {res : Except StoreError GetResult}
    (h : s.answer t = some (p, options, res)) :
    s.calls.lookup t = some (.get p options (.done res)) := by
  unfold CachingObjectStore.answer at h
  split at h
  · rename_i hcall
    cases h
    exact hcall
  · cases h

/-- Only a request has an answer. -/
theorem answer_advance (h : storeStep C s (.advance t io) = some s') {p : P} {options : GetOptions}
    {res : Except StoreError GetResult} (hres : s'.answer t = some (p, options, res)) :
    ∃ p options phase, s.calls.lookup t = some (.get p options phase) ∧
      ∀ res, phase ≠ .done res := by
  have hanswer := answer_eq hres
  cases hcall : s.calls.lookup t with
  | none =>
    simp only [storeStep, hcall] at h
    cases h
  | some call =>
    cases call with
    | get p options phase =>
      refine ⟨p, options, phase, rfl, ?_⟩
      rintro res rfl
      simp only [storeStep, hcall] at h
      cases h
    | put p payload fill =>
      cases fill with
      | none =>
        simp only [storeStep, hcall] at h
        cases h
        split at hanswer
        · rw [AList.lookup_erase] at hanswer
          cases hanswer
        · rw [CachingObjectStore.setCall, AList.lookup_insert] at hanswer
          cases hanswer
      | some f =>
        simp only [storeStep, hcall] at h
        cases h
        rw [AList.lookup_erase] at hanswer
        cases hanswer
    | upload u =>
      simp only [storeStep, hcall] at h
      cases h

/-- In a consistent store, the step that answers a request answers it as the backing store. -/
theorem StoreOk.agrees (hC : C.Lawful) (hs : StoreOk C s) {p : P} {options : GetOptions}
    {res : Except StoreError GetResult} (hstep : storeStep C s (.advance t io) = some s')
    (hres : s'.answer t = some (p, options, res)) :
    Agrees options (C.get s.objects p options) res := by
  obtain ⟨p₁, options₁, phase, hcall, hdone⟩ := answer_advance hstep hres
  obtain ⟨s₁, phase₁, hstep₁, -, -, -, hcall₁, hagrees, -⟩ := hs.get hC hcall hdone io
  obtain rfl : s₁ = s' := Option.some.inj (hstep₁.symm.trans hstep)
  have heq := hcall₁.symm.trans (answer_eq hres)
  rw [Option.some.injEq, Call.get.injEq] at heq
  obtain ⟨rfl, rfl, hphase⟩ := heq
  exact hagrees res hphase

end Invariant

/-- **Cache transparency.**  A store is opened on a directory whose whole files are complete, and
any calls are made, advanced, dropped and damaged in any order.  Then

* the step that answers a request gives the answer the backing store has for it at that moment:
  both fail, or the object size is the same and, unless only the head was asked for, so are the
  bytes and the range;
* from every state, a request that is driven on alone comes to its answer. -/
theorem cache_transparent (hC : C.Lawful) {config : CacheConfig} {io : Io} {objects : Objects P}
    {leftovers : List (Leftover P)} (hcomplete : ∀ x ∈ leftovers, x.Complete objects)
    {ms : List (Move P)} {s : CachingObjectStore P}
    (hrun : Lts.run (storeStep C) (C.withConfig config io (C.leave objects leftovers) objects) ms =
      some s) :
    (∀ t io s' p options res, storeStep C s (.advance t io) = some s' →
      s'.answer t = some (p, options, res) → Agrees options (C.get s.objects p options) res) ∧
    ∀ t io p options phase, s.calls.lookup t = some (.get p options phase) →
      ∃ n s' res, Lts.run (storeStep C) s (List.replicate n (.advance t io)) = some s' ∧
        s'.answer t = some (p, options, res) := by
  have hs : StoreOk C s := Lts.run_inv (fun _ _ _ hstep hs => hs.step hC hstep) hrun
    (storeOk_withConfig hC hcomplete)
  refine ⟨fun t io s' p options res hstep hres => hs.agrees hC hstep hres, ?_⟩
  intro t io p options phase hcall
  obtain ⟨n, s', res, hrun', hanswer⟩ := hs.answered hC io phase s hcall
  exact ⟨n, s', res, hrun', by rw [CachingObjectStore.answer, hanswer]⟩

/-- The paths `a.parquet` (`true`) and `b.parquet` with their hashes. -/
def twoPaths : Crates Bool where
  key p :=
    if p then "58c43260b32587c2bb80ddb877b890fd2080fa5160446685ec8ebbb53a0c2ba0"
    else "4ffc98dd28432812fab8e58bf56b7a9f8dabd369d2439129b2e0c26101a78583"
  asRange r n := match r with
    | .bounded lo hi => if hi ≤ lo ∨ n ≤ lo then none else some (lo, min hi n)
    | .offset lo => if n ≤ lo then none else some (lo, n)
    | .suffix k => some (n - k, n)
  refuses _ options := options.ifNoneMatch = some "*"
  isUuid id := id = "67e55044-10b1-426f-9247-bb680e5fe0c8"

theorem twoPaths_lawful : twoPaths.Lawful where
  key_injective := by decide +kernel
  key_hash := by decide +kernel
  asRange_le r n lo hi h := by
    cases r <;> simp only [twoPaths] at h
    · split at h <;> cases h
      omega
    · split at h <;> cases h
      omega
    · cases h
      omega
  asRange_bounded lo hi n hlo hhi := by
    simp only [twoPaths]
    rw [if_neg (by omega), Nat.min_eq_left hhi]

/-- Objects of more than two bytes are cached in chunks of four. -/
def chunkedConfig : CacheConfig := ⟨2, 4, true, 11, 4, 2⟩

def tenBytes : Objects Bool :=
  (∅ : Objects Bool).insert true [0, 1, 2, 3, 4, 5, 6, 7, 8, 9]

/-- The first chunk, the first byte of the last one, and an interrupted fill. -/
def someChunks : List (Leftover Bool) :=
  [.chunk true 4 0 4, .chunk true 4 2 1,
    .temporary (twoPaths.wholeName false) "67e55044-10b1-426f-9247-bb680e5fe0c8" [1]]

/-- An upload whose second part is written first, and a range that begins in the first chunk and
ends in the last.  The first chunk's file is removed in between. -/
def mixedRead : List (Move Bool) :=
  [.putMultipart 0 false {}, .putPart 0 [7] {}, .putPart 0 [8] {}, .endPart 0 1 true true {},
      .endPart 0 0 true true {}, .complete 0 {},
      .get 1 true { range := some (.bounded 2 9) }] ++
    List.replicate 8 (.advance 1 {}) ++ [.remove (twoPaths.chunkName true 4 0)] ++
    List.replicate 2 (.advance 1 {})

theorem cache_transparent_mixed : ∃ s s',
    Lts.run (storeStep twoPaths) (twoPaths.withConfig chunkedConfig {}
      (twoPaths.leave tenBytes someChunks) tenBytes) mixedRead = some s ∧
    storeStep twoPaths s (.advance 1 {}) = some s' ∧
    s'.answer 1 = some (true, { range := some (.bounded 2 9) },
      .ok ⟨[2, 3, 4, 5, 6, 7, 8], (2, 9), 10⟩) ∧
    Agrees { range := some (.bounded 2 9) }
      (twoPaths.get s.objects true { range := some (.bounded 2 9) })
      (.ok ⟨[2, 3, 4, 5, 6, 7, 8], (2, 9), 10⟩) := by
  have hcomplete : ∀ x ∈ someChunks, x.Complete tenBytes := by
    intro x hx
    simp only [someChunks, List.mem_cons, List.not_mem_nil, or_false] at hx
    rcases hx with rfl | rfl | rfl <;> trivial
  have hobs : ∃ s ∈ Lts.run (storeStep twoPaths) (twoPaths.withConfig chunkedConfig {}
      (twoPaths.leave tenBytes someChunks) tenBytes) mixedRead,
      ∃ s' ∈ storeStep twoPaths s (.advance 1 {}),
        s'.answer 1 = some (true, { range := some (.bounded 2 9) },
          .ok ⟨[2, 3, 4, 5, 6, 7, 8], (2, 9), 10⟩) := by decide +kernel
  obtain ⟨s, hrun, s', hstep, hanswer⟩ := hobs
  exact ⟨s, s', hrun, hstep, hanswer,
    (cache_transparent twoPaths_lawful hcomplete hrun).1 1 {} s' true _ _ hstep hanswer⟩

end Ukiel.Cache
