/-
# What the cache files hold

The name of a cache file says which bytes it should hold.  §1 is that the name determines them,
§2 the invariant of the directory: every file is a prefix of its bytes, and a whole file that is
indexed has its object's length.  §3 and §4 are what the operations of the disk cache do to it,
and which fills they leave alone.
-/
import Ukiel.Cache.Accounting
import Ukiel.Cache.Store
import Ukiel.Lib.Lists

namespace Ukiel.Cache

variable {P : Type} {C : Crates P} {p q : P}

/-! ## 1. Names -/

theorem length_hash {s : List Char} (h : isHash s = true) : s.length = 64 := by
  rw [isHash, Bool.and_eq_true] at h
  exact of_decide_eq_true h.1

theorem not_mem_hash {s : List Char} (h : isHash s = true) {c : Char}
    (hc : (c.isDigit || ('a' ≤ c && c ≤ 'f') || ('A' ≤ c && c ≤ 'F')) = false) : c ∉ s := by
  intro hmem
  rw [isHash, Bool.and_eq_true, List.all_eq_true] at h
  exact absurd (h.2 c hmem) (by rw [hc]; decide)

theorem not_mem_toString {n : Nat} {c : Char} (hc : c.isDigit = false) :
    c ∉ (toString n).toList := by
  intro hmem
  rw [Nat.toString_eq_ofList_toDigits, String.toList_ofList] at hmem
  have hdigit := Nat.isDigit_of_mem_toDigits (by decide) (by decide) hmem
  rw [hc] at hdigit
  cases hdigit

theorem toString_inj {m n : Nat} (h : (toString m).toList = (toString n).toList) : m = n := by
  rw [Nat.toString_eq_ofList_toDigits, Nat.toString_eq_ofList_toDigits, String.toList_ofList,
    String.toList_ofList] at h
  calc m = Nat.ofDigitChars 10 (Nat.toDigits 10 m) 0 := Nat.ofDigitChars_ten_toDigits.symm
    _ = n := by rw [h, Nat.ofDigitChars_ten_toDigits]

/-- Two names begin with keys of one length. -/
theorem key_append_inj (hC : C.Lawful) {s t : String} (h : C.key p ++ s = C.key q ++ t) :
    p = q ∧ s = t := by
  have hlist := congrArg String.toList h
  rw [String.toList_append, String.toList_append] at hlist
  have hlen : (C.key p).toList.length = (C.key q).toList.length := by
    rw [length_hash (hC.key_hash p), length_hash (hC.key_hash q)]
  obtain ⟨hkey, hrest⟩ := List.append_inj hlist hlen
  exact ⟨hC.key_injective (String.toList_injective hkey), String.toList_injective hrest⟩

theorem wholeName_inj (hC : C.Lawful) (h : C.wholeName p = C.wholeName q) : p = q :=
  (key_append_inj hC h).1

theorem chunkName_inj (hC : C.Lawful) {size size' i i' : Nat}
    (h : C.chunkName p size i = C.chunkName q size' i') : p = q ∧ size = size' ∧ i = i' := by
  obtain ⟨hpq, hrest⟩ := key_append_inj hC h
  have hlist : (toString size).toList ++ '.' :: ("chunk-".toList ++ (toString i).toList) =
      (toString size').toList ++ '.' :: ("chunk-".toList ++ (toString i').toList) := by
    have h := congrArg String.toList ((String.append_right_inj _).mp hrest)
    rw [String.toList_append, String.toList_append, String.toList_append,
      String.toList_append] at h
    exact h
  have hsize : (toString size).toList = (toString size').toList :=
    List.append_sep_inj (not_mem_toString (by decide)) (not_mem_toString (by decide)) hlist
  rw [hsize, List.append_cancel_left_eq, List.cons.injEq, List.append_cancel_left_eq] at hlist
  exact ⟨hpq, toString_inj hsize, toString_inj hlist.2⟩

theorem wholeName_ne_chunkName (hC : C.Lawful) {size i : Nat} :
    C.wholeName p ≠ C.chunkName q size i := by
  intro h
  have hlist := congrArg String.toList (key_append_inj hC h).2
  have hmem : '-' ∈ (".file" : String).toList := by
    rw [hlist]
    simp only [String.toList_append, List.mem_append]
    exact Or.inr (Or.inr (Or.inl (by decide)))
  exact absurd hmem (by decide)

/-- The name of neither a whole file nor a chunk. -/
def Crates.Foreign (C : Crates P) (name : String) : Prop :=
  (∀ p, name ≠ C.wholeName p) ∧ ∀ p size i, name ≠ C.chunkName p size i

/-- The file of an interrupted fill. -/
theorem foreign_temporary (hC : C.Lawful) (name id : String) :
    C.Foreign (name ++ (".tmp-" ++ id)) := by
  have hmem : 'm' ∈ (name ++ (".tmp-" ++ id)).toList := by
    simp only [String.toList_append, List.mem_append]
    exact Or.inr (Or.inl (by decide))
  have hkey : ∀ p, 'm' ∉ (C.key p).toList := fun p => not_mem_hash (hC.key_hash p) (by decide)
  refine ⟨?_, ?_⟩
  · intro p h
    rw [h, Crates.wholeName, String.toList_append, List.mem_append] at hmem
    exact hmem.elim (hkey p) (by decide)
  · intro p size i h
    rw [h] at hmem
    simp only [Crates.chunkName, String.toList_append, List.mem_append] at hmem
    rcases hmem with hmem | hmem | hmem | hmem | hmem
    · exact hkey p hmem
    · exact absurd hmem (by decide)
    · exact not_mem_toString (by decide) hmem
    · exact absurd hmem (by decide)
    · exact not_mem_toString (by decide) hmem

section Contents

variable [DecidableEq P] {objects objects' : Objects P} {name : String} {b : List UInt8}

/-- `Stands objects name b`: a cache file of this name should hold `b`. -/
inductive Stands (C : Crates P) (objects : Objects P) : String → List UInt8 → Prop
  | whole {p : P} {b : List UInt8} : objects.lookup p = some b → Stands C objects (C.wholeName p) b
  | chunk {p : P} {b : List UInt8} (size i : Nat) : objects.lookup p = some b →
      Stands C objects (C.chunkName p size i) (chunkOf b size i)

theorem stands_whole (hC : C.Lawful) (h : Stands C objects (C.wholeName p) b) :
    objects.lookup p = some b := by
  generalize hn : C.wholeName p = n at h
  cases h with
  | whole hq => rwa [wholeName_inj hC hn]
  | chunk size i hq => exact absurd hn (wholeName_ne_chunkName hC)

theorem stands_chunk (hC : C.Lawful) {size i : Nat} {c : List UInt8}
    (h : Stands C objects (C.chunkName p size i) c) :
    ∃ b, objects.lookup p = some b ∧ c = chunkOf b size i := by
  generalize hn : C.chunkName p size i = n at h
  cases h with
  | whole hq => exact absurd hn.symm (wholeName_ne_chunkName hC)
  | chunk size' i' hq =>
    obtain ⟨rfl, rfl, rfl⟩ := chunkName_inj hC hn
    exact ⟨_, hq, rfl⟩

/-- Objects were created. -/
def Grown (objects objects' : Objects P) : Prop :=
  ∀ p b, objects.lookup p = some b → objects'.lookup p = some b

theorem Grown.refl (objects : Objects P) : Grown objects objects := fun _ _ h => h

theorem grown_insert (h : p ∉ objects) (b : List UInt8) : Grown objects (objects.insert p b) := by
  intro q c hq
  have hne : q ≠ p := by
    rintro rfl
    rw [AList.lookup_eq_none.mpr h] at hq
    cases hq
  rw [AList.lookup_insert_ne hne]
  exact hq

theorem Stands.mono (h : Stands C objects name b) (hg : Grown objects objects') :
    Stands C objects' name b := by
  cases h with
  | whole hq => exact .whole (hg _ _ hq)
  | chunk size i hq => exact .chunk size i (hg _ _ hq)

/-! ## 2. The directory -/

/-- **The directory is sound.** -/
structure Sound (C : Crates P) (objects : Objects P) (d : Disk) : Prop where
  files : ∀ name data, d.files.lookup name = some data →
    C.Foreign name ∨ ∃ b, Stands C objects name b ∧ data <+: b
  sized : ∀ p e, d.entries.lookup (C.wholeName p) = some e →
    ∃ b, objects.lookup p = some b ∧ e.bytes = b.length
  fresh : ∀ f x, d.fills.lookup f = some x → f < d.nextFill

variable {d d' : Disk} {io : Io} {f bytes : Nat}

theorem Sound.mono (h : Sound C objects d) (hg : Grown objects objects') :
    Sound C objects' d where
  files name data hn :=
    (h.files name data hn).imp_right fun ⟨b, hb, hp⟩ => ⟨b, hb.mono hg, hp⟩
  sized p e he :=
    let ⟨b, hb, hlen⟩ := h.sized p e he
    ⟨b, hg p b hb, hlen⟩
  fresh := h.fresh

theorem Sound.whole (hC : C.Lawful) (h : Sound C objects d) {data : List UInt8}
    (hf : d.files.lookup (C.wholeName p) = some data) :
    ∃ b, objects.lookup p = some b ∧ data <+: b := by
  rcases h.files _ _ hf with hforeign | ⟨b, hb, hp⟩
  · exact absurd rfl (hforeign.1 p)
  · exact ⟨b, stands_whole hC hb, hp⟩

theorem Sound.chunk (hC : C.Lawful) (h : Sound C objects d) {size i : Nat} {data : List UInt8}
    (hf : d.files.lookup (C.chunkName p size i) = some data) :
    ∃ b, objects.lookup p = some b ∧ data <+: chunkOf b size i := by
  rcases h.files _ _ hf with hforeign | ⟨c, hc, hp⟩
  · exact absurd rfl (hforeign.2 p size i)
  · obtain ⟨b, hb, rfl⟩ := stands_chunk hC hc
    exact ⟨b, hb, hp⟩

/-- Files and entries may have gone, and no fill has changed. -/
structure Fewer (d d' : Disk) : Prop where
  files : ∀ name data, d'.files.lookup name = some data → d.files.lookup name = some data
  entries : ∀ name e', d'.entries.lookup name = some e' →
    ∃ e, d.entries.lookup name = some e ∧ e'.bytes = e.bytes
  fills : d'.fills = d.fills
  nextFill : d'.nextFill = d.nextFill

theorem Fewer.refl (d : Disk) : Fewer d d := ⟨fun _ _ h => h, fun _ e h => ⟨e, h, rfl⟩, rfl, rfl⟩

theorem Fewer.trans {d₁ d₂ d₃ : Disk} (h : Fewer d₁ d₂) (h' : Fewer d₂ d₃) : Fewer d₁ d₃ where
  files name data hn := h.files name data (h'.files name data hn)
  entries name e hn := by
    obtain ⟨e', he', hb'⟩ := h'.entries name e hn
    obtain ⟨e'', he'', hb''⟩ := h.entries name e' he'
    exact ⟨e'', he'', hb'.trans hb''⟩
  fills := h'.fills.trans h.fills
  nextFill := h'.nextFill.trans h.nextFill

theorem Sound.fewer (h : Sound C objects d) (hf : Fewer d d') : Sound C objects d' where
  files name data hn := h.files name data (hf.files name data hn)
  sized p e he := by
    obtain ⟨e', he', hb'⟩ := hf.entries _ e he
    obtain ⟨b, hb, hlen⟩ := h.sized p e' he'
    exact ⟨b, hb, hb'.trans hlen⟩
  fresh := by
    rw [hf.fills, hf.nextFill]
    exact h.fresh

/-- An erasure keeps what it does not take. -/
theorem lookup_of_erase {α β : Type} [DecidableEq α] {m : AList fun _ : α => β} {a a' : α} {x : β}
    (h : (m.erase a').lookup a = some x) : m.lookup a = some x := by
  by_cases ha : a = a'
  · subst ha
    rw [AList.lookup_erase] at h
    cases h
  · rwa [AList.lookup_erase_ne ha] at h

theorem fewer_unlink (h : d.unlink io name = some d') : Fewer d d' := by
  rcases Disk.unlink_eq h with rfl | rfl
  · exact ⟨fun _ _ hn => lookup_of_erase hn, fun _ e he => ⟨e, he, rfl⟩, rfl, rfl⟩
  · exact Fewer.refl _

theorem fewer_pop (d : Disk) (name : String) : Fewer d (d.pop name) := by
  unfold Disk.pop
  split
  · exact Fewer.refl d
  · exact ⟨fun _ _ hn => hn, fun _ e he => ⟨e, lookup_of_erase he, rfl⟩, rfl, rfl⟩

theorem fewer_loop (io : Io) (bytes : Nat) (entry : Bool) :
    ∀ (n : Nat) (d : Disk), Fewer d (Disk.makeRoomLoop io bytes entry n d).1
  | 0, d => Fewer.refl d
  | n + 1, d => by
    unfold Disk.makeRoomLoop
    split
    · exact Fewer.refl d
    · split
      · exact Fewer.refl d
      · split
        · exact Fewer.refl d
        · rename_i d' hu
          exact ((fewer_unlink hu).trans (fewer_pop d' _)).trans (fewer_loop ..)

theorem fewer_makeRoom (d : Disk) (io : Io) (bytes : Nat) (entry : Bool) :
    Fewer d (d.makeRoom io bytes entry).1 := by
  unfold Disk.makeRoom
  split
  · exact Fewer.refl d
  · exact fewer_loop ..

/-! ## 3. Fills -/

/-- The fills keep, except the one that was worked on. -/
structure Kept (own : Option Nat) (d d' : Disk) : Prop where
  next : d.nextFill ≤ d'.nextFill
  fills : ∀ f, f < d.nextFill → own ≠ some f → d'.fills.lookup f = d.fills.lookup f

theorem Kept.refl (own : Option Nat) (d : Disk) : Kept own d d := ⟨Nat.le_refl _, fun _ _ _ => rfl⟩

theorem Kept.trans {own : Option Nat} {d₁ d₂ d₃ : Disk} (h : Kept own d₁ d₂)
    (h' : Kept own d₂ d₃) : Kept own d₁ d₃ where
  next := Nat.le_trans h.next h'.next
  fills f hf hown :=
    (h'.fills f (Nat.lt_of_lt_of_le hf h.next) hown).trans (h.fills f hf hown)

theorem Fewer.kept (h : Fewer d d') (own : Option Nat) : Kept own d d' :=
  ⟨Nat.le_of_eq h.nextFill.symm, fun _ _ _ => by rw [h.fills]⟩

theorem kept_of_fills (hnext : d'.nextFill = d.nextFill)
    (hfills : ∀ g, g ≠ f → d'.fills.lookup g = d.fills.lookup g) : Kept (some f) d d' :=
  ⟨Nat.le_of_eq hnext.symm, fun g _ hg => hfills g fun h => hg (h ▸ rfl)⟩

/-! ## 4. Operations -/

theorem fewer_invalid (d : Disk) (io : Io) (name : String) :
    Fewer d (((d.unlink io name).map (·.pop name)).getD d) := by
  cases hu : d.unlink io name with
  | none => exact Fewer.refl d
  | some d' => exact (fewer_unlink hu).trans (fewer_pop d' name)

/-- An entry is moved to the front, or gets other readers. -/
theorem fewer_insert {e e' : Entry} (he : d.entries.lookup name = some e)
    (hbytes : e'.bytes = e.bytes) : Fewer d { d with entries := d.entries.insert name e' } := by
  refine ⟨fun _ _ hn => hn, ?_, rfl, rfl⟩
  intro name' e'' h
  by_cases hn : name' = name
  · subst hn
    rw [AList.lookup_insert, Option.some.injEq] at h
    exact ⟨e, he, h ▸ hbytes⟩
  · rw [AList.lookup_insert_ne hn] at h
    exact ⟨e'', h, rfl⟩

theorem fewer_read (d : Disk) (io : Io) (name : String) : Fewer d (d.read io name).1 := by
  unfold Disk.read
  split
  · exact Fewer.refl d
  · rename_i e he
    have hfront : Fewer d { d with entries := d.entries.insert name e } := fewer_insert he rfl
    dsimp only
    split
    · exact hfront.trans (fewer_invalid _ io name)
    · split
      · exact hfront.trans (fewer_insert (AList.lookup_insert _) rfl)
      · exact hfront.trans (fewer_invalid _ io name)

/-- What a read opens is the file, of the length the index has. -/
theorem read_eq_some {x : CachedRead} (h : (d.read io name).2 = some x) :
    d.files.lookup name = some x.data ∧ x.data.length = x.bytes ∧
      ∃ e, d.entries.lookup name = some e ∧ e.bytes = x.bytes := by
  unfold Disk.read at h
  split at h
  · cases h
  · rename_i e he
    dsimp only at h
    split at h
    · cases h
    · rename_i data hdata
      split at h
      · rename_i hopen
        cases h
        exact ⟨hdata, hopen.2, e, he, rfl⟩
      · cases h

theorem fewer_release (d : Disk) (name : String) : Fewer d (d.release name) := by
  refine ⟨fun _ _ hn => hn, ?_, rfl, rfl⟩
  intro name' e' he'
  rw [Disk.release, AList.lookup_adjust] at he'
  split at he'
  · rename_i hn
    obtain ⟨e, he, rfl⟩ := Option.map_eq_some_iff.mp he'
    exact ⟨e, hn ▸ he, rfl⟩
  · exact ⟨e', he', rfl⟩

/-- What a fill is for, before anything is written. -/
def Claim (d : Disk) (f : Nat) (name : String) (bytes : Nat) : Prop :=
  d.fills.lookup f = some ⟨name, bytes, []⟩

theorem sound_reserve (h : Sound C objects d) (io : Io) (name : String) (bytes : Nat) :
    Sound C objects (d.reserve io name bytes).1 ∧ Kept none d (d.reserve io name bytes).1 ∧
      ∀ f, (d.reserve io name bytes).2 = some f → f = d.nextFill ∧
        Claim (d.reserve io name bytes).1 f name bytes := by
  unfold Disk.reserve
  split
  · exact ⟨h, Kept.refl none d, fun _ hf => by cases hf⟩
  · have hroom := fewer_makeRoom d io bytes true
    split
    · rename_i d' heq
      rw [heq] at hroom
      exact ⟨h.fewer hroom, hroom.kept none, fun _ hf => by cases hf⟩
    · rename_i d' heq
      rw [heq] at hroom
      have h' := h.fewer hroom
      split
      · refine ⟨⟨h'.files, h'.sized, ?_⟩, ?_, ?_⟩
        · intro f x hx
          by_cases hf : f = d'.nextFill
          · exact hf ▸ Nat.lt_succ_self _
          · rw [AList.lookup_insert_ne hf] at hx
            exact Nat.lt_succ_of_lt (h'.fresh f x hx)
        · refine ⟨by dsimp only; have := hroom.nextFill; dsimp only at this; omega, ?_⟩
          intro f hf _
          have hne : f ≠ d'.nextFill := by
            have := hroom.nextFill
            dsimp only at this
            omega
          dsimp only
          rw [AList.lookup_insert_ne hne, hroom.fills]
        · intro f hf
          cases hf
          exact ⟨hroom.nextFill, AList.lookup_insert _⟩
      · exact ⟨h', hroom.kept none, fun _ hf => by cases hf⟩

theorem kept_dropFill (d : Disk) (io : Io) (f : Nat) : Kept (some f) d (d.dropFill io f) := by
  unfold Disk.dropFill
  split
  · exact Kept.refl _ d
  · dsimp only
    split <;> exact kept_of_fills rfl fun g hg => AList.lookup_erase_ne hg

theorem Sound.dropFill (h : Sound C objects d) (io : Io) (f : Nat) :
    Sound C objects (d.dropFill io f) := by
  unfold Disk.dropFill
  split
  · exact h
  · dsimp only
    split <;> exact ⟨h.files, h.sized, fun g x hx => h.fresh g x (lookup_of_erase hx)⟩

theorem kept_publish (d : Disk) (io : Io) (f : Nat) : Kept (some f) d (d.publish io f).1 := by
  unfold Disk.publish
  split
  · exact Kept.refl _ d
  · split
    · exact kept_of_fills rfl fun g hg => AList.lookup_erase_ne hg
    · exact kept_dropFill d io f

/-- A fill is published with what its name stands for, or not at all. -/
theorem Sound.publish (hC : C.Lawful) (h : Sound C objects d) (io : Io) {x : Fill}
    (hx : d.fills.lookup f = some x)
    (hdata : x.data.length = x.bytes → Stands C objects x.name x.data) :
    Sound C objects (d.publish io f).1 := by
  unfold Disk.publish
  rw [hx]
  dsimp only
  split
  · rename_i hgood
    have hstands := hdata hgood.2.1
    refine ⟨?_, ?_, fun g y hy => h.fresh g y (lookup_of_erase hy)⟩
    · intro name data hn
      by_cases hname : name = x.name
      · subst hname
        rw [AList.lookup_insert, Option.some.injEq] at hn
        subst hn
        exact Or.inr ⟨x.data, hstands, List.prefix_refl _⟩
      · rw [AList.lookup_insert_ne hname] at hn
        exact h.files name data hn
    · intro p e he
      by_cases hname : C.wholeName p = x.name
      · rw [hname, AList.lookup_insert, Option.some.injEq] at he
        subst he
        rw [← hname] at hstands
        exact ⟨x.data, stands_whole hC hstands, hgood.2.1.symm⟩
      · rw [AList.lookup_insert_ne hname] at he
        exact h.sized p e he
  · exact h.dropFill io f

/-- Another fill stands where the fill was. -/
theorem kept_insert (d : Disk) (f : Nat) (x : Fill) :
    Kept (some f) d { d with fills := d.fills.insert f x } :=
  kept_of_fills rfl fun _ hg => AList.lookup_insert_ne hg

theorem Sound.insert (h : Sound C objects d) {x : Fill} (hx : d.fills.lookup f = some x)
    (x' : Fill) : Sound C objects { d with fills := d.fills.insert f x' } := by
  refine ⟨h.files, h.sized, ?_⟩
  intro g y hy
  by_cases hg : g = f
  · exact hg ▸ h.fresh f x hx
  · rw [AList.lookup_insert_ne hg] at hy
    exact h.fresh g y hy

theorem kept_writeAt (d : Disk) (io : Io) (f : Nat) (payload : List UInt8) (offset : Nat) :
    Kept (some f) d (d.writeAt io f payload offset).1 := by
  unfold Disk.writeAt
  split
  · exact Kept.refl _ d
  · split
    · exact Kept.refl _ d
    · exact kept_insert d f _

theorem Sound.writeAt (h : Sound C objects d) (io : Io) (f : Nat) (payload : List UInt8)
    (offset : Nat) : Sound C objects (d.writeAt io f payload offset).1 := by
  unfold Disk.writeAt
  split
  · exact h
  · rename_i x hx
    split
    · exact h
    · exact h.insert hx _

/-- A write keeps to the reservation, and if it succeeds the payload is where it should be. -/
theorem writeAt_spec {x : Fill} (hx : d.fills.lookup f = some x) (io : Io) (payload : List UInt8)
    (offset : Nat) : ∃ data,
      (d.writeAt io f payload offset).1.fills.lookup f = some { x with data := data } ∧
      (x.data.length ≤ x.bytes → data.length ≤ x.bytes) ∧
      ((d.writeAt io f payload offset).2 = true →
        offset + payload.length ≤ x.bytes ∧ data = x.data.patch 0 offset payload) := by
  unfold Disk.writeAt
  rw [hx]
  dsimp only
  split
  · exact ⟨x.data, hx, fun h => h, fun h => by cases h⟩
  · rename_i hfits
    refine ⟨_, AList.lookup_insert _, ?_, ?_⟩
    · intro hlen
      refine List.length_patch_le hlen ?_
      cases io.writeFails with
      | none =>
        dsimp only
        omega
      | some n =>
        have := List.length_take_le' n payload
        dsimp only
        omega
    · intro hok
      cases hw : io.writeFails with
      | none => exact ⟨Nat.le_of_not_lt hfits, rfl⟩
      | some n =>
        rw [hw] at hok
        cases hok

theorem kept_grow (d : Disk) (io : Io) (f bytes : Nat) :
    Kept (some f) d (d.grow io f bytes).1 := by
  unfold Disk.grow
  split
  · exact Kept.refl _ d
  · have hroom := fewer_makeRoom d io bytes false
    split
    · rename_i d' heq
      rw [heq] at hroom
      exact hroom.kept _
    · rename_i d' heq
      rw [heq] at hroom
      exact (hroom.kept _).trans (kept_of_fills rfl fun g hg => AList.lookup_insert_ne hg)

theorem Sound.grow (h : Sound C objects d) (io : Io) (f bytes : Nat) :
    Sound C objects (d.grow io f bytes).1 := by
  unfold Disk.grow
  split
  · exact h
  · rename_i x hx
    have hroom := fewer_makeRoom d io bytes false
    split
    · rename_i d' heq
      rw [heq] at hroom
      exact h.fewer hroom
    · rename_i d' heq
      rw [heq] at hroom
      have hx' : d'.fills.lookup f = some x := by
        rw [hroom.fills]
        exact hx
      have hgrown := (h.fewer hroom).insert hx' { x with bytes := x.bytes + bytes }
      exact ⟨hgrown.files, hgrown.sized, hgrown.fresh⟩

theorem grow_spec {x : Fill} (hx : d.fills.lookup f = some x) (io : Io) (bytes : Nat) :
    (d.grow io f bytes).1.fills.lookup f =
      some { x with bytes := x.bytes + if (d.grow io f bytes).2 then bytes else 0 } := by
  have hroom := fewer_makeRoom d io bytes false
  unfold Disk.grow
  rw [hx]
  dsimp only
  split
  · rename_i d' heq
    rw [heq] at hroom
    dsimp only
    rw [hroom.fills]
    exact hx
  · exact AList.lookup_insert _

theorem kept_save (d : Disk) (io : Io) (f : Nat) (payload : List UInt8) :
    Kept (some f) d (d.save io f payload) := by
  have hwrite := kept_writeAt d io f payload 0
  unfold Disk.save
  split
  · rename_i d' heq
    rw [heq] at hwrite
    exact hwrite.trans (kept_dropFill d' io f)
  · rename_i d' heq
    rw [heq] at hwrite
    exact hwrite.trans (kept_publish d' io f)

/-- **A fill is saved with what its name stands for.** -/
theorem Sound.save (hC : C.Lawful) (h : Sound C objects d) (io : Io) {payload : List UInt8}
    (hclaim : Claim d f name payload.length) (hstands : Stands C objects name payload) :
    Sound C objects (d.save io f payload) := by
  have hwrite := h.writeAt io f payload 0
  obtain ⟨data, hx, -, hdata⟩ := writeAt_spec hclaim io payload 0
  unfold Disk.save
  split
  · rename_i d' heq
    rw [heq] at hwrite
    exact hwrite.dropFill io f
  · rename_i d' heq
    rw [heq] at hwrite hx hdata
    obtain ⟨-, rfl⟩ := hdata rfl
    refine hwrite.publish hC io hx fun _ => ?_
    dsimp only
    rw [List.patch_nil]
    exact hstands

end Contents

end Ukiel.Cache
