/-
# The budget of the disk cache

Every operation moves several counters, and each of its failure and drop paths moves them too.
§1 is the invariant, §2 what making room does to it, §3 one lemma for each operation, §4 startup
and the result.
-/
import Ukiel.Cache.Disk

namespace Ukiel.Cache

variable {d d' : Disk} {io : Io} {name : String} {bytes : Nat} {entry : Bool} {f : Nat}

/-! ## 1. The invariant -/

/-- **The accounts of the cache are right.** -/
structure Accounted (d : Disk) : Prop where
  resident : d.resident = d.entries.tally Entry.bytes
  reserved : d.reserved = d.pending.tally id
  bytes : d.resident + d.reserved ≤ d.maxBytes
  slots : d.entries.count + d.pending.count ≤ d.maxEntries
  apart : ∀ name, d.entries.lookup name = none ∨ d.pending.lookup name = none
  filling : ∀ f x, d.fills.lookup f = some x → d.pending.lookup x.name = some x.bytes
  alone : ∀ f f' x x', d.fills.lookup f = some x → d.fills.lookup f' = some x' →
    x.name = x'.name → f = f'
  fresh : ∀ f x, d.fills.lookup f = some x → f < d.nextFill
  orphan : ∀ name n, d.pending.lookup name = some n →
    (∃ f x, d.fills.lookup f = some x ∧ x.name = name) ∨ name ∈ d.stuck

/-- An entry's bytes are part of the resident ones. -/
theorem Accounted.entry_le (h : Accounted d) {e : Entry} (he : d.entries.lookup name = some e) :
    e.bytes ≤ d.resident := h.resident ▸ AList.le_tally he

/-- A fill's bytes are part of the reserved ones. -/
theorem Accounted.fill_le (h : Accounted d) {x : Fill} (hx : d.fills.lookup f = some x) :
    x.bytes ≤ d.reserved := h.reserved ▸ AList.le_tally (f := id) (h.filling f x hx)

theorem Accounted.not_entry (h : Accounted d) {n : Nat} (hn : d.pending.lookup name = some n) :
    d.entries.lookup name = none := by
  rcases h.apart name with hnone | hnone
  · exact hnone
  · rw [hn] at hnone
    cases hnone

/-- The directory and the readers are no part of the accounts. -/
theorem Accounted.congr (h : Accounted d) (hmax : d'.maxBytes = d.maxBytes)
    (hslots : d'.maxEntries = d.maxEntries) (hres : d'.resident = d.resident)
    (hrsv : d'.reserved = d.reserved) (hpend : d'.pending = d.pending)
    (hfills : d'.fills = d.fills) (hnext : d'.nextFill = d.nextFill) (hstuck : d'.stuck = d.stuck)
    (htally : d'.entries.tally Entry.bytes = d.entries.tally Entry.bytes)
    (hcount : d'.entries.count = d.entries.count)
    (hnone : ∀ name, d.entries.lookup name = none → d'.entries.lookup name = none) :
    Accounted d' where
  resident := by rw [hres, htally, h.resident]
  reserved := by rw [hrsv, hpend, h.reserved]
  bytes := by rw [hres, hrsv, hmax]; exact h.bytes
  slots := by rw [hcount, hpend, hslots]; exact h.slots
  apart name := by
    rw [hpend]
    exact (h.apart name).imp_left (hnone name)
  filling := by rw [hfills, hpend]; exact h.filling
  alone := by rw [hfills]; exact h.alone
  fresh := by rw [hfills, hnext]; exact h.fresh
  orphan := by rw [hpend, hfills, hstuck]; exact h.orphan

/-- Another file in the directory changes nothing. -/
theorem Accounted.files (h : Accounted d) (files : AList fun _ : String => List UInt8) :
    Accounted { d with files := files } :=
  h.congr rfl rfl rfl rfl rfl rfl rfl rfl rfl rfl fun _ hn => hn

/-! ## 2. Making room -/

theorem Disk.unlink_eq (h : d.unlink io name = some d') :
    d' = { d with files := d.files.erase name } ∨ d' = d := by
  unfold Disk.unlink at h
  split at h
  · cases h
    exact Or.inr rfl
  · split at h <;> cases h
    exact Or.inl rfl

theorem Accounted.unlink (h : Accounted d) (hu : d.unlink io name = some d') : Accounted d' := by
  rcases Disk.unlink_eq hu with rfl | rfl
  · exact h.files _
  · exact h

/-- An entry goes, and its bytes are given back. -/
theorem Accounted.pop (h : Accounted d) (name : String) : Accounted (d.pop name) := by
  unfold Disk.pop
  split
  · exact h
  · rename_i e he
    have htally := AList.tally_erase (f := Entry.bytes) he
    have hcount := AList.count_erase he
    have hle := h.entry_le he
    refine ⟨?_, h.reserved, ?_, ?_, ?_, h.filling, h.alone, h.fresh, h.orphan⟩
    · have := h.resident
      dsimp only
      omega
    · have := h.bytes
      dsimp only
      omega
    · have := h.slots
      dsimp only
      omega
    · intro name'
      by_cases hn : name' = name
      · subst hn
        exact Or.inl (AList.lookup_erase ..)
      · rw [AList.lookup_erase_ne hn]
        exact h.apart name'

/-- Making room keeps the accounts, and touches neither fills nor pending rows. -/
structure Roomier (d d' : Disk) : Prop where
  pending : d'.pending = d.pending
  reserved : d'.reserved = d.reserved
  fills : d'.fills = d.fills
  nextFill : d'.nextFill = d.nextFill
  maxBytes : d'.maxBytes = d.maxBytes
  maxEntries : d'.maxEntries = d.maxEntries
  entries : ∀ name, d.entries.lookup name = none → d'.entries.lookup name = none

theorem Roomier.refl (d : Disk) : Roomier d d := ⟨rfl, rfl, rfl, rfl, rfl, rfl, fun _ h => h⟩

theorem Roomier.trans {d₁ d₂ d₃ : Disk} (h : Roomier d₁ d₂) (h' : Roomier d₂ d₃) :
    Roomier d₁ d₃ where
  pending := h'.pending.trans h.pending
  reserved := h'.reserved.trans h.reserved
  fills := h'.fills.trans h.fills
  nextFill := h'.nextFill.trans h.nextFill
  maxBytes := h'.maxBytes.trans h.maxBytes
  maxEntries := h'.maxEntries.trans h.maxEntries
  entries name hn := h'.entries name (h.entries name hn)

theorem roomier_unlink (h : d.unlink io name = some d') : Roomier d d' := by
  rcases Disk.unlink_eq h with rfl | rfl
  · exact ⟨rfl, rfl, rfl, rfl, rfl, rfl, fun _ h => h⟩
  · exact Roomier.refl _

theorem roomier_pop (d : Disk) (name : String) : Roomier d (d.pop name) := by
  unfold Disk.pop
  split
  · exact Roomier.refl d
  · refine ⟨rfl, rfl, rfl, rfl, rfl, rfl, ?_⟩
    intro name' hn
    by_cases hne : name' = name
    · subst hne
      exact AList.lookup_erase ..
    · rw [AList.lookup_erase_ne hne]
      exact hn

theorem roomier_loop (io : Io) (bytes : Nat) (entry : Bool) :
    ∀ (n : Nat) (d : Disk), Roomier d (Disk.makeRoomLoop io bytes entry n d).1
  | 0, d => Roomier.refl d
  | n + 1, d => by
    unfold Disk.makeRoomLoop
    split
    · exact Roomier.refl d
    · split
      · exact Roomier.refl d
      · split
        · exact Roomier.refl d
        · rename_i d' hu
          exact ((roomier_unlink hu).trans (roomier_pop d' _)).trans (roomier_loop ..)

theorem roomier_makeRoom (d : Disk) (io : Io) (bytes : Nat) (entry : Bool) :
    Roomier d (d.makeRoom io bytes entry).1 := by
  unfold Disk.makeRoom
  split
  · exact Roomier.refl d
  · exact roomier_loop ..

theorem Accounted.loop (io : Io) (bytes : Nat) (entry : Bool) :
    ∀ {n : Nat} {d : Disk}, Accounted d → Accounted (Disk.makeRoomLoop io bytes entry n d).1
  | 0, _, h => h
  | n + 1, d, h => by
    unfold Disk.makeRoomLoop
    split
    · exact h
    · split
      · exact h
      · split
        · exact h
        · rename_i d' hu
          exact ((h.unlink hu).pop _).loop io bytes entry

theorem Accounted.makeRoom (h : Accounted d) (io : Io) (bytes : Nat) (entry : Bool) :
    Accounted (d.makeRoom io bytes entry).1 := by
  unfold Disk.makeRoom
  split
  · exact h
  · exact h.loop io bytes entry

theorem fits_loop (io : Io) (bytes : Nat) (entry : Bool) :
    ∀ {n : Nat} {d : Disk}, (Disk.makeRoomLoop io bytes entry n d).2 = true →
      (Disk.makeRoomLoop io bytes entry n d).1.Fits bytes entry
  | 0, _, h => of_decide_eq_true h
  | n + 1, d, h => by
    unfold Disk.makeRoomLoop at h ⊢
    split at h
    · rename_i hfits
      rw [if_pos hfits]
      exact hfits
    · rename_i hfits
      rw [if_neg hfits]
      split at h
      · cases h
      · split at h
        · cases h
        · exact fits_loop io bytes entry h

/-- When room was made, it is there. -/
theorem fits_of_makeRoom (h : d.makeRoom io bytes entry = (d', true)) : d'.Fits bytes entry := by
  unfold Disk.makeRoom at h
  split at h
  · cases h
  · have hfits := fits_loop io bytes entry (congrArg Prod.snd h)
    rwa [h] at hfits

/-! ## 3. Operations -/

/-- Entries are moved to the front or get other readers. -/
theorem Accounted.entries (h : Accounted d) {e e' : Entry} (he : d.entries.lookup name = some e)
    (hbytes : e'.bytes = e.bytes) : Accounted { d with entries := d.entries.insert name e' } := by
  refine h.congr rfl rfl rfl rfl rfl rfl rfl rfl ?_ (AList.count_insert he) ?_
  · have := AList.tally_insert (f := Entry.bytes) he e'
    dsimp only
    omega
  · intro name' hn
    have hne : name' ≠ name := by
      rintro rfl
      rw [he] at hn
      cases hn
    rw [AList.lookup_insert_ne hne]
    exact hn

theorem Accounted.read (h : Accounted d) (io : Io) (name : String) :
    Accounted (d.read io name).1 := by
  unfold Disk.read
  split
  · exact h
  · rename_i e he
    have hfront : Accounted { d with entries := d.entries.insert name e } := h.entries he rfl
    have hinvalid : Accounted (((Disk.unlink { d with entries := d.entries.insert name e } io
        name).map (·.pop name)).getD { d with entries := d.entries.insert name e }) := by
      cases hu : Disk.unlink { d with entries := d.entries.insert name e } io name with
      | none => exact hfront
      | some d' => exact (hfront.unlink hu).pop name
    dsimp only
    split
    · exact hinvalid
    · split
      · have hpinned := hfront.entries (AList.lookup_insert _)
          (rfl : (⟨e.bytes, e.readers + 1⟩ : Entry).bytes = e.bytes)
        exact hpinned
      · exact hinvalid

theorem Accounted.release (h : Accounted d) (name : String) : Accounted (d.release name) := by
  refine h.congr rfl rfl rfl rfl rfl rfl rfl rfl (AList.tally_adjust fun _ => rfl)
    (AList.count_adjust _) ?_
  intro name' hn
  rw [Disk.release, AList.lookup_adjust]
  split
  · rw [hn]
    rfl
  · exact hn

/-- A fill is admitted. -/
theorem Accounted.admit (h : Accounted d) (hentry : d.entries.lookup name = none)
    (hpending : d.pending.lookup name = none) (hfits : d.Fits bytes true) :
    Accounted { d with
      pending := d.pending.insert name bytes
      reserved := d.reserved + bytes
      fills := d.fills.insert d.nextFill ⟨name, bytes, []⟩
      nextFill := d.nextFill + 1 } := by
  have hold : ∀ f x, d.fills.lookup f = some x → f ≠ d.nextFill ∧ x.name ≠ name := by
    intro f x hx
    refine ⟨Nat.ne_of_lt (h.fresh f x hx), ?_⟩
    rintro rfl
    rw [h.filling f x hx] at hpending
    cases hpending
  have hcases : ∀ f x, (d.fills.insert d.nextFill ⟨name, bytes, []⟩).lookup f = some x →
      (f = d.nextFill ∧ x = ⟨name, bytes, []⟩) ∨ d.fills.lookup f = some x := by
    intro f x hx
    by_cases hf : f = d.nextFill
    · subst hf
      rw [AList.lookup_insert, Option.some.injEq] at hx
      exact Or.inl ⟨rfl, hx.symm⟩
    · rw [AList.lookup_insert_ne hf] at hx
      exact Or.inr hx
  obtain ⟨hb, hs⟩ := hfits
  refine ⟨h.resident, ?_, ?_, ?_, ?_, ?_, ?_, ?_, ?_⟩
  · have := h.reserved
    rw [AList.tally_insert_fresh hpending]
    dsimp only [id]
    omega
  · have := h.bytes
    dsimp only
    omega
  · rw [AList.count_insert_fresh hpending]
    simp only [Bool.toNat_true] at hs
    omega
  · intro name'
    by_cases hn : name' = name
    · subst hn
      exact Or.inl hentry
    · rw [AList.lookup_insert_ne hn]
      exact h.apart name'
  · intro f x hx
    rcases hcases f x hx with ⟨-, rfl⟩ | hx
    · exact AList.lookup_insert _
    · rw [AList.lookup_insert_ne (hold f x hx).2]
      exact h.filling f x hx
  · intro f f' x x' hx hx' heq
    rcases hcases f x hx with ⟨rfl, rfl⟩ | hx <;> rcases hcases f' x' hx' with ⟨rfl, rfl⟩ | hx'
    · rfl
    · exact absurd heq.symm (hold f' x' hx').2
    · exact absurd heq (hold f x hx).2
    · exact h.alone f f' x x' hx hx' heq
  · intro f x hx
    rcases hcases f x hx with ⟨rfl, -⟩ | hx
    · exact Nat.lt_succ_self _
    · exact Nat.lt_succ_of_lt (h.fresh f x hx)
  · intro name' n hn
    by_cases hne : name' = name
    · subst hne
      exact Or.inl ⟨d.nextFill, _, AList.lookup_insert _, rfl⟩
    · rw [AList.lookup_insert_ne hne] at hn
      rcases h.orphan name' n hn with ⟨f, x, hx, hname⟩ | hstuck
      · exact Or.inl ⟨f, x, by rw [AList.lookup_insert_ne (hold f x hx).1]; exact hx, hname⟩
      · exact Or.inr hstuck

theorem Accounted.reserve (h : Accounted d) (io : Io) (name : String) (bytes : Nat) :
    Accounted (d.reserve io name bytes).1 := by
  unfold Disk.reserve
  split
  · exact h
  · rename_i hnew
    rw [not_or] at hnew
    have hroom := h.makeRoom io bytes true
    have hsame := roomier_makeRoom d io bytes true
    have hentry := hsame.entries name (AList.lookup_eq_none.mpr hnew.1)
    have hpending : (d.makeRoom io bytes true).1.pending.lookup name = none := by
      rw [hsame.pending]
      exact AList.lookup_eq_none.mpr hnew.2
    split
    · rename_i d' heq
      rw [heq] at hroom
      exact hroom
    · rename_i d' heq
      rw [heq] at hroom hentry hpending
      have hfits : d'.Fits bytes true := fits_of_makeRoom heq
      split
      · exact hroom.admit hentry hpending hfits
      · exact hroom

/-- A fill holds other data, or more bytes are reserved for it. -/
theorem Accounted.refill (h : Accounted d) {x : Fill} (hx : d.fills.lookup f = some x) (n : Nat)
    (data : List UInt8) (hfits : d.resident + d.reserved + n ≤ d.maxBytes) :
    Accounted { d with
      reserved := d.reserved + n
      pending := d.pending.insert x.name (x.bytes + n)
      fills := d.fills.insert f { x with bytes := x.bytes + n, data := data } } := by
  have hpend := h.filling f x hx
  have hcases : ∀ f' x', (d.fills.insert f { x with bytes := x.bytes + n, data := data }).lookup f' =
      some x' → ∃ x₀, d.fills.lookup f' = some x₀ ∧ x₀.name = x'.name ∧
        (f' ≠ f → x₀ = x') ∧ (f' = f → x'.bytes = x.bytes + n) := by
    intro f' x' hx'
    by_cases hf : f' = f
    · subst hf
      rw [AList.lookup_insert, Option.some.injEq] at hx'
      subst hx'
      exact ⟨x, hx, rfl, fun hne => absurd rfl hne, fun _ => rfl⟩
    · rw [AList.lookup_insert_ne hf] at hx'
      exact ⟨x', hx', rfl, fun _ => rfl, fun he => absurd he hf⟩
  refine ⟨h.resident, ?_, ?_, ?_, ?_, ?_, ?_, ?_, ?_⟩
  · have htally := AList.tally_insert (f := id) hpend (x.bytes + n)
    have := h.reserved
    simp only [id] at htally ⊢
    omega
  · dsimp only
    omega
  · rw [AList.count_insert hpend]
    exact h.slots
  · intro name
    by_cases hn : name = x.name
    · subst hn
      exact Or.inl (h.not_entry hpend)
    · rw [AList.lookup_insert_ne hn]
      exact h.apart name
  · intro f' x' hx'
    obtain ⟨x₀, hx₀, hname, hne, heq⟩ := hcases f' x' hx'
    by_cases hf : f' = f
    · subst hf
      rw [hx, Option.some.injEq] at hx₀
      subst hx₀
      rw [← hname, heq rfl]
      exact AList.lookup_insert _
    · have hother : x'.name ≠ x.name := by
        intro hsame
        exact hf (h.alone f' f x₀ x hx₀ hx (hname.trans hsame))
      rw [AList.lookup_insert_ne hother, ← hne hf]
      exact h.filling f' x₀ hx₀
  · intro f₁ f₂ x₁ x₂ hx₁ hx₂ hsame
    obtain ⟨y₁, hy₁, hname₁, -, -⟩ := hcases f₁ x₁ hx₁
    obtain ⟨y₂, hy₂, hname₂, -, -⟩ := hcases f₂ x₂ hx₂
    exact h.alone f₁ f₂ y₁ y₂ hy₁ hy₂ (by rw [hname₁, hname₂, hsame])
  · intro f' x' hx'
    obtain ⟨x₀, hx₀, -⟩ := hcases f' x' hx'
    exact h.fresh f' x₀ hx₀
  · intro name m hm
    have hold : ∃ m', d.pending.lookup name = some m' := by
      by_cases hn : name = x.name
      · subst hn
        exact ⟨_, hpend⟩
      · rw [AList.lookup_insert_ne hn] at hm
        exact ⟨m, hm⟩
    obtain ⟨m', hm'⟩ := hold
    rcases h.orphan name m' hm' with ⟨f', x', hx', hname⟩ | hstuck
    · by_cases hf : f' = f
      · subst hf
        rw [hx, Option.some.injEq] at hx'
        subst hx'
        exact Or.inl ⟨f', _, AList.lookup_insert _, hname⟩
      · exact Or.inl ⟨f', x', by rw [AList.lookup_insert_ne hf]; exact hx', hname⟩
    · exact Or.inr hstuck

theorem Accounted.grow (h : Accounted d) (io : Io) (f bytes : Nat) :
    Accounted (d.grow io f bytes).1 := by
  unfold Disk.grow
  split
  · exact h
  · rename_i x hx
    have hroom := h.makeRoom io bytes false
    have hsame := roomier_makeRoom d io bytes false
    split
    · rename_i d' heq
      rw [heq] at hroom
      exact hroom
    · rename_i d' heq
      rw [heq] at hroom hsame
      have hle := hroom.bytes
      have hbytes := (fits_of_makeRoom heq).1
      have hx' : d'.fills.lookup f = some x := by
        rw [hsame.fills]
        exact hx
      have hgrown := hroom.refill hx' bytes x.data (by dsimp only at hbytes hle ⊢; omega)
      exact hgrown

/-- Bytes are written into a fill, which is a refill by nothing, except that the pending row stays
where it is. -/
theorem Accounted.patch (h : Accounted d) {x : Fill} (hx : d.fills.lookup f = some x)
    (data : List UInt8) : Accounted { d with fills := d.fills.insert f { x with data := data } } := by
  have hwritten := h.refill hx 0 data h.bytes
  refine ⟨hwritten.resident, h.reserved, h.bytes, h.slots, h.apart, ?_, hwritten.alone,
    hwritten.fresh, ?_⟩
  · intro f' x' hx'
    by_cases hf : f' = f
    · subst hf
      rw [AList.lookup_insert, Option.some.injEq] at hx'
      subst hx'
      exact h.filling f' x hx
    · rw [AList.lookup_insert_ne hf] at hx'
      exact h.filling f' x' hx'
  · intro name m hm
    rcases h.orphan name m hm with ⟨f', x', hx', hname⟩ | hstuck
    · by_cases hf : f' = f
      · subst hf
        rw [hx, Option.some.injEq] at hx'
        subst hx'
        exact Or.inl ⟨f', _, AList.lookup_insert _, hname⟩
      · exact Or.inl ⟨f', x', by rw [AList.lookup_insert_ne hf]; exact hx', hname⟩
    · exact Or.inr hstuck

theorem Accounted.writeAt (h : Accounted d) (io : Io) (f : Nat) (payload : List UInt8)
    (offset : Nat) : Accounted (d.writeAt io f payload offset).1 := by
  unfold Disk.writeAt
  split
  · exact h
  · rename_i x hx
    split
    · exact h
    · exact h.patch hx _

/-- A fill is gone and its name with it. -/
theorem Accounted.erase (h : Accounted d) {x : Fill} (hx : d.fills.lookup f = some x) :
    Accounted { d with
      fills := d.fills.erase f
      pending := d.pending.erase x.name
      reserved := d.reserved - x.bytes } := by
  have hpend := h.filling f x hx
  have htally := AList.tally_erase (f := id) hpend
  have hcount := AList.count_erase hpend
  have hold : ∀ f' x', (d.fills.erase f).lookup f' = some x' →
      f' ≠ f ∧ d.fills.lookup f' = some x' := by
    intro f' x' hx'
    by_cases hf : f' = f
    · subst hf
      rw [AList.lookup_erase] at hx'
      cases hx'
    · exact ⟨hf, by rwa [AList.lookup_erase_ne hf] at hx'⟩
  refine ⟨h.resident, ?_, ?_, ?_, ?_, ?_, ?_, ?_, ?_⟩
  · have := h.reserved
    simp only [id] at htally
    dsimp only
    omega
  · have := h.bytes
    dsimp only
    omega
  · have := h.slots
    dsimp only
    omega
  · intro name
    by_cases hn : name = x.name
    · subst hn
      exact Or.inr (AList.lookup_erase ..)
    · rw [AList.lookup_erase_ne hn]
      exact h.apart name
  · intro f' x' hx'
    obtain ⟨hf, hx'⟩ := hold f' x' hx'
    have hother : x'.name ≠ x.name := fun hsame => hf (h.alone f' f x' x hx' hx hsame)
    rw [AList.lookup_erase_ne hother]
    exact h.filling f' x' hx'
  · intro f₁ f₂ x₁ x₂ hx₁ hx₂
    exact h.alone f₁ f₂ x₁ x₂ (hold f₁ x₁ hx₁).2 (hold f₂ x₂ hx₂).2
  · intro f' x' hx'
    exact h.fresh f' x' (hold f' x' hx').2
  · intro name m hm
    have hn : name ≠ x.name := by
      rintro rfl
      rw [AList.lookup_erase] at hm
      cases hm
    rw [AList.lookup_erase_ne hn] at hm
    rcases h.orphan name m hm with ⟨f', x', hx', hname⟩ | hstuck
    · have hf : f' ≠ f := by
        rintro rfl
        rw [hx, Option.some.injEq] at hx'
        subst hx'
        exact hn hname.symm
      exact Or.inl ⟨f', x', by rw [AList.lookup_erase_ne hf]; exact hx', hname⟩
    · exact Or.inr hstuck

/-- A fill is gone and its charge stays. -/
theorem Accounted.strand (h : Accounted d) {x : Fill} (hx : d.fills.lookup f = some x) :
    Accounted { d with fills := d.fills.erase f, stuck := x.name :: d.stuck } := by
  have hold : ∀ f' x', (d.fills.erase f).lookup f' = some x' → d.fills.lookup f' = some x' := by
    intro f' x' hx'
    by_cases hf : f' = f
    · subst hf
      rw [AList.lookup_erase] at hx'
      cases hx'
    · rwa [AList.lookup_erase_ne hf] at hx'
  refine ⟨h.resident, h.reserved, h.bytes, h.slots, h.apart, ?_, ?_, ?_, ?_⟩
  · exact fun f' x' hx' => h.filling f' x' (hold f' x' hx')
  · exact fun f₁ f₂ x₁ x₂ hx₁ hx₂ => h.alone f₁ f₂ x₁ x₂ (hold f₁ x₁ hx₁) (hold f₂ x₂ hx₂)
  · exact fun f' x' hx' => h.fresh f' x' (hold f' x' hx')
  · intro name m hm
    rcases h.orphan name m hm with ⟨f', x', hx', hname⟩ | hstuck
    · by_cases hf : f' = f
      · subst hf
        rw [hx, Option.some.injEq] at hx'
        subst hx'
        exact Or.inr (hname ▸ List.mem_cons_self)
      · exact Or.inl ⟨f', x', by rw [AList.lookup_erase_ne hf]; exact hx', hname⟩
    · exact Or.inr (List.mem_cons_of_mem _ hstuck)

theorem Accounted.dropFill (h : Accounted d) (io : Io) (f : Nat) :
    Accounted (d.dropFill io f) := by
  unfold Disk.dropFill
  split
  · exact h
  · rename_i x hx
    dsimp only
    split
    · exact h.erase hx
    · exact h.strand hx

/-- A file of its reserved length joins the entries. -/
theorem Accounted.index (h : Accounted d) (hentry : d.entries.lookup name = none)
    (hpending : d.pending.lookup name = none) (hbytes : d.resident + d.reserved + bytes ≤ d.maxBytes)
    (hslots : d.entries.count + d.pending.count + 1 ≤ d.maxEntries) (r : UInt64) :
    Accounted { d with
      resident := d.resident + bytes
      entries := d.entries.insert name ⟨bytes, r⟩ } where
  resident := by
    have := h.resident
    rw [AList.tally_insert_fresh hentry]
    dsimp only
    omega
  reserved := h.reserved
  bytes := by
    dsimp only
    omega
  slots := by
    rw [AList.count_insert_fresh hentry]
    dsimp only
    omega
  apart name' := by
    by_cases hn : name' = name
    · subst hn
      exact Or.inr hpending
    · rw [AList.lookup_insert_ne hn]
      exact h.apart name'
  filling := h.filling
  alone := h.alone
  fresh := h.fresh
  orphan := h.orphan

theorem Accounted.publish (h : Accounted d) (io : Io) (f : Nat) :
    Accounted (d.publish io f).1 := by
  unfold Disk.publish
  split
  · exact h
  · rename_i x hx
    split
    · have hpend := h.filling f x hx
      have hentry := h.not_entry hpend
      have hle := h.fill_le hx
      have hcount := AList.count_erase hpend
      have hbytes := h.bytes
      have hslots := h.slots
      exact ((h.erase hx).index hentry (AList.lookup_erase ..) (by dsimp only; omega)
        (by dsimp only; omega) 0).files (d.files.insert x.name x.data)
    · exact h.dropFill io f

/-- **Every operation keeps the accounts.** -/
theorem Accounted.step {m : DiskMove} (h : Accounted d) (hs : diskStep d m = some d') :
    Accounted d' := by
  cases m <;> cases hs
  · exact h.read _ _
  · exact h.release _
  · exact h.reserve _ _ _
  · exact h.grow _ _ _
  · exact h.writeAt _ _ _ _
  · exact h.publish _ _
  · exact h.dropFill _ _
  · exact h.files _

/-! ## 4. Startup, and the result -/

variable {isUuid : String → Bool} {config : CacheConfig}

/-- Startup has indexed some files, and no fill is under way. -/
theorem Accounted.recover {rest : List (Sigma fun _ : String => List UInt8)} :
    ∀ {d : Disk}, Accounted d → d.pending = ∅ → d.fills = ∅ →
      (∀ e ∈ rest, d.entries.lookup e.1 = none) → (rest.map Sigma.fst).Nodup →
      Disk.recover isUuid io rest d = some d' → Accounted d' := by
  induction rest with
  | nil =>
    rintro d h - - - - hs
    cases hs
    exact h
  | cons e rest ih =>
    obtain ⟨name, data⟩ := e
    intro d h hpend hfills hnew hnd hs
    rw [List.map_cons, List.nodup_cons] at hnd
    have hrest : ∀ e ∈ rest, d.entries.lookup e.1 = none := fun e he =>
      hnew e (List.mem_cons_of_mem _ he)
    unfold Disk.recover at hs
    split at hs
    · obtain ⟨d₁, hu, hs⟩ := Option.bind_eq_some_iff.mp hs
      have hsame := roomier_unlink hu
      exact ih (h.unlink hu) (hsame.pending.trans hpend) (hsame.fills.trans hfills)
        (fun e he => hsame.entries _ (hrest e he)) hnd.2 hs
    · have hroom := h.makeRoom io data.length true
      have hsame := roomier_makeRoom d io data.length true
      split at hs
      · cases hs
      · rename_i d₁ heq
        rw [heq] at hroom hsame
        obtain ⟨hb, hslots⟩ := fits_of_makeRoom heq
        have hle := hroom.bytes
        have hentry := hsame.entries name (hnew _ List.mem_cons_self)
        have hpend₁ : d₁.pending = ∅ := hsame.pending.trans hpend
        refine ih (hroom.index hentry (by rw [hpend₁]; rfl) ?_ ?_ 0) hpend₁
          (hsame.fills.trans hfills) ?_ hnd.2 hs
        · dsimp only at hb hle ⊢
          omega
        · simpa using hslots
        · intro e he
          have hne : e.1 ≠ name := by
            rintro rfl
            exact hnd.1 (List.mem_map.mpr ⟨e, he, rfl⟩)
          dsimp only
          rw [AList.lookup_insert_ne hne]
          exact hsame.entries _ (hrest e he)

theorem accounted_open {listing : AList fun _ : String => List UInt8}
    (hs : Disk.open isUuid config io listing = some d) : Accounted d := by
  unfold Disk.open at hs
  split at hs
  · cases hs
  · split at hs
    · have hempty : Accounted
          { maxBytes := config.maxBytes, maxEntries := config.maxEntries, files := listing } := by
        refine ⟨rfl, rfl, Nat.zero_le _, Nat.zero_le _, fun _ => Or.inl rfl, ?_, ?_, ?_, ?_⟩
        · intro f x hx
          cases hx
        · intro f f' x x' hx
          cases hx
        · intro f x hx
          cases hx
        · intro name n hn
          cases hn
      exact hempty.recover rfl rfl (fun _ _ => rfl) listing.nodupKeys hs
    · cases hs

/-- The limits are those of the configuration for good. -/
theorem limits_recover {rest : List (Sigma fun _ : String => List UInt8)} :
    ∀ {d : Disk}, Disk.recover isUuid io rest d = some d' →
      d'.maxBytes = d.maxBytes ∧ d'.maxEntries = d.maxEntries := by
  induction rest with
  | nil =>
    rintro d hs
    cases hs
    exact ⟨rfl, rfl⟩
  | cons e rest ih =>
    intro d hs
    unfold Disk.recover at hs
    split at hs
    · obtain ⟨d₁, hu, hs⟩ := Option.bind_eq_some_iff.mp hs
      have hsame := roomier_unlink hu
      obtain ⟨hb, hm⟩ := ih hs
      exact ⟨hb.trans hsame.maxBytes, hm.trans hsame.maxEntries⟩
    · have hsame := roomier_makeRoom d io e.2.length true
      split at hs
      · cases hs
      · rename_i d₁ heq
        rw [heq] at hsame
        obtain ⟨hb, hm⟩ := ih hs
        exact ⟨hb.trans hsame.maxBytes, hm.trans hsame.maxEntries⟩

theorem limits_open {listing : AList fun _ : String => List UInt8}
    (hs : Disk.open isUuid config io listing = some d) :
    d.maxBytes = config.maxBytes ∧ d.maxEntries = config.maxEntries := by
  unfold Disk.open at hs
  split at hs
  · cases hs
  · split at hs
    · exact limits_recover hs
    · cases hs

theorem limits_dropFill (d : Disk) (io : Io) (f : Nat) :
    (d.dropFill io f).maxBytes = d.maxBytes ∧ (d.dropFill io f).maxEntries = d.maxEntries := by
  unfold Disk.dropFill
  split
  · exact ⟨rfl, rfl⟩
  · dsimp only
    split <;> exact ⟨rfl, rfl⟩

theorem limits_read (d : Disk) (io : Io) (name : String) :
    (d.read io name).1.maxBytes = d.maxBytes ∧ (d.read io name).1.maxEntries = d.maxEntries := by
  unfold Disk.read
  split
  · exact ⟨rfl, rfl⟩
  · rename_i e he
    have hinvalid : ∀ d₀ : Disk, (((d₀.unlink io name).map (·.pop name)).getD d₀).maxBytes =
        d₀.maxBytes ∧ (((d₀.unlink io name).map (·.pop name)).getD d₀).maxEntries =
          d₀.maxEntries := by
      intro d₀
      cases hu : d₀.unlink io name with
      | none => exact ⟨rfl, rfl⟩
      | some d₁ =>
        have hsame := (roomier_unlink hu).trans (roomier_pop d₁ name)
        exact ⟨hsame.maxBytes, hsame.maxEntries⟩
    dsimp only
    split
    · exact hinvalid _
    · split
      · exact ⟨rfl, rfl⟩
      · exact hinvalid _

theorem limits_step {m : DiskMove} (hs : diskStep d m = some d') :
    d'.maxBytes = d.maxBytes ∧ d'.maxEntries = d.maxEntries := by
  cases m <;> cases hs
  · exact limits_read d _ _
  · exact ⟨rfl, rfl⟩
  · rename_i name bytes io
    have hsame := roomier_makeRoom d io bytes true
    unfold Disk.reserve
    split
    · exact ⟨rfl, rfl⟩
    · split
      · rename_i d₁ heq
        rw [heq] at hsame
        exact ⟨hsame.maxBytes, hsame.maxEntries⟩
      · rename_i d₁ heq
        rw [heq] at hsame
        split <;> exact ⟨hsame.maxBytes, hsame.maxEntries⟩
  · rename_i f bytes io
    have hsame := roomier_makeRoom d io bytes false
    unfold Disk.grow
    split
    · exact ⟨rfl, rfl⟩
    · split
      · rename_i d₁ heq
        rw [heq] at hsame
        exact ⟨hsame.maxBytes, hsame.maxEntries⟩
      · rename_i d₁ heq
        rw [heq] at hsame
        exact ⟨hsame.maxBytes, hsame.maxEntries⟩
  · unfold Disk.writeAt
    split
    · exact ⟨rfl, rfl⟩
    · split <;> exact ⟨rfl, rfl⟩
  · rename_i f io
    unfold Disk.publish
    split
    · exact ⟨rfl, rfl⟩
    · split
      · exact ⟨rfl, rfl⟩
      · exact limits_dropFill d io f
  · exact limits_dropFill d _ _
  · exact ⟨rfl, rfl⟩

/-- **Disk cache accounting.**  Whatever startup found, and after any interleaving of operations,
each of which may fail where the filesystem lets it:

* `resident` and `reserved` are the sums over the entries and over the pending table, and together
  with the numbers of rows they keep to the configured limits;
* no name is both an entry and pending;
* a pending row without its fill has a temporary file that could not be unlinked;
* what an operation may take off a counter, an entry's bytes or a fill's, is never more than is
  on it. -/
theorem disk_accounting {listing : AList fun _ : String => List UInt8} {ms : List DiskMove}
    (hopen : Disk.open isUuid config io listing = some d)
    (hrun : Lts.run diskStep d ms = some d') :
    d'.resident = d'.entries.tally Entry.bytes ∧ d'.reserved = d'.pending.tally id ∧
      d'.resident + d'.reserved ≤ config.maxBytes ∧
      d'.entries.count + d'.pending.count ≤ config.maxEntries ∧
      (∀ name, name ∉ d'.entries ∨ name ∉ d'.pending) ∧
      (∀ name, name ∈ d'.pending →
        (∃ f x, d'.fills.lookup f = some x ∧ x.name = name) ∨ name ∈ d'.stuck) ∧
      (∀ name e, d'.entries.lookup name = some e → e.bytes ≤ d'.resident) ∧
      ∀ f x, d'.fills.lookup f = some x → x.bytes ≤ d'.reserved := by
  have hlimits : Accounted d ∧ d.maxBytes = config.maxBytes ∧ d.maxEntries = config.maxEntries :=
    ⟨accounted_open hopen, limits_open hopen⟩
  obtain ⟨h, hbytes, hslots⟩ := Lts.run_inv (I := fun d : Disk =>
    Accounted d ∧ d.maxBytes = config.maxBytes ∧ d.maxEntries = config.maxEntries)
    (fun _ _ _ hs h => ⟨h.1.step hs, (limits_step hs).1.trans h.2.1,
      (limits_step hs).2.trans h.2.2⟩) hrun hlimits
  refine ⟨h.resident, h.reserved, hbytes ▸ h.bytes, hslots ▸ h.slots, ?_, ?_, ?_, ?_⟩
  · intro name
    rw [← AList.lookup_eq_none, ← AList.lookup_eq_none]
    exact h.apart name
  · intro name hn
    obtain ⟨n, hn⟩ := Option.isSome_iff_exists.mp (AList.lookup_isSome.mpr hn)
    exact h.orphan name n hn
  · exact fun name e he => h.entry_le he
  · exact fun f x hx => h.fill_le hx

/-- Eight bytes and two entries. -/
def smallConfig : CacheConfig := ⟨4, 4, true, 8, 2, 16⟩

def hexName (c : Char) : String := String.ofList (List.replicate 64 c ++ ".file".toList)

/-- A directory left by a cache with other limits: three files, of which one is too large and one
is an interrupted fill. -/
def leftover : AList fun _ : String => List UInt8 :=
  ((∅ : AList fun _ : String => List UInt8).insert (hexName 'a') [1, 2, 3]).insert (hexName 'b')
    (List.replicate 9 0) |>.insert (hexName 'c' ++ ".tmp-u") [1]

/-- A fill is published in place of the old file, another one grows past the limit and cannot be
cleaned up, and a file turns out to be short. -/
def churn : List DiskMove :=
  [.reserve (hexName 'd') 5 {}, .reserve (hexName 'e') 1 {},
    .writeAt 0 [1, 2, 3, 4, 5] 0 {}, .publish 0 {}, .grow 1 9 {}, .publish 1 { unlinkTmp := false },
    .outside (hexName 'd') (some [1]), .read (hexName 'd') {}]

theorem disk_accounting_churn : ∃ d d', Disk.open (· = "u") smallConfig {} leftover = some d ∧
    Lts.run diskStep d churn = some d' ∧ d'.entries.count = 0 ∧ d'.stuck = [hexName 'e'] ∧
      d'.resident = 0 ∧ d'.reserved = 1 ∧ d'.resident + d'.reserved ≤ 8 := by
  have hobs : ∃ d ∈ Disk.open (· = "u") smallConfig {} leftover,
      ∃ d' ∈ Lts.run diskStep d churn, d'.entries.count = 0 ∧ d'.stuck = [hexName 'e'] ∧
        d'.resident = 0 ∧ d'.reserved = 1 := by decide +kernel
  obtain ⟨d, hopen, d', hrun, hcount, hstuck, hres, hrsv⟩ := hobs
  exact ⟨d, d', hopen, hrun, hcount, hstuck, hres, hrsv, (disk_accounting hopen hrun).2.2.1⟩

end Ukiel.Cache
