/-
# Who reads an entry

`cache/disk.rs`: the `readers` of an entry, against the `CachedRead`s that are held.

A `ReadLease` knows its entry by name only.  An entry whose file turns out to be invalid is
dropped however many read it, the name can then be filled again, and an old lease that is dropped
after that takes a reader off an entry it was never counted in: at zero readers the `usize` wraps
(in a release build) and the entry is pinned for good.  `pins_exact_iff`: nothing else can make the
count wrong.

Which publication a lease is from is recorded beside the cache (`Pins`) and read by nobody in it.
-/
import Ukiel.Cache.Accounting

namespace Ukiel.Cache

/-! ## 1. Leases -/

/-- A `ReadLease`: the name it has, and which of the entries of that name it was taken from. -/
structure Lease where
  name : String
  entry : Nat
deriving DecidableEq

/-- The cache with the leases that are held. -/
structure Pins where
  disk : Disk
  /-- The number of the entry that has the name now: how often the name was published. -/
  entryNo : String → Nat := fun _ => 0
  leases : List Lease := []

inductive PinMove where
  | disk (m : DiskMove)
  /-- A held `CachedRead` is dropped. -/
  | drop (l : Lease)

/-- The leases after a read. -/
def Pins.lend (p : Pins) (name : String) : Option CachedRead → List Lease
  | none => p.leases
  | some _ => ⟨name, p.entryNo name⟩ :: p.leases

/-- The numbers after a publication that may have failed. -/
def Pins.renew (p : Pins) (f : Nat) (published : Bool) : String → Nat :=
  match published, p.disk.fills.lookup f with
  | true, some fill => Function.update p.entryNo fill.name (p.entryNo fill.name + 1)
  | _, _ => p.entryNo

/-- **One step of the cache and of those who hold its reads.**  Readers are released through a
lease that is held. -/
def pinStep (p : Pins) : PinMove → Option Pins
  | .disk (.read name io) =>
    let r := p.disk.read io name
    some { p with disk := r.1, leases := p.lend name r.2 }
  | .disk (.publish f io) =>
    let r := p.disk.publish io f
    some { p with disk := r.1, entryNo := p.renew f r.2 }
  | .disk (.release _) => none
  | .disk m => (diskStep p.disk m).map fun d => { p with disk := d }
  | .drop l =>
    if l ∈ p.leases then
      some { p with disk := p.disk.release l.name, leases := p.leases.erase l }
    else none

/-! ## 2. What is promised, and when it is kept -/

/-- **Every entry counts the leases taken from it**, and none with such a lease is evicted. -/
structure PinsExact (p : Pins) : Prop where
  readers : ∀ name e, p.disk.entries.lookup name = some e →
    e.readers.toNat = p.leases.count ⟨name, p.entryNo name⟩
  spared : ∀ name ∈ p.disk.entries, ⟨name, p.entryNo name⟩ ∈ p.leases →
    ∀ io bytes entry, name ∈ (p.disk.makeRoom io bytes entry).1.entries

/-- `readers -= 1` at zero. -/
def Underflows (p : Pins) : PinMove → Prop
  | .drop l => ∃ e, p.disk.entries.lookup l.name = some e ∧ e.readers = 0
  | .disk _ => False

/-- A lease is dropped while its own entry is in the index, or none of that name is; and a read
that succeeds finds room in the `usize`. -/
def OwnEntry (p : Pins) : PinMove → Prop
  | .drop l => l.name ∈ p.disk.entries → l.entry = p.entryNo l.name
  | .disk (.read name io) => (p.disk.read io name).2.isSome →
      ∀ e ∈ p.disk.entries.lookup name, e.readers.toNat + 1 < 2 ^ 64
  | .disk _ => True

instance : ∀ p m, Decidable (OwnEntry p m)
  | p, .drop l => inferInstanceAs (Decidable (l.name ∈ p.disk.entries → _))
  | p, .disk (.read name io) => inferInstanceAs (Decidable ((p.disk.read io name).2.isSome → _))
  | _, .disk (.release _) => inferInstanceAs (Decidable True)
  | _, .disk (.reserve ..) => inferInstanceAs (Decidable True)
  | _, .disk (.grow ..) => inferInstanceAs (Decidable True)
  | _, .disk (.writeAt ..) => inferInstanceAs (Decidable True)
  | _, .disk (.publish ..) => inferInstanceAs (Decidable True)
  | _, .disk (.drop ..) => inferInstanceAs (Decidable True)
  | _, .disk (.outside ..) => inferInstanceAs (Decidable True)

/-! ## 3. What the operations do to the entries -/

variable {d d' : Disk} {io : Io} {name : String} {bytes : Nat} {entry : Bool}

theorem Disk.victim_unread (h : d.victim = some name) :
    ∃ e, d.entries.lookup name = some e ∧ e.readers = 0 := by
  unfold Disk.victim at h
  obtain ⟨⟨name', e⟩, he, rfl⟩ := Option.map_eq_some_iff.mp h
  have hmem := List.mem_reverse.mp (List.mem_of_find?_eq_some he)
  refine ⟨e, AList.mem_lookup_iff.mpr hmem, ?_⟩
  simpa using List.find?_some he

theorem Disk.lookup_pop (d : Disk) (name other : String) :
    (d.pop name).entries.lookup other = if other = name then none else d.entries.lookup other := by
  unfold Disk.pop
  split
  · rename_i hnone
    split
    · rename_i heq
      rw [heq, hnone]
    · rfl
  · split
    · rename_i heq
      rw [heq]
      exact AList.lookup_erase ..
    · rename_i hne
      exact AList.lookup_erase_ne hne

theorem Disk.unlink_entries (h : d.unlink io name = some d') : d'.entries = d.entries := by
  rcases Disk.unlink_eq h with rfl | rfl <;> rfl

/-- Making room drops entries that nobody reads, and no others. -/
theorem makeRoomLoop_entries (io : Io) (bytes : Nat) (entry : Bool) :
    ∀ (n : Nat) (d : Disk),
      (∀ name e, (Disk.makeRoomLoop io bytes entry n d).1.entries.lookup name = some e →
        d.entries.lookup name = some e) ∧
      ∀ name e, d.entries.lookup name = some e → e.readers ≠ 0 →
        (Disk.makeRoomLoop io bytes entry n d).1.entries.lookup name = some e
  | 0, d => ⟨fun _ _ h => h, fun _ _ h _ => h⟩
  | n + 1, d => by
    unfold Disk.makeRoomLoop
    split
    · exact ⟨fun _ _ h => h, fun _ _ h _ => h⟩
    · split
      · exact ⟨fun _ _ h => h, fun _ _ h _ => h⟩
      · rename_i victim hvictim
        split
        · exact ⟨fun _ _ h => h, fun _ _ h _ => h⟩
        · rename_i d' hunlink
          obtain ⟨hsub, hkept⟩ := makeRoomLoop_entries io bytes entry n (d'.pop victim)
          have hpop : ∀ name, (d'.pop victim).entries.lookup name =
              if name = victim then none else d.entries.lookup name := by
            intro name
            rw [Disk.lookup_pop, Disk.unlink_entries hunlink]
          constructor
          · intro name e he
            have := hsub name e he
            rw [hpop] at this
            split at this
            · cases this
            · exact this
          · intro name e he hread
            refine hkept name e ?_ hread
            rw [hpop, if_neg ?_]
            · exact he
            · rintro rfl
              obtain ⟨e', he', hzero⟩ := Disk.victim_unread hvictim
              rw [he] at he'
              cases he'
              exact hread hzero

theorem makeRoom_lookup {e : Entry}
    (h : (d.makeRoom io bytes entry).1.entries.lookup name = some e) :
    d.entries.lookup name = some e := by
  unfold Disk.makeRoom at h
  split at h
  · exact h
  · exact (makeRoomLoop_entries io bytes entry _ d).1 name e h

theorem makeRoom_keeps_read {e : Entry} (h : d.entries.lookup name = some e)
    (hread : e.readers ≠ 0) : (d.makeRoom io bytes entry).1.entries.lookup name = some e := by
  unfold Disk.makeRoom
  split
  · exact h
  · exact (makeRoomLoop_entries io bytes entry _ d).2 name e h hread

/-- A read either pins the entry, or leaves every entry it keeps as it was. -/
theorem Disk.read_cases (d : Disk) (io : Io) (name : String) :
    (∃ e r, d.entries.lookup name = some e ∧ (d.read io name).2 = some r ∧
      ∀ other, (d.read io name).1.entries.lookup other =
        if other = name then some { e with readers := e.readers + 1 }
        else d.entries.lookup other) ∨
    ((d.read io name).2 = none ∧ ∀ other e,
      (d.read io name).1.entries.lookup other = some e → d.entries.lookup other = some e) := by
  unfold Disk.read
  split
  · exact Or.inr ⟨rfl, fun _ _ h => h⟩
  · rename_i e he
    have hfront : ∀ other, (d.entries.insert name e).lookup other = d.entries.lookup other := by
      intro other
      by_cases hne : other = name
      · rw [hne, AList.lookup_insert, he]
      · exact AList.lookup_insert_ne hne
    have hinvalid : ∀ other e',
        (((Disk.unlink { d with entries := d.entries.insert name e } io name).map
          fun d : Disk => d.pop name).getD { d with entries := d.entries.insert name e }).entries.lookup other =
            some e' → d.entries.lookup other = some e' := by
      intro other e' h
      cases hu : Disk.unlink { d with entries := d.entries.insert name e } io name with
      | none =>
        rw [hu] at h
        exact hfront other ▸ h
      | some d' =>
        rw [hu] at h
        simp only [Option.map_some, Option.getD_some] at h
        rw [Disk.lookup_pop, Disk.unlink_entries hu] at h
        split at h
        · cases h
        · exact hfront other ▸ h
    dsimp only
    split
    · exact Or.inr ⟨rfl, hinvalid⟩
    · split
      · refine Or.inl ⟨e, _, he, rfl, ?_⟩
        intro other
        by_cases hne : other = name
        · rw [if_pos hne, hne]
          exact AList.lookup_insert _
        · rw [if_neg hne]
          exact (AList.lookup_insert_ne hne).trans (hfront other)
      · exact Or.inr ⟨rfl, hinvalid⟩

theorem Disk.release_lookup (d : Disk) (name other : String) :
    (d.release name).entries.lookup other =
      if other = name then
        (d.entries.lookup other).map fun e => { e with readers := e.readers - 1 }
      else d.entries.lookup other := by
  rw [Disk.release, AList.lookup_adjust]

/-- A publication puts an unread entry under the name of its fill. -/
theorem Disk.publish_cases (d : Disk) (io : Io) (f : Nat) :
    (∃ fill, d.fills.lookup f = some fill ∧ (d.publish io f).2 = true ∧
      ∀ other, (d.publish io f).1.entries.lookup other =
        if other = fill.name then some ⟨fill.bytes, 0⟩ else d.entries.lookup other) ∨
    ((d.publish io f).2 = false ∧ (d.publish io f).1.entries = d.entries) := by
  have hdrop : (d.dropFill io f).entries = d.entries := by
    unfold Disk.dropFill
    split
    · rfl
    · dsimp only
      split <;> rfl
  unfold Disk.publish
  split
  · exact Or.inr ⟨rfl, rfl⟩
  · rename_i fill hfill
    split
    · refine Or.inl ⟨fill, hfill, rfl, ?_⟩
      intro other
      by_cases hne : other = fill.name
      · rw [if_pos hne, hne]
        exact AList.lookup_insert _
      · rw [if_neg hne]
        exact AList.lookup_insert_ne hne
    · exact Or.inr ⟨rfl, hdrop⟩

/-- The other operations drop entries that nobody reads, if any. -/
theorem diskStep_lookup {m : DiskMove} {e : Entry} (hs : diskStep d m = some d')
    (hread : ∀ name io, m ≠ .read name io) (hrelease : ∀ name, m ≠ .release name)
    (hpublish : ∀ f io, m ≠ .publish f io) (h : d'.entries.lookup name = some e) :
    d.entries.lookup name = some e := by
  cases m with
  | read name io => exact absurd rfl (hread name io)
  | release name => exact absurd rfl (hrelease name)
  | publish f io => exact absurd rfl (hpublish f io)
  | reserve other n io =>
    cases hs
    unfold Disk.reserve at h
    split at h
    · exact h
    · split at h
      · rename_i d₁ hroom
        exact makeRoom_lookup (hroom ▸ h : (d.makeRoom io n true).1.entries.lookup name = some e)
      · rename_i d₁ hroom
        have hfirst : (d.makeRoom io n true).1.entries.lookup name = some e := by
          rw [hroom]
          split at h <;> exact h
        exact makeRoom_lookup hfirst
  | grow f n io =>
    cases hs
    unfold Disk.grow at h
    split at h
    · exact h
    · split at h
      · rename_i d₁ hroom
        exact makeRoom_lookup (hroom ▸ h : (d.makeRoom io n false).1.entries.lookup name = some e)
      · rename_i d₁ hroom
        exact makeRoom_lookup (hroom ▸ h : (d.makeRoom io n false).1.entries.lookup name = some e)
  | writeAt f payload offset io =>
    cases hs
    unfold Disk.writeAt at h
    split at h
    · exact h
    · split at h <;> exact h
  | drop f io =>
    cases hs
    unfold Disk.dropFill at h
    split at h
    · exact h
    · dsimp only at h
      split at h <;> exact h
  | outside other data =>
    cases hs
    exact h

/-! ## 4. One step -/

/-- The readers of every entry are the leases taken from it. -/
def Counted (p : Pins) : Prop :=
  ∀ name e, p.disk.entries.lookup name = some e →
    e.readers.toNat = p.leases.count ⟨name, p.entryNo name⟩

/-- No lease is from an entry that is still to come. -/
def Numbered (p : Pins) : Prop := ∀ l ∈ p.leases, l.entry ≤ p.entryNo l.name

variable {p p' : Pins} {m : PinMove}

/-- An entry with a lease has a reader. -/
theorem Counted.readers_ne_zero (h : Counted p) {e : Entry}
    (he : p.disk.entries.lookup name = some e) (hl : ⟨name, p.entryNo name⟩ ∈ p.leases) :
    e.readers ≠ 0 := by
  intro hzero
  have hcount := h name e he
  have hpos := List.count_pos_iff.mpr hl
  rw [hzero] at hcount
  have : (0 : UInt64).toNat = 0 := rfl
  omega

theorem pinsExact_iff : PinsExact p ↔ Counted p := by
  constructor
  · exact fun h => h.readers
  · intro h
    refine ⟨h, ?_⟩
    intro name hname hl io bytes entry
    obtain ⟨e, he⟩ := Option.isSome_iff_exists.mp (AList.lookup_isSome.mpr hname)
    exact AList.lookup_isSome.mp
      (Option.isSome_iff_exists.mpr ⟨e, makeRoom_keeps_read he (h.readers_ne_zero he hl)⟩)

theorem Pins.entryNo_le_renew (p : Pins) (f : Nat) (published : Bool) (name : String) :
    p.entryNo name ≤ p.renew f published name := by
  cases published with
  | false => exact Nat.le_refl _
  | true =>
    cases hfill : p.disk.fills.lookup f with
    | none => simp [Pins.renew, hfill]
    | some fill =>
      simp only [Pins.renew, hfill]
      by_cases hname : name = fill.name
      · rw [hname, Function.update_self]
        omega
      · rw [Function.update_of_ne hname]

theorem Numbered.step (h : Numbered p) (hs : pinStep p m = some p') : Numbered p' := by
  cases m with
  | drop l =>
    simp only [pinStep] at hs
    split at hs
    · cases hs
      exact fun l' hl' => h l' (List.mem_of_mem_erase hl')
    · cases hs
  | disk m =>
    cases m with
    | release name => cases hs
    | read name io =>
      cases hs
      intro l hl
      simp only [Pins.lend] at hl
      split at hl
      · exact h l hl
      · rcases List.mem_cons.mp hl with rfl | hl
        · exact Nat.le_refl _
        · exact h l hl
    | publish f io =>
      cases hs
      exact fun l hl => (h l hl).trans (p.entryNo_le_renew f _ l.name)
    | reserve name bytes io => cases hs; exact h
    | grow f bytes io => cases hs; exact h
    | writeAt f payload offset io => cases hs; exact h
    | drop f io => cases hs; exact h
    | outside name data => cases hs; exact h

/-- A lease of its own entry takes off the reader it put on. -/
theorem Counted.drop_iff (h : Counted p) {l : Lease} (hl : l ∈ p.leases) :
    (¬ Underflows p (.drop l) ∧
      Counted { p with disk := p.disk.release l.name, leases := p.leases.erase l }) ↔
        OwnEntry p (.drop l) := by
  constructor
  · rintro ⟨-, hnext⟩ hmem
    by_contra hstale
    obtain ⟨e, he⟩ := Option.isSome_iff_exists.mp (AList.lookup_isSome.mpr hmem)
    have hbefore := h l.name e he
    have hafter := hnext l.name { e with readers := e.readers - 1 } (by
      simp only [Disk.release_lookup, if_true, he, Option.map_some])
    -- the lease is none of the entry's, so the leases of the entry are the same as before
    have hne : (⟨l.name, p.entryNo l.name⟩ : Lease) ≠ l := by
      intro heq
      exact hstale (congrArg Lease.entry heq).symm
    simp only [List.count_erase_of_ne hne] at hafter
    rw [← hbefore, UInt64.toNat_inj] at hafter
    grind
  · intro hown
    have hlease : l.name ∈ p.disk.entries → l = ⟨l.name, p.entryNo l.name⟩ := by
      intro hmem
      have := hown hmem
      cases l
      simp only at this
      rw [this]
    constructor
    · rintro ⟨e, he, hzero⟩
      have hmem : l.name ∈ p.disk.entries :=
        AList.lookup_isSome.mp (Option.isSome_iff_exists.mpr ⟨e, he⟩)
      exact h.readers_ne_zero he (hlease hmem ▸ hl) hzero
    · intro name e he
      simp only [Disk.release_lookup] at he
      split at he
      · rename_i hname
        subst hname
        obtain ⟨e, hold, rfl⟩ := Option.map_eq_some_iff.mp he
        have hmem : l.name ∈ p.disk.entries :=
          AList.lookup_isSome.mp (Option.isSome_iff_exists.mpr ⟨e, hold⟩)
        have hcount := h l.name e hold
        have hpos := h.readers_ne_zero hold (hlease hmem ▸ hl)
        have hne : 1 ≤ e.readers.toNat := by
          have : e.readers.toNat ≠ 0 := fun hzero => hpos (UInt64.toNat_inj.mp hzero)
          omega
        have hsub : (e.readers - 1).toNat = e.readers.toNat - 1 :=
          UInt64.toNat_sub_of_le e.readers 1 (UInt64.le_iff_toNat_le.mpr hne)
        simp only [hsub]
        rw [hcount, ← hlease hmem, List.count_erase_self]
      · rename_i hname
        have hne : (⟨name, p.entryNo name⟩ : Lease) ≠ l := by
          intro heq
          exact hname (congrArg Lease.name heq)
        simp only [List.count_erase_of_ne hne]
        exact h name e he

/-- A read that succeeds puts a reader on, unless that many are there that the `usize` is full. -/
theorem Counted.read_iff (h : Counted p) (name : String) (io : Io) :
    Counted { p with
      disk := (p.disk.read io name).1
      leases := p.lend name (p.disk.read io name).2 } ↔ OwnEntry p (.disk (.read name io)) := by
  rcases p.disk.read_cases io name with ⟨e, r, he, hr, hlookup⟩ | ⟨hr, hlookup⟩
  · simp only [OwnEntry, Pins.lend, hr, Option.isSome_some, true_imp_iff]
    have hcount := h name e he
    constructor
    · intro hnext e' he'
      rw [he] at he'
      cases he'
      have hafter := hnext name { e with readers := e.readers + 1 } (by rw [hlookup, if_pos rfl])
      simp only [List.count_cons_self, ← hcount] at hafter
      exact hafter ▸ (e.readers + 1).toNat_lt
    · intro hroom other e' he'
      have hlt := hroom e he
      rw [hlookup] at he'
      split at he'
      · rename_i hother
        cases he'
        simp only [hother, List.count_cons_self, ← hcount]
        rw [UInt64.toNat_add, UInt64.toNat_one, Nat.mod_eq_of_lt hlt]
      · rename_i hother
        have hne : (⟨other, p.entryNo other⟩ : Lease) ≠ ⟨name, p.entryNo name⟩ := by
          intro heq
          exact hother (congrArg Lease.name heq)
        simp only [List.count_cons_of_ne hne.symm]
        exact h other e' he'
  · simp only [OwnEntry, Pins.lend, hr, Option.isSome_none, Bool.false_eq_true, false_imp_iff,
      iff_true]
    exact fun other e' he' => h other e' (hlookup other e' he')

/-- A new entry has no lease yet. -/
theorem Counted.publish (h : Counted p) (hn : Numbered p) (f : Nat) (io : Io) :
    Counted { p with
      disk := (p.disk.publish io f).1
      entryNo := p.renew f (p.disk.publish io f).2 } := by
  rcases p.disk.publish_cases io f with ⟨fill, hfill, hok, hlookup⟩ | ⟨hok, hsame⟩
  · intro name e he
    simp only [Pins.renew, hok, hfill]
    rw [hlookup] at he
    split at he
    · rename_i hname
      cases he
      rw [hname, Function.update_self]
      refine (List.count_eq_zero.mpr ?_).symm
      intro hl
      have := hn _ hl
      simp only at this
      omega
    · rename_i hname
      rw [Function.update_of_ne hname]
      exact h name e he
  · intro name e he
    simp only [Pins.renew, hok]
    exact h name e (hsame ▸ he)

/-- **One step**: the counts stay right exactly when the step keeps to its own entry. -/
theorem counted_step_iff (h : Counted p) (hn : Numbered p) (hs : pinStep p m = some p') :
    (¬ Underflows p m ∧ Counted p') ↔ OwnEntry p m := by
  cases m with
  | drop l =>
    simp only [pinStep] at hs
    split at hs
    · rename_i hl
      cases hs
      exact h.drop_iff hl
    · cases hs
  | disk m =>
    have hother : ∀ d : Disk, diskStep p.disk m = some d → (∀ name io, m ≠ .read name io) →
        (∀ name, m ≠ .release name) → (∀ f io, m ≠ .publish f io) →
        Counted { p with disk := d } := by
      intro d hd hread hrelease hpublish name e he
      exact h name e (diskStep_lookup hd hread hrelease hpublish he)
    simp only [Underflows, not_false_eq_true, true_and]
    cases m with
    | release name => cases hs
    | read name io =>
      cases hs
      exact h.read_iff name io
    | publish f io =>
      cases hs
      exact iff_of_true (h.publish hn f io) trivial
    | reserve name bytes io =>
      cases hs
      exact iff_of_true (hother _ rfl nofun nofun nofun) trivial
    | grow f bytes io =>
      cases hs
      exact iff_of_true (hother _ rfl nofun nofun nofun) trivial
    | writeAt f payload offset io =>
      cases hs
      exact iff_of_true (hother _ rfl nofun nofun nofun) trivial
    | drop f io =>
      cases hs
      exact iff_of_true (hother _ rfl nofun nofun nofun) trivial
    | outside name data =>
      cases hs
      exact iff_of_true (hother _ rfl nofun nofun nofun) trivial

/-! ## 5. Runs -/

/-- **A run**, from counts that are right. -/
theorem counted_run_iff {ms : List PinMove} (h : Counted p) (hn : Numbered p)
    (hrun : Lts.run pinStep p ms = some p') :
    (Lts.Along pinStep (fun q m => PinsExact q ∧ ¬ Underflows q m) p ms ∧ PinsExact p') ↔
      Lts.Along pinStep OwnEntry p ms := by
  induction ms generalizing p with
  | nil =>
    cases hrun
    exact iff_of_true ⟨trivial, pinsExact_iff.mpr h⟩ trivial
  | cons m ms ih =>
    obtain ⟨q, hs, hrest⟩ := Lts.run_cons.mp hrun
    have hstep := counted_step_iff h hn hs
    constructor
    · rintro ⟨⟨⟨-, hunder⟩, hall⟩, hend⟩
      -- the counts after the step are those the rest of the run begins with
      have hq : Counted q := by
        cases ms with
        | nil =>
          cases hrest
          exact pinsExact_iff.mp hend
        | cons m' ms => exact pinsExact_iff.mp (hall q hs).1.1
      refine ⟨hstep.mp ⟨hunder, hq⟩, ?_⟩
      intro q' hq'
      cases hs.symm.trans hq'
      exact (ih hq (hn.step hs) hrest).mp ⟨hall q hs, hend⟩
    · rintro ⟨hown, hall⟩
      obtain ⟨hunder, hq⟩ := hstep.mpr hown
      obtain ⟨hruns, hend⟩ := (ih hq (hn.step hs) hrest).mpr (hall q hs)
      refine ⟨⟨⟨pinsExact_iff.mpr h, hunder⟩, ?_⟩, hend⟩
      intro q' hq'
      cases hs.symm.trans hq'
      exact hruns

/-- Startup indexes files that nobody reads. -/
theorem recover_unread {isUuid : String → Bool} :
    ∀ {rest : List (Sigma fun _ : String => List UInt8)} {d d' : Disk},
      Disk.recover isUuid io rest d = some d' →
      (∀ name e, d.entries.lookup name = some e → e.readers = 0) →
      ∀ name e, d'.entries.lookup name = some e → e.readers = 0
  | [], d, d', h, hd => by
    cases h
    exact hd
  | ⟨name, data⟩ :: rest, d, d', h, hd => by
    rw [Disk.recover] at h
    split at h
    · obtain ⟨d₁, hu, h⟩ := Option.bind_eq_some_iff.mp h
      refine recover_unread h ?_
      rw [Disk.unlink_entries hu]
      exact hd
    · split at h
      · cases h
      · rename_i d₁ hroom
        refine recover_unread h ?_
        intro other e he
        dsimp only at he
        by_cases hother : other = name
        · rw [hother, AList.lookup_insert] at he
          cases he
          rfl
        · rw [AList.lookup_insert_ne hother] at he
          exact hd other e (makeRoom_lookup
            (hroom ▸ he : (d.makeRoom io data.length true).1.entries.lookup other = some e))

theorem counted_open {isUuid : String → Bool} {config : CacheConfig}
    {listing : AList fun _ : String => List UInt8}
    (h : Disk.open isUuid config io listing = some d) : Counted { disk := d } := by
  unfold Disk.open at h
  split at h
  · cases h
  · split at h
    · intro name e he
      have hzero := recover_unread h (fun _ _ hnone => by simp at hnone) name e he
      simp [hzero]
    · cases h

/-- **Reader pin counts.**  From startup on, in any interleaving of reads, drops of held reads,
invalid files, evictions and publications: the readers of every entry are the leases taken from
that entry, they never underflow, and an entry with a lease is never evicted, exactly when no
lease is dropped while an entry has its name that it was not taken from (and no entry is read
`2 ^ 64` times at once). -/
theorem pins_exact_iff {isUuid : String → Bool} {config : CacheConfig}
    {listing : AList fun _ : String => List UInt8} {ms : List PinMove}
    (hopen : Disk.open isUuid config io listing = some d)
    (hrun : Lts.run pinStep { disk := d } ms = some p) :
    (Lts.Along pinStep (fun q m => PinsExact q ∧ ¬ Underflows q m) { disk := d } ms ∧
        PinsExact p) ↔
      Lts.Along pinStep OwnEntry { disk := d } ms :=
  counted_run_iff (counted_open hopen) (fun _ hl => absurd hl List.not_mem_nil) hrun

/-- A file is published under the name. -/
def publishA (f : Nat) : List PinMove :=
  [.disk (.reserve (hexName 'a') 1 {}), .disk (.writeAt f [7] 0 {}), .disk (.publish f {})]

/-- The file is read, and then removed by somebody else; the next read finds that out, and the
name is filled again. -/
def refilled : List PinMove :=
  publishA 0 ++ [.disk (.read (hexName 'a') {}), .disk (.outside (hexName 'a') none),
    .disk (.read (hexName 'a') {})] ++ publishA 1

/-- **The old lease is dropped after the name was filled again**: the count of the new entry
underflows.  Nobody reads it, and `make_room` cannot take it any more. -/
theorem old_lease_underflows : ∃ d p, Disk.open (fun _ => false) smallConfig {} ∅ = some d ∧
    Lts.run pinStep { disk := d } (refilled ++ [.drop ⟨hexName 'a', 1⟩]) = some p ∧
    p.leases = [] ∧ p.disk.entries.lookup (hexName 'a') = some ⟨1, 18446744073709551615⟩ ∧
    ¬ PinsExact p := by
  have hobs : ∃ d ∈ Disk.open (fun _ => false) smallConfig {} ∅,
      ∃ p ∈ Lts.run pinStep { disk := d } (refilled ++ [.drop ⟨hexName 'a', 1⟩]),
        p.leases = [] ∧
          p.disk.entries.lookup (hexName 'a') = some ⟨1, 18446744073709551615⟩ := by
    decide +kernel
  obtain ⟨d, hopen, p, hrun, hleases, he⟩ := hobs
  refine ⟨d, p, hopen, hrun, hleases, he, ?_⟩
  intro hexact
  have := hexact.readers _ _ he
  rw [hleases] at this
  cases this

/-- Dropped before the name is filled again, it does no harm. -/
def dropped : List PinMove :=
  publishA 0 ++ [.disk (.read (hexName 'a') {}), .disk (.outside (hexName 'a') none),
    .disk (.read (hexName 'a') {}), .drop ⟨hexName 'a', 1⟩] ++ publishA 1

theorem pins_exact_iff_dropped : ∃ d p, Disk.open (fun _ => false) smallConfig {} ∅ = some d ∧
    Lts.run pinStep { disk := d } dropped = some p ∧ PinsExact p := by
  have hobs : ∃ d ∈ Disk.open (fun _ => false) smallConfig {} ∅,
      ∃ p ∈ Lts.run pinStep { disk := d } dropped,
        Lts.Along pinStep OwnEntry { disk := d } dropped := by
    decide +kernel
  obtain ⟨d, hopen, p, hrun, hown⟩ := hobs
  exact ⟨d, p, hopen, hrun, ((pins_exact_iff hopen hrun).mpr hown).2⟩

end Ukiel.Cache
