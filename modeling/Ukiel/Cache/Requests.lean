/-
# Requests to the caching store

A request keeps what it knows about the object in its phase.  §1 is reads of an open file, §2 the
loop over chunks.  §3 is what an answer should be and how the backing store gives it, §4 what each
phase knows.  §5 has a lemma for each way a request can take: what it does to the disk cache, and
that an answer, when there is one, is the backing store's.  §6 is that every request ends.
-/
import Ukiel.Cache.Files

namespace Ukiel.Cache

variable {P : Type} {C : Crates P} {options : GetOptions} {b : List UInt8} {lo hi n : Nat}

/-! ## 1. Open files -/

theorem range_eq {x : CachedRead} {io : Io} (hread : io.read = true) (hhi : hi ≤ x.data.length) :
    x.range io lo hi = some (x.data.slice lo hi) := by
  unfold CachedRead.range
  rw [if_pos ⟨hread, List.length_slice hhi⟩]

theorem streamFrom_eq {x : CachedRead} (hhi : hi ≤ x.data.length) :
    ∀ (fuel lo : Nat), lo ≤ hi → hi - lo ≤ fuel →
      x.streamFrom hi fuel lo = some (x.data.slice lo hi) := by
  intro fuel
  induction fuel with
  | zero =>
    intro lo hlo hfuel
    have heq : lo = hi := by omega
    rw [heq, List.slice_self]
    rfl
  | succ fuel ih =>
    intro lo hlo hfuel
    unfold CachedRead.streamFrom
    split
    · rename_i heq
      rw [heq, List.slice_self]
    · rename_i hne
      have hlen : 0 < min (hi - lo) (1024 * 1024) := by omega
      have hle : lo + min (hi - lo) (1024 * 1024) ≤ hi := by omega
      dsimp only
      rw [range_eq rfl (Nat.le_trans hle hhi), Option.bind_some, ih _ hle (by omega),
        Option.map_some, List.slice_append (Nat.le_add_right _ _) hle]

/-- The pieces of a stream make up its range. -/
theorem stream_eq {x : CachedRead} (hlo : lo ≤ hi) (hhi : hi ≤ x.data.length) :
    x.stream lo hi = some (x.data.slice lo hi) :=
  streamFrom_eq hhi _ _ hlo (Nat.le_refl _)

/-! ## 2. Chunks -/

theorem resolve_le (hC : C.Lawful) (h : C.resolve options n = some (lo, hi)) :
    lo ≤ hi ∧ hi ≤ n := by
  unfold Crates.resolve at h
  split at h
  · cases h
    exact ⟨Nat.zero_le _, Nat.le_refl _⟩
  · exact hC.asRange_le _ _ _ _ h

/-- The loop has the part of the range in front of the next chunk. -/
structure Loop.Ok (C : Crates P) (chunkSize : Nat) (options : GetOptions) (b : List UInt8)
    (L : Loop) : Prop where
  size : L.size = b.length
  range : C.resolve options b.length = some (L.lo, L.hi)
  nonempty : L.lo < L.hi
  inside : L.hi ≤ b.length
  first : L.lo / chunkSize ≤ L.index
  last : L.index ≤ (L.hi - 1) / chunkSize + 1
  out : L.out = b.slice L.lo (max L.lo (min L.hi (L.index * chunkSize)))

section Chunks

variable {L : Loop} {chunkSize : Nat}

/-- The loop goes on. -/
def Loop.Here (L : Loop) (chunkSize : Nat) : Prop := L.index ≤ (L.hi - 1) / chunkSize

/-- Where the chunk lies, and what of it is asked for. -/
theorem Loop.Ok.bounds (h : L.Ok C chunkSize options b) (hpos : 0 < chunkSize)
    (hhere : L.Here chunkSize) :
    L.start chunkSize ≤ L.from chunkSize ∧ L.from chunkSize < L.upto chunkSize ∧
      L.upto chunkSize ≤ L.stop chunkSize ∧ L.stop chunkSize ≤ b.length ∧
      L.from chunkSize = max L.lo (min L.hi (L.index * chunkSize)) ∧
      L.upto chunkSize = max L.lo (min L.hi ((L.index + 1) * chunkSize)) := by
  have hstart : L.index * chunkSize < L.hi := by
    have hle := Nat.mul_le_mul_right chunkSize hhere
    have := Nat.div_mul_le_self (L.hi - 1) chunkSize
    have := h.nonempty
    omega
  have hnext : L.lo < (L.index + 1) * chunkSize :=
    (Nat.div_lt_iff_lt_mul hpos).mp (Nat.lt_succ_of_le h.first)
  have hmul : (L.index + 1) * chunkSize = L.index * chunkSize + chunkSize := Nat.succ_mul _ _
  have := h.nonempty
  have := h.inside
  have := h.size
  simp only [Loop.start, Loop.from, Loop.upto, Loop.stop]
  omega

theorem Loop.Ok.chunkOf (h : L.Ok C chunkSize options b) :
    Cache.chunkOf b chunkSize L.index = b.slice (L.start chunkSize) (L.stop chunkSize) := by
  rw [Cache.chunkOf, Loop.stop, Loop.start, h.size]

/-- What is asked for, taken from the chunk. -/
theorem Loop.Ok.part (h : L.Ok C chunkSize options b) (hpos : 0 < chunkSize)
    (hhere : L.Here chunkSize) :
    (Cache.chunkOf b chunkSize L.index).slice (L.from chunkSize - L.start chunkSize)
        (L.upto chunkSize - L.start chunkSize) =
      b.slice (L.from chunkSize) (L.upto chunkSize) := by
  obtain ⟨hstart, -, hstop, -⟩ := h.bounds hpos hhere
  rw [h.chunkOf, List.slice_slice hstart hstop]

/-- One chunk further. -/
theorem Loop.Ok.next (h : L.Ok C chunkSize options b) (hpos : 0 < chunkSize)
    (hhere : L.Here chunkSize) :
    (L.next (b.slice (L.from chunkSize) (L.upto chunkSize))).Ok C chunkSize options b := by
  obtain ⟨-, hlt, -, -, hfrom, hupto⟩ := h.bounds hpos hhere
  refine ⟨h.size, h.range, h.nonempty, h.inside, Nat.le_succ_of_le h.first,
    Nat.succ_le_succ hhere, ?_⟩
  have hjoin : b.slice L.lo (L.from chunkSize) ++ b.slice (L.from chunkSize) (L.upto chunkSize) =
      b.slice L.lo (L.upto chunkSize) :=
    List.slice_append (hfrom ▸ Nat.le_max_left _ _) (Nat.le_of_lt hlt)
  calc L.out ++ b.slice (L.from chunkSize) (L.upto chunkSize)
      = b.slice L.lo (L.upto chunkSize) := by rw [h.out, ← hfrom, hjoin]
    _ = b.slice L.lo (max L.lo (min L.hi ((L.index + 1) * chunkSize))) := by rw [← hupto]

/-- Behind the last chunk the range is complete. -/
theorem Loop.Ok.complete (h : L.Ok C chunkSize options b) (hpos : 0 < chunkSize)
    (hend : ¬ L.Here chunkSize) : L.out = b.slice L.lo L.hi := by
  have hindex : L.index = (L.hi - 1) / chunkSize + 1 :=
    Nat.le_antisymm h.last (Nat.lt_of_not_le hend)
  have hlt : L.hi - 1 < L.index * chunkSize :=
    (Nat.div_lt_iff_lt_mul hpos).mp (hindex ▸ Nat.lt_succ_self _)
  have hnonempty := h.nonempty
  rw [h.out]
  congr 1
  omega

/-- What was read from a chunk's file, when a read succeeds. -/
theorem Loop.Ok.read (h : L.Ok C chunkSize options b) (hpos : 0 < chunkSize)
    (hhere : L.Here chunkSize) {x : CachedRead} {io : Io} {bytes : List UInt8}
    (hx : x.data <+: Cache.chunkOf b chunkSize L.index)
    (hr : x.range io (L.from chunkSize - L.start chunkSize)
      (L.upto chunkSize - L.start chunkSize) = some bytes) :
    bytes = b.slice (L.from chunkSize) (L.upto chunkSize) := by
  obtain ⟨hstart, hlt, -, -⟩ := h.bounds hpos hhere
  unfold CachedRead.range at hr
  split at hr
  · rename_i hgood
    have hlen : L.upto chunkSize - L.start chunkSize ≤ x.data.length := by
      have hlen := hgood.2
      rw [List.slice, List.length_take, List.length_drop] at hlen
      omega
    rw [← h.part hpos hhere, ← hx.slice_eq hlen]
    exact (Option.some.inj hr).symm
  · cases hr

end Chunks

/-! ## 3. Answers -/

variable [DecidableEq P] {objects objects' : Objects P} {p : P}

/-- Two answers agree: both fail, or they have one size and, unless only the head was asked for,
the same bytes and range. -/
def Agrees (options : GetOptions) : Except StoreError GetResult → Except StoreError GetResult → Prop
  | .ok r, .ok r' =>
    r.size = r'.size ∧ (options.head = false → r.bytes = r'.bytes ∧ r.range = r'.range)
  | .error _, .error _ => True
  | _, _ => False

theorem Agrees.refl (options : GetOptions) : ∀ r, Agrees options r r
  | .ok _ => ⟨rfl, fun _ => ⟨rfl, rfl⟩⟩
  | .error _ => trivial

instance (options : GetOptions) : ∀ r r', Decidable (Agrees options r r')
  | .ok r, .ok r' => inferInstanceAs (Decidable
      (r.size = r'.size ∧ (options.head = false → r.bytes = r'.bytes ∧ r.range = r'.range)))
  | .error _, .error _ => isTrue trivial
  | .ok _, .error _ => isFalse id
  | .error _, .ok _ => isFalse id

/-- The cache may answer: the object is there and the request has no conditions. -/
def Plain (objects : Objects P) (p : P) (options : GetOptions) (b : List UInt8) : Prop :=
  options.conditional = false ∧ objects.lookup p = some b

theorem Plain.mono (h : Plain objects p options b) (hg : Grown objects objects') :
    Plain objects' p options b := ⟨h.1, hg p b h.2⟩

theorem get_eq (h : Plain objects p options b) :
    C.get objects p options = match C.resolve options b.length with
      | none => .error .range
      | some (lo, hi) => .ok ⟨b.slice lo hi, (lo, hi), b.length⟩ := by
  unfold Crates.get
  rw [h.2]
  dsimp only
  exact if_neg (by rw [h.1]; exact fun hc => Bool.false_ne_true hc.1)

theorem get_ok (h : Plain objects p options b)
    (hr : C.resolve options b.length = some (lo, hi)) :
    C.get objects p options = .ok ⟨b.slice lo hi, (lo, hi), b.length⟩ := by
  rw [get_eq h, hr]

theorem get_error (h : Plain objects p options b) (hr : C.resolve options b.length = none) :
    C.get objects p options = .error .range := by
  rw [get_eq h, hr]

theorem get_missing (h : objects.lookup p = none) :
    C.get objects p options = .error .notFound := by
  rw [Crates.get, h]

/-- An answer is about an object. -/
theorem get_eq_ok {r : GetResult} (h : C.get objects p options = .ok r) :
    ∃ b, objects.lookup p = some b ∧ r.size = b.length := by
  unfold Crates.get at h
  split at h
  · cases h
  · rename_i b hb
    split at h
    · cases h
    · split at h
      · cases h
      · cases h
        exact ⟨b, hb, rfl⟩

/-- The whole object, and its head. -/
theorem get_whole (hb : objects.lookup p = some b) (head : Bool) :
    C.get objects p { head := head } = .ok ⟨b, (0, b.length), b.length⟩ := by
  have h : C.get objects p { head := head } = _ := get_ok ⟨rfl, hb⟩ rfl
  rwa [List.slice_length] at h

theorem getRange_eq (hC : C.Lawful) (hb : objects.lookup p = some b) (hlo : lo < hi)
    (hhi : hi ≤ b.length) : C.getRange objects p lo hi = .ok (b.slice lo hi) := by
  have h : C.get objects p { range := some (.bounded lo hi) } = _ :=
    get_ok ⟨rfl, hb⟩ (hC.asRange_bounded lo hi b.length hlo hhi)
  rw [Crates.getRange, h]
  rfl

/-! ## 4. What a phase knows -/

/-- The sizes in the memo are right. -/
def SizesOk (C : Crates P) (objects : Objects P) (sizes : Sizes) : Prop :=
  ∀ p n, sizes.lookup (C.key p) = some n → ∃ b, objects.lookup p = some b ∧ n = b.length

/-- The fill a request has. -/
def Phase.fill : Phase → Option Nat
  | .fetch f _ | .save f _ _ | .fetchChunk _ f | .saveChunk _ f _ => some f
  | _ => none

def Phase.Ok (C : Crates P) (config : CacheConfig) (objects : Objects P) (d : Disk) (p : P)
    (options : GetOptions) : Phase → Prop
  | .start | .head | .bypass | .done _ => True
  | .serve x => ∃ b, Plain objects p options b ∧ x.data = b ∧ x.bytes = b.length
  | .size => options.conditional = false
  | .whole n => ∃ b, Plain objects p options b ∧ n = b.length
  | .fetch f n => ∃ b, Plain objects p options b ∧ n = b.length ∧ Claim d f (C.wholeName p) n
  | .save f bytes res =>
    Plain objects p options bytes ∧ Claim d f (C.wholeName p) bytes.length ∧
      C.get objects p options = .ok res
  | .chunk L => ∃ b, Plain objects p options b ∧ L.Ok C config.chunkSize options b
  | .piece L x =>
    ∃ b, Plain objects p options b ∧ L.Ok C config.chunkSize options b ∧
      L.Here config.chunkSize ∧ x.data <+: chunkOf b config.chunkSize L.index
  | .missing L | .fetchPiece L =>
    ∃ b, Plain objects p options b ∧ L.Ok C config.chunkSize options b ∧ L.Here config.chunkSize
  | .fetchChunk L f =>
    ∃ b, Plain objects p options b ∧ L.Ok C config.chunkSize options b ∧
      L.Here config.chunkSize ∧ Claim d f (C.chunkName p config.chunkSize L.index)
        (L.stop config.chunkSize - L.start config.chunkSize)
  | .saveChunk L f bytes =>
    ∃ b, Plain objects p options b ∧ L.Ok C config.chunkSize options b ∧
      L.Here config.chunkSize ∧ bytes = chunkOf b config.chunkSize L.index ∧
      Claim d f (C.chunkName p config.chunkSize L.index) bytes.length

section Turns

variable {config : CacheConfig} {d d' : Disk} {own : Option Nat} {sizes sizes' : Sizes} {io : Io}
  {phase phase' : Phase}

theorem Claim.frame {f n : Nat} {name : String} (h : Claim d f name n) (hs : Sound C objects d)
    (hk : Kept own d d') (hown : own ≠ some f) : Claim d' f name n :=
  (hk.fills f (hs.fresh f _ h) hown).trans h

/-- What a phase knows stays true while others work. -/
theorem Phase.Ok.frame (h : phase.Ok C config objects d p options) (hs : Sound C objects d)
    (hk : Kept own d d') (hown : ∀ f, phase.fill = some f → own ≠ some f)
    (hg : Grown objects objects') : phase.Ok C config objects' d' p options := by
  cases phase with
  | start | head | bypass | done _ => trivial
  | size => exact h
  | serve x =>
    obtain ⟨b, hb, hx⟩ := h
    exact ⟨b, hb.mono hg, hx⟩
  | whole n =>
    obtain ⟨b, hb, hn⟩ := h
    exact ⟨b, hb.mono hg, hn⟩
  | chunk L =>
    obtain ⟨b, hb, hL⟩ := h
    exact ⟨b, hb.mono hg, hL⟩
  | piece L x =>
    obtain ⟨b, hb, hL⟩ := h
    exact ⟨b, hb.mono hg, hL⟩
  | missing L | fetchPiece L =>
    obtain ⟨b, hb, hL⟩ := h
    exact ⟨b, hb.mono hg, hL⟩
  | fetch f n =>
    obtain ⟨b, hb, hn, hc⟩ := h
    exact ⟨b, hb.mono hg, hn, hc.frame hs hk (hown f rfl)⟩
  | save f bytes res =>
    obtain ⟨hb, hc, hres⟩ := h
    refine ⟨hb.mono hg, hc.frame hs hk (hown f rfl), ?_⟩
    rw [← hres, get_eq hb, get_eq (hb.mono hg)]
  | fetchChunk L f =>
    obtain ⟨b, hb, hL, hhere, hc⟩ := h
    exact ⟨b, hb.mono hg, hL, hhere, hc.frame hs hk (hown f rfl)⟩
  | saveChunk L f bytes =>
    obtain ⟨b, hb, hL, hhere, hbytes, hc⟩ := h
    exact ⟨b, hb.mono hg, hL, hhere, hbytes, hc.frame hs hk (hown f rfl)⟩

/-! ## 5. The ways of a request -/

/-- What a phase does: the invariants keep, nobody else's fill is touched, and an answer is right. -/
structure Turn (C : Crates P) (config : CacheConfig) (objects : Objects P) (p : P)
    (options : GetOptions) (d : Disk) (own : Option Nat) (out : Disk × Sizes × Phase) : Prop where
  sound : Sound C objects out.1
  sizes : SizesOk C objects out.2.1
  ok : out.2.2.Ok C config objects out.1 p options
  kept : Kept own d out.1
  fill : ∀ f, out.2.2.fill = some f → own = some f ∨ f = d.nextFill
  answer : ∀ res, out.2.2 = .done res → Agrees options (C.get objects p options) res

/-- The next phase, when no answer is given. -/
theorem Turn.goto (hs : Sound C objects d') (hz : SizesOk C objects sizes') (hk : Kept own d d')
    (hok : phase'.Ok C config objects d' p options)
    (hfill : ∀ f, phase'.fill = some f → own = some f ∨ f = d.nextFill)
    (hdone : ∀ res, phase' ≠ .done res) :
    Turn C config objects p options d own (d', sizes', phase') :=
  ⟨hs, hz, hok, hk, hfill, fun res h => absurd h (hdone res)⟩

/-- An answer. -/
theorem Turn.reply (hs : Sound C objects d') (hz : SizesOk C objects sizes') (hk : Kept own d d')
    {res : Except StoreError GetResult} (hres : Agrees options (C.get objects p options) res) :
    Turn C config objects p options d own (d', sizes', .done res) :=
  ⟨hs, hz, trivial, hk, fun _ h => (by cases h), fun _ h => Phase.done.inj h ▸ hres⟩

theorem SizesOk.insert (hC : C.Lawful) (h : SizesOk C objects sizes)
    (hb : objects.lookup p = some b) : SizesOk C objects (sizes.insert (C.key p) b.length) := by
  intro q n hn
  by_cases hq : C.key q = C.key p
  · rw [hq, AList.lookup_insert, Option.some.injEq] at hn
    exact ⟨b, hC.key_injective hq ▸ hb, hn.symm⟩
  · rw [AList.lookup_insert_ne hq] at hn
    exact h q n hn

theorem SizesOk.memoize (hC : C.Lawful) (h : SizesOk C objects sizes)
    (hb : objects.lookup p = some b) (capacity : Nat) :
    SizesOk C objects (Sizes.memoize sizes capacity (C.key p) b.length) := by
  unfold Sizes.memoize
  split
  · exact h
  · split
    · split
      · exact h.insert hC hb
      · rename_i last _
        have herase : SizesOk C objects (sizes.erase last.1) := fun q n hn =>
          h q n (lookup_of_erase hn)
        exact herase.insert hC hb
    · exact h.insert hC hb

/-- The memo or the backing store gives the size. -/
theorem objectSize_spec (hC : C.Lawful) (h : SizesOk C objects sizes) (capacity : Nat) :
    SizesOk C objects (C.objectSize objects capacity p sizes).1 ∧
      match (C.objectSize objects capacity p sizes).2 with
      | .ok n => ∃ b, objects.lookup p = some b ∧ n = b.length
      | .error _ => objects.lookup p = none := by
  unfold Crates.objectSize
  split
  · rename_i n hn
    obtain ⟨b, hb, rfl⟩ := h p n hn
    exact ⟨h.insert hC hb, b, hb, rfl⟩
  · cases hb : objects.lookup p with
    | none =>
      rw [get_missing hb]
      exact ⟨h, rfl⟩
    | some b =>
      rw [get_whole hb true]
      exact ⟨h.memoize hC hb capacity, b, rfl, rfl⟩

/-- A hit is the whole object. -/
theorem read_whole (hC : C.Lawful) (hs : Sound C objects d) {x : CachedRead}
    (h : (d.read io (C.wholeName p)).2 = some x) :
    ∃ b, objects.lookup p = some b ∧ x.data = b ∧ x.bytes = b.length := by
  obtain ⟨hfile, hlen, e, he, hbytes⟩ := read_eq_some h
  obtain ⟨b, hb, hprefix⟩ := hs.whole hC hfile
  obtain ⟨b', hb', hsize⟩ := hs.sized p e he
  obtain rfl : b = b' := Option.some.inj (hb.symm.trans hb')
  have heq : x.bytes = b.length := hbytes.symm.trans hsize
  exact ⟨b, hb, hprefix.eq_of_length (hlen.trans heq), heq⟩

theorem turn_start (hC : C.Lawful) (hs : Sound C objects d) (hz : SizesOk C objects sizes) :
    Turn C config objects p options d none
      (C.getStep config objects io p options sizes .start d) := by
  unfold Crates.getStep
  dsimp only
  split
  · exact Turn.goto hs hz (Kept.refl _ d) trivial (fun _ h => by cases h) fun _ h => by cases h
  · rename_i hplain
    have hplain : options.conditional = false := Bool.eq_false_iff.mpr hplain
    have hfewer := fewer_read d io (C.wholeName p)
    split
    · rename_i d' x heq
      obtain ⟨b, hb, hx⟩ := read_whole hC hs (congrArg Prod.snd heq)
      rw [heq] at hfewer
      exact Turn.goto (hs.fewer hfewer) hz (hfewer.kept _) ⟨b, ⟨hplain, hb⟩, hx⟩
        (fun _ h => by cases h) fun _ h => by cases h
    · rename_i d' heq
      rw [heq] at hfewer
      cases options.head with
      | true =>
        exact Turn.goto (hs.fewer hfewer) hz (hfewer.kept _) trivial
          (fun _ h => by cases h) fun _ h => by cases h
      | false =>
        exact Turn.goto (hs.fewer hfewer) hz (hfewer.kept _) hplain
          (fun _ h => by cases h) fun _ h => by cases h

theorem turn_serve (hC : C.Lawful) (hs : Sound C objects d) (hz : SizesOk C objects sizes)
    {x : CachedRead} (h : (Phase.serve x).Ok C config objects d p options) :
    Turn C config objects p options d none
      (C.getStep config objects io p options sizes (.serve x) d) := by
  obtain ⟨b, hb, hdata, hbytes⟩ := h
  have hfewer := fewer_release d x.name
  refine Turn.reply (hs.fewer hfewer) hz (hfewer.kept _) ?_
  rw [hbytes]
  cases hr : C.resolve options b.length with
  | none =>
    rw [get_error hb hr]
    trivial
  | some r =>
    obtain ⟨lo, hi⟩ := r
    obtain ⟨hlo, hhi⟩ := resolve_le hC hr
    dsimp only
    rw [get_ok hb hr, stream_eq hlo (hdata ▸ hhi), hdata]
    exact Agrees.refl _ _

theorem turn_head (hC : C.Lawful) (hs : Sound C objects d) (hz : SizesOk C objects sizes) :
    Turn C config objects p options d none
      (C.getStep config objects io p options sizes .head d) := by
  unfold Crates.getStep
  dsimp only
  cases hr : C.get objects p options with
  | error e => exact Turn.reply hs hz (Kept.refl _ d) (hr ▸ Agrees.refl _ _)
  | ok res =>
    obtain ⟨b, hb, hsize⟩ := get_eq_ok hr
    refine Turn.reply hs ?_ (Kept.refl _ d) (hr ▸ Agrees.refl _ _)
    rw [hsize]
    exact hz.memoize hC hb _

/-- Where a request goes once the size is known. -/
theorem turn_sized (hC : C.Lawful) (hs : Sound C objects d) (hz : SizesOk C objects sizes)
    (hb : Plain objects p options b) :
    Turn C config objects p options d none (d, sizes, C.sized config options b.length) := by
  unfold Crates.sized
  split
  · exact Turn.goto hs hz (Kept.refl _ d) ⟨b, hb, rfl⟩ (fun _ h => by cases h)
      fun _ h => by cases h
  · have hgoto : Turn C config objects p options d none (d, sizes, .bypass) :=
      Turn.goto hs hz (Kept.refl _ d) trivial (fun _ h => by cases h) fun _ h => by cases h
    split
    · exact hgoto
    · rename_i r hrange
      have hresolve : C.resolve options b.length = C.asRange r b.length := by
        rw [Crates.resolve, hrange]
      cases hr : C.asRange r b.length with
      | none =>
        refine Turn.reply hs hz (Kept.refl _ d) ?_
        rw [get_error hb (hresolve.trans hr)]
        trivial
      | some r =>
        obtain ⟨lo, hi⟩ := r
        obtain ⟨hlo, hhi⟩ := hC.asRange_le _ _ _ _ hr
        dsimp only
        split
        · rename_i heq
          refine Turn.reply hs hz (Kept.refl _ d) ?_
          rw [get_ok hb (hresolve.trans hr), heq, List.slice_self]
          exact Agrees.refl _ _
        · rename_i hne
          have hlt : lo < hi := Nat.lt_of_le_of_ne hlo hne
          have hdiv : lo / config.chunkSize ≤ (hi - 1) / config.chunkSize :=
            Nat.div_le_div_right (Nat.le_sub_one_of_lt hlt)
          have hstart : lo / config.chunkSize * config.chunkSize ≤ lo := Nat.div_mul_le_self _ _
          refine Turn.goto hs hz (Kept.refl _ d) ⟨b, hb, rfl, hresolve.trans hr, hlt, hhi,
            Nat.le_refl _, Nat.le_succ_of_le hdiv, ?_⟩ (fun _ h => by cases h)
            fun _ h => by cases h
          have hmax : max lo (min hi (lo / config.chunkSize * config.chunkSize)) = lo := by omega
          dsimp only
          rw [hmax, List.slice_self]

theorem turn_size (hC : C.Lawful) (hs : Sound C objects d) (hz : SizesOk C objects sizes)
    (h : options.conditional = false) :
    Turn C config objects p options d none
      (C.getStep config objects io p options sizes .size d) := by
  obtain ⟨hz', hsize⟩ := objectSize_spec hC hz (p := p) config.sizeEntries
  unfold Crates.getStep
  dsimp only
  split
  · rename_i sizes' e heq
    rw [heq] at hz' hsize
    refine Turn.reply hs hz' (Kept.refl _ d) ?_
    rw [get_missing hsize]
    trivial
  · rename_i sizes' n heq
    rw [heq] at hz' hsize
    obtain ⟨b, hb, rfl⟩ := hsize
    exact turn_sized hC hs hz' ⟨h, hb⟩

theorem turn_whole (hs : Sound C objects d) (hz : SizesOk C objects sizes)
    (h : (Phase.whole n).Ok C config objects d p options) :
    Turn C config objects p options d none
      (C.getStep config objects io p options sizes (.whole n) d) := by
  obtain ⟨b, hb, hn⟩ := h
  obtain ⟨hs', hk, hclaim⟩ := sound_reserve hs io (C.wholeName p) n
  unfold Crates.getStep
  dsimp only
  split
  · rename_i d' heq
    rw [heq] at hs' hk
    exact Turn.goto hs' hz hk trivial (fun _ h => by cases h) fun _ h => by cases h
  · rename_i d' f heq
    rw [heq] at hs' hk hclaim
    obtain ⟨hf, hc⟩ := hclaim f rfl
    refine Turn.goto hs' hz hk ⟨b, hb, hn, hc⟩ ?_ fun _ h => by cases h
    rintro g hg
    cases hg
    exact Or.inr hf

theorem turn_fetch (hs : Sound C objects d) (hz : SizesOk C objects sizes) {f : Nat}
    (h : (Phase.fetch f n).Ok C config objects d p options) :
    Turn C config objects p options d (some f)
      (C.getStep config objects io p options sizes (.fetch f n) d) := by
  obtain ⟨b, hb, rfl, hc⟩ := h
  unfold Crates.getStep
  dsimp only
  rw [show C.get objects p {} = .ok ⟨b, (0, b.length), b.length⟩ from get_whole hb.2 false]
  dsimp only
  rw [if_pos rfl]
  cases hr : C.resolve options b.length with
  | none =>
    refine Turn.reply (hs.dropFill io f) hz (kept_dropFill d io f) ?_
    rw [get_error hb hr]
    trivial
  | some r =>
    obtain ⟨lo, hi⟩ := r
    refine Turn.goto hs hz (Kept.refl _ d) ⟨hb, hc, get_ok hb hr⟩ ?_ fun _ h => by cases h
    rintro g hg
    cases hg
    exact Or.inl rfl

theorem turn_save (hC : C.Lawful) (hs : Sound C objects d) (hz : SizesOk C objects sizes)
    {f : Nat} {bytes : List UInt8} {res : GetResult}
    (h : (Phase.save f bytes res).Ok C config objects d p options) :
    Turn C config objects p options d (some f)
      (C.getStep config objects io p options sizes (.save f bytes res) d) := by
  obtain ⟨hb, hc, hres⟩ := h
  exact Turn.reply (hs.save hC io hc (.whole hb.2)) hz (kept_save d io f bytes)
    (hres ▸ Agrees.refl _ _)

/-- The loop goes on with the next chunk. -/
theorem turn_next (hs : Sound C objects d') (hz : SizesOk C objects sizes) (hk : Kept own d d')
    (hpos : 0 < config.chunkSize) {L : Loop} (hb : Plain objects p options b)
    (hL : L.Ok C config.chunkSize options b) (hhere : L.Here config.chunkSize)
    {bytes : List UInt8} (hbytes : bytes = b.slice (L.from config.chunkSize)
      (L.upto config.chunkSize)) :
    Turn C config objects p options d own (d', sizes, .chunk (L.next bytes)) := by
  subst hbytes
  exact Turn.goto hs hz hk ⟨b, hb, hL.next hpos hhere⟩ (fun _ h => by cases h)
    fun _ h => by cases h

theorem turn_chunk (hC : C.Lawful) (hs : Sound C objects d) (hz : SizesOk C objects sizes)
    (hpos : 0 < config.chunkSize) {L : Loop}
    (h : (Phase.chunk L).Ok C config objects d p options) :
    Turn C config objects p options d none
      (C.getStep config objects io p options sizes (.chunk L) d) := by
  obtain ⟨b, hb, hL⟩ := h
  unfold Crates.getStep
  dsimp only
  split
  · rename_i hhere
    have hfewer := fewer_read d io (C.chunkName p config.chunkSize L.index)
    split
    · rename_i d' x heq
      obtain ⟨hfile, -⟩ := read_eq_some (congrArg Prod.snd heq)
      obtain ⟨b', hb', hx⟩ := hs.chunk hC hfile
      obtain rfl : b = b' := Option.some.inj (hb.2.symm.trans hb')
      rw [heq] at hfewer
      exact Turn.goto (hs.fewer hfewer) hz (hfewer.kept _) ⟨b, hb, hL, hhere, hx⟩
        (fun _ h => by cases h) fun _ h => by cases h
    · rename_i d' heq
      rw [heq] at hfewer
      exact Turn.goto (hs.fewer hfewer) hz (hfewer.kept _) ⟨b, hb, hL, hhere⟩
        (fun _ h => by cases h) fun _ h => by cases h
  · rename_i hend
    refine Turn.reply hs hz (Kept.refl _ d) ?_
    rw [get_ok hb hL.range, hL.complete hpos hend, hL.size]
    exact Agrees.refl _ _

theorem turn_piece (hs : Sound C objects d) (hz : SizesOk C objects sizes)
    (hpos : 0 < config.chunkSize) {L : Loop} {x : CachedRead}
    (h : (Phase.piece L x).Ok C config objects d p options) :
    Turn C config objects p options d none
      (C.getStep config objects io p options sizes (.piece L x) d) := by
  obtain ⟨b, hb, hL, hhere, hx⟩ := h
  have hfewer := fewer_release d x.name
  unfold Crates.getStep
  dsimp only
  split
  · rename_i bytes hr
    exact turn_next (hs.fewer hfewer) hz (hfewer.kept _) hpos hb hL hhere
      (hL.read hpos hhere hx hr)
  · exact Turn.goto (hs.fewer hfewer) hz (hfewer.kept _) ⟨b, hb, hL, hhere⟩
      (fun _ h => by cases h) fun _ h => by cases h

theorem turn_missing (hs : Sound C objects d) (hz : SizesOk C objects sizes) {L : Loop}
    (h : (Phase.missing L).Ok C config objects d p options) :
    Turn C config objects p options d none
      (C.getStep config objects io p options sizes (.missing L) d) := by
  obtain ⟨b, hb, hL, hhere⟩ := h
  obtain ⟨hs', hk, hclaim⟩ := sound_reserve hs io (C.chunkName p config.chunkSize L.index)
    (L.stop config.chunkSize - L.start config.chunkSize)
  unfold Crates.getStep
  dsimp only
  split
  · rename_i d' f heq
    rw [heq] at hs' hk hclaim
    obtain ⟨hf, hc⟩ := hclaim f rfl
    refine Turn.goto hs' hz hk ⟨b, hb, hL, hhere, hc⟩ ?_ fun _ h => by cases h
    rintro g hg
    cases hg
    exact Or.inr hf
  · rename_i d' heq
    rw [heq] at hs' hk
    exact Turn.goto hs' hz hk ⟨b, hb, hL, hhere⟩ (fun _ h => by cases h) fun _ h => by cases h

theorem turn_fetchChunk (hC : C.Lawful) (hs : Sound C objects d) (hz : SizesOk C objects sizes)
    (hpos : 0 < config.chunkSize) {L : Loop} {f : Nat}
    (h : (Phase.fetchChunk L f).Ok C config objects d p options) :
    Turn C config objects p options d (some f)
      (C.getStep config objects io p options sizes (.fetchChunk L f) d) := by
  obtain ⟨b, hb, hL, hhere, hc⟩ := h
  obtain ⟨hstart, hlt, hstop, hend, -⟩ := hL.bounds hpos hhere
  unfold Crates.getStep
  dsimp only
  rw [getRange_eq hC hb.2 (by omega) hend]
  have hlen : (b.slice (L.start config.chunkSize) (L.stop config.chunkSize)).length =
      L.stop config.chunkSize - L.start config.chunkSize := List.length_slice hend
  refine Turn.goto hs hz (Kept.refl _ d) ⟨b, hb, hL, hhere, hL.chunkOf.symm, ?_⟩ ?_
    fun _ h => by cases h
  · rw [hlen]
    exact hc
  · rintro g hg
    cases hg
    exact Or.inl rfl

theorem turn_saveChunk (hC : C.Lawful) (hs : Sound C objects d) (hz : SizesOk C objects sizes)
    (hpos : 0 < config.chunkSize) {L : Loop} {f : Nat} {bytes : List UInt8}
    (h : (Phase.saveChunk L f bytes).Ok C config objects d p options) :
    Turn C config objects p options d (some f)
      (C.getStep config objects io p options sizes (.saveChunk L f bytes) d) := by
  obtain ⟨b, hb, hL, hhere, rfl, hc⟩ := h
  exact turn_next (hs.save hC io hc (.chunk _ _ hb.2)) hz (kept_save d io f _) hpos hb hL hhere
    (hL.part hpos hhere)

theorem turn_fetchPiece (hC : C.Lawful) (hs : Sound C objects d) (hz : SizesOk C objects sizes)
    (hpos : 0 < config.chunkSize) {L : Loop}
    (h : (Phase.fetchPiece L).Ok C config objects d p options) :
    Turn C config objects p options d none
      (C.getStep config objects io p options sizes (.fetchPiece L) d) := by
  obtain ⟨b, hb, hL, hhere⟩ := h
  obtain ⟨hstart, hlt, hstop, hend, -⟩ := hL.bounds hpos hhere
  unfold Crates.getStep
  dsimp only
  rw [getRange_eq hC hb.2 hlt (Nat.le_trans hstop hend)]
  exact turn_next hs hz (Kept.refl _ d) hpos hb hL hhere rfl

/-- **Every phase takes a turn.** -/
theorem turn (hC : C.Lawful) (hs : Sound C objects d) (hz : SizesOk C objects sizes)
    (hpos : 0 < config.chunkSize) (h : phase.Ok C config objects d p options)
    (hdone : ∀ res, phase ≠ .done res) :
    Turn C config objects p options d phase.fill
      (C.getStep config objects io p options sizes phase d) := by
  cases phase with
  | start => exact turn_start hC hs hz
  | serve x => exact turn_serve hC hs hz h
  | head => exact turn_head hC hs hz
  | size => exact turn_size hC hs hz h
  | whole n => exact turn_whole hs hz h
  | fetch f n => exact turn_fetch hs hz h
  | save f bytes res => exact turn_save hC hs hz h
  | bypass => exact Turn.reply hs hz (Kept.refl _ d) (Agrees.refl _ _)
  | chunk L => exact turn_chunk hC hs hz hpos h
  | piece L x => exact turn_piece hs hz hpos h
  | missing L => exact turn_missing hs hz h
  | fetchChunk L f => exact turn_fetchChunk hC hs hz hpos h
  | saveChunk L f bytes => exact turn_saveChunk hC hs hz hpos h
  | fetchPiece L => exact turn_fetchPiece hC hs hz hpos h
  | done res => exact absurd rfl (hdone res)

/-! ## 6. Every request ends -/

def Phase.stage : Phase → Nat
  | .start => 2
  | .size => 1
  | _ => 0

/-- The turns a request still needs, once its size is known: up to five for each chunk. -/
def Phase.rank (chunkSize : Nat) : Phase → Nat
  | .whole _ => 3
  | .fetch .. => 2
  | .serve _ | .head | .save .. | .bypass => 1
  | .chunk L => 5 * ((L.hi - 1) / chunkSize + 1 - L.index) + 1
  | .piece L _ => 5 * ((L.hi - 1) / chunkSize + 1 - L.index)
  | .missing L => 5 * ((L.hi - 1) / chunkSize + 1 - L.index) - 1
  | .fetchChunk L _ | .fetchPiece L => 5 * ((L.hi - 1) / chunkSize + 1 - L.index) - 2
  | .saveChunk L .. => 5 * ((L.hi - 1) / chunkSize + 1 - L.index) - 3
  | _ => 0

/-- `phase'` is nearer to the answer. -/
def Phase.Nearer (chunkSize : Nat) (phase' phase : Phase) : Prop :=
  phase'.stage < phase.stage ∨
    phase'.stage = phase.stage ∧ phase'.rank chunkSize < phase.rank chunkSize

omit [DecidableEq P] in
theorem stage_sized (n : Nat) : (C.sized config options n).stage = 0 := by
  unfold Crates.sized
  repeat' split
  all_goals rfl

/-- The next chunk is nearer than anything this chunk still needs. -/
theorem rank_next {L : Loop} {chunkSize : Nat} (hhere : L.Here chunkSize) (bytes : List UInt8) :
    (Phase.chunk (L.next bytes)).rank chunkSize + 4 = (Phase.piece L ⟨"", 0, []⟩).rank chunkSize := by
  unfold Loop.Here at hhere
  simp only [Phase.rank, Loop.next]
  omega

theorem rank_here {L : Loop} {chunkSize : Nat} (hhere : L.Here chunkSize) :
    5 ≤ (Phase.piece L ⟨"", 0, []⟩).rank chunkSize := by
  unfold Loop.Here at hhere
  simp only [Phase.rank]
  omega

theorem nearer_getStep (h : phase.Ok C config objects d p options)
    (hdone : ∀ res, phase ≠ .done res) :
    (C.getStep config objects io p options sizes phase d).2.2.Nearer config.chunkSize phase := by
  unfold Crates.getStep
  cases phase with
  | done res => exact absurd rfl (hdone res)
  | start =>
    left
    dsimp only
    repeat' split
    all_goals simp [Phase.stage]
  | size =>
    left
    dsimp only
    split
    · simp [Phase.stage]
    · dsimp only
      rw [stage_sized]
      exact Nat.one_pos
  | serve x => exact Or.inr ⟨rfl, Nat.one_pos⟩
  | save f bytes res => exact Or.inr ⟨rfl, Nat.one_pos⟩
  | bypass => exact Or.inr ⟨rfl, Nat.one_pos⟩
  | head =>
    dsimp only
    split <;> exact Or.inr ⟨rfl, Nat.one_pos⟩
  | whole n =>
    dsimp only
    split <;> exact Or.inr ⟨rfl, by simp [Phase.rank]⟩
  | fetch f n =>
    dsimp only
    repeat' split
    all_goals exact Or.inr ⟨rfl, by simp only [Phase.rank]; omega⟩
  | chunk L =>
    dsimp only
    repeat' split
    all_goals exact Or.inr ⟨rfl, by simp only [Phase.rank]; omega⟩
  | piece L x =>
    obtain ⟨b, -, -, hhere, -⟩ := h
    have hrank := rank_here hhere
    simp only [Phase.rank] at hrank
    dsimp only
    split
    · rename_i bytes _
      have hnext := rank_next hhere bytes
      exact Or.inr ⟨rfl, by simp only [Phase.rank] at hnext ⊢; omega⟩
    · exact Or.inr ⟨rfl, by simp only [Phase.rank]; omega⟩
  | missing L =>
    obtain ⟨b, -, -, hhere⟩ := h
    have hrank := rank_here hhere
    simp only [Phase.rank] at hrank
    dsimp only
    split <;> exact Or.inr ⟨rfl, by simp only [Phase.rank]; omega⟩
  | fetchChunk L f =>
    obtain ⟨b, -, -, hhere, -⟩ := h
    have hrank := rank_here hhere
    simp only [Phase.rank] at hrank
    dsimp only
    split <;> exact Or.inr ⟨rfl, by simp only [Phase.rank]; omega⟩
  | saveChunk L f bytes =>
    obtain ⟨b, -, -, hhere, -⟩ := h
    have hnext := rank_next hhere (bytes.slice (L.from config.chunkSize - L.start config.chunkSize)
      (L.upto config.chunkSize - L.start config.chunkSize))
    exact Or.inr ⟨rfl, by simp only [Phase.rank] at hnext ⊢; omega⟩
  | fetchPiece L =>
    obtain ⟨b, -, -, hhere⟩ := h
    have hrank := rank_here hhere
    simp only [Phase.rank] at hrank
    dsimp only
    split
    · exact Or.inr ⟨rfl, by simp only [Phase.rank]; omega⟩
    · rename_i bytes _
      have hnext := rank_next hhere bytes
      exact Or.inr ⟨rfl, by simp only [Phase.rank] at hnext ⊢; omega⟩

end Turns

end Ukiel.Cache
