/-
# The key filter

`ukiel-core/src/keyfilter.rs`: a Bloom filter over a part's packing keys, which the catalog asks
before it returns the part.  The positions of a key's four probes are computed once, here; the
database gets them as binds (`sqlBinds`) of a predicate that reads bytes (`sqlPredicate`).

Whatever cannot be decided keeps the part.  `maybeContains` decides nothing of a negative key; the
predicate is never told that the key is one, and `sqlKeeps_iff` has what comes of that.

An `i64` that overflows and an index out of bounds are failures.
-/
import Mathlib.Data.Int.Bitwise
import Mathlib.Tactic.NormNum
import Ukiel.Core.Types
import Ukiel.Lib.Folds
import Ukiel.Lib.Kleene

namespace Ukiel.KeyFilter

/-! ## 1. Probes -/

inductive Failure where
  | overflow
  | outOfBounds
  | noSuchBind
deriving DecidableEq

/-- `KEY_FILTER_V1`. -/
def keyFilterV1 : UInt8 := 1

/-- `PROBES`. -/
abbrev probeCount : Nat := 4

structure Tier where
  /-- Of the bits; the encoded blob is one longer. -/
  bytes : Nat
  supportedKeys : Nat
deriving DecidableEq

/-- `TIERS`. -/
def tiers : List Tier := [⟨128, 80⟩, ⟨1024, 640⟩, ⟨2048, 1280⟩]

/-- `MAX_KEYS_WORTH_FILTERING`. -/
def maxKeysWorthFiltering : Nat := 8000

/-- `tier_for`. -/
def tierFor (keys : Nat) : Tier :=
  (tiers.find? fun t => keys ≤ t.supportedKeys).getD ⟨2048, 1280⟩

/-- The byte of the encoded blob to read, and the bit to demand in it. -/
structure Probe where
  byte : Nat
  mask : Nat
deriving DecidableEq

/-- `HASH_PRIME`. -/
def hashPrime : Int := 2147483647

/-- `PROBE_PARAMS`. -/
def probeParams : Fin probeCount → Int × Int
  | 0 => (1640531527, 1013904223)
  | 1 => (1103515245, 12345)
  | 2 => (1664525, 1566083941)
  | 3 => (2654435761 % hashPrime, 362437)

/-- The result of an `i64` operation. -/
def i64 (n : Int) : Except Failure Int :=
  if -2 ^ 63 ≤ n ∧ n < 2 ^ 63 then .ok n else .error .overflow

/-- `bit_index`. -/
def bitIndex (key : Int) (probe : Fin probeCount) (bits : Nat) : Except Failure Nat := do
  let k := key.emod hashPrime
  let (a, b) := probeParams probe
  let product ← i64 (a * k)
  let sum ← i64 (product + b)
  return ((sum.tmod hashPrime).tmod bits).toNat % 2 ^ 32

/-- `probes`. -/
def probes (key : Int) (bits : Nat) : Except Failure (List Probe) :=
  (List.finRange probeCount).mapM fun probe => do
    let bit ← bitIndex key probe bits
    return ⟨1 + bit / 8, 1 <<< (bit % 8)⟩

/-! ## 2. The filter -/

/-- `blob[probe.byte as usize] |= probe.mask as u8`. -/
def setBit (blob : List UInt8) (p : Probe) : Except Failure (List UInt8) :=
  match blob[p.byte]? with
  | none => .error .outOfBounds
  | some b => .ok (blob.set p.byte (b ||| UInt8.ofNat p.mask))

/-- The inner loop of `build`. -/
def setKey (tier : Tier) (blob : List UInt8) (key : Int) : Except Failure (List UInt8) := do
  let ps ← probes key (tier.bytes * 8)
  ps.foldlM setBit blob

/-- `build`. -/
def build (keys : List Int) : Except Failure (Option (List UInt8)) :=
  if keys.length ≤ 1 ∨ maxKeysWorthFiltering < keys.length ∨ keys.any (· < 0) then .ok none
  else do
    let tier := tierFor keys.length
    let blob ← keys.foldlM (setKey tier) (keyFilterV1 :: List.replicate tier.bytes 0)
    return some blob

/-- `iter().all(|p| filter[p.byte as usize] & p.mask as u8 != 0)`. -/
def allSet (filter : List UInt8) : List Probe → Except Failure Bool
  | [] => .ok true
  | p :: ps =>
    match filter[p.byte]? with
    | none => .error .outOfBounds
    | some b => if b &&& UInt8.ofNat p.mask ≠ 0 then allSet filter ps else .ok false

/-- `maybe_contains`. -/
def maybeContains (filter : List UInt8) (key : Int) : Except Failure Bool :=
  if key < 0 ∨ filter.length < 2 ∨ filter[0]? ≠ some keyFilterV1 then .ok true
  else
    match tiers.find? fun t => filter.length = 1 + t.bytes with
    -- a size this reader does not know
    | none => .ok true
    | some tier => do
      let ps ← probes key (tier.bytes * 8)
      allSet filter ps

/-! ## 3. Where the probes are -/

theorem probeParams_bounds (probe : Fin probeCount) :
    0 ≤ (probeParams probe).1 ∧ (probeParams probe).1 < 2 ^ 31 ∧
      0 ≤ (probeParams probe).2 ∧ (probeParams probe).2 < 2 ^ 31 := by
  revert probe
  decide

/-- **No probe overflows, and each falls into the bits.** -/
theorem bitIndex_eq_ok (key : Int) (probe : Fin probeCount) {bits : Nat} (hpos : 0 < bits)
    (hbits : bits < 2 ^ 32) : ∃ n, bitIndex key probe bits = .ok n ∧ n < bits := by
  have hk : 0 ≤ key.emod hashPrime := Int.emod_nonneg key (by decide)
  have hk' : key.emod hashPrime < 2147483647 := Int.emod_lt_of_pos key (by decide)
  obtain ⟨ha, ha', hb, hb'⟩ := probeParams_bounds probe
  have hproduct : 0 ≤ (probeParams probe).1 * key.emod hashPrime := mul_nonneg ha hk
  have hproduct' : (probeParams probe).1 * key.emod hashPrime ≤ 2 ^ 31 * 2147483647 :=
    mul_le_mul ha'.le hk'.le hk (by norm_num)
  have hfirst : i64 ((probeParams probe).1 * key.emod hashPrime) =
      .ok ((probeParams probe).1 * key.emod hashPrime) := by
    refine if_pos ⟨?_, ?_⟩ <;> omega
  have hsecond : i64 ((probeParams probe).1 * key.emod hashPrime + (probeParams probe).2) =
      .ok ((probeParams probe).1 * key.emod hashPrime + (probeParams probe).2) := by
    refine if_pos ⟨?_, ?_⟩ <;> omega
  unfold bitIndex
  simp only [hfirst, hsecond, bind, Except.bind]
  refine ⟨_, rfl, lt_of_le_of_lt (Nat.mod_le _ _) ?_⟩
  have hlt := Int.tmod_lt_of_pos (((probeParams probe).1 * key.emod hashPrime +
    (probeParams probe).2).tmod hashPrime) (show (0 : Int) < bits by omega)
  omega

/-- A byte of the payload and one of its bits. -/
def Probe.Inside (p : Probe) (bytes : Nat) : Prop :=
  1 ≤ p.byte ∧ p.byte ≤ bytes ∧ ∃ j < 8, p.mask = 2 ^ j

theorem probes_eq_ok (key : Int) {bytes : Nat} (hpos : 0 < bytes) (hbytes : bytes < 2 ^ 29) :
    ∃ ps, probes key (bytes * 8) = .ok ps ∧ ps.length = probeCount ∧
      ∀ p ∈ ps, p.Inside bytes := by
  have hone : ∀ probe ∈ List.finRange probeCount, ∃ p : Probe, p.Inside bytes ∧ (do
      let bit ← bitIndex key probe (bytes * 8)
      return (⟨1 + bit / 8, 1 <<< (bit % 8)⟩ : Probe)) = Except.ok p := by
    intro probe _
    obtain ⟨n, hn, hlt⟩ := bitIndex_eq_ok key probe (show 0 < bytes * 8 by omega) (by omega)
    refine ⟨⟨1 + n / 8, 1 <<< (n % 8)⟩, ⟨?_, ?_, n % 8, ?_, ?_⟩, ?_⟩
    · exact Nat.le_add_right 1 _
    · show 1 + n / 8 ≤ bytes
      omega
    · exact Nat.mod_lt n (by decide)
    · exact Nat.one_shiftLeft _
    · rw [hn]
      rfl
  obtain ⟨ps, hps⟩ := List.exists_forall₂ hone
  refine ⟨ps, List.mapM_eq_ok_iff.mpr (hps.imp fun _ _ h => h.2), ?_, ?_⟩
  · rw [← hps.length_eq, List.length_finRange]
  · intro p hp
    obtain ⟨_, -, hinside, -⟩ := hps.flip.exists_of_mem hp
    exact hinside

/-! ## 4. No key of the part is denied -/

/-- The bit a probe demands is set. -/
def Has (filter : List UInt8) (p : Probe) : Prop :=
  ∃ b, filter[p.byte]? = some b ∧ b &&& UInt8.ofNat p.mask ≠ 0

instance (filter : List UInt8) (p : Probe) : Decidable (Has filter p) :=
  decidable_of_iff (∃ b ∈ filter[p.byte]?, b &&& UInt8.ofNat p.mask ≠ 0) Iff.rfl

/-- Bits are set and none is taken back. -/
structure Grows (blob blob' : List UInt8) : Prop where
  length : blob'.length = blob.length
  version : blob'[0]? = blob[0]?
  keeps : ∀ p, Has blob p → Has blob' p

theorem Grows.refl (blob : List UInt8) : Grows blob blob := ⟨rfl, rfl, fun _ h => h⟩

theorem Grows.trans {a b c : List UInt8} (h : Grows a b) (h' : Grows b c) : Grows a c :=
  ⟨h'.length.trans h.length, h'.version.trans h.version, fun p hp => h'.keeps p (h.keeps p hp)⟩

theorem and_or_distrib_right (a b m : UInt8) : (a ||| b) &&& m = (a &&& m) ||| (b &&& m) :=
  UInt8.toBitVec_inj.mp BitVec.and_or_distrib_right

theorem or_and_ne_zero {a b m : UInt8} (h : a &&& m ≠ 0) : (a ||| b) &&& m ≠ 0 := by
  rw [and_or_distrib_right]
  exact fun h' => h (UInt8.or_eq_zero_iff.mp h').1

theorem mask_self {m : UInt8} {b : UInt8} (hm : m ≠ 0) : (b ||| m) &&& m ≠ 0 := by
  rw [and_or_distrib_right, UInt8.and_self]
  exact fun h' => hm (UInt8.or_eq_zero_iff.mp h').2

theorem Probe.Inside.mask_ne_zero {p : Probe} {bytes : Nat} (h : p.Inside bytes) :
    UInt8.ofNat p.mask ≠ 0 := by
  obtain ⟨-, -, j, hj, hmask⟩ := h
  rw [hmask]
  clear hmask
  revert j
  decide

theorem setBit_eq_ok {blob : List UInt8} {p : Probe} {bytes : Nat}
    (hlength : blob.length = 1 + bytes) (h : p.Inside bytes) :
    ∃ blob', setBit blob p = .ok blob' ∧ Grows blob blob' ∧ Has blob' p := by
  obtain ⟨hone, hbyte, -⟩ := id h
  have hlt : p.byte < blob.length := by omega
  refine ⟨blob.set p.byte (blob[p.byte] ||| UInt8.ofNat p.mask), ?_, ⟨?_, ?_, ?_⟩, ?_⟩
  · rw [setBit, List.getElem?_eq_getElem hlt]
  · exact List.length_set
  · exact List.getElem?_set_ne (by omega)
  · rintro q ⟨b, hb, hq⟩
    by_cases hpq : p.byte = q.byte
    · obtain rfl : blob[p.byte] = b := by
        rw [← hpq, List.getElem?_eq_getElem hlt] at hb
        exact Option.some.inj hb
      rw [Has, ← hpq]
      exact ⟨_, List.getElem?_set_self hlt, or_and_ne_zero hq⟩
    · exact ⟨b, (List.getElem?_set_ne hpq).trans hb, hq⟩
  · exact ⟨_, List.getElem?_set_self hlt, mask_self h.mask_ne_zero⟩

theorem tierFor_mem (n : Nat) : tierFor n ∈ tiers := by
  unfold tierFor
  cases h : tiers.find? fun t => n ≤ t.supportedKeys with
  | none => decide
  | some t => exact List.mem_of_find?_eq_some h

theorem find?_tier {tier : Tier} (h : tier ∈ tiers) :
    (tiers.find? fun t => 1 + tier.bytes = 1 + t.bytes) = some tier := by
  revert tier
  decide

theorem Tier.bytes_bounds {tier : Tier} (h : tier ∈ tiers) :
    0 < tier.bytes ∧ tier.bytes < 2 ^ 29 := by
  revert tier
  decide

theorem tier_probes_eq_ok (key : Int) {tier : Tier} (h : tier ∈ tiers) :
    ∃ ps, probes key (tier.bytes * 8) = .ok ps ∧ ps.length = probeCount ∧
      ∀ p ∈ ps, p.Inside tier.bytes :=
  probes_eq_ok key (Tier.bytes_bounds h).1 (Tier.bytes_bounds h).2

theorem setKey_eq_ok {blob : List UInt8} {tier : Tier} (hlength : blob.length = 1 + tier.bytes)
    (h : tier ∈ tiers) (key : Int) :
    ∃ blob', setKey tier blob key = .ok blob' ∧ Grows blob blob' ∧
      ∀ ps, probes key (tier.bytes * 8) = .ok ps → ∀ p ∈ ps, Has blob' p := by
  obtain ⟨ps, hps, -, hinside⟩ := tier_probes_eq_ok key h
  obtain ⟨blob', hblob', hg, hhas⟩ := List.exists_foldlM_ok Grows (fun p blob => Has blob p)
    (f := setBit) (l := ps) (a := blob) Grows.refl Grows.trans (fun hg hdone => hg.keeps _ hdone)
    fun p hp _ hg => setBit_eq_ok (hg.length.trans hlength) (hinside p hp)
  refine ⟨blob', ?_, hg, fun ps' hps' => ?_⟩
  · rw [setKey, hps]
    exact hblob'
  · cases hps.symm.trans hps'
    exact hhas

/-- **What `build` makes of nonnegative keys**: a blob of the tier's length that has the bits of
every one of them. -/
theorem blob_eq_ok (keys : List Int) {tier : Tier} (h : tier ∈ tiers) :
    ∃ blob, keys.foldlM (setKey tier) (keyFilterV1 :: List.replicate tier.bytes 0) = .ok blob ∧
      blob.length = 1 + tier.bytes ∧ blob[0]? = some keyFilterV1 ∧
      ∀ key ∈ keys, ∀ ps, probes key (tier.bytes * 8) = .ok ps → ∀ p ∈ ps, Has blob p := by
  have hlength : (keyFilterV1 :: List.replicate tier.bytes 0).length = 1 + tier.bytes := by
    rw [List.length_cons, List.length_replicate, Nat.add_comm]
  obtain ⟨blob, hblob, hgrows, hall⟩ := List.exists_foldlM_ok Grows
    (fun key blob => ∀ ps, probes key (tier.bytes * 8) = .ok ps → ∀ p ∈ ps, Has blob p)
    (f := setKey tier) (l := keys) (a := keyFilterV1 :: List.replicate tier.bytes 0)
    Grows.refl Grows.trans (fun hg hdone ps hps p hp => hg.keeps p (hdone ps hps p hp))
    fun key _ blob hg => setKey_eq_ok (hg.length.trans hlength) h key
  exact ⟨blob, hblob, hgrows.length.trans hlength, hgrows.version, hall⟩

/-- A test of bytes that are there. -/
theorem allSet_eq_ok {filter : List UInt8} {ps : List Probe}
    (h : ∀ p ∈ ps, p.byte < filter.length) :
    allSet filter ps = .ok (decide (∀ p ∈ ps, Has filter p)) := by
  induction ps with
  | nil => simp [allSet]
  | cons p ps ih =>
    obtain ⟨hp, hps⟩ := List.forall_mem_cons.mp h
    have hget := List.getElem?_eq_getElem hp
    simp only [allSet, hget, List.forall_mem_cons]
    by_cases hbit : filter[p.byte] &&& UInt8.ofNat p.mask = 0
    · have hno : ¬ Has filter p := fun ⟨b, hb, hne⟩ => by
        cases hget.symm.trans hb
        exact hne hbit
      simp [hbit, hno]
    · have hhas : Has filter p := ⟨_, hget, hbit⟩
      simp [hbit, hhas, ih hps]

/-- What `maybeContains` reads of a blob of some tier. -/
theorem maybeContains_of_tier {filter : List UInt8} {key : Int} {tier : Tier} {ps : List Probe}
    (hmem : tier ∈ tiers) (hlength : filter.length = 1 + tier.bytes)
    (hversion : filter[0]? = some keyFilterV1) (hkey : 0 ≤ key)
    (hps : probes key (tier.bytes * 8) = .ok ps) :
    maybeContains filter key = .ok (decide (∀ p ∈ ps, Has filter p)) := by
  have hbytes := Tier.bytes_bounds hmem
  have hopen : ¬ (key < 0 ∨ filter.length < 2 ∨ filter[0]? ≠ some keyFilterV1) := by
    rintro (h | h | h)
    · omega
    · omega
    · exact h hversion
  obtain ⟨ps', hps', -, hinside⟩ := tier_probes_eq_ok key hmem
  cases hps.symm.trans hps'
  rw [maybeContains, if_neg hopen, hlength, find?_tier hmem]
  simp only [hps, bind, Except.bind]
  refine allSet_eq_ok fun p hp => ?_
  have := (hinside p hp).2.1
  omega

/-- What is built of keys, if anything, has every one of them. -/
theorem build_eq_ok (keys : List Int) : ∃ built, build keys = .ok built ∧
    ∀ filter, built = some filter → ∀ key ∈ keys, 0 ≤ key ∧ maybeContains filter key = .ok true := by
  unfold build
  split
  · exact ⟨none, rfl, fun _ h => nomatch h⟩
  · rename_i hnone
    obtain ⟨blob, hblob, hlength, hversion, hhas⟩ := blob_eq_ok keys (tierFor_mem keys.length)
    refine ⟨some blob, ?_, ?_⟩
    · simp only [hblob, bind, Except.bind]
      rfl
    rintro _ ⟨⟩ key hkey
    have hnonneg : 0 ≤ key := by
      by_contra hneg
      exact hnone (.inr (.inr (List.any_eq_true.mpr ⟨key, hkey, decide_eq_true (by omega)⟩)))
    obtain ⟨ps, hps, -⟩ := tier_probes_eq_ok key (tierFor_mem keys.length)
    refine ⟨hnonneg, ?_⟩
    rw [maybeContains_of_tier (tierFor_mem _) hlength hversion hnonneg hps]
    exact congrArg Except.ok (decide_eq_true (hhas key hkey ps hps))

/-- **A key of the part is never denied**, and no probe, at any tier and for any key, overflows or
leaves the payload. -/
theorem maybeContains_of_build (keys : List Int) :
    (∃ built, build keys = .ok built ∧
      ∀ filter, built = some filter → ∀ key ∈ keys, maybeContains filter key = .ok true) ∧
    ∀ tier ∈ tiers, ∀ key, ∃ ps, probes key (tier.bytes * 8) = .ok ps ∧
      ps.length = probeCount ∧ ∀ p ∈ ps, p.Inside tier.bytes := by
  obtain ⟨built, hbuilt, hkeys⟩ := build_eq_ok keys
  exact ⟨⟨built, hbuilt, fun filter h key hkey => (hkeys filter h key hkey).2⟩,
    fun tier hmem key => tier_probes_eq_ok key hmem⟩

/-! ## 5. The predicate -/

inductive SqlInt where
  | lit (n : Int)
  /-- `$i::int`. -/
  | bind (i : Nat)
  | octetLength
  | getByte (i : SqlInt)
  | band (a b : SqlInt)

inductive SqlCond where
  | const (b : Bool)
  | isNull
  | lt (a b : SqlInt)
  | eq (a b : SqlInt)
  | ne (a b : SqlInt)
  | or (a b : SqlCond)
  | and (a b : SqlCond)

/-- `CASE WHEN … THEN … ELSE … END`. -/
structure SqlCase where
  arms : List (SqlCond × SqlCond)
  els : SqlCond

section Eval

variable (col : Option (List UInt8)) (binds : List Int)

/-- `get_byte`, which raises outside of the string. -/
def byteAt (blob : List UInt8) (i : Int) : Except Failure Int :=
  if i < 0 then .error .outOfBounds
  else
    match blob[i.toNat]? with
    | none => .error .outOfBounds
    | some b => .ok b.toNat

/-- Of NULL all of them are NULL. -/
def SqlInt.eval : SqlInt → Except Failure (Option Int)
  | .lit n => .ok (some n)
  | .bind i =>
    match binds[i - 1]? with
    | none => .error .noSuchBind
    | some n => .ok (some n)
  | .octetLength => .ok (col.map fun blob => (blob.length : Int))
  | .getByte i => do
    match col, ← i.eval with
    | some blob, some i => some <$> byteAt blob i
    | _, _ => return none
  | .band a b => do
    match ← a.eval, ← b.eval with
    | some a, some b => return some (Int.land a b)
    | _, _ => return none

def compared (cmp : Int → Int → Bool) (a b : Option Int) : Option Bool :=
  match a, b with
  | some a, some b => some (cmp a b)
  | _, _ => none

/-- Both sides of a connective are evaluated: SQL does not promise to stop at the first. -/
def SqlCond.eval : SqlCond → Except Failure (Option Bool)
  | .const b => .ok (some b)
  | .isNull => .ok (some col.isNone)
  | .lt a b => do return compared (· < ·) (← a.eval col binds) (← b.eval col binds)
  | .eq a b => do return compared (· = ·) (← a.eval col binds) (← b.eval col binds)
  | .ne a b => do return compared (· ≠ ·) (← a.eval col binds) (← b.eval col binds)
  | .or a b => do return Kleene.or (← a.eval) (← b.eval)
  | .and a b => do return Kleene.and (← a.eval) (← b.eval)

/-- The arms are tried in order. -/
def evalArms (els : SqlCond) : List (SqlCond × SqlCond) → Except Failure (Option Bool)
  | [] => els.eval col binds
  | (c, r) :: arms => do
    if (← c.eval col binds) = some true then r.eval col binds else evalArms els arms

def SqlCase.eval (c : SqlCase) : Except Failure (Option Bool) := evalArms col binds c.els c.arms

end Eval

/-- `join(" AND ")`. -/
def joinAnd : List SqlCond → SqlCond
  | [] => .const true
  | [c] => c
  | c :: cs => .and c (joinAnd cs)

/-- `(get_byte(col, $byte::int) & $mask::int) <> 0`. -/
def bitTest (byte mask : Nat) : SqlCond :=
  .ne (.band (.getByte (.bind byte)) (.bind mask)) (.lit 0)

/-- One turn of the loop over the tiers. -/
def tierArm (tier : Tier) (bind : Nat) : SqlCond × SqlCond :=
  (.eq .octetLength (.lit (1 + tier.bytes)),
    joinAnd ((List.range probeCount).map fun i => bitTest (bind + 2 * i) (bind + 2 * i + 1)))

def tierArms : List Tier → Nat → List (SqlCond × SqlCond)
  | [], _ => []
  | tier :: ts, bind => tierArm tier bind :: tierArms ts (bind + 2 * probeCount)

/-- `sql_predicate`. -/
def sqlPredicate (firstBind : Nat) : SqlCase where
  arms :=
    (.or .isNull (.lt .octetLength (.lit 2)), .const true) ::
    (.ne (.getByte (.lit 0)) (.lit keyFilterV1.toNat), .const true) ::
    tierArms tiers firstBind
  els := .const true

/-- The values bound for one tier. -/
def tierBinds (ps : List Probe) : List Int := ps.flatMap fun p => [(p.byte : Int), (p.mask : Int)]

/-- `sql_binds`. -/
def sqlBinds (key : Int) : Except Failure (List Int) := do
  let all ← tiers.mapM fun t => probes key (t.bytes * 8)
  return all.flatMap tierBinds

/-- The key clause of `live_parts_pruned`: `$1` is the hypertable, `$2` the key and the predicate
reads from `$3` on. -/
def sqlKeeps (filter : Option (List UInt8)) (hypertable key : Int) : Except Failure Bool := do
  let binds ← sqlBinds key
  let r ← (sqlPredicate 3).eval filter (hypertable :: key :: binds)
  return r = some true

/-- The probe on the same column. -/
def rustKeeps (filter : Option (List UInt8)) (key : Int) : Except Failure Bool :=
  match filter with
  | none => .ok true
  | some blob => maybeContains blob key

/-! ## 6. The two tests compared -/

theorem byteAt_of_lt {blob : List UInt8} {i : Nat} (h : i < blob.length) :
    byteAt blob i = .ok (blob[i].toNat : Int) := by
  rw [byteAt, if_neg (by omega), Int.toNat_natCast, List.getElem?_eq_getElem h]

/-- The mask of a byte means the same in an `int` and in a `u8`. -/
theorem land_eq_zero_iff {b : UInt8} {m : Nat} (hm : m < 256) :
    Int.land b.toNat m = 0 ↔ b &&& UInt8.ofNat m = 0 := by
  have hland : Int.land b.toNat m = ((b.toNat &&& m : Nat) : Int) := rfl
  rw [hland, ← UInt8.toNat_inj, UInt8.toNat_and, UInt8.toNat_ofNat_of_lt' hm]
  exact Int.natCast_eq_zero

theorem Probe.Inside.mask_lt {p : Probe} {bytes : Nat} (h : p.Inside bytes) : p.mask < 256 := by
  obtain ⟨-, -, j, hj, hmask⟩ := h
  rw [hmask]
  calc 2 ^ j < 2 ^ 8 := Nat.pow_lt_pow_right (by decide) hj
    _ = 256 := by decide

theorem bitTest_eval {blob : List UInt8} {binds : List Int} {byte mask bytes : Nat} {p : Probe}
    (hbyte : binds[byte - 1]? = some (p.byte : Int))
    (hmask : binds[mask - 1]? = some (p.mask : Int)) (hinside : p.Inside bytes)
    (hlength : blob.length = 1 + bytes) :
    (bitTest byte mask).eval (some blob) binds = .ok (some (decide (Has blob p))) := by
  have hlt : p.byte < blob.length := by
    have := hinside.2.1
    omega
  have hhas : Has blob p ↔ Int.land blob[p.byte].toNat p.mask ≠ 0 := by
    rw [Has, List.getElem?_eq_getElem hlt, Ne, land_eq_zero_iff hinside.mask_lt]
    exact ⟨fun ⟨_, hb, hne⟩ => Option.some.inj hb ▸ hne, fun hne => ⟨_, rfl, hne⟩⟩
  simp only [bitTest, SqlCond.eval, SqlInt.eval, hbyte, hmask, byteAt_of_lt hlt, bind, Except.bind,
    Functor.map, Except.map, pure, Except.pure, compared, decide_eq_decide.mpr hhas]

theorem joinAnd_eval {col : Option (List UInt8)} {binds : List Int} {α : Type} {P : α → Prop}
    [DecidablePred P] {cs : List SqlCond} {as : List α}
    (h : List.Forall₂ (fun c a => c.eval col binds = .ok (some (decide (P a)))) cs as) :
    (joinAnd cs).eval col binds = .ok (some (decide (∀ a ∈ as, P a))) := by
  induction h with
  | nil => simp [joinAnd, SqlCond.eval]
  | @cons c a cs as hc hrest ih =>
    cases cs with
    | nil =>
      cases hrest
      simpa [joinAnd] using hc
    | cons c' cs =>
      rw [show joinAnd (c :: c' :: cs) = .and c (joinAnd (c' :: cs)) from rfl, SqlCond.eval, hc, ih]
      simp [bind, Except.bind, pure, Except.pure]

theorem tierBinds_length (ps : List Probe) : (tierBinds ps).length = 2 * ps.length := by
  induction ps with
  | nil => rfl
  | cons p ps ih =>
    rw [tierBinds, List.flatMap_cons, List.length_append, ← tierBinds, ih, List.length_cons]
    exact Nat.add_comm _ _

theorem tierBinds_getElem? {ps : List Probe} {i : Nat} (h : i < ps.length) :
    (tierBinds ps)[2 * i]? = some (ps[i].byte : Int) ∧
      (tierBinds ps)[2 * i + 1]? = some (ps[i].mask : Int) := by
  induction ps generalizing i with
  | nil => cases h
  | cons p ps ih =>
    cases i with
    | zero => exact ⟨rfl, rfl⟩
    | succ i => exact ih (Nat.lt_of_succ_lt_succ h)

/-- An arm reads its own binds, which are those of its tier. -/
theorem tierArm_eval {blob : List UInt8} {before after : List Int} {tier : Tier} {ps : List Probe}
    (hps : ps.length = probeCount) (hinside : ∀ p ∈ ps, p.Inside tier.bytes)
    (hlength : blob.length = 1 + tier.bytes) :
    (tierArm tier (before.length + 1)).2.eval (some blob) (before ++ tierBinds ps ++ after) =
      .ok (some (decide (∀ p ∈ ps, Has blob p))) := by
  refine joinAnd_eval (List.forall₂_iff_get.mpr ⟨?_, fun i hi hi' => ?_⟩)
  · rw [List.length_map, List.length_range, hps]
  have hbind : ∀ {j}, j < 2 * ps.length →
      (before ++ tierBinds ps ++ after)[before.length + j]? = (tierBinds ps)[j]? := by
    intro j hj
    rw [List.append_assoc, List.getElem?_append_right (by omega), Nat.add_sub_cancel_left,
      List.getElem?_append_left (by rw [tierBinds_length]; exact hj)]
  obtain ⟨hbyte, hmask⟩ := tierBinds_getElem? hi'
  simp only [List.get_eq_getElem, List.getElem_map, List.getElem_range]
  refine bitTest_eval ?_ ?_ (hinside _ (List.getElem_mem hi')) hlength
  · rw [← hbyte, ← hbind (by omega)]
    congr 1
    omega
  · rw [← hmask, ← hbind (by omega)]
    congr 1
    omega

/-- Where the length of the blob is a tier's, its bits are the key's: the condition the arms test,
and the one `maybeContains` tests of a key that is not negative. -/
def TierBits (key : Int) (blob : List UInt8) (ts : List Tier) : Prop :=
  ∀ tier ∈ ts, blob.length = 1 + tier.bytes →
    ∀ ps, probes key (tier.bytes * 8) = .ok ps → ∀ p ∈ ps, Has blob p

theorem tierArms_eval {key : Int} (blob : List UInt8) {ts : List Tier} {pss : List (List Probe)}
    (hpss : List.Forall₂ (fun tier ps => probes key (tier.bytes * 8) = .ok ps ∧
      ps.length = probeCount ∧ ∀ p ∈ ps, p.Inside tier.bytes) ts pss)
    (before : List Int) :
    ∃ b, evalArms (some blob) (before ++ pss.flatMap tierBinds) (.const true)
        (tierArms ts (before.length + 1)) = .ok (some b) ∧
      (b = true ↔ TierBits key blob ts) := by
  induction hpss generalizing before with
  | nil => exact ⟨true, rfl, by simp [TierBits]⟩
  | @cons tier ps ts pss hhead htail ih =>
    obtain ⟨hps, hcount, hinside⟩ := hhead
    have hcond : (tierArm tier (before.length + 1)).1.eval (some blob)
        (before ++ (ps :: pss).flatMap tierBinds) =
        .ok (some (decide (blob.length = 1 + tier.bytes))) := by
      simp only [tierArm, SqlCond.eval, SqlInt.eval, bind, Except.bind, pure, Except.pure,
        compared, Option.map_some]
      congr 2
      exact decide_eq_decide.mpr (by omega)
    rw [tierArms, evalArms, hcond]
    by_cases hlength : blob.length = 1 + tier.bytes
    · refine ⟨decide (∀ p ∈ ps, Has blob p), ?_, ?_⟩
      · simp only [hlength, decide_true, bind, Except.bind, if_true, List.flatMap_cons,
          ← List.append_assoc]
        exact tierArm_eval hcount hinside hlength
      · rw [decide_eq_true_iff]
        constructor
        · -- the probes depend on the length only
          intro hall tier' _ hlength' ps' hps'
          obtain rfl : ps = ps' := by
            have hbytes : tier'.bytes = tier.bytes := by omega
            rw [hbytes, hps] at hps'
            exact Except.ok.inj hps'
          exact hall
        · exact fun h => h tier List.mem_cons_self hlength ps hps
    · obtain ⟨b, hb, hiff⟩ := ih (before ++ tierBinds ps)
      refine ⟨b, ?_, ?_⟩
      · rw [← hb]
        simp only [hlength, decide_false, bind, Except.bind, List.flatMap_cons,
          List.append_assoc, List.length_append, tierBinds_length, hcount]
        rw [if_neg (by decide)]
        congr 2
      · rw [hiff]
        exact ⟨fun h => List.forall_mem_cons.mpr ⟨fun h' => absurd h' hlength, h⟩,
          fun h => (List.forall_mem_cons.mp h).2⟩

theorem sqlBinds_eq_ok (key : Int) : ∃ pss, sqlBinds key = .ok (pss.flatMap tierBinds) ∧
    List.Forall₂ (fun tier ps => probes key (tier.bytes * 8) = .ok ps ∧
      ps.length = probeCount ∧ ∀ p ∈ ps, p.Inside tier.bytes) tiers pss := by
  obtain ⟨pss, hpss⟩ := List.exists_forall₂ fun tier h => tier_probes_eq_ok key h
  refine ⟨pss, ?_, hpss⟩
  rw [sqlBinds, List.mapM_eq_ok_iff.mpr (hpss.imp fun _ _ h => h.1)]
  rfl

theorem evalArms_cons {col : Option (List UInt8)} {binds : List Int} {els c r : SqlCond}
    {arms : List (SqlCond × SqlCond)} {v : Option Bool} (h : c.eval col binds = .ok v) :
    evalArms col binds els ((c, r) :: arms) =
      if v = some true then r.eval col binds else evalArms col binds els arms := by
  rw [evalArms, h]
  rfl

theorem short_eval (blob : List UInt8) (binds : List Int) :
    (SqlCond.or .isNull (.lt .octetLength (.lit 2))).eval (some blob) binds =
      .ok (some (decide (blob.length < 2))) := by
  simp [SqlCond.eval, SqlInt.eval, compared, bind, Except.bind, pure, Except.pure]

theorem version_eval {blob : List UInt8} (binds : List Int) (h : 0 < blob.length) :
    (SqlCond.ne (.getByte (.lit 0)) (.lit keyFilterV1.toNat)).eval (some blob) binds =
      .ok (some (decide (blob[0]? ≠ some keyFilterV1))) := by
  have hfirst : byteAt blob 0 = .ok (blob[0].toNat : Int) := byteAt_of_lt h
  have hiff : ((blob[0].toNat : Int) ≠ keyFilterV1.toNat) ↔ blob[0]? ≠ some keyFilterV1 := by
    rw [List.getElem?_eq_getElem h, Ne, Ne, Option.some.injEq, ← UInt8.toNat_inj, Nat.cast_inj]
  simp only [SqlCond.eval, SqlInt.eval, compared, hfirst, bind, Except.bind, Functor.map,
    Except.map, pure, Except.pure, decide_eq_decide.mpr hiff]

/-- What the predicate decides, with no byte read outside of the blob. -/
theorem sqlKeeps_eq_ok (filter : Option (List UInt8)) (hypertable key : Int) :
    ∃ b, sqlKeeps filter hypertable key = .ok b ∧
      (b = true ↔ ∀ blob, filter = some blob → blob[0]? = some keyFilterV1 →
        TierBits key blob tiers) := by
  obtain ⟨pss, hbinds, hpss⟩ := sqlBinds_eq_ok key
  suffices h : ∃ b, (sqlPredicate 3).eval filter (hypertable :: key :: pss.flatMap tierBinds) =
      .ok (some b) ∧ (b = true ↔ ∀ blob, filter = some blob → blob[0]? = some keyFilterV1 →
        TierBits key blob tiers) by
    obtain ⟨b, hb, hiff⟩ := h
    refine ⟨b, ?_, hiff⟩
    rw [sqlKeeps, hbinds]
    simp [hb, bind, Except.bind, pure, Except.pure]
  rw [SqlCase.eval, sqlPredicate]
  cases filter with
  | none => exact ⟨true, rfl, by simp⟩
  | some blob =>
    rw [evalArms_cons (short_eval blob _)]
    by_cases hlength : blob.length < 2
    · refine ⟨true, by simp [hlength, SqlCond.eval], iff_of_true rfl ?_⟩
      -- too short for any tier
      rintro _ ⟨⟩ - tier hmem hlength'
      have := (Tier.bytes_bounds hmem).1
      omega
    rw [if_neg (by simpa using hlength), evalArms_cons (version_eval _ (by omega))]
    by_cases hversion : blob[0]? = some keyFilterV1
    · obtain ⟨b, hb, hiff⟩ := tierArms_eval blob hpss [hypertable, key]
      refine ⟨b, by simpa [hversion] using hb, hiff.trans ?_⟩
      exact ⟨fun h _ hblob _ => Option.some.inj hblob ▸ h, fun h => h blob rfl hversion⟩
    · refine ⟨true, by simp [hversion, SqlCond.eval], iff_of_true rfl ?_⟩
      rintro _ ⟨⟩ hv
      exact absurd hv hversion

theorem rustKeeps_eq_ok (filter : Option (List UInt8)) (key : Int) :
    ∃ b, rustKeeps filter key = .ok b ∧
      (b = true ↔ 0 ≤ key → ∀ blob, filter = some blob → blob[0]? = some keyFilterV1 →
        TierBits key blob tiers) := by
  cases filter with
  | none => exact ⟨true, rfl, by simp⟩
  | some blob =>
    by_cases hopen : key < 0 ∨ blob.length < 2 ∨ blob[0]? ≠ some keyFilterV1
    · refine ⟨true, by rw [rustKeeps, maybeContains, if_pos hopen], iff_of_true rfl ?_⟩
      rintro hkey _ ⟨⟩ hversion tier hmem hlength
      have := (Tier.bytes_bounds hmem).1
      rcases hopen with h | h | h
      · omega
      · omega
      · exact absurd hversion h
    have hkey : 0 ≤ key := not_lt.mp fun h => hopen (.inl h)
    have hversion : blob[0]? = some keyFilterV1 := not_not.mp fun h => hopen (.inr (.inr h))
    by_cases htier : ∃ tier ∈ tiers, blob.length = 1 + tier.bytes
    · obtain ⟨tier, hmem, hlength⟩ := htier
      obtain ⟨ps, hps, -⟩ := tier_probes_eq_ok key hmem
      refine ⟨_, maybeContains_of_tier hmem hlength hversion hkey hps, ?_⟩
      rw [decide_eq_true_iff]
      constructor
      · rintro hall - _ ⟨⟩ - tier' - hlength' ps' hps'
        have hbytes : tier'.bytes = tier.bytes := by omega
        rw [hbytes, hps] at hps'
        exact Except.ok.inj hps' ▸ hall
      · exact fun h => h hkey blob rfl hversion tier hmem hlength ps hps
    · refine ⟨true, ?_, iff_of_true rfl ?_⟩
      · have hnone : (tiers.find? fun t => blob.length = 1 + t.bytes) = none :=
          List.find?_eq_none.mpr fun t ht h => htier ⟨t, ht, of_decide_eq_true h⟩
        rw [rustKeeps, maybeContains, if_neg hopen, hnone]
      · rintro - _ ⟨⟩ - tier hmem hlength
        exact absurd ⟨tier, hmem, hlength⟩ htier

/-- A part is kept for each key its filter was built of, by either test. -/
theorem keeps_of_build {keys : List Int} {built : Option (List UInt8)}
    (h : build keys = .ok built) {key : Int} (hkey : key ∈ keys) (hypertable : Int) :
    sqlKeeps built hypertable key = .ok true ∧ rustKeeps built key = .ok true := by
  obtain ⟨_, hbuilt, hkeys⟩ := build_eq_ok keys
  obtain rfl := Except.ok.inj (h.symm.trans hbuilt)
  obtain ⟨b, hsql, hb⟩ := sqlKeeps_eq_ok built hypertable key
  obtain ⟨b', hrust, hb'⟩ := rustKeeps_eq_ok built key
  cases built with
  | none =>
    obtain rfl : b = true := hb.mpr fun _ h => nomatch h
    exact ⟨hsql, rfl⟩
  | some blob =>
    obtain ⟨hnonneg, hkeeps⟩ := hkeys blob rfl key hkey
    have hrust' : rustKeeps (some blob) key = .ok true := hkeeps
    obtain rfl := Except.ok.inj (hrust.symm.trans hrust')
    obtain rfl : b = true := hb.mpr (hb'.mp rfl hnonneg)
    exact ⟨hsql, hrust⟩

/-- **The two tests agree**, without an error, exactly where no negative key is asked of a filter
that lacks a bit of its probes: `maybeContains` keeps such a part, and the predicate drops it. -/
theorem sqlKeeps_iff (filter : Option (List UInt8)) (hypertable key : Int) :
    (∃ b, sqlKeeps filter hypertable key = .ok b ∧ rustKeeps filter key = .ok b) ↔
      (key < 0 → ∀ blob, filter = some blob → blob[0]? = some keyFilterV1 →
        TierBits key blob tiers) := by
  obtain ⟨b, hsql, hb⟩ := sqlKeeps_eq_ok filter hypertable key
  obtain ⟨b', hrust, hb'⟩ := rustKeeps_eq_ok filter key
  rw [hsql, hrust]
  have hagree : (∃ c, (.ok b : Except Failure Bool) = .ok c ∧
      (.ok b' : Except Failure Bool) = .ok c) ↔ (b = true ↔ b' = true) := by
    cases b <;> cases b' <;> simp
  rw [hagree, hb, hb']
  constructor
  · intro h hneg
    exact h.mpr fun hkey => absurd hneg (not_lt.mpr hkey)
  · intro h
    refine ⟨fun hbits _ => hbits, fun hbits => ?_⟩
    rcases lt_or_ge key 0 with hneg | hkey
    · exact h hneg
    · exact hbits hkey

/-- The filter of a part that packs the keys 3 and 10. -/
def twoKeys : List UInt8 :=
  match build [3, 10] with
  | .ok (some blob) => blob
  | _ => []

/-- A negative key: the probe keeps the part and the predicate drops it. -/
theorem negative_key_dropped :
    build [3, 10] = .ok (some twoKeys) ∧ sqlKeeps (some twoKeys) 1 (-1) = .ok false ∧
      rustKeeps (some twoKeys) (-1) = .ok true := by
  decide +kernel

end Ukiel.KeyFilter
