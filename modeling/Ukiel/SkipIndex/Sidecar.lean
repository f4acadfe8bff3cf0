/-
# Skip indices of row groups

`parquet-skip-index-core`: three small indices over the values of one row group, the bytes they
are kept in, and the verdict on a predicate.

* §1 values, predicates and verdicts.
* §2 the zone map, §3 the value set, §4 the prefix set.
* §5 one payload of any kind: `sidecar::evaluate`.

Only `NoMatch` permits a skip.  `Matches` says what it must never hide.
-/
import Mathlib
import Ukiel.Lib.LittleEndian
import Ukiel.Lib.Slices
import Ukiel.Core.Operation
import Ukiel.Core.Batch

namespace Ukiel.SkipIndex

/-! ## 1. Values, predicates, verdicts -/

/-- Bytes in their order. -/
instance byteOrder : LinearOrder UInt8 where
  le_refl := UInt8.le_refl
  le_trans _ _ _ := UInt8.le_trans
  le_antisymm _ _ := UInt8.le_antisymm
  le_total := UInt8.le_total
  lt_iff_le_not_ge _ _ := by
    rw [UInt8.lt_iff_toNat_lt, UInt8.le_iff_toNat_le, UInt8.le_iff_toNat_le]
    omega
  toDecidableLE := inferInstance

inductive Value where
  | int (n : I64)
  | str (s : List UInt8)
deriving DecidableEq

inductive Predicate where
  | eq (v : Value)
  | isIn (vs : List Value)
  /-- Both ends inclusive. -/
  | range (lo hi : Value)
  /-- `LIKE 'literal%'`. -/
  | startsWith (p : List UInt8)
deriving DecidableEq

inductive Decision where
  | noMatch
  | maybe
  | unknown
deriving DecidableEq

/-- `cmp`: `none` on a type mismatch. -/
def Value.cmp? : Value → Value → Option Ordering
  | .int x, .int y => some (cmp x y)
  | .str x, .str y => some (cmp x y)
  | _, _ => none

/-- **A value satisfies a predicate**: both of one type, and so it is. -/
def Matches : Value → Predicate → Prop
  | v, .eq w => v = w
  | v, .isIn ws => v ∈ ws
  | .int x, .range (.int lo) (.int hi) => lo ≤ x ∧ x ≤ hi
  | .str x, .range (.str lo) (.str hi) => lo ≤ x ∧ x ≤ hi
  | .str x, .startsWith p => p <+: x
  | _, _ => False

/-- The non-null values of a row group. -/
def present (group : List (Option Value)) : List Value := group.reduceOption

/-! Bytes. -/

/-- `bytes.get(p..p + n)`. -/
def getRange (bytes : List UInt8) (p n : Nat) : Option (List UInt8) :=
  if p + n ≤ bytes.length then some (bytes.slice p (p + n)) else none

/-- A `u32` in four bytes. -/
def readU32 (bytes : List UInt8) (p : Nat) : Option Nat := (getRange bytes p 4).map ofLeBytes

/-- `as u32`, in four bytes. -/
def u32Bytes (n : Nat) : List UInt8 := leBytes 4 (n % 2 ^ 32)

/-- `i64::from_le_bytes`. -/
def i64OfBits (bits : Nat) : I64 :=
  ⟨(bits : Int).bmod (2 ^ 64), by
    have h₁ := Int.le_bmod (x := bits) (m := 2 ^ 64) (by decide)
    have h₂ := Int.bmod_lt (x := bits) (m := 2 ^ 64) (by decide)
    constructor <;> omega⟩

/-- `encode_value`. -/
def encodeValue : Value → List UInt8
  | .int n => 1 :: leBytes 8 (Canonical.bits n)
  | .str s => 2 :: (u32Bytes s.length ++ s)

/-- `decode_value`, with the position behind the value. -/
def decodeValue (bytes : List UInt8) (p : Nat) : Option (Value × Nat) :=
  match bytes[p]? with
  | some 1 => (getRange bytes (p + 1) 8).map fun raw => (.int (i64OfBits (ofLeBytes raw)), p + 9)
  | some 2 => do
    let len ← readU32 bytes (p + 1)
    let s ← getRange bytes (p + 5) len
    return (.str s, p + 5 + len)
  | _ => none

/-! ## 2. Zone maps -/

/-- Without bounds when there was no non-null value. -/
structure ZoneMap where
  bounds : Option (Value × Value)
deriving DecidableEq

namespace ZoneMap

/-- One round of the loop of `build`: the bound moves when there is none yet, or when the
comparison says so. -/
def widen (o : Ordering) (bound : Option Value) (v : Value) : Option Value :=
  match bound with
  | none => some v
  | some m => if v.cmp? m = some o then some v else some m

/-- `build`. -/
def build (group : List (Option Value)) : ZoneMap :=
  let ends := (present group).foldl (fun b v => (widen .lt b.1 v, widen .gt b.2 v)) (none, none)
  ⟨match ends with
    | (some min, some max) => some (min, max)
    | _ => none⟩

/-- `encode`, behind the letter `Z`. -/
def encode (z : ZoneMap) : List UInt8 :=
  match z.bounds with
  | none => [90, 0]
  | some (lo, hi) => 90 :: 1 :: (encodeValue lo ++ encodeValue hi)

/-- `decode`. -/
def decode (bytes : List UInt8) : Option ZoneMap :=
  if bytes[0]? = some 90 then
    match (bytes[1]? : Option UInt8) with
    | some 0 => some ⟨none⟩
    | some 1 => do
      let (lo, p) ← decodeValue bytes 2
      let (hi, _) ← decodeValue bytes p
      return ⟨some (lo, hi)⟩
    | _ => none
  else none

/-- `point_decision`. -/
def pointDecision (v min max : Value) : Decision :=
  match v.cmp? min, v.cmp? max with
  | some .lt, _ => .noMatch
  | _, some .gt => .noMatch
  | some _, some _ => .maybe
  | _, _ => .unknown

/-- The loop over the values of an `IN`. -/
def inDecision (min max : Value) : List Value → Bool → Decision
  | [], anyMaybe => if anyMaybe then .maybe else .noMatch
  | v :: vs, anyMaybe =>
    match pointDecision v min max with
    | .noMatch => inDecision min max vs anyMaybe
    | .unknown => .unknown
    | .maybe => inDecision min max vs true

/-- `prefix_upper`, on the reversed string: the last byte that is not `0xff` is incremented and
the tail dropped. -/
def upperRev : List UInt8 → Option (List UInt8)
  | [] => none
  | last :: rest => if last < 0xff then some ((last + 1) :: rest) else upperRev rest

/-- `prefix_upper`. -/
def prefixUpper (p : List UInt8) : Option (List UInt8) := (upperRev p.reverse).map List.reverse

/-- `prefix_decision`. -/
def prefixDecision (p : List UInt8) (min max : Value) : Decision :=
  match min, max with
  | .str min, .str max =>
    if p = [] then .maybe
    else if max < p then .noMatch
    else if (prefixUpper p).any fun u => u ≤ min then .noMatch
    else .maybe
  | _, _ => .unknown

/-- `evaluate`. -/
def evaluate (z : ZoneMap) (pred : Predicate) : Decision :=
  match z.bounds with
  | none => .noMatch
  | some (min, max) =>
    match pred with
    | .eq v => pointDecision v min max
    | .isIn vs => inDecision min max vs false
    | .range lo hi =>
      match hi.cmp? min, lo.cmp? max with
      | some .lt, _ => .noMatch
      | _, some .gt => .noMatch
      | some _, some _ => .maybe
      | _, _ => .unknown
    | .startsWith p => prefixDecision p min max

end ZoneMap

/-! ## 3. Sets of byte strings -/

/-- What a set costs of its budget. -/
def insertWithin (budget : Nat) (set : Finset (List UInt8)) (bytes : Nat) (k : List UInt8) :
    Option (Finset (List UInt8) × Nat) :=
  if k ∈ set then some (set, bytes)
  else if budget < bytes + (k.length + 4) then none
  else some (insert k set, bytes + (k.length + 4))

/-- The loop of both `build`s, over the keys. -/
def buildSet (budget : Nat) : List (List UInt8) → Finset (List UInt8) → Nat →
    Option (Finset (List UInt8))
  | [], set, _ => some set
  | k :: ks, set, bytes => do
    let (set, bytes) ← insertWithin budget set bytes k
    buildSet budget ks set bytes

/-- The strings of a `BTreeSet` in their order, each behind its length. -/
def encodeSet (set : Finset (List UInt8)) : List UInt8 :=
  (set.sort (· ≤ ·)).flatMap fun k => u32Bytes k.length ++ k

/-- The loop of both `decode`s. -/
def decodeSet (bytes : List UInt8) : Nat → Nat → Finset (List UInt8) → Option (Finset (List UInt8))
  | 0, _, set => some set
  | n + 1, p, set => do
    let len ← readU32 bytes p
    let k ← getRange bytes (p + 4) len
    decodeSet bytes n (p + 4 + len) (insert k set)

/-! ## 4. Value sets -/

/-- A row group's complete distinct value set, by the encodings of the values. -/
structure ValueSet where
  values : Finset (List UInt8)
deriving DecidableEq

namespace ValueSet

/-- `build`. -/
def build (group : List (Option Value)) (budget : Nat) : Option ValueSet :=
  (buildSet budget ((present group).map encodeValue) ∅ 0).map ValueSet.mk

/-- `encode`, behind the letter `V`. -/
def encode (s : ValueSet) : List UInt8 := 86 :: (u32Bytes s.values.card ++ encodeSet s.values)

/-- `decode`. -/
def decode (bytes : List UInt8) : Option ValueSet :=
  if bytes[0]? = some 86 then do
    let n ← readU32 bytes 1
    let set ← decodeSet bytes n 5 ∅
    return ⟨set⟩
  else none

/-- `evaluate`. -/
def evaluate (s : ValueSet) : Predicate → Decision
  | .eq v => if encodeValue v ∈ s.values then .maybe else .noMatch
  | .isIn vs => if vs.any fun v => encodeValue v ∈ s.values then .maybe else .noMatch
  | .range _ _ => .unknown
  | .startsWith _ => .unknown

end ValueSet

/-! ## 5. Prefix sets -/

/-- A row group's complete set of prefixes of a length. -/
structure PrefixSet where
  prefixLen : Nat
  prefixes : Finset (List UInt8)
deriving DecidableEq

namespace PrefixSet

/-- `prefix_key`. -/
def prefixKey (s : List UInt8) (l : Nat) : List UInt8 := s.take (min s.length l)

/-- The loop of `build`: a value that is no string ends it. -/
def collect (prefixLen budget : Nat) : List Value → Finset (List UInt8) → Nat →
    Option (Finset (List UInt8))
  | [], set, _ => some set
  | .int _ :: _, _, _ => none
  | .str s :: vs, set, bytes => do
    let (set, bytes) ← insertWithin budget set bytes (prefixKey s prefixLen)
    collect prefixLen budget vs set bytes

/-- `build`. -/
def build (group : List (Option Value)) (prefixLen budget : Nat) : Option PrefixSet :=
  (collect prefixLen budget (present group) ∅ 0).map fun set => ⟨prefixLen, set⟩

/-- `encode`, behind the letter `P`. -/
def encode (s : PrefixSet) : List UInt8 :=
  80 :: (u32Bytes s.prefixLen ++ (u32Bytes s.prefixes.card ++ encodeSet s.prefixes))

/-- `decode`. -/
def decode (bytes : List UInt8) : Option PrefixSet :=
  if bytes[0]? = some 80 then do
    let prefixLen ← readU32 bytes 1
    let n ← readU32 bytes 5
    let set ← decodeSet bytes n 9 ∅
    return ⟨prefixLen, set⟩
  else none

/-- `evaluate`. -/
def evaluate (s : PrefixSet) : Predicate → Decision
  | .startsWith p =>
    if p.length < s.prefixLen then .unknown
    else if p.take s.prefixLen ∈ s.prefixes then .maybe
    else .noMatch
  | .eq (.str v) => if prefixKey v s.prefixLen ∈ s.prefixes then .maybe else .noMatch
  | _ => .unknown

end PrefixSet

/-! ## 6. Sidecars -/

inductive IndexKind where
  | zoneMap
  | valueSet
  | prefixSet
deriving DecidableEq

/-- An index of one of the kinds. -/
inductive Index where
  | zoneMap (z : ZoneMap)
  | valueSet (s : ValueSet)
  | prefixSet (s : PrefixSet)
deriving DecidableEq

namespace Index

/-- `build_payload`, before the index is encoded. -/
def build (group : List (Option Value)) (prefixLen budget : Nat) : IndexKind → Option Index
  | .zoneMap => some (.zoneMap (ZoneMap.build group))
  | .valueSet => (ValueSet.build group budget).map .valueSet
  | .prefixSet => (PrefixSet.build group prefixLen budget).map .prefixSet

def encode : Index → List UInt8
  | .zoneMap z => z.encode
  | .valueSet s => s.encode
  | .prefixSet s => s.encode

def decode (bytes : List UInt8) : IndexKind → Option Index
  | .zoneMap => (ZoneMap.decode bytes).map .zoneMap
  | .valueSet => (ValueSet.decode bytes).map .valueSet
  | .prefixSet => (PrefixSet.decode bytes).map .prefixSet

def evaluate : Index → Predicate → Decision
  | .zoneMap z, pred => z.evaluate pred
  | .valueSet s, pred => s.evaluate pred
  | .prefixSet s, pred => s.evaluate pred

end Index

/-- `payload_digest`. -/
def payloadDigest (hash : List UInt8 → Digest) (bytes : List UInt8) : String := hex (hash bytes)

/-- `sidecar::evaluate`: a digest mismatch or a payload that does not decode is no verdict. -/
def evaluate (hash : List UInt8 → Digest) (kind : IndexKind) (payload : List UInt8)
    (expectedDigest : String) (pred : Predicate) : Decision :=
  if payloadDigest hash payload ≠ expectedDigest then .unknown
  else ((Index.decode payload kind).map fun index => index.evaluate pred).getD .unknown

end Ukiel.SkipIndex
