/-
# The fingerprint of a multiset of rows

`prod-synth-integrity`: every row is written down in bytes and hashed, and the hashes are folded
into a count, an exclusive or and four wrapping sums.  Compaction rewrites every file and every
grouping of a fixture, and what it must not change is the multiset of the rows.

* §1 the bytes of a row, which determine it (`encodeRow_eq_iff`).
* §2 the accumulator, a commutative monoid in which a batch is the sum of its rows.
* §3 what follows for any order and any batches.

BLAKE3 is a parameter.  Nothing is assumed of it where the accumulator is concerned; that two rows
have different digests is a matter of the rows in use.
-/
import Mathlib
import Ukiel.Lib.LittleEndian
import Ukiel.Core.Operation
import Ukiel.Core.Batch

namespace Ukiel.Integrity

/-! ## 1. Rows -/

/-- The Arrow types the encoding tells apart.  `other` has the text of any other one. -/
inductive ColumnType where
  | int64
  | float64
  | utf8
  | utf8View
  | boolean
  | other (debug : String)
deriving DecidableEq

/-- An Arrow field, as far as `column_encoders` reads it. -/
structure Column where
  name : String
  dataType : ColumnType
deriving DecidableEq

/-- A cell an array of this type has.  Of the types without an encoding nothing is said. -/
def ColumnType.admits : ColumnType → Value → Prop
  | _, .null => True
  | .int64, .int64 _ => True
  | .float64, .float64 _ => True
  -- A string's length is a `usize`.
  | .utf8, .utf8 text => text ∈ Str64
  | .utf8View, .utf8 text => text ∈ Str64
  | .boolean, .bool _ => True
  | .other _, _ => True
  | _, _ => False

/-- A row of a schema: one cell for each column, of its type. -/
abbrev Row (s : List Column) := {cells : List Value // List.Forall₂
  (fun c v => ColumnType.admits c.dataType v) s cells}

structure RecordBatch where
  schema : List Column
  rows : List (Row schema)

inductive FingerprintError where
  | unsupportedType (column dataType : String)
deriving DecidableEq

/-- `Display`. -/
def FingerprintError.display : FingerprintError → String
  | .unsupportedType column dataType =>
    "row-multiset fingerprint does not encode column '" ++ column ++ "' of type " ++ dataType ++
      "; the encoding is closed so a new type cannot be silently dropped"

/-- The closure of an `Int64` column. -/
def encodeInt64 : Value → List UInt8
  | .int64 n => 1 :: leBytes 8 (Canonical.bits n)
  | _ => [0]

/-- The bits of `if v == 0.0 { 0.0 } else { v }`: a zero loses its sign. -/
def unsignedZero (bits : UInt64) : UInt64 := if bits = 0x8000000000000000 then 0 else bits

/-- The closure of a `Float64` column. -/
def encodeFloat64 : Value → List UInt8
  | .float64 bits => 2 :: leBytes 8 (unsignedZero bits).toNat
  | _ => [0]

/-- `encode_str`, of either string type: length-delimited. -/
def encodeStr : Value → List UInt8
  | .utf8 text => 3 :: (leBytes 8 (utf8 text).length ++ utf8 text)
  | _ => [0]

/-- The closure of a `Boolean` column. -/
def encodeBool : Value → List UInt8
  | .bool b => [4, if b then 1 else 0]
  | _ => [0]

/-- One step of `column_encoders`. -/
def columnEncoder (c : Column) : Except FingerprintError (Value → List UInt8) :=
  match c.dataType with
  | .int64 => .ok encodeInt64
  | .float64 => .ok encodeFloat64
  | .utf8 => .ok encodeStr
  | .utf8View => .ok encodeStr
  | .boolean => .ok encodeBool
  | .other debug => .error (.unsupportedType c.name debug)

/-- `column_encoders`. -/
def columnEncoders (s : List Column) : Except FingerprintError (List (Value → List UInt8)) :=
  s.mapM columnEncoder

/-- The buffer after the loop over the encoders. -/
def encodeRow (encoders : List (Value → List UInt8)) (cells : List Value) : List UInt8 :=
  (List.zipWith (fun encode v => encode v) encoders cells).flatten

/-! What the bytes say of a cell does not depend on its column. -/

/-- The cell up to the sign of a zero. -/
def unsigned : Value → Value
  | .float64 bits => .float64 (unsignedZero bits)
  | v => v

/-- The bytes of a cell. -/
def encodeValue : Value → List UInt8
  | .null => [0]
  | .int64 n => encodeInt64 (.int64 n)
  | .float64 bits => encodeFloat64 (.float64 bits)
  | .utf8 text => encodeStr (.utf8 text)
  | .bool b => encodeBool (.bool b)

theorem unsignedZero_idem (bits : UInt64) :
    unsignedZero (unsignedZero bits) = unsignedZero bits := by
  unfold unsignedZero
  split
  · rfl
  · rfl

/-- Equal, or two zeros: `+0.0` is a zero, and so is `-0.0`. -/
def SameValue : Value → Value → Prop
  | .float64 a, .float64 b =>
    a = b ∨ ((a = 0 ∨ a = 0x8000000000000000) ∧ (b = 0 ∨ b = 0x8000000000000000))
  | v, w => v = w

theorem unsigned_eq_iff {v w : Value} : unsigned v = unsigned w ↔ SameValue v w := by
  cases v with
  | float64 a =>
    cases w with
    | float64 b =>
      rw [unsigned, unsigned, Value.float64.injEq, SameValue, unsignedZero, unsignedZero]
      split <;> split <;> simp_all [eq_comm]
    | null | int64 | utf8 | bool => simp [unsigned, SameValue]
  | null | int64 | utf8 | bool => cases w <;> simp [unsigned, SameValue]

theorem map_unsigned_eq_iff {l l' : List Value} :
    l.map unsigned = l'.map unsigned ↔ List.Forall₂ SameValue l l' := by
  rw [← List.forall₂_eq_eq_eq, List.forall₂_map_left_iff, List.forall₂_map_right_iff]
  simp only [unsigned_eq_iff]

/-- The sign of a zero is not written. -/
theorem encodeValue_unsigned (v : Value) : encodeValue (unsigned v) = encodeValue v := by
  cases v with
  | float64 bits =>
    simp only [unsigned, encodeValue, encodeFloat64, unsignedZero_idem]
  | null | int64 n | utf8 text | bool b => rfl

/-- The cells of the encoding: zeros without a sign, and strings the program can hold. -/
def Encodable : Set Value :=
  {v | unsigned v = v ∧ ∀ text, v = .utf8 text → text ∈ Str64}

/-- Cells with different tags are told apart, and within a tag the bytes say the rest. -/
theorem prefixCode_value : PrefixCode Encodable encodeValue := by
  intro x hx y hy u v h
  cases x with
  | null =>
    cases y with
    | null => exact ⟨rfl, List.append_cancel_left h⟩
    | int64 | float64 | utf8 | bool => cases h
  | int64 m =>
    cases y with
    | int64 n =>
      obtain ⟨hbits, huv⟩ := prefixCode_leBytes 8 _ (Canonical.bits_lt m) _ (Canonical.bits_lt n)
        _ _ (List.cons.inj h).2
      exact ⟨by rw [Subtype.ext (Canonical.bits_injOn m.property n.property hbits)], huv⟩
    | null | float64 | utf8 | bool => cases h
  | float64 b =>
    cases y with
    | float64 c =>
      obtain ⟨hbits, huv⟩ := prefixCode_leBytes 8 _ (unsignedZero b).toNat_lt _
        (unsignedZero c).toNat_lt _ _ (List.cons.inj h).2
      refine ⟨?_, huv⟩
      rw [← hx.1, ← hy.1, unsigned, unsigned, UInt64.toNat_inj.mp hbits]
    | null | int64 | utf8 | bool => cases h
  | utf8 s =>
    cases y with
    | utf8 t =>
      have hcode : PrefixCode Str64 fun text => leBytes 8 (utf8 text).length ++ utf8 text :=
        PrefixCode.delimited (prefixCode_leBytes 8) (fun _ htext => htext) utf8_injective.injOn
      obtain ⟨hst, huv⟩ := hcode s (hx.2 s rfl) t (hy.2 t rfl) _ _ (List.cons.inj h).2
      exact ⟨by rw [hst], huv⟩
    | null | int64 | float64 | bool => cases h
  | bool a =>
    cases y with
    | bool b =>
      obtain ⟨hbyte, huv⟩ := List.cons.inj (List.cons.inj h).2
      refine ⟨?_, huv⟩
      cases a <;> cases b <;> first | rfl | cases hbyte
    | null | int64 | float64 | utf8 => cases h

/-- Every column has an encoder. -/
def Supported (s : List Column) : Prop := ∀ c ∈ s, ∀ debug, c.dataType ≠ .other debug

theorem columnEncoder_eq_ok {c : Column} {encode : Value → List UInt8} {v : Value}
    (h : columnEncoder c = .ok encode) (hv : c.dataType.admits v) : encode v = encodeValue v := by
  obtain ⟨name, dataType⟩ := c
  cases dataType with
  | other debug => cases h
  | int64 | float64 | utf8 | utf8View | boolean =>
    cases h
    cases v <;> first | rfl | cases hv

theorem encodable_of_admits {c : Column} {encode : Value → List UInt8} {v : Value}
    (h : columnEncoder c = .ok encode) (hv : c.dataType.admits v) : unsigned v ∈ Encodable := by
  obtain ⟨name, dataType⟩ := c
  refine ⟨?_, ?_⟩
  · cases v with
    | float64 bits => rw [unsigned, unsigned, unsignedZero_idem]
    | null | int64 | utf8 | bool => rfl
  · intro text htext
    cases v with
    | utf8 text' =>
      cases htext
      cases dataType with
      | utf8 | utf8View => exact hv
      | other debug => cases h
      | int64 | float64 | boolean => cases hv
    | null | int64 | float64 | bool => cases htext

section Rows

variable {s t : List Column} {es : List (Value → List UInt8)}

theorem columnEncoders_isOk_iff : (∃ es, columnEncoders s = .ok es) ↔ Supported s := by
  rw [columnEncoders, List.mapM_isOk_iff]
  refine forall₂_congr fun c _ => ?_
  obtain ⟨name, dataType⟩ := c
  cases dataType with
  | other debug =>
    refine iff_of_false ?_ fun h => h debug rfl
    rintro ⟨e, he⟩
    cases he
  | int64 | float64 | utf8 | utf8View | boolean =>
    exact iff_of_true ⟨_, rfl⟩ fun debug h => by cases h

/-- The bytes of a row are those of its cells, one after the other. -/
theorem encodeRow_eq (h : columnEncoders s = .ok es) (r : Row s) :
    encodeRow es r.val = (r.val.map unsigned).flatMap encodeValue ∧
      ∀ v ∈ r.val.map unsigned, v ∈ Encodable := by
  obtain ⟨cells, hcells⟩ := r
  have hes := List.mapM_eq_ok_iff.mp h
  induction hcells generalizing es with
  | nil =>
    cases hes
    exact ⟨rfl, fun v hv => by cases hv⟩
  | cons hv _ ih =>
    cases hes with
    | cons he hes =>
      obtain ⟨hbytes, hall⟩ := ih (List.mapM_eq_ok_iff.mpr hes) hes
      refine ⟨?_, List.forall_mem_cons.mpr ⟨encodable_of_admits he hv, hall⟩⟩
      rw [encodeRow, List.zipWith_cons_cons, List.flatten_cons, ← encodeRow, hbytes,
        columnEncoder_eq_ok he hv, ← encodeValue_unsigned]
      rfl

/-- The declared type: `Utf8` and `Utf8View` are one type in two shapes. -/
def ColumnType.declared : ColumnType → ColumnType
  | .utf8View => .utf8
  | t => t

/-- The same declared types. -/
def SameTypes (s t : List Column) : Prop :=
  s.map (fun c => c.dataType.declared) = t.map fun c => c.dataType.declared

/-- **The bytes determine the row**, up to the sign of its zeros. -/
theorem encodeRow_eq_iff {es' : List (Value → List UInt8)} (hst : SameTypes s t)
    (hs : columnEncoders s = .ok es) (ht : columnEncoders t = .ok es') (r : Row s) (r' : Row t) :
    encodeRow es r.val = encodeRow es' r'.val ↔ List.Forall₂ SameValue r.val r'.val := by
  rw [← map_unsigned_eq_iff]
  obtain ⟨hbytes, hall⟩ := encodeRow_eq hs r
  obtain ⟨hbytes', hall'⟩ := encodeRow_eq ht r'
  rw [hbytes, hbytes']
  constructor
  · intro h
    have hlen : (r.val.map unsigned).length = (r'.val.map unsigned).length := by
      have htypes := congrArg List.length hst
      rw [List.length_map, List.length_map] at htypes
      rw [List.length_map, List.length_map, ← r.property.length_eq, ← r'.property.length_eq, htypes]
    exact (@PrefixCode.flatMap_append_inj _ _ _ _ prefixCode_value _ _ [] [] hlen hall hall'
      (by rw [h])).1
  · exact fun h => by rw [h]

end Rows

/-! ## 2. The accumulator -/

/-- `[u8; 32]`. -/
abbrev RowDigest := Vector UInt8 32

@[ext]
structure RowMultiset where
  count : UInt64 := 0
  xor : Vector UInt8 32 := Vector.replicate 32 0
  sum : Vector UInt64 4 := Vector.replicate 4 0
deriving DecidableEq

namespace RowMultiset

/-- The digest's four lanes: `as_chunks::<8>`, each read by `u64::from_le_bytes`. -/
def lanes (digest : RowDigest) : Vector UInt64 4 :=
  Vector.ofFn fun i => UInt64.ofNat (ofLeBytes ((digest.toList.drop (8 * i)).take 8))

/-- `merge`. -/
def merge (m other : RowMultiset) : RowMultiset where
  count := m.count + other.count
  xor := Vector.zipWith (· ^^^ ·) m.xor other.xor
  sum := Vector.zipWith (· + ·) m.sum other.sum

/-- `fold`. -/
def fold (m : RowMultiset) (digest : RowDigest) : RowMultiset where
  count := m.count + 1
  xor := Vector.zipWith (· ^^^ ·) m.xor digest
  sum := Vector.zipWith (· + ·) m.sum (lanes digest)

/-- `update`.  An error comes before the first row. -/
def update (hash : List UInt8 → RowDigest) (m : RowMultiset) (batch : RecordBatch) :
    Except FingerprintError RowMultiset := do
  let encoders ← columnEncoders batch.schema
  return batch.rows.foldl (fun m row => m.fold (hash (encodeRow encoders row.val))) m

/-- One batch after the other. -/
def updates (hash : List UInt8 → RowDigest) (m : RowMultiset) (batches : List RecordBatch) :
    Except FingerprintError RowMultiset :=
  batches.foldlM (update hash) m

theorem merge_assoc (a b c : RowMultiset) : (a.merge b).merge c = a.merge (b.merge c) := by
  refine RowMultiset.ext (UInt64.add_assoc _ _ _) ?_ ?_
  · exact Vector.ext fun i hi => by simp only [merge, Vector.getElem_zipWith, UInt8.xor_assoc]
  · exact Vector.ext fun i hi => by simp only [merge, Vector.getElem_zipWith, UInt64.add_assoc]

theorem merge_comm (a b : RowMultiset) : a.merge b = b.merge a := by
  refine RowMultiset.ext (UInt64.add_comm _ _) ?_ ?_
  · exact Vector.zipWith_comm_of_comm UInt8.xor_comm
  · exact Vector.zipWith_comm_of_comm UInt64.add_comm

theorem empty_merge (a : RowMultiset) : merge {} a = a := by
  refine RowMultiset.ext (UInt64.zero_add _) ?_ ?_
  · exact Vector.ext fun i hi => by
      simp only [merge, Vector.getElem_zipWith, Vector.getElem_replicate, UInt8.zero_xor]
  · exact Vector.ext fun i hi => by
      simp only [merge, Vector.getElem_zipWith, Vector.getElem_replicate, UInt64.zero_add]

instance : Zero RowMultiset := ⟨{}⟩

instance : Add RowMultiset := ⟨merge⟩

/-- **Accumulators are a commutative monoid**: `merge`, and the empty one. -/
instance : AddCommMonoid RowMultiset where
  add_assoc := merge_assoc
  add_comm := merge_comm
  zero_add := empty_merge
  add_zero a := (merge_comm a {}).trans (empty_merge a)
  nsmul := nsmulRec

theorem empty_add (a : RowMultiset) : ({} : RowMultiset) + a = a := empty_merge a

/-- The accumulator of one digest. -/
def single (digest : RowDigest) : RowMultiset := fold {} digest

theorem fold_eq (m : RowMultiset) (digest : RowDigest) : m.fold digest = m + single digest := by
  refine RowMultiset.ext ?_ ?_ ?_
  · show m.count + 1 = m.count + (0 + 1)
    rw [UInt64.zero_add]
  · refine Vector.ext fun i hi => ?_
    show (Vector.zipWith _ m.xor digest)[i] = (Vector.zipWith _ m.xor (Vector.zipWith _ _ digest))[i]
    simp only [Vector.getElem_zipWith, Vector.getElem_replicate, UInt8.zero_xor]
  · refine Vector.ext fun i hi => ?_
    show (Vector.zipWith _ m.sum (lanes digest))[i] =
      (Vector.zipWith _ m.sum (Vector.zipWith _ _ (lanes digest)))[i]
    simp only [Vector.getElem_zipWith, Vector.getElem_replicate, UInt64.zero_add]

theorem foldl_fold (digests : List RowDigest) (m : RowMultiset) :
    digests.foldl fold m = m + (digests.map single).sum := by
  induction digests generalizing m with
  | nil => exact (add_zero m).symm
  | cons digest digests ih =>
    rw [List.foldl_cons, ih, fold_eq, List.map_cons, List.sum_cons, add_assoc]

/-- What `digest` hashes: the version, and the accumulator in bytes. -/
def digestBytes (m : RowMultiset) : List UInt8 :=
  utf8 "row-multiset/v1" ++ (leBytes 8 m.count.toNat ++ (m.xor.toList ++
    m.sum.toList.flatMap fun lane => leBytes 8 lane.toNat))

/-- The digest is of the whole accumulator. -/
theorem digestBytes_injective : Function.Injective digestBytes := by
  intro m m' h
  have hlane : PrefixCode Set.univ fun lane : UInt64 => leBytes 8 lane.toNat :=
    (prefixCode_leBytes 8).comap (fun lane _ => lane.toNat_lt)
      fun _ _ _ _ heq => UInt64.toNat_inj.mp heq
  obtain ⟨hcount, hrest⟩ := hlane m.count trivial m'.count trivial _ _ (List.append_cancel_left h)
  obtain ⟨hxor, hsum⟩ := List.append_inj hrest (by rw [Vector.length_toList, Vector.length_toList])
  have hlen : m.sum.toList.length = m'.sum.toList.length := by
    rw [Vector.length_toList, Vector.length_toList]
  obtain ⟨hsum, -⟩ := @PrefixCode.flatMap_append_inj _ _ _ _ hlane _ _ [] [] hlen
    (fun _ _ => trivial) (fun _ _ => trivial) (by rw [List.append_nil, List.append_nil, hsum])
  exact RowMultiset.ext hcount (Vector.toList_inj.mp hxor) (Vector.toList_inj.mp hsum)

/-- `digest`. -/
def digest (hash : List UInt8 → RowDigest) (m : RowMultiset) : RowDigest := hash m.digestBytes

/-- `digest_hex`. -/
def digestHex (hash : List UInt8 → RowDigest) (m : RowMultiset) : String :=
  hex (m.digest hash).toList

end RowMultiset

/-! ## 3. Any order, any batches -/

/-- The rows of a batch, up to the sign of their zeros. -/
def RecordBatch.cells (batch : RecordBatch) : List (List Value) :=
  batch.rows.map fun row => row.val.map unsigned

namespace RowMultiset

variable {hash : List UInt8 → RowDigest} {m m' : RowMultiset} {batch : RecordBatch}
  {batches batches' : List RecordBatch}

/-- What these rows add. -/
def contents (hash : List UInt8 → RowDigest) (rows : List (List Value)) : RowMultiset :=
  (rows.map fun cells => single (hash (cells.flatMap encodeValue))).sum

theorem contents_append (rows rows' : List (List Value)) :
    contents hash (rows ++ rows') = contents hash rows + contents hash rows' := by
  rw [contents, List.map_append, List.sum_append]
  rfl

theorem contents_perm {rows rows' : List (List Value)} (h : rows.Perm rows') :
    contents hash rows = contents hash rows' := (h.map _).sum_eq

/-- A batch adds its rows. -/
theorem update_eq (h : Supported batch.schema) :
    update hash m batch = .ok (m + contents hash batch.cells) := by
  obtain ⟨es, hes⟩ := columnEncoders_isOk_iff.mpr h
  have hrows : batch.rows.foldl (fun m row => m.fold (hash (encodeRow es row.val))) m =
      (batch.cells.map fun cells => hash (cells.flatMap encodeValue)).foldl fold m := by
    rw [RecordBatch.cells, List.map_map, List.foldl_map]
    refine List.foldl_ext _ _ _ fun m row _ => ?_
    rw [(encodeRow_eq hes row).1]
    rfl
  rw [update, hes, contents]
  show Except.ok _ = _
  rw [hrows, foldl_fold, List.map_map]
  rfl

/-- Batches add theirs. -/
theorem updates_eq (h : ∀ b ∈ batches, Supported b.schema) :
    updates hash m batches = .ok (m + contents hash (batches.flatMap RecordBatch.cells)) := by
  induction batches generalizing m with
  | nil => exact congrArg Except.ok (add_zero m).symm
  | cons b batches ih =>
    obtain ⟨hb, hrest⟩ := List.forall_mem_cons.mp h
    rw [List.flatMap_cons, contents_append, ← add_assoc, ← ih hrest, updates, List.foldlM_cons,
      update_eq hb]
    rfl

/-- What was folded in without an error had encoders. -/
theorem supported_of_updates (h : updates hash m batches = .ok m') :
    ∀ b ∈ batches, Supported b.schema := by
  induction batches generalizing m with
  | nil => exact fun b hb => by cases hb
  | cons b batches ih =>
    rw [updates, List.foldlM_cons] at h
    obtain ⟨m₁, hb, hrest⟩ := Except.bind_eq_ok_iff.mp h
    obtain ⟨es, hes, -⟩ := Except.bind_eq_ok_iff.mp hb
    exact List.forall_mem_cons.mpr ⟨columnEncoders_isOk_iff.mp ⟨es, hes⟩, ih hrest⟩

end RowMultiset

/-- The digests of the rows of a batch, each of the bytes its encoders write. -/
def RecordBatch.digests (hash : List UInt8 → RowDigest) (batch : RecordBatch) :
    Except FingerprintError (List RowDigest) := do
  let encoders ← columnEncoders batch.schema
  return batch.rows.map fun row => hash (encodeRow encoders row.val)

namespace RowMultiset

/-- The accumulator has taken in these digests, every one of them: it has counted them, and has the
exclusive or of their bytes and the sums of their lanes. -/
structure Folded (m : RowMultiset) (digests : List RowDigest) (m' : RowMultiset) : Prop where
  count : m'.count = m.count + UInt64.ofNat digests.length
  xor : ∀ i (h : i < 32), m'.xor[i] = (digests.map fun d => d[i]).foldl (· ^^^ ·) m.xor[i]
  sum : ∀ i (h : i < 4), m'.sum[i] = (digests.map fun d => (lanes d)[i]).foldl (· + ·) m.sum[i]

theorem folded_foldl (digests : List RowDigest) (m : RowMultiset) :
    Folded m digests (digests.foldl fold m) := by
  induction digests generalizing m with
  | nil => exact ⟨(UInt64.add_zero _).symm, fun _ _ => rfl, fun _ _ => rfl⟩
  | cons digest digests ih =>
    obtain ⟨hcount, hxor, hsum⟩ := ih (m.fold digest)
    rw [List.foldl_cons]
    refine ⟨?_, fun i hi => (hxor i hi).trans ?_, fun i hi => (hsum i hi).trans ?_⟩
    · rw [hcount, List.length_cons, UInt64.ofNat_add, UInt64.add_comm (UInt64.ofNat _),
        ← UInt64.add_assoc]
      rfl
    · simp [fold]
    · simp [fold]

theorem update_of_digests {hash : List UInt8 → RowDigest} {batch : RecordBatch}
    {digests : List RowDigest} (h : batch.digests hash = .ok digests) (m : RowMultiset) :
    update hash m batch = .ok (digests.foldl fold m) := by
  obtain ⟨encoders, hencoders, h⟩ := Except.bind_eq_ok_iff.mp h
  obtain rfl := Except.ok.inj h
  rw [update, hencoders, List.foldl_map]
  rfl

/-- **Every row is folded in**, whatever batches there are. -/
theorem folded_updates {hash : List UInt8 → RowDigest} {batches : List RecordBatch}
    {digests : List (List RowDigest)} (m : RowMultiset)
    (h : batches.mapM (RecordBatch.digests hash) = .ok digests) :
    ∃ m', updates hash m batches = .ok m' ∧ Folded m digests.flatten m' := by
  have hall : updates hash m batches = .ok (digests.flatten.foldl fold m) := by
    have hdigests := List.mapM_eq_ok_iff.mp h
    clear h
    induction hdigests generalizing m with
    | nil => rfl
    | cons hb _ ih =>
      rw [updates, List.foldlM_cons, update_of_digests hb, List.flatten_cons, List.foldl_append]
      exact ih _
  exact ⟨_, hall, folded_foldl digests.flatten m⟩

end RowMultiset

/-- **The fingerprint is one of the multiset of the rows.**

* In any two schemas of the same declared types, two rows have the same bytes exactly when they are
  equal up to the sign of their zeros; and so it is with their digests, among rows on whose bytes
  the hash has no collision.
* Every row of every batch is folded in, by the digest of its bytes; and accumulators that differ
  have other bytes, of which `digest` is the hash.
* Batches of the same rows, in any order and however they are cut, leave the same accumulator.
* Two accumulators merge into the one of all their batches. -/
theorem rowMultiset_faithful (hash : List UInt8 → RowDigest) :
    (∀ (s t : List Column) (es es' : List (Value → List UInt8)), SameTypes s t →
      columnEncoders s = .ok es → columnEncoders t = .ok es' → ∀ (r : Row s) (r' : Row t),
        (encodeRow es r.val = encodeRow es' r'.val ↔ List.Forall₂ SameValue r.val r'.val) ∧
        (∀ B : Set (List UInt8), Set.InjOn hash B → encodeRow es r.val ∈ B →
          encodeRow es' r'.val ∈ B →
          (hash (encodeRow es r.val) = hash (encodeRow es' r'.val) ↔
            List.Forall₂ SameValue r.val r'.val))) ∧
    (∀ (m : RowMultiset) (batches : List RecordBatch) (digests : List (List RowDigest)),
      batches.mapM (RecordBatch.digests hash) = .ok digests →
      ∃ m', RowMultiset.updates hash m batches = .ok m' ∧ m.Folded digests.flatten m') ∧
    (∀ m m' : RowMultiset, m.digestBytes = m'.digestBytes → m = m') ∧
    (∀ (m : RowMultiset) (batches batches' : List RecordBatch),
      (∀ b ∈ batches ++ batches', Supported b.schema) →
      (batches.flatMap RecordBatch.cells).Perm (batches'.flatMap RecordBatch.cells) →
      ∃ m', RowMultiset.updates hash m batches = .ok m' ∧
        RowMultiset.updates hash m batches' = .ok m') ∧
    ∀ (batches batches' : List RecordBatch) (m m' : RowMultiset),
      RowMultiset.updates hash {} batches = .ok m →
      RowMultiset.updates hash {} batches' = .ok m' →
      RowMultiset.updates hash {} (batches ++ batches') = .ok (m.merge m') := by
  refine ⟨fun s t es es' hst hs ht r r' => ?_,
    fun m batches digests h => RowMultiset.folded_updates m h,
    fun m m' h => RowMultiset.digestBytes_injective h, fun m batches batches' hall hperm => ?_, ?_⟩
  · have hbytes := encodeRow_eq_iff hst hs ht r r'
    refine ⟨hbytes, fun B hB hr hr' => ?_⟩
    rw [hB.eq_iff hr hr', hbytes]
  · obtain ⟨h, h'⟩ := List.forall_mem_append.mp hall
    refine ⟨_, RowMultiset.updates_eq h, ?_⟩
    rw [RowMultiset.updates_eq h', RowMultiset.contents_perm hperm]
  · intro batches batches' m m' h h'
    have hs := RowMultiset.supported_of_updates h
    have hs' := RowMultiset.supported_of_updates h'
    have hm := Except.ok.inj (h.symm.trans (RowMultiset.updates_eq hs))
    have hm' := Except.ok.inj (h'.symm.trans (RowMultiset.updates_eq hs'))
    rw [RowMultiset.updates_eq (List.forall_mem_append.mpr ⟨hs, hs'⟩), List.flatMap_append,
      RowMultiset.contents_append, hm, hm', RowMultiset.empty_add, RowMultiset.empty_add,
      RowMultiset.empty_add]
    rfl

/-! ## 4. A table before and after it was rewritten -/

section Shop

/-- A table with its strings in either shape. -/
def shopColumns (view : Bool) : List Column :=
  [⟨"tenant_id", .int64⟩, ⟨"region", if view then .utf8View else .utf8⟩, ⟨"w", .float64⟩]

inductive ShopRegion where
  | missing
  | empty
  | eu

def ShopRegion.value : ShopRegion → Value
  | missing => .null
  | empty => .utf8 ""
  | eu => .utf8 "eu"

inductive ShopWeight where
  | missing
  | zero
  | minusZero

def ShopWeight.value : ShopWeight → Value
  | missing => .null
  | zero => .float64 0
  | minusZero => .float64 0x8000000000000000

theorem shopRow_admits (view : Bool) (tenant : UInt8) (region : ShopRegion) (w : ShopWeight) :
    List.Forall₂ (fun c v => ColumnType.admits c.dataType v) (shopColumns view)
      [.int64 (smallI64 tenant), region.value, w.value] := by
  have hlen : ∀ text ∈ ["", "eu"], text ∈ Str64 := by
    intro text htext
    unfold Str64
    fin_cases htext <;> decide
  refine .cons trivial (.cons ?_ (.cons ?_ .nil))
  · cases view <;> cases region <;> first | trivial | exact hlen _ (by simp)
  · cases w <;> trivial

def shopRow (view : Bool) (tenant : UInt8) (region : ShopRegion) (w : ShopWeight) :
    Row (shopColumns view) :=
  ⟨[.int64 (smallI64 tenant), region.value, w.value], shopRow_admits view tenant region w⟩

/-- Two batches, and their rows in one of the other shape and in another order. -/
def shopBefore : List RecordBatch :=
  [⟨shopColumns false, [shopRow false 1 .eu .zero, shopRow false 2 .missing .missing]⟩,
    ⟨shopColumns false, [shopRow false 2 .empty .missing]⟩]

def shopAfter : List RecordBatch :=
  [⟨shopColumns true, [shopRow true 2 .empty .missing, shopRow true 1 .eu .minusZero,
    shopRow true 2 .missing .missing]⟩]

/-- The NULL has become an empty string. -/
def shopSpoilt : List RecordBatch :=
  [⟨shopColumns true, [shopRow true 2 .empty .missing, shopRow true 1 .eu .minusZero,
    shopRow true 2 .empty .missing]⟩]

/-- The first bytes of a row, as its digest. -/
def firstBytes (bytes : List UInt8) : RowDigest := Vector.ofFn fun i => bytes[i.val]?.getD 0

theorem rowMultiset_faithful_shop : ∃ m, RowMultiset.updates firstBytes {} shopBefore = .ok m ∧
    RowMultiset.updates firstBytes {} shopAfter = .ok m ∧ m.count = 3 ∧
    RowMultiset.updates firstBytes {} shopSpoilt ≠ .ok m := by
  obtain ⟨-, hfolded, -, hperm, -⟩ := rowMultiset_faithful firstBytes
  have hsupported : ∀ b ∈ shopBefore ++ shopAfter, Supported b.schema := by
    have hall : ∀ b ∈ shopBefore ++ shopAfter, ∀ c ∈ b.schema,
        c.dataType ∈ [.int64, .float64, .utf8, .utf8View, .boolean] := by decide +kernel
    intro b hb c hc debug heq
    simpa [heq] using hall b hb c hc
  obtain ⟨m, hbefore, hafter⟩ := hperm {} shopBefore shopAfter hsupported (by decide +kernel)
  have hdigests : (shopBefore.mapM (RecordBatch.digests firstBytes)).toOption.map
      (fun digests => digests.flatten.length) = some 3 := by decide +kernel
  obtain ⟨digests, hmap, hlength⟩ := Option.map_eq_some_iff.mp hdigests
  obtain ⟨m', hm', hcount, -⟩ := hfolded {} shopBefore digests (by
    cases h : shopBefore.mapM (RecordBatch.digests firstBytes) with
    | error e => simp [h, Except.toOption] at hmap
    | ok found => simpa [h, Except.toOption] using hmap)
  obtain rfl := Except.ok.inj (hbefore.symm.trans hm')
  refine ⟨m, hbefore, hafter, by rw [hcount, hlength]; rfl, fun hspoilt => ?_⟩
  have hdiffer : (RowMultiset.updates firstBytes {} shopSpoilt).toOption ≠
      (RowMultiset.updates firstBytes {} shopBefore).toOption := by decide +kernel
  exact hdiffer (by rw [hspoilt, hbefore])

end Shop

end Ukiel.Integrity
