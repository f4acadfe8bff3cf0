/-
# Canonical identities of catalog mutations

`operation.rs`: the canonical bytes of an intent, the digest over them and the stored key.  The
bytes are type-tagged and length-delimited, so that two intents with the same bytes are the
same intent; §4 proves that of the ingest domain, over the prefix codes of
`Lib/PrefixCode.lean`, and `Core/Identity.lean` of all four.

Two things come from outside.  The hash (BLAKE3) is a parameter, and nothing here assumes
anything about it: whoever concludes from equal fingerprints to equal intents says on which byte
strings the hash does not collide.  The text `serde_json` prints for a float is one too.
-/
import Mathlib.Data.List.Sort
import Mathlib.Data.Int.Lemmas
import Ukiel.Lib.PrefixCode
import Ukiel.Core.Types

namespace Ukiel

/-! ## 1. Canonical bytes -/

/-- The UTF-8 bytes of a string. -/
def utf8 (s : String) : List UInt8 := s.toByteArray.data.toList

theorem utf8_injective : Function.Injective utf8 := by
  intro s t h
  exact String.toByteArray_inj.mp (ByteArray.ext (Array.ext' h))

/-- The strings whose length is a `usize`: every string the program can hold. -/
def Str64 : Set String := {s | (utf8 s).length < 256 ^ 8}

namespace Canonical

/-- `Canonical::len`: a `u64`, big-endian. -/
def len (n : Nat) : List UInt8 := beBytes 8 n

/-- The bytes of a string behind their length. -/
def text (s : String) : List UInt8 := len (utf8 s).length ++ utf8 s

/-- `Canonical::str`, behind `TAG_STR`. -/
def str (s : String) : List UInt8 := [0x02] ++ text s

/-- The bit pattern of an `i64`, as a number. -/
def bits (v : Int) : Nat := (v % 2 ^ 64).toNat

/-- `Canonical::int`, behind `TAG_INT`: an `i64` in two's complement. -/
def int (v : Int) : List UInt8 := [0x03] ++ beBytes 8 (bits v)

/-- `Canonical::list`, behind `TAG_LIST`: the encoder never reorders. -/
def list {α : Type} (items : List α) (each : α → List UInt8) : List UInt8 :=
  [0x04] ++ (len items.length ++ items.flatMap each)

/-- `Number::to_string`; `float` prints the floats. -/
def number (float : UInt64 → String) : Number → String
  | .int n => n.repr
  | .float b => float b

mutual

/-- `Canonical::json`: object keys sorted, array order preserved, every scalar type and null
behind a tag of its own. -/
def json (float : UInt64 → String) : Json → List UInt8
  | .null => [0x10]
  | .bool b => [0x11, if b then 1 else 0]
  | .num n => [0x12] ++ text (number float n)
  | .str s => [0x13] ++ text s
  | .arr xs => [0x14] ++ (len xs.length ++ jsonItems float xs)
  | .obj kvs => [0x15] ++ (len kvs.length ++
      ((jsonEntries float kvs).insertionSort fun a b => a.1 ≤ b.1).flatMap fun e =>
        text e.1 ++ e.2)

/-- The items of an array, one after the other. -/
def jsonItems (float : UInt64 → String) : List Json → List UInt8
  | [] => []
  | x :: xs => json float x ++ jsonItems float xs

/-- The keys of an object, each with the bytes of its value. -/
def jsonEntries (float : UInt64 → String) : List (String × Json) → List (String × List UInt8)
  | [] => []
  | (k, x) :: kvs => (k, json float x) :: jsonEntries float kvs

end

/-- `Canonical::placement`: tagged by variant, not by the database encoding. -/
def placement : Placement → List UInt8
  | .packed => str "packed"
  | .separated => str "separated"
  | .sizeTargeted n => str "size_targeted" ++ int n

theorem prefixCode_text : PrefixCode Str64 text :=
  PrefixCode.delimited (prefixCode_beBytes 8) (fun _ hs => hs) utf8_injective.injOn

theorem prefixCode_str : PrefixCode Str64 str := prefixCode_text.tagged [0x02]

theorem bits_lt (v : Int) : bits v < 256 ^ 8 := by
  unfold bits
  omega

theorem bits_injOn : Set.InjOn bits I64 := by
  rintro v ⟨hlo, hhi⟩ v' ⟨hlo', hhi'⟩ h
  unfold bits at h
  omega

theorem prefixCode_int : PrefixCode I64 int :=
  have hbody : PrefixCode I64 fun v => beBytes 8 (bits v) :=
    (prefixCode_beBytes 8).comap (fun v _ => bits_lt v) bits_injOn
  hbody.tagged [0x03]

end Canonical

/-! ## 2. Intents -/

/-- `MvIntent`: one source event.  Its result is deliberately absent. -/
structure MvIntent where
  pipelineId : Int
  sourceHypertableId : HypertableId
  sourceCommitId : Int
  transformationVersion : Nat
deriving DecidableEq

/-- `CompactionIntent`: everything that makes one merge the transformation it is, and nothing of
its output. -/
structure CompactionIntent where
  outputLevel : Int
  inputParts : List Int
  partitionValues : Json
  tableSchema : Json
  sortKey : List String
  placement : Placement
  transformationVersion : Nat
deriving DecidableEq

/-- `DeleteKeyIntent`: which key, out of which live parts, under which table shape. -/
structure DeleteKeyIntent where
  packingKey : Int
  inputParts : List Int
  tableSchema : Json
  sortKey : List String
  placement : Placement
  transformationVersion : Nat
deriving DecidableEq

/-- `IngestRange`: the intent to consume these offsets, both ends inclusive. -/
structure IngestRange where
  topic : String
  partition : Int
  first : Int
  last : Int
deriving DecidableEq

/-- The derived `Ord`: the fields compared in declaration order. -/
def IngestRange.le (a b : IngestRange) : Prop :=
  a.topic < b.topic ∨ (a.topic = b.topic ∧ (a.partition < b.partition ∨
    (a.partition = b.partition ∧ (a.first < b.first ∨ (a.first = b.first ∧ a.last ≤ b.last)))))

instance : DecidableRel IngestRange.le := fun a b => by unfold IngestRange.le; infer_instance

/-- `OperationError`. -/
inductive OperationError where
  | invalidId (field : String) (value : Int)
  | mvSelfLoop
  | noInputParts
  | duplicateInputPart (id : Int)
  | emptySortKey
  | noOffsetRanges
  | emptyTopic
  | invertedOffsetRange (range : IngestRange)
  | overlappingOffsetRanges (range : IngestRange)
  | keyTooLong (len : Nat)
deriving DecidableEq

/-- The first loop of `canonical_ranges`: every range on its own. -/
def checkRanges : List IngestRange → Except OperationError Unit
  | [] => .ok ()
  | r :: rs =>
    if r.topic = "" then .error .emptyTopic
    else if r.last < r.first then .error (.invertedOffsetRange r)
    else checkRanges rs

/-- The second loop of `canonical_ranges`, over `windows(2)`. -/
def checkOverlaps : List IngestRange → Except OperationError Unit
  | prev :: next :: rs =>
    if prev.topic = next.topic ∧ prev.partition = next.partition ∧ next.first ≤ prev.last then
      .error (.overlappingOffsetRanges next)
    else checkOverlaps (next :: rs)
  | _ => .ok ()

/-- `canonical_ranges`: sorted ranges, with overlap rejected per topic and partition. -/
def canonicalRanges (ranges : List IngestRange) : Except OperationError (List IngestRange) := do
  if ranges = [] then throw .noOffsetRanges
  let sorted := ranges.insertionSort IngestRange.le
  checkRanges sorted
  checkOverlaps sorted
  return sorted

/-- The duplicate test of `canonical_parts`, over `windows(2)` of the sorted ids. -/
def checkDuplicates : List Int → Except OperationError Unit
  | a :: b :: rest => if a = b then .error (.duplicateInputPart a) else checkDuplicates (b :: rest)
  | _ => .ok ()

/-- `canonical_parts`: sorted part ids; the same part twice is a malformed intent. -/
def canonicalParts (parts : List Int) : Except OperationError (List Int) := do
  if parts = [] then throw .noInputParts
  let ids := parts.insertionSort (· ≤ ·)
  checkDuplicates ids
  return ids

/-- The ids an MV intent must have, in the order they are tested. -/
def checkPositive : List (String × Int) → Except OperationError Unit
  | [] => .ok ()
  | (field, value) :: rest =>
    if value ≤ 0 then .error (.invalidId field value) else checkPositive rest

/-! ## 3. The factories -/

/-- `hex`. -/
def hex (bytes : Digest) : String :=
  String.ofList (bytes.flatMap fun b => [(b.toNat / 16).digitChar, (b.toNat % 16).digitChar])

theorem length_hex (bytes : List UInt8) : (hex bytes).toList.length = 2 * bytes.length := by
  induction bytes with
  | nil => rfl
  | cons b bytes ih =>
    rw [hex, String.toList_ofList] at ih ⊢
    rw [List.flatMap_cons, List.length_append, ih, List.length_cons, List.length_cons,
      List.length_cons, List.length_nil]
    omega

theorem hex_injective : Function.Injective hex := by
  have hdigit : ∀ m < 16, ∀ n < 16, Nat.digitChar m = Nat.digitChar n → m = n := by decide
  intro s t h
  have hlist := congrArg String.toList h
  rw [hex, hex, String.toList_ofList, String.toList_ofList] at hlist
  clear h
  induction s generalizing t with
  | nil =>
    cases t with
    | nil => rfl
    | cons b t => cases hlist
  | cons a s ih =>
    cases t with
    | nil => cases hlist
    | cons b t =>
      simp only [List.flatMap_cons, List.cons_append, List.nil_append, List.cons.injEq] at hlist
      obtain ⟨hhigh, hlow, hrest⟩ := hlist
      have ha := a.toNat_lt
      have hb := b.toNat_lt
      have hdiv := hdigit _ (by omega) _ (by omega) hhigh
      have hmod := hdigit _ (by omega) _ (by omega) hlow
      rw [ih hrest, UInt8.toNat_inj.mp (by omega : a.toNat = b.toNat)]

theorem hex_append_inj {s t : List UInt8} {x y : String} (hlen : s.length = t.length)
    (h : hex s ++ x = hex t ++ y) : s = t ∧ x = y := by
  have hlist := congrArg String.toList h
  rw [String.toList_append, String.toList_append] at hlist
  have hlen' : (hex s).toList.length = (hex t).toList.length := by
    rw [length_hex, length_hex, hlen]
  obtain ⟨hs, hx⟩ := List.append_inj hlist hlen'
  exact ⟨hex_injective (String.toList_injective hs), String.toList_injective hx⟩

/-- The digits of `hex` are hexadecimal. -/
theorem not_mem_hex {bytes : List UInt8} {c : Char} (hc : c ∉ "0123456789abcdef".toList) :
    c ∉ (hex bytes).toList := by
  intro hmem
  rw [hex, String.toList_ofList, List.mem_flatMap] at hmem
  obtain ⟨b, -, hb⟩ := hmem
  have hdigit : ∀ n < 16, Nat.digitChar n ∈ "0123456789abcdef".toList := by decide
  have hlt := b.toNat_lt
  rcases List.mem_cons.mp hb with rfl | hb
  · exact hc (hdigit _ (by omega))
  · rw [List.mem_singleton] at hb
    exact hc (hb ▸ hdigit _ (by omega))

/-- `MAX_OPERATION_KEY_LEN`. -/
def maxOperationKeyLen : Nat := 128

/-- The bytes `finish` hashes.  The domain and the version are inside them as well as in the
key text. -/
def canonicalBytes (domain : String) (version : Nat) (h : HypertableId) (body : List UInt8) :
    List UInt8 :=
  Canonical.str "ukiel" ++ (Canonical.str domain ++
    (Canonical.int version ++ (Canonical.int h ++ body)))

/-- The key text of `finish`. -/
def operationKey (domain : String) (version : Nat) (fingerprint : Digest) : String :=
  "ukiel/" ++ domain ++ "/v" ++ toString version ++ "/" ++ hex fingerprint

/-- `finish`: hashes the canonical bytes and formats the stored key. -/
def finish (hash : List UInt8 → Digest) (h : HypertableId) (domain : String) (version : Nat)
    (body : List UInt8) : Except OperationError OperationIdentity :=
  let fingerprint := hash (canonicalBytes domain version h body)
  let key := operationKey domain version fingerprint
  if (utf8 key).length > maxOperationKeyLen then .error (.keyTooLong (utf8 key).length)
  else .ok ⟨h, key, fingerprint⟩

/-- The body of the ingest domain, for ranges in canonical order. -/
def ingestBody (ranges : List IngestRange) (transformationVersion : Nat) : List UInt8 :=
  Canonical.int transformationVersion ++ Canonical.list ranges fun r =>
    Canonical.str r.topic ++ (Canonical.int r.partition ++
      (Canonical.int r.first ++ Canonical.int r.last))

/-- `OperationIdentity::ingest`: the intent to consume exactly these Kafka offsets into this
hypertable, whatever rows and files come of it. -/
def OperationIdentity.ingest (hash : List UInt8 → Digest) (h : HypertableId)
    (ranges : List IngestRange) (transformationVersion : Nat) :
    Except OperationError OperationIdentity := do
  let ranges ← canonicalRanges ranges
  finish hash h "ingest" 1 (ingestBody ranges transformationVersion)

def mvBody (i : MvIntent) : List UInt8 :=
  Canonical.int i.transformationVersion ++ (Canonical.int i.pipelineId ++
    (Canonical.int i.sourceHypertableId ++ Canonical.int i.sourceCommitId))

/-- `OperationIdentity::mv`: the processing of one source ADD by one pipeline. -/
def OperationIdentity.mv (hash : List UInt8 → Digest) (target : HypertableId) (i : MvIntent) :
    Except OperationError OperationIdentity := do
  checkPositive [("target_hypertable_id", target), ("pipeline_id", i.pipelineId),
    ("source_hypertable_id", i.sourceHypertableId), ("source_commit_id", i.sourceCommitId)]
  if target = i.sourceHypertableId then throw .mvSelfLoop
  finish hash target "mv" 1 (mvBody i)

/-- The body of the compaction domain, for parts in canonical order. -/
def compactionBody (float : UInt64 → String) (parts : List Int) (i : CompactionIntent) :
    List UInt8 :=
  Canonical.int i.transformationVersion ++ (Canonical.int i.outputLevel ++
    (Canonical.list parts Canonical.int ++ (Canonical.json float i.partitionValues ++
      (Canonical.json float i.tableSchema ++ (Canonical.list i.sortKey Canonical.str ++
        Canonical.placement i.placement)))))

/-- `OperationIdentity::compaction`: the intent to merge exactly these live parts into one run. -/
def OperationIdentity.compaction (hash : List UInt8 → Digest) (float : UInt64 → String)
    (h : HypertableId) (i : CompactionIntent) : Except OperationError OperationIdentity := do
  let parts ← canonicalParts i.inputParts
  if i.sortKey = [] then throw .emptySortKey
  finish hash h "compaction" 1 (compactionBody float parts i)

/-- The body of the delete-key domain, for parts in canonical order. -/
def deleteKeyBody (float : UInt64 → String) (parts : List Int) (i : DeleteKeyIntent) :
    List UInt8 :=
  Canonical.int i.transformationVersion ++ (Canonical.int i.packingKey ++
    (Canonical.list parts Canonical.int ++ (Canonical.json float i.tableSchema ++
      (Canonical.list i.sortKey Canonical.str ++ Canonical.placement i.placement))))

/-- `OperationIdentity::delete_key`: the intent to remove one packing key from exactly these live
parts. -/
def OperationIdentity.deleteKey (hash : List UInt8 → Digest) (float : UInt64 → String)
    (h : HypertableId) (i : DeleteKeyIntent) : Except OperationError OperationIdentity := do
  let parts ← canonicalParts i.inputParts
  if i.sortKey = [] then throw .emptySortKey
  finish hash h "delete-key" 1 (deleteKeyBody float parts i)

/-! ## 4. What an ingest identity determines -/

/-- The ranges whose fields fit the types of the source. -/
def IngestRange.Wide : Set IngestRange :=
  {r | r.topic ∈ Str64 ∧ r.partition ∈ I64 ∧ r.first ∈ I64 ∧ r.last ∈ I64}

theorem finish_ok {hash : List UInt8 → Digest} {h : HypertableId} {domain : String}
    {version : Nat} {body : List UInt8} {i : OperationIdentity}
    (hi : finish hash h domain version body = .ok i) :
    i = ⟨h, operationKey domain version (hash (canonicalBytes domain version h body)),
      hash (canonicalBytes domain version h body)⟩ := by
  simp only [finish] at hi
  split at hi
  · cases hi
  · cases hi
    rfl

theorem ingest_ok {hash : List UInt8 → Digest} {h : HypertableId} {ranges : List IngestRange}
    {version : Nat} {i : OperationIdentity}
    (hi : OperationIdentity.ingest hash h ranges version = .ok i) :
    ∃ sorted, canonicalRanges ranges = .ok sorted ∧
      finish hash h "ingest" 1 (ingestBody sorted version) = .ok i := by
  unfold OperationIdentity.ingest at hi
  cases hr : canonicalRanges ranges with
  | error e => simp [hr, bind, Except.bind] at hi
  | ok sorted => exact ⟨sorted, rfl, by simpa [hr, bind, Except.bind] using hi⟩

/-- One range after another, each a prefix code word. -/
theorem prefixCode_range : PrefixCode IngestRange.Wide fun r : IngestRange =>
    Canonical.str r.topic ++ (Canonical.int r.partition ++
      (Canonical.int r.first ++ Canonical.int r.last)) := by
  have hcode := Canonical.prefixCode_str.prod (Canonical.prefixCode_int.prod
    (Canonical.prefixCode_int.prod Canonical.prefixCode_int))
  refine hcode.comap (e := fun r : IngestRange => (r.topic, r.partition, r.first, r.last)) ?_ ?_
  · rintro r ⟨ht, hp, hf, hl⟩
    exact ⟨ht, hp, hf, hl⟩
  · rintro ⟨t, p, f, l⟩ _ ⟨t', p', f', l'⟩ _ h
    simp only [Prod.mk.injEq] at h
    obtain ⟨rfl, rfl, rfl, rfl⟩ := h
    rfl

/-- **Equal canonical bytes mean equal ranges.** -/
theorem ingestBody_inj {h : HypertableId} {version : Nat} {l₁ l₂ : List IngestRange}
    (h₁ : ∀ r ∈ l₁, r ∈ IngestRange.Wide) (h₂ : ∀ r ∈ l₂, r ∈ IngestRange.Wide)
    (heq : canonicalBytes "ingest" 1 h (ingestBody l₁ version) =
      canonicalBytes "ingest" 1 h (ingestBody l₂ version)) : l₁ = l₂ := by
  simp only [canonicalBytes, ingestBody, Canonical.list, List.append_cancel_left_eq] at heq
  -- The element counts take the same eight bytes, whatever they are.
  obtain ⟨-, hitems⟩ := List.append_inj heq
    (by rw [Canonical.len, Canonical.len, length_beBytes, length_beBytes])
  refine prefixCode_range.flatMap_inj ?_ h₁ h₂ hitems
  intro r _
  simp [Canonical.str]

end Ukiel
