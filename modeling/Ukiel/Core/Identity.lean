/-
# What an operation identity determines

Two intents have the same canonical bytes exactly when they are the same intent, in the same
domain and on the same hypertable.  "The same intent" is stated on its own (`Intent.Same`): the
SET of input parts, the SET of offset ranges, JSON up to the order of object keys, everything
else as it is.

* §1 is that notion for JSON, and its normal form.
* §2 shows that the encoder is a prefix code on normal forms.
* §3 does the same for part lists, which the factories sort; `Core/OffsetRanges.lean` does it
  for offset ranges.
* §4 assembles the four domains.
-/
import Mathlib
import Ukiel.Lib.SortedLists
import Ukiel.Core.OffsetRanges

namespace Ukiel

/-! ## 1. JSON up to the order of object keys -/

namespace Json

mutual

/-- The same value, wherever the keys of its objects stand. -/
def Same : Json → Json → Prop
  | .arr xs, .arr ys => SameItems xs ys
  | .obj xs, .obj ys => SameEntries xs ys
  | .arr _, _ => False
  | .obj _, _ => False
  | a, b => a = b

/-- Arrays item by item. -/
def SameItems : List Json → List Json → Prop
  | [], ys => ys = []
  | x :: xs, ys => ∃ y ys', ys = y :: ys' ∧ Same x y ∧ SameItems xs ys'

/-- Objects entry by entry, wherever the entry stands. -/
def SameEntries : List (String × Json) → List (String × Json) → Prop
  | [], ys => ys = []
  | (k, x) :: xs, ys => ∃ y ys', ys.Perm ((k, y) :: ys') ∧ Same x y ∧ SameEntries xs ys'

end

mutual

/-- Every object sorted by key. -/
def normal : Json → Json
  | .arr xs => .arr (normalItems xs)
  | .obj kvs => .obj ((normalEntries kvs).insertionSort fun a b => a.1 ≤ b.1)
  | a => a

def normalItems : List Json → List Json
  | [] => []
  | x :: xs => normal x :: normalItems xs

def normalEntries : List (String × Json) → List (String × Json)
  | [] => []
  | (k, x) :: kvs => (k, normal x) :: normalEntries kvs

end

theorem normalEntries_eq (kvs : List (String × Json)) :
    normalEntries kvs = kvs.map fun e => (e.1, normal e.2) := by
  induction kvs with
  | nil => rfl
  | cons e kvs ih => rw [normalEntries, ih, List.map_cons]

theorem map_fst_normalEntries (kvs : List (String × Json)) :
    (normalEntries kvs).map Prod.fst = kvs.map Prod.fst := by
  rw [normalEntries_eq, List.map_map]
  rfl

/-- The bits of a finite float: its exponent is not all ones. -/
def FiniteBits (b : UInt64) : Prop := b.toNat / 2 ^ 52 % 2 ^ 11 ≠ 2 ^ 11 - 1

instance (b : UInt64) : Decidable (FiniteBits b) := by unfold FiniteBits; infer_instance

mutual

/-- What a `serde_json::Value` can hold: an object has no key twice, integers are an `i64` or a
`u64`, floats are finite, and nothing is longer than a `usize` can say. -/
def Wf : Json → Prop
  | .null => True
  | .bool _ => True
  | .num (.int n) => -2 ^ 63 ≤ n ∧ n < 2 ^ 64
  | .num (.float b) => FiniteBits b
  | .str s => s ∈ Str64
  | .arr xs => xs.length < 256 ^ 8 ∧ WfItems xs
  | .obj kvs => kvs.length < 256 ^ 8 ∧ (kvs.map Prod.fst).Nodup ∧ WfEntries kvs

def WfItems : List Json → Prop
  | [] => True
  | x :: xs => Wf x ∧ WfItems xs

def WfEntries : List (String × Json) → Prop
  | [] => True
  | (k, x) :: kvs => (k ∈ Str64 ∧ Wf x) ∧ WfEntries kvs

end

theorem wfEntries_iff {kvs : List (String × Json)} :
    WfEntries kvs ↔ ∀ e ∈ kvs, e.1 ∈ Str64 ∧ Wf e.2 := by
  induction kvs with
  | nil => simp [WfEntries]
  | cons e kvs ih => simp [WfEntries, ih]

mutual

/-- The normal form is a value again. -/
theorem Wf.normal : ∀ {a : Json}, Wf a → Wf a.normal
  | .null, h => h
  | .bool _, h => h
  | .num _, h => h
  | .str _, h => h
  | .arr xs, ⟨hlen, hitems⟩ => by
    obtain ⟨hl, hw⟩ := WfItems.normal hitems
    exact ⟨hl ▸ hlen, hw⟩
  | .obj kvs, ⟨hlen, hnd, hentries⟩ => by
    have hperm := List.perm_insertionSort (fun a b : String × Json => a.1 ≤ b.1)
      (normalEntries kvs)
    have hw := wfEntries_iff.mp (WfEntries.normal hentries)
    have hcount : (normalEntries kvs).length = kvs.length := by
      rw [normalEntries_eq, List.length_map]
    refine ⟨?_, ?_, ?_⟩
    · rw [hperm.length_eq, hcount]
      exact hlen
    · rw [(hperm.map Prod.fst).nodup_iff, map_fst_normalEntries]
      exact hnd
    · exact wfEntries_iff.mpr fun e he => hw e (hperm.mem_iff.mp he)

theorem WfItems.normal : ∀ {xs : List Json}, WfItems xs →
    xs.length = (normalItems xs).length ∧ WfItems (normalItems xs)
  | [], _ => ⟨rfl, trivial⟩
  | _ :: _, ⟨hx, hxs⟩ => by
    obtain ⟨hl, hw⟩ := WfItems.normal hxs
    exact ⟨congrArg (· + 1) hl, hx.normal, hw⟩

theorem WfEntries.normal : ∀ {kvs : List (String × Json)}, WfEntries kvs →
    WfEntries (normalEntries kvs)
  | [], _ => trivial
  | (_, _) :: _, ⟨⟨hk, hx⟩, hkvs⟩ => ⟨⟨hk, hx.normal⟩, WfEntries.normal hkvs⟩

end

/-- An entry that one list of entries has up to key order is found in the other. -/
theorem exists_perm_cons {f : String × Json → String × Json} {e : String × Json}
    {xs ys : List (String × Json)} (h : ((e :: xs).map f).Perm (ys.map f)) :
    ∃ e' ys', ys.Perm (e' :: ys') ∧ f e = f e' ∧ (xs.map f).Perm (ys'.map f) := by
  have hmem : f e ∈ ys.map f := h.mem_iff.mp List.mem_cons_self
  obtain ⟨e', he', heq⟩ := List.mem_map.mp hmem
  have hperm : ys.Perm (e' :: ys.erase e') := List.perm_cons_erase he'
  refine ⟨e', ys.erase e', hperm, heq.symm, ?_⟩
  have hcons := h.trans (hperm.map f)
  rw [List.map_cons, List.map_cons, heq] at hcons
  exact hcons.cons_inv

mutual

/-- **Two values are the same up to key order when their normal forms are equal.** -/
theorem same_iff : ∀ {a b : Json}, Wf a → Wf b → (Same a b ↔ a.normal = b.normal)
  | .arr xs, .arr ys, ⟨_, hxs⟩, ⟨_, hys⟩ => by
    rw [Same, sameItems_iff hxs hys, normal, normal, Json.arr.injEq]
  | .obj xs, .obj ys, ⟨_, hnd, hxs⟩, ⟨_, _, hys⟩ => by
    rw [Same, sameEntries_iff hxs hys, normal, normal, Json.obj.injEq]
    refine (List.insertionSort_key_eq_iff ?_).symm
    rw [map_fst_normalEntries]
    exact hnd
  | .arr _, .null, _, _ | .arr _, .bool _, _, _ | .arr _, .num _, _, _ | .arr _, .str _, _, _
  | .arr _, .obj _, _, _ | .obj _, .null, _, _ | .obj _, .bool _, _, _ | .obj _, .num _, _, _
  | .obj _, .str _, _, _ | .obj _, .arr _, _, _ => by simp [Same, normal]
  | .null, b, _, _ | .bool _, b, _, _ | .num _, b, _, _ | .str _, b, _, _ => by
    cases b <;> simp [Same, normal]

theorem sameItems_iff : ∀ {xs ys : List Json}, WfItems xs → WfItems ys →
    (SameItems xs ys ↔ normalItems xs = normalItems ys)
  | [], ys, _, _ => by cases ys <;> simp [SameItems, normalItems]
  | x :: xs, [], _, _ => by simp [SameItems, normalItems]
  | x :: xs, y :: ys, ⟨hx, hxs⟩, ⟨hy, hys⟩ => by
    simp [SameItems, normalItems, same_iff hx hy, sameItems_iff hxs hys]

theorem sameEntries_iff : ∀ {xs ys : List (String × Json)}, WfEntries xs → WfEntries ys →
    (SameEntries xs ys ↔ (normalEntries xs).Perm (normalEntries ys))
  | [], ys, _, _ => by cases ys <;> simp [SameEntries, normalEntries]
  | (k, x) :: xs, ys, ⟨⟨_, hx⟩, hxs⟩, hys => by
    rw [SameEntries]
    constructor
    · rintro ⟨y, ys', hperm, hsame, hrest⟩
      have hw := wfEntries_iff.mp hys
      have hy : Wf y := (hw (k, y) (hperm.mem_iff.mpr List.mem_cons_self)).2
      have hys' : WfEntries ys' := wfEntries_iff.mpr fun e he =>
        hw e (hperm.mem_iff.mpr (List.mem_cons_of_mem _ he))
      rw [normalEntries_eq ys]
      refine List.Perm.trans ?_ (hperm.map _).symm
      rw [List.map_cons, ← normalEntries_eq, normalEntries, (same_iff hx hy).mp hsame]
      exact ((sameEntries_iff hxs hys').mp hrest).cons _
    · intro hperm
      rw [normalEntries_eq, normalEntries_eq] at hperm
      obtain ⟨⟨k', y⟩, ys', hys', heq, hrest⟩ := exists_perm_cons hperm
      obtain ⟨rfl, hxy⟩ := Prod.mk.inj heq
      have hw := wfEntries_iff.mp hys
      have hy : Wf y := (hw (k, y) (hys'.mem_iff.mpr List.mem_cons_self)).2
      have hwf' : WfEntries ys' := wfEntries_iff.mpr fun e he =>
        hw e (hys'.mem_iff.mpr (List.mem_cons_of_mem _ he))
      rw [← normalEntries_eq, ← normalEntries_eq] at hrest
      exact ⟨y, ys', hys', (same_iff hx hy).mpr hxy, (sameEntries_iff hxs hwf').mpr hrest⟩

end

end Json

/-! ## 2. The encoder is a prefix code on normal forms -/

theorem length_utf8_le (s : String) : (utf8 s).length ≤ 4 * s.toList.length := by
  have hsize : (utf8 s).length = String.utf8Len s.toList := by
    rw [String.utf8Len_toList, utf8, Array.length_toList]
    rfl
  rw [hsize]
  induction s.toList with
  | nil => exact Nat.le_refl 0
  | cons c cs ih =>
    have hc := c.utf8Size_le_four
    simp only [String.utf8Len_cons, List.length_cons]
    omega

theorem str64_of_short {s : String} (h : (utf8 s).length ≤ 16) : s ∈ Str64 :=
  lt_of_le_of_lt h (by decide : 16 < 256 ^ 8)

/-- What `serde_json` prints for the finite floats: the shortest text that reads back as the same
float, always with a point or an exponent. -/
structure FloatText (float : UInt64 → String) : Prop where
  reads_back : Set.InjOn float {b | Json.FiniteBits b}
  not_int : ∀ b, Json.FiniteBits b → ∃ c ∈ (float b).toList, c = '.' ∨ c = 'e'
  short : ∀ b, Json.FiniteBits b → (float b).toList.length ≤ 24

/-- The digits of an integer, behind its sign. -/
theorem mem_repr {n : Int} {c : Char} (h : c ∈ n.repr.toList) : c.isDigit = true ∨ c = '-' := by
  have hnat : ∀ m : Nat, c ∈ m.repr.toList → c.isDigit = true := by
    intro m hm
    rw [Nat.toList_repr] at hm
    exact Nat.isDigit_of_mem_toDigits (by decide) (by decide) hm
  cases n with
  | ofNat m => exact Or.inl (hnat m h)
  | negSucc m =>
    rw [Int.repr, String.toList_append, List.mem_append] at h
    rcases h with h | h
    · have hsign : "-".toList = ['-'] := by decide
      rw [hsign, List.mem_singleton] at h
      exact Or.inr h
    · exact Or.inl (hnat _ h)

theorem length_repr_le {n : Int} (hlo : -2 ^ 63 ≤ n) (hhi : n < 2 ^ 64) :
    n.repr.toList.length ≤ 21 := by
  cases n with
  | ofNat m =>
    have hm : m < 10 ^ 20 := by
      simp only [Int.ofNat_eq_natCast] at hhi
      omega
    have hlen := Nat.repr_length m 20 (by decide) hm
    rw [Int.repr, String.length_toList]
    omega
  | negSucc m =>
    have hm : m + 1 < 10 ^ 20 := by omega
    have hlen := Nat.repr_length m.succ 20 (by decide) hm
    rw [Int.repr, String.toList_append, List.length_append, String.length_toList,
      String.length_toList]
    have hsign : "-".length = 1 := by decide
    omega

/-- The numbers of well-formed values. -/
def Json.Numbers : Set Number := {n | Json.Wf (.num n)}

namespace Canonical

variable {float : UInt64 → String}

theorem number_injOn (hf : FloatText float) : Set.InjOn (number float) Json.Numbers := by
  -- An integer's text has neither a point nor an exponent.
  have hne : ∀ (n : Int) (b : UInt64), Json.FiniteBits b → n.repr ≠ float b := by
    intro n b hb heq
    obtain ⟨c, hc, hpoint⟩ := hf.not_int b hb
    rw [← heq] at hc
    rcases mem_repr hc with hdigit | rfl
    · rcases hpoint with rfl | rfl <;> revert hdigit <;> decide
    · revert hpoint
      decide
  intro a ha b hb h
  cases a with
  | int n =>
    cases b with
    | int m => rw [Int.repr_injective h]
    | float b => exact absurd h (hne n b hb)
  | float a =>
    cases b with
    | int m => exact absurd h.symm (hne m a ha)
    | float b => rw [hf.reads_back ha hb h]

theorem number_mem (hf : FloatText float) {n : Number} (hn : n ∈ Json.Numbers) :
    number float n ∈ Str64 := by
  have hshort : (number float n).toList.length ≤ 24 := by
    cases n with
    | int n => exact (length_repr_le hn.1 hn.2).trans (by decide)
    | float b => exact hf.short b hn
  have hbytes := length_utf8_le (number float n)
  have hwide : (96 : Nat) < 256 ^ 8 := by decide
  exact lt_of_le_of_lt (hbytes.trans (by omega)) hwide

theorem prefixCode_number (hf : FloatText float) :
    PrefixCode Json.Numbers fun n => text (number float n) :=
  prefixCode_text.comap (fun _ hn => number_mem hf hn) (number_injOn hf)

mutual

/-- The encoder without its sorting: objects entry by entry, as they come. -/
def raw (float : UInt64 → String) : Json → List UInt8
  | .null => [0x10]
  | .bool b => [0x11, if b then 1 else 0]
  | .num n => [0x12] ++ text (number float n)
  | .str s => [0x13] ++ text s
  | .arr xs => [0x14] ++ (len xs.length ++ rawItems float xs)
  | .obj kvs => [0x15] ++ (len kvs.length ++ rawEntries float kvs)

def rawItems (float : UInt64 → String) : List Json → List UInt8
  | [] => []
  | x :: xs => raw float x ++ rawItems float xs

def rawEntries (float : UInt64 → String) : List (String × Json) → List UInt8
  | [] => []
  | (k, x) :: kvs => text k ++ raw float x ++ rawEntries float kvs

end

theorem rawEntries_eq (kvs : List (String × Json)) :
    rawEntries float kvs = (kvs.map fun e => (e.1, raw float e.2)).flatMap fun e =>
      text e.1 ++ e.2 := by
  induction kvs with
  | nil => rfl
  | cons e kvs ih => rw [rawEntries, ih, List.map_cons, List.flatMap_cons]

mutual

/-- **The encoder sorts what the normal form sorts.** -/
theorem json_eq_raw : ∀ a : Json, json float a = raw float a.normal
  | .null | .bool _ | .num _ | .str _ => by rw [json, Json.normal, raw] <;> simp
  | .arr xs => by
    obtain ⟨hlen, hitems⟩ := jsonItems_eq_raw xs
    rw [json, Json.normal, raw, hitems, hlen]
  | .obj kvs => by
    have hentries := jsonEntries_eq_raw kvs
    have hlen : (Json.normalEntries kvs).length = kvs.length := by
      rw [Json.normalEntries_eq, List.length_map]
    rw [json, Json.normal, raw, rawEntries_eq, List.length_insertionSort, hlen, hentries]
    rw [List.map_insertionSort (r := fun a b : String × Json => a.1 ≤ b.1)
      (s := fun a b : String × List UInt8 => a.1 ≤ b.1)]
    exact fun _ _ _ _ => Iff.rfl

theorem jsonItems_eq_raw : ∀ xs : List Json,
    xs.length = (Json.normalItems xs).length ∧
      jsonItems float xs = rawItems float (Json.normalItems xs)
  | [] => ⟨rfl, rfl⟩
  | x :: xs => by
    obtain ⟨hlen, hitems⟩ := jsonItems_eq_raw xs
    refine ⟨congrArg (· + 1) hlen, ?_⟩
    rw [jsonItems, Json.normalItems, rawItems, json_eq_raw x, hitems]

theorem jsonEntries_eq_raw : ∀ kvs : List (String × Json),
    jsonEntries float kvs = (Json.normalEntries kvs).map fun e => (e.1, raw float e.2)
  | [] => rfl
  | (k, x) :: kvs => by
    rw [jsonEntries, Json.normalEntries, List.map_cons, json_eq_raw x, jsonEntries_eq_raw kvs]

end

mutual

/-- **Two values with the same bytes in front are equal**, and so is what follows. -/
theorem raw_inj (hf : FloatText float) : ∀ {a b : Json} {u v : List UInt8}, Json.Wf a →
    Json.Wf b → raw float a ++ u = raw float b ++ v → a = b ∧ u = v
  | .null, b, u, v, _, _, h => by
    cases b with
    | null => exact ⟨rfl, List.append_cancel_left h⟩
    | _ => simp [raw] at h
  | .bool x, b, u, v, _, _, h => by
    cases b with
    | bool y => cases x <;> cases y <;> simp_all [raw]
    | _ => simp [raw] at h
  | .num n, b, u, v, ha, hb, h => by
    cases b with
    | num m =>
      rw [raw, raw, List.append_assoc, List.append_assoc] at h
      obtain ⟨rfl, huv⟩ := prefixCode_number hf n ha m hb u v (List.append_cancel_left h)
      exact ⟨rfl, huv⟩
    | _ => simp [raw] at h
  | .str s, b, u, v, ha, hb, h => by
    cases b with
    | str t =>
      rw [raw, raw, List.append_assoc, List.append_assoc] at h
      obtain ⟨rfl, huv⟩ := prefixCode_text s ha t hb u v (List.append_cancel_left h)
      exact ⟨rfl, huv⟩
    | _ => simp [raw] at h
  | .arr xs, b, u, v, ha, hb, h => by
    cases b with
    | arr ys =>
      simp only [raw, List.append_assoc, List.append_cancel_left_eq] at h
      obtain ⟨hlen, hitems⟩ := prefixCode_beBytes 8 _ ha.1 _ hb.1 _ _ h
      obtain ⟨rfl, huv⟩ := rawItems_inj hf hlen ha.2 hb.2 hitems
      exact ⟨rfl, huv⟩
    | _ => simp [raw] at h
  | .obj xs, b, u, v, ha, hb, h => by
    cases b with
    | obj ys =>
      simp only [raw, List.append_assoc, List.append_cancel_left_eq] at h
      obtain ⟨hlen, hentries⟩ := prefixCode_beBytes 8 _ ha.1 _ hb.1 _ _ h
      obtain ⟨rfl, huv⟩ := rawEntries_inj hf hlen ha.2.2 hb.2.2 hentries
      exact ⟨rfl, huv⟩
    | _ => simp [raw] at h

theorem rawItems_inj (hf : FloatText float) : ∀ {xs ys : List Json} {u v : List UInt8},
    xs.length = ys.length → Json.WfItems xs → Json.WfItems ys →
      rawItems float xs ++ u = rawItems float ys ++ v → xs = ys ∧ u = v
  | [], ys, u, v, hlen, _, _, h => by
    obtain rfl := List.length_eq_zero_iff.mp hlen.symm
    exact ⟨rfl, h⟩
  | x :: xs, [], u, v, hlen, _, _, _ => by cases hlen
  | x :: xs, y :: ys, u, v, hlen, ⟨hx, hxs⟩, ⟨hy, hys⟩, h => by
    rw [rawItems, rawItems, List.append_assoc, List.append_assoc] at h
    obtain ⟨rfl, hrest⟩ := raw_inj hf hx hy h
    obtain ⟨rfl, huv⟩ := rawItems_inj hf (Nat.succ.inj hlen) hxs hys hrest
    exact ⟨rfl, huv⟩

theorem rawEntries_inj (hf : FloatText float) : ∀ {xs ys : List (String × Json)}
    {u v : List UInt8}, xs.length = ys.length → Json.WfEntries xs → Json.WfEntries ys →
      rawEntries float xs ++ u = rawEntries float ys ++ v → xs = ys ∧ u = v
  | [], ys, u, v, hlen, _, _, h => by
    obtain rfl := List.length_eq_zero_iff.mp hlen.symm
    exact ⟨rfl, h⟩
  | x :: xs, [], u, v, hlen, _, _, _ => by cases hlen
  | (k, x) :: xs, (l, y) :: ys, u, v, hlen, ⟨⟨hk, hx⟩, hxs⟩, ⟨⟨hl, hy⟩, hys⟩, h => by
    rw [rawEntries, rawEntries, List.append_assoc, List.append_assoc, List.append_assoc,
      List.append_assoc] at h
    obtain ⟨rfl, hval⟩ := prefixCode_text k hk l hl _ _ h
    obtain ⟨rfl, hrest⟩ := raw_inj hf hx hy hval
    obtain ⟨rfl, huv⟩ := rawEntries_inj hf (Nat.succ.inj hlen) hxs hys hrest
    exact ⟨rfl, huv⟩

end

theorem prefixCode_raw (hf : FloatText float) : PrefixCode {a | Json.Wf a} (raw float) :=
  fun _ ha _ hb _ _ h => raw_inj hf ha hb h

/-- The placements whose argument fits its type. -/
def Placements : Set Placement := {p | ∀ n, p = .sizeTargeted n → n ∈ I64}

/-- The name of the variant, which comes first. -/
def variant : Placement → String
  | .packed => "packed"
  | .separated => "separated"
  | .sizeTargeted _ => "size_targeted"

/-- What comes after the name. -/
def bound : Placement → List UInt8
  | .packed => []
  | .separated => []
  | .sizeTargeted n => int n

theorem prefixCode_placement : PrefixCode Placements placement := by
  have hsplit : ∀ p, placement p = str (variant p) ++ bound p := by
    intro p
    cases p <;> simp [placement, variant, bound]
  have hname : ∀ p, variant p ∈ Str64 := by
    intro p
    cases p with
    | packed => exact str64_of_short (s := "packed") (by decide)
    | separated => exact str64_of_short (s := "separated") (by decide)
    | sizeTargeted _ => exact str64_of_short (s := "size_targeted") (by decide)
  intro p hp q hq u v h
  rw [hsplit, hsplit, List.append_assoc, List.append_assoc] at h
  obtain ⟨hpq, hrest⟩ := prefixCode_str _ (hname p) _ (hname q) _ _ h
  cases p with
  | packed =>
    cases q with
    | packed => exact ⟨rfl, hrest⟩
    | separated | sizeTargeted _ => exact absurd hpq (by simp [variant])
  | separated =>
    cases q with
    | separated => exact ⟨rfl, hrest⟩
    | packed | sizeTargeted _ => exact absurd hpq (by simp [variant])
  | sizeTargeted n =>
    cases q with
    | sizeTargeted m =>
      obtain ⟨rfl, huv⟩ := prefixCode_int n (hp n rfl) m (hq m rfl) _ _ hrest
      exact ⟨rfl, huv⟩
    | packed | separated => exact absurd hpq (by simp [variant])

/-- Lists of code words behind `TAG_LIST`. -/
theorem prefixCode_list {α : Type} {S : Set α} {f : α → List UInt8} (hf : PrefixCode S f) :
    PrefixCode {l : List α | l.length < 256 ^ 8 ∧ ∀ x ∈ l, x ∈ S} fun l => list l f :=
  ((prefixCode_beBytes 8).counted hf).tagged [0x04]

end Canonical

/-! ## 3. What the factories sort -/

theorem checkDuplicates_ok : ∀ {ids : List Int}, checkDuplicates ids = .ok () →
    ids.IsChain (· ≠ ·)
  | [], _ => List.isChain_nil
  | [_], _ => List.isChain_singleton _
  | a :: b :: rest, h => by
    rw [checkDuplicates] at h
    split at h
    · cases h
    · rename_i hne
      exact List.isChain_cons_cons.mpr ⟨hne, checkDuplicates_ok h⟩

/-- Accepted parts come out sorted, and none was given twice. -/
theorem canonicalParts_ok {parts ids : List Int} (h : canonicalParts parts = .ok ids) :
    ids = parts.insertionSort (· ≤ ·) ∧ parts.Nodup := by
  unfold canonicalParts at h
  by_cases hnil : parts = []
  · simp [hnil, throw, throwThe, MonadExceptOf.throw, bind, Except.bind] at h
  · simp only [hnil, if_false, bind, Except.bind, pure, Except.pure] at h
    split at h
    · cases h
    · rename_i hdup
      cases h
      refine ⟨rfl, ?_⟩
      rw [← (List.perm_insertionSort (· ≤ ·) parts).nodup_iff]
      exact (List.pairwise_insertionSort (· ≤ ·) parts).nodup_of_isChain_ne
        (checkDuplicates_ok hdup)

/-! ## 4. The four domains -/

/-- The intents of all four domains. -/
inductive Intent where
  | mv (i : MvIntent)
  | ingest (ranges : List IngestRange) (transformationVersion : Nat)
  | compaction (i : CompactionIntent)
  | deleteKey (i : DeleteKeyIntent)

namespace Intent

/-- The factory of the intent's domain. -/
def identify (hash : List UInt8 → Digest) (float : UInt64 → String) (h : HypertableId) :
    Intent → Except OperationError OperationIdentity
  | .mv i => OperationIdentity.mv hash h i
  | .ingest ranges version => OperationIdentity.ingest hash h ranges version
  | .compaction i => OperationIdentity.compaction hash float h i
  | .deleteKey i => OperationIdentity.deleteKey hash float h i

/-- The canonical bytes the factory hashes. -/
def bytes (float : UInt64 → String) (h : HypertableId) : Intent → List UInt8
  | .mv i => canonicalBytes "mv" 1 h (mvBody i)
  | .ingest ranges version =>
    canonicalBytes "ingest" 1 h (ingestBody (ranges.insertionSort IngestRange.le) version)
  | .compaction i =>
    canonicalBytes "compaction" 1 h
      (compactionBody float (i.inputParts.insertionSort (· ≤ ·)) i)
  | .deleteKey i =>
    canonicalBytes "delete-key" 1 h
      (deleteKeyBody float (i.inputParts.insertionSort (· ≤ ·)) i)

/-- **The same intent**: the same domain and transformation version, the same SET of input parts
or of offset ranges, the same JSON values wherever their keys stand, and the same sort key, in
its order. -/
def Same : Intent → Intent → Prop
  | .mv i, .mv j => i = j
  | .ingest rs v, .ingest rs' v' => (∀ r, r ∈ rs ↔ r ∈ rs') ∧ v = v'
  | .compaction i, .compaction j =>
    i.transformationVersion = j.transformationVersion ∧ i.outputLevel = j.outputLevel ∧
      (∀ p, p ∈ i.inputParts ↔ p ∈ j.inputParts) ∧
      i.partitionValues.Same j.partitionValues ∧ i.tableSchema.Same j.tableSchema ∧
      i.sortKey = j.sortKey ∧ i.placement = j.placement
  | .deleteKey i, .deleteKey j =>
    i.transformationVersion = j.transformationVersion ∧ i.packingKey = j.packingKey ∧
      (∀ p, p ∈ i.inputParts ↔ p ∈ j.inputParts) ∧ i.tableSchema.Same j.tableSchema ∧
      i.sortKey = j.sortKey ∧ i.placement = j.placement
  | _, _ => False

/-- The lists a program can hold of values it can hold. -/
def Lists {α : Type} (S : Set α) : Set (List α) := {l | l.length < 256 ^ 8 ∧ ∀ x ∈ l, x ∈ S}

/-- The fields fit the types of the source. -/
def Wide : Intent → Prop
  | .mv i =>
    i.transformationVersion < 2 ^ 32 ∧ i.pipelineId ∈ I64 ∧ i.sourceHypertableId ∈ I64 ∧
      i.sourceCommitId ∈ I64
  | .ingest rs v => v < 2 ^ 32 ∧ rs ∈ Lists IngestRange.Wide
  | .compaction i =>
    i.transformationVersion < 2 ^ 32 ∧ i.outputLevel ∈ I64 ∧ i.inputParts ∈ Lists I64 ∧
      i.partitionValues.Wf ∧ i.tableSchema.Wf ∧ i.sortKey ∈ Lists Str64 ∧
      i.placement ∈ Canonical.Placements
  | .deleteKey i =>
    i.transformationVersion < 2 ^ 32 ∧ i.packingKey ∈ I64 ∧ i.inputParts ∈ Lists I64 ∧
      i.tableSchema.Wf ∧ i.sortKey ∈ Lists Str64 ∧ i.placement ∈ Canonical.Placements

/-- What the factories check and the bytes rely on: nothing is named twice. -/
def Distinct : Intent → Prop
  | .mv _ => True
  | .ingest rs _ => rs.Nodup
  | .compaction i => i.inputParts.Nodup
  | .deleteKey i => i.inputParts.Nodup

variable {hash : List UInt8 → Digest} {float : UInt64 → String} {h h' : HypertableId}
  {I I' : Intent}

/-- **An accepted intent names nothing twice, and its fingerprint is the hash of its bytes.** -/
theorem identify_ok {i : OperationIdentity} (hi : I.identify hash float h = .ok i) :
    I.Distinct ∧ i.hypertableId = h ∧ i.fingerprint = hash (I.bytes float h) := by
  cases I with
  | mv m =>
    simp only [identify, OperationIdentity.mv, bind, Except.bind] at hi
    split at hi
    · cases hi
    · split at hi
      · simp [throw, throwThe, MonadExceptOf.throw] at hi
      · exact ⟨trivial, by rw [finish_ok hi], by rw [finish_ok hi]; rfl⟩
  | ingest rs v =>
    obtain ⟨sorted, hsorted, hfinish⟩ := ingest_ok hi
    refine ⟨canonicalRanges_nodup hsorted, by rw [finish_ok hfinish], ?_⟩
    rw [finish_ok hfinish, canonicalRanges_ok hsorted]
    rfl
  | compaction m =>
    simp only [identify, OperationIdentity.compaction, bind, Except.bind] at hi
    split at hi
    · cases hi
    · rename_i parts hparts
      obtain ⟨rfl, hnd⟩ := canonicalParts_ok hparts
      split at hi
      · simp [throw, throwThe, MonadExceptOf.throw] at hi
      · exact ⟨hnd, by rw [finish_ok hi], by rw [finish_ok hi]; rfl⟩
  | deleteKey m =>
    simp only [identify, OperationIdentity.deleteKey, bind, Except.bind] at hi
    split at hi
    · cases hi
    · rename_i parts hparts
      obtain ⟨rfl, hnd⟩ := canonicalParts_ok hparts
      split at hi
      · simp [throw, throwThe, MonadExceptOf.throw] at hi
      · exact ⟨hnd, by rw [finish_ok hi], by rw [finish_ok hi]; rfl⟩

theorem version_mem {v : Nat} (hv : v < 2 ^ 32) : (v : Int) ∈ I64 := by
  constructor <;> omega

/-- The header tells domains and hypertables apart. -/
theorem canonicalBytes_iff {d d' : String} {b b' : List UInt8} (hd : d ∈ Str64) (hd' : d' ∈ Str64)
    (hh : h ∈ I64) (hh' : h' ∈ I64) :
    canonicalBytes d 1 h b = canonicalBytes d' 1 h' b' ↔ d = d' ∧ h = h' ∧ b = b' := by
  constructor
  · intro heq
    simp only [canonicalBytes, List.append_cancel_left_eq] at heq
    obtain ⟨rfl, hrest⟩ := Canonical.prefixCode_str d hd d' hd' _ _ heq
    obtain ⟨rfl, hbody⟩ := Canonical.prefixCode_int h hh h' hh' _ _
      (List.append_cancel_left hrest)
    exact ⟨rfl, rfl, hbody⟩
  · rintro ⟨rfl, rfl, rfl⟩
    rfl

open Canonical

theorem mvBody_iff {i j : MvIntent} (hi : (Intent.mv i).Wide) (hj : (Intent.mv j).Wide) :
    mvBody i = mvBody j ↔ i = j := by
  have hcode := prefixCode_int.prod (prefixCode_int.prod (prefixCode_int.prod prefixCode_int))
  have htuple := hcode.eq_iff
    (x := ((i.transformationVersion : Int), i.pipelineId, i.sourceHypertableId, i.sourceCommitId))
    (y := ((j.transformationVersion : Int), j.pipelineId, j.sourceHypertableId, j.sourceCommitId))
    ⟨version_mem hi.1, hi.2.1, hi.2.2.1, hi.2.2.2⟩ ⟨version_mem hj.1, hj.2.1, hj.2.2.1, hj.2.2.2⟩
  refine Iff.trans htuple ?_
  cases i
  cases j
  simp only [Prod.mk.injEq, MvIntent.mk.injEq, Int.ofNat_inj]
  tauto

theorem lists_sort {α : Type} {S : Set α} {l : List α} (r : α → α → Prop) [DecidableRel r]
    (h : l ∈ Lists S) : l.insertionSort r ∈ Lists S :=
  ⟨List.length_insertionSort r l ▸ h.1, fun x hx => h.2 x ((List.mem_insertionSort r).mp hx)⟩

theorem ingestBody_iff {rs rs' : List IngestRange} {v v' : Nat} (hw : (Intent.ingest rs v).Wide)
    (hw' : (Intent.ingest rs' v').Wide) (hnd : rs.Nodup) (hnd' : rs'.Nodup) :
    ingestBody (rs.insertionSort IngestRange.le) v =
      ingestBody (rs'.insertionSort IngestRange.le) v' ↔ (∀ r, r ∈ rs ↔ r ∈ rs') ∧ v = v' := by
  have hcode := prefixCode_int.prod (prefixCode_list prefixCode_range)
  have htuple := hcode.eq_iff (x := ((v : Int), rs.insertionSort IngestRange.le))
    (y := ((v' : Int), rs'.insertionSort IngestRange.le))
    ⟨version_mem hw.1, lists_sort _ hw.2⟩ ⟨version_mem hw'.1, lists_sort _ hw'.2⟩
  refine Iff.trans htuple ?_
  rw [Prod.mk.injEq, Int.ofNat_inj, List.insertionSort_eq_iff_mem hnd hnd', and_comm]

theorem compactionBody_iff (hf : FloatText float) {i j : CompactionIntent}
    (hi : (Intent.compaction i).Wide) (hj : (Intent.compaction j).Wide)
    (hnd : i.inputParts.Nodup) (hnd' : j.inputParts.Nodup) :
    compactionBody float (i.inputParts.insertionSort (· ≤ ·)) i =
      compactionBody float (j.inputParts.insertionSort (· ≤ ·)) j ↔
        (Intent.compaction i).Same (.compaction j) := by
  have hcode := prefixCode_int.prod (prefixCode_int.prod ((prefixCode_list prefixCode_int).prod
    ((prefixCode_raw hf).prod ((prefixCode_raw hf).prod
      ((prefixCode_list prefixCode_str).prod prefixCode_placement)))))
  obtain ⟨hv, hl, hp, hpv, hts, hsk, hpl⟩ := hi
  obtain ⟨hv', hl', hp', hpv', hts', hsk', hpl'⟩ := hj
  have htuple := hcode.eq_iff
    (x := ((i.transformationVersion : Int), i.outputLevel, i.inputParts.insertionSort (· ≤ ·),
      i.partitionValues.normal, i.tableSchema.normal, i.sortKey, i.placement))
    (y := ((j.transformationVersion : Int), j.outputLevel, j.inputParts.insertionSort (· ≤ ·),
      j.partitionValues.normal, j.tableSchema.normal, j.sortKey, j.placement))
    ⟨version_mem hv, hl, lists_sort _ hp, hpv.normal, hts.normal, hsk, hpl⟩
    ⟨version_mem hv', hl', lists_sort _ hp', hpv'.normal, hts'.normal, hsk', hpl'⟩
  simp only [compactionBody, json_eq_raw]
  refine Iff.trans htuple ?_
  simp only [Prod.mk.injEq, Int.ofNat_inj, List.insertionSort_eq_iff_mem hnd hnd',
    ← Json.same_iff hpv hpv', ← Json.same_iff hts hts']
  exact Iff.rfl

theorem deleteKeyBody_iff (hf : FloatText float) {i j : DeleteKeyIntent}
    (hi : (Intent.deleteKey i).Wide) (hj : (Intent.deleteKey j).Wide)
    (hnd : i.inputParts.Nodup) (hnd' : j.inputParts.Nodup) :
    deleteKeyBody float (i.inputParts.insertionSort (· ≤ ·)) i =
      deleteKeyBody float (j.inputParts.insertionSort (· ≤ ·)) j ↔
        (Intent.deleteKey i).Same (.deleteKey j) := by
  have hcode := prefixCode_int.prod (prefixCode_int.prod ((prefixCode_list prefixCode_int).prod
    ((prefixCode_raw hf).prod ((prefixCode_list prefixCode_str).prod prefixCode_placement))))
  obtain ⟨hv, hk, hp, hts, hsk, hpl⟩ := hi
  obtain ⟨hv', hk', hp', hts', hsk', hpl'⟩ := hj
  have htuple := hcode.eq_iff
    (x := ((i.transformationVersion : Int), i.packingKey, i.inputParts.insertionSort (· ≤ ·),
      i.tableSchema.normal, i.sortKey, i.placement))
    (y := ((j.transformationVersion : Int), j.packingKey, j.inputParts.insertionSort (· ≤ ·),
      j.tableSchema.normal, j.sortKey, j.placement))
    ⟨version_mem hv, hk, lists_sort _ hp, hts.normal, hsk, hpl⟩
    ⟨version_mem hv', hk', lists_sort _ hp', hts'.normal, hsk', hpl'⟩
  simp only [deleteKeyBody, json_eq_raw]
  refine Iff.trans htuple ?_
  simp only [Prod.mk.injEq, Int.ofNat_inj, List.insertionSort_eq_iff_mem hnd hnd',
    ← Json.same_iff hts hts']
  exact Iff.rfl

theorem str64_domain : "mv" ∈ Str64 ∧ "ingest" ∈ Str64 ∧ "compaction" ∈ Str64 ∧
    "delete-key" ∈ Str64 :=
  ⟨str64_of_short (by decide), str64_of_short (by decide), str64_of_short (by decide),
    str64_of_short (by decide)⟩

/-- **Equal bytes mean the same intent, and the same intent has equal bytes.** -/
theorem bytes_iff (hf : FloatText float) (hh : h ∈ I64) (hh' : h' ∈ I64) (hw : I.Wide)
    (hw' : I'.Wide) (hd : I.Distinct) (hd' : I'.Distinct) :
    I.bytes float h = I'.bytes float h' ↔ h = h' ∧ I.Same I' := by
  obtain ⟨hmv, hingest, hcompaction, hdelete⟩ := str64_domain
  cases I with
  | mv i =>
    cases I' with
    | mv j => simp [bytes, Same, canonicalBytes_iff hmv hmv hh hh', mvBody_iff hw hw']
    | ingest _ _ => simp [bytes, Same, canonicalBytes_iff hmv hingest hh hh']
    | compaction _ => simp [bytes, Same, canonicalBytes_iff hmv hcompaction hh hh']
    | deleteKey _ => simp [bytes, Same, canonicalBytes_iff hmv hdelete hh hh']
  | ingest rs v =>
    cases I' with
    | mv _ => simp [bytes, Same, canonicalBytes_iff hingest hmv hh hh']
    | ingest rs' v' =>
      rw [bytes, bytes, canonicalBytes_iff hingest hingest hh hh',
        ingestBody_iff hw hw' hd hd', Same]
      exact and_iff_right rfl
    | compaction _ => simp [bytes, Same, canonicalBytes_iff hingest hcompaction hh hh']
    | deleteKey _ => simp [bytes, Same, canonicalBytes_iff hingest hdelete hh hh']
  | compaction i =>
    cases I' with
    | mv _ => simp [bytes, Same, canonicalBytes_iff hcompaction hmv hh hh']
    | ingest _ _ => simp [bytes, Same, canonicalBytes_iff hcompaction hingest hh hh']
    | compaction j =>
      rw [bytes, bytes, canonicalBytes_iff hcompaction hcompaction hh hh',
        compactionBody_iff hf hw hw' hd hd']
      exact and_iff_right rfl
    | deleteKey _ => simp [bytes, Same, canonicalBytes_iff hcompaction hdelete hh hh']
  | deleteKey i =>
    cases I' with
    | mv _ => simp [bytes, Same, canonicalBytes_iff hdelete hmv hh hh']
    | ingest _ _ => simp [bytes, Same, canonicalBytes_iff hdelete hingest hh hh']
    | compaction _ => simp [bytes, Same, canonicalBytes_iff hdelete hcompaction hh hh']
    | deleteKey j =>
      rw [bytes, bytes, canonicalBytes_iff hdelete hdelete hh hh',
        deleteKeyBody_iff hf hw hw' hd hd']
      exact and_iff_right rfl

/-- **Operation identities are canonical and injective.**  Over all four domains and all intents
their factories accept, on any hypertables: the bytes the hash is fed are equal exactly when the
hypertable is the same and the intents are the same (domain and version included).  With a hash
that does not collide, so are the identities. -/
theorem identity_canonical (hf : FloatText float) (hh : h ∈ I64) (hh' : h' ∈ I64) (hw : I.Wide)
    (hw' : I'.Wide) {i i' : OperationIdentity} (hi : I.identify hash float h = .ok i)
    (hi' : I'.identify hash float h' = .ok i') :
    i.fingerprint = hash (I.bytes float h) ∧
      (I.bytes float h = I'.bytes float h' ↔ h = h' ∧ I.Same I') ∧
      (Function.Injective hash → (i.fingerprint = i'.fingerprint ↔ h = h' ∧ I.Same I')) := by
  obtain ⟨hd, -, hfp⟩ := identify_ok hi
  obtain ⟨hd', -, hfp'⟩ := identify_ok hi'
  have hbytes := bytes_iff hf hh hh' hw hw' hd hd'
  refine ⟨hfp, hbytes, ?_⟩
  intro hinj
  rw [hfp, hfp', hinj.eq_iff]
  exact hbytes

/-! ## 5. Two workers enumerate one merge differently -/

/-- A text for every float, and for `1.5` the one that is printed. -/
def floatText (b : UInt64) : String :=
  if b = 0x3FF8000000000000 then "1.5" else "e" ++ b.toNat.repr

theorem floatText_spec : FloatText floatText where
  reads_back := by
    have hne : ∀ n : Nat, "1.5" ≠ "e" ++ n.repr := by
      intro n h
      have hchars := congrArg String.toList h
      rw [String.toList_append] at hchars
      exact absurd (List.cons.inj hchars).1 (by decide)
    intro a _ b _ h
    unfold floatText at h
    split at h <;> split at h
    · rename_i ha hb
      rw [ha, hb]
    · exact absurd h (hne _)
    · exact absurd h.symm (hne _)
    · exact UInt64.toNat_inj.mp (Nat.repr_injective ((String.append_right_inj "e").mp h))
  not_int := by
    intro b _
    unfold floatText
    split
    · exact ⟨'.', by decide, Or.inl rfl⟩
    · refine ⟨'e', ?_, Or.inr rfl⟩
      rw [String.toList_append]
      exact List.mem_append_left _ (by decide)
  short := by
    intro b _
    unfold floatText
    split
    · decide
    · have hb : b.toNat < 10 ^ 20 := lt_of_lt_of_le b.toNat_lt (by decide)
      have hlen := Nat.repr_length b.toNat 20 (by decide) hb
      have hsign : "e".length = 1 := by decide
      rw [String.toList_append, List.length_append, String.length_toList, String.length_toList]
      omega

/-- `{"fields": [{"name": "ts", "scale": 1.5}]}`. -/
def mergeSchema : Json :=
  .obj [("fields", .arr [.obj [("name", .str "ts"), ("scale", .num (.float 0x3FF8000000000000))]])]

def mergeIntent (parts : List Int) (partition : List (String × Json)) : Intent :=
  .compaction ⟨1, parts, .obj partition, mergeSchema, ["tenant_id", "ts"], .sizeTargeted 64, 1⟩

theorem mergeIntent_wide {parts : List Int} {partition : List (String × Json)}
    (hp : parts ∈ Lists I64) (hpart : (Json.obj partition).Wf) :
    (mergeIntent parts partition).Wide := by
  have hschema : mergeSchema.Wf := by
    refine ⟨by decide, by decide, ⟨str64_of_short (by decide), by decide, ⟨by decide, by decide,
      ⟨str64_of_short (by decide), str64_of_short (by decide)⟩,
      ⟨str64_of_short (by decide), ?_⟩, trivial⟩, trivial⟩, trivial⟩
    exact (by decide : Json.FiniteBits 0x3FF8000000000000)
  refine ⟨(by decide : 1 < 2 ^ 32), ⟨(by decide : -2 ^ 63 ≤ (1 : Int)),
    (by decide : (1 : Int) < 2 ^ 63)⟩, hp, hpart, hschema, ⟨(by decide : 2 < 256 ^ 8), ?_⟩, ?_⟩
  · intro s hs
    rcases List.mem_cons.mp hs with rfl | hs
    · exact str64_of_short (by decide)
    · rw [List.mem_singleton.mp hs]
      exact str64_of_short (by decide)
  · intro n hn
    cases hn
    constructor <;> decide

theorem mergeIntent_same {parts parts' : List Int} {kvs kvs' : List (String × Json)}
    (hparts : ∀ p, p ∈ parts ↔ p ∈ parts') (hkvs : (Json.obj kvs).Same (.obj kvs'))
    (hschema : mergeSchema.Same mergeSchema) :
    (mergeIntent parts kvs).Same (mergeIntent parts' kvs') :=
  ⟨rfl, rfl, hparts, hkvs, hschema, rfl, rfl⟩

def dayRegion : List (String × Json) := [("day", .str "2026-07-01"), ("region", .str "eu")]

theorem dayRegion_wf {kvs : List (String × Json)} (h : kvs.Perm dayRegion) :
    (Json.obj kvs).Wf := by
  refine ⟨?_, ?_, ?_⟩
  · rw [h.length_eq]
    decide
  · rw [(h.map Prod.fst).nodup_iff]
    decide
  · refine Json.wfEntries_iff.mpr fun e he => ?_
    have he' := h.mem_iff.mp he
    rcases List.mem_cons.mp he' with rfl | he'
    · exact ⟨str64_of_short (by decide), str64_of_short (by decide)⟩
    · rw [List.mem_singleton.mp he']
      exact ⟨str64_of_short (by decide), str64_of_short (by decide)⟩

/-- The last 32 bytes stand in for the digest. -/
def lastBytes (bytes : List UInt8) : Digest := bytes.drop (bytes.length - 32)

theorem exists_ok {ε α : Type} {x : Except ε α} (h : x.toOption.isSome = true) :
    ∃ a, x = .ok a := by
  cases x with
  | error e => cases h
  | ok a => exact ⟨a, rfl⟩

/-- The parts and the partition's keys come in another order, and the bytes stay. -/
theorem identity_canonical_merge :
    (mergeIntent [3, 1, 2] dayRegion).bytes floatText 7 =
      (mergeIntent [2, 3, 1] dayRegion.reverse).bytes floatText 7 := by
  have hparts : ∀ parts : List Int, parts.Perm [1, 2, 3] → parts ∈ Lists I64 := by
    intro parts h
    refine ⟨h.length_eq ▸ (by decide : 3 < 256 ^ 8), fun p hp => ?_⟩
    have hp' := h.mem_iff.mp hp
    simp only [List.mem_cons, List.not_mem_nil, or_false] at hp'
    rcases hp' with rfl | rfl | rfl <;> constructor <;> decide
  have hwf : (Json.obj dayRegion).Wf := dayRegion_wf (List.Perm.refl _)
  have hwf' : (Json.obj dayRegion.reverse).Wf := dayRegion_wf (List.reverse_perm _)
  have hw := mergeIntent_wide (hparts [3, 1, 2] (by decide)) hwf
  have hw' := mergeIntent_wide (hparts [2, 3, 1] (by decide)) hwf'
  have hok : ((mergeIntent [3, 1, 2] dayRegion).identify lastBytes floatText 7).toOption.isSome ∧
      ((mergeIntent [2, 3, 1] dayRegion.reverse).identify lastBytes floatText 7).toOption.isSome :=
    by decide +kernel
  obtain ⟨i, hi⟩ := exists_ok hok.1
  obtain ⟨i', hi'⟩ := exists_ok hok.2
  have hh : (7 : Int) ∈ I64 := by constructor <;> decide
  refine (identity_canonical floatText_spec hh hh hw hw' hi hi').2.1.mpr
    ⟨rfl, mergeIntent_same ?_ ?_ ?_⟩
  · exact fun p => (by decide : [(3 : Int), 1, 2].Perm [2, 3, 1]).mem_iff
  · exact (Json.same_iff hwf hwf').mpr (by decide)
  · obtain ⟨-, -, -, -, hschema, -⟩ := hw
    exact (Json.same_iff hschema hschema).mpr rfl

end Intent

end Ukiel
