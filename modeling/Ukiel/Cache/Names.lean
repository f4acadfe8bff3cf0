/-
# File names that survive a restart

The cache names its files in two places, `whole_name` and `read_range_chunked` of `cache.rs` and
`reserve` of `cache/disk.rs`, and `managed_name` reads the names back by hand when the directory
is opened again.  §1 is what is written, §2 the pieces it is read by, §3 that what is written is
read for what it is: a name that was refused would keep the cache from ever opening again, and a
name two files share would serve the bytes of another object.

`blake3` and the text of a `Uuid` come from outside: of the first `Crates.Lawful` says what is
used, of the second that the parser accepts it (`hyphenated`).
-/
import Mathlib
import Ukiel.Core.Operation
import Ukiel.Cache.Transparency

namespace Ukiel.Cache

/-! ## 1. Names -/

/-- A `Uuid`. -/
abbrev Uuid := {bytes : List UInt8 // bytes.length = 16}

/-- How a `Uuid` is displayed: hyphenated, in lower case. -/
def Uuid.hyphenated (id : Uuid) : String :=
  hex (id.val.slice 0 4) ++ ("-" ++ (hex (id.val.slice 4 6) ++ ("-" ++ (hex (id.val.slice 6 8) ++
    ("-" ++ (hex (id.val.slice 8 10) ++ ("-" ++ hex (id.val.slice 10 16))))))))

/-- A chunk size `open` lets through. -/
abbrev ChunkSize := {size : UInt64 // size ≠ 0}

/-- What a published file holds. -/
inductive Target (P : Type) where
  | whole (p : P)
  | chunk (p : P) (size : ChunkSize) (index : UInt64)
deriving DecidableEq

/-- A file of the directory: published, or the temporary file of a fill. -/
inductive CacheFile (P : Type) where
  | published (t : Target P)
  | fill (t : Target P) (id : Uuid)
deriving DecidableEq

variable {P : Type} {C : Crates P}

def Target.name (C : Crates P) : Target P → String
  | .whole p => C.wholeName p
  | .chunk p size index => C.chunkName p size.val.toNat index.toNat

/-- The temporary name is made in `reserve`. -/
def CacheFile.name (C : Crates P) : CacheFile P → String
  | .published t => t.name C
  | .fill t id => t.name C ++ (".tmp-" ++ id.hyphenated)

def CacheFile.isFill : CacheFile P → Bool
  | .published _ => false
  | .fill _ _ => true

/-! ## 2. Pieces of names -/

theorem mem_of_isPrefixOf {c : Char} {sep s : List Char} (h : sep.isPrefixOf s = true)
    (hc : c ∈ sep) : c ∈ s :=
  (List.isPrefixOf_iff_prefix.mp h).subset hc

theorem rsplitOnce_eq_none {c : Char} {sep s : List Char} (hsep : c ∈ sep) (hs : c ∉ s) :
    rsplitOnce sep s = none := by
  rw [rsplitOnce, Option.map_eq_none_iff, List.find?_eq_none]
  intro i _ h
  exact hs (List.mem_of_mem_drop (mem_of_isPrefixOf h hsep))

/-- A separator is found when its first character does not come again. -/
theorem rsplitOnce_append {c : Char} {sep a b : List Char} (h : c ∉ sep ++ b) :
    rsplitOnce (c :: sep) (a ++ (c :: sep ++ b)) = some (a, b) := by
  have hfind : (List.range ((a ++ (c :: sep ++ b)).length + 1)).reverse.find?
      (fun i => (c :: sep).isPrefixOf ((a ++ (c :: sep ++ b)).drop i)) = some a.length := by
    rw [List.find?_eq_some_iff_getElem]
    refine ⟨?_, (c :: sep ++ b).length, ?_, ?_, ?_⟩
    · rw [List.drop_left, List.isPrefixOf_iff_prefix]
      exact List.prefix_append _ _
    · simp only [List.length_reverse, List.length_range, List.length_append]
      omega
    · simp only [List.getElem_reverse, List.getElem_range, List.length_range, List.length_append]
      omega
    · intro j hj
      -- behind the separator there is no first character
      have hj' : (a ++ (c :: sep ++ b)).length + 1 - 1 - j =
          a.length + ((sep ++ b).length - j + 1) := by
        simp only [List.cons_append, List.length_append, List.length_cons] at hj ⊢
        omega
      simp only [List.getElem_reverse, List.getElem_range, List.length_range, hj',
        Bool.not_eq_true']
      rw [Bool.eq_false_iff]
      intro hprefix
      have hmem := mem_of_isPrefixOf hprefix List.mem_cons_self
      rw [List.drop_length_add_append, List.cons_append, List.drop_succ_cons] at hmem
      exact h (List.mem_of_mem_drop hmem)
  have hafter : (a ++ (c :: sep ++ b)).drop (a.length + (c :: sep).length) = b := by
    rw [List.drop_length_add_append, List.drop_left]
  rw [rsplitOnce, hfind, Option.map_some, List.take_left, hafter]

theorem stripSuffix_append (s suffix : List Char) : stripSuffix suffix (s ++ suffix) = some s := by
  have hsuffix : suffix.isSuffixOf (s ++ suffix) = true :=
    List.isSuffixOf_iff_suffix.mpr (List.suffix_append s suffix)
  rw [stripSuffix, if_pos hsuffix, List.length_append, Nat.add_sub_cancel, List.take_left]

/-- A number is read back. -/
theorem parseUnsigned_toString {width n : Nat} (h : n < 2 ^ width) :
    parseUnsigned width (toString n).toList = some n := by
  have hdigits : parseDigits (toString n).toList = some n := by
    have hne : (toString n).toList ≠ [] := by
      rw [Nat.toString_eq_ofList_toDigits, String.toList_ofList]
      exact Nat.toDigits_ne_nil
    have hall : (toString n).toList.all Char.isDigit = true := by
      rw [List.all_eq_true, Nat.toString_eq_ofList_toDigits, String.toList_ofList]
      exact fun c hc => Nat.isDigit_of_mem_toDigits (by decide) (by decide) hc
    have hvalue : (toString n).toList.foldl (fun n c => n * 10 + (c.toNat - '0'.toNat)) 0 = n := by
      have h := @Nat.ofDigitChars_ten_toDigits n
      rw [Nat.ofDigitChars_eq_foldl] at h
      rw [Nat.toString_eq_ofList_toDigits, String.toList_ofList]
      simpa only [Nat.mul_comm] using h
    rw [parseDigits, if_pos ⟨hne, hall⟩, hvalue]
  unfold parseUnsigned
  split
  · rename_i rest heq
    exact absurd (heq ▸ List.mem_cons_self : '+' ∈ (toString n).toList)
      (not_mem_toString (by decide))
  · rw [hdigits, Option.filter_some, if_pos (decide_eq_true h)]

theorem not_mem_hyphenated (id : Uuid) {c : Char} (hc : c ∉ "-0123456789abcdef".toList) :
    c ∉ id.hyphenated.toList := by
  have hhyphen : c ∉ "-".toList := fun h => hc (by
    rw [List.mem_singleton.mp h]
    decide)
  have hhex : ∀ bytes : List UInt8, c ∉ (hex bytes).toList := fun bytes =>
    not_mem_hex fun h => hc (List.mem_cons_of_mem _ h)
  simp only [Uuid.hyphenated, String.toList_append, List.mem_append, not_or]
  exact ⟨hhex _, hhyphen, hhex _, hhyphen, hhex _, hhyphen, hhex _, hhyphen, hhex _⟩

theorem hyphenated_injective : Function.Injective Uuid.hyphenated := by
  rintro ⟨s, hs⟩ ⟨t, ht⟩ h
  have hlen : ∀ lo hi, (s.slice lo hi).length = (t.slice lo hi).length := fun lo hi => by
    simp only [List.slice, List.length_take, List.length_drop, hs, ht]
  simp only [Uuid.hyphenated] at h
  obtain ⟨h₁, h⟩ := hex_append_inj (hlen 0 4) h
  obtain ⟨h₂, h⟩ := hex_append_inj (hlen 4 6) ((String.append_right_inj _).mp h)
  obtain ⟨h₃, h⟩ := hex_append_inj (hlen 6 8) ((String.append_right_inj _).mp h)
  obtain ⟨h₄, h⟩ := hex_append_inj (hlen 8 10) ((String.append_right_inj _).mp h)
  have h₅ := hex_injective ((String.append_right_inj _).mp h)
  -- the pieces make up the bytes
  have hpieces : ∀ l : List UInt8, l.length = 16 →
      l.slice 0 4 ++ l.slice 4 6 ++ l.slice 6 8 ++ l.slice 8 10 ++ l.slice 10 16 = l := by
    intro l hl
    rw [List.slice_append (by decide) (by decide), List.slice_append (by decide) (by decide),
      List.slice_append (by decide) (by decide), List.slice_append (by decide) (by decide), ← hl,
      List.slice_length]
  refine Subtype.ext ?_
  calc s = _ := (hpieces s hs).symm
    _ = _ := by rw [h₁, h₂, h₃, h₄, h₅]
    _ = t := hpieces t ht

/-! ## 3. What is written is read -/

namespace Target

variable {t u : Target P}

theorem name_injective (hC : C.Lawful) : Function.Injective (Target.name C) := by
  intro t u h
  cases t with
  | whole p =>
    cases u with
    | whole q => rw [wholeName_inj hC h]
    | chunk q size index => exact absurd h (wholeName_ne_chunkName hC)
  | chunk p size index =>
    cases u with
    | whole q => exact absurd h.symm (wholeName_ne_chunkName hC)
    | chunk q size' index' =>
      obtain ⟨hp, hsize, hindex⟩ := chunkName_inj hC h
      rw [hp, Subtype.ext (UInt64.toNat_inj.mp hsize), UInt64.toNat_inj.mp hindex]

/-- No published file has a `t` in its name, and so none looks temporary. -/
theorem not_mem_name (hC : C.Lawful) (t : Target P) : 't' ∉ (t.name C).toList := by
  have hkey : ∀ p, 't' ∉ (C.key p).toList := fun p => not_mem_hash (hC.key_hash p) (by decide)
  have hnumber : ∀ n : Nat, 't' ∉ (toString n).toList := fun n => not_mem_toString (by decide)
  cases t with
  | whole p =>
    simp only [name, Crates.wholeName, String.toList_append, List.mem_append, not_or]
    exact ⟨hkey p, by decide⟩
  | chunk p size index =>
    simp only [name, Crates.chunkName, String.toList_append, List.mem_append, not_or]
    exact ⟨hkey p, by decide, hnumber _, by decide, hnumber _⟩

/-- What is left of a managed name without its temporary suffix is managed. -/
theorem managed_name (hC : C.Lawful) (t : Target P) (temporary : Bool) :
    managedName.go C.isUuid (t.name C).toList temporary = true := by
  cases t with
  | whole p =>
    have hstrip : (stripSuffix ".file".toList (C.wholeName p).toList).any isHash = true := by
      rw [Crates.wholeName, String.toList_append, stripSuffix_append]
      exact hC.key_hash p
    rw [name, managedName.go, if_pos hstrip]
  | chunk p size index =>
    have hchunk : rsplitOnce ".chunk-".toList (C.chunkName p size.val.toNat index.toNat).toList =
        some ((C.key p).toList ++ ('.' :: (toString size.val.toNat).toList),
          (toString index.toNat).toList) := by
      have hdot : '.' ∉ "chunk-".toList ++ (toString index.toNat).toList := by
        rw [List.mem_append, not_or]
        exact ⟨by decide, not_mem_toString (by decide)⟩
      rw [← rsplitOnce_append (a := (C.key p).toList ++ ('.' :: (toString size.val.toNat).toList))
        hdot]
      simp only [Crates.chunkName, String.toList_append, List.append_assoc, List.cons_append]
      rfl
    have hsize : rsplitOnce ['.'] ((C.key p).toList ++ ('.' :: (toString size.val.toNat).toList)) =
        some ((C.key p).toList, (toString size.val.toNat).toList) :=
      @rsplitOnce_append '.' [] _ _ (not_mem_toString (by decide))
    have hpos : 0 < size.val.toNat := by
      refine Nat.pos_of_ne_zero fun hzero => size.property (UInt64.toNat_inj.mp hzero)
    rw [name, managedName.go]
    split
    · rfl
    · simp only [hchunk, parseUnsigned_toString index.toNat_lt, hsize, hC.key_hash p,
        parseUnsigned_toString size.val.toNat_lt, Option.isNone_some, Option.any_some,
        Bool.true_and, decide_eq_true hpos, if_true, Bool.false_eq_true, if_false]

end Target

namespace CacheFile

/-- How the name of a file is split at `.tmp-`. -/
theorem rsplitOnce_name (hC : C.Lawful) (x : CacheFile P) :
    rsplitOnce ".tmp-".toList (x.name C).toList = match x with
      | .published _ => none
      | .fill t id => some ((t.name C).toList, id.hyphenated.toList) := by
  cases x with
  | published t => exact rsplitOnce_eq_none (c := 't') (by decide) (t.not_mem_name hC)
  | fill t id =>
    have hdot : '.' ∉ "tmp-".toList ++ id.hyphenated.toList := by
      rw [List.mem_append, not_or]
      exact ⟨by decide, not_mem_hyphenated id (by decide)⟩
    have h := rsplitOnce_append hdot (a := (t.name C).toList)
    rw [name, String.toList_append, String.toList_append]
    exact h

end CacheFile

/-- **Names survive a restart.**  Of the files the cache makes, every one has a name that is
accepted when the directory is opened again, the temporary ones and no others are taken for
temporary, and no two have the same name. -/
theorem names_faithful (hC : C.Lawful) (huuid : ∀ id : Uuid, C.isUuid id.hyphenated = true) :
    (∀ x : CacheFile P, managedName C.isUuid (x.name C) = true) ∧
    (∀ x : CacheFile P, temporaryName C.isUuid (x.name C) = x.isFill) ∧
    Function.Injective (CacheFile.name C) := by
  refine ⟨fun x => ?_, fun x => ?_, fun x y h => ?_⟩
  · have hsplit := x.rsplitOnce_name hC
    cases x with
    | published t =>
      rw [managedName, hsplit]
      exact t.managed_name hC false
    | fill t id =>
      rw [managedName, hsplit]
      simp only [String.ofList_toList, huuid, t.managed_name hC, Bool.and_self]
  · rw [temporaryName, x.rsplitOnce_name hC]
    cases x with
    | published t => rfl
    | fill t id =>
      simp only [Option.any_some, String.ofList_toList, huuid, CacheFile.isFill]
  · have hsplit := x.rsplitOnce_name hC
    rw [h, y.rsplitOnce_name hC] at hsplit
    cases x with
    | published t =>
      cases y with
      | published u => rw [Target.name_injective hC h]
      | fill u id => cases hsplit
    | fill t id =>
      cases y with
      | published u => cases hsplit
      | fill u id' =>
        obtain ⟨hname, hid⟩ := Prod.mk.inj (Option.some.inj hsplit)
        rw [Target.name_injective hC (String.toList_injective hname),
          hyphenated_injective (String.toList_injective hid)]

def isHexDigit (c : Char) : Bool := c ∈ "0123456789abcdef".toList

/-- The hyphenated form, which `Uuid::parse_str` accepts. -/
def isHyphenated (s : List Char) : Bool :=
  s.length = 36 && (List.range 36).all fun i => s[i]?.any fun c =>
    if i = 8 ∨ i = 13 ∨ i = 18 ∨ i = 23 then c = '-' else isHexDigit c

theorem isHyphenated_hyphenated (id : Uuid) : isHyphenated id.hyphenated.toList = true := by
  have hdigit : ∀ n < 16, isHexDigit n.digitChar = true := by decide
  have hhigh : ∀ b : UInt8, isHexDigit (b.toNat / 16).digitChar = true := fun b =>
    hdigit _ (by have := b.toNat_lt; omega)
  have hlow : ∀ b : UInt8, isHexDigit (b.toNat % 16).digitChar = true := fun b =>
    hdigit _ (by omega)
  match id with
  | ⟨[b₀, b₁, b₂, b₃, b₄, b₅, b₆, b₇, b₈, b₉, b₁₀, b₁₁, b₁₂, b₁₃, b₁₄, b₁₅], _⟩ =>
    simp only [Uuid.hyphenated, hex, List.slice, String.toList_append, String.toList_ofList]
    simp [isHyphenated, hhigh, hlow, List.range_succ]

/-- The two paths, with the identifiers `new_v4` makes. -/
def twoPathsV4 : Crates Bool := { twoPaths with isUuid := fun id => isHyphenated id.toList }

/-- `67e55044-10b1-426f-9247-bb680e5fe0c8`. -/
def someUuid : Uuid :=
  ⟨[0x67, 0xe5, 0x50, 0x44, 0x10, 0xb1, 0x42, 0x6f, 0x92, 0x47, 0xbb, 0x68, 0x0e, 0x5f, 0xe0,
    0xc8], rfl⟩

/-- An interrupted fill of the fourth chunk of `a.parquet`. -/
theorem names_faithful_chunk :
    managedName twoPathsV4.isUuid
      ((CacheFile.fill (.chunk true ⟨8388608, by decide⟩ 3) someUuid).name twoPathsV4) = true ∧
    temporaryName twoPathsV4.isUuid
      ((CacheFile.fill (.chunk true ⟨8388608, by decide⟩ 3) someUuid).name twoPathsV4) = true ∧
    temporaryName twoPathsV4.isUuid
      ((CacheFile.published (.chunk true ⟨8388608, by decide⟩ 3)).name twoPathsV4) = false := by
  have hC : twoPathsV4.Lawful :=
    ⟨twoPaths_lawful.key_injective, twoPaths_lawful.key_hash, twoPaths_lawful.asRange_le,
      twoPaths_lawful.asRange_bounded⟩
  obtain ⟨hmanaged, htemporary, -⟩ :=
    names_faithful hC fun id => (isHyphenated_hyphenated id : twoPathsV4.isUuid _ = true)
  exact ⟨hmanaged _, htemporary _, htemporary _⟩

end Ukiel.Cache
