/-
# No false negatives

A skip index hides rows if it says `NoMatch` of a group in which some value satisfies the
predicate.  §1 reads back what was encoded, §2 to §4 are what the three builds keep of a group and
why that is enough for their verdicts, and §5 puts both together: whatever the kind, the budget,
the group and the predicate.

A group may mix integers and strings.  A zone map then keeps the bounds of the type that came
first and has no verdict on the other one.
-/
import Ukiel.SkipIndex.Sidecar

namespace Ukiel.SkipIndex

/-! ## 1. Reading back -/

section Bytes

variable {bytes piece : List UInt8} {p n : Nat}

theorem getRange_of_at (h : bytes.At p piece) :
    getRange bytes p piece.length = some piece := by
  rw [getRange, if_pos h.le, h.slice_eq]

theorem readU32_of_at (h : bytes.At p (u32Bytes n)) (hn : n < 2 ^ 32) :
    readU32 bytes p = some n := by
  have hrange := getRange_of_at h
  rw [u32Bytes, length_leBytes] at hrange
  have hwidth : n < 256 ^ 4 := by omega
  rw [readU32, hrange, Option.map_some, Nat.mod_eq_of_lt hn, ofLeBytes_leBytes hwidth]

@[simp] theorem length_u32Bytes : (u32Bytes n).length = 4 := length_leBytes _ _

theorem i64OfBits_bits (v : I64) : i64OfBits (Canonical.bits v) = v := by
  obtain ⟨hlo, hhi⟩ := v.property
  refine Subtype.ext ?_
  unfold i64OfBits Canonical.bits
  simp only
  rw [Int.toNat_of_nonneg (by omega)]
  rw [Int.bmod_def]
  split <;> omega

/-- The length of a string is written in full. -/
def Value.Small : Value → Prop
  | .int _ => True
  | .str s => s.length < 2 ^ 32

theorem decodeValue_of_at {v : Value} (h : bytes.At p (encodeValue v)) (hv : v.Small) :
    decodeValue bytes p = some (v, p + (encodeValue v).length) := by
  cases v with
  | int n =>
    obtain ⟨htag, hrest⟩ := h.cons
    have hraw := getRange_of_at hrest
    rw [length_leBytes] at hraw
    simp only [decodeValue, htag, hraw, Option.map_some, encodeValue, List.length_cons,
      length_leBytes, ofLeBytes_leBytes (Canonical.bits_lt n), i64OfBits_bits]
  | str s =>
    obtain ⟨htag, hrest⟩ := h.cons
    obtain ⟨hlen, hs⟩ := hrest.append
    rw [length_u32Bytes] at hs
    simp only [decodeValue, htag, readU32_of_at hlen hv, getRange_of_at hs, encodeValue,
      List.length_cons, List.length_append, length_u32Bytes, Option.bind_eq_bind,
      Option.bind_some, Option.pure_def]
    congr 2
    omega

theorem decodeSet_of_at {keys : List (List UInt8)} {set : Finset (List UInt8)}
    (h : bytes.At p (keys.flatMap fun k => u32Bytes k.length ++ k))
    (hkeys : ∀ k ∈ keys, k.length < 2 ^ 32) :
    decodeSet bytes keys.length p set = some (keys.toFinset ∪ set) := by
  induction keys generalizing p set with
  | nil => rw [List.length_nil, decodeSet, List.toFinset_nil, Finset.empty_union]
  | cons k keys ih =>
    rw [List.flatMap_cons] at h
    obtain ⟨hfirst, hrest⟩ := h.append
    obtain ⟨hlen, hk⟩ := hfirst.append
    rw [List.length_append, length_u32Bytes, ← Nat.add_assoc] at hrest
    rw [length_u32Bytes] at hk
    obtain ⟨hsmall, hkeys⟩ := List.forall_mem_cons.mp hkeys
    simp only [List.length_cons, decodeSet, readU32_of_at hlen hsmall, getRange_of_at hk,
      Option.bind_eq_bind, Option.bind_some]
    rw [ih hrest hkeys, List.toFinset_cons, Finset.union_insert, Finset.insert_union]

/-- The strings of a set, and how many. -/
theorem decodeSet_encodeSet {set : Finset (List UInt8)} (h : bytes.At p (encodeSet set))
    (hset : ∀ k ∈ set, k.length < 2 ^ 32) : decodeSet bytes set.card p ∅ = some set := by
  have hkeys : ∀ k ∈ set.sort (· ≤ ·), k.length < 2 ^ 32 := fun k hk =>
    hset k ((Finset.mem_sort _).mp hk)
  have hdecode := @decodeSet_of_at _ _ _ ∅ h hkeys
  rwa [Finset.length_sort, Finset.sort_toFinset, Finset.union_empty] at hdecode

end Bytes

/-- Every length and every count an index writes is written in full. -/
def Index.Small : Index → Prop
  | .zoneMap z => ∀ b ∈ z.bounds, b.1.Small ∧ b.2.Small
  | .valueSet s => s.values.card < 2 ^ 32 ∧ ∀ k ∈ s.values, k.length < 2 ^ 32
  | .prefixSet s => s.prefixLen < 2 ^ 32 ∧ s.prefixes.card < 2 ^ 32 ∧
      ∀ k ∈ s.prefixes, k.length < 2 ^ 32

theorem ZoneMap.decode_encode {z : ZoneMap} (h : (Index.zoneMap z).Small) :
    ZoneMap.decode z.encode = some z := by
  obtain ⟨bounds⟩ := z
  cases bounds with
  | none => rfl
  | some b =>
    obtain ⟨lo, hi⟩ := b
    obtain ⟨hlo, hhi⟩ := h (lo, hi) rfl
    obtain ⟨hmagic, hrest⟩ := (List.at_zero (ZoneMap.encode ⟨some (lo, hi)⟩)).cons
    obtain ⟨htag, hvalues⟩ := hrest.cons
    obtain ⟨hmin, hmax⟩ := hvalues.append
    simp only [ZoneMap.decode, hmagic, htag, if_true, decodeValue_of_at hmin hlo,
      decodeValue_of_at hmax hhi, Option.bind_eq_bind, Option.bind_some, Option.pure_def]

theorem ValueSet.decode_encode {s : ValueSet} (h : (Index.valueSet s).Small) :
    ValueSet.decode s.encode = some s := by
  obtain ⟨hcard, hkeys⟩ := h
  obtain ⟨hmagic, hrest⟩ := (List.at_zero s.encode).cons
  obtain ⟨hcount, hset⟩ := hrest.append
  rw [length_u32Bytes] at hset
  simp only [ValueSet.decode, hmagic, if_true, readU32_of_at hcount hcard,
    decodeSet_encodeSet hset hkeys, Option.bind_eq_bind, Option.bind_some, Option.pure_def]

theorem PrefixSet.decode_encode {s : PrefixSet} (h : (Index.prefixSet s).Small) :
    PrefixSet.decode s.encode = some s := by
  obtain ⟨hlen, hcard, hkeys⟩ := h
  obtain ⟨hmagic, hrest⟩ := (List.at_zero s.encode).cons
  obtain ⟨hpl, hrest⟩ := hrest.append
  obtain ⟨hcount, hset⟩ := hrest.append
  rw [length_u32Bytes] at hcount hset
  rw [length_u32Bytes] at hset
  simp only [PrefixSet.decode, hmagic, if_true, readU32_of_at hpl hlen,
    readU32_of_at hcount hcard, decodeSet_encodeSet hset hkeys, Option.bind_eq_bind,
    Option.bind_some, Option.pure_def]

/-- **The encoding loses nothing.** -/
theorem Index.decode_encode {group : List (Option Value)} {prefixLen budget : Nat}
    {kind : IndexKind} {index : Index} (hbuild : Index.build group prefixLen budget kind = some index)
    (h : index.Small) : Index.decode index.encode kind = some index := by
  cases kind with
  | zoneMap =>
    cases hbuild
    rw [Index.decode, Index.encode, ZoneMap.decode_encode h, Option.map_some]
  | valueSet =>
    obtain ⟨s, -, rfl⟩ := Option.map_eq_some_iff.mp hbuild
    rw [Index.decode, Index.encode, ValueSet.decode_encode h, Option.map_some]
  | prefixSet =>
    obtain ⟨s, -, rfl⟩ := Option.map_eq_some_iff.mp hbuild
    rw [Index.decode, Index.encode, PrefixSet.decode_encode h, Option.map_some]

/-! ## 2. Zone maps -/

section Order

variable {o : Ordering} {u v w : Value}

/-- Before, and of the same type. -/
def Value.Before : Value → Value → Prop
  | .int x, .int y => x < y
  | .str x, .str y => x < y
  | _, _ => False

theorem Value.Before.trans (huv : u.Before v) (hvw : v.Before w) : u.Before w := by
  cases u with
  | int x =>
    cases v with
    | str y => cases huv
    | int y =>
      cases w with
      | str z => cases hvw
      | int z => exact (lt_trans huv hvw : x < z)
  | str x =>
    cases v with
    | int y => cases huv
    | str y =>
      cases w with
      | int z => cases hvw
      | str z => exact (lt_trans huv hvw : x < z)

theorem Value.Before.irrefl (v : Value) : ¬ v.Before v := by
  cases v with
  | int x => exact lt_irrefl x
  | str x => exact lt_irrefl x

theorem cmp?_eq_lt_iff : v.cmp? w = some .lt ↔ v.Before w := by
  cases v with
  | int x => cases w <;> simp [Value.cmp?, Value.Before, cmp, cmpUsing, ite_eq_iff]
  | str x => cases w <;> simp [Value.cmp?, Value.Before, cmp, cmpUsing, ite_eq_iff]

theorem cmp?_eq_gt_iff : v.cmp? w = some .gt ↔ w.Before v := by
  cases v with
  | int x =>
    cases w with
    | int y =>
      have hasymm : y < x → ¬ x < y := lt_asymm
      simpa [Value.cmp?, Value.Before, cmp, cmpUsing, ite_eq_iff] using hasymm
    | str y => simp [Value.cmp?, Value.Before]
  | str x =>
    cases w with
    | int y => simp [Value.cmp?, Value.Before]
    | str y =>
      have hasymm : y < x → ¬ x < y := lt_asymm
      simpa [Value.cmp?, Value.Before, cmp, cmpUsing, ite_eq_iff] using hasymm

/-- Two strict comparisons the same way. -/
theorem cmp?_trans (ho : o ≠ .eq) (huv : u.cmp? v = some o) (hvw : v.cmp? w = some o) :
    u.cmp? w = some o := by
  cases o with
  | eq => exact absurd rfl ho
  | lt => exact cmp?_eq_lt_iff.mpr ((cmp?_eq_lt_iff.mp huv).trans (cmp?_eq_lt_iff.mp hvw))
  | gt => exact cmp?_eq_gt_iff.mpr ((cmp?_eq_gt_iff.mp hvw).trans (cmp?_eq_gt_iff.mp huv))

theorem cmp?_self_ne (ho : o ≠ .eq) (v : Value) : v.cmp? v ≠ some o := by
  intro h
  cases o with
  | eq => exact ho rfl
  | lt => exact Value.Before.irrefl v (cmp?_eq_lt_iff.mp h)
  | gt => exact Value.Before.irrefl v (cmp?_eq_gt_iff.mp h)

end Order

namespace ZoneMap

variable {o : Ordering} {values : List Value} {min max v : Value}

/-- A bound is one that no value lies beyond, as far as the two compare. -/
def Bounds (o : Ordering) (values : List Value) (bound : Option Value) : Prop :=
  match bound with
  | none => values = []
  | some m => values ≠ [] ∧ ∀ v ∈ values, v.cmp? m ≠ some o

theorem Bounds.widen (ho : o ≠ .eq) {bound : Option Value} (h : Bounds o values bound) (v : Value) :
    Bounds o (values ++ [v]) (widen o bound v) := by
  have hself := cmp?_self_ne ho v
  have hne : values ++ [v] ≠ [] := List.append_ne_nil_of_right_ne_nil _ (List.cons_ne_nil v [])
  cases bound with
  | none =>
    obtain rfl : values = [] := h
    exact ⟨hne, fun w hw => by rwa [List.mem_singleton.mp hw]⟩
  | some m =>
    obtain ⟨-, hm⟩ := h
    rw [ZoneMap.widen]
    split
    · rename_i hbeyond
      refine ⟨hne, fun w hw => ?_⟩
      rcases List.mem_append.mp hw with hw | hw
      · exact fun hwv => hm w hw (cmp?_trans ho hwv hbeyond)
      · rwa [List.mem_singleton.mp hw]
    · rename_i hwithin
      refine ⟨hne, fun w hw => ?_⟩
      rcases List.mem_append.mp hw with hw | hw
      · exact hm w hw
      · rwa [List.mem_singleton.mp hw]

theorem Bounds.foldl (ho : o ≠ .eq) : Bounds o values (values.foldl (ZoneMap.widen o) none) := by
  induction values using List.reverseRecOn with
  | nil => rfl
  | append_singleton values v ih =>
    rw [List.foldl_append]
    exact ih.widen ho v

/-- The two bounds are found apart. -/
theorem foldl_widen (values : List Value) (a b : Option Value) :
    values.foldl (fun b v => (widen .lt b.1 v, widen .gt b.2 v)) (a, b) =
      (values.foldl (widen .lt) a, values.foldl (widen .gt) b) := by
  induction values generalizing a b with
  | nil => rfl
  | cons v values ih => exact ih _ _

/-- **What a zone map says of its group**: it is empty, or every value lies within the bounds, as
far as it compares with them. -/
theorem build_cases (group : List (Option Value)) :
    ((build group).bounds = none ∧ present group = []) ∨
      ∃ min max, (build group).bounds = some (min, max) ∧
        ∀ v ∈ present group, v.cmp? min ≠ some .lt ∧ v.cmp? max ≠ some .gt := by
  have hmin := @Bounds.foldl .lt (present group) (by decide)
  have hmax := @Bounds.foldl .gt (present group) (by decide)
  simp only [build, foldl_widen]
  cases hlo : (present group).foldl (widen .lt) none with
  | none =>
    rw [hlo] at hmin
    exact .inl ⟨rfl, hmin⟩
  | some min =>
    rw [hlo] at hmin
    cases hhi : (present group).foldl (widen .gt) none with
    | none =>
      rw [hhi] at hmax
      exact absurd hmax hmin.1
    | some max =>
      rw [hhi] at hmax
      exact .inr ⟨min, max, rfl, fun v hv => ⟨hmin.2 v hv, hmax.2 v hv⟩⟩

theorem pointDecision_eq_noMatch (h : pointDecision v min max = .noMatch) :
    v.cmp? min = some .lt ∨ v.cmp? max = some .gt := by
  unfold pointDecision at h
  split at h
  · exact .inl ‹_›
  · exact .inr ‹_›
  · cases h
  · cases h

/-- The loop over an `IN` comes to `NoMatch` through every value. -/
theorem inDecision_eq_noMatch {vs : List Value} {anyMaybe : Bool}
    (h : inDecision min max vs anyMaybe = .noMatch) :
    anyMaybe = false ∧ ∀ v ∈ vs, pointDecision v min max = .noMatch := by
  induction vs generalizing anyMaybe with
  | nil =>
    cases anyMaybe with
    | true => cases h
    | false => exact ⟨rfl, fun v hv => by cases hv⟩
  | cons v vs ih =>
    rw [inDecision] at h
    split at h
    · rename_i hv
      obtain ⟨hany, hvs⟩ := ih h
      exact ⟨hany, List.forall_mem_cons.mpr ⟨hv, hvs⟩⟩
    · cases h
    · exact absurd (ih h).1 (by decide)

/-- The bytes of `prefix_upper`: up to the last one below `0xff`, and that one incremented. -/
theorem prefixUpper_eq_some {p u : List UInt8} (h : prefixUpper p = some u) :
    ∃ q c t, p = q ++ c :: t ∧ c < c + 1 ∧ u = q ++ [c + 1] := by
  have hrev : ∀ {r w : List UInt8}, upperRev r = some w →
      ∃ t c q, r = t ++ c :: q ∧ c < c + 1 ∧ w = (c + 1) :: q := by
    intro r
    induction r with
    | nil => exact fun h => by cases h
    | cons last rest ih =>
      intro w h
      rw [upperRev] at h
      split at h
      · rename_i hlast
        cases h
        refine ⟨[], last, rest, rfl, ?_, rfl⟩
        rw [UInt8.lt_iff_toNat_lt] at hlast ⊢
        have hlt : last.toNat < 255 := hlast
        rw [UInt8.toNat_add, Nat.mod_eq_of_lt (by
          show last.toNat + 1 < 256
          omega)]
        exact Nat.lt_succ_self _
      · obtain ⟨t, c, q, rfl, hc, rfl⟩ := ih h
        exact ⟨last :: t, c, q, rfl, hc, rfl⟩
  obtain ⟨w, hw, rfl⟩ := Option.map_eq_some_iff.mp h
  obtain ⟨t, c, q, hr, hc, rfl⟩ := hrev hw
  refine ⟨q.reverse, c, t.reverse, ?_, hc, List.reverse_cons⟩
  have hp := congrArg List.reverse hr
  rwa [List.reverse_reverse, List.reverse_append, List.reverse_cons, List.append_assoc] at hp

/-- Everything that starts with the prefix lies below. -/
theorem lt_prefixUpper {p u s : List UInt8} (h : prefixUpper p = some u) (hs : p <+: s) : s < u := by
  obtain ⟨q, c, t, rfl, hc, rfl⟩ := prefixUpper_eq_some h
  obtain ⟨r, rfl⟩ := hs
  rw [List.append_assoc, List.cons_append]
  exact List.append_left_lt (List.cons_lt_cons_iff.mpr (.inl hc))

theorem matches_range {lo hi : Value} (h : Matches v (.range lo hi)) :
    (∃ x l u, v = .int x ∧ lo = .int l ∧ hi = .int u ∧ l ≤ x ∧ x ≤ u) ∨
      ∃ x l u, v = .str x ∧ lo = .str l ∧ hi = .str u ∧ l ≤ x ∧ x ≤ u := by
  cases v <;> cases lo <;> cases hi <;> simp_all [Matches]

/-- What is beyond an end of the range is beyond every value in it. -/
theorem matches_range_before {lo hi w : Value} (h : Matches v (.range lo hi)) :
    (hi.Before w → v.Before w) ∧ (w.Before lo → w.Before v) := by
  rcases matches_range h with ⟨x, l, u, rfl, rfl, rfl, hlo, hhi⟩ | ⟨x, l, u, rfl, rfl, rfl, hlo, hhi⟩
  · cases w with
    | str w => exact ⟨fun hw => hw.elim, fun hw => hw.elim⟩
    | int w => exact ⟨fun hw => (lt_of_le_of_lt hhi hw : x < w),
        fun hw => (lt_of_lt_of_le hw hlo : w < x)⟩
  · cases w with
    | int w => exact ⟨fun hw => hw.elim, fun hw => hw.elim⟩
    | str w => exact ⟨fun hw => (lt_of_le_of_lt hhi hw : x < w),
        fun hw => (lt_of_lt_of_le hw hlo : w < x)⟩

/-- **A zone map hides nothing.** -/
theorem evaluate_sound {group : List (Option Value)} {pred : Predicate}
    (h : (build group).evaluate pred = .noMatch) : ∀ v ∈ present group, ¬ Matches v pred := by
  rcases build_cases group with ⟨-, hempty⟩ | ⟨min, max, hbounds, hwithin⟩
  · rw [hempty]
    exact fun v hv => by cases hv
  intro v hv hmatches
  obtain ⟨hmin, hmax⟩ := hwithin v hv
  rw [evaluate, hbounds] at h
  have hpoint : pointDecision v min max ≠ .noMatch := fun hno =>
    (pointDecision_eq_noMatch hno).elim hmin hmax
  cases pred with
  | eq w =>
    obtain rfl : v = w := hmatches
    exact hpoint h
  | isIn ws => exact hpoint ((inDecision_eq_noMatch h).2 v hmatches)
  | range lo hi =>
    have hends : hi.cmp? min = some .lt ∨ lo.cmp? max = some .gt := by
      simp only at h
      split at h
      · exact .inl ‹_›
      · exact .inr ‹_›
      · cases h
      · cases h
    rw [cmp?_eq_lt_iff, cmp?_eq_gt_iff] at hends
    rcases hends with hbelow | habove
    · exact hmin (cmp?_eq_lt_iff.mpr ((matches_range_before hmatches).1 hbelow))
    · exact hmax (cmp?_eq_gt_iff.mpr ((matches_range_before hmatches).2 habove))
  | startsWith p =>
    cases v with
    | int x => cases hmatches
    | str x =>
      cases min with
      | int lo => cases h
      | str lo =>
        cases max with
        | int hi => cases h
        | str hi =>
          have hp : p <+: x := hmatches
          simp only [prefixDecision] at h
          split at h
          · cases h
          · split at h
            · rename_i hbelow
              -- what starts with `p` is not below `p`
              have hx : ¬ x < p := hp.le
              exact hmax (cmp?_eq_gt_iff.mpr (lt_of_lt_of_le hbelow (not_lt.mp hx) : hi < x))
            · cases hu : prefixUpper p with
              | none =>
                rw [hu] at h
                cases h
              | some u =>
                rw [hu, Option.any_some] at h
                split at h
                · rename_i habove
                  have hle : u ≤ lo := of_decide_eq_true habove
                  have hlt : x < lo := lt_of_lt_of_le (lt_prefixUpper hu hp) hle
                  exact hmin (cmp?_eq_lt_iff.mpr hlt)
                · cases h

end ZoneMap

/-! ## 3. Value sets -/

theorem insertWithin_eq_some {budget bytes bytes' : Nat} {set set' : Finset (List UInt8)}
    {k : List UInt8} (h : insertWithin budget set bytes k = some (set', bytes')) :
    set' = insert k set := by
  unfold insertWithin at h
  split at h
  · rename_i hk
    cases h
    exact (Finset.insert_eq_of_mem hk).symm
  · split at h
    · cases h
    · cases h
      rfl

/-- A set that was built has every key. -/
theorem mem_of_buildSet {budget : Nat} {keys : List (List UInt8)} {set set' : Finset (List UInt8)}
    {bytes : Nat} (h : buildSet budget keys set bytes = some set') :
    set ⊆ set' ∧ ∀ k ∈ keys, k ∈ set' := by
  induction keys generalizing set bytes with
  | nil =>
    cases h
    exact ⟨Finset.Subset.refl _, fun k hk => by cases hk⟩
  | cons k keys ih =>
    rw [buildSet, Option.bind_eq_bind, Option.bind_eq_some_iff] at h
    obtain ⟨⟨set₁, bytes₁⟩, hinsert, hrest⟩ := h
    obtain rfl := insertWithin_eq_some hinsert
    obtain ⟨hsub, hkeys⟩ := ih hrest
    refine ⟨(Finset.subset_insert k set).trans hsub, List.forall_mem_cons.mpr ⟨?_, hkeys⟩⟩
    exact hsub (Finset.mem_insert_self k set)

/-- **A value set hides nothing.** -/
theorem ValueSet.evaluate_sound {group : List (Option Value)} {budget : Nat} {s : ValueSet}
    {pred : Predicate} (hbuild : ValueSet.build group budget = some s)
    (h : s.evaluate pred = .noMatch) : ∀ v ∈ present group, ¬ Matches v pred := by
  obtain ⟨set, hset, rfl⟩ := Option.map_eq_some_iff.mp hbuild
  have hmem : ∀ v ∈ present group, encodeValue v ∈ set := fun v hv =>
    (mem_of_buildSet hset).2 _ (List.mem_map_of_mem hv)
  intro v hv hmatches
  cases pred with
  | eq w =>
    obtain rfl : v = w := hmatches
    rw [ValueSet.evaluate, if_pos (hmem v hv)] at h
    cases h
  | isIn ws =>
    have hany : (ws.any fun w => encodeValue w ∈ set) = true :=
      List.any_eq_true.mpr ⟨v, hmatches, decide_eq_true (hmem v hv)⟩
    rw [ValueSet.evaluate, if_pos hany] at h
    cases h
  | range lo hi => cases h
  | startsWith p => cases h

/-! ## 4. Prefix sets -/

namespace PrefixSet

/-- A set that was built has the key of every value, and every value is a string. -/
theorem mem_of_collect {prefixLen budget : Nat} {values : List Value}
    {set set' : Finset (List UInt8)} {bytes : Nat}
    (h : collect prefixLen budget values set bytes = some set') :
    set ⊆ set' ∧ ∀ v ∈ values, ∃ s, v = .str s ∧ prefixKey s prefixLen ∈ set' := by
  induction values generalizing set bytes with
  | nil =>
    cases h
    exact ⟨Finset.Subset.refl _, fun v hv => by cases hv⟩
  | cons v values ih =>
    cases v with
    | int n => cases h
    | str s =>
      rw [collect, Option.bind_eq_bind, Option.bind_eq_some_iff] at h
      obtain ⟨⟨set₁, bytes₁⟩, hinsert, hrest⟩ := h
      obtain rfl := insertWithin_eq_some hinsert
      obtain ⟨hsub, hvalues⟩ := ih hrest
      refine ⟨(Finset.subset_insert _ set).trans hsub, List.forall_mem_cons.mpr ⟨?_, hvalues⟩⟩
      exact ⟨s, rfl, hsub (Finset.mem_insert_self _ set)⟩

/-- A prefix that is long enough determines the key. -/
theorem prefixKey_of_start {p s : List UInt8} {l : Nat} (hl : l ≤ p.length) (h : p <+: s) :
    prefixKey s l = p.take l := by
  obtain ⟨t, rfl⟩ := h
  have hmin : min (p ++ t).length l = l := by
    rw [List.length_append]
    omega
  rw [prefixKey, hmin, List.take_append_of_le_length hl]

/-- **A prefix set hides nothing.** -/
theorem evaluate_sound {group : List (Option Value)} {prefixLen budget : Nat} {s : PrefixSet}
    {pred : Predicate} (hbuild : build group prefixLen budget = some s)
    (h : s.evaluate pred = .noMatch) : ∀ v ∈ present group, ¬ Matches v pred := by
  obtain ⟨set, hset, rfl⟩ := Option.map_eq_some_iff.mp hbuild
  intro v hv hmatches
  obtain ⟨x, rfl, hx⟩ := (mem_of_collect hset).2 v hv
  cases pred with
  | eq w =>
    obtain rfl : Value.str x = w := hmatches
    rw [evaluate, if_pos hx] at h
    cases h
  | isIn ws => cases h
  | range lo hi => cases h
  | startsWith p =>
    have hp : p <+: x := hmatches
    rw [evaluate] at h
    split at h
    · cases h
    · rename_i hlen
      rw [if_pos (prefixKey_of_start (not_lt.mp hlen) hp ▸ hx)] at h
      cases h

end PrefixSet

/-! ## 5. Sidecars -/

theorem Index.evaluate_sound {group : List (Option Value)} {prefixLen budget : Nat}
    {kind : IndexKind} {index : Index} {pred : Predicate}
    (hbuild : Index.build group prefixLen budget kind = some index)
    (h : index.evaluate pred = .noMatch) : ∀ v ∈ present group, ¬ Matches v pred := by
  cases kind with
  | zoneMap =>
    cases hbuild
    exact ZoneMap.evaluate_sound h
  | valueSet =>
    obtain ⟨s, hs, rfl⟩ := Option.map_eq_some_iff.mp hbuild
    exact ValueSet.evaluate_sound hs h
  | prefixSet =>
    obtain ⟨s, hs, rfl⟩ := Option.map_eq_some_iff.mp hbuild
    exact PrefixSet.evaluate_sound hs h

/-- **Skip indices are sound.**  An index of any kind that was built of a group, at any budget, is
read back as it was written; its payload has the verdict `NoMatch` only where no value of the group
satisfies the predicate; and a payload with another digest has no verdict, nor has one that is
another one, where the hash tells the two apart. -/
theorem skipIndex_sound (hash : List UInt8 → Digest) (group : List (Option Value))
    (prefixLen budget : Nat) (kind : IndexKind) (index : Index)
    (hbuild : Index.build group prefixLen budget kind = some index) (hsmall : index.Small) :
    Index.decode index.encode kind = some index ∧
    (∀ pred, evaluate hash kind index.encode (payloadDigest hash index.encode) pred = .noMatch →
      ∀ v ∈ present group, ¬ Matches v pred) ∧
    (∀ payload pred, payloadDigest hash payload ≠ payloadDigest hash index.encode →
      evaluate hash kind payload (payloadDigest hash index.encode) pred = .unknown) ∧
    ∀ (B : Set (List UInt8)), Set.InjOn hash B → index.encode ∈ B →
      ∀ payload ∈ B, payload ≠ index.encode → ∀ pred,
        evaluate hash kind payload (payloadDigest hash index.encode) pred = .unknown := by
  have hdecode := Index.decode_encode hbuild hsmall
  have hdiffers : ∀ payload pred,
      payloadDigest hash payload ≠ payloadDigest hash index.encode →
        evaluate hash kind payload (payloadDigest hash index.encode) pred = .unknown :=
    fun payload pred hne => if_pos hne
  refine ⟨hdecode, fun pred h => ?_, hdiffers, fun B hB hindex payload hpayload hne pred => ?_⟩
  · rw [evaluate, if_neg (not_not.mpr rfl), hdecode, Option.map_some, Option.getD_some] at h
    exact Index.evaluate_sound hbuild h
  · refine hdiffers payload pred fun heq => hne (hB hpayload hindex ?_)
    exact hex_injective heq

/-- A group of strings, one of them null and one of them ending in `0xff`. -/
def someStrings : List (Option Value) := [some (.str [97, 0xff]), none, some (.str [97, 98, 99])]

/-- A hash that writes the bytes down. -/
def noHash (bytes : List UInt8) : Digest := bytes

/-- Its zone map rules out everything that starts with `b`. -/
theorem skipIndex_sound_strings :
    evaluate noHash .zoneMap (ZoneMap.build someStrings).encode
      (payloadDigest noHash (ZoneMap.build someStrings).encode) (.startsWith [98]) = .noMatch ∧
    ∀ v ∈ present someStrings, ¬ Matches v (.startsWith [98]) := by
  have hsmall : (Index.zoneMap (ZoneMap.build someStrings)).Small := by
    rintro ⟨lo, hi⟩ hb
    cases hb
    exact ⟨by show _ < _; decide, by show _ < _; decide⟩
  have hno : evaluate noHash .zoneMap (ZoneMap.build someStrings).encode
      (payloadDigest noHash (ZoneMap.build someStrings).encode) (.startsWith [98]) = .noMatch := by
    decide +kernel
  exact ⟨hno, (skipIndex_sound noHash someStrings 0 0 .zoneMap _ rfl hsmall).2.1 _ hno⟩

end Ukiel.SkipIndex
