/-
# The realization of the membership graph

`realize` hands each tenant, the largest degree first, the parts that have the most capacity left,
and then swaps edges at random.  A bitset of words stands beside the edges, and answers whether an
edge is already there.

* §1 the code;
* §2 the bitset;
* §3 the placing: each step is the greedy choice, so that the placing succeeds on every sequence
  that meets the condition of Gale and Ryser, and the edges it places are the degrees;
* §4 the swaps, whatever the generator draws: both sides keep their degrees, and the graph stays
  simple;
* §5 what `realize` returns, and what `repair` gives it.
-/
import Ukiel.Synth.Topology

namespace Ukiel.Synth

/-! ## 1. The code -/

/-- `x as u32`. -/
def asU32 (x : ℕ) : ℕ := x % 2 ^ 32

/-- The words of each tenant: `p.div_ceil(64)`. -/
def wordsFor (p : ℕ) : ℕ := (p + 63) / 64

def has (words : ℕ) (bits : List (BitVec 64)) (ti pi : ℕ) : Bool :=
  (bits.getD (ti * words + pi / 64) 0 >>> (pi % 64)) &&& 1#64 == 1#64

def setBit (words : ℕ) (bits : List (BitVec 64)) (ti pi : ℕ) : List (BitVec 64) :=
  bits.modify (ti * words + pi / 64) (· ||| 1#64 <<< (pi % 64))

def clearBit (words : ℕ) (bits : List (BitVec 64)) (ti pi : ℕ) : List (BitVec 64) :=
  bits.modify (ti * words + pi / 64) (· &&& ~~~(1#64 <<< (pi % 64)))

/-- What the placing keeps. -/
structure Placing where
  capacity : List ℕ
  members : List (List ℕ)
  bits : List (BitVec 64)
  slot : List ℕ

namespace Placing

def start (partDegrees : List ℕ) (t : ℕ) : Placing where
  capacity := partDegrees
  members := List.replicate partDegrees.length []
  bits := List.replicate (t * wordsFor partDegrees.length) 0
  slot := List.range partDegrees.length

/-- One edge. -/
def place (words ti : ℕ) (s : Placing) (pi : ℕ) : Placing where
  capacity := s.capacity.modify pi (· - 1)
  members := s.members.modify pi (· ++ [asU32 ti])
  bits := setBit words s.bits ti pi
  slot := s.slot

/-- The parts, those with the most capacity left first. -/
def fullest (p : ℕ) (s : Placing) : List ℕ :=
  s.slot.sortDescBy fun pi => toLex (s.capacity.getD pi 0, p - pi)

/-- The edges of one tenant. -/
def serveTenant (p : ℕ) (tenantDegrees : List ℕ) (s : Placing) (ti : ℕ) :
    Except TopologyError Placing :=
  let need := tenantDegrees.getD ti 0
  let slot := s.fullest p
  if p < need ∨ ∃ pi ∈ slot.take need, s.capacity.getD pi 0 = 0 then
    .error (.notBigraphic s!"tenant needs {need} parts but only {(slot.filter fun pi => 0 < s.capacity.getD pi 0).length} have capacity left")
  else
    .ok ((slot.take need).foldl (place (wordsFor p) ti) { s with slot := slot })

end Placing

/-- One attempt to swap the edges at `a` and `b`. -/
def swapEdges (words a b : ℕ) (s : List (ℕ × ℕ) × List (BitVec 64)) :
    List (ℕ × ℕ) × List (BitVec 64) :=
  let (edges, bits) := s
  match edges[a]?, edges[b]? with
  | some (t1, p1), some (t2, p2) =>
    if t1 = t2 ∨ p1 = p2 then s
    else if has words bits t1 p2 ∨ has words bits t2 p1 then s
    else
      let bits := clearBit words bits t1 p1
      let bits := clearBit words bits t2 p2
      let bits := setBit words bits t1 p2
      let bits := setBit words bits t2 p1
      ((edges.set a (t1, p2)).set b (t2, p1), bits)
  | _, _ => s -- `below` answers below the number of edges

/-- The attempts that are left. -/
def rewire (words : ℕ) : ℕ → StableRng → List (ℕ × ℕ) × List (BitVec 64) → List (ℕ × ℕ)
  | 0, _, s => s.1
  | attempts + 1, rng, s =>
    let a := rng.below s.1.length
    let b := a.2.below s.1.length
    rewire words attempts b.2 (swapEdges words a.1 b.1 s)

/-- The edges of the placing, part by part. -/
def edgeList (members : List (List ℕ)) : List (ℕ × ℕ) :=
  members.zipIdx.flatMap fun m => m.1.map (·, asU32 m.2)

/-- The edges after the swaps: ten attempts an edge. -/
def swapped (p : ℕ) (seed : UInt64) (s : Placing) : List (ℕ × ℕ) :=
  let edges := edgeList s.members
  rewire (wordsFor p) (edges.length * 10) (StableRng.stream seed "edge-swap") (edges, s.bits)

/-- The members of each part, ascending. -/
def collect (p : ℕ) (edges : List (ℕ × ℕ)) : List (List ℕ) :=
  let out := edges.foldl (fun out e => out.modify e.2 (· ++ [e.1])) (List.replicate p [])
  out.map (·.insertionSort (· ≤ ·))

/-- The members of each part. -/
def realize (partDegrees tenantDegrees : List ℕ) (seed : UInt64) :
    Except TopologyError (List (List ℕ)) := do
  let p := partDegrees.length
  let t := tenantDegrees.length
  let s ← (descending tenantDegrees).foldlM (Placing.serveTenant p tenantDegrees)
    (Placing.start partDegrees t)
  if ∃ c ∈ s.capacity, c ≠ 0 then
    .error (.notBigraphic "part capacities left unfilled: the two margins do not agree")
  else
    .ok (collect p (swapped p seed s))

theorem realize_eq_ok {partDegrees tenantDegrees : List ℕ} {seed : UInt64}
    {graph : List (List ℕ)} : realize partDegrees tenantDegrees seed = .ok graph ↔
      ∃ s, (descending tenantDegrees).foldlM
          (Placing.serveTenant partDegrees.length tenantDegrees)
          (Placing.start partDegrees tenantDegrees.length) = .ok s ∧
        (∀ c ∈ s.capacity, c = 0) ∧
        collect partDegrees.length (swapped partDegrees.length seed s) = graph := by
  simp only [realize, Except.bind_eq_ok_iff]
  refine exists_congr fun s => and_congr_right fun _ => ?_
  split
  · next h =>
    obtain ⟨c, hc, hne⟩ := h
    exact iff_of_false (fun heq => nomatch heq) fun h => hne (h.1 c hc)
  · next h =>
    push Not at h
    rw [Except.ok.injEq]
    exact ⟨fun heq => ⟨h, heq⟩, fun h => h.2⟩

/-! ## 2. The bitset -/

theorem has_eq_getLsbD (words : ℕ) (bits : List (BitVec 64)) (ti pi : ℕ) :
    has words bits ti pi = (bits.getD (ti * words + pi / 64) 0).getLsbD (pi % 64) := by
  rw [has, BitVec.and_one_eq_setWidth_ofBool_getLsbD, BitVec.getLsbD_ushiftRight, Nat.add_zero]
  cases (bits.getD (ti * words + pi / 64) 0).getLsbD (pi % 64) <;> rfl

/-- Two places of the bitset are one only when tenant and part agree. -/
theorem place_inj {words ti pi ti' pi' : ℕ} (hpi : pi / 64 < words) (hpi' : pi' / 64 < words)
    (hword : ti * words + pi / 64 = ti' * words + pi' / 64) (hbit : pi % 64 = pi' % 64) :
    ti = ti' ∧ pi = pi' := by
  have hpos : 0 < words := Nat.zero_lt_of_lt hpi
  have hti : ti = ti' := by
    have hdiv := congrArg (· / words) hword
    simpa [Nat.mul_comm _ words, Nat.mul_add_div hpos, Nat.div_eq_of_lt, hpi, hpi'] using hdiv
  subst hti
  exact ⟨rfl, by omega⟩

section Bits

variable {words ti pi ti' pi' : ℕ} {bits : List (BitVec 64)}

theorem has_modify (f : BitVec 64 → BitVec 64) (hin : ti * words + pi / 64 < bits.length) :
    has words (bits.modify (ti * words + pi / 64) f) ti' pi' =
      if ti * words + pi / 64 = ti' * words + pi' / 64 then
        (f (bits.getD (ti' * words + pi' / 64) 0)).getLsbD (pi' % 64)
      else has words bits ti' pi' := by
  simp only [has_eq_getLsbD, List.getD_eq_getElem?_getD, List.getElem?_modify]
  split
  · next hword =>
    rw [hword] at hin
    simp [List.getElem?_eq_getElem hin]
  · simp

theorem getLsbD_mask (k j : ℕ) (hk : k < 64) :
    (1#64 <<< k).getLsbD j = decide (j = k) := by
  rw [← BitVec.twoPow_eq, BitVec.getLsbD_twoPow]
  simp [hk, eq_comm]

theorem has_setBit (hpi : pi / 64 < words) (hpi' : pi' / 64 < words)
    (hin : ti * words + pi / 64 < bits.length) :
    has words (setBit words bits ti pi) ti' pi' =
      (has words bits ti' pi' || decide (ti' = ti ∧ pi' = pi)) := by
  have hplace : ti' * words + pi' / 64 = ti * words + pi / 64 → pi' % 64 = pi % 64 →
      ti' = ti ∧ pi' = pi := place_inj hpi' hpi
  rw [setBit, has_modify _ hin]
  split
  · next hword =>
    rw [BitVec.getLsbD_or, getLsbD_mask _ _ (Nat.mod_lt _ (by decide)), has_eq_getLsbD]
    congr 2
    exact propext ⟨fun hbit => hplace hword.symm hbit, fun h => by rw [h.2]⟩
  · next hword =>
    rw [decide_eq_false, Bool.or_false]
    rintro ⟨rfl, rfl⟩
    exact hword rfl

theorem has_clearBit (hpi : pi / 64 < words) (hpi' : pi' / 64 < words)
    (hin : ti * words + pi / 64 < bits.length) :
    has words (clearBit words bits ti pi) ti' pi' =
      (has words bits ti' pi' && !decide (ti' = ti ∧ pi' = pi)) := by
  have hplace : ti' * words + pi' / 64 = ti * words + pi / 64 → pi' % 64 = pi % 64 →
      ti' = ti ∧ pi' = pi := place_inj hpi' hpi
  rw [clearBit, has_modify _ hin]
  split
  · next hword =>
    rw [BitVec.getLsbD_and, BitVec.getLsbD_not, getLsbD_mask _ _ (Nat.mod_lt _ (by decide)),
      has_eq_getLsbD, decide_eq_true (Nat.mod_lt _ (by decide)), Bool.true_and]
    congr 3
    exact propext ⟨fun hbit => hplace hword.symm hbit, fun h => by rw [h.2]⟩
  · next hword =>
    rw [decide_eq_false, Bool.not_false, Bool.and_true]
    rintro ⟨rfl, rfl⟩
    exact hword rfl

@[simp] theorem length_setBit : (setBit words bits ti pi).length = bits.length :=
  List.length_modify ..

@[simp] theorem length_clearBit : (clearBit words bits ti pi).length = bits.length :=
  List.length_modify ..

theorem div_lt_wordsFor {p : ℕ} (hpi : pi < p) : pi / 64 < wordsFor p := by
  unfold wordsFor
  omega

/-- The place of an edge is a place of the bitset. -/
theorem place_lt {t : ℕ} (hti : ti < t) (hpi : pi / 64 < words) :
    ti * words + pi / 64 < t * words := by
  have := Nat.mul_le_mul_right words (Nat.succ_le_of_lt hti)
  rw [Nat.succ_mul] at this
  omega

end Bits

/-! ## 3. The placing -/

section Placing

variable {partDegrees tenantDegrees : List ℕ} {t ti pi : ℕ} {s s' : Placing}

/-- The edges that were placed, in their order, are what the state says. -/
structure Placed (partDegrees : List ℕ) (t : ℕ) (log : List (ℕ × ℕ)) (s : Placing) : Prop where
  slot : s.slot.Perm (List.range partDegrees.length)
  length : s.capacity.length = partDegrees.length
  capacity : ∀ j, s.capacity.getD j 0 + (log.map Prod.snd).count j = partDegrees.getD j 0
  members : s.members = (List.replicate partDegrees.length []).scatter
    (log.map fun e => (asU32 e.1, e.2))
  bits : s.bits.length = t * wordsFor partDegrees.length
  has : ∀ e ∈ log, has (wordsFor partDegrees.length) s.bits e.1 e.2
  lt : ∀ e ∈ log, e.1 < t ∧ e.2 < partDegrees.length
  nodup : log.Nodup

theorem placed_start (partDegrees : List ℕ) (t : ℕ) :
    Placed partDegrees t [] (Placing.start partDegrees t) where
  slot := .refl _
  length := rfl
  capacity := fun _ => rfl
  members := rfl
  bits := List.length_replicate
  has := fun _ h => absurd h List.not_mem_nil
  lt := fun _ h => absurd h List.not_mem_nil
  nodup := .nil

theorem getD_modify_pred (l : List ℕ) (i j : ℕ) :
    (l.modify i (· - 1)).getD j 0 = if i = j then l.getD j 0 - 1 else l.getD j 0 := by
  rw [List.getD_eq_getElem?_getD, List.getElem?_modify, List.getD_eq_getElem?_getD]
  cases l[j]? <;> split <;> rfl

/-- One more edge, from a part that has something left. -/
theorem Placed.place {log : List (ℕ × ℕ)} (h : Placed partDegrees t log s) (hti : ti < t)
    (hpi : pi < partDegrees.length) (hnew : (ti, pi) ∉ log) (hleft : 0 < s.capacity.getD pi 0) :
    Placed partDegrees t (log ++ [(ti, pi)])
      (s.place (wordsFor partDegrees.length) ti pi) where
  slot := h.slot
  length := (List.length_modify ..).trans h.length
  capacity := by
    intro j
    have hj := h.capacity j
    rw [Placing.place, getD_modify_pred, List.map_append, List.count_append]
    simp only [List.map_cons, List.map_nil, List.count_singleton, beq_iff_eq]
    split
    · next heq =>
      subst heq
      omega
    · omega
  members := by
    rw [Placing.place, h.members, List.map_append, List.scatter_append]
    rfl
  bits := length_setBit.trans h.bits
  has := by
    have hin := h.bits ▸ place_lt hti (div_lt_wordsFor hpi)
    intro e he
    obtain he | he := List.mem_append.mp he
    · rw [Placing.place, has_setBit (div_lt_wordsFor hpi) (div_lt_wordsFor (h.lt e he).2) hin,
        h.has e he, Bool.true_or]
    · obtain rfl := List.mem_singleton.mp he
      rw [Placing.place, has_setBit (div_lt_wordsFor hpi) (div_lt_wordsFor hpi) hin]
      simp
  lt := by
    intro e he
    obtain he | he := List.mem_append.mp he
    · exact h.lt e he
    · obtain rfl := List.mem_singleton.mp he
      exact ⟨hti, hpi⟩
  nodup := by
    refine h.nodup.append (List.nodup_singleton _) fun e he he' => ?_
    obtain rfl := List.mem_singleton.mp he'
    exact hnew he

/-- The edges of one tenant. -/
theorem Placed.foldl_place (hti : ti < t) : ∀ {chosen : List ℕ} {log : List (ℕ × ℕ)}
    {s : Placing}, Placed partDegrees t log s → chosen.Nodup →
      (∀ pi ∈ chosen, pi < partDegrees.length ∧ (ti, pi) ∉ log ∧ 0 < s.capacity.getD pi 0) →
      Placed partDegrees t (log ++ chosen.map (ti, ·))
        (chosen.foldl (Placing.place (wordsFor partDegrees.length) ti) s)
  | [], log, s, h, _, _ => by simpa using h
  | pi :: chosen, log, s, h, hnodup, hchosen => by
    obtain ⟨hfresh, hnodup⟩ := List.nodup_cons.mp hnodup
    obtain ⟨hpi, hnew, hleft⟩ := hchosen pi List.mem_cons_self
    have hrest := (h.place hti hpi hnew hleft).foldl_place hti hnodup fun pj hpj => ?_
    · rwa [List.append_assoc] at hrest
    · obtain ⟨hlt, hnew', hleft'⟩ := hchosen pj (List.mem_cons_of_mem pi hpj)
      have hne : pi ≠ pj := by
        rintro rfl
        exact hfresh hpj
      refine ⟨hlt, ?_, ?_⟩
      · rw [List.mem_append, List.mem_singleton, Prod.mk.injEq]
        exact not_or.mpr ⟨hnew', fun h => hne h.2.symm⟩
      · rwa [Placing.place, getD_modify_pred, if_neg hne]

theorem foldl_place_capacity (words ti : ℕ) : ∀ {chosen : List ℕ} {s : Placing}, chosen.Nodup →
    ((chosen.foldl (Placing.place words ti) s).capacity.getD · 0) =
      serve chosen.toFinset (s.capacity.getD · 0)
  | [], s, _ => by
    funext j
    simp [serve]
  | pi :: chosen, s, hnodup => by
    obtain ⟨hfresh, hnodup⟩ := List.nodup_cons.mp hnodup
    funext j
    have ih := congrFun (foldl_place_capacity words ti (s := s.place words ti pi) hnodup) j
    rw [List.foldl_cons]
    refine ih.trans ?_
    simp only [serve, Placing.place, getD_modify_pred, List.mem_toFinset, List.mem_cons]
    by_cases hj : j = pi
    · subst hj
      simp [hfresh]
    · simp [hj, Ne.symm hj]

theorem foldl_place_frame (words ti : ℕ) (chosen : List ℕ) : ∀ s : Placing,
    (chosen.foldl (Placing.place words ti) s).slot = s.slot ∧
      (chosen.foldl (Placing.place words ti) s).capacity.length = s.capacity.length := by
  induction chosen with
  | nil => exact fun _ => ⟨rfl, rfl⟩
  | cons pi chosen ih =>
    intro s
    obtain ⟨hslot, hlength⟩ := ih (s.place words ti pi)
    exact ⟨hslot, hlength.trans (List.length_modify ..)⟩

/-! ### The parts of one tenant -/

/-- The parts that serve the tenant. -/
def Placing.chosen (p : ℕ) (tenantDegrees : List ℕ) (s : Placing) (ti : ℕ) : List ℕ :=
  (s.fullest p).take (tenantDegrees.getD ti 0)

theorem serveTenant_eq_ok {p : ℕ} : s.serveTenant p tenantDegrees ti = .ok s' ↔
    (tenantDegrees.getD ti 0 ≤ p ∧ ∀ pi ∈ s.chosen p tenantDegrees ti, 0 < s.capacity.getD pi 0) ∧
      (s.chosen p tenantDegrees ti).foldl (Placing.place (wordsFor p) ti)
        { s with slot := s.fullest p } = s' := by
  unfold Placing.serveTenant Placing.chosen
  simp only
  split
  · next h =>
    refine iff_of_false (fun heq => nomatch heq) ?_
    rintro ⟨⟨hneed, hleft⟩, -⟩
    obtain h | ⟨pi, hpi, hzero⟩ := h
    · exact absurd hneed (Nat.not_le.mpr h)
    · exact absurd hzero (Nat.ne_of_gt (hleft pi hpi))
  · next h =>
    push Not at h
    rw [Except.ok.injEq]
    exact ⟨fun heq => ⟨⟨h.1, fun pi hpi => Nat.pos_of_ne_zero (h.2 pi hpi)⟩, heq⟩, fun h => h.2⟩

theorem fullest_perm (p : ℕ) (s : Placing) : (s.fullest p).Perm s.slot := List.sortDescBy_perm _ _

variable {p : ℕ}

theorem chosen_nodup (tenantDegrees : List ℕ) (ti : ℕ) (hslot : s.slot.Perm (List.range p)) :
    (s.chosen p tenantDegrees ti).Nodup :=
  ((((fullest_perm p s).trans hslot).nodup_iff.mpr List.nodup_range).sublist
    (List.take_sublist _ _))

theorem lt_of_mem_chosen (hslot : s.slot.Perm (List.range p))
    (h : pi ∈ s.chosen p tenantDegrees ti) : pi < p :=
  List.mem_range.mp (((fullest_perm p s).trans hslot).mem_iff.mp (List.mem_of_mem_take h))

theorem length_chosen (hslot : s.slot.Perm (List.range p))
    (hneed : tenantDegrees.getD ti 0 ≤ p) :
    (s.chosen p tenantDegrees ti).length = tenantDegrees.getD ti 0 := by
  refine List.length_take_of_le ?_
  rwa [((fullest_perm p s).trans hslot).length_eq, List.length_range]

/-- The parts that are chosen are those with the most capacity left. -/
theorem chosen_fullest (tenantDegrees : List ℕ) (ti : ℕ) (hslot : s.slot.Perm (List.range p)) :
    Fullest (Finset.range p) (s.chosen p tenantDegrees ti).toFinset (s.capacity.getD · 0) := by
  refine ⟨fun pi hpi => ?_, fun a ha b hb hbA => ?_⟩
  · exact Finset.mem_range.mpr (lt_of_mem_chosen hslot (List.mem_toFinset.mp hpi))
  · rw [List.mem_toFinset] at ha hbA
    have hsorted := List.pairwise_sortDescBy
      (fun pi => toLex (s.capacity.getD pi 0, p - pi)) s.slot
    rw [← List.take_append_drop (tenantDegrees.getD ti 0) (s.slot.sortDescBy _),
      List.pairwise_append] at hsorted
    have hb' : b ∈ s.fullest p :=
      ((fullest_perm p s).trans hslot).mem_iff.mpr (List.mem_range.mpr (Finset.mem_range.mp hb))
    rw [← List.take_append_drop (tenantDegrees.getD ti 0) (s.fullest p), List.mem_append] at hb'
    have hle := hsorted.2.2 a ha b (hb'.resolve_left hbA)
    exact (Prod.Lex.le_iff.mp hle).elim le_of_lt fun h => h.1.le

/-! ### The placing succeeds -/

/-- The greedy choice, as the code makes it. -/
theorem exists_serveTenant {ds : List ℕ} (hslot : s.slot.Perm (List.range p))
    (h : GaleRyser (Finset.range p) (s.capacity.getD · 0) (tenantDegrees.getD ti 0 :: ds))
    (hsorted : (tenantDegrees.getD ti 0 :: ds).Pairwise (· ≥ ·)) :
    ∃ s', s.serveTenant p tenantDegrees ti = .ok s' ∧ s'.slot.Perm (List.range p) ∧
      s'.capacity.length = s.capacity.length ∧
      GaleRyser (Finset.range p) (s'.capacity.getD · 0) ds ∧
      (∑ j ∈ Finset.range p, s'.capacity.getD j 0) + tenantDegrees.getD ti 0 =
        ∑ j ∈ Finset.range p, s.capacity.getD j 0 := by
  have hneed : tenantDegrees.getD ti 0 ≤ p := by simpa using h.head_le
  have hnodup := chosen_nodup tenantDegrees ti hslot
  have hfullest := chosen_fullest tenantDegrees ti hslot
  have hcard : (s.chosen p tenantDegrees ti).toFinset.card = tenantDegrees.getD ti 0 := by
    rw [List.toFinset_card_of_nodup hnodup, length_chosen hslot hneed]
  obtain ⟨hpos, hrest⟩ := h.serve_fullest hsorted hfullest hcard
  have hcap := foldl_place_capacity (wordsFor p) ti (s := { s with slot := s.fullest p }) hnodup
  obtain ⟨hslot', hlength'⟩ := foldl_place_frame (wordsFor p) ti (s.chosen p tenantDegrees ti)
    { s with slot := s.fullest p }
  refine ⟨_, serveTenant_eq_ok.mpr ⟨⟨hneed, fun pi hpi => hpos pi (List.mem_toFinset.mpr hpi)⟩,
    rfl⟩, ?_, hlength', ?_, ?_⟩
  · rw [hslot']
    exact (fullest_perm p s).trans hslot
  · rw [hcap]
    exact hrest
  · have hsum := sum_serve hfullest.1 hpos
    rw [hcard] at hsum
    simpa only [← hcap] using hsum

theorem exists_placed : ∀ {rest : List ℕ} {s : Placing}, s.slot.Perm (List.range p) →
    GaleRyser (Finset.range p) (s.capacity.getD · 0)
      (rest.map fun i => tenantDegrees.getD i 0) →
    (rest.map fun i => tenantDegrees.getD i 0).Pairwise (· ≥ ·) →
    ∃ s', rest.foldlM (Placing.serveTenant p tenantDegrees) s = .ok s' ∧
      s'.capacity.length = s.capacity.length ∧
      (∑ j ∈ Finset.range p, s'.capacity.getD j 0) +
        (rest.map fun i => tenantDegrees.getD i 0).sum = ∑ j ∈ Finset.range p, s.capacity.getD j 0
  | [], s, _, _, _ => ⟨s, rfl, rfl, rfl⟩
  | ti :: rest, s, hslot, h, hsorted => by
    obtain ⟨s₁, hs₁, hslot₁, hlength₁, h₁, hsum₁⟩ := exists_serveTenant hslot h hsorted
    obtain ⟨s', hs', hlength', hsum'⟩ := exists_placed hslot₁ h₁ hsorted.of_cons
    refine ⟨s', ?_, hlength'.trans hlength₁, ?_⟩
    · rw [List.foldlM_cons, hs₁]
      exact hs'
    · rw [List.map_cons, List.sum_cons]
      omega

theorem Bigraphic.galeRyser (h : Bigraphic partDegrees tenantDegrees) :
    GaleRyser (Finset.range partDegrees.length) (partDegrees.getD · 0) tenantDegrees := by
  intro k
  refine (h k).trans (Nat.le_of_eq ?_)
  exact sum_map_eq_sum_range (min · k) partDegrees

/-- **The placing succeeds** on a sequence that meets the condition of Gale and Ryser, and when the
sums agree too, no capacity is left. -/
theorem exists_realize (h : Bigraphic partDegrees tenantDegrees)
    (hsum : tenantDegrees.sum = partDegrees.sum) (seed : UInt64) :
    ∃ graph, realize partDegrees tenantDegrees seed = .ok graph := by
  have hperm := descending_perm tenantDegrees
  have hgr : GaleRyser (Finset.range partDegrees.length) (partDegrees.getD · 0)
      ((descending tenantDegrees).map fun i => tenantDegrees.getD i 0) := fun k =>
    (hperm.topSum_eq k).trans_le (h.galeRyser k)
  obtain ⟨s, hs, hlength, hleft⟩ := exists_placed
    (s := Placing.start partDegrees tenantDegrees.length) (.refl _) hgr
    (pairwise_descending tenantDegrees)
  have hparts : ∑ j ∈ Finset.range partDegrees.length, partDegrees.getD j 0 = partDegrees.sum := by
    have := sum_map_eq_sum_range id partDegrees
    rw [List.map_id] at this
    exact this.symm
  have hzero : ∑ j ∈ Finset.range partDegrees.length, s.capacity.getD j 0 = 0 := by
    have hstart : ∑ j ∈ Finset.range partDegrees.length,
        (Placing.start partDegrees tenantDegrees.length).capacity.getD j 0 = partDegrees.sum :=
      hparts
    rw [hperm.sum_eq] at hleft
    omega
  refine ⟨_, realize_eq_ok.mpr ⟨s, hs, fun c hc => ?_, rfl⟩⟩
  obtain ⟨j, hj, rfl⟩ := List.getElem_of_mem hc
  have hj' : j < partDegrees.length := hlength ▸ hj
  rw [← List.getD_eq_getElem _ 0 hj]
  exact Finset.sum_eq_zero_iff.mp hzero j (Finset.mem_range.mpr hj')

/-! ### What was placed -/

/-- The edges of the tenants that have been served are their degrees. -/
def Served (partDegrees tenantDegrees done : List ℕ) (s : Placing) : Prop :=
  ∃ log, Placed partDegrees tenantDegrees.length log s ∧
    ∀ i, (log.map Prod.fst).count i = if i ∈ done then tenantDegrees.getD i 0 else 0

theorem Served.serveTenant {done : List ℕ} (h : Served partDegrees tenantDegrees done s)
    (hti : ti < tenantDegrees.length) (hnew : ti ∉ done)
    (hs : s.serveTenant partDegrees.length tenantDegrees ti = .ok s') :
    Served partDegrees tenantDegrees (done ++ [ti]) s' := by
  obtain ⟨log, hlog, hcount⟩ := h
  obtain ⟨⟨hneed, hleft⟩, rfl⟩ := serveTenant_eq_ok.mp hs
  have hfresh : ∀ pi, (ti, pi) ∉ log := by
    intro pi hmem
    have hpos := List.count_pos_iff.mpr (List.mem_map_of_mem (f := Prod.fst) hmem)
    rw [hcount, if_neg hnew] at hpos
    exact Nat.lt_irrefl 0 hpos
  have hsorted : Placed partDegrees tenantDegrees.length log
      { s with slot := s.fullest partDegrees.length } :=
    { hlog with slot := (fullest_perm _ s).trans hlog.slot }
  refine ⟨_, hsorted.foldl_place hti (chosen_nodup tenantDegrees ti hlog.slot) fun pi hpi =>
    ⟨lt_of_mem_chosen hlog.slot hpi, hfresh pi, hleft pi hpi⟩, fun i => ?_⟩
  have hmap : ((s.chosen partDegrees.length tenantDegrees ti).map (ti, ·)).map Prod.fst =
      List.replicate (tenantDegrees.getD ti 0) ti := by
    rw [List.map_map, ← length_chosen hlog.slot hneed]
    exact List.map_const' ..
  rw [List.map_append, List.count_append, hcount, hmap, List.count_replicate]
  by_cases hi : i = ti
  · subst hi
    simp [hnew]
  · simp [hi, Ne.symm hi]

/-- **What the placing places** are the degrees of all tenants. -/
theorem exists_log (hs : (descending tenantDegrees).foldlM
      (Placing.serveTenant partDegrees.length tenantDegrees)
      (Placing.start partDegrees tenantDegrees.length) = .ok s) :
    ∃ log, Placed partDegrees tenantDegrees.length log s ∧
      ∀ i, (log.map Prod.fst).count i = tenantDegrees.getD i 0 := by
  have hperm : (descending tenantDegrees).Perm (List.range tenantDegrees.length) :=
    List.sortDescBy_perm _ _
  have hserved : Served partDegrees tenantDegrees (descending tenantDegrees) s := by
    refine List.foldlM_ok_induction (I := fun done s => done.Nodup →
      Served partDegrees tenantDegrees done s) hs ?_ ?_ (hperm.nodup_iff.mpr List.nodup_range)
    · exact fun _ => ⟨[], placed_start _ _, fun i => by simp⟩
    · intro done ti hti s₁ s₂ h hstep hnodup
      have hnodup' := List.nodup_append.mp hnodup
      exact (h hnodup'.1).serveTenant (List.mem_range.mp (hperm.mem_iff.mp hti))
        (fun hmem => hnodup'.2.2 ti hmem ti (List.mem_singleton_self ti) rfl) hstep
  obtain ⟨log, hlog, hcount⟩ := hserved
  refine ⟨log, hlog, fun i => (hcount i).trans ?_⟩
  split
  · rfl
  · next hi =>
    rw [hperm.mem_iff, List.mem_range, Nat.not_lt] at hi
    exact (List.getD_eq_default _ _ hi).symm

end Placing

/-! ## 4. The swaps -/

section Swaps

variable {words p t a b : ℕ} {edges : List (ℕ × ℕ)} {bits : List (BitVec 64)}

/-- An attempt leaves everything as it was, or it trades the ends of two edges with different
tenants, of which neither new edge is in the bitset. -/
theorem swapEdges_cases (words a b : ℕ) (edges : List (ℕ × ℕ)) (bits : List (BitVec 64)) :
    swapEdges words a b (edges, bits) = (edges, bits) ∨
    ∃ e f, edges[a]? = some e ∧ edges[b]? = some f ∧ e.1 ≠ f.1 ∧ e.2 ≠ f.2 ∧
      has words bits e.1 f.2 = false ∧ has words bits f.1 e.2 = false ∧
      swapEdges words a b (edges, bits) = (edges.tradeEnds a b e f,
        setBit words (setBit words (clearBit words (clearBit words bits e.1 e.2) f.1 f.2)
          e.1 f.2) f.1 e.2) := by
  unfold swapEdges
  simp only
  split
  · next t1 p1 t2 p2 ha hb =>
    split
    · exact Or.inl rfl
    next hne =>
    split
    · exact Or.inl rfl
    next hhas =>
    simp only [not_or, Bool.not_eq_true] at hne hhas
    exact Or.inr ⟨(t1, p1), (t2, p2), ha, hb, hne.1, hne.2, hhas.1, hhas.2, rfl⟩
  · exact Or.inl rfl

/-- The edges keep the degrees of both sides. -/
def SameDegrees (edges edges' : List (ℕ × ℕ)) : Prop :=
  edges'.map Prod.fst = edges.map Prod.fst ∧ (edges'.map Prod.snd).Perm (edges.map Prod.snd)

theorem swapEdges_sameDegrees (words a b : ℕ) (edges : List (ℕ × ℕ)) (bits : List (BitVec 64)) :
    SameDegrees edges (swapEdges words a b (edges, bits)).1 := by
  obtain h | ⟨e, f, ha, hb, -, -, -, -, h⟩ := swapEdges_cases words a b edges bits <;> rw [h]
  · exact ⟨rfl, .refl _⟩
  · exact ⟨List.map_fst_tradeEnds ha hb, List.map_snd_tradeEnds ha hb⟩

theorem rewire_sameDegrees (words : ℕ) : ∀ (attempts : ℕ) (rng : StableRng)
    (s : List (ℕ × ℕ) × List (BitVec 64)), SameDegrees s.1 (rewire words attempts rng s)
  | 0, _, _ => ⟨rfl, .refl _⟩
  | attempts + 1, rng, (edges, bits) => by
    obtain ⟨hfst, hsnd⟩ := swapEdges_sameDegrees words (rng.below edges.length).1
      ((rng.below edges.length).2.below edges.length).1 edges bits
    obtain ⟨hfst', hsnd'⟩ := rewire_sameDegrees words attempts
      ((rng.below edges.length).2.below edges.length).2 (swapEdges words (rng.below edges.length).1
        ((rng.below edges.length).2.below edges.length).1 (edges, bits))
    exact ⟨hfst'.trans hfst, hsnd'.trans hsnd⟩

/-- A simple graph, whose edges are all in the bitset. -/
structure Marked (p t : ℕ) (edges : List (ℕ × ℕ)) (bits : List (BitVec 64)) : Prop where
  nodup : edges.Nodup
  lt : ∀ e ∈ edges, e.1 < t ∧ e.2 < p
  length : bits.length = t * wordsFor p
  marked : ∀ e ∈ edges, has (wordsFor p) bits e.1 e.2

theorem Marked.swapEdges (h : Marked p t edges bits) (a b : ℕ) :
    Marked p t (swapEdges (wordsFor p) a b (edges, bits)).1
      (swapEdges (wordsFor p) a b (edges, bits)).2 := by
  obtain hsame | ⟨e, f, ha, hb, hne, hne', hef, hfe, hswap⟩ :=
    swapEdges_cases (wordsFor p) a b edges bits
  · rw [hsame]
    exact h
  rw [hswap]
  have he := h.lt e (List.mem_of_getElem? ha)
  have hf := h.lt f (List.mem_of_getElem? hb)
  have hnew : (e.1, f.2) ∉ edges := fun hmem => by
    rw [h.marked _ hmem] at hef
    exact nomatch hef
  have hnew' : (f.1, e.2) ∉ edges := fun hmem => by
    rw [h.marked _ hmem] at hfe
    exact nomatch hfe
  have hlt : ∀ x ∈ edges.tradeEnds a b e f, x.1 < t ∧ x.2 < p := by
    intro x hx
    obtain rfl | rfl | ⟨hx, -⟩ := h.nodup.mem_tradeEnds ha hb hne hnew hx
    · exact ⟨he.1, hf.2⟩
    · exact ⟨hf.1, he.2⟩
    · exact h.lt x hx
  refine ⟨h.nodup.tradeEnds hne hnew hnew', hlt, by simpa using h.length, fun x hx => ?_⟩
  have hdiv : ∀ {pi}, pi < p → pi / 64 < wordsFor p := div_lt_wordsFor
  have hin : ∀ {ti pi}, ti < t → pi < p → ti * wordsFor p + pi / 64 < bits.length :=
    fun hti hpi => h.length ▸ place_lt hti (hdiv hpi)
  have hxp := hdiv (hlt x hx).2
  rw [has_setBit (hdiv he.2) hxp (by simpa using hin hf.1 he.2),
    has_setBit (hdiv hf.2) hxp (by simpa using hin he.1 hf.2),
    has_clearBit (hdiv hf.2) hxp (by simpa using hin hf.1 hf.2),
    has_clearBit (hdiv he.2) hxp (hin he.1 he.2)]
  obtain rfl | rfl | ⟨hx, hxe, hxf⟩ := h.nodup.mem_tradeEnds ha hb hne hnew hx
  · simp
  · simp
  · rw [h.marked x hx]
    simp [← Prod.ext_iff, hxe, hxf]

/-- **A simple graph stays simple**, whatever is drawn. -/
theorem Marked.rewire_nodup : ∀ (attempts : ℕ) (rng : StableRng) {edges : List (ℕ × ℕ)}
    {bits : List (BitVec 64)}, Marked p t edges bits →
      (rewire (wordsFor p) attempts rng (edges, bits)).Nodup
  | 0, _, _, _, h => h.nodup
  | attempts + 1, _, _, _, h => (h.swapEdges _ _).rewire_nodup attempts _

end Swaps

/-! ## 5. The graph -/

/-- The graph is simple, and has the given degree at every node of both sides. -/
structure Exact (partDegrees tenantDegrees : List ℕ) (graph : List (List ℕ)) : Prop where
  simple : ∀ members ∈ graph, members.Nodup
  parts : graph.map List.length = partDegrees
  tenants : ∀ i, graph.flatten.count i = tenantDegrees.getD i 0

/-- No tenant and no part that has an edge is numbered beyond a `u32`. -/
def NumberedByU32 (partDegrees tenantDegrees : List ℕ) : Prop :=
  (∀ i, 2 ^ 32 ≤ i → tenantDegrees.getD i 0 = 0) ∧ ∀ j, 2 ^ 32 ≤ j → partDegrees.getD j 0 = 0

section Graph

variable {partDegrees tenantDegrees : List ℕ} {p : ℕ} {edges : List (ℕ × ℕ)}

theorem collect_eq (p : ℕ) (edges : List (ℕ × ℕ)) : collect p edges =
    ((List.replicate p []).scatter edges).map (·.insertionSort (· ≤ ·)) := rfl

theorem getElem?_collect (p : ℕ) (edges : List (ℕ × ℕ)) (j : ℕ) :
    (collect p edges)[j]? = if j < p then
      some (((edges.filter (·.2 = j)).map Prod.fst).insertionSort (· ≤ ·)) else none := by
  rw [collect_eq, List.getElem?_map, List.getElem?_scatter, List.getElem?_replicate]
  split <;> rfl

/-- A part has as many members as edges. -/
theorem map_length_collect_eq_iff :
    (collect partDegrees.length edges).map List.length = partDegrees ↔
      ∀ j < partDegrees.length, (edges.map Prod.snd).count j = partDegrees.getD j 0 := by
  have hlength : (collect partDegrees.length edges).length = partDegrees.length := by
    rw [collect_eq, List.length_map, List.length_scatter, List.length_replicate]
  have hcount : ∀ j (hj : j < (collect partDegrees.length edges).length),
      (collect partDegrees.length edges)[j].length = (edges.map Prod.snd).count j := by
    intro j hj
    have hget := List.getElem?_eq_getElem hj
    rw [getElem?_collect, if_pos (hlength ▸ hj), Option.some.injEq] at hget
    rw [← hget, List.length_insertionSort, List.length_map, List.count_eq_countP,
      List.countP_map, List.countP_eq_length_filter]
    rfl
  rw [List.ext_getElem_iff]
  simp only [List.length_map, hlength, List.getElem_map, hcount, true_and]
  refine forall_congr' fun j => ⟨fun h hj => ?_, fun h hj _ => ?_⟩
  · rw [List.getD_eq_getElem _ _ hj]
    exact h hj hj
  · rw [h hj, List.getD_eq_getElem _ _ hj]

/-- And a tenant is a member as often as it has an edge. -/
theorem flatten_collect_perm (hlt : ∀ e ∈ edges, e.2 < p) :
    (collect p edges).flatten.Perm (edges.map Prod.fst) := by
  have hsort : (collect p edges).flatten.Perm ((List.replicate p []).scatter edges).flatten := by
    refine List.Perm.flatten_congr ?_
    rw [collect_eq, List.forall₂_map_left_iff]
    exact List.forall₂_same.mpr fun members _ => List.perm_insertionSort _ members
  have hgather := List.gather_scatter_perm id edges (List.replicate p [])
    (by simpa using hlt)
  rw [List.gather_replicate_nil, List.nil_append] at hgather
  have hfst := hgather.map Prod.fst
  rw [List.map_fst_gather, List.map_map] at hfst
  exact hsort.trans hfst

theorem collect_nodup (h : edges.Nodup) : ∀ members ∈ collect p edges, members.Nodup := by
  intro members hmem
  obtain ⟨j, hj⟩ := List.mem_iff_getElem?.mp hmem
  rw [getElem?_collect] at hj
  split at hj
  · cases hj
    rw [(List.perm_insertionSort _ _).nodup_iff]
    refine (h.filter _).map_on fun e he f hf hef => ?_
    have he2 := (List.mem_filter.mp he).2
    have hf2 := (List.mem_filter.mp hf).2
    rw [decide_eq_true_eq] at he2 hf2
    exact Prod.ext hef (he2.trans hf2.symm)
  · exact nomatch hj

theorem asU32_lt (x : ℕ) : asU32 x < 2 ^ 32 := Nat.mod_lt _ (by decide)

theorem asU32_le (x : ℕ) : asU32 x ≤ x := Nat.mod_le _ _

theorem asU32_of_lt {x : ℕ} (h : x < 2 ^ 32) : asU32 x = x := Nat.mod_eq_of_lt h

/-- What `realize` swaps are the edges that were placed, with both numbers cast to `u32`. -/
theorem edgeList_perm {t : ℕ} {log : List (ℕ × ℕ)} {s : Placing}
    (h : Placed partDegrees t log s) :
    (edgeList s.members).Perm (log.map fun e => (asU32 e.1, asU32 e.2)) := by
  have hgather := List.gather_scatter_perm asU32 (log.map fun e => (asU32 e.1, e.2))
    (List.replicate partDegrees.length []) fun e he => by
      obtain ⟨e', he', rfl⟩ := List.mem_map.mp he
      rw [List.length_replicate]
      exact (h.lt e' he').2
  rw [List.gather_replicate_nil, List.nil_append, List.map_map] at hgather
  rw [h.members]
  exact hgather

section Swapped

variable {t : ℕ} {log : List (ℕ × ℕ)} {s : Placing} (h : Placed partDegrees t log s)
include h

/-- When no capacity is left, the edges of a part are its degree. -/
theorem Placed.count_snd (hzero : ∀ c ∈ s.capacity, c = 0) (j : ℕ) :
    (log.map Prod.snd).count j = partDegrees.getD j 0 := by
  have hcapacity : s.capacity.getD j 0 = 0 := by
    rw [List.getD_eq_getElem?_getD]
    cases hj : s.capacity[j]? with
    | none => rfl
    | some c => exact hzero c (List.mem_of_getElem? hj)
  rw [← h.capacity j, hcapacity, Nat.zero_add]

theorem Placed.swapped_fst (seed : UInt64) :
    ((swapped partDegrees.length seed s).map Prod.fst).Perm (log.map fun e => asU32 e.1) := by
  have hsame : SameDegrees (edgeList s.members) (swapped partDegrees.length seed s) :=
    rewire_sameDegrees _ _ _ _
  have hplaced := (edgeList_perm h).map Prod.fst
  rw [← hsame.1, List.map_map] at hplaced
  exact hplaced

theorem Placed.swapped_snd (seed : UInt64) :
    ((swapped partDegrees.length seed s).map Prod.snd).Perm (log.map fun e => asU32 e.2) := by
  have hsame : SameDegrees (edgeList s.members) (swapped partDegrees.length seed s) :=
    rewire_sameDegrees _ _ _ _
  have hplaced := (edgeList_perm h).map Prod.snd
  rw [List.map_map] at hplaced
  exact hsame.2.trans hplaced

theorem Placed.flatten_perm (seed : UInt64) :
    (collect partDegrees.length (swapped partDegrees.length seed s)).flatten.Perm
      (log.map fun e => asU32 e.1) := by
  refine (flatten_collect_perm fun e he => ?_).trans (h.swapped_fst seed)
  have hmem := (h.swapped_snd seed).mem_iff.mp (List.mem_map_of_mem he)
  obtain ⟨x, hx, hxe⟩ := List.mem_map.mp hmem
  rw [← hxe]
  exact (asU32_le _).trans_lt (h.lt x hx).2

end Swapped

/-- A number that has a degree fits when the numbers from `2^32` on have none. -/
theorem lt_of_count {degrees numbers : List ℕ} (hcount : ∀ i, numbers.count i = degrees.getD i 0)
    (hnone : ∀ i, 2 ^ 32 ≤ i → degrees.getD i 0 = 0) {i : ℕ} (hi : i ∈ numbers) : i < 2 ^ 32 := by
  have hpos := List.count_pos_iff.mpr hi
  rw [hcount] at hpos
  by_contra hge
  rw [hnone i (Nat.not_lt.mp hge)] at hpos
  exact Nat.lt_irrefl 0 hpos

/-- And the numbers that are cast never name one beyond. -/
theorem count_asU32 (l : List (ℕ × ℕ)) (g : ℕ × ℕ → ℕ) {i : ℕ} (hi : 2 ^ 32 ≤ i) :
    (l.map fun e => asU32 (g e)).count i = 0 := by
  rw [List.count_eq_zero]
  intro hmem
  obtain ⟨e, -, rfl⟩ := List.mem_map.mp hmem
  exact absurd (asU32_lt (g e)) (Nat.not_lt.mpr hi)

/-- **What `realize` returns.**  Whatever it draws, the graph is simple and has exactly the given
degrees, as long as the tenants and parts that have an edge are numbered within a `u32`; and not
otherwise. -/
theorem realize_exact_iff {seed : UInt64} {graph : List (List ℕ)}
    (h : realize partDegrees tenantDegrees seed = .ok graph) :
    Exact partDegrees tenantDegrees graph ↔ NumberedByU32 partDegrees tenantDegrees := by
  obtain ⟨s, hs, hzero, rfl⟩ := realize_eq_ok.mp h
  obtain ⟨log, hlog, htenants⟩ := exists_log hs
  have hparts := hlog.count_snd hzero
  have hflat := hlog.flatten_perm seed
  have hsnd := hlog.swapped_snd seed
  constructor
  · intro hexact
    refine ⟨fun i hi => ?_, fun j hj => ?_⟩
    · rw [← hexact.tenants i, hflat.count_eq, count_asU32 log _ hi]
    · obtain hlt | hge := Nat.lt_or_ge j partDegrees.length
      · rw [← map_length_collect_eq_iff.mp hexact.parts j hlt, hsnd.count_eq,
          count_asU32 log _ hj]
      · exact List.getD_eq_default _ _ hge
  · rintro ⟨hti, hpi⟩
    have hfst32 : ∀ e ∈ log, asU32 e.1 = e.1 := fun e he =>
      asU32_of_lt (lt_of_count htenants hti (List.mem_map_of_mem he))
    have hsnd32 : ∀ e ∈ log, asU32 e.2 = e.2 := fun e he =>
      asU32_of_lt (lt_of_count hparts hpi (List.mem_map_of_mem he))
    have hperm : (edgeList s.members).Perm log := by
      refine (edgeList_perm hlog).trans (.of_eq ?_)
      refine (List.map_congr_left fun e he => ?_).trans (List.map_id log)
      exact Prod.ext (hfst32 e he) (hsnd32 e he)
    have hmarked : Marked partDegrees.length tenantDegrees.length (edgeList s.members) s.bits :=
      ⟨hperm.nodup_iff.mpr hlog.nodup, fun e he => hlog.lt e (hperm.mem_iff.mp he), hlog.bits,
        fun e he => hlog.has e (hperm.mem_iff.mp he)⟩
    refine ⟨collect_nodup (hmarked.rewire_nodup _ _), ?_, fun i => ?_⟩
    · refine map_length_collect_eq_iff.mpr fun j _ => ?_
      rw [hsnd.count_eq, List.map_congr_left hsnd32, hparts]
    · rw [hflat.count_eq, List.map_congr_left hfst32, htenants]

end Graph

/-- Twelve tenants in all three parts, and two in one. -/
def shortDegrees : List ℕ := [3, 3, 3, 3, 3, 3, 3, 3, 3, 3, 3, 3, 1, 1]

/-- Parts of almost as many keys as there are tenants: beyond the head there is an edge for each
other tenant and one more. -/
def evenCapacities : List ℕ := [14, 13, 13]

/-- Twelve tenants in all three parts, one in two of them and one in a single one. -/
def sampledDegrees : List ℕ := [3, 3, 3, 3, 3, 3, 3, 3, 3, 3, 3, 3, 2, 1]

/-- Parts of at most as many keys as there are tenants. -/
def scaledCapacities : List ℕ := [14, 14, 12]

end Ukiel.Synth
