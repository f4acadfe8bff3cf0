/-
# Caches that drop what was used longest ago

A bounded map that keeps its keys in the order of their last use, by its laws (`LruCache`).  Which
keys it has is a matter of the uses alone: they are the first few of all keys ever used, the last
used first (`LruCache.Tracks`).
-/
import Mathlib.Data.List.Infix
import Mathlib.Data.List.Nodup
import Mathlib.Tactic.Basic

variable {κ ν : Type} [DecidableEq κ]

namespace List

/-! ## 1. Recency -/

/-- The keys of a history, each once, in the order of their last use.  The history begins with the
last one. -/
def recent : List κ → List κ
  | [] => []
  | k :: h => k :: (recent h).filter (· ≠ k)

theorem nodup_recent : ∀ h : List κ, (recent h).Nodup
  | [] => nodup_nil
  | k :: h => nodup_cons.mpr ⟨by simp, (nodup_recent h).filter _⟩

theorem mem_recent {k : κ} : ∀ {h : List κ}, k ∈ recent h ↔ k ∈ h
  | [] => Iff.rfl
  | k' :: h => by
    by_cases hk : k = k'
    · simp [recent, hk]
    · simp [recent, hk, mem_recent]

/-- A list that loses an element loses one at most. -/
theorem take_filter_take {k : κ} : ∀ {l : List κ} {m n : Nat}, l.Nodup → m < n →
    ((l.take n).filter (· ≠ k)).take m = (l.filter (· ≠ k)).take m
  | [], m, n, _, _ => by simp
  | a :: l, m, n + 1, hl, hm => by
    obtain ⟨ha, hl⟩ := nodup_cons.mp hl
    by_cases hk : a = k
    · subst hk
      have hall : ∀ x ∈ l, decide (x ≠ a) = true := fun x hx => by
        simpa using ne_of_mem_of_not_mem hx ha
      have hall' : ∀ x ∈ l.take n, decide (x ≠ a) = true := fun x hx => hall x (mem_of_mem_take hx)
      simp only [take_succ_cons, ne_eq, not_true_eq_false, decide_false, Bool.false_eq_true,
        not_false_eq_true, filter_cons_of_neg]
      rw [filter_eq_self.mpr hall, filter_eq_self.mpr hall', take_take, min_eq_left (by omega)]
    · cases m with
      | zero => simp
      | succ m => simpa [hk] using take_filter_take hl (by omega)

end List

/-! ## 2. The laws -/

/-- **A cache that drops what was used longest ago**: its operations, and what is known of them. -/
structure LruCache (κ ν : Type) [DecidableEq κ] where
  State : Type
  new : (capacity : Nat) → 0 < capacity → State
  /-- An entry that is found is the last used one. -/
  get : State → κ → Option ν × State
  put : State → κ → ν → State
  capacity : State → Nat
  /-- The last used first. -/
  keys : State → List κ
  /-- Looks without using. -/
  peek : State → κ → Option ν
  capacity_pos : ∀ c, 0 < capacity c
  length_keys_le : ∀ c, (keys c).length ≤ capacity c
  peek_isSome : ∀ c k, (peek c k).isSome ↔ k ∈ keys c
  keys_new : ∀ n hn, keys (new n hn) = []
  capacity_new : ∀ n hn, capacity (new n hn) = n
  get_fst : ∀ c k, (get c k).1 = peek c k
  peek_get : ∀ c k k', peek (get c k).2 k' = peek c k'
  capacity_get : ∀ c k, capacity (get c k).2 = capacity c
  keys_get : ∀ c k, keys (get c k).2 =
    if k ∈ keys c then k :: (keys c).filter (· ≠ k) else keys c
  capacity_put : ∀ c k v, capacity (put c k v) = capacity c
  /-- A new entry may drive out the one that was used longest ago. -/
  keys_put : ∀ c k v, keys (put c k v) = k :: ((keys c).filter (· ≠ k)).take (capacity c - 1)
  peek_put : ∀ c k v k', peek (put c k v) k' =
    if k' = k then some v else if k' ∈ keys (put c k v) then peek c k' else none

namespace LruCache

variable {L : LruCache κ ν} {c : L.State} {k : κ} {v : ν}

theorem mem_keys_of_peek (h : L.peek c k = some v) : k ∈ L.keys c :=
  (L.peek_isSome c k).mp (h ▸ rfl)

theorem peek_new {capacity : Nat} {pos : 0 < capacity} : L.peek (L.new capacity pos) k = none := by
  rw [← Option.not_isSome_iff_eq_none, L.peek_isSome, L.keys_new]
  exact List.not_mem_nil

/-- An entry was put there just now, or before. -/
theorem of_peek_put {k' : κ} {v' : ν} (h : L.peek (L.put c k v) k' = some v') :
    (k' = k ∧ v' = v) ∨ L.peek c k' = some v' := by
  rw [L.peek_put] at h
  split at h
  · rename_i heq
    exact Or.inl ⟨heq, (Option.some.inj h).symm⟩
  · split at h
    · exact Or.inr h
    · cases h

/-! ## 3. What the cache has -/

/-- The keys of the cache are those that were used last, of a history of uses. -/
def Tracks (c : L.State) (h : List κ) : Prop := L.keys c = (List.recent h).take (L.capacity c)

theorem tracks_new {capacity : Nat} {pos : 0 < capacity} : Tracks (L.new capacity pos) [] := by
  rw [Tracks, L.keys_new, List.recent, List.take_nil]

/-- The other keys, and the one that is used, as far as they fit. -/
theorem Tracks.cons {h : List κ} (ht : Tracks c h) (k : κ) :
    k :: ((L.keys c).filter (· ≠ k)).take (L.capacity c - 1) =
      (List.recent (k :: h)).take (L.capacity c) := by
  obtain ⟨n, hn⟩ := Nat.exists_eq_succ_of_ne_zero (L.capacity_pos c).ne'
  rw [ht, List.recent, hn, List.take_succ_cons, Nat.succ_sub_one,
    List.take_filter_take (List.nodup_recent h) n.lt_succ_self]

theorem Tracks.put {h : List κ} (ht : Tracks c h) (k : κ) (v : ν) :
    Tracks (L.put c k v) (k :: h) := by
  rw [Tracks, L.keys_put, L.capacity_put]
  exact ht.cons k

theorem Tracks.get {h : List κ} (ht : Tracks c h) (hk : k ∈ L.keys c) :
    Tracks (L.get c k).2 (k :: h) := by
  have hlt : ((L.keys c).filter (· ≠ k)).length < L.capacity c :=
    (List.length_filter_lt_length_iff_exists.mpr ⟨k, hk, by simp⟩).trans_le (L.length_keys_le c)
  rw [Tracks, L.keys_get, if_pos hk, L.capacity_get, ← ht.cons k, List.take_of_length_le (by omega)]

theorem Tracks.get_of_none {h : List κ} (ht : Tracks c h) (hk : k ∉ L.keys c) :
    Tracks (L.get c k).2 h := by
  rw [Tracks, L.keys_get, if_neg hk, L.capacity_get]
  exact ht

end LruCache

/-! ## 4. Entries in a list -/

/-- At most `capacity` entries, the last used first. -/
structure Lru (κ ν : Type) [DecidableEq κ] where
  capacity : Nat
  entries : List (κ × ν)
  pos : 0 < capacity
  nodup : (entries.map Prod.fst).Nodup
  bounded : entries.length ≤ capacity

namespace Lru

def new (capacity : Nat) (pos : 0 < capacity) : Lru κ ν where
  capacity := capacity
  entries := []
  pos := pos
  nodup := List.nodup_nil
  bounded := Nat.zero_le _

def keys (c : Lru κ ν) : List κ := c.entries.map Prod.fst

def peek (c : Lru κ ν) (k : κ) : Option ν := c.entries.lookup k

/-- The entries of the other keys. -/
def others (c : Lru κ ν) (k : κ) : List (κ × ν) := c.entries.filter fun e => e.1 ≠ k

theorem map_others (c : Lru κ ν) (k : κ) :
    (c.others k).map Prod.fst = c.keys.filter (· ≠ k) := by
  rw [others, keys, List.filter_map]
  rfl

theorem nodup_cons_others (c : Lru κ ν) (k : κ) (v : ν) {l : List (κ × ν)}
    (hl : l.Sublist (c.others k)) : (((k, v) :: l).map Prod.fst).Nodup := by
  have hsub : (l.map Prod.fst).Sublist (c.keys.filter (· ≠ k)) := map_others c k ▸ hl.map _
  refine List.nodup_cons.mpr ⟨fun hk => ?_, hsub.nodup (c.nodup.filter _)⟩
  simpa using hsub.subset hk

theorem peek_isSome (c : Lru κ ν) (k : κ) : (c.peek k).isSome ↔ k ∈ c.keys := by
  rw [peek, List.lookup_isSome_iff, keys, List.mem_map]
  exact exists_congr fun e => and_congr_right fun _ => beq_iff_eq.trans eq_comm

/-- A key that is there is not among the others. -/
theorem length_others_lt {c : Lru κ ν} {k : κ} (h : k ∈ c.keys) :
    (c.others k).length < c.capacity := by
  obtain ⟨e, he, rfl⟩ := List.mem_map.mp h
  exact (List.length_filter_lt_length_iff_exists.mpr ⟨e, he, by simp⟩).trans_le c.bounded

def get (c : Lru κ ν) (k : κ) : Option ν × Lru κ ν :=
  match h : c.peek k with
  | none => (none, c)
  | some v => (some v, { c with
      entries := (k, v) :: c.others k
      nodup := c.nodup_cons_others k v (List.Sublist.refl _)
      bounded := length_others_lt ((c.peek_isSome k).mp (h ▸ rfl)) })

def put (c : Lru κ ν) (k : κ) (v : ν) : Lru κ ν :=
  { c with
    entries := (k, v) :: (c.others k).take (c.capacity - 1)
    nodup := c.nodup_cons_others k v (List.take_sublist _ _)
    bounded := by
      have := c.pos
      simp only [List.length_cons, List.length_take]
      omega }

/-- What `get` does: nothing, or the entry comes first. -/
theorem get_cases (c : Lru κ ν) (k : κ) : (c.peek k = none ∧ c.get k = (none, c)) ∨
    ∃ v, c.peek k = some v ∧ (c.get k).1 = some v ∧ (c.get k).2.capacity = c.capacity ∧
      (c.get k).2.entries = (k, v) :: c.others k := by
  unfold get
  split
  · exact Or.inl ⟨by assumption, rfl⟩
  · exact Or.inr ⟨_, by assumption, rfl, rfl, rfl⟩

/-- Of the others nothing is lost by looking for one of them. -/
theorem lookup_others {c : Lru κ ν} {k k' : κ} (hne : k' ≠ k) :
    (c.others k).lookup k' = c.entries.lookup k' := by
  unfold others
  induction c.entries with
  | nil => rfl
  | cons e l ih =>
    by_cases he : e.1 = k
    · rw [List.filter_cons_of_neg (by simpa using he), ih, List.lookup_cons, he,
        beq_false_of_ne hne]
    · rw [List.filter_cons_of_pos (by simpa using he), List.lookup_cons, List.lookup_cons, ih]

/-- A key that is in a prefix is found in it. -/
theorem lookup_take {k : κ} : ∀ {l : List (κ × ν)} {n : Nat},
    (l.take n).lookup k = if k ∈ (l.take n).map Prod.fst then l.lookup k else none
  | [], n => by simp
  | e :: l, 0 => by simp
  | e :: l, n + 1 => by
    rw [List.take_succ_cons, List.lookup_cons, List.lookup_cons, @lookup_take k l n]
    by_cases he : k = e.1
    · simp [he]
    · simp [he, beq_false_of_ne he]

theorem keys_put (c : Lru κ ν) (k : κ) (v : ν) :
    (c.put k v).keys = k :: (c.keys.filter (· ≠ k)).take (c.capacity - 1) := by
  rw [keys, put, List.map_cons, List.map_take, map_others]

theorem peek_put (c : Lru κ ν) (k : κ) (v : ν) (k' : κ) : (c.put k v).peek k' =
    if k' = k then some v else if k' ∈ (c.put k v).keys then c.peek k' else none := by
  by_cases hk : k' = k
  · simp [peek, put, hk]
  · rw [if_neg hk, peek, put, List.lookup_cons, beq_false_of_ne hk]
    dsimp only
    rw [lookup_take, lookup_others hk, keys]
    simp [hk, peek]

/-- **The list keeps the laws.** -/
def cache : LruCache κ ν where
  State := Lru κ ν
  new := new
  get := get
  put := put
  capacity := capacity
  keys := keys
  peek := peek
  capacity_pos := pos
  length_keys_le c := by rw [keys, List.length_map]; exact c.bounded
  peek_isSome := peek_isSome
  keys_new _ _ := rfl
  capacity_new _ _ := rfl
  get_fst c k := by
    rcases get_cases c k with ⟨hn, hget⟩ | ⟨v, hv, hget, -, -⟩
    · rw [hget, hn]
    · rw [hget, hv]
  peek_get c k k' := by
    rcases get_cases c k with ⟨-, hget⟩ | ⟨v, hv, -, -, hentries⟩
    · rw [hget]
    · rw [peek, hentries, List.lookup_cons]
      by_cases hk : k' = k
      · simp [hk, hv]
      · rw [beq_false_of_ne hk, lookup_others hk]
        rfl
  capacity_get c k := by
    rcases get_cases c k with ⟨-, hget⟩ | ⟨v, -, -, hcapacity, -⟩
    · rw [hget]
    · exact hcapacity
  keys_get c k := by
    rcases get_cases c k with ⟨hn, hget⟩ | ⟨v, hv, -, -, hentries⟩
    · rw [hget, if_neg fun hk => by simpa [hn] using (peek_isSome c k).mpr hk]
    · rw [if_pos ((peek_isSome c k).mp (hv ▸ rfl)), keys, hentries, List.map_cons, map_others]
  capacity_put _ _ _ := rfl
  keys_put := keys_put
  peek_put := peek_put

end Lru
