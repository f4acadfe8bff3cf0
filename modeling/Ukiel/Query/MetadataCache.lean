/-
# The footers that are kept

`ukiel-query/src/metadata_cache.rs`: the parsed footers of Parquet files, kept for all queries of a
process, and the reader that asks for one.  A reader looks into the cache, reads the file if it has
to, and puts what it has read into the cache: three steps, between which other readers take theirs.

* `metadata_transparent`: what a reader returns is the footer of its file, with the page indexes
  if those were asked for and the file has them, whatever other readers do.
* `served_iff`: of readers one after another, which one is served from the cache.
-/
import Ukiel.Lib.Lru
import Ukiel.Lib.Programs

namespace Ukiel.Query

/-! ## 1. Footers -/

inductive PageIndexPolicy where
  | skip
  | optional
  | required
deriving DecidableEq

structure ArrowReaderOptions where
  columnIndexPolicy : PageIndexPolicy
  offsetIndexPolicy : PageIndexPolicy

/-- A parsed footer: what is in every one, and which of the two page indexes were read. -/
structure ParquetMetaData (φ : Type) where
  footer : φ
  columnIndex : Bool
  offsetIndex : Bool

variable {φ : Type}

/-- Either index will do. -/
def ParquetMetaData.indexed (m : ParquetMetaData φ) : Bool := m.columnIndex || m.offsetIndex

def wantsPageIndex : Option ArrowReaderOptions → Bool
  | some o => o.columnIndexPolicy ≠ .skip || o.offsetIndexPolicy ≠ .skip
  | none => false

/-! ## 2. The cache -/

/-- `DEFAULT_METADATA_CACHE_ENTRIES`. -/
def defaultMetadataCacheEntries : Nat := 10000

/-- The cache of the `lru` crate is a parameter. -/
structure ParquetMetadataCache (L : LruCache String (ParquetMetaData φ)) where
  entries : L.State
  hits : Nat := 0
  misses : Nat := 0

namespace ParquetMetadataCache

variable {L : LruCache String (ParquetMetaData φ)}

/-- The capacity of `new`: zero falls back to the default. -/
def bound (capacity : Nat) : Nat := if capacity = 0 then defaultMetadataCacheEntries else capacity

theorem bound_pos (capacity : Nat) : 0 < bound capacity := by
  unfold bound
  split
  · decide
  · omega

def new (L : LruCache String (ParquetMetaData φ)) (capacity : Nat) : ParquetMetadataCache L where
  entries := L.new (bound capacity) (bound_pos capacity)

/-- `get`: a footer without indexes is no answer to a reader that wants them, but it was used. -/
def get (c : ParquetMetadataCache L) (path : String) (wantsPageIndex : Bool) :
    Option (ParquetMetaData φ) × ParquetMetadataCache L :=
  let found := L.get c.entries path
  match found.1.filter fun m => !wantsPageIndex || m.indexed with
  | some m => (some m, { c with entries := found.2, hits := c.hits + 1 })
  | none => (none, { c with entries := found.2, misses := c.misses + 1 })

def put (c : ParquetMetadataCache L) (path : String) (m : ParquetMetaData φ) :
    ParquetMetadataCache L := { c with entries := L.put c.entries path m }

end ParquetMetadataCache

/-! ## 3. Readers -/

/-- What a reader asks for: the cache, or its file. -/
inductive ReaderCall (φ : Type) where
  | get (path : String) (wantsPageIndex : Bool)
  | read (path : String) (options : Option ArrowReaderOptions)
  | put (path : String) (m : ParquetMetaData φ)

/-- A file that could not be read, or not be parsed. -/
inductive ParquetError where
  | general
deriving DecidableEq

abbrev ReaderCall.Answer : ReaderCall φ → Type
  | .get _ _ => Option (ParquetMetaData φ)
  | .read _ _ => Except ParquetError (ParquetMetaData φ)
  | .put _ _ => Unit

abbrev Reader (φ β : Type) := ExceptT ParquetError (Program (ReaderCall φ) ReaderCall.Answer) β

/-- `CachingParquetFileReader::get_metadata`. -/
def getMetadata (path : String) (options : Option ArrowReaderOptions) :
    Reader φ (ParquetMetaData φ) := do
  match ← Program.ask (.get path (wantsPageIndex options) : ReaderCall φ) with
  | some m => pure m
  | none =>
    match ← Program.ask (.read path options : ReaderCall φ) with
    | .error e => throw e
    | .ok m =>
      Program.ask (ReaderCall.put path m)
      pure m

section Readers

-- what is in a file, read with some options: files are immutable
variable {L : LruCache String (ParquetMetaData φ)}
  (read : String → Option ArrowReaderOptions → ParquetMetaData φ)

/-- The answers of the cache, and of files that can be read. -/
def served (c : ParquetMetadataCache L) : (r : ReaderCall φ) → r.Answer × ParquetMetadataCache L
  | .get path wants => c.get path wants
  | .read path options => (.ok (read path options), c)
  | .put path m => ((), c.put path m)

/-- The answers of the cache, and of files that may fail. -/
inductive Serves : ParquetMetadataCache L → (r : ReaderCall φ) → r.Answer →
    ParquetMetadataCache L → Prop
  | served (c : ParquetMetadataCache L) (r : ReaderCall φ) :
    Serves c r (served read c r).1 (served read c r).2
  | failed (c : ParquetMetadataCache L) (path : String) (options : Option ArrowReaderOptions)
      (e : ParquetError) : Serves c (.read path options) (.error e) c

end Readers

/-! ## 4. Readers at once -/

section Readers

variable {L : LruCache String (ParquetMetaData φ)}
  {read : String → Option ArrowReaderOptions → ParquetMetaData φ} {c c' : ParquetMetadataCache L}

/-- Every entry was read from its file. -/
def Faithful (read : String → Option ArrowReaderOptions → ParquetMetaData φ)
    (c : ParquetMetadataCache L) : Prop :=
  ∀ path m, L.peek c.entries path = some m → ∃ o, m = read path o

/-- What the calls of readers keep to. -/
def Keeps (read : String → Option ArrowReaderOptions → ParquetMetaData φ)
    (c c' : ParquetMetadataCache L) : Prop :=
  (Faithful read c → Faithful read c') ∧ L.capacity c'.entries = L.capacity c.entries

theorem Keeps.refl (read : String → Option ArrowReaderOptions → ParquetMetaData φ)
    (c : ParquetMetadataCache L) : Keeps read c c := ⟨fun h => h, rfl⟩

theorem Keeps.trans (read : String → Option ArrowReaderOptions → ParquetMetaData φ)
    (a b c : ParquetMetadataCache L) (h : Keeps read a b) (h' : Keeps read b c) : Keeps read a c :=
  ⟨fun ha => h'.1 (h.1 ha), h'.2.trans h.2⟩

theorem get_entries (c : ParquetMetadataCache L) (path : String) (wants : Bool) :
    (c.get path wants).2.entries = (L.get c.entries path).2 := by
  unfold ParquetMetadataCache.get
  simp only
  split <;> rfl

/-- What the cache answers is the entry of the path, if that is enough. -/
theorem get_fst (c : ParquetMetadataCache L) (path : String) (wants : Bool) :
    (c.get path wants).1 =
      (L.peek c.entries path).filter fun m => !wants || m.indexed := by
  unfold ParquetMetadataCache.get
  simp only [L.get_fst]
  split <;> simp [*]

theorem Faithful.get (h : Faithful read c) (path : String) (wants : Bool) :
    Faithful read (c.get path wants).2 := by
  intro path' m hm
  rw [get_entries, L.peek_get] at hm
  exact h path' m hm

theorem Faithful.put (h : Faithful read c) (path : String) (o : Option ArrowReaderOptions) :
    Faithful read (c.put path (read path o)) := by
  intro path' m hm
  rcases LruCache.of_peek_put hm with ⟨rfl, rfl⟩ | hm
  · exact ⟨o, rfl⟩
  · exact h path' m hm

/-- What a reader may return. -/
def Genuine (read : String → Option ArrowReaderOptions → ParquetMetaData φ) (path : String)
    (options : Option ArrowReaderOptions) (m : ParquetMetaData φ) : Prop :=
  ∃ o, m = read path o ∧ (wantsPageIndex options = true → m.indexed = true ∨ o = options)

theorem meets_lookup (path : String) (options : Option ArrowReaderOptions)
    (h : Faithful read c) : Program.Meets (Serves read) (Keeps read)
      (Program.OnOk fun (found : Option (ParquetMetaData φ)) c' =>
        Faithful read c' ∧ ∀ m, found = some m → Genuine read path options m)
      (Program.ask (.get path (wantsPageIndex options) : ReaderCall φ) : Reader φ _).run c := by
  refine Program.meets_ask (fun c₁ hR found c₂ hserves => ?_) fun _ c₁ c₂ hQ hR => ⟨hR.1 hQ.1, hQ.2⟩
  have hc₁ : Faithful read c₁ := hR.1 h
  cases hserves with
  | served =>
    have hkeeps : Keeps read c₁ (c₁.get path (wantsPageIndex options)).2 :=
      ⟨fun h => h.get path _, by rw [get_entries, L.capacity_get]⟩
    refine ⟨hkeeps, hkeeps.1 hc₁, fun m hm => ?_⟩
    rw [show (served read c₁ (.get path (wantsPageIndex options))).1 = _ from
      get_fst c₁ path (wantsPageIndex options), Option.filter_eq_some_iff] at hm
    obtain ⟨o, ho⟩ := hc₁ path m hm.1
    refine ⟨o, ho, fun hwants => Or.inl ?_⟩
    simpa [hwants] using hm.2

/-- **A reader among others.** -/
theorem meets_getMetadata (path : String) (options : Option ArrowReaderOptions)
    (h : Faithful read c) : Program.Meets (Serves read) (Keeps read)
      (Program.OnOk fun m _ => Genuine read path options m) (getMetadata path options).run c := by
  have hrefl := @Keeps.refl φ L read
  refine .bindOk hrefl ((meets_lookup path options h).mono fun a c₁ ha found hfound => ?_)
  obtain ⟨hc₁, hgenuine⟩ := ha found hfound
  cases found with
  | some m => exact Program.meets_pure fun _ _ => hgenuine m rfl
  | none =>
    have hread : Program.Meets (Serves read) (Keeps read)
        (Program.OnOk fun a c' => Faithful read c' ∧ ∀ m, a = .ok m → m = read path options)
        (Program.ask (.read path options : ReaderCall φ) : Reader φ _).run c₁ := by
      refine Program.meets_ask (fun c₂ hR a c₃ hserves => ?_) fun _ c₁ c₂ hQ hR => ⟨hR.1 hQ.1, hQ.2⟩
      have hc₂ : Faithful read c₂ := hR.1 hc₁
      cases hserves with
      | served => exact ⟨hrefl c₂, hc₂, fun m hm => (Except.ok.inj hm).symm⟩
      | failed => exact ⟨hrefl c₂, hc₂, fun m hm => nomatch hm⟩
    refine .bindOk hrefl (hread.mono fun b c₂ hb a ha => ?_)
    obtain ⟨hc₂, hm⟩ := hb a ha
    cases a with
    | error e => exact Program.meets_throw
    | ok m =>
      obtain rfl := hm m rfl
      have hput : Program.Meets (Serves read) (Keeps read) (Program.OnOk fun _ _ => True)
          (Program.ask (.put path (read path options) : ReaderCall φ) : Reader φ _).run c₂ := by
        refine Program.meets_ask (fun c₃ _ _ c₄ hserves => ?_) fun _ _ _ h _ => h
        cases hserves with
        | served => exact ⟨⟨fun h => h.put path options, L.capacity_put _ _ _⟩, trivial⟩
      exact .bindOk hrefl (hput.mono fun _ _ _ _ _ =>
        Program.meets_pure fun _ _ => ⟨options, rfl, fun _ => Or.inr rfl⟩)

/-- Readers of files, at once. -/
abbrev reading (cache : ParquetMetadataCache L)
    (queries : Nat → String × Option ArrowReaderOptions) :
    Pool (ParquetMetadataCache L) (ReaderCall φ) ReaderCall.Answer
      fun _ : Nat => Except ParquetError (ParquetMetaData φ) :=
  ⟨cache, fun i => (getMetadata (queries i).1 (queries i).2).run⟩

/-- **What a reader returns** was read from its file, and has page indexes if they were asked for
and reading the file gives them; whatever files other readers read, with whatever options, however
often they failed, and however little the cache holds. -/
theorem metadata_transparent {capacity : Nat}
    {queries : Nat → String × Option ArrowReaderOptions}
    {p : Pool (ParquetMetadataCache L) (ReaderCall φ) ReaderCall.Answer
      fun _ : Nat => Except ParquetError (ParquetMetaData φ)}
    (hrun : Pool.Run (Serves read) (reading (.new L capacity) queries) p) :
    (L.keys p.state.entries).length ≤ ParquetMetadataCache.bound capacity ∧
    ∀ i m, p.procs i = .pure (.ok m) → ∃ o, m = read (queries i).1 o ∧
      (wantsPageIndex (queries i).2 = true → m.indexed = true ∨ o = (queries i).2) := by
  have hnew : Faithful read (.new L capacity) := fun path m hm => by
    rw [ParquetMetadataCache.new, LruCache.peek_new] at hm
    cases hm
  have hmeets : ∀ i, Program.Meets (Serves read) (Keeps read)
      (Program.OnOk fun m _ => Genuine read (queries i).1 (queries i).2 m)
      ((reading (.new L capacity) queries).procs i) (.new L capacity) :=
    fun i => meets_getMetadata (queries i).1 (queries i).2 hnew
  refine ⟨?_, fun i m hi =>
    Pool.run_done (Keeps.refl read) (Keeps.trans read) hrun hmeets hi m rfl⟩
  obtain ⟨-, hcapacity⟩ := (Pool.run_meets (Keeps.refl read) (Keeps.trans read) hrun hmeets).1
  exact (L.length_keys_le _).trans (hcapacity.trans (L.capacity_new _ _)).le

/-- Files of which only the names are known, and that have the indexes that are asked for. -/
def sampleFooter (path : String) (options : Option ArrowReaderOptions) : ParquetMetaData String :=
  ⟨path, wantsPageIndex options, wantsPageIndex options⟩

def sampleOptions : Option ArrowReaderOptions := some ⟨.optional, .optional⟩

/-- A reader that wants no indexes, and then one that wants them, of one file. -/
theorem metadata_transparent_two : ∃ p,
    Pool.Run (Serves sampleFooter) (reading (.new Lru.cache 1)
      fun i => ("a", if i = 0 then none else sampleOptions)) p ∧
    ∃ m, p.procs 1 = .pure (.ok m) ∧ m.indexed = true := by
  set queries : Nat → String × Option ArrowReaderOptions :=
    fun i => ("a", if i = 0 then none else sampleOptions)
  have hserved : ∀ (c : ParquetMetadataCache Lru.cache) r,
      Serves sampleFooter c r (served sampleFooter c r).1 (served sampleFooter c r).2 :=
    Serves.served
  have hfirst := Pool.run_exec hserved 0 (c := reading (.new Lru.cache 1) queries) rfl
  have hrun := hfirst.trans (Pool.run_exec hserved 1 (p := (getMetadata "a" sampleOptions).run)
    (by simp [queries]))
  obtain ⟨m, hm⟩ : ∃ m, ((getMetadata "a" sampleOptions).run.exec (served sampleFooter)
      (((reading (.new Lru.cache 1) queries).procs 0).exec (served sampleFooter)
        (.new Lru.cache 1)).2).1 = .ok m :=
    ⟨_, rfl⟩
  refine ⟨_, hrun, m, by simp [hm], ?_⟩
  obtain ⟨o, rfl, hindexed⟩ := (metadata_transparent hrun).2 1 m (by simp [hm])
  rcases hindexed rfl with h | rfl
  · exact h
  · rfl

end Readers

/-! ## 5. Readers one after another -/

section Demand

variable {L : LruCache String (ParquetMetaData φ)}
  (read : String → Option ArrowReaderOptions → ParquetMetaData φ)
  (options : Option ArrowReaderOptions)

/-- The cache after readers of these files, with the same options. -/
def demand (c : ParquetMetadataCache L) (paths : List String) : ParquetMetadataCache L :=
  paths.foldl (fun c path => ((getMetadata path options).run.exec (served read) c).2) c

/-- A reader alone: it uses its entry, or puts one there. -/
theorem exec_getMetadata (c : ParquetMetadataCache L) (path : String) :
    ((getMetadata path options).run.exec (served read) c).2 =
      if (c.get path (wantsPageIndex options)).1.isSome
      then (c.get path (wantsPageIndex options)).2
      else (c.get path (wantsPageIndex options)).2.put path (read path options) := by
  rw [getMetadata, Program.exec_run_bind]
  rw [show (Program.ask (.get path (wantsPageIndex options) : ReaderCall φ) : Reader φ _).run.exec
    (served read) c = (.ok (c.get path (wantsPageIndex options)).1,
      (c.get path (wantsPageIndex options)).2) from rfl]
  rcases (c.get path (wantsPageIndex options)).1 with _ | m <;> rfl

/-- The cache of readers one after another, the last one first. -/
structure Demanded (capacity : Nat) (h : List String) (c : ParquetMetadataCache L) : Prop where
  capacity : L.capacity c.entries = ParquetMetadataCache.bound capacity
  tracks : LruCache.Tracks c.entries h
  enough : ∀ path m, L.peek c.entries path = some m →
    (!wantsPageIndex options || m.indexed) = true
  counts : c.hits + c.misses = h.length

variable {read options} {c : ParquetMetadataCache L} {capacity : Nat} {h : List String}

/-- A reader is served if its file is one of those in the cache. -/
theorem Demanded.isSome_iff (hc : Demanded options capacity h c) (path : String) :
    (c.get path (wantsPageIndex options)).1.isSome ↔
      path ∈ (List.recent h).take (ParquetMetadataCache.bound capacity) := by
  rw [← hc.capacity, ← hc.tracks, ← L.peek_isSome, get_fst]
  rcases hl : L.peek c.entries path with _ | m
  · simp
  · simp [Option.filter, hc.enough path m hl]

/-- Every call of `get` is counted, as a hit or as a miss. -/
theorem get_counts (c : ParquetMetadataCache L) (path : String) (wants : Bool) :
    (c.get path wants).2.hits + (c.get path wants).2.misses = c.hits + c.misses + 1 := by
  unfold ParquetMetadataCache.get
  simp only
  split
  · exact Nat.add_right_comm _ _ _
  · rfl

/-- **One more reader.** -/
theorem Demanded.next (hindex : wantsPageIndex options = true → ∀ path,
    (read path options).indexed = true) (hc : Demanded options capacity h c) (path : String) :
    Demanded options capacity (path :: h)
      ((getMetadata path options).run.exec (served read) c).2 := by
  have hcounts := (get_counts c path (wantsPageIndex options)).trans (congrArg (· + 1) hc.counts)
  rw [exec_getMetadata]
  rcases hl : L.peek c.entries path with _ | m
  · have hnone : (c.get path (wantsPageIndex options)).1 = none := by simp [get_fst, hl]
    have hkeys : path ∉ L.keys c.entries := fun h => by simpa [hl] using (L.peek_isSome _ _).mpr h
    rw [hnone, if_neg (by simp)]
    refine ⟨?_, ?_, fun path' m hm => ?_, hcounts⟩
    · rw [ParquetMetadataCache.put, get_entries, L.capacity_put, L.capacity_get, hc.capacity]
    · rw [ParquetMetadataCache.put, get_entries]
      exact (hc.tracks.get_of_none hkeys).put path _
    · rw [ParquetMetadataCache.put, get_entries] at hm
      rcases LruCache.of_peek_put hm with ⟨rfl, rfl⟩ | hm
      · cases hw : wantsPageIndex options with
        | false => rfl
        | true => exact hindex hw path'
      · exact hc.enough path' m (L.peek_get _ _ _ ▸ hm)
  · have hsome : (c.get path (wantsPageIndex options)).1.isSome := by
      simp [get_fst, hl, Option.filter, hc.enough path m hl]
    rw [if_pos hsome]
    refine ⟨?_, ?_, fun path' m' hm => ?_, hcounts⟩
    · rw [get_entries, L.capacity_get, hc.capacity]
    · rw [get_entries]
      exact hc.tracks.get (LruCache.mem_keys_of_peek hl)
    · rw [get_entries, L.peek_get] at hm
      exact hc.enough path' m' hm

/-- **Any number of readers.** -/
theorem demanded (L : LruCache String (ParquetMetaData φ))
    (hindex : wantsPageIndex options = true → ∀ path, (read path options).indexed = true)
    (capacity : Nat) (paths : List String) :
    Demanded options capacity paths.reverse (demand read options (.new L capacity) paths) := by
  induction paths using List.reverseRecOn with
  | nil =>
    refine ⟨L.capacity_new _ _, LruCache.tracks_new, fun path m hm => ?_, rfl⟩
    rw [demand, List.foldl_nil, ParquetMetadataCache.new, LruCache.peek_new] at hm
    cases hm
  | append_singleton paths path ih =>
    rw [demand, List.foldl_append, List.reverse_append]
    exact ih.next hindex path

/-- **Readers one after another**, with the same options: one is served from the cache if its file
is among the last `capacity` different ones that were read, and a larger cache serves whatever a
smaller one does. -/
theorem served_iff (hindex : wantsPageIndex options = true → ∀ path,
    (read path options).indexed = true) (paths : List String) (path : String) :
    (((demand read options (.new L capacity) paths).get path (wantsPageIndex options)).1.isSome ↔
      path ∈ (List.recent paths.reverse).take (ParquetMetadataCache.bound capacity)) ∧
    (demand read options (.new L capacity) paths).hits +
      (demand read options (.new L capacity) paths).misses = paths.length ∧
    ∀ larger, ParquetMetadataCache.bound capacity ≤ ParquetMetadataCache.bound larger →
      ((demand read options (.new L capacity) paths).get path (wantsPageIndex options)).1.isSome →
      ((demand read options (.new L larger) paths).get path (wantsPageIndex options)).1.isSome := by
  have hserved := fun capacity => (demanded L hindex capacity paths).isSome_iff path
  refine ⟨hserved capacity, ?_, fun larger hle h => ?_⟩
  · simpa using (demanded L hindex capacity paths).counts
  · exact (hserved larger).mpr
      ((List.take_subset_take_left _ hle) ((hserved capacity).mp h))

/-- A cache of two footers, after readers of three files. -/
def sampleDemand : ParquetMetadataCache (Lru.cache : LruCache String (ParquetMetaData String)) :=
  demand sampleFooter sampleOptions (.new Lru.cache 2) ["a", "b", "a", "c"]

theorem served_iff_two :
    (sampleDemand.get "a" true).1.isSome ∧ (sampleDemand.get "b" true).1.isNone := by
  have hindex : wantsPageIndex sampleOptions = true → ∀ path,
      (sampleFooter path sampleOptions).indexed = true := fun _ _ => rfl
  have hnone : ¬ (sampleDemand.get "b" true).1.isSome := fun h =>
    absurd ((@served_iff _ _ _ _ 2 hindex ["a", "b", "a", "c"] "b").1.mp h) (by decide)
  exact ⟨(served_iff hindex ["a", "b", "a", "c"] "a").1.mpr (by decide), by simpa using hnone⟩

end Demand

end Ukiel.Query
