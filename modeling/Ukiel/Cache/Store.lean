/-
# The caching store

`cache.rs`: a read goes to the whole cached file, to cached chunks or to the backing store, and
what it fetched on the way is offered to the disk cache.

* §1 requests, and what the store takes from other crates.
* §2 the backing store.
* §3 reading and filling cache files.
* §4 `get_opts` as a machine: a phase ends where the source awaits.
* §5 prewarmed uploads.
* §6 the store with every call under way, as one step relation.
* §7 what a process leaves in the directory.
-/
import Mathlib
import Ukiel.Cache.Disk

namespace Ukiel.Cache

/-! ## 1. Requests -/

inductive GetRange where
  | bounded (lo hi : Nat)
  | offset (lo : Nat)
  | suffix (n : Nat)
deriving DecidableEq

/-- `GetOptions`; times are in seconds. -/
structure GetOptions where
  range : Option GetRange := none
  head : Bool := false
  version : Option String := none
  ifMatch : Option String := none
  ifNoneMatch : Option String := none
  ifModifiedSince : Option Int := none
  ifUnmodifiedSince : Option Int := none
deriving DecidableEq

/-- The requests `get_opts` hands to the backing store as they are. -/
def GetOptions.conditional (o : GetOptions) : Bool :=
  o.version.isSome || o.ifMatch.isSome || o.ifNoneMatch.isSome || o.ifModifiedSince.isSome ||
    o.ifUnmodifiedSince.isSome

inductive StoreError where
  | notFound
  | precondition
  | range
  | io
deriving DecidableEq

structure GetResult where
  bytes : List UInt8
  range : Nat × Nat
  /-- `meta.size`. -/
  size : Nat
deriving DecidableEq

/-- What the store takes from other crates.  `P` is the type of the object paths. -/
structure Crates (P : Type) where
  /-- The blake3 hash of a path, in hexadecimal. -/
  key : P → String
  /-- `GetRange::as_range`, `none` for an error. -/
  asRange : GetRange → Nat → Option (Nat × Nat)
  /-- The backing store finds a condition of the request not met by the object. -/
  refuses : List UInt8 → GetOptions → Bool
  /-- `Uuid::parse_str` accepts. -/
  isUuid : String → Bool

/-- What they promise: no two of the paths in use collide, a hash has 64 hexadecimal digits, a
resolved range lies within the object, and a bounded range within the object is its own
resolution. -/
structure Crates.Lawful {P : Type} (C : Crates P) : Prop where
  key_injective : Function.Injective C.key
  key_hash : ∀ p, isHash (C.key p).toList = true
  asRange_le : ∀ r n lo hi, C.asRange r n = some (lo, hi) → lo ≤ hi ∧ hi ≤ n
  asRange_bounded : ∀ lo hi n, lo < hi → hi ≤ n → C.asRange (.bounded lo hi) n = some (lo, hi)

section Store

variable {P : Type} [DecidableEq P] (C : Crates P)

abbrev Objects (P : Type) := AList fun _ : P => List UInt8

/-- `whole_name`. -/
def Crates.wholeName (p : P) : String := C.key p ++ ".file"

/-- The name of a chunk, in `read_range_chunked`. -/
def Crates.chunkName (p : P) (size index : Nat) : String :=
  C.key p ++ ("." ++ (toString size ++ (".chunk-" ++ toString index)))

/-- The range of a request, of an object of `n` bytes. -/
def Crates.resolve (options : GetOptions) (n : Nat) : Option (Nat × Nat) :=
  match options.range with
  | none => some (0, n)
  | some r => C.asRange r n

/-! ## 2. The backing store -/

/-- `inner.get_opts`. -/
def Crates.get (objects : Objects P) (p : P) (options : GetOptions) : Except StoreError GetResult :=
  match objects.lookup p with
  | none => .error .notFound
  | some b =>
    if options.conditional = true ∧ C.refuses b options = true then .error .precondition
    else
      match C.resolve options b.length with
      | none => .error .range
      | some (lo, hi) => .ok ⟨b.slice lo hi, (lo, hi), b.length⟩

/-- `inner.get_range`. -/
def Crates.getRange (objects : Objects P) (p : P) (lo hi : Nat) : Except StoreError (List UInt8) :=
  (C.get objects p { range := some (.bounded lo hi) }).map GetResult.bytes

/-- The bytes of a chunk. -/
def chunkOf (b : List UInt8) (size index : Nat) : List UInt8 :=
  b.slice (index * size) (min (index * size + size) b.length)

/-! ## 3. Cache files -/

/-- `CachedRead::range`: `read_exact` wants all the bytes, and a read may fail. -/
def CachedRead.range (x : CachedRead) (io : Io) (lo hi : Nat) : Option (List UInt8) :=
  if io.read = true ∧ (x.data.slice lo hi).length = hi - lo then some (x.data.slice lo hi) else none

/-- The pieces of `CachedRead::stream`, of up to a MiB, from an open file that can be read. -/
def CachedRead.streamFrom (x : CachedRead) (hi : Nat) : Nat → Nat → Option (List UInt8)
  | 0, _ => some []
  | fuel + 1, lo =>
    if lo = hi then some []
    else
      let len := min (hi - lo) (1024 * 1024)
      (x.range {} lo (lo + len)).bind fun bytes =>
        (x.streamFrom hi fuel (lo + len)).map (bytes ++ ·)

/-- `CachedRead::stream`.  A piece has at least one byte. -/
def CachedRead.stream (x : CachedRead) (lo hi : Nat) : Option (List UInt8) :=
  x.streamFrom hi (hi - lo) lo

/-- `save`: a fill that was not written is dropped. -/
def Disk.save (d : Disk) (io : Io) (f : Nat) (payload : List UInt8) : Disk :=
  match d.writeAt io f payload 0 with
  | (d, false) => d.dropFill io f
  | (d, true) => (d.publish io f).1

abbrev Sizes := AList fun _ : String => Nat

/-- `memoize_size`.  The memo is a list with the most recently used size first. -/
def Sizes.memoize (sizes : Sizes) (capacity : Nat) (key : String) (size : Nat) : Sizes :=
  if capacity = 0 then sizes
  else if key ∉ sizes ∧ sizes.count = capacity then
    match sizes.entries.getLast? with
    | none => sizes.insert key size
    | some last => (sizes.erase last.1).insert key size
  else sizes.insert key size

/-- `object_size`. -/
def Crates.objectSize (objects : Objects P) (capacity : Nat) (p : P) (sizes : Sizes) :
    Sizes × Except StoreError Nat :=
  match sizes.lookup (C.key p) with
  | some size => (sizes.insert (C.key p) size, .ok size)
  | none =>
    match C.get objects p { head := true } with
    | .error e => (sizes, .error e)
    | .ok res => (sizes.memoize capacity (C.key p) res.size, .ok res.size)

/-! ## 4. `get_opts` -/

/-- The loop of `read_range_chunked`: its arguments, the next index, and what it has. -/
structure Loop where
  size : Nat
  lo : Nat
  hi : Nat
  index : Nat
  out : List UInt8
deriving DecidableEq

section Loop

variable (L : Loop) (chunkSize : Nat)

/-- The chunk, from `start` to `stop`, and what of it is asked for. -/
def Loop.start : Nat := L.index * chunkSize
def Loop.stop : Nat := min (L.start chunkSize + chunkSize) L.size
def Loop.from : Nat := max L.lo (L.start chunkSize)
def Loop.upto : Nat := min L.hi (L.stop chunkSize)

def Loop.next (bytes : List UInt8) : Loop :=
  { L with index := L.index + 1, out := L.out ++ bytes }

end Loop

/-- Where a request is. -/
inductive Phase where
  | start
  /-- The whole file is open. -/
  | serve (x : CachedRead)
  /-- `inner.get_opts`, of a head request, whose size is memoized. -/
  | head
  | size
  | whole (size : Nat)
  | fetch (f size : Nat)
  | save (f : Nat) (bytes : List UInt8) (res : GetResult)
  /-- `inner.get_opts`, and nothing after it. -/
  | bypass
  | chunk (L : Loop)
  /-- The chunk's file is open. -/
  | piece (L : Loop) (x : CachedRead)
  | missing (L : Loop)
  | fetchChunk (L : Loop) (f : Nat)
  | saveChunk (L : Loop) (f : Nat) (bytes : List UInt8)
  | fetchPiece (L : Loop)
  | done (res : Except StoreError GetResult)

/-- Once the size is known: the whole object is fetched, or the chunks of a range, or the object
is read past the cache. -/
def Crates.sized (config : CacheConfig) (options : GetOptions) (size : Nat) : Phase :=
  if size ≤ config.largeObjectThreshold then .whole size
  else
    match options.range with
    | none => .bypass
    | some r =>
      match C.asRange r size with
      | none => .done (.error .range)
      | some (lo, hi) =>
        if lo = hi then .done (.ok ⟨[], (lo, hi), size⟩)
        else .chunk ⟨size, lo, hi, lo / config.chunkSize, []⟩

/-- **One phase of `get_opts`**, with a disk cache. -/
def Crates.getStep (config : CacheConfig) (objects : Objects P) (io : Io) (p : P)
    (options : GetOptions) (sizes : Sizes) (phase : Phase) (d : Disk) : Disk × Sizes × Phase :=
  let name (L : Loop) := C.chunkName p config.chunkSize L.index
  match phase with
  | .start =>
    if options.conditional then (d, sizes, .bypass)
    else
      match d.read io (C.wholeName p) with
      | (d, some x) => (d, sizes, .serve x)
      | (d, none) => (d, sizes, if options.head then .head else .size)
  | .serve x =>
    (d.release x.name, sizes, .done (match C.resolve options x.bytes with
      | none => .error .range
      | some (lo, hi) =>
        match x.stream lo hi with
        | none => .error .io
        | some bytes => .ok ⟨bytes, (lo, hi), x.bytes⟩))
  | .head =>
    match C.get objects p options with
    | .error e => (d, sizes, .done (.error e))
    | .ok res => (d, sizes.memoize config.sizeEntries (C.key p) res.size, .done (.ok res))
  | .size =>
    match C.objectSize objects config.sizeEntries p sizes with
    | (sizes, .error e) => (d, sizes, .done (.error e))
    | (sizes, .ok size) => (d, sizes, C.sized config options size)
  | .whole size =>
    match d.reserve io (C.wholeName p) size with
    | (d, none) => (d, sizes, .bypass)
    | (d, some f) => (d, sizes, .fetch f size)
  | .fetch f size =>
    match C.get objects p {} with
    | .error e => (d.dropFill io f, sizes, .done (.error e))
    | .ok res =>
      if res.bytes.length = size then
        match C.resolve options size with
        | none => (d.dropFill io f, sizes, .done (.error .range))
        | some (lo, hi) => (d, sizes, .save f res.bytes ⟨res.bytes.slice lo hi, (lo, hi), res.size⟩)
      else (d.dropFill io f, sizes, .bypass)
  | .save f bytes res => (d.save io f bytes, sizes, .done (.ok res))
  | .bypass => (d, sizes, .done (C.get objects p options))
  | .chunk L =>
    if L.index ≤ (L.hi - 1) / config.chunkSize then
      match d.read io (name L) with
      | (d, some x) => (d, sizes, .piece L x)
      | (d, none) => (d, sizes, .missing L)
    else (d, sizes, .done (.ok ⟨L.out, (L.lo, L.hi), L.size⟩))
  | .piece L x =>
    let start := L.start config.chunkSize
    (d.release x.name, sizes,
      match x.range io (L.from config.chunkSize - start) (L.upto config.chunkSize - start) with
      | some bytes => .chunk (L.next bytes)
      | none => .missing L)
  | .missing L =>
    match d.reserve io (name L) (L.stop config.chunkSize - L.start config.chunkSize) with
    | (d, some f) => (d, sizes, .fetchChunk L f)
    | (d, none) => (d, sizes, .fetchPiece L)
  | .fetchChunk L f =>
    match C.getRange objects p (L.start config.chunkSize) (L.stop config.chunkSize) with
    | .error e => (d.dropFill io f, sizes, .done (.error e))
    | .ok bytes => (d, sizes, .saveChunk L f bytes)
  | .saveChunk L f bytes =>
    let start := L.start config.chunkSize
    (d.save io f bytes, sizes, .chunk (L.next
      (bytes.slice (L.from config.chunkSize - start) (L.upto config.chunkSize - start))))
  | .fetchPiece L =>
    match C.getRange objects p (L.from config.chunkSize) (L.upto config.chunkSize) with
    | .error e => (d, sizes, .done (.error e))
    | .ok bytes => (d, sizes, .chunk (L.next bytes))
  | .done res => (d, sizes, .done res)

/-- The request is dropped: its fill and its read lease go.  A fill that is being saved stays
until the blocking task is through, so that the drop comes after it. -/
def Phase.cancel (io : Io) (d : Disk) : Phase → Option Disk
  | .serve x | .piece _ x => some (d.release x.name)
  | .fetch f _ | .fetchChunk _ f => some (d.dropFill io f)
  | .save .. | .saveChunk .. => none
  | _ => some d

/-! ## 5. Uploads -/

inductive PartState where
  | running
  | finished
  /-- The part's future failed or was dropped. -/
  | lost
deriving DecidableEq

structure Part where
  data : List UInt8
  /-- It was admitted, and its task has a clone of the tee. -/
  teed : Bool
  state : PartState := .running
deriving DecidableEq

/-- A multipart upload.  `tee` is the fill, for as long as a clone of the tee is around, and
`held` says that `PrewarmingUpload` has one. -/
structure Upload (P : Type) where
  location : P
  tee : Option Nat := none
  held : Bool := false
  poisoned : Bool := false
  /-- Completed, or aborted. -/
  closed : Bool := false
  parts : List Part := []

variable {P : Type} (u : Upload P)

/-- The last clone of the tee takes the fill with it. -/
def Upload.settle (io : Io) (d : Disk) : Disk × Upload P :=
  if u.held = true ∨ ∃ part ∈ u.parts, part.teed = true ∧ part.state = .running then (d, u)
  else
    match u.tee with
    | none => (d, u)
    | some f => (d.dropFill io f, { u with tee := none })

def Upload.addPart (data : List UInt8) (teed : Bool) : Upload P :=
  { u with parts := u.parts ++ [⟨data, teed, .running⟩] }

/-- `put_part`. -/
def Upload.putPart (io : Io) (data : List UInt8) (d : Disk) : Disk × Upload P :=
  match u.held, u.tee with
  | true, some f =>
    match d.grow io f data.length with
    | (d, true) => (d, u.addPart data true)
    | (d, false) => Upload.settle { u.addPart data false with poisoned := true, held := false } io d
  | _, _ => (d, u.addPart data false)

/-- The offset of a part: the lengths of the parts before it. -/
def Upload.offset (i : Nat) : Nat := (u.parts.map Part.data).offset i

def Upload.endPart (i : Nat) (part : Part) (finished : Bool) : Upload P :=
  let state := if finished then PartState.finished else .lost
  { u with parts := u.parts.set i { part with state := state } }

/-- The future of a part ends: its task has written, or was never started, and `inner.put_part`
has returned, or the future was dropped. -/
def Upload.runPart (io : Io) (i : Nat) (part : Part) (written ok : Bool) (d : Disk) :
    Disk × Upload P :=
  match part.teed && written && !u.poisoned, u.tee with
  | true, some f =>
    match d.writeAt io f part.data (u.offset i) with
    | (d, good) =>
      Upload.settle { u.endPart i part (written && ok) with poisoned := !good } io d
  | _, _ => (u.endPart i part (written && ok)).settle io d

/-- `complete`, once `inner.complete` has returned.  Every part is finished, so that the tee has
no other clone. -/
def Upload.complete (io : Io) (d : Disk) : Disk × Upload P :=
  (match u.tee with
    | none => d
    | some f => if u.held && !u.poisoned then (d.publish io f).1 else d.dropFill io f,
    { u with tee := none, held := false, closed := true })

/-- `abort`, or the upload is dropped. -/
def Upload.abort (io : Io) (d : Disk) : Disk × Upload P :=
  Upload.settle { u with held := false, closed := true } io d

/-! ## 6. The store -/

inductive Call (P : Type) where
  | get (p : P) (options : GetOptions) (phase : Phase)
  /-- `put_opts`, after `inner.put_opts`, with the fill once it is reserved. -/
  | put (p : P) (payload : List UInt8) (fill : Option Nat)
  | upload (u : Upload P)

structure CachingObjectStore (P : Type) where
  config : CacheConfig
  disk : Option Disk
  sizes : Sizes := ∅
  /-- The objects behind `inner`. -/
  objects : Objects P
  calls : AList (fun _ : Nat => Call P) := ∅

/-- What happens to the disk cache, if there is one. -/
def CachingObjectStore.withDisk {α : Type} (s : CachingObjectStore P) (g : Disk → Disk × α) (a : α) :
    CachingObjectStore P × α :=
  match s.disk with
  | none => (s, a)
  | some d => ({ s with disk := some (g d).1 }, (g d).2)

theorem withDisk_none {α : Type} {s : CachingObjectStore P} (h : s.disk = none)
    (g : Disk → Disk × α) (a : α) : s.withDisk g a = (s, a) := by
  rw [CachingObjectStore.withDisk, h]

theorem withDisk_some {α : Type} {s : CachingObjectStore P} {d : Disk} (h : s.disk = some d)
    (g : Disk → Disk × α) (a : α) :
    s.withDisk g a = ({ s with disk := some (g d).1 }, (g d).2) := by
  rw [CachingObjectStore.withDisk, h]

variable [DecidableEq P] (C : Crates P)

/-- `with_config`, on a directory with these files. -/
def Crates.withConfig (config : CacheConfig) (io : Io) (files : AList fun _ : String => List UInt8)
    (objects : Objects P) : CachingObjectStore P :=
  { config := config, disk := Disk.open C.isUuid config io files, objects := objects }

def CachingObjectStore.setCall (s : CachingObjectStore P) (t : Nat) (call : Call P) :
    CachingObjectStore P :=
  { s with calls := s.calls.insert t call }

/-- The file a call has open. -/
def Call.open : Call P → Option String
  | .get _ _ (.serve x) | .get _ _ (.piece _ x) => some x.name
  | _ => none

def CachingObjectStore.Reading (s : CachingObjectStore P) (name : String) : Prop :=
  ∃ call ∈ s.calls.entries, call.2.open = some name

instance (s : CachingObjectStore P) (name : String) : Decidable (s.Reading name) := by
  unfold CachingObjectStore.Reading; infer_instance

inductive Move (P : Type) where
  | get (t : Nat) (p : P) (options : GetOptions)
  /-- `put_opts`, up to where `inner.put_opts` has stored the object. -/
  | put (t : Nat) (p : P) (payload : List UInt8)
  | putMultipart (t : Nat) (p : P) (io : Io)
  | advance (t : Nat) (io : Io)
  | cancel (t : Nat) (io : Io)
  | putPart (t : Nat) (data : List UInt8) (io : Io)
  | endPart (t i : Nat) (written ok : Bool) (io : Io)
  | complete (t : Nat) (io : Io)
  | abort (t : Nat) (io : Io)
  /-- An object is created past this store, or by a copy. -/
  | create (p : P) (data : List UInt8)
  /-- A cache file that nobody reads is cut short. -/
  | truncate (name : String) (n : Nat)
  | remove (name : String)

/-- **One step of the store.**  Objects are created once, and neither changed nor deleted. -/
def storeStep (s : CachingObjectStore P) : Move P → Option (CachingObjectStore P)
  | .get t p options =>
    if t ∈ s.calls then none else some (s.setCall t (.get p options .start))
  | .put t p payload =>
    if t ∈ s.calls ∨ p ∈ s.objects then none
    else
      let s := { s with objects := s.objects.insert p payload }
      some (if s.config.writeThrough then s.setCall t (.put p payload none) else s)
  | .putMultipart t p io =>
    if t ∈ s.calls then none
    else if s.config.writeThrough then
      let (s, fill) := s.withDisk (fun d => d.reserve io (C.wholeName p) 0) none
      some (s.setCall t (.upload { location := p, tee := fill, held := fill.isSome }))
    else some (s.setCall t (.upload { location := p }))
  | .advance t io =>
    match s.calls.lookup t with
    | some (.get _ _ (.done _)) => none
    | some (.get p options phase) =>
      let (s', sizes, phase) :=
        s.withDisk (C.getStep s.config s.objects io p options s.sizes phase)
          (s.sizes, .done (C.get s.objects p options))
      some (CachingObjectStore.setCall { s' with sizes := sizes } t (.get p options phase))
    | some (.put p payload none) =>
      let (s, fill) := s.withDisk (fun d => d.reserve io (C.wholeName p) payload.length) none
      some (match fill with
        | none => { s with calls := s.calls.erase t }
        | some f => s.setCall t (.put p payload (some f)))
    | some (.put _ payload (some f)) =>
      let (s, _) := s.withDisk (fun d => (d.save io f payload, ())) ()
      some { s with calls := s.calls.erase t }
    | _ => none
  | .cancel t io =>
    match s.calls.lookup t with
    | some (.get _ _ phase) =>
      match s.disk with
      | none => some { s with calls := s.calls.erase t }
      | some d => (phase.cancel io d).map fun d =>
          { s with disk := some d, calls := s.calls.erase t }
    | some (.put _ _ none) => some { s with calls := s.calls.erase t }
    | _ => none
  | .putPart t data io =>
    match s.calls.lookup t with
    | some (.upload u) =>
      if u.closed then none
      else
        let (s, u) := s.withDisk (u.putPart io data) (u.addPart data false)
        some (s.setCall t (.upload u))
    | _ => none
  | .endPart t i written ok io =>
    match s.calls.lookup t with
    | some (.upload u) =>
      match u.parts[i]? with
      | some part =>
        if part.state = .running then
          let (s, u) := s.withDisk (u.runPart io i part written ok)
            (u.endPart i part (written && ok))
          some (s.setCall t (.upload u))
        else none
      | none => none
    | _ => none
  | .complete t io =>
    match s.calls.lookup t with
    | some (.upload u) =>
      if u.closed = false ∧ (∀ part ∈ u.parts, part.state = .finished) ∧
          u.location ∉ s.objects then
        let s := { s with
          objects := s.objects.insert u.location (u.parts.map Part.data).flatten }
        let (s, u) := s.withDisk (u.complete io) { u with closed := true }
        some (s.setCall t (.upload u))
      else none
    | _ => none
  | .abort t io =>
    match s.calls.lookup t with
    | some (.upload u) =>
      let (s, u) := s.withDisk (u.abort io) { u with closed := true }
      some (s.setCall t (.upload u))
    | _ => none
  | .create p data =>
    if p ∈ s.objects then none else some { s with objects := s.objects.insert p data }
  | .truncate name n =>
    if s.Reading name then none
    else some { s with disk := s.disk.map fun d =>
      match d.files.lookup name with
      | none => d
      | some data => { d with files := d.files.insert name (data.take n) } }
  | .remove name =>
    if s.Reading name then none
    else some { s with disk := s.disk.map fun d => { d with files := d.files.erase name } }

/-- The answer of a request that has come to one. -/
def CachingObjectStore.answer (s : CachingObjectStore P) (t : Nat) :
    Option (P × GetOptions × Except StoreError GetResult) :=
  match s.calls.lookup t with
  | some (.get p options (.done res)) => some (p, options, res)
  | _ => none

/-! ## 7. Directories -/

/-- What a process that is gone left in the directory: of a published file the first bytes, of an
interrupted fill anything. -/
inductive Leftover (P : Type) where
  | whole (p : P) (n : Nat)
  | chunk (p : P) (size index n : Nat)
  | temporary (name id : String) (data : List UInt8)

/-- A whole file has all its bytes. -/
def Leftover.Complete (objects : Objects P) : Leftover P → Prop
  | .whole p n => ∀ b ∈ objects.lookup p, b.length ≤ n
  | _ => True

/-- The directory with these files. -/
def Crates.leave (objects : Objects P) : List (Leftover P) → AList fun _ : String => List UInt8
  | [] => ∅
  | .whole p n :: rest =>
    match objects.lookup p with
    | none => leave objects rest
    | some b => (leave objects rest).insert (C.wholeName p) (b.take n)
  | .chunk p size index n :: rest =>
    match objects.lookup p with
    | none => leave objects rest
    | some b =>
      (leave objects rest).insert (C.chunkName p size index) ((chunkOf b size index).take n)
  | .temporary name id data :: rest =>
    (leave objects rest).insert (name ++ (".tmp-" ++ id)) data

end Store

end Ukiel.Cache
