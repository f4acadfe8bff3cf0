/-
# The disk cache

`cache/disk.rs`: one budget for published files, pinned reads and temporary fills.

* §1 the state under the mutex, and the directory behind it.
* §2 making room: the least recently used file that nobody reads goes first.
* §3 the operations.  What the filesystem lets happen is an argument (`Io`).
* §4 startup.
* §5 the operations as one step relation, in any order.

The recency list of the `LruCache` is the order of the `AList`: an insertion goes to the front.
-/
import Mathlib
import Ukiel.Lib.Lts
import Ukiel.Lib.Slices
import Ukiel.Lib.Tally

namespace Ukiel.Cache

/-! ## 1. State -/

structure CacheConfig where
  largeObjectThreshold : Nat
  chunkSize : Nat
  writeThrough : Bool
  maxBytes : Nat
  maxEntries : Nat
  sizeEntries : Nat
deriving DecidableEq

structure Entry where
  bytes : Nat
  /-- A `usize`. -/
  readers : UInt64
deriving DecidableEq

/-- A `Fill`, with what its temporary file holds. -/
structure Fill where
  name : String
  bytes : Nat
  data : List UInt8
deriving DecidableEq

/-- A `CachedRead`, with what its open file holds. -/
structure CachedRead where
  name : String
  bytes : Nat
  data : List UInt8
deriving DecidableEq

structure Disk where
  maxBytes : Nat
  maxEntries : Nat
  /-- Most recently used first. -/
  entries : AList (fun _ : String => Entry) := ∅
  pending : AList (fun _ : String => Nat) := ∅
  resident : Nat := 0
  reserved : Nat := 0
  /-- The directory, without lock and temporary files. -/
  files : AList (fun _ : String => List UInt8) := ∅
  fills : AList (fun _ : Nat => Fill) := ∅
  nextFill : Nat := 0
  /-- The names whose temporary file could not be unlinked. -/
  stuck : List String := []

/-- What the filesystem lets happen during an operation. -/
structure Io where
  /-- An existing file can be unlinked. -/
  unlink : String → Bool := fun _ => true
  /-- The temporary file can be unlinked, or is gone already. -/
  unlinkTmp : Bool := true
  create : Bool := true
  openFile : Bool := true
  /-- A write fails after so many bytes. -/
  writeFails : Option Nat := none
  flush : Bool := true
  rename : Bool := true
  read : Bool := true

/-! ## 2. Making room -/

/-- `remove_file`: the file is gone, or it is there and stays. -/
def Disk.unlink (d : Disk) (io : Io) (name : String) : Option Disk :=
  match d.files.lookup name with
  | none => some d
  | some _ => if io.unlink name then some { d with files := d.files.erase name } else none

/-- `entries.pop`, with the bytes given back. -/
def Disk.pop (d : Disk) (name : String) : Disk :=
  match d.entries.lookup name with
  | none => d
  | some e => { d with entries := d.entries.erase name, resident := d.resident - e.bytes }

/-- The negation of the loop condition of `make_room`. -/
def Disk.Fits (d : Disk) (bytes : Nat) (entry : Bool) : Prop :=
  bytes ≤ d.maxBytes - (d.resident + d.reserved) ∧
    d.entries.count + d.pending.count + entry.toNat ≤ d.maxEntries

instance (d : Disk) (bytes : Nat) (entry : Bool) : Decidable (d.Fits bytes entry) := by
  unfold Disk.Fits; infer_instance

/-- The least recently used entry that nobody reads. -/
def Disk.victim (d : Disk) : Option String :=
  (d.entries.entries.reverse.find? fun e => e.2.readers = 0).map Sigma.fst

/-- The loop of `make_room`.  Every round takes an entry, so that none is left when the fuel is
out and the next round would find no victim. -/
def Disk.makeRoomLoop (io : Io) (bytes : Nat) (entry : Bool) : Nat → Disk → Disk × Bool
  | 0, d => (d, decide (d.Fits bytes entry))
  | n + 1, d =>
    if d.Fits bytes entry then (d, true)
    else
      match d.victim with
      | none => (d, false)
      | some name =>
        match d.unlink io name with
        | none => (d, false)
        | some d' => Disk.makeRoomLoop io bytes entry n (d'.pop name)

/-- `make_room`. -/
def Disk.makeRoom (d : Disk) (io : Io) (bytes : Nat) (entry : Bool) : Disk × Bool :=
  if d.maxBytes < bytes then (d, false) else Disk.makeRoomLoop io bytes entry d.entries.count d

/-! ## 3. Operations -/

/-- `read`: the entry becomes the most recently used one.  A file that is missing or has another
length is dropped from the index, if it can be removed. -/
def Disk.read (d : Disk) (io : Io) (name : String) : Disk × Option CachedRead :=
  match d.entries.lookup name with
  | none => (d, none)
  | some e =>
    let d := { d with entries := d.entries.insert name e }
    let invalid := ((d.unlink io name).map (·.pop name)).getD d
    match d.files.lookup name with
    | none => (invalid, none)
    | some data =>
      if io.openFile = true ∧ data.length = e.bytes then
        ({ d with entries := d.entries.insert name { e with readers := e.readers + 1 } },
          some ⟨name, e.bytes, data⟩)
      else (invalid, none)

/-- `ReadLease::drop`: whatever entry has the name now loses a reader. -/
def Disk.release (d : Disk) (name : String) : Disk :=
  { d with entries := d.entries.adjust name fun e => { e with readers := e.readers - 1 } }

/-- `reserve`. -/
def Disk.reserve (d : Disk) (io : Io) (name : String) (bytes : Nat) : Disk × Option Nat :=
  if name ∈ d.entries ∨ name ∈ d.pending then (d, none)
  else
    match d.makeRoom io bytes true with
    | (d, false) => (d, none)
    | (d, true) =>
      if io.create then
        ({ d with
          pending := d.pending.insert name bytes
          reserved := d.reserved + bytes
          fills := d.fills.insert d.nextFill ⟨name, bytes, []⟩
          nextFill := d.nextFill + 1 }, some d.nextFill)
      else (d, none)

/-- `Fill::grow`. -/
def Disk.grow (d : Disk) (io : Io) (f : Nat) (bytes : Nat) : Disk × Bool :=
  match d.fills.lookup f with
  | none => (d, false)
  | some fill =>
    match d.makeRoom io bytes false with
    | (d, false) => (d, false)
    | (d, true) =>
      let fill := { fill with bytes := fill.bytes + bytes }
      ({ d with
        reserved := d.reserved + bytes
        pending := d.pending.insert fill.name fill.bytes
        fills := d.fills.insert f fill }, true)

/-- `Fill::write_at`.  A failed write may have written some of the payload. -/
def Disk.writeAt (d : Disk) (io : Io) (f : Nat) (payload : List UInt8) (offset : Nat) :
    Disk × Bool :=
  match d.fills.lookup f with
  | none => (d, false)
  | some fill =>
    if fill.bytes < offset + payload.length then (d, false)
    else
      let written := match io.writeFails with
        | none => payload
        | some n => payload.take n
      ({ d with fills := d.fills.insert f { fill with data := fill.data.patch 0 offset written } },
        io.writeFails.isNone)

/-- `Fill::drop`, of an unpublished fill.  If the unlink fails, the charge stays. -/
def Disk.dropFill (d : Disk) (io : Io) (f : Nat) : Disk :=
  match d.fills.lookup f with
  | none => d
  | some fill =>
    let d := { d with fills := d.fills.erase f }
    if io.unlinkTmp then
      { d with pending := d.pending.erase fill.name, reserved := d.reserved - fill.bytes }
    else { d with stuck := fill.name :: d.stuck }

/-- `Fill::publish`, with the drop when it fails. -/
def Disk.publish (d : Disk) (io : Io) (f : Nat) : Disk × Bool :=
  match d.fills.lookup f with
  | none => (d, false)
  | some fill =>
    if io.flush = true ∧ fill.data.length = fill.bytes ∧ io.rename = true then
      ({ d with
        files := d.files.insert fill.name fill.data
        pending := d.pending.erase fill.name
        reserved := d.reserved - fill.bytes
        resident := d.resident + fill.bytes
        entries := d.entries.insert fill.name ⟨fill.bytes, 0⟩
        fills := d.fills.erase f }, true)
    else (d.dropFill io f, false)

/-! ## 4. Startup -/

/-- `rsplit_once`. -/
def rsplitOnce (sep s : List Char) : Option (List Char × List Char) :=
  ((List.range (s.length + 1)).reverse.find? fun i => sep.isPrefixOf (s.drop i)).map fun i =>
    (s.take i, s.drop (i + sep.length))

/-- `strip_suffix`. -/
def stripSuffix (suffix s : List Char) : Option (List Char) :=
  if suffix.isSuffixOf s then some (s.take (s.length - suffix.length)) else none

/-- `parse` at an unsigned type, or the digits of a signed one. -/
def parseDigits (s : List Char) : Option Nat :=
  if s ≠ [] ∧ s.all Char.isDigit then
    some (s.foldl (fun n c => n * 10 + (c.toNat - '0'.toNat)) 0)
  else none

def parseUnsigned (width : Nat) (s : List Char) : Option Nat :=
  (parseDigits (match s with
    | '+' :: rest => rest
    | _ => s)).filter (· < 2 ^ width)

/-- `parse::<i64>`. -/
def parseI64 : List Char → Option Int
  | '-' :: rest => ((parseDigits rest).filter (· ≤ 2 ^ 63)).map fun n => -(n : Int)
  | s => (parseUnsigned 63 s).map Int.ofNat

def isHash (s : List Char) : Bool :=
  s.length = 64 && s.all fun c => c.isDigit || ('a' ≤ c && c ≤ 'f') || ('A' ≤ c && c ≤ 'F')

/-- The name of an interrupted fill. -/
def temporaryName (isUuid : String → Bool) (name : String) : Bool :=
  (rsplitOnce ".tmp-".toList name.toList).any fun s => isUuid (String.ofList s.2)

/-- A name the caches of former releases used. -/
def legacyName (isUuid : String → Bool) (object : List Char) (temporary : Bool) : Bool :=
  match (stripSuffix ".parquet".toList object).or (if temporary then some object else none) with
  | none => false
  | some part =>
    match (String.ofList part).splitOn "__" with
    | [ht, table, level, uuid] =>
      ht = "ht" && (parseI64 table.toList).isSome &&
        (match level.toList with
          | 'L' :: n => (parseUnsigned 16 n).isSome
          | _ => false) &&
        isUuid uuid
    | _ => false

/-- `managed_name`. -/
def managedName (isUuid : String → Bool) (name : String) : Bool :=
  match rsplitOnce ".tmp-".toList name.toList with
  | none => go name.toList false
  | some (base, id) => isUuid (String.ofList id) && go base true
where
  /-- With the temporary suffix taken off. -/
  go (base : List Char) (temporary : Bool) : Bool :=
    if (stripSuffix ".file".toList base).any isHash then true
    else
      match rsplitOnce ".chunk-".toList base with
      | none => legacyName isUuid base temporary
      | some (object, chunk) =>
        if (parseUnsigned 64 chunk).isNone then false
        else if (rsplitOnce ['.'] object).any fun s =>
            isHash s.1 && (parseUnsigned 64 s.2).any fun size => 0 < size then true
        else legacyName isUuid object temporary

/-- The second loop of `open`: a file is removed or indexed, under the limits of now. -/
def Disk.recover (isUuid : String → Bool) (io : Io) :
    List (Sigma fun _ : String => List UInt8) → Disk → Option Disk
  | [], d => some d
  | ⟨name, data⟩ :: rest, d =>
    if temporaryName isUuid name = true ∨ d.maxBytes < data.length then
      (d.unlink io name).bind (Disk.recover isUuid io rest)
    else
      match d.makeRoom io data.length true with
      | (_, false) => none
      | (d, true) =>
        Disk.recover isUuid io rest
          { d with
            resident := d.resident + data.length
            entries := d.entries.insert name ⟨data.length, 0⟩ }

/-- `DiskCache::open` on a directory of regular files, by its only owner. -/
def Disk.open (isUuid : String → Bool) (config : CacheConfig) (io : Io)
    (listing : AList fun _ : String => List UInt8) : Option Disk :=
  if config.maxBytes = 0 ∨ config.maxEntries = 0 ∨ config.chunkSize = 0 then none
  else if listing.entries.all fun e => managedName isUuid e.1 then
    Disk.recover isUuid io listing.entries
      { maxBytes := config.maxBytes, maxEntries := config.maxEntries, files := listing }
  else none

/-! ## 5. Steps -/

inductive DiskMove where
  | read (name : String) (io : Io)
  | release (name : String)
  | reserve (name : String) (bytes : Nat) (io : Io)
  | grow (f bytes : Nat) (io : Io)
  | writeAt (f : Nat) (payload : List UInt8) (offset : Nat) (io : Io)
  | publish (f : Nat) (io : Io)
  | drop (f : Nat) (io : Io)
  /-- Somebody else changes or removes a file of the directory. -/
  | outside (name : String) (data : Option (List UInt8))

/-- **One step of the disk cache.** -/
def diskStep (d : Disk) : DiskMove → Option Disk
  | .read name io => some (d.read io name).1
  | .release name => some (d.release name)
  | .reserve name bytes io => some (d.reserve io name bytes).1
  | .grow f bytes io => some (d.grow io f bytes).1
  | .writeAt f payload offset io => some (d.writeAt io f payload offset).1
  | .publish f io => some (d.publish io f).1
  | .drop f io => some (d.dropFill io f)
  | .outside name data =>
    some { d with files := match data with
      | none => d.files.erase name
      | some data => d.files.insert name data }

end Ukiel.Cache
