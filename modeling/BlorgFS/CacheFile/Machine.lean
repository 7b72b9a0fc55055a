import BlorgFS.DiskCache.Parts
import BlorgFS.DiskCache.IndexLedger
import BlorgFS.Lib.Tally

/-! The disk cache's I/O, `DiskCache.c`, with the bytes: reads cut into parts that come
from the cache file or the server, fetched blocks copied and written to the file, and
the file being lost. A job is a thread at a point of its code, an IRP at the cache
file's device, a request at the server or a queued work item; a step runs one job to
its next point.

What is outside comes in as the step's `Choice`. The device returns what was last
written; an operation that fails, or falls short, may leave anything in the part of
the buffer or the block it was for. -/

namespace BlorgFS.CacheFile

open Lib DiskCache

/-- A version of a file, as a key names it: its path's hashes, `Size` and
`ModifiedTime`. -/
structure Version where
  file0 : ℕ
  file1 : ℕ
  size : ℕ
  modifiedTime : ℕ
  deriving DecidableEq, Repr

def versionOf (key : Key) : Version := ⟨key.file0, key.file1, key.size, key.modifiedTime⟩

/-- `FILE_BUFFER`: a body and the version its entity tag names, if it has one. -/
structure Body where
  bytes : ℕ → UInt8
  size : ℕ
  version : Option (ℕ × ℕ)

/-- `DiskCacheIsVersion`. -/
def isVersion (key : Key) (body : Body) : Prop := body.version = some (key.size, key.modifiedTime)

instance (key : Key) (body : Body) : Decidable (isVersion key body) := inferInstanceAs (Decidable (_ = _))

/-! ### Data -/

/-- `DISK_CACHE_FILL`. -/
structure Fill where
  slot : ℕ
  buffer : ℕ → UInt8

/-- Where a read is: its blocks being pinned and planned, its parts in flight, or
freed. -/
inductive Stage where
  | setUp | serving | ended
  deriving DecidableEq, Repr

/-- `DISK_CACHE_READ`, with its arguments, the issue loop's `issued` and the IRP's
pages. `status` is the first failure. -/
structure CacheRead where
  key : Key
  offset : ℕ
  valid : ℕ
  allowed : ℕ
  slots : List (Option ℕ)
  outstanding : ℤ
  status : Option ℕ
  bytes : ℕ
  span : ℕ
  refetch : ℕ
  issued : ℕ
  buffer : ℕ → UInt8
  stage : Stage

/-- The part the issue loop is at. -/
def CacheRead.part (read : CacheRead) : Part := partAt read.offset read.valid read.slots read.issued

/-- No read. -/
def CacheRead.freed : CacheRead :=
  ⟨⟨0, 0, 0, 0, 0⟩, 0, 0, 0, [], 0, none, 0, 0, 0, 0, fun _ => 0, .ended⟩

/-- The locals of `DiskCacheFill`: the key with the block it is at, the body and where
it starts and ends in the file. `reader` is the read to settle afterwards, when it is
called from `DiskCacheReadFetched`. -/
structure Filler where
  key : Key
  source : ℕ → UInt8
  offset : ℕ
  stop : ℕ
  reader : Option ℕ

inductive Job where
  /-- About to call `BlorgDiskCacheIndexPinHeld`. -/
  | pin (r : ℕ)
  /-- In the loop of `BlorgDiskCacheIndexPlanRead`. -/
  | plan (r : ℕ) (held : ℤ)
  /-- About to unpin and free a read the cache does not take. -/
  | drop (r : ℕ)
  /-- In the issue loop. -/
  | issue (r : ℕ)
  /-- A part at the device, `pos` bytes into the read. -/
  | reading (r pos length slot : ℕ)
  /-- `DiskCacheReadDone`, with the bytes read unless it failed. -/
  | readDone (r pos length : ℕ) (result : Option ℕ)
  /-- A part at the server. -/
  | fetching (r pos length : ℕ)
  /-- `DiskCacheReadSettle`. -/
  | settle (r : ℕ)
  /-- At the top of `DiskCacheFill`'s loop. -/
  | charge (f : Filler)
  /-- About to call `BlorgDiskCacheIndexReserve`. -/
  | reserve (f : Filler)
  /-- About to copy a block for the slot reserved. -/
  | copy (f : Filler) (slot : ℕ)
  /-- `DiskCacheQueueFill`. -/
  | queueFill (f : Filler) (fill : Fill)
  /-- `DiskCacheQueueFill`, about to allocate the worker's work item. -/
  | startWorker (f : Filler)
  /-- `DiskCacheFillWorker`. -/
  | worker
  /-- A block at the device. -/
  | writing (fill : Fill)
  /-- `DiskCacheFillDone`. -/
  | fillDone (fill : Fill) (written : Bool)
  /-- `DiskCacheFillSettle` of a fill that was given up. -/
  | abandon (fill : Fill)

/-- A read handed back: what it was for, its pages then, and how it ended. -/
structure Settled where
  key : Key
  offset : ℕ
  valid : ℕ
  buffer : ℕ → UInt8
  status : Option ℕ
  refetch : Bool

/-- `DiskCache`, the cache file's bytes, the reads so far and those settled. -/
structure Core where
  world : World
  disk : ℕ → UInt8
  live : Bool
  fillBytes : ℤ
  workerQueued : Bool
  queue : List Fill
  reads : ℕ → CacheRead
  count : ℕ
  settled : List Settled

structure State where
  core : Core
  jobs : List Job

/-- What a step finds outside. `noise` is what a device that does not do what it was
asked leaves behind. -/
structure Choice where
  pool : Bool
  ok : Bool
  code : ℕ
  count : ℕ
  noise : ℕ → UInt8
  body : Body

/-- `DISK_CACHE_FILL_BACKLOG`. -/
def fillBacklog : ℤ := 32 * 1024 * 1024

/-- `STATUS_UNEXPECTED_IO_ERROR`. -/
def unexpectedIoError : ℕ := 0xC00000E9

/-- `v` with `length` places from `start` on taken from `w`. -/
def overwrite (v : ℕ → UInt8) (start length : ℕ) (w : ℕ → UInt8) : ℕ → UInt8 := fun p =>
  if start ≤ p ∧ p < start + length then w (p - start) else v p

/-! ### Steps -/

namespace Filler

/-- The block a fill is at: where it starts and ends in the file. -/
def start (f : Filler) : ℕ := f.key.block * blockSize

def blockEnd (f : Filler) : ℕ := min (f.start + blockSize) f.key.size

def next (f : Filler) : Filler := { f with key := { f.key with block := f.key.block + 1 } }

/-- What runs once the fill is done. -/
def done (f : Filler) : List Job :=
  match f.reader with
  | some r => [.settle r]
  | none => []

/-- The copy of the block, with zeros past end of file. -/
def copied (f : Filler) (j : ℕ) : UInt8 :=
  if j < f.blockEnd - f.start then f.source (f.start - f.offset + j) else 0

end Filler

namespace Core

variable (c : Core)

def setRead (r : ℕ) (read : CacheRead) : Core := { c with reads := Function.update c.reads r read }

def withWorld (w : World) : Core := { c with world := w }

def uncharge : Core := { c with fillBytes := c.fillBytes - blockSize }

/-- `DiskCacheFillSettle`. -/
def fillSettle (fill : Fill) (written : Bool) : Option Core := do
  let w ← c.world.exec (.commit fill.slot written)
  return (c.withWorld w).uncharge

/-- `DiskCacheFill`, up to its loop, for `length` bytes at `offset` of `key`'s file. -/
def fill (key : Key) (source : ℕ → UInt8) (offset length : ℕ) (reader : Option ℕ) : List Job :=
  let f : Filler :=
    ⟨{ key with block := (offset + blockSize - 1) / blockSize }, source, offset, offset + length, reader⟩
  if length = 0 ∨ key.size < offset ∨ key.size - offset < length then f.done else [.charge f]

/-- Blocks `BlorgDiskCacheIndexPinHeld` pins for read `r`, and where it goes on. -/
def pin (r : ℕ) : Option (Core × List Job) := do
  let read := c.reads r
  let last := lastBlock read.offset read.valid
  let (slots, held, _) ← c.world.index.pinHeld read.key last
  let w ← c.world.exec (.pinHeld r read.key last)
  let c := (c.withWorld w).setRead r { read with slots := slots }
  if held = 0 ∨ (read.allowed = 0 ∧ held ≠ slots.length) then return (c, [.drop r])
  else return (c, [.plan r held])

/-- One round of `BlorgDiskCacheIndexPlanRead`, or the read being set up once it is
over. -/
def plan (r : ℕ) (held : ℤ) : Option (Core × List Job) :=
  let read := c.reads r
  let scan := Index.scan read.slots
  if scan.runs ≤ read.allowed then
    if held = 0 then some (c, [.drop r])
    else some (c.setRead r { read with
      outstanding := 1, status := none, bytes := 0, span := 0, refetch := 0, issued := 0, stage := .serving },
      [.issue r])
  else do
    let gap := (read.slots.drop scan.gapStart).take scan.gapLength
    let taken := pinsOf r { read.key with block := read.key.block + scan.gapStart } gap
    let w ← c.world.exec (.unpin taken gap false)
    return ((c.withWorld w).setRead r { read with slots := Index.giveUp read.slots scan.gapStart scan.gapLength },
      [.plan r (held - scan.gapLength)])

/-- Unpins all blocks of read `r` and frees it. -/
def release (r : ℕ) (served : Bool) : Option Core := do
  let read := c.reads r
  let w ← c.world.exec (.unpin (pinsOf r read.key read.slots) read.slots served)
  return (c.withWorld w).setRead r { read with stage := .ended }

/-- One round of the issue loop, with `DiskCacheReadPart`. -/
def issue (ch : Choice) (r : ℕ) : Core × List Job :=
  let read := c.reads r
  let part := read.part
  if ch.pool = true ∧ (ch.ok = true ∨ part.slot ≠ none) then
    let atWork := match part.slot with
      | some slot => Job.reading r read.issued part.length slot
      | none => Job.fetching r read.issued part.length
    let c := c.setRead r { read with
      outstanding := read.outstanding + 1, span := read.span + part.length, issued := read.issued + part.length }
    if part.last = true ∨ spanOf read.valid ≤ read.issued + part.length then (c, [atWork, .settle r])
    else (c, [atWork, .issue r])
  else if read.issued = 0 then (c, [.drop r])
  else (c.setRead r { read with refetch := read.refetch ||| readUnstarted }, [.settle r])

/-- The device reads a part: `count` bytes of it, or fails. -/
def transfer (ch : Choice) (r pos length slot : ℕ) : Core × List Job :=
  let read := c.reads r
  let n := min ch.count length
  let diskOffset := slot * blockSize + (read.offset + pos) % blockSize
  let noisy := overwrite read.buffer pos length ch.noise
  if ch.ok then
    (c.setRead r { read with buffer := overwrite noisy pos n fun j => c.disk (diskOffset + j) },
      [.readDone r pos length (some n)])
  else (c.setRead r { read with buffer := noisy }, [.readDone r pos length none])

/-- `DiskCacheReadDone`. -/
def readDone (r : ℕ) (result : Option ℕ) : Core × List Job :=
  let read := c.reads r
  match result with
  | some n => (c.setRead r { read with bytes := read.bytes + n }, [.settle r])
  | none => ({ c.setRead r { read with refetch := read.refetch ||| readFailed } with live := false }, [.settle r])

/-- `DiskCacheReadFetched`. -/
def readFetched (ch : Choice) (r pos length : ℕ) : Core × List Job :=
  let read := c.reads r
  let received := min ch.body.size length
  if ch.ok then
    if isVersion read.key ch.body then
      (c.setRead r { read with
        buffer := overwrite read.buffer pos received ch.body.bytes, bytes := read.bytes + received },
        fill read.key ch.body.bytes (read.offset + pos) received (some r))
    else (c.setRead r { read with refetch := read.refetch ||| readStale }, [.settle r])
  else (c.setRead r { read with status := read.status.or (some ch.code) }, [.settle r])

/-- `DiskCacheReadSettle`. -/
def settle (r : ℕ) : Option (Core × List Job) :=
  let read := { c.reads r with outstanding := (c.reads r).outstanding - 1 }
  if read.outstanding ≠ 0 then some (c.setRead r read, [])
  else do
    let refetch := if read.status = none ∧ read.refetch = 0 ∧ read.bytes ≠ read.span
      then read.refetch ||| readFailed else read.refetch
    let status := if refetch ≠ 0 then some unexpectedIoError else read.status
    let c ← (c.setRead r read).release r (status = none)
    return ({ c with settled :=
      ⟨read.key, read.offset, read.valid, read.buffer, status, refetch ≠ 0⟩ :: c.settled }, [])

/-- The device writes a block: all of it, or something. -/
def write (ch : Choice) (fill : Fill) : Core × List Job :=
  let written : Bool := ch.ok ∧ ch.count = blockSize
  ({ c with disk := overwrite c.disk (fill.slot * blockSize) blockSize (if written then fill.buffer else ch.noise) },
    [.fillDone fill written])

/-- One step of a job: the new data and the jobs it leaves behind. `none` is an
assertion of the index that does not hold. -/
def step (ch : Choice) : Job → Option (Core × List Job)
  | .pin r => c.pin r
  | .plan r held => c.plan r held
  | .drop r => (c.release r false).map fun c => (c, [])
  | .issue r => some (c.issue ch r)
  | .reading r pos length slot => some (c.transfer ch r pos length slot)
  | .readDone r _ _ result => some (c.readDone r result)
  | .fetching r pos length => some (c.readFetched ch r pos length)
  | .settle r => c.settle r
  | .charge f =>
    if f.blockEnd ≤ f.start ∨ f.stop < f.blockEnd then some (c, f.done)
    else if fillBacklog < c.fillBytes + blockSize ∨ c.live = false then some (c, f.done)
    else some ({ c with fillBytes := c.fillBytes + blockSize }, [.reserve f])
  | .reserve f => do
    let (_, slot, _) ← c.world.index.reserve f.key
    let w ← c.world.exec (.reserve f.key)
    match slot with
    | some slot => return (c.withWorld w, [.copy f slot])
    | none => return ((c.withWorld w).uncharge, [.charge f.next])
  | .copy f slot =>
    if ch.pool then some (c, [.queueFill f ⟨slot, f.copied⟩])
    else do
      let w ← c.world.exec (.commit slot false)
      return ((c.withWorld w).uncharge, f.done)
  | .queueFill f fill =>
    let c := { c with queue := c.queue ++ [fill] }
    if c.workerQueued then some (c, [.charge f.next])
    else some ({ c with workerQueued := true }, [.startWorker f])
  | .startWorker f =>
    if ch.pool then some (c, [.worker, .charge f.next])
    else some ({ c with queue := [], workerQueued := false }, c.queue.map .abandon ++ [.charge f.next])
  | .worker =>
    match c.queue with
    | [] => some ({ c with workerQueued := false }, [])
    | fill :: queue =>
      some ({ c with queue := queue }, [if c.live ∧ ch.pool then .writing fill else .abandon fill, .worker])
  | .writing fill => some (c.write ch fill)
  | .fillDone fill written =>
    (({ c with live := c.live && written } : Core).fillSettle fill written).map fun c => (c, [])
  | .abandon fill => (c.fillSettle fill false).map fun c => (c, [])

end Core

/-! ### Runs -/

inductive Act where
  /-- `BlorgDiskCacheRead`, for `valid` of `length` bytes at `offset`, with `allowed`
  fetches and the caller's pages. -/
  | read (key : Key) (offset length valid allowed : ℕ) (pages : ℕ → UInt8) (pool : Bool)
  /-- `BlorgDiskCacheAdmit`, of a body for `offset` on, with the node's key as it is. -/
  | diskCacheAdmit (key : Key) (body : Body) (offset : ℕ)
  /-- `Live` is cleared, by an I/O that failed or by `BlorgDiskCacheCleanup`. -/
  | lost
  | run (n : ℕ) (ch : Choice)

namespace State

variable (s : State)

def read (key : Key) (offset length valid allowed : ℕ) (pages : ℕ → UInt8) (pool : Bool) : State :=
  if s.core.live = true ∧ 0 < valid ∧ valid ≤ length ∧ offset < key.size ∧ valid ≤ key.size - offset ∧
      offset % pageSize = 0 ∧ length % pageSize = 0 ∧ blocksOf offset valid ≤ maxReadBlocks ∧ pool = true then
    let r := s.core.count
    let read : CacheRead := { CacheRead.freed with
      key := { key with block := firstBlock offset }, offset := offset, valid := valid, allowed := allowed
      buffer := pages, stage := .setUp }
    ⟨{ s.core.setRead r read with count := r + 1 }, .pin r :: s.jobs⟩
  else s

def next : Act → Option State
  | .read key offset length valid allowed pages pool => some (s.read key offset length valid allowed pages pool)
  | .diskCacheAdmit key body offset =>
    if s.core.live = true ∧ isVersion key body then
      some { s with jobs := Core.fill key body.bytes offset body.size none ++ s.jobs }
    else some s
  | .lost => some { s with core := { s.core with live := false } }
  | .run n ch => do
    let job ← s.jobs[n]?
    let (c, jobs) ← s.core.step ch job
    return ⟨c, jobs ++ s.jobs.eraseIdx n⟩

end State

/-- The bytes of the version a body's entity tag names, from `offset` on. -/
def Body.Genuine (content : Version → ℕ → UInt8) (key : Key) (offset : ℕ) (body : Body) : Prop :=
  ∀ size time, body.version = some (size, time) →
    ∀ j < body.size, body.bytes j = content ⟨key.file0, key.file1, size, time⟩ (offset + j)

/-- What is assumed of the server: the body a request for a file's bytes gets is of the
version its entity tag names. -/
def State.Truthful (content : Version → ℕ → UInt8) (s : State) : Act → Prop
  | .diskCacheAdmit key body offset => body.Genuine content key offset
  | .run n ch => ∀ r pos length, s.jobs[n]? = some (.fetching r pos length) →
    ch.body.Genuine content (s.core.reads r).key ((s.core.reads r).offset + pos)
  | _ => True

/-- After `BlorgDiskCacheInitialize`, with whatever the file holds. -/
def initial (index : Index) (disk : ℕ → UInt8) : State :=
  ⟨⟨⟨index, 0, fun _ => none⟩, disk, true, 0, false, [], fun _ => .freed, 0, []⟩, []⟩

def system (content : Version → ℕ → UInt8) : System State where
  init s := ∃ pool slotCount index disk, Index.indexInitialize pool slotCount = .ok index ∧ s = initial index disk
  step s s' := ∃ act, s.Truthful content act ∧ s.next act = some s'

end BlorgFS.CacheFile
