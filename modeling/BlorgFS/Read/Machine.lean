import BlorgFS.Read.Fair
import BlorgFS.Lib.Tally

/-! The life of non-cached reads, `Read.c` and the part of `BlorgDiskCacheRead` that
issues and settles: a machine whose state is the driver's data and a list of tasks in
flight. A task is a thread at a point of its code, a queued work item, a request at
the server or a part at the disk; each step runs one task to its next point, which
may leave several behind. A callback that runs inside the call that issued it is a
task that runs before the issuing thread goes on.

What is outside comes in as the step's `Choice`: whether an allocation succeeds, the
file's size, which blocks the cache pins, how a request ends. -/

namespace BlorgFS.Read

open Lib DiskCache

/-! ### Tasks -/

/-- Who issues a read: `BlorgVolumeRead`, or `ReadIssueReleased`, called by
`ReadFairWorker` with `fromDiskCache` and by `ReadRefetchWorker` without. -/
inductive Caller where
  | dispatcher
  | released (fromDiskCache : Bool)
  deriving DecidableEq, Repr

def Caller.isReleased : Caller → Bool
  | .dispatcher => false
  | .released _ => true

/-- The locals of an issuing thread: its IRP, the trimmed length and the runs the
cache said it would have to fetch. -/
structure Issue where
  irp : ℕ
  caller : Caller
  valid : ℕ
  runs : ℕ
  deriving DecidableEq, Repr

inductive Task where
  /-- About to call `BlorgDiskCacheRead` with no fetches allowed. -/
  | offer (k : Issue)
  /-- About to take `ReadFairAdmit`'s lock the first time. -/
  | admitFirst (k : Issue)
  /-- About to allocate the work item a held read needs. -/
  | allocate (k : Issue)
  /-- About to take `ReadFairAdmit`'s lock again. -/
  | admitAgain (k : Issue) (item : ℕ)
  /-- About to free a work item that was not needed after all. -/
  | freeItem (k : Issue) (item : ℕ)
  /-- About to reserve, in `ReadFromDiskCache`. -/
  | reserve (k : Issue)
  /-- About to call `BlorgDiskCacheRead` with one fetch and the reserved ones. -/
  | attempt (k : Issue) (reserved : ℕ)
  /-- In the issue loop of `BlorgDiskCacheRead`, for a whole read or a partly held
  one with its reserved fetches. -/
  | issue (k : Issue) (extra : Option ℕ) (read issued : ℕ)
  /-- About to give back what a read the cache took did not need. -/
  | surplus (k : Issue) (reserved fetches : ℕ)
  /-- About to give back all that was reserved. -/
  | declined (k : Issue) (reserved : ℕ)
  /-- About to call `ReadIssueFetch`. -/
  | fetch (k : Issue)
  /-- About to settle a read that could not be issued. -/
  | unissued (k : Issue) (status : Status)
  /-- About to complete the IRP. -/
  | complete (irp : ℕ) (dispatcher : Bool) (status : Status) (information : ℕ)
  /-- The whole read is at the server; `ReadComplete` will run. -/
  | fetching (irp : ℕ)
  /-- A part is at the disk, or at the server. -/
  | part (read : ℕ) (fetched : Bool) (length : ℕ)
  /-- About to drop a hold in `DiskCacheReadSettle`. -/
  | settleRead (read : ℕ)
  /-- `ReadDiskComplete`. -/
  | diskComplete (irp : ℕ) (status : Status) (valid fetches : ℕ) (refetch : Bool)
  /-- `ReadDiskComplete` past `ReadFairGiveBack`. -/
  | diskSettle (irp : ℕ) (status : Status) (valid : ℕ) (refetch : Bool)
  /-- A read to queue in `ReadFairIssueHeld`. -/
  | issueHeld (irp : ℕ)
  /-- A queued work item: `ReadFairWorker` or `ReadRefetchWorker`. -/
  | worker (irp : ℕ) (fromDiskCache : Bool)
  deriving DecidableEq, Repr

/-! ### The driver's data -/

/-- `DISK_CACHE_READ`, without the key and the buffer. `live` is false once it has
been freed. -/
structure DiskRead where
  irp : ℕ
  valid : ℕ
  slots : List (Option ℕ)
  outstanding : ℤ
  status : Status
  refetch : ℕ
  bytes : ℕ
  span : ℕ
  fetchCount : ℕ
  live : Bool
  deriving DecidableEq, Repr

def DiskRead.none : DiskRead := ⟨0, 0, [], 0, .success, 0, 0, 0, 0, false⟩

/-- `count` reads came, and `returned` says what `BlorgVolumeRead` returned for each.
`items` are the work items allocated and not freed. `misuse` remembers an IRP touched
after its completion, a `DISK_CACHE_READ` or a work item used after it was freed, and
a `ReadComplete` that found no stamp. -/
structure Core extends Fair where
  count : ℕ
  returned : ℕ → Option Status
  readCount : ℕ
  reads : ℕ → DiskRead
  itemCount : ℕ
  items : List ℕ
  misuse : Bool

structure State where
  core : Core
  tasks : List Task

/-- What a step finds outside. -/
structure Choice where
  pool : Bool
  size : ℕ
  slots : Option (List (Option ℕ))
  ok : Bool
  code : ℕ
  bytes : ℕ
  current : Bool
  deriving DecidableEq, Repr

/-- `ReadTrimToFileSize`: the length before end of file, or `STATUS_END_OF_FILE`. -/
def trim (request : Request) (size : ℕ) : Option ℕ :=
  if size ≤ request.offset then none
  else if 2 ^ 63 - 1 - request.length < request.offset then none
  else if size < request.offset + request.length then
    some (request.length - (request.offset + request.length - size))
  else some request.length

namespace Core

variable (V : Setup) (c : Core)

def withFair (f : Fair) : Core := { c with toFair := f }

/-- Runs a section that may release reads; they are queued once the lock is dropped. -/
def withReleased (result : Fair × List ℕ) (tasks : List Task) : Core × List Task :=
  (c.withFair result.1, tasks ++ result.2.map .issueHeld)

def setRead (r : ℕ) (read : DiskRead) : Core := { c with reads := Function.update c.reads r read }

def setContext2 (i : ℕ) (value : Context2) : Core :=
  c.withFair (c.setIrp i { c.irps i with context2 := value })

/-- `BlorgVolumeRead` returns. -/
def returns (i : ℕ) (status : Status) : Core :=
  { c with returned := Function.update c.returned i (some status) }

/-- The issuing thread is done with a read that is now someone else's. -/
def leave (k : Issue) : Core :=
  match k.caller with
  | .dispatcher => c.returns k.irp .pending
  | .released _ => c

def allocate : Core := { c with itemCount := c.itemCount + 1, items := c.itemCount :: c.items }

def free (item : ℕ) : Core := { c with items := c.items.erase item }

/-! ### Ways on -/

/-- The read cannot be issued, and was not admitted: `BlorgVolumeRead` returns the
status, `ReadIssueReleased` settles and completes. -/
def refuse (k : Issue) (status : Status) : Core × List Task :=
  match k.caller with
  | .dispatcher => (c.returns k.irp status, [.complete k.irp true status 0])
  | .released _ => (c, [.unissued k status])

/-- Where an issuing thread goes once its read is admitted. -/
def admittedTo (k : Issue) : Task :=
  match k.caller with
  | .dispatcher => if k.runs ≠ 0 then .reserve k else .fetch k
  | .released fromDiskCache => if fromDiskCache then .offer k else .fetch k

/-- Where it goes when the cache does not hold the read whole. -/
def notWhole (k : Issue) (runs : ℕ) : Task :=
  match k.caller with
  | .dispatcher => .admitFirst { k with runs := runs }
  | .released _ => if runs ≠ 0 then .reserve { k with runs := runs } else .fetch { k with runs := runs }

/-- `ReadFairAdmit`'s `MayHold`. -/
def mayHold (k : Issue) : Bool :=
  match k.caller with
  | .dispatcher => (V.request k.irp).speculative
  | .released _ => false

/-! ### BlorgDiskCacheRead -/

/-- `BlorgDiskCacheRead` up to its issue loop, with the slots the cache pins if it
gets that far: the slots the read is served from, or the runs it would fetch. -/
def plan (k : Issue) (allowed : ℕ) (pinned : Option (List (Option ℕ))) : Except ℕ (List (Option ℕ)) :=
  let request := V.request k.irp
  match pinned with
  | none => .error 0
  | some slots =>
    if request.offset % pageSize = 0 ∧ request.length % pageSize = 0 ∧ 0 < k.valid ∧ k.valid ≤ request.length ∧
        blocksOf request.offset k.valid ≤ maxReadBlocks ∧ slots.length = blocksOf request.offset k.valid then
      let held := slots.countP Option.isSome
      if held = 0 then .error 0
      else if allowed = 0 ∧ held ≠ slots.length then .error (runsToFetch slots)
      else match planSlots allowed (slots.length + 1) slots held with
        | some (served, slots) => if served = 0 then .error 0 else .ok slots
        | none => .error 0
    else .error 0

/-- Sets up the `DISK_CACHE_READ` and enters the issue loop. -/
def start (k : Issue) (extra : Option ℕ) (slots : List (Option ℕ)) : Core × List Task :=
  ({ c with
     readCount := c.readCount + 1
     reads := Function.update c.reads c.readCount ⟨k.irp, k.valid, slots, 1, .success, 0, 0, 0, 0, true⟩ },
    [.issue k extra c.readCount 0])

/-- The cache did not take the read after all. -/
def notTaken (k : Issue) (extra : Option ℕ) : Task :=
  match extra with
  | none => notWhole k 0
  | some reserved => .declined k reserved

/-- The end of the issue loop: the issuer drops its hold and goes on. -/
def issued (k : Issue) (extra : Option ℕ) (r : ℕ) : Core × List Task :=
  match extra with
  | none => (c.leave k, [.settleRead r])
  | some reserved => (c, [.settleRead r, .surplus k reserved (c.reads r).fetchCount])

/-- One round of the issue loop, with `DiskCacheReadPart`. `pool` is everything a
part needs but the client's word on a fetch, which is `ok`: a fetch the client
refuses has been counted. -/
def issueStep (ch : Choice) (k : Issue) (extra : Option ℕ) (r issued : ℕ) : Core × List Task :=
  let read := c.reads r
  let part := partAt (V.request k.irp).offset read.valid read.slots issued
  let fetched := part.slot = none
  let read := { read with fetchCount := if fetched ∧ ch.pool = true then read.fetchCount + 1 else read.fetchCount }
  if ch.pool = true ∧ (ch.ok = true ∨ ¬ fetched) then
    let c := c.setRead r { read with outstanding := read.outstanding + 1, span := read.span + part.length }
    let atWork := Task.part r fetched part.length
    if part.last = true ∨ spanOf read.valid ≤ issued + part.length then
      let (c, tasks) := c.issued k extra r
      (c, atWork :: tasks)
    else (c, [atWork, .issue k extra r (issued + part.length)])
  else if issued = 0 then
    (c.setRead r { read with live := false }, [notTaken k extra])
  else (c.setRead r { read with refetch := read.refetch ||| readUnstarted }).issued k extra r

/-- `DiskCacheReadDone` and `DiskCacheReadFetched`, up to `DiskCacheReadSettle`. -/
def partDone (ch : Choice) (r : ℕ) (fetched : Bool) (length : ℕ) : Core :=
  let read := c.reads r
  if fetched then
    if ch.ok then
      if ch.current then c.setRead r { read with bytes := read.bytes + min ch.bytes length }
      else c.setRead r { read with refetch := read.refetch ||| readStale }
    else c.setRead r
      { read with status := if read.status = .success then .failed ch.code else read.status }
  else if ch.ok then c.setRead r { read with bytes := read.bytes + ch.bytes }
  else c.setRead r { read with refetch := read.refetch ||| readFailed }

/-- `DiskCacheReadSettle`. -/
def settleRead (r : ℕ) : Core × List Task :=
  let read := { c.reads r with outstanding := (c.reads r).outstanding - 1 }
  if read.outstanding ≠ 0 then (c.setRead r read, [])
  else
    let refetch := if read.status = .success ∧ read.refetch = 0 ∧ read.bytes ≠ read.span
      then read.refetch ||| readFailed else read.refetch
    let status := if refetch ≠ 0 then .unexpectedIoError else read.status
    (c.setRead r { read with live := false },
      [.diskComplete read.irp status read.valid read.fetchCount (refetch ≠ 0)])

/-! ### Steps -/

/-- Fetches a read the cache served has beyond its own admission's. -/
def extraFetches (fetches : ℕ) : ℕ := if 1 < fetches then fetches - 1 else 0

/-- One step of a task: the new data and the tasks it leaves behind. -/
def step (ch : Choice) : Task → Core × List Task
  | .offer k =>
    match plan V k 0 ch.slots with
    | .error runs => (c, [notWhole k runs])
    | .ok slots => c.start k none slots
  | .admitFirst k =>
    if c.mustHold V (V.request k.irp).node (mayHold V k) then (c, [.allocate k])
    else (c.withFair (c.admitNow V k.irp), [admittedTo k])
  | .allocate k =>
    if ch.pool then (c.allocate, [.admitAgain k c.itemCount]) else c.refuse k .insufficientResources
  | .admitAgain k item =>
    if c.mustHold V (V.request k.irp).node (mayHold V k) then
      ((c.withFair (c.hold V k.irp (mayHold V k) item)).leave k, [])
    else (c.withFair (c.admitNow V k.irp), [.freeItem k item])
  | .freeItem k item => (c.free item, [admittedTo k])
  | .reserve k =>
    let (f, reserved) := c.toFair.reserve k.irp (k.runs - 1)
    (c.withFair f, [.attempt k reserved])
  | .attempt k reserved =>
    match plan V k (1 + reserved) ch.slots with
    | .error _ => (c, [.declined k reserved])
    | .ok slots => c.start k (some reserved) slots
  | .issue k extra r issued => c.issueStep V ch k extra r issued
  | .surplus k reserved fetches =>
    let (c, tasks) := c.withReleased (c.giveBack V k.irp (wrapSub 32 reserved (extraFetches fetches))) []
    (c.leave k, tasks)
  | .declined k reserved => c.withReleased (c.giveBack V k.irp reserved) [.fetch k]
  | .fetch k =>
    let c := c.setContext2 k.irp .stamp
    if ch.ok then (c.leave k, [.fetching k.irp]) else (c, [.unissued k (.failed ch.code)])
  | .unissued k status =>
    let (c, tasks) := c.withReleased (c.settle V k.irp) []
    match k.caller with
    | .dispatcher => (c.returns k.irp status, .complete k.irp true status 0 :: tasks)
    | .released _ => (c, .complete k.irp false status 0 :: tasks)
  | .complete i dispatcher status information =>
    (c.withFair (c.setIrp i
      { c.irps i with completions := ⟨dispatcher, status, information⟩ :: (c.irps i).completions }), [])
  | .fetching i =>
    let status := if ch.ok then if ch.pool then .success else .insufficientResources else .failed ch.code
    c.withReleased (c.settle V i) [.complete i false status (if status = .success then ch.bytes else 0)]
  | .part r fetched length => (c.partDone ch r fetched length, [.settleRead r])
  | .settleRead r => c.settleRead r
  | .diskComplete i status valid fetches refetch =>
    c.withReleased (c.giveBack V i (extraFetches fetches)) [.diskSettle i status valid refetch]
  | .diskSettle i status valid refetch =>
    if status = .success then c.withReleased (c.settle V i) [.complete i false .success valid]
    else if refetch ∧ ch.pool then (c.allocate.setContext2 i (.item c.itemCount), [.worker i false])
    else c.withReleased (c.settle V i) [.complete i false status 0]
  | .issueHeld i => (c, [.worker i true])
  | .worker i fromDiskCache =>
    let c := match (c.irps i).context2 with
      | .item n => c.free n
      | _ => c
    match trim (V.request i) ch.size with
    | none => (c, [.unissued ⟨i, .released fromDiskCache, 0, 0⟩ .endOfFile])
    | some valid =>
      let k : Issue := ⟨i, .released fromDiskCache, valid, 0⟩
      if (c.irps i).admitted = false then (c, [.admitFirst k]) else (c, [admittedTo k])

/-- The IRP whose fields a task's next step touches. -/
def touches : Task → Option ℕ
  | .offer k | .admitFirst k | .allocate k | .admitAgain k _ | .freeItem k _ | .reserve k | .attempt k _ | .issue k _ _ _
  | .declined k _ | .fetch k | .unissued k _ => some k.irp
  | .complete i _ _ _ | .fetching i | .diskComplete i _ _ _ _ | .diskSettle i _ _ _ | .issueHeld i
  | .worker i _ => some i
  | .part r _ _ => some (c.reads r).irp
  | .surplus _ _ _ | .settleRead _ => none

/-- The `DISK_CACHE_READ` it uses. -/
def uses : Task → Option ℕ
  | .issue _ _ r _ | .part r _ _ | .settleRead r => some r
  | _ => none

/-- A step that is a misuse. -/
def misused (t : Task) : Bool :=
  ((c.touches t).any fun i => (c.irps i).completions ≠ []) ||
  ((uses t).any fun r => (c.reads r).live = false) ||
  match t with
  | .freeItem _ n => n ∉ c.items
  | .issueHeld i | .worker i _ =>
    match (c.irps i).context2 with
    | .item n => n ∉ c.items
    | _ => true
  | .fetching i => (c.irps i).context2 ≠ .stamp
  | _ => false

end Core

/-! ### Runs -/

inductive Act where
  | arrive (ch : Choice)
  | run (task : Task) (ch : Choice)
  deriving DecidableEq, Repr

namespace State

variable (V : Setup) (s : State)

/-- `BlorgVolumeRead` for the next non-cached read, up to its first offer to the disk
cache. -/
def arrive (ch : Choice) : State :=
  let i := s.core.count
  let c := { s.core with count := i + 1 }
  match trim (V.request i) ch.size with
  | none => ⟨c.returns i .endOfFile, .complete i true .endOfFile 0 :: s.tasks⟩
  | some valid =>
    if ch.pool then ⟨c, .offer ⟨i, .dispatcher, valid, 0⟩ :: s.tasks⟩
    else ⟨c.returns i (.failed ch.code), .complete i true (.failed ch.code) 0 :: s.tasks⟩

def next : Act → Option State
  | .arrive ch => some (s.arrive V ch)
  | .run task ch =>
    if task ∈ s.tasks then
      let (c, tasks) := s.core.step V ch task
      some ⟨{ c with misuse := s.core.misuse || s.core.misused task }, tasks ++ s.tasks.erase task⟩
    else none

end State

/-- After `BlorgReadInit`. -/
def initial : State where
  core := {
    inFlightBytes := 0, virtualTime := 0, inFlightFetches := 0, held := [], waiting := []
    nodes := fun _ => ⟨0, 0⟩
    irps := fun _ => ⟨false, 0, .empty, [], 0, 0⟩
    reserved := fun _ => 0, givenBack := fun _ => 0, underflow := false
    count := 0, returned := fun _ => none
    readCount := 0, reads := fun _ => .none
    itemCount := 0, items := [], misuse := false }
  tasks := []

def system (V : Setup) : System State where
  init s := s = initial
  step s s' := ∃ act, s.next V act = some s'

end BlorgFS.Read
