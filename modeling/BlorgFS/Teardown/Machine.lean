import BlorgFS.CacheFile.Machine

/-! The life of the disk cache's work, `DiskCache.c` once more with every interlocked
operation a step of its own: `DiskCacheEnter` and `DiskCacheLeave`, the fill backlog, the
queue of fills and its worker, and `BlorgDiskCacheCleanup`. What the index answers, how a
read is cut and what the device says come in as a step's `Choice`; that they are what the
index and the cuts give is the other model's matter. A step that touches the index or the
file once they are closed is recorded as `misused`. -/

namespace BlorgFS.Teardown

open Lib DiskCache CacheFile

/-- Who calls `DiskCacheEnter`. -/
inductive Caller where
  | read
  | fill (f : Filler)

/-- What a thread does after it has left: nothing more, drop its hold on a read, or go on
with the loop of `DiskCacheFill`. -/
inductive After where
  | nothing
  | settle (r : ℕ)
  | loop (f : Filler)

inductive Job where
  /-- `DiskCacheEnter`, about to look at `Live`. -/
  | enter (who : Caller)
  /-- About to count itself. -/
  | count (who : Caller)
  /-- Counted, about to look at `Live` again. -/
  | recheck (who : Caller)
  /-- Not live after all, about to drop the count. -/
  | uncount (who : Caller)
  /-- `DiskCacheLeave`. -/
  | leave (after : After)
  /-- The count reached zero: about to set `Idle`. -/
  | setIdle
  /-- `BlorgDiskCacheRead`, about to allocate the read. -/
  | allocate
  | pin (r : ℕ)
  | plan (r : ℕ)
  /-- About to unpin and free a read that is not taken. -/
  | drop (r : ℕ)
  /-- In the issue loop; `first` until a part is in flight. -/
  | issue (r : ℕ) (first : Bool)
  /-- A part at the device. -/
  | reading (r : ℕ)
  | readDone (r : ℕ) (ok : Bool)
  /-- A part at the server. -/
  | fetching (r : ℕ)
  | settle (r : ℕ)
  /-- At the top of `DiskCacheFill`'s loop. -/
  | loop (f : Filler)
  /-- Charged, and about to look whether that was too much. -/
  | charged (f : Filler) (total : ℤ)
  /-- `DiskCacheUnchargeFill`, then `DiskCacheLeave` if the thread has entered. -/
  | uncharge (entered : Bool) (after : After)
  | reserve (f : Filler)
  /-- A slot is reserved: about to allocate the copy. -/
  | copy (f : Filler)
  /-- No copy: about to commit the slot unwritten. -/
  | giveUp (f : Filler)
  /-- `DiskCacheQueueFill`. -/
  | queueFill (f : Filler) (fill : ℕ)
  /-- About to allocate the worker's work item. -/
  | startWorker (f : Filler)
  /-- About to count the worker. -/
  | countWorker (f : Filler)
  /-- About to queue the work item. -/
  | queueWorker (f : Filler)
  /-- No work item: about to give everything queued up. -/
  | abandonAll (f : Filler)
  /-- `DiskCacheFillWorker`, queued or running. -/
  | worker
  /-- A block at the device. -/
  | writing (fill : ℕ)
  | fillDone (fill : ℕ) (written : Bool)
  /-- `DiskCacheFillSettle`, about to commit. -/
  | settleFill (fill : ℕ) (written : Bool)
  /-- `DiskCacheFillSettle`, about to uncharge. -/
  | unchargeFill (fill : ℕ)

/-- How far `BlorgDiskCacheCleanup` is. -/
inductive Phase where
  | notYet | cleared | waiting | closed
  deriving DecidableEq, Repr

/-- `DiskCache`, and beside it the reads and fills so far, how often each fill was
committed and uncharged, and whether the index or the file was touched once closed. -/
structure State where
  live : Bool
  busy : ℤ
  idle : Bool
  fillBytes : ℤ
  queue : List ℕ
  workerQueued : Bool
  outstanding : ℕ → ℤ
  reads : ℕ
  fills : ℕ
  committed : ℕ → ℕ
  uncharged : ℕ → ℕ
  phase : Phase
  misused : Bool
  jobs : List Job

/-- What a step finds outside. -/
structure Choice where
  pool : Bool
  ok : Bool
  last : Bool
  body : Option Filler

def After.jobs : After → List Job
  | .nothing => []
  | .settle r => [.settle r]
  | .loop f => [.loop f]

/-- What follows the loop of `DiskCacheFill`. -/
def done (f : Filler) : After :=
  match f.reader with
  | some r => .settle r
  | none => .nothing

namespace State

variable (s : State)

/-- The index or the file is used. -/
def touch : State := { s with misused := s.misused || s.phase = .closed }

/-- `InterlockedDecrement(&Busy)`, with what follows when it reaches zero. -/
def dropBusy : State × List Job :=
  ({ s with busy := s.busy - 1 }, if s.busy - 1 = 0 then [.setIdle] else [])

/-- One step of a job: the new state, less its jobs, and the jobs it leaves behind. -/
def step (ch : Choice) : Job → State × List Job
  | .enter who =>
    if s.live then (s, [.count who])
    else match who with
      | .read => (s, [])
      | .fill f => (s, [.uncharge false (done f)])
  | .count who => ({ s with busy := s.busy + 1 }, [.recheck who])
  | .recheck who =>
    if s.live then match who with
      | .read => (s, [.allocate])
      | .fill f => (s, [.reserve f])
    else (s, [.uncount who])
  | .uncount who =>
    let (s, jobs) := s.dropBusy
    match who with
    | .read => (s, jobs)
    | .fill f => (s, .uncharge false (done f) :: jobs)
  | .leave after =>
    let (s, jobs) := s.dropBusy
    (s, after.jobs ++ jobs)
  | .setIdle => ({ s with idle := true }, [])
  | .allocate =>
    if ch.pool then
      ({ s with outstanding := Function.update s.outstanding s.reads 1, reads := s.reads + 1 }, [.pin s.reads])
    else (s, [.leave .nothing])
  | .pin r => (s.touch, [.plan r])
  | .plan r => (s.touch, [if ch.ok then .issue r true else if ch.last then .drop r else .plan r])
  | .drop r => ({ s.touch with outstanding := Function.update s.outstanding r 0 }, [.leave .nothing])
  | .issue r first =>
    if ch.pool then
      let part := if ch.ok then (s.touch, Job.reading r) else (s, Job.fetching r)
      ({ part.1 with outstanding := Function.update s.outstanding r (s.outstanding r + 1) },
        [part.2, if ch.last then .settle r else .issue r false])
    else if first then (s, [.drop r])
    else (s, [.settle r])
  | .reading r => (s.touch, [.readDone r ch.ok])
  | .readDone r ok => ({ s with live := s.live && ok }, [.settle r])
  | .fetching r =>
    match ch.body with
    | some f => (s, [.loop { f with reader := some r }])
    | none => (s, [.settle r])
  | .settle r =>
    let outstanding := Function.update s.outstanding r (s.outstanding r - 1)
    if s.outstanding r - 1 = 0 then ({ s.touch with outstanding := outstanding }, [.leave .nothing])
    else ({ s with outstanding := outstanding }, [])
  | .loop f =>
    if f.blockEnd ≤ f.start ∨ f.stop < f.blockEnd then (s, (done f).jobs)
    else ({ s with fillBytes := s.fillBytes + blockSize }, [.charged f (s.fillBytes + blockSize)])
  | .charged f total =>
    if fillBacklog < total then (s, [.uncharge false (done f)]) else (s, [.enter (.fill f)])
  | .uncharge entered after =>
    ({ s with fillBytes := s.fillBytes - blockSize }, if entered then [.leave after] else after.jobs)
  | .reserve f => (s.touch, [if ch.ok then .copy f else .uncharge true (.loop f.next)])
  | .copy f =>
    if ch.pool then ({ s with fills := s.fills + 1 }, [.queueFill f s.fills]) else (s, [.giveUp f])
  | .giveUp f => (s.touch, [.uncharge true (done f)])
  | .queueFill f fill =>
    ({ s with queue := s.queue ++ [fill], workerQueued := true },
      [if s.workerQueued then .loop f.next else .startWorker f])
  | .startWorker f => (s, [if ch.pool then .countWorker f else .abandonAll f])
  | .countWorker f => ({ s with busy := s.busy + 1 }, [.queueWorker f])
  | .queueWorker f => (s, [.worker, .loop f.next])
  | .abandonAll f =>
    ({ s with queue := [], workerQueued := false },
      s.queue.map (fun fill => .settleFill fill false) ++ [.loop f.next])
  | .worker =>
    match s.queue with
    | [] => ({ s with workerQueued := false }, [.leave .nothing])
    | fill :: queue =>
      let s := if s.live then s.touch else s
      ({ s with queue := queue },
        [if s.live = true ∧ ch.pool = true then .writing fill else .settleFill fill false, .worker])
  | .writing fill => (s.touch, [.fillDone fill ch.ok])
  | .fillDone fill written => ({ s with live := s.live && written }, [.settleFill fill written])
  | .settleFill fill _ =>
    ({ s.touch with committed := Function.update s.committed fill (s.committed fill + 1) }, [.unchargeFill fill])
  | .unchargeFill fill =>
    ({ s with fillBytes := s.fillBytes - blockSize
              uncharged := Function.update s.uncharged fill (s.uncharged fill + 1) }, [.leave .nothing])

/-- The next step of `BlorgDiskCacheCleanup`; its wait is over once `Idle` is set. -/
def cleanup : Option State :=
  match s.phase with
  | .notYet => some { s with live := false, phase := .cleared }
  | .cleared =>
    let (s, jobs) := s.dropBusy
    some { s with phase := .waiting, jobs := jobs ++ s.jobs }
  | .waiting => if s.idle then some { s with phase := .closed } else none
  | .closed => none

end State

inductive Act where
  /-- `BlorgDiskCacheRead`. -/
  | read
  /-- `BlorgDiskCacheAdmit`. -/
  | offer (f : Filler)
  | cleanup
  | run (n : ℕ) (ch : Choice)

def State.next (s : State) : Act → Option State
  | .read => some (if s.live then { s with jobs := .enter .read :: s.jobs } else s)
  | .offer f => some (if s.live then { s with jobs := .loop { f with reader := none } :: s.jobs } else s)
  | .cleanup => s.cleanup
  | .run n ch => do
    let job ← s.jobs[n]?
    let (s', jobs) := s.step ch job
    return { s' with jobs := jobs ++ s.jobs.eraseIdx n }

/-- After `BlorgDiskCacheInitialize`. -/
def initial : State where
  live := true
  busy := 1
  idle := false
  fillBytes := 0
  queue := []
  workerQueued := false
  outstanding := fun _ => 0
  reads := 0
  fills := 0
  committed := fun _ => 0
  uncharged := fun _ => 0
  phase := .notYet
  misused := false
  jobs := []

def system : System State where
  init s := s = initial
  step s s' := ∃ act, s.next act = some s'

end BlorgFS.Teardown
