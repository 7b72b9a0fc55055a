import BlorgFS.PathCache.Lookups

/-! The change feed's follower, `ChangeFeed.c`, over the caches' machine. Each poll's
outcome becomes calls into the caches that one thread, number `feedThread`, makes
one after another, while every other thread goes on in its own calls. Only the
follower calls `BlorgPathCacheFollowFeed`.

A poll in flight is waited out before a stop, and a stop and a start follow the
volume's lifecycle, so `BlorgChangeFeedReceive` and `BlorgChangeFeedStop` never
overlap; both run as `feedThread` here. -/

namespace BlorgFS.ChangeFeed

open Lib PathCache

/-- `CHANGE_KIND`. -/
inductive ChangeKind where
  | created | removed | modified
  deriving DecidableEq, Repr

/-- `CHANGE_ENTRY`. -/
structure ChangeEntry where
  path : Path
  kind : ChangeKind
  deriving DecidableEq, Repr

/-- `CHANGE_BATCH`. -/
structure Batch where
  reset : Bool
  epoch : ℕ
  generation : ℕ
  entries : List ChangeEntry
  deriving DecidableEq, Repr

def preciseStructuralMax : ℕ := 64

/-- The call `ChangeFeedApply` makes for one entry. -/
def applyEntry (entry : ChangeEntry) : Call :=
  if entry.kind = .modified then .invalidate entry.path else .invalidatePrefix entry.path

/-- `ChangeFeedApply`, as the calls it makes. -/
def apply (batch : Batch) : List Call :=
  let structural := batch.entries.countP fun entry => entry.kind ≠ .modified
  if preciseStructuralMax < structural then [.invalidateAll] else batch.entries.map applyEntry

/-- A `BlorgChangeFeedReceive` or `BlorgChangeFeedStop` in progress: the batch it
applies, if it is one of the followed epoch, when it began, and the epoch and
generation it leaves behind. -/
structure Work where
  batch : Option Batch
  receivedAt : ℕ
  epoch : ℕ
  since : ℕ
  deriving DecidableEq, Repr

/-- A batch of the followed epoch that was applied. -/
structure Applied where
  batch : Batch
  receivedAt : ℕ
  returnedAt : ℕ
  deriving DecidableEq, Repr

/-- `CHANGE_FEED_STATE` over the caches. `calls` are those left of the work in
progress. `lastReset` says what came last: a reset or another epoch, or a failure
or a stop. -/
structure Follower where
  cache : State
  running : Bool
  epoch : ℕ
  since : ℕ
  calls : List Call
  work : Option Work
  applied : List Applied
  lastReset : Bool

def feedThread : ℕ := 0

/-- Who moves: another thread or the clock, a poll's outcome, the follower within
the work in hand, the return of that, or the volume's start or stop. -/
inductive Act where
  | other (act : State.Act)
  | answer (outcome : Option Batch)
  | go (pool : Bool)
  | finish
  | start
  | stop
  deriving DecidableEq, Repr

namespace Follower

variable (N : Names)

/-- What another thread may do. -/
def allowed : State.Act → Bool
  | .tick _ => true
  | .start t call _ => t ≠ feedThread && match call with
    | .followFeed _ => false
    | _ => true
  | .step t _ => t ≠ feedThread

/-- `BlorgChangeFeedReceive`, up to the calls it makes. -/
def receive (w : Follower) : Option Batch → Follower
  | none =>
    { w with
      epoch := 0, since := 0
      calls := [.followFeed false]
      work := some ⟨none, w.cache.event, 0, 0⟩
      lastReset := false }
  | some batch =>
    if batch.reset ∨ batch.epoch ≠ w.epoch then
      { w with
        calls := [.followFeed true]
        work := some ⟨none, w.cache.event, batch.epoch, batch.generation⟩
        lastReset := true }
    else
      { w with
        calls := apply batch
        work := some ⟨some batch, w.cache.event, batch.epoch, batch.generation⟩ }

/-- The work in hand returns. -/
def returns (w : Follower) (work : Work) : Follower :=
  { w with
    epoch := work.epoch, since := work.since
    work := none
    applied := match work.batch with
      | some batch => ⟨batch, work.receivedAt, w.cache.event⟩ :: w.applied
      | none => w.applied }

def next (w : Follower) : Act → Option Follower
  | .other act =>
    if allowed act then (w.cache.next N act).map fun cache => { w with cache := cache } else none
  | .answer outcome => if w.running ∧ w.work = none then some (w.receive outcome) else none
  | .go pool =>
    if w.cache.threads feedThread = ⟨.idle, []⟩ then
      match w.calls with
      | [] => none
      | call :: calls => (w.cache.next N (.start feedThread call pool)).map fun cache =>
        { w with cache := cache, calls := calls }
    else (w.cache.next N (.step feedThread pool)).map fun cache => { w with cache := cache }
  | .finish =>
    match w.work with
    | none => none
    | some work =>
      if w.calls = [] ∧ w.cache.threads feedThread = ⟨.idle, []⟩ then some (w.returns work) else none
  | .start =>
    if w.running = false ∧ w.work = none then some { w with running := true, epoch := 0, since := 0 } else none
  | .stop =>
    if w.work = none then
      some { w with
        running := false
        calls := [.followFeed false]
        work := some ⟨none, w.cache.event, w.epoch, w.since⟩
        lastReset := false }
    else none

end Follower

/-- The follower before its first start, over fresh caches. -/
def Follower.initial (now : ℕ) : Follower where
  cache := PathCache.initial now
  running := false
  epoch := 0
  since := 0
  calls := []
  work := none
  applied := []
  lastReset := false

/-- The follower and everything else that uses the caches. -/
def system (N : Names) : System Follower where
  init w := ∃ now, w = .initial now
  step w w' := ∃ act, w.next N act = some w'

end BlorgFS.ChangeFeed
