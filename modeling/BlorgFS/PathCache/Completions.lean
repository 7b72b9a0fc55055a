import BlorgFS.PathCache.Lookups

/-! Completions of the listing fetches of one directory, `DirCtrlPublish`: each offers its
listing to the listing cache and, told that it is current, seeds the path cache from it. The
order of issue is tested under one bucket's lock as the listing is published, and the seed
comes after. A completion that is overtaken between the two puts older metadata in the path
cache than the cached listing has; where none is, the two agree. -/

namespace BlorgFS.PathCache

open Lib

variable {N : Names} {dir : Path}

/-! ### What the two caches agree on -/

/-- A path in the directory, up to case. -/
def ChildOf (N : Names) (dir path : Path) : Prop :=
  ∃ front name, path = front ++ separator :: name ∧ name ≠ [] ∧ separator ∉ name ∧ Same N front (stem dir)

/-- No entry of a child is from a read issued before the one the cached listing of the directory
is from. -/
def State.Agree (N : Names) (dir : Path) (s : State) : Prop :=
  ∀ e ∈ s.listings (N.bucketOf dir), Same N e.path dir → ∀ i, ∀ p ∈ s.buckets i, ChildOf N dir p.path →
    e.read.ticket.issueTime ≤ p.read.ticket.issueTime

/-! ### Completions -/

/-- A listing with the path and the ticket its fetch was issued with. -/
structure Fetched where
  dir : Path
  listing : Listing
  read : Read
  deriving DecidableEq, Repr

/-- The caches, and what each thread has been told to seed. -/
structure Completions where
  cache : State
  owed : ℕ → Option Fetched

namespace Completions

/-- A fetch is issued, its completion publishes, seeds, or goes on with either. -/
inductive Act where
  | tick (elapsed : ℕ)
  | issue (t : ℕ)
  | publish (t : ℕ) (c : Fetched) (pool : Bool)
  | seed (t : ℕ) (pool : Bool)
  | step (t : ℕ) (pool : Bool)
  deriving DecidableEq, Repr

variable (N : Names) (dir : Path) (w : Completions)

/-- What the section of `BlorgPathCachePublishListing` licenses its caller to seed. -/
def licensed (f : Frame) : Option Fetched :=
  match f.call with
  | .publish path listing read =>
    if (publishSection N w.cache.sequence f.now f.generation (lifetimeOf f.life) f.pool path listing read (w.cache.listings (N.bucketOf path))
        w.cache.listingBytes).1 then some ⟨path, listing, read⟩
    else none
  | _ => none

/-- What the thread has to seed after its step. -/
def owedAfter (t : ℕ) : Option Fetched :=
  match (w.cache.threads t).pc with
  | .bucketSection f => w.licensed N f
  | _ => w.owed t

/-- The cache goes on. -/
def via (act : State.Act) (owed : ℕ → Option Fetched) : Option Completions := (w.cache.next N act).map fun cache => ⟨cache, owed⟩

def next : Act → Option Completions
  | .tick elapsed => w.via N (.tick elapsed) w.owed
  | .issue t => if (w.owed t).isNone then w.via N (.start t .takeTicket true) w.owed else none
  | .publish t c pool =>
    if (w.owed t).isNone ∧ N.equal c.dir dir then w.via N (.start t (.keyed (.publish c.dir c.listing c.read)) pool) w.owed else none
  | .seed t pool =>
    (w.owed t).bind fun c => w.via N (.start t (.seedListing c.dir (some c.listing) c.read) pool) (Function.update w.owed t none)
  | .step t pool => w.via N (.step t pool) (Function.update w.owed t (w.owedAfter N t))

/-- Nothing is in progress. -/
def Finished : Prop := ∀ t, w.cache.threads t = ⟨.idle, []⟩ ∧ w.owed t = none

end Completions

/-- Runs of completions from any state the caches have come to in which nothing is in progress
and the two agree. -/
def completions (N : Names) (dir : Path) : System Completions where
  init w := (system N).Reachable w.cache ∧ w.Finished ∧ w.cache.Agree N dir
  step w w' := ∃ act, w.next N dir act = some w'

/-! ### What is still to be seeded -/

/-- The read behind what a thread is putting into the path cache. -/
def Keyed.inserts : Keyed → Option Read
  | .insert _ _ read => some read
  | _ => none

def Pc.seeding : Pc → Option Read
  | .seedReadLive _ _ read | .seedSweep _ _ read _ _ => some read
  | .readNow f | .readLifetime f | .readGeneration f | .readListingBytes f | .reapDead f _ | .bucketSection f => f.call.inserts
  | _ => none

/-- The children of bucket `i` are still to be dropped. -/
def Pc.sweeps (i : ℕ) : Pc → Bool
  | .seedReadLive _ _ _ => true
  | .seedSweep _ _ _ _ j => j ≤ i
  | _ => false

/-- The reads whose listings a thread was told are current and has not seeded all of. -/
def Thread.pending (th : Thread) (owed : Option Fetched) : List Read :=
  (owed.map Fetched.read).toList ++ th.pc.seeding.toList ++ th.rest.filterMap Keyed.inserts

def Thread.sweeps (th : Thread) (owed : Option Fetched) (i : ℕ) : Bool := owed.isSome || th.pc.sweeps i

namespace Completions

variable (w : Completions)

def pending (t : ℕ) : List Read := (w.cache.threads t).pending (w.owed t)

def sweeps (t i : ℕ) : Bool := (w.cache.threads t).sweeps (w.owed t) i

/-- No listing is published, under a ticket that is honoured, while one issued before it is still
to be seeded. -/
def InOrder : Act → Prop
  | .step t _ => ∀ f path listing read, (w.cache.threads t).pc = .bucketSection f → f.call = .publish path listing read →
      read.ticket.sequence = w.cache.sequence → ∀ u r, u ≠ t → r ∈ w.pending u → read.ticket.issueTime ≤ r.ticket.issueTime
  | _ => True

end Completions

/-- The runs in which no completion is overtaken. -/
def orderedCompletions (N : Names) (dir : Path) : System Completions where
  init := (completions N dir).init
  step w w' := ∃ act, w.InOrder act ∧ w.next N dir act = some w'

end BlorgFS.PathCache
