import BlorgFS.PathCache.Bucket
import BlorgFS.Lib.Transition

/-! The path cache and the listing cache under any number of threads. A step is
one bucket section, one interlocked increment, one store, or one unlocked read:
the interrupt time, `ChangeFeedLive`, `Generation`, `Sequence` and `ListingBytes`
are each read in a step of their own. A thread between steps is a `Pc`: where it
is in a call, with the locals it has read so far.

Beside the caches the state keeps what a statement about runs speaks of: a count
of events, every ticket taken, every flush, the invalidations that returned, and
what lookups answered. No step reads these. A ticket is only used by an insert
after it was taken or handed back by a lookup, by whatever thread. -/

namespace BlorgFS.PathCache

/-! ### Calls -/

/-- A flush by `BlorgPathCacheInvalidateAll`: the sequence it advanced to, the
generation it bumped to, and when. -/
structure Flush where
  value : ℕ
  advancedAt : ℕ
  generation : ℕ
  bumpedAt : ℕ
  deriving DecidableEq, Repr

/-- What an invalidation drops: `BlorgPathCacheInvalidate`,
`BlorgPathCacheInvalidatePrefix` and `BlorgPathCacheInvalidateAll`. -/
inductive Scope where
  | exact (path : Path)
  | under (dir : Path)
  | all
  deriving DecidableEq, Repr

/-- An invalidation that has advanced the sequence, to `value`. -/
structure Invalidation where
  scope : Scope
  value : ℕ
  advancedAt : ℕ
  deriving DecidableEq, Repr

/-- The calls that read the clock, the lifetime and the generation and then take
one bucket's lock: `PathCacheFind`, `BlorgPathCacheLookupListing`,
`PathCacheInsert` and `BlorgPathCachePublishListing`. -/
inductive Keyed where
  | find (path : Path)
  | lookupListing (dir : Path) (allowStale : Bool)
  | insert (path : Path) (found : Option Meta) (read : Read)
  | publish (dir : Path) (listing : Listing) (read : Read)
  deriving DecidableEq, Repr

/-- The entry points. `seedListing` and `publishDescendants` are told which of
their allocations fail. -/
inductive Call where
  | takeTicket
  | keyed (call : Keyed)
  | seedListing (dir : Path) (listing : Option Listing) (read : Read)
  | publishDescendants (dir : Path) (root : Listing) (descendants : List Descendant) (failed : List ℕ)
      (read : Read)
  | invalidate (path : Path)
  | invalidatePrefix (dir : Path)
  | invalidateAll
  | followFeed (live : Bool)
  | ticketCurrent (read : Read)
  deriving DecidableEq, Repr

/-- The tickets a call is given. -/
def Keyed.given : Keyed → List Read
  | .find _ => []
  | .lookupListing _ _ => []
  | .insert _ _ read => [read]
  | .publish _ _ read => [read]

def Call.given : Call → List Read
  | .keyed call => call.given
  | .seedListing _ _ read => [read]
  | .publishDescendants _ _ _ _ read => [read]
  | .ticketCurrent read => [read]
  | _ => []

/-- The locals of a keyed call. `life` is the flush behind the `ChangeFeedLive` it
read, if that was set; `pool` is whether its new entry was allocated. -/
structure Frame where
  call : Keyed
  pool : Bool
  begunAt : ℕ
  now : ℕ
  life : Option Flush
  generation : ℕ
  deriving DecidableEq, Repr

/-- Where a thread is. Each is named for what the next step does. -/
inductive Pc where
  | idle
  | readSequence
  | readIssueTime (sequence takenAt : ℕ)
  | readNow (f : Frame)
  | readLifetime (f : Frame)
  | readGeneration (f : Frame)
  | readListingBytes (f : Frame)
  | reapDead (f : Frame) (i : ℕ)
  | bucketSection (f : Frame)
  | advance (scope : Scope) (follow : Bool)
  | dropEntry (path : Path) (inv : Invalidation)
  | dropListing (path : Path) (inv : Invalidation)
  | dropParent (path : Path) (inv : Invalidation)
  | sweepEntries (dir : Path) (inv : Invalidation) (i : ℕ)
  | sweepListings (dir : Path) (inv : Invalidation) (i : ℕ)
  | bump (inv : Invalidation) (follow : Bool)
  | sweepAll (flush : Flush) (follow : Bool) (i : ℕ)
  | storeLive (live : Option Flush)
  | seedReadLive (dir : Path) (listing : Option Listing) (read : Read)
  | seedSweep (dir : Path) (listing : Option Listing) (read : Read) (childrenOnly : Bool) (i : ℕ)
  | currentSequence (read : Read)
  | currentNow (read : Read) (readAt : ℕ)
  | currentLifetime (read : Read) (readAt now : ℕ)
  deriving DecidableEq, Repr

/-- A thread: where it is, and the inserts or publishes left of the call it is in. -/
structure Thread where
  pc : Pc
  rest : List Keyed
  deriving DecidableEq, Repr

/-! ### What the threads leave behind -/

structure Returned extends Invalidation where
  returnedAt : ℕ
  deriving DecidableEq, Repr

/-- What a lookup found. -/
inductive Found where
  | entry (value : Option Meta)
  | listing (listing : Listing) (stale refreshOwed : Bool)
  deriving DecidableEq, Repr

/-- What a lookup that began at `begunAt` answered, with the clock and the lifetime
it judged by and the read behind the answer. -/
structure Answer where
  path : Path
  found : Found
  begunAt : ℕ
  now : ℕ
  life : Option Flush
  read : Read
  deriving DecidableEq, Repr

/-- A `TRUE` from `BlorgPathCacheTicketCurrent`, with what it read. -/
structure Current where
  read : Read
  readAt : ℕ
  now : ℕ
  life : Option Flush
  deriving DecidableEq, Repr

/-- `PATH_CACHE_STATE`, `ChangeFeedLive`, the clock and the threads; from `event`
on, the history. `live` names the flush whose `BlorgPathCacheFollowFeed` set the
flag, and `advancedAt v` is the event that brought the sequence to `v`. -/
structure State where
  buckets : ℕ → List PathEntry
  listings : ℕ → List ListingEntry
  sequence : ℕ
  generation : ℕ
  listingBytes : ℤ
  live : Option Flush
  now : ℕ
  threads : ℕ → Thread
  event : ℕ
  advancedAt : ℕ → ℕ
  reads : List Read
  flushes : List Flush
  returned : List Returned
  answers : List Answer
  currents : List Current

/-- `PathCacheLifetime`. -/
def lifetimeOf (life : Option Flush) : ℕ := if life.isSome then feedTtl else ttl

/-! ### Seeds and descendants -/

def seedMax : ℕ := bucketCount * maxPerBucket / 4

/-- `PathCacheSeedEntry`, as the insert it makes. -/
def seedEntry (base : Path) (read : Read) (name : Path) (found : Meta) : Option Keyed :=
  if isComponent name = false ∨ maxPathBytes < byteLength base + byteLength name then none
  else some (.insert (base ++ name) (some found) read)

def subDirMeta (sub : SubDirEntry) : Meta :=
  ⟨0, sub.creationTime, sub.lastAccessedTime, sub.lastModifiedTime, true, false⟩

def fileMeta (file : FileEntry) : Meta :=
  ⟨file.size, file.creationTime, file.lastAccessedTime, file.lastModifiedTime, false, false⟩

/-- `dir` with the separator its children's names go after. -/
def withSeparator (dir : Path) : Path := if endsWithSeparator dir then dir else dir ++ [separator]

/-- The inserts of `BlorgPathCacheSeedListing`: subdirectories last first, then
files last first, at most `seedMax` of them. -/
def seedInserts (dir : Path) (listing : Listing) (read : Read) : List Keyed :=
  let base := withSeparator dir
  let files := listing.files.take seedMax
  let subDirs := listing.subDirs.take (seedMax - files.length)
  subDirs.reverse.filterMap (fun sub => seedEntry base read sub.name (subDirMeta sub)) ++
    files.reverse.filterMap (fun file => seedEntry base read file.name (fileMeta file))

/-- What `BlorgPathCacheSeedListing` does after its sweep. -/
def seedRest (pool : Bool) (dir : Path) (listing : Option Listing) (read : Read) : List Keyed :=
  match listing with
  | none => []
  | some listing =>
    if maxPathBytes < byteLength dir + 2 ∨ pool = false then [] else seedInserts dir listing read

/-- The path of descendant `i`, when its parent's is known. -/
def descendantPath (root : Listing) (descendants : List Descendant) (failed : List ℕ)
    (paths : List (Option Path)) (i : ℕ) (d : Descendant) : Option Path :=
  if i < d.parent then none
  else
    let listing := if d.parent = 0 then some root else (descendants[d.parent - 1]?).map (·.listing)
    match (paths[d.parent]?).join, listing.bind (·.subDirs[d.subDir]?) with
    | some parentPath, some sub =>
      if isComponent sub.name = false ∨
          maxPathBytes < byteLength (withSeparator parentPath ++ sub.name) ∨ i ∈ failed then none
      else some (withSeparator parentPath ++ sub.name)
    | _, _ => none

/-- The array `paths` of `BlorgPathCachePublishDescendants`, `dir` first. -/
def descendantPaths (dir : Path) (root : Listing) (descendants : List Descendant) (failed : List ℕ) :
    List (Option Path) :=
  descendants.zipIdx.foldl
    (fun paths d => paths ++ [descendantPath root descendants failed paths d.2 d.1]) [some dir]

/-- The publishes of `BlorgPathCachePublishDescendants`. -/
def descendantPublishes (dir : Path) (root : Listing) (descendants : List Descendant) (failed : List ℕ)
    (read : Read) : List Keyed :=
  ((descendantPaths dir root descendants failed).drop 1 |>.zip descendants).filterMap fun d =>
    d.1.map fun path => .publish path d.2.listing read

/-! ### Steps -/

namespace State

variable (N : Names)

def goto (s : State) (t : ℕ) (pc : Pc) : State :=
  { s with threads := Function.update s.threads t { s.threads t with pc := pc } }

def setBucket (s : State) (i : ℕ) (entries : List PathEntry) : State :=
  { s with buckets := Function.update s.buckets i entries }

/-- Replaces a listing bucket and charges the difference. -/
def setListings (s : State) (i : ℕ) (entries : List ListingEntry) (bytes : ℤ) : State :=
  { s with listings := Function.update s.listings i entries, listingBytes := bytes }

/-- Keeps some of a listing bucket and uncharges the others. -/
def keepListings (s : State) (i : ℕ) (entries : List ListingEntry) : State :=
  s.setListings i entries (s.listingBytes - (bucketBytes (s.listings i) - bucketBytes entries))

/-- The invalidation `inv` returns. -/
def finish (s : State) (t : ℕ) (inv : Invalidation) : State :=
  { s.goto t .idle with returned := ⟨inv, s.event⟩ :: s.returned }

/-- The tests a keyed call makes before it reads anything. -/
def beginKeyed (s : State) (call : Keyed) (pool : Bool) : Pc :=
  let frame : Frame := ⟨call, pool, s.event, 0, none, 0⟩
  match call with
  | .find path => if path = [] then .idle else .readNow frame
  | .lookupListing dir _ => if dir = [] then .idle else .readNow frame
  | .insert path found _ =>
    if path = [] ∨ maxPathBytes < byteLength path ∨ found.any (·.noStore) ∨ pool = false then .idle
    else .readNow frame
  | .publish dir listing _ =>
    if dir = [] ∨ maxPathBytes < byteLength dir ∨ listing.noStore then .idle else .readNow frame

/-- A thread enters a call. -/
def begin (s : State) (call : Call) (pool : Bool) : Thread :=
  match call with
  | .takeTicket => ⟨.readSequence, []⟩
  | .keyed call => ⟨s.beginKeyed call pool, []⟩
  | .seedListing dir listing read => ⟨if dir = [] then .idle else .seedReadLive dir listing read, []⟩
  | .publishDescendants dir root descendants failed read =>
    ⟨.idle, if dir = [] ∨ pool = false then [] else descendantPublishes dir root descendants failed read⟩
  | .invalidate path => ⟨if path = [] then .idle else .advance (.exact path) false, []⟩
  | .invalidatePrefix dir => ⟨if dir = [] then .idle else .advance (.under dir) false, []⟩
  | .invalidateAll => ⟨.advance .all false, []⟩
  | .followFeed true => ⟨.advance .all true, []⟩
  | .followFeed false => ⟨.storeLive none, []⟩
  | .ticketCurrent read => ⟨if read.ticket.issueTime = 0 then .idle else .currentSequence read, []⟩

/-- The section of a keyed call. -/
def bucketStep (s : State) (t : ℕ) (f : Frame) : State :=
  let lifetime := lifetimeOf f.life
  match f.call with
  | .find path =>
    match findSection N f.now f.generation lifetime path (s.buckets (N.bucketOf path)) with
    | none => s.goto t .idle
    | some entry =>
      { s.goto t .idle with
        answers := ⟨path, .entry entry.value, f.begunAt, f.now, f.life, entry.read⟩ :: s.answers
        reads := if entry.value.isSome then entry.read :: s.reads else s.reads }
  | .lookupListing dir allowStale =>
    let i := N.bucketOf dir
    match lookupListingSection N f.now f.generation lifetime dir allowStale (s.listings i) with
    | none => s.goto t .idle
    | some (entry, stale) =>
      { (s.goto t .idle).setListings i (claimRefresh N dir stale (s.listings i)) s.listingBytes with
        answers := ⟨dir, .listing entry.value.listing stale (stale && !entry.value.refreshClaimed),
          f.begunAt, f.now, f.life, entry.read⟩ :: s.answers
        reads := entry.read :: s.reads }
  | .insert path found read =>
    let i := N.bucketOf path
    (s.goto t .idle).setBucket i
      (insertSection N s.sequence f.now f.generation lifetime path found read (s.buckets i))
  | .publish dir listing read =>
    let i := N.bucketOf dir
    let (_, entries, bytes) := publishSection N s.sequence f.now f.generation lifetime f.pool dir listing
      read (s.listings i) s.listingBytes
    (s.goto t .idle).setListings i entries bytes

/-- After the last bucket of the flush: the store of `BlorgPathCacheFollowFeed`, or
the return. -/
def afterFlush (s : State) (t : ℕ) (flush : Flush) (follow : Bool) : State :=
  let s := s.finish t ⟨.all, flush.value, flush.advancedAt⟩
  if follow then s.goto t (.storeLive (some flush)) else s

/-- Drops the listing of `path`'s parent, if it has one. -/
def dropParentListing (s : State) (path : Path) : State :=
  match parent path with
  | none => s
  | some dir => s.keepListings (N.bucketOf dir) (dropPath N dir (s.listings (N.bucketOf dir)))

/-- One step of the thread `t` from `pc`. -/
def stepPc (s : State) (t : ℕ) (pool : Bool) : Pc → State
  | .idle => s
  | .readSequence => s.goto t (.readIssueTime s.sequence s.event)
  | .readIssueTime sequence takenAt =>
    { s.goto t .idle with reads := ⟨⟨sequence, s.now⟩, takenAt⟩ :: s.reads }
  | .readNow f => s.goto t (.readLifetime { f with now := s.now })
  | .readLifetime f => s.goto t (.readGeneration { f with life := s.live })
  | .readGeneration f =>
    let f := { f with generation := s.generation }
    match f.call with
    | .publish _ _ _ => s.goto t (if f.pool then .readListingBytes f else .bucketSection f)
    | _ => s.goto t (.bucketSection f)
  | .readListingBytes f =>
    match f.call with
    | .publish _ listing _ =>
      s.goto t (if listingMaxBytes < s.listingBytes + listing.bytes then .reapDead f 0 else .bucketSection f)
    | _ => s.goto t (.bucketSection f)
  | .reapDead f i =>
    if i < bucketCount then
      (s.goto t (.reapDead f (i + 1))).keepListings i
        ((s.listings i).filter (listingLive f.now f.generation (lifetimeOf f.life)))
    else s.goto t (.bucketSection f)
  | .bucketSection f => s.bucketStep N t f
  | .advance scope follow =>
    let inv : Invalidation := ⟨scope, s.sequence + 1, s.event⟩
    let s := { s with
      sequence := s.sequence + 1
      advancedAt := Function.update s.advancedAt (s.sequence + 1) s.event }
    match scope with
    | .exact path => s.goto t (.dropEntry path inv)
    | .under dir => s.goto t (.sweepEntries dir inv 0)
    | .all => s.goto t (.bump inv follow)
  | .dropEntry path inv =>
    let i := N.bucketOf path
    (s.goto t (.dropListing path inv)).setBucket i (dropPath N path (s.buckets i))
  | .dropListing path inv =>
    let i := N.bucketOf path
    (s.goto t (.dropParent path inv)).keepListings i (dropPath N path (s.listings i))
  | .dropParent path inv => (s.dropParentListing N path).finish t inv
  | .sweepEntries dir inv i =>
    if i < bucketCount then
      (s.goto t (.sweepEntries dir inv (i + 1))).setBucket i
        (invalidateUnderSection N dir false false (s.buckets i))
    else s.goto t (.sweepListings dir inv 0)
  | .sweepListings dir inv i =>
    if i < bucketCount then
      (s.goto t (.sweepListings dir inv (i + 1))).keepListings i
        (dropUnderSection N (some dir) (s.listings i))
    else s.goto t (.dropParent dir inv)
  | .bump inv follow =>
    let flush : Flush := ⟨inv.value, inv.advancedAt, s.generation + 1, s.event⟩
    { s.goto t (.sweepAll flush follow 0) with
      generation := s.generation + 1, flushes := flush :: s.flushes }
  | .sweepAll flush follow i =>
    if i < bucketCount then
      (s.goto t (.sweepAll flush follow (i + 1))).keepListings i (dropUnderSection N none (s.listings i))
    else s.afterFlush t flush follow
  | .storeLive live => { s.goto t .idle with live := live }
  | .seedReadLive dir listing read => s.goto t (.seedSweep dir listing read s.live.isSome 0)
  | .seedSweep dir listing read childrenOnly i =>
    if i < bucketCount then
      (s.goto t (.seedSweep dir listing read childrenOnly (i + 1))).setBucket i
        (invalidateUnderSection N dir true childrenOnly (s.buckets i))
    else { s with threads := Function.update s.threads t ⟨.idle, seedRest pool dir listing read⟩ }
  | .currentSequence read =>
    s.goto t (if read.ticket.sequence = s.sequence then .currentNow read s.event else .idle)
  | .currentNow read readAt => s.goto t (.currentLifetime read readAt s.now)
  | .currentLifetime read readAt now =>
    if age read.ticket.issueTime now < lifetimeOf s.live then
      { s.goto t .idle with currents := ⟨read, readAt, now, s.live⟩ :: s.currents }
    else s.goto t .idle

/-- Who moves: the clock, a thread that enters a call, or a thread within one.
`pool` is whether what the step allocates is there. -/
inductive Act where
  | tick (elapsed : ℕ)
  | start (t : ℕ) (call : Call) (pool : Bool)
  | step (t : ℕ) (pool : Bool)
  deriving DecidableEq, Repr

/-- Every ticket a call is given was taken or handed back. -/
def Given (s : State) (call : Call) : Prop := ∀ read ∈ call.given, read ∈ s.reads

instance (s : State) (call : Call) : Decidable (s.Given call) :=
  inferInstanceAs (Decidable (∀ read ∈ call.given, read ∈ s.reads))

/-- What one act makes of the state, but for the count of events. -/
def exec (s : State) : Act → Option State
  | .tick elapsed => some { s with now := s.now + elapsed }
  | .start t call pool =>
    if s.threads t = ⟨.idle, []⟩ ∧ s.Given call then
      some { s with threads := Function.update s.threads t (s.begin call pool) }
    else none
  | .step t pool =>
    match s.threads t with
    | ⟨.idle, []⟩ => none
    | ⟨.idle, call :: rest⟩ =>
      some { s with threads := Function.update s.threads t ⟨s.beginKeyed call pool, rest⟩ }
    | ⟨pc, _⟩ => some (s.stepPc N t pool pc)

/-- One act is one event. -/
def next (s : State) (act : Act) : Option State :=
  (s.exec N act).map fun s' => { s' with event := s.event + 1 }

end State

/-- `BlorgPathCacheInit`, with every thread idle. -/
def initial (now : ℕ) : State where
  buckets _ := []
  listings _ := []
  sequence := 0
  generation := 0
  listingBytes := 0
  live := none
  now := now
  threads _ := ⟨.idle, []⟩
  event := 0
  advancedAt _ := 0
  reads := []
  flushes := []
  returned := []
  answers := []
  currents := []

/-- The caches from `BlorgPathCacheInit` on. -/
def system (N : Names) : Lib.System State where
  init s := ∃ now, s = initial now
  step s s' := ∃ act, s.next N act = some s'

end BlorgFS.PathCache
