import BlorgFS.PathCache.Bucket
import BlorgFS.Lib.Tally
import BlorgFS.Lib.Transition
import Mathlib.Data.Fintype.Fin

/-! The counts the caches keep, `Count` of a bucket, `PathCache.Count` and
`PathCache.ListingBytes`, under any number of threads. A bucket is changed under its lock, and
the two global counters by interlocked adds from all of them; so here a step is one of these
adds, or one visit of a walk, and a thread can be anywhere within a section.

`BlorgPathCacheSeedListing` is here as its sweep and the inserts it makes,
`BlorgPathCachePublishDescendants` as the publishes it makes. Lookups change no count. -/

namespace BlorgFS.PathCache.Budget

open Lib

variable (N : Names)

/-! ### The state -/

/-- What a publish reads of its `DIRECTORY_INFO`. -/
structure Info where
  bytes : ℕ
  noStore : Bool

/-- What a listing entry is charged for, and its number in the order of linking. -/
structure Linked where
  bytes : ℕ
  id : ℕ

/-- `PATH_CACHE_BUCKET` but for its lock. -/
structure Bucket (α : Type) where
  entries : List (Entry α)
  count : ℕ

namespace Bucket

variable {α : Type}

def empty : Bucket α := ⟨[], 0⟩

/-- `RemoveEntryList` of the entry at `k`. -/
def remove (b : Bucket α) (k : ℕ) : Bucket α := ⟨b.entries.eraseIdx k, b.count - 1⟩

/-- `InsertTailList`. -/
def append (b : Bucket α) (entry : Entry α) : Bucket α := ⟨b.entries ++ [entry], b.count + 1⟩

/-- The entry at `k` is refreshed in place. -/
def refresh (b : Bucket α) (k : ℕ) (entry : Entry α) : Bucket α := ⟨b.entries.set k entry, b.count⟩

end Bucket

def bytesOf (entries : List (Entry Linked)) : ℕ := tally (fun entry => entry.value.bytes) entries

/-- `PATH_CACHE_STATE`, `ChangeFeedLive` and the clock; `taken` and `released` number the
entries whose reference to their listing was taken and released. -/
structure Shared where
  paths : Fin bucketCount → Bucket (Option Meta)
  listings : Fin bucketCount → Bucket Linked
  sequence : ℕ
  generation : ℕ
  live : Bool
  now : ℕ
  ready : Bool
  count : ℤ
  listingBytes : ℤ
  taken : List ℕ
  released : List ℕ

/-- The bucket of a path, in either cache. -/
def bucket (path : Path) : Fin bucketCount := ⟨N.bucketOf path, N.bucketOf_lt path⟩

/-- What a section takes before its lock: the clock, the generation and the lifetime. -/
structure Frame where
  now : ℕ
  generation : ℕ
  lifetime : ℕ

/-- `ListingCacheEntryLive`. -/
def snapshotLive (f : Frame) (entry : Entry Linked) : Bool :=
  entry.generation == f.generation && age entry.read.ticket.issueTime f.now < f.lifetime + staleGrace

/-! ### Calls -/

/-- A walk that takes entries out of one path bucket: of `BlorgPathCacheInvalidate` or of
`PathCacheInvalidateUnder`. -/
inductive PathSweep
  | drop (path : Path)
  | under (dir : Path) (keepDir childrenOnly : Bool)

/-- A walk that takes entries out of one listing bucket: `ListingCacheDrop`,
`ListingCacheDropUnder` or `ListingCacheReapDead`. -/
inductive ListingSweep
  | drop (dir : Path)
  | under (dir : Option Path)
  | dead (f : Frame)

def PathSweep.takes : PathSweep → Entry (Option Meta) → Bool
  | .drop path, entry => N.equal entry.path path
  | .under dir keepDir childrenOnly, entry =>
    N.isUnder dir entry.path && !(keepDir && entry.path.length == dir.length) && !(childrenOnly && isBelowChild dir entry.path)

/-- The walk ends with the first entry it takes. -/
def PathSweep.stops : PathSweep → Bool
  | .drop _ => true
  | .under _ _ _ => false

def ListingSweep.takes : ListingSweep → Entry Linked → Bool
  | .drop dir, entry => N.equal entry.path dir
  | .under none, _ => true
  | .under (some dir), entry => N.isUnder dir entry.path
  | .dead f, entry => !snapshotLive f entry

def ListingSweep.stops : ListingSweep → Bool
  | .drop _ => true
  | _ => false

/-- The arguments of `PathCacheInsert`. -/
structure Insert where
  path : Path
  found : Option Meta
  read : Read

/-- The arguments of `BlorgPathCachePublishListing`, and whether its entry was allocated. -/
structure Publish where
  dir : Path
  info : Info
  read : Read
  pool : Bool

/-- What a call does between idle points: an interlocked increment, a store, or a section. -/
inductive Op
  | advance
  | bump
  | storeLive (live : Bool)
  | seed (dir : Path)
  | sweepPaths (b : Fin bucketCount) (sweep : PathSweep)
  | sweepListings (b : Fin bucketCount) (sweep : ListingSweep)
  | insert (i : Insert)
  | publish (p : Publish)
  /-- The section of a publish that has reaped. -/
  | publishSection (p : Publish) (f : Frame)

inductive Call
  | insert (i : Insert) (pool : Bool)
  | publish (p : Publish)
  | seedListing (dir : Path)
  | invalidate (path : Path)
  | invalidatePrefix (dir : Path)
  | invalidateAll
  | followFeed (live : Bool)
  | cleanup

/-- `ListingCacheDropParent`. -/
def dropParent (path : Path) : List Op :=
  match parent path with
  | none => []
  | some dir => [.sweepListings (bucket N dir) (.drop dir)]

/-- `PathCacheInvalidateUnder`. -/
def invalidateUnder (dir : Path) (keepDir childrenOnly : Bool) : List Op :=
  (List.finRange bucketCount).map fun b => .sweepPaths b (.under dir keepDir childrenOnly)

/-- `ListingCacheDropUnder`. -/
def dropUnder (dir : Option Path) : List Op := (List.finRange bucketCount).map fun b => .sweepListings b (.under dir)

/-- `ListingCacheReapDead`. -/
def reapDead (f : Frame) : List Op := (List.finRange bucketCount).map fun b => .sweepListings b (.dead f)

/-- `BlorgPathCacheInvalidateAll`. -/
def invalidateAll (ready : Bool) : List Op := [.advance, .bump] ++ if ready then dropUnder none else []

/-- What a call comes to, when the cache is `ready` or not. -/
def Call.ops (ready : Bool) : Call → List Op
  | .insert i pool =>
    if ready = false ∨ i.path = [] ∨ maxPathBytes < byteLength i.path ∨ i.found.any (·.noStore) ∨ pool = false then [] else [.insert i]
  | .publish p => if ready = false ∨ p.dir = [] ∨ maxPathBytes < byteLength p.dir ∨ p.info.noStore then [] else [.publish p]
  | .seedListing dir => if ready = false ∨ dir = [] then [] else [.seed dir]
  | .invalidate path =>
    if ready = false ∨ path = [] then []
    else [.advance, .sweepPaths (bucket N path) (.drop path), .sweepListings (bucket N path) (.drop path)] ++ dropParent N path
  | .invalidatePrefix dir =>
    if ready = false ∨ dir = [] then [] else [.advance] ++ invalidateUnder dir false false ++ dropUnder (some dir) ++ dropParent N dir
  | .invalidateAll => Budget.invalidateAll ready
  | .followFeed true => Budget.invalidateAll ready ++ [.storeLive true]
  | .followFeed false => [.storeLive false]
  | .cleanup => []

/-! ### Threads -/

inductive Lock
  | path (b : Fin bucketCount)
  | listing (b : Fin bucketCount)
  deriving DecidableEq

/-- The calls that read the clock, the lifetime and the generation. -/
inductive Keyed
  | insert (i : Insert)
  | publish (p : Publish)

/-- Where a thread is, each named for what the next step does. `k` is how far a walk has come. -/
inductive Pc
  | idle
  | readNow (call : Keyed)
  | readLifetime (call : Keyed) (now : ℕ)
  | readGeneration (call : Keyed) (now lifetime : ℕ)
  | sweepPaths (b : Fin bucketCount) (sweep : PathSweep) (k : ℕ)
  /-- An entry is unlinked and `PathCache.Count` not yet lowered; so in `uncountDead` and
  `uncountVictim`. -/
  | uncountSwept (b : Fin bucketCount) (sweep : PathSweep) (k : ℕ)
  | sweepListings (b : Fin bucketCount) (sweep : ListingSweep) (k : ℕ)
  | lockInsert (i : Insert) (f : Frame)
  | insertSequence (i : Insert) (f : Frame)
  | insertWalk (i : Insert) (f : Frame) (k : ℕ)
  | uncountDead (i : Insert) (f : Frame) (k : ℕ)
  | insertCap (i : Insert) (f : Frame)
  | uncountVictim (i : Insert) (f : Frame)
  | insertAppend (i : Insert) (f : Frame)
  | countNew (i : Insert)
  | publishBudget (p : Publish) (f : Frame)
  | lockPublish (p : Publish) (f : Frame)
  | publishSequence (p : Publish) (f : Frame)
  | publishWalk (p : Publish) (f : Frame) (k : ℕ) (existing : Option ℕ)
  | publishExisting (p : Publish) (f : Frame) (existing : Option ℕ)
  /-- The test whether emptying the bucket would make room. -/
  | publishRoom (p : Publish) (f : Frame)
  | publishCap (p : Publish) (f : Frame)
  | publishFit (p : Publish) (f : Frame)
  /-- The add of `ListingCacheCharge`. -/
  | publishCharge (p : Publish) (f : Frame)
  /-- The add that takes a refused charge back. -/
  | publishRefused (p : Publish)
  | publishLink (p : Publish) (f : Frame)
  | unlock (l : Lock)
  | cleanPaths (i : ℕ)
  | cleanListings (i : ℕ)
  | cleanCount

structure Thread where
  pc : Pc
  todo : List Op

def Thread.goto (th : Thread) (pc : Pc) : Thread := { th with pc := pc }

/-- What a thread holds. `BlorgPathCacheCleanup` takes no locks: it is called when no other
call is in the caches, as if it held them all. -/
inductive Hold
  | nothing
  | one (l : Lock)
  | everything
  deriving DecidableEq

def Hold.covers : Hold → Lock → Prop
  | .nothing, _ => False
  | .one l, l' => l = l'
  | .everything, _ => True

def Hold.conflicts : Hold → Hold → Bool
  | .nothing, _ => false
  | _, .nothing => false
  | .one l, .one l' => l = l'
  | .everything, _ => true
  | _, .everything => true

def Pc.hold : Pc → Hold
  | .sweepPaths b _ _ | .uncountSwept b _ _ => .one (.path b)
  | .sweepListings b _ _ => .one (.listing b)
  | .insertSequence i _ | .insertWalk i _ _ | .uncountDead i _ _ | .insertCap i _ | .uncountVictim i _ | .insertAppend i _ | .countNew i =>
    .one (.path (bucket N i.path))
  | .publishSequence p _ | .publishWalk p _ _ _ | .publishExisting p _ _ | .publishRoom p _ | .publishCap p _ | .publishFit p _
  | .publishCharge p _ | .publishRefused p | .publishLink p _ => .one (.listing (bucket N p.dir))
  | .unlock l => .one l
  | .cleanPaths _ | .cleanListings _ | .cleanCount => .everything
  | _ => .nothing

/-! ### Steps -/

namespace Shared

def setPaths (sh : Shared) (b : Fin bucketCount) (new : Bucket (Option Meta)) : Shared :=
  { sh with paths := Function.update sh.paths b new }

/-- An interlocked add to `PathCache.Count`. -/
def addCount (sh : Shared) (d : ℤ) : Shared := { sh with count := sh.count + d }

/-- An interlocked add to `PathCache.ListingBytes`. -/
def addBytes (sh : Shared) (d : ℤ) : Shared := { sh with listingBytes := sh.listingBytes + d }

/-- `ListingCacheRemoveEntry` of the entry at `k`. -/
def removeListing (sh : Shared) (b : Fin bucketCount) (k : ℕ) : Shared :=
  match (sh.listings b).entries[k]? with
  | none => sh
  | some entry =>
    { sh with
      listings := Function.update sh.listings b ((sh.listings b).remove k)
      listingBytes := sh.listingBytes - entry.value.bytes
      released := entry.value.id :: sh.released }

/-- A publish references its listing and links its entry. -/
def link (sh : Shared) (p : Publish) (f : Frame) : Shared :=
  let b := bucket N p.dir
  let id := sh.taken.length
  { sh with
    listings := Function.update sh.listings b ((sh.listings b).append ⟨p.dir, p.read, f.generation, ⟨p.info.bytes, id⟩⟩)
    taken := id :: sh.taken }

/-- A thread goes on to its next section or increment. -/
def begin (sh : Shared) (todo : List Op) : Op → Shared × Thread
  | .advance => ({ sh with sequence := sh.sequence + 1 }, ⟨.idle, todo⟩)
  | .bump => ({ sh with generation := sh.generation + 1 }, ⟨.idle, todo⟩)
  | .storeLive live => ({ sh with live := live }, ⟨.idle, todo⟩)
  | .seed dir => (sh, ⟨.idle, invalidateUnder dir true sh.live ++ todo⟩)
  | .sweepPaths b sweep => (sh, ⟨.sweepPaths b sweep 0, todo⟩)
  | .sweepListings b sweep => (sh, ⟨.sweepListings b sweep 0, todo⟩)
  | .insert i => (sh, ⟨.readNow (.insert i), todo⟩)
  | .publish p => (sh, ⟨.readNow (.publish p), todo⟩)
  | .publishSection p f => (sh, ⟨.publishSequence p f, todo⟩)

/-- One visit of a walk over a path bucket. -/
def visitPath (sh : Shared) (th : Thread) (b : Fin bucketCount) (sweep : PathSweep) (k : ℕ) : Shared × Thread :=
  match (sh.paths b).entries[k]? with
  | none => (sh, th.goto (.unlock (.path b)))
  | some entry =>
    if sweep.takes N entry then (sh.setPaths b ((sh.paths b).remove k), th.goto (.uncountSwept b sweep k))
    else (sh, th.goto (.sweepPaths b sweep (k + 1)))

/-- One visit of a walk over a listing bucket. -/
def visitListing (sh : Shared) (th : Thread) (b : Fin bucketCount) (sweep : ListingSweep) (k : ℕ) : Shared × Thread :=
  match (sh.listings b).entries[k]? with
  | none => (sh, th.goto (.unlock (.listing b)))
  | some entry =>
    if sweep.takes N entry then (sh.removeListing b k, th.goto (if sweep.stops then .unlock (.listing b) else .sweepListings b sweep k))
    else (sh, th.goto (.sweepListings b sweep (k + 1)))

/-- One visit of the walk of `PathCacheInsert`. -/
def visitInsert (sh : Shared) (th : Thread) (i : Insert) (f : Frame) (k : ℕ) : Shared × Thread :=
  let b := bucket N i.path
  match (sh.paths b).entries[k]? with
  | none => (sh, th.goto (.insertCap i f))
  | some entry =>
    if N.equal entry.path i.path then
      (sh.setPaths b ((sh.paths b).refresh k ⟨entry.path, i.read, f.generation, i.found⟩), th.goto (.unlock (.path b)))
    else if entryLive f.now f.generation f.lifetime entry then (sh, th.goto (.insertWalk i f (k + 1)))
    else (sh.setPaths b ((sh.paths b).remove k), th.goto (.uncountDead i f k))

/-- One visit of the walk of `BlorgPathCachePublishListing`. -/
def visitPublish (sh : Shared) (th : Thread) (p : Publish) (f : Frame) (k : ℕ) (existing : Option ℕ) : Shared × Thread :=
  let b := bucket N p.dir
  match (sh.listings b).entries[k]? with
  | none => (sh, th.goto (.publishExisting p f existing))
  | some entry =>
    if snapshotLive f entry = false then (sh.removeListing b k, th.goto (.publishWalk p f k existing))
    else (sh, th.goto (.publishWalk p f (k + 1) (if N.equal entry.path p.dir then some k else existing)))

/-- What a publish does with the entry its walk found. -/
def replace (sh : Shared) (th : Thread) (p : Publish) (f : Frame) (existing : Option ℕ) : Shared × Thread :=
  let b := bucket N p.dir
  let th' := th.goto (if p.pool then .publishRoom p f else .unlock (.listing b))
  match existing with
  | none => (sh, th')
  | some j =>
    match (sh.listings b).entries[j]? with
    | none => (sh, th')
    | some entry =>
      if p.read.ticket.issueTime < entry.read.ticket.issueTime then (sh, th.goto (.unlock (.listing b))) else (sh.removeListing b j, th')

/-- One step of a thread. -/
def step (sh : Shared) (th : Thread) : Option (Shared × Thread) :=
  match th.pc with
  | .idle => th.todo.head?.map (sh.begin th.todo.tail)
  | .readNow call => some (sh, th.goto (.readLifetime call sh.now))
  | .readLifetime call now => some (sh, th.goto (.readGeneration call now (if sh.live then feedTtl else ttl)))
  | .readGeneration (.insert i) now lifetime => some (sh, th.goto (.lockInsert i ⟨now, sh.generation, lifetime⟩))
  | .readGeneration (.publish p) now lifetime =>
    let f : Frame := ⟨now, sh.generation, lifetime⟩
    some (sh, th.goto (if p.pool then .publishBudget p f else .lockPublish p f))
  | .sweepPaths b sweep k => some (sh.visitPath N th b sweep k)
  | .uncountSwept b sweep k => some (sh.addCount (-1), th.goto (if sweep.stops then .unlock (.path b) else .sweepPaths b sweep k))
  | .sweepListings b sweep k => some (sh.visitListing N th b sweep k)
  | .lockInsert i f => some (sh, th.goto (.insertSequence i f))
  | .insertSequence i f =>
    some (sh, th.goto (if i.read.ticket.sequence = sh.sequence then .insertWalk i f 0 else .unlock (.path (bucket N i.path))))
  | .insertWalk i f k => some (sh.visitInsert N th i f k)
  | .uncountDead i f k => some (sh.addCount (-1), th.goto (.insertWalk i f k))
  | .insertCap i f =>
    let b := bucket N i.path
    if maxPerBucket ≤ (sh.paths b).count ∧ (sh.paths b).entries ≠ [] then
      some (sh.setPaths b ((sh.paths b).remove 0), th.goto (.uncountVictim i f))
    else some (sh, th.goto (.insertAppend i f))
  | .uncountVictim i f => some (sh.addCount (-1), th.goto (.insertAppend i f))
  | .insertAppend i f =>
    let b := bucket N i.path
    some (sh.setPaths b ((sh.paths b).append ⟨i.path, i.read, f.generation, i.found⟩), th.goto (.countNew i))
  | .countNew i => some (sh.addCount 1, th.goto (.unlock (.path (bucket N i.path))))
  | .publishBudget p f =>
    if listingMaxBytes < sh.listingBytes + p.info.bytes then some (sh, ⟨.idle, reapDead f ++ .publishSection p f :: th.todo⟩)
    else some (sh, th.goto (.lockPublish p f))
  | .lockPublish p f => some (sh, th.goto (.publishSequence p f))
  | .publishSequence p f =>
    some (sh, th.goto (if p.read.ticket.sequence = sh.sequence then .publishWalk p f 0 none else .unlock (.listing (bucket N p.dir))))
  | .publishWalk p f k existing => some (sh.visitPublish N th p f k existing)
  | .publishExisting p f existing => some (sh.replace N th p f existing)
  | .publishRoom p f =>
    let b := bucket N p.dir
    some (sh, th.goto (if sh.listingBytes - bytesOf (sh.listings b).entries + p.info.bytes ≤ listingMaxBytes then .publishCap p f else .publishCharge p f))
  | .publishCap p f =>
    let b := bucket N p.dir
    if listingMaxPerBucket ≤ (sh.listings b).count ∧ (sh.listings b).entries ≠ [] then some (sh.removeListing b 0, th.goto (.publishFit p f))
    else some (sh, th.goto (.publishFit p f))
  | .publishFit p f =>
    let b := bucket N p.dir
    if listingMaxBytes < sh.listingBytes + p.info.bytes ∧ (sh.listings b).entries ≠ [] then some (sh.removeListing b 0, th.goto (.publishFit p f))
    else some (sh, th.goto (.publishCharge p f))
  | .publishCharge p f =>
    some (sh.addBytes p.info.bytes, th.goto (if sh.listingBytes + p.info.bytes ≤ listingMaxBytes then .publishLink p f else .publishRefused p))
  | .publishRefused p => some (sh.addBytes (-p.info.bytes), th.goto (.unlock (.listing (bucket N p.dir))))
  | .publishLink p f => some (sh.link N p f, th.goto (.unlock (.listing (bucket N p.dir))))
  | .unlock _ => some (sh, th.goto .idle)
  | .cleanPaths i =>
    if h : i < bucketCount then some (sh.setPaths ⟨i, h⟩ Bucket.empty, th.goto (.cleanPaths (i + 1)))
    else some (sh, th.goto (.cleanListings 0))
  | .cleanListings i =>
    if h : i < bucketCount then
      if (sh.listings ⟨i, h⟩).entries = [] then some (sh, th.goto (.cleanListings (i + 1)))
      else some (sh.removeListing ⟨i, h⟩ 0, th.goto (.cleanListings i))
    else some (sh, th.goto .cleanCount)
  | .cleanCount => some ({ sh with count := 0 }, th.goto .idle)

end Shared

structure State where
  shared : Shared
  threads : List Thread

/-- Time passes, a thread enters a call, or a thread takes a step. -/
inductive Act
  | tick (elapsed : ℕ)
  | call (t : ℕ) (call : Call)
  | step (t : ℕ)

namespace State

/-- No other thread holds what a thread at `pc` does. -/
def Free (s : State) (t : ℕ) (pc : Pc) : Prop := ∀ u ∈ s.threads.eraseIdx t, (pc.hold N).conflicts (u.pc.hold N) = false

instance (s : State) (t : ℕ) (pc : Pc) : Decidable (s.Free N t pc) := inferInstanceAs (Decidable (∀ u ∈ _, _))

/-- A thread between calls enters one. `BlorgPathCacheCleanup` finds nobody else in one. -/
def enter (s : State) (t : ℕ) : Call → Option State
  | .cleanup =>
    if s.shared.ready = false then some s
    else if s.Free N t (.cleanPaths 0) then some ⟨{ s.shared with ready := false }, s.threads.set t ⟨.cleanPaths 0, []⟩⟩ else none
  | call => some { s with threads := s.threads.set t ⟨.idle, call.ops N s.shared.ready⟩ }

def next (s : State) : Act → Option State
  | .tick elapsed => some { s with shared := { s.shared with now := s.shared.now + elapsed } }
  | .call t call => do
    let th ← s.threads[t]?
    match th with
    | ⟨.idle, []⟩ => s.enter N t call
    | _ => none
  | .step t => do
    let th ← s.threads[t]?
    let (shared, th') ← s.shared.step N th
    if s.Free N t th'.pc then some ⟨shared, s.threads.set t th'⟩ else none

/-- `BlorgPathCacheInit`, with `n` threads. -/
def start (n : ℕ) : State :=
  ⟨⟨fun _ => Bucket.empty, fun _ => Bucket.empty, 0, 0, false, 0, true, 0, 0, [], []⟩, List.replicate n ⟨.idle, []⟩⟩

end State

/-- The caches from `BlorgPathCacheInit` on, under `n` threads. -/
def system (n : ℕ) : System State := ⟨fun s => s = State.start n, fun s s' => ∃ act, s.next N act = some s'⟩

end BlorgFS.PathCache.Budget
