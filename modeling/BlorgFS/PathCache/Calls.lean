import BlorgFS.PathCache.Machine

/-! The entry points of the two caches one at a time, each run to its end with nothing beside it.
What a section does is as for any number of threads; what a call reads between its sections is
what the call before it left. -/

namespace BlorgFS.PathCache

/-! ### The caches -/

/-- `PATH_CACHE_STATE` and `ChangeFeedLive`. -/
structure Caches where
  buckets : ℕ → List PathEntry := fun _ => []
  listings : ℕ → List ListingEntry := fun _ => []
  sequence : ℕ := 0
  generation : ℕ := 0
  listingBytes : ℤ := 0
  live : Bool := false

/-- One bucket after another. -/
def sweep {β : Type} (f : β → β) : ℕ → (ℕ → β) → ℕ → β
  | 0, buckets => buckets
  | n + 1, buckets => let buckets := sweep f n buckets; Function.update buckets n (f (buckets n))

/-- The ticket an entry is kept under: the caller's, or, where it has none, one of this moment. -/
def readUnder (ticket : Option Ticket) (sequence now : ℕ) : Read := ⟨ticket.getD ⟨sequence, now⟩, 0⟩

/-- What a call finds that the caches do not say: the interrupt time, and whether what it
allocates is there. -/
structure Moment where
  now : ℕ
  pool : Bool := true

namespace Caches

variable (N : Names) (c : Caches)

/-- `PathCacheLifetime`. -/
def lifetime : ℕ := if c.live then feedTtl else ttl

/-! ### The path cache -/

/-- `PathCacheFind`: the entry's `Meta`, if it exists; `none` for a miss. -/
def find (now : ℕ) (path : Path) : Option (Option Meta) :=
  if path = [] then none
  else (findSection N now c.generation c.lifetime path (c.buckets (N.bucketOf path))).map (·.value)

/-- `PathCacheInsert`. -/
def insert (m : Moment) (path : Path) (found : Option Meta) (ticket : Option Ticket) : Caches :=
  if path = [] ∨ maxPathBytes < byteLength path ∨ found.any (·.noStore) ∨ m.pool = false then c
  else
    let i := N.bucketOf path
    let entries := insertSection N c.sequence m.now c.generation c.lifetime path found (readUnder ticket c.sequence m.now) (c.buckets i)
    { c with buckets := Function.update c.buckets i entries }

/-- `PathCacheInvalidateUnder`. -/
def invalidateUnder (dir : Path) (keepDir childrenOnly : Bool) : Caches :=
  { c with buckets := sweep (invalidateUnderSection N dir keepDir childrenOnly) bucketCount c.buckets }

/-- `PathCacheSeedEntry`. -/
def seedEntry (m : Moment) (base name : Path) (found : Meta) (ticket : Option Ticket) : Caches :=
  if isComponent name = false ∨ maxPathBytes < byteLength base + byteLength name then c
  else c.insert N m (base ++ name) (some found) ticket

/-- The entries of a listing that are seeded, in the order they are. -/
def seeds (listing : Listing) : List (Path × Meta) :=
  let files := listing.files.take seedMax
  let subDirs := listing.subDirs.take (seedMax - files.length)
  (subDirs.map fun sub => (sub.name, subDirMeta sub)).reverse ++ (files.map fun file => (file.name, fileMeta file)).reverse

/-- The loops of `BlorgPathCacheSeedListing`, the entries so far being `k`. -/
def seedEntries (moments : ℕ → Moment) (base : Path) (ticket : Option Ticket) : List (Path × Meta) → ℕ → Caches → Caches
  | [], _, c => c
  | (name, found) :: rest, k, c => seedEntries moments base ticket rest (k + 1) (c.seedEntry N (moments k) base name found ticket)

/-- `BlorgPathCacheSeedListing`; `scratch` says whether its path buffer was allocated. -/
def seedListing (moments : ℕ → Moment) (scratch : Bool) (dir : Path) (listing : Option Listing) (ticket : Option Ticket) : Caches :=
  if dir = [] then c
  else
    let c := c.invalidateUnder N dir true c.live
    match listing with
    | none => c
    | some listing =>
      if maxPathBytes < byteLength dir + 2 ∨ scratch = false then c
      else seedEntries N moments (withSeparator dir) ticket (seeds listing) 0 c

/-! ### The listing cache -/

/-- `ListingCacheReapDead`, as far as bucket `n`. -/
def reapDead (now : ℕ) : ℕ → Caches → Caches
  | 0, c => c
  | n + 1, c =>
    let c := reapDead now n c
    let live := (c.listings n).filter (listingLive now c.generation c.lifetime)
    { c with
      listings := Function.update c.listings n live
      listingBytes := c.listingBytes - (bucketBytes (c.listings n) - bucketBytes live) }

/-- `BlorgPathCachePublishListing`: its verdict and the caches after it. -/
def publishListing (m : Moment) (dir : Path) (listing : Listing) (ticket : Option Ticket) : Bool × Caches :=
  if dir = [] ∨ maxPathBytes < byteLength dir ∨ listing.noStore then (false, c)
  else
    let c := if m.pool ∧ listingMaxBytes < c.listingBytes + listing.bytes then reapDead m.now bucketCount c else c
    let i := N.bucketOf dir
    let (current, entries, bytes) := publishSection N c.sequence m.now c.generation c.lifetime m.pool dir listing
      (readUnder ticket c.sequence m.now) (c.listings i) c.listingBytes
    (current, { c with listings := Function.update c.listings i entries, listingBytes := bytes })

/-- What `BlorgPathCacheLookupListing` hands out. -/
structure Handed where
  listing : Listing
  stale : Bool
  refreshOwed : Bool
  ticket : Ticket

/-- `BlorgPathCacheLookupListing`. -/
def lookupListing (now : ℕ) (dir : Path) (allowStale : Bool) : Option Handed × Caches :=
  if dir = [] then (none, c)
  else
    let i := N.bucketOf dir
    match lookupListingSection N now c.generation c.lifetime dir allowStale (c.listings i) with
    | none => (none, c)
    | some (entry, stale) =>
      (some ⟨entry.value.listing, stale, stale && !entry.value.refreshClaimed, entry.read.ticket⟩,
        { c with listings := Function.update c.listings i (claimRefresh N dir stale (c.listings i)) })

end Caches

/-! ### Sweeps -/

theorem sweep_apply {β : Type} (f : β → β) (buckets : ℕ → β) : ∀ n i : ℕ, sweep f n buckets i = if i < n then f (buckets i) else buckets i
  | 0, _ => rfl
  | n + 1, i => by
    unfold sweep
    by_cases hi : i = n
    · rw [hi, Function.update_self, sweep_apply f buckets n n, if_neg (Nat.lt_irrefl n), if_pos (Nat.lt_succ_self n)]
    · rw [Function.update_of_ne hi, sweep_apply f buckets n i]
      by_cases hlt : i < n
      · rw [if_pos hlt, if_pos (Nat.lt_succ_of_lt hlt)]
      · rw [if_neg hlt, if_neg (by omega)]

end BlorgFS.PathCache
