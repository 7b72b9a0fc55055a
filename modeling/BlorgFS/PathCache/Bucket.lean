import BlorgFS.PathCache.Path
import Mathlib.Algebra.BigOperators.Group.List.Basic
import Mathlib.Algebra.Ring.Int.Defs
import Mathlib.Data.Int.Notation

/-! What one bucket of the path cache or of the listing cache goes through under
its lock, `PathCache.c`: each function here is one critical section, or the test
it applies to an entry. The two caches' entries differ only in what they hold, so
they share one record, and an entry carries the ticket of the read behind it.

Times are in units of 100 ns. An entry's generation and the sequence are counters
without a bound; the source's wrap after `2 ^ 32` flushes, which would have to
fall within the five minutes an entry can live. -/

namespace BlorgFS.PathCache

/-! ### What is cached -/

/-- `DIRECTORY_ENTRY_METADATA`. -/
structure Meta where
  size : ℕ
  creationTime : ℕ
  lastAccessedTime : ℕ
  lastModifiedTime : ℕ
  isDirectory : Bool
  noStore : Bool
  deriving DecidableEq, Repr

/-- `DIRECTORY_FILE_METADATA`. -/
structure FileEntry where
  size : ℕ
  creationTime : ℕ
  lastAccessedTime : ℕ
  lastModifiedTime : ℕ
  name : Path
  deriving DecidableEq, Repr

/-- `DIRECTORY_SUBDIR_METADATA`. -/
structure SubDirEntry where
  creationTime : ℕ
  lastAccessedTime : ℕ
  lastModifiedTime : ℕ
  name : Path
  deriving DecidableEq, Repr

/-- `DIRECTORY_INFO`, as the caches read it. -/
structure Listing where
  files : List FileEntry
  subDirs : List SubDirEntry
  bytes : ℤ
  noStore : Bool
  deriving DecidableEq, Repr

/-- `DIRECTORY_DESCENDANT`. -/
structure Descendant where
  listing : Listing
  parent : ℕ
  subDir : ℕ
  deriving DecidableEq, Repr

/-- `PATH_CACHE_TICKET`. -/
structure Ticket where
  sequence : ℕ
  issueTime : ℕ
  deriving DecidableEq, Repr

/-- A read of the server: the ticket taken for it, and the event at which the
ticket's sequence was read. -/
structure Read where
  ticket : Ticket
  takenAt : ℕ
  deriving DecidableEq, Repr

/-- `PATH_CACHE_ENTRY` or `LISTING_CACHE_ENTRY`. `IssueTime` and `Sequence` are
those of the ticket of `read`. -/
structure Entry (α : Type) where
  path : Path
  read : Read
  generation : ℕ
  value : α
  deriving Repr

/-- `Meta` when `Exists`. -/
abbrev PathEntry := Entry (Option Meta)

/-- What a listing entry holds: `Listing`, `Bytes` and `RefreshClaimed`. -/
structure Snapshot where
  listing : Listing
  bytes : ℤ
  refreshClaimed : Bool
  deriving Repr

abbrev ListingEntry := Entry Snapshot

/-! ### Lifetimes -/

def ttl : ℕ := 4 * 10 * 1000 * 1000
def feedTtl : ℕ := 5 * 60 * 10 * 1000 * 1000
def staleGrace : ℕ := 26 * 10 * 1000 * 1000
def maxPerBucket : ℕ := 16
def listingMaxPerBucket : ℕ := 8
def maxPathBytes : ℕ := 4096
def listingMaxBytes : ℤ := 32 * 1024 * 1024

/-- `PathCacheAge`. -/
def age (issueTime now : ℕ) : ℕ := if issueTime < now then now - issueTime else 0

/-- `PathCacheEntryLive`. -/
def entryLive (now generation lifetime : ℕ) (entry : PathEntry) : Bool :=
  age entry.read.ticket.issueTime now < (if entry.value.isSome then lifetime else ttl) &&
    entry.generation == generation

/-- `ListingCacheEntryLive`. -/
def listingLive (now generation lifetime : ℕ) (entry : ListingEntry) : Bool :=
  entry.generation == generation && age entry.read.ticket.issueTime now < lifetime + staleGrace

/-! ### Sections of the path cache -/

variable {α : Type} (N : Names)

/-- The entry a walk of the bucket stops at. -/
def findPath (path : Path) (entries : List (Entry α)) : Option (Entry α) :=
  entries.find? fun entry => N.equal entry.path path

/-- The bucket without the entry of exactly `path`. -/
def dropPath (path : Path) (entries : List (Entry α)) : List (Entry α) :=
  entries.eraseP fun entry => N.equal entry.path path

/-- The walk of `PathCacheInsert`: whether it found `path` and refreshed it, and
the bucket without the dead entries it met on the way. -/
def insertWalk (path : Path) (live : PathEntry → Bool) (new : PathEntry) :
    List PathEntry → List PathEntry × Bool
  | [] => ([], false)
  | entry :: entries =>
    if N.equal entry.path path then ({ new with path := entry.path } :: entries, true)
    else
      let (rest, inserted) := insertWalk path live new entries
      (if live entry then entry :: rest else rest, inserted)

/-- The section of `PathCacheInsert`. -/
def insertSection (sequence now generation lifetime : ℕ) (path : Path) (found : Option Meta) (read : Read)
    (entries : List PathEntry) : List PathEntry :=
  if read.ticket.sequence ≠ sequence then entries
  else
    let new : PathEntry := ⟨path, read, generation, found⟩
    let (entries, inserted) := insertWalk N path (entryLive now generation lifetime) new entries
    if inserted then entries
    else (if maxPerBucket ≤ entries.length then entries.drop 1 else entries) ++ [new]

/-- A bucket's section of `PathCacheInvalidateUnder`. -/
def invalidateUnderSection (dir : Path) (keepDir childrenOnly : Bool) (entries : List PathEntry) :
    List PathEntry :=
  entries.filter fun entry => !(N.isUnder dir entry.path &&
    !(keepDir && entry.path.length == dir.length) &&
    !(childrenOnly && isBelowChild dir entry.path))

/-! ### Sections of the listing cache -/

/-- The bytes a bucket's listings are charged for. -/
def bucketBytes (entries : List ListingEntry) : ℤ := (entries.map fun entry => entry.value.bytes).sum

/-- A bucket's section of `ListingCacheDropUnder`. -/
def dropUnderSection (dir : Option Path) (entries : List ListingEntry) : List ListingEntry :=
  entries.filter fun entry => match dir with
    | none => false
    | some dir => !N.isUnder dir entry.path

/-- Evicts from the front while `bytes` more would not fit. -/
def evictFor (bytes : ℤ) : List ListingEntry → ℤ → List ListingEntry × ℤ
  | [], total => ([], total)
  | entry :: entries, total =>
    if listingMaxBytes < total + bytes then evictFor bytes entries (total - entry.value.bytes)
    else (entry :: entries, total)

/-- Makes room in the bucket, unless emptying it would not make enough. -/
def makeRoom (bytes : ℤ) (entries : List ListingEntry) (total : ℤ) : List ListingEntry × ℤ :=
  if total - bucketBytes entries + bytes ≤ listingMaxBytes then
    if listingMaxPerBucket ≤ entries.length then
      evictFor bytes (entries.drop 1) (total - bucketBytes (entries.take 1))
    else evictFor bytes entries total
  else (entries, total)

/-- `ListingCacheCharge` and the insertion it licenses. -/
def chargeAndAppend (new : ListingEntry) (entries : List ListingEntry) (total : ℤ) : List ListingEntry × ℤ :=
  if total + new.value.bytes ≤ listingMaxBytes then (entries ++ [new], total + new.value.bytes)
  else (entries, total)

/-- The last entry of `dir` in the bucket, the one `BlorgPathCachePublishListing`'s
walk is left with. -/
def existing (dir : Path) (entries : List ListingEntry) : Option ListingEntry :=
  findPath N dir entries.reverse

/-- The section of `BlorgPathCachePublishListing`: its verdict, the bucket, and
`PathCache.ListingBytes`. `pool` says whether the new entry was allocated. -/
def publishSection (sequence now generation lifetime : ℕ) (pool : Bool) (dir : Path) (listing : Listing)
    (read : Read) (entries : List ListingEntry) (total : ℤ) : Bool × List ListingEntry × ℤ :=
  if read.ticket.sequence ≠ sequence then (false, entries, total)
  else
    let live := entries.filter (listingLive now generation lifetime)
    let total := total - (bucketBytes entries - bucketBytes live)
    if (existing N dir live).any fun entry => read.ticket.issueTime < entry.read.ticket.issueTime then
      (false, live, total)
    else
      let kept := (dropPath N dir live.reverse).reverse
      let total := total - (bucketBytes live - bucketBytes kept)
      if pool then
        let (kept, total) := makeRoom listing.bytes kept total
        (true, chargeAndAppend ⟨dir, read, generation, ⟨listing, listing.bytes, false⟩⟩ kept total)
      else (true, kept, total)

/-- The section of `BlorgPathCacheLookupListing`: the entry it answers with and
whether that is stale. -/
def lookupListingSection (now generation lifetime : ℕ) (dir : Path) (allowStale : Bool)
    (entries : List ListingEntry) : Option (ListingEntry × Bool) :=
  (findPath N dir entries).bind fun entry =>
    let stale := decide (lifetime ≤ age entry.read.ticket.issueTime now)
    if listingLive now generation lifetime entry && (!stale || allowStale) then some (entry, stale) else none

/-- `RefreshClaimed` of `dir`'s entry set by the first stale answer from it. -/
def claimRefresh (dir : Path) (stale : Bool) : List ListingEntry → List ListingEntry
  | [] => []
  | entry :: entries =>
    if N.equal entry.path dir then
      { entry with value := { entry.value with refreshClaimed := entry.value.refreshClaimed || stale } } :: entries
    else entry :: claimRefresh dir stale entries

/-- The section of `PathCacheFind`. -/
def findSection (now generation lifetime : ℕ) (path : Path) (entries : List PathEntry) : Option PathEntry :=
  (findPath N path entries).filter (entryLive now generation lifetime)

/-! ### What a section can put into a bucket -/

variable {N} {entries : List (Entry α)} {path : Path}

/-- No two entries of a bucket are of the same path. -/
def UniquePaths (N : Names) (entries : List (Entry α)) : Prop :=
  (entries.map Entry.path).Pairwise fun p q => ¬ Same N p q

/-- The same but for what it holds. -/
def SameRead (old entry : Entry α) : Prop :=
  old.path = entry.path ∧ old.read = entry.read ∧ old.generation = entry.generation

/-- What a section under `sequence` can do to a bucket: keep entries, and add some
of `path` read under a ticket it honours. -/
structure Section (N : Names) (sequence : ℕ) (path : Path) (read : Read) (generation : ℕ)
    (entries entries' : List (Entry α)) : Prop where
  mem : ∀ entry ∈ entries', (∃ old ∈ entries, SameRead old entry) ∨
    (Same N entry.path path ∧ entry.read = read ∧ read.ticket.sequence = sequence ∧
      entry.generation = generation)
  unique : UniquePaths N entries → UniquePaths N entries'

theorem UniquePaths.sublist {entries' : List (Entry α)} (h : UniquePaths N entries)
    (hs : entries'.Sublist entries) : UniquePaths N entries' :=
  List.Pairwise.sublist (hs.map Entry.path) h

theorem mem_of_findPath {entry : Entry α} (h : findPath N path entries = some entry) :
    entry ∈ entries ∧ Same N entry.path path := by
  refine ⟨List.mem_of_find?_eq_some h, ?_⟩
  simpa using List.find?_some h

theorem dropPath_sublist (path : Path) (entries : List (Entry α)) :
    (dropPath N path entries).Sublist entries := List.eraseP_sublist

/-- Where paths are unique, dropping the first entry of a path leaves none of it. -/
theorem not_same_of_mem_dropPath {entry : Entry α} : ∀ {entries : List (Entry α)}, UniquePaths N entries →
    entry ∈ dropPath N path entries → ¬ Same N entry.path path
  | [], _, h => by simp [dropPath] at h
  | first :: entries, hu, h => by
    obtain ⟨hfirst, hrest⟩ := List.pairwise_cons.mp hu
    unfold dropPath at h
    rw [List.eraseP_cons, cond_eq_ite] at h
    split at h
    next heq =>
      intro hs
      exact hfirst entry.path (List.mem_map_of_mem h) (((Names.equal_iff N).mp heq).trans hs.symm)
    next heq =>
      rcases List.mem_cons.mp h with rfl | h
      · exact fun hs => heq ((Names.equal_iff N).mpr hs)
      · exact not_same_of_mem_dropPath hrest h

theorem UniquePaths.append_of_not_same {new : Entry α} (h : UniquePaths N entries)
    (hn : ∀ entry ∈ entries, ¬ Same N entry.path new.path) : UniquePaths N (entries ++ [new]) := by
  unfold UniquePaths
  rw [List.map_append, List.pairwise_append]
  refine ⟨h, by simp, fun p hp q hq => ?_⟩
  obtain ⟨entry, he, rfl⟩ := List.mem_map.mp hp
  rw [List.map_singleton, List.mem_singleton] at hq
  exact hq ▸ hn entry he

/-! ### Inserting a path -/

section Insert

variable {live : PathEntry → Bool} {new : PathEntry}

theorem insertWalk_paths (path : Path) (live : PathEntry → Bool) (new : PathEntry) :
    ∀ entries : List PathEntry,
      ((insertWalk N path live new entries).1.map Entry.path).Sublist (entries.map Entry.path)
  | [] => List.Sublist.slnil
  | entry :: entries => by
    unfold insertWalk
    split
    · exact List.Sublist.refl _
    · have ih := insertWalk_paths path live new entries
      by_cases hl : live entry = true
      · simpa [hl] using ih
      · simpa [hl] using ih.cons entry.path

theorem insertWalk_mem {entry : PathEntry} : ∀ {entries : List PathEntry},
    entry ∈ (insertWalk N path live new entries).1 →
      entry ∈ entries ∨ (Same N entry.path path ∧ entry.read = new.read ∧ entry.generation = new.generation)
  | [], h => by simp [insertWalk] at h
  | first :: entries, h => by
    unfold insertWalk at h
    split at h
    next heq =>
      rcases List.mem_cons.mp h with rfl | h
      · exact Or.inr ⟨(Names.equal_iff N).mp heq, rfl, rfl⟩
      · exact Or.inl (List.mem_cons_of_mem _ h)
    next =>
      have hsplit : entry = first ∨ entry ∈ (insertWalk N path live new entries).1 := by
        by_cases hl : live first = true
        · simpa [hl] using h
        · exact Or.inr (by simpa [hl] using h)
      rcases hsplit with rfl | h
      · exact Or.inl List.mem_cons_self
      · exact (insertWalk_mem h).imp_left (List.mem_cons_of_mem _)

theorem insertWalk_not_same {entry : PathEntry} : ∀ {entries : List PathEntry},
    (insertWalk N path live new entries).2 = false → entry ∈ (insertWalk N path live new entries).1 →
      ¬ Same N entry.path path
  | [], _, h => by simp [insertWalk] at h
  | first :: entries, hi, h => by
    unfold insertWalk at hi h
    split at hi
    next => cases hi
    next heq =>
      rw [if_neg heq] at h
      have hsplit : entry = first ∨ entry ∈ (insertWalk N path live new entries).1 := by
        by_cases hl : live first = true
        · simpa [hl] using h
        · exact Or.inr (by simpa [hl] using h)
      rcases hsplit with rfl | h
      · exact fun hs => heq ((Names.equal_iff N).mpr hs)
      · exact insertWalk_not_same hi h

end Insert

theorem insertSection_section (sequence now generation lifetime : ℕ) (path : Path) (found : Option Meta)
    (read : Read) (entries : List PathEntry) : Section N sequence path read generation entries
      (insertSection N sequence now generation lifetime path found read entries) := by
  unfold insertSection
  split
  next => exact ⟨fun entry he => Or.inl ⟨entry, he, rfl, rfl, rfl⟩, id⟩
  next hseq =>
    rw [ne_eq, not_not] at hseq
    set new : PathEntry := ⟨path, read, generation, found⟩
    set walked := insertWalk N path (entryLive now generation lifetime) new entries with hw
    have hmem : ∀ entry ∈ walked.1, (∃ old ∈ entries, SameRead old entry) ∨
        (Same N entry.path path ∧ entry.read = read ∧ read.ticket.sequence = sequence ∧
          entry.generation = generation) := by
      intro entry he
      rcases insertWalk_mem he with he | ⟨hs, hr, hg⟩
      · exact Or.inl ⟨entry, he, rfl, rfl, rfl⟩
      · exact Or.inr ⟨hs, hr, hseq, hg⟩
    have hunique : UniquePaths N entries → UniquePaths N walked.1 := fun hu =>
      List.Pairwise.sublist (insertWalk_paths path _ new entries) hu
    simp only
    split
    next => exact ⟨hmem, hunique⟩
    next hins =>
      -- The bucket may lose its oldest entry before the new one goes in.
      set kept := if maxPerBucket ≤ walked.1.length then walked.1.drop 1 else walked.1
      have hsub : kept.Sublist walked.1 := by
        simp only [kept]
        split
        · exact List.drop_sublist 1 _
        · exact List.Sublist.refl _
      refine ⟨fun entry he => ?_, fun hu => ?_⟩
      · rcases List.mem_append.mp he with he | he
        · exact hmem entry (hsub.subset he)
        · rw [List.mem_singleton] at he
          rw [he]
          exact Or.inr ⟨rfl, rfl, hseq, rfl⟩
      · refine ((hunique hu).sublist hsub).append_of_not_same fun entry he => ?_
        exact insertWalk_not_same (by simpa using hins) (hsub.subset he)

/-! ### Publishing a listing -/

theorem evictFor_sublist (bytes : ℤ) : ∀ (entries : List ListingEntry) (total : ℤ),
    (evictFor bytes entries total).1.Sublist entries
  | [], _ => List.Sublist.slnil
  | entry :: entries, total => by
    unfold evictFor
    split
    · exact (evictFor_sublist bytes entries _).cons entry
    · exact List.Sublist.refl _

theorem makeRoom_sublist (bytes : ℤ) (entries : List ListingEntry) (total : ℤ) :
    (makeRoom bytes entries total).1.Sublist entries := by
  unfold makeRoom
  split
  · split
    · exact (evictFor_sublist bytes _ _).trans (List.drop_sublist 1 _)
    · exact evictFor_sublist bytes _ _
  · exact List.Sublist.refl _

theorem publishSection_section (sequence now generation lifetime : ℕ) (pool : Bool) (dir : Path)
    (listing : Listing) (read : Read) (entries : List ListingEntry) (total : ℤ) :
    Section N sequence dir read generation entries
      (publishSection N sequence now generation lifetime pool dir listing read entries total).2.1 := by
  have hkeep : ∀ {entries' : List ListingEntry}, entries'.Sublist entries →
      Section N sequence dir read generation entries entries' := fun hs =>
    ⟨fun entry he => Or.inl ⟨entry, hs.subset he, rfl, rfl, rfl⟩, fun hu => hu.sublist hs⟩
  unfold publishSection
  split
  next => exact hkeep (List.Sublist.refl _)
  next hseq =>
    rw [ne_eq, not_not] at hseq
    set live := entries.filter (listingLive now generation lifetime)
    have hlive : live.Sublist entries := List.filter_sublist
    simp only
    split
    next => exact hkeep hlive
    next =>
      set kept := (dropPath N dir live.reverse).reverse
      have hkept : kept.Sublist live := by
        simpa using (dropPath_sublist dir live.reverse).reverse
      split
      next =>
        set room := makeRoom listing.bytes kept _ with hroom
        have hsub : room.1.Sublist kept := makeRoom_sublist _ _ _
        unfold chargeAndAppend
        split
        next =>
          refine ⟨fun entry he => ?_, fun hu => ?_⟩
          · rcases List.mem_append.mp he with he | he
            · exact Or.inl ⟨entry, hlive.subset (hkept.subset (hsub.subset he)), rfl, rfl, rfl⟩
            · rw [List.mem_singleton] at he
              rw [he]
              exact Or.inr ⟨rfl, rfl, hseq, rfl⟩
          · have hu' := hu.sublist hlive
            refine ((hu'.sublist hkept).sublist hsub).append_of_not_same fun entry he => ?_
            have hrev : UniquePaths N live.reverse := by
              unfold UniquePaths
              rw [List.map_reverse, List.pairwise_reverse]
              exact hu'.imp fun hn hs => hn hs.symm
            exact not_same_of_mem_dropPath hrev (List.mem_reverse.mp (hsub.subset he))
        next => exact hkeep (hsub.trans (hkept.trans hlive))
      next => exact hkeep (hkept.trans hlive)

/-! ### Claiming a refresh -/

theorem claimRefresh_paths (dir : Path) (stale : Bool) : ∀ entries : List ListingEntry,
    (claimRefresh N dir stale entries).map Entry.path = entries.map Entry.path
  | [] => rfl
  | entry :: entries => by
    unfold claimRefresh
    split
    · rfl
    · rw [List.map_cons, List.map_cons, claimRefresh_paths dir stale entries]

theorem claimRefresh_mem {dir : Path} {stale : Bool} {entry : ListingEntry} : ∀ {entries : List ListingEntry},
    entry ∈ claimRefresh N dir stale entries → ∃ old ∈ entries, SameRead old entry
  | [], h => by simp [claimRefresh] at h
  | first :: entries, h => by
    unfold claimRefresh at h
    split at h
    · rcases List.mem_cons.mp h with rfl | h
      · exact ⟨first, List.mem_cons_self, rfl, rfl, rfl⟩
      · exact ⟨entry, List.mem_cons_of_mem _ h, rfl, rfl, rfl⟩
    · rcases List.mem_cons.mp h with rfl | h
      · exact ⟨entry, List.mem_cons_self, rfl, rfl, rfl⟩
      · obtain ⟨old, ho, hs⟩ := claimRefresh_mem h
        exact ⟨old, List.mem_cons_of_mem _ ho, hs⟩

end BlorgFS.PathCache
