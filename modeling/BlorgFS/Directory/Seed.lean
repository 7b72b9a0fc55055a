import BlorgFS.Directory.Decode
import BlorgFS.PathCache.ListingRuns
import BlorgFS.PathCache.SeedRuns

/-! What the path cache answers once a listing has seeded it, next to what the listing itself
answers, `CreateFindEntryByName`. The two agree on every name, but for an entry whose insert
found no pool: then the path cache may know a later entry of that name. -/

namespace BlorgFS.Directory

open Lib
open Tree (IsName)
open PathCache (WChar Path Names Same Meta Caches Moment Ticket PathEntry withSeparator bucketCount entryLive)
open PathCache.Caches (Setting turnOf)

namespace DirectoryInfo

variable (N : Names) (d : DirectoryInfo)

/-- The listing as the path cache reads it. -/
def listing : PathCache.Listing where
  files := (List.range d.fileCount).map fun i =>
    let file := d.files i
    ⟨file.size, file.creationTime, file.lastAccessedTime, file.lastModifiedTime, load d.names file.name file.nameLength⟩
  subDirs := (List.range d.subDirCount).map fun i =>
    let sub := d.subDirs i
    ⟨sub.creationTime, sub.lastAccessedTime, sub.lastModifiedTime, load d.names sub.name sub.nameLength⟩
  bytes := d.bytes
  noStore := d.noStore

/-- `Out` with an entry's metadata. -/
def fill (entry : ℕ) (out : Meta) : Meta :=
  if entry < d.fileCount then
    let file := d.files entry
    { out with
      size := file.size
      creationTime := file.creationTime
      lastAccessedTime := file.lastAccessedTime
      lastModifiedTime := file.lastModifiedTime
      isDirectory := false }
  else
    let sub := d.subDirs (entry - d.fileCount)
    { out with
      size := 0
      creationTime := sub.creationTime
      lastAccessedTime := sub.lastAccessedTime
      lastModifiedTime := sub.lastModifiedTime
      isDirectory := true }

/-- `CreateFindEntryByName`: whether there is such an entry, and `Out`. -/
def findEntryByName (turns : ℕ) (name : Path) (out : Meta) : Option (Bool × Meta) :=
  (d.findDirectoryEntry N turns name).map fun found =>
    match found with
    | none => (false, out)
    | some entry => (true, d.fill entry out)

end DirectoryInfo

/-- `DIRECTORY_ENTRY_METADATA` as the open has it at first. -/
def noMeta : Meta := ⟨0, 0, 0, 0, false, false⟩

variable {U : Utf8} {N : Names} {d : DirectoryInfo} {t : FlatDirectory} {noStore : Bool} {entry : ℕ}

/-- The name of a decoded entry is as long as the entry says. -/
theorem Decoded.entryName_eq (h : Decoded N U t noStore d) (he : entry < d.entries) :
    d.entryName entry = load d.names (d.named entry).1 (d.named entry).2 := by
  obtain ⟨name, hat⟩ : ∃ name, t.names[entry]? = some name := ⟨_, List.getElem?_eq_getElem (h.entries ▸ he)⟩
  obtain ⟨chars, hentered⟩ := h.entered (show (t.names.map bytesOf)[entry]? = some (bytesOf name) by rw [List.getElem?_map, hat]; rfl)
  have hle : chars.length ≤ 259 := U.length_le _ _ _ hentered.converted
  rw [entryName_named, hentered.nameLength]
  congr 1
  omega

theorem length_listed (d : DirectoryInfo) : (Caches.listed d.listing).length = d.entries := by
  simp [Caches.listed, DirectoryInfo.listing, DirectoryInfo.entries]

/-- What is seeded for an entry is what `CreateFindEntryByName` says of it. -/
theorem Decoded.listed_at (h : Decoded N U t noStore d) (he : entry < d.entries) :
    (Caches.listed d.listing)[entry]? = some (d.entryName entry, d.fill entry noMeta) := by
  rw [h.entryName_eq he, Caches.listed, DirectoryInfo.listing, List.map_map, List.map_map]
  unfold DirectoryInfo.named DirectoryInfo.fill
  by_cases hfile : entry < d.fileCount
  · rw [if_pos hfile, if_pos hfile, List.getElem?_append_left (by simpa using hfile), List.getElem?_map, List.getElem?_range hfile]
    rfl
  · have hsub : entry - d.fileCount < d.subDirCount := by
      unfold DirectoryInfo.entries at he
      omega
    rw [if_neg hfile, if_neg hfile, List.getElem?_append_right (by simpa using hfile), List.length_map, List.length_range, List.getElem?_map,
      List.getElem?_range hsub]
    rfl

/-! ### Lookups after the seed -/

variable {bodyLen : ℕ} {pool scratch : Bool} {c : Caches} {moments : ℕ → Moment} {dir : Path} {ticket : Option Ticket}

/-- The insert of an entry finds pool. -/
def Taken (moments : ℕ → Moment) (d : DirectoryInfo) (entry : ℕ) : Prop := (moments (turnOf d.listing entry)).pool = true

/-- A lookup in the directory misses or has the metadata of the first entry of that name whose
insert found pool. -/
theorem Decoded.find_seeded (hd : Decoded N U t noStore d) (hdir : dir ≠ []) (hticket : c.Honoured ticket) {n : Path} (hn : IsName n) (s : Setting) :
    let found := ((c.seedListing N moments scratch dir (some d.listing) ticket).under s).find N s.now (withSeparator dir ++ n)
    found = none ∨ ∃ e < d.entries, found = some (some (d.fill e noMeta)) ∧ Same N (d.entryName e) n ∧ Taken moments d e ∧
      ∀ earlier < e, Same N (d.entryName earlier) n → ¬ Taken moments d earlier := by
  intro found
  have hbuckets : ((c.seedListing N moments scratch dir (some d.listing) ticket).under s).buckets =
      (c.seedListing N moments scratch dir (some d.listing) ticket).buckets := rfl
  have hfind : found = none ∨ ∃ e name value, (Caches.listed d.listing)[e]? = some (name, value) ∧ Same N name n ∧ found = some (some value) ∧
      Taken moments d e ∧ ∀ earlier < e, ∀ seed, (Caches.listed d.listing)[earlier]? = some seed → Same N seed.1 n →
        (moments (turnOf d.listing earlier)).pool = false :=
    Caches.find_seedListing hdir hticket hn hbuckets s.now
  refine hfind.imp_right fun ⟨e, name, value, hat, hs, hfound, hpool, hearlier⟩ => ?_
  have he : e < d.entries := by
    rw [← length_listed]
    exact (List.getElem?_eq_some_iff.mp hat).1
  rw [hd.listed_at he] at hat
  obtain ⟨rfl, rfl⟩ := Prod.mk.inj (Option.some.inj hat)
  refine ⟨e, he, hfound, hs, hpool, fun earlier hlt hsame htaken => ?_⟩
  have hnone := hearlier earlier hlt _ (hd.listed_at (Nat.lt_trans hlt he)) hsame
  rw [Taken, hnone] at htaken
  cases htaken

/-- Where the insert of the entry that `CreateFindEntryByName` finds found pool, its answer is
the one a lookup has. -/
theorem Decoded.findEntryByName_seeded (hd : Decoded N U t noStore d) (hdir : dir ≠ []) (hticket : c.Honoured ticket) {n : Path} (hn : IsName n)
    (s : Setting) {turns : ℕ} (hturns : d.entries < turns) (hpool : ∀ first, d.findDirectoryEntry N turns n = some (some first) → Taken moments d first) :
    let found := ((c.seedListing N moments scratch dir (some d.listing) ticket).under s).find N s.now (withSeparator dir ++ n)
    found = none ∨ ∃ value, found = some (some value) ∧ d.findEntryByName N turns n noMeta = some (true, value) := by
  intro found
  refine (hd.find_seeded hdir hticket hn s).imp_right fun ⟨e, he, hfound, hs, _, hearlier⟩ => ⟨d.fill e noMeta, hfound, ?_⟩
  obtain ⟨nameBytes, cursor, hlaid, -, -⟩ := hd.laid
  have hscan : d.findDirectoryEntry N turns n = some ((List.range d.entries).find? fun e => N.equal (d.entryName e) n) :=
    findDirectoryEntry_of_chained hlaid.mask_le hd.chained hturns
  have hself : N.equal (d.entryName e) n = true := (Names.equal_iff N).mpr hs
  cases hfirst : (List.range d.entries).find? fun e => N.equal (d.entryName e) n with
  | none => exact absurd hself (List.find?_eq_none.mp hfirst e (List.mem_range.mpr he))
  | some first =>
    obtain ⟨hequal, -, hbefore⟩ := List.find?_range_eq_some.mp hfirst
    rw [hfirst] at hscan
    -- The first of the name was put in, so no later one is what is known.
    have hle : e ≤ first := by
      by_contra hgt
      exact hearlier first (Nat.not_le.mp hgt) ((Names.equal_iff N).mp hequal) (hpool first hscan)
    have hge : ¬ e < first := fun hlt => by
      have hnot := hbefore e hlt
      rw [hself] at hnot
      cases hnot
    have heq : e = first := by omega
    rw [DirectoryInfo.findEntryByName, hscan, heq]
    rfl

/-- A listing that has seeded the path cache, under a ticket that is honoured and whatever was
cached before. A lookup of a name in the directory misses or has the metadata of a listed entry
of that name: of the first whose insert found pool, and so what `CreateFindEntryByName` yields
unless it is that entry's insert that did not. Apart from the directory's children and what is
below them nothing is added, and what goes was dead or the oldest of a full bucket; with the
feed down nothing below the children stays. -/
theorem seed_listing (h : decodeListing U N pool t bodyLen noStore = .ok d) (hdir : dir ≠ []) (hticket : c.Honoured ticket)
    (moments : ℕ → Moment) (scratch : Bool) :
    let after := c.seedListing N moments scratch dir (some d.listing) ticket
    (∀ n, IsName n → ∀ s : Setting,
      let found := (after.under s).find N s.now (withSeparator dir ++ n)
      (found = none ∨ ∃ e < d.entries, found = some (some (d.fill e noMeta)) ∧ Same N (d.entryName e) n ∧ Taken moments d e ∧
        ∀ earlier < e, Same N (d.entryName earlier) n → ¬ Taken moments d earlier) ∧
      ∀ turns, d.entries < turns → (∀ first, d.findDirectoryEntry N turns n = some (some first) → Taken moments d first) →
        found = none ∨ ∃ value, found = some (some value) ∧ d.findEntryByName N turns n noMeta = some (true, value)) ∧
    (∀ i entry, Caches.Apart N dir entry → (entry ∈ after.buckets i → entry ∈ c.buckets i) ∧
      (entry ∈ c.buckets i → entry ∈ after.buckets i ∨ ∃ j < (Caches.seeds d.listing).length,
        PathCache.Lost (entryLive (moments j).now c.generation c.lifetime)
          ((Caches.seededUpTo N c moments dir d.listing ticket j).buckets i) entry)) ∧
    (c.live = false → ∀ i < bucketCount, ∀ entry ∈ after.buckets i, N.isUnder dir entry.path = true →
      entry.path.length = dir.length ∨ ∃ n, IsName n ∧ Same N entry.path (withSeparator dir ++ n)) := by
  have hd := of_decodeListing h
  refine ⟨fun n hn s => ⟨hd.find_seeded hdir hticket hn s, fun turns hturns hpool => ?_⟩, fun i entry hapart => ⟨?_, ?_⟩, ?_⟩
  · exact hd.findEntryByName_seeded hdir hticket hn s hturns hpool
  · exact Caches.of_mem_seedListing hdir hticket hapart
  · exact Caches.mem_seedListing_or_lost hdir hticket hapart
  · intro hlive i hi entry hmem hunder
    exact Caches.child_of_mem_seedListing hdir hticket hlive hi hmem hunder

/-- Files `a` and `A`, of one byte and of two. -/
def sizedFiles : FlatDirectory where
  files := some ⟨[some ⟨some ⟨[0x61], by decide⟩, 1, 0, 0, 0⟩, some ⟨some ⟨[0x41], by decide⟩, 2, 0, 0, 0⟩], by decide⟩
  subdirectories := none

/-- `\d`. -/
def dirD : Path := [PathCache.separator, 0x64]

/-- The two seed a cache with nothing in it, and `\d\A` is looked up. -/
def lookedUp (moments : ℕ → Moment) (d : DirectoryInfo) : Option (Option Meta) :=
  ((({} : Caches).seedListing PathCache.asciiNames moments true dirD (some d.listing) none).under ⟨⟨0, true⟩, false, 0, 0⟩).find PathCache.asciiNames 0
    (withSeparator dirD ++ [0x41])

/-- Every insert finds pool. -/
theorem seed_listing_twoFiles : ∃ d, decodeListing asciiUtf8 PathCache.asciiNames true sizedFiles 64 false = .ok d ∧
    ∃ value, lookedUp (fun _ => ⟨0, true⟩) d = some (some value) ∧ d.findEntryByName PathCache.asciiNames 3 [0x41] noMeta = some (true, value) := by
  have hfacts : (decodeListing asciiUtf8 PathCache.asciiNames true sizedFiles 64 false).toOption.map
      (fun d => (d.entries, (lookedUp (fun _ => ⟨0, true⟩) d).isSome)) = some (2, true) := by
    decide +kernel
  cases hd : decodeListing asciiUtf8 PathCache.asciiNames true sizedFiles 64 false with
  | error e =>
    rw [hd] at hfacts
    cases hfacts
  | ok d =>
    rw [hd] at hfacts
    obtain ⟨hentries, hsome⟩ : d.entries = 2 ∧ (lookedUp (fun _ => ⟨0, true⟩) d).isSome = true := by
      simpa using Option.some.inj hfacts
    refine ⟨d, rfl, ?_⟩
    have hdir : dirD ≠ [] := by decide
    have hticket : ({} : Caches).Honoured none := nofun
    have hseeded := seed_listing hd hdir hticket (fun _ => ⟨0, true⟩) true
    rcases (hseeded.1 [0x41] ⟨by decide, by decide⟩ ⟨⟨0, true⟩, false, 0, 0⟩).2 3 (by omega) (fun _ _ => rfl) with hmiss | hvalue
    · rw [show lookedUp (fun _ => ⟨0, true⟩) d = none from hmiss] at hsome
      cases hsome
    · exact hvalue

/-- The second insert, that of `a`, finds none: what is known is the other file's metadata. -/
theorem seeded_other : ∃ d, decodeListing asciiUtf8 PathCache.asciiNames true sizedFiles 64 false = .ok d ∧
    lookedUp (fun k => ⟨0, k == 0⟩) d = some (some ⟨2, 0, 0, 0, false, false⟩) ∧
    d.findEntryByName PathCache.asciiNames 3 [0x41] noMeta = some (true, ⟨1, 0, 0, 0, false, false⟩) := by
  have hfacts : (decodeListing asciiUtf8 PathCache.asciiNames true sizedFiles 64 false).toOption.map
      (fun d => (lookedUp (fun k => ⟨0, k == 0⟩) d, d.findEntryByName PathCache.asciiNames 3 [0x41] noMeta)) =
      some (some (some ⟨2, 0, 0, 0, false, false⟩), some (true, ⟨1, 0, 0, 0, false, false⟩)) := by
    decide +kernel
  cases hd : decodeListing asciiUtf8 PathCache.asciiNames true sizedFiles 64 false with
  | error e =>
    rw [hd] at hfacts
    cases hfacts
  | ok d =>
    rw [hd] at hfacts
    obtain ⟨hlooked, hfound⟩ := Prod.mk.inj (Option.some.inj hfacts)
    exact ⟨d, rfl, hlooked, hfound⟩

end BlorgFS.Directory
