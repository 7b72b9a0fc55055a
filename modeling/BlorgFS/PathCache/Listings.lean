import BlorgFS.PathCache.Calls

/-! The listing cache over a sequence of publishes and lookups. A publish is one of few things:
refused, too late, or current, and then kept or not; what it takes from other directories it
takes only to keep what it was given. A snapshot is handed out while it is live, and the first
lookup that is handed it stale owes the refresh. -/

namespace BlorgFS.PathCache

variable {N : Names} {entries : List ListingEntry} {dir : Path} {total bytes : ℤ}

/-! ### Room in a bucket -/

theorem bucketBytes_cons (entry : ListingEntry) (entries : List ListingEntry) :
    bucketBytes (entry :: entries) = entry.value.bytes + bucketBytes entries := List.sum_cons

theorem evictFor_suffix (bytes : ℤ) : ∀ (entries : List ListingEntry) (total : ℤ), (evictFor bytes entries total).1 <:+ entries
  | [], _ => List.suffix_refl []
  | entry :: entries, total => by
    unfold evictFor
    split_ifs
    · exact (evictFor_suffix bytes entries _).trans (List.suffix_cons entry entries)
    · exact List.suffix_refl _

/-- Where emptying the bucket makes enough room, so does evicting from it. -/
theorem evictFor_fits : ∀ {entries : List ListingEntry} {total : ℤ}, total - bucketBytes entries + bytes ≤ listingMaxBytes →
    (evictFor bytes entries total).2 + bytes ≤ listingMaxBytes
  | [], total, h => by
    have hnone : bucketBytes [] = 0 := rfl
    rw [hnone, sub_zero] at h
    exact h
  | entry :: entries, total, h => by
    rw [bucketBytes_cons] at h
    unfold evictFor
    split_ifs with hover
    · exact evictFor_fits (by omega)
    · exact Int.not_lt.mp hover

theorem makeRoom_cases (bytes : ℤ) (entries : List ListingEntry) (total : ℤ) :
    makeRoom bytes entries total = (entries, total) ∨
      (makeRoom bytes entries total).1 <:+ entries ∧ (makeRoom bytes entries total).2 + bytes ≤ listingMaxBytes := by
  unfold makeRoom
  split_ifs with hroom hfull
  · refine .inr ⟨(evictFor_suffix _ _ _).trans (List.drop_suffix 1 entries), evictFor_fits ?_⟩
    have hsplit : bucketBytes entries = bucketBytes (entries.take 1) + bucketBytes (entries.drop 1) := by
      conv_lhs => rw [← List.take_append_drop 1 entries]
      rw [bucketBytes, List.map_append, List.sum_append]
      rfl
    omega
  · exact .inr ⟨evictFor_suffix _ _ _, evictFor_fits hroom⟩
  · exact .inl rfl

/-- A bucket with room made and the new listing charged: the listing is in it, or nothing was
evicted. -/
theorem chargeAndAppend_makeRoom (new : ListingEntry) (entries : List ListingEntry) (total : ℤ) :
    (chargeAndAppend new (makeRoom new.value.bytes entries total).1 (makeRoom new.value.bytes entries total).2).1 = entries ∨
      ∃ rest, rest <:+ entries ∧
        (chargeAndAppend new (makeRoom new.value.bytes entries total).1 (makeRoom new.value.bytes entries total).2).1 = rest ++ [new] := by
  unfold chargeAndAppend
  rcases makeRoom_cases new.value.bytes entries total with he | ⟨hsuffix, hfits⟩
  · rw [he]
    split_ifs
    · exact .inr ⟨entries, List.suffix_refl entries, rfl⟩
    · exact .inl rfl
  · rw [if_pos hfits]
    exact .inr ⟨_, hsuffix, rfl⟩

/-! ### The section of a publish -/

theorem UniquePaths.eq_of_same {α : Type} {l : List (Entry α)} {entry other : Entry α} (h : UniquePaths N l) (he : entry ∈ l) (ho : other ∈ l)
    (hs : Same N entry.path other.path) : entry = other := by
  induction l with
  | nil => cases he
  | cons first l ih =>
    obtain ⟨hfirst, hrest⟩ := List.pairwise_cons.mp h
    rcases List.mem_cons.mp he with rfl | he' <;> rcases List.mem_cons.mp ho with rfl | ho'
    · rfl
    · exact absurd hs (hfirst other.path (List.mem_map_of_mem ho'))
    · exact absurd hs.symm (hfirst entry.path (List.mem_map_of_mem he'))
    · exact ih hrest he' ho'

theorem UniquePaths.reverse {α : Type} {l : List (Entry α)} (h : UniquePaths N l) : UniquePaths N l.reverse := by
  unfold UniquePaths
  rw [List.map_reverse, List.pairwise_reverse]
  exact h.imp fun hn hs => hn hs.symm

/-- The bucket without the listing of `dir`. -/
def others (N : Names) (dir : Path) (live : List ListingEntry) : List ListingEntry := (dropPath N dir live.reverse).reverse

theorem others_sublist (live : List ListingEntry) : (others N dir live).Sublist live := by
  have hsub := (dropPath_sublist (N := N) dir live.reverse).reverse
  rwa [List.reverse_reverse] at hsub

theorem mem_others {live : List ListingEntry} (h : UniquePaths N live) {entry : ListingEntry} :
    entry ∈ others N dir live ↔ entry ∈ live ∧ ¬ Same N entry.path dir := by
  rw [others, List.mem_reverse]
  constructor
  · intro hmem
    exact ⟨(others_sublist live).subset (List.mem_reverse.mpr hmem), not_same_of_mem_dropPath h.reverse hmem⟩
  · rintro ⟨hmem, hn⟩
    have hnot : ¬ N.equal entry.path dir = true := fun he => hn ((Names.equal_iff N).mp he)
    exact (List.mem_eraseP_of_neg (p := fun entry => N.equal entry.path dir) hnot).mpr (List.mem_reverse.mpr hmem)

theorem existing_any_iff {live : List ListingEntry} (h : UniquePaths N live) {issueTime : ℕ} :
    (existing N dir live).any (fun entry => issueTime < entry.read.ticket.issueTime) = true ↔
      ∃ entry ∈ live, Same N entry.path dir ∧ issueTime < entry.read.ticket.issueTime := by
  constructor
  · intro hany
    cases hfound : existing N dir live with
    | none =>
      rw [hfound] at hany
      cases hany
    | some entry =>
      rw [hfound] at hany
      obtain ⟨hmem, hsame⟩ := mem_of_findPath hfound
      exact ⟨entry, List.mem_reverse.mp hmem, hsame, of_decide_eq_true hany⟩
  · rintro ⟨entry, hmem, hsame, hlater⟩
    cases hfound : existing N dir live with
    | none =>
      have hnone := List.find?_eq_none.mp hfound entry (List.mem_reverse.mpr hmem)
      exact absurd ((Names.equal_iff N).mpr hsame) hnone
    | some other =>
      obtain ⟨hother, hsame'⟩ := mem_of_findPath hfound
      rw [h.eq_of_same (List.mem_reverse.mp hother) hmem (hsame'.trans hsame.symm)]
      exact decide_eq_true hlater

/-- What a publish makes of its bucket: nothing, where its ticket is refused; where the directory
has a live listing of a later read, that stays; else the directory's is taken out and the new one
kept, for which others may go, or not. -/
theorem publishSection_spec (N : Names) (sequence now generation lifetime : ℕ) (pool : Bool) (dir : Path) (listing : Listing) (read : Read)
    {entries : List ListingEntry} (total : ℤ) (hu : UniquePaths N entries) :
    let live := entries.filter (listingLive now generation lifetime)
    let later := ∃ entry ∈ live, Same N entry.path dir ∧ read.ticket.issueTime < entry.read.ticket.issueTime
    let new : ListingEntry := ⟨dir, read, generation, ⟨listing, listing.bytes, false⟩⟩
    let r := publishSection N sequence now generation lifetime pool dir listing read entries total
    (read.ticket.sequence ≠ sequence ∧ r = (false, entries, total)) ∨
      (read.ticket.sequence = sequence ∧ later ∧ r.1 = false ∧ r.2.1 = live) ∨
      (read.ticket.sequence = sequence ∧ ¬ later ∧ r.1 = true ∧
        (r.2.1 = others N dir live ∨ ∃ rest, rest <:+ others N dir live ∧ r.2.1 = rest ++ [new])) := by
  intro live later new r
  have hlive : UniquePaths N live := hu.sublist List.filter_sublist
  by_cases hseq : read.ticket.sequence = sequence
  swap
  · exact .inl ⟨hseq, if_pos hseq⟩
  refine .inr ?_
  have hr : r = publishSection N sequence now generation lifetime pool dir listing read entries total := rfl
  unfold publishSection at hr
  rw [if_neg (not_not.mpr hseq)] at hr
  dsimp only at hr
  by_cases hlater : later
  · rw [if_pos ((existing_any_iff hlive).mpr hlater)] at hr
    exact .inl ⟨hseq, hlater, by rw [hr], by rw [hr]⟩
  · rw [if_neg fun hany => hlater ((existing_any_iff hlive).mp hany)] at hr
    refine .inr ⟨hseq, hlater, ?_⟩
    cases pool with
    | false =>
      rw [if_neg Bool.false_ne_true] at hr
      exact ⟨by rw [hr], .inl (by rw [hr]; rfl)⟩
    | true =>
      rw [if_pos rfl] at hr
      refine ⟨by rw [hr], ?_⟩
      rw [hr]
      exact chargeAndAppend_makeRoom new (others N dir live) _

/-! ### The caches -/

namespace Caches

variable {c : Caches} {now n i : ℕ}

/-- A listing a call could still hand out, stale or not. -/
def isLive (c : Caches) (now : ℕ) : ListingEntry → Bool := listingLive now c.generation c.lifetime

/-- Reaping takes what is dead out of the first buckets, and nothing else. -/
theorem reapDead_frame (now : ℕ) : ∀ (n : ℕ) (c : Caches), ∃ bytes, reapDead now n c =
    { c with listings := fun i => if i < n then (c.listings i).filter (c.isLive now) else c.listings i, listingBytes := bytes }
  | 0, c => ⟨c.listingBytes, rfl⟩
  | n + 1, c => by
    obtain ⟨bytes, hreap⟩ := reapDead_frame now n c
    unfold reapDead
    rw [hreap]
    refine ⟨_, congrArg₂ (fun listings bytes => ({ c with listings := listings, listingBytes := bytes } : Caches)) ?_ rfl⟩
    funext i
    dsimp only
    by_cases hi : i = n
    · rw [hi, Function.update_self, if_neg (Nat.lt_irrefl n), if_pos (Nat.lt_succ_self n)]
      rfl
    · rw [Function.update_of_ne hi]
      by_cases hlt : i < n
      · rw [if_pos hlt, if_pos (Nat.lt_succ_of_lt hlt)]
      · rw [if_neg hlt, if_neg (by omega)]

/-- Entries are in the buckets of their paths, and no bucket has two of one path. -/
structure Placed (N : Names) (c : Caches) : Prop where
  placed : ∀ i, ∀ entry ∈ c.listings i, N.bucketOf entry.path = i
  unique : ∀ i, UniquePaths N (c.listings i)

/-- The entry a publish would keep. -/
def published (c : Caches) (m : Moment) (dir : Path) (listing : Listing) (ticket : Option Ticket) : ListingEntry :=
  ⟨dir, readUnder ticket c.sequence m.now, c.generation, ⟨listing, listing.bytes, false⟩⟩

section Publish

variable {m : Moment} {listing : Listing} {ticket : Option Ticket}

/-- A publish that is turned away at once: the server said not to store the listing, or an
invalidation has overtaken the ticket. -/
def Refused (c : Caches) (listing : Listing) (ticket : Option Ticket) : Prop :=
  listing.noStore = true ∨ ∃ t, ticket = some t ∧ t.sequence ≠ c.sequence

theorem overtaken_iff : (readUnder ticket c.sequence now).ticket.sequence ≠ c.sequence ↔ ∃ t, ticket = some t ∧ t.sequence ≠ c.sequence := by
  cases ticket with
  | none => simp [readUnder]
  | some t => simp [readUnder]

/-- The directory has a live listing of a read issued later. -/
def Later (N : Names) (c : Caches) (m : Moment) (dir : Path) (ticket : Option Ticket) : Prop :=
  ∃ entry ∈ (c.listings (N.bucketOf dir)).filter (c.isLive m.now), Same N entry.path dir ∧
    (readUnder ticket c.sequence m.now).ticket.issueTime < entry.read.ticket.issueTime

/-- A bucket that a publish has at most reaped. -/
def Reaped (c : Caches) (now : ℕ) (i : ℕ) (entries : List ListingEntry) : Prop :=
  entries = c.listings i ∨ entries = (c.listings i).filter (c.isLive now)

theorem Reaped.filter {entries : List ListingEntry} (h : c.Reaped now i entries) :
    entries.filter (c.isLive now) = (c.listings i).filter (c.isLive now) := by
  rcases h with rfl | rfl
  · rfl
  · rw [List.filter_filter]
    simp only [Bool.and_self]

theorem Reaped.sublist {entries : List ListingEntry} (h : c.Reaped now i entries) : entries.Sublist (c.listings i) := by
  rcases h with rfl | rfl
  · exact List.Sublist.refl _
  · exact List.filter_sublist

/-- What a publish leaves in the bucket of its directory, by its verdict. -/
inductive Verdict (N : Names) (c : Caches) (m : Moment) (dir : Path) (listing : Listing) (ticket : Option Ticket) :
    Bool → List ListingEntry → Prop
  | refused {entries : List ListingEntry} (refused : c.Refused listing ticket) (reaped : c.Reaped m.now (N.bucketOf dir) entries) :
      Verdict N c m dir listing ticket false entries
  | later (accepted : ¬ c.Refused listing ticket) (later : Later N c m dir ticket) :
      Verdict N c m dir listing ticket false ((c.listings (N.bucketOf dir)).filter (c.isLive m.now))
  | unkept (accepted : ¬ c.Refused listing ticket) (newest : ¬ Later N c m dir ticket) :
      Verdict N c m dir listing ticket true (others N dir ((c.listings (N.bucketOf dir)).filter (c.isLive m.now)))
  | kept {rest : List ListingEntry} (accepted : ¬ c.Refused listing ticket) (newest : ¬ Later N c m dir ticket)
      (suffix : rest <:+ others N dir ((c.listings (N.bucketOf dir)).filter (c.isLive m.now))) :
      Verdict N c m dir listing ticket true (rest ++ [c.published m dir listing ticket])

theorem publishListing_spec (hp : Placed N c) (hdir : dir ≠ []) (hlen : byteLength dir ≤ maxPathBytes) (m : Moment) (listing : Listing)
    (ticket : Option Ticket) : ∃ listings bytes, (c.publishListing N m dir listing ticket).2 = { c with listings := listings, listingBytes := bytes } ∧
      (∀ i, i ≠ N.bucketOf dir → c.Reaped m.now i (listings i)) ∧
      Verdict N c m dir listing ticket (c.publishListing N m dir listing ticket).1 (listings (N.bucketOf dir)) := by
  cases hstore : listing.noStore with
  | true =>
    have hbad : dir = [] ∨ maxPathBytes < byteLength dir ∨ listing.noStore = true := .inr (.inr hstore)
    rw [publishListing, if_pos hbad]
    exact ⟨c.listings, c.listingBytes, rfl, fun i _ => .inl rfl, .refused (.inl hstore) (.inl rfl)⟩
  | false =>
    have hgood : ¬ (dir = [] ∨ maxPathBytes < byteLength dir ∨ listing.noStore = true) := by
      rw [hstore]
      simp [hdir, hlen]
    rw [publishListing, if_neg hgood]
    -- What the reaping leaves is the caches with some buckets reaped.
    obtain ⟨reaped, total, hreap, hreaped⟩ : ∃ reaped total,
        (if m.pool ∧ listingMaxBytes < c.listingBytes + listing.bytes then reapDead m.now bucketCount c else c) =
          { c with listings := reaped, listingBytes := total } ∧ ∀ i, c.Reaped m.now i (reaped i) := by
      split_ifs
      · obtain ⟨bytes, he⟩ := reapDead_frame m.now bucketCount c
        refine ⟨_, bytes, he, fun i => ?_⟩
        by_cases hi : i < bucketCount
        · exact .inr (if_pos hi)
        · exact .inl (if_neg hi)
      · exact ⟨c.listings, c.listingBytes, rfl, fun i => .inl rfl⟩
    rw [hreap]
    dsimp only
    have hlive : (reaped (N.bucketOf dir)).filter (listingLive m.now c.generation c.lifetime) =
        (c.listings (N.bucketOf dir)).filter (c.isLive m.now) := (hreaped (N.bucketOf dir)).filter
    have hspec := publishSection_spec N c.sequence m.now c.generation c.lifetime m.pool dir listing (readUnder ticket c.sequence m.now) total
      ((hp.unique (N.bucketOf dir)).sublist (hreaped (N.bucketOf dir)).sublist)
    dsimp only at hspec
    rw [hlive] at hspec
    change _ ∨ _ at hspec
    generalize hr : publishSection N c.sequence m.now c.generation c.lifetime m.pool dir listing (readUnder ticket c.sequence m.now)
      (reaped (N.bucketOf dir)) total = r at hspec
    have hresult : publishSection N c.sequence m.now c.generation (lifetime { c with listings := reaped, listingBytes := total }) m.pool dir listing
        (readUnder ticket c.sequence m.now) (reaped (N.bucketOf dir)) total = r := hr
    rw [hresult]
    refine ⟨Function.update reaped (N.bucketOf dir) r.2.1, r.2.2, rfl, fun i hi => ?_, ?_⟩
    · rw [Function.update_of_ne hi]
      exact hreaped i
    · rw [Function.update_self]
      have haccepted (hseq : (readUnder ticket c.sequence m.now).ticket.sequence = c.sequence) : ¬ c.Refused listing ticket := by
        rintro (hno | hover)
        · rw [hstore] at hno
          cases hno
        · exact overtaken_iff.mpr hover hseq
      rcases hspec with ⟨hseq, hunchanged⟩ | ⟨hseq, hlater, hverdict, hentries⟩ | ⟨hseq, hnewest, hverdict, hentries | ⟨rest, hsuffix, hentries⟩⟩
      · rw [hunchanged]
        exact .refused (.inr (overtaken_iff.mp hseq)) (hreaped (N.bucketOf dir))
      · rw [hverdict, hentries]
        exact .later (haccepted hseq) hlater
      · rw [hverdict, hentries]
        exact .unkept (haccepted hseq) hnewest
      · rw [hverdict, hentries]
        exact .kept (haccepted hseq) hnewest hsuffix

/-- What is promised of a publish of `dir`, whatever the caches hold: what it answers, and the
listings after it. -/
structure PublishOk (N : Names) (c : Caches) (m : Moment) (dir : Path) (listing : Listing) (ticket : Option Ticket) (current : Bool)
    (after : ℕ → List ListingEntry) : Prop where
  refused : c.Refused listing ticket → current = false ∧ ∀ i, (after i).filter (c.isLive m.now) = (c.listings i).filter (c.isLive m.now)
  later : ∀ entry ∈ c.listings (N.bucketOf dir), c.isLive m.now entry = true → Same N entry.path dir →
    (readUnder ticket c.sequence m.now).ticket.issueTime < entry.read.ticket.issueTime → current = false ∧ entry ∈ after (N.bucketOf dir)
  accepted : ¬ c.Refused listing ticket → ¬ Later N c m dir ticket → current = true ∧
    ∀ i, ∀ entry ∈ after i, Same N entry.path dir → entry = c.published m dir listing ticket
  evicted : ∀ i, ∀ entry ∈ c.listings i, c.isLive m.now entry = true → ¬ Same N entry.path dir → entry ∉ after i →
    current = true ∧ c.published m dir listing ticket ∈ after (N.bucketOf dir)

theorem Reaped.mem {entries : List ListingEntry} (h : c.Reaped now i entries) {entry : ListingEntry} (hmem : entry ∈ c.listings i)
    (hlive : c.isLive now entry = true) : entry ∈ entries := by
  rcases h with rfl | rfl
  · exact hmem
  · exact List.mem_filter.mpr ⟨hmem, hlive⟩

theorem Placed.mem_others_iff (hp : Placed N c) {entry : ListingEntry} : entry ∈ others N dir ((c.listings i).filter (c.isLive now)) ↔
    (entry ∈ c.listings i ∧ c.isLive now entry = true) ∧ ¬ Same N entry.path dir := by
  rw [mem_others ((hp.unique i).sublist List.filter_sublist), List.mem_filter]

theorem publishListing_ok (hp : Placed N c) (hdir : dir ≠ []) (hlen : byteLength dir ≤ maxPathBytes) (m : Moment) (listing : Listing)
    (ticket : Option Ticket) :
    PublishOk N c m dir listing ticket (c.publishListing N m dir listing ticket).1 (c.publishListing N m dir listing ticket).2.listings := by
  obtain ⟨listings, bytes, hafter, hother, hverdict⟩ := publishListing_spec hp hdir hlen m listing ticket
  rw [hafter]
  change PublishOk N c m dir listing ticket _ listings
  generalize (c.publishListing N m dir listing ticket).1 = current at hverdict
  have hplace {i : ℕ} {entry : ListingEntry} (hmem : entry ∈ listings i) (hsame : Same N entry.path dir) : i = N.bucketOf dir := by
    by_contra hi
    exact hi ((hp.placed i entry ((hother i hi).sublist.subset hmem)).symm.trans hsame.bucketOf)
  generalize hleft : listings (N.bucketOf dir) = left at hverdict
  cases hverdict with
  | refused refused reaped =>
    refine ⟨fun _ => ⟨rfl, fun i => ?_⟩, fun entry hmem hlive _ _ => ⟨rfl, ?_⟩, fun haccepted => absurd refused haccepted,
      fun i entry hmem hlive _ hgone => ?_⟩
    · by_cases hi : i = N.bucketOf dir
      · rw [hi]
        exact (hleft ▸ reaped).filter
      · exact (hother i hi).filter
    · exact hleft ▸ reaped.mem hmem hlive
    · refine absurd ?_ hgone
      by_cases hi : i = N.bucketOf dir
      · rw [hi] at hmem ⊢
        exact hleft ▸ reaped.mem hmem hlive
      · exact (hother i hi).mem hmem hlive
  | later accepted later =>
    refine ⟨fun refused => absurd refused accepted, fun entry hmem hlive _ _ => ⟨rfl, ?_⟩, fun _ hnewest => absurd later hnewest,
      fun i entry hmem hlive _ hgone => ?_⟩
    · exact hleft ▸ List.mem_filter.mpr ⟨hmem, hlive⟩
    · refine absurd ?_ hgone
      by_cases hi : i = N.bucketOf dir
      · rw [hi] at hmem ⊢
        exact hleft ▸ List.mem_filter.mpr ⟨hmem, hlive⟩
      · exact (hother i hi).mem hmem hlive
  | unkept accepted newest =>
    refine ⟨fun refused => absurd refused accepted, fun entry hmem hlive hsame hlater => absurd ?_ newest, fun _ _ => ⟨rfl, fun i entry hmem hsame => ?_⟩,
      fun i entry hmem hlive hsame hgone => ?_⟩
    · exact ⟨entry, List.mem_filter.mpr ⟨hmem, hlive⟩, hsame, hlater⟩
    · rw [hplace hmem hsame] at hmem
      exact absurd hsame (hp.mem_others_iff.mp (hleft ▸ hmem)).2
    · refine absurd ?_ hgone
      by_cases hi : i = N.bucketOf dir
      · rw [hi] at hmem ⊢
        exact hleft ▸ hp.mem_others_iff.mpr ⟨⟨hmem, hlive⟩, hsame⟩
      · exact (hother i hi).mem hmem hlive
  | @kept rest accepted newest suffix =>
    have hnew : c.published m dir listing ticket ∈ listings (N.bucketOf dir) := hleft ▸ List.mem_append_right rest List.mem_cons_self
    refine ⟨fun refused => absurd refused accepted, fun entry hmem hlive hsame hlater => absurd ?_ newest, fun _ _ => ⟨rfl, fun i entry hmem hsame => ?_⟩,
      fun _ _ _ _ _ _ => ⟨rfl, hnew⟩⟩
    · exact ⟨entry, List.mem_filter.mpr ⟨hmem, hlive⟩, hsame, hlater⟩
    · rw [hplace hmem hsame, hleft] at hmem
      rcases List.mem_append.mp hmem with hold | hnew
      · exact absurd hsame (hp.mem_others_iff.mp (suffix.subset hold)).2
      · exact List.mem_singleton.mp hnew

/-- Whatever the path, what a bucket holds after a publish was there, or is what it kept. -/
theorem publishListing_mem (hp : Placed N c) (dir : Path) (m : Moment) (listing : Listing) (ticket : Option Ticket) {entry : ListingEntry}
    (hmem : entry ∈ (c.publishListing N m dir listing ticket).2.listings i) :
    entry ∈ c.listings i ∨ (c.publishListing N m dir listing ticket).1 = true ∧ i = N.bucketOf dir ∧ entry = c.published m dir listing ticket := by
  by_cases hbad : dir = [] ∨ maxPathBytes < byteLength dir ∨ listing.noStore = true
  · rw [publishListing, if_pos hbad] at hmem
    exact .inl hmem
  rw [not_or, not_or] at hbad
  obtain ⟨listings, bytes, hafter, hother, hverdict⟩ := publishListing_spec hp hbad.1 (Nat.not_lt.mp hbad.2.1) m listing ticket
  rw [hafter] at hmem
  change entry ∈ listings i at hmem
  by_cases hi : i = N.bucketOf dir
  swap
  · exact .inl ((hother i hi).sublist.subset hmem)
  generalize (c.publishListing N m dir listing ticket).1 = current at hverdict
  rw [hi] at hmem ⊢
  generalize listings (N.bucketOf dir) = left at hverdict hmem
  cases hverdict with
  | refused _ reaped => exact .inl (reaped.sublist.subset hmem)
  | later => exact .inl (List.mem_filter.mp hmem).1
  | unkept => exact .inl (hp.mem_others_iff.mp hmem).1.1
  | kept _ _ suffix =>
    rcases List.mem_append.mp hmem with hold | hnew
    · exact .inl (hp.mem_others_iff.mp (suffix.subset hold)).1.1
    · exact .inr ⟨rfl, rfl, List.mem_singleton.mp hnew⟩

theorem Placed.publishListing (hp : Placed N c) (dir : Path) (m : Moment) (listing : Listing) (ticket : Option Ticket) :
    Placed N (c.publishListing N m dir listing ticket).2 := by
  refine ⟨fun i entry hmem => ?_, fun i => ?_⟩
  · rcases publishListing_mem hp dir m listing ticket hmem with hold | ⟨-, hi, rfl⟩
    · exact hp.placed i entry hold
    · exact hi.symm
  · by_cases hbad : dir = [] ∨ maxPathBytes < byteLength dir ∨ listing.noStore = true
    · rw [Caches.publishListing, if_pos hbad]
      exact hp.unique i
    rw [not_or, not_or] at hbad
    obtain ⟨listings, bytes, hafter, hother, hverdict⟩ := publishListing_spec hp hbad.1 (Nat.not_lt.mp hbad.2.1) m listing ticket
    rw [hafter]
    change UniquePaths N (listings i)
    by_cases hi : i = N.bucketOf dir
    swap
    · exact (hp.unique i).sublist (hother i hi).sublist
    generalize (c.publishListing N m dir listing ticket).1 = current at hverdict
    rw [hi]
    have hothers : (others N dir ((c.listings (N.bucketOf dir)).filter (c.isLive m.now))).Sublist (c.listings (N.bucketOf dir)) :=
      (others_sublist _).trans List.filter_sublist
    generalize listings (N.bucketOf dir) = left at hverdict
    cases hverdict with
    | refused _ reaped => exact (hp.unique _).sublist reaped.sublist
    | later => exact (hp.unique _).sublist List.filter_sublist
    | unkept => exact (hp.unique _).sublist hothers
    | kept _ _ suffix =>
      refine ((hp.unique _).sublist (suffix.sublist.trans hothers)).append_of_not_same fun entry hmem => ?_
      exact (hp.mem_others_iff.mp (suffix.subset hmem)).2

end Publish

end Caches

end BlorgFS.PathCache
