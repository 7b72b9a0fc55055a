import BlorgFS.PathCache.Listings

/-! Runs of publishes and lookups, each at a setting of its own: the clock goes on between them,
the feed comes and goes, and invalidations may advance the sequence and the generation. -/

namespace BlorgFS.PathCache

variable {N : Names} {dir : Path} {c : Caches} {entries : List ListingEntry} {stale : Bool}

/-! ### Lookups -/

/-- The directory's entry with the refresh claimed, if the answer from it was stale; the others
as they were. -/
theorem mem_claimRefresh (hu : UniquePaths N entries) {entry : ListingEntry} (h : entry ∈ claimRefresh N dir stale entries) :
    (entry ∈ entries ∧ ¬ Same N entry.path dir) ∨ ∃ old ∈ entries, Same N old.path dir ∧
      entry = { old with value := { old.value with refreshClaimed := old.value.refreshClaimed || stale } } := by
  induction entries with
  | nil => cases h
  | cons first rest ih =>
    obtain ⟨hfirst, hrest⟩ := List.pairwise_cons.mp hu
    unfold claimRefresh at h
    split_ifs at h with heq
    · have hsame := (Names.equal_iff N).mp heq
      rcases List.mem_cons.mp h with rfl | hmem
      · exact .inr ⟨first, List.mem_cons_self, hsame, rfl⟩
      · exact .inl ⟨List.mem_cons_of_mem first hmem, fun hs =>
          hfirst entry.path (List.mem_map_of_mem hmem) (hsame.trans hs.symm)⟩
    · rcases List.mem_cons.mp h with rfl | hmem
      · exact .inl ⟨List.mem_cons_self, fun hs => heq ((Names.equal_iff N).mpr hs)⟩
      · rcases ih hrest hmem with ⟨hold, hn⟩ | ⟨old, hold, hsame, he⟩
        · exact .inl ⟨List.mem_cons_of_mem first hold, hn⟩
        · exact .inr ⟨old, List.mem_cons_of_mem first hold, hsame, he⟩

namespace Caches

/-- What is promised of a lookup's answer. -/
structure LookupOk (N : Names) (c : Caches) (now : ℕ) (dir : Path) (allowStale : Bool) (handed : Handed) (entry : ListingEntry) : Prop where
  mem : entry ∈ c.listings (N.bucketOf dir)
  same : Same N entry.path dir
  listing : handed.listing = entry.value.listing
  ticket : handed.ticket = entry.read.ticket
  age_lt : age entry.read.ticket.issueTime now < c.lifetime + staleGrace
  stale : handed.stale = true ↔ c.lifetime ≤ age entry.read.ticket.issueTime now
  fresh : allowStale = false → age entry.read.ticket.issueTime now < c.lifetime
  owed : handed.refreshOwed = true ↔ handed.stale = true ∧ entry.value.refreshClaimed = false

/-- A lookup finds nothing and changes nothing, or hands out the directory's entry. -/
theorem lookupListing_spec (N : Names) (c : Caches) (now : ℕ) (dir : Path) (allowStale : Bool) :
    c.lookupListing N now dir allowStale = (none, c) ∨ ∃ handed entry, LookupOk N c now dir allowStale handed entry ∧
      c.lookupListing N now dir allowStale = (some handed, { c with
        listings := Function.update c.listings (N.bucketOf dir) (claimRefresh N dir handed.stale (c.listings (N.bucketOf dir))) }) := by
  unfold lookupListing
  split_ifs with hdir
  · exact .inl rfl
  dsimp only
  cases hsection : lookupListingSection N now c.generation c.lifetime dir allowStale (c.listings (N.bucketOf dir)) with
  | none => exact .inl rfl
  | some found =>
    obtain ⟨entry, stale⟩ := found
    dsimp only
    obtain ⟨first, hfound, hanswer⟩ := Option.bind_eq_some_iff.mp hsection
    obtain ⟨hmem, hsame⟩ := mem_of_findPath hfound
    dsimp only at hanswer
    split_ifs at hanswer with hlive
    obtain ⟨rfl, rfl⟩ := Prod.mk.inj (Option.some.inj hanswer)
    rw [Bool.and_eq_true, Bool.or_eq_true, Bool.not_eq_true'] at hlive
    obtain ⟨hlive, hallowed⟩ := hlive
    rw [listingLive, Bool.and_eq_true, decide_eq_true_iff] at hlive
    refine .inr ⟨⟨first.value.listing, _, _, first.read.ticket⟩, first, ⟨hmem, hsame, rfl, rfl, hlive.2, ?_, ?_, ?_⟩, rfl⟩
    · exact decide_eq_true_iff
    · intro hno
      rcases hallowed with hfresh | hallow
      · exact Nat.not_le.mp (of_decide_eq_false hfresh)
      · rw [hno] at hallow
        cases hallow
    · rw [Bool.and_eq_true, Bool.not_eq_true']

/-! ### Calls one after another -/

/-- What a call finds when it is made. -/
structure Setting extends Moment where
  live : Bool
  sequence : ℕ
  generation : ℕ

inductive ListingCall where
  | publish (dir : Path) (listing : Listing) (ticket : Option Ticket)
  | lookup (dir : Path) (allowStale : Bool)

inductive Outcome where
  | published (current : Bool)
  | looked (handed : Option Handed)

/-- A call and what it answered. -/
structure Event where
  call : ListingCall
  outcome : Outcome

def under (c : Caches) (s : Setting) : Caches := { c with live := s.live, sequence := s.sequence, generation := s.generation }

def call (N : Names) (s : Setting) (c : Caches) : ListingCall → Outcome × Caches
  | .publish dir listing ticket =>
    let (current, c) := (c.under s).publishListing N s.toMoment dir listing ticket
    (.published current, c)
  | .lookup dir allowStale =>
    let (handed, c) := (c.under s).lookupListing N s.now dir allowStale
    (.looked handed, c)

def calls (N : Names) : List (Setting × ListingCall) → Caches → List Event × Caches
  | [], c => ([], c)
  | (s, made) :: rest, c =>
    let (outcome, c) := c.call N s made
    let (events, c) := calls N rest c
    (⟨made, outcome⟩ :: events, c)

theorem calls_lookup {s : Setting} {allowStale : Bool} {rest : List (Setting × ListingCall)} :
    (calls N ((s, .lookup dir allowStale) :: rest) c).1 =
      ⟨.lookup dir allowStale, .looked ((c.under s).lookupListing N s.now dir allowStale).1⟩ ::
        (calls N rest ((c.under s).lookupListing N s.now dir allowStale).2).1 := rfl

theorem Placed.under (h : Placed N c) (s : Setting) : Placed N (c.under s) := ⟨h.placed, h.unique⟩

theorem Placed.lookupListing (h : Placed N c) (now : ℕ) (dir : Path) (allowStale : Bool) : Placed N (c.lookupListing N now dir allowStale).2 := by
  rcases lookupListing_spec N c now dir allowStale with he | ⟨handed, entry, -, he⟩
  · rw [he]
    exact h
  rw [he]
  refine ⟨fun i entry hmem => ?_, fun i => ?_⟩
  · change entry ∈ Function.update c.listings (N.bucketOf dir) _ i at hmem
    by_cases hi : i = N.bucketOf dir
    · rw [hi, Function.update_self] at hmem
      obtain ⟨old, hold, hpath, -⟩ := claimRefresh_mem hmem
      rw [← hpath, hi]
      exact h.placed _ old hold
    · rw [Function.update_of_ne hi] at hmem
      exact h.placed i entry hmem
  · change UniquePaths N (Function.update c.listings (N.bucketOf dir) _ i)
    by_cases hi : i = N.bucketOf dir
    · rw [hi, Function.update_self, UniquePaths, claimRefresh_paths]
      exact h.unique (N.bucketOf dir)
    · rw [Function.update_of_ne hi]
      exact h.unique i

theorem Placed.call (h : Placed N c) (s : Setting) (made : ListingCall) : Placed N (c.call N s made).2 := by
  cases made with
  | publish dir listing ticket => exact (h.under s).publishListing dir s.toMoment listing ticket
  | lookup dir allowStale => exact (h.under s).lookupListing s.now dir allowStale

theorem Placed.calls : ∀ (made : List (Setting × ListingCall)) {c : Caches}, Placed N c → Placed N (calls N made c).2
  | [], _, h => h
  | (s, first) :: rest, _, h => Placed.calls rest (h.call s first)

/-! ### A snapshot from its publish on -/

/-- What lookups of a directory were handed, in order. -/
def handedOf (N : Names) (dir : Path) (events : List Event) : List Handed :=
  events.filterMap fun event =>
    match event with
    | ⟨.lookup looked _, .looked handed⟩ => if N.equal looked dir then handed else none
    | _ => none

theorem handedOf_lookup {looked : Path} {allowStale : Bool} {handed : Option Handed} {events : List Event} :
    handedOf N dir (⟨.lookup looked allowStale, .looked handed⟩ :: events) =
      (if N.equal looked dir then handed.toList else []) ++ handedOf N dir events := by
  unfold handedOf
  rw [List.filterMap_cons]
  cases handed with
  | none =>
    dsimp only
    split_ifs <;> rfl
  | some handed =>
    dsimp only
    split_ifs <;> rfl

/-- A publish of the directory was answered with `TRUE`: what was there for it is gone. -/
def Supersedes (N : Names) (dir : Path) (event : Event) : Prop :=
  ∃ published listing ticket, event = ⟨.publish published listing ticket, .published true⟩ ∧ Same N published dir

/-- The directory has the entry `new` or none; `claimed` says whether its refresh is. -/
def Holds (N : Names) (dir : Path) (new : ListingEntry) (claimed : Bool) (c : Caches) : Prop :=
  ∀ i, ∀ entry ∈ c.listings i, Same N entry.path dir →
    entry.read = new.read ∧ entry.value.listing = new.value.listing ∧ entry.value.refreshClaimed = claimed

section Segment

variable {new : ListingEntry} {claimed : Bool}

theorem Holds.publish (h : Holds N dir new claimed c) (hp : Placed N c) (s : Setting) {other : Path} {listing : Listing} {ticket : Option Ticket}
    (hn : ¬ Supersedes N dir ⟨.publish other listing ticket, (c.call N s (.publish other listing ticket)).1⟩) :
    Holds N dir new claimed (c.call N s (.publish other listing ticket)).2 := by
  intro i entry hmem hsame
  rcases publishListing_mem (hp.under s) other s.toMoment listing ticket hmem with hold | ⟨hcurrent, -, rfl⟩
  · exact h i entry hold hsame
  · refine absurd ⟨other, listing, ticket, ?_, hsame⟩ hn
    exact congrArg (fun current => Event.mk (.publish other listing ticket) (.published current)) hcurrent

/-- A lookup of the directory is handed its entry; if it is stale, the refresh is claimed. -/
theorem Holds.lookup_same (h : Holds N dir new claimed c) (hp : Placed N c) {looked : Path} (hs : Same N looked dir) {now : ℕ} {allowStale : Bool}
    {handed : Handed} {entry : ListingEntry} (hok : LookupOk N c now looked allowStale handed entry) :
    (handed.listing = new.value.listing ∧ handed.ticket = new.read.ticket) ∧
      (handed.refreshOwed = true ↔ handed.stale = true ∧ claimed = false) ∧
      Holds N dir new (claimed || handed.stale) { c with
        listings := Function.update c.listings (N.bucketOf looked) (claimRefresh N looked handed.stale (c.listings (N.bucketOf looked))) } := by
  obtain ⟨hread, hlisting, hclaimed⟩ := h _ entry hok.mem (hok.same.trans hs)
  refine ⟨⟨hok.listing.trans hlisting, hok.ticket.trans (congrArg Read.ticket hread)⟩, by rw [hok.owed, hclaimed], ?_⟩
  intro i found hmem hsame
  change found ∈ Function.update c.listings (N.bucketOf looked) _ i at hmem
  by_cases hi : i = N.bucketOf looked
  · rw [hi, Function.update_self] at hmem
    rcases mem_claimRefresh (hp.unique _) hmem with ⟨-, hn⟩ | ⟨old, hold, hsame', rfl⟩
    · exact absurd (hsame.trans hs.symm) hn
    · obtain ⟨hread', hlisting', hclaimed'⟩ := h _ old hold (hsame'.trans hs)
      exact ⟨hread', hlisting', by rw [hclaimed']⟩
  · rw [Function.update_of_ne hi] at hmem
    exact absurd (((hp.placed i found hmem).symm.trans hsame.bucketOf).trans hs.symm.bucketOf) hi

/-- A lookup of another directory leaves the entry alone. -/
theorem Holds.lookup_other (h : Holds N dir new claimed c) (hp : Placed N c) {looked : Path} (hs : ¬ Same N looked dir) :
    Holds N dir new claimed { c with
      listings := Function.update c.listings (N.bucketOf looked) (claimRefresh N looked stale (c.listings (N.bucketOf looked))) } := by
  intro i found hmem hsame
  change found ∈ Function.update c.listings (N.bucketOf looked) _ i at hmem
  by_cases hi : i = N.bucketOf looked
  · rw [hi, Function.update_self] at hmem
    rcases mem_claimRefresh (hp.unique _) hmem with ⟨hold, -⟩ | ⟨old, hold, hsame', rfl⟩
    · exact h _ found hold hsame
    · exact absurd (hsame'.symm.trans hsame) hs
  · rw [Function.update_of_ne hi] at hmem
    exact h i found hmem hsame

/-- Lookups were handed the entry, and of those it was stale for the first owes the refresh, if it
was not claimed before. -/
def Told (new : ListingEntry) (claimed : Bool) (handed : List Handed) : Prop :=
  (∀ h ∈ handed, h.listing = new.value.listing ∧ h.ticket = new.read.ticket) ∧
    ∀ k h, (handed.filter (·.stale))[k]? = some h → (h.refreshOwed = true ↔ k = 0 ∧ claimed = false)

theorem Told.cons {first : Handed} {rest : List Handed} (hfirst : first.listing = new.value.listing ∧ first.ticket = new.read.ticket)
    (howed : first.refreshOwed = true ↔ first.stale = true ∧ claimed = false) (h : Told new (claimed || first.stale) rest) :
    Told new claimed (first :: rest) := by
  refine ⟨List.forall_mem_cons.mpr ⟨hfirst, h.1⟩, fun k later hk => ?_⟩
  cases hstale : first.stale with
  | false =>
    rw [List.filter_cons_of_neg (by rw [hstale]; exact Bool.false_ne_true)] at hk
    have hlater := h.2 k later hk
    rwa [hstale, Bool.or_false] at hlater
  | true =>
    rw [List.filter_cons_of_pos (p := fun h : Handed => h.stale) hstale] at hk
    cases k with
    | zero =>
      obtain rfl := Option.some.inj hk
      rw [howed, hstale]
      simp
    | succ k =>
      have hlater := h.2 k later hk
      rw [hlater, hstale, Bool.or_true]
      simp

/-- While nothing supersedes the entry, its lookups are told so. -/
theorem Holds.calls : ∀ (made : List (Setting × ListingCall)) {claimed : Bool} {c : Caches}, Holds N dir new claimed c → Placed N c →
    (∀ event ∈ (calls N made c).1, ¬ Supersedes N dir event) → Told new claimed (handedOf N dir (calls N made c).1)
  | [], _, _, _, _, _ => ⟨nofun, nofun⟩
  | (s, .publish other listing ticket) :: rest, claimed, c, h, hp, hn => by
    have hnext := h.publish hp s (hn _ List.mem_cons_self)
    exact Holds.calls rest hnext (hp.call s (.publish other listing ticket)) fun event he => hn event (List.mem_cons_of_mem _ he)
  | (s, .lookup looked allowStale) :: rest, claimed, c, h, hp, hn => by
    have hplaced : Placed N ((c.under s).lookupListing N s.now looked allowStale).2 := (hp.under s).lookupListing s.now looked allowStale
    have hunder : Holds N dir new claimed (c.under s) := h
    rw [calls_lookup] at hn ⊢
    have hrest : ∀ event ∈ (Caches.calls N rest ((c.under s).lookupListing N s.now looked allowStale).2).1, ¬ Supersedes N dir event :=
      fun event he => hn event (List.mem_cons_of_mem _ he)
    rw [handedOf_lookup]
    rcases lookupListing_spec N (c.under s) s.now looked allowStale with he | ⟨handed, entry, hok, he⟩
    · rw [he] at hplaced hrest ⊢
      have hnone : (if N.equal looked dir then (none : Option Handed).toList else []) = [] := by split_ifs <;> rfl
      rw [hnone, List.nil_append]
      exact Holds.calls rest hunder hplaced hrest
    · rw [he] at hplaced hrest ⊢
      by_cases hs : Same N looked dir
      · rw [if_pos ((Names.equal_iff N).mpr hs)]
        obtain ⟨hhanded, howed, hnext⟩ := hunder.lookup_same (hp.under s) hs hok
        exact (Holds.calls rest hnext hplaced hrest).cons hhanded howed
      · rw [if_neg fun heq => hs ((Names.equal_iff N).mp heq), List.nil_append]
        exact Holds.calls rest (hunder.lookup_other (hp.under s) hs) hplaced hrest

end Segment

/-- No directory has two entries, in its bucket or in another. -/
def OnePerDirectory (N : Names) (c : Caches) : Prop :=
  ∀ dir, (c.listings (N.bucketOf dir)).countP (fun entry => N.equal entry.path dir) ≤ 1 ∧
    ∀ i, i ≠ N.bucketOf dir → ∀ entry ∈ c.listings i, ¬ Same N entry.path dir

theorem UniquePaths.countP_le_one {l : List ListingEntry} (h : UniquePaths N l) (dir : Path) :
    l.countP (fun entry => N.equal entry.path dir) ≤ 1 := by
  induction l with
  | nil => exact Nat.zero_le 1
  | cons first l ih =>
    obtain ⟨hfirst, hrest⟩ := List.pairwise_cons.mp h
    by_cases heq : N.equal first.path dir = true
    · have hnone : l.countP (fun entry => N.equal entry.path dir) = 0 := by
        rw [List.countP_eq_zero]
        intro entry hmem hsame
        exact hfirst entry.path (List.mem_map_of_mem hmem) (((Names.equal_iff N).mp heq).trans ((Names.equal_iff N).mp hsame).symm)
      have hone : (first :: l).countP (fun entry => N.equal entry.path dir) = 0 + 1 := by rw [List.countP_cons, hnone, if_pos heq]
      exact Nat.le_of_eq hone
    · rw [List.countP_cons, if_neg heq]
      exact ih hrest

theorem Placed.onePerDirectory (h : Placed N c) : OnePerDirectory N c := by
  refine fun dir => ⟨UniquePaths.countP_le_one (h.unique _) dir, fun i hi entry hmem hsame => hi ?_⟩
  exact (h.placed i entry hmem).symm.trans hsame.bucketOf

theorem placed_empty (N : Names) : Placed N {} := ⟨nofun, fun _ => List.Pairwise.nil⟩

/-- After any publishes and lookups, at whatever times, no directory has two entries; a publish
keeps its promises and so does a lookup; and from a publish answered with `TRUE` until the next
one for its directory, lookups of the directory are handed what was published and the first that
is handed it stale, alone, owes the refresh. -/
theorem listing_cache (N : Names) (before : List (Setting × ListingCall)) (s : Setting) :
    let c := (calls N before {}).2.under s
    OnePerDirectory N c ∧
    (∀ dir listing ticket, dir ≠ [] → byteLength dir ≤ maxPathBytes →
      PublishOk N c s.toMoment dir listing ticket (c.publishListing N s.toMoment dir listing ticket).1
        (c.publishListing N s.toMoment dir listing ticket).2.listings) ∧
    (∀ dir allowStale handed, (c.lookupListing N s.now dir allowStale).1 = some handed →
      ∃ entry, LookupOk N c s.now dir allowStale handed entry) ∧
    ∀ dir listing ticket after, dir ≠ [] → byteLength dir ≤ maxPathBytes → (c.publishListing N s.toMoment dir listing ticket).1 = true →
      (∀ event ∈ (calls N after (c.publishListing N s.toMoment dir listing ticket).2).1, ¬ Supersedes N dir event) →
        Told (c.published s.toMoment dir listing ticket) false
          (handedOf N dir (calls N after (c.publishListing N s.toMoment dir listing ticket).2).1) := by
  intro c
  have hp : Placed N c := ((placed_empty N).calls before).under s
  refine ⟨hp.onePerDirectory, fun dir listing ticket hdir hlen => publishListing_ok hp hdir hlen s.toMoment listing ticket,
    fun dir allowStale handed hfound => ?_, fun dir listing ticket after hdir hlen hcurrent hn => ?_⟩
  · rcases lookupListing_spec N c s.now dir allowStale with he | ⟨found, entry, hok, he⟩
    · rw [he] at hfound
      cases hfound
    · rw [he] at hfound
      obtain rfl := Option.some.inj hfound
      exact ⟨entry, hok⟩
  · refine Holds.calls after (fun i entry hmem hsame => ?_) (hp.publishListing dir s.toMoment listing ticket) hn
    have hok := publishListing_ok hp hdir hlen s.toMoment listing ticket
    have haccepted : ¬ c.Refused listing ticket := fun hrefused => by
      rw [(hok.refused hrefused).1] at hcurrent
      cases hcurrent
    have hnewest : ¬ Later N c s.toMoment dir ticket := by
      rintro ⟨old, hold, hsame', hlater⟩
      obtain ⟨hmem', hlive⟩ := List.mem_filter.mp hold
      rw [(hok.later old hmem' hlive hsame' hlater).1] at hcurrent
      cases hcurrent
    obtain rfl := (hok.accepted haccepted hnewest).2 i entry hmem hsame
    exact ⟨rfl, rfl, rfl⟩

end Caches

end BlorgFS.PathCache
