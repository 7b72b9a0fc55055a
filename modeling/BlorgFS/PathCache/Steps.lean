import BlorgFS.PathCache.Invariant

/-! Every step of the caches' machine keeps the invariant: one lemma for each point
a thread can be at, and from them the lemma about an act. -/

namespace BlorgFS.PathCache

variable {N : Names} {s s' : State} {t : ℕ} {pool : Bool}

namespace State

/-- The thread `t` and the buckets moved, and nothing else. -/
def moved (s : State) (t : ℕ) (thread : Thread) (buckets : ℕ → List PathEntry)
    (listings : ℕ → List ListingEntry) (bytes : ℤ) : State :=
  { s with
    threads := Function.update s.threads t thread
    buckets := buckets
    listings := listings
    listingBytes := bytes
    event := s.event + 1 }

/-- A thread's step as an event of its own. -/
def stepped (N : Names) (s : State) (t : ℕ) (pool : Bool) (pc : Pc) : State :=
  { s.stepPc N t pool pc with event := s.event + 1 }

/-- The thread `t`, gone on to `pc`. -/
def threadAt (s : State) (t : ℕ) (pc : Pc) : Thread := { s.threads t with pc := pc }

end State

/-- A step that leaves the counters and the flushes alone. -/
structure Quiet (N : Names) (s s' : State) : Prop where
  event : s'.event = s.event + 1
  sequence : s'.sequence = s.sequence
  generation : s'.generation = s.generation
  advancedAt : s'.advancedAt = s.advancedAt
  flushes : s'.flushes = s.flushes
  reads : ∀ read ∈ s.reads, read ∈ s'.reads
  buckets : Grown N s s.buckets s'.buckets
  listings : Grown N s s.listings s'.listings

theorem Quiet.evolves (h : Quiet N s s') : Evolves N s s' where
  event := by rw [h.event]; exact Nat.lt_succ_self _
  sequence := h.sequence.ge
  generation := h.generation.ge
  advancedAt _ _ := by rw [h.advancedAt]
  advancedLater _ hlt hle := absurd (h.sequence ▸ hle) (Nat.not_le.mpr hlt)
  reads := h.reads
  flushes _ hf := h.flushes ▸ hf
  flushedLater _ hf := Or.inl (h.flushes ▸ hf)
  buckets := h.buckets
  listings := h.listings

theorem update_threads_ok {thread : Thread} (hth : ThreadOk N s' thread)
    (h : s'.threads = Function.update s.threads t thread) (u : ℕ) :
    s'.threads u = s.threads u ∨ ThreadOk N s' (s'.threads u) := by
  rw [h]
  by_cases hu : u = t
  · subst hu
    exact Or.inr (by rwa [Function.update_self])
  · exact Or.inl (Function.update_of_ne hu _ _)

/-- A quiet step, with what it adds to the history. -/
theorem Inv.quiet {thread : Thread} (h : Inv N s) (hq : Quiet N s s')
    (ht : s'.threads = Function.update s.threads t thread) (hth : ThreadOk N s' thread)
    (hreads : ∀ read ∈ s'.reads, read ∈ s.reads ∨ Dated s' read.ticket.sequence read.takenAt)
    (hlive : s'.live = s.live ∨ ∀ flush, s'.live = some flush → flush ∈ s'.flushes)
    (hreturned : ∀ r ∈ s'.returned, r ∈ s.returned ∨ (s.event ≤ r.returnedAt ∧ ReturnedOk N s' r))
    (hanswers : ∀ a ∈ s'.answers, a ∈ s.answers ∨ AnswerOk N s' a)
    (hcurrents : ∀ c ∈ s'.currents, c ∈ s.currents ∨ CurrentOk s' c) : Inv N s' :=
  h.evolve hq.evolves
    ⟨fun _ hlt hle => absurd (hq.sequence ▸ hle) (Nat.not_le.mpr hlt), hreads,
      fun _ hf => Or.inl (hq.flushes ▸ hf), hlive, update_threads_ok hth ht, hreturned, hanswers, hcurrents⟩

section Moved

variable {thread : Thread} {buckets : ℕ → List PathEntry} {listings : ℕ → List ListingEntry} {bytes : ℤ}

theorem moved_quiet (hb : Grown N s s.buckets buckets) (hl : Grown N s s.listings listings) :
    Quiet N s (s.moved t thread buckets listings bytes) :=
  ⟨rfl, rfl, rfl, rfl, rfl, fun _ hr => hr, hb, hl⟩

theorem Inv.moved (h : Inv N s) (hb : Grown N s s.buckets buckets) (hl : Grown N s s.listings listings)
    (hth : ThreadOk N (s.moved t thread buckets listings bytes) thread) :
    Inv N (s.moved t thread buckets listings bytes) :=
  h.quiet (moved_quiet hb hl) rfl hth (fun _ hr => Or.inl hr) (Or.inl rfl) (fun _ hr => Or.inl hr)
    (fun _ ha => Or.inl ha) (fun _ hc => Or.inl hc)

/-- A step that only takes the thread on, to a point in order already. -/
theorem Inv.went (h : Inv N s) (hth : ThreadOk N s thread) :
    Inv N (s.moved t thread s.buckets s.listings s.listingBytes) :=
  h.moved (Grown.refl _) (Grown.refl _)
    (hth.evolve (moved_quiet (Grown.refl _) (Grown.refl _)).evolves)

end Moved

theorem Inv.at_ok (h : Inv N s) (t : ℕ) (pc : Pc) (hpc : PcOk N s pc) : ThreadOk N s (s.threadAt t pc) :=
  ⟨hpc, (h.threads t).rest⟩

theorem Inv.went_to (h : Inv N s) (pc : Pc) (hpc : PcOk N s pc) :
    Inv N { s.goto t pc with event := s.event + 1 } :=
  h.went (h.at_ok t pc hpc)

/-! ### Tickets and the reads before a section -/

theorem step_readSequence (h : Inv N s) : Inv N (s.stepped N t pool .readSequence) :=
  h.went_to (.readIssueTime s.sequence s.event) ⟨Nat.le_refl _, h.log⟩

theorem step_readNow {f : Frame} (h : Inv N s) (hpc : PcOk N s (.readNow f)) :
    Inv N (s.stepped N t pool (.readNow f)) :=
  h.went_to (.readLifetime { f with now := s.now }) ⟨hpc.begun, hpc.given⟩

theorem step_readLifetime {f : Frame} (h : Inv N s) (hpc : PcOk N s (.readLifetime f)) :
    Inv N (s.stepped N t pool (.readLifetime f)) :=
  h.went_to (.readGeneration { f with life := s.live }) ⟨⟨hpc.begun, hpc.given⟩, h.live⟩

theorem stamped_of_readGeneration {f : Frame} (h : Inv N s) (hpc : PcOk N s (.readGeneration f)) :
    FrameStamped s { f with generation := s.generation } where
  begun := hpc.1.begun
  given := hpc.1.given
  generation := Nat.le_refl _
  life flush hf := ⟨hpc.2 flush hf, (h.flushes flush (hpc.2 flush hf)).generation⟩
  flushed flush hf _ := (h.flushes flush hf).generation

theorem step_readGeneration {f : Frame} (h : Inv N s) (hpc : PcOk N s (.readGeneration f)) :
    Inv N (s.stepped N t pool (.readGeneration f)) := by
  have hst := stamped_of_readGeneration h hpc
  unfold State.stepped
  simp only [State.stepPc]
  split
  · split
    · exact h.went_to (.readListingBytes _) hst
    · exact h.went_to (.bucketSection _) hst
  · exact h.went_to (.bucketSection _) hst

theorem step_readListingBytes {f : Frame} (h : Inv N s) (hpc : PcOk N s (.readListingBytes f)) :
    Inv N (s.stepped N t pool (.readListingBytes f)) := by
  unfold State.stepped
  simp only [State.stepPc]
  split
  · split
    · exact h.went_to (.reapDead f 0) hpc
    · exact h.went_to (.bucketSection f) hpc
  · exact h.went_to (.bucketSection f) hpc

theorem step_readIssueTime {sequence takenAt : ℕ} (h : Inv N s) (hpc : PcOk N s (.readIssueTime sequence takenAt)) :
    Inv N (s.stepped N t pool (.readIssueTime sequence takenAt)) := by
  have hq : Quiet N s (s.stepped N t pool (.readIssueTime sequence takenAt)) :=
    ⟨rfl, rfl, rfl, rfl, rfl, fun _ hr => List.mem_cons_of_mem _ hr, Grown.refl _, Grown.refl _⟩
  refine h.quiet hq rfl ((h.at_ok t .idle trivial).evolve hq.evolves) (fun read hr => ?_) (Or.inl rfl)
    (fun _ hr => Or.inl hr) (fun _ ha => Or.inl ha) (fun _ hc => Or.inl hc)
  rcases List.mem_cons.mp hr with rfl | hr
  · exact Or.inr (Dated.evolve hq.evolves hpc)
  · exact Or.inl hr

/-! ### Invalidations -/

theorem cleared_dropPath {α : Type} {entries : ℕ → List (Entry α)} (h : ∀ i, BucketOk N s i (entries i))
    (path : Path) (value : ℕ) :
    Cleared (Function.update entries (N.bucketOf path) (dropPath N path (entries (N.bucketOf path)))) value
      fun _ => Same N path := by
  intro i entry hmem hs
  by_cases hi : i = N.bucketOf path
  · subst hi
    rw [Function.update_self] at hmem
    exact absurd hs.symm (not_same_of_mem_dropPath (h _).unique hmem)
  · rw [Function.update_of_ne hi] at hmem
    exact absurd (((h i).entry entry hmem).bucket.symm.trans hs.symm.bucketOf) hi

theorem step_advance {scope : Scope} {follow : Bool} (h : Inv N s) :
    Inv N (s.stepped N t pool (.advance scope follow)) := by
  set inv : Invalidation := ⟨scope, s.sequence + 1, s.event⟩ with hinv
  set pc : Pc := match scope with
    | .exact path => .dropEntry path inv
    | .under dir => .sweepEntries dir inv 0
    | .all => .bump inv follow with hpc
  have hs : s.stepped N t pool (.advance scope follow) =
      { s with
        sequence := s.sequence + 1
        advancedAt := Function.update s.advancedAt (s.sequence + 1) s.event
        threads := Function.update s.threads t (s.threadAt t pc)
        event := s.event + 1 } := by
    cases scope <;> rfl
  rw [hs]
  set s' : State := { s with
    sequence := s.sequence + 1
    advancedAt := Function.update s.advancedAt (s.sequence + 1) s.event
    threads := Function.update s.threads t (s.threadAt t pc)
    event := s.event + 1 }
  have hat : s'.advancedAt (s.sequence + 1) = s.event := Function.update_self ..
  have he : Evolves N s s' :=
    { event := Nat.lt_succ_self _
      sequence := Nat.le_succ _
      generation := Nat.le_refl _
      advancedAt := fun v hle => Function.update_of_ne (by omega) _ _
      advancedLater := fun v hlt hle => by
        have hle' : v ≤ s.sequence + 1 := hle
        rw [show v = s.sequence + 1 by omega, hat]
      reads := fun _ hr => hr
      flushes := fun _ hf => hf
      flushedLater := fun _ hf => Or.inl hf
      buckets := Grown.refl _
      listings := Grown.refl _ }
  have hadv : Underway s' inv := ⟨Nat.succ_pos _, Nat.le_refl _, hat⟩
  have hok : PcOk N s' pc := by
    cases scope with
    | exact path => exact ⟨hadv, rfl⟩
    | under dir => exact ⟨hadv, rfl, fun i _ _ hq => absurd hq.1 (Nat.not_lt_zero i)⟩
    | all => exact hadv
  exact h.evolve he
    { log := fun v hlt hle => by
        have hle' : v ≤ s.sequence + 1 := hle
        rw [show v = s.sequence + 1 by omega, hat]
        exact Nat.lt_succ_self _
      reads := fun _ hr => Or.inl hr
      flushes := fun _ hf => Or.inl hf
      live := Or.inl rfl
      threads := update_threads_ok (show ThreadOk N s' (s.threadAt t pc) from ⟨hok, (h.threads t).rest⟩) rfl
      returned := fun _ hr => Or.inl hr
      answers := fun _ ha => Or.inl ha
      currents := fun _ hc => Or.inl hc }

theorem step_dropEntry {path : Path} {inv : Invalidation} (h : Inv N s) (hpc : PcOk N s (.dropEntry path inv)) :
    Inv N (s.stepped N t pool (.dropEntry path inv)) := by
  have hb : Grown N s s.buckets
      (Function.update s.buckets (N.bucketOf path) (dropPath N path (s.buckets (N.bucketOf path)))) :=
    Grown.update_sublist (dropPath_sublist path _)
  refine h.moved hb (Grown.refl _) ⟨⟨?_, hpc.2, ?_⟩, (h.threads t).rest⟩
  · exact Advanced.evolve (moved_quiet hb (Grown.refl _)).evolves hpc.1
  · rw [hpc.2]
    exact cleared_dropPath h.buckets path inv.value

theorem step_dropListing {path : Path} {inv : Invalidation} (h : Inv N s)
    (hpc : PcOk N s (.dropListing path inv)) : Inv N (s.stepped N t pool (.dropListing path inv)) := by
  have hl : Grown N s s.listings
      (Function.update s.listings (N.bucketOf path) (dropPath N path (s.listings (N.bucketOf path)))) :=
    Grown.update_sublist (dropPath_sublist path _)
  refine h.moved (Grown.refl _) hl ⟨⟨?_, Or.inl hpc.2.1, hpc.2.2, ?_⟩, (h.threads t).rest⟩
  · exact Advanced.evolve (moved_quiet (Grown.refl _) hl).evolves hpc.1
  · rw [hpc.2.1]
    exact cleared_dropPath h.listings path inv.value

/-- The listings an invalidation of `path` drops are those of the paths it drops and
its parent's. -/
theorem listing_iff {scope : Scope} {path : Path} (h : scope = .exact path ∨ scope = .under path) (q : Path) :
    scope.listing N q ↔ scope.entry N q ∨ ∃ dir, parent path = some dir ∧ Same N dir q := by
  simp only [parent_iff]
  rcases h with rfl | rfl <;> rfl

theorem step_dropParent {path : Path} {inv : Invalidation} (h : Inv N s)
    (hpc : PcOk N s (.dropParent path inv)) : Inv N (s.stepped N t pool (.dropParent path inv)) := by
  obtain ⟨hadv, hscope, hb, hl⟩ := hpc
  set listings := (s.dropParentListing N path).listings with hlist
  have hgrown : Grown N s s.listings listings := by
    simp only [hlist, State.dropParentListing]
    split
    · exact Grown.refl _
    · exact Grown.update_sublist (dropPath_sublist _ _)
  have hclear : Cleared listings inv.value fun _ => inv.scope.listing N := by
    intro i entry hmem hq
    rcases (listing_iff hscope entry.path).mp hq with hq | ⟨dir, hdir, hs⟩
    · exact hl.evolve hgrown hadv.le i entry hmem hq
    · simp only [hlist, State.dropParentListing, hdir] at hmem
      exact cleared_dropPath h.listings dir inv.value i entry hmem hs
  have hs : s.stepped N t pool (.dropParent path inv) =
      { s.moved t (s.threadAt t .idle) s.buckets listings (s.dropParentListing N path).listingBytes with
        returned := ⟨inv, s.event⟩ :: s.returned } := by
    simp only [hlist, State.stepped, State.stepPc, State.finish, State.goto, State.dropParentListing,
      State.moved, State.threadAt]
    split <;> rfl
  rw [hs]
  have hq : Quiet N s { s.moved t (s.threadAt t .idle) s.buckets listings
      (s.dropParentListing N path).listingBytes with returned := ⟨inv, s.event⟩ :: s.returned } :=
    ⟨rfl, rfl, rfl, rfl, rfl, fun _ hr => hr, Grown.refl _, hgrown⟩
  refine h.quiet hq rfl ((h.at_ok t .idle trivial).evolve hq.evolves) (fun _ hr => Or.inl hr) (Or.inl rfl)
    (fun r hr => ?_) (fun _ ha => Or.inl ha) (fun _ hc => Or.inl hc)
  rcases List.mem_cons.mp hr with rfl | hr
  · exact Or.inr ⟨Nat.le_refl _, ⟨Advanced.evolve hq.evolves hadv, Or.inl ⟨hb, hclear⟩⟩⟩
  · exact Or.inl hr

/-- Sweeping bucket `i` extends what is cleared below it. -/
theorem cleared_sweep {α : Type} {entries : ℕ → List (Entry α)} {value i : ℕ} {Q : Path → Prop}
    {kept : List (Entry α)} (h : Cleared entries value fun j q => j < i ∧ Q q)
    (hk : ∀ entry ∈ kept, ¬ Q entry.path) :
    Cleared (Function.update entries i kept) value fun j q => j < i + 1 ∧ Q q := by
  intro j entry hmem hq
  by_cases hj : j = i
  · subst hj
    rw [Function.update_self] at hmem
    exact absurd hq.2 (hk entry hmem)
  · rw [Function.update_of_ne hj] at hmem
    exact h j entry hmem ⟨by omega, hq.2⟩

/-- A sweep that has passed every bucket has cleared everything. -/
theorem cleared_of_swept {α : Type} {entries : ℕ → List (Entry α)} {value i : ℕ} {Q : Path → Prop}
    (hok : ∀ j, BucketOk N s j (entries j)) (hi : ¬ i < bucketCount)
    (h : Cleared entries value fun j q => j < i ∧ Q q) : Cleared entries value fun _ => Q := by
  refine h.mono fun j entry hmem hq => ⟨?_, hq⟩
  have hlt := N.bucketOf_lt entry.path
  rw [((hok j).entry entry hmem).bucket] at hlt
  omega

theorem step_sweepEntries {dir : Path} {inv : Invalidation} {i : ℕ} (h : Inv N s)
    (hpc : PcOk N s (.sweepEntries dir inv i)) : Inv N (s.stepped N t pool (.sweepEntries dir inv i)) := by
  obtain ⟨hadv, hscope, hb⟩ := hpc
  unfold State.stepped
  simp only [State.stepPc]
  split
  next =>
    have hg : Grown N s s.buckets
        (Function.update s.buckets i (invalidateUnderSection N dir false false (s.buckets i))) :=
      Grown.update_sublist List.filter_sublist
    refine h.moved hg (Grown.refl _) ⟨⟨?_, hscope, cleared_sweep hb fun entry hmem hq => ?_⟩, (h.threads t).rest⟩
    · exact Advanced.evolve (moved_quiet hg (Grown.refl _)).evolves hadv
    · rw [hscope] at hq
      have hunder := isUnder_iff.mpr hq
      have hkeep := (List.mem_filter.mp hmem).2
      simp [hunder] at hkeep
  next hi =>
    exact h.went_to (.sweepListings dir inv 0)
      ⟨hadv, hscope, cleared_of_swept h.buckets hi hb, fun j _ _ hq => absurd hq.1 (Nat.not_lt_zero j)⟩

theorem step_sweepListings {dir : Path} {inv : Invalidation} {i : ℕ} (h : Inv N s)
    (hpc : PcOk N s (.sweepListings dir inv i)) : Inv N (s.stepped N t pool (.sweepListings dir inv i)) := by
  obtain ⟨hadv, hscope, hb, hl⟩ := hpc
  unfold State.stepped
  simp only [State.stepPc]
  split
  next =>
    have hg : Grown N s s.listings
        (Function.update s.listings i (dropUnderSection N (some dir) (s.listings i))) :=
      Grown.update_sublist List.filter_sublist
    refine h.moved (Grown.refl _) hg
      ⟨⟨?_, hscope, hb, cleared_sweep hl fun entry hmem hq => ?_⟩, (h.threads t).rest⟩
    · exact Advanced.evolve (moved_quiet (Grown.refl _) hg).evolves hadv
    · rw [hscope] at hq
      have hunder := isUnder_iff.mpr hq
      have hkeep := (List.mem_filter.mp hmem).2
      simp [hunder] at hkeep
  next hi =>
    exact h.went_to (.dropParent dir inv) ⟨hadv, Or.inr hscope, hb, cleared_of_swept h.listings hi hl⟩

theorem step_bump {inv : Invalidation} {follow : Bool} (h : Inv N s) (hpc : PcOk N s (.bump inv follow)) :
    Inv N (s.stepped N t pool (.bump inv follow)) := by
  set flush : Flush := ⟨inv.value, inv.advancedAt, s.generation + 1, s.event⟩
  set s' := s.stepped N t pool (.bump inv follow)
  have hmem : flush ∈ s'.flushes := List.mem_cons_self
  have he : Evolves N s s' :=
    { event := Nat.lt_succ_self _
      sequence := Nat.le_refl _
      generation := Nat.le_succ _
      advancedAt := fun _ _ => rfl
      advancedLater := fun _ hlt hle => absurd hle (Nat.not_le.mpr hlt)
      reads := fun _ hr => hr
      flushes := fun _ hf => List.mem_cons_of_mem _ hf
      flushedLater := fun f hf => by
        rcases List.mem_cons.mp hf with rfl | hf
        · exact Or.inr ⟨rfl, Nat.le_refl _⟩
        · exact Or.inl hf
      buckets := Grown.refl _
      listings := Grown.refl _ }
  have hok : ThreadOk N s' (s.threadAt t (.sweepAll flush follow 0)) := ⟨hmem, (h.threads t).rest⟩
  exact h.evolve he
    { log := fun _ hlt hle => absurd hle (Nat.not_le.mpr hlt)
      reads := fun _ hr => Or.inl hr
      flushes := fun f hf => by
        rcases List.mem_cons.mp hf with rfl | hf
        · exact Or.inr ⟨Advanced.evolve he hpc, Nat.le_refl _, Nat.lt_succ_self _⟩
        · exact Or.inl hf
      live := Or.inl rfl
      threads := update_threads_ok hok rfl
      returned := fun _ hr => Or.inl hr
      answers := fun _ ha => Or.inl ha
      currents := fun _ hc => Or.inl hc }

theorem afterFlush_inv {flush : Flush} {follow : Bool} (h : Inv N s) (hf : flush ∈ s.flushes) :
    Inv N { s.afterFlush t flush follow with event := s.event + 1 } := by
  set pc : Pc := if follow then .storeLive (some flush) else .idle
  have hs : { s.afterFlush t flush follow with event := s.event + 1 } =
      { s.moved t (s.threadAt t pc) s.buckets s.listings s.listingBytes with
        returned := ⟨⟨.all, flush.value, flush.advancedAt⟩, s.event⟩ :: s.returned } := by
    cases follow
    · rfl
    · simp [State.afterFlush, State.finish, State.goto, State.moved, State.threadAt, pc]
  rw [hs]
  have hq : Quiet N s { s.moved t (s.threadAt t pc) s.buckets s.listings s.listingBytes with
      returned := ⟨⟨.all, flush.value, flush.advancedAt⟩, s.event⟩ :: s.returned } :=
    ⟨rfl, rfl, rfl, rfl, rfl, fun _ hr => hr, Grown.refl _, Grown.refl _⟩
  have hpc : PcOk N s pc := by
    cases follow with
    | false => exact trivial
    | true => exact fun other ho => Option.some.inj ho ▸ hf
  refine h.quiet hq rfl ((h.at_ok t pc hpc).evolve hq.evolves) (fun _ hr => Or.inl hr) (Or.inl rfl)
    (fun r hr => ?_) (fun _ ha => Or.inl ha) (fun _ hc => Or.inl hc)
  rcases List.mem_cons.mp hr with rfl | hr
  · have hok := h.flushes flush hf
    exact Or.inr ⟨Nat.le_refl _, ⟨hok.advanced.evolve hq.evolves, Or.inr ⟨flush, hf, rfl, hok.bumped⟩⟩⟩
  · exact Or.inl hr

theorem step_sweepAll {flush : Flush} {follow : Bool} {i : ℕ} (h : Inv N s)
    (hpc : PcOk N s (.sweepAll flush follow i)) : Inv N (s.stepped N t pool (.sweepAll flush follow i)) := by
  unfold State.stepped
  simp only [State.stepPc]
  split
  · exact h.moved (Grown.refl _) (Grown.update_sublist List.filter_sublist) ⟨hpc, (h.threads t).rest⟩
  · exact afterFlush_inv h hpc

theorem step_storeLive {live : Option Flush} (h : Inv N s) (hpc : PcOk N s (.storeLive live)) :
    Inv N (s.stepped N t pool (.storeLive live)) := by
  have hq : Quiet N s (s.stepped N t pool (.storeLive live)) :=
    ⟨rfl, rfl, rfl, rfl, rfl, fun _ hr => hr, Grown.refl _, Grown.refl _⟩
  exact h.quiet hq rfl ((h.at_ok t .idle trivial).evolve hq.evolves) (fun _ hr => Or.inl hr) (Or.inr hpc)
    (fun _ hr => Or.inl hr) (fun _ ha => Or.inl ha) (fun _ hc => Or.inl hc)

end BlorgFS.PathCache
