import BlorgFS.PathCache.Steps

/-! The steps that put something into a bucket or answer from one, the seed's sweep
and the ticket test; and from all steps, that every act keeps the invariant. -/

namespace BlorgFS.PathCache

variable {N : Names} {s s' : State} {t : ℕ} {pool : Bool}

/-! ### Seeds -/

theorem seedEntry_given {base name : Path} {read : Read} {found : Meta} {call : Keyed}
    (h : seedEntry base read name found = some call) : call.given = [read] := by
  unfold seedEntry at h
  split at h
  · cases h
  · rw [← Option.some.inj h]
    rfl

theorem seedRest_given {dir : Path} {listing : Option Listing} {read : Read} {call : Keyed}
    (h : call ∈ seedRest pool dir listing read) : call.given = [read] := by
  unfold seedRest at h
  split at h
  · cases h
  · split at h
    · cases h
    · unfold seedInserts at h
      rcases List.mem_append.mp h with h | h
      · obtain ⟨sub, -, hs⟩ := List.mem_filterMap.mp h
        exact seedEntry_given hs
      · obtain ⟨file, -, hf⟩ := List.mem_filterMap.mp h
        exact seedEntry_given hf

theorem descendantPublishes_given {dir : Path} {root : Listing} {descendants : List Descendant}
    {failed : List ℕ} {read : Read} {call : Keyed}
    (h : call ∈ descendantPublishes dir root descendants failed read) : call.given = [read] := by
  obtain ⟨d, -, hd⟩ := List.mem_filterMap.mp h
  obtain ⟨path, -, rfl⟩ := Option.map_eq_some_iff.mp hd
  rfl

theorem step_seedSweep {dir : Path} {listing : Option Listing} {read : Read} {childrenOnly : Bool} {i : ℕ}
    (h : Inv N s) (hpc : PcOk N s (.seedSweep dir listing read childrenOnly i)) :
    Inv N (s.stepped N t pool (.seedSweep dir listing read childrenOnly i)) := by
  unfold State.stepped
  simp only [State.stepPc]
  split
  · exact h.moved (Grown.update_sublist List.filter_sublist) (Grown.refl _) ⟨hpc, (h.threads t).rest⟩
  · refine h.went ⟨trivial, fun call hc r hr => ?_⟩
    rw [seedRest_given hc, List.mem_singleton] at hr
    exact hr ▸ hpc

/-! ### The ticket test -/

theorem step_currentSequence {read : Read} (h : Inv N s) (hpc : PcOk N s (.currentSequence read)) :
    Inv N (s.stepped N t pool (.currentSequence read)) := by
  unfold State.stepped
  simp only [State.stepPc]
  split
  next hseq =>
    exact h.went_to (.currentNow read s.event) ⟨hpc, Nat.le_refl _, fun u hu _ => hseq ▸ hu⟩
  next => exact h.went_to .idle trivial

theorem step_currentLifetime {read : Read} {readAt now : ℕ} (h : Inv N s)
    (hpc : PcOk N s (.currentLifetime read readAt now)) :
    Inv N (s.stepped N t pool (.currentLifetime read readAt now)) := by
  unfold State.stepped
  simp only [State.stepPc]
  split
  next hyoung =>
    have hq : Quiet N s { s.goto t .idle with
        currents := ⟨read, readAt, now, s.live⟩ :: s.currents, event := s.event + 1 } :=
      ⟨rfl, rfl, rfl, rfl, rfl, fun _ hr => hr, Grown.refl _, Grown.refl _⟩
    refine h.quiet hq rfl ((h.at_ok t .idle trivial).evolve hq.evolves) (fun _ hr => Or.inl hr) (Or.inl rfl)
      (fun _ hr => Or.inl hr) (fun _ ha => Or.inl ha) (fun c hc => ?_)
    rcases List.mem_cons.mp hc with rfl | hc
    · exact Or.inr ⟨hpc.1, hpc.2.evolve hq.evolves, h.live, hyoung⟩
    · exact Or.inl hc
  next => exact h.went_to .idle trivial

/-! ### Sections -/

theorem step_reapDead {f : Frame} {i : ℕ} (h : Inv N s) (hpc : PcOk N s (.reapDead f i)) :
    Inv N (s.stepped N t pool (.reapDead f i)) := by
  unfold State.stepped
  simp only [State.stepPc]
  split
  · have hl : Grown N s s.listings (Function.update s.listings i
        ((s.listings i).filter (listingLive f.now f.generation (lifetimeOf f.life)))) :=
      Grown.update_sublist List.filter_sublist
    exact h.moved (Grown.refl _) hl
      ⟨FrameStamped.evolve (moved_quiet (Grown.refl _) hl).evolves hpc, (h.threads t).rest⟩
  · exact h.went_to (.bucketSection f) hpc

/-- Why an answer is in order: the entry behind it is of the generation the call
read, which shows every flush before the call and the one it has its lifetime
from; any other invalidation has cleared what it covers. -/
theorem answer_ok {α : Type} {f : Frame} {entry : Entry α} {i : ℕ} {path : Path} {found : Found}
    (h : Inv N s) (hf : FrameStamped s f) (hok : EntryOk N s i entry) (hgen : entry.generation = f.generation)
    (hcleared : ∀ r : Returned, found.CoveredBy N r.scope path →
      Cleared s.buckets r.value (fun _ => r.scope.entry N) →
      Cleared s.listings r.value (fun _ => r.scope.listing N) → r.value ≤ entry.read.ticket.sequence)
    (hfresh : Answer.Fresh ⟨path, found, f.begunAt, f.now, f.life, entry.read⟩) :
    AnswerOk N s ⟨path, found, f.begunAt, f.now, f.life, entry.read⟩ where
  begun := hf.begun
  read := hok.read
  returned r hr hlt hc := by
    rcases (h.returned r hr).cleared with ⟨hb, hl⟩ | ⟨flush, hfl, hv, hat⟩
    · exact hcleared r hc hb hl
    · have hle : flush.generation ≤ entry.generation := hgen ▸ hf.flushed flush hfl (hat.trans hlt)
      exact hv ▸ hok.flushed flush hfl hle
  life flush hl := by
    obtain ⟨hfl, hle⟩ := hf.life flush hl
    exact ⟨hfl, hok.flushed flush hfl (hgen ▸ hle)⟩
  fresh := hfresh

theorem find_inv {f : Frame} {path : Path} (h : Inv N s) (hpc : FrameStamped s f) (hcall : f.call = .find path) :
    Inv N (s.stepped N t pool (.bucketSection f)) := by
  unfold State.stepped
  simp only [State.stepPc, State.bucketStep, hcall]
  cases hfind : findSection N f.now f.generation (lifetimeOf f.life) path (s.buckets (N.bucketOf path)) with
  | none => exact h.went_to .idle trivial
  | some entry =>
    obtain ⟨hpath, hlive⟩ := Option.filter_eq_some_iff.mp hfind
    obtain ⟨hmem, hsame⟩ := mem_of_findPath hpath
    have hok := (h.buckets (N.bucketOf path)).entry entry hmem
    simp only [entryLive, Bool.and_eq_true, decide_eq_true_eq, beq_iff_eq] at hlive
    have hans : AnswerOk N s ⟨path, .entry entry.value, f.begunAt, f.now, f.life, entry.read⟩ := by
      refine answer_ok h hpc hok hlive.2 (fun r hc hb _ => hb _ entry hmem (Scope.entry_congr hsame.symm hc)) ?_
      have hyoung := hlive.1
      simp only [Answer.Fresh]
      cases hv : entry.value with
      | none => simpa [hv] using hyoung
      | some found => simpa [hv] using hyoung
    set s₁ : State := { s.goto t .idle with
      answers := ⟨path, .entry entry.value, f.begunAt, f.now, f.life, entry.read⟩ :: s.answers
      reads := if entry.value.isSome then entry.read :: s.reads else s.reads
      event := s.event + 1 }
    have hreads : ∀ read, read ∈ s₁.reads ↔ read ∈ s.reads := by
      intro read
      simp only [s₁]
      split
      · exact ⟨fun hr => (List.mem_cons.mp hr).elim (fun he => he ▸ hok.read) id, List.mem_cons_of_mem _⟩
      · rfl
    have hq : Quiet N s s₁ :=
      ⟨rfl, rfl, rfl, rfl, rfl, fun _ hr => (hreads _).mpr hr, Grown.refl _, Grown.refl _⟩
    refine h.quiet hq rfl ((h.at_ok t .idle trivial).evolve hq.evolves)
      (fun _ hr => Or.inl ((hreads _).mp hr)) (Or.inl rfl) (fun _ hr => Or.inl hr) (fun a ha => ?_)
      (fun _ hc => Or.inl hc)
    rcases List.mem_cons.mp ha with rfl | ha
    · exact Or.inr (hans.evolve hq.evolves fun _ hr => Or.inl hr)
    · exact Or.inl ha

theorem lookupListing_inv {f : Frame} {dir : Path} {allowStale : Bool} (h : Inv N s) (hpc : FrameStamped s f)
    (hcall : f.call = .lookupListing dir allowStale) : Inv N (s.stepped N t pool (.bucketSection f)) := by
  unfold State.stepped
  simp only [State.stepPc, State.bucketStep, hcall]
  set i := N.bucketOf dir
  cases hfind : lookupListingSection N f.now f.generation (lifetimeOf f.life) dir allowStale (s.listings i) with
  | none => exact h.went_to .idle trivial
  | some answer =>
    obtain ⟨entry, stale⟩ := answer
    obtain ⟨entry', hpath, hsome⟩ := Option.bind_eq_some_iff.mp hfind
    simp only [Option.ite_none_right_eq_some, Bool.and_eq_true, Option.some.injEq, Prod.mk.injEq] at hsome
    obtain ⟨⟨hlive, -⟩, rfl, hst⟩ := hsome
    obtain ⟨hmem, hsame⟩ := mem_of_findPath hpath
    have hok := (h.listings i).entry entry' hmem
    simp only [listingLive, Bool.and_eq_true, decide_eq_true_eq, beq_iff_eq] at hlive
    set found : Found := .listing entry'.value.listing stale (stale && !entry'.value.refreshClaimed)
    have hans : AnswerOk N s ⟨dir, found, f.begunAt, f.now, f.life, entry'.read⟩ :=
      answer_ok h hpc hok hlive.1 (fun r hc _ hl => hl _ entry' hmem (Scope.listing_congr hsame.symm hc)) hlive.2
    have hgrown : Grown N s s.listings
        (Function.update s.listings i (claimRefresh N dir stale (s.listings i))) := by
      refine ⟨fun j e he => ?_, fun j hu => ?_⟩
      · by_cases hj : j = i
        · subst hj
          rw [Function.update_self] at he
          exact Or.inl (claimRefresh_mem he)
        · rw [Function.update_of_ne hj] at he
          exact Or.inl ⟨e, he, rfl, rfl, rfl⟩
      · by_cases hj : j = i
        · subst hj
          rw [Function.update_self, UniquePaths, claimRefresh_paths]
          exact hu
        · rw [Function.update_of_ne hj]
          exact hu
    set s₁ : State := { (s.goto t .idle).setListings i (claimRefresh N dir stale (s.listings i)) s.listingBytes with
      answers := ⟨dir, found, f.begunAt, f.now, f.life, entry'.read⟩ :: s.answers
      reads := entry'.read :: s.reads
      event := s.event + 1 }
    have hq : Quiet N s s₁ :=
      ⟨rfl, rfl, rfl, rfl, rfl, fun _ hr => List.mem_cons_of_mem _ hr, Grown.refl _, hgrown⟩
    refine h.quiet hq rfl ((h.at_ok t .idle trivial).evolve hq.evolves)
      (fun _ hr => Or.inl ((List.mem_cons.mp hr).elim (fun he => he ▸ hok.read) id)) (Or.inl rfl)
      (fun _ hr => Or.inl hr) (fun a ha => ?_) (fun _ hc => Or.inl hc)
    rcases List.mem_cons.mp ha with rfl | ha
    · exact Or.inr (hans.evolve hq.evolves fun _ hr => Or.inl hr)
    · exact Or.inl ha

theorem step_bucketSection {f : Frame} (h : Inv N s) (hpc : PcOk N s (.bucketSection f)) :
    Inv N (s.stepped N t pool (.bucketSection f)) := by
  have hst : FrameStamped s f := hpc
  cases hcall : f.call with
  | find path => exact find_inv h hst hcall
  | lookupListing dir allowStale => exact lookupListing_inv h hst hcall
  | insert path found read =>
    have hread := hst.given read (by simp [hcall, Keyed.given])
    have hb := Grown.update_section hread hst.generation
      (insertSection_section s.sequence f.now f.generation (lifetimeOf f.life) path found read
        (s.buckets (N.bucketOf path)))
    unfold State.stepped
    simp only [State.stepPc, State.bucketStep, hcall]
    exact h.moved hb (Grown.refl _) ⟨trivial, (h.threads t).rest⟩
  | publish dir listing read =>
    have hread := hst.given read (by simp [hcall, Keyed.given])
    have hl := Grown.update_section hread hst.generation
      (publishSection_section s.sequence f.now f.generation (lifetimeOf f.life) f.pool dir listing read
        (s.listings (N.bucketOf dir)) s.listingBytes)
    unfold State.stepped
    simp only [State.stepPc, State.bucketStep, hcall]
    exact h.moved (Grown.refl _) hl ⟨trivial, (h.threads t).rest⟩

/-! ### Acts -/

theorem stepped_inv {pc : Pc} (h : Inv N s) (hpc : PcOk N s pc) : Inv N (s.stepped N t pool pc) := by
  cases pc with
  | idle =>
    have hs : s.stepped N t pool .idle =
        s.moved t (s.threads t) s.buckets s.listings s.listingBytes := by
      simp [State.stepped, State.stepPc, State.moved, Function.update_eq_self]
    rw [hs]
    exact h.went (h.threads t)
  | readSequence => exact step_readSequence h
  | readIssueTime sequence takenAt => exact step_readIssueTime h hpc
  | readNow f => exact step_readNow h hpc
  | readLifetime f => exact step_readLifetime h hpc
  | readGeneration f => exact step_readGeneration h hpc
  | readListingBytes f => exact step_readListingBytes h hpc
  | reapDead f i => exact step_reapDead h hpc
  | bucketSection f => exact step_bucketSection h hpc
  | advance scope follow => exact step_advance h
  | dropEntry path inv => exact step_dropEntry h hpc
  | dropListing path inv => exact step_dropListing h hpc
  | dropParent path inv => exact step_dropParent h hpc
  | sweepEntries dir inv i => exact step_sweepEntries h hpc
  | sweepListings dir inv i => exact step_sweepListings h hpc
  | bump inv follow => exact step_bump h hpc
  | sweepAll flush follow i => exact step_sweepAll h hpc
  | storeLive live => exact step_storeLive h hpc
  | seedReadLive dir listing read => exact h.went_to (.seedSweep dir listing read s.live.isSome 0) hpc
  | seedSweep dir listing read childrenOnly i => exact step_seedSweep h hpc
  | currentSequence read => exact step_currentSequence h hpc
  | currentNow read readAt => exact h.went_to (.currentLifetime read readAt s.now) hpc
  | currentLifetime read readAt now => exact step_currentLifetime h hpc

theorem beginKeyed_ok {call : Keyed} (hg : ∀ read ∈ call.given, read ∈ s.reads) :
    PcOk N s (s.beginKeyed call pool) := by
  have hbegun : FrameBegun s ⟨call, pool, s.event, 0, none, 0⟩ := ⟨Nat.le_refl _, hg⟩
  cases call <;> simp only [State.beginKeyed] <;> split <;> first | exact trivial | exact hbegun

theorem begin_ok {call : Call} (hg : s.Given call) : ThreadOk N s (s.begin call pool) := by
  cases call with
  | takeTicket => exact ⟨trivial, by simp [State.begin]⟩
  | keyed call => exact ⟨beginKeyed_ok hg, by simp [State.begin]⟩
  | seedListing dir listing read =>
    refine ⟨?_, by simp [State.begin]⟩
    simp only [State.begin]
    split
    · exact trivial
    · exact hg read (by simp [Call.given])
  | publishDescendants dir root descendants failed read =>
    refine ⟨trivial, fun call hc r hr => ?_⟩
    simp only [State.begin] at hc
    split at hc
    · cases hc
    · rw [descendantPublishes_given hc, List.mem_singleton] at hr
      exact hg r (by simp [Call.given, hr])
  | invalidate path =>
    refine ⟨?_, by simp [State.begin]⟩
    simp only [State.begin]
    split <;> exact trivial
  | invalidatePrefix dir =>
    refine ⟨?_, by simp [State.begin]⟩
    simp only [State.begin]
    split <;> exact trivial
  | invalidateAll => exact ⟨trivial, by simp [State.begin]⟩
  | followFeed live =>
    cases live with
    | true => exact ⟨trivial, by simp [State.begin]⟩
    | false => exact ⟨fun _ hf => absurd hf (by simp), by simp [State.begin]⟩
  | ticketCurrent read =>
    refine ⟨?_, by simp [State.begin]⟩
    simp only [State.begin]
    split
    · exact trivial
    · exact hg read (by simp [Call.given])

theorem tick_inv (h : Inv N s) (elapsed : ℕ) :
    Inv N { s with now := s.now + elapsed, event := s.event + 1 } := by
  have hq : Quiet N s { s with now := s.now + elapsed, event := s.event + 1 } :=
    ⟨rfl, rfl, rfl, rfl, rfl, fun _ hr => hr, Grown.refl _, Grown.refl _⟩
  refine h.quiet (t := 0) hq (Function.update_eq_self 0 s.threads).symm ((h.threads 0).evolve hq.evolves)
    (fun _ hr => Or.inl hr) (Or.inl rfl) (fun _ hr => Or.inl hr) (fun _ ha => Or.inl ha) (fun _ hc => Or.inl hc)

/-- What a thread's act is: it enters a call, goes on to the next insert of the one
it is in, or takes a step. -/
theorem next_cases {act : State.Act} (hs : s.next N act = some s') :
    (∃ elapsed, act = .tick elapsed ∧ s' = { s with now := s.now + elapsed, event := s.event + 1 }) ∨
    (∃ t call pool, act = .start t call pool ∧ s.threads t = ⟨.idle, []⟩ ∧ s.Given call ∧
      s' = s.moved t (s.begin call pool) s.buckets s.listings s.listingBytes) ∨
    (∃ t call rest pool, act = .step t pool ∧ s.threads t = ⟨.idle, call :: rest⟩ ∧
      s' = s.moved t ⟨s.beginKeyed call pool, rest⟩ s.buckets s.listings s.listingBytes) ∨
    (∃ t pool, act = .step t pool ∧ (s.threads t).pc ≠ .idle ∧
      s' = s.stepped N t pool (s.threads t).pc) := by
  obtain ⟨s₁, he, rfl⟩ := Option.map_eq_some_iff.mp hs
  cases act with
  | tick elapsed =>
    cases he
    exact Or.inl ⟨elapsed, rfl, rfl⟩
  | start t call pool =>
    simp only [State.exec] at he
    split at he
    next hc =>
      cases he
      exact Or.inr (Or.inl ⟨t, call, pool, rfl, hc.1, hc.2, rfl⟩)
    next => cases he
  | step t pool =>
    simp only [State.exec] at he
    split at he
    next => cases he
    next call rest hth =>
      cases he
      exact Or.inr (Or.inr (Or.inl ⟨t, call, rest, pool, rfl, hth, rfl⟩))
    next pc rest hnil hcons hth =>
      cases he
      refine Or.inr (Or.inr (Or.inr ⟨t, pool, rfl, ?_, by rw [hth]; rfl⟩))
      rw [hth]
      rintro rfl
      cases rest with
      | nil => exact hnil rfl rfl
      | cons call rest => exact hcons call rest rfl rfl

theorem next_inv {act : State.Act} (h : Inv N s) (hs : s.next N act = some s') : Inv N s' := by
  rcases next_cases hs with ⟨elapsed, -, rfl⟩ | ⟨t, call, pool, -, -, hg, rfl⟩ | ⟨t, call, rest, pool, -, hth, rfl⟩ |
    ⟨t, pool, -, -, rfl⟩
  · exact tick_inv h elapsed
  · exact h.went (begin_ok hg)
  · have hok := (h.threads t).rest
    rw [hth] at hok
    exact h.went ⟨beginKeyed_ok (hok call List.mem_cons_self), fun c hc => hok c (List.mem_cons_of_mem _ hc)⟩
  · exact stepped_inv h (h.threads t).pc

theorem reachable_inv (h : (system N).Reachable s) : Inv N s := by
  refine Lib.System.invariant (fun s hi => ?_) (fun s s' _ hi hs => ?_) h
  · obtain ⟨now, rfl⟩ := hi
    exact initial_inv now
  · obtain ⟨act, ha⟩ := hs
    exact next_inv hi ha

end BlorgFS.PathCache
