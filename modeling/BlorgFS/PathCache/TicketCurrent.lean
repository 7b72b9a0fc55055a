import BlorgFS.PathCache.Lookups

/-! The ticket test a resident file's metadata is judged by,
`BlorgPathCacheTicketCurrent`. It reads the sequence first and the lifetime last,
where a lookup reads the lifetime before the generation it compares. A feed that
goes live between the two reads makes a ticket from before it pass for current on
the long lifetime; with that order excluded, none does. -/

namespace BlorgFS.PathCache

open Lib

variable {N : Names} {s s' : State}

/-- A ticket older than the short lifetime was taken after the flush the feed went
live with. -/
def Current.Covered (c : Current) : Prop :=
  ttl ≤ age c.read.ticket.issueTime c.now →
    ∃ flush, c.life = some flush ∧ flush.advancedAt < c.read.takenAt

/-- A ticket is taken, five seconds pass, the ticket test reads the sequence, the
feed goes live, and the test reads the clock and the lifetime. -/
def liveBetweenReads : List State.Act :=
  calls 1 .takeTicket 2 ++ [.tick (5 * 10 * 1000 * 1000)] ++ calls 2 (.ticketCurrent ⟨⟨0, 1⟩, 1⟩) 1 ++
    calls 3 (.followFeed true) 260 ++ [.step 2 true, .step 2 true]

/-- The ticket test can pass a ticket older than the short lifetime that was taken
before the feed went live. -/
theorem ticket_current_uncovered :
    ¬ ∀ s, (system asciiNames).Reachable s → ∀ c ∈ s.currents, c.Covered := by
  set c : Current := ⟨⟨⟨0, 1⟩, 1⟩, 5, 50000001, some ⟨1, 7, 1, 8⟩⟩
  intro hall
  have hsome : (runFrom 1 liveBetweenReads).isSome := by decide +kernel
  obtain ⟨s, hs⟩ := Option.isSome_iff_exists.mp hsome
  have hrun : (runFrom 1 liveBetweenReads).map State.currents = some [c] := by decide +kernel
  rw [hs, Option.map_some, Option.some.injEq] at hrun
  have hc : c ∈ s.currents := by rw [hrun]; exact List.mem_cons_self
  obtain ⟨flush, hf, hlt⟩ := hall s (reachable_runFrom hs) c hc (by decide)
  rw [← Option.some.inj hf] at hlt
  exact absurd hlt (by decide)

/-! ### Runs in which it holds -/

namespace State

/-- The act is not the lifetime read of a ticket test that read the sequence before
the feed it now finds live had flushed, for a ticket only the long lifetime keeps. -/
def readsAfterFlush (s : State) : Act → Bool
  | .step t _ =>
    match (s.threads t).pc with
    | .currentLifetime read readAt now =>
      let age := age read.ticket.issueTime now
      s.live.all fun flush => decide (age < ttl ∨ feedTtl ≤ age ∨ flush.advancedAt < readAt)
    | _ => true
  | _ => true

/-- One act, if it reads after the flush. -/
def nextOrdered (N : Names) (s : State) (act : Act) : Option State :=
  if s.readsAfterFlush act then s.next N act else none

end State

/-- The caches in runs whose every act reads after the flush. -/
def orderedSystem (N : Names) : System State where
  init s := ∃ now, s = initial now
  step s s' := ∃ act, s.readsAfterFlush act ∧ s.next N act = some s'

theorem stepPc_currents {t : ℕ} {pool : Bool} {pc : Pc} {c : Current}
    (h : c ∈ (s.stepPc N t pool pc).currents) : c ∈ s.currents ∨
      ∃ read readAt now, pc = .currentLifetime read readAt now ∧ c = ⟨read, readAt, now, s.live⟩ := by
  cases pc with
  | currentLifetime read readAt now =>
    simp only [State.stepPc] at h
    split at h
    · rcases List.mem_cons.mp h with rfl | h
      · exact Or.inr ⟨read, readAt, now, rfl, rfl⟩
      · exact Or.inl h
    · exact Or.inl h
  | bucketSection f =>
    refine Or.inl ?_
    revert h
    simp only [State.stepPc, State.bucketStep]
    repeat' split
    all_goals exact id
  | dropParent path inv =>
    refine Or.inl ?_
    revert h
    simp only [State.stepPc, State.dropParentListing]
    split <;> exact id
  | sweepAll flush follow i =>
    refine Or.inl ?_
    revert h
    simp only [State.stepPc, State.afterFlush]
    repeat' split
    all_goals exact id
  | _ =>
    refine Or.inl ?_
    revert h
    simp only [State.stepPc]
    repeat' split
    all_goals exact id

theorem next_currents {act : State.Act} {c : Current} (hs : s.next N act = some s') (h : c ∈ s'.currents) :
    c ∈ s.currents ∨ ∃ t pool read readAt now, act = .step t pool ∧
      (s.threads t).pc = .currentLifetime read readAt now ∧ c = ⟨read, readAt, now, s.live⟩ := by
  rcases next_cases hs with ⟨elapsed, -, rfl⟩ | ⟨t, call, pool, -, -, -, rfl⟩ | ⟨t, call, rest, pool, -, -, rfl⟩ |
    ⟨t, pool, hact, -, rfl⟩
  · exact Or.inl h
  · exact Or.inl h
  · exact Or.inl h
  · rcases stepPc_currents h with hold | ⟨read, readAt, now, hpc, hc⟩
    · exact Or.inl hold
    · exact Or.inr ⟨t, pool, read, readAt, now, hact, hpc, hc⟩

theorem orderedSystem_reachable (h : (orderedSystem N).Reachable s) : (system N).Reachable s := by
  induction h with
  | init hi => exact .init hi
  | step _ hs ih =>
    obtain ⟨act, -, hs⟩ := hs
    exact ih.step ⟨act, hs⟩

/-- In a run where no ticket test of an old ticket reads its lifetime from a feed that
flushed after the test had read the sequence, every ticket it passes past the short lifetime was
taken after the flush the feed went live with. -/
theorem ticket_current_covered (h : (orderedSystem N).Reachable s) : ∀ c ∈ s.currents, c.Covered := by
  have hread : ∀ c ∈ s.currents, ∀ flush, c.life = some flush → age c.read.ticket.issueTime c.now < ttl ∨
      feedTtl ≤ age c.read.ticket.issueTime c.now ∨ flush.advancedAt < c.readAt := by
    induction h with
    | init hi =>
      obtain ⟨now, rfl⟩ := hi
      simp [initial]
    | step _ hs ih =>
      obtain ⟨act, hord, hs⟩ := hs
      intro c hc flush hf
      rcases next_currents hs hc with hold | ⟨t, pool, read, readAt, now, hact, hpc, rfl⟩
      · exact ih c hold flush hf
      · subst hact
        simp only [State.readsAfterFlush, hpc] at hord
        simp only at hf
        simpa [hf] using hord
  have hi := reachable_inv (orderedSystem_reachable h)
  intro c hc hold
  have hok := hi.currents c hc
  cases hl : c.life with
  | none =>
    have hyoung := hok.young
    rw [hl] at hyoung
    simp only [lifetimeOf, Option.isSome_none, Bool.false_eq_true, if_false] at hyoung
    omega
  | some flush =>
    have hyoung := hok.young
    rw [hl] at hyoung
    simp only [lifetimeOf, Option.isSome_some, if_true] at hyoung
    have hafter : flush.advancedAt < c.readAt := by
      rcases hread c hc flush hl with hr | hr | hr <;> omega
    have hadv := (hi.flushes flush (hok.life flush hl)).advanced
    have hle : flush.value ≤ c.read.ticket.sequence :=
      hok.upTo.le flush.value hadv.le (hadv.at_eq.symm ▸ hafter)
    exact ⟨flush, rfl, (hi.reads c.read hok.read).after hadv hle⟩

/-- The feed goes live, a ticket is taken, five seconds pass, and the ticket test
runs. -/
def liveBeforeTicket : List State.Act :=
  calls 3 (.followFeed true) 260 ++ calls 1 .takeTicket 2 ++ [.tick (5 * 10 * 1000 * 1000)] ++
    calls 2 (.ticketCurrent ⟨⟨1, 1⟩, 262⟩) 3

theorem ticket_current_covered_live : ∃ s, run (State.nextOrdered asciiNames) (initial 1) liveBeforeTicket = some s ∧
    ∃ c ∈ s.currents, ttl ≤ age c.read.ticket.issueTime c.now ∧
      ∃ flush, c.life = some flush ∧ flush.advancedAt < c.read.takenAt := by
  set c : Current := ⟨⟨⟨1, 1⟩, 262⟩, 266, 50000001, some ⟨1, 1, 1, 2⟩⟩
  have hsome : (run (State.nextOrdered asciiNames) (initial 1) liveBeforeTicket).isSome := by decide +kernel
  obtain ⟨s, hs⟩ := Option.isSome_iff_exists.mp hsome
  have hrun : (run (State.nextOrdered asciiNames) (initial 1) liveBeforeTicket).map State.currents = some [c] := by
    decide +kernel
  rw [hs, Option.map_some, Option.some.injEq] at hrun
  have hc : c ∈ s.currents := by rw [hrun]; exact List.mem_cons_self
  have h0 : (orderedSystem asciiNames).Reachable (initial 1) := .init ⟨1, rfl⟩
  have hr : (orderedSystem asciiNames).Reachable s := h0.run (fun s act s' hs => by
    unfold State.nextOrdered at hs
    split at hs
    next hord => exact ⟨act, hord, hs⟩
    next => cases hs) hs
  exact ⟨s, hs, c, hc, by decide, ticket_current_covered hr c hc (by decide)⟩

end BlorgFS.PathCache
