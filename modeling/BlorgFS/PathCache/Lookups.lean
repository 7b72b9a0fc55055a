import BlorgFS.PathCache.Acts

/-! What the caches promise in every run: a lookup begun after an invalidation
returned answers with nothing ticketed before its advance, and what a lookup trusts
for the feed's long lifetime was ticketed after the flush that made it long. -/

namespace BlorgFS.PathCache

open Lib

variable {N : Names} {s s' : State}

theorem step_of_next {act : State.Act} (h : s.next N act = some s') : (system N).step s s' := ⟨act, h⟩

/-! ### Runs -/

/-- A run of acts from `BlorgPathCacheInit` at interrupt time `now`. -/
def runFrom (now : ℕ) (acts : List State.Act) : Option State := run (State.next asciiNames) (initial now) acts

theorem reachable_runFrom {now : ℕ} {acts : List State.Act} (h : runFrom now acts = some s) :
    (system asciiNames).Reachable s := by
  have h0 : (system asciiNames).Reachable (initial now) := .init ⟨now, rfl⟩
  exact h0.run (fun _ _ _ => step_of_next) h

/-- One thread's call, with `n` steps of it. -/
def calls (t : ℕ) (call : Call) (n : ℕ) : List State.Act :=
  .start t call true :: List.replicate n (.step t true)

/-! ### Invalidations -/

/-- A lookup that begins after an invalidation covering its path has returned never
answers from a read ticketed before that invalidation advanced the sequence. -/
theorem lookup_after_invalidation (h : (system N).Reachable s) :
    ∀ r ∈ s.returned, ∀ a ∈ s.answers, r.returnedAt < a.begunAt → a.found.CoveredBy N r.scope a.path →
      r.advancedAt < a.read.takenAt := by
  intro r hr a ha hlt hc
  have hi := reachable_inv h
  have hok := hi.answers a ha
  exact (hi.reads a.read hok.read).after (hi.returned r hr).advanced (hok.returned r hr hlt hc)

/-- `\A`, and metadata for it. -/
def pathA : Path := [separator, 0x41]
def metaA : Meta := ⟨3, 0, 0, 0, false, false⟩

/-- `\A` is read and cached, invalidated as `\a`, read and cached again, and then
looked up. -/
def invalidateThenFind : List State.Act :=
  calls 1 .takeTicket 2 ++ calls 1 (.keyed (.insert pathA (some metaA) ⟨⟨0, 1⟩, 1⟩)) 4 ++
    calls 3 (.invalidate [separator, 0x61]) 4 ++ calls 1 .takeTicket 2 ++
    calls 1 (.keyed (.insert pathA (some metaA) ⟨⟨1, 1⟩, 14⟩)) 4 ++ calls 2 (.keyed (.find pathA)) 4

theorem lookup_after_invalidation_found : ∃ s, runFrom 1 invalidateThenFind = some s ∧
    ∃ r ∈ s.returned, ∃ a ∈ s.answers, r.returnedAt < a.begunAt ∧ r.scope = .exact [separator, 0x61] ∧
      a.path = pathA ∧ r.advancedAt < a.read.takenAt := by
  set r : Returned := ⟨⟨.exact [separator, 0x61], 1, 9⟩, 12⟩
  set a : Answer := ⟨pathA, .entry (some metaA), 21, 1, none, ⟨⟨1, 1⟩, 14⟩⟩
  have hsome : (runFrom 1 invalidateThenFind).isSome := by decide +kernel
  obtain ⟨s, hs⟩ := Option.isSome_iff_exists.mp hsome
  have hrun : (runFrom 1 invalidateThenFind).map (fun s => (s.returned, s.answers)) = some ([r], [a]) := by
    decide +kernel
  rw [hs, Option.map_some, Option.some.injEq, Prod.mk.injEq] at hrun
  have hr : r ∈ s.returned := by rw [hrun.1]; exact List.mem_cons_self
  have ha : a ∈ s.answers := by rw [hrun.2]; exact List.mem_cons_self
  have hcov : a.found.CoveredBy asciiNames r.scope a.path := by
    show asciiNames.fold [separator, 0x61] = asciiNames.fold pathA
    decide
  exact ⟨s, hs, r, hr, a, ha, by decide, rfl, rfl,
    lookup_after_invalidation (reachable_runFrom hs) r hr a ha (by decide) hcov⟩

/-! ### The feed's lifetime -/

/-- What a lookup answers under the feed's lifetime was ticketed after the flush of
the `BlorgPathCacheFollowFeed` whose flag it saw; so is anything it answers that is
past the short lifetime, and a not-found is never past it. -/
theorem feed_lifetime_safe (h : (system N).Reachable s) : ∀ a ∈ s.answers,
    (∀ flush, a.life = some flush → flush.advancedAt < a.read.takenAt) ∧
      match a.found with
      | .entry none => age a.read.ticket.issueTime a.now < ttl
      | .entry (some _) => ttl ≤ age a.read.ticket.issueTime a.now →
        ∃ flush, a.life = some flush ∧ flush.advancedAt < a.read.takenAt
      | .listing _ _ _ => ttl + staleGrace ≤ age a.read.ticket.issueTime a.now →
        ∃ flush, a.life = some flush ∧ flush.advancedAt < a.read.takenAt := by
  intro a ha
  have hi := reachable_inv h
  have hok := hi.answers a ha
  have hafter : ∀ flush, a.life = some flush → flush.advancedAt < a.read.takenAt := by
    intro flush hf
    obtain ⟨hfl, hle⟩ := hok.life flush hf
    exact (hi.reads a.read hok.read).after (hi.flushes flush hfl).advanced hle
  -- Past the short lifetime, the one the lookup judged by was the long one.
  have hold : ∀ past, age a.read.ticket.issueTime a.now < lifetimeOf a.life + past →
      ttl + past ≤ age a.read.ticket.issueTime a.now →
      ∃ flush, a.life = some flush ∧ flush.advancedAt < a.read.takenAt := by
    intro past hyoung hpast
    cases hl : a.life with
    | none =>
      rw [hl] at hyoung
      simp only [lifetimeOf, Option.isSome_none, Bool.false_eq_true, if_false] at hyoung
      omega
    | some flush => exact ⟨flush, rfl, hafter flush hl⟩
  refine ⟨hafter, ?_⟩
  have hfresh := hok.fresh
  unfold Answer.Fresh at hfresh
  cases hf : a.found with
  | entry found =>
    rw [hf] at hfresh
    cases found with
    | none => exact hfresh
    | some _ => exact hold 0 hfresh
  | listing _ _ _ =>
    rw [hf] at hfresh
    exact hold staleGrace hfresh

/-- The feed goes live, `\A` is read and cached, and looked up a minute later. -/
def followThenFind : List State.Act :=
  calls 3 (.followFeed true) 260 ++ calls 1 .takeTicket 2 ++
    calls 1 (.keyed (.insert pathA (some metaA) ⟨⟨1, 1⟩, 262⟩)) 4 ++
    [.tick (60 * 10 * 1000 * 1000)] ++ calls 2 (.keyed (.find pathA)) 4

theorem feed_lifetime_safe_found : ∃ s, runFrom 1 followThenFind = some s ∧ ∃ a ∈ s.answers,
    ttl ≤ age a.read.ticket.issueTime a.now ∧
      ∃ flush, a.life = some flush ∧ flush.advancedAt < a.read.takenAt := by
  set a : Answer := ⟨pathA, .entry (some metaA), 270, 600000001, some ⟨1, 1, 1, 2⟩, ⟨⟨1, 1⟩, 262⟩⟩
  have hsome : (runFrom 1 followThenFind).isSome := by decide +kernel
  obtain ⟨s, hs⟩ := Option.isSome_iff_exists.mp hsome
  have hrun : (runFrom 1 followThenFind).map State.answers = some [a] := by decide +kernel
  rw [hs, Option.map_some, Option.some.injEq] at hrun
  have ha : a ∈ s.answers := by rw [hrun]; exact List.mem_cons_self
  exact ⟨s, hs, a, ha, by decide, (feed_lifetime_safe (reachable_runFrom hs) a ha).2 (by decide)⟩

end BlorgFS.PathCache
