import BlorgFS.ChangeFeed.Follower

/-! What the follower's own thread goes through: which invalidation it is in and
what it will leave in `ChangeFeedLive`, and how a step of its own or of another
thread changes that. -/

namespace BlorgFS.ChangeFeed

open Lib PathCache

/-! ### Points of a call -/

/-- The invalidation a point of a call belongs to, once it has advanced the
sequence: its scope and when it advanced. -/
def invalidation : Pc → Option (Scope × ℕ)
  | .dropEntry _ inv => some (inv.scope, inv.advancedAt)
  | .dropListing _ inv => some (inv.scope, inv.advancedAt)
  | .dropParent _ inv => some (inv.scope, inv.advancedAt)
  | .sweepEntries _ inv _ => some (inv.scope, inv.advancedAt)
  | .sweepListings _ inv _ => some (inv.scope, inv.advancedAt)
  | .bump inv _ => some (.all, inv.advancedAt)
  | .sweepAll flush _ _ => some (.all, flush.advancedAt)
  | _ => none

/-- What a point of a call will leave in `ChangeFeedLive`, if it is one of a
`BlorgPathCacheFollowFeed`. -/
def settles : Pc → Option Bool
  | .advance .all true => some true
  | .bump _ true => some true
  | .sweepAll _ true _ => some true
  | .storeLive live => some live.isSome
  | _ => none

/-- A point of a call the follower makes. -/
def ofFollower : Pc → Bool
  | .idle | .advance _ _ | .dropEntry _ _ | .dropListing _ _ | .dropParent _ _ | .sweepEntries _ _ _
  | .sweepListings _ _ _ | .bump _ _ | .sweepAll _ _ _ | .storeLive _ => true
  | _ => false

/-- The calls the follower makes. -/
def madeByFollower : Call → Bool
  | .invalidate _ | .invalidatePrefix _ | .invalidateAll | .followFeed _ => true
  | _ => false

/-- What a call of the follower will leave in `ChangeFeedLive`. -/
def callSettles : Call → Option Bool
  | .followFeed live => some live
  | _ => none

/-- The scope of a call of the follower that invalidates. -/
def callScope : Call → Option Scope
  | .invalidate path => if path = [] then none else some (.exact path)
  | .invalidatePrefix dir => if dir = [] then none else some (.under dir)
  | .invalidateAll => some .all
  | .followFeed true => some .all
  | _ => none

/-! ### Steps -/

section Steps

variable {N : Names} {s s' : State} {t u : ℕ} {pool : Bool} {pc : Pc}

theorem stepPc_threads_of_ne (h : u ≠ t) : (s.stepPc N t pool pc).threads u = s.threads u := by
  cases pc with
  | idle => rfl
  | bucketSection f =>
    simp only [State.stepPc, State.bucketStep]
    repeat' split
    all_goals exact Function.update_of_ne h _ _
  | dropParent path inv =>
    simp only [State.stepPc, State.dropParentListing]
    split <;> exact Function.update_of_ne h _ _
  | sweepAll flush follow i =>
    simp only [State.stepPc, State.afterFlush]
    repeat' split
    · exact Function.update_of_ne h _ _
    · exact (Function.update_of_ne h _ _).trans (Function.update_of_ne h _ _)
    · exact Function.update_of_ne h _ _
  | advance scope follow => cases scope <;> exact Function.update_of_ne h _ _
  | _ =>
    simp only [State.stepPc]
    repeat' split
    all_goals exact Function.update_of_ne h _ _

theorem stepPc_returned {r : Returned} (h : r ∈ s.returned) : r ∈ (s.stepPc N t pool pc).returned := by
  cases pc with
  | bucketSection f =>
    simp only [State.stepPc, State.bucketStep]
    repeat' split
    all_goals exact h
  | dropParent path inv =>
    simp only [State.stepPc, State.dropParentListing]
    split <;> exact List.mem_cons_of_mem _ h
  | sweepAll flush follow i =>
    simp only [State.stepPc, State.afterFlush]
    repeat' split
    · exact h
    · exact List.mem_cons_of_mem _ h
    · exact List.mem_cons_of_mem _ h
  | _ =>
    simp only [State.stepPc]
    repeat' split
    all_goals exact h

/-- Where a thread is after a step, for the steps that only go to one point. -/
@[simp] theorem goto_pc (pc : Pc) : ((s.goto t pc).threads t).pc = pc := by simp [State.goto]

@[simp] theorem goto_rest (pc : Pc) : ((s.goto t pc).threads t).rest = (s.threads t).rest := by
  simp [State.goto]

@[simp] theorem setBucket_threads (i : ℕ) (entries : List PathEntry) :
    (s.setBucket i entries).threads = s.threads := rfl

@[simp] theorem keepListings_threads (i : ℕ) (entries : List ListingEntry) :
    (s.keepListings i entries).threads = s.threads := rfl

@[simp] theorem setListings_threads (i : ℕ) (entries : List ListingEntry) (bytes : ℤ) :
    (s.setListings i entries bytes).threads = s.threads := rfl

@[simp] theorem dropParentListing_threads (path : Path) : (s.dropParentListing N path).threads = s.threads := by
  unfold State.dropParentListing
  split <;> rfl

@[simp] theorem dropParentListing_live (path : Path) : (s.dropParentListing N path).live = s.live := by
  unfold State.dropParentListing
  split <;> rfl

@[simp] theorem dropParentListing_event (path : Path) : (s.dropParentListing N path).event = s.event := by
  unfold State.dropParentListing
  split <;> rfl

@[simp] theorem finish_pc (inv : Invalidation) : ((s.finish t inv).threads t).pc = .idle := goto_pc .idle

@[simp] theorem finish_rest (inv : Invalidation) :
    ((s.finish t inv).threads t).rest = (s.threads t).rest := goto_rest .idle

/-- A step of a call that is not a `BlorgPathCacheFollowFeed` stays in one that is
not, and leaves `ChangeFeedLive` alone. -/
theorem stepPc_of_not_settles (hpc : (s.threads t).pc = pc) (h : settles pc = none) :
    settles ((s.stepPc N t pool pc).threads t).pc = none ∧ (s.stepPc N t pool pc).live = s.live := by
  cases pc with
  | idle => exact ⟨by simp [State.stepPc, hpc, h], rfl⟩
  | bucketSection f =>
    simp only [State.stepPc, State.bucketStep]
    repeat' split
    all_goals exact ⟨by simp [settles], rfl⟩
  | dropParent path inv => exact ⟨by simp [State.stepPc, settles], by simp [State.stepPc, State.finish, State.goto]⟩
  | sweepAll flush follow i =>
    cases follow with
    | true => cases h
    | false =>
      simp only [State.stepPc, State.afterFlush]
      split <;> exact ⟨by simp [settles], rfl⟩
  | advance scope follow =>
    cases scope with
    | all =>
      cases follow with
      | true => cases h
      | false => exact ⟨by simp [State.stepPc, settles], rfl⟩
    | exact path => exact ⟨by simp [State.stepPc, settles], rfl⟩
    | under dir => exact ⟨by simp [State.stepPc, settles], rfl⟩
  | bump inv follow =>
    cases follow with
    | true => cases h
    | false => exact ⟨by simp [State.stepPc, State.goto, settles], rfl⟩
  | storeLive live => cases h
  | _ =>
    simp only [State.stepPc]
    repeat' split
    all_goals exact ⟨by simp [State.goto, settles], rfl⟩

/-- A step of a `BlorgPathCacheFollowFeed` brings `ChangeFeedLive` closer to what
the call leaves in it. -/
theorem stepPc_of_settles {live : Bool} (h : settles pc = some live) :
    (settles ((s.stepPc N t pool pc).threads t).pc).getD (s.stepPc N t pool pc).live.isSome = live := by
  cases pc with
  | advance scope follow =>
    cases scope with
    | all =>
      cases follow with
      | true => simpa [State.stepPc, settles] using h
      | false => cases h
    | exact path => cases h
    | under dir => cases h
  | bump inv follow =>
    cases follow with
    | true => simpa [State.stepPc, State.goto, settles] using h
    | false => cases h
  | sweepAll flush follow i =>
    cases follow with
    | true =>
      simp only [State.stepPc, State.afterFlush]
      split <;> simpa [settles] using h
    | false => cases h
  | storeLive value =>
    rw [← Option.some.inj h]
    simp [State.stepPc, State.goto, settles]
  | _ => cases h

/-- An invalidation's call goes on until it returns. -/
theorem stepPc_invalidation {scope : Scope} {advancedAt : ℕ} (h : invalidation pc = some (scope, advancedAt)) :
    invalidation ((s.stepPc N t pool pc).threads t).pc = some (scope, advancedAt) ∨
      ∃ r ∈ (s.stepPc N t pool pc).returned, r.scope = scope ∧ r.advancedAt = advancedAt ∧
        r.returnedAt = s.event := by
  cases pc with
  | dropEntry path inv => exact Or.inl (by simpa [State.stepPc, invalidation] using h)
  | dropListing path inv => exact Or.inl (by simpa [State.stepPc, invalidation] using h)
  | dropParent path inv =>
    have hinv := Option.some.inj h
    rw [Prod.mk.injEq] at hinv
    exact Or.inr ⟨⟨inv, s.event⟩, by simp [State.stepPc, State.finish], hinv.1, hinv.2, rfl⟩
  | sweepEntries dir inv i =>
    simp only [State.stepPc]
    split <;> exact Or.inl (by simpa [invalidation] using h)
  | sweepListings dir inv i =>
    simp only [State.stepPc]
    split <;> exact Or.inl (by simpa [invalidation] using h)
  | bump inv follow => exact Or.inl (by simpa [State.stepPc, State.goto, invalidation] using h)
  | sweepAll flush follow i =>
    have hinv := Option.some.inj h
    rw [Prod.mk.injEq] at hinv
    simp only [State.stepPc]
    split
    · exact Or.inl (by simpa [invalidation] using h)
    · refine Or.inr ⟨⟨⟨.all, flush.value, flush.advancedAt⟩, s.event⟩, ?_, hinv.1, hinv.2, rfl⟩
      unfold State.afterFlush
      cases follow <;> exact List.mem_cons_self
  | _ => cases h

/-- The follower's calls are invalidations and stores, and queue nothing. -/
theorem stepPc_ofFollower (hpc : (s.threads t).pc = pc) (h : ofFollower pc = true) :
    ofFollower ((s.stepPc N t pool pc).threads t).pc = true ∧
      ((s.stepPc N t pool pc).threads t).rest = (s.threads t).rest := by
  cases pc with
  | idle => exact ⟨by simp [State.stepPc, hpc, ofFollower], rfl⟩
  | advance scope follow => cases scope <;> exact ⟨by simp [State.stepPc, ofFollower], by simp [State.stepPc, State.goto]⟩
  | sweepAll flush follow i =>
    simp only [State.stepPc, State.afterFlush]
    repeat' split
    all_goals exact ⟨by simp [ofFollower], by simp⟩
  | dropEntry path inv => exact ⟨by simp [State.stepPc, ofFollower], by simp [State.stepPc]⟩
  | dropListing path inv => exact ⟨by simp [State.stepPc, ofFollower], by simp [State.stepPc]⟩
  | dropParent path inv => exact ⟨by simp [State.stepPc, ofFollower], by simp [State.stepPc]⟩
  | sweepEntries dir inv i =>
    simp only [State.stepPc]
    split <;> exact ⟨by simp [ofFollower], by simp⟩
  | sweepListings dir inv i =>
    simp only [State.stepPc]
    split <;> exact ⟨by simp [ofFollower], by simp⟩
  | bump inv follow => exact ⟨by simp [State.stepPc, State.goto, ofFollower], by simp [State.stepPc, State.goto]⟩
  | storeLive live => exact ⟨by simp [State.stepPc, State.goto, ofFollower], by simp [State.stepPc, State.goto]⟩
  | _ => cases h

theorem beginKeyed_settles (call : Keyed) : settles (s.beginKeyed call pool) = none := by
  cases call <;> simp only [State.beginKeyed] <;> split <;> rfl

theorem begin_settles {call : Call} (h : callSettles call = none) : settles (s.begin call pool).pc = none := by
  cases call with
  | keyed call => exact beginKeyed_settles call
  | followFeed live => cases h
  | takeTicket => rfl
  | publishDescendants dir root descendants failed read => rfl
  | invalidateAll => rfl
  | seedListing dir listing read => simp only [State.begin]; split <;> rfl
  | invalidate path => simp only [State.begin]; split <;> rfl
  | invalidatePrefix dir => simp only [State.begin]; split <;> rfl
  | ticketCurrent read => simp only [State.begin]; split <;> rfl

/-- How the follower's thread enters one of its calls. -/
theorem begin_made {call : Call} (h : madeByFollower call = true) :
    (s.begin call pool).rest = [] ∧ ofFollower (s.begin call pool).pc = true ∧
      settles (s.begin call pool).pc = callSettles call ∧
      ∀ scope, callScope call = some scope → ∃ follow, (s.begin call pool).pc = .advance scope follow := by
  cases call with
  | invalidate path =>
    by_cases hp : path = []
    · simp [State.begin, callScope, callSettles, ofFollower, settles, hp]
    · simp [State.begin, callScope, callSettles, ofFollower, settles, hp]
  | invalidatePrefix dir =>
    by_cases hp : dir = []
    · simp [State.begin, callScope, callSettles, ofFollower, settles, hp]
    · simp [State.begin, callScope, callSettles, ofFollower, settles, hp]
  | invalidateAll => simp [State.begin, callScope, callSettles, ofFollower, settles]
  | followFeed live => cases live <;> simp [State.begin, callScope, callSettles, ofFollower, settles]
  | _ => cases h

end Steps

/-! ### The follower's thread among the others -/

section Among

variable {N : Names} {s s' : State} {act : State.Act}

/-- The invalidation of `scope` is about to advance, has advanced at `since` or
later, or has returned after advancing then. -/
def Doing (s : State) (scope : Scope) (since : ℕ) : Prop :=
  (∃ follow, (s.threads feedThread).pc = .advance scope follow) ∨
    (∃ advancedAt ≥ since, invalidation (s.threads feedThread).pc = some (scope, advancedAt)) ∨
    ∃ r ∈ s.returned, r.scope = scope ∧ since ≤ r.advancedAt ∧ r.returnedAt < s.event

/-- What another thread leaves alone. -/
structure Aside (s s' : State) : Prop where
  thread : s'.threads feedThread = s.threads feedThread
  returned : ∀ r ∈ s.returned, r ∈ s'.returned
  event : s'.event = s.event + 1
  live : s'.live = s.live
  others : ∀ t, t ≠ feedThread → settles (s'.threads t).pc = none

theorem aside_of_next (h : ∀ t, t ≠ feedThread → settles (s.threads t).pc = none)
    (ha : Follower.allowed act = true) (hs : s.next N act = some s') : Aside s s' := by
  have hupdate : ∀ {t : ℕ} {thread : Thread}, t ≠ feedThread → settles thread.pc = none →
      Aside s (s.moved t thread s.buckets s.listings s.listingBytes) := by
    intro t thread ht hth
    refine ⟨Function.update_of_ne (Ne.symm ht) _ _, fun _ hr => hr, rfl, rfl, fun u hu => ?_⟩
    by_cases he : u = t
    · subst he
      simp [State.moved, hth]
    · simp [State.moved, he, h u hu]
  rcases next_cases hs with ⟨elapsed, rfl, rfl⟩ | ⟨t, call, pool, rfl, -, -, rfl⟩ | ⟨t, call, rest, pool, rfl, -, rfl⟩ |
    ⟨t, pool, rfl, -, rfl⟩
  · exact ⟨rfl, fun _ hr => hr, rfl, rfl, h⟩
  · have ht : t ≠ feedThread := by
      rintro rfl
      simp [Follower.allowed] at ha
    refine hupdate ht (begin_settles ?_)
    cases call <;> first | rfl | simp [Follower.allowed] at ha
  · have ht : t ≠ feedThread := by simpa [Follower.allowed] using ha
    exact hupdate ht (beginKeyed_settles call)
  · have ht : t ≠ feedThread := by simpa [Follower.allowed] using ha
    obtain ⟨hpc, hlive⟩ := @stepPc_of_not_settles N s t pool _ rfl (h t ht)
    refine ⟨stepPc_threads_of_ne (Ne.symm ht), fun _ hr => stepPc_returned hr, rfl, hlive, fun u hu => ?_⟩
    by_cases he : u = t
    · subst he
      exact hpc
    · show settles ((s.stepPc N t pool (s.threads t).pc).threads u).pc = none
      rw [stepPc_threads_of_ne he]
      exact h u hu

theorem Doing.aside {scope : Scope} {since : ℕ} (ha : Aside s s') (h : Doing s scope since) :
    Doing s' scope since := by
  unfold Doing
  rw [ha.thread, ha.event]
  refine h.imp_right (Or.imp_right ?_)
  rintro ⟨r, hr, hscope, hat, hret⟩
  exact ⟨r, ha.returned r hr, hscope, hat, by omega⟩

/-- The follower's own step takes its invalidation on. -/
theorem Doing.stepped {scope : Scope} {since : ℕ} {pool : Bool} (hle : since ≤ s.event)
    (h : Doing s scope since) : Doing (s.stepped N feedThread pool (s.threads feedThread).pc) scope since := by
  rcases h with ⟨follow, hpc⟩ | ⟨advancedAt, hat, hpc⟩ | ⟨r, hr, hscope, hat, hret⟩
  · refine Or.inr (Or.inl ⟨s.event, hle, ?_⟩)
    rw [hpc]
    cases scope <;> simp [State.stepped, State.stepPc, invalidation]
  · rcases @stepPc_invalidation N s feedThread pool _ _ _ hpc with hgo | ⟨r, hr, hscope, hadv, hret⟩
    · exact Or.inr (Or.inl ⟨advancedAt, hat, hgo⟩)
    · exact Or.inr (Or.inr ⟨r, hr, hscope, by omega, by rw [hret]; exact Nat.lt_succ_self _⟩)
  · exact Or.inr (Or.inr ⟨r, stepPc_returned hr, hscope, hat, Nat.lt_succ_of_lt hret⟩)

end Among

end BlorgFS.ChangeFeed
