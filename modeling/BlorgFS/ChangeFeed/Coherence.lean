import BlorgFS.ChangeFeed.Thread

/-! What following the change feed promises in every run: once a batch of the
followed epoch has been received, lookups that begin later answer nothing it names
from a read ticketed before it; and the feed counts as live exactly when a reset or
another epoch came last. -/

namespace BlorgFS.ChangeFeed

open Lib PathCache

variable {N : Names} {w w' : Follower}

/-- What `ChangeFeedLive` will be after the calls left and the one being made. -/
def Follower.settled (w : Follower) : Bool :=
  w.calls.foldl (fun live call => (callSettles call).getD live)
    ((settles (w.cache.threads feedThread).pc).getD w.cache.live.isSome)

structure FeedInv (w : Follower) : Prop where
  idle : w.work = none → w.calls = [] ∧ w.cache.threads feedThread = ⟨.idle, []⟩
  pc : ofFollower (w.cache.threads feedThread).pc = true
  rest : (w.cache.threads feedThread).rest = []
  calls : ∀ call ∈ w.calls, madeByFollower call = true
  others : ∀ t, t ≠ feedThread → settles (w.cache.threads t).pc = none
  settled : w.settled = w.lastReset
  received : ∀ work, w.work = some work → work.receivedAt ≤ w.cache.event
  work : ∀ work batch, w.work = some work → work.batch = some batch → ∀ call ∈ apply batch, ∀ scope,
    callScope call = some scope → call ∈ w.calls ∨ Doing w.cache scope work.receivedAt
  applied : ∀ x ∈ w.applied, ∀ call ∈ apply x.batch, ∀ scope, callScope call = some scope →
    ∃ r ∈ w.cache.returned, r.scope = scope ∧ x.receivedAt ≤ r.advancedAt ∧ r.returnedAt < x.returnedAt

theorem apply_made {batch : Batch} {call : Call} (h : call ∈ apply batch) : madeByFollower call = true := by
  unfold apply at h
  simp only at h
  split at h
  · rw [List.mem_singleton.mp h]
    rfl
  · obtain ⟨entry, -, rfl⟩ := List.mem_map.mp h
    unfold applyEntry
    split <;> rfl

theorem apply_settles {batch : Batch} {call : Call} (h : call ∈ apply batch) : callSettles call = none := by
  unfold apply at h
  simp only at h
  split at h
  · rw [List.mem_singleton.mp h]
    rfl
  · obtain ⟨entry, -, rfl⟩ := List.mem_map.mp h
    unfold applyEntry
    split <;> rfl

theorem foldl_settles_of_none {calls : List Call} (h : ∀ call ∈ calls, callSettles call = none) (live : Bool) :
    calls.foldl (fun live call => (callSettles call).getD live) live = live := by
  induction calls generalizing live with
  | nil => rfl
  | cons call calls ih =>
    rw [List.foldl_cons, h call List.mem_cons_self]
    exact ih (fun c hc => h c (List.mem_cons_of_mem _ hc)) live

/-! ### One act -/

theorem initial_feedInv (now : ℕ) : FeedInv (.initial now) where
  idle _ := ⟨rfl, rfl⟩
  pc := rfl
  rest := rfl
  calls := by simp [Follower.initial]
  others _ _ := rfl
  settled := rfl
  received := by simp [Follower.initial]
  work := by simp [Follower.initial]
  applied := by simp [Follower.initial]

theorem other_feedInv {cache : State} (h : FeedInv w) (ha : Aside w.cache cache) :
    FeedInv { w with cache := cache } where
  idle hw := ⟨(h.idle hw).1, ha.thread.trans (h.idle hw).2⟩
  pc := by simp only [ha.thread]; exact h.pc
  rest := by simp only [ha.thread]; exact h.rest
  calls := h.calls
  others := ha.others
  settled := by simp only [Follower.settled, ha.thread, ha.live]; exact h.settled
  received work hw := by
    have := h.received work hw
    simp only [ha.event]
    omega
  work work batch hw hb call hc scope hs := (h.work work batch hw hb call hc scope hs).imp_right (Doing.aside ha)
  applied x hx call hc scope hs := by
    obtain ⟨r, hr, hrest⟩ := h.applied x hx call hc scope hs
    exact ⟨r, ha.returned r hr, hrest⟩

theorem receive_feedInv {outcome : Option Batch} (h : FeedInv w) (hw : w.work = none) :
    FeedInv (w.receive outcome) := by
  obtain ⟨hcalls, hthread⟩ := h.idle hw
  cases outcome with
  | none =>
    refine ⟨fun hn => (by cases hn), h.pc, h.rest, ?_, h.others, ?_, ?_, ?_, h.applied⟩
    · simp [Follower.receive, madeByFollower]
    · simp [Follower.settled, Follower.receive, callSettles]
    · simp [Follower.receive]
    · intro work b hwork hb
      cases hwork
      cases hb
  | some batch =>
    unfold Follower.receive
    simp only
    split
    next =>
      refine ⟨fun hn => (by cases hn), h.pc, h.rest, ?_, h.others, ?_, ?_, ?_, h.applied⟩
      · simp [madeByFollower]
      · simp [Follower.settled, callSettles]
      · simp
      · intro work b hwork hb
        cases hwork
        cases hb
    next =>
      refine ⟨fun hn => (by cases hn), h.pc, h.rest, fun call hc => apply_made hc, h.others, ?_, ?_, ?_, h.applied⟩
      · have hold := h.settled
        simp only [Follower.settled, hcalls, List.foldl_nil] at hold
        simp only [Follower.settled]
        rw [foldl_settles_of_none fun call hc => apply_settles hc]
        exact hold
      · simp
      · intro work b hwork hb call hc scope _
        cases hwork
        cases hb
        exact Or.inl hc

theorem start_feedInv {call : Call} {calls : List Call} {cache : State} {pool : Bool} (h : FeedInv w)
    (hthread : w.cache.threads feedThread = ⟨.idle, []⟩) (hcalls : w.calls = call :: calls)
    (hs : w.cache.next N (.start feedThread call pool) = some cache) :
    FeedInv { w with cache := cache, calls := calls } := by
  have hmade := h.calls call (by rw [hcalls]; exact List.mem_cons_self)
  obtain ⟨hrest, hpc, hset, hscope⟩ := @begin_made w.cache pool call hmade
  have hcache : cache = w.cache.moved feedThread (w.cache.begin call pool) w.cache.buckets w.cache.listings
      w.cache.listingBytes := by
    rcases next_cases hs with ⟨_, he, -⟩ | ⟨_, _, _, he, -, -, hc⟩ | ⟨_, _, _, _, he, -⟩ | ⟨_, _, he, -⟩
    · cases he
    · cases he
      exact hc
    · cases he
    · cases he
  have hself : cache.threads feedThread = w.cache.begin call pool := by simp [hcache, State.moved]
  have hlive : cache.live = w.cache.live := by simp [hcache, State.moved]
  have hevent : cache.event = w.cache.event + 1 := by simp [hcache, State.moved]
  have hreturned : cache.returned = w.cache.returned := by simp [hcache, State.moved]
  refine ⟨fun hn => ?_, by simp only [hself]; exact hpc, by simp only [hself]; exact hrest,
    fun c hc => h.calls c (by rw [hcalls]; exact List.mem_cons_of_mem _ hc), fun t ht => ?_, ?_, fun work hw => ?_,
    fun work batch hw hb c hc scope hsc => ?_, fun x hx c hc scope hsc => ?_⟩
  · have hnil := (h.idle hn).1
    rw [hcalls] at hnil
    cases hnil
  · have he : cache.threads t = w.cache.threads t := by simp [hcache, State.moved, ht]
    simp only [he]
    exact h.others t ht
  · have hold := h.settled
    simp only [Follower.settled, hcalls, hthread, List.foldl_cons] at hold
    simp only [Follower.settled, hself, hlive, hset]
    exact hold
  · have := h.received work hw
    simp only [hevent]
    omega
  · rcases h.work work batch hw hb c hc scope hsc with hin | hdo
    · rw [hcalls] at hin
      rcases List.mem_cons.mp hin with rfl | hin
      · obtain ⟨follow, hf⟩ := hscope scope hsc
        exact Or.inr (Or.inl ⟨follow, by simp only [hself]; exact hf⟩)
      · exact Or.inl hin
    · rcases hdo with ⟨follow, hf⟩ | ⟨_, _, hf⟩ | ⟨r, hr, hrs, hat, hret⟩
      · rw [hthread] at hf
        cases hf
      · rw [hthread] at hf
        cases hf
      · exact Or.inr (Or.inr (Or.inr ⟨r, hreturned ▸ hr, hrs, hat, by simp only [hevent]; omega⟩))
  · obtain ⟨r, hr, hrest⟩ := h.applied x hx c hc scope hsc
    exact ⟨r, by simp only [hreturned]; exact hr, hrest⟩

theorem step_feedInv {cache : State} {pool : Bool} (h : FeedInv w)
    (hbusy : w.cache.threads feedThread ≠ ⟨.idle, []⟩)
    (hs : w.cache.next N (.step feedThread pool) = some cache) : FeedInv { w with cache := cache } := by
  have hrest := h.rest
  have hcache : cache = w.cache.stepped N feedThread pool (w.cache.threads feedThread).pc := by
    rcases next_cases hs with ⟨_, he, -⟩ | ⟨_, _, _, he, -⟩ | ⟨_, _, _, _, he, hth, -⟩ | ⟨_, _, he, -, hc⟩
    · cases he
    · cases he
    · cases he
      rw [hth] at hrest
      cases hrest
    · cases he
      exact hc
  subst hcache
  obtain ⟨hof, hkeep⟩ := @stepPc_ofFollower N w.cache feedThread pool _ rfl h.pc
  refine ⟨fun hn => absurd (h.idle hn).2 hbusy, hof, hkeep.trans hrest, h.calls, fun t ht => ?_, ?_,
    fun work hw => Nat.le_succ_of_le (h.received work hw), fun work batch hw hb c hc scope hs => ?_,
    fun x hx c hc scope hs => ?_⟩
  · show settles ((w.cache.stepPc N feedThread pool _).threads t).pc = none
    rw [stepPc_threads_of_ne ht]
    exact h.others t ht
  · have hold := h.settled
    simp only [Follower.settled] at hold ⊢
    rw [← hold]
    congr 1
    cases hset : settles (w.cache.threads feedThread).pc with
    | none =>
      obtain ⟨hpc, hlive⟩ := @stepPc_of_not_settles N w.cache feedThread pool _ rfl hset
      show (settles ((w.cache.stepPc N feedThread pool _).threads feedThread).pc).getD
        (w.cache.stepPc N feedThread pool _).live.isSome = _
      rw [hpc, hlive]
    | some live => exact stepPc_of_settles hset
  · exact (h.work work batch hw hb c hc scope hs).imp_right (Doing.stepped (h.received work hw))
  · obtain ⟨r, hr, hrest⟩ := h.applied x hx c hc scope hs
    exact ⟨r, stepPc_returned hr, hrest⟩

theorem returns_feedInv {work : Work} (h : FeedInv w) (hw : w.work = some work) (hcalls : w.calls = [])
    (hthread : w.cache.threads feedThread = ⟨.idle, []⟩) : FeedInv (w.returns work) := by
  refine ⟨fun _ => ⟨hcalls, hthread⟩, h.pc, h.rest, h.calls, h.others, h.settled, fun _ hn => (by cases hn),
    fun _ _ hn => (by cases hn), fun x hx call hc scope hs => ?_⟩
  unfold Follower.returns at hx
  simp only at hx
  split at hx
  next batch hb =>
    rcases List.mem_cons.mp hx with rfl | hx
    · -- Nothing is left to call and the thread is idle, so each invalidation returned.
      rcases h.work work batch hw hb call hc scope hs with hin | ⟨follow, hf⟩ | ⟨_, _, hf⟩ | hret
      · rw [hcalls] at hin
        cases hin
      · rw [hthread] at hf
        cases hf
      · rw [hthread] at hf
        cases hf
      · exact hret
    · exact h.applied x hx call hc scope hs
  next => exact h.applied x hx call hc scope hs

theorem stop_feedInv (h : FeedInv w) :
    FeedInv { w with running := false, calls := [.followFeed false],
                     work := some ⟨none, w.cache.event, w.epoch, w.since⟩, lastReset := false } := by
  refine ⟨fun hn => (by cases hn), h.pc, h.rest, ?_, h.others, ?_, ?_, ?_, h.applied⟩
  · simp [madeByFollower]
  · simp [Follower.settled, callSettles]
  · simp
  · intro work b hwork hb
    cases hwork
    cases hb

theorem next_feedInv {act : Act} (h : FeedInv w) (hs : w.next N act = some w') : FeedInv w' := by
  cases act with
  | other act =>
    simp only [Follower.next] at hs
    split at hs
    · obtain ⟨cache, hn, rfl⟩ := Option.map_eq_some_iff.mp hs
      exact other_feedInv h (aside_of_next h.others ‹_› hn)
    · cases hs
  | answer outcome =>
    simp only [Follower.next, Option.ite_none_right_eq_some, Option.some.injEq] at hs
    obtain ⟨⟨-, hw⟩, rfl⟩ := hs
    exact receive_feedInv h hw
  | go pool =>
    simp only [Follower.next] at hs
    split at hs
    next hidle =>
      split at hs
      · cases hs
      next call calls hcalls =>
        obtain ⟨cache, hn, rfl⟩ := Option.map_eq_some_iff.mp hs
        exact start_feedInv h hidle hcalls hn
    next hbusy =>
      obtain ⟨cache, hn, rfl⟩ := Option.map_eq_some_iff.mp hs
      exact step_feedInv h hbusy hn
  | finish =>
    simp only [Follower.next] at hs
    split at hs
    · cases hs
    next work hw =>
      simp only [Option.ite_none_right_eq_some, Option.some.injEq] at hs
      obtain ⟨⟨hcalls, hthread⟩, rfl⟩ := hs
      exact returns_feedInv h hw hcalls hthread
  | start =>
    simp only [Follower.next, Option.ite_none_right_eq_some, Option.some.injEq] at hs
    obtain ⟨-, rfl⟩ := hs
    exact ⟨h.idle, h.pc, h.rest, h.calls, h.others, h.settled, h.received, h.work, h.applied⟩
  | stop =>
    simp only [Follower.next, Option.ite_none_right_eq_some, Option.some.injEq] at hs
    obtain ⟨-, rfl⟩ := hs
    exact stop_feedInv h

/-! ### Whole runs -/

theorem reachable_feedInv (h : (system N).Reachable w) : FeedInv w := by
  refine System.invariant ?_ ?_ h
  · rintro w ⟨now, rfl⟩
    exact initial_feedInv now
  · rintro w w' - hi ⟨act, hs⟩
    exact next_feedInv hi hs

/-- The follower is one more thread of the caches' machine. -/
theorem next_cache {act : Act} (hs : w.next N act = some w') :
    w'.cache = w.cache ∨ ∃ act, w.cache.next N act = some w'.cache := by
  cases act with
  | other act =>
    simp only [Follower.next] at hs
    split at hs
    · obtain ⟨cache, hn, rfl⟩ := Option.map_eq_some_iff.mp hs
      exact Or.inr ⟨_, hn⟩
    · cases hs
  | answer outcome =>
    simp only [Follower.next, Option.ite_none_right_eq_some, Option.some.injEq] at hs
    obtain ⟨-, rfl⟩ := hs
    cases outcome with
    | none => exact Or.inl rfl
    | some batch =>
      unfold Follower.receive
      simp only
      split <;> exact Or.inl rfl
  | go pool =>
    simp only [Follower.next] at hs
    split at hs
    · split at hs
      · cases hs
      · obtain ⟨cache, hn, rfl⟩ := Option.map_eq_some_iff.mp hs
        exact Or.inr ⟨_, hn⟩
    · obtain ⟨cache, hn, rfl⟩ := Option.map_eq_some_iff.mp hs
      exact Or.inr ⟨_, hn⟩
  | finish =>
    simp only [Follower.next] at hs
    split at hs
    · cases hs
    · simp only [Option.ite_none_right_eq_some, Option.some.injEq] at hs
      obtain ⟨-, rfl⟩ := hs
      exact Or.inl rfl
  | start =>
    simp only [Follower.next, Option.ite_none_right_eq_some, Option.some.injEq] at hs
    obtain ⟨-, rfl⟩ := hs
    exact Or.inl rfl
  | stop =>
    simp only [Follower.next, Option.ite_none_right_eq_some, Option.some.injEq] at hs
    obtain ⟨-, rfl⟩ := hs
    exact Or.inl rfl

theorem reachable_cache (h : (system N).Reachable w) : (PathCache.system N).Reachable w.cache := by
  refine System.Reachable.map Follower.cache ?_ ?_ h
  · rintro w ⟨now, rfl⟩
    exact .init ⟨now, rfl⟩
  · rintro w w' - ⟨act, hs⟩
    rcases next_cache hs with he | ⟨act, hn⟩
    · rw [he]
    · exact Relation.ReflTransGen.single ⟨act, hn⟩

theorem step_of_next {act : Act} (h : w.next N act = some w') : (system N).step w w' := ⟨act, h⟩

/-! ### What a batch names -/

/-- What a change entry is about: its path, the path's own listing and the listing
it stands in; and all that is beneath, if the path came or went. -/
def ChangeEntry.Concerns (N : Names) (entry : ChangeEntry) (q : Path) : Found → Prop
  | .entry _ => Same N entry.path q ∨ entry.kind ≠ .modified ∧ Beneath N entry.path q
  | .listing _ _ _ => Same N entry.path q ∨ (∃ dir, ParentOf entry.path dir ∧ Same N dir q) ∨
    entry.kind ≠ .modified ∧ Beneath N entry.path q

/-- Whichever branch ran, some invalidation of the batch covers what an entry is
about. -/
theorem apply_covers {batch : Batch} {entry : ChangeEntry} (he : entry ∈ batch.entries) (hpath : entry.path ≠ [])
    {q : Path} {found : Found} (hc : entry.Concerns N q found) :
    ∃ call ∈ apply batch, ∃ scope, callScope call = some scope ∧ found.CoveredBy N scope q := by
  unfold apply
  simp only
  split
  next => exact ⟨.invalidateAll, List.mem_cons_self, .all, rfl, by cases found <;> trivial⟩
  next =>
    refine ⟨applyEntry entry, List.mem_map_of_mem he, ?_⟩
    by_cases hk : entry.kind = .modified
    · refine ⟨.exact entry.path, by simp [applyEntry, hk, callScope, hpath], ?_⟩
      cases found with
      | entry value => exact hc.resolve_right fun h => h.1 hk
      | listing listing stale refresh => exact hc.imp_right fun h => h.resolve_right fun h => h.1 hk
    · refine ⟨.under entry.path, by simp [applyEntry, hk, callScope, hpath], ?_⟩
      cases found with
      | entry value => exact hc.imp_right And.right
      | listing listing stale refresh =>
        rcases hc with hsame | hparent | ⟨-, hbeneath⟩
        · exact Or.inl (Or.inl hsame)
        · exact Or.inr hparent
        · exact Or.inl (Or.inr hbeneath)

/-- Once a batch of the followed epoch has been received, no lookup that begins
later answers what it names from a read ticketed before; and between polls the feed
is live exactly if what came last, among failures and stops, resets and changes of
epoch, was a reset or a change of epoch. -/
theorem feed_coherent (h : (system N).Reachable w) :
    (∀ x ∈ w.applied, ∀ entry ∈ x.batch.entries, entry.path ≠ [] → ∀ a ∈ w.cache.answers,
      x.returnedAt ≤ a.begunAt → entry.Concerns N a.path a.found → x.receivedAt < a.read.takenAt) ∧
    (w.work = none → (w.cache.live.isSome = true ↔ w.lastReset = true)) := by
  have hf := reachable_feedInv h
  have hi := reachable_inv (reachable_cache h)
  constructor
  · intro x hx entry he hpath a ha hbegun hc
    obtain ⟨call, hcall, scope, hscope, hcov⟩ := apply_covers he hpath hc
    obtain ⟨r, hr, rfl, hat, hret⟩ := hf.applied x hx call hcall scope hscope
    have hok := hi.answers a ha
    have hvalue := hok.returned r hr (by omega) hcov
    have hafter := (hi.reads a.read hok.read).after (hi.returned r hr).advanced hvalue
    omega
  · intro hw
    obtain ⟨hcalls, hthread⟩ := hf.idle hw
    have hsettled := hf.settled
    simp only [Follower.settled, hcalls, hthread, List.foldl_nil, settles, Option.getD_none] at hsettled
    rw [hsettled]

/-- The feed starts and resets; `\A` is read and cached, named by a batch of the
followed epoch, and read, cached and looked up once that is received. -/
def receiveThenFind : List Act :=
  let others := fun acts : List State.Act => acts.map Act.other
  [.start, .answer (some ⟨true, 5, 1, []⟩)] ++ List.replicate 261 (.go true) ++ [.finish] ++
    others (calls 1 .takeTicket 2) ++ others (calls 1 (.keyed (.insert pathA (some metaA) ⟨⟨1, 1⟩, 262⟩)) 4) ++
    [.answer (some ⟨false, 5, 2, [⟨[separator, 0x61], .modified⟩]⟩)] ++ List.replicate 5 (.go true) ++ [.finish] ++
    others (calls 1 .takeTicket 2) ++ others (calls 1 (.keyed (.insert pathA (some metaA) ⟨⟨2, 1⟩, 275⟩)) 4) ++
    others (calls 2 (.keyed (.find pathA)) 4)

theorem feed_coherent_found : ∃ w, run (Follower.next asciiNames) (.initial 1) receiveThenFind = some w ∧
    (∃ x ∈ w.applied, ∃ entry ∈ x.batch.entries, ∃ a ∈ w.cache.answers, x.returnedAt ≤ a.begunAt ∧
      entry.Concerns asciiNames a.path a.found ∧ x.receivedAt < a.read.takenAt) ∧
    w.work = none ∧ w.lastReset = true ∧ w.cache.live.isSome = true := by
  set entry : ChangeEntry := ⟨[separator, 0x61], .modified⟩
  set x : Applied := ⟨⟨false, 5, 2, [entry]⟩, 269, 274⟩
  set a : Answer := ⟨pathA, .entry (some metaA), 282, 1, some ⟨1, 1, 1, 2⟩, ⟨⟨2, 1⟩, 275⟩⟩
  have hsome : (run (Follower.next asciiNames) (.initial 1) receiveThenFind).isSome := by decide +kernel
  obtain ⟨w, hw⟩ := Option.isSome_iff_exists.mp hsome
  have hrun : (run (Follower.next asciiNames) (.initial 1) receiveThenFind).map
      (fun w => (w.applied, w.cache.answers, w.work, w.lastReset)) = some ([x], [a], none, true) := by
    decide +kernel
  rw [hw, Option.map_some, Option.some.injEq, Prod.mk.injEq, Prod.mk.injEq, Prod.mk.injEq] at hrun
  obtain ⟨hx, ha, hwork, hreset⟩ := hrun
  have hreach : (system asciiNames).Reachable w := by
    have h0 : (system asciiNames).Reachable (.initial 1) := .init ⟨1, rfl⟩
    exact h0.run (fun _ _ _ => step_of_next) hw
  have hx : x ∈ w.applied := by rw [hx]; exact List.mem_cons_self
  have ha : a ∈ w.cache.answers := by rw [ha]; exact List.mem_cons_self
  have hc : entry.Concerns asciiNames a.path a.found := by
    refine Or.inl ?_
    show asciiNames.fold [separator, 0x61] = asciiNames.fold pathA
    decide
  obtain ⟨hafter, hlive⟩ := feed_coherent hreach
  exact ⟨w, hw, ⟨x, hx, entry, List.mem_cons_self, a, ha, by decide, hc,
    hafter x hx entry List.mem_cons_self (by decide) a ha (by decide) hc⟩, hwork, hreset, (hlive hwork).mpr hreset⟩

end BlorgFS.ChangeFeed
