import BlorgFS.Fsp.Ownership

/-! What becomes of the IRPs. None is completed twice or while somebody still has it, a stash is
freed once, and between what goes to sleep in the oplock package or with a fetch there is only
so much to do, after which nobody has an IRP any more. -/

namespace BlorgFS.Fsp

open Lib

namespace State

/-! ### What every run keeps -/

/-- No IRP is completed twice, and nobody has one that is completed. A stash is freed at most
once, nothing else is, and a create that says it has one has one that is not freed. -/
structure ExactlyOnce (s : State) : Prop where
  once : ∀ i, (s.completed.map (·.1)).count i ≤ 1
  issued : ∀ i ∈ s.completed.map (·.1), i < s.issued
  queue : ∀ i ∈ s.completed.map (·.1), i ∉ s.irpQueue
  parked : ∀ i ∈ s.completed.map (·.1), i ∉ s.parked
  fetches : ∀ i ∈ s.completed.map (·.1), i ∉ s.fetches
  threads : ∀ i ∈ s.completed.map (·.1), ∀ t ∈ s.threads, ∀ p, t.hold ≠ some (p, i)
  workers : ∀ i ∈ s.completed.map (·.1), ∀ w ∈ s.workers, ∀ p, w.hold ≠ some (p, i)
  freed : ∀ n, s.freed.count (.stash n) ≤ 1
  stashes : ∀ x ∈ s.freed, ∃ n, n < s.stashes ∧ x = .stash n
  laden : ∀ i < s.issued, i ∉ s.completed.map (·.1) → (s.irps i).major = .create → (s.irps i).netDone = true →
    ∃ n, (s.irps i).context1 = some (.stash n) ∧ .stash n ∉ s.freed

/-- Every IRP has been completed once, and every stash freed once. -/
structure Settled (s : State) : Prop where
  completed : ∀ i < s.issued, (s.completed.map (·.1)).count i = 1
  freed : ∀ n < s.stashes, s.freed.count (.stash n) = 1

end State

/-- Nobody owes this step: a request that comes, one that is cancelled, the stop. -/
def Act.unsolicited : Act → Bool
  | arrive _ _ | cancel _ | stop => true
  | _ => false

/-- The pass leaves the IRP to the oplock package or issues a fetch. -/
def Verdict.leaves : Verdict → Bool
  | park | fetch none => true
  | _ => false

namespace State

/-- Nobody has a step to take. -/
def AtRest (s : State) : Prop := ∀ act, act.unsolicited = false → s.next act = none

/-- The step brings an IRP, or a pass that leaves one with somebody who will bring it again. -/
def renews (s : State) : Act → Bool
  | .arrive _ _ => true
  | .thread j k => k.verdict.leaves && s.threads[j]?.any fun
    | .pass _ => true
    | _ => false
  | .worker w k => k.verdict.leaves && s.workers[w]?.any fun
    | .running _ => true
    | _ => false
  | _ => false

/-- The steps that renew nothing. -/
def nextSteady (s : State) (act : Act) : Option State := if s.renews act then none else s.next act

end State

/-! ### What is left to do -/

def Thread.work : Thread → ℕ
  | pass _ | requeue _ | unparked _ _ => 10
  | fetched _ _ => 11
  | insert _ _ => 9
  | signal _ => 5
  | returned _ _ | refused _ | discard _ => 1

def Worker.work : Worker → ℕ
  | exited | blocked => 0
  | waiting => 1
  | removing => 2
  | returned _ _ => 3
  | running _ => 4

namespace State

/-- What is left to do for those that are no threads and no workers. -/
def rest (s : State) : ℕ :=
  3 * s.irpQueue.length + 11 * s.parked.length + 12 * s.fetches.length + 3 * s.workEvent.toNat + s.threadsActive.toNat

/-- How many steps there can be until nobody has any left. -/
def work (s : State) : ℕ := tally Thread.work s.threads + tally Worker.work s.workers + s.rest

end State

variable {s s' s₁ : State} {k : Choice} {t : Thread} {threads : List Thread} {i j w n : ℕ} {st : Status} {act : Act} {a b : Worker} {p : Place}

/-! ### Custody -/

theorem Irp.Fine.laden {irp : Irp} (h : irp.Fine p) (hm : irp.major = .create) (hn : irp.netDone = true) (hp : p ≠ .done) : irp.Laden := by
  unfold Irp.Fine at h
  rw [hm] at h
  have hcalm : ¬ irp.Calm := fun hc => by
    rw [hc.1] at hn
    cases hn
  cases p with
  | done => exact absurd rfl hp
  | requeued | refused => exact h
  | inserting | queued | running | discarded => exact h.resolve_right hcalm
  | _ => exact absurd h hcalm

/-- Nothing is left on an IRP that is completed. -/
theorem Irp.Fine.bare {irp : Irp} (h : irp.Fine .done) : irp.carries n = 0 := by
  unfold Irp.Fine at h
  have hne : irp.context1 ≠ some (.stash n) := by
    split at h
    · simp [h]
    · exact h.2 n
    · simp [h]
  rw [Irp.carries, List.count_eq_zero]
  intro hmem
  exact hne (by simpa [Option.mem_toList] using hmem)

namespace State

theorem sound_initial : Sound (initial n) := by
  have hworkers : (initial n).workers.filterMap Worker.hold = [] := by
    rw [List.filterMap_eq_nil_iff]
    intro w hw
    rw [List.eq_of_mem_replicate hw]
    rfl
  have hholds : (initial n).holds = [] := by
    rw [holds, hworkers]
    rfl
  constructor
  · intro i
    rw [hholds]
    rfl
  · intro h hh
    rw [hholds] at hh
    cases hh
  · intro m
    rw [hholds]
    rfl
  · intro st hst
    cases hst

theorem reachable_sound (h : (system n).Reachable s) : Sound s := by
  apply System.invariant _ _ h
  · rintro _ rfl
    exact sound_initial
  · rintro s s' _ hs ⟨act, hn⟩
    exact sound_next hs hn

theorem done_mem_holds (h : i ∈ s.completed.map (·.1)) : (.done, i) ∈ s.holds := by
  obtain ⟨x, hx, rfl⟩ := List.mem_map.mp h
  simp only [holds, base, List.mem_append]
  exact .inl (.inl (.inr (List.mem_map_of_mem hx)))

end State

/-- An IRP is in one hand. -/
theorem Sound.one_hand {p' : Place} (hs : Sound s) (h : (p, i) ∈ s.holds) (h' : (p', i) ∈ s.holds) : p = p' := by
  have hcount := hs.held i
  by_contra hne
  have hmem : (p', i) ∈ s.holds.erase (p, i) := (List.mem_erase_of_ne (fun he => hne (Prod.mk.inj he).1.symm)).mpr h'
  rw [((List.perm_cons_erase h).map _).count_eq, List.map_cons, List.count_cons_self] at hcount
  have hpos : 0 < ((s.holds.erase (p, i)).map (·.2)).count i := List.count_pos_iff.mpr (List.mem_map.mpr ⟨_, hmem, rfl⟩)
  split_ifs at hcount
  omega

theorem Sound.eq_done (hs : Sound s) (hi : i ∈ s.completed.map (·.1)) (h : (p, i) ∈ s.holds) : p = .done :=
  hs.one_hand h (State.done_mem_holds hi)

theorem Sound.issued_of_mem (hs : Sound s) (h : (p, i) ∈ s.holds) : i < s.issued := by
  have hcount := hs.held i
  have hpos : 0 < (s.holds.map (·.2)).count i := List.count_pos_iff.mpr (List.mem_map.mpr ⟨_, h, rfl⟩)
  by_contra hn
  rw [if_neg hn] at hcount
  omega

theorem Thread.hold_ne_done {t : Thread} : t.hold ≠ some (.done, i) := by
  cases t with
  | returned i result => cases result <;> simp [Thread.hold]
  | _ => simp [Thread.hold]

theorem Worker.hold_ne_done {w : Worker} : w.hold ≠ some (.done, i) := by
  cases w with
  | returned i result => cases result <;> simp [Worker.hold]
  | _ => simp [Worker.hold]

/-- Every stash that is on an IRP or freed is there once. -/
theorem Sound.carried (hs : Sound s) (h : (p, i) ∈ s.holds) (hc : (s.irps i).context1 = some (.stash n)) : .stash n ∉ s.freed := by
  intro hmem
  have hledger := hs.ledger n
  have h1 : (s.irps i).carries n ≤ tally (fun h => (s.irps h.2).carries n) s.holds := le_tally (f := fun h => (s.irps h.2).carries n) h
  have h2 : 0 < s.freed.count (.stash n) := List.count_pos_iff.mpr hmem
  have h3 : (s.irps i).carries n = 1 := by simp [Irp.carries, hc]
  split_ifs at hledger <;> omega

theorem Sound.exactlyOnce (hs : Sound s) : s.ExactlyOnce := by
  have hqueue : ∀ {i}, i ∈ s.irpQueue → (.queued, i) ∈ s.holds := by
    intro i h
    simp only [State.holds, State.base, List.mem_append]
    exact .inl (.inl (.inl (.inl (.inl (List.mem_map_of_mem h)))))
  have hparked : ∀ {i}, i ∈ s.parked → (.parked, i) ∈ s.holds := by
    intro i h
    simp only [State.holds, State.base, List.mem_append]
    exact .inl (.inl (.inl (.inl (.inr (List.mem_map_of_mem h)))))
  have hfetches : ∀ {i}, i ∈ s.fetches → (.fetching, i) ∈ s.holds := by
    intro i h
    simp only [State.holds, State.base, List.mem_append]
    exact .inl (.inl (.inl (.inr (List.mem_map_of_mem h))))
  constructor
  · intro i
    have hheld := hs.held i
    have hsub : ((s.completed.map fun x => (Place.done, x.1)).map (·.2)).count i ≤ (s.holds.map (·.2)).count i := by
      simp only [State.holds, State.base, List.map_append, List.count_append]
      omega
    rw [List.map_map] at hsub
    have hle : (s.holds.map (·.2)).count i ≤ 1 := by
      rw [hheld]
      split_ifs <;> omega
    exact Nat.le_trans hsub hle
  · intro i hi
    exact hs.issued_of_mem (State.done_mem_holds hi)
  · intro i hi h
    cases hs.eq_done hi (hqueue h)
  · intro i hi h
    cases hs.eq_done hi (hparked h)
  · intro i hi h
    cases hs.eq_done hi (hfetches h)
  · intro i hi t ht p hp
    have hmem : (p, i) ∈ s.holds := List.mem_append_left _ (List.mem_append_right _ (List.mem_filterMap.mpr ⟨t, ht, hp⟩))
    exact Thread.hold_ne_done (hs.eq_done hi hmem ▸ hp)
  · intro i hi w hw p hp
    have hmem : (p, i) ∈ s.holds := List.mem_append_right _ (List.mem_filterMap.mpr ⟨w, hw, hp⟩)
    exact Worker.hold_ne_done (hs.eq_done hi hmem ▸ hp)
  · intro n
    have hledger := hs.ledger n
    split_ifs at hledger <;> omega
  · intro x hx
    obtain ⟨n, rfl⟩ := hs.stashes x hx
    have hledger := hs.ledger n
    have hpos : 0 < s.freed.count (.stash n) := List.count_pos_iff.mpr hx
    split_ifs at hledger with hn
    · exact ⟨n, hn, rfl⟩
    · omega
  · intro i hi hdone hm hn
    have hheld := hs.held i
    rw [if_pos hi] at hheld
    obtain ⟨⟨p, j⟩, hmem, rfl⟩ := List.mem_map.mp (List.count_pos_iff.mp (by omega : 0 < (s.holds.map (·.2)).count i))
    have hp : p ≠ .done := by
      rintro rfl
      apply hdone
      simp only [State.holds, State.base, List.mem_append, List.mem_map, List.mem_filterMap] at hmem
      rcases hmem with (((((⟨_, _, he⟩ | ⟨_, _, he⟩) | ⟨_, _, he⟩) | ⟨x, hx, he⟩) | ⟨t, _, ht⟩) | ⟨w, _, hw⟩)
      · cases he
      · cases he
      · cases he
      · exact List.mem_map.mpr ⟨x, hx, (Prod.mk.inj he).2⟩
      · exact absurd ht Thread.hold_ne_done
      · exact absurd hw Worker.hold_ne_done
    have hfine := hs.fine _ hmem
    have hladen : (s.irps j).Laden := hfine.laden hm hn hp
    obtain ⟨_, n, hc⟩ := hladen
    exact ⟨n, hc, hs.carried hmem hc⟩

/-! ### Nobody has a step -/

/-- A worker leaves only when it has been told to, and then nothing is queued any more. -/
structure Staffed (n : ℕ) (s : State) : Prop where
  length : s.workers.length = n
  exited : .exited ∈ s.workers → s.terminationEvent = true
  stopped : s.terminationEvent = true → s.threadsActive = false

namespace State

theorem staffed_aside (h : Staffed n s) (ha : Aside s s') : Staffed n s' := by
  obtain ⟨_, _, _, _, _, _, rfl⟩ := ha
  exact ⟨h.length, h.exited, h.stopped⟩

theorem staffed_set (h : Staffed n s) (hb : b = .exited → s.terminationEvent = true) : Staffed n { s with workers := s.workers.set w b } := by
  refine ⟨?_, fun hmem => ?_, h.stopped⟩
  · exact List.length_set.trans h.length
  · rcases List.mem_or_eq_of_mem_set hmem with hmem | he
    · exact h.exited hmem
    · exact hb he.symm

theorem staffed_thread (h : Staffed n s) (ht : s.thread k t = some (s', threads)) (l : List Thread) : Staffed n { s' with threads := l } := by
  rcases thread_cases ht with ⟨_, ha, _⟩ | ⟨i, _, ha, _⟩ | ⟨poster, _, hset, _⟩
  · have hs := staffed_aside h ha
    exact ⟨hs.length, hs.exited, hs.stopped⟩
  · have hs := staffed_aside (s := { s with irpQueue := s.irpQueue ++ [i] }) ⟨h.length, h.exited, h.stopped⟩ ha
    exact ⟨hs.length, hs.exited, hs.stopped⟩
  · unfold setWorkEvent at hset
    split_ifs at hset
    · obtain rfl := Option.some.inj hset
      have hs : Staffed n { s with workers := s.workers.set k.waiter .removing } := staffed_set h nofun
      exact ⟨hs.length, hs.exited, hs.stopped⟩
    · obtain rfl := Option.some.inj hset
      exact ⟨h.length, h.exited, h.stopped⟩

theorem staffed_worker (h : Staffed n s) (hw : s.worker k a = some (s', b)) : Staffed n { s' with workers := s.workers.set w b } := by
  have hset : (b = .exited → s.terminationEvent = true) → Staffed n { s with workers := s.workers.set w b } := staffed_set h
  rcases worker_cases hw with ⟨_, ⟨_, rfl, rfl⟩ | ⟨_, ht, rfl, rfl⟩ | ⟨_, _, rfl, rfl⟩⟩ | ⟨_, _, rfl, rfl⟩ | ⟨i, irpQueue, _, _, rfl, rfl⟩ |
    ⟨i, r, _, rfl, hh⟩ | ⟨i, r, _, rfl, rfl⟩
  · have hs := hset nofun
    exact ⟨hs.length, hs.exited, hs.stopped⟩
  · exact hset fun _ => ht
  · exact hset nofun
  · exact hset nofun
  · have hs := hset nofun
    exact ⟨hs.length, hs.exited, hs.stopped⟩
  · have hs := hset nofun
    obtain ⟨_, _, _, _, _, _, rfl⟩ := aside_handle hh
    exact ⟨hs.length, hs.exited, hs.stopped⟩
  · have hs := hset nofun
    cases r <;> exact ⟨hs.length, hs.exited, hs.stopped⟩

theorem staffed_next (h : Staffed n s) (hn : s.next act = some s') : Staffed n s' := by
  cases act with
  | arrive major stamp =>
    obtain rfl := Option.some.inj hn
    exact ⟨h.length, h.exited, h.stopped⟩
  | thread j k =>
    obtain ⟨t, _, hn⟩ := Option.bind_eq_some_iff.mp hn
    obtain ⟨⟨s₁, threads⟩, ht, rfl⟩ := Option.map_eq_some_iff.mp hn
    exact staffed_thread h ht _
  | worker w k =>
    obtain ⟨a, _, hn⟩ := Option.bind_eq_some_iff.mp hn
    obtain ⟨⟨s₁, b⟩, ht, rfl⟩ := Option.map_eq_some_iff.mp hn
    exact staffed_worker h ht
  | fetchDone j st =>
    obtain ⟨i, _, rfl⟩ := Option.map_eq_some_iff.mp hn
    exact ⟨h.length, h.exited, h.stopped⟩
  | unpark j st =>
    obtain ⟨i, _, rfl⟩ := Option.map_eq_some_iff.mp hn
    exact ⟨h.length, h.exited, h.stopped⟩
  | cancel j =>
    obtain ⟨i, _, rfl⟩ := Option.map_eq_some_iff.mp hn
    exact ⟨h.length, h.exited, h.stopped⟩
  | stop =>
    simp only [next] at hn
    split_ifs at hn
    obtain rfl := Option.some.inj hn
    exact ⟨List.length_map _ |>.trans h.length, fun _ => rfl, fun _ => rfl⟩
  | drain =>
    simp only [next] at hn
    split_ifs at hn
    split at hn
    · cases hn
    · obtain rfl := Option.some.inj hn
      exact ⟨h.length, h.exited, h.stopped⟩

theorem reachable_staffed (h : (system n).Reachable s) : Staffed n s := by
  apply System.invariant _ _ h
  · rintro _ rfl
    refine ⟨List.length_replicate, fun hmem => ?_, nofun⟩
    cases List.eq_of_mem_replicate hmem
  · rintro s s' _ hs ⟨act, hn⟩
    exact staffed_next hs hn

/-- A thread has a step to take. -/
theorem exists_thread (s : State) (t : Thread) : ∃ k, (s.thread k t).isSome := by
  by_cases hb : .blocked ∈ s.workers
  · obtain ⟨w, hw⟩ := List.mem_iff_getElem?.mp hb
    refine ⟨⟨.finish .success, true, w⟩, ?_⟩
    cases t with
    | returned i result => cases result <;> rfl
    | signal poster => simp [thread, setWorkEvent, hb, hw]
    | unparked i st =>
      simp only [thread]
      split_ifs <;> rfl
    | _ => rfl
  · refine ⟨⟨.finish .success, true, 0⟩, ?_⟩
    cases t with
    | returned i result => cases result <;> rfl
    | signal poster => simp [thread, setWorkEvent, hb]
    | unparked i st =>
      simp only [thread]
      split_ifs <;> rfl
    | _ => rfl

/-- A worker has one unless it sleeps or has left. -/
theorem exists_worker_step (s : State) (ha : a ≠ .blocked) (ha' : a ≠ .exited) : ∃ k, (s.worker k a).isSome := by
  refine ⟨⟨.finish .success, true, 0⟩, ?_⟩
  cases a with
  | blocked => exact absurd rfl ha
  | exited => exact absurd rfl ha'
  | waiting =>
    simp only [worker]
    split_ifs <;> rfl
  | removing =>
    simp only [worker]
    split <;> rfl
  | running i => rfl
  | returned i result => cases result <;> rfl

theorem AtRest.no_threads (h : s.AtRest) : s.threads = [] := by
  rw [List.eq_nil_iff_forall_not_mem]
  intro t ht
  obtain ⟨j, hj⟩ := List.mem_iff_getElem?.mp ht
  obtain ⟨k, hk⟩ := exists_thread s t
  obtain ⟨x, hx⟩ := Option.isSome_iff_exists.mp hk
  have hnone := h (.thread j k) rfl
  rw [next, hj, Option.bind_some, hx] at hnone
  cases hnone

theorem AtRest.asleep_or_left (h : s.AtRest) (ha : a ∈ s.workers) : a = .blocked ∨ a = .exited := by
  by_contra hn
  obtain ⟨w, hw⟩ := List.mem_iff_getElem?.mp ha
  obtain ⟨k, hk⟩ := exists_worker_step s (fun he => hn (.inl he)) (fun he => hn (.inr he))
  obtain ⟨⟨s', b⟩, hx⟩ := Option.isSome_iff_exists.mp hk
  have hnone := h (.worker w k) rfl
  rw [next_worker hw hx] at hnone
  cases hnone

theorem AtRest.no_fetches (h : s.AtRest) : s.fetches = [] := by
  cases hf : s.fetches with
  | nil => rfl
  | cons i fetches =>
    have hnone := h (.fetchDone 0 .success) rfl
    rw [next, hf] at hnone
    cases hnone

theorem AtRest.none_parked (h : s.AtRest) : s.parked = [] := by
  cases hf : s.parked with
  | nil => rfl
  | cons i parked =>
    have hnone := h (.unpark 0 .success) rfl
    rw [next, hf] at hnone
    cases hnone

/-- While workers sleep the queue is empty, and once all have left it is drained. -/
theorem AtRest.none_queued (h : s.AtRest) (hn : 0 < n) (hs : Staffed n s) (ha : s.pool.Awake) : s.irpQueue = [] := by
  by_contra hq
  have hdrain : s.pool.asleep = 0 → False := by
    intro h0
    have hall : ∀ a ∈ s.workers, a = .exited := by
      intro a hmem
      refine (h.asleep_or_left hmem).resolve_left ?_
      rintro rfl
      exact absurd (asleep_pos.mpr hmem) (by omega)
    obtain ⟨a, hmem⟩ := List.exists_mem_of_length_pos (hs.length ▸ hn)
    have hstop : s.threadsActive = false := hs.stopped (hs.exited (hall a hmem ▸ hmem))
    have hnone := h .drain rfl
    rw [next, if_pos ⟨by rw [hstop]; exact Bool.false_ne_true, hall⟩] at hnone
    split at hnone
    · exact hq ‹_›
    · cases hnone
  rcases ha.queue (queued_pos.mpr hq) with he | hp | hw | hc
  · exact hdrain (ha.event he)
  · obtain ⟨poster, hmem⟩ := posters_pos.mp hp
    rw [h.no_threads] at hmem
    cases hmem
  · have hzero : s.pool.looking + s.pool.working = 0 := by
      have h1 : s.pool.looking = 0 := tally_eq_zero fun a ha => by rcases h.asleep_or_left ha with rfl | rfl <;> rfl
      have h2 : s.pool.working = 0 := tally_eq_zero fun a ha => by rcases h.asleep_or_left ha with rfl | rfl <;> rfl
      omega
    omega
  · exact hdrain (ha.closed hc)

theorem AtRest.settled (h : s.AtRest) (hn : 0 < n) (hr : (system n).Reachable s) : s.Settled := by
  have hs := reachable_sound hr
  have hworkers : s.workers.filterMap Worker.hold = [] := by
    rw [List.filterMap_eq_nil_iff]
    intro a ha
    rcases h.asleep_or_left ha with rfl | rfl <;> rfl
  have hholds : s.holds = s.completed.map fun x => (Place.done, x.1) := by
    rw [holds, base, hworkers, h.no_threads, h.no_fetches, h.none_parked, h.none_queued hn (reachable_staffed hr) (reachable_awake hr)]
    simp
  constructor
  · intro i hi
    have hheld := hs.held i
    rwa [if_pos hi, hholds, List.map_map] at hheld
  · intro m hm
    have hledger := hs.ledger m
    have hzero : tally (fun h => (s.irps h.2).carries m) s.holds = 0 := by
      apply tally_eq_zero
      intro x hx
      have hfine := hs.fine x hx
      rw [hholds] at hx
      obtain ⟨y, _, rfl⟩ := List.mem_map.mp hx
      exact hfine.bare
    rwa [if_pos hm, hzero, Nat.zero_add] at hledger

/-! ### Every step but those that renew something -/

theorem rest_discardContext : (s.discardContext i).rest = s.rest := by
  unfold discardContext
  split_ifs <;> rfl

theorem rest_consume : (s.consume i).rest = s.rest := by
  unfold consume
  split_ifs
  · exact rest_discardContext
  · rfl

theorem rest_handle {v : Verdict} {answer : Answer} (h : s.handle i v = some (s', answer)) (hv : v.leaves = false) : s'.rest = s.rest := by
  cases v with
  | finish st =>
    obtain ⟨rfl, rfl⟩ := Prod.mk.inj (Option.some.inj h)
    exact rest_consume
  | post unlocked =>
    simp only [handle] at h
    split_ifs at h <;> obtain ⟨rfl, rfl⟩ := Prod.mk.inj (Option.some.inj h) <;> exact rest_consume
  | park => cases hv
  | fetch refused =>
    simp only [handle] at h
    split_ifs at h
    cases refused with
    | some st =>
      obtain ⟨rfl, rfl⟩ := Prod.mk.inj (Option.some.inj h)
      exact rest_consume
    | none => cases hv

theorem rest_fetched : (s.fetched i st k).1.rest = s.rest := by
  unfold fetched
  split
  · rfl
  · split_ifs <;> rfl
  · split_ifs <;> rfl

theorem fetched_work : tally Thread.work (s.fetched i st k).2 ≤ 10 := by
  unfold fetched
  split
  · exact Nat.zero_le _
  · split_ifs <;> simp [Thread.work]
  · split_ifs <;> simp [Thread.work]

theorem rest_refused : (s.refused i).rest = s.rest := by
  unfold refused
  split_ifs <;> rfl

/-- A step of a thread leaves less to do. -/
theorem thread_work (hv : ∀ i, t = .pass i → k.verdict.leaves = false) (h : s.thread k t = some (s', threads)) :
    tally Thread.work threads + tally Worker.work s'.workers + s'.rest < t.work + tally Worker.work s.workers + s.rest := by
  have haside : Aside s s' → s'.rest = s.rest → tally Thread.work threads < t.work →
      tally Thread.work threads + tally Worker.work s'.workers + s'.rest < t.work + tally Worker.work s.workers + s.rest := by
    intro ha hrest hlt
    obtain ⟨_, _, _, _, _, _, rfl⟩ := ha
    simp only at hrest ⊢
    omega
  cases t with
  | pass i =>
    obtain ⟨⟨s₁, answer⟩, hh, he⟩ := Option.map_eq_some_iff.mp h
    have hrest := rest_handle hh (hv i rfl)
    cases answer <;> obtain ⟨rfl, rfl⟩ := Prod.mk.inj he <;> exact haside (aside_handle hh) hrest (by simp [Thread.work])
  | returned i result =>
    cases result <;> obtain ⟨rfl, rfl⟩ := Prod.mk.inj (Option.some.inj h)
    · exact haside (.refl s) rfl (by simp [Thread.work])
    · exact haside aside_complete rfl (by simp [Thread.work])
  | fetched i st =>
    obtain ⟨rfl, rfl⟩ := Prod.mk.inj (Option.some.inj h)
    exact haside aside_fetched rest_fetched (Nat.lt_succ_of_le fetched_work)
  | requeue i =>
    obtain ⟨rfl, rfl⟩ := Prod.mk.inj (Option.some.inj h)
    exact haside (.refl s) rfl (by split_ifs <;> simp [Thread.work])
  | refused i =>
    obtain ⟨rfl, rfl⟩ := Prod.mk.inj (Option.some.inj h)
    exact haside aside_refused rest_refused (by simp [Thread.work])
  | unparked i st =>
    simp only [thread] at h
    split_ifs at h <;> obtain ⟨rfl, rfl⟩ := Prod.mk.inj (Option.some.inj h)
    · exact haside (.refl s) rfl (by simp [Thread.work])
    · exact haside aside_complete rfl (by simp [Thread.work])
    · exact haside aside_complete rfl (by simp [Thread.work])
  | insert i posted =>
    obtain ⟨rfl, rfl⟩ := Prod.mk.inj (Option.some.inj h)
    simp only [insert, rest, setIrp, tally_singleton, Thread.work, List.length_append, List.length_singleton]
    omega
  | signal poster =>
    obtain ⟨s₁, hs, he⟩ := Option.map_eq_some_iff.mp h
    obtain ⟨rfl, hnew⟩ := Prod.mk.inj he
    have hthreads : tally Thread.work threads ≤ 1 := by
      rw [← hnew]
      cases poster <;> simp [Thread.work]
    unfold setWorkEvent at hs
    split_ifs at hs with hb hw
    · obtain rfl := Option.some.inj hs
      have hset : tally Worker.work (s.workers.set k.waiter .removing) + 0 = tally Worker.work s.workers + 2 := tally_set hw .removing
      simp only [rest, Thread.work] at hthreads ⊢
      omega
    · obtain rfl := Option.some.inj hs
      have hle := Bool.toNat_le s.workEvent
      simp only [rest, Thread.work, Bool.toNat_true] at hthreads ⊢
      omega
  | discard i =>
    obtain ⟨rfl, rfl⟩ := Prod.mk.inj (Option.some.inj h)
    exact haside (aside_discardContext.trans aside_complete) rest_discardContext (by simp [Thread.work])

/-- So does one of a worker. -/
theorem worker_work (hv : ∀ i, a = .running i → k.verdict.leaves = false) (h : s.worker k a = some (s', b)) :
    b.work + s'.rest < a.work + s.rest := by
  rcases worker_cases h with ⟨rfl, ⟨he, rfl, rfl⟩ | ⟨_, _, rfl, rfl⟩ | ⟨_, _, rfl, rfl⟩⟩ | ⟨rfl, _, rfl, rfl⟩ | ⟨i, irpQueue, rfl, hq, rfl, rfl⟩ |
    ⟨i, r, rfl, rfl, hh⟩ | ⟨i, r, rfl, rfl, rfl⟩
  · simp only [rest, he, Worker.work, Bool.toNat_true, Bool.toNat_false]
    omega
  · simp only [Worker.work]
    omega
  · simp only [Worker.work]
    omega
  · simp only [Worker.work]
    omega
  · simp only [rest, dispatch, setIrp, hq, Worker.work, List.length_cons]
    omega
  · rw [rest_handle hh (hv i rfl)]
    simp only [Worker.work]
    omega
  · cases r with
    | none => exact Nat.add_lt_add_right (by decide : 2 < 3) s.rest
    | some st => exact Nat.add_lt_add_right (by decide : 2 < 3) s.rest

theorem worker_threads (h : s.worker k a = some (s', b)) : s'.threads = s.threads := by
  rcases worker_cases h with ⟨_, ⟨_, _, rfl⟩ | ⟨_, _, _, rfl⟩ | ⟨_, _, _, rfl⟩⟩ | ⟨_, _, _, rfl⟩ | ⟨_, _, _, _, _, rfl⟩ | ⟨_, _, _, _, hh⟩ | ⟨_, r, _, _, rfl⟩
  · rfl
  · rfl
  · rfl
  · rfl
  · rfl
  · obtain ⟨_, _, _, _, _, _, rfl⟩ := aside_handle hh
    rfl
  · cases r <;> rfl

theorem work_next (hr : s.renews act = false) (h : s.next act = some s') : s'.work < s.work := by
  cases act with
  | arrive major stamp => cases hr
  | thread j k =>
    obtain ⟨t, hj, h⟩ := Option.bind_eq_some_iff.mp h
    obtain ⟨⟨s₁, threads⟩, ht, rfl⟩ := Option.map_eq_some_iff.mp h
    have hv : ∀ i, t = .pass i → k.verdict.leaves = false := by
      rintro i rfl
      simpa [renews, hj] using hr
    have hlt := thread_work hv ht
    show tally Thread.work (threads ++ s.threads.eraseIdx j) + tally Worker.work s₁.workers + s₁.rest < _
    rw [work, tally_append, tally_eraseIdx hj]
    omega
  | worker w k =>
    obtain ⟨a, hw, h⟩ := Option.bind_eq_some_iff.mp h
    obtain ⟨⟨s₁, b⟩, ht, rfl⟩ := Option.map_eq_some_iff.mp h
    have hv : ∀ i, a = .running i → k.verdict.leaves = false := by
      rintro i rfl
      simpa [renews, hw] using hr
    have hlt := worker_work hv ht
    have hset : tally Worker.work (s.workers.set w b) + a.work = tally Worker.work s.workers + b.work := tally_set hw b
    show tally Thread.work s₁.threads + tally Worker.work (s.workers.set w b) + s₁.rest < _
    rw [work, worker_threads ht]
    omega
  | fetchDone j st =>
    obtain ⟨i, hi, rfl⟩ := Option.map_eq_some_iff.mp h
    have hlt := (List.getElem?_eq_some_iff.mp hi).1
    have hlen := List.length_eraseIdx_of_lt hlt
    simp only [work, rest, tally_cons, Thread.work, hlen]
    omega
  | unpark j st =>
    obtain ⟨i, hi, rfl⟩ := Option.map_eq_some_iff.mp h
    have hlt := (List.getElem?_eq_some_iff.mp hi).1
    have hlen := List.length_eraseIdx_of_lt hlt
    simp only [work, rest, tally_cons, Thread.work, hlen]
    omega
  | cancel j =>
    obtain ⟨i, hi, rfl⟩ := Option.map_eq_some_iff.mp h
    have hlt := (List.getElem?_eq_some_iff.mp hi).1
    have hlen := List.length_eraseIdx_of_lt hlt
    simp only [work, rest, tally_cons, Thread.work, hlen]
    omega
  | stop =>
    simp only [next] at h
    split_ifs at h with hc
    obtain rfl := Option.some.inj h
    have hworkers : tally Worker.work (s.workers.map fun w => if w = .blocked then Worker.exited else w) = tally Worker.work s.workers := by
      rw [tally_map]
      apply tally_congr
      intro w _
      split_ifs with hb
      · rw [hb]
        rfl
      · rfl
    simp only [work, rest, hworkers, hc.1, Bool.toNat_true, Bool.toNat_false]
    omega
  | drain =>
    simp only [next] at h
    split_ifs at h
    split at h
    · cases h
    · rename_i i irpQueue hq
      obtain rfl := Option.some.inj h
      simp only [work, rest, tally_cons, Thread.work, hq, List.length_cons]
      omega

theorem length_le_work {acts : List Act} (h : run nextSteady s acts = some s') : acts.length + s'.work ≤ s.work := by
  induction acts generalizing s with
  | nil =>
    obtain rfl := Option.some.inj h
    exact Nat.le_of_eq (Nat.zero_add _)
  | cons act acts ih =>
    obtain ⟨s₁, hs, h⟩ := Option.bind_eq_some_iff.mp h
    unfold nextSteady at hs
    split_ifs at hs with hr
    have hlt := work_next (Bool.not_eq_true _ ▸ hr) hs
    have hle := ih h
    rw [List.length_cons]
    omega

theorem atRest_of (hthreads : s.threads = []) (hworkers : ∀ a ∈ s.workers, a = .blocked) (hparked : s.parked = []) (hfetches : s.fetches = [])
    (hactive : s.threadsActive = true) : s.AtRest := by
  intro act ha
  cases act with
  | arrive _ _ | cancel _ | stop => cases ha
  | thread j k => simp [next, hthreads]
  | worker w k =>
    rw [next]
    cases hw : s.workers[w]? with
    | none => rfl
    | some a =>
      rw [hworkers a (List.mem_of_getElem? hw)]
      rfl
  | fetchDone j st => simp [next, hfetches]
  | unpark j st => simp [next, hparked]
  | drain => simp [next, hactive]

end State

/-- In every state of every run no IRP has been completed twice or while it is queued, parked,
with a fetch or in any other hand, and no stash has been freed twice. When nobody has a step to
take every IRP has been completed and every stash freed; and as long as none comes, is parked or
fetched for, there are no more than `work` steps to that. -/
theorem completed_exactly_once (n : ℕ) (hn : 0 < n) (s : State) (h : (system n).Reachable s) :
    s.ExactlyOnce ∧ (s.AtRest → s.Settled) ∧ ∀ acts s', run State.nextSteady s acts = some s' → acts.length ≤ s.work := by
  refine ⟨(State.reachable_sound h).exactlyOnce, fun hr => hr.settled hn h, fun acts s' hrun => ?_⟩
  have hle := State.length_le_work hrun
  omega

/-- A create is posted, looked up, queued again with what was found and opened; then all eight
workers sleep. -/
theorem completed_exactly_once_create :
    ∃ s, (system 8).Reachable s ∧ s.completed = [(0, .success)] ∧ s.stashes = 1 ∧ s.AtRest ∧ s.ExactlyOnce ∧ s.Settled := by
  let post : Choice := ⟨.post none, true, 0⟩
  let fetch : Choice := ⟨.fetch none, true, 0⟩
  let finish : Choice := ⟨.finish .success, true, 0⟩
  have hrun : (run State.next (initial 8) ([.arrive .create 0, .thread 0 post, .thread 0 post, .thread 0 post, .thread 0 post,
      .worker 0 post, .worker 0 post, .worker 0 fetch, .worker 0 fetch, .fetchDone 0 .success,
      .thread 0 post, .thread 0 post, .thread 0 post, .thread 0 post,
      .worker 0 finish, .worker 0 finish, .worker 0 finish, .worker 0 finish, .worker 0 finish, .worker 0 finish] ++
      (List.range 8).map (.worker · finish))).any
      (fun s => decide (s.completed = [(0, .success)]) && decide (s.stashes = 1) && decide (s.threads = []) &&
        decide (∀ a ∈ s.workers, a = .blocked) && decide (s.parked = []) && decide (s.fetches = []) && s.threadsActive) = true := by decide +kernel
  obtain ⟨s, hs, hok⟩ := (Option.any_eq_true _ _).mp hrun
  have hnext : ∀ s act s', State.next s act = some s' → (system 8).step s s' := fun _ act _ h => ⟨act, h⟩
  have hreach : (system 8).Reachable s := System.Reachable.run hnext (.init rfl) hs
  simp only [Bool.and_eq_true, decide_eq_true_eq] at hok
  obtain ⟨⟨⟨⟨⟨⟨h1, h2⟩, h3⟩, h4⟩, h5⟩, h6⟩, h7⟩ := hok
  have hrest : s.AtRest := State.atRest_of h3 h4 h5 h6 h7
  obtain ⟨h8, h9, _⟩ := completed_exactly_once 8 (by decide) s hreach
  exact ⟨s, hreach, h1, h2, hrest, h8, h9 hrest⟩

end BlorgFS.Fsp
