import BlorgFS.Fsp.Machine
import BlorgFS.Lib.WorkerPool

/-! The wake-ups of the pool. `WorkEvent` counts to one: a post that finds it signalled leaves
no trace, and of two posts made while two workers are on their way to sleep one may wait
behind a handler. When that can happen, and what holds when it does not. -/

namespace BlorgFS.Fsp

open Lib

/-! ### The pool, counted -/

/-- On its way to the wait. -/
def Worker.going : Worker → ℕ
  | waiting => 1
  | _ => 0

def Worker.asleep : Worker → ℕ
  | blocked => 1
  | _ => 0

/-- Woken, or done with an IRP, and about to look for the next. -/
def Worker.looking : Worker → ℕ
  | removing => 1
  | _ => 0

def Worker.working : Worker → ℕ
  | running _ | returned _ _ => 1
  | _ => 0

/-- Between its insert and its `KeSetEvent`. -/
def Thread.signalling : Thread → ℕ
  | signal _ => 1
  | _ => 0

namespace State

def pool (s : State) : WorkerPool where
  event := s.workEvent
  closed := s.terminationEvent
  queued := s.irpQueue.length
  posters := tally Thread.signalling s.threads
  going := tally Worker.going s.workers
  asleep := tally Worker.asleep s.workers
  looking := tally Worker.looking s.workers
  working := tally Worker.working s.workers

/-- No IRP is queued while a worker is blocked in the wait, unless `WorkEvent` is signalled, or
a poster is between its insert and its `KeSetEvent`, or a worker is about to remove an IRP. -/
def WorkConserved (s : State) : Prop :=
  s.irpQueue ≠ [] → .blocked ∈ s.workers →
    s.workEvent = true ∨ (∃ poster, .signal poster ∈ s.threads) ∨ .removing ∈ s.workers

/-- The step is a poster's `KeSetEvent`. -/
def signals (s : State) : Act → Bool
  | .thread j _ => s.threads[j]?.any fun t => decide (0 < t.signalling)
  | _ => false

/-- A `KeSetEvent` that finds `WorkEvent` signalled is spared when no more workers are on
their way to the wait than there are posters to signal, or when these posters and the workers
about to remove an IRP are as many as there are IRPs in the queue. -/
def Spared (s : State) (act : Act) : Prop := s.signals act = true → s.workEvent = true → s.pool.Spared

instance (s : State) (act : Act) : Decidable (s.Spared act) := inferInstanceAs (Decidable (_ → _ → _))

/-- Everything but the queue, the events, the workers and the threads. -/
def Aside (s s' : State) : Prop :=
  ∃ irps parked fetches stashes freed completed, s' = { s with irps, parked, fetches, stashes, freed, completed }

end State

/-- The runs in which every signal is spared. -/
def sparing (n : ℕ) : System State where
  init s := s = initial n
  step s s' := ∃ act, s.Spared act ∧ s.next act = some s'

variable {s s' s₁ : State} {k : Choice} {t : Thread} {threads : List Thread} {i j w n : ℕ} {st : Status} {act : Act} {a b : Worker}

namespace State

/-! ### What a step does to the pool -/

theorem Aside.refl (s : State) : Aside s s := ⟨_, _, _, _, _, _, rfl⟩

theorem Aside.trans (h : Aside s s₁) (h' : Aside s₁ s') : Aside s s' := by
  obtain ⟨_, _, _, _, _, _, rfl⟩ := h
  obtain ⟨_, _, _, _, _, _, rfl⟩ := h'
  exact ⟨_, _, _, _, _, _, rfl⟩

theorem aside_complete : Aside s (s.complete i st) := ⟨_, _, _, _, _, _, rfl⟩

theorem aside_freeContext : Aside s (s.freeContext i) := ⟨_, _, _, _, _, _, rfl⟩

theorem aside_discardContext : Aside s (s.discardContext i) := by
  unfold discardContext
  split_ifs
  · exact ⟨_, _, _, _, _, _, rfl⟩
  · exact .refl s

theorem aside_consume : Aside s (s.consume i) := by
  unfold consume
  split_ifs
  · exact aside_discardContext
  · exact .refl s

theorem aside_handle {v : Verdict} {answer : Answer} (h : s.handle i v = some (s', answer)) : Aside s s' := by
  have hc : Aside s (s.consume i) := aside_consume
  cases v with
  | finish st =>
    obtain ⟨rfl, _⟩ := Prod.mk.inj (Option.some.inj h)
    exact hc
  | post unlocked =>
    simp only [handle] at h
    split_ifs at h
    all_goals
      obtain ⟨rfl, _⟩ := Prod.mk.inj (Option.some.inj h)
      exact hc
  | park =>
    simp only [handle] at h
    split_ifs at h
    obtain ⟨rfl, _⟩ := Prod.mk.inj (Option.some.inj h)
    exact hc.trans ⟨_, _, _, _, _, _, rfl⟩
  | fetch refused =>
    simp only [handle] at h
    split_ifs at h
    cases refused with
    | some st =>
      obtain ⟨rfl, _⟩ := Prod.mk.inj (Option.some.inj h)
      exact hc
    | none =>
      obtain ⟨rfl, _⟩ := Prod.mk.inj (Option.some.inj h)
      exact hc.trans ⟨_, _, _, _, _, _, rfl⟩

theorem aside_fetched : Aside s (s.fetched i st k).1 := by
  unfold fetched
  split
  · exact aside_complete
  · split_ifs
    · exact ⟨_, _, _, _, _, _, rfl⟩
    · exact aside_complete
    · exact aside_complete
  · split_ifs
    · exact ⟨_, _, _, _, _, _, rfl⟩
    · exact aside_complete

theorem aside_refused : Aside s (s.refused i) := by
  unfold refused
  split_ifs
  · exact aside_freeContext.trans aside_complete
  · exact aside_complete

/-- What a step of a thread does to the pool: nothing, or it queues an IRP, or it signals. -/
theorem thread_cases (h : s.thread k t = some (s', threads)) :
    (t.signalling = 0 ∧ Aside s s' ∧ tally Thread.signalling threads = 0) ∨
    (∃ i, t.signalling = 0 ∧ Aside { s with irpQueue := s.irpQueue ++ [i] } s' ∧ tally Thread.signalling threads = 1) ∨
    (∃ poster, t = .signal poster ∧ s.setWorkEvent k = some s' ∧ tally Thread.signalling threads = 0) := by
  cases t with
  | pass i =>
    obtain ⟨⟨s₁, answer⟩, hh, he⟩ := Option.map_eq_some_iff.mp h
    left
    cases answer <;> obtain ⟨rfl, rfl⟩ := Prod.mk.inj he <;> exact ⟨rfl, aside_handle hh, rfl⟩
  | returned i result =>
    left
    cases result with
    | none =>
      obtain ⟨rfl, rfl⟩ := Prod.mk.inj (Option.some.inj h)
      exact ⟨rfl, .refl s, rfl⟩
    | some st =>
      obtain ⟨rfl, rfl⟩ := Prod.mk.inj (Option.some.inj h)
      exact ⟨rfl, aside_complete, rfl⟩
  | fetched i st =>
    left
    obtain ⟨h1, h2⟩ := Prod.mk.inj (Option.some.inj h)
    refine ⟨rfl, h1 ▸ aside_fetched, ?_⟩
    rw [← h2]
    split <;> (try split_ifs) <;> rfl
  | requeue i =>
    left
    obtain ⟨rfl, rfl⟩ := Prod.mk.inj (Option.some.inj h)
    refine ⟨rfl, .refl s, ?_⟩
    split_ifs <;> rfl
  | refused i =>
    left
    obtain ⟨rfl, rfl⟩ := Prod.mk.inj (Option.some.inj h)
    exact ⟨rfl, aside_refused, rfl⟩
  | unparked i st =>
    left
    simp only [thread] at h
    split_ifs at h
    · obtain ⟨rfl, rfl⟩ := Prod.mk.inj (Option.some.inj h)
      exact ⟨rfl, .refl s, rfl⟩
    · obtain ⟨rfl, rfl⟩ := Prod.mk.inj (Option.some.inj h)
      exact ⟨rfl, aside_complete, rfl⟩
    · obtain ⟨rfl, rfl⟩ := Prod.mk.inj (Option.some.inj h)
      exact ⟨rfl, aside_complete, rfl⟩
  | insert i posted =>
    right
    left
    obtain ⟨rfl, rfl⟩ := Prod.mk.inj (Option.some.inj h)
    exact ⟨i, rfl, ⟨_, _, _, _, _, _, rfl⟩, rfl⟩
  | signal poster =>
    right
    right
    obtain ⟨s₁, hs, he⟩ := Option.map_eq_some_iff.mp h
    obtain ⟨rfl, rfl⟩ := Prod.mk.inj he
    refine ⟨poster, rfl, hs, ?_⟩
    cases poster <;> rfl
  | discard i =>
    left
    obtain ⟨rfl, rfl⟩ := Prod.mk.inj (Option.some.inj h)
    exact ⟨rfl, aside_discardContext.trans aside_complete, rfl⟩

/-- What a step of a worker does to the pool. -/
theorem worker_cases (h : s.worker k a = some (s', b)) :
    (a = .waiting ∧ ((s.workEvent = true ∧ b = .removing ∧ s' = { s with workEvent := false }) ∨
      (s.workEvent = false ∧ s.terminationEvent = true ∧ b = .exited ∧ s' = s) ∨
      (s.workEvent = false ∧ s.terminationEvent = false ∧ b = .blocked ∧ s' = s))) ∨
    (a = .removing ∧ s.irpQueue = [] ∧ b = .waiting ∧ s' = s) ∨
    (∃ i irpQueue, a = .removing ∧ s.irpQueue = i :: irpQueue ∧ b = .running i ∧ s' = s.dispatch i irpQueue) ∨
    (∃ i r, a = .running i ∧ b = .returned i r ∧ s.handle i k.verdict = some (s', .result r)) ∨
    (∃ i r, a = .returned i r ∧ b = .removing ∧ s' = match r with | some st => s.complete i st | none => s) := by
  cases a with
  | waiting =>
    simp only [worker] at h
    split_ifs at h <;> obtain ⟨rfl, rfl⟩ := Prod.mk.inj (Option.some.inj h) <;> simp_all
  | blocked | exited => cases h
  | removing =>
    simp only [worker] at h
    split at h
    · rename_i hq
      obtain ⟨rfl, rfl⟩ := Prod.mk.inj (Option.some.inj h)
      exact .inr (.inl ⟨rfl, hq, rfl, rfl⟩)
    · rename_i i irpQueue hq
      obtain ⟨rfl, rfl⟩ := Prod.mk.inj (Option.some.inj h)
      exact .inr (.inr (.inl ⟨i, irpQueue, rfl, hq, rfl, rfl⟩))
  | running i =>
    obtain ⟨⟨s₁, answer⟩, hh, he⟩ := Option.bind_eq_some_iff.mp h
    cases answer with
    | insert => cases he
    | result r =>
      obtain ⟨rfl, rfl⟩ := Prod.mk.inj (Option.some.inj he)
      exact .inr (.inr (.inr (.inl ⟨i, r, rfl, rfl, hh⟩)))
  | returned i r =>
    right; right; right; right
    cases r <;> obtain ⟨rfl, rfl⟩ := Prod.mk.inj (Option.some.inj h) <;> exact ⟨i, _, rfl, rfl, rfl⟩

/-- The pool of a state with other threads. -/
theorem Aside.pool (h : Aside s s') (threads : List Thread) :
    { s' with threads }.pool = { s.pool with posters := tally Thread.signalling threads } := by
  obtain ⟨_, _, _, _, _, _, rfl⟩ := h
  rfl

theorem asleep_pos : 0 < s.pool.asleep ↔ .blocked ∈ s.workers := by
  constructor
  · intro h
    obtain ⟨a, ha, hpos⟩ := exists_of_tally_pos h
    cases a with
    | blocked => exact ha
    | _ => cases hpos
  · intro h
    exact le_tally (f := Worker.asleep) h

theorem looking_pos : 0 < s.pool.looking ↔ .removing ∈ s.workers := by
  constructor
  · intro h
    obtain ⟨a, ha, hpos⟩ := exists_of_tally_pos h
    cases a with
    | removing => exact ha
    | _ => cases hpos
  · intro h
    exact le_tally (f := Worker.looking) h

theorem posters_pos : 0 < s.pool.posters ↔ ∃ poster, .signal poster ∈ s.threads := by
  constructor
  · intro h
    obtain ⟨t, ht, hpos⟩ := exists_of_tally_pos h
    cases t with
    | signal poster => exact ⟨poster, ht⟩
    | _ => cases hpos
  · rintro ⟨poster, h⟩
    exact le_tally (f := Thread.signalling) h

theorem signals_iff : s.signals act = true ↔ ∃ j k poster, act = .thread j k ∧ s.threads[j]? = some (.signal poster) := by
  constructor
  · intro h
    cases act with
    | thread j k =>
      obtain ⟨t, hj, ht⟩ := (Option.any_eq_true _ _).mp h
      cases t with
      | signal poster => exact ⟨j, k, poster, rfl, hj⟩
      | _ => cases ht
    | _ => cases h
  · rintro ⟨j, k, poster, rfl, hj⟩
    rw [signals, hj]
    rfl

theorem queued_pos : 0 < s.pool.queued ↔ s.irpQueue ≠ [] := List.length_pos_iff

theorem conserved_iff : s.pool.Conserved ↔ s.WorkConserved := by
  rw [WorkerPool.Conserved, queued_pos, asleep_pos, posters_pos, looking_pos]
  rfl

theorem thread_pool (hj : s.threads[j]? = some t) (h : s.thread k t = some (s', threads)) :
    { s' with threads := threads ++ s.threads.eraseIdx j }.pool = s.pool ∨
    ∃ m, s.pool.next m = some { s' with threads := threads ++ s.threads.eraseIdx j }.pool ∧
      (m = .coalesce → (∃ poster, t = .signal poster) ∧ s.workEvent = true) := by
  have hposters : s.pool.posters = t.signalling + tally Thread.signalling (s.threads.eraseIdx j) := tally_eraseIdx hj
  rcases thread_cases h with ⟨h1, h2, h3⟩ | ⟨i, h1, h2, h3⟩ | ⟨poster, rfl, h2, h3⟩
  · left
    rw [h2.pool, tally_append, h3, ← h1, ← hposters]
  · refine .inr ⟨.insert, ?_, fun he => by cases he⟩
    rw [h2.pool, tally_append, h3, WorkerPool.next, hposters, h1]
    simp only [State.pool, List.length_append, List.length_singleton, Nat.zero_add, Nat.add_comm 1]
  · right
    have hpos : 0 < s.pool.posters := posters_pos.mpr ⟨poster, List.mem_of_getElem? hj⟩
    have hrest : tally Thread.signalling (threads ++ s.threads.eraseIdx j) = s.pool.posters - 1 := by
      rw [tally_append, h3, hposters]
      simp only [Thread.signalling]
      omega
    unfold setWorkEvent at h2
    split_ifs at h2 with hb hw
    · obtain rfl := Option.some.inj h2
      refine ⟨.rouse, ?_, fun he => by cases he⟩
      have hset : ∀ f : Worker → ℕ, tally f (s.workers.set k.waiter .removing) + f .blocked = tally f s.workers + f .removing :=
        fun f => tally_set hw .removing
      have h4 := hset Worker.going
      have h5 := hset Worker.asleep
      have h6 := hset Worker.looking
      have h7 := hset Worker.working
      simp only [Worker.going, Worker.asleep, Worker.looking, Worker.working, Nat.add_zero] at h4 h5 h6 h7
      rw [WorkerPool.next, if_pos ⟨hpos, asleep_pos.mpr hb⟩]
      simp only [State.pool] at hrest ⊢
      simp only [hrest, h4, h6, h7, ← h5, Nat.add_sub_cancel]
    · obtain rfl := Option.some.inj h2
      have ha : s.pool.asleep = 0 := by
        by_contra hne
        exact hb (asleep_pos.mp (by omega))
      cases he : s.workEvent with
      | false =>
        refine ⟨.remember, ?_, fun he => by cases he⟩
        rw [WorkerPool.next, if_pos ⟨hpos, ha, he⟩]
        simp only [State.pool] at hrest ⊢
        simp only [hrest]
      | true =>
        refine ⟨.coalesce, ?_, fun _ => ⟨⟨poster, rfl⟩, rfl⟩⟩
        rw [WorkerPool.next, if_pos ⟨hpos, ha, he⟩]
        simp only [State.pool] at hrest ⊢
        simp only [hrest, he]

theorem tally_workers (hw : s.workers[w]? = some a) (b : Worker) (f : Worker → ℕ) :
    tally f (s.workers.set w b) + f a = tally f s.workers + f b ∧ f a ≤ tally f s.workers :=
  ⟨tally_set hw b, le_tally (List.mem_of_getElem? hw)⟩

theorem wake_pool (hw : s.workers[w]? = some .waiting) (he : s.workEvent = true) :
    s.pool.next .wake = some { s with workEvent := false, workers := s.workers.set w .removing }.pool := by
  obtain ⟨h1, h2⟩ := tally_workers hw .removing Worker.going
  obtain ⟨h3, _⟩ := tally_workers hw .removing Worker.asleep
  obtain ⟨h4, _⟩ := tally_workers hw .removing Worker.looking
  obtain ⟨h5, _⟩ := tally_workers hw .removing Worker.working
  simp only [Worker.going, Worker.asleep, Worker.looking, Worker.working, Nat.add_zero] at h1 h2 h3 h4 h5
  rw [WorkerPool.next, if_pos ⟨h2, he⟩]
  simp only [State.pool, h3, h4, h5, ← h1, Nat.add_sub_cancel]

theorem leave_pool (hw : s.workers[w]? = some .waiting) (he : s.workEvent = false) (ht : s.terminationEvent = true) :
    s.pool.next .leave = some { s with workers := s.workers.set w .exited }.pool := by
  obtain ⟨h1, h2⟩ := tally_workers hw .exited Worker.going
  obtain ⟨h3, _⟩ := tally_workers hw .exited Worker.asleep
  obtain ⟨h4, _⟩ := tally_workers hw .exited Worker.looking
  obtain ⟨h5, _⟩ := tally_workers hw .exited Worker.working
  simp only [Worker.going, Worker.asleep, Worker.looking, Worker.working, Nat.add_zero] at h1 h2 h3 h4 h5
  rw [WorkerPool.next, if_pos ⟨h2, he, ht⟩]
  simp only [State.pool, h3, h4, h5, ← h1, Nat.add_sub_cancel]

theorem sleep_pool (hw : s.workers[w]? = some .waiting) (he : s.workEvent = false) (ht : s.terminationEvent = false) :
    s.pool.next .sleep = some { s with workers := s.workers.set w .blocked }.pool := by
  obtain ⟨h1, h2⟩ := tally_workers hw .blocked Worker.going
  obtain ⟨h3, _⟩ := tally_workers hw .blocked Worker.asleep
  obtain ⟨h4, _⟩ := tally_workers hw .blocked Worker.looking
  obtain ⟨h5, _⟩ := tally_workers hw .blocked Worker.working
  simp only [Worker.going, Worker.asleep, Worker.looking, Worker.working, Nat.add_zero] at h1 h2 h3 h4 h5
  rw [WorkerPool.next, if_pos ⟨h2, he, ht⟩]
  simp only [State.pool, h3, h4, h5, ← h1, Nat.add_sub_cancel]

theorem miss_pool (hw : s.workers[w]? = some .removing) (hq : s.irpQueue = []) :
    s.pool.next .miss = some { s with workers := s.workers.set w .waiting }.pool := by
  obtain ⟨h1, _⟩ := tally_workers hw .waiting Worker.going
  obtain ⟨h3, _⟩ := tally_workers hw .waiting Worker.asleep
  obtain ⟨h4, h2⟩ := tally_workers hw .waiting Worker.looking
  obtain ⟨h5, _⟩ := tally_workers hw .waiting Worker.working
  simp only [Worker.going, Worker.asleep, Worker.looking, Worker.working, Nat.add_zero] at h1 h2 h3 h4 h5
  have hlen : s.irpQueue.length = 0 := by rw [hq, List.length_nil]
  rw [WorkerPool.next, if_pos ⟨h2, hlen⟩]
  simp only [State.pool, h1, h3, h5, ← h4, Nat.add_sub_cancel]

theorem take_pool {irpQueue : List ℕ} (hw : s.workers[w]? = some .removing) (hq : s.irpQueue = i :: irpQueue) :
    s.pool.next .take = some { s.dispatch i irpQueue with workers := s.workers.set w (.running i) }.pool := by
  obtain ⟨h1, _⟩ := tally_workers hw (.running i) Worker.going
  obtain ⟨h3, _⟩ := tally_workers hw (.running i) Worker.asleep
  obtain ⟨h4, h2⟩ := tally_workers hw (.running i) Worker.looking
  obtain ⟨h5, _⟩ := tally_workers hw (.running i) Worker.working
  simp only [Worker.going, Worker.asleep, Worker.looking, Worker.working, Nat.add_zero] at h1 h2 h3 h4 h5
  have hlen : s.irpQueue.length = irpQueue.length + 1 := by rw [hq, List.length_cons]
  have hpos : 0 < s.pool.queued := by
    show 0 < s.irpQueue.length
    omega
  rw [WorkerPool.next, if_pos ⟨h2, hpos⟩]
  simp only [State.pool, dispatch, setIrp, h1, h3, h5, ← h4, hlen, Nat.add_sub_cancel]

theorem worker_pool (hw : s.workers[w]? = some a) (h : s.worker k a = some (s', b)) :
    { s' with workers := s.workers.set w b }.pool = s.pool ∨
    ∃ m, s.pool.next m = some { s' with workers := s.workers.set w b }.pool ∧ m ≠ .coalesce := by
  rcases worker_cases h with ⟨rfl, ⟨he, rfl, hs⟩ | ⟨he, ht, rfl, hs⟩ | ⟨he, ht, rfl, hs⟩⟩ | ⟨rfl, hq, rfl, hs⟩ | ⟨i, q, rfl, hq, rfl, hs⟩ |
    ⟨i, r, rfl, rfl, hh⟩ | ⟨i, r, rfl, rfl, hs⟩
  · rw [hs]
    exact .inr ⟨.wake, wake_pool hw he, nofun⟩
  · rw [hs]
    exact .inr ⟨.leave, leave_pool hw he ht, nofun⟩
  · rw [hs]
    exact .inr ⟨.sleep, sleep_pool hw he ht, nofun⟩
  · rw [hs]
    exact .inr ⟨.miss, miss_pool hw hq, nofun⟩
  · rw [hs]
    exact .inr ⟨.take, take_pool hw hq, nofun⟩
  · left
    obtain ⟨h1, _⟩ := tally_workers hw (.returned i r) Worker.going
    obtain ⟨h3, _⟩ := tally_workers hw (.returned i r) Worker.asleep
    obtain ⟨h4, _⟩ := tally_workers hw (.returned i r) Worker.looking
    obtain ⟨h5, _⟩ := tally_workers hw (.returned i r) Worker.working
    simp only [Worker.going, Worker.asleep, Worker.looking, Worker.working, Nat.add_zero, Nat.add_right_cancel_iff] at h1 h3 h4 h5
    obtain ⟨_, _, _, _, _, _, rfl⟩ := aside_handle hh
    simp only [State.pool, h1, h3, h4, h5]
  · refine .inr ⟨.finish, ?_, nofun⟩
    obtain ⟨h1, _⟩ := tally_workers hw .removing Worker.going
    obtain ⟨h3, _⟩ := tally_workers hw .removing Worker.asleep
    obtain ⟨h4, _⟩ := tally_workers hw .removing Worker.looking
    obtain ⟨h5, h2⟩ := tally_workers hw .removing Worker.working
    simp only [Worker.going, Worker.asleep, Worker.looking, Worker.working, Nat.add_zero] at h1 h2 h3 h4 h5
    have hpos : 0 < s.pool.working := h2
    have haside : Aside s s' := by
      rw [hs]
      cases r
      · exact .refl s
      · exact aside_complete
    obtain ⟨_, _, _, _, _, _, rfl⟩ := haside
    rw [WorkerPool.next, if_pos hpos]
    simp only [State.pool, h1, h3, h4, ← h5, Nat.add_sub_cancel]

/-- Every step is a move of the pool or leaves it alone, and only a signal that finds
`WorkEvent` signalled is missed. -/
theorem next_pool (h : s.next act = some s') :
    s'.pool = s.pool ∨ ∃ m, s.pool.next m = some s'.pool ∧
      (m = .coalesce → ∃ j k poster, act = .thread j k ∧ s.threads[j]? = some (.signal poster) ∧ s.workEvent = true) := by
  cases act with
  | arrive major stamp =>
    obtain rfl := Option.some.inj h
    left
    simp [pool, setIrp, Thread.signalling]
  | thread j k =>
    obtain ⟨t, hj, h⟩ := Option.bind_eq_some_iff.mp h
    obtain ⟨⟨s₁, threads⟩, ht, rfl⟩ := Option.map_eq_some_iff.mp h
    rcases thread_pool hj ht with hp | ⟨m, hm, hc⟩
    · exact .inl hp
    · refine .inr ⟨m, hm, fun he => ?_⟩
      obtain ⟨⟨poster, rfl⟩, hev⟩ := hc he
      exact ⟨j, k, poster, rfl, hj, hev⟩
  | worker w k =>
    obtain ⟨a, hw, h⟩ := Option.bind_eq_some_iff.mp h
    obtain ⟨⟨s₁, b⟩, ht, rfl⟩ := Option.map_eq_some_iff.mp h
    rcases worker_pool hw ht with hp | ⟨m, hm, hc⟩
    · exact .inl hp
    · exact .inr ⟨m, hm, fun he => absurd he hc⟩
  | fetchDone j st | unpark j st =>
    obtain ⟨i, _, rfl⟩ := Option.map_eq_some_iff.mp h
    left
    simp [pool, Thread.signalling]
  | cancel j =>
    obtain ⟨i, hi, rfl⟩ := Option.map_eq_some_iff.mp h
    obtain ⟨hlt, _⟩ := List.getElem?_eq_some_iff.mp hi
    refine .inr ⟨.withdraw, ?_, fun he => by cases he⟩
    rw [WorkerPool.next, if_pos (by simp only [pool]; omega)]
    simp only [pool, tally_cons, Thread.signalling, Nat.zero_add, List.length_eraseIdx_of_lt hlt]
  | stop =>
    simp only [next] at h
    split_ifs at h
    obtain rfl := Option.some.inj h
    refine .inr ⟨.close, ?_, fun he => by cases he⟩
    simp only [WorkerPool.next, pool, tally_map, Option.some.injEq, WorkerPool.mk.injEq, true_and]
    refine ⟨?_, ?_, ?_, ?_⟩
    · exact tally_congr fun a _ => by cases a <;> rfl
    · exact (tally_eq_zero fun a _ => by cases a <;> rfl).symm
    · exact tally_congr fun a _ => by cases a <;> rfl
    · exact tally_congr fun a _ => by cases a <;> rfl
  | drain =>
    simp only [next] at h
    split_ifs at h
    split at h
    · cases h
    · rename_i i irpQueue hq
      obtain rfl := Option.some.inj h
      refine .inr ⟨.withdraw, ?_, fun he => by cases he⟩
      rw [WorkerPool.next, if_pos (by simp only [pool, hq, List.length_cons]; omega)]
      simp only [pool, tally_cons, Thread.signalling, Nat.zero_add, hq, List.length_cons, Nat.add_sub_cancel]

/-! ### Every run -/

theorem initial_pool : (initial n).pool = ⟨false, false, 0, 0, n, 0, 0, 0⟩ := by
  have hrep : ∀ f : Worker → ℕ, tally f (List.replicate n .waiting) = n * f .waiting := by
    intro f
    simp [tally]
  simp only [pool, initial, hrep, tally_nil, List.length_nil, Worker.going, Worker.asleep, Worker.looking, Worker.working, Nat.mul_one, Nat.mul_zero]

theorem awake_initial : (initial n).pool.Awake := by
  rw [initial_pool]
  exact ⟨nofun, fun _ => rfl, nofun⟩

theorem covered_initial : (initial n).pool.Covered := by
  rw [initial_pool]
  exact fun _ _ => Nat.zero_le _

theorem awake_next (ha : s.pool.Awake) (h : s.next act = some s') : s'.pool.Awake := by
  rcases next_pool h with he | ⟨m, hm, _⟩
  · rwa [he]
  · exact ha.next hm

theorem covered_next (hc : s.pool.Covered) (ha : s.pool.Awake) (hs : s.Spared act) (h : s.next act = some s') : s'.pool.Covered := by
  rcases next_pool h with he | ⟨m, hm, hcoalesce⟩
  · rwa [he]
  · refine hc.next ha (fun he => ?_) hm
    obtain ⟨j, k, poster, rfl, hj, hev⟩ := hcoalesce he
    exact hs (signals_iff.mpr ⟨j, k, poster, rfl, hj⟩) hev

theorem reachable_awake (h : (system n).Reachable s) : s.pool.Awake := by
  apply System.invariant (P := fun s => s.pool.Awake) _ _ h
  · rintro _ rfl
    exact awake_initial
  · rintro s s' _ ha ⟨act, hn⟩
    exact awake_next ha hn

theorem sparing_covered (h : (sparing n).Reachable s) : s.pool.Awake ∧ s.pool.Covered := by
  apply System.invariant (P := fun s => s.pool.Awake ∧ s.pool.Covered) _ _ h
  · rintro _ rfl
    exact ⟨awake_initial, covered_initial⟩
  · rintro s s' _ ⟨ha, hc⟩ ⟨act, hs, hn⟩
    exact ⟨awake_next ha hn, covered_next hc ha hs hn⟩

/-! ### A signal that is missed -/

theorem exists_worker (f : Worker → ℕ) (h : 0 < tally f s.workers) : ∃ w : ℕ, ∃ a, s.workers[w]? = some a ∧ 0 < f a := by
  obtain ⟨a, ha, hf⟩ := exists_of_tally_pos h
  obtain ⟨w, hw⟩ := List.mem_iff_getElem?.mp ha
  exact ⟨w, a, hw, hf⟩

theorem next_worker (hw : s.workers[w]? = some a) (h : s.worker k a = some (s', b)) :
    s.next (.worker w k) = some { s' with workers := s.workers.set w b } := by
  rw [next, hw, Option.bind_some, h]
  rfl

theorem coalesce_pool {poster : Option ℕ} (k : Choice) (hj : s.threads[j]? = some (.signal poster)) (hb : .blocked ∉ s.workers) (he : s.workEvent = true) :
    ∃ threads, s.thread k (.signal poster) = some (s, threads) ∧
      s.pool.next .coalesce = some { s with threads := threads ++ s.threads.eraseIdx j }.pool := by
  have hset : s.setWorkEvent k = some s := by
    rw [setWorkEvent, if_neg hb, ← he]
  have hthread : ∃ threads, s.thread k (.signal poster) = some (s, threads) := by
    simp only [thread, hset]
    exact ⟨_, rfl⟩
  obtain ⟨threads, hthread⟩ := hthread
  refine ⟨threads, hthread, ?_⟩
  have hposters : s.pool.posters = 1 + tally Thread.signalling (s.threads.eraseIdx j) := tally_eraseIdx hj
  have hpos : 0 < s.pool.posters := posters_pos.mpr ⟨poster, List.mem_of_getElem? hj⟩
  have ha : s.pool.asleep = 0 := by
    by_contra hne
    exact hb (asleep_pos.mp (by omega))
  have hrest : tally Thread.signalling (threads ++ s.threads.eraseIdx j) = s.pool.posters - 1 := by
    rcases thread_cases hthread with ⟨h0, _⟩ | ⟨_, h0, _⟩ | ⟨_, _, _, h0⟩
    · cases h0
    · cases h0
    · rw [tally_append, h0]
      omega
  rw [WorkerPool.next, if_pos ⟨hpos, ha, he⟩]
  simp only [State.pool] at hrest ⊢
  rw [hrest]

/-- The moves that strand an IRP are steps. -/
theorem exists_next {m : WorkerPool.Move} {p : WorkerPool} (k : Choice) (hm : m = .take ∨ m = .coalesce ∨ m = .wake ∨ m = .sleep)
    (h : s.pool.next m = some p) : ∃ act s', s.next act = some s' ∧ s'.pool = p := by
  rcases hm with rfl | rfl | rfl | rfl
  · have hnext := h
    simp only [WorkerPool.next] at h
    split_ifs at h with hif
    obtain ⟨w, a, hw, hf⟩ := exists_worker _ hif.1
    cases a with
    | removing =>
      cases hq : s.irpQueue with
      | nil => exact absurd hq (queued_pos.mp hif.2)
      | cons i irpQueue =>
        have hworker : s.worker k .removing = some (s.dispatch i irpQueue, .running i) := by rw [worker, hq]
        refine ⟨_, _, next_worker hw hworker, ?_⟩
        exact Option.some.inj ((take_pool hw hq).symm.trans hnext)
    | _ => cases hf
  · have hnext := h
    simp only [WorkerPool.next] at h
    split_ifs at h with hif
    obtain ⟨hp, ha, he⟩ := hif
    obtain ⟨poster, hmem⟩ := posters_pos.mp hp
    obtain ⟨j, hj⟩ := List.mem_iff_getElem?.mp hmem
    have hb : .blocked ∉ s.workers := by
      intro hb
      have := asleep_pos.mpr hb
      omega
    obtain ⟨threads, hthread, hpool⟩ := coalesce_pool k hj hb he
    refine ⟨.thread j k, _, ?_, Option.some.inj (hpool.symm.trans hnext)⟩
    rw [next, hj, Option.bind_some, hthread]
    rfl
  · have hnext := h
    simp only [WorkerPool.next] at h
    split_ifs at h with hif
    obtain ⟨w, a, hw, hf⟩ := exists_worker _ hif.1
    cases a with
    | waiting =>
      have hworker : s.worker k .waiting = some ({ s with workEvent := false }, .removing) := if_pos hif.2
      refine ⟨_, _, next_worker hw hworker, ?_⟩
      exact Option.some.inj ((wake_pool hw hif.2).symm.trans hnext)
    | _ => cases hf
  · have hnext := h
    simp only [WorkerPool.next] at h
    split_ifs at h with hif
    obtain ⟨w, a, hw, hf⟩ := exists_worker _ hif.1
    cases a with
    | waiting =>
      have he : s.workEvent = false := hif.2.1
      have ht : s.terminationEvent = false := hif.2.2
      have hworker : s.worker k .waiting = some (s, .blocked) := by simp [worker, he, ht]
      refine ⟨_, _, next_worker hw hworker, ?_⟩
      exact Option.some.inj ((sleep_pool hw he ht).symm.trans hnext)
    | _ => cases hf

theorem exists_run (k : Choice) {moves : List WorkerPool.Move} {p : WorkerPool} (hm : ∀ m ∈ moves, m = .take ∨ m = .coalesce ∨ m = .wake ∨ m = .sleep)
    (h : run WorkerPool.next s.pool moves = some p) : ∃ s', Relation.ReflTransGen (system n).step s s' ∧ s'.pool = p := by
  induction moves generalizing s with
  | nil => exact ⟨s, .refl, Option.some.inj h⟩
  | cons m moves ih =>
    obtain ⟨p₁, hp, h⟩ := Option.bind_eq_some_iff.mp h
    obtain ⟨act, s₁, hs, rfl⟩ := exists_next k (hm m List.mem_cons_self) hp
    obtain ⟨s', hs', he⟩ := ih (fun m hmem => hm m (List.mem_cons_of_mem _ hmem)) h
    exact ⟨s', .head ⟨act, hs⟩ hs', he⟩

theorem strands_moves (p : WorkerPool) : ∀ m ∈ p.strands, m = .take ∨ m = .coalesce ∨ m = .wake ∨ m = .sleep := by
  intro m hm
  simp only [WorkerPool.strands, List.mem_append, List.mem_replicate, List.mem_cons, List.not_mem_nil, or_false] at hm
  rcases hm with ⟨_, rfl⟩ | ⟨_, rfl⟩ | rfl | rfl | rfl <;> simp

end State

/-- In every run in which every signal is spared no IRP waits behind a handler while a worker
sleeps; and from a state with a signal that is not some run leads to where one does. -/
theorem work_conserved (n : ℕ) :
    (∀ s, (sparing n).Reachable s → s.WorkConserved) ∧
    (∀ s act s', (system n).Reachable s → s.next act = some s' → ¬ s.Spared act →
      ∃ s'', Relation.ReflTransGen (system n).step s s'' ∧ ¬ s''.WorkConserved) := by
  constructor
  · intro s h
    obtain ⟨ha, hc⟩ := State.sparing_covered h
    exact State.conserved_iff.mp (hc.conserved ha)
  · intro s act s' h hnext hs
    have ha := State.reachable_awake h
    simp only [State.Spared, Classical.not_imp] at hs
    obtain ⟨hsignal, he, hs⟩ := hs
    obtain ⟨j, k, poster, rfl, hj⟩ := State.signals_iff.mp hsignal
    have hpos : 0 < s.pool.posters := State.posters_pos.mpr ⟨poster, List.mem_of_getElem? hj⟩
    obtain ⟨p, hrun, hp⟩ := WorkerPool.stranded he (ha.event he) hpos hs
    obtain ⟨s'', hreach, rfl⟩ := State.exists_run k (State.strands_moves _) hrun
    exact ⟨s'', hreach, fun hw => hp (State.conserved_iff.mpr hw)⟩

/-- One IRP is queued and about to be signalled while a worker sleeps. And where two posts are
made while all eight are on their way to the wait, the second is stranded. -/
theorem work_conserved_eight :
    (∃ s, (sparing 8).Reachable s ∧ s.irpQueue = [0] ∧ .blocked ∈ s.workers ∧ s.WorkConserved) ∧
    ∃ s s'', (system 8).Reachable s ∧ Relation.ReflTransGen (system 8).step s s'' ∧ ¬ s''.WorkConserved := by
  let k : Choice := ⟨.post none, true, 0⟩
  constructor
  · let next' (s : State) (act : Act) : Option State := if s.Spared act then s.next act else none
    have hrun : (run next' (initial 8) [.arrive .directoryControl 0, .worker 1 k, .thread 0 k, .thread 0 k]).any
        (fun s => decide (s.irpQueue = [0]) && decide (.blocked ∈ s.workers)) = true := by decide +kernel
    obtain ⟨s, hs, hok⟩ := (Option.any_eq_true _ _).mp hrun
    have hnext : ∀ s act s', next' s act = some s' → (sparing 8).step s s' := by
      intro s act s' h
      simp only [next'] at h
      split_ifs at h with hsp
      exact ⟨act, hsp, h⟩
    have hreach : (sparing 8).Reachable s := System.Reachable.run hnext (.init rfl) hs
    simp only [Bool.and_eq_true, decide_eq_true_eq] at hok
    exact ⟨s, hreach, hok.1, hok.2, (work_conserved 8).1 s hreach⟩
  · have hrun : (run State.next (initial 8)
        [.arrive .directoryControl 0, .arrive .directoryControl 0, .thread 0 k, .thread 1 k, .thread 0 k, .thread 1 k, .thread 0 k]).any
        (fun s => decide (¬ s.Spared (.thread 1 k)) && (s.next (.thread 1 k)).isSome) = true := by decide +kernel
    obtain ⟨s, hs, hok⟩ := (Option.any_eq_true _ _).mp hrun
    have hnext : ∀ s act s', State.next s act = some s' → (system 8).step s s' := fun _ act _ h => ⟨act, h⟩
    have hreach : (system 8).Reachable s := System.Reachable.run hnext (.init rfl) hs
    simp only [Bool.and_eq_true, decide_eq_true_eq] at hok
    obtain ⟨s', hs'⟩ := Option.isSome_iff_exists.mp hok.2
    obtain ⟨s'', h1, h2⟩ := (work_conserved 8).2 s (.thread 1 k) s' hreach hs' hok.1
    exact ⟨s, s'', hreach, h1, h2⟩

/-- Of two posts made while all eight workers are on their way to the wait, the second is
missed: the first IRP is with a handler, the second queued, and a worker asleep. -/
theorem work_stranded : ∃ s, (system 8).Reachable s ∧ ¬ s.WorkConserved := by
  let k : Choice := ⟨.post none, true, 0⟩
  have hrun : (run State.next (initial 8)
      [.arrive .directoryControl 0, .arrive .directoryControl 0, .thread 0 k, .thread 1 k, .thread 0 k, .thread 1 k, .thread 0 k, .thread 1 k,
        .worker 0 k, .worker 0 k, .worker 1 k]).any
      (fun s => decide (s.irpQueue ≠ []) && decide (.blocked ∈ s.workers) && !s.workEvent && decide (s.threads = [.returned 0 none, .returned 1 none]) &&
        decide (.removing ∉ s.workers)) = true := by decide +kernel
  obtain ⟨s, hs, hok⟩ := (Option.any_eq_true _ _).mp hrun
  have hnext : ∀ s act s', State.next s act = some s' → (system 8).step s s' := fun _ act _ h => ⟨act, h⟩
  refine ⟨s, System.Reachable.run hnext (.init rfl) hs, fun hw => ?_⟩
  simp only [Bool.and_eq_true, decide_eq_true_eq, Bool.not_eq_true'] at hok
  obtain ⟨⟨⟨⟨h1, h2⟩, h3⟩, h4⟩, h5⟩ := hok
  rcases hw h1 h2 with h | ⟨poster, h⟩ | h
  · rw [h3] at h
    cases h
  · rw [h4] at h
    simp at h
  · exact h5 h

end BlorgFS.Fsp
