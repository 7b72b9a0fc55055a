import BlorgFS.Lib.Transition
import Mathlib.Tactic.Common
import Mathlib.Data.Nat.Notation

/-! A pool of workers that sleep on an auto-reset event, counted. A poster puts an item in the
queue and then signals; a signal lets one sleeper go, or is remembered if there is none, and
only one is remembered. A worker that has been let go takes items until the queue is empty and
goes to sleep again, unless the event is signalled. Whether items can wait while a worker
sleeps depends on the signals that are not remembered. -/

namespace BlorgFS.Lib

/-- The event and whether the pool is closing; the items, the posters that have yet to signal,
and the workers on their way to sleep, asleep, about to look at the queue, and with an item. -/
structure WorkerPool where
  event : Bool
  closed : Bool
  queued : ℕ
  posters : ℕ
  going : ℕ
  asleep : ℕ
  looking : ℕ
  working : ℕ
  deriving DecidableEq, Repr

namespace WorkerPool

inductive Move where
  | insert
  /-- A signal lets a sleeper go. -/
  | rouse
  /-- A signal is remembered. -/
  | remember
  /-- A signal finds one remembered. -/
  | coalesce
  | wake
  | sleep
  | leave
  | take
  | miss
  | finish
  | withdraw
  | close
  deriving DecidableEq, Repr

def next (p : WorkerPool) : Move → Option WorkerPool
  | .insert => some { p with queued := p.queued + 1, posters := p.posters + 1 }
  | .rouse =>
    if 0 < p.posters ∧ 0 < p.asleep then some { p with posters := p.posters - 1, asleep := p.asleep - 1, looking := p.looking + 1 } else none
  | .remember =>
    if 0 < p.posters ∧ p.asleep = 0 ∧ p.event = false then some { p with posters := p.posters - 1, event := true } else none
  | .coalesce =>
    if 0 < p.posters ∧ p.asleep = 0 ∧ p.event = true then some { p with posters := p.posters - 1 } else none
  | .wake =>
    if 0 < p.going ∧ p.event = true then some { p with going := p.going - 1, event := false, looking := p.looking + 1 } else none
  | .sleep =>
    if 0 < p.going ∧ p.event = false ∧ p.closed = false then some { p with going := p.going - 1, asleep := p.asleep + 1 } else none
  | .leave => if 0 < p.going ∧ p.event = false ∧ p.closed = true then some { p with going := p.going - 1 } else none
  | .take =>
    if 0 < p.looking ∧ 0 < p.queued then some { p with looking := p.looking - 1, queued := p.queued - 1, working := p.working + 1 } else none
  | .miss => if 0 < p.looking ∧ p.queued = 0 then some { p with looking := p.looking - 1, going := p.going + 1 } else none
  | .finish => if 0 < p.working then some { p with working := p.working - 1, looking := p.looking + 1 } else none
  | .withdraw => if 0 < p.queued then some { p with queued := p.queued - 1 } else none
  | .close => some { p with closed := true, asleep := 0 }

/-- No item waits while a worker sleeps and nothing is about to wake it. -/
def Conserved (p : WorkerPool) : Prop := 0 < p.queued → 0 < p.asleep → p.event = true ∨ 0 < p.posters ∨ 0 < p.looking

/-- A signal that is not remembered is not missed: no more workers are on their way to sleep
than there are posters, or the posters and the workers about to look are enough for the queue. -/
def Spared (p : WorkerPool) : Prop := p.closed = true ∨ p.going ≤ p.posters ∨ p.queued ≤ p.posters + p.looking

instance (p : WorkerPool) : Decidable p.Spared := inferInstanceAs (Decidable (_ ∨ _ ∨ _))

/-- The event is remembered only while nobody sleeps, nobody sleeps in a pool that is closing,
and items are attended to. -/
structure Awake (p : WorkerPool) : Prop where
  event : p.event = true → p.asleep = 0
  closed : p.closed = true → p.asleep = 0
  queue : 0 < p.queued → p.event = true ∨ 0 < p.posters ∨ 0 < p.looking + p.working ∨ p.closed = true

/-- While more workers are idle than are about to be woken, every item has a wake-up. -/
def Covered (p : WorkerPool) : Prop :=
  p.closed = false → p.posters + p.event.toNat < p.going + p.asleep → p.queued ≤ p.posters + p.event.toNat + p.looking

variable {p p' : WorkerPool} {m : Move}

theorem Covered.conserved (h : Covered p) (ha : Awake p) : Conserved p := by
  intro hq hs
  by_contra hn
  simp only [not_or, Bool.not_eq_true, Nat.not_lt, Nat.le_zero] at hn
  obtain ⟨he, hp, hl⟩ := hn
  cases hc : p.closed with
  | true =>
    have := ha.closed hc
    omega
  | false =>
    have hcov := h hc
    rw [he, hp, hl] at hcov
    simp only [Bool.toNat_false] at hcov
    omega

theorem Awake.next (ha : Awake p) (h : p.next m = some p') : Awake p' := by
  obtain ⟨h1, h2, h3⟩ := ha
  cases m <;> simp only [WorkerPool.next] at h <;> (try split_ifs at h) <;> obtain rfl := Option.some.inj h <;> constructor <;> grind -ring -linarith

theorem Covered.next (hc : Covered p) (ha : Awake p) (hm : m = .coalesce → p.Spared) (h : p.next m = some p') : Covered p' := by
  intro hclosed hlt
  have hev := ha.event
  cases m with
  | coalesce =>
    simp only [WorkerPool.next] at h
    split_ifs at h with hif
    obtain rfl := Option.some.inj h
    obtain ⟨h1, h2, h3⟩ := hif
    simp only [h3, Bool.toNat_true] at hlt ⊢
    rcases hm rfl with hs | hs | hs
    · rw [hs] at hclosed
      cases hclosed
    · omega
    · omega
  | close =>
    obtain rfl := Option.some.inj h
    cases hclosed
  | rouse | wake | remember | sleep | leave | take | miss | finish | withdraw | insert =>
    have hcov := hc
    simp only [WorkerPool.next] at h
    (try split_ifs at h)
    all_goals
      obtain rfl := Option.some.inj h
      unfold Covered at hcov
      grind -ring -linarith

/-! ### A signal that is missed -/

theorem run_take {k : ℕ} (hl : k ≤ p.looking) (hq : k ≤ p.queued) :
    run next p (List.replicate k .take) = some { p with looking := p.looking - k, queued := p.queued - k, working := p.working + k } := by
  induction k generalizing p with
  | zero => rfl
  | succ k ih =>
    have hnext : p.next .take = some { p with looking := p.looking - 1, queued := p.queued - 1, working := p.working + 1 } :=
      if_pos ⟨by omega, by omega⟩
    rw [List.replicate_succ, run, hnext, Option.bind_some, ih (by simp only; omega) (by simp only; omega)]
    simp only [Option.some.injEq, mk.injEq, true_and]
    omega

theorem run_coalesce {k : ℕ} (he : p.event = true) (ha : p.asleep = 0) (hk : k ≤ p.posters) :
    run next p (List.replicate k .coalesce) = some { p with posters := p.posters - k } := by
  induction k generalizing p with
  | zero => rfl
  | succ k ih =>
    have hnext : p.next .coalesce = some { p with posters := p.posters - 1 } := if_pos ⟨by omega, ha, he⟩
    rw [List.replicate_succ, run, hnext, Option.bind_some]
    have hrest := ih (p := { p with posters := p.posters - 1 }) he ha (by simp only; omega)
    rw [hrest]
    simp only [Nat.sub_sub, Nat.add_comm 1 k]

/-- What strands an item: those that look take one each, every poster finds the event
signalled, one worker is woken by it and takes one more, and the next goes to sleep. -/
def strands (p : WorkerPool) : List Move :=
  List.replicate p.looking .take ++ (List.replicate p.posters .coalesce ++ [.wake, .take, .sleep])

theorem stranded (he : p.event = true) (ha : p.asleep = 0) (hp : 0 < p.posters) (hs : ¬ p.Spared) :
    ∃ p', run next p p.strands = some p' ∧ ¬ p'.Conserved := by
  simp only [Spared, not_or, Nat.not_le, Bool.not_eq_true] at hs
  obtain ⟨hc, hg, hq⟩ := hs
  have htake := run_take (p := p) (Nat.le_refl _) (by omega)
  have hcoalesce := run_coalesce (p := { p with looking := p.looking - p.looking, queued := p.queued - p.looking, working := p.working + p.looking })
    he ha (Nat.le_refl _)
  rw [strands, run_append, htake, Option.bind_some, run_append, hcoalesce, Option.bind_some]
  have h1 : 0 < p.going := by omega
  have h2 : 0 < p.queued - p.looking := by omega
  have h3 : 0 < p.going - 1 := by omega
  refine ⟨⟨false, p.closed, p.queued - p.looking - 1, 0, p.going - 1 - 1, 1, 0, p.working + p.looking + 1⟩, ?_, ?_⟩
  · simp [run, next, he, ha, hc, h1, h2, h3]
  · intro hcons
    have := hcons (by simp only; omega) Nat.one_pos
    simp at this

end WorkerPool

end BlorgFS.Lib
