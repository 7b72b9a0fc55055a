import BlorgFS.Teardown.Steps
import Mathlib.Data.List.Perm.Basic

/-! Runs of the disk cache from its initialization to the end of its cleanup. -/

namespace BlorgFS.Teardown.State

open Lib DiskCache CacheFile

variable {s s' : State} {job : Job} {rest new : List Job} {ch : Choice} {r : ℕ}

/-! ### Runs -/

theorem step_inv (h : s.Inv (job :: rest)) (ch : Choice) : (s.step ch job).1.Inv ((s.step ch job).2 ++ rest) := by
  cases job with
  | enter who => exact enter_inv h
  | count who => exact count_inv h
  | recheck who => exact recheck_inv h
  | uncount who => exact uncount_inv h
  | leave after => exact leave_inv h
  | setIdle => exact setIdle_inv h
  | allocate => exact allocate_inv h
  | pin r => exact pin_inv h
  | plan r => exact plan_inv h
  | drop r => exact drop_inv h
  | issue r first => exact issue_inv h
  | reading r => exact reading_inv h
  | readDone r ok => exact readDone_inv h
  | fetching r => exact fetching_inv h
  | settle r => exact settle_inv h
  | loop f => exact loop_inv h
  | charged f total => exact charged_inv h
  | uncharge entered after => exact uncharge_inv h
  | reserve f => exact reserve_inv h
  | copy f => exact copy_inv h
  | giveUp f => exact giveUp_inv h
  | queueFill f fill => exact queueFill_inv h
  | startWorker f => exact startWorker_inv h
  | countWorker f => exact countWorker_inv h
  | queueWorker f => exact queueWorker_inv h
  | abandonAll f => exact abandonAll_inv h
  | worker => exact worker_inv h
  | writing fill => exact writing_inv h
  | fillDone fill written => exact fillDone_inv h
  | settleFill fill written => exact settleFill_inv h
  | unchargeFill fill => exact unchargeFill_inv h

/-- A caller that holds nothing yet. -/
theorem Inv.arrive (h : s.Inv rest) (hnew : Holding none 0 [job]) : s.Inv (job :: rest) := by
  have hzero : ∀ f : Job → ℕ, tally f [job] = 0 → tally f (job :: rest) = tally f rest := by
    intro f hf
    rw [tally_cons, tally_nil, Nat.add_zero] at hf
    rw [tally_cons, hf, Nat.zero_add]
  have hwork : s.work (job :: rest) = s.work rest := by rw [work, work, hzero _ hnew.works]
  refine ⟨?_, ?_, fun r => ?_, h.fresh, fun j hj r hr => ?_, ?_, h.asleep, ?_, fun i => ?_, fun i => ?_, h.stopped,
    fun hq => ?_, h.closed, h.sound⟩
  · rw [hwork, hzero _ hnew.enters]
    exact h.busy
  · rw [hzero _ hnew.charges]
    exact h.bytes
  · rw [hzero _ (hnew.uses r)]
    exact h.users r
  · rcases List.mem_cons.mp hj with rfl | hj
    · rw [hnew.alone _ List.mem_cons_self] at hr
      cases hr
    · exact h.alone j hj r hr
  · rw [hzero _ hnew.tends]
    exact h.tended
  · rw [hzero _ hnew.starts]
    exact h.starting
  · rw [hzero _ (hnew.carries i)]
    exact h.commits i
  · rw [hzero _ (hnew.carries i), hzero _ (hnew.finishes i)]
    exact h.uncharges i
  · rw [hzero _ hnew.sets] at hq
    exact ⟨(h.quiet hq).dropped, hwork ▸ (h.quiet hq).work⟩

/-- The list of jobs an invariant is about need not be the state's own. -/
theorem Inv.withJobs (h : s.Inv rest) (jobs : List Job) : ({ s with jobs := jobs } : State).Inv rest :=
  ⟨h.busy, h.bytes, h.users, h.fresh, h.alone, h.tended, h.asleep, h.starting, h.commits, h.uncharges, h.stopped,
    fun hq => ⟨(h.quiet hq).dropped, (h.quiet hq).work⟩, h.closed, h.sound⟩

theorem Inv.setsIdle (h : s.Inv rest) (hzero : s.busy = 0) : s.Inv (.setIdle :: rest) := by
  have hbusy := h.busy
  rw [hzero] at hbusy
  have hone : ∀ f : Job → ℕ, f .setIdle = 0 → tally f (.setIdle :: rest) = tally f rest := by
    intro f hf
    rw [tally_cons, hf, Nat.zero_add]
  have hwork : s.work (.setIdle :: rest) = s.work rest := by rw [work, work, hone _ rfl]
  refine ⟨?_, ?_, fun r => ?_, h.fresh, fun j hj r hr => ?_, ?_, h.asleep, ?_, fun i => ?_, fun i => ?_, h.stopped,
    fun _ => ?_, h.closed, h.sound⟩
  · rw [hwork, hone _ rfl]
    exact h.busy
  · rw [hone _ rfl]
    exact h.bytes
  · rw [hone _ rfl]
    exact h.users r
  · rcases List.mem_cons.mp hj with rfl | hj
    · cases hr
    · exact h.alone j hj r hr
  · rw [hone _ rfl]
    exact h.tended
  · rw [hone _ rfl]
    exact h.starting
  · rw [hone _ rfl]
    exact h.commits i
  · rw [hone _ rfl, hone _ rfl]
    exact h.uncharges i
  · constructor
    · intro hc
      rw [if_pos hc] at hbusy
      omega
    · rw [hwork]
      split at hbusy <;> omega

theorem cleanup_inv (h : s.Inv s.jobs) (hs : s.cleanup = some s') : s'.Inv s'.jobs := by
  unfold State.cleanup at hs
  cases hphase : s.phase with
  | notYet =>
    simp only [hphase] at hs
    cases hs
    have hcounted : s.counted := Or.inl hphase
    have hbusy : s.busy = s.work s.jobs + tally Job.enters s.jobs +
        if ({ s with live := false, phase := .cleared } : State).counted then 1 else 0 := by
      have := h.busy
      rw [if_pos hcounted] at this
      rw [if_pos (by simp [counted]), this]
    exact ⟨hbusy, h.bytes, h.users, h.fresh, h.alone, h.tended, h.asleep, h.starting, h.commits, h.uncharges,
      fun _ => rfl, fun hq => absurd hcounted (h.quiet hq).dropped, (fun he => by cases he), h.sound⟩
  | cleared =>
    simp only [hphase] at hs
    cases hs
    have hcounted : s.counted := Or.inr hphase
    have hbusy : s.busy - 1 = s.work s.jobs + tally Job.enters s.jobs +
        if ({ s with busy := s.busy - 1, phase := .waiting } : State).counted then 1 else 0 := by
      have := h.busy
      rw [if_pos hcounted] at this
      rw [if_neg (by simp [counted]), this]
      ring
    have hwait : ({ s with busy := s.busy - 1, phase := .waiting } : State).Inv s.jobs :=
      ⟨hbusy, h.bytes, h.users, h.fresh, h.alone, h.tended, h.asleep, h.starting, h.commits, h.uncharges,
        fun _ => h.stopped (by simp [hphase]), fun hq => absurd hcounted (h.quiet hq).dropped, (fun he => by cases he), h.sound⟩
    by_cases hzero : s.busy - 1 = 0
    · simp only [State.dropBusy, hzero, if_true]
      rw [hzero] at hwait
      exact (hwait.setsIdle rfl).withJobs _
    · simp only [State.dropBusy, hzero, if_false]
      exact hwait.withJobs _
  | waiting =>
    simp only [hphase] at hs
    split at hs
    next hidle =>
      cases hs
      have hquiet := h.quiet (Or.inl hidle)
      have hbusy : s.busy = s.work s.jobs + tally Job.enters s.jobs +
          if ({ s with phase := .closed } : State).counted then 1 else 0 := by
        have := h.busy
        rw [if_neg hquiet.dropped] at this
        rw [if_neg (by simp [counted]), this]
      exact ⟨hbusy, h.bytes, h.users, h.fresh, h.alone, h.tended, h.asleep, h.starting, h.commits, h.uncharges,
        fun _ => h.stopped (by simp [hphase]), fun _ => ⟨by simp [counted], hquiet.work⟩, fun _ => hidle, h.sound⟩
    next => cases hs
  | closed =>
    simp only [hphase] at hs
    cases hs

theorem next_inv {act : Act} (h : s.Inv s.jobs) (hs : s.next act = some s') : s'.Inv s'.jobs := by
  cases act with
  | read =>
    cases hs
    split
    · have hnew : Holding none 0 [.enter .read] :=
        ⟨rfl, rfl, rfl, fun _ => rfl, rfl, rfl, fun _ => rfl, fun _ => rfl, rfl, by simp [Job.alone]⟩
      exact (h.arrive hnew).withJobs _
    · exact h
  | offer f =>
    cases hs
    split
    · exact (h.arrive (after_holding (.loop { f with reader := none }))).withJobs _
    · exact h
  | cleanup => exact cleanup_inv h hs
  | run n ch =>
    obtain ⟨job, hjob, hs⟩ := Option.bind_eq_some_iff.mp hs
    cases hs
    obtain ⟨hn, rfl⟩ := List.getElem?_eq_some_iff.mp hjob
    have hperm := (List.getElem_cons_eraseIdx_perm hn).symm
    exact (step_inv (h.perm hperm) ch).withJobs _

theorem initial_inv : initial.Inv initial.jobs := by
  refine ⟨rfl, rfl, fun _ => rfl, fun _ _ => rfl, fun _ hj => absurd hj List.not_mem_nil, rfl, fun _ => rfl,
    fun hne => absurd rfl hne, fun _ => rfl, fun _ => rfl, fun hp => absurd rfl hp, fun hq => ?_, nofun, rfl⟩
  rcases hq with hq | hq
  · cases hq
  · exact absurd rfl hq

theorem reachable_inv (h : system.Reachable s) : s.Inv s.jobs := by
  refine System.invariant (P := fun s => s.Inv s.jobs) (fun s hi => ?_) (fun s s' _ hinv hstep => ?_) h
  · rw [show s = initial from hi]
    exact initial_inv
  · obtain ⟨act, hnext⟩ := hstep
    exact next_inv hinv hnext

/-! ### Teardown -/

/-- In every interleaving of reads, fills, the fill worker, lost files and one cleanup:
`Idle` is set, and so cleanup's wait over, only when no read, fill or worker is
outstanding, and none of them touches the index or the file once they are closed; `Busy`
is the work outstanding, the callers that count themselves before they look at `Live`
again, and one until cleanup drops it; a queue that is not empty has its worker, or the
caller that is to start it or to give the queue up; each fill is committed and uncharged
once, or still on its way there; and `FillBytes` is a block for each fill charged. -/
theorem teardown (h : system.Reachable s) :
    (s.idle = true → s.work s.jobs = 0) ∧ (s.phase = .closed → s.idle = true) ∧ s.misused = false ∧
    s.busy = s.work s.jobs + tally Job.enters s.jobs + (if s.counted then 1 else 0) ∧
    (s.queue ≠ [] → ∃ job ∈ s.jobs, job.tends = 1) ∧
    (∀ i < s.fills, s.committed i + (tally (Job.carries i) s.jobs + s.queue.count i) = 1 ∧
      s.uncharged i + tally (Job.finishes i) s.jobs + (tally (Job.carries i) s.jobs + s.queue.count i) = 1) ∧
    (s.jobs = [] → ∀ i < s.fills, s.committed i = 1 ∧ s.uncharged i = 1) ∧
    s.fillBytes = blockSize * ((tally Job.charges s.jobs + s.queue.length : ℕ) : ℤ) := by
  have hi := reachable_inv h
  refine ⟨fun hidle => (hi.quiet (Or.inl hidle)).work, hi.closed, hi.sound, hi.busy, fun hq => ?_, fun i hlt => ?_,
    fun hdone i hlt => ?_, hi.bytes⟩
  · have hw : s.workerQueued = true := by
      by_contra hw
      exact hq (hi.asleep (by simpa using hw))
    have ht := hi.tended
    rw [if_pos hw] at ht
    by_contra hnone
    rw [tally_eq_zero] at ht
    · cases ht
    · intro job hj
      have hne : job.tends ≠ 1 := fun h1 => hnone ⟨job, hj, h1⟩
      cases job <;> simp only [Job.tends] at hne ⊢
      all_goals exact absurd rfl hne
  · have h1 := hi.commits i
    have h2 := hi.uncharges i
    rw [if_pos hlt] at h1 h2
    exact ⟨h1, h2⟩
  · have hqueue : s.queue = [] := by
      apply hi.asleep
      have ht := hi.tended
      rw [hdone, tally_nil] at ht
      by_contra hw
      rw [if_pos (by simpa using hw)] at ht
      cases ht
    have h1 := hi.commits i
    have h2 := hi.uncharges i
    rw [if_pos hlt, hdone, hqueue] at h1 h2
    exact ⟨h1, h2⟩

/-- One block is offered and copied, its worker queued; cleanup begins, the worker finds
the cache off, and the last count out lets cleanup go on. -/
def offeredThenClosed : List Act :=
  let run n : Act := .run n ⟨true, true, true, none⟩
  .offer ⟨⟨1, 2, blockSize, 7, 0⟩, fun _ => 7, 0, blockSize, none⟩ :: List.replicate 11 (run 0) ++
    [run 1, .cleanup, .cleanup] ++ List.replicate 7 (run 0) ++ [.cleanup]

theorem teardown_offeredThenClosed : ∃ s, run State.next initial offeredThenClosed = some s ∧ s.phase = .closed ∧
    s.fills = 1 ∧ s.misused = false ∧ s.work s.jobs = 0 ∧ s.committed 0 = 1 ∧ s.uncharged 0 = 1 := by
  have hsome : (run State.next initial offeredThenClosed).isSome := by decide +kernel
  obtain ⟨s, hs⟩ := Option.isSome_iff_exists.mp hsome
  have hst : ((run State.next initial offeredThenClosed).map fun s => (s.phase, s.fills, s.jobs.isEmpty)) =
      some (.closed, 1, true) := by decide +kernel
  rw [hs, Option.map_some, Option.some.injEq, Prod.mk.injEq, Prod.mk.injEq] at hst
  obtain ⟨hphase, hfills, hjobs⟩ := hst
  have hinit : system.Reachable initial := System.Reachable.init rfl
  have hnext : ∀ s act s', State.next s act = some s' → system.step s s' := fun _ act _ hn => ⟨act, hn⟩
  have hreach : system.Reachable s := hinit.run hnext hs
  obtain ⟨hidle, hclosed, hsound, -, -, -, hdone, -⟩ := teardown hreach
  have hsettled := hdone (List.isEmpty_iff.mp hjobs) 0 (by omega)
  exact ⟨s, hs, hphase, hfills, hsound, hidle (hclosed hphase), hsettled⟩

end BlorgFS.Teardown.State
