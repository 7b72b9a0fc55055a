import BlorgFS.Teardown.Machine
import Mathlib.Algebra.Order.BigOperators.Group.Finset
import Mathlib.Tactic.Linarith

/-! What the disk cache's counts count. `Busy` is the work outstanding, the callers
looking at `Live` a second time and one until cleanup drops it; once it has been zero
nothing that holds a count is left, and nothing that would can start. -/

namespace BlorgFS.Teardown

open Lib DiskCache CacheFile

/-! ### What a job holds -/

def Caller.reader : Caller → Option ℕ
  | .read => none
  | .fill f => f.reader

def After.reader : After → Option ℕ
  | .nothing => none
  | .settle r => some r
  | .loop f => f.reader

namespace Job

/-- The read a job has a hold on. -/
def reader : Job → Option ℕ
  | .enter who | .count who | .recheck who | .uncount who => who.reader
  | .leave after | .uncharge _ after => after.reader
  | .pin r | .plan r | .drop r | .issue r _ | .reading r | .readDone r _ | .fetching r | .settle r => some r
  | .loop f | .charged f _ | .reserve f | .copy f | .giveUp f | .queueFill f _ => f.reader
  | .startWorker f | .countWorker f | .queueWorker f | .abandonAll f => f.reader
  | .setIdle | .allocate | .worker | .writing _ | .fillDone _ _ | .settleFill _ _ | .unchargeFill _ => none

def uses (r : ℕ) (job : Job) : ℕ := if job.reader = some r then 1 else 0

/-- The read's own thread, before any part is in flight. -/
def alone : Job → Option ℕ
  | .pin r | .plan r | .drop r | .issue r true => some r
  | _ => none

/-- Work counted in `Busy`, reads apart: a fill from its admission on, the worker, and
whoever is about to leave. -/
def works : Job → ℕ
  | .leave _ | .allocate | .uncharge true _ | .reserve _ | .copy _ | .giveUp _ | .queueFill _ _ => 1
  | .queueWorker _ | .worker | .writing _ | .fillDone _ _ | .settleFill _ _ | .unchargeFill _ => 1
  | _ => 0

/-- Counted, but not yet known to be let in. -/
def enters : Job → ℕ
  | .recheck _ | .uncount _ => 1
  | _ => 0

/-- A block charged to the backlog. -/
def charges : Job → ℕ
  | .enter (.fill _) | .count (.fill _) | .recheck (.fill _) | .uncount (.fill _) | .charged _ _ | .uncharge _ _ => 1
  | .reserve _ | .copy _ | .giveUp _ | .queueFill _ _ | .writing _ | .fillDone _ _ | .settleFill _ _ => 1
  | .unchargeFill _ => 1
  | _ => 0

/-- The worker, or a caller that is still to start it or to give the queue up. -/
def tends : Job → ℕ
  | .startWorker _ | .countWorker _ | .queueWorker _ | .abandonAll _ | .worker => 1
  | _ => 0

/-- Of those, a caller before the worker is counted. -/
def starts : Job → ℕ
  | .startWorker _ | .countWorker _ | .abandonAll _ => 1
  | _ => 0

/-- A fill not yet committed, the queue apart. -/
def carries (i : ℕ) : Job → ℕ
  | .queueFill _ fill | .writing fill | .fillDone fill _ | .settleFill fill _ => if fill = i then 1 else 0
  | _ => 0

/-- A fill committed and not yet uncharged. -/
def finishes (i : ℕ) : Job → ℕ
  | .unchargeFill fill => if fill = i then 1 else 0
  | _ => 0

def sets : Job → ℕ
  | .setIdle => 1
  | _ => 0

end Job

namespace State

/-- Reads begun and not freed. -/
def openReads (s : State) : ℕ := ∑ r ∈ Finset.range s.reads, if 0 < s.outstanding r then 1 else 0

/-- Reads, fills and workers outstanding. -/
def work (s : State) (jobs : List Job) : ℕ := tally Job.works jobs + s.queue.length + s.openReads

/-- Cleanup has not dropped its count. -/
def counted (s : State) : Prop := s.phase = .notYet ∨ s.phase = .cleared

instance (s : State) : Decidable s.counted := inferInstanceAs (Decidable (_ ∨ _))

/-- Nothing counted is left, and nothing more is let in. -/
structure Quiet (s : State) (jobs : List Job) : Prop where
  dropped : ¬ s.counted
  work : s.work jobs = 0

structure Inv (s : State) (jobs : List Job) : Prop where
  busy : s.busy = s.work jobs + tally Job.enters jobs + if s.counted then 1 else 0
  bytes : s.fillBytes = blockSize * ((tally Job.charges jobs + s.queue.length : ℕ) : ℤ)
  users : ∀ r, (tally (Job.uses r) jobs : ℤ) = s.outstanding r
  fresh : ∀ r, s.reads ≤ r → s.outstanding r = 0
  alone : ∀ job ∈ jobs, ∀ r, job.alone = some r → s.outstanding r = 1
  tended : tally Job.tends jobs = if s.workerQueued then 1 else 0
  asleep : s.workerQueued = false → s.queue = []
  starting : tally Job.starts jobs ≠ 0 → s.queue ≠ []
  commits : ∀ i, s.committed i + (tally (Job.carries i) jobs + s.queue.count i) = if i < s.fills then 1 else 0
  uncharges : ∀ i, s.uncharged i + tally (Job.finishes i) jobs + (tally (Job.carries i) jobs + s.queue.count i) =
    if i < s.fills then 1 else 0
  stopped : s.phase ≠ .notYet → s.live = false
  quiet : s.idle = true ∨ tally Job.sets jobs ≠ 0 → s.Quiet jobs
  closed : s.phase = .closed → s.idle = true
  sound : s.misused = false

variable {s s' : State} {job : Job} {rest new : List Job} {ch : Choice} {r : ℕ}

theorem Inv.perm {jobs jobs' : List Job} (h : s.Inv jobs) (hp : jobs.Perm jobs') : s.Inv jobs' := by
  have ht : ∀ f : Job → ℕ, tally f jobs = tally f jobs' := fun f => tally_perm hp
  have hw : s.work jobs = s.work jobs' := by rw [State.work, State.work, ht]
  refine ⟨?_, ?_, fun r => ?_, h.fresh, fun j hj => ?_, ?_, h.asleep, ?_, fun i => ?_, fun i => ?_, h.stopped,
    fun hq => ?_, h.closed, h.sound⟩
  · rw [← hw, ← ht]
    exact h.busy
  · rw [← ht]
    exact h.bytes
  · rw [← ht]
    exact h.users r
  · exact h.alone j (hp.mem_iff.mpr hj)
  · rw [← ht]
    exact h.tended
  · rw [← ht]
    exact h.starting
  · rw [← ht]
    exact h.commits i
  · rw [← ht, ← ht]
    exact h.uncharges i
  · rw [← ht] at hq
    exact ⟨(h.quiet hq).dropped, hw ▸ (h.quiet hq).work⟩

/-! ### Who may still be at work -/

theorem openReads_pos (hr : r < s.reads) (ho : 0 < s.outstanding r) : 0 < s.openReads := by
  have hle := Finset.single_le_sum (f := fun r => if 0 < s.outstanding r then 1 else 0) (fun _ _ => Nat.zero_le _)
    (Finset.mem_range.mpr hr)
  simp only [ho, if_true] at hle
  exact hle

theorem Inv.outstanding_pos (h : s.Inv (job :: rest)) (hr : job.reader = some r) : 1 ≤ s.outstanding r := by
  have hu := h.users r
  rw [tally_cons, Job.uses, if_pos hr] at hu
  push_cast at hu
  omega

theorem Inv.lt_reads (h : s.Inv (job :: rest)) (hr : job.reader = some r) : r < s.reads := by
  have hpos := h.outstanding_pos hr
  by_contra hge
  have := h.fresh r (by omega)
  omega

theorem Inv.work_pos (h : s.Inv (job :: rest)) (hj : job.works ≠ 0 ∨ job.reader ≠ none) : s.work (job :: rest) ≠ 0 := by
  rw [State.work, tally_cons]
  rcases hj with hj | hj
  · omega
  · obtain ⟨r, hr⟩ := Option.ne_none_iff_exists'.mp hj
    have := openReads_pos (h.lt_reads hr) (by have := h.outstanding_pos hr; omega)
    omega

/-- Whoever holds a count finds the index and the file still there. -/
theorem Inv.touch_eq (h : s.Inv (job :: rest)) (hj : job.works ≠ 0 ∨ job.reader ≠ none) : s.touch = s := by
  have hopen : s.phase ≠ .closed := by
    intro hc
    exact h.work_pos hj (h.quiet (Or.inl (h.closed hc))).work
  unfold State.touch
  simp [hopen]

/-! ### Exchanging a job -/

/-- A job done and others in its place, each count moved by as much as what it counts. -/
theorem Inv.exchange (h : s.Inv (job :: rest)) (hphase : s'.phase = s.phase)
    (hbusy : s'.busy + (job.works + job.enters + s.queue.length + s.openReads : ℕ) =
      s.busy + (tally Job.works new + tally Job.enters new + s'.queue.length + s'.openReads : ℕ))
    (hbytes : s'.fillBytes + blockSize * (job.charges + s.queue.length : ℕ) =
      s.fillBytes + blockSize * (tally Job.charges new + s'.queue.length : ℕ))
    (husers : ∀ r, s'.outstanding r + job.uses r = s.outstanding r + tally (Job.uses r) new)
    (hfresh : ∀ r, s'.reads ≤ r → s'.outstanding r = 0)
    (halone : ∀ j ∈ new, ∀ r, j.alone = some r → s'.outstanding r = 1)
    (hrest : ∀ j ∈ rest, ∀ r, j.alone = some r → s'.outstanding r = 1)
    (htended : tally Job.tends new + (if s.workerQueued then 1 else 0) = job.tends + if s'.workerQueued then 1 else 0)
    (hasleep : s'.workerQueued = false → s'.queue = [])
    (hstarting : tally Job.starts (new ++ rest) ≠ 0 → s'.queue ≠ [])
    (hcommits : ∀ i, s'.committed i + (tally (Job.carries i) new + s'.queue.count i) + (if i < s.fills then 1 else 0) =
      s.committed i + (job.carries i + s.queue.count i) + if i < s'.fills then 1 else 0)
    (huncharges : ∀ i, s'.uncharged i + tally (Job.finishes i) new + (tally (Job.carries i) new + s'.queue.count i) +
        (if i < s.fills then 1 else 0) =
      s.uncharged i + job.finishes i + (job.carries i + s.queue.count i) + if i < s'.fills then 1 else 0)
    (hlive : s'.live = true → s.live = true)
    (hidle : s'.idle = true → s.idle = true ∨ job.sets ≠ 0) (hkept : s.idle = true → s'.idle = true)
    (hsets : tally Job.sets new ≠ 0 → s'.busy = 0)
    (hquiet : s.live = false → s.work (job :: rest) = 0 →
      tally Job.works new + s'.queue.length + s'.openReads ≤ job.works + s.queue.length + s.openReads)
    (hsound : s'.misused = s.misused) : s'.Inv (new ++ rest) := by
  have hcounted : s'.counted ↔ s.counted := by rw [counted, counted, hphase]
  have hb : s'.busy = s'.work (new ++ rest) + tally Job.enters (new ++ rest) + if s'.counted then 1 else 0 := by
    have := h.busy
    simp only [work, tally_cons] at this
    simp only [work, tally_append, hcounted]
    push_cast at this hbusy ⊢
    omega
  refine ⟨hb, ?_, fun r => ?_, hfresh, fun j hj r hr => ?_, ?_, hasleep, hstarting, fun i => ?_, fun i => ?_,
    fun hp => ?_, fun hq => ?_, fun hc => ?_, hsound.trans h.sound⟩
  · have := h.bytes
    rw [tally_cons] at this
    rw [tally_append]
    push_cast at this hbytes ⊢
    linarith
  · have h1 := h.users r
    have h2 := husers r
    rw [tally_cons] at h1
    rw [tally_append]
    push_cast at h1 ⊢
    omega
  · rcases List.mem_append.mp hj with hj | hj
    · exact halone j hj r hr
    · exact hrest j hj r hr
  · have := h.tended
    rw [tally_cons] at this
    rw [tally_append]
    omega
  · have h1 := h.commits i
    have h2 := hcommits i
    rw [tally_cons] at h1
    rw [tally_append]
    omega
  · have h1 := h.uncharges i
    have h2 := huncharges i
    rw [tally_cons, tally_cons] at h1
    rw [tally_append, tally_append]
    omega
  · rw [hphase] at hp
    have := h.stopped hp
    cases hl : s'.live with
    | false => rfl
    | true =>
      rw [hlive hl] at this
      cases this
  · -- Either it was quiet before, and nothing has begun since, or `Busy` is zero now.
    have hcase : s.Quiet (job :: rest) ∨ s'.busy = 0 := by
      rw [tally_append] at hq
      by_cases hz : tally Job.sets new = 0
      · refine Or.inl (h.quiet ?_)
        rw [tally_cons]
        rcases hq with hq | hq
        · rcases hidle hq with hi | hi
          · exact Or.inl hi
          · exact Or.inr (by omega)
        · exact Or.inr (by omega)
      · exact Or.inr (hsets hz)
    rcases hcase with hold | hzero
    · have hstop := h.stopped fun hp => hold.dropped (Or.inl hp)
      refine ⟨hcounted.not.mpr hold.dropped, ?_⟩
      have h1 := hold.work
      have h2 := hquiet hstop h1
      simp only [work, tally_cons] at h1
      simp only [work, tally_append]
      omega
    · rw [hzero] at hb
      constructor
      · intro hc
        rw [if_pos hc] at hb
        omega
      · split at hb <;> omega
  · rw [hphase] at hc
    exact hkept (h.closed hc)

/-- The jobs in a job's place hold what it held. -/
structure Like (job : Job) (new : List Job) : Prop where
  works : tally Job.works new = job.works
  enters : tally Job.enters new = job.enters
  charges : tally Job.charges new = job.charges
  uses : ∀ r, tally (Job.uses r) new = job.uses r
  tends : tally Job.tends new = job.tends
  starts : tally Job.starts new ≤ job.starts
  carries : ∀ i, tally (Job.carries i) new = job.carries i
  finishes : ∀ i, tally (Job.finishes i) new = job.finishes i
  sets : tally Job.sets new = 0
  alone : ∀ j ∈ new, ∀ r, j.alone = some r → job.alone = some r

theorem Inv.starting_append (h : s.Inv (job :: rest)) (hle : tally Job.starts new ≤ job.starts)
    (hne : tally Job.starts (new ++ rest) ≠ 0) : s.queue ≠ [] := by
  apply h.starting
  rw [tally_append] at hne
  rw [tally_cons]
  omega

theorem Inv.alone_rest (h : s.Inv (job :: rest)) : ∀ j ∈ rest, ∀ r, j.alone = some r → s.outstanding r = 1 :=
  fun j hj => h.alone j (List.mem_cons_of_mem _ hj)

/-- A job moved on, and at most `Live` was cleared. -/
theorem Inv.move (h : s.Inv (job :: rest)) (hl : Like job new) (live : Bool) (hlive : live = true → s.live = true) :
    ({ s with live := live } : State).Inv (new ++ rest) := by
  refine h.exchange rfl ?_ ?_ (fun r => ?_) h.fresh (fun j hj r hr => ?_) h.alone_rest ?_ h.asleep
    (h.starting_append hl.starts) (fun i => ?_) (fun i => ?_) hlive Or.inl id (fun hne => absurd hl.sets hne)
    (fun _ _ => ?_) rfl
  · rw [hl.works, hl.enters]
    rfl
  · rw [hl.charges]
  · rw [hl.uses]
  · exact h.alone job List.mem_cons_self r (hl.alone j hj r hr)
  · rw [hl.tends, Nat.add_comm]
  · rw [hl.carries]
  · rw [hl.carries, hl.finishes]
  · rw [hl.works]
    exact Nat.le_refl _

theorem Inv.moved (h : s.Inv (job :: rest)) (hl : Like job new) : s.Inv (new ++ rest) := h.move hl s.live id

/-- One job in another's place. -/
theorem like_one {job' : Job} (hworks : job'.works = job.works) (henters : job'.enters = job.enters)
    (hcharges : job'.charges = job.charges) (hreader : job'.reader = job.reader) (htends : job'.tends = job.tends)
    (hstarts : job'.starts ≤ job.starts) (hcarries : ∀ i, job'.carries i = job.carries i)
    (hfinishes : ∀ i, job'.finishes i = job.finishes i) (hsets : job'.sets = 0)
    (halone : ∀ r, job'.alone = some r → job.alone = some r) : Like job [job'] where
  works := by simpa using hworks
  enters := by simpa using henters
  charges := by simpa using hcharges
  uses r := by simp [Job.uses, hreader]
  tends := by simpa using htends
  starts := by simpa using hstarts
  carries i := by simpa using hcarries i
  finishes i := by simpa using hfinishes i
  sets := by simpa using hsets
  alone j hj r hr := by
    rw [List.mem_singleton.mp hj] at hr
    exact halone r hr

theorem done_reader (f : Filler) : (done f).reader = f.reader := by
  unfold done
  cases f.reader <;> rfl

/-- What a thread does next has only its hold on a read and what it has charged. -/
structure Holding (reader : Option ℕ) (charge : ℕ) (new : List Job) : Prop where
  works : tally Job.works new = 0
  enters : tally Job.enters new = 0
  charges : tally Job.charges new = charge
  uses : ∀ r, tally (Job.uses r) new = if reader = some r then 1 else 0
  tends : tally Job.tends new = 0
  starts : tally Job.starts new = 0
  carries : ∀ i, tally (Job.carries i) new = 0
  finishes : ∀ i, tally (Job.finishes i) new = 0
  sets : tally Job.sets new = 0
  alone : ∀ j ∈ new, j.alone = none

theorem after_holding (after : After) : Holding after.reader 0 after.jobs := by
  cases after with
  | nothing =>
    exact ⟨rfl, rfl, rfl, fun _ => rfl, rfl, rfl, fun _ => rfl, fun _ => rfl, rfl, by simp [After.jobs]⟩
  | settle r =>
    exact ⟨rfl, rfl, rfl, fun _ => rfl, rfl, rfl, fun _ => rfl, fun _ => rfl, rfl, by simp [After.jobs, Job.alone]⟩
  | loop f =>
    exact ⟨rfl, rfl, rfl, fun _ => rfl, rfl, rfl, fun _ => rfl, fun _ => rfl, rfl, by simp [After.jobs, Job.alone]⟩

theorem nothing_holding : Holding none 0 [] :=
  ⟨rfl, rfl, rfl, fun _ => rfl, rfl, rfl, fun _ => rfl, fun _ => rfl, rfl, by simp⟩

/-- A job that had only its hold on a read. -/
theorem Holding.like {reader : Option ℕ} (h : Holding reader 0 new) (hreader : job.reader = reader) (hworks : job.works = 0) (henters : job.enters = 0)
    (hcharges : job.charges = 0) (htends : job.tends = 0) (hcarries : ∀ i, job.carries i = 0)
    (hfinishes : ∀ i, job.finishes i = 0) : Like job new where
  works := h.works.trans hworks.symm
  enters := h.enters.trans henters.symm
  charges := h.charges.trans hcharges.symm
  uses r := by
    rw [h.uses, Job.uses, hreader]
  tends := h.tends.trans htends.symm
  starts := h.starts.trans_le (Nat.zero_le _)
  carries i := (h.carries i).trans (hcarries i).symm
  finishes i := (h.finishes i).trans (hfinishes i).symm
  sets := h.sets
  alone j hj r hr := by
    rw [h.alone j hj] at hr
    cases hr

end State

end BlorgFS.Teardown
