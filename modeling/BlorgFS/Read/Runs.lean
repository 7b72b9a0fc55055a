import BlorgFS.Read.PartSteps

/-! Whole runs of the machine of the reads: a read arrives, a task takes a step, and
the flow and the account hold in every state reached. -/

namespace BlorgFS.Read

open Lib DiskCache Core Finset

variable {V : Setup} {c : Core} {t : Task} {tasks rest : List Task} {i r : ℕ} {ch : Choice} {s s' : State} {act : Act}

/-! ### Arrival -/

theorem Account.arrive {f : Fair} {n : ℕ} (h : Account V f n) (ha : (f.irps n).admitted = false) (hr : f.reserved n = 0) :
    Account V f (n + 1) := by
  have hreads : f.admittedReads (n + 1) = f.admittedReads n := by
    ext j
    rw [Fair.mem_admittedReads, Fair.mem_admittedReads]
    constructor
    · rintro ⟨hlt, hadm⟩
      have hne : j ≠ n := by
        rintro rfl
        rw [ha] at hadm
        cases hadm
      exact ⟨by omega, hadm⟩
    · rintro ⟨hlt, hadm⟩
      exact ⟨by omega, hadm⟩
  have hlent := h.lent n
  have hfetches := h.fetches
  refine ⟨by rw [hreads]; exact h.bytes, by rw [hreads]; exact h.nodes, ?_, h.limit, h.lent, h.underflow⟩
  rw [hreads, sum_range_succ, sum_range_succ, hr]
  omega

/-- A read that has not come yet is nobody's. -/
theorem Flow.unborn (h : Flow V c tasks) (hi : c.count ≤ i) : tally (Task.owns i) tasks = 0 ∧ c.held.count i = 0 ∧
    c.waiting.count i = 0 ∧ c.readsOwn i = 0 ∧ (c.irps i).completions = [] ∧ tally (Task.dispatches i) tasks = 0 ∧
    c.returned i = none := by
  have hown := h.owners i
  have hdisp := h.dispatchers i
  have hge : ¬ i < c.count := by omega
  rw [if_neg hge] at hown hdisp
  refine ⟨by omega, by omega, by omega, by omega, List.eq_nil_of_length_eq_zero (by omega), by omega, ?_⟩
  by_contra hne
  rw [if_neg hne] at hdisp
  omega

/-- The next read comes, and its thread goes on as `t`. -/
theorem Sound.arrive {returned : ℕ → Option Status} (h : Sound V c tasks) (ht : t.owner = some c.count)
    (hb : Bare { c with count := c.count + 1, returned := returned } t)
    (hret : ∀ j, j ≠ c.count → returned j = c.returned j)
    (hd : ∀ j, t.dispatches j + (if returned j = none then 0 else 1) =
      (if j = c.count then 1 else 0) + if c.returned j = none then 0 else 1)
    (hok : t.Ok V { c with count := c.count + 1, returned := returned }) :
    Sound V { c with count := c.count + 1, returned := returned } (t :: tasks) := by
  have hf := h.flow
  obtain ⟨hno, hheld, hwaiting, hreads, hnil, hnd, -⟩ := hf.unborn le_rfl
  have hblank := hf.blank c.count le_rfl
  have hold : ∀ j, j < c.count → KeepsReturned c { c with count := c.count + 1, returned := returned } j := fun j hj =>
    Or.inl (hret j (Nat.ne_of_lt hj))
  have hlt : ∀ t' ∈ tasks, ∀ j, t'.subject = some j → j < c.count := by
    intro t' ht' j hj
    have hown := hf.owners j
    by_contra hge
    obtain ⟨hzero, -, -, hread, -⟩ := hf.unborn (i := j) (by omega)
    have hne : t'.owner ≠ some j := fun he => by
      have hle := @le_tally _ (Task.owns j) tasks t' ht'
      have hone : t'.owns j = 1 := by simp [Task.owns, he]
      omega
    refine (hf.ok t' ht').subject_ne hne (fun q hq he => ?_) hj
    have := hf.one_le_readsOwn hq
    rw [he] at this
    omega
  have hlist : ∀ j, j ∈ c.held ∨ j ∈ c.waiting → j < c.count := fun j hj => (hf.apart_list hj).2.2.2.2
  refine ⟨⟨fun j => ?_, fun j => ?_, fun q => ?_, fun q => ?_, fun m => ?_, hf.itemCount, fun j => ?_, hf.readCount,
    fun t' ht' => ?_, fun j hj => ?_, fun q hq => ?_, hf.used, fun j hj => (hf.closed j hj).congr rfl, fun j x hx => ?_,
    fun j hj => ?_, hf.misuse⟩, h.account.arrive hblank.1 hblank.2.2.2⟩
  · have ho := hf.owners j
    have hone : t.owns j = if j = c.count then 1 else 0 := by simp [Task.owns, ht, eq_comm]
    rw [tally_cons, hone]
    show (if j = c.count then 1 else 0) + tally (Task.owns j) tasks + c.held.count j + c.waiting.count j + c.readsOwn j +
      (c.irps j).completions.length = if j < c.count + 1 then 1 else 0
    split at ho <;> split <;> split <;> omega
  · have ho := hf.dispatchers j
    have hdj := hd j
    rw [tally_cons]
    show t.dispatches j + tally (Task.dispatches j) tasks + (if returned j = none then 0 else 1) =
      if j < c.count + 1 then 1 else 0
    by_cases hj : j = c.count
    · subst hj
      rw [if_pos rfl] at hdj
      rw [if_neg (Nat.lt_irrefl _)] at ho
      rw [if_pos (Nat.lt_succ_self _)]
      omega
    · rw [if_neg hj] at hdj
      have hiff : j < c.count + 1 ↔ j < c.count := by omega
      rw [if_congr hiff rfl rfl]
      omega
  · have ho := hf.refs q
    have hzero : t.refs q = 0 := by simp [Task.refs, hb.uses]
    rw [tally_cons, hzero, Nat.zero_add]
    exact ho
  · rw [tally_cons, hb.issues, Nat.zero_add]
    exact hf.issuers q
  · have hzero : t.holds { c with count := c.count + 1, returned := returned } m = 0 := by simp [Task.holds, hb.workItem]
    have hsame : tally (Task.holds { c with count := c.count + 1, returned := returned } m) tasks =
        tally (Task.holds c m) tasks := tally_congr fun t' _ => Task.holds_congr fun _ _ => rfl
    rw [tally_cons, hzero, hsame, Nat.zero_add]
    exact hf.items m
  · have hsame : tally (Task.owes { c with count := c.count + 1, returned := returned } j) tasks =
        tally (Task.owes c j) tasks := tally_congr fun t' _ => Task.owes_congr fun _ _ => rfl
    rw [tally_cons, hb.owes, hsame, Nat.zero_add]
    exact hf.owed j
  · rcases List.mem_cons.mp ht' with rfl | ht'
    · exact hok
    · exact (hf.ok t' ht').congr (fun j hj => ⟨rfl, hold j (hlt t' ht' j hj)⟩) fun _ _ => rfl
  · obtain ⟨ho, ha, hit⟩ := hf.lists j hj
    exact ⟨ho.congr rfl (hold j (hlist j hj)), ha, hit⟩
  · have hlive := hf.one_le_readsOwn hq
    have hcount : (c.reads q).irp < c.count := by
      by_contra hge
      have := (hf.unborn (i := (c.reads q).irp) (by omega)).2.2.2.1
      omega
    exact (hf.reading q hq).congr rfl (hold _ hcount)
  · have hcount : j < c.count := by
      by_contra hge
      have hx' := (hf.unborn (i := j) (by omega)).2.2.2.2.1
      rw [hx'] at hx
      cases hx
    exact (hf.answers j x hx).congr (hold j hcount)
  · have hge : c.count + 1 ≤ j := hj
    exact hf.blank j (by omega)

theorem arrive_sound (h : Sound V s.core s.tasks) (ch : Choice) :
    Sound V (s.arrive V ch).core (s.arrive V ch).tasks := by
  have hblank := h.flow.blank s.core.count le_rfl
  have hnone := (h.flow.unborn le_rfl).2.2.2.2.2.2
  have hrefuse : ∀ status, status ≠ .pending → Sound V ({ s.core with count := s.core.count + 1 }.returns s.core.count status)
      (.complete s.core.count true status 0 :: s.tasks) := by
    intro status hne
    refine h.arrive rfl ⟨rfl, fun _ => rfl, rfl, fun _ => rfl⟩ (fun j hj => Function.update_of_ne hj _ _) (fun j => ?_)
      ⟨⟨hblank.1, hblank.2.1.trans hblank.2.2.1.symm, hblank.2.2.1.le.trans (Nat.zero_le _)⟩, ?_⟩
    · by_cases hj : j = s.core.count
      · subst hj
        simp [hnone, Task.dispatches, Task.dispatching, Task.locals]
      · simp [hj, Task.dispatches, Task.dispatching, Task.locals]
    · simp [Answers, hne]
  unfold State.arrive
  simp only
  split
  next => exact hrefuse _ (by simp)
  next valid _ =>
    split
    next =>
      refine @Sound.arrive V s.core (.offer ⟨s.core.count, .dispatcher, valid, 0⟩) s.tasks s.core.returned h rfl
        ⟨rfl, fun _ => rfl, rfl, fun _ => rfl⟩ (fun _ _ => rfl) (fun j => ?_) ⟨⟨Or.inl hnone, hblank.2.2.1, ?_⟩, hblank.1⟩
      · simp [Task.dispatches, Task.dispatching, Task.locals, eq_comm]
      · show (s.core.irps s.core.count).admissions = _
        rw [hblank.2.1, hblank.1]
        rfl
    next => exact hrefuse _ (by simp)

/-! ### Steps -/

theorem step_sound (h : Sound V c (t :: rest)) (ch : Choice) :
    Sound V (c.step V ch t).1 ((c.step V ch t).2 ++ rest) := by
  cases t with
  | offer k => exact offer_step h
  | admitFirst k => exact admitFirst_step h
  | allocate k => exact allocate_step h
  | admitAgain k item => exact admitAgain_step h
  | freeItem k item => exact freeItem_step h
  | reserve k => exact reserve_step h
  | attempt k reserved => exact attempt_step h
  | issue k extra r issued => exact issue_step h
  | surplus k reserved fetches => exact surplus_step h
  | declined k reserved => exact declined_step h
  | fetch k => exact fetch_step h
  | unissued k status => exact unissued_step h
  | complete i dispatcher status information => exact complete_step h
  | fetching i => exact fetching_step h
  | part r fetched length => exact part_step h
  | settleRead r => exact settleRead_step h
  | diskComplete i status valid fetches refetch => exact diskComplete_step h
  | diskSettle i status valid refetch => exact diskSettle_step h
  | issueHeld i => exact issueHeld_step h
  | worker i fromDiskCache => exact worker_step h

/-! ### No misuse -/

theorem Flow.completions_of_live (h : Flow V c tasks) (hr : (c.reads r).live = true) :
    (c.irps (c.reads r).irp).completions = [] := by
  have hone := h.one_le_readsOwn hr
  have hown := h.owners (c.reads r).irp
  exact List.eq_nil_of_length_eq_zero (by split at hown <;> omega)

/-- What a task touches is not completed. -/
theorem Flow.touches_open (h : Flow V c (t :: rest)) (ht : c.touches t = some i) : (c.irps i).completions = [] := by
  cases t with
  | issue k extra r issued =>
    have hi := (h.ok _ List.mem_cons_self).2.2
    rw [← Option.some.inj ht, ← hi.irp]
    exact h.completions_of_live hi.live
  | part r fetched length =>
    rw [← Option.some.inj ht]
    exact h.completions_of_live (h.live_of_uses (r := r) rfl)
  | surplus k reserved fetches => cases ht
  | settleRead r => cases ht
  | _ => exact (h.apart ht).completions

theorem Flow.not_misused (h : Flow V c (t :: rest)) : c.misused t = false := by
  have htouch : ((c.touches t).any fun i => (c.irps i).completions ≠ []) = false := by
    cases ht : c.touches t with
    | none => rfl
    | some i => simp [h.touches_open ht]
  have huse : ((uses t).any fun r => (c.reads r).live = false) = false := by
    cases ht : uses t with
    | none => rfl
    | some r => simp [h.live_of_uses ht]
  have hitem : ∀ i, (c.irps i).context2.workItem.isSome → t.workItem c = (c.irps i).context2.workItem →
      ∃ n, (c.irps i).context2 = .item n ∧ n ∈ c.items := by
    intro i hw hsame
    obtain ⟨n, hx⟩ := Context2.exists_item hw
    rw [hx] at hsame
    exact ⟨n, hx, h.mem_items hsame⟩
  have hok := h.ok t List.mem_cons_self
  unfold misused
  rw [htouch, huse, Bool.false_or, Bool.false_or]
  cases t with
  | freeItem k n => simpa using h.mem_items (t := .freeItem k n) rfl
  | issueHeld i =>
    obtain ⟨n, hx, hn⟩ := hitem i hok.2.2 rfl
    simp only [hx, hn, not_true_eq_false, decide_false]
  | worker i fromDiskCache =>
    obtain ⟨n, hx, hn⟩ := hitem i hok.2 rfl
    simp only [hx, hn, not_true_eq_false, decide_false]
  | fetching i => simpa using hok.2.2
  | _ => rfl

/-! ### Runs -/

theorem next_sound (h : Sound V s.core s.tasks) (hn : s.next V act = some s') : Sound V s'.core s'.tasks := by
  cases act with
  | arrive ch => exact Option.some.inj hn ▸ arrive_sound h ch
  | run t ch =>
    simp only [State.next] at hn
    split at hn
    next hm =>
      have hp := h.perm (List.perm_cons_erase hm)
      have hs := step_sound hp ch
      have hmis : (s.core.misuse || s.core.misused t) = (s.core.step V ch t).1.misuse := by
        rw [hs.flow.misuse, hp.flow.misuse, hp.flow.not_misused]
        rfl
      rw [← Option.some.inj hn]
      simp only [hmis]
      exact hs
    next => cases hn

theorem initial_sound : Sound V initial.core initial.tasks where
  flow := by
    refine ⟨fun i => ?_, fun i => ?_, fun r => ?_, fun r => ?_, fun n => ?_, fun n hn => ?_, fun i => ?_, fun r _ => rfl,
      fun t ht => ?_, fun i hi => ?_, fun r hr => ?_, fun r hr => ?_, fun i hi => ?_, fun i x hx => ?_,
      fun i _ => ⟨rfl, rfl, rfl, rfl⟩, rfl⟩
    · rfl
    · rfl
    · rfl
    · exact Nat.zero_le _
    · rfl
    · cases hn
    · rfl
    · cases ht
    · rcases hi with hi | hi <;> cases hi
    · cases hr
    · cases hr
    · exact absurd rfl hi
    · cases hx
  account := by
    refine ⟨rfl, fun node => ?_, rfl, Nat.zero_le _, fun _ => le_rfl, rfl⟩
    rfl

theorem reachable_sound (h : (system V).Reachable s) : Sound V s.core s.tasks := by
  refine System.invariant (P := fun s => Sound V s.core s.tasks) (fun s hs => ?_) (fun s s' _ hs hstep => ?_) h
  · rw [show s = initial from hs]
    exact initial_sound
  · obtain ⟨act, hn⟩ := hstep
    exact next_sound hs hn

theorem reachable_run {acts : List Act} (h : run (State.next V) initial acts = some s) : (system V).Reachable s := by
  have h0 : (system V).Reachable initial := .init rfl
  have hstep : ∀ s act s', State.next V s act = some s' → (system V).step s s' := fun _ act _ hn => ⟨act, hn⟩
  exact h0.run hstep h

/-! ### A run -/

/-- Demand reads of one file, four blocks each. -/
def oneFile : Setup where
  budgetKb := 4096
  request _ := ⟨0, 0, 4 * blockSize, false, by decide, by decide⟩
  budgetKb_le := by decide

/-- Everything goes well, and the cache pins `slots`. -/
def pinning (slots : List (Option ℕ)) : Choice := ⟨true, 2 ^ 20, some slots, true, 0, blockSize, true⟩

/-- A read the cache holds two of four blocks of, which reserves a fetch and is served
in four parts. -/
def halfHeld : List Act :=
  let k : Issue := ⟨0, .dispatcher, 4 * blockSize, 2⟩
  let ch := pinning [none, some 0, none, some 5]
  [.arrive ch, .run (.offer { k with runs := 0 }) ch, .run (.admitFirst k) ch, .run (.reserve k) ch,
    .run (.attempt k 1) ch, .run (.issue k (some 1) 0 0) ch, .run (.issue k (some 1) 0 blockSize) ch,
    .run (.issue k (some 1) 0 (2 * blockSize)) ch, .run (.issue k (some 1) 0 (3 * blockSize)) ch,
    .run (.part 0 true blockSize) ch, .run (.part 0 false blockSize) ch, .run (.part 0 true blockSize) ch,
    .run (.part 0 false blockSize) ch, .run (.settleRead 0) ch, .run (.settleRead 0) ch, .run (.settleRead 0) ch,
    .run (.settleRead 0) ch, .run (.settleRead 0) ch, .run (.diskComplete 0 .success (4 * blockSize) 2 false) ch,
    .run (.surplus k 1 2) ch, .run (.diskSettle 0 .success (4 * blockSize) false) ch,
    .run (.complete 0 false .success (4 * blockSize)) ch]

end BlorgFS.Read
