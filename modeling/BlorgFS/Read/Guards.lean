import BlorgFS.Read.Held
import BlorgFS.Read.Order

/-! What a step of the machine of the reads does to the fair share: it runs at most one section
under the lock, and a section is an admission, a hold or some rounds of `ReadFairAdmitHeld`. A
guard says which of these a run may make; what each of them keeps, the run keeps. -/

namespace BlorgFS.Read

open Lib DiskCache Core

variable {V : Setup} {f f' : Fair} {c : Core} {t : Task} {tasks rest : List Task} {i n : ℕ} {ch : Choice} {s s' : State}

/-! ### Sections -/

/-- One section under the lock. -/
def Fair.exec (V : Setup) (f : Fair) : FairAct → Fair
  | .admitFirst i mayHold => if f.mustHold V (V.request i).node mayHold then f else f.admitNow V i
  | .admitAgain i mayHold item => if f.mustHold V (V.request i).node mayHold then f.hold V i mayHold item else f.admitNow V i
  | .settle i => (f.settle V i).1
  | .reserve i fetches => (f.reserve i fetches).1
  | .giveBack i fetches => (f.giveBack V i fetches).1

/-- The section the next step of a task runs. -/
def Core.sectionOf (V : Setup) (ch : Choice) : Task → Option FairAct
  | .admitFirst k => some (.admitFirst k.irp (mayHold V k))
  | .admitAgain k item => some (.admitAgain k.irp (mayHold V k) item)
  | .reserve k => some (.reserve k.irp (k.runs - 1))
  | .surplus k reserved fetches => some (.giveBack k.irp (wrapSub 32 reserved (extraFetches fetches)))
  | .declined k reserved => some (.giveBack k.irp reserved)
  | .unissued k _ => some (.settle k.irp)
  | .fetching i => some (.settle i)
  | .diskComplete i _ _ fetches _ => some (.giveBack i (extraFetches fetches))
  | .diskSettle i status _ refetch => if status = .success then some (.settle i) else if refetch ∧ ch.pool then none else some (.settle i)
  | _ => none

/-- Nothing the fair share decides by has changed but what is in flight. -/
structure Fair.Idles (f f' : Fair) : Prop extends f.Quiet f' where
  admissions : ∀ i, (f'.irps i).admissions = (f.irps i).admissions

theorem Fair.Idles.refl (f : Fair) : f.Idles f := ⟨⟨rfl, rfl, rfl, fun _ => rfl, fun _ => rfl⟩, fun _ => rfl⟩

theorem Fair.idles_uncharge (f : Fair) (i : ℕ) : f.Idles (f.uncharge V i) := by
  refine ⟨Fair.quiet_uncharge V f i, fun j => ?_⟩
  by_cases hj : j = i <;> simp [Fair.uncharge, hj]

theorem Fair.idles_reserve (f : Fair) (i fetches : ℕ) : f.Idles (f.reserve i fetches).1 := ⟨Fair.quiet_reserve f i fetches, fun _ => rfl⟩

theorem Fair.idles_restore (f : Fair) (i fetches : ℕ) : f.Idles (f.restore i fetches) := ⟨Fair.quiet_restore f i fetches, fun _ => rfl⟩

theorem Fair.idles_setIrp (f : Fair) {i : ℕ} {x : Irp} (ht : x.context1 = (f.irps i).context1) (ha : x.admissions = (f.irps i).admissions) :
    f.Idles (f.setIrp i x) := by
  refine ⟨⟨rfl, rfl, rfl, fun _ => rfl, fun j => ?_⟩, fun j => ?_⟩ <;> by_cases hj : j = i
  · simp [Fair.heldTag, Fair.setIrp, hj, ht]
  · simp [Fair.heldTag, Fair.setIrp, hj]
  · simp [Fair.setIrp, hj, ha]
  · simp [Fair.setIrp, hj]

theorem idles_setContext2 (c : Core) (i : ℕ) (value : Context2) : c.toFair.Idles (c.setContext2 i value).toFair :=
  c.toFair.idles_setIrp rfl rfl

/-- A step that runs no section leaves the fair share alone, and one that does only runs that. -/
theorem step_fair (c : Core) (ch : Choice) (t : Task) :
    (sectionOf V ch t = none ∧ c.toFair.Idles (c.step V ch t).1.toFair) ∨
      ∃ act, sectionOf V ch t = some act ∧ (c.step V ch t).1.toFair = c.toFair.exec V act := by
  cases t with
  | offer k =>
    refine Or.inl ⟨rfl, ?_⟩
    simp only [step]
    split <;> exact .refl _
  | admitFirst k =>
    refine Or.inr ⟨_, rfl, ?_⟩
    simp only [step, Fair.exec]
    split <;> rfl
  | allocate k =>
    refine Or.inl ⟨rfl, ?_⟩
    simp only [step]
    split
    next => exact .refl _
    next =>
      unfold refuse
      cases k.caller <;> exact .refl _
  | admitAgain k item =>
    refine Or.inr ⟨_, rfl, ?_⟩
    simp only [step, Fair.exec]
    split
    next => exact leave_toFair _ k
    next => rfl
  | freeItem k item => exact Or.inl ⟨rfl, .refl _⟩
  | reserve k => exact Or.inr ⟨_, rfl, rfl⟩
  | attempt k reserved =>
    refine Or.inl ⟨rfl, ?_⟩
    simp only [step]
    split <;> exact .refl _
  | issue k extra r issued =>
    have hfair := (@issueStep_same V r k ch extra issued c).1.1
    refine Or.inl ⟨rfl, ?_⟩
    simp only [step]
    rw [hfair]
    exact .refl _
  | surplus k reserved fetches => exact Or.inr ⟨_, rfl, leave_toFair _ k⟩
  | declined k reserved => exact Or.inr ⟨_, rfl, rfl⟩
  | fetch k =>
    refine Or.inl ⟨rfl, ?_⟩
    simp only [step]
    split
    next =>
      rw [leave_toFair]
      exact idles_setContext2 c k.irp .stamp
    next => exact idles_setContext2 c k.irp .stamp
  | unissued k status =>
    refine Or.inr ⟨_, rfl, ?_⟩
    simp only [step]
    cases k.caller <;> rfl
  | complete i dispatcher status information => exact Or.inl ⟨rfl, c.toFair.idles_setIrp rfl rfl⟩
  | fetching i => exact Or.inr ⟨_, rfl, rfl⟩
  | part r fetched length =>
    obtain ⟨read, he, -, -⟩ := partDone_steady c ch r fetched length
    refine Or.inl ⟨rfl, ?_⟩
    simp only [step, he]
    exact .refl _
  | settleRead r =>
    refine Or.inl ⟨rfl, ?_⟩
    simp only [step, Core.settleRead]
    split <;> exact .refl _
  | diskComplete i status valid fetches refetch => exact Or.inr ⟨_, rfl, rfl⟩
  | diskSettle i status valid refetch =>
    simp only [step, sectionOf]
    split
    next => exact Or.inr ⟨_, rfl, rfl⟩
    next =>
      split
      next => exact Or.inl ⟨rfl, idles_setContext2 c.allocate i _⟩
      next => exact Or.inr ⟨_, rfl, rfl⟩
  | issueHeld i => exact Or.inl ⟨rfl, .refl _⟩
  | worker i fromDiskCache =>
    refine Or.inl ⟨rfl, ?_⟩
    simp only [step]
    cases (c.irps i).context2 <;> simp only <;> split <;> try split
    all_goals exact .refl _

theorem step_count (c : Core) (ch : Choice) (t : Task) : (c.step V ch t).1.count = c.count := by
  cases t with
  | offer k | attempt k reserved | admitFirst k =>
    simp only [step]
    split <;> rfl
  | allocate k =>
    simp only [step]
    split
    next => rfl
    next =>
      unfold refuse
      cases k.caller <;> rfl
  | admitAgain k item =>
    simp only [step]
    split
    next => exact (leave_reads _ k).2.2.1
    next => rfl
  | issue k extra r issued =>
    have hissued : ∀ read : DiskRead, ((c.setRead r read).issued k extra r).1.count = c.count := fun read => by
      cases extra with
      | none => exact (leave_reads _ k).2.2.1
      | some reserved => rfl
    simp only [step, issueStep]
    split
    next =>
      split
      next => exact hissued _
      next => rfl
    next =>
      split
      next => rfl
      next => exact hissued _
  | surplus k reserved fetches => exact (leave_reads _ k).2.2.1
  | fetch k =>
    simp only [step]
    split
    next => exact (leave_reads _ k).2.2.1
    next => rfl
  | unissued k status =>
    simp only [step]
    cases k.caller <;> rfl
  | part r fetched length =>
    obtain ⟨read, he, -, -⟩ := partDone_steady c ch r fetched length
    simp only [step, he]
    rfl
  | settleRead r =>
    simp only [step, Core.settleRead]
    split <;> rfl
  | diskSettle i status valid refetch =>
    simp only [step]
    split
    next => rfl
    next => split <;> rfl
  | worker i fromDiskCache =>
    simp only [step]
    cases (c.irps i).context2 <;> simp only <;> split <;> try split
    all_goals rfl
  | freeItem k item | reserve k | declined k reserved | complete i dispatcher status information | fetching i
  | diskComplete i status valid fetches refetch | issueHeld i => rfl

/-! ### Guards -/

/-- Which reads may be admitted on arrival, which held, and which the loop of
`ReadFairAdmitHeld` may let go. -/
structure Guard where
  allow : Fair → ℕ → Prop
  hold : Fair → ℕ → Bool → Prop
  release : Fair → ℕ → ℕ → Prop

/-- Every round of the loop may be made. -/
def Fair.Rounds (V : Setup) (allowed : Fair → ℕ → ℕ → Prop) : ℕ → Fair → Prop
  | 0, _ => True
  | room + 1, f =>
    match f.next V with
    | none => True
    | some (i, start) => allowed f i start ∧ Rounds V allowed room (f.release V i start)

instance Fair.decidableRounds (V : Setup) (allowed : Fair → ℕ → ℕ → Prop) [∀ f i start, Decidable (allowed f i start)] :
    ∀ room f, Decidable (Fair.Rounds V allowed room f)
  | 0, _ => isTrue trivial
  | room + 1, f =>
    match hn : f.next V with
    | none => isTrue (by simp [Fair.Rounds, hn])
    | some (i, start) =>
      have := decidableRounds V allowed room (f.release V i start)
      decidable_of_iff (allowed f i start ∧ Fair.Rounds V allowed room (f.release V i start)) (by simp [Fair.Rounds, hn])

/-- The section makes what the guard allows. -/
def Fair.Obeys (V : Setup) (g : Guard) (f : Fair) : FairAct → Prop
  | .admitFirst i mayHold => f.mustHold V (V.request i).node mayHold = false → g.allow f i
  | .admitAgain i mayHold _ => if f.mustHold V (V.request i).node mayHold = true then g.hold f i mayHold else g.allow f i
  | .settle i => (f.irps i).admitted = true →
    Fair.Rounds V g.release (maxFetches - (f.uncharge V i).inFlightFetches) (f.uncharge V i)
  | .reserve _ _ => True
  | .giveBack i fetches => fetches ≠ 0 →
    Fair.Rounds V g.release (maxFetches - (f.restore i fetches).inFlightFetches) (f.restore i fetches)

def State.Obeys (V : Setup) (g : Guard) (s : State) : Act → Prop
  | .arrive _ => True
  | .run t ch => ∀ act ∈ sectionOf V ch t, s.core.toFair.Obeys V g act

section
variable (g : Guard) [∀ f i, Decidable (g.allow f i)] [∀ f i mayHold, Decidable (g.hold f i mayHold)]
  [∀ f i start, Decidable (g.release f i start)]

instance (f : Fair) : DecidablePred (f.Obeys V g)
  | .admitFirst i mayHold => inferInstanceAs (Decidable (f.mustHold V (V.request i).node mayHold = false → g.allow f i))
  | .admitAgain i mayHold _ =>
    inferInstanceAs (Decidable (if f.mustHold V (V.request i).node mayHold = true then g.hold f i mayHold else g.allow f i))
  | .settle i => inferInstanceAs (Decidable ((f.irps i).admitted = true → Fair.Rounds V g.release _ _))
  | .reserve _ _ => isTrue trivial
  | .giveBack _ fetches => inferInstanceAs (Decidable (fetches ≠ 0 → Fair.Rounds V g.release _ _))

instance (s : State) : DecidablePred (s.Obeys V g)
  | .arrive _ => isTrue trivial
  | .run t ch => inferInstanceAs (Decidable (∀ act ∈ sectionOf V ch t, s.core.toFair.Obeys V g act))

/-- `next`, for the steps that obey a guard. -/
def State.nextObeying (V : Setup) (s : State) (act : Act) : Option State := if s.Obeys V g act then s.next V act else none

theorem State.nextObeying_some {act : Act} (h : s.nextObeying g V act = some s') : s.Obeys V g act ∧ s.next V act = some s' := by
  unfold State.nextObeying at h
  split at h
  next ho => exact ⟨ho, h⟩
  next => cases h

end

/-- The runs all of whose steps obey a guard. -/
def guardedSystem (V : Setup) (g : Guard) : System State where
  init s := s = initial
  step s s' := ∃ act, s.Obeys V g act ∧ s.next V act = some s'

theorem guardedSystem_reachable {g : Guard} (h : (guardedSystem V g).Reachable s) : (system V).Reachable s := by
  induction h with
  | init hi => exact .init hi
  | step _ hs ih =>
    obtain ⟨act, -, hn⟩ := hs
    exact ih.step ⟨act, hn⟩

/-- The guard that allows everything. -/
def Guard.any : Guard := ⟨fun _ _ => True, fun _ _ _ => True, fun _ _ _ => True⟩

theorem Fair.rounds_any (room : ℕ) (f : Fair) : Fair.Rounds V Guard.any.release room f := by
  induction room generalizing f with
  | zero => trivial
  | succ room ih =>
    unfold Fair.Rounds
    split
    · trivial
    · exact ⟨trivial, ih _⟩

theorem State.obeys_any (s : State) (act : Act) : s.Obeys V Guard.any act := by
  cases act with
  | arrive ch => trivial
  | run t ch =>
    intro act _
    cases act with
    | admitFirst i mayHold => exact fun _ => trivial
    | admitAgain i mayHold item =>
      simp only [Fair.Obeys]
      split <;> trivial
    | settle i => exact fun _ => Fair.rounds_any _ _
    | reserve i fetches => trivial
    | giveBack i fetches => exact fun _ => Fair.rounds_any _ _

theorem guardedSystem_any (h : (system V).Reachable s) : (guardedSystem V .any).Reachable s := by
  induction h with
  | init hi => exact .init hi
  | step _ hs ih =>
    obtain ⟨act, hn⟩ := hs
    exact ih.step ⟨act, State.obeys_any _ act, hn⟩

/-! ### What a guarded step keeps -/

/-- A read that has come and was not charged to its file yet. -/
structure Fresh (f : Fair) (n i : ℕ) : Prop where
  lt : i < n
  held : i ∉ f.held
  waiting : i ∉ f.waiting
  admissions : (f.irps i).admissions = 0

theorem Queued.uncharge (h : Queued f n) (hi : i < n) : Queued (f.uncharge V i) n := by
  refine ⟨h.nodup, fun j hj => ?_⟩
  by_cases hji : j = i
  · subst hji
    exact ⟨hi, by simp [Fair.uncharge]⟩
  · simpa [Fair.uncharge, hji] using h.lt j hj

/-- What holds of the fair share before a section, `P`, gives what holds in it and after it, `R`. -/
structure Kept (V : Setup) (g : Guard) (n : ℕ) (P R : Fair → Prop) : Prop where
  idle : ∀ f f', f.Idles f' → P f → R f'
  allow : ∀ f i, Fresh f n i → g.allow f i → P f → R (f.admitNow V i)
  hold : ∀ f i mayHold item, Fresh f n i → g.hold f i mayHold → P f → R (f.hold V i mayHold item)
  release : ∀ f i start, Queued f n → f.next V = some (i, start) → g.release f i start → R f → R (f.release V i start)

variable {g : Guard} {P R : Fair → Prop}

theorem Kept.rounds (h : Kept V g n P R) (room : ℕ) (hq : Queued f n) (hr : Fair.Rounds V g.release room f) (hp : R f) :
    R (Fair.admitHeldFrom V room f).1 := by
  induction room generalizing f with
  | zero => exact hp
  | succ room ih =>
    unfold Fair.Rounds at hr
    unfold Fair.admitHeldFrom
    cases hn : f.next V with
    | none => exact hp
    | some next =>
      obtain ⟨i, start⟩ := next
      rw [hn] at hr
      exact ih (hq.release start) hr.2 (h.release f i start hq hn hr.1 hp)

theorem Kept.settle (h : Kept V g n P R) (hq : Queued f n) (hi : i < n) (ho : f.Obeys V g (.settle i)) (hp : P f) :
    R (f.settle V i).1 := by
  unfold Fair.settle
  split
  next => exact h.idle f f (.refl f) hp
  next hadm => exact h.rounds _ (hq.uncharge hi) (ho (Bool.not_eq_false _ ▸ hadm)) (h.idle f _ (f.idles_uncharge i) hp)

theorem Kept.giveBack {fetches : ℕ} (h : Kept V g n P R) (hq : Queued f n) (ho : f.Obeys V g (.giveBack i fetches)) (hp : P f) :
    R (f.giveBack V i fetches).1 := by
  unfold Fair.giveBack
  split
  next => exact h.idle f f (.refl f) hp
  next h0 => exact h.rounds _ ⟨hq.nodup, hq.lt⟩ (ho h0) (h.idle f _ (f.idles_restore i fetches) hp)

/-- The read of a task that is about to be admitted or held is not charged. -/
theorem Flow.fresh (h : Flow V c (t :: rest)) (ht : t.owner = some i) (ho : Open c i) (ha : (c.irps i).admitted = false) :
    Fresh c.toFair c.count i := by
  have hap := h.apart ht
  refine ⟨hap.lt, hap.held, hap.waiting, ?_⟩
  have had := ho.admissions
  rw [ha] at had
  exact had

theorem Kept.exec (hs : Sound V c (t :: rest)) (h : Kept V g c.count P R) {act : FairAct} (hsec : sectionOf V ch t = some act)
    (ho : c.toFair.Obeys V g act) (hp : P c.toFair) : R (c.toFair.exec V act) := by
  have hq := hs.flow.queued
  cases t with
  | admitFirst k =>
    obtain rfl := Option.some.inj hsec
    obtain ⟨hopen, ha⟩ := hs.flow.ok _ List.mem_cons_self
    have hfresh := hs.flow.fresh (i := k.irp) rfl hopen ha
    simp only [Fair.exec]
    split
    next => exact h.idle _ _ (.refl _) hp
    next hm => exact h.allow _ _ hfresh (ho (Bool.eq_false_iff.mpr hm)) hp
  | admitAgain k item =>
    obtain rfl := Option.some.inj hsec
    obtain ⟨hopen, ha⟩ := hs.flow.ok _ List.mem_cons_self
    have hfresh := hs.flow.fresh (i := k.irp) rfl hopen ha
    simp only [Fair.Obeys] at ho
    simp only [Fair.exec]
    split
    next hm => exact h.hold _ _ _ _ hfresh (by rwa [if_pos hm] at ho) hp
    next hm => exact h.allow _ _ hfresh (by rwa [if_neg hm] at ho) hp
  | reserve k =>
    obtain rfl := Option.some.inj hsec
    exact h.idle _ _ (Fair.idles_reserve _ _ _) hp
  | surplus k reserved fetches | declined k reserved | diskComplete i status valid fetches refetch =>
    obtain rfl := Option.some.inj hsec
    exact h.giveBack hq ho hp
  | unissued k status =>
    obtain rfl := Option.some.inj hsec
    exact h.settle hq (hs.flow.apart (i := k.irp) rfl).lt ho hp
  | fetching i =>
    obtain rfl := Option.some.inj hsec
    exact h.settle hq (hs.flow.apart (i := i) rfl).lt ho hp
  | diskSettle i status valid refetch =>
    have hlt := (hs.flow.apart (i := i) rfl).lt
    simp only [sectionOf] at hsec
    split at hsec
    next =>
      obtain rfl := Option.some.inj hsec
      exact h.settle hq hlt ho hp
    next =>
      split at hsec
      next => cases hsec
      next =>
        obtain rfl := Option.some.inj hsec
        exact h.settle hq hlt ho hp
  | _ => cases hsec

/-- What every move of a guarded run keeps, a step keeps. -/
theorem Kept.step (hs : Sound V c (t :: rest)) (h : Kept V g c.count P R)
    (ho : ∀ act ∈ sectionOf V ch t, c.toFair.Obeys V g act) (hp : P c.toFair) : R (c.step V ch t).1.toFair := by
  rcases @step_fair V c ch t with ⟨-, hidle⟩ | ⟨act, hsec, he⟩
  · exact h.idle _ _ hidle hp
  · rw [he]
    exact h.exec hs hsec (ho act hsec) hp

theorem arrive_fair (s : State) (ch : Choice) : (s.arrive V ch).core.toFair = s.core.toFair ∧ (s.arrive V ch).core.count = s.core.count + 1 := by
  unfold State.arrive
  simp only
  split
  next => exact ⟨rfl, rfl⟩
  next => split <;> exact ⟨rfl, rfl⟩

theorem Kept.next {act : Act} (hs : Sound V s.core s.tasks) (h : Kept V g s.core.count P R) (harrive : ∀ ch, act = .arrive ch → P s.core.toFair → R s.core.toFair)
    (ho : s.Obeys V g act) (hn : s.next V act = some s') (hp : P s.core.toFair) : R s'.core.toFair := by
  cases act with
  | arrive ch =>
    obtain rfl := Option.some.inj hn
    rw [(arrive_fair s ch).1]
    exact harrive ch rfl hp
  | run t ch =>
    simp only [State.next] at hn
    split at hn
    next hm =>
      rw [← Option.some.inj hn]
      exact h.step (hs.perm (List.perm_cons_erase hm)) ho hp
    next => cases hn

theorem next_count {act : Act} (hn : s.next V act = some s') :
    s'.core.count = s.core.count ∨ s'.core.count = s.core.count + 1 ∧ s'.core.toFair = s.core.toFair := by
  cases act with
  | arrive ch =>
    obtain rfl := Option.some.inj hn
    exact Or.inr ⟨(arrive_fair s ch).2, (arrive_fair s ch).1⟩
  | run t ch =>
    simp only [State.next] at hn
    split at hn
    next =>
      rw [← Option.some.inj hn]
      exact Or.inl (step_count s.core ch t)
    next => cases hn

/-- What holds at the start, stays as reads come, and is kept by every move, holds in every state
of a guarded run. -/
theorem Kept.reachable {Q : ℕ → Fair → Prop} (hkept : ∀ n, Kept V g n (Q n) (Q n)) (h0 : Q 0 initial.core.toFair)
    (hmore : ∀ s, (guardedSystem V g).Reachable s → Q s.core.count s.core.toFair → Q (s.core.count + 1) s.core.toFair)
    (h : (guardedSystem V g).Reachable s) : Q s.core.count s.core.toFair := by
  refine System.invariant (P := fun s => Q s.core.count s.core.toFair) (fun s hs => ?_) (fun s s' hr hq hstep => ?_) h
  · rw [show s = initial from hs]
    exact h0
  · obtain ⟨act, ho, hn⟩ := hstep
    have hsound := reachable_sound (guardedSystem_reachable hr)
    rcases next_count hn with hc | ⟨hc, hf⟩
    · rw [hc]
      exact (hkept s.core.count).next hsound (fun _ _ hp => hp) ho hn hq
    · rw [hc, hf]
      exact hmore s hr hq

end BlorgFS.Read
