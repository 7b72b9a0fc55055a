import BlorgFS.Read.Guards
import BlorgFS.Read.Lifecycle
import BlorgFS.Read.Trim

/-! What becomes of a read the disk cache could not finish. `ReadRefetchWorker` has it fetched
whole, unless `ReadFairAdmit` holds it first: a held read is released to `ReadFairWorker`, which
does not know where it came from and offers it to the disk cache again. A read can only be
offered so often, and where no refetch is held one that was given up is never offered again. -/

namespace BlorgFS.Read

open Lib DiskCache Core

variable {V : Setup} {c c' : Core} {s s' : State} {t t' : Task} {k : Issue} {ch : Choice} {i : ℕ}

/-! ### Attempts -/

/-- A call of `BlorgDiskCacheRead` for read `i`. -/
def Task.attempts (i : ℕ) : Task → ℕ
  | .offer k | .attempt k _ => if k.irp = i then 1 else 0
  | _ => 0

def Act.attempts (i : ℕ) : Act → ℕ
  | .arrive _ => 0
  | .run t _ => t.attempts i

/-- How often a read that may be held can still be offered. A refetch is to be fetched. -/
def Caller.attemptsLeft : Caller → ℕ
  | .dispatcher | .released true => 2
  | .released false => 0

/-- How often read `i` can still be offered when the task goes on. -/
def Task.attemptsLeft (i : ℕ) : Task → ℕ
  | .offer k => if k.irp = i then (if k.caller = .dispatcher then 3 else 2) else 0
  | .admitFirst k | .allocate k | .admitAgain k _ => if k.irp = i then k.caller.attemptsLeft else 0
  | .freeItem k _ => if k.irp = i then k.caller.attemptsLeft else 0
  | .reserve k | .attempt k _ => if k.irp = i then 1 else 0
  | .issue k none _ _ => if k.irp = i then (if k.caller = .dispatcher then 2 else 1) else 0
  | .issueHeld j | .worker j true => if j = i then 2 else 0
  | _ => 0

/-- How often it can still be offered once the fair share releases it. -/
def Fair.attemptsLeft (f : Fair) (i : ℕ) : ℕ := 2 * (f.held.count i + f.waiting.count i)

def State.attemptsLeft (s : State) (i : ℕ) : ℕ :=
  tally (Task.attemptsLeft i) s.tasks + s.core.toFair.attemptsLeft i + if s.core.count ≤ i then 3 else 0

/-- No refetch is to be held: `READ_FAIR_MAX_FETCHES` are not in flight when `ReadFairAdmit`
decides about one. -/
def State.RefetchGoesOn (s : State) : Act → Prop
  | .run (.admitAgain k _) _ => k.caller = .released false → s.core.inFlightFetches < maxFetches
  | _ => True

instance (s : State) (act : Act) : Decidable (s.RefetchGoesOn act) := by
  unfold State.RefetchGoesOn
  split <;> infer_instance

/-- A step that holds no refetch. -/
def State.nextUnheld (V : Setup) (s : State) (act : Act) : Option State := if s.RefetchGoesOn act then s.next V act else none

theorem State.nextUnheld_some {act : Act} (h : s.nextUnheld V act = some s') : s.RefetchGoesOn act ∧ s.next V act = some s' := by
  unfold State.nextUnheld at h
  split_ifs at h with hgoes
  exact ⟨hgoes, h⟩

/-! ### Releasing -/

theorem count_erase_add {l : List ℕ} {i : ℕ} (h : i ∈ l) (j : ℕ) : (l.erase i).count j + (if i = j then 1 else 0) = l.count j := by
  have hperm := (List.perm_cons_erase h).count_eq j
  rw [hperm, List.count_cons]
  congr 1
  by_cases he : i = j
  · rw [if_pos he, if_pos (beq_iff_eq.mpr he)]
  · rw [if_neg he, if_neg (fun hb => he (beq_iff_eq.mp hb))]

theorem erase_count_le (l : List ℕ) (i j : ℕ) : (l.erase i).count j ≤ l.count j := List.Sublist.count_le j List.erase_sublist

/-- What is released is no longer held. -/
theorem attemptsLeft_admitHeldFrom (room : ℕ) (f : Fair) (i : ℕ) :
    (Fair.admitHeldFrom V room f).1.attemptsLeft i + 2 * (Fair.admitHeldFrom V room f).2.count i ≤ f.attemptsLeft i := by
  induction room generalizing f with
  | zero => exact Nat.le_refl _
  | succ room ih =>
    unfold Fair.admitHeldFrom
    cases hn : f.next V with
    | none => exact Nat.le_refl _
    | some next =>
      obtain ⟨j, start⟩ := next
      have hrest := ih (f.release V j start)
      have hone : (f.release V j start).attemptsLeft i + 2 * (if j = i then 1 else 0) ≤ f.attemptsLeft i := by
        change 2 * ((f.held.erase j).count i + (f.waiting.erase j).count i) + _ ≤ 2 * (f.held.count i + f.waiting.count i)
        obtain hheld | hwaiting := Fair.next_mem hn
        · have hcount := count_erase_add hheld i
          have hle := erase_count_le f.waiting j i
          omega
        · have hcount := count_erase_add hwaiting i
          have hle := erase_count_le f.held j i
          omega
      dsimp only
      rw [List.count_cons]
      have hcons : (if j == i then 1 else 0) = if j = i then 1 else 0 := if_congr beq_iff_eq rfl rfl
      rw [hcons]
      omega

theorem attemptsLeft_settle (f : Fair) (j i : ℕ) : (f.settle V j).1.attemptsLeft i + 2 * (f.settle V j).2.count i ≤ f.attemptsLeft i := by
  unfold Fair.settle
  split_ifs
  · exact Nat.le_refl _
  · exact attemptsLeft_admitHeldFrom _ _ i

theorem attemptsLeft_giveBack (f : Fair) (j fetches i : ℕ) :
    (f.giveBack V j fetches).1.attemptsLeft i + 2 * (f.giveBack V j fetches).2.count i ≤ f.attemptsLeft i := by
  unfold Fair.giveBack
  split_ifs
  · exact Nat.le_refl _
  · exact attemptsLeft_admitHeldFrom _ _ i

theorem tally_issueHeld (released : List ℕ) (i : ℕ) : tally (Task.attemptsLeft i) (released.map .issueHeld) = 2 * released.count i := by
  induction released with
  | nil => rfl
  | cons j released ih =>
    have hone : Task.attemptsLeft i (.issueHeld j) = if j = i then 2 else 0 := rfl
    rw [List.map_cons, tally_cons, ih, hone, List.count_cons, if_congr (beq_iff_eq (a := j) (b := i)) rfl rfl]
    split_ifs <;> omega

/-! ### What a step leaves -/

theorem attemptsLeft_admittedTo (k : Issue) (i : ℕ) : (admittedTo k).attemptsLeft i ≤ if k.irp = i then k.caller.attemptsLeft else 0 := by
  unfold admittedTo
  cases hcaller : k.caller with
  | dispatcher =>
    dsimp only
    split_ifs with hruns hi hi
    · exact (if_pos hi).trans_le (Nat.le_succ 1)
    · exact (if_neg hi).le
    · exact Nat.zero_le _
    · exact Nat.zero_le _
  | released fromDiskCache =>
    cases fromDiskCache with
    | false => exact Nat.zero_le _
    | true =>
      change (if k.irp = i then (if k.caller = .dispatcher then 3 else 2) else 0) ≤ _
      rw [hcaller, if_neg (show Caller.released true ≠ .dispatcher from nofun)]
      exact Nat.le_refl _

theorem attemptsLeft_notWhole (k : Issue) (runs i : ℕ) :
    (notWhole k runs).attemptsLeft i ≤ if k.irp = i then (if k.caller = .dispatcher then 2 else 1) else 0 := by
  unfold notWhole
  cases hcaller : k.caller with
  | dispatcher => exact Nat.le_refl _
  | released fromDiskCache =>
    rw [if_neg (show Caller.released fromDiskCache ≠ .dispatcher from nofun)]
    dsimp only
    by_cases hruns : runs ≠ 0
    · rw [if_pos hruns]
      exact Nat.le_refl _
    · rw [if_neg hruns]
      exact Nat.zero_le _

theorem attemptsLeft_withReleased (c : Core) {result : Fair × List ℕ} (tasks : List Task)
    (h : result.1.attemptsLeft i + 2 * result.2.count i ≤ c.toFair.attemptsLeft i) :
    tally (Task.attemptsLeft i) (c.withReleased result tasks).2 + (c.withReleased result tasks).1.toFair.attemptsLeft i ≤
      tally (Task.attemptsLeft i) tasks + c.toFair.attemptsLeft i := by
  change tally (Task.attemptsLeft i) (tasks ++ result.2.map .issueHeld) + result.1.attemptsLeft i ≤ _
  rw [tally_append, tally_issueHeld]
  omega

theorem attemptsLeft_leave (c : Core) (k : Issue) (i : ℕ) : (c.leave k).toFair.attemptsLeft i = c.toFair.attemptsLeft i := by
  unfold Core.leave
  cases k.caller <;> rfl

theorem attemptsLeft_hold (f : Fair) (j : ℕ) (mayHold : Bool) (item i : ℕ) :
    (f.hold V j mayHold item).attemptsLeft i = f.attemptsLeft i + if j = i then 2 else 0 := by
  have hone : [j].count i = if j = i then 1 else 0 := by
    rw [List.count_cons, List.count_nil, Nat.zero_add]
    exact if_congr beq_iff_eq rfl rfl
  cases mayHold with
  | false =>
    change 2 * (f.held.count i + (f.waiting ++ [j]).count i) = 2 * (f.held.count i + f.waiting.count i) + _
    rw [List.count_append, hone]
    split_ifs <;> omega
  | true =>
    change 2 * ((f.held ++ [j]).count i + f.waiting.count i) = 2 * (f.held.count i + f.waiting.count i) + _
    rw [List.count_append, hone]
    split_ifs <;> omega

/-- What a step does to a read: it is offered once, or as often as before. -/
structure Spends (V : Setup) (c : Core) (t : Task) (result : Core × List Task) (i : ℕ) : Prop where
  le : tally (Task.attemptsLeft i) result.2 + result.1.toFair.attemptsLeft i + t.attempts i ≤ t.attemptsLeft i + c.toFair.attemptsLeft i

theorem Spends.of_tasks {new : List Task} (hfair : c'.toFair.attemptsLeft i = c.toFair.attemptsLeft i)
    (h : tally (Task.attemptsLeft i) new + t.attempts i ≤ t.attemptsLeft i) : Spends V c t (c', new) i := by
  refine ⟨?_⟩
  dsimp only
  rw [hfair]
  omega

/-- A section may release reads, and puts none by. -/
theorem Spends.of_released {result : Fair × List ℕ} {tasks : List Task} (h : result.1.attemptsLeft i + 2 * result.2.count i ≤ c.toFair.attemptsLeft i)
    (ht : tally (Task.attemptsLeft i) tasks + t.attempts i ≤ t.attemptsLeft i) : Spends V c t (c.withReleased result tasks) i := by
  have hreleased := attemptsLeft_withReleased c tasks h
  exact ⟨by omega⟩

theorem issueStep_spends (c : Core) (k : Issue) (extra : Option ℕ) (r issued : ℕ) :
    Spends V c (.issue k extra r issued) (c.issueStep V ch k extra r issued) i := by
  unfold issueStep
  simp only
  split
  · split
    · cases extra with
      | none => exact .of_tasks (attemptsLeft_leave _ k i) (Nat.zero_le _)
      | some reserved => exact .of_tasks rfl (Nat.zero_le _)
    · refine .of_tasks rfl ?_
      cases extra with
      | none => exact (Nat.zero_add (if k.irp = i then (if k.caller = .dispatcher then 2 else 1) else 0)).le
      | some reserved => exact Nat.zero_le _
  · split
    · refine .of_tasks rfl ?_
      rw [tally_singleton]
      cases extra with
      | none => exact attemptsLeft_notWhole k 0 i
      | some reserved => exact Nat.zero_le _
    · cases extra with
      | none => exact .of_tasks (attemptsLeft_leave _ k i) (Nat.zero_le _)
      | some reserved => exact .of_tasks rfl (Nat.zero_le _)

/-- Every step of a task spends what is left of a read's attempts, and an attempt one of them,
where no refetch is held. -/
theorem step_spends (c : Core) (ch : Choice) (hgoes : ∀ k item, t = .admitAgain k item → k.caller = .released false → c.inFlightFetches < maxFetches) :
    Spends V c t (c.step V ch t) i := by
  cases t with
  | offer k =>
    simp only [step]
    split
    · refine .of_tasks rfl ?_
      have hle := attemptsLeft_notWhole k (by assumption) i
      rw [tally_singleton]
      change _ + (if k.irp = i then 1 else 0) ≤ if k.irp = i then (if k.caller = .dispatcher then 3 else 2) else 0
      split_ifs at hle ⊢ <;> omega
    · refine .of_tasks rfl ?_
      change (if k.irp = i then (if k.caller = .dispatcher then 2 else 1) else 0) + 0 + (if k.irp = i then 1 else 0) ≤
        if k.irp = i then (if k.caller = .dispatcher then 3 else 2) else 0
      split_ifs <;> omega
  | admitFirst k =>
    simp only [step]
    split
    · exact .of_tasks rfl (Nat.le_refl _)
    · refine .of_tasks rfl ?_
      rw [tally_singleton]
      exact attemptsLeft_admittedTo k i
  | allocate k =>
    simp only [step]
    split
    · exact .of_tasks rfl (Nat.le_refl _)
    · unfold refuse
      cases k.caller with
      | dispatcher => exact .of_tasks rfl (Nat.zero_le _)
      | released fromDiskCache => exact .of_tasks rfl (Nat.zero_le _)
  | admitAgain k item =>
    simp only [step]
    split
    next hhold =>
      refine ⟨?_⟩
      rw [attemptsLeft_leave]
      change 0 + (c.toFair.hold V k.irp (mayHold V k) item).attemptsLeft i + 0 ≤ (if k.irp = i then k.caller.attemptsLeft else 0) + c.toFair.attemptsLeft i
      rw [attemptsLeft_hold]
      by_cases hi : k.irp = i
      · have htwo : 2 ≤ k.caller.attemptsLeft := by
          cases hcaller : k.caller with
          | dispatcher => exact Nat.le_refl 2
          | released fromDiskCache =>
            cases fromDiskCache with
            | true => exact Nat.le_refl 2
            | false =>
              have hmay : mayHold V k = false := by
                unfold mayHold
                rw [hcaller]
              have hroom := hgoes k item rfl hcaller
              rw [hmay] at hhold
              unfold Fair.mustHold at hhold
              simp only [Bool.false_and, Bool.false_or, decide_eq_true_eq] at hhold
              omega
        rw [if_pos hi, if_pos hi]
        omega
      · rw [if_neg hi, if_neg hi]
        omega
    next =>
      refine .of_tasks rfl ?_
      rw [tally_singleton]
      exact Nat.le_refl _
  | freeItem k item =>
    refine .of_tasks rfl ?_
    rw [tally_singleton]
    exact attemptsLeft_admittedTo k i
  | reserve k => exact .of_tasks rfl (Nat.le_refl _)
  | attempt k reserved =>
    simp only [step]
    split
    · refine .of_tasks rfl ?_
      exact (Nat.zero_add _).le
    · refine .of_tasks rfl ?_
      exact (Nat.zero_add _).le
  | issue k extra r issued => exact issueStep_spends c k extra r issued
  | surplus k reserved fetches =>
    have hreleased := attemptsLeft_withReleased c [] (attemptsLeft_giveBack (V := V) c.toFair k.irp (wrapSub 32 reserved (extraFetches fetches)) i)
    refine ⟨?_⟩
    simp only [step]
    rw [attemptsLeft_leave]
    exact hreleased
  | declined k reserved => exact .of_released (attemptsLeft_giveBack c.toFair k.irp reserved i) (Nat.zero_le _)
  | fetch k =>
    simp only [step]
    split
    · refine .of_tasks (attemptsLeft_leave _ k i) (Nat.zero_le _)
    · exact .of_tasks rfl (Nat.zero_le _)
  | unissued k status =>
    have hreleased := attemptsLeft_withReleased c [] (attemptsLeft_settle (V := V) c.toFair k.irp i)
    simp only [step]
    cases k.caller with
    | dispatcher => exact ⟨by rw [tally_cons]; exact (Nat.zero_add _).symm ▸ hreleased⟩
    | released fromDiskCache => exact ⟨by rw [tally_cons]; exact (Nat.zero_add _).symm ▸ hreleased⟩
  | complete j dispatcher status information => exact .of_tasks rfl (Nat.zero_le _)
  | fetching j => exact .of_released (attemptsLeft_settle c.toFair j i) (Nat.zero_le _)
  | part r fetched length =>
    obtain ⟨read, he, -, -⟩ := partDone_steady c ch r fetched length
    simp only [step, he]
    exact .of_tasks rfl (Nat.zero_le _)
  | settleRead r =>
    simp only [step, settleRead]
    split
    · exact .of_tasks rfl (Nat.zero_le _)
    · exact .of_tasks rfl (Nat.zero_le _)
  | diskComplete j status valid fetches refetch => exact .of_released (attemptsLeft_giveBack c.toFair j (extraFetches fetches) i) (Nat.zero_le _)
  | diskSettle j status valid refetch =>
    simp only [step]
    split
    · exact .of_released (attemptsLeft_settle c.toFair j i) (Nat.zero_le _)
    · split
      · exact .of_tasks rfl (Nat.zero_le _)
      · exact .of_released (attemptsLeft_settle c.toFair j i) (Nat.zero_le _)
  | issueHeld j => exact .of_tasks rfl (Nat.le_refl _)
  | worker j fromDiskCache =>
    obtain ⟨-, hidle⟩ | ⟨_, h, -⟩ := step_fair (V := V) c ch (.worker j fromDiskCache)
    · refine ⟨?_⟩
      have hfair : (c.step V ch (.worker j fromDiskCache)).1.toFair.attemptsLeft i = c.toFair.attemptsLeft i := by
        unfold Fair.attemptsLeft
        rw [hidle.held, hidle.waiting]
      have hworker : Task.attemptsLeft i (.worker j fromDiskCache) = if j = i then (Caller.released fromDiskCache).attemptsLeft else 0 := by
        cases fromDiskCache with
        | false => exact (ite_self 0).symm
        | true => rfl
      have htasks : tally (Task.attemptsLeft i) (c.step V ch (.worker j fromDiskCache)).2 ≤ Task.attemptsLeft i (.worker j fromDiskCache) := by
        rw [worker_tasks, hworker]
        split
        · exact Nat.zero_le _
        · split
          · exact Nat.le_refl _
          · rw [tally_singleton]
            exact attemptsLeft_admittedTo _ i
      rw [hfair]
      exact Nat.add_le_add_right htasks _
    · cases h

/-! ### A completed read stays completed -/

/-- The completions of every read are what they were. -/
def Fair.Completes (f f' : Fair) : Prop := ∀ i, (f'.irps i).completions = (f.irps i).completions

theorem Fair.completes_refl (f : Fair) : f.Completes f := fun _ => rfl

theorem Fair.completes_update {f f' : Fair} {j : ℕ} {x : Irp} (h : f'.irps = Function.update f.irps j x) (hx : x.completions = (f.irps j).completions) :
    f.Completes f' := by
  intro i
  rw [h]
  by_cases hi : i = j
  · rw [hi, Function.update_self, hx]
  · rw [Function.update_of_ne hi]

theorem Fair.completes_admitHeldFrom (room : ℕ) (f : Fair) : f.Completes (Fair.admitHeldFrom V room f).1 := by
  induction room generalizing f with
  | zero => exact f.completes_refl
  | succ room ih =>
    unfold Fair.admitHeldFrom
    cases f.next V with
    | none => exact f.completes_refl
    | some next =>
      intro i
      have hrelease : f.Completes (f.release V next.1 next.2) := Fair.completes_update (j := next.1) rfl rfl
      exact (ih (f.release V next.1 next.2) i).trans (hrelease i)

theorem Fair.completes_exec (f : Fair) (act : FairAct) : f.Completes (f.exec V act) := by
  cases act with
  | admitFirst j mayHold =>
    simp only [Fair.exec]
    split
    · exact f.completes_refl
    · exact Fair.completes_update (j := j) rfl rfl
  | admitAgain j mayHold item =>
    simp only [Fair.exec]
    split
    · cases mayHold with
      | false => exact Fair.completes_update (j := j) rfl rfl
      | true => exact Fair.completes_update (j := j) rfl rfl
    · exact Fair.completes_update (j := j) rfl rfl
  | settle j =>
    simp only [Fair.exec, Fair.settle]
    split
    · exact f.completes_refl
    · intro i
      have huncharge : f.Completes (f.uncharge V j) := Fair.completes_update (j := j) rfl rfl
      exact (Fair.completes_admitHeldFrom _ _ i).trans (huncharge i)
  | reserve j fetches => exact f.completes_refl
  | giveBack j fetches =>
    simp only [Fair.exec, Fair.giveBack]
    split
    · exact f.completes_refl
    · exact Fair.completes_admitHeldFrom _ _

theorem leave_completes (c : Core) (k : Issue) : c.toFair.Completes (c.leave k).toFair := by
  unfold Core.leave
  cases k.caller <;> exact Fair.completes_refl _

theorem setContext2_completes (c : Core) (j : ℕ) (value : Context2) : c.toFair.Completes (c.setContext2 j value).toFair :=
  Fair.completes_update (j := j) rfl rfl

/-- A step completes a read, or none. -/
theorem step_completes (c : Core) (ch : Choice) (t : Task) (i : ℕ) (h : (c.irps i).completions ≠ []) :
    ((c.step V ch t).1.irps i).completions ≠ [] := by
  by_cases hcomplete : ∃ j dispatcher status information, t = .complete j dispatcher status information
  · obtain ⟨j, dispatcher, status, information, rfl⟩ := hcomplete
    change (Function.update c.irps j _ i).completions ≠ []
    by_cases hi : i = j
    · rw [hi, Function.update_self]
      exact List.cons_ne_nil _ _
    · rwa [Function.update_of_ne hi]
  · have hsame : c.toFair.Completes (c.step V ch t).1.toFair := by
      obtain ⟨hsection, -⟩ | ⟨act, -, he⟩ := step_fair (V := V) c ch t
      · cases t with
        | offer k =>
          simp only [step]
          split <;> exact Fair.completes_refl _
        | allocate k =>
          simp only [step]
          split
          · exact Fair.completes_refl _
          · unfold refuse
            cases k.caller <;> exact Fair.completes_refl _
        | freeItem k item => exact Fair.completes_refl _
        | attempt k reserved =>
          simp only [step]
          split <;> exact Fair.completes_refl _
        | issue k extra r issued =>
          have hfair := (@issueStep_same V r k ch extra issued c).1.1
          simp only [step]
          rw [hfair]
          exact Fair.completes_refl _
        | fetch k =>
          simp only [step]
          split
          · exact fun i => (leave_completes _ k i).trans (setContext2_completes c k.irp .stamp i)
          · exact setContext2_completes c k.irp .stamp
        | complete j dispatcher status information => exact absurd ⟨j, dispatcher, status, information, rfl⟩ hcomplete
        | part r fetched length =>
          obtain ⟨read, he, -, -⟩ := partDone_steady c ch r fetched length
          simp only [step, he]
          exact Fair.completes_refl _
        | settleRead r =>
          simp only [step, settleRead]
          split <;> exact Fair.completes_refl _
        | diskSettle j status valid refetch =>
          simp only [sectionOf] at hsection
          split_ifs at hsection with hok hrefetch
          simp only [step]
          rw [if_neg hok, if_pos hrefetch]
          exact setContext2_completes c.allocate j _
        | issueHeld j => exact Fair.completes_refl _
        | worker j fromDiskCache =>
          simp only [step]
          cases (c.irps j).context2 <;> simp only <;> split <;> try split
          all_goals exact Fair.completes_refl _
        | _ => cases hsection
      · rw [he]
        exact Fair.completes_exec _ act
    rw [hsame i]
    exact h

/-! ### Runs -/

theorem arrive_attemptsLeft (s : State) (ch : Choice) (i : ℕ) : (s.arrive V ch).attemptsLeft i ≤ s.attemptsLeft i := by
  obtain ⟨hfair, hcount⟩ := arrive_fair (V := V) s ch
  have htasks : tally (Task.attemptsLeft i) (s.arrive V ch).tasks ≤ (if s.core.count = i then 3 else 0) + tally (Task.attemptsLeft i) s.tasks := by
    simp only [State.arrive]
    split
    · rw [tally_cons]
      exact Nat.add_le_add_right (Nat.zero_le _) _
    · split
      · rw [tally_cons]
        exact Nat.le_refl _
      · rw [tally_cons]
        exact Nat.add_le_add_right (Nat.zero_le _) _
  unfold State.attemptsLeft
  rw [hfair, hcount]
  split_ifs at htasks ⊢ <;> omega

theorem next_attemptsLeft {act : Act} (h : s.nextUnheld V act = some s') (i : ℕ) : s'.attemptsLeft i + act.attempts i ≤ s.attemptsLeft i := by
  obtain ⟨hgoes, hnext⟩ := State.nextUnheld_some h
  cases act with
  | arrive ch =>
    obtain rfl := Option.some.inj hnext
    exact arrive_attemptsLeft s ch i
  | run task ch =>
    unfold State.next at hnext
    dsimp only at hnext
    split_ifs at hnext with hmem
    obtain rfl := Option.some.inj hnext
    have hspends := (step_spends (V := V) (i := i) (t := task) s.core ch fun k item he => by rw [he] at hgoes; exact hgoes).le
    have herase := tally_erase (f := Task.attemptsLeft i) hmem
    unfold State.attemptsLeft
    dsimp only
    rw [tally_append, step_count]
    change _ + (s.core.step V ch task).1.toFair.attemptsLeft i + _ + task.attempts i ≤ _
    omega

/-- A run offers a read to the disk cache as often as it takes from what is left. -/
theorem run_attemptsLeft {acts : List Act} (h : run (State.nextUnheld V) s acts = some s') (i : ℕ) :
    s'.attemptsLeft i + tally (Act.attempts i) acts ≤ s.attemptsLeft i := by
  induction acts generalizing s with
  | nil =>
    obtain rfl := Option.some.inj h
    exact Nat.le_refl _
  | cons act acts ih =>
    obtain ⟨s₁, hnext, hrun⟩ := Option.bind_eq_some_iff.mp h
    have hone := next_attemptsLeft hnext i
    have hrest := ih hrun
    rw [tally_cons]
    omega

theorem reachable_unheld {acts : List Act} (h : run (State.nextUnheld V) s acts = some s') (hs : (system V).Reachable s) : (system V).Reachable s' := by
  have hstep : ∀ s act s', State.nextUnheld V s act = some s' → (system V).step s s' := fun _ act _ hn => ⟨act, (State.nextUnheld_some hn).2⟩
  exact hs.run hstep h

/-- A task that can still offer a read is about it. -/
theorem subject_of_attemptsLeft (h : t.attemptsLeft i ≠ 0) : t.subject = some i := by
  cases t with
  | offer k | reserve k | attempt k _ | admitFirst k | allocate k | admitAgain k _ | freeItem k _ =>
    refine congrArg some (by_contra fun hne => h ?_)
    exact if_neg hne
  | issue k extra r issued =>
    cases extra with
    | none =>
      refine congrArg some (by_contra fun hne => h ?_)
      exact if_neg hne
    | some reserved => exact absurd rfl h
  | issueHeld j =>
    refine congrArg some (by_contra fun hne => h ?_)
    exact if_neg hne
  | worker j fromDiskCache =>
    cases fromDiskCache with
    | false => exact absurd rfl h
    | true =>
      refine congrArg some (by_contra fun hne => h ?_)
      exact if_neg hne
  | _ => exact absurd rfl h

/-- What a read's owner cannot offer again is not offered again. -/
theorem attemptsLeft_of_owner (hs : Sound V s.core s.tasks) (ht : t ∈ s.tasks) (howner : t.owner = some i) (hzero : t.attemptsLeft i = 0) :
    s.attemptsLeft i = 0 := by
  have hflow := hs.flow.perm (List.perm_cons_erase ht)
  have hapart := hflow.apart howner
  have hrest : tally (Task.attemptsLeft i) (s.tasks.erase t) = 0 := by
    by_contra hpos
    obtain ⟨t', ht', hleft⟩ := exists_of_tally_pos (Nat.pos_of_ne_zero hpos)
    have hok := hflow.ok t' (List.mem_cons_of_mem _ ht')
    exact hok.subject_ne (hapart.tasks t' ht') hapart.reads (subject_of_attemptsLeft (Nat.ne_of_gt hleft))
  have htasks := tally_erase (f := Task.attemptsLeft i) ht
  have hheld := List.count_eq_zero_of_not_mem hapart.held
  have hwaiting := List.count_eq_zero_of_not_mem hapart.waiting
  have hlt := hapart.lt
  unfold State.attemptsLeft Fair.attemptsLeft
  rw [hheld, hwaiting, if_neg (by omega)]
  omega

/-! ### After a refetch -/

/-- The tasks of a read that is fetched whole. -/
def Task.FetchesWhole : Task → Prop
  | .worker _ fromDiskCache => fromDiskCache = false
  | .admitFirst k | .allocate k | .admitAgain k _ | .freeItem k _ | .fetch k | .unissued k _ => k.caller = .released false
  | .fetching _ | .complete _ _ _ _ => True
  | _ => False

/-- A read that is fetched whole, or completed. -/
def State.FetchesWhole (s : State) (i : ℕ) : Prop :=
  (∃ t ∈ s.tasks, t.owner = some i ∧ t.FetchesWhole) ∨ (s.core.irps i).completions ≠ []

theorem admittedTo_fetchesWhole (hcaller : k.caller = .released false) : (admittedTo k).owner = some k.irp ∧ (admittedTo k).FetchesWhole := by
  unfold admittedTo
  rw [hcaller]
  exact ⟨rfl, hcaller⟩

/-- What follows a task of such a read is another, or its completion. -/
theorem step_fetchesWhole (c : Core) (ch : Choice) (howner : t.owner = some i) (hwhole : t.FetchesWhole)
    (hgoes : ∀ k item, t = .admitAgain k item → k.caller = .released false → c.inFlightFetches < maxFetches) :
    (∃ t' ∈ (c.step V ch t).2, t'.owner = some i ∧ t'.FetchesWhole) ∨ ((c.step V ch t).1.irps i).completions ≠ [] := by
  cases t with
  | admitFirst k =>
    obtain rfl := Option.some.inj howner
    left
    simp only [step]
    split
    · exact ⟨_, List.mem_singleton_self _, rfl, hwhole⟩
    · exact ⟨_, List.mem_singleton_self _, admittedTo_fetchesWhole hwhole⟩
  | allocate k =>
    obtain rfl := Option.some.inj howner
    have hcaller : k.caller = .released false := hwhole
    left
    simp only [step]
    split
    · exact ⟨_, List.mem_singleton_self _, rfl, hwhole⟩
    · unfold refuse
      rw [hcaller]
      exact ⟨_, List.mem_singleton_self _, rfl, hwhole⟩
  | admitAgain k item =>
    obtain rfl := Option.some.inj howner
    have hcaller : k.caller = .released false := hwhole
    have hnot : c.toFair.mustHold V (V.request k.irp).node (mayHold V k) = false := by
      have hroom := hgoes k item rfl hcaller
      unfold mayHold Fair.mustHold
      rw [hcaller]
      simp only [Bool.false_and, Bool.false_or, decide_eq_false_iff_not]
      omega
    left
    simp only [step]
    rw [if_neg (by rw [hnot]; exact Bool.false_ne_true)]
    exact ⟨_, List.mem_singleton_self _, rfl, hwhole⟩
  | freeItem k item =>
    obtain rfl := Option.some.inj howner
    exact .inl ⟨_, List.mem_singleton_self _, admittedTo_fetchesWhole hwhole⟩
  | fetch k =>
    obtain rfl := Option.some.inj howner
    left
    simp only [step]
    split
    · exact ⟨_, List.mem_singleton_self _, rfl, trivial⟩
    · exact ⟨_, List.mem_singleton_self _, rfl, hwhole⟩
  | unissued k status =>
    obtain rfl := Option.some.inj howner
    have hcaller : k.caller = .released false := hwhole
    left
    simp only [step]
    rw [hcaller]
    exact ⟨_, List.mem_cons_self, rfl, trivial⟩
  | complete j dispatcher status information =>
    obtain rfl := Option.some.inj howner
    right
    change (Function.update c.irps j _ j).completions ≠ []
    rw [Function.update_self]
    exact List.cons_ne_nil _ _
  | fetching j =>
    obtain rfl := Option.some.inj howner
    exact .inl ⟨_, List.mem_cons_self, rfl, trivial⟩
  | worker j fromDiskCache =>
    obtain rfl := Option.some.inj howner
    have hfalse : fromDiskCache = false := hwhole
    subst hfalse
    left
    rw [worker_tasks]
    split
    · exact ⟨_, List.mem_singleton_self _, rfl, rfl⟩
    · split
      · exact ⟨_, List.mem_singleton_self _, rfl, rfl⟩
      · exact ⟨_, List.mem_singleton_self _, admittedTo_fetchesWhole rfl⟩
  | _ => cases hwhole

theorem next_fetchesWhole {act : Act} (h : s.nextUnheld V act = some s') (hwhole : s.FetchesWhole i) : s'.FetchesWhole i := by
  obtain ⟨hgoes, hnext⟩ := State.nextUnheld_some h
  cases act with
  | arrive ch =>
    obtain rfl := Option.some.inj hnext
    have hfair := (arrive_fair (V := V) s ch).1
    obtain ⟨t, ht, howner, ht'⟩ | hcompleted := hwhole
    · refine .inl ⟨t, ?_, howner, ht'⟩
      simp only [State.arrive]
      split
      · exact List.mem_cons_of_mem _ ht
      · split <;> exact List.mem_cons_of_mem _ ht
    · right
      rw [hfair]
      exact hcompleted
  | run task ch =>
    unfold State.next at hnext
    dsimp only at hnext
    split_ifs at hnext with hmem
    obtain rfl := Option.some.inj hnext
    obtain ⟨t, ht, howner, ht'⟩ | hcompleted := hwhole
    · by_cases hrest : t ∈ s.tasks.erase task
      · exact .inl ⟨t, List.mem_append_right _ hrest, howner, ht'⟩
      · have he : t = task := by
          by_contra hne
          exact hrest ((List.mem_erase_of_ne hne).mpr ht)
        subst he
        obtain ⟨t', hnew, hnext⟩ | hcompleted :=
          step_fetchesWhole (V := V) s.core ch howner ht' fun k item he => by rw [he] at hgoes; exact hgoes
        · exact .inl ⟨t', List.mem_append_left _ hnew, hnext⟩
        · exact .inr hcompleted
    · exact .inr (step_completes s.core ch task i hcompleted)

/-- Whoever has such a read fetches it. -/
theorem owner_fetchesWhole (hs : Sound V s.core s.tasks) (hwhole : s.FetchesWhole i) (ht : t ∈ s.tasks) (howner : t.owner = some i) : t.FetchesWhole := by
  have hapart := (hs.flow.perm (List.perm_cons_erase ht)).apart howner
  obtain ⟨t₁, ht₁, howner₁, hwhole₁⟩ | hcompleted := hwhole
  · have he : t₁ = t := by
      by_contra hne
      exact hapart.tasks t₁ ((List.mem_erase_of_ne hne).mpr ht₁) howner₁
    exact he ▸ hwhole₁
  · exact absurd hapart.completions hcompleted

theorem run_fetchesWhole {acts : List Act} (hs : (system V).Reachable s) (hwhole : s.FetchesWhole i) (h : run (State.nextUnheld V) s acts = some s') :
    ∀ t ch, Act.run t ch ∈ acts → t.owner = some i → t.FetchesWhole := by
  induction acts generalizing s with
  | nil => exact nofun
  | cons act acts ih =>
    intro t ch hmem howner
    obtain ⟨s₁, hnext, hrun⟩ := Option.bind_eq_some_iff.mp h
    have hs₁ : (system V).Reachable s₁ := hs.step ⟨act, (State.nextUnheld_some hnext).2⟩
    obtain rfl | hmem := List.mem_cons.mp hmem
    · have ht : t ∈ s.tasks := by
        have hn := (State.nextUnheld_some hnext).2
        unfold State.next at hn
        dsimp only at hn
        split_ifs at hn with ht
        exact ht
      exact owner_fetchesWhole (reachable_sound hs) hwhole ht howner
    · exact ih hs₁ (next_fetchesWhole hnext hwhole) hrun t ch hmem howner

/-- What is promised of a run: a read is offered to the disk cache three times at most, and one
the cache could not finish is not offered again but fetched whole, or completed. -/
def EndsAtNetwork (acts : List Act) : Prop :=
  ∀ i, tally (Act.attempts i) acts ≤ 3 ∧
    ∀ before status valid ch after, acts = before ++ .run (.diskSettle i status valid true) ch :: after →
      (∀ act ∈ after, act.attempts i = 0) ∧ ∀ t ch, Act.run t ch ∈ after → t.owner = some i → t.FetchesWhole

/-- A read the cache gives up is to be fetched whole. -/
theorem diskSettle_fetchesWhole {status : Status} {valid : ℕ} (h : s.nextUnheld V (.run (.diskSettle i status valid true) ch) = some s') :
    s'.FetchesWhole i := by
  have hnext := (State.nextUnheld_some h).2
  unfold State.next at hnext
  dsimp only at hnext
  split_ifs at hnext with hmem
  obtain rfl := Option.some.inj hnext
  left
  simp only [step]
  split
  · exact ⟨_, List.mem_append_left _ List.mem_cons_self, rfl, trivial⟩
  · split
    · exact ⟨_, List.mem_append_left _ (List.mem_singleton_self _), rfl, rfl⟩
    · exact ⟨_, List.mem_append_left _ List.mem_cons_self, rfl, trivial⟩

/-- In every run that holds no refetch, what the disk cache gave up ends at the network. -/
theorem unheld_ends_at_network {acts : List Act} (h : run (State.nextUnheld V) initial acts = some s) : EndsAtNetwork acts := by
  intro i
  have hinitial : initial.attemptsLeft i = 3 := by
    change 0 + 0 + (if 0 ≤ i then 3 else 0) = 3
    rw [if_pos (Nat.zero_le i)]
  constructor
  · have hall := run_attemptsLeft h i
    omega
  · rintro before status valid ch after rfl
    rw [run_append] at h
    obtain ⟨s₀, hbefore, hrest⟩ := Option.bind_eq_some_iff.mp h
    obtain ⟨s₁, hnext, hafter⟩ := Option.bind_eq_some_iff.mp hrest
    have hreach := reachable_unheld hbefore (.init rfl)
    have hreach₁ : (system V).Reachable s₁ := hreach.step ⟨_, (State.nextUnheld_some hnext).2⟩
    have hmem : Task.diskSettle i status valid true ∈ s₀.tasks := by
      have hn := (State.nextUnheld_some hnext).2
      unfold State.next at hn
      dsimp only at hn
      split_ifs at hn with hmem
      exact hmem
    have hzero : s₁.attemptsLeft i = 0 := by
      have hnone := attemptsLeft_of_owner (reachable_sound hreach) hmem rfl rfl
      have hle := next_attemptsLeft hnext i
      omega
    have hattempts := run_attemptsLeft hafter i
    refine ⟨fun act hact => ?_, run_fetchesWhole hreach₁ (diskSettle_fetchesWhole hnext) hafter⟩
    have hle := le_tally (f := Act.attempts i) hact
    omega

theorem block_pos : 0 < blockSize := by decide

theorem block_lt : blockSize < 2 ^ 32 := by decide

theorem sevenBlocks_pos : 0 < 7 * blockSize := by decide

theorem sevenBlocks_lt : 7 * blockSize < 2 ^ 32 := by decide

theorem crowdKb_le : 4096 ≤ (2 ^ 32 - 1) / 1024 := by decide

/-- Eight reads the cache holds in part, and one it holds whole. -/
def crowd : Setup where
  budgetKb := 4096
  request i := if i < 8 then ⟨i, 0, 7 * blockSize, false, sevenBlocks_pos, sevenBlocks_lt⟩ else ⟨i, 0, blockSize, false, block_pos, block_lt⟩
  budgetKb_le := crowdKb_le

/-- Read `i` is admitted with three fetches more. -/
def reserving (i : ℕ) : List Act :=
  let k : Issue := ⟨i, .dispatcher, 7 * blockSize, 4⟩
  let ch := pinning [none, some 0, none, some 0, none, some 0, none]
  [.arrive ch, .run (.offer { k with runs := 0 }) ch, .run (.admitFirst k) ch, .run (.reserve k) ch]

/-- Read `i` is to be served by the cache whole, and its file fails. -/
def failing (i : ℕ) : List Act :=
  let k : Issue := ⟨i, .dispatcher, blockSize, 0⟩
  let ch := pinning [some 0]
  [.arrive ch, .run (.offer k) ch, .run (.issue k none 0 0) ch, .run (.part 0 false blockSize) { ch with ok := false }, .run (.settleRead 0) ch,
    .run (.settleRead 0) ch, .run (.diskComplete i .unexpectedIoError blockSize 0 true) ch]

/-- The cache gives read `i` up. -/
def givenUp (i : ℕ) : Act := .run (.diskSettle i .unexpectedIoError blockSize true) (pinning [some 0])

/-- `ReadRefetchWorker` takes read `i`, and `ReadFairAdmit` holds it. -/
def heldAgain (i : ℕ) : List Act :=
  let k : Issue := ⟨i, .released false, blockSize, 0⟩
  let ch := pinning [some 0]
  [.run (.worker i false) ch, .run (.admitFirst k) ch, .run (.allocate k) ch, .run (.admitAgain k 1) ch]

/-- Read 0 gives back what it reserved; read `i` is released, and offered to the cache. -/
def offeredAgain (i : ℕ) : List Act :=
  let k : Issue := ⟨0, .dispatcher, 7 * blockSize, 4⟩
  let ch := pinning [some 0]
  [.run (.attempt k 3) { ch with slots := none }, .run (.declined k 3) ch, .run (.issueHeld i) ch, .run (.worker i true) ch,
    .run (.offer ⟨i, .released true, blockSize, 0⟩) ch]

/-- Read `i` is fetched whole. -/
def fetchedWhole (i : ℕ) : List Act :=
  let k : Issue := ⟨i, .released false, blockSize, 0⟩
  let ch := pinning [some 0]
  [.run (.worker i false) ch, .run (.admitFirst k) ch, .run (.fetch k) ch, .run (.fetching i) ch, .run (.complete i false .success blockSize) ch]

/-- With the link to itself a refetch is admitted. The reads before it were past the end. -/
theorem unheld_ends_at_network_alone : ∃ acts s, run (State.nextUnheld crowd) initial acts = some s ∧ (s.core.irps 8).completions ≠ [] ∧
    EndsAtNetwork acts := by
  let acts := (List.replicate 8 (.arrive { pinning [] with size := 0 }) ++ failing 8) ++ givenUp 8 :: fetchedWhole 8
  have hcompleted : ((run (State.nextUnheld crowd) initial acts).map fun s => (s.core.irps 8).completions) = some [⟨false, .success, blockSize⟩] := by
    decide +kernel
  obtain ⟨s, hs, hx⟩ := Option.map_eq_some_iff.mp hcompleted
  refine ⟨acts, s, hs, ?_, unheld_ends_at_network hs⟩
  rw [hx]
  exact List.cons_ne_nil _ _

/-- As many fetches in flight as there may be. -/
def filled : List Act := (List.range 8).flatMap reserving

/-- A refetch that is held is offered to the cache that could not finish it. -/
theorem refetch_offered : ¬ ∀ acts s, run (State.next crowd) initial acts = some s → EndsAtNetwork acts := by
  intro hall
  have hsome : (run (State.next crowd) initial ((filled ++ failing 8) ++ givenUp 8 :: (heldAgain 8 ++ offeredAgain 8))).isSome := by decide +kernel
  obtain ⟨s, hs⟩ := Option.isSome_iff_exists.mp hsome
  obtain ⟨-, hends⟩ := hall _ s hs 8
  obtain ⟨hnever, -⟩ := hends _ _ _ _ _ rfl
  have hoffer := hnever (.run (.offer ⟨8, .released true, blockSize, 0⟩) (pinning [some 0])) (by decide)
  exact absurd hoffer (by decide)

end BlorgFS.Read
