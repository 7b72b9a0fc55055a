import BlorgFS.Read.Release

/-! The sections that release reads, `ReadFairAdmitHeld`, `ReadFairSettle` and
`ReadFairGiveBack`, keep both the flow and the account. -/

namespace BlorgFS.Read

open Lib DiskCache Core

variable {V : Setup} {c c' : Core} {t : Task} {rest new : List Task} {i n : ℕ}

structure Sound (V : Setup) (c : Core) (tasks : List Task) : Prop where
  flow : Flow V c tasks
  account : Account V c.toFair c.count

theorem Sound.perm {tasks tasks' : List Task} (h : Sound V c tasks) (hp : tasks.Perm tasks') : Sound V c tasks' :=
  ⟨h.flow.perm hp, h.account⟩

/-- A step of an IRP's owner that charges and lends nothing. -/
theorem Sound.local (h : Sound V c (t :: rest)) (ht : t.owner = some i) (hl : Local V c c' t new i)
    (ha : Account V c'.toFair c'.count) : Sound V c' (new ++ rest) :=
  ⟨h.flow.local ht hl, ha⟩

/-! ### ReadFairAdmitHeld -/

theorem release_inFlightFetches {f : Fair} (h : f.inFlightFetches < maxFetches) (start : ℕ) :
    (f.release V i start).inFlightFetches = f.inFlightFetches + 1 := by
  unfold maxFetches at h
  show (f.inFlightFetches + 1) % 2 ^ 32 = _
  exact Nat.mod_eq_of_lt (by omega)

theorem Sound.admitHeldFrom {tasks : List Task} (room : ℕ) (h : Sound V c tasks)
    (hroom : c.inFlightFetches + room ≤ maxFetches) :
    Sound V (c.withFair (Fair.admitHeldFrom V room c.toFair).1)
      ((Fair.admitHeldFrom V room c.toFair).2.map .issueHeld ++ tasks) := by
  induction room generalizing c tasks with
  | zero => exact h
  | succ room ih =>
    unfold Fair.admitHeldFrom
    cases hn : c.toFair.next V with
    | none => exact h
    | some next =>
      obtain ⟨i, start⟩ := next
      have hmem := Fair.next_mem hn
      obtain ⟨-, -, -, -, hlt⟩ := h.flow.apart_list hmem
      have hadm := (h.flow.lists i hmem).2.1
      have hone : Sound V (c.withFair (c.toFair.release V i start)) (.issueHeld i :: tasks) :=
        ⟨h.flow.release hmem start, h.account.release hlt hadm (by omega) start⟩
      have hfetches := @release_inFlightFetches V i c.toFair (by omega) start
      have hrec := ih hone (show (c.toFair.release V i start).inFlightFetches + room ≤ maxFetches by omega)
      -- The rounds left release theirs after this one's.
      exact hrec.perm List.perm_middle

theorem Sound.admitHeld {tasks : List Task} (h : Sound V c tasks) :
    Sound V (c.withFair (c.toFair.admitHeld V).1) ((c.toFair.admitHeld V).2.map .issueHeld ++ tasks) :=
  h.admitHeldFrom _ (by have := h.account.limit; omega)

/-! ### ReadFairSettle -/

/-- What a task that is about to settle its read does not have. -/
structure Bare (c : Core) (t : Task) : Prop where
  workItem : t.workItem c = none
  owes : ∀ j, t.owes c j = 0
  uses : uses t = none
  issues : ∀ r, t.issues r = 0

theorem Closed.of_open (h : Open c i) (ha : (c.irps i).admitted = false) : Closed c i := by
  have had := h.admissions
  have hs := h.settlements
  rw [ha] at had
  simp only [Bool.false_eq_true, if_false] at had
  exact ⟨ha, by omega, by omega⟩

/-- A read that is settled is left to be completed; `returned` is what the dispatch
routine returns for it, if it is its own. -/
theorem Sound.settle {returned : ℕ → Option Status} {dispatcher : Bool} {status : Status} (information : ℕ)
    (h : Sound V c (t :: rest)) (ht : t.owner = some i) (ho : Open c i) (hb : Bare c t)
    (hret : ∀ j, j ≠ i → returned j = c.returned j)
    (hd : ∀ j, (if returned j = none then 0 else 1) = t.dispatches j + if c.returned j = none then 0 else 1)
    (hans : Answers { c with returned := returned } i dispatcher status) :
    Sound V (({ c with returned := returned } : Core).withFair (c.toFair.settle V i).1)
      ((c.toFair.settle V i).2.map .issueHeld ++ .complete i dispatcher status information :: rest) := by
  have hcompl := (h.flow.apart ht).completions
  have hlt := (h.flow.apart ht).lt
  have hzero : ∀ n, t.holds c n = 0 := fun n => by simp [Task.holds, hb.workItem]
  have hrefs : ∀ r, t.refs r = 0 := fun r => by simp [Task.refs, hb.uses]
  have hone : ∀ j, (Task.complete i dispatcher status information).owns j = t.owns j := fun j => by
    simp only [Task.owns, ht]
    rfl
  -- Whether or not there is an admission to settle, the IRP goes on to its completion.
  have hlocal : ∀ f : Fair, f.held = c.held → f.waiting = c.waiting → f.reserved = c.reserved →
      f.givenBack = c.givenBack → (∀ j, j ≠ i → f.irps j = c.irps j) → (f.irps i).completions = [] →
      Closed (({ c with returned := returned } : Core).withFair f) i →
      Local V c (({ c with returned := returned } : Core).withFair f) t
        [.complete i dispatcher status information] i := by
    intro f hheld hwaiting hres hgb hirps hnil hclosed
    refine ⟨hheld, hwaiting, rfl, rfl, rfl, hirps, hret, fun j _ => congrFun hres j, hnil, fun j => ?_, fun j => ?_,
      fun r => ?_, fun r => ?_, fun n => ?_, h.flow.itemCount, fun j => ?_, fun t' ht' => ?_, h.flow.misuse⟩
    · rw [tally_cons, tally_nil, hone]
      rfl
    · have hdj := hd j
      rw [tally_cons, tally_nil]
      show 0 + 0 + (if returned j = none then 0 else 1) = _
      omega
    · rw [hrefs r]
      rfl
    · rw [hb.issues r]
      rfl
    · rw [hzero n]
      rfl
    · rw [hb.owes j]
      show f.reserved j + c.givenBack j + 0 = c.reserved j + f.givenBack j + 0
      rw [hres, hgb]
    · rw [List.mem_singleton.mp ht']
      exact ⟨hclosed, hans⟩
  unfold Fair.settle
  by_cases ha : (c.irps i).admitted = false
  · rw [if_pos ha]
    have hl := hlocal c.toFair rfl rfl rfl rfl (fun _ _ => rfl) hcompl ((Closed.of_open ho ha).congr rfl)
    exact h.local ht hl h.account
  · rw [if_neg ha]
    rw [Bool.not_eq_false] at ha
    have hself : (c.toFair.uncharge V i).irps i =
        { c.irps i with admitted := false, settlements := (c.irps i).settlements + 1 } := by
      simp [Fair.uncharge]
    have hclosed : Closed (({ c with returned := returned } : Core).withFair (c.toFair.uncharge V i)) i := by
      have had := ho.admissions
      have hs := ho.settlements
      rw [if_pos ha] at had
      refine ⟨?_, ?_, ?_⟩ <;> show _ <;> simp only [withFair, hself] <;> omega
    have hl := hlocal (c.toFair.uncharge V i) rfl rfl rfl rfl (fun j hj => by simp [Fair.uncharge, hj])
      (by rw [hself]; exact hcompl) hclosed
    have hacc : Account V (c.toFair.uncharge V i) c.count := h.account.uncharge hlt ha
    exact (h.local ht hl hacc).admitHeld

/-! ### ReadFairGiveBack -/

theorem restore_zero (f : Fair) (i : ℕ) : f.restore i 0 = f := by
  simp [Fair.restore, wrapSub]

/-- Fetches that are still owed for read `i` are given back. -/
theorem Sound.giveBack (h : Account V c.toFair c.count) (hi : n ≠ 0 → i < c.count)
    (hle : c.givenBack i + n ≤ c.reserved i) (hf : Flow V (c.withFair (c.toFair.restore i n)) new) :
    Sound V (c.withFair (c.toFair.giveBack V i n).1) ((c.toFair.giveBack V i n).2.map .issueHeld ++ new) := by
  unfold Fair.giveBack
  split
  next h0 =>
    subst h0
    rw [restore_zero] at hf
    exact ⟨hf, h⟩
  next h0 => exact Sound.admitHeld ⟨hf, h.restore (hi h0) hle⟩

end BlorgFS.Read
