import BlorgFS.Read.Sections

/-! Each step of a task that has an IRP keeps the flow and the account. -/

namespace BlorgFS.Read

open Lib DiskCache Core

variable {V : Setup} {c c' : Core} {t t' : Task} {rest : List Task} {i n : ℕ} {k : Issue} {ch : Choice}

/-! ### Moving on -/

/-- Two tasks that have the same. -/
structure Alike (c : Core) (t t' : Task) : Prop where
  owner : t'.owner = t.owner
  dispatching : t'.dispatching = t.dispatching
  uses : uses t' = uses t
  issues : ∀ r, t'.issues r = t.issues r
  workItem : t'.workItem c = t.workItem c
  owes : ∀ i, t'.owes c i = t.owes c i

/-- A thread goes on to its next point. -/
theorem Sound.pass (h : Sound V c (t :: rest)) (ha : Alike c t t') (hok : t'.Ok V c) : Sound V c (t' :: rest) := by
  have howns : ∀ i, t'.owns i = t.owns i := fun i => by simp only [Task.owns, ha.owner]
  have hdisp : ∀ i, t'.dispatches i = t.dispatches i := fun i => by simp only [Task.dispatches, ha.dispatching]
  have hrefs : ∀ r, t'.refs r = t.refs r := fun r => by simp only [Task.refs, ha.uses]
  have hholds : ∀ n, t'.holds c n = t.holds c n := fun n => by simp only [Task.holds, ha.workItem]
  have hf := h.flow
  refine ⟨⟨fun j => ?_, fun j => ?_, fun r => ?_, fun r => ?_, fun m => ?_, hf.itemCount, fun j => ?_, hf.readCount,
    fun t₁ ht₁ => ?_, hf.lists, hf.reading, hf.used, hf.closed, hf.answers, hf.blank, hf.misuse⟩, h.account⟩
  · rw [tally_cons, howns, ← tally_cons]
    exact hf.owners j
  · rw [tally_cons, hdisp, ← tally_cons]
    exact hf.dispatchers j
  · rw [tally_cons, hrefs, ← tally_cons]
    exact hf.refs r
  · rw [tally_cons, ha.issues, ← tally_cons]
    exact hf.issuers r
  · rw [tally_cons, hholds, ← tally_cons]
    exact hf.items m
  · rw [tally_cons, ha.owes, ← tally_cons]
    exact hf.owed j
  · rcases List.mem_cons.mp ht₁ with rfl | ht₁
    · exact hok
    · exact hf.ok t₁ (List.mem_cons_of_mem _ ht₁)

/-- Two points of one thread that has nothing but its IRP. -/
theorem Alike.of_locals {k' : Issue} (hl : t.locals = some k) (hl' : t'.locals = some k') (hirp : k'.irp = k.irp)
    (hcaller : k'.caller = k.caller) (ho : t.owner = some k.irp) (ho' : t'.owner = some k.irp) (hb : Bare c t)
    (hb' : Bare c t') : Alike c t t' where
  owner := ho'.trans ho.symm
  dispatching := by simp only [Task.dispatching, hl, hl', hirp, hcaller]
  uses := hb'.uses.trans hb.uses.symm
  issues r := (hb'.issues r).trans (hb.issues r).symm
  workItem := hb'.workItem.trans hb.workItem.symm
  owes i := (hb'.owes i).trans (hb.owes i).symm

theorem admittedTo_alike (hl : t.locals = some k) (ho : t.owner = some k.irp) (hb : Bare c t) :
    Alike c t (admittedTo k) := by
  unfold admittedTo
  cases k.caller with
  | dispatcher =>
    simp only
    split <;> exact Alike.of_locals hl rfl rfl rfl ho rfl hb ⟨rfl, fun _ => rfl, rfl, fun _ => rfl⟩
  | released fromDiskCache =>
    simp only
    split <;> exact Alike.of_locals hl rfl rfl rfl ho rfl hb ⟨rfl, fun _ => rfl, rfl, fun _ => rfl⟩

theorem admittedTo_ok (ho : Open c k.irp) (ha : (c.irps k.irp).admitted = true) : (admittedTo k).Ok V c := by
  unfold admittedTo
  cases hc : k.caller with
  | dispatcher =>
    simp only
    split <;> exact ⟨ho, ha⟩
  | released fromDiskCache =>
    simp only
    split
    · exact ⟨ho, by rw [ha, hc]; rfl⟩
    · exact ⟨ho, ha⟩

/-- Where a thread goes when the cache does not take its read whole. -/
theorem notWhole_alike (runs : ℕ) (hl : t.locals = some k) (ho : t.owner = some k.irp) (hb : Bare c t) :
    Alike c t (notWhole k runs) := by
  unfold notWhole
  cases hc : k.caller with
  | dispatcher => exact Alike.of_locals hl rfl rfl hc.symm ho rfl hb ⟨rfl, fun _ => rfl, rfl, fun _ => rfl⟩
  | released fromDiskCache =>
    simp only
    split <;> exact Alike.of_locals hl rfl rfl hc.symm ho rfl hb ⟨rfl, fun _ => rfl, rfl, fun _ => rfl⟩

theorem notWhole_ok (runs : ℕ) (ho : Open c k.irp) (ha : (c.irps k.irp).admitted = k.caller.isReleased) :
    (notWhole k runs).Ok V c := by
  unfold notWhole
  cases hc : k.caller with
  | dispatcher => exact ⟨ho, by rw [ha, hc]; rfl⟩
  | released fromDiskCache =>
    rw [hc] at ha
    simp only
    split <;> exact ⟨ho, ha⟩

/-! ### ReadFairAdmit -/

/-- The read is admitted, and its thread goes on as `t'`. -/
theorem Sound.admitNow (h : Sound V c (t :: rest)) (t' : Task) (ht : t.owner = some i) (ho : Open c i)
    (ha : (c.irps i).admitted = false) (hroom : c.inFlightFetches < maxFetches)
    (hal : Alike (c.withFair (c.toFair.admitNow V i)) t t') (hw : t.workItem (c.withFair (c.toFair.admitNow V i)) = t.workItem c)
    (howe : ∀ j, t.owes c j = 0) (hok : Open (c.withFair (c.toFair.admitNow V i)) i →
      ((c.withFair (c.toFair.admitNow V i)).irps i).admitted = true → t'.Ok V (c.withFair (c.toFair.admitNow V i))) :
    Sound V (c.withFair (c.toFair.admitNow V i)) (t' :: rest) := by
  have hap := h.flow.apart ht
  set c' := c.withFair (c.toFair.admitNow V i)
  have hself : c'.irps i = { c.irps i with admitted := true, admissions := (c.irps i).admissions + 1 } := by
    simp [c', withFair, Fair.admitNow, Fair.charge, Fair.tag]
  have hother : ∀ j, j ≠ i → c'.irps j = c.irps j := fun j hj => by
    simp [c', withFair, Fair.admitNow, Fair.charge, Fair.tag, hj]
  have hopen : Open c' i := ⟨ho.quiet, by rw [hself]; exact ho.settlements, by
    have had := ho.admissions
    rw [ha] at had
    rw [hself]
    simpa using had⟩
  have hnil : (c'.irps i).completions = [] := by rw [hself]; exact hap.completions
  have hl : Local V c c' t [t'] i := by
    refine ⟨rfl, rfl, rfl, rfl, rfl, hother, fun _ _ => rfl, fun _ _ => rfl, hnil, fun j => ?_, fun j => ?_,
      fun r => ?_, fun r => ?_, fun m => ?_, h.flow.itemCount, fun j => ?_, fun t₁ ht₁ => ?_, h.flow.misuse⟩
    · rw [tally_cons, tally_nil]
      simp [Task.owns, hal.owner]
    · rw [tally_cons, tally_nil]
      simp only [Task.dispatches, hal.dispatching]
      rfl
    · rw [tally_cons, tally_nil]
      simp only [Task.refs, hal.uses]
      rfl
    · rw [tally_cons, tally_nil, hal.issues]
      rfl
    · rw [tally_cons, tally_nil]
      simp only [Task.holds, hal.workItem, hw]
      rfl
    · have hzero : t.owes c' j = t.owes c j := Task.owes_congr fun _ _ => rfl
      rw [tally_cons, tally_nil, hal.owes, hzero, howe j]
      rfl
    · rw [List.mem_singleton.mp ht₁]
      exact hok hopen (by rw [hself])
  have hacc : Account V c'.toFair c'.count := by
    have htag : Account V (c.toFair.tag V i) c.count :=
      h.account.congr rfl rfl (fun node => by
        by_cases hn : node = (V.request i).node
        · subst hn
          simp [Fair.tag]
        · simp [Fair.tag, hn]) (fun _ => rfl) rfl rfl rfl
    exact (htag.charge hap.lt ha hroom).congr rfl rfl (fun _ => rfl) (fun _ => rfl) rfl rfl rfl
  exact h.local ht hl hacc

theorem room_of_not_mustHold {f : Fair} {node : ℕ} {mayHold : Bool} (h : f.mustHold V node mayHold = false) :
    f.inFlightFetches < maxFetches := by
  simp only [Fair.mustHold, Bool.or_eq_false_iff, decide_eq_false_iff_not] at h
  omega

theorem admitFirst_step (h : Sound V c (.admitFirst k :: rest)) :
    Sound V (c.step V ch (.admitFirst k)).1 ((c.step V ch (.admitFirst k)).2 ++ rest) := by
  obtain ⟨ho, ha⟩ := h.flow.ok _ List.mem_cons_self
  have hb : Bare c (.admitFirst k) := ⟨rfl, fun _ => rfl, rfl, fun _ => rfl⟩
  simp only [step]
  split
  next => exact h.pass (Alike.of_locals rfl rfl rfl rfl rfl rfl hb ⟨rfl, fun _ => rfl, rfl, fun _ => rfl⟩) ⟨ho, ha⟩
  next hm =>
    rw [Bool.not_eq_true] at hm
    exact h.admitNow _ rfl ho ha (room_of_not_mustHold hm) (admittedTo_alike rfl rfl ⟨rfl, fun _ => rfl, rfl, fun _ => rfl⟩) rfl
      (fun _ => rfl) admittedTo_ok

/-- A work item is allocated for a thread to hold. -/
theorem allocate_step (h : Sound V c (.allocate k :: rest)) :
    Sound V (c.step V ch (.allocate k)).1 ((c.step V ch (.allocate k)).2 ++ rest) := by
  obtain ⟨ho, ha⟩ := h.flow.ok _ List.mem_cons_self
  have hap := h.flow.apart (i := k.irp) rfl
  simp only [step]
  split
  next =>
    refine h.local (i := k.irp) rfl ⟨rfl, rfl, rfl, rfl, rfl, fun _ _ => rfl, fun _ _ => rfl, fun _ _ => rfl,
      hap.completions, fun _ => rfl, fun _ => rfl, fun _ => rfl, fun _ => rfl, fun m => ?_, fun m hm => ?_,
      fun _ => rfl, fun t₁ ht₁ => ?_, h.flow.misuse⟩ h.account
    · have hzero : (Task.allocate k).holds c m = 0 := rfl
      have hone : (Task.admitAgain k c.itemCount).holds c.allocate m = if c.itemCount = m then 1 else 0 := by
        simp [Task.holds, Task.workItem]
      rw [hzero, tally_cons, tally_nil, hone]
      show (c.itemCount :: c.items).count m + 0 = _
      rw [List.count_cons]
      simp
    · rcases List.mem_cons.mp hm with rfl | hm
      · exact Nat.lt_succ_self _
      · exact Nat.lt_succ_of_lt (h.flow.itemCount m hm)
    · rw [List.mem_singleton.mp ht₁]
      exact ⟨ho.congr rfl (Or.inl rfl), ha⟩
  next =>
    unfold refuse
    cases hc : k.caller with
    | dispatcher =>
      refine h.local (i := k.irp) rfl ⟨rfl, rfl, rfl, rfl, rfl, fun _ _ => rfl, fun j hj => ?_, fun _ _ => rfl,
        hap.completions, fun _ => rfl, fun j => ?_, fun _ => rfl, fun _ => rfl, fun _ => rfl, h.flow.itemCount,
        fun _ => rfl, fun t₁ ht₁ => ?_, h.flow.misuse⟩ h.account
      · simp [returns, hj]
      · have hnone := h.flow.returned_of_dispatching (i := k.irp) (by simp [Task.dispatching, Task.locals, hc])
        rw [Task.dispatches_of_locals rfl]
        by_cases hj : j = k.irp
        · subst hj
          simp [returns, hc, hnone, Task.dispatches, Task.dispatching, Task.locals]
        · simp [returns, hj, Task.dispatches, Task.dispatching, Task.locals]
      · rw [List.mem_singleton.mp ht₁]
        exact ⟨(Closed.of_open ho ha).congr rfl, by simp [Answers, returns]⟩
    | released fromDiskCache =>
      exact h.pass (Alike.of_locals rfl rfl rfl rfl rfl rfl ⟨rfl, fun _ => rfl, rfl, fun _ => rfl⟩
        ⟨rfl, fun _ => rfl, rfl, fun _ => rfl⟩) ⟨ho, by simp⟩

theorem Account.hold {f : Fair} (ha : Account V f n) (i : ℕ) (mayHold : Bool) (item : ℕ) :
    Account V (f.hold V i mayHold item) n := by
  have hnodes : ∀ node, ((f.hold V i mayHold item).nodes node).readFetchesInFlight =
      (f.nodes node).readFetchesInFlight := by
    intro node
    by_cases hn : node = (V.request i).node
    · subst hn
      cases mayHold <;> simp [Fair.hold, Fair.setIrp, Fair.tag]
    · cases mayHold <;> simp [Fair.hold, Fair.setIrp, Fair.tag, hn]
  have hirps : ∀ j, ((f.hold V i mayHold item).irps j).admitted = (f.irps j).admitted := by
    intro j
    by_cases hj : j = i
    · subst hj
      cases mayHold <;> simp [Fair.hold, Fair.setIrp]
    · cases mayHold <;> simp [Fair.hold, Fair.setIrp, Fair.tag, hj]
  cases mayHold <;> exact ha.congr rfl rfl hnodes hirps rfl rfl rfl

theorem admitAgain_step (h : Sound V c (.admitAgain k n :: rest)) :
    Sound V (c.step V ch (.admitAgain k n)).1 ((c.step V ch (.admitAgain k n)).2 ++ rest) := by
  obtain ⟨ho, ha⟩ := h.flow.ok _ List.mem_cons_self
  simp only [step]
  split
  next =>
    refine ⟨h.flow.hold _, ?_⟩
    rw [leave_toFair, (leave_reads _ k).2.2.1]
    exact h.account.hold _ _ _
  next hm =>
    rw [Bool.not_eq_true] at hm
    exact h.admitNow (.freeItem k n) rfl ho ha (room_of_not_mustHold hm)
      ⟨rfl, rfl, rfl, fun _ => rfl, rfl, fun _ => rfl⟩ rfl (fun _ => rfl) fun ho ha => ⟨ho, ha⟩

theorem Flow.mem_items (h : Flow V c (t :: rest)) (hw : t.workItem c = some n) : n ∈ c.items := by
  have hitems := h.items n
  have hone : t.holds c n = 1 := by simp [Task.holds, hw]
  rw [tally_cons, hone] at hitems
  exact List.count_pos_iff.mp (by omega)

/-- A thread frees the work item it has and goes on with nothing but its IRP. -/
theorem Sound.free (h : Sound V c (t :: rest)) (t' : Task) (ht : t.owner = some i) (hw : t.workItem c = some n)
    (hal : t'.owner = t.owner ∧ t'.dispatching = t.dispatching) (hb : uses t = none ∧ (∀ r, t.issues r = 0) ∧ ∀ j, t.owes c j = 0)
    (hb' : Bare (c.free n) t') (hok : t'.Ok V (c.free n)) : Sound V (c.free n) (t' :: rest) := by
  have hap := h.flow.apart ht
  have hmem := h.flow.mem_items hw
  suffices hl : Local V c (c.free n) t [t'] i from h.local ht hl h.account
  refine ⟨rfl, rfl, rfl, rfl, rfl, fun _ _ => rfl, fun _ _ => rfl, fun _ _ => rfl, hap.completions, fun j => ?_,
    fun j => ?_, fun r => ?_, fun r => ?_, fun m => ?_, fun m hm => h.flow.itemCount m (List.mem_of_mem_erase hm),
    fun j => ?_, fun t₁ ht₁ => ?_, h.flow.misuse⟩
  · rw [tally_cons, tally_nil]
    simp only [Task.owns, hal.1]
    rfl
  · rw [tally_cons, tally_nil]
    simp only [Task.dispatches, hal.2]
    rfl
  · rw [tally_cons, tally_nil]
    simp only [Task.refs, hb'.uses, hb.1]
    rfl
  · rw [tally_cons, tally_nil, hb'.issues, hb.2.1]
  · have hone : t.holds c m = if n = m then 1 else 0 := by simp [Task.holds, hw]
    have hzero : t'.holds (c.free n) m = 0 := by simp [Task.holds, hb'.workItem]
    rw [tally_cons, tally_nil, hone, hzero]
    show (c.items.erase n).count m + _ = _
    rw [List.count_erase]
    by_cases hm : n = m
    · subst hm
      have hpos := List.count_pos_iff.mpr hmem
      simp only [beq_self_eq_true, if_true]
      omega
    · simp [hm]
  · rw [tally_cons, tally_nil, hb'.owes, hb.2.2]
    rfl
  · rw [List.mem_singleton.mp ht₁]
    exact hok

theorem freeItem_step (h : Sound V c (.freeItem k n :: rest)) :
    Sound V (c.step V ch (.freeItem k n)).1 ((c.step V ch (.freeItem k n)).2 ++ rest) := by
  obtain ⟨ho, ha⟩ := h.flow.ok _ List.mem_cons_self
  have hal := @admittedTo_alike (c.free n) (.fetch k) k rfl rfl ⟨rfl, fun _ => rfl, rfl, fun _ => rfl⟩
  exact h.free (admittedTo k) (i := k.irp) rfl rfl ⟨hal.owner, hal.dispatching⟩ ⟨rfl, fun _ => rfl, fun _ => rfl⟩
    ⟨hal.workItem, hal.owes, hal.uses, hal.issues⟩ (admittedTo_ok (ho.congr rfl (Or.inl rfl)) ha)

/-! ### Reserving and giving back -/

theorem reserve_step (h : Sound V c (.reserve k :: rest)) :
    Sound V (c.step V ch (.reserve k)).1 ((c.step V ch (.reserve k)).2 ++ rest) := by
  obtain ⟨ho, ha⟩ := h.flow.ok _ List.mem_cons_self
  have hap := h.flow.apart (i := k.irp) rfl
  refine h.local (i := k.irp) rfl ⟨rfl, rfl, rfl, rfl, rfl, fun _ _ => rfl, fun _ _ => rfl, fun j hj => ?_, hap.completions,
    fun _ => rfl, fun _ => rfl, fun _ => rfl, fun _ => rfl, fun _ => rfl, h.flow.itemCount, fun j => ?_, fun t₁ ht₁ => ?_,
    h.flow.misuse⟩ (h.account.reserve hap.lt _)
  · exact Function.update_of_ne hj _ _
  · by_cases hj : j = k.irp
    · subst hj
      simp [step, withFair, Fair.reserve, Task.owes]
      omega
    · simp [step, withFair, Fair.reserve, Task.owes, hj, Ne.symm hj]
  · rw [List.mem_singleton.mp ht₁]
    exact ⟨ho.congr rfl (Or.inl rfl), ha⟩

/-- An owner that owes `n` gives it back and goes on as `t'`. -/
theorem Sound.repay (h : Sound V c (t :: rest)) (t' : Task) (ht : t.owner = some i) (howe : ∀ j, t.owes c j = if i = j then n else 0)
    (hal : t'.owner = t.owner ∧ t'.dispatching = t.dispatching)
    (hb : uses t = none ∧ (∀ r, t.issues r = 0) ∧ t.workItem c = none)
    (hb' : Bare (c.withFair (c.toFair.restore i n)) t') (hok : t'.Ok V (c.withFair (c.toFair.restore i n))) :
    Sound V (c.withFair (c.toFair.giveBack V i n).1)
      ((c.toFair.giveBack V i n).2.map .issueHeld ++ t' :: rest) := by
  have hap := h.flow.apart ht
  have howed := h.flow.owed i
  rw [tally_cons, howe i, if_pos rfl] at howed
  suffices hl : Local V c (c.withFair (c.toFair.restore i n)) t [t'] i from
    Sound.giveBack h.account (fun _ => hap.lt) (by omega) (h.flow.local ht hl)
  refine ⟨rfl, rfl, rfl, rfl, rfl, fun _ _ => rfl, fun _ _ => rfl, fun _ _ => rfl, hap.completions, fun j => ?_,
    fun j => ?_, fun r => ?_, fun r => ?_, fun m => ?_, h.flow.itemCount, fun j => ?_, fun t₁ ht₁ => ?_, h.flow.misuse⟩
  · rw [tally_cons, tally_nil]
    simp only [Task.owns, hal.1]
    rfl
  · rw [tally_cons, tally_nil]
    simp only [Task.dispatches, hal.2]
    rfl
  · rw [tally_cons, tally_nil]
    simp only [Task.refs, hb'.uses, hb.1]
    rfl
  · rw [tally_cons, tally_nil, hb'.issues, hb.2.1]
  · have hzero : t.holds c m = 0 := by simp [Task.holds, hb.2.2]
    have hzero' : t'.holds (c.withFair (c.toFair.restore i n)) m = 0 := by simp [Task.holds, hb'.workItem]
    rw [tally_cons, tally_nil, hzero, hzero']
    rfl
  · rw [tally_cons, tally_nil, hb'.owes, howe j]
    by_cases hj : i = j
    · subst hj
      simp [withFair, Fair.restore]
      omega
    · simp [withFair, Fair.restore, hj, Ne.symm hj]
  · rw [List.mem_singleton.mp ht₁]
    exact hok

theorem declined_step {reserved : ℕ} (h : Sound V c (.declined k reserved :: rest)) :
    Sound V (c.step V ch (.declined k reserved)).1 ((c.step V ch (.declined k reserved)).2 ++ rest) := by
  obtain ⟨ho, ha⟩ := h.flow.ok _ List.mem_cons_self
  have hr := h.repay (.fetch k) (i := k.irp) rfl (fun _ => rfl) ⟨rfl, rfl⟩ ⟨rfl, fun _ => rfl, rfl⟩
    ⟨rfl, fun _ => rfl, rfl, fun _ => rfl⟩ ⟨ho.congr rfl (Or.inl rfl), ha⟩
  exact hr.perm List.perm_middle

theorem diskComplete_step {status : Status} {valid fetches : ℕ} {refetch : Bool}
    (h : Sound V c (.diskComplete i status valid fetches refetch :: rest)) :
    Sound V (c.step V ch (.diskComplete i status valid fetches refetch)).1
      ((c.step V ch (.diskComplete i status valid fetches refetch)).2 ++ rest) := by
  have ho := h.flow.ok _ List.mem_cons_self
  have hr := h.repay (.diskSettle i status valid refetch) (i := i) rfl (fun _ => rfl) ⟨rfl, rfl⟩
    ⟨rfl, fun _ => rfl, rfl⟩ ⟨rfl, fun _ => rfl, rfl, fun _ => rfl⟩ (Open.congr ho rfl (Or.inl rfl))
  exact hr.perm List.perm_middle

/-! ### Issuing, settling and completing -/

theorem fetch_step (h : Sound V c (.fetch k :: rest)) :
    Sound V (c.step V ch (.fetch k)).1 ((c.step V ch (.fetch k)).2 ++ rest) := by
  obtain ⟨ho, ha⟩ := h.flow.ok _ List.mem_cons_self
  have hap := h.flow.apart (i := k.irp) rfl
  set c₁ := c.setContext2 k.irp .stamp with hc₁
  have hself : c₁.irps k.irp = { c.irps k.irp with context2 := .stamp } := by simp [c₁, setContext2, withFair, Fair.setIrp]
  have hother : ∀ j, j ≠ k.irp → c₁.irps j = c.irps j := fun j hj => by
    simp [c₁, setContext2, withFair, Fair.setIrp, hj]
  have hadm : ∀ j, (c₁.irps j).admitted = (c.irps j).admitted := fun j => by
    by_cases hj : j = k.irp
    · rw [hj, hself]
    · rw [hother j hj]
  have hacc : Account V c₁.toFair c₁.count := h.account.congr rfl rfl (fun _ => rfl) hadm rfl rfl rfl
  have hopen : Open c₁ k.irp := ⟨ho.quiet, by rw [hself]; exact ho.settlements, by rw [hself]; exact ho.admissions⟩
  have hnil : (c₁.irps k.irp).completions = [] := by rw [hself]; exact hap.completions
  simp only [step, ← hc₁]
  split
  next =>
    have hkeep := @Flow.leave_keeps V c c₁ rest _ h.flow k rfl rfl
    have hdisp := @Flow.leave_dispatches V c c₁ rest _ h.flow k rfl rfl
    have hfair := leave_toFair c₁ k
    obtain ⟨hreads, hrc, hcount, hitems, hic, hmis⟩ := leave_reads c₁ k
    have hirps : (c₁.leave k).irps = c₁.irps := by rw [hfair]
    suffices hl : Local V c (c₁.leave k) (.fetch k) [.fetching k.irp] k.irp from
      h.local (i := k.irp) rfl hl (by rw [hfair, hcount]; exact hacc)
    refine ⟨by rw [hfair]; rfl, by rw [hfair]; rfl, hrc, hreads, hcount, fun j hj => by rw [hirps]; exact hother j hj,
      fun j hj => ?_, fun j _ => by rw [hfair]; rfl, by rw [hirps]; exact hnil, fun _ => rfl, fun j => ?_, fun _ => rfl,
      fun _ => rfl, fun m => ?_, ?_, fun j => ?_, fun t₁ ht₁ => ?_, hmis.trans h.flow.misuse⟩
    · rw [leave_returned, if_neg fun hd => hj hd.2]
      rfl
    · have hd := hdisp j
      show 0 + (if (c₁.leave k).returned j = none then 0 else 1) = _
      omega
    · rw [hitems]
      rfl
    · rw [hitems, hic]
      exact h.flow.itemCount
    · rw [hfair]
      rfl
    · rw [List.mem_singleton.mp ht₁]
      exact ⟨⟨ho.quiet.congr (hkeep k.irp), by rw [hirps]; exact hopen.settlements, by rw [hirps]; exact hopen.admissions⟩,
        by rw [hirps, hadm]; exact ha, by rw [hirps, hself]⟩
  next =>
    suffices hl : Local V c c₁ (.fetch k) [.unissued k (.failed ch.code)] k.irp from h.local (i := k.irp) rfl hl hacc
    refine ⟨rfl, rfl, rfl, rfl, rfl, hother, fun _ _ => rfl, fun _ _ => rfl, hnil, fun _ => rfl, fun _ => rfl,
      fun _ => rfl, fun _ => rfl, fun _ => rfl, h.flow.itemCount, fun _ => rfl, fun t₁ ht₁ => ?_, h.flow.misuse⟩
    rw [List.mem_singleton.mp ht₁]
    exact ⟨hopen, by simp⟩

theorem unissued_step {status : Status} (h : Sound V c (.unissued k status :: rest)) :
    Sound V (c.step V ch (.unissued k status)).1 ((c.step V ch (.unissued k status)).2 ++ rest) := by
  obtain ⟨ho, hne⟩ := h.flow.ok _ List.mem_cons_self
  have hb : Bare c (.unissued k status) := ⟨rfl, fun _ => rfl, rfl, fun _ => rfl⟩
  simp only [step]
  cases hc : k.caller with
  | dispatcher =>
    have hnone := h.flow.returned_of_dispatching (i := k.irp) (by simp [Task.dispatching, Task.locals, hc])
    have hs := @Sound.settle V c _ rest k.irp (Function.update c.returned k.irp (some status)) true status 0 h rfl ho hb
      (fun j hj => Function.update_of_ne hj _ _) (fun j => by
        rw [Task.dispatches_of_locals rfl]
        by_cases hj : j = k.irp
        · subst hj
          simp [hc, hnone]
        · simp [hj]) (by simp [Answers, hne])
    exact hs.perm List.perm_middle
  | released fromDiskCache =>
    have hs := @Sound.settle V c _ rest k.irp c.returned false status 0 h rfl ho hb (fun _ _ => rfl) (fun j => by
      rw [Task.dispatches_of_locals rfl]
      simp [hc]) ho.quiet
    exact hs.perm List.perm_middle

theorem fetching_step (h : Sound V c (.fetching i :: rest)) :
    Sound V (c.step V ch (.fetching i)).1 ((c.step V ch (.fetching i)).2 ++ rest) := by
  obtain ⟨ho, -, -⟩ := h.flow.ok _ List.mem_cons_self
  have hs := fun status information => @Sound.settle V c _ rest i c.returned false status information h rfl ho
    ⟨rfl, fun _ => rfl, rfl, fun _ => rfl⟩ (fun _ _ => rfl) (fun j => (Nat.zero_add _).symm) ho.quiet
  exact (hs _ _).perm List.perm_middle

theorem diskSettle_step {status : Status} {valid : ℕ} {refetch : Bool} (h : Sound V c (.diskSettle i status valid refetch :: rest)) :
    Sound V (c.step V ch (.diskSettle i status valid refetch)).1
      ((c.step V ch (.diskSettle i status valid refetch)).2 ++ rest) := by
  have ho : Open c i := h.flow.ok _ List.mem_cons_self
  have hap := h.flow.apart (i := i) rfl
  have hs := fun status information => @Sound.settle V c _ rest i c.returned false status information h rfl ho
    ⟨rfl, fun _ => rfl, rfl, fun _ => rfl⟩ (fun _ _ => rfl) (fun j => (Nat.zero_add _).symm) ho.quiet
  simp only [step]
  split
  next => exact (hs _ _).perm List.perm_middle
  next =>
    split
    next =>
      -- The whole read is to be fetched again, from a work item of its own.
      set c₁ := c.allocate.setContext2 i (.item c.itemCount) with hc₁
      have hself : c₁.irps i = { c.irps i with context2 := .item c.itemCount } := by
        simp [c₁, setContext2, withFair, Fair.setIrp, allocate]
      have hother : ∀ j, j ≠ i → c₁.irps j = c.irps j := fun j hj => by
        simp [c₁, setContext2, withFair, Fair.setIrp, allocate, hj]
      have hacc : Account V c₁.toFair c₁.count := h.account.congr rfl rfl (fun _ => rfl) (fun j => by
        by_cases hj : j = i
        · rw [hj, hself]
        · rw [hother j hj]) rfl rfl rfl
      suffices hl : Local V c c₁ (.diskSettle i status valid refetch) [.worker i false] i from h.local (i := i) rfl hl hacc
      refine ⟨rfl, rfl, rfl, rfl, rfl, hother, fun _ _ => rfl, fun _ _ => rfl, by rw [hself]; exact hap.completions,
        fun _ => rfl, fun _ => rfl, fun _ => rfl, fun _ => rfl, fun m => ?_, fun m hm => ?_, fun _ => rfl,
        fun t₁ ht₁ => ?_, h.flow.misuse⟩
      · have hone : (Task.worker i false).holds c₁ m = if c.itemCount = m then 1 else 0 := by
          simp [Task.holds, Task.workItem, hself, Context2.workItem]
        have hzero : (Task.diskSettle i status valid refetch).holds c m = 0 := rfl
        rw [tally_cons, tally_nil, hone, hzero]
        show (c.itemCount :: c.items).count m + 0 = _
        rw [List.count_cons]
        simp
      · rcases List.mem_cons.mp hm with rfl | hm
        · exact Nat.lt_succ_self _
        · exact Nat.lt_succ_of_lt (h.flow.itemCount m hm)
      · rw [List.mem_singleton.mp ht₁]
        exact ⟨⟨ho.quiet, by rw [hself]; exact ho.settlements, by rw [hself]; exact ho.admissions⟩,
          by rw [hself]; rfl⟩
    next => exact (hs _ _).perm List.perm_middle

theorem issueHeld_step (h : Sound V c (.issueHeld i :: rest)) :
    Sound V (c.step V ch (.issueHeld i)).1 ((c.step V ch (.issueHeld i)).2 ++ rest) := by
  obtain ⟨ho, -, hw⟩ := h.flow.ok _ List.mem_cons_self
  exact h.pass ⟨rfl, rfl, rfl, fun _ => rfl, rfl, fun _ => rfl⟩ ⟨ho, hw⟩

theorem worker_step {fromDiskCache : Bool} (h : Sound V c (.worker i fromDiskCache :: rest)) :
    Sound V (c.step V ch (.worker i fromDiskCache)).1 ((c.step V ch (.worker i fromDiskCache)).2 ++ rest) := by
  obtain ⟨ho, hw⟩ := h.flow.ok _ List.mem_cons_self
  obtain ⟨n, hctx⟩ := Context2.exists_item hw
  have ho' : Open (c.free n) i := ho.congr rfl (Or.inl rfl)
  have hgo : ∀ t', t'.owner = some i → t'.dispatching = none → Bare (c.free n) t' → t'.Ok V (c.free n) →
      Sound V (c.free n) (t' :: rest) := fun t' hown hd hb hok =>
    h.free t' rfl (by simp [Task.workItem, hctx, Context2.workItem]) ⟨hown, hd⟩ ⟨rfl, fun _ => rfl, fun _ => rfl⟩ hb hok
  simp only [step, hctx]
  split
  next => exact hgo _ rfl (by simp [Task.dispatching, Task.locals]) ⟨rfl, fun _ => rfl, rfl, fun _ => rfl⟩ ⟨ho', by simp⟩
  next valid _ =>
    split
    next ha => exact hgo _ rfl (by simp [Task.dispatching, Task.locals]) ⟨rfl, fun _ => rfl, rfl, fun _ => rfl⟩ ⟨ho', ha⟩
    next ha =>
      rw [Bool.not_eq_false] at ha
      have hal := @admittedTo_alike (c.free n) (.fetch ⟨i, .released fromDiskCache, valid, 0⟩) _ rfl rfl
        ⟨rfl, fun _ => rfl, rfl, fun _ => rfl⟩
      exact hgo _ hal.owner (hal.dispatching.trans (by simp [Task.dispatching, Task.locals]))
        ⟨hal.workItem, hal.owes, hal.uses, hal.issues⟩ (admittedTo_ok ho' ha)

end BlorgFS.Read
