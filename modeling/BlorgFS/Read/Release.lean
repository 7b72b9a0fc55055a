import BlorgFS.Read.Flow
import BlorgFS.Read.Account

/-! Holding and releasing reads: which one `ReadFairAdmitHeld` takes next, that each
it takes goes from its list to a queue with its work item and is charged, and what is
left when its loop ends. -/

namespace BlorgFS.Read

open Lib DiskCache Core

variable {V : Setup} {f : Fair} {c c' : Core} {tasks rest : List Task} {i j : ℕ}

/-! ### The read that goes out next -/

namespace Fair

/-- The link has room for read-ahead `i`, or its file has nothing in flight. -/
def Ready (V : Setup) (f : Fair) (room : Bool) (i : ℕ) : Prop :=
  (f.irps i).context1 < 2 ^ 64 - 1 ∧ (room = true ∨ (f.nodeOf V i).readFetchesInFlight = 0)

/-- The walk's body. -/
def better (V : Setup) (f : Fair) (room : Bool) (next : Option ℕ × ℕ) (i : ℕ) : Option ℕ × ℕ :=
  if (f.irps i).context1 < next.2 ∧ (room = true ∨ (f.nodeOf V i).readFetchesInFlight = 0)
  then (some i, (f.irps i).context1) else next

theorem foldl_better_some {room : Bool} {l : List ℕ} {next : Option ℕ × ℕ} {start : ℕ}
    (h : l.foldl (better V f room) next = (some i, start)) :
    next = (some i, start) ∨ i ∈ l ∧ start = (f.irps i).context1 ∧
      (room = true ∨ (f.nodeOf V i).readFetchesInFlight = 0) := by
  induction l generalizing next with
  | nil => exact Or.inl h
  | cons j l ih =>
    rcases ih h with hn | ⟨hm, hs⟩
    · unfold better at hn
      split at hn
      next hj =>
        cases hn
        exact Or.inr ⟨List.mem_cons_self, rfl, hj.2⟩
      next => exact Or.inl hn
    · exact Or.inr ⟨List.mem_cons_of_mem _ hm, hs⟩

theorem foldl_better_none {room : Bool} {l : List ℕ} {next : Option ℕ × ℕ}
    (h : (l.foldl (better V f room) next).1 = none) :
    next.1 = none ∧ ∀ i ∈ l, ¬ ((f.irps i).context1 < next.2 ∧ (room = true ∨ (f.nodeOf V i).readFetchesInFlight = 0)) := by
  induction l generalizing next with
  | nil => exact ⟨h, fun _ hm => (by cases hm)⟩
  | cons j l ih =>
    obtain ⟨hn, hl⟩ := ih h
    unfold better at hn hl
    split at hn
    next => cases hn
    next hj =>
      rw [if_neg hj] at hl
      exact ⟨hn, fun i hm => by
        rcases List.mem_cons.mp hm with rfl | hm
        · exact hj
        · exact hl i hm⟩

theorem next_mem {start : ℕ} (h : f.next V = some (i, start)) : i ∈ f.held ∨ i ∈ f.waiting := by
  unfold Fair.next at h
  split at h
  next j l hw =>
    obtain ⟨rfl, -⟩ := Prod.mk.inj (Option.some.inj h)
    exact Or.inr (by rw [hw]; exact List.mem_cons_self)
  next =>
    split at h
    next j s he =>
      obtain ⟨rfl, rfl⟩ := Prod.mk.inj (Option.some.inj h)
      rcases foldl_better_some he with hn | ⟨hm, -⟩
      · cases hn
      · exact Or.inl hm
    next => cases h

/-- When nothing goes out next, no demand waits and no read-ahead is ready. -/
theorem next_none (h : f.next V = none) :
    f.waiting = [] ∧ ∀ i ∈ f.held, ¬ f.Ready V (f.inFlightBytes < V.budget) i := by
  unfold Fair.next at h
  split at h
  next => cases h
  next hw =>
    split at h
    next => cases h
    next he => exact ⟨hw, (foldl_better_none (congrArg Prod.fst he)).2⟩

end Fair

/-! ### Out of a list -/

/-- While a read is in a list, nothing else has its IRP. -/
theorem Flow.apart_list (h : Flow V c tasks) (hi : i ∈ c.held ∨ i ∈ c.waiting) :
    (∀ t ∈ tasks, t.owner ≠ some i) ∧ (∀ r, (c.reads r).live = true → (c.reads r).irp ≠ i) ∧
      c.held.count i + c.waiting.count i = 1 ∧ (c.irps i).completions = [] ∧ i < c.count := by
  have hown := h.owners i
  have hone : 1 ≤ c.held.count i + c.waiting.count i := by
    rcases hi with hm | hm
    · have := List.count_pos_iff.mpr hm
      omega
    · have := List.count_pos_iff.mpr hm
      omega
  have hlt : i < c.count := by
    by_contra hge
    rw [if_neg hge] at hown
    omega
  rw [if_pos hlt] at hown
  refine ⟨fun t ht he => ?_, fun r hr he => ?_, by omega, List.eq_nil_of_length_eq_zero (by omega), hlt⟩
  · have hle := @le_tally _ (Task.owns i) tasks t ht
    have : t.owns i = 1 := by simp [Task.owns, he]
    omega
  · have := h.one_le_readsOwn hr
    rw [he] at this
    omega

theorem mem_of_mem_erase_ne {l : List ℕ} (hc : l.count i ≤ 1) (h : j ∈ l.erase i) : j ∈ l ∧ j ≠ i := by
  refine ⟨List.mem_of_mem_erase h, ?_⟩
  rintro rfl
  have hpos := List.count_pos_iff.mpr h
  rw [List.count_erase_self] at hpos
  omega

/-- A read `ReadFairAdmitHeld` admits goes from its list to `ReadFairIssueHeld`. -/
theorem Flow.release (h : Flow V c tasks) (hi : i ∈ c.held ∨ i ∈ c.waiting) (start : ℕ) :
    Flow V (c.withFair (c.toFair.release V i start)) (.issueHeld i :: tasks) := by
  obtain ⟨htasks, hreads, hcount, hcompl, hlt⟩ := h.apart_list hi
  obtain ⟨hopen, hadm, hitem⟩ := h.lists i hi
  set c' := c.withFair (c.toFair.release V i start)
  have hself : c'.irps i = { c.irps i with admitted := true, admissions := (c.irps i).admissions + 1 } := by
    simp [c', withFair, Fair.release, Fair.charge]
  have hother : ∀ j, j ≠ i → c'.irps j = c.irps j := fun j hj => by
    simp [c', withFair, Fair.release, Fair.charge, hj]
  have hheld : c'.held = c.held.erase i := rfl
  have hwaiting : c'.waiting = c.waiting.erase i := rfl
  have hctx : ∀ j, (c'.irps j).context2 = (c.irps j).context2 := fun j => by
    by_cases hj : j = i
    · rw [hj, hself]
    · rw [hother j hj]
  have hlists : ∀ j, j ∈ c'.held ∨ j ∈ c'.waiting → (j ∈ c.held ∨ j ∈ c.waiting) ∧ j ≠ i := by
    rintro j (hj | hj)
    · obtain ⟨hm, hne⟩ := mem_of_mem_erase_ne (by omega) hj
      exact ⟨Or.inl hm, hne⟩
    · obtain ⟨hm, hne⟩ := mem_of_mem_erase_ne (by omega) hj
      exact ⟨Or.inr hm, hne⟩
  have hopen' : Open c' i := ⟨hopen.quiet, by rw [hself]; exact hopen.settlements, by
    have had := hopen.admissions
    rw [hadm] at had
    rw [hself]
    simpa using had⟩
  refine ⟨fun j => ?_, fun j => ?_, fun r => ?_, fun r => ?_, fun n => ?_, h.itemCount, fun j => ?_, h.readCount, fun t ht => ?_,
    fun j hj => ?_, fun r hr => ?_, h.used, fun j hj => ?_, fun j x hx => ?_, fun j hj => ?_, h.misuse⟩
  · have hold := h.owners j
    rw [tally_cons, hheld, hwaiting, List.count_erase, List.count_erase]
    by_cases hj : j = i
    · subst hj
      have hone : (Task.issueHeld j).owns j = 1 := by simp [Task.owns, Task.owner]
      have hc : (c'.irps j).completions = (c.irps j).completions := by rw [hself]
      rw [hone, hc]
      simp only [beq_self_eq_true, if_true]
      show 1 + tally (Task.owns j) tasks + (c.held.count j - 1) + (c.waiting.count j - 1) + c.readsOwn j + _ =
        if j < c.count then 1 else 0
      omega
    · have hzero : (Task.issueHeld i).owns j = 0 := by simp [Task.owns, Task.owner, Ne.symm hj]
      have hb : (i == j) = false := beq_eq_false_iff_ne.mpr (Ne.symm hj)
      rw [hzero, hother j hj, hb]
      simp only [Bool.false_eq_true, if_false, Nat.sub_zero, Nat.zero_add]
      exact hold
  · have hold := h.dispatchers j
    rw [tally_cons]
    have hzero : (Task.issueHeld i).dispatches j = 0 := rfl
    rw [hzero, Nat.zero_add]
    exact hold
  · have hold := h.refs r
    rw [tally_cons]
    have hzero : (Task.issueHeld i).refs r = 0 := rfl
    rw [hzero, Nat.zero_add]
    exact hold
  · have hold := h.issuers r
    rw [tally_cons]
    have hzero : (Task.issueHeld i).issues r = 0 := rfl
    rw [hzero, Nat.zero_add]
    exact hold
  · have hold := h.items n
    have hone : (Task.issueHeld i).holds c' n = if (c.irps i).context2.workItem = some n then 1 else 0 := by
      simp only [Task.holds, Task.workItem, hctx]
    have hsame : tally (Task.holds c' n) tasks = tally (Task.holds c n) tasks :=
      tally_congr fun t ht => Task.holds_congr fun j hj => hother j fun he => htasks t ht (he ▸ hj)
    rw [tally_cons, hone, hsame, hheld, hwaiting]
    simp only [hctx, tally_append] at hold ⊢
    rcases hi with hm | hm
    · have hnot : i ∉ c.waiting := fun hm' => by
        have := List.count_pos_iff.mpr hm
        have := List.count_pos_iff.mpr hm'
        omega
      have he := @tally_erase _ (fun j => if (c.irps j).context2.workItem = some n then 1 else 0) _ _ _ hm
      rw [List.erase_of_not_mem hnot]
      show c.items.count n = _
      omega
    · have hnot : i ∉ c.held := fun hm' => by
        have := List.count_pos_iff.mpr hm
        have := List.count_pos_iff.mpr hm'
        omega
      have he := @tally_erase _ (fun j => if (c.irps j).context2.workItem = some n then 1 else 0) _ _ _ hm
      rw [List.erase_of_not_mem hnot]
      show c.items.count n = _
      omega
  · have hold := h.owed j
    rw [tally_cons]
    have hzero : (Task.issueHeld i).owes c' j = 0 := rfl
    have hsame : tally (Task.owes c' j) tasks = tally (Task.owes c j) tasks :=
      tally_congr fun t _ => Task.owes_congr fun _ _ => rfl
    rw [hzero, hsame, Nat.zero_add]
    exact hold
  · rcases List.mem_cons.mp ht with rfl | hold
    · exact ⟨hopen', by rw [hself], by rw [hctx]; exact hitem⟩
    · have hok := h.ok t hold
      refine hok.congr (fun j hj => ⟨hother j ?_, Or.inl rfl⟩) fun _ _ => rfl
      rintro rfl
      exact hok.subject_ne (htasks t hold) hreads hj
  · obtain ⟨hold, hne⟩ := hlists j hj
    obtain ⟨ho, ha, hit⟩ := h.lists j hold
    exact ⟨ho.congr (hother j hne) (Or.inl rfl), by rw [hother j hne]; exact ha, by rw [hctx]; exact hit⟩
  · exact (h.reading r hr).congr (hother _ (hreads r hr)) (Or.inl rfl)
  · have hne : j ≠ i := by
      rintro rfl
      rw [hself] at hj
      exact hj hcompl
    rw [hother j hne] at hj
    exact (h.closed j hj).congr (hother j hne)
  · have hne : j ≠ i := by
      rintro rfl
      rw [hself] at hx
      simp only [hcompl] at hx
      cases hx
    rw [hother j hne] at hx
    exact (h.answers j x hx).congr (Or.inl rfl)
  · have hge : c.count ≤ j := hj
    rw [hother j (by omega)]
    exact h.blank j hge

theorem Account.release (ha : Account V f n) (hi : i < n) (hadm : (f.irps i).admitted = false)
    (hroom : f.inFlightFetches < maxFetches) (start : ℕ) : Account V (f.release V i start) n := by
  have hc := ha.charge hi hadm hroom
  exact hc.congr rfl rfl (fun _ => rfl) (fun _ => rfl) rfl rfl rfl

/-! ### Into a list -/

/-- A thread in `BlorgVolumeRead` for a read has not returned. -/
theorem Flow.returned_of_dispatching {t : Task} (h : Flow V c (t :: rest)) (ht : t.dispatching = some i) :
    c.returned i = none := by
  have hd := h.dispatchers i
  have hone : t.dispatches i = 1 := by simp [Task.dispatches, ht]
  rw [tally_cons, hone] at hd
  by_contra hne
  rw [if_neg hne] at hd
  split at hd <;> omega

theorem leave_returned (c : Core) (k : Issue) (j : ℕ) : (c.leave k).returned j =
    if k.caller = .dispatcher ∧ j = k.irp then some .pending else c.returned j := by
  unfold Core.leave
  cases k.caller with
  | dispatcher => by_cases hj : j = k.irp <;> simp [returns, hj]
  | released fromDiskCache => simp

theorem leave_toFair (c : Core) (k : Issue) : (c.leave k).toFair = c.toFair := by
  unfold Core.leave
  cases k.caller <;> rfl

theorem leave_reads (c : Core) (k : Issue) : (c.leave k).reads = c.reads ∧ (c.leave k).readCount = c.readCount ∧
    (c.leave k).count = c.count ∧ (c.leave k).items = c.items ∧ (c.leave k).itemCount = c.itemCount ∧
    (c.leave k).misuse = c.misuse := by
  unfold Core.leave
  cases k.caller <;> exact ⟨rfl, rfl, rfl, rfl, rfl, rfl⟩

theorem Task.dispatches_of_locals {t : Task} {k : Issue} (hk : t.locals = some k) (j : ℕ) :
    t.dispatches j = if k.caller = .dispatcher ∧ j = k.irp then 1 else 0 := by
  simp only [Task.dispatches, Task.dispatching, hk]
  by_cases hc : k.caller = .dispatcher
  · simp [hc, eq_comm]
  · simp [hc]

/-- A thread that leaves its read returns `STATUS_PENDING` if it is the dispatch
routine. -/
theorem Flow.leave_keeps {t : Task} (h : Flow V c (t :: rest)) {k : Issue} (hk : t.locals = some k)
    (hr : c'.returned = c.returned) (j : ℕ) : KeepsReturned c (c'.leave k) j := by
  unfold KeepsReturned
  rw [leave_returned, hr]
  split
  next hd =>
    obtain ⟨hc, rfl⟩ := hd
    exact Or.inr ⟨h.returned_of_dispatching (by simp [Task.dispatching, hk, hc]), rfl⟩
  next => exact Or.inl rfl

theorem Flow.leave_dispatches {t : Task} (h : Flow V c (t :: rest)) {k : Issue} (hk : t.locals = some k)
    (hr : c'.returned = c.returned) (j : ℕ) : (if (c'.leave k).returned j = none then 0 else 1) =
      t.dispatches j + if c.returned j = none then 0 else 1 := by
  rw [leave_returned, Task.dispatches_of_locals hk, hr]
  by_cases hd : k.caller = .dispatcher ∧ j = k.irp
  · have hnone : c.returned j = none := by
      rw [hd.2]
      exact h.returned_of_dispatching (by simp [Task.dispatching, hk, hd.1])
    simp [hd, hd.2 ▸ hnone]
  · simp [hd]

/-- A read that must be held goes into its list with its work item. -/
theorem Flow.hold {k : Issue} {n : ℕ} (h : Flow V c (.admitAgain k n :: rest)) (mayHold : Bool) :
    Flow V ((c.withFair (c.toFair.hold V k.irp mayHold n)).leave k) rest := by
  have ha := h.apart (i := k.irp) rfl
  obtain ⟨hopen, hadm⟩ := h.ok _ List.mem_cons_self
  set c₁ := c.withFair (c.toFair.hold V k.irp mayHold n)
  obtain ⟨hreads, hrc, hcount, hitems, hic, hmis⟩ := leave_reads c₁ k
  set c' := c₁.leave k
  have hfair : c'.toFair = c.toFair.hold V k.irp mayHold n := leave_toFair c₁ k
  have hself : c'.irps k.irp = { c.irps k.irp with context1 := c.startTag V k.irp, context2 := .item n } := by
    rw [hfair]
    cases mayHold <;> simp [Fair.hold, Fair.setIrp]
  have hother : ∀ j, j ≠ k.irp → c'.irps j = c.irps j := fun j hj => by
    rw [hfair]
    cases mayHold <;> simp [Fair.hold, Fair.setIrp, Fair.tag, hj]
  have hlists : (c'.held ++ c'.waiting).Perm (k.irp :: (c.held ++ c.waiting)) := by
    rw [hfair]
    cases mayHold with
    | true =>
      show (c.held ++ [k.irp] ++ c.waiting).Perm _
      rw [List.append_assoc]
      exact List.perm_middle
    | false =>
      show (c.held ++ (c.waiting ++ [k.irp])).Perm _
      rw [← List.append_assoc]
      exact List.perm_append_singleton k.irp _
  have hkeep : ∀ j, KeepsReturned c c' j := h.leave_keeps rfl rfl
  have hres : c'.reserved = c.reserved ∧ c'.givenBack = c.givenBack := by
    rw [hfair]
    cases mayHold <;> exact ⟨rfl, rfl⟩
  have hreads : c'.reads = c.reads := hreads
  have hrest : ∀ t ∈ rest, ∀ j, t.subject = some j → c'.irps j = c.irps j ∧ KeepsReturned c c' j := by
    intro t ht j hj
    have hok := h.ok t (List.mem_cons_of_mem _ ht)
    exact ⟨hother j fun he => hok.subject_ne (ha.tasks t ht) ha.reads (he ▸ hj), hkeep j⟩
  have hmem : ∀ j, j ∈ c'.held ∨ j ∈ c'.waiting ↔ j = k.irp ∨ (j ∈ c.held ∨ j ∈ c.waiting) := fun j => by
    rw [← List.mem_append, hlists.mem_iff, List.mem_cons, List.mem_append]
  have hlist : ∀ j, j ∈ c.held ∨ j ∈ c.waiting → j ≠ k.irp := by
    rintro j (hm | hm) rfl
    · exact ha.held hm
    · exact ha.waiting hm
  refine ⟨fun j => ?_, fun j => ?_, fun r => ?_, fun r => ?_, fun m => ?_, ?_, fun j => ?_, ?_, fun t ht => ?_,
    fun j hj => ?_, fun r hr => ?_, ?_, fun j hj => ?_, fun j x hx => ?_, fun j hj => ?_, hmis.trans h.misuse⟩
  · have hold := h.owners j
    have hcnt := hlists.count_eq j
    rw [List.count_append, List.count_cons, List.count_append] at hcnt
    rw [tally_cons] at hold
    have hread : c'.readsOwn j = c.readsOwn j := by simp only [Core.readsOwn, hrc, hreads]; rfl
    have hcompl : (c'.irps j).completions = (c.irps j).completions := by
      by_cases hj : j = k.irp
      · rw [hj, hself]
      · rw [hother j hj]
    have hown : (Task.admitAgain k n).owns j = if (k.irp == j) = true then 1 else 0 := by
      simp [Task.owns, Task.owner]
    rw [hread, hcompl, hcount]
    show _ = if j < c.count then 1 else 0
    omega
  · have hold := h.dispatchers j
    rw [tally_cons] at hold
    have hret := @Flow.leave_dispatches V c c₁ rest _ h k rfl rfl j
    rw [hcount, hret]
    show _ = if j < c.count then 1 else 0
    omega
  · have hold := h.refs r
    rw [tally_cons] at hold
    have hzero : (Task.admitAgain k n).refs r = 0 := rfl
    rw [hzero, Nat.zero_add] at hold
    rw [hreads]
    exact hold
  · have hold := h.issuers r
    rw [tally_cons] at hold
    have hzero : (Task.admitAgain k n).issues r = 0 := rfl
    omega
  · have hold := h.items m
    have hown : (Task.admitAgain k n).holds c m = if (c'.irps k.irp).context2.workItem = some m then 1 else 0 := by
      rw [hself]
      rfl
    have hsame : tally (Task.holds c' m) rest = tally (Task.holds c m) rest :=
      tally_congr fun t ht => Task.holds_congr fun j hj => hother j fun he => ha.tasks t ht (he ▸ hj)
    have hl : tally (fun j => if (c'.irps j).context2.workItem = some m then 1 else 0) (c.held ++ c.waiting) =
        tally (fun j => if (c.irps j).context2.workItem = some m then 1 else 0) (c.held ++ c.waiting) :=
      tally_congr fun j hj => by rw [hother j (hlist j (List.mem_append.mp hj))]
    rw [tally_cons] at hold
    rw [hitems, tally_perm hlists, tally_cons, hsame, hl]
    show c.items.count m = _
    omega
  · rw [hitems, hic]
    exact h.itemCount
  · have hold := h.owed j
    have hsame : tally (Task.owes c' j) rest = tally (Task.owes c j) rest :=
      tally_congr fun t _ => Task.owes_congr fun r _ => by rw [hreads]
    have hread : c'.readsOwe j = c.readsOwe j := by simp only [Core.readsOwe, hrc, hreads]; rfl
    rw [tally_cons] at hold
    have hzero : (Task.admitAgain k n).owes c j = 0 := rfl
    rw [hzero, Nat.zero_add] at hold
    rw [hres.1, hres.2, hsame, hread]
    exact hold
  · intro r hr
    rw [hreads]
    exact h.readCount r (hrc ▸ hr)
  · have hok := h.ok t (List.mem_cons_of_mem _ ht)
    exact hok.congr (hrest t ht) fun r _ => by rw [hreads]
  · rcases (hmem j).mp hj with rfl | hold
    · refine ⟨⟨hopen.quiet.congr (hkeep _), ?_, ?_⟩, ?_, ?_⟩
      · rw [hself]
        exact hopen.settlements
      · rw [hself]
        exact hopen.admissions
      · rw [hself]
        exact hadm
      · rw [hself]
        rfl
    · obtain ⟨ho, had, hit⟩ := h.lists j hold
      have he := hother j (hlist j hold)
      exact ⟨ho.congr he (hkeep j), by rw [he]; exact had, by rw [he]; exact hit⟩
  · rw [hreads] at hr ⊢
    exact (h.reading r hr).congr (hother _ (ha.reads r hr)) (hkeep _)
  · rw [hreads]
    exact h.used
  · have hne : j ≠ k.irp := by
      rintro rfl
      rw [hself] at hj
      exact hj ha.completions
    rw [hother j hne] at hj
    exact (h.closed j hj).congr (hother j hne)
  · have hne : j ≠ k.irp := by
      rintro rfl
      rw [hself] at hx
      simp only [ha.completions] at hx
      cases hx
    rw [hother j hne] at hx
    exact (h.answers j x hx).congr (hkeep j)
  · have hge : c.count ≤ j := hcount ▸ hj
    have hlt := ha.lt
    rw [hother j (by omega), hres.1]
    exact h.blank j hge

end BlorgFS.Read
