import BlorgFS.Read.Steps

/-! The completion of an IRP and its hand-over to a `DISK_CACHE_READ` keep the flow and
the account. -/

namespace BlorgFS.Read

open Lib DiskCache Core

variable {V : Setup} {c c' : Core} {t : Task} {rest : List Task} {i : ℕ} {k : Issue} {ch : Choice}

/-! ### Completion -/

theorem complete_step {dispatcher : Bool} {status : Status} {information : ℕ}
    (h : Sound V c (.complete i dispatcher status information :: rest)) :
    Sound V (c.step V ch (.complete i dispatcher status information)).1
      ((c.step V ch (.complete i dispatcher status information)).2 ++ rest) := by
  obtain ⟨hclosed, hans⟩ := h.flow.ok _ List.mem_cons_self
  have hap := h.flow.apart (i := i) rfl
  have hf := h.flow
  set c' := (c.step V ch (.complete i dispatcher status information)).1
  have hself : c'.irps i = { c.irps i with completions := [⟨dispatcher, status, information⟩] } := by
    simp [c', step, withFair, Fair.setIrp, hap.completions]
  have hother : ∀ j, j ≠ i → c'.irps j = c.irps j := fun j hj => by simp [c', step, withFair, Fair.setIrp, hj]
  have hadm : ∀ j, (c'.irps j).admitted = (c.irps j).admitted := fun j => by
    by_cases hj : j = i
    · rw [hj, hself]
    · rw [hother j hj]
  have hlist : ∀ j, j ∈ c.held ∨ j ∈ c.waiting → j ≠ i := by
    rintro j (hm | hm) rfl
    · exact hap.held hm
    · exact hap.waiting hm
  have hsub : ∀ t ∈ rest, ∀ j, t.subject = some j → j ≠ i := fun t ht j hj he =>
    (hf.ok t (List.mem_cons_of_mem _ ht)).subject_ne (hap.tasks t ht) hap.reads (he ▸ hj)
  refine ⟨⟨fun j => ?_, fun j => ?_, fun q => ?_, fun q => ?_, fun m => ?_, hf.itemCount, fun j => ?_, hf.readCount,
    fun t ht => ?_, fun j hj => ?_, fun q hq => ?_, hf.used, fun j hj => ?_, fun j x hx => ?_, fun j hj => ?_, hf.misuse⟩,
    h.account.congr rfl rfl (fun _ => rfl) hadm rfl rfl rfl⟩
  · have hold := hf.owners j
    rw [tally_cons] at hold
    show tally (Task.owns j) rest + c.held.count j + c.waiting.count j + c.readsOwn j + (c'.irps j).completions.length =
      if j < c.count then 1 else 0
    by_cases hj : j = i
    · subst hj
      rw [hself]
      rw [hap.completions] at hold
      have hone : (Task.complete j dispatcher status information).owns j = 1 := by simp [Task.owns, Task.owner]
      simp only [List.length_nil, List.length_singleton] at hold ⊢
      omega
    · have hzero : (Task.complete i dispatcher status information).owns j = 0 := by
        simp [Task.owns, Task.owner, Ne.symm hj]
      rw [hother j hj]
      omega
  · have hold := hf.dispatchers j
    rw [tally_cons] at hold
    have hzero : (Task.complete i dispatcher status information).dispatches j = 0 := rfl
    rw [hzero, Nat.zero_add] at hold
    exact hold
  · have hold := hf.refs q
    rw [tally_cons] at hold
    have hzero : (Task.complete i dispatcher status information).refs q = 0 := rfl
    rw [hzero, Nat.zero_add] at hold
    exact hold
  · have hold := hf.issuers q
    rw [tally_cons] at hold
    show tally (Task.issues q) rest ≤ 1
    omega
  · have hold := hf.items m
    have hsame : tally (Task.holds c' m) rest = tally (Task.holds c m) rest :=
      tally_congr fun t ht => Task.holds_congr fun j hj => hother j fun he => hap.tasks t ht (he ▸ hj)
    have hl : tally (fun j => if (c'.irps j).context2.workItem = some m then 1 else 0) (c.held ++ c.waiting) =
        tally (fun j => if (c.irps j).context2.workItem = some m then 1 else 0) (c.held ++ c.waiting) :=
      tally_congr fun j hj => by rw [hother j (hlist j (List.mem_append.mp hj))]
    rw [tally_cons] at hold
    have hzero : (Task.complete i dispatcher status information).holds c m = 0 := rfl
    rw [hzero, Nat.zero_add] at hold
    show c.items.count m = tally (Task.holds c' m) rest +
      tally (fun j => if (c'.irps j).context2.workItem = some m then 1 else 0) (c.held ++ c.waiting)
    rw [hsame, hl]
    exact hold
  · have hold := hf.owed j
    have hsame : tally (Task.owes c' j) rest = tally (Task.owes c j) rest :=
      tally_congr fun t _ => Task.owes_congr fun _ _ => rfl
    rw [tally_cons] at hold
    have hzero : (Task.complete i dispatcher status information).owes c j = 0 := rfl
    rw [hzero, Nat.zero_add] at hold
    show c.reserved j = c.givenBack j + tally (Task.owes c' j) rest + c.readsOwe j
    rw [hsame]
    exact hold
  · exact (hf.ok t (List.mem_cons_of_mem _ ht)).congr
      (fun j hj => ⟨hother j (hsub t ht j hj), Or.inl rfl⟩) fun _ _ => rfl
  · obtain ⟨ho, ha, hit⟩ := hf.lists j hj
    have he := hother j (hlist j hj)
    exact ⟨ho.congr he (Or.inl rfl), by rw [he]; exact ha, by rw [he]; exact hit⟩
  · exact (hf.reading q hq).congr (hother _ (hap.reads q hq)) (Or.inl rfl)
  · by_cases he : j = i
    · subst he
      exact ⟨by rw [hself]; exact hclosed.admitted, by rw [hself]; exact hclosed.admissions,
        by rw [hself]; exact hclosed.settlements⟩
    · rw [hother j he] at hj
      exact (hf.closed j hj).congr (hother j he)
  · by_cases he : j = i
    · subst he
      rw [hself] at hx
      rw [List.mem_singleton.mp hx]
      exact hans.congr (Or.inl rfl)
    · rw [hother j he] at hx
      exact (hf.answers j x hx).congr (Or.inl rfl)
  · have hge : c.count ≤ j := hj
    have hlt := hap.lt
    rw [hother j (by omega)]
    exact hf.blank j hge

/-! ### Handing an IRP to the cache -/

/-- The slots a read is served from cover it, and leave no more runs to fetch than
allowed. -/
theorem plan_ok {allowed : ℕ} {pinned : Option (List (Option ℕ))} {slots : List (Option ℕ)}
    (h : plan V k allowed pinned = .ok slots) :
    Cut (V.request k.irp).offset k.valid slots 0 ∧ gaps false slots ≤ allowed := by
  unfold plan at h
  simp only at h
  split at h
  next => cases h
  next pinned =>
    split at h
    next hc =>
      obtain ⟨hpage, -, hpos, -, hmax, hlen⟩ := hc
      split at h
      next => cases h
      next =>
        split at h
        next => cases h
        next hall =>
          have hshort : pinned.length < 2 ^ 32 := by
            unfold maxReadBlocks at hmax
            omega
          have hruns : 1 ≤ allowed ∨ gaps false pinned = 0 := by
            by_cases h0 : allowed = 0
            · rw [not_and, not_not] at hall
              exact Or.inr (gaps_of_held (hall h0) false)
            · exact Or.inl (by omega)
          have hfuel : pinned.countP Option.isSome < pinned.length + 1 :=
            Nat.lt_succ_of_le List.countP_le_length
          obtain ⟨served, planned, he, hl, hg⟩ := planSlots_spec (pinned.countP Option.isSome : ℤ) hshort hruns hfuel
          rw [he] at h
          simp only at h
          split at h
          next => cases h
          next =>
            cases h
            exact ⟨Cut.init (hl.trans hlen) hpage hpos, hg⟩
    next => cases h

/-- A `DISK_CACHE_READ` takes over an IRP, with its issuer in the issue loop. -/
theorem Sound.start {extra : Option ℕ} {slots : List (Option ℕ)} (h : Sound V c (t :: rest))
    (hl : t.locals = some k) (ht : t.owner = some k.irp) (ho : Open c k.irp)
    (ha : (c.irps k.irp).admitted = (k.caller.isReleased || extra.isSome))
    (hb : uses t = none ∧ (∀ q, t.issues q = 0) ∧ t.workItem c = none)
    (howe : ∀ j, t.owes c j = if k.irp = j then extra.getD 0 else 0)
    (hcut : Cut (V.request k.irp).offset k.valid slots 0) (hg : gaps false slots ≤ allowedBy extra) :
    Sound V (c.start k extra slots).1 ((c.start k extra slots).2 ++ rest) := by
  have hap := h.flow.apart ht
  have hf := h.flow
  set read : DiskRead := ⟨k.irp, k.valid, slots, 1, .success, 0, 0, 0, 0, true⟩ with hread
  set c' := (c.start k extra slots).1
  have hself : c'.reads c.readCount = read := by simp [c', Core.start, read]
  have hother : ∀ q, q ≠ c.readCount → c'.reads q = c.reads q := fun q hq => by simp [c', Core.start, hq]
  have hfresh : (c.reads c.readCount).live = false := hf.readCount _ le_rfl
  have hsum : ∀ g : DiskRead → ℕ, ∑ q ∈ Finset.range c'.readCount, g (c'.reads q) =
      ∑ q ∈ Finset.range c.readCount, g (c.reads q) + g read := by
    intro g
    show ∑ q ∈ Finset.range (c.readCount + 1), g (c'.reads q) = _
    rw [Finset.sum_range_succ, hself]
    congr 1
    apply Finset.sum_congr rfl
    intro q hq
    rw [hother q (Nat.ne_of_lt (Finset.mem_range.mp hq))]
  have hunused : ∀ t ∈ rest, uses t ≠ some c.readCount := by
    intro t₁ ht₁ hu
    have hrefs := hf.refs c.readCount
    rw [hfresh, tally_cons] at hrefs
    have hle := @le_tally _ (Task.refs c.readCount) rest t₁ ht₁
    have hone : t₁.refs c.readCount = 1 := by simp [Task.refs, hu]
    simp only [Bool.false_eq_true, if_false] at hrefs
    omega
  have hreads : ∀ t ∈ rest, ∀ q, uses t = some q → c'.reads q = c.reads q := fun t₁ ht₁ q hq =>
    hother q fun he => hunused t₁ ht₁ (he ▸ hq)
  refine ⟨⟨fun j => ?_, fun j => ?_, fun q => ?_, fun q => ?_, fun m => ?_, hf.itemCount, fun j => ?_, fun q hq => ?_,
    fun t₁ ht₁ => ?_, fun j hj => ?_, fun q hq => ?_, fun q hq => ?_, fun j hj => (hf.closed j hj).congr rfl,
    fun j x hx => (hf.answers j x hx).congr (Or.inl rfl), hf.blank, hf.misuse⟩, h.account⟩
  · have hold := hf.owners j
    rw [tally_cons] at hold
    have hown : c'.readsOwn j = c.readsOwn j + read.owns j := hsum (DiskRead.owns j)
    have hone : read.owns j = t.owns j := by simp [DiskRead.owns, read, Task.owns, ht]
    show tally (Task.owns j) (.issue k extra c.readCount 0 :: rest) + c.held.count j + c.waiting.count j +
      c'.readsOwn j + (c.irps j).completions.length = if j < c.count then 1 else 0
    rw [tally_cons, hown, hone]
    have hzero : (Task.issue k extra c.readCount 0).owns j = 0 := rfl
    omega
  · have hold := hf.dispatchers j
    rw [tally_cons, Task.dispatches_of_locals hl] at hold
    show tally (Task.dispatches j) (.issue k extra c.readCount 0 :: rest) + _ = _
    rw [tally_cons, Task.dispatches_of_locals (k := k) rfl]
    exact hold
  · have hold := hf.refs q
    rw [tally_cons] at hold
    have hzero : t.refs q = 0 := by simp [Task.refs, hb.1]
    rw [hzero, Nat.zero_add] at hold
    show ((tally (Task.refs q) (.issue k extra c.readCount 0 :: rest) : ℕ) : ℤ) = _
    rw [tally_cons]
    by_cases hq : q = c.readCount
    · subst hq
      rw [hfresh] at hold
      have hone : (Task.issue k extra c.readCount 0).refs c.readCount = 1 := by simp [Task.refs, uses]
      rw [hself, hone]
      simp only [Bool.false_eq_true, if_false] at hold
      simp [read, hold]
    · have hzero : (Task.issue k extra c.readCount 0).refs q = 0 := by simp [Task.refs, uses, Ne.symm hq]
      rw [hother q hq, hzero, Nat.zero_add]
      exact hold
  · have hold := hf.issuers q
    rw [tally_cons] at hold
    show tally (Task.issues q) (.issue k extra c.readCount 0 :: rest) ≤ 1
    rw [tally_cons]
    by_cases hq : q = c.readCount
    · subst hq
      have hnone : tally (Task.issues c.readCount) rest = 0 := tally_eq_zero fun t₁ ht₁ => by
        have hu := hunused t₁ ht₁
        cases t₁ with
        | issue k₁ extra₁ q issued =>
          have hne : q ≠ c.readCount := fun he => hu (by rw [← he]; rfl)
          simp [Task.issues, hne]
        | _ => rfl
      simp [Task.issues, hnone]
    · have hzero : (Task.issue k extra c.readCount 0).issues q = 0 := by simp [Task.issues, Ne.symm hq]
      omega
  · have hold := hf.items m
    rw [tally_cons] at hold
    have hzero : t.holds c m = 0 := by simp [Task.holds, hb.2.2]
    have hzero' : (Task.issue k extra c.readCount 0).holds c' m = 0 := rfl
    have hsame : tally (Task.holds c' m) rest = tally (Task.holds c m) rest :=
      tally_congr fun t₁ _ => Task.holds_congr fun _ _ => rfl
    show c.items.count m = tally (Task.holds c' m) (.issue k extra c.readCount 0 :: rest) + _
    rw [hzero, Nat.zero_add] at hold
    rw [tally_cons, hsame, hzero', Nat.zero_add]
    exact hold
  · have hold := hf.owed j
    rw [tally_cons, howe j] at hold
    have howe' : c'.readsOwe j = c.readsOwe j + read.owes j := hsum (DiskRead.owes j)
    have hzero : read.owes j = 0 := by
      unfold DiskRead.owes
      split <;> rfl
    have hissue : (Task.issue k extra c.readCount 0).owes c' j = if k.irp = j then extra.getD 0 else 0 := by
      cases extra with
      | none => simp [Task.owes]
      | some reserved =>
        simp only [Task.owes, hself, Option.getD_some]
        rfl
    have hsame : tally (Task.owes c' j) rest = tally (Task.owes c j) rest :=
      tally_congr fun t₁ ht₁ => Task.owes_congr (hreads t₁ ht₁)
    show c.reserved j = c.givenBack j + tally (Task.owes c' j) (.issue k extra c.readCount 0 :: rest) + c'.readsOwe j
    rw [tally_cons, hsame, hissue, howe', hzero]
    exact hold
  · have hge : c.readCount + 1 ≤ q := hq
    rw [hother q (by omega)]
    exact hf.readCount q (by omega)
  · rcases List.mem_cons.mp ht₁ with rfl | ht₁
    · refine ⟨ho.congr rfl (Or.inl rfl), ha, ?_⟩
      refine ⟨by rw [hself], by rw [hself], by rw [hself], by rw [hself]; exact hcut, ?_, fun _ => by rw [hself]⟩
      rw [hself]
      have hblock : blockAt (V.request k.irp).offset 0 = 0 := Nat.sub_self _
      rw [hblock]
      show 0 + gaps false slots ≤ _
      omega
    · exact (hf.ok t₁ (List.mem_cons_of_mem _ ht₁)).congr (fun _ _ => ⟨rfl, Or.inl rfl⟩) (hreads t₁ ht₁)
  · obtain ⟨hopen, hadm, hit⟩ := hf.lists j hj
    exact ⟨hopen.congr rfl (Or.inl rfl), hadm, hit⟩
  · by_cases he : q = c.readCount
    · subst he
      rw [hself]
      exact ho.congr rfl (Or.inl rfl)
    · rw [hother q he] at hq ⊢
      exact (hf.reading q hq).congr rfl (Or.inl rfl)
  · by_cases he : q = c.readCount
    · rw [he, hself]
      exact Int.one_pos
    · rw [hother q he] at hq ⊢
      exact hf.used q hq

theorem offer_step (h : Sound V c (.offer k :: rest)) :
    Sound V (c.step V ch (.offer k)).1 ((c.step V ch (.offer k)).2 ++ rest) := by
  obtain ⟨ho, ha⟩ := h.flow.ok _ List.mem_cons_self
  simp only [step]
  split
  next runs _ =>
    exact h.pass (notWhole_alike runs rfl rfl ⟨rfl, fun _ => rfl, rfl, fun _ => rfl⟩) (notWhole_ok runs ho ha)
  next slots hp =>
    obtain ⟨hcut, hg⟩ := plan_ok hp
    exact h.start rfl rfl ho (by rw [ha]; simp) ⟨rfl, fun _ => rfl, rfl⟩ (fun j => by simp [Task.owes]) hcut hg

theorem attempt_step {reserved : ℕ} (h : Sound V c (.attempt k reserved :: rest)) :
    Sound V (c.step V ch (.attempt k reserved)).1 ((c.step V ch (.attempt k reserved)).2 ++ rest) := by
  obtain ⟨ho, ha⟩ := h.flow.ok _ List.mem_cons_self
  simp only [step]
  split
  next => exact h.pass ⟨rfl, rfl, rfl, fun _ => rfl, rfl, fun _ => rfl⟩ ⟨ho, ha⟩
  next slots hp =>
    obtain ⟨hcut, hg⟩ := plan_ok hp
    exact h.start rfl rfl ho (by rw [ha]; simp) ⟨rfl, fun _ => rfl, rfl⟩ (fun j => by simp [Task.owes]) hcut hg

end BlorgFS.Read
