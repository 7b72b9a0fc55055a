import BlorgFS.Read.Runs

/-! The fair share's accounting, over every run: what is in flight is what was admitted
and not settled, what a read reserved comes back once, and no counter wraps. -/

namespace BlorgFS.Read

open Lib DiskCache Core Finset

variable {V : Setup} {c : Core} {tasks : List Task} {s : State} {i : ℕ}

/-- The reads admitted more often than settled. -/
def State.inFlight (s : State) : Finset ℕ :=
  {i ∈ range s.core.count | (s.core.irps i).settlements < (s.core.irps i).admissions}

/-- An issuing thread that has not returned works for read `i`. -/
def Task.issuesFor (i : ℕ) (t : Task) : Prop := ∃ k, t.locals = some k ∧ k.irp = i

instance (i : ℕ) (t : Task) : Decidable (t.issuesFor i) :=
  match h : t.locals with
  | some k => decidable_of_iff (k.irp = i) (by simp [Task.issuesFor, h])
  | none => isFalse (by simp [Task.issuesFor, h])

theorem Task.Ok.open_or_closed {t : Task} (hok : t.Ok V c) (ht : t.owner = some i) : Open c i ∨ Closed c i := by
  cases t with
  | issue k extra r issued => cases ht
  | surplus k reserved fetches => cases ht
  | part r fetched length => cases ht
  | settleRead r => cases ht
  | complete j dispatcher status information =>
    obtain rfl := Option.some.inj ht
    exact Or.inr hok.1
  | diskComplete j status valid fetches refetch | diskSettle j status valid refetch =>
    obtain rfl := Option.some.inj ht
    exact Or.inl hok
  | _ =>
    obtain rfl := Option.some.inj ht
    exact Or.inl hok.1

theorem exists_read_of_readsOwn (h : 0 < c.readsOwn i) : ∃ r, (c.reads r).live = true ∧ (c.reads r).irp = i := by
  obtain ⟨r, -, hr⟩ := exists_ne_zero_of_sum_ne_zero (Nat.ne_of_gt h)
  unfold DiskRead.owns at hr
  exact ⟨r, by_contra fun hno => hr (if_neg hno)⟩

/-- Wherever a read is, its admission is open or closed. -/
theorem Flow.open_or_closed (h : Flow V c tasks) (i : ℕ) : Open c i ∨ Closed c i := by
  by_cases hlt : i < c.count
  · have hown := h.owners i
    rw [if_pos hlt] at hown
    by_cases htask : 0 < tally (Task.owns i) tasks
    · obtain ⟨t, ht, hpos⟩ := exists_of_tally_pos htask
      have hti : t.owner = some i := by
        by_contra hne
        simp [Task.owns, hne] at hpos
      exact (h.ok t ht).open_or_closed hti
    by_cases hread : 0 < c.readsOwn i
    · obtain ⟨r, hlive, rfl⟩ := exists_read_of_readsOwn hread
      exact Or.inl (h.reading r hlive)
    by_cases hc : (c.irps i).completions = []
    · rw [hc, List.length_nil] at hown
      refine Or.inl (h.lists i ?_).1
      by_contra hno
      rw [not_or] at hno
      have h1 := List.count_eq_zero.mpr hno.1
      have h2 := List.count_eq_zero.mpr hno.2
      omega
    · exact Or.inr (h.closed i hc)
  · obtain ⟨ha, had, hs, -⟩ := h.blank i (by omega)
    exact Or.inr ⟨ha, had.trans hs.symm, by omega⟩

theorem Flow.admitted_iff (h : Flow V c tasks) (i : ℕ) :
    (c.irps i).admitted = true ↔ (c.irps i).settlements < (c.irps i).admissions := by
  rcases h.open_or_closed i with ho | hcl
  · rw [ho.settlements, ho.admissions]
    split <;> simp_all
  · rw [hcl.admitted, hcl.admissions]
    simp

/-- A read whose IRP is completed and whose issuing thread is gone owes nothing. -/
theorem Flow.paid (h : Flow V c tasks) (hc : (c.irps i).completions ≠ []) (ht : ∀ t ∈ tasks, ¬ t.issuesFor i) :
    c.givenBack i = c.reserved i := by
  have hlen : 1 ≤ (c.irps i).completions.length := List.length_pos_iff.mpr hc
  have hown := h.owners i
  have hreads : c.readsOwn i = 0 := by split at hown <;> omega
  have howns : ∀ t ∈ tasks, t.owner ≠ some i := fun t hm he => by
    have hle := @le_tally _ (Task.owns i) tasks t hm
    have hone : t.owns i = 1 := by simp [Task.owns, he]
    split at hown <;> omega
  have htasks : tally (Task.owes c i) tasks = 0 := tally_eq_zero fun t hm => by
    have hno := ht t hm
    cases t with
    | attempt k reserved | declined k reserved => exact if_neg fun he => hno ⟨k, rfl, he⟩
    | surplus k reserved fetches => exact if_neg fun he => hno ⟨k, rfl, he⟩
    | issue k extra r issued =>
      cases extra with
      | none => rfl
      | some reserved => exact if_neg fun he => hno ⟨k, rfl, he⟩
    | diskComplete j status valid fetches refetch => exact if_neg fun he => howns _ hm (congrArg some he)
    | _ => rfl
  have howe : c.readsOwe i = 0 := by
    refine sum_eq_zero fun r hr => ?_
    have hr0 := (sum_eq_zero_iff.mp hreads) r hr
    unfold DiskRead.owns at hr0
    unfold DiskRead.owes
    split at hr0
    next => cases hr0
    next hno => exact if_neg hno
  have howed := h.owed i
  omega

/-- The counters, by the reads admitted more often than settled. -/
theorem Sound.counts (h : Sound V s.core s.tasks) : s.core.inFlightBytes = ∑ i ∈ s.inFlight, (V.request i).length ∧
    (∀ node, (s.core.nodes node).readFetchesInFlight = #{i ∈ s.inFlight | (V.request i).node = node}) ∧
    s.core.inFlightFetches = #s.inFlight + ∑ i ∈ range s.core.count, (s.core.reserved i - s.core.givenBack i) := by
  obtain ⟨hf, ha⟩ := h
  have hreads : s.core.admittedReads s.core.count = s.inFlight := by
    ext i
    rw [Fair.mem_admittedReads, hf.admitted_iff]
    simp [State.inFlight]
  refine ⟨hreads ▸ ha.bytes, hreads ▸ ha.nodes, ?_⟩
  have hfetches := ha.fetches
  have hsum : ∑ i ∈ range s.core.count, (s.core.reserved i - s.core.givenBack i) + ∑ i ∈ range s.core.count, s.core.givenBack i =
      ∑ i ∈ range s.core.count, s.core.reserved i := by
    rw [← sum_add_distrib]
    apply sum_congr rfl
    intro i _
    exact Nat.sub_add_cancel (ha.lent i)
  rw [hreads] at hfetches
  omega

/-- In every state of every run, `InFlightBytes`, each file's `ReadFetchesInFlight` and
`InFlightFetches` count exactly the reads admitted and not settled and the fetches
reserved and not given back; the limit is kept and no counter went below zero; and a
read gives back no more than it reserved, and all of it once its IRP is completed and
its issuing thread has returned. -/
theorem fair_accounting (h : (system V).Reachable s) :
    s.core.inFlightBytes = ∑ i ∈ s.inFlight, (V.request i).length ∧
    (∀ node, (s.core.nodes node).readFetchesInFlight = #{i ∈ s.inFlight | (V.request i).node = node}) ∧
    s.core.inFlightFetches = #s.inFlight + ∑ i ∈ range s.core.count, (s.core.reserved i - s.core.givenBack i) ∧
    s.core.inFlightFetches ≤ maxFetches ∧ s.core.underflow = false ∧
    (∀ i, s.core.givenBack i ≤ s.core.reserved i) ∧
    ∀ i, (s.core.irps i).completions ≠ [] → (∀ t ∈ s.tasks, ¬ t.issuesFor i) →
      s.core.givenBack i = s.core.reserved i := by
  have hs := reachable_sound h
  obtain ⟨hbytes, hnodes, hfetches⟩ := hs.counts
  exact ⟨hbytes, hnodes, hfetches, hs.account.limit, hs.account.underflow, hs.account.lent, fun i => hs.flow.paid⟩

theorem fair_accounting_halfHeld : ∃ s, run (State.next oneFile) initial halfHeld = some s ∧ s.core.reserved 0 = 1 ∧
    s.core.givenBack 0 = 1 ∧ s.core.inFlightFetches ≤ maxFetches ∧ s.core.underflow = false := by
  have hsome : (run (State.next oneFile) initial halfHeld).isSome := by decide +kernel
  obtain ⟨s, hs⟩ := Option.isSome_iff_exists.mp hsome
  have hst : ((run (State.next oneFile) initial halfHeld).map fun s =>
      (s.tasks, s.core.reserved 0, (s.core.irps 0).completions)) =
        some ([], 1, [⟨false, .success, 4 * blockSize⟩]) := by decide +kernel
  rw [hs, Option.map_some, Option.some.injEq, Prod.mk.injEq, Prod.mk.injEq] at hst
  obtain ⟨htasks, hres, hcompl⟩ := hst
  obtain ⟨-, -, -, hlimit, hunder, -, hpaid⟩ := fair_accounting (reachable_run hs)
  refine ⟨s, hs, hres, ?_, hlimit, hunder⟩
  rw [hpaid 0 (by simp [hcompl]) (by simp [htasks]), hres]

end BlorgFS.Read
