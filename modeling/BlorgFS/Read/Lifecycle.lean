import BlorgFS.Read.WorkItems

/-! The life of a non-cached read, over every run: one completion, by whom the dispatch
routine's answer says, with its admission settled; and a work item in `DriverContext[2]`
exactly while something that frees it is on its way. -/

namespace BlorgFS.Read

open Lib DiskCache Core

variable {V : Setup} {c : Core} {t : Task} {tasks : List Task} {i n : ℕ} {s : State}

/-- Someone has IRP `i`: a task, a list of the fair share or a `DISK_CACHE_READ`. -/
def State.Owned (s : State) (i : ℕ) : Prop :=
  (∃ t ∈ s.tasks, t.owner = some i) ∨ i ∈ s.core.held ∨ i ∈ s.core.waiting ∨
    ∃ r, (s.core.reads r).live = true ∧ (s.core.reads r).irp = i

/-- A read that came is somebody's until it is completed, and then nobody's. -/
theorem Flow.owned_or_completed (h : Flow V s.core s.tasks) (hi : i < s.core.count) :
    s.Owned i ∧ (s.core.irps i).completions = [] ∨ ¬ s.Owned i ∧ ∃ x, (s.core.irps i).completions = [x] := by
  have hown := h.owners i
  rw [if_pos hi] at hown
  by_cases hc : (s.core.irps i).completions = []
  · refine Or.inl ⟨?_, hc⟩
    rw [hc, List.length_nil] at hown
    by_cases htask : 0 < tally (Task.owns i) s.tasks
    · obtain ⟨t, ht, hpos⟩ := exists_of_tally_pos htask
      refine Or.inl ⟨t, ht, ?_⟩
      by_contra hne
      simp [Task.owns, hne] at hpos
    by_cases hread : 0 < s.core.readsOwn i
    · exact Or.inr (Or.inr (Or.inr (exists_read_of_readsOwn hread)))
    by_cases hheld : 0 < s.core.held.count i
    · exact Or.inr (Or.inl (List.count_pos_iff.mp hheld))
    · exact Or.inr (Or.inr (Or.inl (List.count_pos_iff.mp (by omega))))
  · have hpos : 0 < (s.core.irps i).completions.length := List.length_pos_iff.mpr hc
    refine Or.inr ⟨?_, List.length_eq_one_iff.mp (by omega)⟩
    rintro (⟨t, ht, he⟩ | hm | hm | ⟨r, hr, rfl⟩)
    · have hle := @le_tally _ (Task.owns i) s.tasks t ht
      have hone : t.owns i = 1 := by simp [Task.owns, he]
      omega
    · have := List.count_pos_iff.mpr hm
      omega
    · have := List.count_pos_iff.mpr hm
      omega
    · have := h.one_le_readsOwn hr
      omega

/-- Nothing that will run touches a completed IRP. -/
theorem Flow.untouched (h : Flow V c tasks) (hc : (c.irps i).completions ≠ []) (ht : t ∈ tasks) :
    c.touches t ≠ some i := fun he => hc ((h.perm (List.perm_cons_erase ht)).touches_open he)

/-- With no task left, only the fair share's lists have reads. -/
theorem Flow.rest (h : Flow V s.core s.tasks) (ht : s.tasks = []) (hi : i < s.core.count) :
    s.core.returned i ≠ none ∧ (i ∈ s.core.held ∨ i ∈ s.core.waiting ∨ ∃ x, (s.core.irps i).completions = [x]) := by
  refine ⟨fun hnone => ?_, ?_⟩
  · have hd := h.dispatchers i
    rw [ht, tally_nil, if_pos hnone, if_pos hi] at hd
    cases hd
  · rcases h.owned_or_completed hi with ⟨hown, -⟩ | ⟨-, hx⟩
    · rcases hown with ⟨t, hm, -⟩ | hm | hm | ⟨r, hr, -⟩
      · rw [ht] at hm
        cases hm
      · exact Or.inl hm
      · exact Or.inr (Or.inl hm)
      · have hrefs := h.refs r
        have hused := h.used r hr
        rw [ht, tally_nil, if_pos hr] at hrefs
        push_cast at hrefs
        omega
    · exact Or.inr (Or.inr hx)

end BlorgFS.Read
