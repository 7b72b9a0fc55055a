import Mathlib.Algebra.Order.BigOperators.Group.Multiset

/-! Taking the cheapest of what is left, again and again, costs least: any other choice of as
many can give up one of its own for the cheapest and is not worse off. -/

namespace BlorgFS.Lib

variable {α : Type*} [AddCommMonoid α] [LinearOrder α] [IsOrderedAddMonoid α] {all chosen : Multiset α} {x : α}

/-- A choice that is not empty, less one, is a choice among all but the cheapest, and saves at
least that. -/
theorem exists_le_erase_cheapest (hmin : ∀ y ∈ all, x ≤ y) (hle : chosen ≤ all) (hne : chosen ≠ 0) :
    ∃ rest ≤ all.erase x, rest.card + 1 = chosen.card ∧ rest.sum + x ≤ chosen.sum := by
  have hsum : ∀ {z : α}, z ∈ chosen → (chosen.erase z).sum + z = chosen.sum := fun hz => by
    rw [add_comm, ← Multiset.sum_cons, Multiset.cons_erase hz]
  by_cases hmem : x ∈ chosen
  · exact ⟨chosen.erase x, Multiset.erase_le_erase x hle, Multiset.card_erase_add_one hmem, (hsum hmem).le⟩
  · obtain ⟨y, hy⟩ := Multiset.exists_mem_of_ne_zero hne
    have hrest : chosen.erase y ≤ all.erase x := by
      have hsub : chosen ≤ all.erase x := by
        have := Multiset.erase_le_erase x hle
        rwa [Multiset.erase_of_notMem hmem] at this
      exact (Multiset.erase_le y chosen).trans hsub
    refine ⟨chosen.erase y, hrest, Multiset.card_erase_add_one hy, ?_⟩
    calc (chosen.erase y).sum + x ≤ (chosen.erase y).sum + y := by gcongr; exact hmin y (Multiset.mem_of_le hle hy)
      _ = chosen.sum := hsum hy

end BlorgFS.Lib
