import Mathlib.Algebra.BigOperators.Group.Finset.Basic
import Mathlib.Algebra.BigOperators.Group.List.Basic
import Mathlib.Algebra.GroupWithZero.Nat

/-! Sums over a list of things in flight. When one of them is taken out and others
put in its place, a sum changes by what went and what came; so a quantity that each
exchange balances is conserved by a whole run. -/

namespace BlorgFS.Lib

variable {α : Type*} {f g : α → ℕ} {l new : List α} {a b : α}

/-- The sum of `f` over a list. -/
def tally (f : α → ℕ) (l : List α) : ℕ := (l.map f).sum

@[simp] theorem tally_nil : tally f [] = 0 := rfl

@[simp] theorem tally_cons : tally f (a :: l) = f a + tally f l := by simp [tally]

theorem tally_singleton : tally f [a] = f a := by simp

@[simp] theorem tally_append : tally f (l ++ new) = tally f l + tally f new := by simp [tally]

theorem tally_perm (h : l.Perm new) : tally f l = tally f new := (h.map f).sum_eq

theorem tally_erase [DecidableEq α] (h : a ∈ l) : f a + tally f (l.erase a) = tally f l := by
  rw [← tally_cons, tally_perm (List.perm_cons_erase h)]

/-- One entry and the rest. -/
theorem tally_eraseIdx {n : ℕ} (h : l[n]? = some a) : tally f l = f a + tally f (l.eraseIdx n) := by
  obtain ⟨hn, rfl⟩ := List.getElem?_eq_some_iff.mp h
  rw [← tally_cons, tally_perm (List.getElem_cons_eraseIdx_perm hn).symm]

/-- One entry is exchanged for another. -/
theorem tally_set {n : ℕ} (h : l[n]? = some a) (b : α) : tally f (l.set n b) + f a = tally f l + f b := by
  obtain ⟨hn, rfl⟩ := List.getElem?_eq_some_iff.mp h
  have hset : (l.set n b)[n]? = some b := List.getElem?_set_self hn
  rw [tally_eraseIdx hset, tally_eraseIdx h, List.eraseIdx_set_eq]
  omega

theorem tally_congr (h : ∀ a ∈ l, f a = g a) : tally f l = tally g l := by
  unfold tally
  rw [List.map_congr_left h]

theorem tally_map {β : Type*} {g : β → α} {l : List β} : tally f (l.map g) = tally (fun b => f (g b)) l := by
  unfold tally
  rw [List.map_map]
  rfl

theorem tally_le (h : ∀ a ∈ l, f a ≤ g a) : tally f l ≤ tally g l := by
  induction l with
  | nil => exact Nat.le_refl 0
  | cons a l ih =>
    rw [tally_cons, tally_cons]
    exact Nat.add_le_add (h a List.mem_cons_self) (ih fun b hb => h b (List.mem_cons_of_mem _ hb))

theorem tally_mono (h : ∀ a, f a ≤ g a) (l : List α) : tally f l ≤ tally g l := tally_le fun a _ => h a

theorem le_tally (h : a ∈ l) : f a ≤ tally f l := by
  induction l with
  | nil => cases h
  | cons b l ih =>
    rw [tally_cons]
    rcases List.mem_cons.mp h with rfl | h
    · omega
    · have := ih h
      omega

theorem exists_of_tally_pos (h : 0 < tally f l) : ∃ a ∈ l, 0 < f a := by
  induction l with
  | nil => cases h
  | cons b l ih =>
    rw [tally_cons] at h
    by_cases hb : 0 < f b
    · exact ⟨b, List.mem_cons_self, hb⟩
    · obtain ⟨a, ha, hf⟩ := ih (by omega)
      exact ⟨a, List.mem_cons_of_mem _ ha, hf⟩

/-- Of two sums ordered entry by entry one falls short where an entry does. -/
theorem tally_lt_iff (h : ∀ a ∈ l, f a ≤ g a) : tally f l < tally g l ↔ ∃ a ∈ l, f a < g a := by
  constructor
  · intro hlt
    by_contra hn
    have heq : tally f l = tally g l := tally_congr fun a ha => Nat.le_antisymm (h a ha) (Nat.le_of_not_lt fun hlt => hn ⟨a, ha, hlt⟩)
    omega
  · rintro ⟨a, ha, hlt⟩
    obtain ⟨l₁, l₂, rfl⟩ := List.append_of_mem ha
    have h1 : tally f l₁ ≤ tally g l₁ := tally_le fun b hb => h b (List.mem_append_left _ hb)
    have h2 : tally f l₂ ≤ tally g l₂ := tally_le fun b hb => h b (List.mem_append_right _ (List.mem_cons_of_mem _ hb))
    rw [tally_append, tally_append, tally_cons, tally_cons]
    omega

theorem tally_eq_zero (h : ∀ a ∈ l, f a = 0) : tally f l = 0 := by
  induction l with
  | nil => rfl
  | cons a l ih =>
    rw [tally_cons, h a List.mem_cons_self, ih fun b hb => h b (List.mem_cons_of_mem _ hb)]

/-- One term of a finite sum is exchanged for another. -/
theorem sum_update {ι β : Type*} [DecidableEq ι] {t : Finset ι} {k : ι} (hk : k ∈ t) (v : ι → β) (x : β) (f : ι → β → ℕ) :
    (∑ j ∈ t, f j (Function.update v k x j)) + f k (v k) = (∑ j ∈ t, f j (v j)) + f k x := by
  rw [← Finset.add_sum_erase _ _ hk, ← Finset.add_sum_erase _ (fun j => f j (v j)) hk, Function.update_self]
  have hrest : ∑ j ∈ t.erase k, f j (Function.update v k x j) = ∑ j ∈ t.erase k, f j (v j) := by
    apply Finset.sum_congr rfl
    intro j hj
    rw [Function.update_of_ne (Finset.ne_of_mem_erase hj)]
  omega

theorem sum_range_update {β : Type*} {n k : ℕ} (hk : k < n) (v : ℕ → β) (x : β) (f : ℕ → β → ℕ) :
    (∑ j ∈ Finset.range n, f j (Function.update v k x j)) + f k (v k) =
      (∑ j ∈ Finset.range n, f j (v j)) + f k x := sum_update (Finset.mem_range.mpr hk) v x f

end BlorgFS.Lib
