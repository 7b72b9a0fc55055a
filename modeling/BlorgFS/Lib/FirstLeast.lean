import Mathlib.Data.List.Induction
import Mathlib.Data.Nat.Basic
import Mathlib.Order.Basic

/-! The first of the least: a walk over a list that remembers the element with the smallest key
so far, and changes it only for a smaller one. -/

namespace BlorgFS.Lib

variable {α : Type*} {key : α → ℕ} {p : α → Prop} {l : List α} {x : α}

/-- The walk, among the elements that satisfy `p` and have keys below `top`. -/
def firstLeast (key : α → ℕ) (p : α → Prop) [DecidablePred p] (top : ℕ) (l : List α) : Option α × ℕ :=
  l.foldl (fun best x => if key x < best.2 ∧ p x then (some x, key x) else best) (none, top)

/-- `x` is the first of those with the least key. -/
def FirstLeast (key : α → ℕ) (p : α → Prop) (l : List α) (x : α) : Prop :=
  ∃ front back, l = front ++ x :: back ∧ p x ∧ (∀ y ∈ front, p y → key x < key y) ∧ ∀ y ∈ back, p y → key x ≤ key y

theorem FirstLeast.mem (h : FirstLeast key p l x) : x ∈ l := by
  obtain ⟨front, back, rfl, -⟩ := h
  exact List.mem_append_right _ List.mem_cons_self

/-- The walk ends with the first of the least, if there is one below `top`. -/
theorem firstLeast_cases [DecidablePred p] (top : ℕ) (l : List α) :
    (firstLeast key p top l = (none, top) ∧ ∀ x ∈ l, p x → top ≤ key x) ∨
      ∃ x, firstLeast key p top l = (some x, key x) ∧ FirstLeast key p l x ∧ key x < top := by
  induction l using List.reverseRecOn with
  | nil => exact Or.inl ⟨rfl, nofun⟩
  | append_singleton l y ih =>
    unfold firstLeast at ih ⊢
    rw [List.foldl_append, List.foldl_cons, List.foldl_nil]
    rcases ih with ⟨he, hnone⟩ | ⟨x, he, ⟨front, back, rfl, hx, hfront, hback⟩, htop⟩ <;> rw [he]
    · by_cases hy : key y < top ∧ p y
      · refine Or.inr ⟨y, if_pos hy, ⟨l, [], rfl, hy.2, fun z hz hp => hy.1.trans_le (hnone z hz hp), nofun⟩, hy.1⟩
      · refine Or.inl ⟨if_neg hy, fun z hz hp => ?_⟩
        rcases List.mem_append.mp hz with hz | hz
        · exact hnone z hz hp
        · obtain rfl := List.mem_singleton.mp hz
          exact not_lt.mp fun hlt => hy ⟨hlt, hp⟩
    · by_cases hy : key y < key x ∧ p y
      · refine Or.inr ⟨y, if_pos hy, ⟨_, [], rfl, hy.2, fun z hz hp => ?_, nofun⟩, hy.1.trans htop⟩
        rcases List.mem_append.mp hz with hz | hz
        · exact hy.1.trans (hfront z hz hp)
        · rcases List.mem_cons.mp hz with rfl | hz
          · exact hy.1
          · exact hy.1.trans_le (hback z hz hp)
      · refine Or.inr ⟨x, if_neg hy, ⟨front, back ++ [y], by simp, hx, hfront, fun z hz hp => ?_⟩, htop⟩
        rcases List.mem_append.mp hz with hz | hz
        · exact hback z hz hp
        · obtain rfl := List.mem_singleton.mp hz
          exact not_lt.mp fun hlt => hy ⟨hlt, hp⟩

end BlorgFS.Lib
