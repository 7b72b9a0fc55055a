import Mathlib.Algebra.BigOperators.Group.List.Basic
import Mathlib.Algebra.GroupWithZero.Nat
import Mathlib.Data.Nat.Basic

/-! Pieces laid end to end: each starts where the one before it stops, so that together they
cover a range once and nothing outside it. -/

namespace BlorgFS.Lib

variable {α : Type*} {start length : α → ℕ} {l m : List α} {lo mid hi : ℕ} {x : α}

/-- The pieces `l` cover `[lo, hi)` in order. None of them is empty. -/
def Tiles (start length : α → ℕ) : ℕ → List α → ℕ → Prop
  | lo, [], hi => lo = hi
  | lo, x :: l, hi => start x = lo ∧ 0 < length x ∧ Tiles start length (lo + length x) l hi

/-- `x` covers `p`. -/
def Covers (start length : α → ℕ) (p : ℕ) (x : α) : Prop := start x ≤ p ∧ p < start x + length x

instance (start length : α → ℕ) (p : ℕ) : DecidablePred (Covers start length p) := fun _ =>
  inferInstanceAs (Decidable (_ ∧ _))

theorem Tiles.append (h : Tiles start length lo l mid) (h' : Tiles start length mid m hi) : Tiles start length lo (l ++ m) hi := by
  induction l generalizing lo with
  | nil =>
    obtain rfl : lo = mid := h
    exact h'
  | cons x l ih => exact ⟨h.1, h.2.1, ih h.2.2⟩

theorem Tiles.concat (h : Tiles start length lo l mid) (hstart : start x = mid) (hpos : 0 < length x) :
    Tiles start length lo (l ++ [x]) (mid + length x) :=
  h.append ⟨hstart, hpos, rfl⟩

theorem Tiles.sum (h : Tiles start length lo l hi) : lo + (l.map length).sum = hi := by
  induction l generalizing lo with
  | nil => exact h
  | cons x l ih =>
    rw [List.map_cons, List.sum_cons, ← Nat.add_assoc]
    exact ih h.2.2

/-- Each place of the range is covered once, and no other is. -/
theorem Tiles.countP (h : Tiles start length lo l hi) (p : ℕ) :
    l.countP (fun x => Covers start length p x) = if lo ≤ p ∧ p < hi then 1 else 0 := by
  induction l generalizing lo with
  | nil =>
    obtain rfl : lo = hi := h
    rw [List.countP_nil, if_neg (by omega)]
  | cons x l ih =>
    obtain ⟨hstart, hpos, hrest⟩ := h
    have hsum := hrest.sum
    rw [List.countP_cons, ih hrest]
    simp only [Covers, hstart, decide_eq_true_eq]
    split_ifs <;> omega

end BlorgFS.Lib
