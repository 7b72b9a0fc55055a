import Mathlib.Tactic.Common

/-! What holds of every event of a history when it happens, the newest event first. A history
is extended by one event at a time, and so is what holds throughout it. -/

namespace BlorgFS.Lib

variable {ε : Type*} {Q : ε → List ε → Prop} {e : ε} {l : List ε}

/-- Every event stands in the relation `Q` to what happened before it. -/
def Throughout (Q : ε → List ε → Prop) : List ε → Prop
  | [] => True
  | e :: l => Q e l ∧ Throughout Q l

theorem Throughout.cons (h : Throughout Q l) (he : Q e l) : Throughout Q (e :: l) := ⟨he, h⟩

/-- An event anywhere in a history, with what happened before it. -/
theorem Throughout.of_append {later earlier : List ε} (h : Throughout Q (later ++ e :: earlier)) : Q e earlier := by
  induction later with
  | nil => exact h.1
  | cons _ _ ih => exact ih h.2

end BlorgFS.Lib
