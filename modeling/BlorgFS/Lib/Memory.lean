import Mathlib.Data.List.Basic
import Mathlib.Tactic.Common

/-! Memory as a function from addresses, and lists of values read from it and written to
it. What is written can be read back, and what lies beside it is as it was. -/

namespace BlorgFS.Lib

variable {β : Type*} {m : ℕ → β} {l : List β} {start a n k : ℕ}

/-- The `n` values from `start` on. -/
def load (m : ℕ → β) (start n : ℕ) : List β := (List.range n).map fun i => m (start + i)

/-- The memory with the values of `l` from `start` on. -/
def store (m : ℕ → β) (start : ℕ) (l : List β) : ℕ → β := fun i =>
  if start ≤ i then (l[i - start]?).getD (m i) else m i

@[simp] theorem length_load : (load m start n).length = n := by simp [load]

@[simp] theorem load_zero : load m start 0 = [] := rfl

theorem getElem?_load (h : k < n) : (load m start n)[k]? = some (m (start + k)) := by simp [load, h]

theorem load_congr {m' : ℕ → β} (h : ∀ i, start ≤ i → i < start + n → m i = m' i) : load m start n = load m' start n := by
  apply List.map_congr_left
  intro i hi
  have := List.mem_range.mp hi
  exact h _ (by omega) (by omega)

theorem load_add : load m start (n + k) = load m start n ++ load m (start + n) k := by
  simp [load, List.range_add, Function.comp_def, Nat.add_assoc]

theorem load_take (h : k ≤ n) : (load m start n).take k = load m start k := by
  obtain ⟨d, rfl⟩ := Nat.exists_eq_add_of_le h
  rw [load_add, List.take_left' (by simp)]

theorem load_drop (h : k ≤ n) : (load m start n).drop k = load m (start + k) (n - k) := by
  obtain ⟨d, rfl⟩ := Nat.exists_eq_add_of_le h
  rw [load_add, List.drop_left' (by simp), Nat.add_sub_cancel_left]

theorem store_of_lt (h : a < start) : store m start l a = m a := if_neg (by omega)

theorem store_of_ge (h : start + l.length ≤ a) : store m start l a = m a := by
  rw [store, if_pos (by omega), List.getElem?_eq_none (by omega)]
  rfl

theorem store_of_mem (h : k < l.length) : store m start l (start + k) = l.get ⟨k, h⟩ := by
  rw [store, if_pos (by omega), Nat.add_sub_cancel_left, List.getElem?_eq_getElem h]
  rfl

/-- What was written is read back. -/
theorem load_store_self : load (store m start l) start l.length = l := by
  apply List.ext_getElem?
  intro k
  by_cases hk : k < l.length
  · rw [getElem?_load hk, store_of_mem hk, List.getElem?_eq_getElem hk]
    rfl
  · rw [List.getElem?_eq_none (by simpa using hk), List.getElem?_eq_none (by omega)]

/-- Below what is written nothing changes. -/
theorem load_store_below (h : a + n ≤ start) : load (store m start l) a n = load m a n := by
  apply load_congr
  intro i _ hi
  exact store_of_lt (by omega)

/-- Above what is written nothing changes. -/
theorem load_store_above (h : start + l.length ≤ a) : load (store m start l) a n = load m a n := by
  apply load_congr
  intro i hi _
  exact store_of_ge (by omega)

/-- Values written behind others make one list with them. -/
theorem load_store_append (h : a + n = start) : load (store m start l) a (n + l.length) = load m a n ++ l := by
  rw [load_add, h, load_store_self, load_store_below (by omega)]

/-- A block written over, as far as it is read, with what is there already. -/
theorem load_store_take (h : n ≤ l.length) : load (store m start l) start n = l.take n := by
  rw [← load_take h, load_store_self]

end BlorgFS.Lib
