import Mathlib.Data.List.Basic
import Mathlib.Tactic.Common

/-! Components written one after another with a separator before each. Where no component has a
separator in it, what is written can be split up in one way only, and of two such the one begins
with the other at a separator exactly when its components do. -/

namespace BlorgFS.Lib

variable {α β : Type*} {s : α} {c c' rest rest' : List α} {a b : List (List α)}

/-- Every component with a separator before it. -/
def separated (s : α) (a : List (List α)) : List α := a.flatMap (s :: ·)

@[simp] theorem separated_nil : separated s [] = [] := rfl

@[simp] theorem separated_cons : separated s (c :: a) = s :: (c ++ separated s a) := rfl

theorem separated_append : separated s (a ++ b) = separated s a ++ separated s b := List.flatMap_append

theorem map_separated (f : α → β) : (separated s a).map f = separated (f s) (a.map (List.map f)) := by
  induction a with
  | nil => rfl
  | cons c a ih => rw [separated_cons, List.map_cons, List.map_append, ih, List.map_cons, separated_cons]

/-- Nothing follows, or a separator does. -/
def AtBoundary (s : α) (rest : List α) : Prop := rest = [] ∨ ∃ tail, rest = s :: tail

theorem atBoundary_nil : AtBoundary s [] := .inl rfl

theorem atBoundary_cons (rest : List α) : AtBoundary s (s :: rest) := .inr ⟨rest, rfl⟩

theorem atBoundary_separated (a : List (List α)) : AtBoundary s (separated s a) := by
  cases a with
  | nil => exact atBoundary_nil
  | cons c a => exact atBoundary_cons _

theorem AtBoundary.append (h : AtBoundary s rest) (h' : AtBoundary s rest') : AtBoundary s (rest ++ rest') := by
  rcases h with rfl | ⟨tail, rfl⟩
  · exact h'
  · exact atBoundary_cons _

/-- A component ends where the first separator is. -/
theorem component_inj (hc : s ∉ c) (hc' : s ∉ c') (hr : AtBoundary s rest) (hr' : AtBoundary s rest')
    (h : c ++ rest = c' ++ rest') : c = c' ∧ rest = rest' := by
  induction c generalizing c' with
  | nil =>
    cases c' with
    | nil => exact ⟨rfl, h⟩
    | cons x c' =>
      rcases hr with rfl | ⟨tail, rfl⟩
      · cases h
      · exact absurd ((List.cons.inj h).1 ▸ List.mem_cons_self) hc'
  | cons x c ih =>
    cases c' with
    | nil =>
      rcases hr' with rfl | ⟨tail, rfl⟩
      · cases h
      · exact absurd ((List.cons.inj h).1 ▸ List.mem_cons_self) hc
    | cons y c' =>
      obtain ⟨rfl, htail⟩ := List.cons.inj h
      obtain ⟨rfl, hrest⟩ := ih (fun hm => hc (List.mem_cons_of_mem x hm)) (fun hm => hc' (List.mem_cons_of_mem x hm)) htail
      exact ⟨rfl, hrest⟩

/-- What begins with the components of `a`, up to a boundary, has those components first. -/
theorem separated_append_inj (ha : ∀ c ∈ a, s ∉ c) (hb : ∀ c ∈ b, s ∉ c) (hr : AtBoundary s rest)
    (h : separated s a ++ rest = separated s b) : ∃ b', b = a ++ b' ∧ rest = separated s b' := by
  induction a generalizing b with
  | nil => exact ⟨b, rfl, h⟩
  | cons c a ih =>
    cases b with
    | nil => cases h
    | cons c' b =>
      rw [separated_cons, separated_cons, List.cons_append, List.append_assoc] at h
      obtain ⟨rfl, htail⟩ := component_inj (ha c List.mem_cons_self) (hb c' List.mem_cons_self)
        ((atBoundary_separated a).append hr) (atBoundary_separated b) (List.cons.inj h).2
      obtain ⟨b', rfl, hrest⟩ := ih (fun c hm => ha c (List.mem_cons_of_mem _ hm)) (fun c hm => hb c (List.mem_cons_of_mem _ hm)) htail
      exact ⟨b', rfl, hrest⟩

/-- The components are determined by what is written. -/
theorem separated_inj (ha : ∀ c ∈ a, s ∉ c) (hb : ∀ c ∈ b, s ∉ c) (h : separated s a = separated s b) : a = b := by
  obtain ⟨b', rfl, hnil⟩ := separated_append_inj ha hb atBoundary_nil ((List.append_nil _).trans h)
  cases b' with
  | nil => exact (List.append_nil a).symm
  | cons c b' => cases hnil

/-- A separator follows the first component exactly when there is a second. -/
theorem mem_append_separated (hc : s ∉ c) : s ∈ c ++ separated s a ↔ a ≠ [] := by
  rw [List.mem_append]
  cases a with
  | nil => simp [hc]
  | cons c' a => simp

end BlorgFS.Lib
