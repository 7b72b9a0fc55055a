import Mathlib.Data.List.Basic
import Mathlib.Tactic.Common

/-! Self-delimiting items in a stream. Enough of an item tells how long all of it is, so a
stream is cut into its items in one way, and what has been cut off does not depend on how
the stream came. -/

namespace BlorgFS.Lib

variable {β : Type*}

/-- How long the item at the front of a list is, once enough of it is there to tell. More
behind it does not change the answer, less does not either as long as the item is there. -/
structure Framing (β : Type*) where
  size : List β → Option ℕ
  size_append : ∀ {l n}, size l = some n → ∀ x, size (l ++ x) = some n
  size_take : ∀ {l n}, size l = some n → n ≤ l.length → size (l.take n) = some n
  size_pos : ∀ {l n}, size l = some n → 0 < n

namespace Framing

variable (F : Framing β) {l r x : List β} {n : ℕ}

/-- One item and nothing behind it. -/
def Whole (r : List β) : Prop := F.size r = some r.length

/-- The item at the front and what is behind it, when all of it is there. -/
def cut (l : List β) : Option (List β × List β) :=
  match F.size l with
  | none => none
  | some n => if n ≤ l.length then some (l.take n, l.drop n) else none

def itemsFrom : ℕ → List β → List (List β)
  | 0, _ => []
  | fuel + 1, l =>
    match F.cut l with
    | none => []
    | some (r, l) => r :: itemsFrom fuel l

/-- All the items of a stream that are there in full. -/
def items (l : List β) : List (List β) := F.itemsFrom l.length l

variable {F}

theorem Whole.length_pos (h : F.Whole r) : 0 < r.length := F.size_pos h

theorem Whole.cut_append (h : F.Whole r) (l : List β) : F.cut (r ++ l) = some (r, l) := by
  rw [cut, F.size_append h l]
  simp

theorem whole_of_cut {rest : List β} (h : F.cut l = some (r, rest)) : F.Whole r ∧ l = r ++ rest := by
  unfold cut at h
  cases hs : F.size l with
  | none => simp [hs] at h
  | some n =>
    simp only [hs] at h
    split_ifs at h with hn
    obtain ⟨rfl, rfl⟩ := Prod.mk.inj (Option.some.inj h)
    constructor
    · rw [Whole, F.size_take hs hn, List.length_take, Nat.min_eq_left hn]
    · exact (List.take_append_drop n l).symm

/-- A stream begins with one item only. -/
theorem Whole.append_inj {r' l' : List β} (h : F.Whole r) (h' : F.Whole r') (he : r ++ l = r' ++ l') : r = r' ∧ l = l' := by
  have hc := h.cut_append l
  rw [he, h'.cut_append l'] at hc
  obtain ⟨h1, h2⟩ := Prod.mk.inj (Option.some.inj hc)
  exact ⟨h1.symm, h2.symm⟩

theorem itemsFrom_add {fuel : ℕ} (h : l.length ≤ fuel) : F.itemsFrom fuel l = F.items l := by
  -- the fuel is the length of what is left, and every item takes some of it
  suffices hall : ∀ (n : ℕ) (l : List β), l.length ≤ n → ∀ fuel, l.length ≤ fuel → F.itemsFrom fuel l = F.itemsFrom l.length l by
    exact hall l.length l (Nat.le_refl _) fuel h
  intro n
  induction n with
  | zero =>
    intro l hl fuel _
    obtain rfl : l = [] := List.length_eq_zero_iff.mp (by omega)
    cases fuel with
    | zero => rfl
    | succ fuel =>
      have hc : F.cut ([] : List β) = none := by
        by_contra hne
        obtain ⟨⟨r, rest⟩, hc⟩ := Option.ne_none_iff_exists'.mp hne
        obtain ⟨hw, he⟩ := whole_of_cut hc
        have hr : r = [] := (List.append_eq_nil_iff.mp he.symm).1
        have := hw.length_pos
        simp [hr] at this
      simp [itemsFrom, hc]
  | succ n ih =>
    intro l hl fuel hf
    cases l with
    | nil => exact ih [] (by simp) fuel (by simp)
    | cons b l =>
      obtain ⟨fuel, rfl⟩ : ∃ k, fuel = k + 1 := ⟨fuel - 1, by simp at hf; omega⟩
      simp only [itemsFrom, List.length_cons]
      cases hc : F.cut (b :: l) with
      | none => rfl
      | some p =>
        obtain ⟨r, rest⟩ := p
        obtain ⟨hw, he⟩ := whole_of_cut hc
        have hlen : rest.length ≤ l.length := by
          have := hw.length_pos
          have := congrArg List.length he
          simp at this
          omega
        simp only [List.length_cons] at hl hf
        simp only
        rw [ih rest (by omega) fuel (by omega), ih rest (by omega) l.length hlen]

/-- What a stream is cut into first is the item it begins with. -/
theorem Whole.items_append (h : F.Whole r) (l : List β) : F.items (r ++ l) = r :: F.items l := by
  have hpos := h.length_pos
  obtain ⟨k, hk⟩ : ∃ k, (r ++ l).length = k + 1 := ⟨(r ++ l).length - 1, by simp; omega⟩
  rw [items, hk, itemsFrom, h.cut_append]
  simp only [List.cons.injEq, true_and]
  apply itemsFrom_add
  simp at hk
  omega

/-- The items of a stream that begins with some items. -/
theorem items_flatten {rs : List (List β)} (h : ∀ r ∈ rs, F.Whole r) (l : List β) : F.items (rs.flatten ++ l) = rs ++ F.items l := by
  induction rs with
  | nil => rfl
  | cons r rs ih =>
    rw [List.flatten_cons, List.append_assoc, (h r (by simp)).items_append, ih fun r hr => h r (by simp [hr])]
    rfl

/-- A stream is the items it begins with, one after another, and what is not an item yet. -/
theorem exists_items (l : List β) : ∃ (rs : List (List β)) (rest : List β), l = rs.flatten ++ rest ∧ (∀ r ∈ rs, F.Whole r) ∧ F.cut rest = none := by
  -- what is behind the first item is shorter
  suffices hall : ∀ (n : ℕ) (l : List β), l.length ≤ n → ∃ (rs : List (List β)) (rest : List β), l = rs.flatten ++ rest ∧ (∀ r ∈ rs, F.Whole r) ∧ F.cut rest = none by
    exact hall l.length l (Nat.le_refl _)
  intro n
  induction n with
  | zero =>
    intro l hl
    cases hc : F.cut l with
    | none => exact ⟨[], l, rfl, by simp, hc⟩
    | some p =>
      have hpos := (whole_of_cut hc).1.length_pos
      have hlength := congrArg List.length (whole_of_cut hc).2
      rw [List.length_append] at hlength
      omega
  | succ n ih =>
    intro l hl
    cases hc : F.cut l with
    | none => exact ⟨[], l, rfl, by simp, hc⟩
    | some p =>
      obtain ⟨hw, he⟩ := whole_of_cut hc
      have hpos := hw.length_pos
      have hlength := congrArg List.length he
      rw [List.length_append] at hlength
      obtain ⟨rs, rest, hrest, hwhole, hnone⟩ := ih p.2 (by omega)
      refine ⟨p.1 :: rs, rest, ?_, List.forall_mem_cons.2 ⟨hw, hwhole⟩, hnone⟩
      rw [List.flatten_cons, List.append_assoc, ← hrest, ← he]

/-- What a stream of items begins with, as far as it is items, are the first of them. -/
theorem prefix_of_flatten {rs ss : List (List β)} (hr : ∀ r ∈ rs, F.Whole r) (hs : ∀ r ∈ ss, F.Whole r) (h : rs.flatten ++ x = ss.flatten) :
    ∃ tail, ss = rs ++ tail ∧ tail.flatten = x := by
  induction rs generalizing ss with
  | nil => exact ⟨ss, rfl, h.symm⟩
  | cons r rs ih =>
    have hwhole := hr r List.mem_cons_self
    cases ss with
    | nil =>
      have hpos := hwhole.length_pos
      have hlength := congrArg List.length h
      rw [List.flatten_cons, List.length_append, List.length_append, List.flatten_nil, List.length_nil] at hlength
      omega
    | cons s ss =>
      rw [List.flatten_cons, List.flatten_cons, List.append_assoc] at h
      obtain ⟨rfl, hrest⟩ := hwhole.append_inj (hs s List.mem_cons_self) h
      obtain ⟨tail, rfl, htail⟩ := ih (fun r hm => hr r (List.mem_cons_of_mem _ hm)) (fun r hm => hs r (List.mem_cons_of_mem _ hm)) hrest
      exact ⟨tail, rfl, htail⟩

theorem items_of_cut (h : F.cut l = none) : F.items l = [] := by
  rw [items]
  cases l.length with
  | zero => rfl
  | succ n => rw [itemsFrom, h]

/-- In a part of some items that does not reach the end of the last there are only earlier ones. -/
theorem items_of_lt {before : List (List β)} {last : List β} (hwhole : ∀ r ∈ before ++ [last], F.Whole r) (h : l ++ x = (before ++ [last]).flatten)
    (hx : x ≠ []) : F.items l <+: before := by
  obtain ⟨rs, rest, rfl, hrs, hrest⟩ := F.exists_items l
  rw [List.append_assoc] at h
  obtain ⟨tail, htail, hflat⟩ := prefix_of_flatten hrs hwhole h
  rw [items_flatten hrs, items_of_cut hrest, List.append_nil]
  rcases List.eq_nil_or_concat tail with rfl | ⟨tail, final, rfl⟩
  · exact absurd (List.append_eq_nil_iff.1 hflat.symm).2 hx
  · rw [List.concat_eq_append, ← List.append_assoc] at htail
    exact (List.append_inj_left' htail rfl).symm ▸ List.prefix_append rs tail

end Framing

end BlorgFS.Lib
