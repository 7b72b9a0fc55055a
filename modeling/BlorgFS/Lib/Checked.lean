import Mathlib.Data.List.DropRight
import Mathlib.Data.List.TakeWhile
import Mathlib.Tactic.Common

/-! Reading a list position by position. A read past the end is a fault, and so is a loop that
does not end in the turns it is given; what the reader makes of the values is an answer or an
error. A reader that never faults stays within the list and ends. -/

namespace BlorgFS.Lib

/-- What comes of reading: `fault` is a read past the end, or no end at all. -/
inductive Checked (ε α : Type) where
  | fault
  | error (e : ε)
  | ok (a : α)
  deriving DecidableEq, Repr

namespace Checked

variable {ε α β : Type}

def bind (x : Checked ε α) (f : α → Checked ε β) : Checked ε β :=
  match x with
  | .fault => .fault
  | .error e => .error e
  | .ok a => f a

instance : Monad (Checked ε) where
  pure := .ok
  bind := Checked.bind

@[simp] theorem pure_eq (a : α) : (pure a : Checked ε α) = .ok a := rfl

@[simp] theorem ok_bind (a : α) (f : α → Checked ε β) : (.ok a >>= f : Checked ε β) = f a := rfl

@[simp] theorem error_bind (e : ε) (f : α → Checked ε β) : (.error e >>= f : Checked ε β) = .error e := rfl

@[simp] theorem fault_bind (f : α → Checked ε β) : (.fault >>= f : Checked ε β) = .fault := rfl

theorem bind_eq_ok {x : Checked ε α} {f : α → Checked ε β} {b : β} : (x >>= f) = .ok b ↔ ∃ a, x = .ok a ∧ f a = .ok b := by
  cases x with
  | fault => exact ⟨nofun, fun ⟨_, h, _⟩ => nomatch h⟩
  | error e => exact ⟨nofun, fun ⟨_, h, _⟩ => nomatch h⟩
  | ok a => exact ⟨fun h => ⟨a, rfl, h⟩, fun ⟨_, h, hf⟩ => by cases h; exact hf⟩

theorem bind_bind {γ : Type} (x : Checked ε α) (f : α → Checked ε β) (g : β → Checked ε γ) : x >>= f >>= g = x >>= fun a => f a >>= g := by
  cases x <;> rfl

theorem ite_bind {p : Prop} [Decidable p] (x y : Checked ε α) (f : α → Checked ε β) : (if p then x else y) >>= f = if p then x >>= f else y >>= f := by
  split_ifs <;> rfl

/-- The reader does not fault, and what it answers is as said. -/
def Meets (x : Checked ε α) (P : α → Prop) : Prop :=
  match x with
  | .fault => False
  | .error _ => True
  | .ok a => P a

theorem meets_iff {x : Checked ε α} {P : α → Prop} : Meets x P ↔ x ≠ .fault ∧ ∀ a, x = .ok a → P a := by
  cases x with
  | fault => exact ⟨False.elim, fun h => h.1 rfl⟩
  | error e => exact ⟨fun _ => ⟨nofun, nofun⟩, fun _ => trivial⟩
  | ok a => exact ⟨fun h => ⟨nofun, fun _ ha => Checked.ok.inj ha ▸ h⟩, fun h => h.2 a rfl⟩

theorem Meets.mono {x : Checked ε α} {P Q : α → Prop} (h : Meets x P) (hPQ : ∀ a, P a → Q a) : Meets x Q := by
  cases x with
  | fault => exact h
  | error e => trivial
  | ok a => exact hPQ a h

theorem Meets.bind {x : Checked ε α} {f : α → Checked ε β} {P : α → Prop} {Q : β → Prop} (h : Meets x P) (hf : ∀ a, P a → Meets (f a) Q) :
    Meets (x >>= f) Q := by
  cases x with
  | fault => exact h
  | error e => trivial
  | ok a => exact hf a h

theorem Meets.unless {p : Prop} [Decidable p] {e : ε} {x : Checked ε α} {P : α → Prop} (h : ¬ p → Meets x P) :
    Meets (if p then .error e else x) P := by
  split_ifs with hp
  · trivial
  · exact h hp

/-- An answer or an error that takes no reading. -/
def ofExcept : Except ε α → Checked ε α
  | .error e => .error e
  | .ok a => .ok a

@[simp] theorem ofExcept_ok (a : α) : ofExcept (.ok a : Except ε α) = .ok a := rfl

@[simp] theorem ofExcept_error (e : ε) : ofExcept (.error e : Except ε α) = .error e := rfl

/-- The same reader with its errors told otherwise. -/
def mapError {δ : Type} (f : ε → δ) : Checked ε α → Checked δ α
  | .fault => .fault
  | .error e => .error (f e)
  | .ok a => .ok a

theorem mapError_eq_ok {δ : Type} {f : ε → δ} {x : Checked ε α} {a : α} : mapError f x = .ok a ↔ x = .ok a := by
  cases x with
  | fault => exact ⟨nofun, nofun⟩
  | error e => exact ⟨nofun, nofun⟩
  | ok b => exact ⟨fun h => congrArg _ (Checked.ok.inj h), fun h => congrArg _ (Checked.ok.inj h)⟩

theorem Meets.mapError {δ : Type} {f : ε → δ} {x : Checked ε α} {P : α → Prop} (h : Meets x P) : Meets (x.mapError f) P := by
  cases x with
  | fault => exact h
  | error e => trivial
  | ok a => exact h

theorem ofExcept_eq_ok {x : Except ε α} {a : α} : ofExcept x = .ok a ↔ x = .ok a := by
  cases x with
  | error e => exact ⟨nofun, nofun⟩
  | ok b => exact ⟨fun h => congrArg _ (Checked.ok.inj h), fun h => congrArg _ (Except.ok.inj h)⟩

theorem ofExcept_bind (x : Except ε α) (f : α → Except ε β) : ofExcept (x >>= f) = ofExcept x >>= fun a => ofExcept (f a) := by
  cases x <;> rfl

/-- A difference of lengths. One that would wrap is a fault. -/
def sub (a b : ℕ) : Checked ε ℕ := if b ≤ a then .ok (a - b) else .fault

theorem sub_of_le {a b : ℕ} (h : b ≤ a) : sub a b = (.ok (a - b) : Checked ε ℕ) := if_pos h

theorem sub_meets {a b : ℕ} (h : b ≤ a) : Meets (sub a b : Checked ε ℕ) (· = a - b) := by
  rw [sub_of_le h]
  rfl

end Checked

section Scan

variable {ε β : Type} {text : List β} {p : β → Bool} {limit turns i j : ℕ}

/-- `text[i]`. -/
def readAt (text : List β) (i : ℕ) : Checked ε β :=
  match text[i]? with
  | none => .fault
  | some c => .ok c

theorem readAt_of_lt (h : i < text.length) : readAt text i = (.ok (text.get ⟨i, h⟩) : Checked ε β) := by
  rw [readAt, List.getElem?_eq_getElem h]
  rfl

theorem readAt_eq_ok {c : β} : readAt text i = (.ok c : Checked ε β) ↔ text[i]? = some c := by
  unfold readAt
  cases text[i]? with
  | none => exact ⟨nofun, nofun⟩
  | some c' => exact ⟨fun h => congrArg some (Checked.ok.inj h), fun h => congrArg _ (Option.some.inj h)⟩

theorem readAt_meets (h : i < text.length) : (readAt text i : Checked ε β).Meets (text[i]? = some ·) := by
  rw [readAt_of_lt h]
  exact List.getElem?_eq_getElem h

theorem readAt_append (front rest : List β) (b : β) : readAt (front ++ b :: rest) front.length = (.ok b : Checked ε β) := by
  rw [readAt_eq_ok, List.getElem?_append_right (Nat.le_refl _), Nat.sub_self]
  rfl

/-- `n` values from a position on. -/
def readSlice (text : List β) (i n : ℕ) : Checked ε (List β) := if i + n ≤ text.length then .ok ((text.drop i).take n) else .fault

theorem readSlice_meets {n : ℕ} (h : i + n ≤ text.length) : (readSlice text i n : Checked ε (List β)).Meets (· = (text.drop i).take n) := by
  rw [readSlice, if_pos h]
  rfl

theorem readSlice_append (front slice rest : List β) : readSlice (front ++ (slice ++ rest)) front.length slice.length = (.ok slice : Checked ε (List β)) := by
  have hle : front.length + slice.length ≤ (front ++ (slice ++ rest)).length := by
    rw [List.length_append, List.length_append]
    omega
  rw [readSlice, if_pos hle, List.drop_left', List.take_left']
  · rfl
  · rfl

/-- `text[i] = c`. -/
def writeAt (text : List β) (i : ℕ) (c : β) : Checked ε (List β) := if i < text.length then .ok (text.set i c) else .fault

theorem writeAt_append (front rest : List β) (b c : β) : writeAt (front ++ b :: rest) front.length c = (.ok (front ++ c :: rest) : Checked ε (List β)) := by
  have hlt : front.length < (front ++ b :: rest).length := by
    rw [List.length_append, List.length_cons]
    omega
  rw [writeAt, if_pos hlt, List.set_append_right _ _ (Nat.le_refl _), Nat.sub_self, List.set_cons_zero]

/-- The first position from `i` on where `p` does not hold, or `limit`. -/
def scan (text : List β) (limit : ℕ) (p : β → Bool) : ℕ → ℕ → Checked ε ℕ
  | 0, _ => .fault
  | turns + 1, i =>
    if i < limit then do
      let c ← readAt text i
      if p c then scan text limit p turns (i + 1) else .ok i
    else .ok i

/-- The first position down to `limit` behind a value `p` does not hold of. -/
def scanBack (text : List β) (limit : ℕ) (p : β → Bool) : ℕ → ℕ → Checked ε ℕ
  | 0, _ => .fault
  | turns + 1, i =>
    if limit < i then do
      let c ← readAt text (i - 1)
      if p c then scanBack text limit p turns (i - 1) else .ok i
    else .ok i

/-- A scan counts the values `p` holds of. -/
theorem scan_eq (hlimit : limit ≤ text.length) (hi : i ≤ limit) (hturns : limit - i < turns) :
    scan text limit p turns i = (.ok (i + (((text.take limit).drop i).takeWhile p).length) : Checked ε ℕ) := by
  induction turns generalizing i with
  | zero => omega
  | succ turns ih =>
    unfold scan
    by_cases hlt : i < limit
    · have hlength : i < (text.take limit).length := by
        rw [List.length_take]
        omega
      have hget : (text.take limit).get ⟨i, hlength⟩ = text.get ⟨i, by omega⟩ := List.getElem_take
      have hdrop : (text.take limit).drop i = text.get ⟨i, by omega⟩ :: (text.take limit).drop (i + 1) := by
        rw [List.drop_eq_getElem_cons hlength, ← hget]
        rfl
      rw [if_pos hlt, readAt_of_lt (by omega), Checked.ok_bind, hdrop, List.takeWhile_cons]
      by_cases hp : p (text.get ⟨i, by omega⟩) = true
      · rw [if_pos hp, if_pos hp, ih (i := i + 1) hlt (by omega), List.length_cons]
        congr 1
        omega
      · rw [if_neg hp, if_neg hp, List.length_nil, Nat.add_zero]
    · have hnil : (text.take limit).drop i = [] := List.drop_eq_nil_of_le (by rw [List.length_take]; omega)
      rw [if_neg hlt, hnil, List.takeWhile_nil, List.length_nil, Nat.add_zero]

/-- A scan that meets a value `p` does not hold of needs nothing behind it. -/
theorem scan_stops (front before : List β) {rest : List β} {c : β} (hbefore : ∀ b ∈ before, p b = true) (hc : p c = false)
    (hlimit : front.length ≤ limit) (hturns : limit - front.length < turns) :
    scan (front ++ (before ++ c :: rest)) limit p turns front.length = (.ok (min limit (front.length + before.length)) : Checked ε ℕ) := by
  induction turns generalizing front before with
  | zero => omega
  | succ turns ih =>
    unfold scan
    by_cases hlt : front.length < limit
    · rw [if_pos hlt]
      cases before with
      | nil =>
        rw [List.nil_append, readAt_append, Checked.ok_bind, hc, if_neg Bool.false_ne_true, List.length_nil, Nat.add_zero, Nat.min_eq_right (by omega)]
      | cons b before =>
        rw [List.cons_append, readAt_append, Checked.ok_bind, hbefore b List.mem_cons_self, if_pos rfl]
        have hnext := ih (front ++ [b]) before (fun b' hb' => hbefore b' (List.mem_cons_of_mem _ hb'))
          (by rw [List.length_append, List.length_singleton]; omega) (by rw [List.length_append, List.length_singleton]; omega)
        rw [List.append_assoc, List.singleton_append, List.length_append, List.length_singleton] at hnext
        rw [hnext, List.length_cons, Nat.add_assoc, Nat.add_comm 1]
    · rw [if_neg hlt, Nat.min_eq_left (by omega)]
      congr 1
      omega

/-- A scan back takes the values `p` holds of off the end. -/
theorem scanBack_eq (hi : i ≤ text.length) (hlimit : limit ≤ i) (hturns : i - limit < turns) :
    scanBack text limit p turns i = (.ok (limit + (((text.take i).drop limit).rdropWhile p).length) : Checked ε ℕ) := by
  induction turns generalizing i with
  | zero => omega
  | succ turns ih =>
    unfold scanBack
    by_cases hlt : limit < i
    · obtain ⟨k, rfl⟩ : ∃ k, i = k + 1 := ⟨i - 1, by omega⟩
      have hsplit : (text.take (k + 1)).drop limit = (text.take k).drop limit ++ [text.get ⟨k, by omega⟩] := by
        rw [List.take_succ_eq_append_getElem (by omega), List.drop_append_of_le_length (by rw [List.length_take]; omega)]
        rfl
      rw [if_pos hlt, Nat.add_sub_cancel, readAt_of_lt (by omega), Checked.ok_bind, hsplit]
      by_cases hp : p (text.get ⟨k, by omega⟩) = true
      · rw [if_pos hp, List.rdropWhile_concat_pos p _ _ hp]
        exact ih (by omega) (by omega) (by omega)
      · rw [if_neg hp, List.rdropWhile_concat_neg p _ _ hp, List.length_append, List.length_singleton, List.length_drop, List.length_take]
        congr 1
        omega
    · have hnil : (text.take i).drop limit = [] := List.drop_eq_nil_of_le (by rw [List.length_take]; omega)
      rw [if_neg hlt, hnil, List.rdropWhile_nil, List.length_nil, Nat.add_zero]
      congr 1
      omega

end Scan

end BlorgFS.Lib
