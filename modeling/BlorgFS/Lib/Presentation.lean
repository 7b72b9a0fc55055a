import BlorgFS.Lib.BigEndian

/-! Numbers in so many bytes, vectors with their length in front of them, and runs of items, as a
presentation language for network messages writes them. A reader takes what is at the front and
hands on the rest. -/

namespace BlorgFS.Lib

/-- Bytes with their number in front of them, in `n` bytes. -/
def vector (n : ℕ) (bytes : List UInt8) : List UInt8 := be n bytes.length ++ bytes

/-! ### Readers -/

def takeBytes (n : ℕ) (l : List UInt8) : Option (List UInt8 × List UInt8) := if n ≤ l.length then some (l.take n, l.drop n) else none

def takeNumber (n : ℕ) (l : List UInt8) : Option (ℕ × List UInt8) := do
  let (bytes, l) ← takeBytes n l
  some (ofBe bytes, l)

/-- A vector that has no fewer than `least` bytes and no more than `most`. -/
def takeVector (n least most : ℕ) (l : List UInt8) : Option (List UInt8 × List UInt8) := do
  let (length, l) ← takeNumber n l
  if least ≤ length ∧ length ≤ most then takeBytes length l else none

/-- Items up to the end of the list, no more than so many. -/
def takeItems {α : Type} (item : List UInt8 → Option (α × List UInt8)) : ℕ → List UInt8 → Option (List α)
  | 0, l => if l = [] then some [] else none
  | n + 1, l =>
    if l = [] then some []
    else do
      let (first, l) ← item l
      let others ← takeItems item n l
      some (first :: others)

/-- All the items of a list. -/
def items {α : Type} (item : List UInt8 → Option (α × List UInt8)) (l : List UInt8) : Option (List α) := takeItems item l.length l

/-! ### What is read back -/

section Append

variable {n least most v : ℕ} {bytes : List UInt8}

@[simp] theorem length_vector (n : ℕ) (bytes : List UInt8) : (vector n bytes).length = n + bytes.length := by
  rw [vector, List.length_append, length_be]

theorem takeBytes_append (bytes rest : List UInt8) : takeBytes bytes.length (bytes ++ rest) = some (bytes, rest) := by
  have hle : bytes.length ≤ (bytes ++ rest).length := by
    rw [List.length_append]
    omega
  rw [takeBytes, if_pos hle, List.take_left' rfl, List.drop_left' rfl]

theorem takeNumber_append (hv : v < 256 ^ n) (rest : List UInt8) : takeNumber n (be n v ++ rest) = some (v, rest) := by
  have htake := takeBytes_append (be n v) rest
  rw [length_be] at htake
  rw [takeNumber, htake]
  show some (ofBe (be n v), rest) = some (v, rest)
  rw [ofBe_be_of_lt hv]

theorem takeVector_append (hleast : least ≤ bytes.length) (hmost : bytes.length ≤ most) (hn : bytes.length < 256 ^ n) (rest : List UInt8) :
    takeVector n least most (vector n bytes ++ rest) = some (bytes, rest) := by
  rw [takeVector, vector, List.append_assoc, takeNumber_append hn]
  show (if least ≤ bytes.length ∧ bytes.length ≤ most then takeBytes bytes.length (bytes ++ rest) else none) = some (bytes, rest)
  rw [if_pos ⟨hleast, hmost⟩, takeBytes_append]

/-- A run of items is read back when each of them is, and none is empty. -/
theorem takeItems_flatMap {α : Type} {item : List UInt8 → Option (α × List UInt8)} {encode : α → List UInt8} {as : List α}
    (hread : ∀ a ∈ as, ∀ rest, item (encode a ++ rest) = some (a, rest)) (hne : ∀ a ∈ as, encode a ≠ []) {turns : ℕ} (hturns : as.length ≤ turns) :
    takeItems item turns (as.flatMap encode) = some as := by
  induction as generalizing turns with
  | nil => cases turns <;> rfl
  | cons a as ih =>
    cases turns with
    | zero => exact absurd hturns (Nat.not_succ_le_zero _)
    | succ turns =>
      have hfull : encode a ++ as.flatMap encode ≠ [] := List.append_ne_nil_of_left_ne_nil (hne a List.mem_cons_self) _
      have hrest := ih (fun b hb => hread b (List.mem_cons_of_mem _ hb)) (fun b hb => hne b (List.mem_cons_of_mem _ hb)) (Nat.le_of_succ_le_succ hturns)
      rw [List.flatMap_cons, takeItems, if_neg hfull, hread a List.mem_cons_self]
      show (takeItems item turns (as.flatMap encode)).bind (fun others => some (a :: others)) = some (a :: as)
      rw [hrest]
      rfl

theorem length_le_flatMap {α : Type} {encode : α → List UInt8} {as : List α} (hne : ∀ a ∈ as, encode a ≠ []) : as.length ≤ (as.flatMap encode).length := by
  induction as with
  | nil => exact Nat.le_refl 0
  | cons a as ih =>
    have hpos := List.length_pos_of_ne_nil (hne a List.mem_cons_self)
    have hrest := ih fun b hb => hne b (List.mem_cons_of_mem _ hb)
    rw [List.flatMap_cons, List.length_append, List.length_cons]
    omega

theorem items_flatMap {α : Type} {item : List UInt8 → Option (α × List UInt8)} {encode : α → List UInt8} {as : List α}
    (hread : ∀ a ∈ as, ∀ rest, item (encode a ++ rest) = some (a, rest)) (hne : ∀ a ∈ as, encode a ≠ []) :
    items item (as.flatMap encode) = some as :=
  takeItems_flatMap hread hne (length_le_flatMap hne)

/-- Two lists that begin with a vector and are the same begin with the same. -/
theorem vector_append_inj {bytes' rest rest' : List UInt8} (hbytes : bytes.length < 256 ^ n) (hbytes' : bytes'.length < 256 ^ n)
    (h : vector n bytes ++ rest = vector n bytes' ++ rest') : bytes = bytes' ∧ rest = rest' := by
  have htake := takeVector_append (Nat.zero_le _) (Nat.le_max_left bytes.length bytes'.length) hbytes rest
  have htake' := takeVector_append (Nat.zero_le _) (Nat.le_max_right bytes.length bytes'.length) hbytes' rest'
  rw [h, htake'] at htake
  obtain ⟨hsame, hrest⟩ := Prod.mk.inj (Option.some.inj htake)
  exact ⟨hsame.symm, hrest.symm⟩

end Append

end BlorgFS.Lib
