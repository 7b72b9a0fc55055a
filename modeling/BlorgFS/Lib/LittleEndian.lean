import Mathlib.Algebra.GroupWithZero.Nat
import Mathlib.Data.List.Basic
import Mathlib.Data.Nat.Notation
import Mathlib.Tactic.Common

/-! Numbers as little-endian bytes, and fields read one after another off a list of bytes. -/

namespace BlorgFS.Lib

variable {n v : ℕ} {l : List UInt8}

/-- The `n` low bytes of a number, the lowest first. -/
def le : ℕ → ℕ → List UInt8
  | 0, _ => []
  | n + 1, v => UInt8.ofNat v :: le n (v / 256)

def ofLe : List UInt8 → ℕ
  | [] => 0
  | b :: l => b.toNat + 256 * ofLe l

/-- A field of `n` bytes, and what is behind it. -/
def readLe (n : ℕ) (l : List UInt8) : ℕ × List UInt8 := (ofLe (l.take n), l.drop n)

/-- So many characters of two bytes each, and what is behind them. -/
def readChars : ℕ → List UInt8 → List UInt16 × List UInt8
  | 0, l => ([], l)
  | n + 1, l =>
    let (c, l) := readLe 2 l
    let (cs, l) := readChars n l
    (UInt16.ofNat c :: cs, l)

/-- Characters as bytes. -/
def leChars (cs : List UInt16) : List UInt8 := cs.flatMap fun c => le 2 c.toNat

@[simp] theorem length_le (n v : ℕ) : (le n v).length = n := by
  induction n generalizing v with
  | zero => rfl
  | succ n ih => rw [le, List.length_cons, ih]

@[simp] theorem length_leChars (cs : List UInt16) : (leChars cs).length = 2 * cs.length := by
  induction cs with
  | nil => rfl
  | cons c cs ih =>
    rw [leChars, List.flatMap_cons, List.length_append, length_le, ← leChars, ih, List.length_cons]
    omega

/-- What the bytes keep of the number. -/
theorem ofLe_le (n v : ℕ) : ofLe (le n v) = v % 256 ^ n := by
  induction n generalizing v with
  | zero => rw [Nat.pow_zero, Nat.mod_one]; rfl
  | succ n ih =>
    rw [le, ofLe, ih, Nat.pow_succ', Nat.mod_mul]
    congr 1

theorem readLe_append (h : l.length = n) (rest : List UInt8) : readLe n (l ++ rest) = (ofLe l, rest) := by
  rw [readLe, List.take_left' h, List.drop_left' h]

@[simp] theorem readLe_le (n v : ℕ) (rest : List UInt8) : readLe n (le n v ++ rest) = (v % 256 ^ n, rest) := by
  rw [readLe_append (length_le n v), ofLe_le]

@[simp] theorem readChars_leChars (cs : List UInt16) (rest : List UInt8) : readChars cs.length (leChars cs ++ rest) = (cs, rest) := by
  induction cs with
  | nil => rfl
  | cons c cs ih =>
    have hc : UInt16.ofNat (c.toNat % 256 ^ 2) = c := by
      have hlt : c.toNat < 256 ^ 2 := c.toNat_lt
      rw [Nat.mod_eq_of_lt hlt]
      exact UInt16.ofNat_toNat
    rw [leChars, List.flatMap_cons, List.append_assoc, List.length_cons, readChars, readLe_le, ← leChars]
    dsimp only
    rw [ih, hc]

end BlorgFS.Lib
