import Mathlib.Algebra.GroupWithZero.Nat
import Mathlib.Algebra.Ring.Int.Defs
import Mathlib.Data.Int.Cast.Basic
import Mathlib.Tactic.Common

/-! Unsigned machine integers as natural numbers: narrowing and subtraction that wrap, and
when they do not. -/

namespace BlorgFS.Lib

def maxULong : ℕ := 2 ^ 32 - 1

def sizeMax : ℕ := 2 ^ 64 - 1

/-- A 32-bit number out of a wider one. -/
def ulong (n : ℕ) : ℕ := n % 2 ^ 32

/-- A 64-bit number out of a wider one. -/
def ulong64 (n : ℕ) : ℕ := n % 2 ^ 64

/-- A 64-bit number read as a signed one. -/
def long64 (n : ℕ) : ℤ := if n < 2 ^ 63 then (n : ℤ) else (n : ℤ) - 2 ^ 64

/-- `a - b`, where nothing is to be borrowed. -/
def minus (a b : ℕ) : Option ℕ := if b ≤ a then some (a - b) else none

/-- `a - b` in 32 bits. -/
def ulongSub (a b : ℕ) : ℕ := (a + 2 ^ 32 - b) % 2 ^ 32

/-- `a - b` in 64 bits. -/
def sizeSub (a b : ℕ) : ℕ := (a + 2 ^ 64 - b) % 2 ^ 64

theorem ulong_of_lt {n : ℕ} (h : n < 2 ^ 32) : ulong n = n := Nat.mod_eq_of_lt h

theorem ulong64_of_lt {n : ℕ} (h : n < 2 ^ 64) : ulong64 n = n := Nat.mod_eq_of_lt h

theorem long64_of_lt {n : ℕ} (h : n < 2 ^ 63) : long64 n = n := if_pos h

theorem minus_of_le {a b : ℕ} (h : b ≤ a) : minus a b = some (a - b) := if_pos h

theorem ulongSub_of_le {a b : ℕ} (h : b ≤ a) (ha : a < 2 ^ 32) : ulongSub a b = a - b := by
  unfold ulongSub
  omega

theorem sizeSub_of_le {a b : ℕ} (h : b ≤ a) (ha : a < 2 ^ 64) : sizeSub a b = a - b := by
  unfold sizeSub
  omega

end BlorgFS.Lib
