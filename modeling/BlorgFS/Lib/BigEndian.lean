import BlorgFS.Lib.Checked
import Mathlib.Algebra.GroupWithZero.Nat

/-! Numbers as big-endian bytes, and reading one byte by byte at a position of a list. -/

namespace BlorgFS.Lib

/-- The `n` low bytes of a number, the highest first. -/
def be : ℕ → ℕ → List UInt8
  | 0, _ => []
  | n + 1, v => be n (v / 256) ++ [UInt8.ofNat v]

/-- What bytes make of the number in front of them. -/
def shiftIn (v : ℕ) (bytes : List UInt8) : ℕ := bytes.foldl (fun v b => v * 256 + b.toNat) v

def ofBe (bytes : List UInt8) : ℕ := shiftIn 0 bytes

/-- `n` bytes from a position on, each shifted in behind those before it. -/
def readBe {ε : Type} (text : List UInt8) : ℕ → ℕ → ℕ → Checked ε ℕ
  | 0, _, v => .ok v
  | n + 1, i, v => do
    let b ← readAt text i
    readBe text n (i + 1) (v <<< 8 ||| b.toNat)

@[simp] theorem length_be (n v : ℕ) : (be n v).length = n := by
  induction n generalizing v with
  | zero => rfl
  | succ n ih => rw [be, List.length_append, ih, List.length_singleton]

/-- The bytes are the high ones and the low ones. -/
theorem be_add (k n v : ℕ) : be (k + n) v = be k (v / 256 ^ n) ++ be n v := by
  induction n generalizing v with
  | zero => rw [Nat.add_zero, Nat.pow_zero, Nat.div_one, be, List.append_nil]
  | succ n ih => rw [← Nat.add_assoc, be, ih, be, Nat.div_div_eq_div_mul, ← Nat.pow_succ', List.append_assoc]

theorem be_zero (n : ℕ) : be n 0 = List.replicate n 0 := by
  induction n with
  | zero => rfl
  | succ n ih => rw [be, Nat.zero_div, ih, List.replicate_succ']; rfl

theorem shiftIn_concat (v : ℕ) (bytes : List UInt8) (b : UInt8) : shiftIn v (bytes ++ [b]) = shiftIn v bytes * 256 + b.toNat :=
  List.foldl_concat _ _ _ _

theorem shiftIn_lt (v : ℕ) (bytes : List UInt8) : shiftIn v bytes < (v + 1) * 256 ^ bytes.length := by
  induction bytes generalizing v with
  | nil => rw [List.length_nil, Nat.pow_zero, Nat.mul_one]; exact Nat.lt_succ_self v
  | cons b bytes ih =>
    have hb := b.toNat_lt
    calc shiftIn (v * 256 + b.toNat) bytes < (v * 256 + b.toNat + 1) * 256 ^ bytes.length := ih _
      _ ≤ (v + 1) * 256 * 256 ^ bytes.length := Nat.mul_le_mul_right _ (by omega)
      _ = (v + 1) * 256 ^ (b :: bytes).length := by rw [List.length_cons, Nat.pow_succ', Nat.mul_assoc]

theorem ofBe_lt (bytes : List UInt8) : ofBe bytes < 256 ^ bytes.length := by
  have h := shiftIn_lt 0 bytes
  rw [Nat.zero_add, Nat.one_mul] at h
  exact h

/-- What the bytes keep of the number. -/
theorem ofBe_be (n v : ℕ) : ofBe (be n v) = v % 256 ^ n := by
  induction n generalizing v with
  | zero => rw [Nat.pow_zero, Nat.mod_one]; rfl
  | succ n ih =>
    have hlow : (UInt8.ofNat v).toNat = v % 256 := UInt8.toNat_ofNat'
    have hhigh : ofBe (be n (v / 256)) = v / 256 % 256 ^ n := ih _
    unfold ofBe at hhigh ⊢
    rw [be, shiftIn_concat, hhigh, hlow, Nat.pow_succ', Nat.mod_mul]
    omega

theorem ofBe_be_of_lt {n v : ℕ} (h : v < 256 ^ n) : ofBe (be n v) = v := by rw [ofBe_be, Nat.mod_eq_of_lt h]

/-- Bytes are those of their number. -/
theorem be_ofBe (bytes : List UInt8) : be bytes.length (ofBe bytes) = bytes := by
  induction bytes using List.reverseRecOn with
  | nil => rfl
  | append_singleton bytes b ih =>
    have hvalue : ofBe (bytes ++ [b]) = ofBe bytes * 256 + b.toNat := shiftIn_concat 0 bytes b
    have hb := b.toNat_lt
    have hhigh : (ofBe bytes * 256 + b.toNat) / 256 = ofBe bytes := by omega
    have hlow : UInt8.ofNat (ofBe bytes * 256 + b.toNat) = b := by
      rw [← UInt8.toNat_inj, UInt8.toNat_ofNat']
      omega
    rw [List.length_append, List.length_singleton, be, hvalue, hhigh, hlow, ih]

theorem ofBe_eq_iff {bytes : List UInt8} {v : ℕ} (hv : v < 256 ^ bytes.length) : ofBe bytes = v ↔ bytes = be bytes.length v := by
  constructor
  · intro h
    rw [← h, be_ofBe]
  · intro h
    rw [h, ofBe_be_of_lt hv]

theorem shift_or (v : ℕ) (b : UInt8) : v <<< 8 ||| b.toNat = v * 256 + b.toNat := by
  rw [← Nat.shiftLeft_add_eq_or_of_lt (i := 8) b.toNat_lt v, Nat.shiftLeft_eq]

section Read

variable {ε : Type} {text : List UInt8}

/-- Reading takes the bytes of the number and nothing else. -/
theorem readBe_eq {n i : ℕ} (h : i + n ≤ text.length) (v : ℕ) : readBe text n i v = (.ok (shiftIn v ((text.drop i).take n)) : Checked ε ℕ) := by
  induction n generalizing i v with
  | zero => rw [List.take_zero]; rfl
  | succ n ih =>
    have hdrop : text.drop i = text.get ⟨i, by omega⟩ :: text.drop (i + 1) := List.drop_eq_getElem_cons (by omega)
    rw [readBe, readAt_of_lt (by omega), Checked.ok_bind, ih (by omega), shift_or, hdrop, List.take_succ_cons]
    rfl

theorem readBe_meets {n i : ℕ} (h : i + n ≤ text.length) : (readBe text n i 0 : Checked ε ℕ).Meets (· = ofBe ((text.drop i).take n)) := by
  rw [readBe_eq h]
  rfl

theorem readBe_append (front bytes rest : List UInt8) : readBe (front ++ (bytes ++ rest)) bytes.length front.length 0 = (.ok (ofBe bytes) : Checked ε ℕ) := by
  have hle : front.length + bytes.length ≤ (front ++ (bytes ++ rest)).length := by
    rw [List.length_append, List.length_append]
    omega
  rw [readBe_eq hle, List.drop_left', List.take_left']
  · rfl
  · rfl
  · rfl

end Read

end BlorgFS.Lib
