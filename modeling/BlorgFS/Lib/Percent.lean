import Mathlib.Data.UInt
import Mathlib.Tactic.Common

/-! Percent-encoding. The bytes that are safe stand for themselves, and every other one is written
as `%` and two hex digits. What is written decodes to what was encoded, so nothing else encodes
to it, and no byte that is neither safe nor `%` nor a hex digit occurs in it. -/

namespace BlorgFS.Lib.Percent

variable {safe : UInt8 → Bool}

def hexChar (x : UInt8) : UInt8 := if x < 10 then 48 + x else 65 + x - 10

def hexValue (c : UInt8) : Option UInt8 :=
  if 48 ≤ c ∧ c ≤ 57 then some (c - 48)
  else if 65 ≤ c ∧ c ≤ 70 then some (c - 55)
  else if 97 ≤ c ∧ c ≤ 102 then some (c - 87)
  else none

def encodeByte (safe : UInt8 → Bool) (c : UInt8) : List UInt8 :=
  if safe c then [c] else [37, hexChar (c >>> 4 &&& 15), hexChar (c &&& 15)]

def encode (safe : UInt8 → Bool) (l : List UInt8) : List UInt8 := l.flatMap (encodeByte safe)

def decode : List UInt8 → Option (List UInt8)
  | [] => some []
  | c :: rest =>
    if c = 37 then
      match rest with
      | high :: low :: rest => do
        let high ← hexValue high
        let low ← hexValue low
        let more ← decode rest
        some ((high <<< 4 ||| low) :: more)
      | _ => none
    else do
      let more ← decode rest
      some (c :: more)

/-- Safe bytes and escapes. -/
inductive Escaped (safe : UInt8 → Bool) : List UInt8 → Prop where
  | nil : Escaped safe []
  | safe {c : UInt8} {rest : List UInt8} (h : safe c = true) (hrest : Escaped safe rest) : Escaped safe (c :: rest)
  | escape {high low : UInt8} {rest : List UInt8} (hhigh : (hexValue high).isSome) (hlow : (hexValue low).isSome)
      (hrest : Escaped safe rest) : Escaped safe (37 :: high :: low :: rest)

/-! ### Digits -/

theorem hexValue_hexChar {x : UInt8} (h : x < 16) : hexValue (hexChar x) = some x := by
  have hall : ∀ n : Fin 16, hexValue (hexChar n.val.toUInt8) = some n.val.toUInt8 := by decide
  have hx := hall ⟨x.toNat, h⟩
  have he : x.toNat.toUInt8 = x := UInt8.ofNat_toNat
  rwa [he] at hx

theorem high_lt (c : UInt8) : c >>> 4 &&& 15 < 16 := by
  rw [UInt8.lt_iff_toNat_lt, UInt8.toNat_and]
  exact Nat.lt_succ_of_le Nat.and_le_right

theorem low_lt (c : UInt8) : c &&& 15 < 16 := by
  rw [UInt8.lt_iff_toNat_lt, UInt8.toNat_and]
  exact Nat.lt_succ_of_le Nat.and_le_right

theorem high_or_low (c : UInt8) : (c >>> 4 &&& 15) <<< 4 ||| (c &&& 15) = c := by
  have hall : ∀ n : Fin 256, (n.val.toUInt8 >>> 4 &&& 15) <<< 4 ||| (n.val.toUInt8 &&& 15) = n.val.toUInt8 := by decide +kernel
  have hc := hall ⟨c.toNat, UInt8.toNat_lt c⟩
  have he : c.toNat.toUInt8 = c := UInt8.ofNat_toNat
  rwa [he] at hc

/-! ### Encoding and decoding -/

theorem encode_cons (c : UInt8) (l : List UInt8) : encode safe (c :: l) = encodeByte safe c ++ encode safe l := List.flatMap_cons

theorem encode_escaped (l : List UInt8) : Escaped safe (encode safe l) := by
  induction l with
  | nil => exact .nil
  | cons c l ih =>
    rw [encode_cons]
    unfold encodeByte
    split_ifs with hsafe
    · exact .safe hsafe ih
    · refine .escape ?_ ?_ ih
      · rw [hexValue_hexChar (high_lt c)]
        rfl
      · rw [hexValue_hexChar (low_lt c)]
        rfl

theorem decode_of_ne {c : UInt8} (h : c ≠ 37) (rest : List UInt8) : decode (c :: rest) = (decode rest).map (c :: ·) := by
  rw [decode.eq_def]
  dsimp only
  rw [if_neg h]
  cases decode rest <;> rfl

theorem decode_escape {high low a b : UInt8} (ha : hexValue high = some a) (hb : hexValue low = some b) (rest : List UInt8) :
    decode (37 :: high :: low :: rest) = (decode rest).map ((a <<< 4 ||| b) :: ·) := by
  rw [decode.eq_def]
  dsimp only
  rw [if_pos rfl, ha, hb]
  cases decode rest <;> rfl

theorem decode_encodeByte (hpercent : safe 37 = false) (c : UInt8) (rest : List UInt8) :
    decode (encodeByte safe c ++ rest) = (decode rest).map (c :: ·) := by
  unfold encodeByte
  split_ifs with hsafe
  · have hne : c ≠ 37 := by
      rintro rfl
      rw [hpercent] at hsafe
      cases hsafe
    exact decode_of_ne hne rest
  · have hescape := decode_escape (hexValue_hexChar (high_lt c)) (hexValue_hexChar (low_lt c)) rest
    rwa [high_or_low] at hescape

theorem decode_encode (hpercent : safe 37 = false) (l : List UInt8) : decode (encode safe l) = some l := by
  induction l with
  | nil => rfl
  | cons c l ih => rw [encode_cons, decode_encodeByte hpercent, ih, Option.map_some]

theorem encode_injective (hpercent : safe 37 = false) : Function.Injective (encode safe) := by
  intro l l' h
  have hdecode := congrArg decode h
  rwa [decode_encode hpercent, decode_encode hpercent, Option.some.injEq] at hdecode

/-- What is neither safe nor part of an escape does not occur. -/
theorem Escaped.not_mem {b : UInt8} (hsafe : safe b = false) (hb : b ≠ 37) (hhex : hexValue b = none) {l : List UInt8} (h : Escaped safe l) : b ∉ l := by
  induction h with
  | nil => exact List.not_mem_nil
  | safe hc _ ih =>
    rw [List.mem_cons, not_or]
    refine ⟨?_, ih⟩
    rintro rfl
    rw [hsafe] at hc
    cases hc
  | escape hhigh hlow _ ih =>
    simp only [List.mem_cons, not_or]
    refine ⟨hb, ?_, ?_, ih⟩
    · rintro rfl
      rw [hhex] at hhigh
      cases hhigh
    · rintro rfl
      rw [hhex] at hlow
      cases hlow

end BlorgFS.Lib.Percent
