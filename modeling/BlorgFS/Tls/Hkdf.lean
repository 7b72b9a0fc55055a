import BlorgFS.Lib.Presentation
import BlorgFS.Tls.Signature

/-! The key derivation of a connection, `Tls.c`, over the platform's HMAC. A block is put together
in a buffer of fixed size; to go past its end is a fault. What comes out is the output of RFC 5869,
and the `info` for a label is the encoding of RFC 8446, which tells derivations apart. -/

namespace BlorgFS.Tls

open Lib Checked

inductive Status where
  | invalidParameter
  | insufficientResources
  | trustFailure
  | connectionDisconnected
  | other (code : ℕ)
  deriving DecidableEq, Repr

abbrev Digest := { bytes : List UInt8 // bytes.length = hashLen }

/-- `BlorgTlsHmacSha256`: a key and data to a MAC. -/
abbrev Hmac := (key data : List UInt8) → Except Status Digest

/-- The size of `scratch`. -/
def scratchMax : ℕ := 256

/-- The labels of the key schedule. -/
inductive Label where
  | derived | cHsTraffic | sHsTraffic | cApTraffic | sApTraffic | key | iv | finished
  deriving DecidableEq, Repr

def Label.text : Label → List Char
  | .derived => ['d', 'e', 'r', 'i', 'v', 'e', 'd']
  | .cHsTraffic => ['c', ' ', 'h', 's', ' ', 't', 'r', 'a', 'f', 'f', 'i', 'c']
  | .sHsTraffic => ['s', ' ', 'h', 's', ' ', 't', 'r', 'a', 'f', 'f', 'i', 'c']
  | .cApTraffic => ['c', ' ', 'a', 'p', ' ', 't', 'r', 'a', 'f', 'f', 'i', 'c']
  | .sApTraffic => ['s', ' ', 'a', 'p', ' ', 't', 'r', 'a', 'f', 'f', 'i', 'c']
  | .key => ['k', 'e', 'y']
  | .iv => ['i', 'v']
  | .finished => ['f', 'i', 'n', 'i', 's', 'h', 'e', 'd']

def Label.bytes (l : Label) : List UInt8 := l.text.map fun c => UInt8.ofNat c.toNat

/-- "tls13 ". -/
def tls13 : List UInt8 := [0x74, 0x6c, 0x73, 0x31, 0x33, 0x20]

section Derivation

variable (hmac : Hmac)

/-- `BlorgTlsHkdfExtract`. -/
def hkdfExtract (salt ikm : List UInt8) : Checked Status (List UInt8) := do
  let out ← ofExcept (hmac salt ikm)
  .ok out.1

/-- The loop of `BlorgTlsHkdfExpand`, in so many turns: `t` is the last block and `out` what there
is of them. -/
def expandBlocks (prk info : List UInt8) (outLen : ℕ) : ℕ → List UInt8 → UInt8 → List UInt8 → Checked Status (List UInt8)
  | 0, _, _, _ => .fault
  | turns + 1, t, counter, out =>
    if out.length < outLen then
      let scratch := t ++ (info ++ [counter])
      if scratchMax < scratch.length then .fault
      else do
        let t ← ofExcept (hmac prk scratch)
        let copyLen := if outLen - out.length < hashLen then outLen - out.length else hashLen
        expandBlocks prk info outLen turns t.1 (counter + 1) (out ++ t.1.take copyLen)
    else .ok out

/-- `BlorgTlsHkdfExpand`. -/
def hkdfExpand (prk info : List UInt8) (outLen : ℕ) : Checked Status (List UInt8) :=
  if ulong (info.length + hashLen + 1) > scratchMax then .error .invalidParameter else expandBlocks hmac prk info outLen (outLen + 1) [] 1 []

/-- The `info` that `BlorgTlsHkdfExpandLabel` builds. -/
def hkdfLabel (label context : List UInt8) (length : ℕ) : List UInt8 :=
  be 2 length ++ (UInt8.ofNat (tls13.length + label.length) :: tls13) ++ label ++ (UInt8.ofNat context.length :: context)

/-- `BlorgTlsHkdfExpandLabel`. -/
def hkdfExpandLabel (secret label context : List UInt8) (length : ℕ) : Checked Status (List UInt8) :=
  if tls13.length + label.length > 255 ∨ context.length > 255 then .error .invalidParameter
  else hkdfExpand hmac secret (hkdfLabel label context length) length

variable {hmac : Hmac} {prk info : List UInt8} {outLen : ℕ}

/-- A turn adds a block, or what is still missing of the output. -/
theorem expandBlocks_meets {turns : ℕ} {t out : List UInt8} {counter : UInt8} (hinfo : info.length + hashLen + 1 ≤ scratchMax)
    (ht : t.length ≤ hashLen) (hout : out.length ≤ outLen) (hturns : outLen - out.length < turns) :
    (expandBlocks hmac prk info outLen turns t counter out).Meets fun out => out.length = outLen := by
  induction turns generalizing t counter out with
  | zero => exact absurd hturns (Nat.not_lt_zero _)
  | succ turns ih =>
    have hpos : 0 < hashLen := by decide
    have hscratch : ¬ scratchMax < (t ++ (info ++ [counter])).length := by
      rw [List.length_append, List.length_append, List.length_singleton]
      omega
    unfold expandBlocks
    dsimp only
    rw [if_neg hscratch]
    by_cases hmore : out.length < outLen
    · rw [if_pos hmore]
      cases hmac prk (t ++ (info ++ [counter])) with
      | error e => trivial
      | ok next =>
        have hnext := next.2
        refine ih (Nat.le_of_eq hnext) ?_ ?_
        · rw [List.length_append, List.length_take, hnext]
          split_ifs <;> omega
        · rw [List.length_append, List.length_take, hnext]
          split_ifs <;> omega
    · rw [if_neg hmore]
      show out.length = outLen
      omega

/-- The derivation stays within its buffer, and its output is as long as it is asked for. -/
theorem hkdfExpand_meets (hinfo : info.length < 2 ^ 31) : (hkdfExpand hmac prk info outLen).Meets fun out => out.length = outLen := by
  have hsum : ulong (info.length + hashLen + 1) = info.length + hashLen + 1 := ulong_of_lt (by unfold hashLen; omega)
  unfold hkdfExpand
  rw [hsum]
  exact .unless fun hfits => expandBlocks_meets (by omega) (Nat.zero_le _) (Nat.zero_le _) (by rw [List.length_nil]; omega)

theorem hkdfExpandLabel_meets {secret label context : List UInt8} {length : ℕ} :
    (hkdfExpandLabel hmac secret label context length).Meets fun out => out.length = length := by
  refine .unless fun hadmitted => hkdfExpand_meets ?_
  unfold hkdfLabel
  simp only [List.length_append, List.length_cons, length_be]
  omega

end Derivation

/-! ### The output of RFC 5869 -/

section Output

variable (h : List UInt8 → List UInt8 → Digest) (prk info : List UInt8)

/-- `T(n)`, with an octet for `n`. -/
def block : ℕ → List UInt8
  | 0 => []
  | n + 1 => (h prk (block n ++ (info ++ [UInt8.ofNat (n + 1)]))).1

/-- `T(1) || T(2) || ... || T(n)`. -/
def blocks : ℕ → List UInt8
  | 0 => []
  | n + 1 => blocks n ++ block h prk info (n + 1)

/-- The first `outLen` bytes of as many blocks as have them. -/
def outputKeyingMaterial (outLen : ℕ) : List UInt8 := (blocks h prk info ((outLen + (hashLen - 1)) / hashLen)).take outLen

theorem length_block_succ (n : ℕ) : (block h prk info (n + 1)).length = hashLen := (h prk _).2

theorem length_block_le (n : ℕ) : (block h prk info n).length ≤ hashLen := by
  cases n with
  | zero => exact Nat.zero_le _
  | succ n => exact Nat.le_of_eq (length_block_succ h prk info n)

theorem length_blocks (n : ℕ) : (blocks h prk info n).length = n * hashLen := by
  induction n with
  | zero => rw [Nat.zero_mul]; rfl
  | succ n ih => rw [blocks, List.length_append, ih, length_block_succ, Nat.succ_mul]

/-- Blocks behind those that are needed do not matter. -/
theorem take_blocks_add {outLen n : ℕ} (k : ℕ) (hn : outLen ≤ n * hashLen) : (blocks h prk info (n + k)).take outLen = (blocks h prk info n).take outLen := by
  induction k with
  | zero => rfl
  | succ k ih =>
    have hle : outLen ≤ (blocks h prk info (n + k)).length := by
      rw [length_blocks]
      exact hn.trans (Nat.mul_le_mul_right _ (Nat.le_add_right n k))
    rw [← Nat.add_assoc, blocks, List.take_append_of_le_length hle, ih]

theorem take_blocks {outLen n : ℕ} (hn : outLen ≤ n * hashLen) : (blocks h prk info n).take outLen = outputKeyingMaterial h prk info outLen := by
  have hceil : outLen ≤ (outLen + (hashLen - 1)) / hashLen * hashLen := by
    unfold hashLen
    omega
  have hle : (outLen + (hashLen - 1)) / hashLen ≤ n := by
    unfold hashLen at hn ⊢
    omega
  obtain ⟨k, rfl⟩ := Nat.exists_eq_add_of_le hle
  exact take_blocks_add h prk info k hceil

theorem length_take_blocks (outLen n : ℕ) : ((blocks h prk info n).take outLen).length = min outLen (n * hashLen) := by rw [List.length_take, length_blocks]

/-- One more block, or what is missing of the output. -/
theorem take_blocks_succ (outLen n : ℕ) :
    (blocks h prk info n).take outLen ++
        (block h prk info (n + 1)).take (if outLen - n * hashLen < hashLen then outLen - n * hashLen else hashLen) =
      (blocks h prk info (n + 1)).take outLen := by
  have hlast : (block h prk info (n + 1)).take (if outLen - n * hashLen < hashLen then outLen - n * hashLen else hashLen) =
      (block h prk info (n + 1)).take (outLen - n * hashLen) := by
    by_cases hpartial : outLen - n * hashLen < hashLen
    · rw [if_pos hpartial]
    · have hwhole := length_block_succ h prk info n
      rw [if_neg hpartial, List.take_of_length_le (by omega), List.take_of_length_le (by omega)]
  rw [hlast, blocks, List.take_append, length_blocks]

variable {h prk info} {hmac : Hmac} (hanswers : ∀ key data mac, hmac key data = .ok mac → mac = h key data)

include hanswers

/-- From the blocks there are so far the loop goes on to the output, unless a MAC fails. -/
theorem expandBlocks_eq {outLen turns n : ℕ} (hinfo : info.length + hashLen + 1 ≤ scratchMax)
    (hturns : outLen - ((blocks h prk info n).take outLen).length < turns) :
    expandBlocks hmac prk info outLen turns (block h prk info n) (UInt8.ofNat (n + 1)) ((blocks h prk info n).take outLen) =
        .ok (outputKeyingMaterial h prk info outLen) ∨
      ∃ key data e, hmac key data = .error e ∧
        expandBlocks hmac prk info outLen turns (block h prk info n) (UInt8.ofNat (n + 1)) ((blocks h prk info n).take outLen) = .error e := by
  induction turns generalizing n with
  | zero => exact absurd hturns (Nat.not_lt_zero _)
  | succ turns ih =>
    have hlen : hashLen = 32 := rfl
    have hblock := length_block_le h prk info n
    have hscratch : ¬ scratchMax < (block h prk info n ++ (info ++ [UInt8.ofNat (n + 1)])).length := by
      rw [List.length_append, List.length_append, List.length_singleton]
      omega
    have hlength := length_take_blocks h prk info outLen n
    unfold expandBlocks
    dsimp only
    rw [if_neg hscratch, hlength]
    by_cases hmore : n * hashLen < outLen
    · have hmin : min outLen (n * hashLen) = n * hashLen := Nat.min_eq_right (by omega)
      rw [hmin, if_pos hmore]
      cases hmac' : hmac prk (block h prk info n ++ (info ++ [UInt8.ofNat (n + 1)])) with
      | error e => exact .inr ⟨_, _, e, hmac', rfl⟩
      | ok mac =>
        have hnext : mac.1 = block h prk info (n + 1) := congrArg Subtype.val (hanswers _ _ _ hmac')
        have hcounter : UInt8.ofNat (n + 1) + 1 = UInt8.ofNat (n + 1 + 1) := (UInt8.ofNat_add (n + 1) 1).symm
        rw [ofExcept_ok, ok_bind, hnext, hcounter, take_blocks_succ h prk info outLen n]
        refine ih ?_
        rw [hlength] at hturns
        rw [length_take_blocks, Nat.succ_mul]
        omega
    · have hdone : ¬ min outLen (n * hashLen) < outLen := by omega
      rw [if_neg hdone, take_blocks h prk info (by omega)]
      exact .inl rfl

theorem hkdfExpand_eq (outLen : ℕ) (hinfo : info.length ≤ 223) :
    hkdfExpand hmac prk info outLen = .ok (outputKeyingMaterial h prk info outLen) ∨
      ∃ key data e, hmac key data = .error e ∧ hkdfExpand hmac prk info outLen = .error e := by
  have hfits : info.length + hashLen + 1 ≤ scratchMax := by
    unfold hashLen scratchMax
    omega
  have hloop := expandBlocks_eq hanswers hfits (show outLen - ((blocks h prk info 0).take outLen).length < outLen + 1 by omega)
  have hsum : ulong (info.length + hashLen + 1) = info.length + hashLen + 1 := ulong_of_lt (by unfold hashLen; omega)
  rw [hkdfExpand, hsum, if_neg (by omega)]
  have hstart : (blocks h prk info 0).take outLen = [] := List.take_nil
  rw [hstart] at hloop
  exact hloop

end Output

/-! ### The `info` of RFC 8446 -/

/-- `HkdfLabel`: a length, a label to go behind "tls13 " and a context, as long as they may be. -/
@[ext] structure HkdfLabel where
  length : ℕ
  label : List UInt8
  context : List UInt8
  length_lt : length < 65536
  label_le : tls13.length + label.length ≤ 255
  context_le : context.length ≤ 255

namespace HkdfLabel

def encoded (l : HkdfLabel) : List UInt8 := be 2 l.length ++ (vector 1 (tls13 ++ l.label) ++ vector 1 l.context)

theorem hkdfLabel_eq (label context : List UInt8) (length : ℕ) :
    hkdfLabel label context length = be 2 length ++ (vector 1 (tls13 ++ label) ++ vector 1 context) := by
  unfold hkdfLabel vector
  rw [List.length_append, List.append_assoc, List.append_assoc, List.cons_append]
  rfl

theorem hkdfExpandLabel_eq (hmac : Hmac) (secret : List UInt8) (l : HkdfLabel) :
    hkdfExpandLabel hmac secret l.label l.context l.length = hkdfExpand hmac secret l.encoded l.length := by
  have hadmitted : ¬ (tls13.length + l.label.length > 255 ∨ l.context.length > 255) := not_or.2 ⟨Nat.not_lt.2 l.label_le, Nat.not_lt.2 l.context_le⟩
  rw [hkdfExpandLabel, if_neg hadmitted, hkdfLabel_eq]
  rfl

/-- The encoding tells labels apart. -/
theorem encoded_injective : Function.Injective encoded := by
  intro l l' h
  obtain ⟨hlength, hrest⟩ := List.append_inj h (by rw [length_be, length_be])
  have hlabelLt : (tls13 ++ l.label).length < 256 ^ 1 := by
    rw [List.length_append]
    exact Nat.lt_succ_of_le l.label_le
  have hlabelLt' : (tls13 ++ l'.label).length < 256 ^ 1 := by
    rw [List.length_append]
    exact Nat.lt_succ_of_le l'.label_le
  obtain ⟨hlabel, hcontext⟩ := vector_append_inj hlabelLt hlabelLt' hrest
  rw [← List.append_nil (vector 1 l.context), ← List.append_nil (vector 1 l'.context)] at hcontext
  apply HkdfLabel.ext
  · rw [← ofBe_be_of_lt (n := 2) l.length_lt, hlength, ofBe_be_of_lt l'.length_lt]
  · exact List.append_cancel_left hlabel
  · exact (vector_append_inj (Nat.lt_succ_of_le l.context_le) (Nat.lt_succ_of_le l'.context_le) hcontext).1

theorem hkdfExpandLabel_of_long (hmac : Hmac) (secret : List UInt8) {label context : List UInt8} (length : ℕ)
    (h : tls13.length + label.length > 255 ∨ context.length > 255) : hkdfExpandLabel hmac secret label context length = .error .invalidParameter :=
  if_pos h

end HkdfLabel

/-- A derivation of the key schedule. -/
@[ext] structure Derivation where
  label : Label
  context : List UInt8
  length : ℕ
  context_le : context.length ≤ 255
  length_lt : length < 65536

theorem Label.bytes_injective : Function.Injective Label.bytes := by
  intro l l' h
  revert h
  cases l <;> cases l' <;> decide

namespace Derivation

theorem label_le (l : Label) : tls13.length + l.bytes.length ≤ 255 := by cases l <;> decide

/-- What it expands. -/
def info (d : Derivation) : List UInt8 := HkdfLabel.encoded ⟨d.length, d.label.bytes, d.context, d.length_lt, label_le d.label, d.context_le⟩

theorem info_injective : Function.Injective info := by
  intro d d' h
  have hsame := HkdfLabel.encoded_injective h
  apply Derivation.ext
  · exact Label.bytes_injective (congrArg HkdfLabel.label hsame)
  · exact congrArg HkdfLabel.context hsame
  · exact congrArg HkdfLabel.length hsame

end Derivation

/-- The key derivation is HKDF: unless a MAC fails, `BlorgTlsHkdfExpand` yields the output keying
material; what `BlorgTlsHkdfExpandLabel` expands is the encoded label; and no two derivations of the
key schedule expand the same. -/
theorem hkdf_derives :
    (∀ (h : List UInt8 → List UInt8 → Digest) (hmac : Hmac), (∀ key data mac, hmac key data = .ok mac → mac = h key data) →
      ∀ prk info outLen, info.length ≤ 223 → outLen ≤ 255 * hashLen →
        hkdfExpand hmac prk info outLen = .ok (outputKeyingMaterial h prk info outLen) ∨
          ∃ key data e, hmac key data = .error e ∧ hkdfExpand hmac prk info outLen = .error e) ∧
    (∀ (hmac : Hmac) (secret : List UInt8) (l : HkdfLabel),
      hkdfExpandLabel hmac secret l.label l.context l.length = hkdfExpand hmac secret l.encoded l.length) ∧
    (∀ (hmac : Hmac) (secret label context : List UInt8) (length : ℕ), tls13.length + label.length > 255 ∨ context.length > 255 →
      hkdfExpandLabel hmac secret label context length = .error .invalidParameter) ∧
    Function.Injective HkdfLabel.encoded ∧
    ∀ d d' : Derivation, d ≠ d' → d.info ≠ d'.info := by
  refine ⟨fun h hmac hanswers prk info outLen hinfo _ => hkdfExpand_eq hanswers outLen hinfo, HkdfLabel.hkdfExpandLabel_eq, ?_,
    HkdfLabel.encoded_injective, fun d d' hne => ?_⟩
  · intro hmac secret label context length hlong
    exact HkdfLabel.hkdfExpandLabel_of_long hmac secret length hlong
  · intro hsame
    exact hne (Derivation.info_injective hsame)

/-- `TlsBuildNonce`: the sequence number over the end of the static part. -/
def buildNonce (staticIv : List UInt8) (seqNum : ℕ) : List UInt8 := staticIv.take 4 ++ List.zipWith (fun a b => a ^^^ b) (staticIv.drop 4) (be 8 seqNum)

end BlorgFS.Tls
