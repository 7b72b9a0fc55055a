import Mathlib.Data.List.Basic
import Mathlib.Tactic.Common

/-! Records once their ciphertext is there, `Tls.c`: authenticated decryption, which is the
platform's and comes in as a parameter, and the inner plaintext it yields. -/

namespace BlorgFS.Tls

/-- `BlorgTlsAeadDecryptKeyed` with the key and the nonce of one connection: the sequence
number, the record header, the ciphertext and the tag to the plaintext, which is as long as
the ciphertext. -/
abbrev Aead := ℕ → List UInt8 → (ciphertext : List UInt8) → List UInt8 → Option { p : List UInt8 // p.length = ciphertext.length }

/-- `BlorgTlsStripInnerPlaintext`: the content type and the length of the content, found
from the end past the padding. -/
def stripInnerPlaintext (plaintext : List UInt8) : Option (UInt8 × ℕ) :=
  match plaintext.reverse.dropWhile (· = 0) with
  | [] => none
  | contentType :: content => some (contentType, content.length)

theorem stripInnerPlaintext_lt {p : List UInt8} {t : UInt8} {n : ℕ} (h : stripInnerPlaintext p = some (t, n)) : n < p.length := by
  unfold stripInnerPlaintext at h
  have hle := (List.dropWhile_suffix (l := p.reverse) (p := (· = 0))).length_le
  split at h
  · cases h
  · rename_i c content he
    obtain ⟨rfl, rfl⟩ := Prod.mk.inj (Option.some.inj h)
    rw [he] at hle
    simp only [List.length_cons, List.length_reverse] at hle
    exact hle

/-- Content, its type and any padding are taken apart again. -/
theorem stripInnerPlaintext_append {content : List UInt8} {t : UInt8} (h : t ≠ 0) (padding : ℕ) :
    stripInnerPlaintext (content ++ t :: List.replicate padding 0) = some (t, content.length) := by
  have hd : (List.replicate padding 0 ++ t :: content.reverse).dropWhile (· = 0) = t :: content.reverse := by
    induction padding with
    | zero => simp [h]
    | succ n ih => simpa [List.replicate_succ] using ih
  unfold stripInnerPlaintext
  rw [List.reverse_append, List.reverse_cons, List.reverse_replicate, List.append_assoc, List.singleton_append, hd]
  simp

end BlorgFS.Tls
