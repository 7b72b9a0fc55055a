import BlorgFS.Tls.Der

/-! Whether what is taken from a Certificate message lies in the structures around it. The leaf
is bounded by the end of the message, not of the list it is in, `BlorgTlsParseCertificateMessage`,
and the tbsCertificate by the end of the certificate's bytes, not of the SEQUENCE it is in. -/

namespace BlorgFS.Tls

open Lib Checked Der

/-- `BlorgTlsParseCertificateMessage`: where the leaf certificate starts, and its length. -/
def parseCertificateMessage (message : List UInt8) : Checked Invalid (ℕ × ℕ) :=
  if message.length < 1 then .error .invalidParameter
  else do
    let contextLen ← readAt message 0
    let offset := 1 + contextLen.toNat
    if offset + 3 > message.length then .error .invalidParameter
    else do
      let certListLen ← readBe message 3 offset 0
      let offset := offset + 3
      if certListLen < 3 ∨ offset + certListLen > message.length then .error .invalidParameter
      else do
        let certDataLen ← readBe message 3 offset 0
        let offset := offset + 3
        if offset + certDataLen > message.length then .error .invalidParameter else .ok (offset, certDataLen)

/-! ### What the lengths declare -/

section Declared

variable (message data : List UInt8)

/-- Three bytes at a position, as a number. -/
def uint24 (i : ℕ) : ℕ := ofBe ((message.drop i).take 3)

/-- Where a message's certificate_list starts, behind its own length. -/
def listStart : ℕ := 1 + (message.getD 0 0).toNat + 3

/-- The length the message declares for its certificate_list. -/
def listLength : ℕ := uint24 message (listStart message - 3)

/-- The length the list's first entry declares for its certificate. -/
def leafLength : ℕ := uint24 message (listStart message)

/-- How long the tag and the length octets of the field at a position are. -/
def headerLength (p : ℕ) : ℕ :=
  let b := data.getD (p + 1) 0
  if b.toNat < 128 then 2 else 2 + (b.toNat - 128)

/-- The length that the octets of the field at a position declare. -/
def valueLength (p : ℕ) : ℕ :=
  let b := data.getD (p + 1) 0
  if b.toNat < 128 then b.toNat else ofBe ((data.drop (p + 2)).take (b.toNat - 128))

def fieldEnd (p : ℕ) : ℕ := p + headerLength data p + valueLength data p

/-- Where a certificate's tbsCertificate starts. -/
def tbsStart : ℕ := headerLength data 0

end Declared

theorem at_cons {data : List UInt8} {p : ℕ} {b : UInt8} {bytes : List UInt8} (h : At data p (b :: bytes)) : data[p]? = some b ∧ At data (p + 1) bytes := by
  unfold At at h
  have hlength : p < data.length := by
    have hl := congrArg List.length h
    rw [List.length_take, List.length_drop, List.length_cons] at hl
    omega
  rw [List.drop_eq_getElem_cons hlength, List.length_cons, List.take_succ_cons] at h
  obtain ⟨hb, hbytes⟩ := List.cons_eq_cons.1 h
  exact ⟨List.getElem?_eq_some_iff.2 ⟨hlength, hb⟩, hbytes⟩

/-- The octets that are read are those that declare the length. -/
theorem declared_of_at {data : List UInt8} {p len : ℕ} {tag : UInt8} {octets : List UInt8} (hoctets : LengthOctets len octets)
    (hat : At data p (tag :: octets)) : headerLength data p = (tag :: octets).length ∧ valueLength data p = len := by
  have hat := (at_cons hat).2
  unfold headerLength valueLength
  dsimp only
  cases hoctets with
  | short b hb =>
    rw [List.getD_eq_getElem?_getD, (at_cons hat).1, Option.getD_some, if_pos hb, if_pos hb]
    exact ⟨rfl, rfl⟩
  | long bytes hbytes =>
    have hb : (UInt8.ofNat (128 + bytes.length)).toNat = 128 + bytes.length := UInt8.toNat_ofNat_of_lt' (show 128 + bytes.length < 256 by omega)
    obtain ⟨hfirst, hrest⟩ := at_cons hat
    rw [List.getD_eq_getElem?_getD, hfirst, Option.getD_some, hb, if_neg (by omega), if_neg (by omega), Nat.add_sub_cancel_left]
    unfold At at hrest
    rw [hrest]
    exact ⟨by simp only [List.length_cons]; omega, rfl⟩

/-! ### The leaf -/

/-- An accepted message ends no earlier than its list and its leaf. -/
theorem parseCertificateMessage_meets (message : List UInt8) :
    (parseCertificateMessage message).Meets fun r =>
      r = (listStart message + 3, leafLength message) ∧ listStart message + listLength message ≤ message.length ∧ 3 ≤ listLength message := by
  unfold parseCertificateMessage
  refine .unless fun hone => (readAt_meets (by omega)).bind fun contextLen hcontext => .unless fun hlist => ?_
  have hstart : listStart message = 1 + contextLen.toNat + 3 := by
    unfold listStart
    rw [List.getD_eq_getElem?_getD, hcontext]
    rfl
  refine (readBe_meets (by omega)).bind fun certListLen hlistLen => .unless fun hends => (readBe_meets (by omega)).bind fun certDataLen hdataLen => ?_
  refine .unless fun hleaf => ?_
  unfold listLength leafLength uint24
  rw [hstart, Nat.add_sub_cancel, ← hlistLen, ← hdataLen]
  exact ⟨rfl, by omega, by omega⟩

/-! ### The key -/

/-- The key of an accepted certificate lies in the tbsCertificate, as its length declares it, and
that in the bytes given. -/
theorem extractSpki_within {data : List UInt8} (hlt : data.length < 2 ^ 32) :
    (extractSpkiFromCertificate data).Meets fun r =>
      tbsStart data ≤ r.1 ∧ r.1 + r.2 ≤ fieldEnd data (tbsStart data) ∧ fieldEnd data (tbsStart data) ≤ data.length := by
  unfold extractSpkiFromCertificate
  refine (readTlv_meets (Nat.le_refl _) hlt 0x30).bind fun outer houter => (readTlv_meets (Nat.le_refl _) hlt 0x30).bind fun tbs htbs => ?_
  obtain ⟨_, outerOctets, houterOctets, houterNext, houterAt⟩ := houter
  obtain ⟨hstop, tbsOctets, htbsOctets, htbsNext, htbsAt⟩ := htbs
  have hstart : tbsStart data = outer.2 := by
    rw [houterNext, Nat.zero_add]
    exact (declared_of_at houterOctets houterAt).1
  obtain ⟨hvalue, hlength⟩ := declared_of_at htbsOctets htbsAt
  have hend : fieldEnd data (tbsStart data) = tbs.2 + tbs.1 := by
    unfold fieldEnd
    rw [hstart, hvalue, hlength, ← htbsNext]
  refine (skipVersion_meets (Nat.le_add_right _ _) hstop (by omega)).bind fun p hp => ?_
  refine (skipFields_meets hp.2 hstop (by omega) 5).bind fun spkiStart hspkiStart => ?_
  refine (readTlv_meets hstop (by omega) 0x30).bind fun spki hspki => ?_
  have hspkiEnd := hspki.1
  obtain ⟨octets, _, hnext, _⟩ := hspki.2
  refine (sub_meets (by omega)).bind fun len hlen => ?_
  have hspan : ulong len = spki.2 + spki.1 - spkiStart := by rw [hlen, ulong_of_lt (by omega)]
  rw [hspan, hend, hstart]
  exact ⟨by dsimp only; omega, by dsimp only; omega, hstop⟩

/-- What is taken lies in the structures around it exactly if the lengths of those allow for what
they hold: a message's list for its first entry, and a certificate's SEQUENCE for the
tbsCertificate. -/
theorem nested_iff (message data : List UInt8) (hlt : data.length < 2 ^ 32) :
    (∀ start len, parseCertificateMessage message = .ok (start, len) →
      (listStart message ≤ start ∧ start + len ≤ listStart message + listLength message ↔ 3 + leafLength message ≤ listLength message)) ∧
    ∀ start len, extractSpkiFromCertificate data = .ok (start, len) →
      ((fieldEnd data (tbsStart data) ≤ fieldEnd data 0 ∧ tbsStart data ≤ start ∧ start + len ≤ fieldEnd data 0) ↔
        headerLength data (tbsStart data) + valueLength data (tbsStart data) ≤ valueLength data 0) := by
  constructor
  · intro start len h
    have hleaf := (meets_iff.1 (parseCertificateMessage_meets message)).2 _ h
    obtain ⟨rfl, rfl⟩ := Prod.mk.inj hleaf.1
    omega
  · intro start len h
    obtain ⟨hstart, hend, _⟩ := (meets_iff.1 (extractSpki_within hlt)).2 _ h
    have houter : fieldEnd data 0 = tbsStart data + valueLength data 0 := by
      unfold fieldEnd tbsStart
      rw [Nat.zero_add]
    have htbs : fieldEnd data (tbsStart data) = tbsStart data + headerLength data (tbsStart data) + valueLength data (tbsStart data) := rfl
    dsimp only at hstart hend
    omega

/-- An empty SEQUENCE with a tbsCertificate behind it. -/
def tbsBehindSequence : List UInt8 := [0x30, 0, 0x30, 12, 0x02, 0, 0x30, 0, 0x30, 0, 0x30, 0, 0x30, 0, 0x30, 0]

/-- A list of three bytes, all taken by its first entry's length, and the leaf behind it. -/
def leafBehindList : List UInt8 := [0, 0, 0, 3, 0, 0, 16] ++ tbsBehindSequence

/-- Both are accepted, and leaf and key are taken from behind the structures they belong in. -/
theorem taken_from_outside :
    parseCertificateMessage leafBehindList = .ok (7, 16) ∧ ¬ 7 + 16 ≤ listStart leafBehindList + listLength leafBehindList ∧
      extractSpkiFromCertificate tbsBehindSequence = .ok (14, 2) ∧ ¬ 14 + 2 ≤ fieldEnd tbsBehindSequence 0 := by
  decide

theorem nested_iff_outside : ¬ (listStart leafBehindList ≤ 7 ∧ 7 + 16 ≤ listStart leafBehindList + listLength leafBehindList) :=
  fun hinside => absurd (((nested_iff leafBehindList tbsBehindSequence (by decide)).1 7 16 (by decide)).1 hinside) (by decide)

end BlorgFS.Tls
