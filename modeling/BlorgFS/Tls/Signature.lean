import BlorgFS.Lib.Filling
import BlorgFS.Lib.Presentation
import BlorgFS.Tls.ServerHello
import Mathlib.Data.Nat.Size

/-! What is read and compared when the server proves who it is, `Tls.c`: the signature of a
CertificateVerify message, the content that is signed, the point in a public key and the
comparison of digests. -/

namespace BlorgFS.Tls

open Lib Checked Der

/-- `TLS_HASH_LEN`. -/
def hashLen : ℕ := 32

/-- `TLS_SIGALG_ECDSA_SECP256R1_SHA256`. -/
def sigalgEcdsaSecp256r1Sha256 : ℕ := 0x0403

/-! ### The signature -/

/-- An INTEGER's content without the byte that keeps it from being negative: position and length. -/
def stripSign (message : List UInt8) (start len : ℕ) : Checked Invalid (ℕ × ℕ) :=
  if len = 33 then do
    let first ← readAt message start
    .ok (if first = 0x00 then (start + 1, len - 1) else (start, len))
  else .ok (start, len)

/-- What is written of the two integers into the 64 bytes of the output. -/
def writeSignature (r s : List UInt8) : Checked Invalid (List UInt8) := do
  let left ← sub 32 r.length
  let out ← writeSlice (List.replicate 64 0) left r
  let left ← sub 32 s.length
  writeSlice out (32 + left) s

/-- `BlorgTlsParseCertificateVerifyMessage`: the raw signature. -/
def parseCertificateVerifyMessage (message : List UInt8) : Checked Invalid (List UInt8) :=
  if message.length < 4 then .error .invalidParameter
  else do
    let algorithm ← getUint16 message 0
    if algorithm ≠ sigalgEcdsaSecp256r1Sha256 then .error .invalidParameter
    else do
      let sigLen ← getUint16 message 2
      if 4 + sigLen ≠ message.length then .error .invalidParameter
      else do
        let stop := 4 + sigLen
        let (sigLen, p) ← readTlv message 4 stop 0x30
        let seqEnd := p + sigLen
        let (rLen, rStart) ← readTlv message p seqEnd 0x02
        let p := rStart + rLen
        let (sLen, sStart) ← readTlv message p seqEnd 0x02
        let (rStart, rLen) ← stripSign message rStart rLen
        let (sStart, sLen) ← stripSign message sStart sLen
        if rLen > 32 ∨ sLen > 32 ∨ rLen = 0 ∨ sLen = 0 then .error .invalidParameter
        else do
          let r ← readSlice message rStart rLen
          let s ← readSlice message sStart sLen
          writeSignature r s

/-- `bytes` at the end of 32 bytes of zeros. -/
def padded (bytes : List UInt8) : List UInt8 := List.replicate (32 - bytes.length) 0 ++ bytes

/-- An INTEGER's content without its first byte, where that is a zero in front of 32 bytes. -/
def unsigned (content : List UInt8) : List UInt8 := if content.length = 33 ∧ content.head? = some 0x00 then content.tail else content

theorem length_padded {bytes : List UInt8} (h : bytes.length ≤ 32) : (padded bytes).length = 32 := by
  unfold padded
  rw [List.length_append, List.length_replicate]
  omega

/-- Integers of no more than 32 bytes are written within the output. -/
theorem writeSignature_eq {r s : List UInt8} (hr : r.length ≤ 32) (hs : s.length ≤ 32) : writeSignature r s = .ok (padded r ++ padded s) := by
  have hzeros : List.replicate 64 (0 : UInt8) = List.replicate (32 - r.length) 0 ++ (List.replicate r.length 0 ++ List.replicate 32 0) := by
    rw [List.replicate_append_replicate, List.replicate_append_replicate]
    congr 1
    omega
  have hfirst := writeSlice_append (ε := Invalid) (List.replicate (32 - r.length) (0 : UInt8)) (List.replicate r.length 0) (List.replicate 32 0)
    (show r.length = _ from List.length_replicate.symm)
  rw [List.length_replicate, ← hzeros, ← List.append_assoc] at hfirst
  have hrest : padded r ++ List.replicate 32 (0 : UInt8) = (padded r ++ List.replicate (32 - s.length) 0) ++ (List.replicate s.length 0 ++ []) := by
    rw [List.append_nil, List.append_assoc, List.replicate_append_replicate]
    congr 2
    omega
  have hsecond := writeSlice_append (ε := Invalid) (padded r ++ List.replicate (32 - s.length) 0) (List.replicate s.length 0) []
    (show s.length = _ from List.length_replicate.symm)
  rw [List.length_append, length_padded hr, List.length_replicate, ← hrest, List.append_nil, List.append_assoc] at hsecond
  unfold writeSignature
  rw [sub_of_le hr, ok_bind, hfirst, ok_bind, sub_of_le hs, ok_bind]
  exact hsecond

/-! ### Any message -/

/-- A field with its content. -/
def Field (tag : UInt8) (content span : List UInt8) : Prop := ∃ octets, LengthOctets content.length octets ∧ span = tag :: (octets ++ content)

/-- A message that holds a signature: the algorithm, a length, and a SEQUENCE that begins with the
INTEGERs `r` and `s`. -/
def Holds (message r s : List UInt8) : Prop :=
  ∃ rField sField more sequence rest, Field 0x02 r rField ∧ Field 0x02 s sField ∧ Field 0x30 (rField ++ (sField ++ more)) sequence ∧
    message = be 2 sigalgEcdsaSecp256r1Sha256 ++ vector 2 (sequence ++ rest)

theorem readTlv_field {message : List UInt8} {p stop : ℕ} (hstop : stop ≤ message.length) (hlt : stop < 2 ^ 32) (tag : UInt8) :
    (readTlv message p stop tag).Meets fun r =>
      r.2 + r.1 ≤ stop ∧ ∃ span, Field tag ((message.drop r.2).take r.1) span ∧ p + span.length = r.2 + r.1 ∧ message.drop p = span ++ message.drop (r.2 + r.1) := by
  refine (readTlv_meets hstop hlt tag).mono fun r hr => ?_
  obtain ⟨hend, octets, hoctets, hnext, hat⟩ := hr
  have hlength : ((message.drop r.2).take r.1).length = r.1 := by
    rw [List.length_take, List.length_drop]
    omega
  have hcontent : message.drop r.2 = (message.drop r.2).take r.1 ++ message.drop (r.2 + r.1) := by rw [← List.drop_drop, List.take_append_drop]
  have hhead := List.take_append_drop (tag :: octets).length (message.drop p)
  unfold At at hat
  rw [hat, List.drop_drop, ← hnext] at hhead
  refine ⟨hend, tag :: (octets ++ (message.drop r.2).take r.1), ⟨octets, by rwa [hlength], rfl⟩, ?_, ?_⟩
  · rw [List.length_cons, List.length_append, hlength]
    rw [List.length_cons] at hnext
    omega
  · rw [← hhead, List.cons_append, List.cons_append, List.append_assoc, ← hcontent]

theorem stripSign_meets {message : List UInt8} {start len : ℕ} (h : start + len ≤ message.length) :
    (stripSign message start len).Meets fun r => r.1 + r.2 = start + len ∧ (message.drop r.1).take r.2 = unsigned ((message.drop start).take len) := by
  have hlength : ((message.drop start).take len).length = len := by
    rw [List.length_take, List.length_drop]
    omega
  unfold stripSign unsigned
  rw [hlength]
  by_cases hlen : len = 33
  · rw [if_pos hlen]
    refine (readAt_meets (by omega)).bind fun first hfirst => ?_
    have hhead : ((message.drop start).take len).head? = some first := by
      rw [hlen, List.head?_take, List.head?_drop, hfirst]
      rfl
    have htail : ((message.drop start).take len).tail = (message.drop (start + 1)).take (len - 1) := by
      rw [← List.drop_one, List.drop_take, List.drop_drop]
    rw [hhead]
    by_cases hzero : first = 0x00
    · rw [if_pos hzero, if_pos ⟨hlen, congrArg some hzero⟩, htail]
      exact ⟨show start + 1 + (len - 1) = start + len by omega, rfl⟩
    · rw [if_neg hzero, if_neg fun h => hzero (Option.some.inj h.2)]
      exact ⟨rfl, rfl⟩
  · rw [if_neg hlen, if_neg fun h => hlen h.1]
    exact ⟨rfl, rfl⟩

theorem getUint16_meets {message : List UInt8} {i : ℕ} (h : i + 2 ≤ message.length) :
    (getUint16 message i).Meets fun v => v < 65536 ∧ (message.drop i).take 2 = be 2 v := by
  refine (readBe_meets h).mono fun v hv => ?_
  have hlength : ((message.drop i).take 2).length = 2 := by
    rw [List.length_take, List.length_drop]
    omega
  have hlt := ofBe_lt ((message.drop i).take 2)
  have hbytes := be_ofBe ((message.drop i).take 2)
  rw [hlength, ← hv] at hlt hbytes
  exact ⟨hlt, hbytes.symm⟩

/-- The parser stays within the message and its output, and gives the two INTEGERs it finds. -/
theorem parseCertificateVerify_meets (message : List UInt8) : (parseCertificateVerifyMessage message).Meets fun out =>
    out.length = 64 ∧ ∃ r s, Holds message r s ∧ 0 < (unsigned r).length ∧ (unsigned r).length ≤ 32 ∧ 0 < (unsigned s).length ∧
      (unsigned s).length ≤ 32 ∧ out = padded (unsigned r) ++ padded (unsigned s) := by
  unfold parseCertificateVerifyMessage
  refine .unless fun hshort => (getUint16_meets (by omega)).bind fun algorithm halgorithm => .unless fun hknown => ?_
  refine (getUint16_meets (by omega)).bind fun sigLen hsigLen => .unless fun hlength => ?_
  have hlt := hsigLen.1
  have hlength := not_not.1 hlength
  refine (readTlv_field (by omega) (by omega) 0x30).bind fun sequence hsequence => ?_
  have hstop := hsequence.1
  refine (readTlv_field (by omega) (by omega) 0x02).bind fun r hr => (readTlv_field (by omega) (by omega) 0x02).bind fun s hs => ?_
  have hrEnd := hr.1
  have hsEnd := hs.1
  refine (stripSign_meets (by omega)).bind fun r' hr' => (stripSign_meets (by omega)).bind fun s' hs' => .unless fun hlengths => ?_
  have hr'End := hr'.1
  have hs'End := hs'.1
  refine (readSlice_meets (by omega)).bind fun rBytes hrBytes => (readSlice_meets (by omega)).bind fun sBytes hsBytes => ?_
  have hrLength : rBytes.length = r'.2 := by
    rw [hrBytes, List.length_take, List.length_drop]
    omega
  have hsLength : sBytes.length = s'.2 := by
    rw [hsBytes, List.length_take, List.length_drop]
    omega
  rw [writeSignature_eq (by omega) (by omega)]
  show (padded rBytes ++ padded sBytes).length = 64 ∧ _
  refine ⟨by rw [List.length_append, length_padded (by omega), length_padded (by omega)], (message.drop r.2).take r.1, (message.drop s.2).take s.1, ?_⟩
  rw [← hr'.2, ← hs'.2, ← hrBytes, ← hsBytes]
  refine ⟨?_, by omega, by omega, by omega, by omega, rfl⟩
  obtain ⟨-, rField, hrField, hrSpan, hrDrop⟩ := hr
  obtain ⟨-, sField, hsField, hsSpan, hsDrop⟩ := hs
  obtain ⟨-, span, hspan, -, hrest⟩ := hsequence
  have hcontent : (message.drop sequence.2).take sequence.1 =
      rField ++ (sField ++ (message.drop (s.2 + s.1)).take (sequence.2 + sequence.1 - (s.2 + s.1))) := by
    have hleft : sequence.1 - rField.length - sField.length = sequence.2 + sequence.1 - (s.2 + s.1) := by omega
    rw [hrDrop, hsDrop, List.take_append, List.take_of_length_le (by omega), List.take_append, List.take_of_length_le (by omega), hleft]
  refine ⟨rField, sField, _, span, message.drop (sequence.2 + sequence.1), hrField, hsField, hcontent ▸ hspan, ?_⟩
  have hbody : (message.drop 4).length = sigLen := by
    rw [List.length_drop]
    omega
  rw [← hrest, vector, hbody, ← hsigLen.2, ← not_not.1 hknown, ← halgorithm.2, List.drop_zero, ← List.append_assoc, ← List.take_add, List.take_append_drop]

/-! ### Encoded integers -/

/-- A positive integer as the content of an INTEGER: its bytes, with room for the sign. -/
def integerContent (v : ℕ) : List UInt8 := be (Nat.size v / 8 + 1) v

/-- The message a signature is sent in. -/
def certificateVerifyOf (r s : ℕ) : List UInt8 :=
  be 2 sigalgEcdsaSecp256r1Sha256 ++ vector 2 (tlv 0x30 (tlv 0x02 (integerContent r) ++ tlv 0x02 (integerContent s)))

/-- No more bytes are taken than the integer and its sign need. -/
theorem integerContent_minimal {v m : ℕ} (hm : 0 < m) : (integerContent v).length ≤ m ↔ v < 2 ^ (8 * m - 1) := by
  rw [integerContent, length_be, ← Nat.size_le]
  omega

theorem integerContent_le {v : ℕ} (h : v < 2 ^ 256) : (integerContent v).length ≤ 33 := by
  rw [integerContent_minimal (by decide)]
  exact Nat.lt_of_lt_of_le h (Nat.pow_le_pow_right Nat.two_pos (by decide))

theorem unsigned_zero {bytes : List UInt8} (h : bytes.length = 32) : unsigned (0x00 :: bytes) = bytes := by
  unfold unsigned
  rw [List.length_cons, h, if_pos ⟨rfl, rfl⟩, List.tail_cons]

theorem lt_of_length_le {v n : ℕ} (hn : 0 < n) (h : (integerContent v).length ≤ n) : v < 256 ^ n :=
  calc v < 2 ^ (8 * n - 1) := (integerContent_minimal hn).1 h
    _ ≤ 2 ^ (8 * n) := Nat.pow_le_pow_right Nat.two_pos (Nat.sub_le _ _)
    _ = 256 ^ n := Nat.pow_mul 2 8 n

/-- What is left of an encoded integer is its 32 bytes, but for zeros in front. -/
theorem unsigned_integerContent {v : ℕ} (h : v < 2 ^ 256) :
    0 < (unsigned (integerContent v)).length ∧ (unsigned (integerContent v)).length ≤ 32 ∧ padded (unsigned (integerContent v)) = be 32 v := by
  have hle := integerContent_le h
  by_cases hlong : (integerContent v).length = 33
  · have hsize : Nat.size v / 8 + 1 = 1 + 32 := by rwa [integerContent, length_be] at hlong
    have hzero : v / 256 ^ 32 = 0 := Nat.div_eq_of_lt (h.trans_eq (Nat.pow_mul 2 8 32))
    have hcontent : integerContent v = 0x00 :: be 32 v := by
      rw [integerContent, hsize, be_add, hzero, be_zero, List.replicate_one, List.singleton_append]
    rw [hcontent, unsigned_zero (length_be _ _)]
    rw [length_be]
    refine ⟨by decide, Nat.le_refl _, ?_⟩
    unfold padded
    rw [length_be, Nat.sub_self, List.replicate_zero, List.nil_append]
  · have hunsigned : unsigned (integerContent v) = integerContent v := if_neg fun h => hlong h.1
    have hpos : 0 < (integerContent v).length := by
      rw [integerContent, length_be]
      omega
    have hzero : v / 256 ^ (integerContent v).length = 0 := Nat.div_eq_of_lt (lt_of_length_le hpos (Nat.le_refl _))
    have hbe : integerContent v = be (integerContent v).length v := by
      unfold integerContent
      rw [length_be]
    have hsplit := be_add (32 - (integerContent v).length) (integerContent v).length v
    rw [Nat.sub_add_cancel (by omega), hzero, be_zero, ← hbe] at hsplit
    rw [hunsigned]
    exact ⟨hpos, by omega, hsplit.symm⟩

theorem stripSign_append (front content rest : List UInt8) :
    ∃ found : ℕ × ℕ, stripSign (front ++ (content ++ rest)) front.length content.length = .ok found ∧ found.2 = (unsigned content).length ∧
      (readSlice (front ++ (content ++ rest)) found.1 found.2 : Checked Invalid _) = .ok (unsigned content) := by
  unfold stripSign unsigned
  by_cases hlen : content.length = 33
  · cases content with
    | nil => exact nomatch hlen
    | cons first content =>
      rw [if_pos hlen, List.cons_append, readAt_append, ok_bind, List.head?_cons]
      by_cases hzero : first = 0x00
      · have hslice := readSlice_append (ε := Invalid) (front ++ [first]) content rest
        rw [List.append_assoc, List.singleton_append, List.length_append, List.length_singleton] at hslice
        rw [if_pos hzero, if_pos ⟨hlen, congrArg some hzero⟩]
        exact ⟨_, rfl, rfl, hslice⟩
      · rw [if_neg hzero, if_neg fun h => hzero (Option.some.inj h.2)]
        exact ⟨_, rfl, rfl, readSlice_append front (first :: content) rest⟩
  · rw [if_neg hlen, if_neg fun h => hlen h.1]
    exact ⟨_, rfl, rfl, readSlice_append front content rest⟩

/-- An INTEGER is read, and what is taken of it lies within. -/
theorem readInteger_append (front : List UInt8) {value : List UInt8} (rest : List UInt8) {stop : ℕ} (hshort : value.length ≤ 33)
    (hstop : front.length + (tlv 0x02 value).length ≤ stop) (hlt : stop < 2 ^ 32) :
    ∃ (start : ℕ) (found : ℕ × ℕ), readTlv (front ++ (tlv 0x02 value ++ rest)) front.length stop 0x02 = .ok (value.length, start) ∧
      start + value.length = (front ++ tlv 0x02 value).length ∧ stripSign (front ++ (tlv 0x02 value ++ rest)) start value.length = .ok found ∧
      found.2 = (unsigned value).length ∧ (readSlice (front ++ (tlv 0x02 value ++ rest)) found.1 found.2 : Checked Invalid _) = .ok (unsigned value) := by
  obtain ⟨found, hstrip, hlength, hslice⟩ := stripSign_append (front ++ header 0x02 value.length) value rest
  have hfield : front ++ header 0x02 value.length ++ (value ++ rest) = front ++ (tlv 0x02 value ++ rest) := by
    unfold tlv
    rw [List.append_assoc, List.append_assoc]
  have hend : (front ++ header 0x02 value.length).length + value.length = (front ++ tlv 0x02 value).length := by
    rw [List.length_append, List.length_append, length_tlv, Nat.add_assoc]
  rw [hfield] at hstrip hslice
  exact ⟨_, found, readTlv_append front rest (by omega) hstop hlt, hend, hstrip, hlength, hslice⟩

/-- Two INTEGERs in a SEQUENCE are found, whatever their lengths. -/
theorem parseCertificateVerify_append {r s : List UInt8} (hr : r.length ≤ 33) (hs : s.length ≤ 33)
    (hr' : 0 < (unsigned r).length ∧ (unsigned r).length ≤ 32) (hs' : 0 < (unsigned s).length ∧ (unsigned s).length ≤ 32) :
    parseCertificateVerifyMessage (be 2 sigalgEcdsaSecp256r1Sha256 ++ vector 2 (tlv 0x30 (tlv 0x02 r ++ tlv 0x02 s))) =
      .ok (padded (unsigned r) ++ padded (unsigned s)) := by
  have hrField := length_tlv 0x02 r
  have hrHeader := length_header_le 0x02 r.length
  have hsField := length_tlv 0x02 s
  have hsHeader := length_header_le 0x02 s.length
  obtain ⟨content, hcontent⟩ : ∃ content, content = tlv 0x02 r ++ tlv 0x02 s := ⟨_, rfl⟩
  have hcontentLength : content.length = (tlv 0x02 r).length + (tlv 0x02 s).length := by rw [hcontent, List.length_append]
  have hsequence := length_tlv 0x30 content
  have hheader := length_header_le 0x30 content.length
  rw [← hcontent]
  obtain ⟨message, hmessage⟩ : ∃ message, message = be 2 sigalgEcdsaSecp256r1Sha256 ++ vector 2 (tlv 0x30 content) := ⟨_, rfl⟩
  obtain ⟨front, hfront⟩ : ∃ front, front = be 2 sigalgEcdsaSecp256r1Sha256 ++ be 2 (tlv 0x30 content).length := ⟨_, rfl⟩
  obtain ⟨before, hbefore⟩ : ∃ before, before = front ++ header 0x30 content.length := ⟨_, rfl⟩
  have hfour : front.length = 4 := by rw [hfront, List.length_append, length_be, length_be]
  have hbeforeLength : before.length = 4 + (header 0x30 content.length).length := by rw [hbefore, List.length_append, hfour]
  -- The message, cut in front of the SEQUENCE and of the two INTEGERs.
  have hsequenceAt : message = front ++ (tlv 0x30 content ++ []) := by rw [hmessage, hfront, vector, List.append_nil, List.append_assoc]
  have hrAt : message = before ++ (tlv 0x02 r ++ tlv 0x02 s) := by
    rw [hsequenceAt, hbefore, List.append_nil, List.append_assoc, ← hcontent]
    rfl
  have hsAt : message = before ++ tlv 0x02 r ++ (tlv 0x02 s ++ []) := by rw [hrAt, List.append_nil, List.append_assoc]
  have hlength : message.length = 4 + (tlv 0x30 content).length := by rw [hsequenceAt, List.append_nil, List.length_append, hfour]
  have halgorithm : getUint16 message 0 = .ok sigalgEcdsaSecp256r1Sha256 := by
    rw [hmessage]
    exact getUint16_append [] _ _ (length_be _ _)
  have hsigLen : getUint16 message 2 = .ok (tlv 0x30 content).length := by
    have hget := getUint16_append (be 2 sigalgEcdsaSecp256r1Sha256) (be 2 (tlv 0x30 content).length) (tlv 0x30 content) (length_be _ _)
    rw [ofBe_be_of_lt (by omega), length_be] at hget
    rw [hmessage]
    exact hget
  have hread : readTlv message 4 (4 + (tlv 0x30 content).length) 0x30 = .ok (content.length, before.length) := by
    rw [hsequenceAt, ← hfour, hbefore]
    exact readTlv_append front [] (by omega) (Nat.le_refl _) (by omega)
  obtain ⟨rStart, rFound, hrRead, hrEnd, hrStrip, hrLength, hrSlice⟩ := readInteger_append before (tlv 0x02 s) hr
    (show before.length + (tlv 0x02 r).length ≤ before.length + content.length by omega) (by omega)
  obtain ⟨sStart, sFound, hsRead, -, hsStrip, hsLength, hsSlice⟩ := readInteger_append (before ++ tlv 0x02 r) [] hs
    (show (before ++ tlv 0x02 r).length + (tlv 0x02 s).length ≤ before.length + content.length by rw [List.length_append]; omega) (by omega)
  rw [← hrAt] at hrRead hrStrip hrSlice
  rw [← hsAt] at hsRead hsStrip hsSlice
  rw [← hmessage]
  unfold parseCertificateVerifyMessage
  rw [if_neg (by omega), halgorithm, ok_bind, if_neg (not_not.2 rfl), hsigLen, ok_bind, if_neg (not_not.2 hlength.symm)]
  dsimp only
  rw [hread, ok_bind]
  dsimp only
  rw [hrRead, ok_bind]
  dsimp only
  rw [hrEnd, hsRead, ok_bind]
  dsimp only
  rw [hrStrip, ok_bind, hsStrip, ok_bind]
  rw [if_neg (by omega), hrSlice, ok_bind, hsSlice, ok_bind, writeSignature_eq hr'.2 hs'.2]

/-- Of every message the parser stays within it and within the 64 bytes of its output, and gives
the INTEGERs of the SEQUENCE; two integers below 2^256 come back as 32 bytes each. -/
theorem signature_converted :
    (∀ r s : {v : ℕ // 0 < v ∧ v < 2 ^ 256}, parseCertificateVerifyMessage (certificateVerifyOf r s) = .ok (be 32 r ++ be 32 s)) ∧
    ∀ message, (parseCertificateVerifyMessage message).Meets fun out =>
      out.length = 64 ∧ ∃ r s, Holds message r s ∧ 0 < (unsigned r).length ∧ (unsigned r).length ≤ 32 ∧ 0 < (unsigned s).length ∧
        (unsigned s).length ≤ 32 ∧ out = padded (unsigned r) ++ padded (unsigned s) := by
  refine ⟨fun r s => ?_, parseCertificateVerify_meets⟩
  have hr := unsigned_integerContent r.2.2
  have hs := unsigned_integerContent s.2.2
  rw [← hr.2.2, ← hs.2.2]
  exact parseCertificateVerify_append (integerContent_le r.2.2) (integerContent_le s.2.2) ⟨hr.1, hr.2.1⟩ ⟨hs.1, hs.2.1⟩

/-! ### What is signed, and the key -/

/-- `BlorgTlsBuildServerCertVerifyContent`: "TLS 1.3, server CertificateVerify" between spaces and
a zero, and the transcript's hash. -/
def buildServerCertVerifyContent (transcriptHash : List UInt8) : List UInt8 :=
  List.replicate 64 0x20 ++
    ([0x54, 0x4c, 0x53, 0x20, 0x31, 0x2e, 0x33, 0x2c, 0x20, 0x73, 0x65, 0x72, 0x76, 0x65, 0x72, 0x20, 0x43, 0x65, 0x72, 0x74, 0x69, 0x66, 0x69, 0x63,
      0x61, 0x74, 0x65, 0x56, 0x65, 0x72, 0x69, 0x66, 0x79] ++ (0x00 :: transcriptHash))

/-- The header of a P-256 SubjectPublicKeyInfo, up to its point. -/
def spkiHeader : List UInt8 :=
  [0x30, 0x59, 0x30, 0x13, 0x06, 0x07, 0x2A, 0x86, 0x48, 0xCE, 0x3D, 0x02, 0x01, 0x06, 0x08, 0x2A, 0x86, 0x48, 0xCE, 0x3D, 0x03, 0x01, 0x07, 0x03,
    0x42, 0x00]

/-- `BlorgTlsDecodeP256SubjectPublicKeyInfo`: the point. -/
def decodeP256SubjectPublicKeyInfo (der : List UInt8) : Except Invalid (List UInt8) :=
  if der.length ≠ 91 then .error .invalidParameter
  else if der.take spkiHeader.length ≠ spkiHeader then .error .invalidParameter
  else
    let publicKey := (der.drop spkiHeader.length).take eccPubkeyLen
    if publicKey.head? ≠ some 0x04 then .error .invalidParameter else .ok publicKey

/-! ### Digests -/

/-- `BlorgTlsConstantTimeEqual`, for two buffers of one length. -/
def constantTimeEqual (a b : List UInt8) : Bool := (List.zipWith (fun x y => x ^^^ y) a b).foldl (fun diff x => diff ||| x) 0 == 0

theorem foldl_or_eq_zero (diff : UInt8) (bytes : List UInt8) : bytes.foldl (fun diff x => diff ||| x) diff = 0 ↔ diff = 0 ∧ ∀ x ∈ bytes, x = 0 := by
  induction bytes generalizing diff with
  | nil => exact ⟨fun h => ⟨h, nofun⟩, fun h => h.1⟩
  | cons x bytes ih =>
    rw [List.foldl_cons, ih, UInt8.or_eq_zero_iff, List.forall_mem_cons]
    exact and_assoc

/-- Buffers of one length compare equal exactly if they are. -/
theorem constantTimeEqual_iff {a b : List UInt8} (h : a.length = b.length) : constantTimeEqual a b = true ↔ a = b := by
  unfold constantTimeEqual
  rw [beq_iff_eq, foldl_or_eq_zero]
  induction a generalizing b with
  | nil =>
    obtain rfl := List.length_eq_zero_iff.1 h.symm
    exact ⟨fun _ => rfl, fun _ => ⟨rfl, nofun⟩⟩
  | cons x a ih =>
    cases b with
    | nil => exact nomatch h
    | cons y b =>
      have hrest := ih (Nat.succ.inj h)
      rw [List.zipWith_cons_cons, List.forall_mem_cons, UInt8.xor_eq_zero_iff, List.cons_eq_cons, ← hrest]
      exact ⟨fun hall => ⟨hall.2.1, rfl, hall.2.2⟩, fun hall => ⟨rfl, hall.1, hall.2.2⟩⟩

end BlorgFS.Tls
