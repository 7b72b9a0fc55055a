import BlorgFS.Lib.BigEndian
import BlorgFS.Lib.Word

/-! How the public key is found in a certificate, `BlorgTlsExtractSpkiFromCertificate`: fields
are headed by a tag and a length of one of three forms, and all but the key are skipped by their
length. -/

namespace BlorgFS.Tls

open Lib Checked

/-- `STATUS_INVALID_PARAMETER`, or what a helper's `FALSE` comes to. -/
inductive Invalid where
  | invalidParameter
  deriving DecidableEq, Repr

namespace Der

/-! ### The walk -/

section Walk

variable (data : List UInt8)

/-- A value of so many bytes from `p` on is to end within `stop`: its length and position. -/
def value (stop len p : ℕ) : Checked Invalid (ℕ × ℕ) := do
  let left ← sub stop p
  if ulong left < len then .error .invalidParameter else .ok (len, p)

/-- What `TlsDerReadTlv` and `TlsDerSkipTlv` do behind the tag. -/
def readLength (p stop : ℕ) : Checked Invalid (ℕ × ℕ) :=
  if stop ≤ p then .error .invalidParameter
  else do
    let b ← readAt data p
    if b &&& 0x80 = 0 then value stop b.toNat (p + 1)
    else do
      let lenBytes := (b &&& 0x7F).toNat
      let left ← sub stop (p + 1)
      if lenBytes = 0 ∨ 2 < lenBytes ∨ ulong left < lenBytes then .error .invalidParameter
      else do
        let len ← readBe data lenBytes (p + 1) 0
        value stop len (p + 1 + lenBytes)

/-- `TlsDerReadTlv`: the value's length and position. -/
def readTlv (p stop : ℕ) (expectedTag : UInt8) : Checked Invalid (ℕ × ℕ) :=
  if stop ≤ p then .error .invalidParameter
  else do
    let tag ← readAt data p
    if tag ≠ expectedTag then .error .invalidParameter else readLength data (p + 1) stop

/-- `TlsDerSkipTlv`: the position behind the value. -/
def skipTlv (p stop : ℕ) : Checked Invalid ℕ :=
  if stop ≤ p then .error .invalidParameter
  else do
    let (len, p) ← readLength data (p + 1) stop
    .ok (p + len)

/-- The version is skipped where there is one. -/
def skipVersion (p tbsEnd : ℕ) : Checked Invalid ℕ :=
  if p < tbsEnd then do
    let tag ← readAt data p
    if tag = 0xA0 then skipTlv data p tbsEnd else .ok p
  else .ok p

/-- So many fields are skipped. -/
def skipFields (tbsEnd : ℕ) : ℕ → ℕ → Checked Invalid ℕ
  | 0, p => .ok p
  | n + 1, p => do
    let p ← skipTlv data p tbsEnd
    skipFields tbsEnd n p

/-- `BlorgTlsExtractSpkiFromCertificate`: where the key's field starts, and its length. -/
def extractSpkiFromCertificate : Checked Invalid (ℕ × ℕ) := do
  let (_, p) ← readTlv data 0 data.length 0x30
  let (len, p) ← readTlv data p data.length 0x30
  let tbsEnd := p + len
  let p ← skipVersion data p tbsEnd
  let spkiStart ← skipFields data tbsEnd 5 p
  let (len, p) ← readTlv data spkiStart tbsEnd 0x30
  let spkiLen ← sub (p + len) spkiStart
  .ok (spkiStart, ulong spkiLen)

end Walk

/-! ### Lengths as they are written -/

/-- The octets that say a length, in one of the three forms that are read. -/
inductive LengthOctets : ℕ → List UInt8 → Prop
  | short (b : UInt8) (h : b.toNat < 128) : LengthOctets b.toNat [b]
  | long (bytes : List UInt8) (h : bytes.length = 1 ∨ bytes.length = 2) : LengthOctets (ofBe bytes) (UInt8.ofNat (128 + bytes.length) :: bytes)

/-- A length in as few octets as will do. -/
def lengthOctets (n : ℕ) : List UInt8 :=
  if n < 128 then [UInt8.ofNat n] else if n < 256 then 0x81 :: be 1 n else 0x82 :: be 2 n

/-- What stands in front of a value: the tag and the length. -/
def header (tag : UInt8) (n : ℕ) : List UInt8 := tag :: lengthOctets n

/-- A field: the tag, the length and the value. -/
def tlv (tag : UInt8) (value : List UInt8) : List UInt8 := header tag value.length ++ value

/-- The fields of a certificate. Of the version, the key and the named fields these are the
values, of the fields behind the key and of the signature the encodings. -/
structure CertificateFields where
  version : Option (List UInt8)
  serialNumber : List UInt8
  signature : List UInt8
  issuer : List UInt8
  validity : List UInt8
  subject : List UInt8
  subjectPublicKeyInfo : List UInt8
  extensions : List UInt8
  signed : List UInt8

namespace CertificateFields

variable (c : CertificateFields)

def versionField : List UInt8 := c.version.elim [] (tlv 0xA0)

def skipped : List (UInt8 × List UInt8) :=
  [(0x02, c.serialNumber), (0x30, c.signature), (0x30, c.issuer), (0x30, c.validity), (0x30, c.subject)]

def skippedFields : List UInt8 := c.skipped.flatMap fun field => tlv field.1 field.2

def spki : List UInt8 := tlv 0x30 c.subjectPublicKeyInfo

def tbsCertificate : List UInt8 := c.versionField ++ (c.skippedFields ++ (c.spki ++ c.extensions))

def content : List UInt8 := tlv 0x30 c.tbsCertificate ++ c.signed

/-- The certificate as it is encoded. -/
def encoded : List UInt8 := tlv 0x30 c.content

def outerHeader : List UInt8 := header 0x30 c.content.length

def tbsHeader : List UInt8 := header 0x30 c.tbsCertificate.length

/-- What of it stands in front of the key. -/
def beforeKey : List UInt8 := c.outerHeader ++ (c.tbsHeader ++ (c.versionField ++ c.skippedFields))

theorem encoded_eq : c.encoded = c.outerHeader ++ (tlv 0x30 c.tbsCertificate ++ c.signed) := rfl

/-- The encoding, the fields of the tbsCertificate apart. -/
theorem encoded_fields :
    c.encoded = c.outerHeader ++ (c.tbsHeader ++ (c.versionField ++ (c.skippedFields ++ (c.spki ++ (c.extensions ++ c.signed))))) := by
  rw [encoded_eq]
  unfold tlv tbsHeader tbsCertificate
  simp only [List.append_assoc]

theorem encoded_key : c.encoded = c.beforeKey ++ (c.spki ++ (c.extensions ++ c.signed)) := by
  rw [encoded_fields]
  unfold beforeKey
  simp only [List.append_assoc]

theorem length_tbs : c.tbsCertificate.length = c.versionField.length + (c.skippedFields.length + (c.spki.length + c.extensions.length)) := by
  unfold tbsCertificate
  rw [List.length_append, List.length_append, List.length_append]

theorem length_content : c.content.length = c.tbsHeader.length + c.tbsCertificate.length + c.signed.length := by
  unfold content tlv
  rw [List.length_append, List.length_append]
  rfl

theorem length_encoded : c.encoded.length = c.outerHeader.length + c.content.length := List.length_append

end CertificateFields

/-- A certificate none of whose lengths takes more than two octets. -/
structure Certificate extends CertificateFields where
  length_lt : toCertificateFields.content.length < 65536

theorem lengthOctets_valid {n : ℕ} (h : n < 65536) : LengthOctets n (lengthOctets n) := by
  unfold lengthOctets
  split_ifs with hshort hone
  · have hn : (UInt8.ofNat n).toNat = n := UInt8.toNat_ofNat_of_lt' (show n < 256 by omega)
    have hoctets := LengthOctets.short (UInt8.ofNat n) (by rw [hn]; exact hshort)
    rwa [hn] at hoctets
  · have hoctets := LengthOctets.long (be 1 n) (.inl (length_be 1 n))
    rwa [ofBe_be_of_lt (by omega)] at hoctets
  · have hoctets := LengthOctets.long (be 2 n) (.inr (length_be 2 n))
    rwa [ofBe_be_of_lt (by omega)] at hoctets

theorem LengthOctets.length_pos {n : ℕ} {octets : List UInt8} (h : LengthOctets n octets) : 0 < octets.length := by
  cases h with
  | short b hb => exact Nat.one_pos
  | long bytes hbytes => exact Nat.succ_pos _

/-- A byte has its top bit clear exactly if it is small. -/
theorem top_clear (b : UInt8) : b &&& 0x80 = 0 ↔ b.toNat < 128 := by
  have hall : ∀ n < 256, (n &&& 128 = 0 ↔ n < 128) := by decide +kernel
  rw [← hall b.toNat b.toNat_lt, ← UInt8.toNat_inj, UInt8.toNat_and]
  rfl

theorem low_bits (b : UInt8) : (b &&& 0x7F).toNat = b.toNat % 128 := by
  rw [UInt8.toNat_and]
  exact Nat.and_two_pow_sub_one_eq_mod b.toNat 7

/-! ### Any bytes -/

section Safety

variable {data : List UInt8} {p stop : ℕ}

/-- What stands at a position. -/
def At (data : List UInt8) (p : ℕ) (bytes : List UInt8) : Prop := (data.drop p).take bytes.length = bytes

theorem value_meets (hlt : stop < 2 ^ 32) (len : ℕ) (h : p ≤ stop) : (value stop len p).Meets fun r => r = (len, p) ∧ p + len ≤ stop := by
  unfold value
  refine (sub_meets h).bind fun left hleft => .unless fun hfits => ⟨rfl, ?_⟩
  rw [hleft, ulong_of_lt (by omega)] at hfits
  omega

/-- A length that is read is the one its octets say, and its value ends in time. -/
theorem readLength_meets (hstop : stop ≤ data.length) (hlt : stop < 2 ^ 32) :
    (readLength data p stop).Meets fun r => r.2 + r.1 ≤ stop ∧ ∃ octets, LengthOctets r.1 octets ∧ r.2 = p + octets.length ∧ At data p octets := by
  unfold readLength
  refine .unless fun hp => (readAt_meets (by omega)).bind fun b hb => ?_
  have hdrop : data.drop p = b :: data.drop (p + 1) := by
    obtain ⟨hlength, hget⟩ := List.getElem?_eq_some_iff.1 hb
    rw [← hget, List.drop_eq_getElem_cons]
  split_ifs with htop
  · refine (value_meets hlt _ (by omega)).mono fun r hr => ?_
    rw [hr.1]
    refine ⟨hr.2, [b], .short b ((top_clear b).1 htop), rfl, ?_⟩
    unfold At
    rw [hdrop]
    rfl
  · refine (sub_meets (by omega)).bind fun left hleft => .unless fun hfits => ?_
    rw [hleft, ulong_of_lt (by omega), low_bits] at hfits
    rw [low_bits]
    refine (readBe_meets (by omega)).bind fun len hlen => (value_meets hlt _ (by omega)).mono fun r hr => ?_
    have hlength : ((data.drop (p + 1)).take (b.toNat % 128)).length = b.toNat % 128 := by
      rw [List.length_take, List.length_drop]
      omega
    have hfirst : UInt8.ofNat (128 + b.toNat % 128) = b := by
      have hb := b.toNat_lt
      have hhigh := mt (top_clear b).2 htop
      rw [show 128 + b.toNat % 128 = b.toNat by omega, UInt8.ofNat_toNat]
    have hoctets := LengthOctets.long ((data.drop (p + 1)).take (b.toNat % 128)) (by omega)
    rw [hlength, hfirst, ← hlen] at hoctets
    rw [hr.1]
    refine ⟨hr.2, _, hoctets, by rw [List.length_cons, hlength]; omega, ?_⟩
    unfold At
    rw [List.length_cons, hlength, hdrop, List.take_succ_cons]

/-- A field that is read starts with the tag and the octets of its length, and ends in time. -/
theorem readTlv_meets (hstop : stop ≤ data.length) (hlt : stop < 2 ^ 32) (tag : UInt8) :
    (readTlv data p stop tag).Meets fun r =>
      r.2 + r.1 ≤ stop ∧ ∃ octets, LengthOctets r.1 octets ∧ r.2 = p + (tag :: octets).length ∧ At data p (tag :: octets) := by
  unfold readTlv
  refine .unless fun hp => (readAt_meets (by omega)).bind fun b hb => .unless fun htag => (readLength_meets hstop hlt).mono fun r hr => ?_
  obtain ⟨hend, octets, hoctets, hnext, hat⟩ := hr
  refine ⟨hend, octets, hoctets, by rw [hnext, List.length_cons]; omega, ?_⟩
  obtain ⟨hlength, hget⟩ := List.getElem?_eq_some_iff.1 hb
  unfold At at hat ⊢
  rw [List.drop_eq_getElem_cons hlength, List.length_cons, List.take_succ_cons, hat, hget, not_not.1 htag]

theorem skipTlv_meets (hstop : stop ≤ data.length) (hlt : stop < 2 ^ 32) : (skipTlv data p stop).Meets fun q => p < q ∧ q ≤ stop := by
  unfold skipTlv
  refine .unless fun hp => (readLength_meets hstop hlt).bind fun r hr => ?_
  obtain ⟨hend, octets, hoctets, hnext, _⟩ := hr
  have hpos := hoctets.length_pos
  constructor
  · omega
  · exact hend

theorem skipVersion_meets (hp : p ≤ stop) (hstop : stop ≤ data.length) (hlt : stop < 2 ^ 32) :
    (skipVersion data p stop).Meets fun q => p ≤ q ∧ q ≤ stop := by
  unfold skipVersion
  split_ifs with hmore
  · refine (readAt_meets (by omega)).bind fun tag _ => ?_
    split_ifs with htag
    · exact (skipTlv_meets hstop hlt).mono fun q hq => ⟨hq.1.le, hq.2⟩
    · exact ⟨Nat.le_refl p, hp⟩
  · exact ⟨Nat.le_refl p, hp⟩

theorem skipFields_meets (hp : p ≤ stop) (hstop : stop ≤ data.length) (hlt : stop < 2 ^ 32) (n : ℕ) :
    (skipFields data stop n p).Meets fun q => p ≤ q ∧ q ≤ stop := by
  induction n generalizing p with
  | zero => exact ⟨Nat.le_refl p, hp⟩
  | succ n ih => exact (skipTlv_meets hstop hlt).bind fun q hq => (ih hq.2).mono fun r hr => ⟨hq.1.le.trans hr.1, hr.2⟩

/-- A span that is a field with the given tag, whose length is that of the rest of the span. -/
def IsField (tag : UInt8) (span : List UInt8) : Prop := ∃ octets value, LengthOctets value.length octets ∧ span = tag :: (octets ++ value)

theorem isField_of_at {tag : UInt8} {octets : List UInt8} {len : ℕ} (hoctets : LengthOctets len octets) (hat : At data p (tag :: octets))
    (hend : p + (tag :: octets).length + len ≤ data.length) : IsField tag ((data.drop p).take ((tag :: octets).length + len)) := by
  have hlength : ((data.drop (p + (tag :: octets).length)).take len).length = len := by
    rw [List.length_take, List.length_drop]
    omega
  refine ⟨octets, (data.drop (p + (tag :: octets).length)).take len, by rwa [hlength], ?_⟩
  rw [List.take_add, List.drop_drop, hat]
  rfl

/-- The walk never reads outside the bytes, and the key it finds is a SEQUENCE inside them. -/
theorem extractSpki_meets (hlt : data.length < 2 ^ 32) :
    (extractSpkiFromCertificate data).Meets fun r => r.1 + r.2 ≤ data.length ∧ IsField 0x30 ((data.drop r.1).take r.2) := by
  unfold extractSpkiFromCertificate
  refine (readTlv_meets (Nat.le_refl _) hlt 0x30).bind fun outer _ => (readTlv_meets (Nat.le_refl _) hlt 0x30).bind fun tbs htbs => ?_
  have hstop := htbs.1
  refine (skipVersion_meets (Nat.le_add_right _ _) hstop (by omega)).bind fun p hp => ?_
  refine (skipFields_meets hp.2 hstop (by omega) 5).bind fun spkiStart hstart => ?_
  refine (readTlv_meets hstop (by omega) 0x30).bind fun spki hspki => ?_
  obtain ⟨hend, octets, hoctets, hnext, hat⟩ := hspki
  refine (sub_meets (by omega)).bind fun len hlen => ?_
  have hspan : ulong len = (0x30 :: octets).length + spki.1 := by
    rw [hlen, ulong_of_lt (by omega)]
    omega
  rw [hspan]
  exact ⟨by dsimp only; omega, isField_of_at hoctets hat (by omega)⟩

end Safety

/-! ### An encoded certificate -/

section Encoded

variable {stop : ℕ}

theorem value_eq {len p : ℕ} (h : p + len ≤ stop) (hlt : stop < 2 ^ 32) : value stop len p = .ok (len, p) := by
  unfold value
  rw [sub_of_le (by omega), Checked.ok_bind, ulong_of_lt (by omega), if_neg (by omega)]

theorem readLength_append {len : ℕ} {octets : List UInt8} (h : LengthOctets len octets) (front rest : List UInt8)
    (hstop : front.length + octets.length + len ≤ stop) (hlt : stop < 2 ^ 32) :
    readLength (front ++ (octets ++ rest)) front.length stop = .ok (len, front.length + octets.length) := by
  have hpos := h.length_pos
  unfold readLength
  rw [if_neg (by omega)]
  cases h with
  | short b hb =>
    rw [List.singleton_append, readAt_append, Checked.ok_bind, if_pos ((top_clear b).2 hb)]
    exact value_eq hstop hlt
  | long bytes hbytes =>
    have hb : (UInt8.ofNat (128 + bytes.length)).toNat = 128 + bytes.length := UInt8.toNat_ofNat_of_lt' (show 128 + bytes.length < 256 by omega)
    have hcount : (128 + bytes.length) % 128 = bytes.length := by omega
    have hbe := readBe_append (ε := Invalid) (front ++ [UInt8.ofNat (128 + bytes.length)]) bytes rest
    rw [List.append_assoc, List.singleton_append, List.length_append, List.length_singleton] at hbe
    rw [List.length_cons] at hstop ⊢
    rw [List.cons_append, readAt_append, Checked.ok_bind, if_neg (by rw [top_clear, hb]; omega), sub_of_le (by omega), Checked.ok_bind, low_bits, hb,
      hcount, ulong_of_lt (by omega), if_neg (by omega), hbe, Checked.ok_bind, value_eq (by omega) hlt]
    congr 2
    omega

theorem length_header (tag : UInt8) (n : ℕ) : (header tag n).length = 1 + (lengthOctets n).length := by
  unfold header
  rw [List.length_cons, Nat.add_comm]

theorem length_tlv (tag : UInt8) (value : List UInt8) : (tlv tag value).length = (header tag value.length).length + value.length := List.length_append

theorem readTlv_append (front : List UInt8) {tag : UInt8} {value : List UInt8} (rest : List UInt8) (hshort : value.length < 65536)
    (hstop : front.length + (tlv tag value).length ≤ stop) (hlt : stop < 2 ^ 32) :
    readTlv (front ++ (tlv tag value ++ rest)) front.length stop tag = .ok (value.length, (front ++ header tag value.length).length) := by
  rw [length_tlv, length_header] at hstop
  have hlength := readLength_append (lengthOctets_valid hshort) (front ++ [tag]) (value ++ rest)
    (by rw [List.length_append, List.length_singleton]; omega) hlt
  rw [List.append_assoc, List.singleton_append, List.length_append, List.length_singleton] at hlength
  unfold readTlv tlv header
  rw [if_neg (by omega), List.cons_append, List.cons_append, readAt_append, Checked.ok_bind, if_neg (not_not.2 rfl), List.append_assoc, hlength,
    List.length_append, List.length_cons]
  congr 2
  omega

theorem skipTlv_append (front : List UInt8) (tag : UInt8) {value : List UInt8} (rest : List UInt8) (hshort : value.length < 65536)
    (hstop : front.length + (tlv tag value).length ≤ stop) (hlt : stop < 2 ^ 32) :
    skipTlv (front ++ (tlv tag value ++ rest)) front.length stop = .ok (front ++ tlv tag value).length := by
  have hread := readTlv_append front rest hshort hstop hlt
  rw [length_tlv, length_header] at hstop
  unfold readTlv at hread
  unfold skipTlv
  rw [if_neg (by omega)] at hread ⊢
  have hat : readAt (front ++ (tlv tag value ++ rest)) front.length = (.ok tag : Checked Invalid UInt8) := readAt_append _ _ _
  rw [hat, Checked.ok_bind, if_neg (not_not.2 rfl)] at hread
  rw [hread, Checked.ok_bind, List.length_append, List.length_append, length_tlv]
  dsimp only
  congr 1
  omega

/-- The fields before the key are skipped one by one. -/
theorem skipFields_append (front : List UInt8) (fields : List (UInt8 × List UInt8)) (rest : List UInt8)
    (hshort : (fields.flatMap fun field => tlv field.1 field.2).length < 65536)
    (hstop : front.length + (fields.flatMap fun field => tlv field.1 field.2).length ≤ stop) (hlt : stop < 2 ^ 32) :
    skipFields (front ++ ((fields.flatMap fun field => tlv field.1 field.2) ++ rest)) stop fields.length front.length =
      .ok (front ++ fields.flatMap fun field => tlv field.1 field.2).length := by
  induction fields generalizing front with
  | nil => rw [List.flatMap_nil, List.append_nil]; rfl
  | cons field fields ih =>
    rw [List.flatMap_cons, List.length_append] at hshort hstop
    have hvalue := length_tlv field.1 field.2
    have hnext := ih (front ++ tlv field.1 field.2) (by omega) (by rw [List.length_append]; omega)
    rw [List.append_assoc, List.append_assoc] at hnext
    rw [List.flatMap_cons, List.length_cons, skipFields, List.append_assoc, skipTlv_append front field.1 _ (by omega) (by omega) hlt,
      Checked.ok_bind, hnext]

/-- The version is skipped where there is one, a serial number being no version. -/
theorem skipVersion_append (c : CertificateFields) (front rest : List UInt8) (hshort : c.versionField.length < 65536)
    (hstop : front.length + c.versionField.length + c.skippedFields.length ≤ stop) (hlt : stop < 2 ^ 32) :
    skipVersion (front ++ (c.versionField ++ (c.skippedFields ++ rest))) front.length stop = .ok (front ++ c.versionField).length := by
  have hserial : ∃ behind, c.skippedFields = 0x02 :: behind := ⟨_, rfl⟩
  obtain ⟨behind, hserial⟩ := hserial
  have hmore : front.length < stop := by
    rw [hserial, List.length_cons] at hstop
    omega
  unfold skipVersion
  rw [if_pos hmore]
  unfold CertificateFields.versionField at *
  cases hversion : c.version with
  | none =>
    dsimp only [Option.elim]
    rw [hserial, List.nil_append, List.cons_append, readAt_append, Checked.ok_bind, if_neg (by decide), List.append_nil]
  | some version =>
    rw [hversion] at hshort hstop
    dsimp only [Option.elim] at hshort hstop ⊢
    have hvalue := length_tlv 0xA0 version
    have hat : readAt (front ++ (tlv 0xA0 version ++ (c.skippedFields ++ rest))) front.length = (.ok 0xA0 : Checked Invalid UInt8) :=
      readAt_append _ _ _
    rw [hat, Checked.ok_bind, if_pos rfl, skipTlv_append front 0xA0 _ (by omega) (by omega) hlt]

theorem length_header_le (tag : UInt8) (n : ℕ) : (header tag n).length ≤ 4 := by
  unfold header lengthOctets
  split_ifs <;> simp only [List.length_cons, List.length_nil, length_be] <;> omega

section Steps

variable (c : Certificate)

theorem length_beforeKey : c.beforeKey.length = c.outerHeader.length + (c.tbsHeader.length + (c.versionField.length + c.skippedFields.length)) := by
  unfold CertificateFields.beforeKey
  rw [List.length_append, List.length_append, List.length_append]

/-- Where the tbsCertificate ends. -/
def tbsEnd : ℕ := c.beforeKey.length + (c.spki.length + c.extensions.length)

theorem tbsEnd_eq : tbsEnd c = (c.outerHeader ++ c.tbsHeader).length + c.tbsCertificate.length := by
  have htbs := c.length_tbs
  unfold tbsEnd
  rw [length_beforeKey, List.length_append]
  omega

theorem tbsEnd_le : tbsEnd c + c.signed.length = c.encoded.length := by
  rw [tbsEnd_eq, c.length_encoded, c.length_content, List.length_append]
  omega

theorem length_encoded_lt : c.encoded.length < 2 ^ 32 := by
  have hshort := c.length_lt
  have hhead : c.outerHeader.length ≤ 4 := length_header_le 0x30 _
  rw [c.length_encoded]
  omega

theorem tbsEnd_lt : tbsEnd c < 2 ^ 32 := by
  have hle := tbsEnd_le c
  have hlt := length_encoded_lt c
  omega

theorem length_tbs_lt : c.tbsCertificate.length < 65536 := by
  have hshort := c.length_lt
  have hcontent := c.length_content
  omega

theorem read_outer : readTlv c.encoded 0 c.encoded.length 0x30 = .ok (c.content.length, c.outerHeader.length) := by
  have hfits : ([] : List UInt8).length + (tlv 0x30 c.content).length ≤ c.encoded.length := Nat.le_of_eq (Nat.zero_add _)
  have hread := readTlv_append [] [] c.length_lt hfits (length_encoded_lt c)
  rwa [List.nil_append, List.append_nil] at hread

theorem read_tbs : readTlv c.encoded c.outerHeader.length c.encoded.length 0x30 = .ok (c.tbsCertificate.length, (c.outerHeader ++ c.tbsHeader).length) := by
  have hend := tbsEnd_le c
  have htlv : (tlv 0x30 c.tbsCertificate).length = c.tbsHeader.length + c.tbsCertificate.length := length_tlv 0x30 _
  rw [tbsEnd_eq, List.length_append] at hend
  exact readTlv_append c.outerHeader c.signed (length_tbs_lt c) (by omega) (length_encoded_lt c)

theorem skip_version : skipVersion c.encoded (c.outerHeader ++ c.tbsHeader).length (tbsEnd c) = .ok (c.outerHeader ++ c.tbsHeader ++ c.versionField).length := by
  have hshort := length_tbs_lt c
  have htbs := c.length_tbs
  have hskip := skipVersion_append c.toCertificateFields (c.outerHeader ++ c.tbsHeader) (c.spki ++ (c.extensions ++ c.signed)) (by omega)
    (by rw [tbsEnd_eq]; omega) (tbsEnd_lt c)
  rwa [List.append_assoc, ← c.encoded_fields] at hskip

theorem skip_fields : skipFields c.encoded (tbsEnd c) 5 (c.outerHeader ++ c.tbsHeader ++ c.versionField).length = .ok c.beforeKey.length := by
  have hshort := length_tbs_lt c
  have htbs := c.length_tbs
  have hfields : (c.skipped.flatMap fun field => tlv field.1 field.2) = c.skippedFields := rfl
  have hcount : c.skipped.length = 5 := rfl
  have hskip := skipFields_append (c.outerHeader ++ c.tbsHeader ++ c.versionField) c.skipped (c.spki ++ (c.extensions ++ c.signed))
    (by rw [hfields]; omega) (by rw [hfields, tbsEnd_eq, List.length_append]; omega) (tbsEnd_lt c)
  have hbefore : c.outerHeader ++ c.tbsHeader ++ c.versionField ++ c.skippedFields = c.beforeKey := by
    unfold CertificateFields.beforeKey
    simp only [List.append_assoc]
  rw [hfields, hcount, hbefore, List.append_assoc, List.append_assoc, ← c.encoded_fields] at hskip
  exact hskip

theorem read_key : readTlv c.encoded c.beforeKey.length (tbsEnd c) 0x30 =
    .ok (c.subjectPublicKeyInfo.length, (c.beforeKey ++ header 0x30 c.subjectPublicKeyInfo.length).length) := by
  have hshort := length_tbs_lt c
  have htbs := c.length_tbs
  have hkey : c.spki.length = (header 0x30 c.subjectPublicKeyInfo.length).length + c.subjectPublicKeyInfo.length := length_tlv 0x30 _
  have hread := readTlv_append c.beforeKey (c.extensions ++ c.signed) (show c.subjectPublicKeyInfo.length < 65536 by omega)
    (show c.beforeKey.length + (tlv 0x30 c.subjectPublicKeyInfo).length ≤ tbsEnd c by unfold tbsEnd CertificateFields.spki; omega) (tbsEnd_lt c)
  have hencoded : c.beforeKey ++ (tlv 0x30 c.subjectPublicKeyInfo ++ (c.extensions ++ c.signed)) = c.encoded := c.encoded_key.symm
  rwa [hencoded] at hread

/-- The key of an encoded certificate is found where it was put. -/
theorem extractSpki_encoded : extractSpkiFromCertificate c.encoded = .ok (c.beforeKey.length, c.spki.length) := by
  have hlt := tbsEnd_lt c
  have hkey : c.spki.length = (header 0x30 c.subjectPublicKeyInfo.length).length + c.subjectPublicKeyInfo.length := length_tlv 0x30 _
  have hend : tbsEnd c = c.beforeKey.length + (c.spki.length + c.extensions.length) := rfl
  unfold extractSpkiFromCertificate
  rw [read_outer, Checked.ok_bind]
  dsimp only
  rw [read_tbs, Checked.ok_bind]
  dsimp only
  rw [← tbsEnd_eq, skip_version, Checked.ok_bind, skip_fields, Checked.ok_bind, read_key, Checked.ok_bind, List.length_append]
  dsimp only
  rw [sub_of_le (by omega), Checked.ok_bind, ulong_of_lt (by omega)]
  congr 2
  omega

end Steps

end Encoded

/-- The key of every encoded certificate is found where it was put, and of no bytes is anything
found or read outside them. -/
theorem spki_extracted (c : Certificate) (data : List UInt8) (hlt : data.length < 2 ^ 32) :
    (c.encoded = c.beforeKey ++ (c.spki ++ (c.extensions ++ c.signed)) ∧
      extractSpkiFromCertificate c.encoded = .ok (c.beforeKey.length, c.spki.length)) ∧
    extractSpkiFromCertificate data ≠ .fault ∧
    ∀ start len, extractSpkiFromCertificate data = .ok (start, len) →
      start + len ≤ data.length ∧ IsField 0x30 ((data.drop start).take len) := by
  have hmeets := meets_iff.1 (extractSpki_meets hlt)
  exact ⟨⟨c.encoded_key, extractSpki_encoded c⟩, hmeets.1, fun start len h => hmeets.2 (start, len) h⟩

/-- A certificate whose fields are empty, but for a serial number of one byte. -/
def emptyCertificate : Certificate := ⟨⟨none, [1], [], [], [], [], [], [], []⟩, by decide⟩

theorem spki_extracted_empty : extractSpkiFromCertificate emptyCertificate.encoded = .ok (15, 2) ∧ extractSpkiFromCertificate [0x30, 0x82, 1] ≠ .fault :=
  have h := spki_extracted emptyCertificate [0x30, 0x82, 1] (by decide)
  ⟨h.1.2, h.2.1⟩

end Der

end BlorgFS.Tls
