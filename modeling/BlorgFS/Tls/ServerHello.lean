import BlorgFS.Tls.Der

/-! The ServerHello, `BlorgTlsParseServerHello`: a random, a session id of any length, the cipher
suite and a list of extensions, two of which are looked for. Positions advance by lengths that the
message gives. -/

namespace BlorgFS.Tls

open Lib Checked

/-! ### The parser -/

/-- `TLS_HANDSHAKE_RANDOM_LEN`. -/
def randomLen : ℕ := 32

/-- `TLS_ECC_PUBKEY_LEN`. -/
def eccPubkeyLen : ℕ := 65

/-- `TLS_CIPHER_SUITE_AES_128_GCM_SHA256`. -/
def cipherSuite : ℕ := 0x1301

/-- `TLS_EXT_SUPPORTED_VERSIONS`. -/
def extSupportedVersions : ℕ := 0x002B

/-- `TLS_EXT_KEY_SHARE`. -/
def extKeyShare : ℕ := 0x0033

/-- `TLS_GROUP_SECP256R1`. -/
def groupSecp256r1 : ℕ := 0x0017

/-- `TLS_VERSION_1_3`. -/
def version13 : ℕ := 0x0304

/-- `foundVersion`, `foundKeyShare` and `ServerPublicKeyOut`. -/
structure Found where
  version : Bool
  keyShare : Bool
  publicKey : List UInt8
  deriving DecidableEq, Repr

section Parser

variable (message : List UInt8)

/-- `TlsGetUint16`. -/
def getUint16 (i : ℕ) : Checked Invalid ℕ := readBe message 2 i 0

/-- What is done for a key_share of the right length. -/
def parseKeyShare (offset : ℕ) (s : Found) : Checked Invalid Found := do
  let group ← getUint16 message offset
  if group ≠ groupSecp256r1 then .error .invalidParameter
  else do
    let length ← getUint16 message (offset + 2)
    if length ≠ eccPubkeyLen then .error .invalidParameter
    else do
      let point ← readSlice message (offset + 4) eccPubkeyLen
      let first ← readAt point 0
      if first ≠ 0x04 then .error .invalidParameter else .ok { s with keyShare := true, publicKey := point }

/-- What is done for one extension, whose content is at `offset`. -/
def parseExtension (offset extType extLen : ℕ) (s : Found) : Checked Invalid Found :=
  if extType = extSupportedVersions then
    if extLen ≠ 2 then .error .invalidParameter
    else do
      let version ← getUint16 message offset
      if version ≠ version13 then .error .invalidParameter else .ok { s with version := true }
  else if extType = extKeyShare then
    if extLen ≠ 2 + 2 + eccPubkeyLen then .error .invalidParameter else parseKeyShare message offset s
  else .ok s

/-- The loop over the extensions, in so many turns. -/
def parseExtensions (extEnd : ℕ) : ℕ → ℕ → Found → Checked Invalid Found
  | 0, _, _ => .fault
  | turns + 1, offset, s =>
    if offset + 4 ≤ extEnd then do
      let extType ← getUint16 message offset
      let extLen ← getUint16 message (offset + 2)
      let offset := offset + 4
      if offset + extLen > extEnd then .error .invalidParameter
      else do
        let s ← parseExtension message offset extType extLen s
        parseExtensions extEnd turns (offset + extLen) s
    else .ok s

/-- The part from the cipher suite on. -/
def parseSelection (offset : ℕ) : Checked Invalid Found :=
  if offset + 2 > message.length then .error .invalidParameter
  else do
    let suite ← getUint16 message offset
    if suite ≠ cipherSuite then .error .invalidParameter
    else
      let offset := offset + 2 + 1
      if offset + 2 > message.length then .error .invalidParameter
      else do
        let extensionsLen ← getUint16 message offset
        let offset := offset + 2
        if offset + extensionsLen > message.length then .error .invalidParameter
        else parseExtensions message (offset + extensionsLen) (extensionsLen + 1) offset ⟨false, false, []⟩

/-- `BlorgTlsParseServerHello`: the server's random and its public point. -/
def parseServerHello : Checked Invalid (List UInt8 × List UInt8) :=
  if message.length < 2 + randomLen + 1 + 2 + 1 + 2 then .error .invalidParameter
  else do
    let random ← readSlice message 2 randomLen
    let offset := 2 + randomLen
    let sessionIdLen ← readAt message offset
    let offset := offset + 1
    if offset + sessionIdLen.toNat > message.length then .error .invalidParameter
    else do
      let s ← parseSelection message (offset + sessionIdLen.toNat)
      if !s.version || !s.keyShare then .error .invalidParameter else .ok (random, s.publicKey)

end Parser

/-! ### Messages as they are encoded -/

/-- An extension: a type and a content, each in two bytes but for the content itself. -/
structure Extension where
  type : ℕ
  content : List UInt8
  type_lt : type < 65536
  length_lt : content.length < 65536

def Extension.encoded (e : Extension) : List UInt8 := be 2 e.type ++ (be 2 e.content.length ++ e.content)

/-- The content of a key_share that offers a point. -/
def keyShareOf (point : List UInt8) : List UInt8 := be 2 groupSecp256r1 ++ (be 2 eccPubkeyLen ++ point)

/-- An uncompressed point. -/
def IsPoint (point : List UInt8) : Prop := point.length = eccPubkeyLen ∧ point.head? = some 0x04

instance (point : List UInt8) : Decidable (IsPoint point) := inferInstanceAs (Decidable (_ ∧ _))

/-- What one extension adds to what is found. -/
def Found.note (s : Found) (e : Extension) : Except Invalid Found :=
  if e.type = extSupportedVersions then
    if e.content = be 2 version13 then .ok { s with version := true } else .error .invalidParameter
  else if e.type = extKeyShare then
    if e.content = keyShareOf (e.content.drop 4) ∧ IsPoint (e.content.drop 4) then .ok { s with keyShare := true, publicKey := e.content.drop 4 }
    else .error .invalidParameter
  else .ok s

def encodeExtensions (extensions : List Extension) : List UInt8 := extensions.flatMap Extension.encoded

/-- A ServerHello up to the extensions. -/
def helloHead (version random sessionId : List UInt8) (compression : UInt8) (extensionsLen : ℕ) : List UInt8 :=
  version ++ (random ++ (UInt8.ofNat sessionId.length :: (sessionId ++ (be 2 cipherSuite ++ (compression :: be 2 extensionsLen)))))

/-- A ServerHello with one supported_versions and one key_share, both good, among others. -/
structure Hello where
  version : List UInt8
  random : List UInt8
  sessionId : List UInt8
  compression : UInt8
  point : List UInt8
  extensions : List Extension
  length_version : version.length = 2
  length_random : random.length = randomLen
  length_sessionId : sessionId.length < 256
  isPoint : IsPoint point
  one_version : (extensions.filter (·.type = extSupportedVersions)).map (·.content) = [be 2 version13]
  one_keyShare : (extensions.filter (·.type = extKeyShare)).map (·.content) = [keyShareOf point]
  length_extensions : (encodeExtensions extensions).length < 65536

def Hello.encoded (h : Hello) : List UInt8 :=
  helloHead h.version h.random h.sessionId h.compression (encodeExtensions h.extensions).length ++ encodeExtensions h.extensions

/-! ### One extension -/

theorem getUint16_append (front bytes rest : List UInt8) (h : bytes.length = 2) : getUint16 (front ++ (bytes ++ rest)) front.length = .ok (ofBe bytes) := by
  unfold getUint16
  rw [← h, readBe_append]

theorem length_keyShareOf (point : List UInt8) : (keyShareOf point).length = 4 + point.length := by
  unfold keyShareOf
  rw [List.length_append, List.length_append, length_be, length_be]
  omega

theorem drop_keyShareOf (point : List UInt8) : (keyShareOf point).drop 4 = point := rfl

/-- A list is as long as what it is split into. -/
theorem exists_split {bytes : List UInt8} {n : ℕ} (h : n ≤ bytes.length) : ∃ first rest, bytes = first ++ rest ∧ first.length = n :=
  ⟨bytes.take n, bytes.drop n, (List.take_append_drop n bytes).symm, List.length_take_of_le h⟩

theorem parseKeyShare_append (front content rest : List UInt8) (h : content.length = 2 + 2 + eccPubkeyLen) (s : Found) :
    parseKeyShare (front ++ (content ++ rest)) front.length s =
      if content = keyShareOf (content.drop 4) ∧ IsPoint (content.drop 4) then .ok { s with keyShare := true, publicKey := content.drop 4 }
      else .error .invalidParameter := by
  obtain ⟨group, behind, rfl, hgroup⟩ := exists_split (show 2 ≤ content.length by rw [h]; decide)
  rw [List.length_append, hgroup] at h
  obtain ⟨length, point, rfl, hlength⟩ := exists_split (show 2 ≤ behind.length by unfold eccPubkeyLen at h; omega)
  rw [List.length_append, hlength] at h
  have hpoint : point.length = eccPubkeyLen := by omega
  have hdrop : (group ++ (length ++ point)).drop 4 = point := by
    rw [← List.append_assoc]
    exact List.drop_left' (by rw [List.length_append, hgroup, hlength])
  have hread : getUint16 (front ++ (group ++ (length ++ point) ++ rest)) front.length = .ok (ofBe group) := by
    rw [List.append_assoc]
    exact getUint16_append _ _ _ hgroup
  have hreadLength : getUint16 (front ++ (group ++ (length ++ point) ++ rest)) (front.length + 2) = .ok (ofBe length) := by
    have hget := getUint16_append (front ++ group) length (point ++ rest) hlength
    rw [List.append_assoc, List.length_append, hgroup] at hget
    rwa [List.append_assoc, List.append_assoc]
  have hreadPoint : readSlice (front ++ (group ++ (length ++ point) ++ rest)) (front.length + 4) eccPubkeyLen = (.ok point : Checked Invalid _) := by
    have hslice := readSlice_append (ε := Invalid) (front ++ (group ++ length)) point rest
    rw [List.append_assoc, List.append_assoc, List.length_append, List.length_append, hgroup, hlength, hpoint] at hslice
    rwa [List.append_assoc, List.append_assoc]
  have hgroupIff := ofBe_eq_iff (show groupSecp256r1 < 256 ^ group.length by rw [hgroup]; decide)
  have hlengthIff := ofBe_eq_iff (show eccPubkeyLen < 256 ^ length.length by rw [hlength]; decide)
  rw [hgroup] at hgroupIff
  rw [hlength] at hlengthIff
  have hkeyShare : group ++ (length ++ point) = keyShareOf point ↔ ofBe group = groupSecp256r1 ∧ ofBe length = eccPubkeyLen := by
    unfold keyShareOf
    rw [hgroupIff, hlengthIff]
    constructor
    · intro heq
      obtain ⟨hfirst, hrest⟩ := List.append_inj heq (by rw [hgroup, length_be])
      exact ⟨hfirst, (List.append_inj hrest (by rw [hlength, length_be])).1⟩
    · rintro ⟨hfirst, hsecond⟩
      rw [hfirst, hsecond]
  unfold parseKeyShare
  rw [hdrop, hread, Checked.ok_bind, hreadLength]
  by_cases hgood : ofBe group = groupSecp256r1
  · by_cases hlong : ofBe length = eccPubkeyLen
    · cases point with
      | nil => exact absurd hpoint (by decide)
      | cons first tail =>
        have hfirst : readAt (first :: tail) 0 = (.ok first : Checked Invalid UInt8) := readAt_append [] tail first
        rw [if_neg (not_not.2 hgood), Checked.ok_bind, if_neg (not_not.2 hlong), hreadPoint, Checked.ok_bind, hfirst, Checked.ok_bind]
        by_cases hcompressed : first = 0x04
        · rw [if_neg (not_not.2 hcompressed), if_pos ⟨hkeyShare.2 ⟨hgood, hlong⟩, hpoint, congrArg some hcompressed⟩]
        · rw [if_pos hcompressed, if_neg fun hall => hcompressed (Option.some.inj hall.2.2)]
    · rw [if_neg (not_not.2 hgood), Checked.ok_bind, if_pos hlong, if_neg fun hall => hlong (hkeyShare.1 hall.1).2]
  · rw [if_pos hgood, if_neg fun hall => hgood (hkeyShare.1 hall.1).1]

/-- What is done for an extension depends on its type and content only. -/
theorem parseExtension_append (front rest : List UInt8) (e : Extension) (s : Found) :
    parseExtension (front ++ (e.content ++ rest)) front.length e.type e.content.length s = Checked.ofExcept (s.note e) := by
  unfold parseExtension Found.note
  split_ifs with hversions hlength hgood hgood hkey hlength hgood hgood
  · have hlong := congrArg List.length hgood
    rw [length_be] at hlong
    exact absurd hlong hlength
  · rfl
  · rw [getUint16_append _ _ _ (not_not.1 hlength), Checked.ok_bind, hgood, ofBe_be_of_lt (by decide), if_neg (not_not.2 rfl)]
    rfl
  · have hne : ofBe e.content ≠ version13 := by
      rw [ne_eq, ofBe_eq_iff (by rw [not_not.1 hlength]; decide), not_not.1 hlength]
      exact hgood
    rw [getUint16_append _ _ _ (not_not.1 hlength), Checked.ok_bind, if_pos hne]
    rfl
  · have hlong := congrArg List.length hgood.1
    rw [length_keyShareOf, hgood.2.1] at hlong
    exact absurd hlong hlength
  · rfl
  · rw [parseKeyShare_append _ _ _ (not_not.1 hlength), if_pos hgood]
    rfl
  · rw [parseKeyShare_append _ _ _ (not_not.1 hlength), if_neg hgood]
    rfl
  · rfl

/-! ### The extensions -/

theorem length_encoded_extension (e : Extension) : e.encoded.length = 4 + e.content.length := by
  unfold Extension.encoded
  rw [List.length_append, List.length_append, length_be, length_be]
  omega

theorem parseExtensions_done {message : List UInt8} {extEnd turns offset : ℕ} (s : Found) (h : extEnd < offset + 4) :
    parseExtensions message extEnd (turns + 1) offset s = .ok s := if_neg (Nat.not_le_of_lt h)

/-- A turn of the loop that meets an encoded extension. -/
theorem parseExtensions_step (front rest : List UInt8) (e : Extension) {extEnd turns : ℕ} (s : Found) (h : front.length + e.encoded.length ≤ extEnd) :
    parseExtensions (front ++ (e.encoded ++ rest)) extEnd (turns + 1) front.length s =
      Checked.ofExcept (s.note e) >>= fun s => parseExtensions (front ++ (e.encoded ++ rest)) extEnd turns (front ++ e.encoded).length s := by
  have hlength := length_encoded_extension e
  have hmessage : front ++ (e.encoded ++ rest) = front ++ (be 2 e.type ++ (be 2 e.content.length ++ (e.content ++ rest))) := by
    unfold Extension.encoded
    simp only [List.append_assoc]
  have htype : getUint16 (front ++ (e.encoded ++ rest)) front.length = .ok e.type := by
    rw [hmessage, getUint16_append _ _ _ (length_be 2 _), ofBe_be_of_lt e.type_lt]
  have hlen : getUint16 (front ++ (e.encoded ++ rest)) (front.length + 2) = .ok e.content.length := by
    have hget := getUint16_append (front ++ be 2 e.type) (be 2 e.content.length) (e.content ++ rest) (length_be 2 _)
    rw [List.append_assoc, List.length_append, length_be, ofBe_be_of_lt e.length_lt] at hget
    rw [hmessage, hget]
  have hnote : parseExtension (front ++ (e.encoded ++ rest)) (front.length + 4) e.type e.content.length s = Checked.ofExcept (s.note e) := by
    have hparse := parseExtension_append (front ++ (be 2 e.type ++ be 2 e.content.length)) rest e s
    rw [List.append_assoc, List.append_assoc, List.length_append, List.length_append, length_be, length_be] at hparse
    rw [hmessage, hparse]
  rw [parseExtensions, if_pos (by omega), htype, Checked.ok_bind, hlen, Checked.ok_bind]
  dsimp only
  rw [if_neg (by omega), hnote, List.length_append, hlength, Nat.add_assoc]

/-- Encoded extensions are noted one after another. -/
theorem parseExtensions_encoded (front rest : List UInt8) (extensions : List Extension) {turns : ℕ} (s : Found)
    (h : (encodeExtensions extensions).length < turns) :
    parseExtensions (front ++ (encodeExtensions extensions ++ rest)) (front.length + (encodeExtensions extensions).length) turns front.length s =
      Checked.ofExcept (extensions.foldlM Found.note s) := by
  induction extensions generalizing front turns s with
  | nil =>
    obtain ⟨turns, rfl⟩ : ∃ k, turns = k + 1 := ⟨turns - 1, by omega⟩
    exact parseExtensions_done s (Nat.lt_add_of_pos_right (by decide))
  | cons e extensions ih =>
    have hcons : encodeExtensions (e :: extensions) = e.encoded ++ encodeExtensions extensions := List.flatMap_cons
    rw [hcons, List.length_append] at h ⊢
    have hlength := length_encoded_extension e
    obtain ⟨turns, rfl⟩ : ∃ k, turns = k + 1 := ⟨turns - 1, by omega⟩
    rw [List.append_assoc, parseExtensions_step front _ e s (by omega), List.foldlM_cons, Checked.ofExcept_bind]
    refine congrArg _ (funext fun s => ?_)
    have hnext := ih (front ++ e.encoded) s (show (encodeExtensions extensions).length < turns by omega)
    rw [List.append_assoc, List.length_append, Nat.add_assoc] at hnext
    rw [List.length_append, hnext]

/-- Whatever bytes the extensions are, they are read as extensions one after another, within their
bounds, with fewer than four bytes left over. -/
theorem parseExtensions_meets (front area rest : List UInt8) {turns : ℕ} (s : Found) (h : area.length < turns) :
    (parseExtensions (front ++ (area ++ rest)) (front.length + area.length) turns front.length s).Meets fun found =>
      ∃ extensions slack, area = encodeExtensions extensions ++ slack ∧ slack.length < 4 ∧ extensions.foldlM Found.note s = .ok found := by
  induction turns generalizing front area s with
  | zero => exact absurd h (Nat.not_lt_zero _)
  | succ turns ih =>
    by_cases hdone : area.length < 4
    · rw [parseExtensions_done s (by omega)]
      exact ⟨[], area, rfl, hdone, rfl⟩
    · obtain ⟨type, behind, rfl, htype⟩ := exists_split (show 2 ≤ area.length by omega)
      rw [List.length_append, htype] at hdone h
      obtain ⟨length, more, rfl, hlength⟩ := exists_split (show 2 ≤ behind.length by omega)
      rw [List.length_append, hlength] at hdone h
      by_cases hfits : ofBe length ≤ more.length
      · obtain ⟨content, area, rfl, hcontent⟩ := exists_split hfits
        have htypeLt := ofBe_lt type
        have hlengthLt := ofBe_lt length
        rw [htype] at htypeLt
        rw [hlength] at hlengthLt
        let e : Extension := ⟨ofBe type, content, htypeLt, by rw [hcontent]; exact hlengthLt⟩
        have hencoded : type ++ (length ++ (content ++ area)) = e.encoded ++ area := by
          have htypeBe := be_ofBe type
          have hlengthBe := be_ofBe length
          rw [htype] at htypeBe
          rw [hlength, ← hcontent] at hlengthBe
          change _ = be 2 (ofBe type) ++ (be 2 content.length ++ content) ++ area
          rw [htypeBe, hlengthBe]
          simp only [List.append_assoc]
        have hlong := length_encoded_extension e
        rw [hencoded, List.append_assoc, parseExtensions_step front _ e s (by rw [List.length_append]; omega)]
        cases hnote : s.note e with
        | error e => trivial
        | ok s' =>
          have hnext := ih (front ++ e.encoded) area s' (by rw [List.length_append] at h; omega)
          rw [List.append_assoc, List.length_append, Nat.add_assoc] at hnext
          rw [Checked.ofExcept_ok, Checked.ok_bind, List.length_append, List.length_append]
          refine hnext.mono fun found hfound => ?_
          obtain ⟨extensions, slack, harea, hslack, hfold⟩ := hfound
          refine ⟨e :: extensions, slack, ?_, hslack, ?_⟩
          · rw [harea, ← List.append_assoc]
            rfl
          · rw [List.foldlM_cons, hnote]
            exact hfold
      · have hreadType : getUint16 (front ++ (type ++ (length ++ more) ++ rest)) front.length = .ok (ofBe type) := by
          rw [List.append_assoc, getUint16_append _ _ _ htype]
        have hreadLength : getUint16 (front ++ (type ++ (length ++ more) ++ rest)) (front.length + 2) = .ok (ofBe length) := by
          have hget := getUint16_append (front ++ type) length (more ++ rest) hlength
          rw [List.append_assoc, List.length_append, htype] at hget
          rwa [List.append_assoc, List.append_assoc]
        rw [parseExtensions, if_pos (by rw [List.length_append, List.length_append]; omega), hreadType, Checked.ok_bind, hreadLength, Checked.ok_bind]
        dsimp only
        rw [if_pos (by rw [List.length_append, List.length_append]; omega)]
        trivial

/-! ### What is found -/

/-- What is found is among the extensions: the version, and a point as the last key_share. -/
def Noted (extensions : List Extension) (s : Found) : Prop :=
  (s.version = true → ∃ e ∈ extensions, e.type = extSupportedVersions ∧ e.content = be 2 version13) ∧
    (s.keyShare = true → IsPoint s.publicKey ∧ ∃ e ∈ extensions, e.type = extKeyShare ∧ e.content = keyShareOf s.publicKey)

theorem noted_concat {extensions : List Extension} {s found : Found} {e : Extension} (h : Noted extensions s) (hnote : s.note e = .ok found) :
    Noted (extensions ++ [e]) found := by
  have hversion : s.version = true → ∃ e' ∈ extensions ++ [e], e'.type = extSupportedVersions ∧ e'.content = be 2 version13 := by
    intro hs
    obtain ⟨e', he', hgood⟩ := h.1 hs
    exact ⟨e', List.mem_append_left _ he', hgood⟩
  have hkeyShare : s.keyShare = true → IsPoint s.publicKey ∧ ∃ e' ∈ extensions ++ [e], e'.type = extKeyShare ∧ e'.content = keyShareOf s.publicKey := by
    intro hs
    obtain ⟨hpoint, e', he', hgood⟩ := h.2 hs
    exact ⟨hpoint, e', List.mem_append_left _ he', hgood⟩
  have hlast : e ∈ extensions ++ [e] := List.mem_append_right _ List.mem_cons_self
  unfold Found.note at hnote
  split_ifs at hnote with hversions hgood hkey hgood
  · cases hnote
    exact ⟨fun _ => ⟨e, hlast, hversions, hgood⟩, hkeyShare⟩
  · cases hnote
    exact ⟨hversion, fun _ => ⟨hgood.2, e, hlast, hkey, hgood.1⟩⟩
  · cases hnote
    exact ⟨hversion, hkeyShare⟩

theorem noted_foldlM {before extensions : List Extension} {s found : Found} (h : Noted before s) (hfold : extensions.foldlM Found.note s = .ok found) :
    Noted (before ++ extensions) found := by
  induction extensions generalizing before s with
  | nil =>
    cases hfold
    rw [List.append_nil]
    exact h
  | cons e extensions ih =>
    rw [List.foldlM_cons] at hfold
    cases hnote : s.note e with
    | error error => rw [hnote] at hfold; exact nomatch hfold
    | ok s' =>
      rw [hnote] at hfold
      have hrest := ih (noted_concat h hnote) hfold
      rwa [List.append_assoc, List.singleton_append] at hrest

/-- Good extensions are noted without an error, wherever the two looked for are. -/
theorem foldlM_good {extensions : List Extension} {point : List UInt8} (s : Found) (hpoint : IsPoint point)
    (hversions : ∀ e ∈ extensions, e.type = extSupportedVersions → e.content = be 2 version13)
    (hkeyShares : ∀ e ∈ extensions, e.type = extKeyShare → e.content = keyShareOf point) :
    extensions.foldlM Found.note s =
      .ok ⟨s.version || extensions.any (·.type = extSupportedVersions), s.keyShare || extensions.any (·.type = extKeyShare),
        if extensions.any (·.type = extKeyShare) then point else s.publicKey⟩ := by
  induction extensions generalizing s with
  | nil =>
    rw [List.any_nil, List.any_nil, Bool.or_false, Bool.or_false, if_neg Bool.false_ne_true]
    rfl
  | cons e extensions ih =>
    have hrest := fun s => ih s (fun e he => hversions e (List.mem_cons_of_mem _ he)) fun e he => hkeyShares e (List.mem_cons_of_mem _ he)
    rw [List.foldlM_cons, List.any_cons, List.any_cons]
    unfold Found.note
    by_cases hversion : e.type = extSupportedVersions
    · have hother : e.type ≠ extKeyShare := by
        rw [hversion]
        decide
      rw [if_pos hversion, if_pos (hversions e List.mem_cons_self hversion), decide_eq_true hversion, decide_eq_false hother]
      refine (hrest _).trans ?_
      rw [Bool.true_or, Bool.or_true, Bool.false_or]
    · rw [if_neg hversion, decide_eq_false hversion, Bool.false_or]
      by_cases hkeyShare : e.type = extKeyShare
      · have hcontent := hkeyShares e List.mem_cons_self hkeyShare
        rw [if_pos hkeyShare, hcontent, drop_keyShareOf, if_pos ⟨rfl, hpoint⟩, decide_eq_true hkeyShare]
        refine (hrest _).trans ?_
        dsimp only
        rw [Bool.true_or, Bool.or_true, if_pos rfl, ite_self]
      · rw [if_neg hkeyShare, decide_eq_false hkeyShare, Bool.false_or]
        exact hrest s

/-! ### The message -/

/-- What stands from the cipher suite on, up to the extensions. -/
def selectionHead (compression : UInt8) (extensionsLen : ℕ) : List UInt8 := be 2 cipherSuite ++ (compression :: be 2 extensionsLen)

theorem length_selectionHead (compression : UInt8) (extensionsLen : ℕ) : (selectionHead compression extensionsLen).length = 5 := by
  unfold selectionHead
  rw [List.length_append, List.length_cons, length_be, length_be]

theorem parseSelection_append (front : List UInt8) (compression : UInt8) (area rest : List UInt8) (harea : area.length < 65536) :
    let message := front ++ (selectionHead compression area.length ++ (area ++ rest))
    parseSelection message front.length =
      parseExtensions message ((front ++ selectionHead compression area.length).length + area.length) (area.length + 1)
        (front ++ selectionHead compression area.length).length ⟨false, false, []⟩ := by
  have hhead := length_selectionHead compression area.length
  have hlength : (front ++ (selectionHead compression area.length ++ (area ++ rest))).length = front.length + 5 + area.length + rest.length := by
    rw [List.length_append, List.length_append, List.length_append, hhead]
    omega
  have hsuite : getUint16 (front ++ (selectionHead compression area.length ++ (area ++ rest))) front.length = .ok cipherSuite := by
    unfold selectionHead
    rw [List.append_assoc, getUint16_append _ _ _ (length_be 2 _), ofBe_be_of_lt (by decide)]
  have hlen : getUint16 (front ++ (selectionHead compression area.length ++ (area ++ rest))) (front.length + 2 + 1) = .ok area.length := by
    have hget := getUint16_append (front ++ (be 2 cipherSuite ++ [compression])) (be 2 area.length) (area ++ rest) (length_be 2 _)
    rw [ofBe_be_of_lt harea, List.length_append, List.length_append, length_be] at hget
    unfold selectionHead
    rw [← Nat.add_assoc] at hget
    simp only [List.append_assoc, List.cons_append, List.nil_append] at hget ⊢
    exact hget
  dsimp only
  unfold parseSelection
  rw [if_neg (by omega), hsuite, Checked.ok_bind, if_neg (not_not.2 rfl)]
  dsimp only
  rw [if_neg (by omega), hlen, Checked.ok_bind, if_neg (by omega), List.length_append, hhead]

theorem parseSelection_meets (front tail : List UInt8) :
    (parseSelection (front ++ tail) front.length).Meets fun found =>
      ∃ compression extensions slack rest,
        tail = selectionHead compression (encodeExtensions extensions ++ slack).length ++ (encodeExtensions extensions ++ (slack ++ rest)) ∧
          slack.length < 4 ∧ Noted extensions found := by
  unfold parseSelection
  refine .unless fun hshort => ?_
  rw [List.length_append] at hshort
  obtain ⟨suite, behind, rfl, hsuiteLength⟩ := exists_split (show 2 ≤ tail.length by omega)
  rw [getUint16_append _ _ _ hsuiteLength, Checked.ok_bind]
  refine .unless fun hgood => .unless fun hlen => ?_
  have hiff := ofBe_eq_iff (show cipherSuite < 256 ^ suite.length by rw [hsuiteLength]; decide)
  rw [hsuiteLength] at hiff
  have hsuite := hiff.1 (not_not.1 hgood)
  rw [List.length_append, List.length_append, hsuiteLength] at hlen
  obtain ⟨first, behind, rfl, hfirst⟩ := exists_split (show 1 ≤ behind.length by omega)
  obtain ⟨compression, rfl⟩ := List.length_eq_one_iff.1 hfirst
  rw [List.length_append, hfirst] at hlen
  obtain ⟨length, more, rfl, hlength⟩ := exists_split (show 2 ≤ behind.length by omega)
  have hread : getUint16 (front ++ (suite ++ ([compression] ++ (length ++ more)))) (front.length + 2 + 1) = .ok (ofBe length) := by
    have hget := getUint16_append (front ++ (suite ++ [compression])) length more hlength
    rw [List.length_append, List.length_append, hsuiteLength, ← Nat.add_assoc] at hget
    simp only [List.append_assoc, List.cons_append, List.nil_append] at hget ⊢
    exact hget
  dsimp only
  rw [hread, Checked.ok_bind]
  refine .unless fun hfits => ?_
  simp only [List.length_append, hsuiteLength, hlength, List.length_singleton] at hfits
  obtain ⟨area, rest, rfl, harea⟩ := exists_split (show ofBe length ≤ more.length by omega)
  have hhead : suite ++ ([compression] ++ length) = selectionHead compression area.length := by
    have hbe := be_ofBe length
    rw [hlength, ← harea] at hbe
    unfold selectionHead
    rw [hsuite, hbe]
    rfl
  have hmessage : front ++ (suite ++ ([compression] ++ (length ++ (area ++ rest)))) = front ++ selectionHead compression area.length ++ (area ++ rest) := by
    rw [← hhead]
    simp only [List.append_assoc]
  have hoffset : front.length + 2 + 1 + 2 = (front ++ selectionHead compression area.length).length := by
    rw [List.length_append, length_selectionHead]
  have hmeets := parseExtensions_meets (front ++ selectionHead compression area.length) area rest ⟨false, false, []⟩ (Nat.lt_succ_self area.length)
  rw [hmessage, hoffset, ← harea]
  refine hmeets.mono fun found hfound => ?_
  obtain ⟨extensions, slack, hsplit, hslack, hfold⟩ := hfound
  have hnoted := noted_foldlM (show Noted [] _ from ⟨fun h => absurd h Bool.false_ne_true, fun h => absurd h Bool.false_ne_true⟩) hfold
  refine ⟨compression, extensions, slack, rest, ?_, hslack, hnoted⟩
  rw [← List.append_assoc (encodeExtensions extensions), ← hsplit, ← hhead]
  simp only [List.append_assoc]

/-- What stands in front of the cipher suite. -/
def beforeSuite (version random sessionId : List UInt8) : List UInt8 :=
  version ++ (random ++ (UInt8.ofNat sessionId.length :: sessionId))

theorem helloHead_eq (version random sessionId : List UInt8) (compression : UInt8) (extensionsLen : ℕ) :
    helloHead version random sessionId compression extensionsLen = beforeSuite version random sessionId ++ selectionHead compression extensionsLen := by
  unfold helloHead beforeSuite selectionHead
  simp only [List.append_assoc, List.cons_append]

/-- What the parser makes of a message once its session id is known. -/
theorem parseServerHello_append (version random sessionId tail : List UInt8) (hversion : version.length = 2) (hrandom : random.length = randomLen)
    (hsessionId : sessionId.length < 256) (hlength : 40 ≤ (beforeSuite version random sessionId ++ tail).length) :
    parseServerHello (beforeSuite version random sessionId ++ tail) =
      parseSelection (beforeSuite version random sessionId ++ tail) (beforeSuite version random sessionId).length >>= fun s =>
        if !s.version || !s.keyShare then .error .invalidParameter else .ok (random, s.publicKey) := by
  have hbyte : (UInt8.ofNat sessionId.length).toNat = sessionId.length := UInt8.toNat_ofNat_of_lt' hsessionId
  have hbefore : (beforeSuite version random sessionId).length = 2 + randomLen + 1 + sessionId.length := by
    unfold beforeSuite
    rw [List.length_append, List.length_append, List.length_cons, hversion, hrandom]
    omega
  have hreadRandom : readSlice (beforeSuite version random sessionId ++ tail) 2 randomLen = (.ok random : Checked Invalid _) := by
    have hslice := readSlice_append (ε := Invalid) version random ((UInt8.ofNat sessionId.length :: sessionId) ++ tail)
    rw [hversion, hrandom] at hslice
    unfold beforeSuite
    rw [List.append_assoc, List.append_assoc, hslice]
  have hreadLen : readAt (beforeSuite version random sessionId ++ tail) (2 + randomLen) = (.ok (UInt8.ofNat sessionId.length) : Checked Invalid _) := by
    have hread := readAt_append (ε := Invalid) (version ++ random) (sessionId ++ tail) (UInt8.ofNat sessionId.length)
    rw [List.length_append, hversion, hrandom, List.append_assoc] at hread
    unfold beforeSuite
    rw [List.append_assoc, List.append_assoc, List.cons_append, hread]
  have hfits : ¬ 2 + randomLen + 1 + sessionId.length > (beforeSuite version random sessionId ++ tail).length := by
    rw [List.length_append, hbefore]
    omega
  unfold parseServerHello
  rw [if_neg (by unfold randomLen; omega), hreadRandom, Checked.ok_bind]
  dsimp only
  rw [hreadLen, Checked.ok_bind, hbyte, if_neg hfits, hbefore]

/-- What an accepted message selects: the cipher suite, TLS 1.3 and a point, and where its random is. -/
def Selects (message random key : List UInt8) : Prop :=
  ∃ version sessionId compression extensions slack rest,
    version.length = 2 ∧ random.length = randomLen ∧ sessionId.length < 256 ∧ slack.length < 4 ∧
    message = helloHead version random sessionId compression (encodeExtensions extensions ++ slack).length ++ (encodeExtensions extensions ++ (slack ++ rest)) ∧
    (∃ e ∈ extensions, e.type = extSupportedVersions ∧ e.content = be 2 version13) ∧
    IsPoint key ∧ ∃ e ∈ extensions, e.type = extKeyShare ∧ e.content = keyShareOf key

theorem parseServerHello_meets (message : List UInt8) : (parseServerHello message).Meets fun r => Selects message r.1 r.2 := by
  by_cases hshort : message.length < 2 + randomLen + 1 + 2 + 1 + 2
  · unfold parseServerHello
    rw [if_pos hshort]
    trivial
  · unfold randomLen at hshort
    obtain ⟨version, behind, rfl, hversion⟩ := exists_split (show 2 ≤ message.length by omega)
    rw [List.length_append, hversion] at hshort
    obtain ⟨random, behind, rfl, hrandom⟩ := exists_split (show randomLen ≤ behind.length by unfold randomLen; omega)
    rw [List.length_append, hrandom] at hshort
    unfold randomLen at hshort
    obtain ⟨first, behind, rfl, hfirst⟩ := exists_split (show 1 ≤ behind.length by omega)
    obtain ⟨len, rfl⟩ := List.length_eq_one_iff.1 hfirst
    rw [List.length_append, hfirst] at hshort
    by_cases hfits : len.toNat ≤ behind.length
    · obtain ⟨sessionId, tail, rfl, hsessionId⟩ := exists_split hfits
      have hlt : sessionId.length < 256 := by
        rw [hsessionId]
        exact len.toNat_lt
      have hmessage : version ++ (random ++ ([len] ++ (sessionId ++ tail))) = beforeSuite version random sessionId ++ tail := by
        unfold beforeSuite
        rw [hsessionId, UInt8.ofNat_toNat]
        simp only [List.append_assoc, List.cons_append, List.nil_append]
      have hlength : 40 ≤ (beforeSuite version random sessionId ++ tail).length := by
        rw [← hmessage]
        simp only [List.length_append, hversion, hrandom, List.length_singleton] at hshort ⊢
        unfold randomLen
        omega
      rw [hmessage, parseServerHello_append version random sessionId tail hversion hrandom hlt hlength]
      refine (parseSelection_meets _ tail).bind fun found hfound => .unless fun hboth => ?_
      obtain ⟨compression, extensions, slack, rest, htail, hslack, hnoted⟩ := hfound
      have hfoundBoth : found.version = true ∧ found.keyShare = true := by
        rw [Bool.or_eq_true, not_or, Bool.not_eq_true', Bool.not_eq_true', Bool.not_eq_false, Bool.not_eq_false] at hboth
        exact hboth
      refine ⟨version, sessionId, compression, extensions, slack, rest, hversion, hrandom, hlt, hslack, ?_, hnoted.1 hfoundBoth.1, hnoted.2 hfoundBoth.2⟩
      rw [helloHead_eq, List.append_assoc, ← htail]
    · have hlen : (version ++ (random ++ ([len] ++ behind))).length = 2 + randomLen + 1 + behind.length := by
        simp only [List.length_append, hversion, hrandom, List.length_singleton]
        omega
      unfold parseServerHello
      refine .unless fun _ => (readSlice_meets (by omega)).bind fun _ _ => ?_
      have hread := readAt_append (ε := Invalid) (version ++ random) behind len
      rw [List.length_append, hversion, hrandom, List.append_assoc] at hread
      dsimp only
      rw [List.singleton_append, hread, Checked.ok_bind]
      rw [List.singleton_append] at hlen
      exact .unless fun hends => absurd hends (by omega)

/-! ### The reference encoding -/

theorem good_of_filter {extensions : List Extension} {type : ℕ} {content : List UInt8}
    (h : (extensions.filter (·.type = type)).map (·.content) = [content]) :
    (∀ e ∈ extensions, e.type = type → e.content = content) ∧ extensions.any (·.type = type) = true := by
  constructor
  · intro e he htype
    have hmem : e.content ∈ (extensions.filter (·.type = type)).map (·.content) :=
      List.mem_map_of_mem (List.mem_filter.2 ⟨he, decide_eq_true htype⟩)
    rw [h] at hmem
    exact List.mem_singleton.1 hmem
  · have hne : extensions.filter (·.type = type) ≠ [] := by
      intro hnil
      rw [hnil] at h
      exact nomatch h
    obtain ⟨e, he⟩ := List.exists_mem_of_ne_nil _ hne
    obtain ⟨hmem, htype⟩ := List.mem_filter.1 he
    exact List.any_eq_true.2 ⟨e, hmem, htype⟩

theorem parseServerHello_encoded (h : Hello) : parseServerHello h.encoded = .ok (h.random, h.point) := by
  obtain ⟨hversions, hversion⟩ := good_of_filter h.one_version
  obtain ⟨hkeyShares, hkeyShare⟩ := good_of_filter h.one_keyShare
  have hencoded : h.encoded = beforeSuite h.version h.random h.sessionId ++
      (selectionHead h.compression (encodeExtensions h.extensions).length ++ (encodeExtensions h.extensions ++ [])) := by
    unfold Hello.encoded
    rw [helloHead_eq, List.append_nil, List.append_assoc]
  have hlength : 40 ≤ h.encoded.length := by
    rw [hencoded, List.length_append, List.length_append, length_selectionHead]
    unfold beforeSuite
    rw [List.length_append, List.length_append, List.length_cons, h.length_version, h.length_random]
    unfold randomLen
    omega
  rw [hencoded] at hlength ⊢
  have hselection := parseSelection_append (beforeSuite h.version h.random h.sessionId) h.compression (encodeExtensions h.extensions) [] h.length_extensions
  have hextensions := parseExtensions_encoded (beforeSuite h.version h.random h.sessionId ++ selectionHead h.compression (encodeExtensions h.extensions).length)
    [] h.extensions ⟨false, false, []⟩ (Nat.lt_succ_self _)
  rw [List.append_assoc] at hextensions
  rw [parseServerHello_append _ _ _ _ h.length_version h.length_random h.length_sessionId hlength]
  dsimp only at hselection
  rw [hselection, hextensions, foldlM_good _ h.isPoint hversions hkeyShares, hversion, hkeyShare]
  rfl

/-- The parser stays within every message, accepts none but those that select what it asks for,
and takes random and point of every well-formed one. -/
theorem serverHello_parsed (message : List UInt8) (h : Hello) :
    parseServerHello message ≠ .fault ∧
    (∀ random key, parseServerHello message = .ok (random, key) → Selects message random key) ∧
    parseServerHello h.encoded = .ok (h.random, h.point) := by
  have hmeets := meets_iff.1 (parseServerHello_meets message)
  exact ⟨hmeets.1, fun random key hparse => hmeets.2 (random, key) hparse, parseServerHello_encoded h⟩

end BlorgFS.Tls
