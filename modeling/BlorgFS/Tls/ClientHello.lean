import BlorgFS.Lib.Filling
import BlorgFS.Tls.Offer
import BlorgFS.Tls.Signature

/-! How the ClientHello is built, `BlorgTlsBuildClientHello`: a head, extensions each of which is
put behind a test that it fits, and the lengths filled in at the end. The tests are in 32 bits. -/

namespace BlorgFS.Tls

open Lib Checked

/-! ### The builder -/

/-- What stands between the message's length and that of the extensions. -/
def putHead (random : List UInt8) (s : Filling UInt8) : Checked Invalid (Filling UInt8) := do
  let s ← s.put [0x03, 0x03]
  let s ← s.put random
  let s ← s.put [0x00]
  let s ← s.put (be 2 2)
  let s ← s.put (be 2 cipherSuite)
  s.put [0x01, 0x00]

/-- The name's extension. -/
def putName (name : List UInt8) (s : Filling UInt8) : Checked Invalid (Filling UInt8) :=
  let extContentLen := ulong (2 + 1 + 2 + name.length)
  if s.buffer.length < ulong (s.offset + 4 + extContentLen) then .error .invalidParameter
  else do
    let s ← s.put (be 2 extServerName)
    let s ← s.put (be 2 extContentLen)
    let s ← s.put (be 2 (ulong (1 + 2 + name.length)))
    let s ← s.put [0x00]
    let s ← s.put (be 2 name.length)
    s.put name

/-- The name's extension is left out where there is no name, or an empty one. -/
def putServerName (serverName : Option (List UInt8)) (s : Filling UInt8) : Checked Invalid (Filling UInt8) :=
  match serverName with
  | none => .ok s
  | some name => if 0 < name.length then putName name s else .ok s

def putSupportedGroups (s : Filling UInt8) : Checked Invalid (Filling UInt8) :=
  if s.buffer.length < ulong (s.offset + 8) then .error .invalidParameter
  else do
    let s ← s.put (be 2 extSupportedGroups)
    let s ← s.put (be 2 4)
    let s ← s.put (be 2 2)
    s.put (be 2 groupSecp256r1)

def putKeyShare (publicKey : List UInt8) (s : Filling UInt8) : Checked Invalid (Filling UInt8) :=
  let listContentLen := 2 + 2 + eccPubkeyLen
  let extContentLen := 2 + listContentLen
  if s.buffer.length < ulong (s.offset + 4 + extContentLen) then .error .invalidParameter
  else do
    let s ← s.put (be 2 extKeyShare)
    let s ← s.put (be 2 extContentLen)
    let s ← s.put (be 2 listContentLen)
    let s ← s.put (be 2 groupSecp256r1)
    let s ← s.put (be 2 eccPubkeyLen)
    s.put publicKey

/-- The last two extensions, behind one test. -/
def putVersionsAndAlgorithms (s : Filling UInt8) : Checked Invalid (Filling UInt8) :=
  if s.buffer.length < ulong (s.offset + 7 + 8) then .error .invalidParameter
  else do
    let s ← s.put (be 2 extSupportedVersions)
    let s ← s.put (be 2 3)
    let s ← s.put [2]
    let s ← s.put (be 2 version13)
    let s ← s.put (be 2 extSignatureAlgorithms)
    let s ← s.put (be 2 4)
    let s ← s.put (be 2 2)
    s.put (be 2 sigalgEcdsaSecp256r1Sha256)

def putExtensions (publicKey : List UInt8) (serverName : Option (List UInt8)) (s : Filling UInt8) : Checked Invalid (Filling UInt8) := do
  let s ← putServerName serverName s
  let s ← putSupportedGroups s
  let s ← putKeyShare publicKey s
  putVersionsAndAlgorithms s

/-- `BlorgTlsBuildClientHello`: the buffer and `MessageLenOut`. A missing name is `none`. -/
def buildClientHello (random publicKey : List UInt8) (serverName : Option (List UInt8)) (buffer : List UInt8) : Checked Invalid (List UInt8 × ℕ) :=
  if buffer.length < 4 then .error .invalidParameter
  else do
    let s ← (⟨buffer, 0⟩ : Filling UInt8).put [0x01]
    let lengthFieldOffset := s.offset
    let s := s.skip 3
    let bodyStart := s.offset
    if buffer.length < ulong (s.offset + 2 + randomLen + 1 + 2 + 2 + 1 + 1 + 2) then .error .invalidParameter
    else do
      let s ← putHead random s
      let extensionsLenOffset := s.offset
      let s := s.skip 2
      let extensionsStart := s.offset
      let s ← putExtensions publicKey serverName s
      let s ← s.patch extensionsLenOffset (be 2 (s.offset - extensionsStart))
      let s ← s.patch lengthFieldOffset (be 3 (s.offset - bodyStart))
      .ok (s.buffer, s.offset)

/-! ### What it is to build -/

/-- A name that is given and not empty is offered. -/
def offeredName : Option (List UInt8) → List Offered
  | none => []
  | some name => if 0 < name.length then [.serverName [(0, name)]] else []

/-- The offer of one suite, one group, one version and one algorithm. -/
def offer (random publicKey : List UInt8) (serverName : Option (List UInt8)) : Offer where
  random
  sessionId := []
  cipherSuites := [cipherSuite]
  extensions := offeredName serverName ++
    [.supportedGroups [groupSecp256r1], .keyShare [(groupSecp256r1, publicKey)], .supportedVersions [version13], .signatureAlgorithms [sigalgEcdsaSecp256r1Sha256]]

/-- What is built is the offer, and its message stands in the buffer with nothing behind it
touched; what is refused does not fit. -/
def Built (offered : Offer) (buffer : List UInt8) : Checked Invalid (List UInt8 × ℕ) → Prop
  | .fault => False
  | .error _ => buffer.length < offered.encoded.length
  | .ok (written, messageLen) => messageLen ≤ buffer.length ∧ written.length = buffer.length ∧ written.drop messageLen = buffer.drop messageLen ∧
      written.take messageLen = offered.encoded ∧ readOffer (written.take messageLen) = some offered

/-- The test of the name is passed because its sum starts again at zero. -/
def Wraps (serverName : Option (List UInt8)) (buffer : List UInt8) : Prop :=
  ∃ name, serverName = some name ∧ 2 ^ 32 ≤ 56 + name.length ∧ 47 ≤ buffer.length ∧ 56 + name.length - 2 ^ 32 ≤ buffer.length

/-! ### Tests and what they let through -/

/-- What comes of a test and of what is put behind it. -/
def extend (front room values : List UInt8) : Checked Invalid (Filling UInt8) :=
  if room.length < values.length then .error .invalidParameter else .ok (.of (front ++ values) (room.drop values.length))

section Extend

variable {front room values : List UInt8}

/-- A test for as many bytes as are put, without a wrap. -/
theorem test_put {n : ℕ} (hn : front.length + n = (front ++ values).length) (hlt : front.length + n < 2 ^ 32) :
    (if (Filling.of front room).buffer.length < ulong ((Filling.of front room).offset + n) then .error .invalidParameter
      else (Filling.of front room).put values : Checked Invalid _) = extend front room values := by
  have hbuffer : (Filling.of front room).buffer.length = front.length + room.length := List.length_append
  rw [List.length_append] at hn
  rw [hbuffer, Filling.of_offset, ulong_of_lt hlt, extend]
  by_cases h : room.length < values.length
  · rw [if_pos h, if_pos (by omega)]
  · rw [if_neg h, if_neg (by omega), Filling.put_of (by omega)]

/-- Two extensions that fit one behind the other fit together. -/
theorem extend_bind {f : Filling UInt8 → Checked Invalid (Filling UInt8)} (a b : List UInt8)
    (h : ∀ room', f (.of (front ++ a) room') = extend (front ++ a) room' b) : (extend front room a >>= f) = extend front room (a ++ b) := by
  unfold extend at *
  rw [List.length_append]
  by_cases ha : room.length < a.length
  · rw [if_pos ha, if_pos (by omega), error_bind]
  · rw [if_neg ha, ok_bind, h, List.length_drop, List.append_assoc, List.drop_drop]
    by_cases hb : room.length < a.length + b.length
    · rw [if_pos hb, if_pos (by omega)]
    · rw [if_neg hb, if_neg (by omega)]

end Extend

/-! ### The extensions -/

section Extensions

variable {front room random publicKey : List UInt8}

theorem encoded_name (name : List UInt8) : (Offered.serverName [(0, name)]).encoded =
    be 2 extServerName ++ (be 2 (2 + 1 + 2 + name.length) ++ (be 2 (1 + 2 + name.length) ++ ([0x00] ++ (be 2 name.length ++ name)))) := by
  have hlist : ([(0, name)] : List (ℕ × List UInt8)).flatMap (entry 1) = [0x00] ++ (be 2 name.length ++ name) := by
    rw [List.flatMap_singleton]
    rfl
  unfold Offered.encoded Offered.content Offered.type
  dsimp only
  rw [hlist]
  unfold vector
  simp only [List.length_append, length_be, List.length_singleton, Nat.add_assoc]

theorem encoded_keyShare (hkey : publicKey.length = eccPubkeyLen) : (Offered.keyShare [(groupSecp256r1, publicKey)]).encoded =
    be 2 extKeyShare ++ (be 2 (2 + (2 + 2 + eccPubkeyLen)) ++ (be 2 (2 + 2 + eccPubkeyLen) ++ (be 2 groupSecp256r1 ++ (be 2 eccPubkeyLen ++ publicKey)))) := by
  have hlist : [(groupSecp256r1, publicKey)].flatMap (entry 2) = be 2 groupSecp256r1 ++ (be 2 eccPubkeyLen ++ publicKey) := by
    rw [List.flatMap_singleton, entry, vector, hkey]
  unfold Offered.encoded Offered.content Offered.type
  dsimp only
  rw [hlist]
  unfold vector
  simp only [List.length_append, length_be, hkey, Nat.add_assoc]

theorem length_encoded_name (name : List UInt8) : (Offered.serverName [(0, name)]).encoded.length = 9 + name.length := by
  rw [encoded_name]
  simp only [List.length_append, length_be, List.length_singleton]
  omega

theorem length_encoded_keyShare (hkey : publicKey.length = eccPubkeyLen) : (Offered.keyShare [(groupSecp256r1, publicKey)]).encoded.length = 75 := by
  rw [encoded_keyShare hkey]
  simp only [List.length_append, length_be, hkey]
  rfl

theorem putName_of {name : List UInt8} (hlt : front.length + 9 + name.length < 2 ^ 32) :
    putName name (.of front room) = extend front room (Offered.serverName [(0, name)]).encoded := by
  have hcontent : ulong (2 + 1 + 2 + name.length) = 2 + 1 + 2 + name.length := ulong_of_lt (by omega)
  have hlist : ulong (1 + 2 + name.length) = 1 + 2 + name.length := ulong_of_lt (by omega)
  unfold putName
  rw [hcontent, hlist]
  simp only [Filling.put_put]
  rw [← encoded_name, Nat.add_assoc]
  exact test_put (by rw [List.length_append, length_encoded_name]; omega) (by omega)

theorem putSupportedGroups_of (hlt : front.length + 8 < 2 ^ 32) :
    putSupportedGroups (.of front room) = extend front room (Offered.supportedGroups [groupSecp256r1]).encoded := by
  unfold putSupportedGroups
  simp only [Filling.put_put]
  exact test_put (by rw [List.length_append]; rfl) hlt

theorem putKeyShare_of (hkey : publicKey.length = eccPubkeyLen) (hlt : front.length + 75 < 2 ^ 32) :
    putKeyShare publicKey (.of front room) = extend front room (Offered.keyShare [(groupSecp256r1, publicKey)]).encoded := by
  unfold putKeyShare
  simp only [Filling.put_put]
  rw [← encoded_keyShare hkey, Nat.add_assoc]
  exact test_put (by rw [List.length_append, length_encoded_keyShare hkey]; rfl) hlt

theorem putVersionsAndAlgorithms_of (hlt : front.length + 15 < 2 ^ 32) :
    putVersionsAndAlgorithms (.of front room) =
      extend front room ((Offered.supportedVersions [version13]).encoded ++ (Offered.signatureAlgorithms [sigalgEcdsaSecp256r1Sha256]).encoded) := by
  unfold putVersionsAndAlgorithms
  simp only [Filling.put_put]
  rw [Nat.add_assoc]
  exact test_put (by rw [List.length_append]; rfl) hlt

/-- How long a name is, or nothing. -/
def nameLength (serverName : Option (List UInt8)) : ℕ := (serverName.getD []).length

theorem putServerName_of {serverName : Option (List UInt8)} (hlt : front.length + 9 + nameLength serverName < 2 ^ 32) :
    putServerName serverName (.of front room) = extend front room ((offeredName serverName).flatMap Offered.encoded) := by
  have hnothing : (.ok (.of front room) : Checked Invalid (Filling UInt8)) = extend front room [] := by
    rw [extend, List.length_nil, if_neg (Nat.not_lt_zero _), List.append_nil, List.drop_zero]
  cases serverName with
  | none => exact hnothing
  | some name =>
    unfold putServerName offeredName
    dsimp only
    by_cases hname : 0 < name.length
    · rw [if_pos hname, if_pos hname, List.flatMap_singleton]
      exact putName_of hlt
    · rw [if_neg hname, if_neg hname]
      exact hnothing

/-- The extensions as they stand in the message. -/
def extensionBytes (publicKey : List UInt8) (serverName : Option (List UInt8)) : List UInt8 :=
  (offeredName serverName).flatMap Offered.encoded ++ ((Offered.supportedGroups [groupSecp256r1]).encoded ++
    ((Offered.keyShare [(groupSecp256r1, publicKey)]).encoded ++
      ((Offered.supportedVersions [version13]).encoded ++ (Offered.signatureAlgorithms [sigalgEcdsaSecp256r1Sha256]).encoded)))

theorem flatMap_extensions (random publicKey : List UInt8) (serverName : Option (List UInt8)) :
    (offer random publicKey serverName).extensions.flatMap Offered.encoded = extensionBytes publicKey serverName := by
  unfold offer extensionBytes
  rw [List.flatMap_append, List.flatMap_cons, List.flatMap_cons, List.flatMap_cons, List.flatMap_singleton]

theorem length_offeredName (serverName : Option (List UInt8)) :
    ((offeredName serverName).flatMap Offered.encoded).length = if 0 < nameLength serverName then 9 + nameLength serverName else 0 := by
  cases serverName with
  | none => rfl
  | some name =>
    unfold offeredName nameLength
    dsimp only [Option.getD_some]
    split_ifs
    · rw [List.flatMap_singleton, length_encoded_name]
    · rfl

theorem length_extensionBytes (hkey : publicKey.length = eccPubkeyLen) (serverName : Option (List UInt8)) :
    (extensionBytes publicKey serverName).length = 98 + if 0 < nameLength serverName then 9 + nameLength serverName else 0 := by
  unfold extensionBytes
  rw [List.length_append, List.length_append, List.length_append, length_offeredName, length_encoded_keyShare hkey, Nat.add_comm]
  rfl

/-- Without a wrap the extensions are put exactly if they all fit. -/
theorem putExtensions_of (hkey : publicKey.length = eccPubkeyLen) {serverName : Option (List UInt8)}
    (hlt : front.length + 107 + nameLength serverName < 2 ^ 32) :
    putExtensions publicKey serverName (.of front room) = extend front room (extensionBytes publicKey serverName) := by
  have hname := length_offeredName serverName
  have hfront : (front ++ (offeredName serverName).flatMap Offered.encoded).length ≤ front.length + 9 + nameLength serverName := by
    rw [List.length_append, hname]
    split_ifs <;> omega
  have hshare := length_encoded_keyShare hkey
  have hgroups : (Offered.supportedGroups [groupSecp256r1]).encoded.length = 8 := rfl
  unfold putExtensions extensionBytes
  rw [putServerName_of (by omega)]
  apply extend_bind
  intro room
  rw [putSupportedGroups_of (by omega)]
  apply extend_bind
  intro room
  rw [putKeyShare_of hkey (by rw [List.length_append, hgroups]; omega)]
  apply extend_bind
  intro room
  exact putVersionsAndAlgorithms_of (by rw [List.length_append, List.length_append, hshare, hgroups]; omega)

end Extensions

/-! ### The message -/

section Message

variable {random publicKey buffer : List UInt8} {serverName : Option (List UInt8)}

/-- What stands between the two lengths, in the order it is put. -/
def headBytes (random : List UInt8) : List UInt8 := [0x03, 0x03] ++ (random ++ ([0x00] ++ (be 2 2 ++ (be 2 cipherSuite ++ [0x01, 0x00]))))

theorem putHead_eq (s : Filling UInt8) : putHead random s = s.put (headBytes random) := by
  unfold putHead headBytes
  simp only [Filling.put_put]

theorem length_headBytes (hrandom : random.length = randomLen) : (headBytes random).length = 41 := by
  unfold headBytes
  simp only [List.length_append, hrandom, length_be]
  rfl

theorem body_offer (random publicKey : List UInt8) (serverName : Option (List UInt8)) :
    (offer random publicKey serverName).body = headBytes random ++ vector 2 (extensionBytes publicKey serverName) := by
  have hsuites : (offer random publicKey serverName).cipherSuites.flatMap (be 2) = be 2 cipherSuite := by
    unfold offer
    rw [List.flatMap_singleton]
  unfold Offer.body headBytes
  rw [flatMap_extensions, hsuites]
  show be 2 0x0303 ++ (random ++ (vector 1 [] ++ (vector 2 (be 2 cipherSuite) ++ (vector 1 [0] ++ vector 2 (extensionBytes publicKey serverName))))) = _
  simp only [List.append_assoc]
  rfl

theorem length_encoded_offer (hrandom : random.length = randomLen) (hkey : publicKey.length = eccPubkeyLen) (serverName : Option (List UInt8)) :
    (offer random publicKey serverName).encoded.length = 145 + if 0 < nameLength serverName then 9 + nameLength serverName else 0 := by
  unfold Offer.encoded
  rw [body_offer, List.length_append, length_be, length_vector, List.length_append, length_vector, length_headBytes hrandom,
    length_extensionBytes hkey]
  omega

/-- What has been put when the extensions are begun: the head, with room for the two lengths. -/
def begun (random buffer : List UInt8) : List UInt8 :=
  [0x01] ++ ((buffer.drop 1).take 3 ++ (headBytes random ++ (buffer.drop 45).take 2))

theorem length_begun (hrandom : random.length = randomLen) (h : 47 ≤ buffer.length) : (begun random buffer).length = 47 := by
  have hhead := length_headBytes hrandom
  unfold begun
  rw [List.length_append, List.length_append, List.length_append, List.length_take, List.length_take, List.length_drop, List.length_drop, List.length_singleton]
  omega

theorem put_first (h : 1 ≤ buffer.length) : (⟨buffer, 0⟩ : Filling UInt8).put [0x01] = (.ok (.of [0x01] (buffer.drop 1)) : Checked Invalid _) := by
  have hput : (Filling.of [] buffer).put [(0x01 : UInt8)] = (.ok (.of ([] ++ [0x01]) (buffer.drop 1)) : Checked Invalid _) := Filling.put_of h
  exact hput

/-- Up to the extensions nothing goes wrong in a buffer of 47 bytes. -/
theorem buildClientHello_begun (hrandom : random.length = randomLen) (h : 47 ≤ buffer.length) :
    buildClientHello random publicKey serverName buffer = (do
      let s ← putExtensions publicKey serverName (.of (begun random buffer) (buffer.drop 47))
      let s ← s.patch 45 (be 2 (s.offset - 47))
      let s ← s.patch 1 (be 3 (s.offset - 4))
      .ok (s.buffer, s.offset)) := by
  have hhead := length_headBytes hrandom
  have hthree : (Filling.of [0x01] (buffer.drop 1)).skip 3 = .of ([0x01] ++ (buffer.drop 1).take 3) (buffer.drop 4) := by
    rw [Filling.skip_of (by rw [List.length_drop]; omega), List.drop_drop]
  have hfour : ([0x01] ++ (buffer.drop 1).take 3).length = 4 := by
    rw [List.length_append, List.length_take, List.length_drop, List.length_singleton]
    omega
  have hput : (Filling.of ([0x01] ++ (buffer.drop 1).take 3) (buffer.drop 4)).put (headBytes random) =
      (.ok (.of ([0x01] ++ (buffer.drop 1).take 3 ++ headBytes random) (buffer.drop 45)) : Checked Invalid _) := by
    rw [Filling.put_of (by rw [List.length_drop]; omega), List.drop_drop, hhead]
  have hbegun : ([0x01] ++ (buffer.drop 1).take 3 ++ headBytes random).length = 45 := by rw [List.length_append, hfour, hhead]
  have htwo : (Filling.of ([0x01] ++ (buffer.drop 1).take 3 ++ headBytes random) (buffer.drop 45)).skip 2 =
      .of (begun random buffer) (buffer.drop 47) := by
    rw [Filling.skip_of (by rw [List.length_drop]; omega), List.drop_drop, begun, List.append_assoc, List.append_assoc]
  have hlength := length_begun hrandom h
  unfold buildClientHello
  rw [if_neg (by omega), put_first (by omega), ok_bind]
  dsimp only
  rw [hthree, Filling.of_offset, Filling.of_offset, hfour, if_neg (by rw [ulong_of_lt (by decide)]; exact Nat.not_lt.2 h), putHead_eq, hput, ok_bind,
    htwo, Filling.of_offset, Filling.of_offset, hbegun, hlength]
  rfl

/-- Behind the extensions the two lengths are filled in, and the message is the offer's. -/
theorem patch_lengths (hrandom : random.length = randomLen) (h : 47 ≤ buffer.length) (room : List UInt8) :
    (do
      let s ← (Filling.of (begun random buffer ++ extensionBytes publicKey serverName) room).patch 45
        (be 2 ((begun random buffer ++ extensionBytes publicKey serverName).length - 47))
      let s ← s.patch 1 (be 3 (s.offset - 4))
      .ok (s.buffer, s.offset)) =
      (.ok ((offer random publicKey serverName).encoded ++ room, (offer random publicKey serverName).encoded.length) : Checked Invalid _) := by
  have hhead := length_headBytes hrandom
  have hgap : ((buffer.drop 1).take 3).length = 3 := by
    rw [List.length_take, List.length_drop]
    omega
  have hgap' : ((buffer.drop 45).take 2).length = 2 := by
    rw [List.length_take, List.length_drop]
    omega
  have hfront : ([0x01] ++ ((buffer.drop 1).take 3 ++ headBytes random)).length = 45 := by
    rw [List.length_append, List.length_append, hgap, hhead]
    rfl
  have hbegun : begun random buffer ++ extensionBytes publicKey serverName =
      [0x01] ++ ((buffer.drop 1).take 3 ++ headBytes random) ++ ((buffer.drop 45).take 2 ++ extensionBytes publicKey serverName) := by
    unfold begun
    simp only [List.append_assoc]
  have hlength : (begun random buffer ++ extensionBytes publicKey serverName).length - 47 = (extensionBytes publicKey serverName).length := by
    rw [List.length_append, length_begun hrandom h]
    omega
  have hsecond := Filling.patch_of (ε := Invalid) room ([0x01] ++ ((buffer.drop 1).take 3 ++ headBytes random)) ((buffer.drop 45).take 2)
    (extensionBytes publicKey serverName) (show (be 2 (extensionBytes publicKey serverName).length).length = _ by rw [length_be, hgap'])
  rw [hfront] at hsecond
  rw [hlength, hbegun, hsecond, ok_bind]
  have hbody : (offer random publicKey serverName).body = headBytes random ++ (be 2 (extensionBytes publicKey serverName).length ++ extensionBytes publicKey serverName) :=
    body_offer random publicKey serverName
  have hmessage : [0x01] ++ ((buffer.drop 1).take 3 ++ headBytes random) ++ (be 2 (extensionBytes publicKey serverName).length ++ extensionBytes publicKey serverName) =
      [0x01] ++ ((buffer.drop 1).take 3 ++ (offer random publicKey serverName).body) := by
    rw [hbody]
    simp only [List.append_assoc]
  have hoffset : ([0x01] ++ ((buffer.drop 1).take 3 ++ (offer random publicKey serverName).body)).length - 4 = (offer random publicKey serverName).body.length := by
    rw [List.length_append, List.length_append, hgap, List.length_singleton]
    omega
  have hfirst := Filling.patch_of (ε := Invalid) room [0x01] ((buffer.drop 1).take 3) (offer random publicKey serverName).body
    (show (be 3 (offer random publicKey serverName).body.length).length = _ by rw [length_be, hgap])
  rw [List.length_singleton] at hfirst
  rw [hmessage, Filling.of_offset, hoffset, hfirst]
  rfl

theorem buildClientHello_short (h : buffer.length < 47) : buildClientHello random publicKey serverName buffer = .error .invalidParameter := by
  unfold buildClientHello
  by_cases hfour : buffer.length < 4
  · rw [if_pos hfour]
  · rw [if_neg hfour, put_first (by omega), ok_bind]
    exact if_pos h

/-- With a name of ordinary length the message is built exactly if it fits. -/
theorem buildClientHello_eq (hrandom : random.length = randomLen) (hkey : publicKey.length = eccPubkeyLen) (hname : nameLength serverName < 2 ^ 31) :
    buildClientHello random publicKey serverName buffer =
      if buffer.length < (offer random publicKey serverName).encoded.length then .error .invalidParameter
      else .ok ((offer random publicKey serverName).encoded ++ buffer.drop (offer random publicKey serverName).encoded.length,
        (offer random publicKey serverName).encoded.length) := by
  have hlength := length_encoded_offer hrandom hkey serverName
  have hextensions := length_extensionBytes hkey serverName
  by_cases h : 47 ≤ buffer.length
  · have hbegun := length_begun hrandom h
    have hdrop : (buffer.drop 47).length = buffer.length - 47 := List.length_drop
    rw [buildClientHello_begun hrandom h, putExtensions_of hkey (by omega), extend]
    by_cases hfits : (buffer.drop 47).length < (extensionBytes publicKey serverName).length
    · rw [if_pos hfits, if_pos (by omega), error_bind]
    · have hroom : (buffer.drop 47).drop (extensionBytes publicKey serverName).length = buffer.drop (offer random publicKey serverName).encoded.length := by
        rw [List.drop_drop]
        congr 1
        omega
      rw [if_neg hfits, if_neg (by omega), ok_bind, hroom]
      exact patch_lengths hrandom h _
  · rw [if_pos (by omega)]
    exact buildClientHello_short (by omega)

/-- A name that no buffer holds is refused, unless the test's sum wraps. -/
theorem buildClientHello_long (hrandom : random.length = randomLen) {name : List UInt8} (hlong : 65536 ≤ name.length) (hname : name.length < 2 ^ 32)
    (hbuffer : buffer.length ≤ 65535) :
    buildClientHello random publicKey (some name) buffer =
      if buffer.length < 47 ∨ buffer.length < ulong (56 + name.length) then .error .invalidParameter else .fault := by
  by_cases h : 47 ≤ buffer.length
  · have hbegun := length_begun hrandom h
    have hdrop : (buffer.drop 47).length = buffer.length - 47 := List.length_drop
    have hlength : (Filling.of (begun random buffer) (buffer.drop 47)).buffer.length = buffer.length := by
      show (begun random buffer ++ buffer.drop 47).length = buffer.length
      rw [List.length_append]
      omega
    have hsum : ulong ((begun random buffer).length + 4 + ulong (2 + 1 + 2 + name.length)) = ulong (56 + name.length) := by
      unfold ulong
      omega
    have hput : (Filling.of (begun random buffer) (buffer.drop 47)).put (be 2 extServerName ++ (be 2 (ulong (2 + 1 + 2 + name.length)) ++
        (be 2 (ulong (1 + 2 + name.length)) ++ ([0x00] ++ (be 2 name.length ++ name))))) = (.fault : Checked Invalid _) := by
      apply Filling.put_of_fault
      simp only [List.length_append, length_be]
      omega
    rw [buildClientHello_begun hrandom h]
    unfold putExtensions putServerName putName
    simp only [Filling.put_put]
    rw [if_pos (by omega), hlength, Filling.of_offset, hsum, hput]
    by_cases hwrap : buffer.length < ulong (56 + name.length)
    · rw [if_pos hwrap, if_pos (.inr hwrap)]
      rfl
    · rw [if_neg hwrap, if_neg (by omega)]
      rfl
  · rw [if_pos (.inl (by omega))]
    exact buildClientHello_short (by omega)

end Message

/-! ### What is read back -/

section ReadBack

variable {random publicKey buffer : List UInt8} {serverName : Option (List UInt8)}

theorem numbers_one {least most v : ℕ} (hv : v < 65536) (hleast : least ≤ 2) (hmost : 2 ≤ most) : Numbers least most [v] := by
  have hlength : ([v].flatMap (be 2)).length = 2 := by rw [List.flatMap_singleton, length_be]
  refine ⟨?_, by rwa [hlength], by rwa [hlength]⟩
  intro v' hv'
  rwa [List.mem_singleton.1 hv']

theorem entries_one {n least : ℕ} {e : ℕ × List UInt8} (he : e.1 < 256 ^ n) (hpos : 1 ≤ e.2.length) (hleast : least ≤ 2) (hmost : n + 2 + e.2.length ≤ 65535) :
    Entries n least [e] := by
  have hlength : ([e].flatMap (entry n)).length = n + 2 + e.2.length := by
    rw [List.flatMap_singleton, entry, List.length_append, length_be, length_vector]
    omega
  refine ⟨?_, ?_, by omega, by omega⟩
  · intro e' he'
    rwa [List.mem_singleton.1 he']
  · intro e' he'
    rw [List.mem_singleton.1 he']
    omega

theorem offeredName_fits (hshort : nameLength serverName ≤ 65530) : ∀ e ∈ offeredName serverName, e.Fits ∧ e.content.length ≤ 65535 := by
  intro e he
  cases serverName with
  | none => exact absurd he List.not_mem_nil
  | some name =>
    unfold offeredName at he
    dsimp only at he
    split_ifs at he with hname
    · have hlength : name.length ≤ 65530 := hshort
      have hencoded := length_encoded_name name
      rw [Offered.encoded, List.length_append, length_be, length_vector] at hencoded
      rw [List.mem_singleton.1 he]
      exact ⟨entries_one (show 0 < 256 ^ 1 by decide) hname (by decide) (show 1 + 2 + name.length ≤ 65535 by omega), by omega⟩
    · exact absurd he List.not_mem_nil

/-- The offer keeps the bounds of its vectors when the name leaves room for the rest. -/
theorem offer_fits (hrandom : random.length = randomLen) (hkey : publicKey.length = eccPubkeyLen) (hshort : nameLength serverName ≤ 65400) :
    (offer random publicKey serverName).Fits := by
  have hextensions := length_extensionBytes hkey serverName
  have hshare := length_encoded_keyShare hkey
  rw [Offered.encoded, List.length_append, length_be, length_vector] at hshare
  refine ⟨hrandom, Nat.zero_le 32, numbers_one (by decide) (by decide) (by decide), ?_, ?_, ?_, ?_⟩
  · intro e he
    simp only [offer, List.mem_append, List.mem_cons, List.not_mem_nil, or_false] at he
    rcases he with hname | rfl | rfl | rfl | rfl
    · exact offeredName_fits (by omega) e hname
    · exact ⟨numbers_one (by decide) (by decide) (by decide), by decide⟩
    · exact ⟨entries_one (show groupSecp256r1 < 256 ^ 2 by decide) (by rw [hkey]; decide) (by decide) (by rw [hkey]; decide), by omega⟩
    · exact ⟨numbers_one (by decide) (by decide) (by decide), by decide⟩
    · exact ⟨numbers_one (by decide) (by decide) (by decide), by decide⟩
  · rw [flatMap_extensions]
    omega
  · rw [flatMap_extensions, hextensions]
    split_ifs <;> omega
  · cases serverName with
    | none => exact show [extSupportedGroups, extKeyShare, extSupportedVersions, extSignatureAlgorithms].Nodup by decide
    | some name =>
      unfold offer offeredName
      dsimp only
      split_ifs
      · exact show [extServerName, extSupportedGroups, extKeyShare, extSupportedVersions, extSignatureAlgorithms].Nodup by decide
      · exact show [extSupportedGroups, extKeyShare, extSupportedVersions, extSignatureAlgorithms].Nodup by decide

/-- A name of ordinary length is offered, or the message does not fit. -/
theorem built_of_short (hrandom : random.length = randomLen) (hkey : publicKey.length = eccPubkeyLen) (hbuffer : buffer.length ≤ 65535)
    (hname : nameLength serverName < 2 ^ 31) :
    Built (offer random publicKey serverName) buffer (buildClientHello random publicKey serverName buffer) := by
  have hlength := length_encoded_offer hrandom hkey serverName
  rw [buildClientHello_eq hrandom hkey hname]
  by_cases h : buffer.length < (offer random publicKey serverName).encoded.length
  · rw [if_pos h]
    exact h
  · have hshort : nameLength serverName ≤ 65400 := by
      split_ifs at hlength <;> omega
    rw [if_neg h]
    refine ⟨Nat.le_of_not_lt h, ?_, ?_, ?_, ?_⟩
    · rw [List.length_append, List.length_drop]
      omega
    · rw [List.drop_left' rfl]
    · rw [List.take_left' rfl]
    · rw [List.take_left' rfl, readOffer_encoded (offer_fits hrandom hkey hshort)]

/-- A wrap lets a name through that the buffer does not hold. -/
theorem buildClientHello_wraps (hrandom : random.length = randomLen) (hbuffer : buffer.length ≤ 65535)
    (hname : ∀ name, serverName = some name → name.length < 2 ^ 32) (h : Wraps serverName buffer) :
    buildClientHello random publicKey serverName buffer = .fault := by
  obtain ⟨name, rfl, hlong, hroom, hsum⟩ := h
  have hlt := hname name rfl
  have hwrapped : ulong (56 + name.length) = 56 + name.length - 2 ^ 32 := by
    unfold ulong
    omega
  rw [buildClientHello_long hrandom (by omega) hlt hbuffer, hwrapped, if_neg (by omega)]

theorem not_built_of_length {name : List UInt8} (hrandom : random.length = randomLen) (hbuffer : buffer.length = 300) (hname : name.length = 2 ^ 32 - 56) :
    ¬ Built (offer random publicKey (some name)) buffer (buildClientHello random publicKey (some name) buffer) := by
  have hlt : ∀ name', some name = some name' → name'.length < 2 ^ 32 := by
    intro name' h
    rw [← Option.some.inj h, hname]
    decide
  rw [buildClientHello_wraps hrandom (by omega) hlt ⟨name, rfl, by omega, by omega, by omega⟩]
  exact id

theorem not_wraps {name : List UInt8} (h : 56 + name.length < 2 ^ 32) : ¬ Wraps (some name) buffer := by
  rintro ⟨name', hname, hlong, -⟩
  rw [← Option.some.inj hname] at hlong
  exact absurd hlong (Nat.not_le_of_lt h)

/-- Without a wrap a name of any length is offered, or the message does not fit. -/
theorem built_of_not_wraps (hrandom : random.length = randomLen) (hkey : publicKey.length = eccPubkeyLen) (hbuffer : buffer.length ≤ 65535)
    (hname : ∀ name, serverName = some name → name.length < 2 ^ 32) (h : ¬ Wraps serverName buffer) :
    Built (offer random publicKey serverName) buffer (buildClientHello random publicKey serverName buffer) := by
  by_cases hshort : nameLength serverName < 2 ^ 31
  · exact built_of_short hrandom hkey hbuffer hshort
  · cases serverName with
    | none => exact absurd (show nameLength none < 2 ^ 31 by decide) hshort
    | some name =>
      have hlong : 2 ^ 31 ≤ name.length := Nat.le_of_not_lt hshort
      have hlt := hname name rfl
      have hlength := length_encoded_offer hrandom hkey (some name)
      have hrefused : buffer.length < 47 ∨ buffer.length < ulong (56 + name.length) := by
        by_contra hpassed
        refine h ⟨name, rfl, ?_⟩
        unfold ulong at hpassed
        omega
      rw [if_pos (by omega)] at hlength
      rw [buildClientHello_long hrandom (by omega) hlt hbuffer, if_pos hrefused]
      show buffer.length < (offer random publicKey (some name)).encoded.length
      omega

end ReadBack

/-- The arrays that are passed. -/
abbrev Random := {bytes : List UInt8 // bytes.length = randomLen}

abbrev PublicKey := {bytes : List UInt8 // bytes.length = eccPubkeyLen}

/-- A name whose length is a `ULONG`. -/
abbrev ServerName := {name : List UInt8 // name.length < 2 ^ 32}

/-- The offer is built, or refused because it does not fit, exactly if the test of the name's
length does not wrap. -/
theorem clientHello_built_iff (random : Random) (publicKey : PublicKey) (serverName : Option ServerName) (buffer : List UInt8)
    (hbuffer : buffer.length ≤ 65535) :
    Built (offer random publicKey (serverName.map (·.1))) buffer (buildClientHello random publicKey (serverName.map (·.1)) buffer) ↔
      ¬ Wraps (serverName.map (·.1)) buffer := by
  have hname : ∀ name, serverName.map (·.1) = some name → name.length < 2 ^ 32 := by
    intro name h
    obtain ⟨name', -, rfl⟩ := Option.map_eq_some_iff.1 h
    exact name'.2
  constructor
  · intro hbuilt hwraps
    rw [buildClientHello_wraps random.2 hbuffer hname hwraps] at hbuilt
    exact hbuilt
  · exact built_of_not_wraps random.2 publicKey.2 hbuffer hname

/-- Arrays and a name that a caller passes. -/
def sampleRandom : Random := ⟨List.replicate 32 7, List.length_replicate⟩

def samplePublicKey : PublicKey := ⟨0x04 :: List.replicate 64 9, congrArg Nat.succ List.length_replicate⟩

def sampleServerName : ServerName := ⟨[0x61, 0x2e, 0x62], by decide⟩

/-- A buffer of `TLS_CLIENT_HELLO_MAX_LEN` bytes. -/
def sampleBuffer : List UInt8 := List.replicate 300 0

theorem length_sampleBuffer : sampleBuffer.length = 300 := List.length_replicate

theorem clientHello_built_named :
    Built (offer sampleRandom samplePublicKey ((some sampleServerName).map (·.1))) sampleBuffer
      (buildClientHello sampleRandom samplePublicKey ((some sampleServerName).map (·.1)) sampleBuffer) := by
  rw [clientHello_built_iff sampleRandom samplePublicKey (some sampleServerName) sampleBuffer (by rw [length_sampleBuffer]; decide)]
  exact not_wraps (by decide)

/-- A name 56 bytes short of 2^32 passes the test of a buffer of 300 bytes and is copied behind
its end. -/
theorem clientHello_wrapped_not_built :
    ¬ Built (offer sampleRandom samplePublicKey (some (List.replicate (2 ^ 32 - 56) 0x61))) sampleBuffer
      (buildClientHello sampleRandom samplePublicKey (some (List.replicate (2 ^ 32 - 56) 0x61)) sampleBuffer) :=
  not_built_of_length sampleRandom.2 length_sampleBuffer List.length_replicate

end BlorgFS.Tls
