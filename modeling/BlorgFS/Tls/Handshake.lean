import BlorgFS.Tls.Accumulator
import BlorgFS.Tls.Certificate
import BlorgFS.Tls.Hkdf
import BlorgFS.Tls.Record

/-! The client's side of the TLS 1.3 handshake, `TlsHandshake.c`, from the ClientHello on. Records
are taken out of the connection's accumulator one by one; the ServerHello comes as a record of its
own, and what is decrypted after it goes into the flight buffer, from which whole messages are
taken. What the platform computes comes in as `Primitives`. -/

namespace BlorgFS.Tls.Handshake

open Lib Checked

/-- What the platform computes: hashes, MACs, key agreement, signatures and authenticated
encryption. -/
structure Primitives where
  sha256 : List UInt8 → Except Status Digest
  hmacSha256 : Hmac
  ecdhComputeSharedSecret : (clientPrivate clientPublic serverPublic : List UInt8) → Except Status (List UInt8)
  ecdsaVerify : (publicKey digest signature : List UInt8) → Except Status Unit
  aeadDecrypt : (key nonce header ciphertext tag : List UInt8) → Except Status { p : List UInt8 // p.length = ciphertext.length }
  aeadEncrypt : (key nonce header plaintext : List UInt8) → Except Status (List UInt8)
  importKeyHandle : (key : List UInt8) → Except Status Unit

/-- `TLS_HS_FLIGHT_MAX`. -/
def flightMax : ℕ := 32768

/-- `TLS_HS_TRANSCRIPT_MAX`. -/
def transcriptMax : ℕ := 8192

/-- `TLS_KEY_LEN`. -/
def keyLen : ℕ := 16

/-- `TLS_IV_LEN`. -/
def ivLen : ℕ := 12

/-- `TLS_HS_STAGE`. -/
inductive Stage where
  | waitingForServerHello
  | waitingForFlightRecord
  deriving DecidableEq, Repr

/-- `TLS_HANDSHAKE_CONTEXT`. `contents` and `dispatched` are for the statements about it: what the
encrypted records held, and the messages that came of it, the ServerHello among them. -/
structure Context where
  stage : Stage
  serverSeq : ℕ
  clientPrivate : List UInt8
  clientPublic : List UInt8
  serverPublic : List UInt8
  transcript : List UInt8
  handshakeSecret : List UInt8
  clientHsTraffic : List UInt8
  serverHsTraffic : List UInt8
  clientHsKey : List UInt8
  clientHsIv : List UInt8
  serverHsKey : List UInt8
  serverHsIv : List UInt8
  serverLongTermKey : List UInt8
  transcriptHashThroughCert : List UInt8
  transcriptHashThroughCertVerify : List UInt8
  sawEncryptedExtensions : Bool
  sawCertificate : Bool
  sawCertVerify : Bool
  flight : List UInt8
  contents : List (List UInt8)
  dispatched : List (List UInt8)

/-- Why the handshake fails, and the messages dispatched by then. -/
structure Refusal where
  status : Status
  dispatched : List (List UInt8)
  deriving DecidableEq, Repr

/-! ### Messages -/

/-- The length of its body that a message declares. -/
def bodyLength (l : List UInt8) : ℕ := ofBe ((l.drop 1).take 3)

theorem bodyLength_append {l : List UInt8} (h : 4 ≤ l.length) (x : List UInt8) : bodyLength (l ++ x) = bodyLength l := by
  unfold bodyLength
  rw [List.drop_append_of_le_length (by omega), List.take_append_of_le_length (by rw [List.length_drop]; omega)]

theorem bodyLength_take {l : List UInt8} {n : ℕ} (h : 4 ≤ n) : bodyLength (l.take n) = bodyLength l := by
  unfold bodyLength
  rw [List.drop_take, List.take_take, Nat.min_eq_left (by omega)]

/-- Handshake messages as they stand in a flight: a type, three bytes of length and a body. -/
def messageFraming : Framing UInt8 where
  size l := if 4 ≤ l.length then some (4 + bodyLength l) else none
  size_append {l n} h x := by
    split_ifs at h with h4
    rw [if_pos (by rw [List.length_append]; omega), bodyLength_append h4]
    exact h
  size_take {l n} h hn := by
    split_ifs at h with h4
    have hsize := Option.some.inj h
    rw [if_pos (by rw [List.length_take]; omega), bodyLength_take (by omega)]
    exact h
  size_pos {l n} h := by
    split_ifs at h with h4
    have hsize := Option.some.inj h
    omega

abbrev IsMessage : List UInt8 → Prop := messageFraming.Whole

/-- The messages of a flight that are there in full. -/
abbrev messages : List UInt8 → List (List UInt8) := messageFraming.items

theorem isMessage_iff {m : List UInt8} : IsMessage m ↔ 4 ≤ m.length ∧ m.length = 4 + bodyLength m := by
  unfold IsMessage Framing.Whole messageFraming
  dsimp only
  split_ifs with h4
  · rw [Option.some_inj]
    exact ⟨fun h => ⟨h4, h.symm⟩, fun h => h.2.symm⟩
  · exact ⟨nofun, fun h => absurd h.1 h4⟩

def messageType (message : List UInt8) : UInt8 := message.getD 0 0

/-- What a message's type says it is. -/
def typeEncryptedExtensions : UInt8 := 0x08

def typeCertificate : UInt8 := 0x0B

def typeCertificateVerify : UInt8 := 0x0F

def typeFinished : UInt8 := 0x14

section Functions

variable (P : Primitives)

/-- The configured pin is compared with the key's hash, `BlorgTlsCheckPin`. -/
def checkPin (pin : Option Digest) (spki : List UInt8) : Bool :=
  match P.sha256 spki with
  | .error _ => false
  | .ok computed => pin.any fun value => constantTimeEqual computed.1 value.1

def invalid : Invalid → Status := fun _ => .invalidParameter

/-- The leaf's key, once it is known to be the pinned one. -/
def certificateKey (pin : Option Digest) (body : List UInt8) : Checked Status (List UInt8) := do
  let (start, len) ← (parseCertificateMessage body).mapError invalid
  let leafCert := (body.drop start).take len
  let (start, len) ← (Der.extractSpkiFromCertificate leafCert).mapError invalid
  let spki := (leafCert.drop start).take len
  if checkPin P pin spki then (ofExcept (decodeP256SubjectPublicKeyInfo spki)).mapError invalid else .error .trustFailure

/-- The server's signature over the transcript up to its certificate is verified. -/
def verifyCertificate (c : Context) (body : List UInt8) : Checked Status Unit := do
  let rawSignature ← (parseCertificateVerifyMessage body).mapError invalid
  let verifyDigest ← ofExcept (P.sha256 (buildServerCertVerifyContent c.transcriptHashThroughCert))
  ofExcept (P.ecdsaVerify c.serverLongTermKey verifyDigest.1 rawSignature)

/-- A derivation of the key schedule. -/
abbrev expandLabel (secret : List UInt8) (label : Label) (context : List UInt8) (length : ℕ) : Checked Status (List UInt8) :=
  hkdfExpandLabel P.hmacSha256 secret label.bytes context length

/-- The MAC of the server's Finished. -/
def finishedMac (c : Context) : Checked Status Digest := do
  let serverFinishedKey ← expandLabel P c.serverHsTraffic .finished [] hashLen
  ofExcept (P.hmacSha256 serverFinishedKey c.transcriptHashThroughCertVerify)

/-- What is done for one message: the context, and whether it was the Finished. -/
def dispatch (pin : Option Digest) (c : Context) (msgType : UInt8) (msgBody : List UInt8) : Checked Status (Context × Bool) :=
  if msgType = typeEncryptedExtensions then
    if c.sawEncryptedExtensions || c.sawCertificate then .error .invalidParameter else .ok ({ c with sawEncryptedExtensions := true }, false)
  else if msgType = typeCertificate then
    if !c.sawEncryptedExtensions || c.sawCertificate then .error .invalidParameter
    else do
      let key ← certificateKey P pin msgBody
      let hash ← ofExcept (P.sha256 c.transcript)
      .ok ({ c with serverLongTermKey := key, transcriptHashThroughCert := hash.1, sawCertificate := true }, false)
  else if msgType = typeCertificateVerify then
    if !c.sawCertificate || c.sawCertVerify then .error .invalidParameter
    else do
      verifyCertificate P c msgBody
      let hash ← ofExcept (P.sha256 c.transcript)
      .ok ({ c with transcriptHashThroughCertVerify := hash.1, sawCertVerify := true }, false)
  else if msgType = typeFinished then
    if !c.sawCertVerify || msgBody.length ≠ hashLen then .error .invalidParameter
    else do
      let expected ← finishedMac P c
      if constantTimeEqual expected.1 msgBody then .ok (c, true) else .error .invalidParameter
  else .error .invalidParameter

/-- A message goes into the transcript and is dispatched. -/
def processMessage (pin : Option Digest) (c : Context) (message : List UInt8) : Checked Refusal (Context × Bool) :=
  if c.transcript.length + message.length > transcriptMax then .error ⟨.insufficientResources, c.dispatched⟩
  else
    let c := { c with transcript := c.transcript ++ message, dispatched := c.dispatched ++ [message] }
    (dispatch P pin c (messageType message) (message.drop 4)).mapError (⟨·, c.dispatched⟩)

/-- `TlsHandshakeProcessFlightMessages`, its loop in so many turns. `flight` is what is left of the
flight from `msgOffset` on. -/
def processFlightMessages (pin : Option Digest) : ℕ → Context → Checked Refusal (Context × Bool)
  | 0, _ => .fault
  | turns + 1, c =>
    match messageFraming.cut c.flight with
    | none => .ok (c, false)
    | some (message, rest) => do
      let (c, done) ← processMessage P pin { c with flight := rest } message
      if done then .ok (c, true) else processFlightMessages pin turns c

/-- The key schedule from the shared secret to the handshake's keys. -/
def deriveHandshakeKeys (c : Context) : Checked Status Context := do
  let zero32 := List.replicate 32 0
  let sharedSecret ← ofExcept (P.ecdhComputeSharedSecret c.clientPrivate c.clientPublic c.serverPublic)
  let transcriptHashChSh ← ofExcept (P.sha256 c.transcript)
  let emptyHash ← ofExcept (P.sha256 [])
  let earlySecret ← hkdfExtract P.hmacSha256 zero32 zero32
  let derivedForHandshake ← expandLabel P earlySecret .derived emptyHash.1 hashLen
  let handshakeSecret ← hkdfExtract P.hmacSha256 derivedForHandshake sharedSecret
  let clientHsTraffic ← expandLabel P handshakeSecret .cHsTraffic transcriptHashChSh.1 hashLen
  let serverHsTraffic ← expandLabel P handshakeSecret .sHsTraffic transcriptHashChSh.1 hashLen
  let serverHsKey ← expandLabel P serverHsTraffic .key [] keyLen
  let serverHsIv ← expandLabel P serverHsTraffic .iv [] ivLen
  let clientHsKey ← expandLabel P clientHsTraffic .key [] keyLen
  let clientHsIv ← expandLabel P clientHsTraffic .iv [] ivLen
  .ok { c with handshakeSecret, clientHsTraffic, serverHsTraffic, serverHsKey, serverHsIv, clientHsKey, clientHsIv }

/-- `TlsHandshakeOnReceiveServerHello`. -/
def onReceiveServerHello (c : Context) (payload : List UInt8) : Checked Refusal Context :=
  if payload.length < 4 then .error ⟨.invalidParameter, c.dispatched⟩
  else if messageType payload ≠ 0x02 then .error ⟨.invalidParameter, c.dispatched⟩
  else if 4 + bodyLength payload ≠ payload.length then .error ⟨.invalidParameter, c.dispatched⟩
  else if c.transcript.length + payload.length > transcriptMax then .error ⟨.insufficientResources, c.dispatched⟩
  else
    let c := { c with transcript := c.transcript ++ payload, dispatched := c.dispatched ++ [payload] }
    (do
      let (_, serverPublic) ← (parseServerHello (payload.drop 4)).mapError invalid
      let c ← deriveHandshakeKeys P { c with serverPublic }
      .ok { c with stage := .waitingForFlightRecord } : Checked Status Context).mapError (⟨·, c.dispatched⟩)

/-- The content of an encrypted record. -/
def openRecord (c : Context) (header payload : List UInt8) : Checked Status (List UInt8) :=
  if payload.length < tagLength then .error .invalidParameter
  else
    let ciphertextLen := payload.length - tagLength
    if c.flight.length + ciphertextLen > flightMax then .error .insufficientResources
    else do
      let plaintext ← ofExcept (P.aeadDecrypt c.serverHsKey (buildNonce c.serverHsIv c.serverSeq) header (payload.take ciphertextLen) (payload.drop ciphertextLen))
      match stripInnerPlaintext plaintext.1 with
      | none => .error .invalidParameter
      | some (contentType, contentLen) => if contentType ≠ 0x16 then .error .invalidParameter else .ok (plaintext.1.take contentLen)

/-- `TlsHandshakeOnReceiveRecordPayload`: the context, and whether the server's Finished is there. -/
def onReceiveRecordPayload (pin : Option Digest) (c : Context) (record : List UInt8) : Checked Refusal (Context × Bool) :=
  let recordType := record.getD 0 0
  let payload := record.drop 5
  if c.stage = .waitingForServerHello then
    if recordType ≠ 0x16 then .error ⟨.invalidParameter, c.dispatched⟩
    else do
      let c ← onReceiveServerHello P c payload
      .ok (c, false)
  else if recordType = 0x15 then .error ⟨.invalidParameter, c.dispatched⟩
  else if recordType = 0x14 then .ok (c, false)
  else if recordType ≠ 0x17 then .error ⟨.invalidParameter, c.dispatched⟩
  else do
    let content ← (openRecord P c (record.take 5) payload).mapError (⟨·, c.dispatched⟩)
    let c := { c with serverSeq := c.serverSeq + 1, flight := c.flight ++ content, contents := c.contents ++ [content] }
    processFlightMessages P pin (c.flight.length + 1) c

/-! ### The client's Finished -/

/-- The keys of the connection once it carries application data, with both sequence numbers at 0. -/
structure Keys where
  writeKey : List UInt8
  writeIv : List UInt8
  readKey : List UInt8
  readIv : List UInt8
  deriving DecidableEq, Repr

/-- The key schedule from the handshake's secret to the application's keys, and the client's MAC. -/
def deriveApplicationKeys (c : Context) : Checked Status (Keys × Digest) := do
  let zero32 := List.replicate 32 0
  let emptyHash ← ofExcept (P.sha256 [])
  let derivedForMaster ← expandLabel P c.handshakeSecret .derived emptyHash.1 hashLen
  let masterSecret ← hkdfExtract P.hmacSha256 derivedForMaster zero32
  let transcriptHashThroughServerFinished ← ofExcept (P.sha256 c.transcript)
  let clientAppTraffic ← expandLabel P masterSecret .cApTraffic transcriptHashThroughServerFinished.1 hashLen
  let serverAppTraffic ← expandLabel P masterSecret .sApTraffic transcriptHashThroughServerFinished.1 hashLen
  let clientAppKey ← expandLabel P clientAppTraffic .key [] keyLen
  let clientAppIv ← expandLabel P clientAppTraffic .iv [] ivLen
  let serverAppKey ← expandLabel P serverAppTraffic .key [] keyLen
  let serverAppIv ← expandLabel P serverAppTraffic .iv [] ivLen
  let clientFinishedKey ← expandLabel P c.clientHsTraffic .finished [] hashLen
  let clientFinishedMac ← ofExcept (P.hmacSha256 clientFinishedKey transcriptHashThroughServerFinished.1)
  .ok (⟨clientAppKey, clientAppIv, serverAppKey, serverAppIv⟩, clientFinishedMac)

/-- The part of `TlsHandshakeSendClientFinished` behind the keys, up to the send: the record. -/
def sealClientFinished (c : Context) (keys : Keys) (clientFinishedMac : Digest) : Except Status (List UInt8) := do
  P.importKeyHandle keys.writeKey
  P.importKeyHandle keys.readKey
  let plaintext := [0x14, 0x00, 0x00, UInt8.ofNat hashLen] ++ clientFinishedMac.1 ++ [0x16]
  let recordLen := plaintext.length + tagLength
  let header := [0x17, 0x03, 0x03, UInt8.ofNat (recordLen / 256), UInt8.ofNat recordLen]
  let ciphertext ← P.aeadEncrypt c.clientHsKey (buildNonce c.clientHsIv 0) header plaintext
  .ok (header ++ ciphertext)

end Functions

end BlorgFS.Tls.Handshake
