import BlorgFS.Lib.Transition
import BlorgFS.Tls.Handshake

/-! The handshake step by step, over the accumulator of its connection. A step is one completion
or one call of `TlsHandshakeIssueReceiveRecordHeader`, which takes a record off the accumulator or
posts a receive. What the system decides comes in with the step. -/

namespace BlorgFS.Tls.Handshake

open Lib Checked

/-- What a call of `TlsHandshakeIssueReceiveRecordHeader` and what follows it meet: whether there is
stack, and why the accumulator, the receive or the send is denied. -/
structure Choice where
  stack : Bool
  accumulator : Option Status
  posted : Option Status
  sent : Option Status

/-- Where the handshake is: a send or a receive is out, a record is to be looked for, or it is over. -/
inductive Progress where
  | sendingHello
  | issuing
  | receiving (room : ℕ)
  | sendingFinished
  | complete
  | failed (status : Status)
  | fault
  deriving DecidableEq, Repr

/-- The handshake and its connection. `wire` is what has been received, `taken` are the records
taken off, both for the statements. -/
structure State where
  ctx : Context
  acc : Accumulator
  keys : Option Keys
  progress : Progress
  wire : List UInt8
  taken : List (List UInt8)

inductive Act where
  | sentHello (result : Except Status Unit)
  | issue (k : Choice)
  | received (chunk : List UInt8)
  | closed
  | broken (status : Status)
  | sentFinished (result : Except Status Unit)

/-- What a completed send leads to. -/
def afterSend (next : Progress) : Except Status Unit → Progress
  | .error status => .failed status
  | .ok _ => next

namespace State

section Steps

variable (P : Primitives) (pin : Option Digest) (size : SystemSize)

/-- `TlsHandshakeSendClientFinished`. -/
def finish (k : Choice) (s : State) (c : Context) : State :=
  match deriveApplicationKeys P c with
  | .fault => { s with progress := .fault }
  | .error status => { s with ctx := c, progress := .failed status }
  | .ok (keys, clientFinishedMac) =>
    match sealClientFinished P c keys clientFinishedMac with
    | .error status => { s with ctx := c, keys := some keys, progress := .failed status }
    | .ok _ =>
      match k.sent with
      | some status => { s with ctx := c, keys := some keys, progress := .failed status }
      | none => { s with ctx := c, keys := some keys, progress := .sendingFinished }

/-- A record is handed to `TlsHandshakeOnReceiveRecordPayload`. -/
def deliver (k : Choice) (s : State) (record : List UInt8) : State :=
  match onReceiveRecordPayload P pin s.ctx record with
  | .fault => { s with progress := .fault }
  | .error refusal => { s with ctx := { s.ctx with dispatched := refusal.dispatched }, progress := .failed refusal.status }
  | .ok (c, false) => { s with ctx := c, progress := .issuing }
  | .ok (c, true) => s.finish P k c

/-- The record at the front is taken off. -/
def take (s : State) : State := { s with acc := s.acc.consume, taken := s.taken ++ [s.acc.record] }

/-- A receive is posted behind what is left. -/
def post (k : Choice) (s : State) : State :=
  let acc := s.acc.settle size
  match k.posted with
  | some status => { s with acc, progress := .failed status }
  | none => { s with acc, progress := .receiving (acc.room size) }

/-- `TlsHandshakeIssueReceiveRecordHeader`. -/
def issue (k : Choice) (s : State) : State :=
  if !k.stack then { s with progress := .failed .insufficientResources }
  else
    match k.accumulator with
    | some status => { s with progress := .failed status }
    | none =>
      if 5 ≤ s.acc.buffered ∧ ciphertextMax < s.acc.declared then { s with progress := .failed .invalidParameter }
      else if 5 ≤ s.acc.buffered ∧ 5 + s.acc.declared ≤ s.acc.buffered then s.take.deliver P pin k s.acc.record
      else s.post size k

end Steps

end State

section Machine

variable (P : Primitives) (pin : Option Digest) (size : SystemSize)

def next (s : State) : Act → Option State
  | .sentHello result => if s.progress = .sendingHello then some { s with progress := afterSend .issuing result } else none
  | .issue k => if s.progress = .issuing then some (s.issue P pin size k) else none
  | .received chunk =>
    match s.progress with
    | .receiving room =>
      if 0 < chunk.length ∧ chunk.length ≤ room then
        some { s with acc := s.acc.arrive chunk, wire := s.wire ++ chunk, progress := .issuing }
      else none
    | _ => none
  | .closed =>
    match s.progress with
    | .receiving _ => some { s with progress := .failed .connectionDisconnected }
    | _ => none
  | .broken status =>
    match s.progress with
    | .receiving _ => some { s with progress := .failed status }
    | _ => none
  | .sentFinished result => if s.progress = .sendingFinished then some { s with progress := afterSend .complete result } else none

/-- The context a handshake starts with, once its ClientHello is made. -/
def Context.fresh (clientPrivate clientPublic clientHello : List UInt8) : Context :=
  { stage := .waitingForServerHello, serverSeq := 0, clientPrivate, clientPublic, serverPublic := [], transcript := clientHello
    handshakeSecret := [], clientHsTraffic := [], serverHsTraffic := [], clientHsKey := [], clientHsIv := [], serverHsKey := [], serverHsIv := []
    serverLongTermKey := [], transcriptHashThroughCert := [], transcriptHashThroughCertVerify := []
    sawEncryptedExtensions := false, sawCertificate := false, sawCertVerify := false, flight := [], contents := [], dispatched := [] }

/-- The handshake on a new socket, its ClientHello being sent. -/
def State.start (clientPrivate clientPublic clientHello : List UInt8) (buffer : ℕ → UInt8) : State :=
  { ctx := .fresh clientPrivate clientPublic clientHello, acc := ⟨buffer, 0, 0⟩, keys := none, progress := .sendingHello, wire := [], taken := [] }

def handshaking : System State where
  init s := ∃ clientPrivate clientPublic clientHello buffer, s = .start clientPrivate clientPublic clientHello buffer
  step s s' := ∃ act, next P pin size s act = some s'

end Machine

/-! ### One handshake

The bytes and keys of a handshake with one server, and the platform's functions as far as it
uses them. -/

namespace Sample

/-- A digest by its number. -/
def digest (value : ℕ) : Digest := ⟨be hashLen value, length_be _ _⟩

/-- The client's private key. -/
def clientPrivate : List UInt8 := be 32 0x49c0a1f27d3e5b864172938475a6b7c8d9eafb0c1d2e3f405162738495a6b7c8

def clientPublic : List UInt8 :=
  be 64 0x0483c6689ddd776b3a304dffbcf68424ccf6d056869919a9e3ef03c3d66d4f430aaa88fbb6596dbaf3bbb44d571d1e6bc431d6d61100d3c0b4eb3ab38323f453 ++
  be 1 0xb7

def serverPublic : List UInt8 :=
  be 64 0x04c6cdb59aec15741d191314853cc90bbba7cbc06ea8169b5293d1a005b4249570a2c77600e974ff71a40a799df0dcd56d42d7433c7b85c411468769fec8ae91 ++
  be 1 0xec

/-- The server's long-term key. -/
def longTermKey : List UInt8 :=
  be 64 0x0425c3cebe91e8befc686d53fa463d8af769d716e3a31ffb24729a8c427e123bb4e64d87f71dcdd0504f229e30d791007f393eed4b5975c611624c2add356f62 ++
  be 1 0x38

def clientHello : List UInt8 :=
  be 6 0x0100008d0303 ++ be 32 0x5b08b3b6a50562dad6cd51faa225f70e35e5b3fb9c911425b5471cfd035f2171 ++
  be 27 0x000002130101000062000a00040002001700330047004500170041 ++ clientPublic ++ be 15 0x002b0003020304000d000400020403

def serverHello : List UInt8 :=
  be 6 0x020000770303 ++ be 32 0x14d89eb49dae8733f5bf261617fc46a2ae9acc63930aaede6e76ded004c650c3 ++ be 20 0x00130100004f002b000203040033004500170041 ++
  serverPublic

def encryptedExtensions : List UInt8 := be 6 0x080000020000

/-- The key as it stands in the certificate. -/
def spki : List UInt8 := spkiHeader ++ longTermKey

def certificate : List UInt8 :=
  be 64 0x0b0000f9000000f50000f03081ed308193a003020102020101300a06082a8648ce3d0403023000301e170d3235303130313030303030305a170d333530313031 ++
  be 9 0x3030303030305a3000 ++ spki ++
  be 64 0x300a06082a8648ce3d04030203490030460221008264a90cf511539d94a02854e9fb70111f9aa618291ddd44dca50d168f3ed8bb022100c64faccffba7a925f7 ++
  be 25 0x5c3e14a963e8ed22d068f105b042053dfc48a6735812460000

def certificateVerify : List UInt8 :=
  be 64 0x0f00004b040300473045022011895b39aa46fedae5dbe2b9dd15facd32fec1b45c87d0583bc4a087587b6c0f0221009f26aa2891beae79f2b988305c9ab355a1 ++
  be 15 0xe53c94bfcda8ec4b804d5b583bda5a

def emptyHash : Digest := digest 0xe3b0c44298fc1c149afbf4c8996fb92427ae41e4649b934ca495991b7852b855

def helloHash : Digest := digest 0xdf59153826c3644d1ee8fc09fbb77b185f8f11e47aca0c319dcf628bd8a10cec

def certificateHash : Digest := digest 0xb38a180cb6a9f715e442e4fe1ba840fd7e464513d77425de836e13f0e14c7a85

def signedHash : Digest := digest 0x7fa4883d936b2e53db72739add3ae01ea0036edb8c38423b8a6c3c2083596cc2

def certificateVerifyHash : Digest := digest 0x1a8aba011900684067a7236f224f0ef2392f456bc0712b839996f78c1625da36

def finishedHash : Digest := digest 0xdd160033d8be9591b684a95f1e9e730c1ba8cfc17f16e9595e21644b5d5256cd

def pin : Digest := digest 0x0c54e16495d78dad2b77dfec12c603beecf2d81da3ec6d59dd9bc36549125cc7

def earlySecret : Digest := digest 0x33ad0a1c607ec03b09e6cd9893680ce210adf300aa1f2660e1b22e10f170f92a

def derivedForHandshake : Digest := digest 0x6f2615a108c702c5678f54fc9dbab69716c076189c48250cebeac3576c3611ba

def handshakeSecret : Digest := digest 0xbee365d33f0e08791d0a2366fd148c69aa223535fdcde21df25408a2f84bc8d5

def clientHsTraffic : Digest := digest 0xacf6249cbf08146969eddb4c5108b420e728f9c1766126e9fc587a2df22ef5d8

def serverHsTraffic : Digest := digest 0x5b67b30abdbdaae6151b0184b3cc14459852262d92932dd993cc5469bd8119f5

def serverHsKey : Digest := digest 0x389c571b836daa18194c96d34db3f1aaddcece2afb558e0473a31260d0cb2fec

def serverHsIv : Digest := digest 0x358bd5fc9dcfa6c0a0a8ef39265ad4320d181aa3424d8f8201293d30e0dc6a23

def clientHsKey : Digest := digest 0xba35128c8242178bdc7fe70e6bf9356eff58a8f66482e30335e7f05c058c0b00

def clientHsIv : Digest := digest 0xc6b212878a8c05ec289b08c4585527d80109833ace8a99956351502441bad921

def serverFinishedKey : Digest := digest 0xa95e57a4c6548a9864036fd8e0deccde227f5d2050d7cc17f5f6a3065dc0c336

def serverMac : Digest := digest 0xf112465a94b680b642597e7dad3f69f2b1413b82d729381d02be75c825b8a412

def derivedForMaster : Digest := digest 0xc5bcd199a9ab700283335d4f7c816a2f61b06068b244336e142623cd7b0ee230

def masterSecret : Digest := digest 0xf70d7cad26585c7adef668b81ed8d584b5f5a5002093443b57acd3065c30e57a

def clientAppTraffic : Digest := digest 0x63b23f0a646bb739af6c21af6e78bb4df1f2fc2069f824947fb5d9ce42b95200

def serverAppTraffic : Digest := digest 0x68a0c36d7195ba8061a021d53d62f7fdb2c2042bb7866062dc3e85617e824103

def clientAppKey : Digest := digest 0xc0bf03fe7ea95215b222d977d0071c1d1cfdd2ffd0b23818e3bc905401675c9a

def clientAppIv : Digest := digest 0x84847ea7594fcaeb577a498cb536eb3af6427594f72be504d243fb4b72687663

def serverAppKey : Digest := digest 0xa057b648c1aa17a8fbca9c9da8176e092053ad3a0018d06ab2f951aab7390a8d

def serverAppIv : Digest := digest 0xf5d10ebf08967b22bacbc30100065db5ab19a1be71209b863462ae04ef56741d

def clientFinishedKey : Digest := digest 0xe97fc07b42876d0f07ad54b07996f289753da6000a326c965da2f1d8e2f47249

def clientMac : Digest := digest 0x93893746819ee5a34fafd2eaf8894719d18d6f449f336b2c34ef13821037ea31

def finished : List UInt8 := be 4 0x14000020 ++ serverMac.1

/-- The flight up to its Finished, encrypted. -/
def flightCiphertext : List (List UInt8) :=
  [be 64 0x53d29d34b526d8c38c94237519cface3667546f42cc67bbfdae813189986d43f7b379316e6e5484607ecde93c691372d346c2c8a76622dc95d09c2b9caf2d778,
    be 64 0x5fdce9083bcf5e3729594014efca17da5b153c80aa5438ee5a19b7097886c7545fb9f90f0665af60988d94337f693546a8a62dbfacc4f8e161ed877452498dd5,
    be 64 0x404c0e913059e6b92053fddd3584366b8529ce969f3589f60705004cc70d52f61d3124b69cac28ad84dbcc0b52de5fad14787d3af59c9bbdd489a60b29b01ed4,
    be 64 0x52c455f40564095f304285a8b695d9a10911176a875e491359c128da663fdcafd1b509aaf4696f5e655d41d2c8cda2d43c6257be6becb312c4eece4859e9d47f,
    be 64 0xe5fba9614ee6f11faccaaf38be4d0bf814add15b44987674354c68f2e8d5185c0020358e83cd1ae174136c6ec28fb52651081afc5648abd8be738c2523ec144b,
    be 54 0x97142c9a3105a0ac0c4f132ab6d2d47fbbfa0fab6fdb94259f9a6023693a2e86448d18a1e17655b21f57797e40d273913983d3f9bff2]

def flight : List UInt8 := encryptedExtensions ++ certificate ++ certificateVerify ++ finished

def sharedSecret : List UInt8 := be 32 0xcaa68822af4897ce1d3ff47fbe12a6e997056c3c948d18982b84645fdeb27f48

def signature : List UInt8 :=
  be 64 0x11895b39aa46fedae5dbe2b9dd15facd32fec1b45c87d0583bc4a087587b6c0f9f26aa2891beae79f2b988305c9ab355a1e53c94bfcda8ec4b804d5b583bda5a

/-- An encrypted record in the pieces it arrives in: its header, what is encrypted and the tag. -/
structure Sealed where
  header : List UInt8
  ciphertext : List (List UInt8)
  tag : List UInt8

def Sealed.pieces (r : Sealed) : List (List UInt8) := r.header :: (r.ciphertext ++ [r.tag])

/-- The flight in a record of its own. -/
def exact : Sealed := ⟨be 5 0x1703030187, flightCiphertext ++ [be 1 0x5b], be 16 0x9b91e66f268d8bb5d0e7e8f6201c3160⟩

/-- The flight and a byte behind it. -/
def trailing : Sealed := ⟨be 5 0x1703030188, flightCiphertext ++ [be 2 0x4940], be 16 0xea13b883a1f5bf5bbd967b538f8bb1d5⟩

/-- The client's Finished, encrypted, and its tag. -/
def clientSealed : List UInt8 := be 53 0x33742d2ebce0119a8462ed94e264a1bf83b862d794751afed88c681a1ef716eabae8f3203736df7085801383ed443e27b619aa54fc

def zeros : List UInt8 := List.replicate 32 0

def expansion (l : Label) (context : List UInt8) (length : ℕ) : List UInt8 := hkdfLabel l.bytes context length ++ [1]

/-- A function known at some arguments. -/
def answer {α β : Type} [DecidableEq α] (table : List (α × β)) (x : α) : Except Status β :=
  match table.lookup x with
  | none => .error .invalidParameter
  | some y => .ok y

/-- The MACs of the handshake. -/
def macs : List ((List UInt8 × List UInt8) × Digest) :=
  [((zeros, zeros), earlySecret), ((earlySecret.1, expansion .derived emptyHash.1 hashLen), derivedForHandshake),
    ((derivedForHandshake.1, sharedSecret), handshakeSecret), ((handshakeSecret.1, expansion .cHsTraffic helloHash.1 hashLen), clientHsTraffic),
    ((handshakeSecret.1, expansion .sHsTraffic helloHash.1 hashLen), serverHsTraffic), ((serverHsTraffic.1, expansion .key [] keyLen), serverHsKey),
    ((serverHsTraffic.1, expansion .iv [] ivLen), serverHsIv), ((clientHsTraffic.1, expansion .key [] keyLen), clientHsKey),
    ((clientHsTraffic.1, expansion .iv [] ivLen), clientHsIv), ((serverHsTraffic.1, expansion .finished [] hashLen), serverFinishedKey),
    ((serverFinishedKey.1, certificateVerifyHash.1), serverMac), ((handshakeSecret.1, expansion .derived emptyHash.1 hashLen), derivedForMaster),
    ((derivedForMaster.1, zeros), masterSecret), ((masterSecret.1, expansion .cApTraffic finishedHash.1 hashLen), clientAppTraffic),
    ((masterSecret.1, expansion .sApTraffic finishedHash.1 hashLen), serverAppTraffic), ((clientAppTraffic.1, expansion .key [] keyLen), clientAppKey),
    ((clientAppTraffic.1, expansion .iv [] ivLen), clientAppIv), ((serverAppTraffic.1, expansion .key [] keyLen), serverAppKey),
    ((serverAppTraffic.1, expansion .iv [] ivLen), serverAppIv), ((clientHsTraffic.1, expansion .finished [] hashLen), clientFinishedKey),
    ((clientFinishedKey.1, finishedHash.1), clientMac)]

/-- The platform's functions at the arguments this handshake has for them. -/
def platform : Primitives where
  sha256 := answer
    [([], emptyHash), (clientHello ++ serverHello, helloHash), (spki, pin),
      (clientHello ++ serverHello ++ encryptedExtensions ++ certificate, certificateHash),
      (buildServerCertVerifyContent certificateHash.1, signedHash),
      (clientHello ++ serverHello ++ encryptedExtensions ++ certificate ++ certificateVerify, certificateVerifyHash),
      (clientHello ++ serverHello ++ flight, finishedHash)]
  hmacSha256 key data := answer macs (key, data)
  ecdhComputeSharedSecret clientPrivate' clientPublic' serverPublic' :=
    answer [((clientPrivate, clientPublic, serverPublic), sharedSecret)] (clientPrivate', clientPublic', serverPublic')
  ecdsaVerify publicKey digest signature' := answer [((longTermKey, signedHash.1, signature), ⟨⟩)] (publicKey, digest, signature')
  aeadDecrypt key nonce header ciphertext tag := do
    let plaintext ← answer [((exact.header, exact.ciphertext.flatten, exact.tag), flight ++ [0x16]),
      ((trailing.header, trailing.ciphertext.flatten, trailing.tag), flight ++ [0x04, 0x16])] (header, ciphertext, tag)
    if h : (key = serverHsKey.1.take keyLen ∧ nonce = serverHsIv.1.take ivLen) ∧ plaintext.length = ciphertext.length then .ok ⟨plaintext, h.2⟩
    else .error .invalidParameter
  aeadEncrypt key nonce header plaintext :=
    answer [((clientHsKey.1.take keyLen, clientHsIv.1.take ivLen, be 5 0x1703030035, [0x14, 0x00, 0x00, 0x20] ++ clientMac.1 ++ [0x16]), clientSealed)]
      (key, nonce, header, plaintext)
  importKeyHandle _ := .ok ⟨⟩

/-- Nothing is denied. -/
def granted : Choice := ⟨true, none, none, none⟩

/-- What is received is looked at as it comes. -/
def arrivals (pieces : List (List UInt8)) : List Act := pieces.flatMap fun piece => [.received piece, .issue granted]

/-- The handshake with a server that sends its flight as a given record. -/
def handshake (r : Sealed) : Option State :=
  run (next platform (some pin) .small) (.start clientPrivate clientPublic clientHello fun _ => 0)
    ([.sentHello (.ok ⟨⟩), .issue granted] ++ arrivals [be 5 0x160303007b, serverHello] ++ [.issue granted] ++ arrivals r.pieces ++
      [.sentFinished (.ok ⟨⟩)])

theorem exact_completes : (handshake exact).map (fun s => (s.progress, s.ctx.flight)) = some (.complete, []) := by decide +kernel

theorem trailing_completes : (handshake trailing).map (fun s => (s.progress, s.ctx.flight)) = some (.complete, [0x04]) := by decide +kernel

end Sample

end BlorgFS.Tls.Handshake
