import BlorgFS.Http.Receive
import BlorgFS.Tls.HandshakeMachine

/-! A request from its issue to its end, `Client.c`: a connection is acquired, the handshake runs if
there is to be one, the request is sent, the response received and dispatched, and the context is
freed. A step is a call of `HttpKick`, a completion, a queued work item or a call of
`HttpComplete`. What a step does to the connections that requests share comes out with it. -/

namespace BlorgFS.Http

open Lib Tls

/-- `HTTP_CONNECT_ATTEMPTS`. -/
def connectAttempts : ℕ := 4

/-- `KIRQL`, as far as the client asks. -/
inductive Irql where
  | passive | apc | dispatch
  deriving DecidableEq, Repr

/-- `HTTP_CONNECTION_SOURCE`. -/
inductive Source where
  | poolable | reused | fresh
  deriving DecidableEq, Repr

/-- The status as the handshake tells it. -/
def ofTls : Tls.Status → Status
  | .invalidParameter => .invalidParameter
  | .insufficientResources => .insufficientResources
  | .trustFailure => .other 0xC0000190
  | .connectionDisconnected => .connectionDisconnected
  | .other code => .other code

/-- `KSOCKET`. `wire` and `taken` are what has been received on it and the records taken off, `sealed` the
requests that have been encrypted and their records, `requests` those that have been sent and what went
out for them, and `responses` counts the responses that have been read. -/
structure Connection where
  id : ℕ
  address : ℕ
  socket : Socket
  keys : Handshake.Keys
  writeSeq : ℕ
  wire : Bytes
  taken : List Bytes
  sealed : List (Bytes × Bytes)
  requests : List (Bytes × Bytes)
  responses : ℕ

/-- A zeroed one, once it is connected. -/
def Connection.fresh (id address : ℕ) (buffer : ℕ → UInt8) : Connection :=
  { id, address, socket := ⟨false, ⟨buffer, 0, 0⟩, 0, fun _ _ _ _ => none⟩, keys := ⟨[], [], [], []⟩, writeSeq := 0, wire := [], taken := [], sealed := []
    requests := [], responses := 0 }

/-- The stages that `HttpKick` is called with. -/
inductive Kick where
  | acquireSocket | tlsHandshake | sendRequest | receive | dispatch | complete | failed
  deriving DecidableEq, Repr

/-- What comes next for a request: its request is built, `HttpKick` is called, an operation is out, a
work item is queued, `HttpComplete` is called with a status, or nothing. `misuse` is where the
code would use a work item, a connection or a routine that is not there. -/
inductive Phase where
  | building
  | kick (stage : Kick)
  | acquireQueued
  | connecting
  | handshakeQueued
  | handshaking (hs : Handshake.State)
  | sending
  | receiving (stage : Stage)
  | dispatchQueued
  | completing (status : Option Status)
  | completeQueued
  | freed
  | misuse

/-- `HTTP_CONTEXT`. No final status is a success. For the statements: what the caller's routine was
called with, whether the caller was told at once, what was sent and whether it went over TLS, and how
often the request was rewound and a connect timed out. -/
structure Call where
  request : Request
  address : ℕ
  requestBuffer : Bytes
  workItem : Bool
  source : Source
  connectTimeouts : ℕ
  socket : Option Connection
  ctx : Context
  plaintextCapacity : ℕ
  recordCapacity : ℕ
  finalStatus : Option Status
  routine : Bool
  irql : Irql
  phase : Phase
  answers : List (Option Status)
  refused : Bool
  sent : List (Bool × Bytes)
  rewound : ℕ
  timedOut : ℕ

/-- What a step does to the connections: the pool's first is taken, one is made, some are closed, one
is released; and whether the context is freed. -/
structure Effect where
  popped : Bool
  made : Bool
  closed : List Connection
  released : Option Connection
  freed : Bool

def Effect.nothing : Effect := ⟨false, false, [], none, false⟩

/-- What a handshake starts with: the key pair and the ClientHello. -/
structure Hello where
  clientPrivate : List UInt8
  clientPublic : List UInt8
  clientHello : List UInt8

/-- What the system answers in a call of `HttpKick`: whether there is a work item, why a connect, a
handshake or a send cannot be issued, whether there is memory to encrypt into, what a receive
meets, and why the body does not deserialize. -/
structure Answers where
  workItem : Bool
  connect : Option Status
  hello : Except Tls.Status Hello
  plaintext : Bool
  record : Bool
  send : Option Status
  receive : Choice
  deserialized : Option Status

/-- The handshake that `BlorgTlsStartHandshakeAsync` starts. It goes on in the connection's accumulator. -/
def Connection.hello (conn : Connection) (hello : Hello) : Handshake.State :=
  { Handshake.State.start hello.clientPrivate hello.clientPublic hello.clientHello conn.socket.acc.buffer with acc := conn.socket.acc }

inductive CallAct where
  | built (result : Except Status Bytes)
  | kick (k : Answers)
  | worker (k : Answers)
  | connected (result : Except Status (ℕ → UInt8)) (irql : Irql)
  | handshake (act : Handshake.Act) (irql : Irql)
  | sent (result : Option Status) (irql : Irql)
  | receive (act : Act) (irql : Irql)
  | complete

/-- A turn of the drain loop is no completion. -/
def Act.irql (act : Act) (current completion : Irql) : Irql :=
  match act with
  | .drained _ => current
  | _ => completion

namespace Call

/-- `HttpMustBounceToPassive`. -/
def mustBounceToPassive (c : Call) : Bool := c.request.operation ≠ .fileRead && c.irql ≠ .passive

/-- A work item is queued. -/
def queue (c : Call) (phase : Phase) : Call := { c with phase := if c.workItem then phase else .misuse }

/-- `HttpFail`. -/
def fail (c : Call) (status : Status) : Call := { c with finalStatus := some status, phase := .kick .failed }

/-- A call of `HttpComplete`. -/
def complete (c : Call) (status : Option Status) : Call := { c with phase := .completing status }

/-- What `HttpTryRetryReusedConnection` does once it may. -/
def rewind (c : Call) : Call × Effect :=
  ({ c with socket := none, source := .fresh, ctx := c.ctx.reset, rewound := c.rewound + 1, phase := .kick .acquireSocket },
    { Effect.nothing with closed := c.socket.toList })

/-- `HttpFailOrRetryReusedConnection`. -/
def failOrRetry (c : Call) (status : Status) : Call × Effect :=
  if c.source = .reused ∧ c.ctx.length = 0 then c.rewind else (c.fail status, .nothing)

/-- `HttpOnSocket`. -/
def onSocket (tls : Bool) (c : Call) (reused : Bool) : Except Status Connection → Call
  | .error status =>
    if status = .ioTimeout ∧ c.connectTimeouts + 1 < connectAttempts then
      { c with connectTimeouts := c.connectTimeouts + 1, source := .fresh, phase := .kick .acquireSocket }
    else c.fail status
  | .ok conn =>
    { c with
      socket := some conn, source := if reused then .reused else .fresh
      phase := .kick (if tls && !conn.socket.tls then .tlsHandshake else .sendRequest) }

/-- `SocketConnectAsyncCompletionRoutine`: a new connection, or why there is none. -/
def onConnected (tls : Bool) (made : ℕ) (c : Call) : Except Status (ℕ → UInt8) → Call × Effect
  | .error status =>
    let timedOut := if status = .ioTimeout then c.timedOut + 1 else c.timedOut
    ({ c with timedOut }.onSocket tls false (.error status), .nothing)
  | .ok buffer => (c.onSocket tls false (.ok (.fresh made c.address buffer)), { Effect.nothing with made := true })

/-- The slow path of `BlorgAcquireReusableWskSocketAsync`, up to its connect. -/
def connect (c : Call) (k : Answers) : Call :=
  match k.connect with
  | some status => c.complete (some status)
  | none => { c with phase := .connecting }

/-- `BlorgAcquireReusableWskSocketAsync`, with the pool's first connection. -/
def acquire (tls : Bool) (c : Call) (head : Option Connection) (k : Answers) : Call × Effect :=
  if c.source = .fresh then (c.connect k, .nothing)
  else
    match head with
    | none => (c.connect k, .nothing)
    | some conn =>
      if conn.address = c.address then (c.onSocket tls true (.ok conn), { Effect.nothing with popped := true })
      else (c.connect k, { Effect.nothing with popped := true, closed := [conn] })

/-- `HttpStageAcquireSocket`. -/
def kickAcquire (tls : Bool) (c : Call) (head : Option Connection) (k : Answers) : Call × Effect :=
  if c.source = .fresh ∧ c.irql = .dispatch then
    if c.workItem || k.workItem then ({ c with workItem := true }.queue .acquireQueued, .nothing)
    else (c.complete (some .insufficientResources), .nothing)
  else c.acquire tls head k

/-- A call of `BlorgTlsStartHandshakeAsync`. -/
def startHandshake (c : Call) (k : Answers) : Call × Effect :=
  match c.socket with
  | none => ({ c with phase := .misuse }, .nothing)
  | some conn =>
    match k.hello with
    | .error status => c.failOrRetry (ofTls status)
    | .ok hello => ({ c with phase := .handshaking (conn.hello hello) }, .nothing)

/-- `HttpStageTlsHandshake`. -/
def kickHandshake (c : Call) (k : Answers) : Call × Effect :=
  if c.irql = .passive then c.startHandshake k
  else if c.workItem then ({ c with phase := .handshakeQueued }, .nothing)
  else (c.complete (some .insufficientResources), .nothing)

section Steps

variable (parse : Bytes → Parsed) (P : Handshake.Primitives) (pin : Option Digest) (size : SystemSize)

/-- What a connection decrypts with once its handshake is complete. -/
def keyed (keys : Handshake.Keys) : Aead := fun seq header ciphertext tag =>
  (P.aeadDecrypt keys.readKey (buildNonce keys.readIv seq) header ciphertext tag).toOption

/-- The connection once its handshake is complete. -/
def handshaken (conn : Connection) (hs : Handshake.State) : Connection :=
  let keys := hs.keys.getD ⟨[], [], [], []⟩
  { conn with socket := ⟨true, hs.acc, 0, keyed P keys⟩, keys, writeSeq := 0, wire := hs.wire, taken := hs.taken }

/-- A step of the handshake, and `HttpOnTlsHandshakeComplete` if it is its last. -/
def onHandshake (c : Call) (hs : Handshake.State) : Call × Effect :=
  match c.socket with
  | none => ({ c with phase := .misuse }, .nothing)
  | some conn =>
    match hs.progress with
    | .complete => ({ c with socket := some (handshaken P conn hs), phase := .kick .sendRequest }, .nothing)
    | .failed status => c.failOrRetry (ofTls status)
    | _ => ({ c with phase := .handshaking hs }, .nothing)

/-- `HttpEncryptRequestRecord`: what is left in the context and the connection, and the record. -/
def encryptRequestRecord (c : Call) (conn : Connection) (k : Answers) : Call × Connection × Except Status Bytes :=
  let innerLen := ulong (c.requestBuffer.length + 1)
  let recordLen := ulong (innerLen + tagLength)
  if ciphertextMax - tagLength < innerLen then (c, conn, .error .invalidParameter)
  else if c.plaintextCapacity < innerLen && !k.plaintext then ({ c with plaintextCapacity := 0 }, conn, .error .insufficientResources)
  else
    let c := { c with plaintextCapacity := if c.plaintextCapacity < innerLen then innerLen else c.plaintextCapacity }
    let recordAllocSize := ulong (5 + recordLen)
    if recordAllocSize < 5 then (c, conn, .error .invalidParameter)
    else if c.recordCapacity < recordAllocSize && !k.record then ({ c with recordCapacity := 0 }, conn, .error .insufficientResources)
    else
      let c := { c with recordCapacity := if c.recordCapacity < recordAllocSize then recordAllocSize else c.recordCapacity }
      let plaintext := c.requestBuffer ++ [0x17]
      let header := [0x17, 0x03, 0x03, UInt8.ofNat (recordLen / 256), UInt8.ofNat recordLen]
      match P.aeadEncrypt conn.keys.writeKey (buildNonce conn.keys.writeIv conn.writeSeq) header plaintext with
      | .error status => (c, conn, .error (ofTls status))
      | .ok ciphertext =>
        let record := header ++ ciphertext
        (c, { conn with writeSeq := (conn.writeSeq + 1) % 2 ^ 64, sealed := conn.sealed ++ [(c.requestBuffer, record)] }, .ok record)

/-- The send of what is to be sent. -/
def send (c : Call) (conn : Connection) (buffer : Bytes) (k : Answers) : Call :=
  match k.send with
  | some status => { c with socket := some conn }.complete (some status)
  | none =>
    let conn := { conn with requests := conn.requests ++ [(c.requestBuffer, buffer)] }
    { c with socket := some conn, sent := c.sent ++ [(conn.socket.tls, buffer)], phase := .sending }

/-- `HttpStageSendRequest`. -/
def kickSend (c : Call) (k : Answers) : Call × Effect :=
  match c.socket with
  | none => ({ c with phase := .misuse }, .nothing)
  | some conn =>
    if conn.socket.tls then
      match c.encryptRequestRecord P conn k with
      | (c, conn, .error status) => ({ c with socket := some conn }.complete (some status), .nothing)
      | (c, conn, .ok record) => (c.send conn record k, .nothing)
    else (c.send conn c.requestBuffer k, .nothing)

/-- `HttpOnSend`. -/
def onSend (c : Call) : Option Status → Call × Effect
  | some status => c.failOrRetry status
  | none => ({ c with phase := .kick .receive }, .nothing)

/-- The receiving part of a request, as it stands. -/
def receiver (c : Call) (conn : Connection) (stage : Stage) : State := { ctx := c.ctx, socket := conn.socket, reused := c.source = .reused, stage }

/-- What a step of the receiving part comes to. A connection is released once the response is there,
closed for another attempt, or kept. -/
def absorb (c : Call) (conn : Connection) (s : State) : Call × Effect :=
  let conn := { conn with socket := s.socket }
  let c := { c with ctx := s.ctx, socket := some conn }
  match s.stage with
  | .connecting => c.rewind
  | .failed status => (c.complete (some status), .nothing)
  | .responded =>
    ({ c with socket := none, phase := .kick .dispatch }, { Effect.nothing with released := some { conn with responses := conn.responses + 1 } })
  | stage => ({ c with phase := .receiving stage }, .nothing)

/-- `HttpStageReceive`. -/
def kickReceive (c : Call) (k : Answers) : Call × Effect :=
  match c.socket with
  | none => ({ c with phase := .misuse }, .nothing)
  | some conn => c.absorb conn ((c.receiver conn .connecting).issue c.request k.receive)

/-- The record that a turn of the drain loop takes off. -/
def drained (conn : Connection) : Drained → Connection
  | .next _ _ | .deliver _ _ => { conn with taken := conn.taken ++ [conn.socket.acc.record] }
  | _ => conn

/-- What has come on the connection, and what has been taken off. -/
def recorded (c : Call) (conn : Connection) : Act → Connection
  | .received chunk _ => if conn.socket.tls then { conn with wire := conn.wire ++ chunk } else conn
  | .drained k => drained conn (drain c.request k c.ctx conn.socket)
  | _ => conn

/-- A step of the receiving part. -/
def onReceive (c : Call) (stage : Stage) (act : Act) : Option (Call × Effect) :=
  match c.socket with
  | none => some ({ c with phase := .misuse }, .nothing)
  | some conn => (next parse size c.request (c.receiver conn stage) act).map (c.absorb (c.recorded conn act))

/-- `HttpDispatchInline`. Only what is to be deserialized can fail. -/
def dispatchInline (c : Call) (k : Answers) : Call :=
  match if c.request.operation = .fileRead then none else k.deserialized with
  | some status => c.fail status
  | none =>
    if c.routine then { c with routine := false, answers := c.answers ++ [none], phase := .kick .complete } else { c with phase := .misuse }

/-- `HttpStageDispatch`. -/
def kickDispatch (c : Call) (k : Answers) : Call := if c.mustBounceToPassive then c.queue .dispatchQueued else c.dispatchInline k

/-- `HttpKick`. -/
def kick (tls : Bool) (head : Option Connection) (c : Call) (k : Answers) : Kick → Call × Effect
  | .acquireSocket => c.kickAcquire tls head k
  | .tlsHandshake => c.kickHandshake k
  | .sendRequest => c.kickSend P k
  | .receive => c.kickReceive k
  | .dispatch => (c.kickDispatch k, .nothing)
  | .complete => (c.complete none, .nothing)
  | .failed => (c.complete c.finalStatus, .nothing)

/-- `HttpComplete`. What it counts and measures is left out. -/
def finish (c : Call) (status : Option Status) : Call × Effect :=
  let c := { c with finalStatus := status }
  if c.mustBounceToPassive then (c.queue .completeQueued, .nothing)
  else
    match status with
    | none => ({ c with phase := .freed }, { Effect.nothing with freed := true })
    | some status =>
      ({ c with answers := if c.routine then c.answers ++ [some status] else c.answers, socket := none, phase := .freed },
        { Effect.nothing with closed := c.socket.toList, freed := true })

/-- What a queued work item does, at `PASSIVE_LEVEL`. -/
def work (c : Call) (k : Answers) : Option (Call × Effect) :=
  let passive := { c with irql := .passive }
  match c.phase with
  | .acquireQueued => some ({ passive with phase := .kick .acquireSocket }, .nothing)
  | .handshakeQueued => some (passive.startHandshake k)
  | .dispatchQueued => some (passive.dispatchInline k, .nothing)
  | .completeQueued => some (passive.complete c.finalStatus, .nothing)
  | _ => none

/-- A step of a request. It may not come to be built, and then the caller is told at once; what is
built ends inside a buffer whose size is a `ULONG`. -/
def next (tls : Bool) (head : Option Connection) (made : ℕ) (c : Call) : CallAct → Option (Call × Effect)
  | .built result =>
    match c.phase, result with
    | .building, .ok text =>
      if text.length + 1 < 2 ^ 32 then some ({ c with requestBuffer := text, phase := .kick .acquireSocket }, .nothing) else none
    | .building, .error status => some ({ c with finalStatus := some status, refused := true, phase := .freed }, { Effect.nothing with freed := true })
    | _, _ => none
  | .kick k =>
    match c.phase with
    | .kick stage => some (c.kick P tls head k stage)
    | _ => none
  | .worker k => c.work k
  | .connected result irql =>
    match c.phase with
    | .connecting => some ({ c with irql }.onConnected tls made result)
    | _ => none
  | .handshake act irql =>
    match c.phase with
    | .handshaking hs => (Handshake.next P pin size hs act).map ({ c with irql }.onHandshake P)
    | _ => none
  | .sent result irql =>
    match c.phase with
    | .sending => some ({ c with irql }.onSend result)
    | _ => none
  | .receive act irql =>
    match c.phase with
    | .receiving stage => { c with irql := act.irql c.irql irql }.onReceive parse size stage act
    | _ => none
  | .complete =>
    match c.phase with
    | .completing status => some (c.finish status)
    | _ => none

end Steps

/-- The context that `HttpAllocateContext` makes. -/
def fresh (tls : Bool) (request : Request) (address : ℕ) (buffer mdl : ℕ → UInt8) : Call :=
  { request, address, requestBuffer := [], workItem := request.operation ≠ .fileRead || tls, source := .poolable, connectTimeouts := 0, socket := none
    ctx := .fresh request buffer mdl, plaintextCapacity := 0, recordCapacity := 0, finalStatus := none, routine := true, irql := .passive
    phase := .building, answers := [], refused := false, sent := [], rewound := 0, timedOut := 0 }

end Call

end BlorgFS.Http
