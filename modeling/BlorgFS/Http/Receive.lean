import BlorgFS.Http.Headers
import BlorgFS.Lib.Transition
import BlorgFS.Tls.Accumulator
import BlorgFS.Tls.Record

/-! Receiving a response, `Client.c`. A request posts one receive after another, into its
buffer until the headers end there and then into the buffer or the caller's pages for exactly
what is left of the body; over TLS it posts them into the accumulator of the connection and
takes the records off it one by one. What the system decides comes in with the steps, and
everything a step does to memory or to a number that might not fit is put on a log. -/

namespace BlorgFS.Http

open Lib Tls

def pageSize : ℕ := 4096

/-- `HTTP_MAX_HEADER_BYTES`. -/
def maxHeaderBytes : ℕ := 64 * 1024

/-- `HTTP_MAX_CONTENT_LENGTH`. -/
def maxContentLength : ℕ := 64 * 1024 * 1024

/-- `HTTP_INITIAL_RECV_CAPACITY`. -/
def initialRecvCapacity : ℕ := 4 * pageSize

/-- `HTTP_MDL_INITIAL_RECV_CAPACITY`. -/
def mdlInitialRecvCapacity : ℕ := 2048

/-! ### Requests -/

/-- The public entry points, with the length of a read. -/
inductive Request where
  | getDirectoryInfo
  | getFileInformation
  | getChanges
  | getFile (length : ℕ)
  | getFileMdl (length : ℕ)
  deriving DecidableEq, Repr

namespace Request

def operation : Request → Operation
  | getDirectoryInfo => .dirInfo
  | getFileInformation => .fileInfo
  | getChanges => .changes
  | getFile _ | getFileMdl _ => .fileRead

def expectedStatusCode : Request → ℕ
  | getFile _ | getFileMdl _ => 206
  | _ => 200

def expectedContentLength : Request → ℕ
  | getFile length | getFileMdl length => length
  | _ => 0

def targetMdl : Request → Bool
  | getFileMdl _ => true
  | _ => false

/-- What `HttpAllocateContext` puts in `Capacity`. -/
def capacity : Request → ℕ
  | getDirectoryInfo | getChanges => initialRecvCapacity
  | getFileInformation => pageSize
  | getFile length => ulong (length + mdlInitialRecvCapacity)
  | getFileMdl _ => mdlInitialRecvCapacity

/-- Whether the answer forbids that it is stored; only metadata asks. -/
def noStore (r : Request) (headers : List Header) : Bool :=
  (r.operation = .dirInfo || r.operation = .fileInfo) && forbidsStoring headers

/-- The version of the file an answer is of; only reads ask. -/
def version (r : Request) (headers : List Header) : Option (ℕ × ℕ) :=
  if r.operation = .fileRead then parseFileVersion headers else none

end Request

/-! ### The context of a request -/

/-- What a step does to memory and to numbers. -/
inductive Event where
  | bufferWrite (start size capacity : ℕ)
  | mdlWrite (start size contentLength : ℕ)
  | sum (a b : ℕ)
  | narrowed (n : ℕ)
  | difference (a b : ℕ)
  | posted (size : ℕ)
  deriving DecidableEq, Repr

/-- `HTTP_CONTEXT`, with the caller's pages and the log. -/
structure Context where
  buffer : ℕ → UInt8
  capacity : ℕ
  length : ℕ
  bodyOffset : ℕ
  contentLength : ℕ
  bodyEndOffset : ℕ
  statusCode : ℕ
  noStore : Bool
  version : Option (ℕ × ℕ)
  mdl : ℕ → UInt8
  log : List Event

/-- What the system answers in a step: the pool and the mapping of the caller's pages, what
is in memory nobody wrote, and why a receive could not be issued. -/
structure Choice where
  pool : Bool
  mapped : Bool
  junk : ℕ → UInt8
  refused : Option Status

/-- Nothing that was asked for is denied. -/
def Choice.Willing (k : Choice) : Prop := k.pool = true ∧ k.mapped = true ∧ k.refused = none

instance (k : Choice) : Decidable k.Willing := inferInstanceAs (Decidable (_ ∧ _ ∧ _))

namespace Context

/-- The context a request starts with. -/
def fresh (r : Request) (buffer mdl : ℕ → UInt8) : Context :=
  { buffer, capacity := r.capacity, length := 0, bodyOffset := 0, contentLength := 0, bodyEndOffset := 0
    statusCode := 0, noStore := false, version := none, mdl, log := [] }

/-- What `HttpTryRetryReusedConnection` resets. -/
def reset (c : Context) : Context :=
  { c with length := 0, bodyOffset := 0, contentLength := 0, bodyEndOffset := 0, statusCode := 0 }

def note (c : Context) (events : List Event) : Context := { c with log := events ++ c.log }

/-- `HttpGrowBufferIfNeeded`. -/
def grow (c : Context) (required : ℕ) (k : Choice) : Except Status Context :=
  if required ≤ c.capacity then .ok c
  else if maxULong < required then .error .invalidParameter
  else if k.pool then
    .ok ({ c with
      buffer := fun i => if i < c.length then c.buffer i else k.junk i
      capacity := required }.note [.bufferWrite 0 c.length required])
  else .error .insufficientResources

end Context

/-! ### Parsing the headers -/

/-- `HttpParseHeaders`. -/
def parseHeaders (parse : Bytes → Parsed) (r : Request) (c : Context) : Except Status Context :=
  match parse (load c.buffer 0 c.length) with
  | .incomplete => .error (if maxHeaderBytes ≤ c.length then .invalidNetworkResponse else .bufferTooSmall)
  | .malformed => .error .invalidParameter
  | .complete consumed statusCode headers =>
    match getContentLength headers with
    | .error st => .error st
    | .ok contentLength =>
      if maxContentLength < contentLength then .error .invalidParameter
      else
        match checkedAdd consumed contentLength with
        | none => .error .invalidParameter
        | some bodyEndOffset =>
          .ok ({ c with
            statusCode, contentLength, bodyEndOffset
            bodyOffset := consumed
            noStore := r.noStore headers
            version := r.version headers }.note [.sum consumed contentLength])

/-! ### Placing the body -/

/-- The body down to the next 8-byte boundary of the buffer. -/
def slide (k : Choice) (c : Context) : Except Status Context :=
  let aligned := (c.bodyOffset + 7) / 8 * 8
  if aligned = c.bodyOffset then .ok c
  else
    match checkedAdd aligned c.contentLength with
    | none => .error .invalidParameter
    | some alignedEnd => do
      let c ← c.grow (alignedEnd + 1) k
      let moved := sizeSub c.length c.bodyOffset
      .ok ({ c with
        buffer := store c.buffer aligned (load c.buffer c.bodyOffset moved)
        length := ulong (c.length + ulong (aligned - c.bodyOffset))
        bodyOffset := aligned
        bodyEndOffset := alignedEnd }.note
          [.sum aligned c.contentLength, .difference c.length c.bodyOffset, .bufferWrite aligned moved c.capacity,
            .narrowed (aligned - c.bodyOffset), .narrowed (c.length + (aligned - c.bodyOffset))])

/-- What came of the body along with the headers goes where the rest will, and the buffer is
made large enough for the rest. -/
def placeBody (r : Request) (k : Choice) (c : Context) : Except Status Context :=
  if r.targetMdl then
    let spill := sizeSub c.length c.bodyOffset
    if spill = 0 then .ok c
    else if k.mapped then
      .ok ({ c with mdl := store c.mdl 0 (load c.buffer c.bodyOffset spill) }.note
        [.difference c.length c.bodyOffset, .mdlWrite 0 spill c.contentLength])
    else .error .insufficientResources
  else do
    let c ← if r.operation = .fileRead then .ok c else slide k c
    c.grow (c.bodyEndOffset + 1) k

/-- What `HttpReadResponse` decides. -/
inductive Verdict where
  | again
  | failed (st : Status)
  | responded
  deriving DecidableEq, Repr

/-- Whether all of the declared body is there. -/
def await (c : Context) : Verdict := if c.length < c.bodyEndOffset then .again else .responded

/-- `HttpReadResponse`. -/
def readResponse (parse : Bytes → Parsed) (r : Request) (k : Choice) (c : Context) : Verdict × Context :=
  if c.bodyOffset = 0 then
    match parseHeaders parse r c with
    | .error .bufferTooSmall => (.again, c)
    | .error st => (.failed st, c)
    | .ok c =>
      if c.statusCode ≠ r.expectedStatusCode then (.failed (statusToNtStatus c.statusCode), c)
      else if r.operation = .fileRead ∧ c.contentLength ≠ r.expectedContentLength then (.failed .invalidParameter, c)
      else if c.bodyEndOffset < c.length then (.failed .invalidParameter, c)
      else
        match placeBody r k c with
        | .error st => (.failed st, c)
        | .ok c => (await c, c)
  else if c.bodyEndOffset < c.length then (.failed .invalidParameter, c)
  else (await c, c)

/-! ### Posting a receive -/

inductive Target where
  | buffer | mdl
  deriving DecidableEq, Repr

/-- A receive that has been posted. -/
structure Post where
  target : Target
  start : ℕ
  size : ℕ
  deriving DecidableEq, Repr

/-- `HttpIssueReceive`. -/
def issueReceive (r : Request) (k : Choice) (c : Context) : Except Status (Context × Post) :=
  if c.bodyOffset = 0 then do
    let c ← if c.length = c.capacity then c.grow (c.capacity + pageSize) k else .ok c
    let size := ulongSub c.capacity c.length
    .ok (c.note [.difference c.capacity c.length, .posted size, .bufferWrite c.length size c.capacity], ⟨.buffer, c.length, size⟩)
  else
    let size := ulongSub (ulong c.bodyEndOffset) c.length
    let numbers : List Event := [.narrowed c.bodyEndOffset, .difference c.bodyEndOffset c.length, .posted size]
    if r.targetMdl then
      let start := ulongSub c.length (ulong c.bodyOffset)
      .ok (c.note (.narrowed c.bodyOffset :: .difference c.length c.bodyOffset :: .mdlWrite start size c.contentLength :: numbers),
        ⟨.mdl, start, size⟩)
    else .ok (c.note (.bufferWrite c.length size c.capacity :: numbers), ⟨.buffer, c.length, size⟩)

/-- The bytes a receive brought, where it was posted. -/
def Context.received (c : Context) (post : Post) (chunk : Bytes) : Context :=
  let c := { c with length := ulong (c.length + chunk.length) }.note [.narrowed (c.length + chunk.length)]
  match post.target with
  | .buffer => { c with buffer := store c.buffer post.start chunk }
  | .mdl => { c with mdl := store c.mdl post.start chunk }

/-! ### Taking a record off -/

/-- The connection: whether the handshake is done, the accumulator and the read key. -/
structure Socket where
  tls : Bool
  acc : Accumulator
  readSeq : ℕ
  aead : Aead

/-- Where a record is decrypted to: the caller's pages, the scratch buffer with the place and
the room its content has in the caller's pages, or the buffer. -/
inductive Destination where
  | mdl (start : ℕ)
  | scratch (start room : ℕ)
  | buffer (start : ℕ)

def destination (r : Request) (k : Choice) (c : Context) (innerLength : ℕ) : Except Status (Context × Destination) :=
  if r.targetMdl ∧ c.bodyOffset ≠ 0 then
    if c.bodyEndOffset < c.length then .error .invalidParameter
    else if k.mapped then
      let room := ulongSub (ulong c.bodyEndOffset) c.length
      let start := ulongSub c.length (ulong c.bodyOffset)
      .ok (c.note [.narrowed c.bodyEndOffset, .difference c.bodyEndOffset c.length, .narrowed c.bodyOffset, .difference c.length c.bodyOffset],
        if innerLength ≤ room then .mdl start else .scratch start room)
    else .error .insufficientResources
  else do
    let c ← c.grow (c.length + innerLength) k
    .ok (c, .buffer c.length)

/-- The plaintext of a record, or what a decryption that failed left, at its destination. -/
def Context.decrypted (c : Context) (plaintext : Bytes) : Destination → Context
  | .mdl start => { c with mdl := store c.mdl start plaintext }.note [.mdlWrite start plaintext.length c.contentLength]
  | .scratch _ _ => c.note [.bufferWrite 0 plaintext.length ciphertextMax]
  | .buffer start => { c with buffer := store c.buffer start plaintext }.note [.bufferWrite start plaintext.length c.capacity]

/-- What one record comes to: none is there in full, it has been dealt with, the response is
to be looked at, the request fails, or the connection is of no use any more. -/
inductive Drained where
  | wait
  | next (c : Context) (s : Socket)
  | deliver (c : Context) (s : Socket)
  | failed (st : Status) (c : Context)
  | lost (st : Status) (c : Context)

/-- Content at its place is counted. The response is looked at when its headers may have ended
or its body has. -/
def counted (s : Socket) (n : ℕ) (c : Context) : Drained :=
  let c := { c with length := ulong (c.length + n) }.note [.narrowed (c.length + n)]
  if c.bodyOffset = 0 ∨ c.bodyEndOffset ≤ c.length then .deliver c s else .next c s

/-- Content that has been decrypted, moved out of the scratch buffer if it is there. -/
def account (s : Socket) (content : Bytes) (c : Context) : Destination → Drained
  | .scratch start room =>
    if room < content.length then .failed .invalidParameter c
    else counted s content.length ({ c with mdl := store c.mdl start content }.note [.mdlWrite start content.length c.contentLength])
  | _ => counted s content.length c

/-- A record of application data that is there in full. -/
def openRecord (r : Request) (k : Choice) (c : Context) (s : Socket) : Drained :=
  let innerLength := s.acc.declared - tagLength
  match destination r k c innerLength with
  | .error st => .failed st c
  | .ok (c, dest) =>
    let record := s.acc.record
    match s.aead s.readSeq (record.take 5) ((record.drop 5).take innerLength) (record.drop (5 + innerLength)) with
    | none => .lost (.other 0) (c.decrypted (load k.junk 0 innerLength) dest)
    | some plaintext =>
      let c := c.decrypted plaintext.1 dest
      let s := { s with readSeq := s.readSeq + 1, acc := s.acc.consume }
      match stripInnerPlaintext plaintext.1 with
      | none => .lost .invalidParameter c
      | some (contentType, contentLength) =>
        if contentType = 0x16 then .next c s
        else if contentType ≠ 0x17 then .lost .invalidParameter c
        else account s (plaintext.1.take contentLength) c dest

/-- One turn of the loop of `HttpIssueTlsReceive`. -/
def drain (r : Request) (k : Choice) (c : Context) (s : Socket) : Drained :=
  if s.acc.buffered < 5 then .wait
  else
    let recordType := s.acc.header.getD 0 0
    if recordType = 0x15 then .lost .connectionReset c
    else if ciphertextMax < s.acc.declared ∨ recordType ≠ 0x17 ∧ recordType ≠ 0x14 then .lost .invalidParameter c
    else if s.acc.buffered < 5 + s.acc.declared then .wait
    else if recordType = 0x14 then .next c { s with acc := s.acc.consume }
    else if s.acc.declared < tagLength + 1 then .lost .invalidParameter c
    else openRecord r k c s

/-! ### The request -/

inductive Stage where
  | receiving (post : Post)
  | draining
  | bulk (room : ℕ)
  | connecting
  | failed (st : Status)
  | responded

structure State where
  ctx : Context
  socket : Socket
  reused : Bool
  stage : Stage

inductive Act where
  | connected (socket : Socket) (k : Choice)
  | received (chunk : Bytes) (k : Choice)
  | closed (k : Choice)
  | broken (st : Status)
  | drained (k : Choice)

namespace State

/-- `HttpFailOrRetryReusedConnection`. -/
def lose (s : State) (st : Status) : State :=
  if s.reused ∧ s.ctx.length = 0 then { s with ctx := s.ctx.reset, reused := false, stage := .connecting }
  else { s with stage := .failed st }

/-- `HttpIssueReceiveDispatch`. A receive that cannot be issued ends the request. -/
def issue (r : Request) (k : Choice) (s : State) : State :=
  match k.refused with
  | some st => { s with stage := .failed st }
  | none =>
    if s.socket.tls then { s with stage := .draining }
    else
      match issueReceive r k s.ctx with
      | .error st => { s with stage := .failed st }
      | .ok (c, post) => { s with ctx := c, stage := .receiving post }

/-- `HttpStageReadResponse`. -/
def read (parse : Bytes → Parsed) (r : Request) (k : Choice) (s : State) : State :=
  match readResponse parse r k s.ctx with
  | (.again, c) => { s with ctx := c }.issue r k
  | (.failed st, c) => { s with ctx := c, stage := .failed st }
  | (.responded, c) => { s with ctx := c, stage := .responded }

/-- The bulk receive `HttpIssueTlsReceive` posts once no record is left in full. -/
def postBulk (size : SystemSize) (k : Choice) (s : State) : State :=
  let acc := s.socket.acc.settle size
  let s := { s with socket := { s.socket with acc }, ctx := s.ctx.note [.posted (acc.room size)] }
  match k.refused with
  | some st => { s with stage := .failed st }
  | none => { s with stage := .bulk (acc.room size) }

/-- Where a turn of the loop leads. -/
def turned (parse : Bytes → Parsed) (size : SystemSize) (r : Request) (k : Choice) (s : State) : Drained → State
  | .wait => s.postBulk size k
  | .next c socket => { s with ctx := c, socket }
  | .deliver c socket => { s with ctx := c, socket }.read parse r k
  | .failed st c => { s with ctx := c, stage := .failed st }
  | .lost st c => { s with ctx := c }.lose st

/-- `HttpIssueTlsReceive`: one turn of its loop, and the receive after the last. -/
def drained (parse : Bytes → Parsed) (size : SystemSize) (r : Request) (k : Choice) (s : State) : State :=
  s.turned parse size r k (drain r k s.ctx s.socket)

end State

instance (size : SystemSize) (a : Accumulator) : Decidable (a.Fits size) :=
  decidable_of_iff (a.offset ≤ a.length ∧ a.length ≤ recvCapacity size) ⟨fun h => ⟨h.1, h.2⟩, fun h => ⟨h.offset_le, h.length_le⟩⟩

/-- The steps of a request from its first receive on. A connection made for a retry comes
with what the handshake left in the accumulator. -/
def next (parse : Bytes → Parsed) (size : SystemSize) (r : Request) (s : State) : Act → Option State
  | .connected socket k =>
    match s.stage with
    | .connecting => if socket.acc.Fits size then some ({ s with socket }.issue r k) else none
    | _ => none
  | .received chunk k =>
    match s.stage with
    | .receiving post =>
      if 0 < chunk.length ∧ chunk.length ≤ post.size then some ({ s with ctx := s.ctx.received post chunk }.read parse r k)
      else none
    | .bulk room =>
      if 0 < chunk.length ∧ chunk.length ≤ room then
        some ({ s with socket := { s.socket with acc := s.socket.acc.arrive chunk } }.issue r k)
      else none
    | _ => none
  | .closed k =>
    match s.stage with
    | .receiving _ =>
      if s.ctx.bodyOffset = 0 ∨ s.ctx.length < s.ctx.bodyEndOffset then some (s.lose .connectionDisconnected)
      else some (s.read parse r k)
    | .bulk _ => some (s.lose .connectionDisconnected)
    | _ => none
  | .broken st =>
    match s.stage with
    | .receiving _ | .bulk _ => some (s.lose st)
    | _ => none
  | .drained k =>
    match s.stage with
    | .draining => some (s.drained parse size r k)
    | _ => none

/-- The first receive of a request on a connection, taken from the pool or made for it. -/
def start (r : Request) (buffer mdl : ℕ → UInt8) (socket : Socket) (reused : Bool) (k : Choice) : State :=
  { ctx := .fresh r buffer mdl, socket, reused, stage := .connecting : State }.issue r k

def receiving (parse : Bytes → Parsed) (size : SystemSize) (r : Request) : System State where
  init s := ∃ buffer mdl socket reused k, socket.acc.Fits size ∧ s = start r buffer mdl socket reused k
  step s s' := ∃ act, next parse size r s act = some s'

end BlorgFS.Http
