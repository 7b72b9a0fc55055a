import BlorgFS.Lib.Tally
import BlorgFS.Http.CallSteps

/-! The client as a whole, `Client.c` and `Socket.c`: any number of requests, the pool their
connections come from and go back to, the prewarm that fills it, and the unload of `Driver.c`. A step
is one of any of them, in any order. The prewarm has one connect out at a time. -/

namespace BlorgFS.Http

open Lib Tls

/-- `SocketMaxPoolSize`. -/
def maxPoolSize : ℕ := 64

/-- What the prewarm's connect has come to: none is out, its connect is, its handshake is to start or
goes on, or the step is to be accounted for. -/
inductive Warming where
  | idle
  | connecting
  | opening (conn : Connection)
  | handshaking (conn : Connection) (hs : Handshake.State)
  | finishing

/-- The connection that the prewarm holds. -/
def Warming.held : Warming → Option Connection
  | .opening conn | .handshaking conn _ => some conn
  | _ => none

/-- How far `BlorgDriverUnload` has come: it waits for the requests, then for the prewarm, deletes the
device object, and empties the pool. -/
inductive Unload where
  | running | draining | stopping | stopped | cleaned
  deriving DecidableEq, Repr

/-- The client: every request there has been, `SocketPool`, `HttpActiveRequests` and `HttpDrainEvent`.
`closed` are the connections that have been closed, and `made` counts those that have been made. -/
structure Client where
  calls : List Call
  pool : List Connection
  warming : Warming
  closed : List Connection
  made : ℕ
  active : ℤ
  event : Bool
  unload : Unload

inductive WarmAct where
  | issue
  | connected (result : Except Status (ℕ → UInt8)) (address : ℕ)
  | hello (result : Except Tls.Status Hello)
  | handshake (act : Handshake.Act)
  | finish

inductive ClientAct where
  | issue (request : Request) (address : ℕ) (buffer mdl : ℕ → UInt8)
  | call (i : ℕ) (act : CallAct)
  | warm (act : WarmAct)
  | drain
  | latch
  | observe
  | cleanup

namespace Client

/-- `BlorgReleaseReusableWskSocket`. -/
def release (conn : Connection) (x : Client) : Client :=
  if maxPoolSize ≤ x.pool.length then { x with closed := conn :: x.closed } else { x with pool := conn :: x.pool }

/-- A connection may be released. -/
def given (x : Client) : Option Connection → Client
  | none => x
  | some conn => x.release conn

/-- `HttpReleaseActive`. -/
def releaseActive (x : Client) : Client := { x with active := x.active - 1, event := x.event || x.active - 1 = 0 }

/-- What a request's step takes from the pool, makes and closes. -/
def exchange (x : Client) (i : ℕ) (c : Call) (e : Effect) : Client :=
  { x with
    calls := x.calls.set i c
    pool := if e.popped then x.pool.tail else x.pool
    made := if e.made then x.made + 1 else x.made
    closed := e.closed ++ x.closed }

/-- A request's step. -/
def perform (x : Client) (i : ℕ) (c : Call) (e : Effect) : Client :=
  let x := (x.exchange i c e).given e.released
  if e.freed then x.releaseActive else x

section Steps

variable (parse : Bytes → Parsed) (P : Handshake.Primitives) (pin : Option Digest) (size : SystemSize) (tls : Bool)

/-- `SocketPrewarmStepComplete`. -/
def prewarmStepComplete (x : Client) (address : ℕ) : Except Status (ℕ → UInt8) → Client
  | .error _ => { x with warming := .finishing }
  | .ok buffer =>
    let conn := Connection.fresh x.made address buffer
    if tls then { x with made := x.made + 1, warming := .opening conn }
    else { x with made := x.made + 1, warming := .finishing }.release conn

/-- `SocketPrewarmHandshakeComplete`, if this is the handshake's end. -/
def prewarmHandshake (x : Client) (conn : Connection) (hs : Handshake.State) : Client :=
  match hs.progress with
  | .complete => { x with warming := .finishing }.release (Call.handshaken P conn hs)
  | .failed _ => { x with warming := .finishing, closed := conn :: x.closed }
  | _ => { x with warming := .handshaking conn hs }

/-- A step of the prewarm. A connect is issued unless the latch is set; one that cannot be issued
changes nothing. -/
def warm (x : Client) : WarmAct → Option Client
  | .issue =>
    match x.warming, x.unload with
    | .idle, .running | .idle, .draining => some { x with warming := .connecting }
    | _, _ => none
  | .connected result address =>
    match x.warming with
    | .connecting => some (x.prewarmStepComplete tls address result)
    | _ => none
  | .hello result =>
    match x.warming, result with
    | .opening conn, .error _ => some { x with warming := .finishing, closed := conn :: x.closed }
    | .opening conn, .ok hello => some { x with warming := .handshaking conn (conn.hello hello) }
    | _, _ => none
  | .handshake act =>
    match x.warming with
    | .handshaking conn hs => (Handshake.next P pin size hs act).map (x.prewarmHandshake P conn)
    | _ => none
  | .finish =>
    match x.warming with
    | .finishing => some { x with warming := .idle }
    | _ => none

/-- A step of the client. A request is refused once no reference is left, and then nothing happens. -/
def next (x : Client) : ClientAct → Option Client
  | .issue request address buffer mdl =>
    if x.active = 0 then some x
    else some { x with calls := x.calls ++ [.fresh tls request address buffer mdl], active := x.active + 1 }
  | .call i act =>
    match x.calls[i]? with
    | none => none
    | some c => (c.next parse P pin size tls x.pool.head? x.made act).map fun (c, e) => x.perform i c e
  | .warm act => x.warm P pin size tls act
  | .drain => if x.unload = .running then some { x.releaseActive with unload := .draining } else none
  | .latch => if x.unload = .draining ∧ x.event then some { x with unload := .stopping } else none
  | .observe =>
    match x.unload, x.warming with
    | .stopping, .idle => some { x with unload := .stopped }
    | _, _ => none
  | .cleanup =>
    if x.unload = .stopped then
      match x.pool with
      | [] => some { x with unload := .cleaned }
      | conn :: pool => some { x with pool, closed := conn :: x.closed }
    else none

end Steps

/-- After `BlorgInitialiseHttpClient`. -/
def initial : Client :=
  { calls := [], pool := [], warming := .idle, closed := [], made := 0, active := 1, event := false, unload := .running }

def system (parse : Bytes → Parsed) (P : Handshake.Primitives) (pin : Option Digest) (size : SystemSize) (tls : Bool) : System Client where
  init x := x = initial
  step x x' := ∃ act, x.next parse P pin size tls act = some x'

/-! ### Where a connection is -/

/-- Whether a connection is the one with the number. -/
def counts (id : ℕ) (conn : Connection) : ℕ := if conn.id = id then 1 else 0

/-- In how many places the connection with the number is. -/
def places (x : Client) (id : ℕ) : ℕ :=
  tally (counts id) x.closed + tally (counts id) x.pool + tally (counts id) x.warming.held.toList +
    tally (fun c => tally (counts id) c.socket.toList) x.calls

/-- A connection that the client has, or has had. -/
inductive Has (x : Client) (conn : Connection) : Prop
  | closed : conn ∈ x.closed → Has x conn
  | pooled : conn ∈ x.pool → Has x conn
  | warming : x.warming.held = some conn → Has x conn
  | call {c : Call} : c ∈ x.calls → c.socket = some conn → Has x conn

/-- The requests that are not over. -/
def live (x : Client) : ℕ := tally (fun c => (Call.Phase.live c.phase).toNat) x.calls

end Client

end BlorgFS.Http
