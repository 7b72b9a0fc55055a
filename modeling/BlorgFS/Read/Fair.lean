import BlorgFS.DiskCache.Parts
import BlorgFS.Lib.Transition

/-! The fair share of the link, `ReadFair` in `Read.c`: what is in flight, which
reads wait for it, and the sections under its spin lock that allow, hold, release
and settle them. The reads are numbered as they arrive.

An IRP's own fields are only touched by whoever has the IRP, so its admitted flag is
set and cleared in the section that charges or settles it. Counters are the source's,
`2 ^ 64` and `2 ^ 32` wide, and `underflow` remembers a subtraction that went below
zero. `reserved` and `givenBack` add up what each read was lent and returned. -/

namespace BlorgFS.Read

open DiskCache

/-- The statuses the read path tells apart. `failed` is any error of the HTTP client
or of locking the buffer. -/
inductive Status where
  | success | pending | endOfFile | insufficientResources | unexpectedIoError
  | failed (code : ℕ)
  deriving DecidableEq, Repr

/-- What a read asks for, `Parameters.Read`, its file's node, and whether it is
read-ahead. `BlorgVolumeRead` takes no empty read and no negative offset. -/
structure Request where
  node : ℕ
  offset : ℕ
  length : ℕ
  speculative : Bool
  length_pos : 0 < length
  length_lt : length < 2 ^ 32

def maxFetches : ℕ := 32

/-- The registry's `ReadFairBudgetKb`, if it is one the driver takes, and the reads
that arrive. -/
structure Setup where
  budgetKb : ℕ
  request : ℕ → Request
  budgetKb_le : budgetKb ≤ (2 ^ 32 - 1) / 1024

/-- `global.ReadFairBudget`. -/
def Setup.budget (V : Setup) : ℕ := V.budgetKb * 1024

/-- `DriverContext[2]`: nothing yet, a work item, or the issue time. -/
inductive Context2 where
  | empty
  | item (n : ℕ)
  | stamp
  deriving DecidableEq, Repr

/-- An IRP's completion: by the dispatch routine or not, and how. -/
structure Completion where
  dispatcher : Bool
  status : Status
  information : ℕ
  deriving DecidableEq, Repr

/-- The fields of an IRP the read path uses, and what was done to it: `admitted` is
`IRP_CONTEXT_FLAG_FETCH_ADMITTED` in `DriverContext[0]`. -/
structure Irp where
  admitted : Bool
  context1 : ℕ
  context2 : Context2
  completions : List Completion
  admissions : ℕ
  settlements : ℕ
  deriving DecidableEq, Repr

/-- The fair share's part of a `NON_PAGED_NODE`. -/
structure Node where
  readFetchesInFlight : ℕ
  readFinishTag : ℕ
  deriving DecidableEq, Repr

/-- `ReadFair`, the nodes, and the reads that came so far. -/
structure Fair where
  inFlightBytes : ℕ
  virtualTime : ℕ
  inFlightFetches : ℕ
  held : List ℕ
  waiting : List ℕ
  nodes : ℕ → Node
  irps : ℕ → Irp
  reserved : ℕ → ℕ
  givenBack : ℕ → ℕ
  underflow : Bool

/-- `a - b` in `w` bits. -/
def wrapSub (w a b : ℕ) : ℕ := if b ≤ a then a - b else a + 2 ^ w - b

namespace Fair

variable (V : Setup) (f : Fair)

def setIrp (i : ℕ) (x : Irp) : Fair := { f with irps := Function.update f.irps i x }

def nodeOf (i : ℕ) : Node := f.nodes (V.request i).node

/-- `ReadFairMustHold`. -/
def mustHold (node : ℕ) (mayHold : Bool) : Bool :=
  let overBudget := mayHold && V.budget ≠ 0 && V.budget ≤ f.inFlightBytes &&
    (f.nodes node).readFetchesInFlight ≠ 0
  overBudget || maxFetches ≤ f.inFlightFetches

/-- Counts a read's fetch in flight. -/
def charge (i : ℕ) : Fair :=
  let request := V.request i
  { f with
    inFlightBytes := (f.inFlightBytes + request.length) % 2 ^ 64
    inFlightFetches := (f.inFlightFetches + 1) % 2 ^ 32
    nodes := Function.update f.nodes request.node
      { f.nodes request.node with readFetchesInFlight := ((f.nodes request.node).readFetchesInFlight + 1) % 2 ^ 32 }
    irps := Function.update f.irps i
      { f.irps i with admitted := true, admissions := (f.irps i).admissions + 1 } }

/-- The start tag of a read that is admitted or held now. -/
def startTag (i : ℕ) : ℕ := max (f.nodeOf V i).readFinishTag f.virtualTime

/-- Charges the bytes of read `i` to its file. -/
def tag (i : ℕ) : Fair :=
  let request := V.request i
  { f with
    nodes := Function.update f.nodes request.node
      { f.nodes request.node with readFinishTag := (f.startTag V i + request.length) % 2 ^ 64 } }

/-- The end of `ReadFairAdmit`'s section when the read need not be held. -/
def admitNow (i : ℕ) : Fair :=
  { (f.tag V i).charge V i with virtualTime := f.startTag V i }

/-- The end of `ReadFairAdmit`'s section when it must be. -/
def hold (i : ℕ) (mayHold : Bool) (item : ℕ) : Fair :=
  let start := f.startTag V i
  let f := (f.tag V i).setIrp i { f.irps i with context1 := start, context2 := .item item }
  if mayHold then { f with held := f.held ++ [i] } else { f with waiting := f.waiting ++ [i] }

/-- The walk over `Held` for the read-ahead that goes out next: the lowest start
tag, of those the link has room for or whose file has nothing in flight. -/
def earliest (room : Bool) : Option ℕ × ℕ :=
  f.held.foldl (fun next i =>
    if (f.irps i).context1 < next.2 ∧ (room = true ∨ (f.nodeOf V i).readFetchesInFlight = 0)
    then (some i, (f.irps i).context1) else next) (none, 2 ^ 64 - 1)

/-- The read the loop of `ReadFairAdmitHeld` admits next, and its start tag. -/
def next : Option (ℕ × ℕ) :=
  match f.waiting with
  | i :: _ => some (i, (f.irps i).context1)
  | [] =>
    match f.earliest V (f.inFlightBytes < V.budget) with
    | (some i, start) => some (i, start)
    | (none, _) => none

/-- The body of the loop. -/
def release (i start : ℕ) : Fair :=
  let f := { f with held := f.held.erase i, waiting := f.waiting.erase i }
  { f.charge V i with virtualTime := max f.virtualTime start }

/-- The loop of `ReadFairAdmitHeld` with room for `room` more fetches, and what it
moves to `Released`. -/
def admitHeldFrom : ℕ → Fair → Fair × List ℕ
  | 0, f => (f, [])
  | room + 1, f =>
    match f.next V with
    | none => (f, [])
    | some (i, start) =>
      let (f, released) := admitHeldFrom room (f.release V i start)
      (f, i :: released)

/-- `ReadFairAdmitHeld`. Each round takes one of the fetches that are left. -/
def admitHeld : Fair × List ℕ := admitHeldFrom V (maxFetches - f.inFlightFetches) f

/-- Takes a read's fetch out of flight. -/
def uncharge (i : ℕ) : Fair :=
  let request := V.request i
  let node := f.nodes request.node
  { f with
    inFlightBytes := wrapSub 64 f.inFlightBytes request.length
    inFlightFetches := wrapSub 32 f.inFlightFetches 1
    nodes := Function.update f.nodes request.node
      { node with readFetchesInFlight := wrapSub 32 node.readFetchesInFlight 1 }
    irps := Function.update f.irps i
      { f.irps i with admitted := false, settlements := (f.irps i).settlements + 1 }
    underflow := f.underflow || f.inFlightBytes < request.length || f.inFlightFetches < 1 ||
      node.readFetchesInFlight < 1 }

/-- `ReadFairSettle`. -/
def settle (i : ℕ) : Fair × List ℕ :=
  if (f.irps i).admitted = false then (f, []) else (f.uncharge V i).admitHeld V

/-- `ReadFairReserve`, for read `i`. -/
def reserve (i fetches : ℕ) : Fair × ℕ :=
  let room := if f.inFlightFetches < maxFetches then maxFetches - f.inFlightFetches else 0
  let reserved := min fetches room
  ({ f with
     inFlightFetches := (f.inFlightFetches + reserved) % 2 ^ 32
     reserved := Function.update f.reserved i (f.reserved i + reserved) }, reserved)

/-- Takes `fetches` of what read `i` reserved out of flight. -/
def restore (i fetches : ℕ) : Fair :=
  { f with
    inFlightFetches := wrapSub 32 f.inFlightFetches fetches
    givenBack := Function.update f.givenBack i (f.givenBack i + fetches)
    underflow := f.underflow || f.inFlightFetches < fetches }

/-- `ReadFairGiveBack`, of what read `i` reserved. -/
def giveBack (i fetches : ℕ) : Fair × List ℕ :=
  if fetches = 0 then (f, []) else (f.restore i fetches).admitHeld V

end Fair

end BlorgFS.Read
