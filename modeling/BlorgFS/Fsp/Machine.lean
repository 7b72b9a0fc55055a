import BlorgFS.Lib.Tally
import BlorgFS.Lib.Transition
import Mathlib.Logic.Function.Basic

/-! The queue of the file system process, `FspWorkQueue.c`, with the handlers of `Create.c`,
`Read.c` and `DirCtrl.c` and their completion routines as far as an IRP changes hands in them.
Dispatches and completions run on threads of their own; what a pass of a handler finds out is
chosen with the step, and `IO_CSQ` removes an IRP in one step. -/

namespace BlorgFS.Fsp

open Lib

inductive Status where
  | success
  | informational (code : ℕ)
  | deviceRemoved
  | insufficientResources
  | cancelled
  | failed (code : ℕ)
  deriving DecidableEq, Repr

/-- `NT_SUCCESS`. -/
def Status.succeeded : Status → Bool
  | success | informational _ => true
  | _ => false

/-- The major functions that are posted. -/
inductive Major where
  | create
  | read
  | directoryControl
  deriving DecidableEq, Repr

/-- What an IRP carries in a slot of its driver context: what a lookup has found, or when a
read arrived. -/
inductive Payload where
  | stash (n : ℕ)
  | stamp (t : ℕ)
  deriving DecidableEq, Repr

/-- An IRP: two flags of `DriverContext[0]`, and two slots more. -/
structure Irp where
  major : Major
  inFsp : Bool
  netDone : Bool
  context1 : Option Payload
  context3 : Option Payload
  deriving DecidableEq, Repr

/-- Where a thread outside the pool is. A result that is missing is `STATUS_PENDING`. -/
inductive Thread where
  /-- About to call the handler. -/
  | pass (i : ℕ)
  /-- The handler has returned. -/
  | returned (i : ℕ) (result : Option Status)
  /-- The completion routine of a fetch. -/
  | fetched (i : ℕ) (st : Status)
  /-- `BlorgFsdRequeueRequest`. -/
  | requeue (i : ℕ)
  /-- `BlorgFsdRequeueRequest` has answered `STATUS_DEVICE_REMOVED`. -/
  | refused (i : ℕ)
  /-- `BlorgOplockComplete`. -/
  | unparked (i : ℕ) (st : Status)
  /-- `FspAddToWorkQueue`, for a handler or not. -/
  | insert (i : ℕ) (posted : Bool)
  /-- Between `IoCsqInsertIrp` and `KeSetEvent`. -/
  | signal (poster : Option ℕ)
  /-- The IRP has been removed and no handler will see it. -/
  | discard (i : ℕ)
  deriving DecidableEq, Repr

/-- Past the test of `ThreadsActive`, with an IRP that is not in the queue yet. -/
def Thread.posting : Thread → Bool
  | insert _ _ => true
  | _ => false

/-- Where a worker is in `BlorgFspDispatch`. -/
inductive Worker where
  /-- About to call `KeWaitForMultipleObjects`. -/
  | waiting
  | blocked
  /-- About to call `IoCsqRemoveNextIrp`. -/
  | removing
  | running (i : ℕ)
  | returned (i : ℕ) (result : Option Status)
  | exited
  deriving DecidableEq, Repr

/-- The queue and its events, the pool and the other threads, the IRPs that wait in the oplock
package or for a fetch, and what has come of all: how many IRPs and stashes there have been,
what has been freed and which IRPs have been completed. -/
structure State where
  threadsActive : Bool
  terminationEvent : Bool
  workEvent : Bool
  irpQueue : List ℕ
  workers : List Worker
  threads : List Thread
  parked : List ℕ
  fetches : List ℕ
  irps : ℕ → Irp
  issued : ℕ
  stashes : ℕ
  freed : List Payload
  completed : List (ℕ × Status)

/-- What a pass comes to: it finishes the IRP, posts it if its buffer can be locked, leaves it
to the oplock package, or issues a fetch. -/
inductive Verdict where
  | finish (st : Status)
  | post (unlocked : Option Status)
  | park
  | fetch (refused : Option Status)
  deriving DecidableEq, Repr

/-- What the system decides in a step: the verdict of a pass, whether the pool has memory, and
which of the workers that wait is woken. -/
structure Choice where
  verdict : Verdict
  pool : Bool
  waiter : ℕ
  deriving DecidableEq, Repr

/-- What a handler answers: its result, or that the IRP is to be queued first. -/
inductive Answer where
  | result (r : Option Status)
  | insert
  deriving DecidableEq, Repr

inductive Act where
  | arrive (major : Major) (stamp : ℕ)
  | thread (j : ℕ) (k : Choice)
  | worker (w : ℕ) (k : Choice)
  | fetchDone (j : ℕ) (st : Status)
  | unpark (j : ℕ) (st : Status)
  | cancel (j : ℕ)
  | stop
  | drain
  deriving DecidableEq, Repr

namespace State

/-- `BlorgCompleteRequest`. -/
def complete (s : State) (i : ℕ) (st : Status) : State := { s with completed := (i, st) :: s.completed }

def setIrp (s : State) (i : ℕ) (irp : Irp) : State := { s with irps := Function.update s.irps i irp }

/-- What `DriverContext[1]` points at is freed. -/
def freeContext (s : State) (i : ℕ) : State :=
  { s.setIrp i { s.irps i with context1 := none } with freed := (s.irps i).context1.toList ++ s.freed }

/-- `FspDiscardPendingIrpContext`. -/
def discardContext (s : State) (i : ℕ) : State :=
  if (s.irps i).netDone then (s.setIrp i { s.irps i with netDone := false }).freeContext i else s

/-- The top of `BlorgVolumeCreate`. The other handlers take nothing. -/
def consume (s : State) (i : ℕ) : State := if (s.irps i).major = .create then s.discardContext i else s

/-- Whether the pass has what a lookup found. -/
def haveDirEntInfo (s : State) (i : ℕ) : Bool :=
  (s.irps i).major = .create && (s.irps i).netDone && (s.irps i).context1.isSome

/-- Only a pass in the pool issues a lookup or fetches a listing; a read is issued in any. -/
def mayFetch (s : State) (i : ℕ) : Bool := (s.irps i).major = .read || (s.irps i).inFsp && !s.haveDirEntInfo i

/-- A pass of the handler of the IRP. -/
def handle (s : State) (i : ℕ) : Verdict → Option (State × Answer)
  | .finish st => some (s.consume i, .result (some st))
  | .post unlocked =>
    if (s.irps i).inFsp ∨ s.haveDirEntInfo i then none
    else if s.threadsActive then
      some (s.consume i, match unlocked with
        | some st => .result (some st)
        | none => .insert)
    else some (s.consume i, .result (some .deviceRemoved))
  | .park => if (s.irps i).major = .directoryControl then none else some ({ s.consume i with parked := i :: (s.consume i).parked }, .result none)
  | .fetch refused =>
    if s.mayFetch i then
      match refused with
      | some st => some (s.consume i, .result (some st))
      | none => some ({ s.consume i with fetches := i :: (s.consume i).fetches }, .result none)
    else none

/-- `CreateComplete`, `DirCtrlComplete` and `ReadComplete`. -/
def fetched (s : State) (i : ℕ) (st : Status) (k : Choice) : State × List Thread :=
  match (s.irps i).major with
  | .read => (s.complete i st, [])
  | .create =>
    if st.succeeded then
      if k.pool then
        ({ s.setIrp i { s.irps i with netDone := true, context1 := some (.stash s.stashes) } with stashes := s.stashes + 1 }, [.requeue i])
      else (s.complete i .insufficientResources, [])
    else (s.complete i st, [])
  | .directoryControl =>
    if st.succeeded then (s.setIrp i { s.irps i with netDone := true }, [.requeue i]) else (s.complete i st, [])

/-- The IRP cannot be queued again. -/
def refused (s : State) (i : ℕ) : State :=
  if (s.irps i).major = .create then (s.freeContext i).complete i .deviceRemoved else s.complete i .deviceRemoved

/-- `FspAddToWorkQueue` as far as `IoCsqInsertIrp`. -/
def insert (s : State) (i : ℕ) : State :=
  let irp := s.irps i
  { s.setIrp i { irp with context1 := if irp.major = .read then irp.context3 else irp.context1, context3 := none } with
    irpQueue := s.irpQueue ++ [i] }

/-- `KeSetEvent`. A worker that waits is let go, and the event is as before. -/
def setWorkEvent (s : State) (k : Choice) : Option State :=
  if .blocked ∈ s.workers then
    if s.workers[k.waiter]? = some .blocked then some { s with workers := s.workers.set k.waiter .removing } else none
  else some { s with workEvent := true }

/-- One step of a thread, with what it does next. -/
def thread (s : State) (k : Choice) : Thread → Option (State × List Thread)
  | .pass i => (s.handle i k.verdict).map fun
    | (s, .result r) => (s, [.returned i r])
    | (s, .insert) => (s, [.insert i true])
  | .returned _ none => some (s, [])
  | .returned i (some st) => some (s.complete i st, [])
  | .fetched i st => some (s.fetched i st k)
  | .requeue i => some (s, [if s.threadsActive then .insert i false else .refused i])
  | .refused i => some (s.refused i, [])
  | .unparked i st =>
    if st = .success ∧ s.threadsActive then some (s, [.insert i false])
    else some (s.complete i (if st.succeeded then .deviceRemoved else st), [])
  | .insert i posted => some (s.insert i, [.signal (if posted then some i else none)])
  | .signal poster => (s.setWorkEvent k).map fun s => (s, match poster with
    | some i => [.returned i none]
    | none => [])
  | .discard i => some ((s.discardContext i).complete i .cancelled, [])

/-- `BlorgFspDispatch` takes an IRP off the queue. A read has its stamp put back. -/
def dispatch (s : State) (i : ℕ) (irpQueue : List ℕ) : State :=
  let irp := s.irps i
  { s.setIrp i { irp with
      inFsp := true
      context1 := if irp.major = .read then none else irp.context1
      context3 := if irp.major = .read then irp.context1 else irp.context3 } with irpQueue }

/-- One step of a worker. -/
def worker (s : State) (k : Choice) : Worker → Option (State × Worker)
  | .waiting =>
    if s.workEvent then some ({ s with workEvent := false }, .removing)
    else if s.terminationEvent then some (s, .exited)
    else some (s, .blocked)
  | .blocked | .exited => none
  | .removing =>
    match s.irpQueue with
    | [] => some (s, .waiting)
    | i :: irpQueue => some (s.dispatch i irpQueue, .running i)
  | .running i => (s.handle i k.verdict).bind fun
    | (s, .result r) => some (s, .returned i r)
    | (_, .insert) => none
  | .returned _ none => some (s, .removing)
  | .returned i (some st) => some (s.complete i st, .removing)

/-- The steps of all. No post races the stop of the workers. -/
def next (s : State) : Act → Option State
  | .arrive major stamp =>
    some { s.setIrp s.issued ⟨major, false, false, none, if major = .read then some (.stamp stamp) else none⟩ with
      issued := s.issued + 1
      threads := .pass s.issued :: s.threads }
  | .thread j k => s.threads[j]?.bind fun t => (s.thread k t).map fun
    | (s', threads) => { s' with threads := threads ++ s.threads.eraseIdx j }
  | .worker w k => s.workers[w]?.bind fun at_ => (s.worker k at_).map fun
    | (s', next) => { s' with workers := s.workers.set w next }
  | .fetchDone j st => s.fetches[j]?.map fun i =>
    { s with
      fetches := s.fetches.eraseIdx j
      threads := .fetched i st :: s.threads }
  | .unpark j st => s.parked[j]?.map fun i =>
    { s with
      parked := s.parked.eraseIdx j
      threads := .unparked i st :: s.threads }
  | .cancel j => s.irpQueue[j]?.map fun i =>
    { s with
      irpQueue := s.irpQueue.eraseIdx j
      threads := .discard i :: s.threads }
  | .stop =>
    if s.threadsActive ∧ ¬ s.threads.any Thread.posting then
      some { s with
        threadsActive := false
        terminationEvent := true
        workers := s.workers.map fun w => if w = .blocked then .exited else w }
    else none
  | .drain =>
    if ¬ s.threadsActive ∧ ∀ w ∈ s.workers, w = .exited then
      match s.irpQueue with
      | [] => none
      | i :: irpQueue => some { s with irpQueue, threads := .discard i :: s.threads }
    else none

end State

/-- After `BlorgCreateWorkQueue`, which starts `n` workers. -/
def initial (n : ℕ) : State where
  threadsActive := true
  terminationEvent := false
  workEvent := false
  irpQueue := []
  workers := List.replicate n .waiting
  threads := []
  parked := []
  fetches := []
  irps _ := ⟨.create, false, false, none, none⟩
  issued := 0
  stashes := 0
  freed := []
  completed := []

def system (n : ℕ) : System State where
  init s := s = initial n
  step s s' := ∃ act, s.next act = some s'

end BlorgFS.Fsp
