import BlorgFS.Lib.Tally
import BlorgFS.Lib.Transition

/-! The node table and its reaper, `Structs.c` and the opens of `Create.c`: lookups that
pin, opens under a pin or under the VCB resource, closes, the deferral of an idle node,
the walk over empty ancestors and `NodeReapWorker`. Every interlocked operation is a step
of its own, and so is every section under `NodeReap.Lock` or under a bucket lock held
exclusive; a bucket lock held shared, a node's resource and the VCB resource are held by
the operations in progress, from one step to the next. A path is the list of its
components up to case. A step that follows a pointer to a freed node is recorded as
`misused`. -/

namespace BlorgFS.NodeTable

open Lib

/-- `NodeTypeCode`. -/
inductive Kind where
  | fcb | dcb | root
  deriving DecidableEq, Repr

/-- `COMMON_CONTEXT`. -/
structure Node (N : Type) where
  kind : Kind
  fullPath : List N
  parentDcb : ℕ
  refCount : ℤ
  pinCount : ℤ
  onReapList : Bool
  tableBucketIndex : ℕ
  deriving DecidableEq

/-- Which open `CreateOpenExistingFcb` or `CreateOpenExistingDcb` is part of: one under a
pin, one of a node the cold path found, or one of a node it has just inserted. -/
inductive Open where
  | warm | resident | fresh
  deriving DecidableEq, Repr

/-- What follows a deferral: nothing, or the end of a cold open. -/
inductive After where
  | nothing | leave
  deriving DecidableEq, Repr

/-- What follows the walk over empty ancestors: the end of a cold open, or the rest of the
worker's batch. -/
inductive Walk where
  | leave
  | batch (ns : List ℕ)
  deriving DecidableEq

/-- Who calls `NodeReapKick`. -/
inductive Kicker where
  | deferral (n : ℕ) (k : After)
  | tail
  deriving DecidableEq

inductive Job (N : Type) where
  /-- `BlorgNodeTableLookupPin`. -/
  | lookup (path : List N)
  /-- Before the node's resource is taken. -/
  | opening (n : ℕ) (how : Open)
  /-- Under the resource, before `RefCount` is raised. -/
  | checking (n : ℕ) (how : Open)
  /-- `RefCount` is raised, share access not yet applied. -/
  | counted (n : ℕ) (how : Open)
  /-- Share access denied: about to lower `RefCount`. -/
  | uncount (n : ℕ) (how : Open)
  /-- `BlorgNodeUnpin`. -/
  | unpin (n : ℕ)
  /-- `BlorgNodeDereference`. -/
  | dereference (n : ℕ)
  /-- `BlorgNodeDeferReapIfIdle`. -/
  | deferReapIfIdle (n : ℕ)
  /-- `NodeDeferReapIfIdleLocked`, about to read `RefCount`. -/
  | readRef (n : ℕ) (k : After)
  /-- About to read `PinCount`. -/
  | readPin (n : ℕ) (k : After)
  /-- `BlorgNodeDeferReap`, about to claim. -/
  | claim (n : ℕ) (k : After)
  /-- Claimed, about to push. -/
  | push (n : ℕ) (k : After)
  /-- `NodeReapKick`. -/
  | kick (who : Kicker)
  /-- About to queue the work item. -/
  | queue (who : Kicker)
  /-- A cold open, about to take the VCB resource. -/
  | cold (path : List N) (isDirectory : Bool)
  /-- `BlorgSearchByPath`, at `cur` with `rest` to go. -/
  | search (cur : ℕ) (rest : List N) (path : List N) (isDirectory : Bool)
  /-- `BlorgInsertByPath`, at `cur`, whose path is `walked`, with `rest` to go. -/
  | insert (cur : ℕ) (walked rest : List N) (isDirectory : Bool) (lastCreated : Option ℕ)
  /-- `BlorgNodeTablePublish`. -/
  | publish (n : ℕ)
  /-- About to release the VCB resource. -/
  | leave
  /-- `BlorgFreeFileContext`, of a node claimed or of one just inserted. -/
  | free (n : ℕ) (claimed : Bool) (k : Walk)
  /-- `BlorgReapEmptyAncestorDcbs`, at the head of its loop. -/
  | reap (d : ℕ) (k : Walk)
  /-- `NodeReapWorker`, queued. -/
  | item
  /-- The worker with its batch, about to take the VCB resource. -/
  | wait (ns : List ℕ)
  /-- The worker at the head of its loop. -/
  | batch (ns : List ℕ)
  /-- The worker, about to clear the gate. -/
  | tail

/-- The nodes, the children of each, the table's buckets one after another, `NodeReap`,
the open handles, and how often each node was freed. -/
structure State (N : Type) where
  node : ℕ → Option (Node N)
  children : ℕ → List ℕ
  allocated : ℕ
  table : List ℕ
  reapList : List ℕ
  queued : Bool
  shuttingDown : Bool
  handles : List ℕ
  frees : ℕ → ℕ
  misused : Bool
  jobs : List (Job N)

/-- What a step finds outside: whether the options and the access mask allow the open and a
resident file is current, whether oplock and pool let it go on, whether share access is
granted, whether a node could be allocated. -/
structure Choice where
  allowed : Bool
  ready : Bool
  shared : Bool
  pool : Bool

variable {N : Type}

/-! ### What a job holds -/

namespace Job

/-- The VCB resource. -/
def vcb : Job N → Bool
  | .opening _ how | .checking _ how | .counted _ how | .uncount _ how => how ≠ .warm
  | .readRef _ k | .readPin _ k | .claim _ k | .push _ k => k = .leave
  | .kick (.deferral _ k) | .queue (.deferral _ k) => k = .leave
  | .deferReapIfIdle _ | .search _ _ _ _ | .insert _ _ _ _ _ | .publish _ | .leave => true
  | .free _ _ _ | .reap _ _ | .batch _ => true
  | _ => false

/-- The node whose bucket lock is held shared. -/
def shares : Job N → Option ℕ
  | .readRef n _ | .readPin n _ | .claim n _ | .push n _ => some n
  | .kick (.deferral n _) | .queue (.deferral n _) => some n
  | _ => none

/-- The node whose resource is held. -/
def resource : Job N → Option ℕ
  | .checking n _ | .counted n _ | .uncount n _ => some n
  | _ => none

end Job

def After.jobs : After → List (Job N)
  | .nothing => []
  | .leave => [.leave]

def Walk.jobs : Walk → List (Job N)
  | .leave => [.leave]
  | .batch ns => [.batch ns]

def Kicker.jobs : Kicker → List (Job N)
  | .deferral _ k => k.jobs
  | .tail => []

/-- What follows an open that took no reference. -/
def Open.failed (n : ℕ) : Open → List (Job N)
  | .warm => [.unpin n]
  | .resident => [.deferReapIfIdle n]
  | .fresh => [.free n false .leave]

/-- What follows an open that did. -/
def Open.succeeded (n : ℕ) : Open → List (Job N)
  | .warm => [.unpin n]
  | .resident | .fresh => [.publish n]

/-- What follows `BlorgInsertByPath`. -/
def inserted : Option ℕ → List (Job N)
  | some n => [.opening n .fresh]
  | none => [.leave]

namespace State

variable (s : State N)

def put (n : ℕ) (nd : Node N) : State N := { s with node := Function.update s.node n (some nd) }

/-- Follow a pointer to a node. -/
def withNode (n : ℕ) (f : Node N → Option (State N × List (Job N))) : Option (State N × List (Job N)) :=
  match s.node n with
  | some nd => f nd
  | none => some ({ s with misused := true }, [])

/-- No other operation holds the bucket lock shared. -/
def bucketFree (rest : List (Job N)) (bucket : ℕ) : Bool :=
  rest.all fun job => job.shares.all fun m => (s.node m).all fun nd => nd.tableBucketIndex ≠ bucket

/-- Everyone on a list is still there. -/
def allThere (ns : List ℕ) : Bool := ns.all fun n => (s.node n).isSome

variable [DecidableEq N]

/-- The walk of `BlorgNodeTableLookupPin` over a bucket. -/
def find (path : List N) : Option ℕ :=
  s.table.find? fun n => (s.node n).any fun nd => nd.fullPath = path

/-- `NodeSearchByName`. -/
def searchByName (d : ℕ) (name : N) : Option ℕ :=
  (s.children d).find? fun c => (s.node c).any fun nd => nd.fullPath.getLast? = some name

/-- `BlorgCreateFCB` or `BlorgCreateDCB`, linked to its parent. -/
def create (hash : List N → ℕ) (kind : Kind) (path : List N) (parent : ℕ) : State N :=
  { s.put s.allocated ⟨kind, path, parent, 0, 0, false, hash path⟩ with
    children := Function.update s.children parent (s.children parent ++ [s.allocated])
    allocated := s.allocated + 1 }

/-- `BlorgFreeFileContext`. -/
def free (n parent : ℕ) : State N :=
  { s with
    node := Function.update s.node n none
    children := Function.update s.children parent ((s.children parent).erase n)
    frees := Function.update s.frees n (s.frees n + 1) }

/-- One step of an operation; `rest` are the others in progress. The step is not enabled
while a lock it needs is held. -/
def step (hash : List N → ℕ) (ch : Choice) (rest : List (Job N)) : Job N → Option (State N × List (Job N))
  | .lookup path =>
    if s.allThere s.table then
      match s.find path with
      | some n => s.withNode n fun nd =>
          some (s.put n { nd with pinCount := nd.pinCount + 1 }, [.opening n .warm])
      | none => some (s, [])
    else some ({ s with misused := true }, [])
  | .opening n how => s.withNode n fun _ =>
      if !ch.allowed then some (s, how.failed n)
      else if rest.any (fun job => job.resource = some n) then none
      else some (s, [.checking n how])
  | .checking n how => s.withNode n fun nd =>
      if ch.ready then some (s.put n { nd with refCount := nd.refCount + 1 }, [.counted n how])
      else some (s, how.failed n)
  | .counted n how => s.withNode n fun _ =>
      if ch.shared then some ({ s with handles := n :: s.handles }, how.succeeded n)
      else some (s, [.uncount n how])
  | .uncount n how => s.withNode n fun nd =>
      some (s.put n { nd with refCount := nd.refCount - 1 }, how.failed n)
  | .unpin n => s.withNode n fun nd =>
      some (s.put n { nd with pinCount := nd.pinCount - 1 }, [.readRef n .nothing])
  | .dereference n => s.withNode n fun nd =>
      some (s.put n { nd with refCount := nd.refCount - 1 }, [.readRef n .nothing])
  | .deferReapIfIdle n => s.withNode n fun _ => some (s, [.readRef n .leave])
  | .readRef n k => s.withNode n fun nd =>
      some (s, if nd.refCount = 0 then [.readPin n k] else k.jobs)
  | .readPin n k => s.withNode n fun nd =>
      some (s, if nd.pinCount = 0 then [.claim n k] else k.jobs)
  | .claim n k => s.withNode n fun nd =>
      if nd.onReapList then some (s, k.jobs)
      else some (s.put n { nd with onReapList := true }, [.push n k])
  | .push n k => s.withNode n fun _ =>
      some ({ s with reapList := n :: s.reapList }, [.kick (.deferral n k)])
  | .kick who =>
    if s.queued then some (s, who.jobs)
    else if s.shuttingDown then some (s, who.jobs)
    else some ({ s with queued := true }, [.queue who])
  | .queue who => some (s, .item :: who.jobs)
  | .cold path isDirectory =>
    if rest.any Job.vcb then none else some (s, [.search 0 path path isDirectory])
  | .search cur [] path isDirectory => s.withNode cur fun nd =>
      match nd.kind with
      | .root => some (s, [.insert 0 [] path isDirectory none])
      | _ => some (s, if ch.allowed then [.opening cur .resident] else [.leave])
  | .search cur (c :: rest) path isDirectory =>
    if s.allThere (s.children cur) then
      match s.searchByName cur c with
      | some m => s.withNode m fun nd =>
          if nd.kind = .fcb ∧ rest ≠ [] then some (s, [.insert 0 [] path isDirectory none])
          else some (s, [.search m rest path isDirectory])
      | none => some (s, [.insert 0 [] path isDirectory none])
    else some ({ s with misused := true }, [])
  | .insert _ _ [] _ lastCreated => some (s, inserted lastCreated)
  | .insert cur walked (c :: rest) isDirectory lastCreated =>
    if s.allThere (s.children cur) then
      match s.searchByName cur c with
      | some m =>
        if rest = [] then some (s, inserted lastCreated)
        else s.withNode m fun nd =>
          if nd.kind = .fcb then some (s, [.reap cur .leave])
          else some (s, [.insert m (walked ++ [c]) rest isDirectory lastCreated])
      | none =>
        if !ch.pool then some (s, [.reap cur .leave])
        else if rest = [] then
          some (s.create hash (if isDirectory then .dcb else .fcb) (walked ++ [c]) cur, inserted (some s.allocated))
        else
          some (s.create hash .dcb (walked ++ [c]) cur,
            [.insert s.allocated (walked ++ [c]) rest isDirectory (some s.allocated)])
    else some ({ s with misused := true }, [])
  | .publish n => s.withNode n fun nd =>
      if s.bucketFree rest nd.tableBucketIndex then
        some (if n ∈ s.table then s else { s with table := s.table ++ [n] }, [.leave])
      else none
  | .leave => some (s, [])
  | .free n _ k => s.withNode n fun nd => some (s.free n nd.parentDcb, [.reap nd.parentDcb k])
  | .reap d k => s.withNode d fun nd =>
      if nd.kind = .dcb ∧ s.children d = [] then
        if s.bucketFree rest nd.tableBucketIndex then
          if nd.refCount = 0 ∧ nd.pinCount = 0 ∧ nd.onReapList = false then
            some ({ s.put d { nd with onReapList := true } with table := s.table.erase d }, [.free d true k])
          else some (s, k.jobs)
        else none
      else some (s, k.jobs)
  | .item =>
    some ({ s with reapList := [] }, if s.reapList = [] then [.tail] else [.wait s.reapList])
  | .wait ns => if rest.any Job.vcb then none else some (s, [.batch ns])
  | .batch [] => some (s, [.tail])
  | .batch (n :: ns) => s.withNode n fun nd =>
      if s.bucketFree rest nd.tableBucketIndex then
        if nd.refCount = 0 ∧ nd.pinCount = 0 ∧ (nd.kind ≠ .dcb ∨ s.children n = []) then
          some ({ s with table := s.table.erase n }, [.free n true (.batch ns)])
        else some (s.put n { nd with onReapList := false }, [.batch ns])
      else none
  | .tail => some ({ s with queued := false }, if s.reapList = [] then [] else [.kick .tail])

end State

/-- An open comes in, warm or cold, a handle is closed, teardown latches `ShuttingDown`, or
an operation in progress goes on. -/
inductive Act (N : Type) where
  | lookup (path : List N)
  | cold (path : List N) (isDirectory : Bool)
  | close (i : ℕ)
  | shutDown
  | run (i : ℕ) (ch : Choice)

def State.next [DecidableEq N] (hash : List N → ℕ) (s : State N) : Act N → Option (State N)
  | .lookup path => some { s with jobs := .lookup path :: s.jobs }
  | .cold path isDirectory => some { s with jobs := .cold path isDirectory :: s.jobs }
  | .close i => do
    let n ← s.handles[i]?
    return { s with handles := s.handles.eraseIdx i, jobs := .dereference n :: s.jobs }
  | .shutDown => some { s with shuttingDown := true }
  | .run i ch => do
    let job ← s.jobs[i]?
    let (s', jobs) ← s.step hash ch (s.jobs.eraseIdx i) job
    return { s' with jobs := jobs ++ s.jobs.eraseIdx i }

/-- After `BlorgNodeTableInit`: the root and nothing else. -/
def initial : State N where
  node := fun n => if n = 0 then some ⟨.root, [], 0, 0, 0, false, 0⟩ else none
  children := fun _ => []
  allocated := 1
  table := []
  reapList := []
  queued := false
  shuttingDown := false
  handles := []
  frees := fun _ => 0
  misused := false
  jobs := []

def system [DecidableEq N] (hash : List N → ℕ) : System (State N) where
  init s := s = initial
  step s s' := ∃ act, s.next hash act = some s'

end BlorgFS.NodeTable
