import BlorgFS.Lib.ShareAccess
import BlorgFS.Lib.Transition
import BlorgFS.Tree.Path
import Mathlib.Logic.Function.Basic

/-! The resident tree and its index, `Structs.c`: nodes with their parents and children, the
chains `NodeSearchByName` looks a child up in, and the node table as far as retiring a node
touches it. Everything here runs under the VCB resource held exclusive. A node is named by its
address; the pool answers a request for a new one with a free address or a status. -/

namespace BlorgFS.Tree

open Lib PathCache

inductive Kind where
  | fcb
  | dcb
  | root
  deriving DecidableEq, Repr

abbrev Status := BitVec 32

def statusInsufficientResources : Status := 0xC000009A
def statusObjectPathNotFound : Status := 0xC000003A

/-- `DIRECTORY_ENTRY_METADATA`. -/
structure EntryInfo where
  isDirectory : Bool
  size : ℕ
  lastModifiedTime : ℕ
  deriving DecidableEq, Repr

/-- `COMMON_CONTEXT`, with the fields of an `FCB` that an open looks at. -/
structure Node where
  kind : Kind
  fullPath : Path
  parentDcb : ℕ
  refCount : ℕ
  pinCount : ℕ
  onReapList : Bool
  uncleanCount : ℕ
  shareAccess : ShareAccess
  size : ℕ
  lastModifiedTime : ℕ
  deriving DecidableEq, Repr

/-- The root, the nodes and the `ChildrenList` of each, the chains of the child index by
bucket, and the buckets of the node table. -/
structure State where
  root : ℕ
  node : ℕ → Option Node
  children : ℕ → List ℕ
  chains : ℕ → List ℕ
  table : ℕ → List ℕ

/-- What `BlorgCreateFCB` and `BlorgCreateDCB` answer for a path. -/
abbrev Pool := Path → Except Status ℕ

variable (N : Names)

/-- `BlorgNodeChildBucket`. -/
def childBucket (parent : ℕ) (name : Path) : ℕ := (N.hashPath name ^^^ parent / 16 % 2 ^ 32) * 0x9E3779B1 % 2 ^ 32 / 2 ^ 20

/-- `NodeTableBucketIndexFor`. -/
def tableBucket (path : Path) : ℕ := N.bucketOf path

/-- The bucket of the child index a node belongs to. -/
def Node.bucket (nd : Node) : ℕ := childBucket N nd.parentDcb (getLastComponent nd.fullPath)

namespace State

variable (s : State)

/-! ### Links -/

/-- `NodeChildLink`. -/
def childLink (n : ℕ) (nd : Node) : State := { s with chains := Function.update s.chains (nd.bucket N) (n :: s.chains (nd.bucket N)) }

/-- `NodeChildUnlink`. -/
def childUnlink (n : ℕ) (nd : Node) : State := { s with chains := Function.update s.chains (nd.bucket N) ((s.chains (nd.bucket N)).erase n) }

/-- A child of `parent` with that name. -/
def isChild (parent : ℕ) (name : Path) (c : ℕ) : Bool :=
  (s.node c).any fun nd => nd.parentDcb == parent && N.equal name (getLastComponent nd.fullPath)

/-- `NodeSearchByName`. -/
def searchByName (parent : ℕ) (name : Path) : Option ℕ := (s.chains (childBucket N parent name)).find? (s.isChild N parent name)

/-- A scan of the `ChildrenList`, which the index stands in for. -/
def scanByName (parent : ℕ) (name : Path) : Option ℕ :=
  (s.children parent).find? fun c => (s.node c).any fun nd => N.equal name (getLastComponent nd.fullPath)

def kindIs (n : ℕ) (k : Kind) : Bool := (s.node n).any fun nd => nd.kind == k

/-! ### Search -/

/-- The loop of `BlorgSearchByPath`. Every round takes a character off the path at least. -/
def searchFrom : ℕ → ℕ → Path → Option ℕ
  | 0, current, _ => some current
  | fuel + 1, current, remaining =>
    if remaining.length = 0 then some current
    else
      match s.searchByName N current (dissectName remaining).1 with
      | none => none
      | some child =>
        if s.kindIs child .fcb then if (dissectName remaining).2.length = 0 then some child else none
        else searchFrom fuel child (dissectName remaining).2

/-- `BlorgSearchByPath` from the root. -/
def searchByPath (path : Path) : Option ℕ := s.searchFrom N path.length s.root path

/-! ### Taking nodes out -/

/-- `BlorgFreeFileContext` of a file or directory. -/
def freeFileContext (n : ℕ) : State :=
  match s.node n with
  | none => s
  | some nd =>
    { s.childUnlink N n nd with
      node := Function.update s.node n none
      children := Function.update s.children nd.parentDcb ((s.children nd.parentDcb).erase n) }

/-- `NodeTableTryRetire`. -/
def tryRetire (n : ℕ) : Option State :=
  (s.node n).bind fun nd =>
    if nd.refCount = 0 ∧ nd.pinCount = 0 ∧ nd.onReapList = false then
      some { s with
        node := Function.update s.node n (some { nd with onReapList := true })
        table := Function.update s.table (tableBucket N nd.fullPath) ((s.table (tableBucket N nd.fullPath)).erase n) }
    else none

/-- The loop of `BlorgReapEmptyAncestorDcbs`. -/
def reapFrom : ℕ → State → ℕ → State
  | 0, s, _ => s
  | fuel + 1, s, d =>
    match s.node d with
    | none => s
    | some nd =>
      if nd.kind = .dcb ∧ s.children d = [] then
        match s.tryRetire N d with
        | some s' => reapFrom fuel (s'.freeFileContext N d) nd.parentDcb
        | none => s
      else s

/-- `BlorgReapEmptyAncestorDcbs`. A directory has fewer ancestors than its path characters. -/
def reapEmptyAncestorDcbs (d : ℕ) : State := reapFrom N ((s.node d).elim 0 fun nd => nd.fullPath.length) s d

/-! ### Insert -/

/-- What the pool has for a new node. -/
def allocate (pool : Pool) (path : Path) : Except Status ℕ :=
  match pool path with
  | .error st => .error st
  | .ok n => if (s.node n).isSome then .error statusInsufficientResources else .ok n

/-- A node as `BlorgInsertByPath` makes one. -/
def newNode (isFile : Bool) (path : Path) (info : EntryInfo) (parent : ℕ) : Node :=
  if isFile then ⟨.fcb, path, parent, 0, 0, false, 0, .none, info.size, info.lastModifiedTime⟩
  else ⟨.dcb, path, parent, 0, 0, false, 0, .none, 0, 0⟩

/-- A new node is linked to its parent. -/
def link (n : ℕ) (nd : Node) : State :=
  State.childLink N
    { s with
      node := Function.update s.node n (some nd)
      children := Function.update s.children nd.parentDcb (s.children nd.parentDcb ++ [n]) } n nd

/-- The loop of `BlorgInsertByPath`. -/
def insertFrom (pool : Pool) (path : Path) (info : EntryInfo) : ℕ → State → ℕ → Path → Option ℕ → State × Except Status (Option ℕ)
  | 0, s, _, _, lastCreated => (s, .ok lastCreated)
  | fuel + 1, s, current, remaining, lastCreated =>
    if remaining.length = 0 then (s, .ok lastCreated)
    else
      let firstPart := (dissectName remaining).1
      let remainingPart := (dissectName remaining).2
      match s.searchByName N current firstPart with
      | some existing =>
        if remainingPart.length = 0 then (s, .ok lastCreated)
        else if ¬ s.kindIs existing .dcb ∧ ¬ s.kindIs existing .root then (s.reapEmptyAncestorDcbs N current, .error statusObjectPathNotFound)
        else insertFrom pool path info fuel s existing remainingPart lastCreated
      | none =>
        let partialPath := if remainingPart.length = 0 then path else path.take (path.length - (remainingPart.length + 1))
        match s.allocate pool partialPath with
        | .error st => (s.reapEmptyAncestorDcbs N current, .error st)
        | .ok n =>
          let s := s.link N n (newNode (remainingPart.length = 0 ∧ ¬ info.isDirectory) partialPath info current)
          if remainingPart.length = 0 then (s, .ok (some n)) else insertFrom pool path info fuel s n remainingPart (some n)

/-- `BlorgInsertByPath` from the root. -/
def insertByPath (pool : Pool) (path : Path) (info : EntryInfo) : State × Except Status (Option ℕ) :=
  insertFrom N pool path info path.length s s.root path none

end State

/-! ### Runs -/

/-- What is done to the tree under the VCB resource, and what opens, closes, pins and claims do
to a node. A node is freed when it has no children and is not in the table. -/
inductive Act where
  | insert (pool : Pool) (path : Path) (info : EntryInfo)
  | free (n : ℕ)
  | reap (d : ℕ)
  | publish (n : ℕ)
  | unpublish (n : ℕ)
  | touch (n : ℕ) (like : Node)

namespace State

/-- All of a node but its place, as others leave it. -/
def touch (s : State) (n : ℕ) (like : Node) : Option State :=
  (s.node n).map fun nd => { s with node := Function.update s.node n (some { like with kind := nd.kind, fullPath := nd.fullPath, parentDcb := nd.parentDcb }) }

def inTable (s : State) (n : ℕ) : Bool := (s.node n).any fun nd => n ∈ s.table (tableBucket N nd.fullPath)

/-- `BlorgNodeTablePublish`. -/
def publish (s : State) (n : ℕ) : Option State :=
  (s.node n).map fun nd =>
    if s.inTable N n then s
    else { s with table := Function.update s.table (tableBucket N nd.fullPath) (s.table (tableBucket N nd.fullPath) ++ [n]) }

/-- `NodeReapWorker` takes a node out of the table. -/
def unpublish (s : State) (n : ℕ) : Option State :=
  (s.node n).map fun nd => { s with table := Function.update s.table (tableBucket N nd.fullPath) ((s.table (tableBucket N nd.fullPath)).erase n) }

def next (s : State) : Act → Option State
  | .insert pool path info => some (s.insertByPath N pool path info).1
  | .free n => if n ≠ s.root ∧ (s.node n).isSome ∧ s.children n = [] ∧ ¬ s.inTable N n then some (s.freeFileContext N n) else none
  | .reap d => if (s.node d).isSome then some (s.reapEmptyAncestorDcbs N d) else none
  | .publish n => if n ≠ s.root then s.publish N n else none
  | .unpublish n => s.unpublish N n
  | .touch n like => s.touch n like

end State

/-- The root and nothing else. -/
def initial (root : ℕ) : State where
  root
  node n := if n = root then some ⟨.root, [separator], root, 0, 0, false, 0, .none, 0, 0⟩ else none
  children _ := []
  chains _ := []
  table _ := []

/-- Every insert is of a path in `paths`. -/
def Act.Allowed (paths : Path → Prop) : Act → Prop
  | .insert _ path _ => paths path
  | _ => True

def system (paths : Path → Prop) : System State where
  init s := ∃ root, s = initial root
  step s s' := ∃ act : Act, act.Allowed paths ∧ s.next N act = some s'

end BlorgFS.Tree
