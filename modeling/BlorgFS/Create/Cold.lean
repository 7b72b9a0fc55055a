import BlorgFS.Create.Handles
import BlorgFS.Tree.Runs

/-! The cold path of `BlorgVolumeCreate`, once the metadata of the path is known: under the VCB
resource it opens the node of the path where one is resident and otherwise inserts one, opens it
and takes it out again where that fails. -/

namespace BlorgFS.Create.Cold

open Lib PathCache Tree

/-- The options that say which kind is wanted. -/
structure Options where
  directoryFile : Bool
  nonDirectoryFile : Bool
  deriving DecidableEq, Repr

/-- A create with the metadata it has resolved, and what the pool, the oplock package and the
memory manager answer it. -/
structure Call where
  path : Path
  options : Options
  request : Request
  info : EntryInfo
  answers : Answers
  pool : Pool
  flushed : Bool
  purged : Bool

/-- What a create comes to. The last stands for the break point at its end. -/
inductive Outcome where
  | opened (n : ℕ)
  | notADirectory
  | fileIsADirectory
  | failed (st : Status)
  | breakPoint
  deriving DecidableEq, Repr

/-- The tree after the create, what it returns, and the metadata `CreateFcbRefresh` was given. -/
structure Result where
  tree : Tree.State
  outcome : Outcome
  refreshed : Option EntryInfo

/-! ### Handles of a node -/

/-- The counts, the share access and the metadata of a node. -/
def handles (nd : Node) : State :=
  ⟨match nd.kind with | .fcb => .fcb | .dcb => .dcb | .root => .rootDcb, nd.refCount, nd.uncleanCount, nd.shareAccess, nd.size, nd.lastModifiedTime, none, [], 0⟩

def withHandles (nd : Node) (h : State) : Node :=
  { nd with
    refCount := h.refCount
    uncleanCount := h.uncleanCount
    shareAccess := h.shareAccess
    size := h.fileSize
    lastModifiedTime := h.lastModifiedTime }

/-- `CreateOpenExistingFcb` and `CreateOpenExistingDcb`. -/
def openExisting (nd : Node) (r : Request) (k : Answers) : Node × Status :=
  match (handles nd).openNode r k with
  | (h, some st) => (withHandles nd h, st)
  | (h, none) => (withHandles nd (h.settle ⟨r, nd.refCount + 1 = 1⟩ k).1, (h.settle ⟨r, nd.refCount + 1 = 1⟩ k).2)

/-- `CreateFcbRefresh`. -/
def fcbRefresh (nd : Node) (c : Call) : Node := withHandles nd ((handles nd).refresh c.info.size c.info.lastModifiedTime c.flushed c.purged)

/-- `NodeDeferReapIfIdleLocked` and `BlorgNodeDeferReap`. -/
def deferReapIfIdle (nd : Node) : Node := if nd.refCount = 0 ∧ nd.pinCount = 0 then { nd with onReapList := true } else nd

def putNode (s : Tree.State) (n : ℕ) (nd : Node) : Tree.State := { s with node := Function.update s.node n (some nd) }

/-- `BlorgNodeTablePublish`. -/
def publish (N : Names) (s : Tree.State) (n : ℕ) : Tree.State := (s.publish N n).getD s

variable (N : Names)

/-! ### The two ways -/

/-- A resident node is opened. -/
def openResident (s : Tree.State) (n : ℕ) (nd : Node) (c : Call) (refreshed : Option EntryInfo) : Result :=
  let r := openExisting nd c.request c.answers
  if r.2 = statusSuccess then ⟨publish N (putNode s n r.1) n, .opened n, refreshed⟩
  else ⟨putNode s n (deferReapIfIdle r.1), .failed r.2, refreshed⟩

/-- A node is inserted and opened. -/
def insertAndOpen (s : Tree.State) (c : Call) : Result :=
  match s.insertByPath N c.pool c.path c.info with
  | (s, .error st) => ⟨s, .failed st, none⟩
  | (s, .ok none) => ⟨s, .breakPoint, none⟩
  | (s, .ok (some n)) =>
    match s.node n with
    | none => ⟨s, .breakPoint, none⟩
    | some nd =>
      if nd.kind = .root then ⟨s, .breakPoint, none⟩
      else
        let r := openExisting nd c.request c.answers
        if r.2 = statusSuccess then ⟨publish N (putNode s n r.1) n, .opened n, none⟩
        else ⟨((putNode s n r.1).freeFileContext N n).reapEmptyAncestorDcbs N nd.parentDcb, .failed r.2, none⟩

/-- `BlorgVolumeCreate` from where it has `dirEntInfo`. -/
def volumeCreate (s : Tree.State) (c : Call) : Result :=
  if c.info.isDirectory ∧ c.options.nonDirectoryFile then ⟨s, .fileIsADirectory, none⟩
  else if ¬ c.info.isDirectory ∧ c.options.directoryFile then ⟨s, .notADirectory, none⟩
  else
    match s.searchByPath N c.path with
    | none => insertAndOpen N s c
    | some n =>
      match s.node n with
      | none => insertAndOpen N s c
      | some nd =>
        match nd.kind with
        | .dcb => if c.options.nonDirectoryFile then ⟨s, .fileIsADirectory, none⟩ else openResident N s n nd c none
        | .fcb => if c.options.directoryFile then ⟨s, .notADirectory, none⟩ else openResident N s n (fcbRefresh nd c) c (some c.info)
        | .root => insertAndOpen N s c

variable {N} {s s' : Tree.State} {n : ℕ} {nd : Node} {c : Call} {r : Request} {k : Answers} {path : Path}

/-! ### An open -/

/-- The open of a node is granted: its access is allowed, oplock and pool let it go on, and it
is the first or shares with the others. -/
def Granted (nd : Node) (r : Request) (k : Answers) : Prop :=
  (handles nd).kind.checkAccess r.desiredAccess = true ∧ k.oplock = statusSuccess ∧ ntSuccess k.ccb = true ∧
    (nd.refCount = 0 ∨ (nd.shareAccess.check r.access).isSome)

theorem handles_kind_ne_vcb (nd : Node) : (handles nd).kind ≠ .vcb := by
  unfold handles
  cases nd.kind <;> nofun

theorem granted_iff : (openExisting nd r k).2 = statusSuccess ↔ Granted nd r k := by
  have hvcb := handles_kind_ne_vcb nd
  unfold openExisting Granted State.openNode
  by_cases ha : (handles nd).kind.checkAccess r.desiredAccess = true
  · by_cases ho : k.oplock = statusSuccess
    · by_cases hc : ntSuccess k.ccb = true
      · rw [if_neg (by simp [ha]), if_neg fun hn => hn.2 ho, if_neg fun hn => hn.2 hc]
        simp only [ha, ho, hc, true_and, State.settle, applyShareAccess, Nat.add_eq_right]
        by_cases hr : nd.refCount = 0
        · simp only [hr, decide_true, if_true, true_or]
        · simp only [hr, decide_false, Bool.false_eq_true, if_false, false_or]
          rw [show (handles nd).shareAccess = nd.shareAccess from rfl]
          cases nd.shareAccess.check r.access with
          | some sa => simp
          | none => simpa [hvcb] using State.breakHandleOplock_ne
      · have hne : k.ccb ≠ statusSuccess := fun he => hc (by rw [he]; rfl)
        rw [if_neg (by simp [ha]), if_neg fun hn => hn.2 ho, if_pos ⟨hvcb, hc⟩]
        simp [hc, hne]
    · rw [if_neg (by simp [ha]), if_pos ⟨hvcb, ho⟩]
      simp [ho]
  · rw [if_pos (by simp [ha])]
    have hdenied : statusAccessDenied ≠ statusSuccess := by decide
    exact ⟨fun he => absurd he hdenied, fun hg => absurd hg.1 ha⟩

/-- An open counts itself where it succeeds, and not where it fails. -/
theorem openExisting_node (nd : Node) (r : Request) (k : Answers) : (openExisting nd r k).1.shape = nd.shape ∧ (openExisting nd r k).1.pinCount = nd.pinCount ∧
    (openExisting nd r k).1.onReapList = nd.onReapList ∧
    (openExisting nd r k).1.refCount = if (openExisting nd r k).2 = statusSuccess then nd.refCount + 1 else nd.refCount := by
  unfold openExisting
  rcases State.openNode_cases (handles nd) r k with ⟨st, hst, he⟩ | he
  · rw [he]
    exact ⟨rfl, rfl, rfl, (if_neg hst).symm⟩
  · rw [he]
    refine ⟨rfl, rfl, rfl, ?_⟩
    have hvcb := handles_kind_ne_vcb nd
    simp only [State.settle]
    split
    · rfl
    · simp only [hvcb, if_false, State.breakHandleOplock_ne]
      exact Nat.add_sub_cancel ..

/-! ### Where the create ends -/

theorem putNode_self : (putNode s n nd).node n = some nd := Function.update_self ..

theorem putNode_freeFileContext {nd' : Node} (hn : s.node n = some nd) (hshape : nd'.shape = nd.shape) :
    (putNode s n nd').freeFileContext N n = s.freeFileContext N n := by
  have hpath : nd'.fullPath = nd.fullPath := congrArg (·.2.1) hshape
  have hparent : nd'.parentDcb = nd.parentDcb := congrArg (·.2.2) hshape
  rw [Tree.State.freeFileContext, putNode_self, Tree.State.freeFileContext, hn]
  simp only [putNode, Tree.State.childUnlink, Node.bucket, hpath, hparent, Function.update_idem]

theorem publish_node (m : ℕ) : (publish N s n).node m = s.node m := by
  unfold publish Tree.State.publish
  cases s.node n with
  | none => rfl
  | some nd =>
    rw [Option.map_some, Option.getD_some]
    split_ifs <;> rfl

/-- The kind of node for metadata. -/
def kindFor (info : EntryInfo) : Tree.Kind := if info.isDirectory then .dcb else .fcb

/-- Where nothing is at the path a node is inserted and opened, or the tree is left as the walk
over empty ancestors leaves it. -/
theorem insertAndOpen_cases (h : s.Linked N) (hs : s.searchByPath N c.path = none) : (insertAndOpen N s c).refreshed = none ∧
    ((∃ n nd s', (insertAndOpen N s c).outcome = .opened n ∧ nd.kind = kindFor c.info ∧ s'.node n = some nd ∧
        (insertAndOpen N s c).tree = publish N (putNode s' n (openExisting nd c.request c.answers).1) n ∧ Granted nd c.request c.answers ∧
        ∃ d rest, Tree.State.Made N s s' c.path c.info d rest n nd) ∨
      ∃ st d dd, (insertAndOpen N s c).outcome = .failed st ∧ Tree.State.OnPath N s c.path d ∧ s.node d = some dd ∧
        (insertAndOpen N s c).tree = s.reapEmptyAncestorDcbs N d) := by
  have hi := h.inserted c.pool c.path c.info
  unfold insertAndOpen
  generalize s.insertByPath N c.pool c.path c.info = result at hi
  obtain ⟨s', answer⟩ := result
  match answer, hi with
  | .error st, ⟨_, d, dd, hon, hd, he⟩ => exact ⟨rfl, .inr ⟨st, d, dd, rfl, hon, hd, he⟩⟩
  | .ok none, ⟨hne, _⟩ => exact absurd hs hne
  | .ok (some n), ⟨_, d, dd, rest, nd, hon, hd, hmade, _⟩ =>
    have hkind : nd.kind = kindFor c.info := by
      rw [hmade.new, Tree.State.newNode_kind, kindFor]
      cases c.info.isDirectory <;> rfl
    have hroot : nd.kind ≠ .root := by
      rw [hkind, kindFor]
      split_ifs <;> nofun
    have hnode : s'.node n = some nd := hmade.node
    simp only [hnode, if_neg hroot]
    split_ifs with hok
    · exact ⟨rfl, .inl ⟨n, nd, s', rfl, hkind, hnode, rfl, granted_iff.mp hok, d, rest, hmade⟩⟩
    · refine ⟨rfl, .inr ⟨_, d, dd, rfl, hon, hd, ?_⟩⟩
      simp only
      rw [putNode_freeFileContext hnode (openExisting_node ..).1]
      exact hmade.undone

/-- A path that is not empty never leads to the root. -/
theorem searchByPath_ne_root (h : s.Linked N) (hp : path ≠ []) (hs : s.searchByPath N path = some n) :
    ∃ nd, s.node n = some nd ∧ nd.kind ≠ .root := by
  have hplace : ∀ {current m name}, s.searchByName N current name = some m → ∃ md, s.node m = some md ∧ md.kind ≠ .root := by
    intro current m name hf
    obtain ⟨md, hm, _, hroot, _⟩ := h.of_searchByName hf
    exact ⟨md, hm, h.kinds m md hm hroot⟩
  have hreach : ∀ {d rest}, Tree.State.Reaches N s s.root path d rest → rest = path ∨ ∃ dd, s.node d = some dd ∧ dd.kind ≠ .root := by
    intro d rest hr
    exact Tree.State.Reaches.induct (P := fun d rest => rest = path ∨ ∃ dd, s.node d = some dd ∧ dd.kind ≠ .root) hr (.inl rfl)
      fun _ _ hf _ => .inr (hplace hf)
  cases Tree.State.ends N s path.length s.root (Nat.le_refl _) with
  | @found d hr =>
    obtain ⟨fuel, _, he⟩ := hr.searchFrom (Nat.le_refl _)
    rw [Tree.State.searchByPath, he, Tree.State.searchFrom_found rfl] at hs
    obtain rfl := Option.some.inj hs
    exact (hreach hr).resolve_left hp.symm
  | file hr hrest hf hk =>
    obtain ⟨fuel, hlen, he⟩ := hr.searchFrom (Nat.le_refl _)
    rw [Tree.State.searchByPath, he, Tree.State.searchFrom_file hlen hrest hf hk] at hs
    split_ifs at hs
    obtain rfl := Option.some.inj hs
    exact hplace hf
  | missing hr hrest hf =>
    obtain ⟨fuel, hlen, he⟩ := hr.searchFrom (Nat.le_refl _)
    rw [Tree.State.searchByPath, he, Tree.State.searchFrom_missing hlen hrest hf] at hs
    cases hs

/-! ### The kind of what is opened -/

/-- What a create returns agrees with the metadata it has resolved: it opens a file or a
directory as that says, refuses one for the other only where that is so, and refreshes a file
with the metadata of a file. -/
structure KindAgrees (info : EntryInfo) (r : Result) : Prop where
  opened : ∀ n, r.outcome = .opened n → ∃ nd, r.tree.node n = some nd ∧ nd.kind = kindFor info
  notADirectory : r.outcome = .notADirectory → info.isDirectory = false
  fileIsADirectory : r.outcome = .fileIsADirectory → info.isDirectory = true
  refreshed : ∀ M, r.refreshed = some M → M.isDirectory = false

/-- The node that is resident at the path is a file where the metadata is that of a directory,
or a directory, refused as such or opened, where it is that of a file; and the options have not
turned the create away before. -/
def Stale (N : Names) (s : Tree.State) (c : Call) : Prop :=
  ∃ n nd, s.searchByPath N c.path = some n ∧ s.node n = some nd ∧
    ((nd.kind = .fcb ∧ c.info.isDirectory = true ∧ c.options.nonDirectoryFile = false) ∨
      (nd.kind = .dcb ∧ c.info.isDirectory = false ∧ c.options.directoryFile = false ∧ (c.options.nonDirectoryFile = true ∨ Granted nd c.request c.answers)))

theorem openResident_cases (nd : Node) (refreshed : Option EntryInfo) : (openResident N s n nd c refreshed).refreshed = refreshed ∧
    ((Granted nd c.request c.answers ∧ (openResident N s n nd c refreshed).outcome = .opened n ∧
        (openResident N s n nd c refreshed).tree = publish N (putNode s n (openExisting nd c.request c.answers).1) n) ∨
      (¬ Granted nd c.request c.answers ∧ ∃ st, (openResident N s n nd c refreshed).outcome = .failed st ∧
        (openResident N s n nd c refreshed).tree = putNode s n (deferReapIfIdle (openExisting nd c.request c.answers).1))) := by
  unfold openResident
  simp only
  split_ifs with hok
  · exact ⟨rfl, .inl ⟨granted_iff.mp hok, rfl, rfl⟩⟩
  · exact ⟨rfl, .inr ⟨mt granted_iff.mpr hok, _, rfl, rfl⟩⟩

/-- A resident node is opened as what it is. -/
theorem openResident_opened {refreshed : Option EntryInfo} {m : ℕ} (ho : (openResident N s n nd c refreshed).outcome = .opened m) :
    ∃ md, (openResident N s n nd c refreshed).tree.node m = some md ∧ md.kind = nd.kind := by
  obtain ⟨_, ⟨_, he, htree⟩ | ⟨_, st, he, _⟩⟩ := openResident_cases (N := N) (s := s) (n := n) (c := c) nd refreshed
  · rw [he] at ho
    obtain rfl := Outcome.opened.inj ho
    refine ⟨_, by rw [htree, publish_node]; exact putNode_self, ?_⟩
    exact congrArg (·.1) (openExisting_node ..).1
  · rw [he] at ho
    cases ho

/-- A resident directory, and a resident file refreshed with the metadata. -/
theorem openResident_dcb (hk : nd.kind = .dcb) :
    KindAgrees c.info (openResident N s n nd c none) ↔ c.info.isDirectory = true ∨ ¬ Granted nd c.request c.answers := by
  obtain ⟨hrefreshed, hcases⟩ := openResident_cases (N := N) (s := s) (n := n) (c := c) nd none
  constructor
  · intro hagrees
    refine or_iff_not_imp_right.mpr fun hg => ?_
    obtain ⟨_, ho, _⟩ | ⟨hng, _⟩ := hcases
    · obtain ⟨nd', hn, hkind⟩ := hagrees.opened n ho
      obtain ⟨md, hm, hmk⟩ := openResident_opened ho
      rw [hn] at hm
      rw [Option.some.inj hm, hmk, hk, kindFor] at hkind
      split_ifs at hkind with hdir
      exact hdir
    · exact absurd (Classical.not_not.mp hg) hng
  · intro hor
    obtain ⟨hg, ho, _⟩ | ⟨_, st, ho, _⟩ := hcases
    · have hdir := hor.resolve_right fun hng => hng hg
      refine ⟨fun m hm => ?_, by rw [ho]; nofun, by rw [ho]; nofun, by rw [hrefreshed]; nofun⟩
      obtain ⟨md, hmd, hmk⟩ := openResident_opened hm
      exact ⟨md, hmd, by rw [hmk, hk, kindFor, if_pos hdir]⟩
    · exact ⟨by rw [ho]; nofun, by rw [ho]; nofun, by rw [ho]; nofun, by rw [hrefreshed]; nofun⟩

theorem openResident_fcb (hk : nd.kind = .fcb) :
    KindAgrees c.info (openResident N s n (fcbRefresh nd c) c (some c.info)) ↔ c.info.isDirectory = false := by
  obtain ⟨hrefreshed, hcases⟩ := openResident_cases (N := N) (s := s) (n := n) (c := c) (fcbRefresh nd c) (some c.info)
  refine ⟨fun hagrees => hagrees.refreshed c.info hrefreshed, fun hfile => ?_⟩
  have hgiven : ∀ M, (openResident N s n (fcbRefresh nd c) c (some c.info)).refreshed = some M → M.isDirectory = false := by
    intro M hM
    rw [hrefreshed] at hM
    exact Option.some.inj hM ▸ hfile
  obtain ⟨_, ho, _⟩ | ⟨_, st, ho, _⟩ := hcases
  · refine ⟨fun m hm => ?_, by rw [ho]; nofun, by rw [ho]; nofun, hgiven⟩
    obtain ⟨md, hmd, hmk⟩ := openResident_opened hm
    exact ⟨md, hmd, by rw [hmk, kindFor, hfile]; exact hk⟩
  · exact ⟨by rw [ho]; nofun, by rw [ho]; nofun, by rw [ho]; nofun, hgiven⟩

theorem insertAndOpen_agrees (h : s.Linked N) (hs : s.searchByPath N c.path = none) : KindAgrees c.info (insertAndOpen N s c) := by
  obtain ⟨hrefreshed, ⟨n, nd, s', ho, hk, hnode, htree, _, _⟩ | ⟨st, _, _, ho, _⟩⟩ := insertAndOpen_cases h hs
  · refine ⟨fun m hm => ?_, by rw [ho]; nofun, by rw [ho]; nofun, by rw [hrefreshed]; nofun⟩
    rw [ho] at hm
    obtain rfl := Outcome.opened.inj hm
    refine ⟨_, by rw [htree, publish_node]; exact putNode_self, ?_⟩
    exact (congrArg (·.1) (openExisting_node ..).1).trans hk
  · exact ⟨by rw [ho]; nofun, by rw [ho]; nofun, by rw [ho]; nofun, by rw [hrefreshed]; nofun⟩

/-- The root is at the empty path alone, and nothing is opened there. -/
theorem insertAndOpen_root (h : s.Linked N) (hs : s.searchByPath N c.path ≠ none) : insertAndOpen N s c = ⟨s, .breakPoint, none⟩ := by
  have hi := h.inserted c.pool c.path c.info
  unfold insertAndOpen
  generalize s.insertByPath N c.pool c.path c.info = result at hi
  obtain ⟨s', answer⟩ := result
  match answer, hi with
  | .error _, ⟨hnone, _⟩ => exact absurd hnone hs
  | .ok none, ⟨_, he⟩ =>
    have he' : s' = s := he
    rw [he']
  | .ok (some _), ⟨hnone, _⟩ => exact absurd hnone hs

/-- A create agrees with the metadata it has resolved if and only if the node resident at the
path is not left from when the path was of the other kind, or the create is turned away. -/
theorem kindAgrees_iff (h : (Tree.system N fun _ => True).Reachable s) (c : Call) : KindAgrees c.info (volumeCreate N s c) ↔ ¬ Stale N s c := by
  have hl := Tree.reachable_linked h
  unfold volumeCreate
  by_cases h1 : c.info.isDirectory = true ∧ c.options.nonDirectoryFile = true
  · rw [if_pos h1]
    refine iff_of_true ⟨nofun, nofun, fun _ => h1.1, nofun⟩ ?_
    rintro ⟨n, nd, _, _, ⟨_, _, hn⟩ | ⟨_, hd, _⟩⟩
    · rw [h1.2] at hn
      cases hn
    · rw [h1.1] at hd
      cases hd
  rw [if_neg h1]
  by_cases h2 : ¬ c.info.isDirectory = true ∧ c.options.directoryFile = true
  · rw [if_pos h2]
    have hfile := Bool.not_eq_true _ ▸ h2.1
    refine iff_of_true ⟨nofun, fun _ => hfile, nofun, nofun⟩ ?_
    rintro ⟨n, nd, _, _, ⟨_, hd, _⟩ | ⟨_, _, ho, _⟩⟩
    · exact h2.1 hd
    · rw [h2.2] at ho
      cases ho
  rw [if_neg h2]
  cases hs : s.searchByPath N c.path with
  | none =>
    refine iff_of_true (insertAndOpen_agrees hl hs) ?_
    rintro ⟨n, nd, hn, _⟩
    rw [hs] at hn
    cases hn
  | some n =>
    have hroot : KindAgrees c.info (insertAndOpen N s c) := by
      rw [insertAndOpen_root hl (by rw [hs]; nofun)]
      exact ⟨nofun, nofun, nofun, nofun⟩
    have hstale : Stale N s c ↔ ∃ nd, s.node n = some nd ∧
        ((nd.kind = .fcb ∧ c.info.isDirectory = true ∧ c.options.nonDirectoryFile = false) ∨
          (nd.kind = .dcb ∧ c.info.isDirectory = false ∧ c.options.directoryFile = false ∧ (c.options.nonDirectoryFile = true ∨ Granted nd c.request c.answers))) := by
      constructor
      · rintro ⟨m, nd, hm, hrest⟩
        rw [hs] at hm
        obtain rfl := Option.some.inj hm
        exact ⟨nd, hrest⟩
      · rintro ⟨nd, hrest⟩
        exact ⟨n, nd, hs, hrest⟩
    simp only
    cases hn : s.node n with
    | none =>
      refine iff_of_true hroot fun hst => ?_
      obtain ⟨nd, hnd, _⟩ := hstale.mp hst
      rw [hn] at hnd
      cases hnd
    | some nd =>
      rw [hstale, hn]
      simp only [Option.some.injEq, exists_eq_left']
      cases hk : nd.kind with
      | root =>
        refine iff_of_true hroot ?_
        rintro (⟨hf, _⟩ | ⟨hf, _⟩) <;> cases hf
      | dcb =>
        simp only
        split_ifs with hnon
        · have hfile : c.info.isDirectory = false := by
            by_contra hd
            exact h1 ⟨Bool.not_eq_false _ ▸ hd, hnon⟩
          have hopt : c.options.directoryFile = false := by
            by_contra hd
            exact h2 ⟨by rw [hfile]; nofun, Bool.not_eq_false _ ▸ hd⟩
          refine iff_of_false (fun hagrees => ?_) (not_not.mpr (.inr ⟨trivial, hfile, hopt, .inl hnon⟩))
          have hdir : c.info.isDirectory = true := hagrees.fileIsADirectory rfl
          rw [hfile] at hdir
          cases hdir
        · rw [openResident_dcb hk]
          cases hd : c.info.isDirectory with
          | true => simp
          | false =>
            have hopt : c.options.directoryFile = false := by
              by_contra ho
              exact h2 ⟨by rw [hd]; nofun, Bool.not_eq_false _ ▸ ho⟩
            simp [hopt, hnon]
      | fcb =>
        simp only
        have hclash : c.info.isDirectory = true → c.options.nonDirectoryFile = false := by
          intro hd
          by_contra hnon
          exact h1 ⟨hd, Bool.not_eq_false _ ▸ hnon⟩
        split_ifs with hopt
        · have hdir : c.info.isDirectory = true := by
            by_contra hd
            exact h2 ⟨hd, hopt⟩
          refine iff_of_false (fun hagrees => ?_) (not_not.mpr (.inl ⟨trivial, hdir, hclash hdir⟩))
          have hfile : c.info.isDirectory = false := hagrees.notADirectory rfl
          rw [hdir] at hfile
          cases hfile
        · rw [openResident_fcb hk]
          cases hd : c.info.isDirectory with
          | true => simp [hclash hd]
          | false => simp

/-! ### A file that has become a directory -/

/-- `\A`, a file of which a handle is cleaned up and not closed. -/
def residentFile : List Tree.Act :=
  [.insert (fun _ => .ok 1) [separator, 0x41] ⟨false, 5, 1⟩, .touch 1 ⟨.fcb, [], 0, 1, 0, false, 0, .none, 5, 1⟩, .publish 1]

/-- An open of `\A`, which the backend now says is a directory. -/
def openDirectory (nonDirectoryFile : Bool) : Call where
  path := [separator, 0x41]
  options := ⟨false, nonDirectoryFile⟩
  request := ⟨fileReadData, 7, false⟩
  info := ⟨true, 0, 2⟩
  answers := ⟨statusSuccess, statusSuccess, statusSuccess⟩
  pool _ := .ok 2
  flushed := true
  purged := true

theorem reachable_run {paths : Path → Prop} {root : ℕ} {acts : List Tree.Act} (hok : ∀ act ∈ acts, act.Allowed paths)
    (hs : run (Tree.State.next N) (Tree.initial root) acts = some s) : (Tree.system N paths).Reachable s := by
  have hrun : ∀ (acts : List Tree.Act) {s₀ : Tree.State}, (∀ act ∈ acts, act.Allowed paths) → (Tree.system N paths).Reachable s₀ →
      run (Tree.State.next N) s₀ acts = some s → (Tree.system N paths).Reachable s := by
    intro acts
    induction acts with
    | nil =>
      intro s₀ _ hr he
      exact Option.some.inj he ▸ hr
    | cons act acts ih =>
      intro s₀ hok hr he
      obtain ⟨s₁, he₁, he⟩ := Option.bind_eq_some_iff.mp he
      exact ih (fun a ha => hok a (List.mem_cons_of_mem _ ha)) (hr.step ⟨act, hok act List.mem_cons_self, he₁⟩) he
  exact hrun acts hok (.init ⟨root, rfl⟩) hs

/-- The file is refreshed with the directory's metadata and opened. -/
theorem stale_file_opened : ∃ s, (Tree.system asciiNames fun _ => True).Reachable s ∧
    (volumeCreate asciiNames s (openDirectory false)).refreshed = some (openDirectory false).info ∧
    (volumeCreate asciiNames s (openDirectory false)).outcome = .opened 1 ∧
    ¬ KindAgrees (openDirectory false).info (volumeCreate asciiNames s (openDirectory false)) := by
  have hany : (run (Tree.State.next asciiNames) (Tree.initial 0) residentFile).any (fun s =>
      (volumeCreate asciiNames s (openDirectory false)).refreshed = some (openDirectory false).info ∧
      (volumeCreate asciiNames s (openDirectory false)).outcome = .opened 1) = true := by decide +kernel
  obtain ⟨s, hs, hboth⟩ := (Option.any_eq_true _ _).mp hany
  obtain ⟨hrefreshed, hopened⟩ := of_decide_eq_true hboth
  refine ⟨s, reachable_run (fun act _ => ?_) hs, hrefreshed, hopened, fun hagrees => ?_⟩
  · cases act <;> trivial
  · have hdir : (openDirectory false).info.isDirectory = false := hagrees.refreshed _ hrefreshed
    exact absurd hdir (by decide)

/-- Where the create asks for a file it is turned away, as it should be. -/
theorem stale_file_refused : ∃ s, (Tree.system asciiNames fun _ => True).Reachable s ∧ ¬ Stale asciiNames s (openDirectory true) ∧
    KindAgrees (openDirectory true).info (volumeCreate asciiNames s (openDirectory true)) := by
  have hsome : (run (Tree.State.next asciiNames) (Tree.initial 0) residentFile).isSome = true := by decide +kernel
  obtain ⟨s, hs⟩ := Option.isSome_iff_exists.mp hsome
  have hr : (Tree.system asciiNames fun _ => True).Reachable s := reachable_run (fun act _ => by cases act <;> trivial) hs
  have hstale : ¬ Stale asciiNames s (openDirectory true) := by
    rintro ⟨n, nd, _, _, ⟨_, _, hn⟩ | ⟨_, hd, _⟩⟩
    · exact absurd hn (by decide)
    · exact absurd hd (by decide)
  exact ⟨s, hr, hstale, (kindAgrees_iff hr (openDirectory true)).mpr hstale⟩

end BlorgFS.Create.Cold
