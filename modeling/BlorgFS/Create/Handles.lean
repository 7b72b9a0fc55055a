import BlorgFS.Lib.ShareAccess
import BlorgFS.Lib.Transition

/-! The handles of a node: `CreateOpenExistingFcb` and its siblings of `Create.c` open one,
`CleanupVolume` and `CloseVolume` take it down. An open works under the node's resource; only a
close, which does not take it, can come between its increment of `RefCount` and the rest. What
the oplock package, the pool and the memory manager answer is chosen with the step. -/

namespace BlorgFS.Create

open Lib

abbrev Status := BitVec 32

def statusSuccess : Status := 0
def statusAccessDenied : Status := 0xC0000022
def statusSharingViolation : Status := 0xC0000043

/-- `NT_SUCCESS`. -/
def ntSuccess (st : Status) : Bool := !st.msb

inductive Kind where
  | fcb
  | dcb
  | rootDcb
  | vcb
  deriving DecidableEq, Repr

/-! ### Access -/

def readControl : AccessMask := 0x20000
def writeDac : AccessMask := 0x40000
def writeOwner : AccessMask := 0x80000
def synchronize : AccessMask := 0x100000
def accessSystemSecurity : AccessMask := 0x1000000
def maximumAllowed : AccessMask := 0x2000000
def fileReadEa : AccessMask := 0x8
def fileWriteEa : AccessMask := 0x10
def fileDeleteChild : AccessMask := 0x40
def fileReadAttributes : AccessMask := 0x80
def fileWriteAttributes : AccessMask := 0x100

/-- `BLORGFS_READ_ONLY_ACCESS`. Listing a directory is reading data, and traversing it is
executing. -/
def readOnlyAccess : AccessMask :=
  delete ||| readControl ||| writeOwner ||| writeDac ||| synchronize ||| accessSystemSecurity ||| fileReadData ||| fileReadEa ||| fileWriteEa |||
    fileReadAttributes ||| fileWriteAttributes ||| fileExecute ||| maximumAllowed

/-- `BLORGFS_DIRECTORY_CHILD_ACCESS`. A file is added with the bit that writes data, and a
directory with the one that appends. -/
def directoryChildAccess : AccessMask := fileAppendData ||| fileWriteData ||| fileDeleteChild

def checkFileAccess (desiredAccess : AccessMask) : Bool := !flagOn desiredAccess (~~~readOnlyAccess)

def checkDirectoryAccess (desiredAccess : AccessMask) : Bool := !flagOn desiredAccess (~~~(readOnlyAccess ||| directoryChildAccess))

def Kind.checkAccess : Kind → AccessMask → Bool
  | fcb | vcb => checkFileAccess
  | dcb | rootDcb => checkDirectoryAccess

/-! ### The node -/

structure Request where
  desiredAccess : AccessMask
  shareAccess : BitVec 16
  completeIfOplocked : Bool
  deriving DecidableEq, Repr

def Request.access (r : Request) : Access := .ofMask r.desiredAccess r.shareAccess

/-- `FsRtlCheckOplock`, `BlorgCreateCCB` and `FsRtlOplockBreakH`. -/
structure Answers where
  oplock : Status
  ccb : Status
  breakH : Status
  deriving DecidableEq, Repr

/-- An open that has counted itself. -/
structure Opening where
  request : Request
  firstOpen : Bool
  deriving DecidableEq, Repr

/-- A node with what the I/O manager knows of it: the opens it has been told succeeded and that
are not cleaned up, and how many are but are not closed. -/
structure State where
  kind : Kind
  refCount : ℕ
  uncleanCount : ℕ
  shareAccess : ShareAccess
  fileSize : ℕ
  lastModifiedTime : ℕ
  opening : Option Opening
  uncleaned : List Access
  cleaned : ℕ

inductive Act where
  | openNode (r : Request) (k : Answers)
  | settle (k : Answers)
  | cleanup (j : ℕ)
  | close
  | refresh (size lastModifiedTime : ℕ) (flushed purged : Bool)
  deriving DecidableEq, Repr

/-- `CreateApplyShareAccess`. -/
def applyShareAccess (sa : ShareAccess) (a : Access) (firstOpen : Bool) : Option ShareAccess := if firstOpen then some (.set a) else sa.check a

/-- `CreateBreakHandleOplockOnSharingViolation`. -/
def breakHandleOplock (r : Request) (k : Answers) (shareStatus : Status) : Status :=
  if shareStatus ≠ statusSharingViolation ∨ r.completeIfOplocked then shareStatus
  else if k.breakH = statusSuccess then shareStatus
  else k.breakH

namespace State

/-- An open as far as its increment of `RefCount`, or what it fails with. The VCB has no oplock
and its handles no CCB. -/
def openNode (s : State) (r : Request) (k : Answers) : State × Option Status :=
  if !s.kind.checkAccess r.desiredAccess then (s, some statusAccessDenied)
  else if s.kind ≠ .vcb ∧ k.oplock ≠ statusSuccess then (s, some k.oplock)
  else if s.kind ≠ .vcb ∧ ¬ ntSuccess k.ccb then (s, some k.ccb)
  else ({ s with refCount := s.refCount + 1, opening := some ⟨r, s.refCount + 1 = 1⟩ }, none)

/-- The rest of it. -/
def settle (s : State) (o : Opening) (k : Answers) : State × Status :=
  match applyShareAccess s.shareAccess o.request.access o.firstOpen with
  | some shareAccess =>
    ({ s with
      shareAccess
      uncleanCount := if s.kind = .fcb then s.uncleanCount + 1 else s.uncleanCount
      opening := none }, statusSuccess)
  | none =>
    ({ s with
      refCount := s.refCount - 1
      opening := none },
      if s.kind = .vcb then statusSharingViolation else breakHandleOplock o.request k statusSharingViolation)

/-- `CleanupVolume`. -/
def cleanup (s : State) (a : Access) : State :=
  { s with
    shareAccess := s.shareAccess.remove a
    uncleanCount := if s.kind = .fcb then s.uncleanCount - 1 else s.uncleanCount }

/-- `CreateFcbRefresh`. -/
def refresh (s : State) (size lastModifiedTime : ℕ) (flushed purged : Bool) : State :=
  if size = s.fileSize ∧ lastModifiedTime = s.lastModifiedTime then s
  else if s.shareAccess.openCount ≠ 0 ∨ ¬ flushed ∨ ¬ purged then s
  else
    { s with
      fileSize := size
      lastModifiedTime }

/-- The I/O manager has a handle to take down when a create returns `STATUS_SUCCESS`. -/
def returns (s : State) (r : Request) (st : Status) : State := if st = statusSuccess then { s with uncleaned := s.uncleaned ++ [r.access] } else s

/-- The steps. All but a close are under the node's resource. -/
def next (s : State) : Act → Option State
  | .openNode r k =>
    if s.opening = none then
      match s.openNode r k with
      | (s', some st) => some (s'.returns r st)
      | (s', none) => some s'
    else none
  | .settle k => s.opening.map fun o => (s.settle o k).1.returns o.request (s.settle o k).2
  | .cleanup j =>
    if s.opening = none then
      s.uncleaned[j]?.map fun a =>
        { s.cleanup a with
          uncleaned := s.uncleaned.eraseIdx j
          cleaned := s.cleaned + 1 }
    else none
  | .close =>
    if 0 < s.cleaned then
      some { s with
        refCount := s.refCount - 1
        cleaned := s.cleaned - 1 }
    else none
  | .refresh size lastModifiedTime flushed purged =>
    if s.opening = none ∧ s.kind = .fcb then some (s.refresh size lastModifiedTime flushed purged) else none

end State

/-- A node as `BlorgCreateFCB` and its siblings leave it. -/
def initial (kind : Kind) (size lastModifiedTime : ℕ) : State := ⟨kind, 0, 0, .none, size, lastModifiedTime, none, [], 0⟩

def system : System State where
  init s := ∃ kind size lastModifiedTime, s = initial kind size lastModifiedTime
  step s s' := ∃ act, s.next act = some s'

/-! ### What the counts say -/

/-- `RefCount` counts the opens that are not closed, and one that has counted itself;
`UncleanCount` those that are not cleaned up; the share access is that of the same opens one
after another, in any order. Where an open is about to set it there are none. -/
structure State.Agrees (s : State) : Prop where
  refCount : s.refCount = s.uncleaned.length + s.cleaned + s.opening.toList.length
  uncleanCount : s.kind = .fcb → s.uncleanCount = s.uncleaned.length
  shareAccess : ∀ l, l.Perm s.uncleaned → ShareAccess.replay .none l = some s.shareAccess
  openCount : s.shareAccess.openCount = 0 ↔ ∀ a ∈ s.uncleaned, a.data = false
  firstOpen : ∀ o, s.opening = some o → o.firstOpen = true → s.uncleaned = []

/-- As the steps keep it. -/
structure State.Inv (s : State) : Prop where
  refCount : s.refCount = s.uncleaned.length + s.cleaned + s.opening.toList.length
  uncleanCount : s.kind = .fcb → s.uncleanCount = s.uncleaned.length
  shareAccess : s.shareAccess = .total s.uncleaned
  compatible : s.uncleaned.Pairwise Access.Compatible
  firstOpen : ∀ o, s.opening = some o → o.firstOpen = true → s.uncleaned = []

variable {s s' : State} {r : Request} {k : Answers} {o : Opening} {act : Act} {j : ℕ} {a : Access}

namespace State

theorem Inv.agrees (h : s.Inv) : s.Agrees where
  refCount := h.refCount
  uncleanCount := h.uncleanCount
  shareAccess l hl := by
    rw [h.shareAccess]
    exact ShareAccess.replay_eq_total h.compatible hl
  openCount := by
    rw [h.shareAccess]
    exact ShareAccess.openCount_total
  firstOpen := h.firstOpen

/-! ### Every step -/

/-- An open that fails early changes nothing and does not return `STATUS_SUCCESS`. -/
theorem openNode_cases (s : State) (r : Request) (k : Answers) :
    (∃ st, st ≠ statusSuccess ∧ s.openNode r k = (s, some st)) ∨
    s.openNode r k = ({ s with refCount := s.refCount + 1, opening := some ⟨r, s.refCount + 1 = 1⟩ }, none) := by
  unfold openNode
  split_ifs with h1 h2 h3
  · exact .inl ⟨_, by decide, rfl⟩
  · exact .inl ⟨_, h2.2, rfl⟩
  · refine .inl ⟨_, fun he => h3.2 ?_, rfl⟩
    rw [he]
    rfl
  · exact .inr rfl

theorem returns_of_ne {st : Status} (h : st ≠ statusSuccess) : s.returns r st = s := if_neg h

theorem breakHandleOplock_ne : breakHandleOplock r k statusSharingViolation ≠ statusSuccess := by
  unfold breakHandleOplock
  split_ifs with h1 h2
  · decide
  · decide
  · exact h2

theorem openNode_inv (h : s.Inv) (hs : s.next (.openNode r k) = some s') : s'.Inv := by
  simp only [next] at hs
  split_ifs at hs with ho
  rcases openNode_cases s r k with ⟨st, hst, he⟩ | he
  · rw [he] at hs
    obtain rfl := Option.some.inj hs
    rwa [returns_of_ne hst]
  · rw [he] at hs
    obtain rfl := Option.some.inj hs
    have href := h.refCount
    rw [ho] at href
    refine ⟨?_, h.uncleanCount, h.shareAccess, h.compatible, fun o he hf => ?_⟩
    · simp only [Option.toList_some, List.length_singleton, Option.toList_none, List.length_nil] at href ⊢
      omega
    · obtain rfl := Option.some.inj he
      have hfirst : s.refCount + 1 = 1 := of_decide_eq_true hf
      simp only [Option.toList_none, List.length_nil] at href
      have hlen : s.uncleaned.length = 0 := by omega
      exact List.length_eq_zero_iff.mp hlen

/-- The share access of the opens that are not cleaned up lets the new one in, or refuses it. -/
theorem settle_cases (h : s.Inv) (ho : s.opening = some o) :
    ((∀ b ∈ s.uncleaned, Access.Compatible o.request.access b) ∧ s.settle o k =
      ({ s with
        shareAccess := .total (s.uncleaned ++ [o.request.access])
        uncleanCount := if s.kind = .fcb then s.uncleanCount + 1 else s.uncleanCount
        opening := none }, statusSuccess)) ∨
    ∃ st, st ≠ statusSuccess ∧ s.settle o k = ({ s with refCount := s.refCount - 1, opening := none }, st) := by
  have happly : applyShareAccess s.shareAccess o.request.access o.firstOpen =
      if ∀ b ∈ s.uncleaned, Access.Compatible o.request.access b then some (.total (s.uncleaned ++ [o.request.access])) else none := by
    unfold applyShareAccess
    split_ifs with hf hall hall
    · rw [h.firstOpen o ho hf, ShareAccess.set_eq]
      rfl
    · rw [h.firstOpen o ho hf] at hall
      exact absurd (fun _ hb => nomatch hb) hall
    · rw [h.shareAccess, ShareAccess.check_total, if_pos hall]
    · rw [h.shareAccess, ShareAccess.check_total, if_neg hall]
  unfold settle
  rw [happly]
  by_cases hall : ∀ b ∈ s.uncleaned, Access.Compatible o.request.access b
  · rw [if_pos hall]
    exact .inl ⟨hall, rfl⟩
  · rw [if_neg hall]
    refine .inr ⟨_, ?_, rfl⟩
    split_ifs
    · decide
    · exact breakHandleOplock_ne

theorem settle_inv (h : s.Inv) (hs : s.next (.settle k) = some s') : s'.Inv := by
  obtain ⟨o, ho, rfl⟩ := Option.map_eq_some_iff.mp hs
  have href := h.refCount
  rw [ho, Option.toList_some, List.length_singleton] at href
  rcases settle_cases (k := k) h ho with ⟨hall, he⟩ | ⟨st, hst, he⟩
  · rw [he]
    constructor
    · simp only [returns, if_pos, List.length_append, List.length_singleton, Option.toList_none, List.length_nil]
      omega
    · intro hk
      have hk' : s.kind = .fcb := hk
      have hun := h.uncleanCount hk'
      simp only [returns, if_pos, List.length_append, List.length_singleton, hk']
      omega
    · rfl
    · refine List.pairwise_append.mpr ⟨h.compatible, List.pairwise_singleton _ _, fun b hb c hc => ?_⟩
      rw [List.mem_singleton.mp hc]
      exact (hall b hb).symm
    · exact nofun
  · rw [he, returns_of_ne hst]
    refine ⟨?_, h.uncleanCount, h.shareAccess, h.compatible, nofun⟩
    simp only [Option.toList_none, List.length_nil]
    omega

theorem cleanup_inv (h : s.Inv) (hs : s.next (.cleanup j) = some s') : s'.Inv := by
  simp only [next] at hs
  split_ifs at hs with ho
  obtain ⟨a, ha, rfl⟩ := Option.map_eq_some_iff.mp hs
  obtain ⟨hj, rfl⟩ := List.getElem?_eq_some_iff.mp ha
  have hlen := List.length_eraseIdx_of_lt hj
  refine ⟨?_, fun hk => ?_, ?_, h.compatible.sublist (List.eraseIdx_sublist _ _), fun o he => ?_⟩
  · have href := h.refCount
    simp only [cleanup, hlen]
    omega
  · have hk' : s.kind = .fcb := hk
    have hun := h.uncleanCount hk'
    simp only [cleanup, hk', if_pos, hlen]
    omega
  · simp only [cleanup]
    rw [h.shareAccess]
    exact ShareAccess.remove_total (List.getElem_cons_eraseIdx_perm hj).symm
  · have he' : s.opening = some o := he
    rw [ho] at he'
    cases he'

theorem close_inv (h : s.Inv) (hs : s.next .close = some s') : s'.Inv := by
  simp only [next] at hs
  split_ifs at hs with hpos
  obtain rfl := Option.some.inj hs
  refine ⟨?_, h.uncleanCount, h.shareAccess, h.compatible, h.firstOpen⟩
  have href := h.refCount
  simp only
  omega

theorem refresh_cases (s : State) (size lastModifiedTime : ℕ) (flushed purged : Bool) :
    s.refresh size lastModifiedTime flushed purged = s ∨
    s.shareAccess.openCount = 0 ∧ s.refresh size lastModifiedTime flushed purged = { s with fileSize := size, lastModifiedTime } := by
  unfold refresh
  split_ifs with h1 h2
  · exact .inl rfl
  · exact .inl rfl
  · exact .inr ⟨by omega, rfl⟩

theorem next_inv (h : s.Inv) (hs : s.next act = some s') : s'.Inv := by
  cases act with
  | openNode r k => exact openNode_inv h hs
  | settle k => exact settle_inv h hs
  | cleanup j => exact cleanup_inv h hs
  | close => exact close_inv h hs
  | refresh size lastModifiedTime flushed purged =>
    simp only [next] at hs
    split_ifs at hs with hc
    obtain rfl := Option.some.inj hs
    rcases refresh_cases s size lastModifiedTime flushed purged with he | ⟨_, he⟩
    · rwa [he]
    · rw [he]
      exact ⟨h.refCount, h.uncleanCount, h.shareAccess, h.compatible, h.firstOpen⟩

theorem reachable_inv (h : system.Reachable s) : s.Inv := by
  apply System.invariant _ _ h
  · rintro _ ⟨kind, size, lastModifiedTime, rfl⟩
    exact ⟨rfl, fun _ => rfl, rfl, .nil, nofun⟩
  · rintro s s' _ hi ⟨act, hn⟩
    exact next_inv hi hn

/-- No step but a refresh changes the size. -/
theorem fileSize_of_next (h : s.next act = some s') (hne : s'.fileSize ≠ s.fileSize) : s.shareAccess.openCount = 0 := by
  have hreturns : ∀ (s : State) r st, (s.returns r st).fileSize = s.fileSize := by
    intro s r st
    unfold returns
    split_ifs <;> rfl
  cases act with
  | openNode r k =>
    simp only [next] at h
    split_ifs at h
    rcases openNode_cases s r k with ⟨st, hst, he⟩ | he
    · rw [he] at h
      obtain rfl := Option.some.inj h
      exact absurd (hreturns s r st) hne
    · rw [he] at h
      obtain rfl := Option.some.inj h
      exact absurd rfl hne
  | settle k =>
    obtain ⟨o, _, rfl⟩ := Option.map_eq_some_iff.mp h
    refine absurd ((hreturns _ _ _).trans ?_) hne
    unfold settle
    split <;> rfl
  | cleanup j =>
    simp only [next] at h
    split_ifs at h
    obtain ⟨a, _, rfl⟩ := Option.map_eq_some_iff.mp h
    exact absurd rfl hne
  | close =>
    simp only [next] at h
    split_ifs at h
    obtain rfl := Option.some.inj h
    exact absurd rfl hne
  | refresh size lastModifiedTime flushed purged =>
    simp only [next] at h
    split_ifs at h
    obtain rfl := Option.some.inj h
    rcases refresh_cases s size lastModifiedTime flushed purged with he | ⟨h0, _⟩
    · exact absurd (congrArg State.fileSize he) hne
    · exact h0

end State

/-- In every state of every run of opens, cleanups, closes and refreshes the counts agree with
the opens that succeeded, and a file's size changes only while no handle reads its data. -/
theorem share_access_agrees (s : State) (h : system.Reachable s) :
    s.Agrees ∧ ∀ act s', s.next act = some s' → s'.fileSize ≠ s.fileSize → ∀ a ∈ s.uncleaned, a.data = false := by
  have hi := State.reachable_inv h
  refine ⟨hi.agrees, fun act s' hn hne => ?_⟩
  exact hi.agrees.openCount.mp (State.fileSize_of_next hn hne)

/-- Two readers share a file, a third that would not share it is refused, and the first reader
is cleaned up. -/
theorem share_access_agrees_readers : ∃ s, system.Reachable s ∧ s.refCount = 2 ∧ s.uncleanCount = 1 ∧
    s.shareAccess = ⟨1, 1, 0, 0, 1, 0, 0⟩ ∧ s.uncleaned.length = 1 ∧ s.cleaned = 1 ∧ s.Agrees := by
  let reader : Request := ⟨0x1, 0x1, false⟩
  let jealous : Request := ⟨0x1, 0x0, true⟩
  let fine : Answers := ⟨0, 0, 0⟩
  have hrun : (run State.next (initial .fcb 0 0) [.openNode reader fine, .settle fine, .openNode reader fine, .settle fine,
      .openNode jealous fine, .settle fine, .cleanup 0]).any
      (fun s => decide (s.refCount = 2) && decide (s.uncleanCount = 1) && decide (s.shareAccess = ⟨1, 1, 0, 0, 1, 0, 0⟩) &&
        decide (s.uncleaned.length = 1) && decide (s.cleaned = 1)) = true := by decide +kernel
  obtain ⟨s, hs, hok⟩ := (Option.any_eq_true _ _).mp hrun
  have hnext : ∀ s act s', State.next s act = some s' → system.step s s' := fun _ act _ h => ⟨act, h⟩
  have hreach : system.Reachable s := System.Reachable.run hnext (.init ⟨_, _, _, rfl⟩) hs
  simp only [Bool.and_eq_true, decide_eq_true_eq] at hok
  obtain ⟨⟨⟨⟨h1, h2⟩, h3⟩, h4⟩, h5⟩ := hok
  exact ⟨s, hreach, h1, h2, h3, h4, h5, (share_access_agrees s hreach).1⟩

end BlorgFS.Create
