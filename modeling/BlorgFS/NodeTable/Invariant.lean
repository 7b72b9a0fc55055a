import BlorgFS.NodeTable.Machine
import Mathlib.Tactic.Linarith

/-! What holds of the node table between any two steps. The counts of a node count the
operations that hold it, the claim has one owner, whoever is about to free a node is the
only one left who knows of it, and a node nothing holds is claimed or is being looked at
by someone who will claim it. -/

namespace BlorgFS.NodeTable

open Lib

variable {N : Type}

/-! ### What a job holds of a node -/

/-- The batch that is left when the walk is over. -/
def Walk.rest : Walk → List ℕ
  | .leave => []
  | .batch ns => ns

namespace Job

/-- The pins on `m`. -/
def pins (m : ℕ) : Job N → ℕ
  | .opening n .warm | .checking n .warm | .counted n .warm | .uncount n .warm | .unpin n => if n = m then 1 else 0
  | _ => 0

/-- The references to `m` that no handle stands for. -/
def refs (m : ℕ) : Job N → ℕ
  | .counted n _ | .uncount n _ | .dereference n => if n = m then 1 else 0
  | _ => 0

/-- The nodes claimed for the reap list that are not on it: being pushed, in the worker's
batch, or retired. -/
def claimed : Job N → List ℕ
  | .push n _ => [n]
  | .free n true k => n :: k.rest
  | .free _ false k | .reap _ k => k.rest
  | .wait ns | .batch ns => ns
  | _ => []

/-- The nodes a job has a pointer to, directories it walks through apart. -/
def nodes : Job N → List ℕ
  | .opening n _ | .checking n _ | .counted n _ | .uncount n _ | .unpin n | .dereference n => [n]
  | .deferReapIfIdle n | .readRef n _ | .readPin n _ | .claim n _ | .push n _ | .publish n => [n]
  | .kick (.deferral n _) | .queue (.deferral n _) => [n]
  | .free n _ k => n :: k.rest
  | .reap _ k => k.rest
  | .wait ns | .batch ns => ns
  | _ => []

def claims (m : ℕ) (job : Job N) : ℕ := job.claimed.count m

def mentions (m : ℕ) (job : Job N) : ℕ := job.nodes.count m

def vcbs (job : Job N) : ℕ := if job.vcb then 1 else 0

/-- The node that is this operation's alone. -/
def owns : Job N → Option ℕ
  | .opening n .fresh | .checking n .fresh | .counted n .fresh | .uncount n .fresh | .free n _ _ => some n
  | _ => none

/-- The worker, from the claim of the gate to its clearing. -/
def runs : Job N → ℕ
  | .queue _ | .item | .wait _ | .batch _ | .tail | .free _ _ (.batch _) | .reap _ (.batch _) => 1
  | _ => 0

def kicks : Job N → ℕ
  | .kick _ => 1
  | _ => 0

/-- `m` is about to be claimed or freed, should it still be idle. -/
def tends (m : ℕ) : Job N → ℕ
  | .readRef n _ | .readPin n _ | .claim n _ | .deferReapIfIdle n | .free n _ _ => if n = m then 1 else 0
  | .opening n .fresh | .checking n .fresh | .reap n _ | .insert n _ _ _ _ => if n = m then 1 else 0
  | _ => 0

variable {job : Job N} {m : ℕ}

theorem pins_le : job.pins m ≤ job.mentions m := by
  cases job with
  | opening n how | checking n how | counted n how | uncount n how =>
    cases how <;> simp [pins, mentions, nodes, List.count_singleton]
  | unpin n => simp [pins, mentions, nodes, List.count_singleton]
  | _ => exact Nat.zero_le _

theorem refs_le : job.refs m ≤ job.mentions m := by
  cases job with
  | counted n how | uncount n how | dereference n => simp [refs, mentions, nodes, List.count_singleton]
  | _ => exact Nat.zero_le _

theorem claims_le : job.claims m ≤ job.mentions m := by
  cases job with
  | free n claimed k =>
    cases claimed
    · simp [claims, mentions, nodes, Job.claimed, List.count_cons]
    · exact Nat.le_refl _
  | push n k => exact Nat.le_refl _
  | reap d k => exact Nat.le_refl _
  | wait ns => exact Nat.le_refl _
  | batch ns => exact Nat.le_refl _
  | _ => exact Nat.zero_le _

/-- Who does not hold the VCB resource has a pointer only under a count, a claim or the
bucket lock. -/
theorem mentions_le (h : job.vcb = false) (hs : job.shares ≠ some m) :
    job.mentions m ≤ job.pins m + job.refs m + job.claims m := by
  cases job with
  | opening n how | checking n how | counted n how | uncount n how =>
    cases how <;> simp_all [pins, refs, mentions, nodes, vcb, List.count_singleton] <;> omega
  | unpin n | dereference n => simp [pins, refs, mentions, nodes, List.count_singleton]
  | readRef n k | readPin n k | claim n k | push n k => simp_all [mentions, nodes, shares]
  | kick who | queue who => cases who <;> simp_all [mentions, nodes, shares]
  | wait ns => simp [claims, claimed, mentions, nodes]
  | deferReapIfIdle n => simp [vcb] at h
  | publish n => simp [vcb] at h
  | free n c k => simp [vcb] at h
  | reap d k => simp [vcb] at h
  | batch ns => simp [vcb] at h
  | _ => simp [mentions, nodes]

theorem vcb_of_owns (h : job.owns = some m) : job.vcb = true := by
  cases job with
  | opening n how | checking n how | counted n how | uncount n how => cases how <;> simp_all [owns, vcb]
  | free n c k => rfl
  | _ => simp [owns] at h

theorem mentions_of_owns (h : job.owns = some m) : 1 ≤ job.mentions m := by
  cases job with
  | opening n how | checking n how | counted n how | uncount n how => cases how <;> simp_all [owns, mentions, nodes]
  | free n c k => simp_all [owns, mentions, nodes]
  | _ => simp [owns] at h

end Job

/-! ### The counts of a state -/

namespace State

def ref (s : State N) (m : ℕ) : ℤ := ((s.node m).map Node.refCount).getD 0

def pin (s : State N) (m : ℕ) : ℤ := ((s.node m).map Node.pinCount).getD 0

def claim (s : State N) (m : ℕ) : ℕ := if (s.node m).any Node.onReapList then 1 else 0

/-- The pointers to `m` that no operation holds: from handles, the table and the reap list. -/
def stock (s : State N) (m : ℕ) : ℕ := s.handles.count m + s.table.count m + s.reapList.count m

/-- A file or directory node other than the root. -/
def Member (s : State N) (m : ℕ) : Prop := ∃ nd, s.node m = some nd ∧ nd.kind ≠ .root

/-- Nothing holds `m`. -/
def Idle (s : State N) (m : ℕ) : Prop := s.ref m = 0 ∧ s.pin m = 0 ∧ s.children m = []

/-- One operation knows of `m` and nothing else does. -/
structure Alone (s : State N) (jobs : List (Job N)) (m : ℕ) : Prop where
  known : s.stock m + tally (Job.mentions m) jobs = 1
  leaf : s.children m = []

/-- The tree of directories, and that every node not in it was freed once. -/
structure Tree (s : State N) : Prop where
  root : ∃ nd, s.node 0 = some nd ∧ nd.kind = .root
  onlyRoot : ∀ m nd, s.node m = some nd → nd.kind = .root → m = 0
  bound : ∀ m, s.allocated ≤ m → s.node m = none
  linked : ∀ d m, m ∈ s.children d → ∃ nd, s.node m = some nd ∧ nd.kind ≠ .root ∧ nd.parentDcb = d
  parent : ∀ m nd, s.node m = some nd → nd.kind ≠ .root → m ∈ s.children nd.parentDcb
  directory : ∀ d, s.children d ≠ [] → ∃ nd, s.node d = some nd ∧ nd.kind ≠ .fcb
  nodup : ∀ d, (s.children d).Nodup
  frees : ∀ m, s.frees m = if m < s.allocated ∧ s.node m = none then 1 else 0

end State

/-- The directories an operation walks through are there. -/
def Job.Placed (s : State N) : Job N → Prop
  | .search cur _ _ _ => ∃ nd, s.node cur = some nd
  | .insert cur _ rest _ lastCreated =>
    (∃ nd, s.node cur = some nd ∧ nd.kind ≠ .fcb) ∧ (rest = [] → cur = 0 ∧ lastCreated = none) ∧
      ∀ c, lastCreated = some c → c = cur ∧ s.children cur = []
  | .reap d _ => ∃ nd, s.node d = some nd ∧ nd.kind ≠ .fcb
  | _ => True

structure State.Inv (s : State N) (jobs : List (Job N)) : Prop where
  tree : s.Tree
  refs : ∀ m, s.ref m = tally (Job.refs m) jobs + s.handles.count m
  pins : ∀ m, s.pin m = tally (Job.pins m) jobs
  claims : ∀ m, s.claim m = s.reapList.count m + tally (Job.claims m) jobs
  members : ∀ m, s.stock m + tally (Job.mentions m) jobs ≠ 0 → s.Member m
  table : s.table.Nodup
  vcb : tally Job.vcbs jobs ≤ 1
  owned : ∀ job ∈ jobs, ∀ m, job.owns = some m → s.Alone jobs m
  placed : ∀ job ∈ jobs, job.Placed s
  runs : tally Job.runs jobs = if s.queued then 1 else 0
  gate : s.reapList ≠ [] → s.queued = true ∨ s.shuttingDown = true ∨ tally Job.kicks jobs ≠ 0
  tended : ∀ m, s.Member m → s.Idle m → s.claim m = 0 → tally (Job.tends m) jobs ≠ 0
  sound : s.misused = false

namespace State

variable {s s' : State N} {job : Job N} {rest new : List (Job N)} {n m : ℕ} {nd : Node N}

theorem ref_of (h : s.node n = some nd) : s.ref n = nd.refCount := by simp [ref, h]

theorem pin_of (h : s.node n = some nd) : s.pin n = nd.pinCount := by simp [pin, h]

theorem claim_of (h : s.node n = some nd) : s.claim n = if nd.onReapList then 1 else 0 := by simp [claim, h]

theorem Inv.perm {jobs jobs' : List (Job N)} (h : s.Inv jobs) (hp : jobs.Perm jobs') : s.Inv jobs' := by
  have ht : ∀ f : Job N → ℕ, tally f jobs = tally f jobs' := fun f => tally_perm hp
  constructor
  · exact h.tree
  · intro m
    rw [← ht]
    exact h.refs m
  · intro m
    rw [← ht]
    exact h.pins m
  · intro m
    rw [← ht]
    exact h.claims m
  · intro m
    rw [← ht]
    exact h.members m
  · exact h.table
  · rw [← ht]
    exact h.vcb
  · intro job hj m hm
    obtain ⟨hk, hl⟩ := h.owned job (hp.mem_iff.mpr hj) m hm
    exact ⟨by rw [← ht]; exact hk, hl⟩
  · intro job hj
    exact h.placed job (hp.mem_iff.mpr hj)
  · rw [← ht]
    exact h.runs
  · rw [← ht]
    exact h.gate
  · intro m
    rw [← ht]
    exact h.tended m
  · exact h.sound

/-! ### Reading the invariant -/

/-- Whoever a job has a pointer to is there. -/
theorem Inv.member_of_mem (h : s.Inv (job :: rest)) (hn : n ∈ job.nodes) : s.Member n := by
  apply h.members n
  have : 0 < job.mentions n := List.count_pos_iff.mpr hn
  rw [tally_cons]
  omega

theorem Inv.no_vcb (h : s.Inv (job :: rest)) (hv : job.vcb = true) : ∀ j ∈ rest, j.vcb = false := by
  intro j hj
  have h1 := h.vcb
  have h2 := le_tally (f := Job.vcbs) hj
  rw [tally_cons, Job.vcbs, if_pos hv] at h1
  cases hjv : j.vcb with
  | false => rfl
  | true =>
    rw [Job.vcbs, if_pos hjv] at h2
    omega

/-- Of a node that another operation owns, this one knows nothing. -/
theorem Inv.stranger (h : s.Inv (job :: rest)) {j : Job N} (hj : j ∈ rest) (hm : j.owns = some m) :
    s.stock m = 0 ∧ job.mentions m = 0 ∧ tally (Job.mentions m) rest = 1 ∧ s.children m = [] := by
  obtain ⟨hk, hl⟩ := h.owned j (List.mem_cons_of_mem _ hj) m hm
  have h1 := le_tally (f := Job.mentions m) hj
  have h2 := Job.mentions_of_owns hm
  rw [tally_cons] at hk
  exact ⟨by omega, by omega, by omega, hl⟩

/-! ### Steps that leave the tree alone -/

/-- The tree and what was freed are as they were. -/
structure Frame (s s' : State N) : Prop where
  shape : ∀ m, (s'.node m).map (fun nd => (nd.kind, nd.parentDcb)) = (s.node m).map fun nd => (nd.kind, nd.parentDcb)
  children : s'.children = s.children
  allocated : s'.allocated = s.allocated
  frees : s'.frees = s.frees

theorem frame_refl : Frame s s := ⟨fun _ => rfl, rfl, rfl, rfl⟩

theorem frame_put {nd' : Node N} (h : s.node n = some nd) (hk : nd'.kind = nd.kind) (hp : nd'.parentDcb = nd.parentDcb) :
    Frame s (s.put n nd') := by
  refine ⟨fun m => ?_, rfl, rfl, rfl⟩
  by_cases hm : m = n
  · subst hm
    simp [put, h, hk, hp]
  · simp [put, hm]

theorem Frame.node (h : Frame s s') (hn : s'.node m = some nd) :
    ∃ nd₀, s.node m = some nd₀ ∧ nd₀.kind = nd.kind ∧ nd₀.parentDcb = nd.parentDcb := by
  have hs := h.shape m
  rw [hn] at hs
  cases hs₀ : s.node m with
  | none => simp [hs₀] at hs
  | some nd₀ =>
    simp only [hs₀, Option.map_some, Option.some.injEq, Prod.mk.injEq] at hs
    exact ⟨nd₀, rfl, hs.1.symm, hs.2.symm⟩

theorem Frame.symm (h : Frame s s') : Frame s' s :=
  ⟨fun m => (h.shape m).symm, h.children.symm, h.allocated.symm, h.frees.symm⟩

theorem Frame.node_none (h : Frame s s') : s'.node m = none ↔ s.node m = none := by
  have hs := congrArg Option.isNone (h.shape m)
  simp only [Option.isNone_map] at hs
  rw [← Option.isNone_iff_eq_none, ← Option.isNone_iff_eq_none, hs]

theorem Frame.member (h : Frame s s') (hm : s.Member m) : s'.Member m := by
  obtain ⟨nd, hn, hk⟩ := hm
  obtain ⟨nd', hn', hk', -⟩ := h.symm.node hn
  exact ⟨nd', hn', hk' ▸ hk⟩

theorem Frame.tree (h : Frame s s') (ht : s.Tree) : s'.Tree := by
  have hback : ∀ {m nd}, s.node m = some nd → ∃ nd', s'.node m = some nd' ∧ nd'.kind = nd.kind ∧ nd'.parentDcb = nd.parentDcb :=
    fun hn => h.symm.node hn
  constructor
  · obtain ⟨nd, hn, hk⟩ := ht.root
    obtain ⟨nd', hn', hk', -⟩ := hback hn
    exact ⟨nd', hn', hk'.trans hk⟩
  · intro m nd hn hk
    obtain ⟨nd₀, hn₀, hk₀, -⟩ := h.node hn
    exact ht.onlyRoot m nd₀ hn₀ (hk₀.trans hk)
  · intro m hm
    exact h.node_none.mpr (ht.bound m (h.allocated ▸ hm))
  · intro d m hm
    rw [h.children] at hm
    obtain ⟨nd, hn, hk, hp⟩ := ht.linked d m hm
    obtain ⟨nd', hn', hk', hp'⟩ := hback hn
    exact ⟨nd', hn', hk' ▸ hk, hp'.trans hp⟩
  · intro m nd hn hk
    obtain ⟨nd₀, hn₀, hk₀, hp₀⟩ := h.node hn
    rw [h.children, ← hp₀]
    exact ht.parent m nd₀ hn₀ (hk₀ ▸ hk)
  · intro d hd
    rw [h.children] at hd
    obtain ⟨nd, hn, hk⟩ := ht.directory d hd
    obtain ⟨nd', hn', hk', -⟩ := hback hn
    exact ⟨nd', hn', hk' ▸ hk⟩
  · rw [h.children]
    exact ht.nodup
  · intro m
    simp only [h.frees, ht.frees m, h.allocated, h.node_none]

theorem Frame.placed (h : Frame s s') (hp : job.Placed s) : job.Placed s' := by
  cases job with
  | search cur rest path dir =>
    obtain ⟨nd, hn⟩ := hp
    obtain ⟨nd', hn', -⟩ := h.symm.node hn
    exact ⟨nd', hn'⟩
  | insert cur walked rest dir last =>
    obtain ⟨⟨nd, hn, hk⟩, hz, hl⟩ := hp
    obtain ⟨nd', hn', hk', -⟩ := h.symm.node hn
    refine ⟨⟨nd', hn', hk' ▸ hk⟩, hz, ?_⟩
    rw [h.children]
    exact hl
  | reap d k =>
    obtain ⟨nd, hn, hk⟩ := hp
    obtain ⟨nd', hn', hk', -⟩ := h.symm.node hn
    exact ⟨nd', hn', hk' ▸ hk⟩
  | _ => trivial

/-- A job done and others in its place, the tree left alone. Whoever the new ones know of
was known already, unless the VCB resource is held. -/
theorem Inv.exchange (h : s.Inv (job :: rest)) (hframe : Frame s s')
    (hrefs : ∀ m, s'.ref m + job.refs m + s.handles.count m = s.ref m + tally (Job.refs m) new + s'.handles.count m)
    (hpins : ∀ m, s'.pin m + job.pins m = s.pin m + tally (Job.pins m) new)
    (hclaims : ∀ m, s'.claim m + (s.reapList.count m + job.claims m) =
      s.claim m + (s'.reapList.count m + tally (Job.claims m) new))
    (hknown : ∀ m, s'.stock m + tally (Job.mentions m) new ≠ 0 →
      s.stock m + job.mentions m ≠ 0 ∨ job.vcb = true ∧ s.Member m)
    (htable : s'.table.Nodup)
    (hvcb : tally Job.vcbs new ≤ job.vcbs ∨ tally Job.vcbs new ≤ 1 ∧ tally Job.vcbs rest = 0)
    (howned : ∀ j ∈ new, ∀ m, j.owns = some m → s'.Alone (new ++ rest) m)
    (hplaced : ∀ j ∈ new, j.Placed s')
    (hruns : tally Job.runs new + (if s.queued then 1 else 0) = job.runs + if s'.queued then 1 else 0)
    (hgate : s'.reapList ≠ [] →
      s'.queued = true ∨ s'.shuttingDown = true ∨ tally Job.kicks new ≠ 0 ∨ tally Job.kicks rest ≠ 0)
    (htended : ∀ m, s.Member m → s'.Idle m → s'.claim m = 0 → tally (Job.tends m) new = 0 →
      s.Idle m ∧ s.claim m = 0 ∧ job.tends m = 0)
    (hsound : s'.misused = s.misused) : s'.Inv (new ++ rest) := by
  constructor
  · exact hframe.tree h.tree
  · intro m
    have h1 := h.refs m
    have h2 := hrefs m
    rw [tally_cons] at h1
    rw [tally_append]
    push_cast at h1 ⊢
    omega
  · intro m
    have h1 := h.pins m
    have h2 := hpins m
    rw [tally_cons] at h1
    rw [tally_append]
    push_cast at h1 ⊢
    omega
  · intro m
    have h1 := h.claims m
    have h2 := hclaims m
    rw [tally_cons] at h1
    rw [tally_append]
    omega
  · intro m hm
    apply hframe.member
    rw [tally_append] at hm
    by_cases hnew : s'.stock m + tally (Job.mentions m) new = 0
    · apply h.members m
      rw [tally_cons]
      omega
    · rcases hknown m hnew with hk | ⟨-, hk⟩
      · apply h.members m
        rw [tally_cons]
        omega
      · exact hk
  · exact htable
  · have := h.vcb
    rw [tally_cons] at this
    rw [tally_append]
    omega
  · intro j hj m hm
    rcases List.mem_append.mp hj with hj | hj
    · exact howned j hj m hm
    · -- An owner holds the VCB resource, so this job does not and knows nothing of `m`.
      obtain ⟨h1, h2, h3, h4⟩ := h.stranger hj hm
      have hv : job.vcb = false := by
        cases hjv : job.vcb with
        | false => rfl
        | true => exact absurd (Job.vcb_of_owns hm) (by rw [h.no_vcb hjv j hj]; exact Bool.false_ne_true)
      have h5 : s'.stock m + tally (Job.mentions m) new = 0 := by
        by_contra hne
        rcases hknown m hne with hk | ⟨hk, -⟩
        · omega
        · rw [hv] at hk
          cases hk
      refine ⟨?_, by rw [hframe.children]; exact h4⟩
      rw [tally_append]
      omega
  · intro j hj
    rcases List.mem_append.mp hj with hj | hj
    · exact hplaced j hj
    · exact hframe.placed (h.placed j (List.mem_cons_of_mem _ hj))
  · have := h.runs
    rw [tally_cons] at this
    rw [tally_append]
    omega
  · intro hne
    rw [tally_append]
    rcases hgate hne with hg | hg | hg | hg
    · exact Or.inl hg
    · exact Or.inr (Or.inl hg)
    · exact Or.inr (Or.inr (by omega))
    · exact Or.inr (Or.inr (by omega))
  · intro m hm hi hc
    rw [tally_append]
    by_contra hz
    have hm₀ : s.Member m := hframe.symm.member hm
    obtain ⟨h1, h2, h3⟩ := htended m hm₀ hi hc (by omega)
    have := h.tended m hm₀ h1 h2
    rw [tally_cons] at this
    omega
  · rw [hsound]
    exact h.sound

/-- The state as it was, and the jobs hold what the job held. -/
theorem Inv.move (h : s.Inv (job :: rest))
    (hrefs : ∀ m, job.refs m = tally (Job.refs m) new) (hpins : ∀ m, job.pins m = tally (Job.pins m) new)
    (hclaims : ∀ m, job.claims m = tally (Job.claims m) new)
    (hknown : ∀ m, tally (Job.mentions m) new ≠ 0 → job.mentions m ≠ 0 ∨ job.vcb = true ∧ s.Member m)
    (hvcb : tally Job.vcbs new ≤ job.vcbs ∨ tally Job.vcbs new ≤ 1 ∧ tally Job.vcbs rest = 0)
    (howned : ∀ j ∈ new, ∀ m, j.owns = some m → job.owns = some m ∧ tally (Job.mentions m) new = job.mentions m)
    (hplaced : ∀ j ∈ new, j.Placed s) (hruns : tally Job.runs new = job.runs)
    (hkicks : job.kicks = 0 ∨ s.queued = true ∨ s.shuttingDown = true)
    (htended : ∀ m, s.Member m → s.Idle m → s.claim m = 0 → tally (Job.tends m) new = 0 → job.tends m = 0) :
    s.Inv (new ++ rest) := by
  apply h.exchange frame_refl
  · intro m
    rw [hrefs]
  · intro m
    rw [hpins]
  · intro m
    rw [hclaims]
  · intro m hm
    by_cases hs : s.stock m = 0
    · rcases hknown m (by omega) with hk | hk
      · exact Or.inl (by omega)
      · exact Or.inr hk
    · exact Or.inl (by omega)
  · exact h.table
  · exact hvcb
  · intro j hj m hm
    obtain ⟨ho, hmen⟩ := howned j hj m hm
    obtain ⟨hk, hl⟩ := h.owned job List.mem_cons_self m ho
    refine ⟨?_, hl⟩
    rw [tally_cons] at hk
    rw [tally_append]
    omega
  · exact hplaced
  · rw [hruns]
  · intro hne
    have := h.gate hne
    rw [tally_cons] at this
    rcases this with hg | hg | hg
    · exact Or.inl hg
    · exact Or.inr (Or.inl hg)
    · rcases hkicks with hk | hk | hk
      · exact Or.inr (Or.inr (Or.inr (by omega)))
      · exact Or.inl hk
      · exact Or.inr (Or.inl hk)
  · intro m hm hi hc ht
    exact ⟨hi, hc, htended m hm hi hc ht⟩
  · rfl

end State

end BlorgFS.NodeTable
