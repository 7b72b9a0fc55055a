import BlorgFS.NodeTable.TreeSteps

/-! Whole runs of the node table: no node is freed while anything knows of it, none is freed
twice, and when all is quiet no idle node is left behind. -/

namespace BlorgFS.NodeTable

open Lib

variable {N : Type}

/-- The nodes detached from the reap list by the worker and not yet looked at. -/
def Job.batchLeft : Job N → List ℕ
  | .wait ns | .batch ns => ns
  | .free _ _ k | .reap _ k => k.rest
  | _ => []

theorem Job.tends_eq_one {job : Job N} {n : ℕ} (h : job.tends n ≠ 0) : job.tends n = 1 := by
  unfold Job.tends at h ⊢
  split at h <;> simp_all

theorem Job.cases_of_claimed {job : Job N} {n : ℕ} (h : n ∈ job.claimed) :
    n ∈ job.batchLeft ∨ (∃ w, job = .free n true w) ∨ ∃ k, job = .push n k := by
  cases job with
  | push m k =>
    rw [List.mem_singleton.mp h]
    exact Or.inr (Or.inr ⟨k, rfl⟩)
  | free m c w =>
    cases c with
    | false => exact Or.inl h
    | true =>
      rcases List.mem_cons.mp h with rfl | h
      · exact Or.inr (Or.inl ⟨w, rfl⟩)
      · exact Or.inl h
  | reap d w => exact Or.inl h
  | wait ns => exact Or.inl h
  | batch ns => exact Or.inl h
  | _ => cases h

theorem Job.claimed_of_cases {job : Job N} {n : ℕ}
    (h : n ∈ job.batchLeft ∨ (∃ w, job = .free n true w) ∨ ∃ k, job = .push n k) : n ∈ job.claimed := by
  rcases h with h | ⟨w, rfl⟩ | ⟨k, rfl⟩
  · cases job with
    | free m c w =>
      cases c with
      | false => exact h
      | true => exact List.mem_cons_of_mem _ h
    | reap d w => exact h
    | wait ns => exact h
    | batch ns => exact h
    | _ => cases h
  · exact List.mem_cons_self
  · exact List.mem_singleton_self n

namespace State

variable {s s' : State N} {job : Job N} {jobs rest new : List (Job N)} {ch : Choice} {n m : ℕ} {nd : Node N}
variable [DecidableEq N] {hash : List N → ℕ}

theorem step_inv (h : s.Inv (job :: rest)) (hs : s.step hash ch rest job = some (s', new)) : s'.Inv (new ++ rest) := by
  cases job with
  | lookup path => exact lookup_inv h hs
  | opening n how => exact opening_inv h hs
  | checking n how => exact checking_inv h hs
  | counted n how => exact counted_inv h hs
  | uncount n how => exact uncount_inv h hs
  | unpin n => exact unpin_inv h hs
  | dereference n => exact dereference_inv h hs
  | deferReapIfIdle n => exact deferReapIfIdle_inv h hs
  | readRef n k => exact readRef_inv h hs
  | readPin n k => exact readPin_inv h hs
  | claim n k => exact claim_inv h hs
  | push n k => exact push_inv h hs
  | kick who => exact kick_inv h hs
  | queue who => exact queue_inv h hs
  | cold path dir => exact cold_inv h hs
  | search cur rest' path dir => exact search_inv h hs
  | insert cur walked rest' dir last => exact insert_inv h hs
  | publish n => exact publish_inv h hs
  | leave => exact leave_inv h hs
  | free n c k => exact free_inv h hs
  | reap d k => exact reap_inv h hs
  | item => exact item_inv h hs
  | wait ns => exact wait_inv h hs
  | batch ns => exact batch_inv h hs
  | tail => exact tail_inv h hs

/-! ### What comes in -/

omit [DecidableEq N] in
/-- The invariant does not read the list of jobs the state carries. -/
theorem Inv.withJobs (h : s.Inv jobs) (l : List (Job N)) : ({ s with jobs := l } : State N).Inv jobs := by
  have hframe : Frame s { s with jobs := l } := ⟨fun _ => rfl, rfl, rfl, rfl⟩
  exact ⟨hframe.tree h.tree, h.refs, h.pins, h.claims, h.members, h.table, h.vcb,
    fun j hj m hm => ⟨(h.owned j hj m hm).known, (h.owned j hj m hm).leaf⟩, fun j hj => hframe.placed (h.placed j hj),
    h.runs, h.gate, h.tended, h.sound⟩

omit [DecidableEq N] in
theorem Inv.arrive {path : List N} (h : s.Inv jobs) : s.Inv (.lookup path :: jobs) := by
  have ht : ∀ f : Job N → ℕ, f (.lookup path) = 0 → tally f (.lookup path :: jobs) = tally f jobs := by
    intro f hf
    rw [tally_cons, hf, Nat.zero_add]
  constructor
  · exact h.tree
  · intro m
    rw [ht _ rfl]
    exact h.refs m
  · intro m
    rw [ht _ rfl]
    exact h.pins m
  · intro m
    rw [ht _ rfl]
    exact h.claims m
  · intro m
    rw [ht _ rfl]
    exact h.members m
  · exact h.table
  · rw [ht _ rfl]
    exact h.vcb
  · intro j hj m hm
    rcases List.mem_cons.mp hj with rfl | hj
    · cases hm
    · obtain ⟨hk, hl⟩ := h.owned j hj m hm
      exact ⟨by rw [ht _ rfl]; exact hk, hl⟩
  · intro j hj
    rcases List.mem_cons.mp hj with rfl | hj
    · trivial
    · exact h.placed j hj
  · rw [ht _ rfl]
    exact h.runs
  · rw [ht _ rfl]
    exact h.gate
  · intro m
    rw [ht _ rfl]
    exact h.tended m
  · exact h.sound

theorem next_inv {act : Act N} (h : s.Inv s.jobs) (hs : s.next hash act = some s') : s'.Inv s'.jobs := by
  cases act with
  | lookup path =>
    cases hs
    exact h.arrive.withJobs _
  | cold path dir =>
    cases hs
    have harrive : s.Inv (.lookup [] :: s.jobs) := h.arrive
    have hcold : s.Inv ([.cold path dir] ++ s.jobs) :=
      harrive.like ⟨fun _ => rfl, fun _ => rfl, rfl, rfl, rfl, fun _ => id, rfl, rfl, fun _ => Nat.le_refl _⟩ trivial
    exact hcold.withJobs _
  | close i =>
    obtain ⟨n, hn, he⟩ := Option.bind_eq_some_iff.mp hs
    cases he
    have hmem : n ∈ s.handles := List.mem_of_getElem? hn
    have hcount : ∀ m, s.handles.count m = (s.handles.eraseIdx i).count m + if n = m then 1 else 0 := by
      intro m
      have hlt : i < s.handles.length := (List.getElem?_eq_some_iff.mp hn).1
      have hget : s.handles[i] = n := (List.getElem?_eq_some_iff.mp hn).2
      have := (List.getElem_cons_eraseIdx_perm hlt).count_eq m
      rw [hget, List.count_cons] at this
      simpa using this.symm
    have harrive : s.Inv (.lookup [] :: s.jobs) := h.arrive
    have hclose : ({ s with handles := s.handles.eraseIdx i } : State N).Inv ([.dereference n] ++ s.jobs) := by
      apply harrive.exchange
      · exact ⟨fun _ => rfl, rfl, rfl, rfl⟩
      · intro m
        have := hcount m
        show s.ref m + 0 + (s.handles.count m : ℤ) = s.ref m + ((if n = m then 1 else 0) + 0 : ℕ) + _
        rw [this]
        split_ifs <;> push_cast <;> omega
      · intro m
        rfl
      · intro m
        rfl
      · intro m hm
        left
        have h1 := hcount m
        have h2 : [n].count m = if n = m then 1 else 0 := by simp [List.count_singleton]
        change (s.handles.eraseIdx i).count m + s.table.count m + s.reapList.count m + ([n].count m + 0) ≠ 0 at hm
        change s.handles.count m + s.table.count m + s.reapList.count m + 0 ≠ 0
        omega
      · exact h.table
      · exact Or.inl (Nat.le_refl _)
      · simp [Job.owns]
      · simp [Job.Placed]
      · rfl
      · exact harrive.gate_rest rfl
      · intro m _ hi hc _
        exact ⟨hi, hc, rfl⟩
      · rfl
    exact hclose.withJobs _
  | shutDown =>
    cases hs
    have hframe : Frame s { s with shuttingDown := true } := ⟨fun _ => rfl, rfl, rfl, rfl⟩
    exact ⟨hframe.tree h.tree, h.refs, h.pins, h.claims, h.members, h.table, h.vcb,
      fun j hj m hm => ⟨(h.owned j hj m hm).known, (h.owned j hj m hm).leaf⟩, fun j hj => hframe.placed (h.placed j hj),
      h.runs, fun _ => Or.inr (Or.inl rfl), h.tended, h.sound⟩
  | run i ch =>
    obtain ⟨job, hj, hs⟩ := Option.bind_eq_some_iff.mp hs
    obtain ⟨⟨s₁, new⟩, hstep, he⟩ := Option.bind_eq_some_iff.mp hs
    cases he
    obtain ⟨hlt, hget⟩ := List.getElem?_eq_some_iff.mp hj
    have hperm : s.jobs.Perm (job :: s.jobs.eraseIdx i) := by
      rw [← hget]
      exact (List.getElem_cons_eraseIdx_perm hlt).symm
    exact (step_inv (h.perm hperm) hstep).withJobs _

omit [DecidableEq N] in
theorem initial_inv : (initial : State N).Inv [] := by
  have hnode : ∀ m (nd : Node N), (initial : State N).node m = some nd → m = 0 ∧ nd = ⟨.root, [], 0, 0, 0, false, 0⟩ := by
    intro m nd hm
    simp only [initial] at hm
    split_ifs at hm with h0
    exact ⟨h0, (Option.some.inj hm).symm⟩
  have hmember : ∀ m, ¬ (initial : State N).Member m := by
    rintro m ⟨nd, hm, hr⟩
    exact hr (by rw [(hnode m nd hm).2])
  constructor
  · constructor
    · exact ⟨_, rfl, rfl⟩
    · intro m nd hm _
      exact (hnode m nd hm).1
    · intro m hm
      change 1 ≤ m at hm
      exact if_neg (by omega)
    · intro d m hm
      cases hm
    · intro m nd hm hr
      exact absurd ⟨nd, hm, hr⟩ (hmember m)
    · intro d hd
      exact absurd rfl hd
    · intro d
      exact List.nodup_nil
    · intro m
      symm
      apply if_neg
      rintro ⟨hlt, hm⟩
      change m < 1 at hlt
      simp [initial, show m = 0 by omega] at hm
  · intro m
    simp only [ref, initial]
    split_ifs <;> rfl
  · intro m
    simp only [pin, initial]
    split_ifs <;> rfl
  · intro m
    simp only [claim, initial]
    split_ifs <;> simp_all
  · intro m hm
    exact absurd rfl hm
  · exact List.nodup_nil
  · exact Nat.zero_le _
  · intro j hj
    cases hj
  · intro j hj
    cases hj
  · rfl
  · intro hne
    exact absurd rfl hne
  · intro m hm
    exact absurd hm (hmember m)
  · rfl

theorem reachable_inv (h : (system hash).Reachable s) : s.Inv s.jobs := by
  induction h with
  | init hi =>
    cases hi
    exact initial_inv
  | step _ hs ih =>
    obtain ⟨act, hact⟩ := hs
    exact next_inv ih hact

/-! ### What a step frees -/

/-- A node is gone after a step only if that step is `BlorgFreeFileContext` of it. -/
theorem step_frees (hs : s.step hash ch rest job = some (s', new)) (hn : s.node n = some nd) (hg : s'.node n = none) :
    ∃ c w, job = .free n c w := by
  have hkept : ∀ t : State N, t.node = s.node → t.node n ≠ none := by
    intro t ht
    rw [ht, hn]
    simp
  have hput : ∀ m nd', (s.put m nd').node n ≠ none := by
    intro m nd' hm
    by_cases hmn : n = m <;> simp [put, hmn, hn] at hm
  have hcreate : ∀ k p d, (s.create hash k p d).node n ≠ none := fun k p d => hput s.allocated _
  cases job with
  | free m c w =>
    simp only [step, withNode] at hs
    split at hs <;> cases hs
    · by_cases hmn : n = m
      · exact ⟨c, w, by rw [hmn]⟩
      · simp [State.free, hmn, hn] at hg
    · exact absurd hg (hkept _ rfl)
  | search cur rest' path dir =>
    cases rest' <;> simp only [step, withNode] at hs <;> (repeat' split at hs) <;> cases hs <;>
      exact absurd hg (hkept _ rfl)
  | insert cur walked rest' dir last =>
    cases rest' <;> simp only [step, withNode] at hs <;> (repeat' split at hs) <;> cases hs <;>
      first | exact absurd hg (hkept _ rfl) | exact absurd hg (hcreate _ _ _)
  | batch ns =>
    cases ns <;> simp only [step, withNode] at hs <;> (repeat' split at hs) <;> cases hs <;>
      first | exact absurd hg (hkept _ rfl) | exact absurd hg (hput _ _)
  | _ =>
    simp only [step, withNode] at hs
    (repeat' split at hs) <;> cases hs <;> first | exact absurd hg (hkept _ rfl) | exact absurd hg (hput _ _)

omit [DecidableEq N] in
/-- Of a node about to be freed, the counts are zero, and neither the table, the tree, the
reap list nor the worker's batch has it. -/
theorem Inv.freeable {c : Bool} {w : Walk} (h : s.Inv jobs) (hj : .free n c w ∈ jobs) (hn : s.node n = some nd) :
    nd.refCount = 0 ∧ nd.pinCount = 0 ∧ s.children n = [] ∧ n ∉ s.table ∧ n ∉ s.reapList ∧
      ∀ job ∈ jobs, n ∉ job.batchLeft := by
  obtain ⟨rest, hperm⟩ : ∃ rest, jobs.Perm (.free n c w :: rest) := by
    obtain ⟨l₁, l₂, rfl⟩ := List.append_of_mem hj
    exact ⟨l₁ ++ l₂, List.perm_middle⟩
  have h' := h.perm hperm
  obtain ⟨hstock, hwalk, hrest, hleaf⟩ := h'.doomed
  rw [stock] at hstock
  have hrefs := h'.refs n
  have hpins := h'.pins n
  rw [tally_cons, tally_le_mentions Job.refs_le hrest, ref_of hn] at hrefs
  rw [tally_cons, tally_le_mentions Job.pins_le hrest, pin_of hn] at hpins
  refine ⟨?_, ?_, hleaf, List.count_eq_zero.mp (by omega), List.count_eq_zero.mp (by omega), ?_⟩
  · rw [hrefs, show Job.refs n (.free n c w : Job N) = 0 from rfl]
    omega
  · rw [hpins, show Job.pins n (.free n c w : Job N) = 0 from rfl]
    rfl
  · intro job hjob hmem
    rcases List.mem_cons.mp (hperm.mem_iff.mp hjob) with rfl | hjob
    · exact List.count_eq_zero.mp hwalk hmem
    · have h1 := le_tally (f := Job.mentions n) hjob
      have h2 : n ∈ job.nodes := by
        cases job with
        | wait ns => exact hmem
        | batch ns => exact hmem
        | reap d k => exact hmem
        | free m c k => exact List.mem_cons_of_mem _ hmem
        | _ => cases hmem
      have h3 : 0 < job.mentions n := List.count_pos_iff.mpr h2
      omega

/-- In every interleaving of lookups, warm and cold opens that succeed or fail, closes,
deferrals, the walk over empty ancestors and the worker: nothing follows a pointer to a
freed node; a step frees a node only when its counts are zero, it has no child, and it is
neither in the table, on the reap list nor in the worker's batch; no node is freed twice
and a freed one stays so; and `OnReapList` is set just for the nodes on the reap list, in
the batch, retired and about to be freed, or, within the section that claims it, about to
be pushed, each of them one of these and once. -/
theorem node_lifetime (h : (system hash).Reachable s) :
    s.misused = false ∧
    (∀ s' n nd, (system hash).step s s' → s.node n = some nd → s'.node n = none →
      nd.refCount = 0 ∧ nd.pinCount = 0 ∧ s.children n = [] ∧ n ∉ s.table ∧ n ∉ s.reapList ∧
        ∀ job ∈ s.jobs, n ∉ job.batchLeft) ∧
    (∀ n, s.frees n ≤ 1 ∧ (s.frees n = 1 → s.node n = none)) ∧
    (∀ n nd, s.node n = some nd → (nd.onReapList = true ↔
      n ∈ s.reapList ∨ ∃ job ∈ s.jobs, n ∈ job.batchLeft ∨ (∃ w, job = .free n true w) ∨ ∃ k, job = .push n k)) ∧
    ∀ n, s.reapList.count n + tally (Job.claims n) s.jobs ≤ 1 := by
  have hi := reachable_inv h
  refine ⟨hi.sound, ?_, ?_, ?_, ?_⟩
  · rintro s' n nd ⟨act, hact⟩ hn hg
    cases act with
    | lookup path | cold path dir | shutDown =>
      cases hact
      simp [hn] at hg
    | close i =>
      obtain ⟨m, -, he⟩ := Option.bind_eq_some_iff.mp hact
      cases he
      simp [hn] at hg
    | run i ch =>
      obtain ⟨job, hj, hact⟩ := Option.bind_eq_some_iff.mp hact
      obtain ⟨⟨s₁, new⟩, hstep, he⟩ := Option.bind_eq_some_iff.mp hact
      cases he
      obtain ⟨c, w, rfl⟩ := step_frees hstep hn hg
      exact hi.freeable (List.mem_of_getElem? hj) hn
  · intro n
    rw [hi.tree.frees n]
    split_ifs with hf
    · exact ⟨Nat.le_refl _, fun _ => hf.2⟩
    · exact ⟨Nat.zero_le _, fun h0 => nomatch h0⟩
  · intro n nd hn
    have hc := hi.claims n
    rw [claim_of hn] at hc
    constructor
    · intro hl
      rw [if_pos hl] at hc
      by_cases hz : s.reapList.count n = 0
      · obtain ⟨job, hj, hpos⟩ : ∃ job ∈ s.jobs, job.claims n ≠ 0 := by
          by_contra hnone
          rw [tally_eq_zero fun job hj => by_contra fun hne => hnone ⟨job, hj, hne⟩] at hc
          omega
        refine Or.inr ⟨job, hj, ?_⟩
        exact Job.cases_of_claimed (List.count_pos_iff.mp (Nat.pos_of_ne_zero hpos))
      · exact Or.inl (List.count_pos_iff.mp (Nat.pos_of_ne_zero hz))
    · intro hl
      by_contra hnot
      rw [if_neg hnot] at hc
      rcases hl with hl | ⟨job, hj, hl⟩
      · have := List.count_pos_iff.mpr hl
        omega
      · have h1 : 0 < job.claims n := List.count_pos_iff.mpr (Job.claimed_of_cases hl)
        have h2 := le_tally (f := Job.claims n) hj
        omega
  · intro n
    rw [← hi.claims n, claim]
    split_ifs <;> omega

/-- A file and then its directory are opened and the directory is closed: the worker looks
at it and leaves it, for it has the file. -/
def directoryClosed : List (Act ℕ) :=
  let run : Act ℕ := .run 0 ⟨true, true, true, true⟩
  .cold [1, 2] false :: List.replicate 9 run ++ .cold [1] true :: List.replicate 8 run ++
    .close 0 :: List.replicate 12 run

/-- Then the file is closed, and retired. -/
def fileRetired : List (Act ℕ) :=
  directoryClosed ++ .close 0 :: List.replicate 10 (.run 0 ⟨true, true, true, true⟩)

theorem reachable_run {acts : List (Act N)} (hs : run (State.next hash) initial acts = some s) :
    (system hash).Reachable s := by
  have hinit : (system hash).Reachable initial := System.Reachable.init rfl
  have hnext : ∀ s act s', State.next hash s act = some s' → (system hash).step s s' := fun _ act _ hn => ⟨act, hn⟩
  exact hinit.run hnext hs

theorem node_lifetime_fileRetired : ∃ s s' nd, run (State.next fun _ => 0) initial fileRetired = some s ∧
    s.node 2 = some nd ∧ s.next (fun _ => 0) (.run 0 ⟨true, true, true, true⟩) = some s' ∧ s'.node 2 = none ∧
    nd.refCount = 0 ∧ nd.pinCount = 0 ∧ s.children 2 = [] ∧ 2 ∉ s.table ∧ 2 ∉ s.reapList ∧
    ∀ job ∈ s.jobs, 2 ∉ job.batchLeft := by
  have hsome : (run (State.next fun _ => 0) (initial (N := ℕ)) fileRetired).any (fun s => (s.node 2).isSome &&
      (s.next (fun _ => 0) (.run 0 ⟨true, true, true, true⟩)).any fun s' => (s'.node 2).isNone) = true := by
    decide +kernel
  obtain ⟨s, hs, hsome⟩ := (Option.any_eq_true _ _).mp hsome
  rw [Bool.and_eq_true] at hsome
  obtain ⟨nd, hn⟩ := Option.isSome_iff_exists.mp hsome.1
  obtain ⟨s', hs', hg⟩ := (Option.any_eq_true _ _).mp hsome.2
  rw [Option.isNone_iff_eq_none] at hg
  exact ⟨s, s', nd, hs, hn, hs', hg, (node_lifetime (reachable_run hs)).2.1 s' 2 nd ⟨_, hs'⟩ hn hg⟩

/-! ### When all is quiet -/

/-- In every interleaving, whatever branch the opens fail on: when no operation is in
progress and `ShuttingDown` is clear, the worker is not queued, the reap list is empty, and
every node other than the root with no reference and no pin is a directory with a child.
For at any time a node nothing holds and nobody has claimed is being looked at by an
operation that is still to claim or free it, and a reap list that is not empty has the
worker queued, `ShuttingDown` set, or an operation that is still to kick. -/
theorem no_stranded_node (h : (system hash).Reachable s) :
    (s.jobs = [] → s.shuttingDown = false → s.queued = false ∧ s.reapList = [] ∧
      ∀ n nd, s.node n = some nd → nd.kind ≠ .root → nd.refCount = 0 → nd.pinCount = 0 →
        nd.kind = .dcb ∧ s.children n ≠ []) ∧
    (∀ n nd, s.node n = some nd → nd.kind ≠ .root → nd.refCount = 0 → nd.pinCount = 0 → s.children n = [] →
      nd.onReapList = true ∨ ∃ job ∈ s.jobs, job.tends n = 1) ∧
    (s.reapList ≠ [] → s.queued = true ∨ s.shuttingDown = true ∨ ∃ who, .kick who ∈ s.jobs) := by
  have hi := reachable_inv h
  have htended : ∀ n nd, s.node n = some nd → nd.kind ≠ .root → nd.refCount = 0 → nd.pinCount = 0 →
      s.children n = [] → nd.onReapList = true ∨ ∃ job ∈ s.jobs, job.tends n = 1 := by
    intro n nd hn hk hr hp hleaf
    by_cases hl : nd.onReapList = true
    · exact Or.inl hl
    · right
      have ht := hi.tended n ⟨nd, hn, hk⟩ ⟨by rw [ref_of hn, hr], by rw [pin_of hn, hp], hleaf⟩
        (by rw [claim_of hn, if_neg hl])
      by_contra hnone
      refine ht (tally_eq_zero fun job hj => ?_)
      by_contra hne
      exact hnone ⟨job, hj, Job.tends_eq_one hne⟩
  have hgate : s.reapList ≠ [] → s.queued = true ∨ s.shuttingDown = true ∨ ∃ who, .kick who ∈ s.jobs := by
    intro hne
    rcases hi.gate hne with hg | hg | hg
    · exact Or.inl hg
    · exact Or.inr (Or.inl hg)
    · refine Or.inr (Or.inr ?_)
      by_contra hnone
      refine hg (tally_eq_zero fun job hj => ?_)
      cases job with
      | kick who => exact absurd ⟨who, hj⟩ hnone
      | _ => rfl
  refine ⟨fun hquiet hdown => ?_, htended, hgate⟩
  have hqueued : s.queued = false := by
    have hr := hi.runs
    rw [hquiet, tally_nil] at hr
    by_contra hq
    rw [if_pos (by simpa using hq)] at hr
    cases hr
  have hlist : s.reapList = [] := by
    by_contra hne
    rcases hgate hne with hg | hg | ⟨who, hg⟩
    · rw [hqueued] at hg
      cases hg
    · rw [hdown] at hg
      cases hg
    · rw [hquiet] at hg
      cases hg
  refine ⟨hqueued, hlist, fun n nd hn hk hr hp => ?_⟩
  have hchild : s.children n ≠ [] := by
    intro hleaf
    rcases htended n nd hn hk hr hp hleaf with hl | ⟨job, hj, -⟩
    · have hc := hi.claims n
      rw [claim_of hn, if_pos hl, hlist, hquiet] at hc
      cases hc
    · rw [hquiet] at hj
      cases hj
  obtain ⟨nd', hn', hf⟩ := hi.tree.directory n hchild
  rw [hn] at hn'
  cases hn'
  refine ⟨?_, hchild⟩
  cases hkind : nd.kind with
  | fcb => exact absurd hkind hf
  | dcb => rfl
  | root => exact absurd hkind hk

theorem no_stranded_node_directoryClosed : ∃ s nd, run (State.next fun _ => 0) initial directoryClosed = some s ∧
    s.node 1 = some nd ∧ nd.refCount = 0 ∧ nd.pinCount = 0 ∧ s.queued = false ∧ s.reapList = [] ∧
    nd.kind = .dcb ∧ s.children 1 ≠ [] := by
  have hsome : (run (State.next fun _ => 0) (initial (N := ℕ)) directoryClosed).any (fun s => s.jobs.isEmpty &&
      !s.shuttingDown && (s.node 1).any fun nd => nd.kind ≠ .root ∧ nd.refCount = 0 ∧ nd.pinCount = 0) = true := by
    decide +kernel
  obtain ⟨s, hs, hsome⟩ := (Option.any_eq_true _ _).mp hsome
  rw [Bool.and_eq_true, Bool.and_eq_true] at hsome
  obtain ⟨⟨hjobs, hdown⟩, hnode⟩ := hsome
  obtain ⟨nd, hn, hnd⟩ := (Option.any_eq_true _ _).mp hnode
  obtain ⟨hk, hr, hp⟩ := of_decide_eq_true hnd
  obtain ⟨hq, hl, hstranded⟩ :=
    (no_stranded_node (reachable_run hs)).1 (List.isEmpty_iff.mp hjobs) (by simpa using hdown)
  exact ⟨s, nd, hs, hn, hr, hp, hq, hl, hstranded 1 nd hn hk hr hp⟩

end State

end BlorgFS.NodeTable
