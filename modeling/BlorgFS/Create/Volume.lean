import BlorgFS.Create.Cold

/-! A volume over whole runs: creates on the cold path, opens of pinned nodes, closes, and the
reap worker. Whoever lets go of a node last claims it for the worker, so that a directory nobody
uses is claimed as soon as there is nothing in it. A create that fails therefore leaves the tree
as it was. -/

namespace BlorgFS.Create.Cold

open Lib PathCache Tree

variable (N : Names)

/-! ### Runs -/

inductive Act where
  | create (c : Call)
  /-- `BlorgNodeTableLookupPin` has found the node. -/
  | pin (n : ℕ)
  /-- An open on the warm path. -/
  | openPinned (n : ℕ) (r : Request) (k : Answers)
  /-- `BlorgNodeUnpin`. -/
  | unpin (n : ℕ)
  | cleanup (n : ℕ) (shareAccess : ShareAccess) (uncleanCount : ℕ)
  /-- `BlorgNodeDereference`. -/
  | close (n : ℕ)
  /-- `NodeReapWorker` comes to a node of its batch. -/
  | reap (n : ℕ)
  /-- Handles of the root. -/
  | root (like : Node)

/-- A node of the batch of `NodeReapWorker`. -/
def reapOne (s : Tree.State) (n : ℕ) (nd : Node) : Tree.State :=
  if nd.refCount = 0 ∧ nd.pinCount = 0 ∧ (nd.kind ≠ .dcb ∨ s.children n = []) then
    (((s.unpublish N n).getD s).freeFileContext N n).reapEmptyAncestorDcbs N nd.parentDcb
  else putNode s n { nd with onReapList := false }

/-- Follow a pointer to a node below the root. -/
def atNode (s : Tree.State) (n : ℕ) (f : Node → Option Tree.State) : Option Tree.State := if n ≠ s.root then (s.node n).bind f else none

def next (s : Tree.State) : Act → Option Tree.State
  | .create c => some (volumeCreate N s c).tree
  | .pin n => atNode s n fun nd => if s.inTable N n then some (putNode s n { nd with pinCount := nd.pinCount + 1 }) else none
  | .openPinned n r k => atNode s n fun nd => if 0 < nd.pinCount then some (putNode s n (openExisting nd r k).1) else none
  | .unpin n => atNode s n fun nd => if 0 < nd.pinCount then some (putNode s n (deferReapIfIdle { nd with pinCount := nd.pinCount - 1 })) else none
  | .cleanup n shareAccess uncleanCount => atNode s n fun nd => some (putNode s n { nd with shareAccess, uncleanCount })
  | .close n => atNode s n fun nd => if 0 < nd.refCount then some (putNode s n (deferReapIfIdle { nd with refCount := nd.refCount - 1 })) else none
  | .reap n => atNode s n fun nd => if nd.onReapList then some (reapOne N s n nd) else none
  | .root like => s.touch s.root like

def volume : System Tree.State where
  init s := ∃ root, s = Tree.initial root
  step s s' := ∃ act, next N s act = some s'

variable {N} {s s' : Tree.State} {n m d : ℕ} {nd nd' dd : Node} {c : Call} {act : Act}

/-! ### Nothing is idle for long -/

/-- A node below the root without children has a handle or a pin, or the worker has it. -/
def Attended (s : Tree.State) (n : ℕ) : Prop := ∀ nd, s.node n = some nd → n ≠ s.root → s.children n = [] → ¬ nd.Idle

/-- The tree hangs together, and every node is attended. -/
structure Sound (N : Names) (s : Tree.State) : Prop where
  linked : s.Linked N
  attended : ∀ n, Attended s n

theorem deferReapIfIdle_not_idle (nd : Node) : ¬ (deferReapIfIdle nd).Idle := by
  unfold deferReapIfIdle
  split_ifs with h
  · exact fun hi => absurd hi.2.2 (by simp)
  · exact fun hi => h ⟨hi.1, hi.2.1⟩

theorem deferReapIfIdle_shape (nd : Node) : (deferReapIfIdle nd).shape = nd.shape := by
  unfold deferReapIfIdle
  split_ifs <;> rfl

/-- A node's counts change and it is still attended. -/
theorem Sound.putNode (h : Sound N s) (hn : s.node n = some nd) (hshape : nd'.shape = nd.shape) (hi : s.children n = [] → ¬ nd.Idle → ¬ nd'.Idle) :
    Sound N (putNode s n nd') := by
  refine ⟨(h.linked.putNode hn hshape).1, fun m md hm hroot hempty => ?_⟩
  have hget : (Cold.putNode s n nd').node m = if m = n then some nd' else s.node m := Function.update_apply ..
  rw [hget] at hm
  split_ifs at hm with he
  · obtain rfl := Option.some.inj hm
    exact hi (he ▸ hempty) (h.attended n nd hn (he ▸ hroot) (he ▸ hempty))
  · exact h.attended m md hm hroot hempty

theorem Sound.publish (h : Sound N s) (hn : s.node n = some nd) (hroot : n ≠ s.root) : Sound N (publish N s n) := by
  obtain ⟨s', hs⟩ : ∃ s', s.publish N n = some s' := by
    rw [Tree.State.publish, hn]
    exact ⟨_, rfl⟩
  have hfields : s'.node = s.node ∧ s'.children = s.children ∧ s'.root = s.root := by
    obtain ⟨nd', _, rfl⟩ := Option.map_eq_some_iff.mp hs
    split_ifs <;> exact ⟨rfl, rfl, rfl⟩
  rw [Cold.publish, hs, Option.getD_some]
  refine ⟨(h.linked.publish hroot hs).1, fun m md hm hne hempty => ?_⟩
  rw [hfields.1] at hm
  rw [hfields.2.1] at hempty
  rw [hfields.2.2] at hne
  exact h.attended m md hm hne hempty

/-- The walk over empty ancestors stops at once: what is empty is attended. -/
theorem Sound.reap_eq (h : Sound N s) (hd : s.node d = some dd) : s.reapEmptyAncestorDcbs N d = s := by
  rw [h.linked.reap_eq hd]
  refine if_neg fun hc => ?_
  exact h.attended d dd hd (h.linked.ne_root_of_kind hd (by rw [hc.1]; nofun)) hc.2.1 hc.2.2

/-- From a directory that alone may not be attended it leaves every node attended. -/
theorem reap_attended (h : s.Linked N) (hd : s.node d = some dd) (hk : dd.kind ≠ .fcb) (hatt : ∀ m, m ≠ d → Attended s m) :
    Sound N (s.reapEmptyAncestorDcbs N d) := by
  obtain ⟨k, hdepth, -⟩ := h.deep d dd hd
  induction k generalizing s d dd with
  | zero =>
    have hroot : d = s.root := by
      cases hdepth
      rfl
    rw [h.reap_eq hd, if_neg fun hc => h.ne_root_of_kind hd (by rw [hc.1]; nofun) hroot]
    refine ⟨h, fun m md hm hne hempty => ?_⟩
    exact hatt m (fun he => hne (he.trans hroot)) md hm hne hempty
  | succ k ih =>
    rw [h.reap_eq hd]
    split_ifs with hc
    · have hroot := h.ne_root_of_kind hd (by rw [hc.1]; nofun)
      obtain ⟨pd, k', hp, hpk, hpne, hdepth', hk'⟩ := h.parent hd hroot hdepth
      obtain rfl : k = k' := by omega
      refine ih (h.without hd hroot hc.2.1) (by rw [Tree.State.without_node_of_ne hpne]; exact hp) hpk (fun m hm md hmd hne hempty => ?_)
        (h.depth_without hc.2.1 hdepth' hpne)
      obtain ⟨hmd', hback⟩ := Tree.State.without_back hmd
      have hchildren : (s.without N d dd).children m = s.children m := Function.update_of_ne hm ..
      exact hatt m hmd' md hback hne (hchildren ▸ hempty)
    · refine ⟨h, fun m md hm hne hempty => ?_⟩
      by_cases he : m = d
      · subst he
        rw [hd] at hm
        obtain rfl := Option.some.inj hm
        refine fun hi => hc ⟨?_, hempty, hi⟩
        cases hkind : dd.kind with
        | fcb => exact absurd hkind hk
        | dcb => rfl
        | root => exact absurd hkind (h.kinds m dd hd hne)
      · exact hatt m he md hm hne hempty

/-- A file has no children. -/
theorem fcb_childless (h : s.Linked N) (hn : s.node n = some nd) (hk : nd.kind = .fcb) : s.children n = [] := by
  rw [List.eq_nil_iff_forall_not_mem]
  intro m hm
  obtain ⟨md, hmd, hp, hroot⟩ := (h.children n m).mp hm
  obtain ⟨pd, hpd, hpk⟩ := h.placed m md hmd hroot
  rw [hp, hn] at hpd
  exact hpk (Option.some.inj hpd ▸ hk)

theorem Sound.reapOne (h : Sound N s) (hn : s.node n = some nd) (hroot : n ≠ s.root) : Sound N (reapOne N s n nd) := by
  unfold Cold.reapOne
  split_ifs with hc
  · have hempty : s.children n = [] := by
      rcases hc.2.2 with hk | hempty
      · refine fcb_childless h.linked hn ?_
        cases hkind : nd.kind with
        | fcb => rfl
        | dcb => exact absurd hkind hk
        | root => exact absurd hkind (h.linked.kinds n nd hn hroot)
      · exact hempty
    have hwithout : ((s.unpublish N n).getD s).freeFileContext N n = s.without N n nd := by
      rw [Tree.State.unpublish, hn, Option.map_some, Option.getD_some]
      simp only [Tree.State.freeFileContext, hn]
      rfl
    obtain ⟨k, hdepth, -⟩ := h.linked.deep n nd hn
    obtain ⟨pd, _, hp, hpk, hpne, _, _⟩ := h.linked.parent hn hroot hdepth
    rw [hwithout]
    refine reap_attended (h.linked.without hn hroot hempty) (by rw [Tree.State.without_node_of_ne hpne]; exact hp) hpk fun m hm md hmd hne hmc => ?_
    have hchildren : (s.without N n nd).children m = s.children m := Function.update_of_ne hm ..
    exact h.attended m md (Tree.State.without_back hmd).2 hne (hchildren ▸ hmc)
  · -- in use, pinned, or not empty: whoever lets go of it claims it again
    exact h.putNode hn rfl fun hempty _ hi => hc ⟨hi.1, hi.2.1, .inr hempty⟩

/-! ### A create -/

/-- Where a node has been inserted and opened, what is new is open or has something in it. -/
theorem Sound.made {rest : Path} (h : Sound N s) (hmade : Tree.State.Made N s s' c.path c.info d rest n nd) (hroot : n ≠ s'.root) (hshape : nd'.shape = nd.shape)
    (hopen : ¬ nd'.Idle) : Sound N (Cold.publish N (Cold.putNode s' n nd') n) := by
  have hl := hmade.linked
  have hput : Sound N (Cold.putNode s' n nd') := by
    refine ⟨(hl.putNode hmade.node hshape).1, fun m md hm hne hempty => ?_⟩
    have hget : (Cold.putNode s' n nd').node m = if m = n then some nd' else s'.node m := Function.update_apply ..
    rw [hget] at hm
    split_ifs at hm with he
    · exact Option.some.inj hm ▸ hopen
    · cases hold : s.node m with
      | none => exact absurd hempty (hmade.parents m md hm hold he)
      | some md' =>
        have hsame := hmade.extends_.2 m md' hold
        rw [hm] at hsame
        obtain rfl := Option.some.inj hsame
        have hne' : m ≠ s.root := fun hr => hne (hr.trans hmade.extends_.1.symm)
        refine h.attended m md hold hne' (List.eq_nil_iff_forall_not_mem.mpr fun x hx => ?_)
        obtain ⟨xd, hxd, hxp, hxr⟩ := (h.linked.children m x).mp hx
        have hmem := (hl.children m x).mpr ⟨xd, hmade.extends_.2 x xd hxd, hxp, hmade.extends_.1 ▸ hxr⟩
        rw [show s'.children m = [] from hempty] at hmem
        cases hmem
  exact hput.publish putNode_self hroot

theorem openExisting_not_idle {r : Request} {k : Answers} (hg : Granted nd r k) : ¬ (openExisting nd r k).1.Idle := by
  intro hi
  have href := (openExisting_node nd r k).2.2.2
  rw [if_pos (granted_iff.mpr hg), hi.1] at href
  omega

theorem Sound.openResident (h : Sound N s) (hn : s.node n = some nd) (hroot : n ≠ s.root) (hshape : nd'.shape = nd.shape) (refreshed : Option EntryInfo) :
    Sound N (openResident N s n nd' c refreshed).tree := by
  have hshape' := (openExisting_node nd' c.request c.answers).1.trans hshape
  obtain ⟨_, ⟨hg, _, ht⟩ | ⟨_, st, _, ht⟩⟩ := openResident_cases (N := N) (s := s) (n := n) (c := c) nd' refreshed
  · rw [ht]
    exact (h.putNode hn hshape' fun _ _ => openExisting_not_idle hg).publish putNode_self hroot
  · rw [ht]
    exact h.putNode hn ((deferReapIfIdle_shape _).trans hshape') fun _ _ => deferReapIfIdle_not_idle _

theorem Sound.insertAndOpen (h : Sound N s) (hs : s.searchByPath N c.path = none) : Sound N (insertAndOpen N s c).tree ∧
    ((∀ n, (insertAndOpen N s c).outcome ≠ .opened n) → (insertAndOpen N s c).tree = s) := by
  obtain ⟨_, ⟨n, nd, s', ho, hk, hnode, htree, hg, d, rest, hmade⟩ | ⟨st, d, dd, ho, _, hd, htree⟩⟩ := insertAndOpen_cases h.linked hs
  · have hroot : n ≠ s'.root := hmade.linked.ne_root_of_kind hnode (by rw [hk, kindFor]; split_ifs <;> decide)
    refine ⟨?_, fun hno => absurd ho (hno n)⟩
    rw [htree]
    exact h.made hmade hroot (openExisting_node ..).1 (openExisting_not_idle hg)
  · have he : (Cold.insertAndOpen N s c).tree = s := htree.trans (h.reap_eq hd)
    refine ⟨?_, fun _ => he⟩
    rw [he]
    exact h

theorem Sound.volumeCreate (h : Sound N s) (c : Call) : Sound N (volumeCreate N s c).tree := by
  unfold Cold.volumeCreate
  split
  · exact h
  split
  · exact h
  cases hs : s.searchByPath N c.path with
  | none => exact (h.insertAndOpen hs).1
  | some n =>
    have hroot : Sound N (Cold.insertAndOpen N s c).tree := by
      rw [insertAndOpen_root h.linked (by rw [hs]; nofun)]
      exact h
    simp only
    cases hn : s.node n with
    | none => exact hroot
    | some nd =>
      simp only
      cases hk : nd.kind with
      | root => exact hroot
      | dcb =>
        simp only
        split_ifs
        · exact h
        · exact h.openResident hn (h.linked.ne_root_of_kind hn (by rw [hk]; nofun)) rfl none
      | fcb =>
        simp only
        split_ifs
        · exact h
        · have hshape : (fcbRefresh nd c).shape = nd.shape := rfl
          exact h.openResident hn (h.linked.ne_root_of_kind hn (by rw [hk]; nofun)) hshape (some c.info)

/-! ### Every run -/

theorem atNode_eq_some {f : Node → Option Tree.State} (h : atNode s n f = some s') : n ≠ s.root ∧ ∃ nd, s.node n = some nd ∧ f nd = some s' := by
  unfold atNode at h
  split_ifs at h with hroot
  exact ⟨hroot, Option.bind_eq_some_iff.mp h⟩

theorem Sound.next (h : Sound N s) (hs : next N s act = some s') : Sound N s' := by
  cases act with
  | create c =>
    obtain rfl := Option.some.inj hs
    exact h.volumeCreate c
  | pin n =>
    obtain ⟨_, nd, hn, hf⟩ := atNode_eq_some hs
    split_ifs at hf
    obtain rfl := Option.some.inj hf
    exact h.putNode hn rfl fun _ _ hi => absurd hi.2.1 (Nat.succ_ne_zero _)
  | openPinned n r k =>
    obtain ⟨_, nd, hn, hf⟩ := atNode_eq_some hs
    split_ifs at hf with hpin
    obtain rfl := Option.some.inj hf
    obtain ⟨hshape, hp, _⟩ := openExisting_node nd r k
    refine h.putNode hn hshape fun _ _ hi => ?_
    have hzero := hi.2.1
    omega
  | unpin n =>
    obtain ⟨_, nd, hn, hf⟩ := atNode_eq_some hs
    split_ifs at hf
    obtain rfl := Option.some.inj hf
    exact h.putNode hn (deferReapIfIdle_shape _) fun _ _ => deferReapIfIdle_not_idle _
  | cleanup n shareAccess uncleanCount =>
    obtain ⟨_, nd, hn, hf⟩ := atNode_eq_some hs
    obtain rfl := Option.some.inj hf
    exact h.putNode hn rfl fun _ hi => hi
  | close n =>
    obtain ⟨_, nd, hn, hf⟩ := atNode_eq_some hs
    split_ifs at hf
    obtain rfl := Option.some.inj hf
    exact h.putNode hn (deferReapIfIdle_shape _) fun _ _ => deferReapIfIdle_not_idle _
  | reap n =>
    obtain ⟨hroot, nd, hn, hf⟩ := atNode_eq_some hs
    split_ifs at hf
    obtain rfl := Option.some.inj hf
    exact h.reapOne hn hroot
  | root like =>
    refine ⟨(h.linked.touch hs).1, fun m md hm hne hempty => ?_⟩
    obtain ⟨rd, hrd, rfl⟩ := Option.map_eq_some_iff.mp hs
    have hother : s.node m = some md := by
      rw [← hm]
      exact (Function.update_of_ne hne ..).symm
    exact h.attended m md hother hne hempty

theorem reachable_sound (h : (volume N).Reachable s) : Sound N s := by
  induction h with
  | init h0 =>
    obtain ⟨root, rfl⟩ := h0
    exact ⟨(Tree.initial_inv root).toLinked, fun n nd hn hne _ => absurd (Tree.initial_node hn).1 hne⟩
  | step _ hs ih =>
    obtain ⟨act, hact⟩ := hs
    exact ih.next hact

/-! ### A create that fails -/

/-- The tree, its index and the node table are as they were, but that directories on the path
may have been retired that had nothing in them and that nobody used. Nothing that was made is
left. -/
def Undone (N : Names) (s : Tree.State) (path : Path) (s' : Tree.State) : Prop :=
  (∀ n, s.node n = none → s'.node n = none) ∧
    ∃ retired, Pruned (Tree.State.OnPath N s path) s s' retired ∧
      ∀ d ∈ retired, ∃ nd, s.node d = some nd ∧ s.children d = [] ∧ nd.refCount = 0 ∧ nd.pinCount = 0

theorem undone_self (path : Path) : Undone N s path s := ⟨fun _ h => h, [], Pruned.refl _ s, nofun⟩

/-- A create undoes what it has done when the insert fails, at any component, and when the open
of the node it has made does. -/
theorem failed_create_undone (h : (volume N).Reachable s) (c : Call) :
    (∀ st, (s.insertByPath N c.pool c.path c.info).2 = .error st → Undone N s c.path (s.insertByPath N c.pool c.path c.info).1) ∧
    (s.searchByPath N c.path = none → (∀ n, (volumeCreate N s c).outcome ≠ .opened n) → Undone N s c.path (volumeCreate N s c).tree) := by
  have hsound := reachable_sound h
  constructor
  · intro st he
    have hi := hsound.linked.inserted c.pool c.path c.info
    generalize s.insertByPath N c.pool c.path c.info = result at hi he
    obtain ⟨s', answer⟩ := result
    obtain rfl : answer = .error st := he
    obtain ⟨_, d, dd, _, hd, hs'⟩ := hi
    have hsame : s' = s := hs'.trans (hsound.reap_eq hd)
    exact hsame ▸ undone_self c.path
  · intro hs hno
    have hsame : (volumeCreate N s c).tree = s := by
      rw [volumeCreate] at hno ⊢
      by_cases h1 : c.info.isDirectory ∧ c.options.nonDirectoryFile
      · rw [if_pos h1]
      rw [if_neg h1] at hno ⊢
      by_cases h2 : ¬ c.info.isDirectory ∧ c.options.directoryFile
      · rw [if_pos h2]
      rw [if_neg h2, hs] at hno ⊢
      exact (hsound.insertAndOpen hs).2 hno
    rw [hsame]
    exact undone_self c.path

/-- A file open below `\A`. -/
def openBelowA : Call where
  path := [separator, 0x41, separator, 0x42]
  options := ⟨false, false⟩
  request := ⟨fileReadData, 7, false⟩
  info := ⟨false, 5, 1⟩
  answers := ⟨statusSuccess, statusSuccess, statusSuccess⟩
  pool path := .ok path.length
  flushed := true
  purged := true

/-- A create of `\A\C\D` for which the pool has a node for `\A\C` and no other. -/
def failBelowA : Call :=
  { openBelowA with
    path := [separator, 0x41, separator, 0x43, separator, 0x44]
    pool := fun path => if path.length = 4 then .ok 7 else .error statusInsufficientResources }

theorem failed_create_undone_belowA : ∃ s, (volume asciiNames).Reachable s ∧ s.searchByPath asciiNames failBelowA.path = none ∧
    (volumeCreate asciiNames s failBelowA).outcome = .failed statusInsufficientResources ∧
    Undone asciiNames s failBelowA.path (volumeCreate asciiNames s failBelowA).tree := by
  have hany : (run (next asciiNames) (Tree.initial 0) [.create openBelowA]).any (fun s => s.searchByPath asciiNames failBelowA.path = none ∧
      (volumeCreate asciiNames s failBelowA).outcome = .failed statusInsufficientResources) = true := by decide +kernel
  obtain ⟨s, hs, hboth⟩ := (Option.any_eq_true _ _).mp hany
  obtain ⟨hnone, hfailed⟩ := of_decide_eq_true hboth
  have hnext : ∀ s act s', next asciiNames s act = some s' → (volume asciiNames).step s s' := fun _ act _ h => ⟨act, h⟩
  have h0 : (volume asciiNames).Reachable (Tree.initial 0) := .init ⟨0, rfl⟩
  have hr := h0.run hnext hs
  exact ⟨s, hr, hnone, hfailed, (failed_create_undone hr failBelowA).2 hnone (by rw [hfailed]; nofun)⟩

end BlorgFS.Create.Cold
