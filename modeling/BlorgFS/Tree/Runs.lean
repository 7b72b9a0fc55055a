import BlorgFS.Tree.Insert

/-! The tree over whole runs: inserts, frees and walks over empty ancestors in any order, with
opens, closes and the reap worker at the nodes in between. -/

namespace BlorgFS.Tree

open Lib PathCache

variable {N : Names} {s s' : State} {n d : ℕ} {nd : Node} {path : Path} {pool : Pool} {info : EntryInfo} {act : Act}

namespace State

/-- An insert leaves a tree, and one that fails has taken out idle directories of the path. -/
theorem Linked.insertByPath (h : s.Linked N) : (s.insertByPath N pool path info).1.Linked N := by
  have hi := h.inserted pool path info
  generalize s.insertByPath N pool path info = result at hi
  obtain ⟨s', answer⟩ := result
  match answer, hi with
  | .error _, ⟨_, d, dd, hon, hd, he⟩ => exact he ▸ (h.reap hd (h.trail_onPath path) hon).1
  | .ok none, ⟨_, he⟩ => exact he ▸ h
  | .ok (some _), ⟨_, _, _, _, _, _, _, hmade, _⟩ => exact hmade.linked

theorem Inv.insertByPath {cs : List Path} (h : s.Inv N) (hc : Canonical path cs) : (s.insertByPath N pool path info).1.Inv N := by
  have hi := h.inserted pool path info
  generalize s.insertByPath N pool path info = result at hi
  obtain ⟨s', answer⟩ := result
  match answer, hi with
  | .error _, ⟨_, d, dd, hon, hd, he⟩ => exact he ▸ (h.reap hd (h.trail_onPath path) hon).2.1 h
  | .ok none, ⟨_, he⟩ => exact he ▸ h
  | .ok (some _), ⟨_, _, _, _, _, _, _, _, hsound⟩ => exact (hsound cs h hc).1

theorem trail_all (s : State) : Trail s fun _ => True := fun _ _ _ _ _ => trivial

theorem Linked.not_mem_table (h : s.Linked N) (hn : ¬ s.inTable N n) (b : ℕ) : n ∉ s.table b := by
  intro hmem
  obtain ⟨nd, hnd, hb, _⟩ := h.table b n hmem
  refine hn ?_
  rw [inTable, hnd, Option.any_some, hb]
  exact decide_eq_true hmem

/-- Only a bucket of the node table has changed. -/
theorem Linked.withTable (h : s.Linked N) {b : ℕ} {l : List ℕ} (hmem : ∀ m ∈ l, ∃ md, s.node m = some md ∧ tableBucket N md.fullPath = b ∧ m ≠ s.root)
    (hnodup : l.Nodup) : { s with table := Function.update s.table b l }.Linked N := by
  have hget : ∀ b', Function.update s.table b l b' = if b' = b then l else s.table b' := fun b' => Function.update_apply ..
  refine h.congr ⟨rfl, fun _ => rfl⟩ rfl rfl (fun b' m hm => ?_) fun b' => ?_
  · simp only [hget] at hm
    split_ifs at hm with hb
    · exact hb ▸ hmem m hm
    · exact h.table b' m hm
  · simp only [hget]
    split_ifs
    · exact hnodup
    · exact h.nodupTable b'

theorem Linked.publish (h : s.Linked N) (hroot : n ≠ s.root) (hs : s.publish N n = some s') : s'.Linked N ∧ Alike s s' := by
  obtain ⟨nd, hn, rfl⟩ := Option.map_eq_some_iff.mp hs
  split_ifs with hin
  · exact ⟨h, rfl, fun _ => rfl⟩
  · refine ⟨h.withTable (fun m hm => ?_) ?_, rfl, fun _ => rfl⟩
    · rcases List.mem_append.mp hm with hm | hm
      · exact h.table _ m hm
      · rw [List.mem_singleton.mp hm]
        exact ⟨nd, hn, rfl, hroot⟩
    · refine List.nodup_append.mpr ⟨h.nodupTable _, List.nodup_singleton n, fun a ha b hb hab => ?_⟩
      exact h.not_mem_table hin _ (List.mem_singleton.mp hb ▸ hab ▸ ha)

theorem Linked.unpublish (h : s.Linked N) (hs : s.unpublish N n = some s') : s'.Linked N ∧ Alike s s' := by
  obtain ⟨nd, hn, rfl⟩ := Option.map_eq_some_iff.mp hs
  exact ⟨h.withTable (fun m hm => h.table _ m (List.mem_of_mem_erase hm)) ((h.nodupTable _).erase n), rfl, fun _ => rfl⟩

/-- A node's handles and counts may change; it stays where it is. -/
theorem Linked.putNode (h : s.Linked N) {nd' : Node} (hn : s.node n = some nd) (hshape : nd'.shape = nd.shape) :
    { s with node := Function.update s.node n (some nd') }.Linked N ∧ Alike s { s with node := Function.update s.node n (some nd') } := by
  have ha : Alike s { s with node := Function.update s.node n (some nd') } := by
    refine ⟨rfl, fun m => ?_⟩
    show (Function.update s.node n (some nd') m).map Node.shape = _
    rw [Function.update_apply]
    split_ifs with hm
    · rw [hm, hn, Option.map_some, Option.map_some, hshape]
    · rfl
  refine ⟨h.congr ha rfl rfl (fun b m hm => ?_) h.nodupTable, ha⟩
  obtain ⟨md, hmd, hb, hroot⟩ := h.table b m hm
  obtain ⟨md', hmd', _, hpath, _⟩ := ha.node hmd
  exact ⟨md', hmd', hpath ▸ hb, hroot⟩

theorem Linked.touch {like : Node} (h : s.Linked N) (hs : s.touch n like = some s') : s'.Linked N ∧ Alike s s' := by
  obtain ⟨nd, hn, rfl⟩ := Option.map_eq_some_iff.mp hs
  exact h.putNode hn rfl

theorem next_linked (h : s.Linked N) (hs : s.next N act = some s') : s'.Linked N := by
  cases act with
  | insert pool path info =>
    obtain rfl := Option.some.inj hs
    exact h.insertByPath
  | free n =>
    simp only [next] at hs
    split_ifs at hs with hc
    obtain rfl := Option.some.inj hs
    obtain ⟨nd, hn⟩ := Option.isSome_iff_exists.mp hc.2.1
    exact h.freeFileContext hn hc.1 hc.2.2.1 (h.not_mem_table hc.2.2.2)
  | reap d =>
    simp only [next] at hs
    split_ifs at hs with hc
    obtain rfl := Option.some.inj hs
    obtain ⟨nd, hn⟩ := Option.isSome_iff_exists.mp hc
    exact (h.reap hn (trail_all s) trivial).1
  | publish n =>
    simp only [next] at hs
    split_ifs at hs with hc
    exact (h.publish hc hs).1
  | unpublish n => exact (h.unpublish hs).1
  | touch n like => exact (h.touch hs).1

theorem next_inv (h : s.Inv N) (hact : act.Allowed fun path => ∃ cs, Canonical path cs) (hs : s.next N act = some s') : s'.Inv N := by
  have hl := next_linked h.toLinked hs
  cases act with
  | insert pool path info =>
    obtain rfl := Option.some.inj hs
    obtain ⟨cs, hc⟩ := hact
    exact h.insertByPath hc
  | free n =>
    simp only [next] at hs
    split_ifs at hs with hc
    obtain rfl := Option.some.inj hs
    obtain ⟨nd, hn⟩ := Option.isSome_iff_exists.mp hc.2.1
    exact h.freeFileContext hl hn
  | reap d =>
    simp only [next] at hs
    split_ifs at hs with hc
    obtain rfl := Option.some.inj hs
    obtain ⟨nd, hn⟩ := Option.isSome_iff_exists.mp hc
    exact (h.reap hn (trail_all s) trivial).2.1 h
  | publish n =>
    simp only [next] at hs
    split_ifs at hs with hc
    exact h.congr (h.publish hc hs).2 hl
  | unpublish n => exact h.congr (h.unpublish hs).2 hl
  | touch n like => exact h.congr (h.touch hs).2 hl

end State

theorem initial_node {root : ℕ} (h : (initial root).node n = some nd) : n = root ∧ nd = ⟨.root, [separator], root, 0, 0, false, 0, .none, 0, 0⟩ := by
  simp only [initial] at h
  split_ifs at h with he
  exact ⟨he, (Option.some.inj h).symm⟩

theorem initial_inv (root : ℕ) : (initial root).Inv N where
  root := ⟨_, if_pos rfl, rfl, rfl⟩
  kinds _ _ hn hne := absurd (initial_node hn).1 hne
  placed _ _ hn hne := absurd (initial_node hn).1 hne
  deep _ _ hn := ⟨0, (initial_node hn).1 ▸ .root (s := initial root), Nat.zero_le _⟩
  children _ _ := ⟨nofun, fun ⟨_, hn, _, hne⟩ => absurd (initial_node hn).1 hne⟩
  chains _ _ := ⟨nofun, fun ⟨_, hn, _, hne⟩ => absurd (initial_node hn).1 hne⟩
  table := nofun
  nodupChildren _ := List.nodup_nil
  nodupChains _ := List.nodup_nil
  nodupTable _ := List.nodup_nil
  named _ _ _ hn hne := absurd (initial_node hn).1 hne
  unique _ _ _ _ hc _ hne := absurd (initial_node hc).1 hne

theorem reachable_linked {paths : Path → Prop} (h : (system N paths).Reachable s) : s.Linked N := by
  induction h with
  | init h0 =>
    obtain ⟨root, rfl⟩ := h0
    exact (initial_inv root).toLinked
  | step _ hs ih =>
    obtain ⟨act, _, hact⟩ := hs
    exact State.next_linked ih hact

theorem reachable_inv (h : (system N fun path => ∃ cs, Canonical path cs).Reachable s) : s.Inv N := by
  induction h with
  | init h0 =>
    obtain ⟨root, rfl⟩ := h0
    exact initial_inv root
  | step _ hs ih =>
    obtain ⟨act, hok, hact⟩ := hs
    exact State.next_inv ih hok hact

end BlorgFS.Tree
