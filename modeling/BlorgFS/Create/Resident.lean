import BlorgFS.Create.Cold

/-! The resident tree in every run over canonical paths: every node is where its parent and its
name put it, once, the index answers as a scan of the children would, and a path that is not
found can be inserted and is found then, so that a create always ends in one of its cases. -/

namespace BlorgFS.Create.Cold

open Lib PathCache Tree

variable {N : Names} {s : Tree.State} {n : ℕ} {nd pd : Node} {c : Call}

/-! ### Each node once -/

theorem count_eq_of_nodup {l : List ℕ} (hl : l.Nodup) {P : Prop} [Decidable P] (h : n ∈ l ↔ P) : l.count n = if P then 1 else 0 := by
  rw [hl.count]
  simp only [h]

/-- A node is in the list of its parent's children and in the chain its parent and its name hash
to, once, and in no other. -/
theorem linked_once (h : s.Linked N) (hn : s.node n = some nd) (hroot : n ≠ s.root) :
    (∀ b, (s.chains b).count n = if b = childBucket N nd.parentDcb nd.name then 1 else 0) ∧
      ∀ p, (s.children p).count n = if p = nd.parentDcb then 1 else 0 := by
  constructor
  · intro b
    refine count_eq_of_nodup (h.nodupChains b) ?_
    rw [h.chains, hn]
    constructor
    · rintro ⟨md, hm, hb, _⟩
      rw [Option.some.inj hm, ← hb]
      rfl
    · exact fun hb => ⟨nd, rfl, hb.symm, hroot⟩
  · intro p
    refine count_eq_of_nodup (h.nodupChildren p) ?_
    rw [h.children, hn]
    constructor
    · rintro ⟨md, hm, hp, _⟩
      rw [Option.some.inj hm, hp]
    · exact fun hp => ⟨nd, rfl, hp.symm, hroot⟩

theorem named_path (h : Named N pd nd) : Same N nd.fullPath (pd.stem ++ separator :: nd.name) := by
  obtain ⟨cs, x, _, hx, hpath, hstem⟩ := h
  have hname : nd.name = x := by rw [Node.name, hpath, getLastComponent_join hx]
  show N.fold _ = N.fold _
  rw [hpath, hname, join_append, join_singleton, fold_append, fold_append, show N.fold (join cs) = N.fold pd.stem from hstem]

/-! ### The create always ends in a case -/

theorem volumeCreate_ne_breakPoint (h : s.Linked N) (hp : c.path ≠ []) : (volumeCreate N s c).outcome ≠ .breakPoint := by
  have hresident : ∀ (n : ℕ) (nd : Node) (refreshed : Option EntryInfo), (openResident N s n nd c refreshed).outcome ≠ .breakPoint := by
    intro n nd refreshed
    obtain ⟨_, ⟨_, ho, _⟩ | ⟨_, st, ho, _⟩⟩ := openResident_cases (N := N) (s := s) (n := n) (c := c) nd refreshed
    · rw [ho]
      nofun
    · rw [ho]
      nofun
  unfold volumeCreate
  split
  · nofun
  split
  · nofun
  cases hs : s.searchByPath N c.path with
  | none =>
    obtain ⟨_, ⟨_, _, _, ho, _⟩ | ⟨_, _, _, ho, _⟩⟩ := insertAndOpen_cases h hs
    · simp only [ho]
      nofun
    · simp only [ho]
      nofun
  | some n =>
    obtain ⟨nd, hn, hk⟩ := searchByPath_ne_root h hp hs
    simp only [hn]
    cases hkind : nd.kind with
    | root => exact absurd hkind hk
    | dcb =>
      simp only
      split_ifs
      · nofun
      · exact hresident n nd none
    | fcb =>
      simp only
      split_ifs
      · nofun
      · exact hresident n (fcbRefresh nd c) (some c.info)

/-- The tree and its index in every run of inserts, frees and walks over empty ancestors on
canonical paths. -/
theorem resident_tree (h : (Tree.system N fun path => ∃ cs, Canonical path cs).Reachable s) :
    (∀ n nd, s.node n = some nd → n ≠ s.root →
      (∀ b, (s.chains b).count n = if b = childBucket N nd.parentDcb nd.name then 1 else 0) ∧
      (∀ p, (s.children p).count n = if p = nd.parentDcb then 1 else 0) ∧
      ∃ pd, s.node nd.parentDcb = some pd ∧ Same N nd.fullPath (pd.stem ++ separator :: nd.name)) ∧
    (∀ n m nd md, s.node n = some nd → s.node m = some md → n ≠ s.root → m ≠ s.root → nd.parentDcb = md.parentDcb → Same N nd.name md.name → n = m) ∧
    (∀ p name, s.searchByName N p name = s.scanByName N p name) ∧
    (∀ path cs pool info, Canonical path cs → s.searchByPath N path = none →
      (∃ st, (s.insertByPath N pool path info).2 = .error st) ∨
      ∃ n, (s.insertByPath N pool path info).2 = .ok (some n) ∧ s.node n = none ∧ (s.insertByPath N pool path info).1.searchByPath N path = some n) ∧
    ∀ c cs, Canonical c.path cs → (volumeCreate N s c).outcome ≠ .breakPoint := by
  have hinv := Tree.reachable_inv h
  refine ⟨fun n nd hn hroot => ?_, fun n m nd md hn hm hne hme => hinv.unique n m nd md hn hm hne hme, fun p name => hinv.searchByName_eq, ?_, ?_⟩
  · obtain ⟨hchains, hchildren⟩ := linked_once hinv.toLinked hn hroot
    obtain ⟨pd, hpd, _⟩ := hinv.placed n nd hn hroot
    exact ⟨hchains, hchildren, pd, hpd, named_path (hinv.named n nd pd hn hroot hpd)⟩
  · intro path cs pool info hc hs
    have hi := hinv.inserted pool path info
    generalize s.insertByPath N pool path info = result at hi
    obtain ⟨s', answer⟩ := result
    match answer, hi with
    | .error st, _ => exact .inl ⟨st, rfl⟩
    | .ok none, ⟨hne, _⟩ => exact absurd hs hne
    | .ok (some n), ⟨_, _, _, _, _, _, _, hmade, hsound⟩ => exact .inr ⟨n, rfl, hmade.free, (hsound cs hinv hc).2⟩
  · rintro c cs ⟨hcs, _, hpath⟩
    refine volumeCreate_ne_breakPoint hinv.toLinked fun he => ?_
    rw [he] at hpath
    cases cs with
    | nil => exact hcs rfl
    | cons x cs => cases hpath

/-! ### A child of the root -/

/-- `\A` and `\A\B`. -/
def pathsBelowA : List Tree.Act :=
  [.insert (fun path => .ok path.length) [separator, 0x41, separator, 0x42] ⟨false, 5, 1⟩]

theorem canonical_belowA : Canonical [separator, 0x41, separator, 0x42] [[0x41], [0x42]] := by
  refine ⟨nofun, fun c hc => ?_, rfl⟩
  rcases List.mem_cons.mp hc with rfl | hc
  · exact ⟨nofun, by decide⟩
  · rw [List.mem_singleton.mp hc]
    exact ⟨nofun, by decide⟩

theorem reachable_belowA (hs : run (Tree.State.next asciiNames) (Tree.initial 0) pathsBelowA = some s) :
    (Tree.system asciiNames fun path => ∃ cs, Canonical path cs).Reachable s := by
  refine reachable_run (fun act hact => ?_) hs
  rw [List.mem_singleton.mp hact]
  exact ⟨_, canonical_belowA⟩

/-- The root's path is a separator already, and its child's has no second. -/
theorem root_child_path : ∃ s n nd pd, (Tree.system asciiNames fun path => ∃ cs, Canonical path cs).Reachable s ∧ s.node n = some nd ∧ n ≠ s.root ∧
    s.node nd.parentDcb = some pd ∧ ¬ Same asciiNames nd.fullPath (pd.fullPath ++ separator :: nd.name) := by
  have hany : (run (Tree.State.next asciiNames) (Tree.initial 0) pathsBelowA).any (fun s =>
      (s.node 2).any fun nd => decide (2 ≠ s.root) && (s.node nd.parentDcb).any fun pd =>
        !asciiNames.equal nd.fullPath (pd.fullPath ++ separator :: nd.name)) = true := by decide +kernel
  obtain ⟨s, hs, hnode⟩ := (Option.any_eq_true _ _).mp hany
  obtain ⟨nd, hn, hboth⟩ := (Option.any_eq_true _ _).mp hnode
  obtain ⟨hroot, hpar⟩ := Bool.and_eq_true_iff.mp hboth
  obtain ⟨pd, hp, hne⟩ := (Option.any_eq_true _ _).mp hpar
  refine ⟨s, 2, nd, pd, reachable_belowA hs, hn, of_decide_eq_true hroot, hp, fun hsame => ?_⟩
  rw [(Names.equal_iff asciiNames).mpr hsame] at hne
  cases hne

/-- Two directories deep a search of the index finds the file. -/
theorem resident_tree_belowA : ∃ s, (Tree.system asciiNames fun path => ∃ cs, Canonical path cs).Reachable s ∧
    s.scanByName asciiNames 2 [0x62] = some 4 ∧ s.searchByName asciiNames 2 [0x62] = some 4 := by
  have hany : (run (Tree.State.next asciiNames) (Tree.initial 0) pathsBelowA).any (fun s => s.scanByName asciiNames 2 [0x62] = some 4) = true := by
    decide +kernel
  obtain ⟨s, hs, hscan⟩ := (Option.any_eq_true _ _).mp hany
  have hr := reachable_belowA hs
  have hfound := of_decide_eq_true hscan
  exact ⟨s, hr, hfound, ((resident_tree hr).2.2.1 2 [0x62]).trans hfound⟩

end BlorgFS.Create.Cold
