import BlorgFS.Tree.Walk

/-! `BlorgInsertByPath`: from the last resident directory of the path it makes one node after
another. Where it fails, or what it made is freed again, the tree is left as the walk over empty
ancestors leaves it from that directory. -/

namespace BlorgFS.Tree

open Lib PathCache

variable {N : Names} {s s' : State} {n m p d k fuel current child : ℕ} {nd dd md : Node} {path remaining rest c : Path} {cs pre : List Path} {pool : Pool}
  {info : EntryInfo} {lastCreated : Option ℕ}

namespace State

/-! ### A new node, and its undoing -/

/-- A node as an insert makes one in the directory `d`. -/
structure Fresh (s : State) (d n : ℕ) (nd : Node) : Prop where
  free : s.node n = none
  kind : nd.kind ≠ .root
  parent : nd.parentDcb = d
  idle : nd.Idle

theorem newNode_kind (isFile : Bool) : (newNode isFile path info d).kind = if isFile then .fcb else .dcb := by cases isFile <;> rfl

theorem newNode_fullPath (isFile : Bool) : (newNode isFile path info d).fullPath = path := by cases isFile <;> rfl

theorem fresh_newNode (isFile : Bool) (hn : s.node n = none) : Fresh s d n (newNode isFile path info d) := by
  cases isFile
  · exact ⟨hn, nofun, rfl, rfl, rfl, rfl⟩
  · exact ⟨hn, nofun, rfl, rfl, rfl, rfl⟩

theorem allocate_eq_ok (h : s.allocate pool path = .ok n) : s.node n = none := by
  unfold allocate at h
  split at h
  · cases h
  · split_ifs at h with hsome
    obtain rfl := Except.ok.inj h
    exact Option.not_isSome_iff_eq_none.mp hsome

theorem Fresh.ne (hf : Fresh s d n nd) (hm : s.node m = some md) : m ≠ n := by
  rintro rfl
  rw [hf.free] at hm
  cases hm

/-- Nothing of the tree has to do with an address that is free. -/
theorem Linked.absent (h : s.Linked N) (hn : s.node n = none) :
    (∀ p, n ∉ s.children p) ∧ (∀ b, n ∉ s.chains b) ∧ (∀ b, n ∉ s.table b) ∧ s.children n = [] := by
  refine ⟨fun p hmem => ?_, fun b hmem => ?_, fun b hmem => ?_, ?_⟩
  · obtain ⟨_, hsome, _⟩ := (h.children p n).mp hmem
    rw [hn] at hsome
    cases hsome
  · obtain ⟨_, hsome, _⟩ := (h.chains b n).mp hmem
    rw [hn] at hsome
    cases hsome
  · obtain ⟨_, hsome, _⟩ := h.table b n hmem
    rw [hn] at hsome
    cases hsome
  · rw [List.eq_nil_iff_forall_not_mem]
    intro c hc
    obtain ⟨cd, hcd, hp, hroot⟩ := (h.children n c).mp hc
    obtain ⟨pd, hpd, _⟩ := h.placed c cd hcd hroot
    rw [hp, hn] at hpd
    cases hpd

theorem link_self : (s.link N n nd).node n = some nd := by rw [link_node, if_pos rfl]

/-- What has been linked and freed again has left no trace. -/
theorem Linked.freeFileContext_link (h : s.Linked N) (hn : s.node n = none) : (s.link N n nd).freeFileContext N n = s := by
  obtain ⟨hchildren, hchains, _, _⟩ := h.absent hn
  rw [State.freeFileContext, link_self]
  simp only [State.link, childLink, childUnlink, Function.update_self, Function.update_idem]
  rw [List.erase_cons_head, List.erase_append_right _ (hchildren _), List.erase_cons_head, List.append_nil, Function.update_eq_self, Function.update_eq_self,
    ← hn, Function.update_eq_self]

theorem Linked.without_link (h : s.Linked N) (hn : s.node n = none) : (s.link N n nd).without N n nd = s := by
  obtain ⟨_, _, htable, _⟩ := h.absent hn
  have hfree : (s.link N n nd).without N n nd = { (s.link N n nd).freeFileContext N n with
      table := Function.update s.table (tableBucket N nd.fullPath) ((s.table (tableBucket N nd.fullPath)).erase n) } := by
    rw [State.freeFileContext, link_self]
    rfl
  rw [hfree, h.freeFileContext_link hn, List.erase_of_not_mem (htable _), Function.update_eq_self]

/-- Nothing is in a new directory. -/
theorem Fresh.children (hf : Fresh s d n nd) (h : s.Linked N) (hd : s.node d = some dd) : (s.link N n nd).children n = [] := by
  rw [link_children, if_neg, (h.absent hf.free).2.2.2]
  rw [hf.parent]
  exact (hf.ne hd).symm

theorem Fresh.searchByName (hf : Fresh s d n nd) (h : s.Linked N) (hl : (s.link N n nd).Linked N) (hd : s.node d = some dd) (name : Path) :
    (s.link N n nd).searchByName N n name = none := by
  refine Option.eq_none_iff_forall_ne_some.mpr fun m hs => ?_
  obtain ⟨md, hm, hp, hroot, _⟩ := hl.of_searchByName hs
  have hmem := (hl.children n m).mpr ⟨md, hm, hp, hroot⟩
  rw [hf.children h hd] at hmem
  cases hmem

/-- The walk over empty ancestors takes a new directory out first. -/
theorem Fresh.reap_link (hf : Fresh s d n nd) (h : s.Linked N) (hl : (s.link N n nd).Linked N) (hk : nd.kind = .dcb) (hd : s.node d = some dd) :
    (s.link N n nd).reapEmptyAncestorDcbs N n = s.reapEmptyAncestorDcbs N d := by
  rw [hl.reap_eq link_self, if_pos ⟨hk, hf.children h hd, hf.idle⟩, h.without_link hf.free, hf.parent]

/-! ### Where the walk is -/

/-- The walk is in a directory no deeper than what it has taken off the path is long. -/
structure Here (s : State) (path : Path) (d : ℕ) (rest : Path) : Prop where
  dir : ∃ dd, s.node d = some dd ∧ dd.kind ≠ .fcb
  deep : ∃ k, Depth s d k ∧ k + rest.length ≤ path.length

theorem Linked.here (h : s.Linked N) (path : Path) : Here s path s.root path := by
  obtain ⟨rd, hr, hk, _⟩ := h.root
  exact ⟨⟨rd, hr, by rw [hk]; nofun⟩, 0, .root, by omega⟩

theorem Here.down (hh : Here s path d rest) (h : s.Linked N) (hrest : rest.length ≠ 0) (hs : s.searchByName N d (dissectName rest).1 = some child)
    (hk : s.kindIs child .fcb = false) : Here s path child (dissectName rest).2 := by
  obtain ⟨cd, hcd, hp, hroot, _⟩ := h.of_searchByName hs
  obtain ⟨k, hdepth, hlen⟩ := hh.deep
  have hlt := dissectName_length hrest
  refine ⟨⟨cd, hcd, fun he => ?_⟩, k + 1, .child hcd hroot (hp ▸ hdepth), by omega⟩
  rw [kindIs_iff.mpr ⟨cd, hcd, he⟩] at hk
  cases hk

/-- The path of the node that the walk makes next. -/
def partialPath (path rest : Path) : Path := if rest.length = 0 then path else path.take (path.length - (rest.length + 1))

theorem Here.link (hh : Here s path d rest) (h : s.Linked N) (hrest : rest.length ≠ 0) (hf : Fresh s d n nd)
    (hpath : nd.fullPath = partialPath path (dissectName rest).2) :
    (s.link N n nd).Linked N ∧ (nd.kind ≠ .fcb → Here (s.link N n nd) path n (dissectName rest).2) := by
  obtain ⟨dd, hd, hdk⟩ := hh.dir
  obtain ⟨k, hdepth, hlen⟩ := hh.deep
  have hlt := dissectName_length hrest
  have hlong : k + 1 ≤ nd.fullPath.length := by
    rw [hpath, partialPath]
    split_ifs with h0
    · omega
    · have hle := dissectName_length_of_ne h0
      rw [List.length_take]
      omega
  have hl : (s.link N n nd).Linked N := h.link hf.free hf.kind (hf.parent ▸ hd) hdk (hf.parent ▸ hdepth) hlong
  refine ⟨hl, fun hk => ⟨⟨nd, link_self, hk⟩, k + 1, ?_, by omega⟩⟩
  have hdepth' : Depth (s.link N n nd) d k := hdepth.congr rfl fun m md hm _ => ⟨md, link_keeps hf.free hm, rfl⟩
  exact .child link_self (hl.ne_root_of_kind link_self hf.kind) (hf.parent ▸ hdepth')

/-- What is left of a path while it is walked: its components, but for the separator before
them once the first has been taken off. -/
def Remains (remaining : Path) (cs : List Path) : Prop := remaining = join cs ∨ remaining = (join cs).tail

/-- The walk has come to a directory by the components `pre`, and `cs` are left. -/
structure Place (N : Names) (s : State) (path : Path) (d : ℕ) (rest : Path) (pre cs : List Path) (dd : Node) : Prop where
  node : s.node d = some dd
  names : ∀ x ∈ pre ++ cs, IsName x
  rest : Remains rest cs
  path : path = join (pre ++ cs)
  stem : Same N (join pre) dd.stem

theorem Remains.dissectName (h : Remains remaining (c :: cs)) (hc : IsName c) : dissectName remaining = (c, (join cs).tail) := by
  rcases h with rfl | rfl
  · exact dissectName_join hc cs
  · exact dissectName_tail hc cs

theorem Inv.place (h : s.Inv N) (hc : Canonical path cs) : ∃ rd, Place N s path s.root path [] cs rd := by
  obtain ⟨rd, hr, hk, _⟩ := h.root
  obtain ⟨_, hnames, hpath⟩ := hc
  refine ⟨rd, hr, hnames, .inl hpath, hpath, ?_⟩
  rw [Node.stem, if_pos hk]
  rfl

/-- There is a next component where something is left. -/
theorem Place.next (hp : Place N s path d rest pre cs dd) (hrest : rest.length ≠ 0) :
    ∃ c cs', cs = c :: cs' ∧ IsName c ∧ Tree.dissectName rest = (c, (join cs').tail) ∧ partialPath path (join cs').tail = join (pre ++ [c]) ∧
      (∀ x ∈ (pre ++ [c]) ++ cs', IsName x) ∧ path = join ((pre ++ [c]) ++ cs') := by
  cases cs with
  | nil =>
    rcases hp.rest with he | he <;> exact absurd (by rw [he]; rfl) hrest
  | cons c cs' =>
    have hassoc : pre ++ c :: cs' = (pre ++ [c]) ++ cs' := by rw [List.append_assoc, List.singleton_append]
    have hnames : ∀ x ∈ (pre ++ [c]) ++ cs', IsName x := hassoc ▸ hp.names
    have hc : IsName c := hp.names c (List.mem_append_right _ List.mem_cons_self)
    have hpath : path = join ((pre ++ [c]) ++ cs') := hassoc ▸ hp.path
    have hnil : (join cs').tail.length = 0 ↔ cs' = [] := by
      rw [List.length_eq_zero_iff, tail_join_eq_nil fun x hx => hnames x (List.mem_append_right _ hx)]
    refine ⟨c, cs', rfl, hc, hp.rest.dissectName hc, ?_, hnames, hpath⟩
    rw [partialPath]
    split_ifs with h0
    · rw [hpath, hnil.mp h0, List.append_nil]
    · rw [hpath]
      exact take_join (mt hnil.mpr h0) _

theorem Place.down (hp : Place N s path d rest pre cs dd) (h : s.Inv N) (hrest : rest.length ≠ 0)
    (hs : s.searchByName N d (Tree.dissectName rest).1 = some child) :
    ∃ pre' cs' cd, Place N s path child (Tree.dissectName rest).2 pre' cs' cd := by
  obtain ⟨c, cs', rfl, hc, hdis, _, hnames, hpath⟩ := hp.next hrest
  rw [hdis] at hs ⊢
  obtain ⟨cd, hcd, hcp, hroot, hsame⟩ := h.of_searchByName hs
  refine ⟨pre ++ [c], cs', cd, hcd, hnames, .inr rfl, hpath, ?_⟩
  obtain ⟨cs, c', _, hc', hpath', hstem⟩ := h.named child cd dd hcd hroot (hcp ▸ hp.node)
  have hname : cd.name = c' := by rw [Node.name, hpath', getLastComponent_join hc']
  have hfold : N.fold (join pre) = N.fold (join cs) := hp.stem.trans hstem.symm
  have hlast : N.fold (separator :: c) = N.fold (separator :: c') := by
    show N.upcase separator :: N.fold c = N.upcase separator :: N.fold c'
    rw [show N.fold c = N.fold cd.name from hsame, hname]
  rw [Node.stem, if_neg (h.kinds child cd hcd hroot)]
  show N.fold _ = N.fold _
  rw [hpath', join_append, join_append, fold_append, fold_append, hfold, join_singleton, join_singleton, hlast]

/-- The name is new where the walk makes a node, and the node is found by it. -/
theorem Place.link (hp : Place N s path d rest pre cs dd) (h : s.Inv N) (hl : (s.link N n nd).Linked N) (hrest : rest.length ≠ 0) (hf : Fresh s d n nd)
    (hpath : nd.fullPath = partialPath path (Tree.dissectName rest).2) (hs : s.searchByName N d (Tree.dissectName rest).1 = none) :
    (s.link N n nd).Inv N ∧ (s.link N n nd).searchByName N d (Tree.dissectName rest).1 = some n ∧
      ∃ pre' cs', Place N (s.link N n nd) path n (Tree.dissectName rest).2 pre' cs' nd := by
  obtain ⟨c, cs', rfl, hc, hdis, hpart, hnames, hjoin⟩ := hp.next hrest
  rw [hdis] at hs hpath ⊢
  have hfull : nd.fullPath = join (pre ++ [c]) := hpath.trans hpart
  have hname : nd.name = c := by rw [Node.name, hfull, getLastComponent_join hc]
  have hpre : ∀ x ∈ pre, IsName x := fun x hx => hp.names x (List.mem_append_left _ hx)
  have hinv : (s.link N n nd).Inv N := by
    refine h.link hl hf.free (hf.parent ▸ hp.node) ⟨pre, c, hpre, hc, hfull, hp.stem⟩ ?_
    rw [hf.parent, hname]
    exact hs
  refine ⟨hinv, ?_, pre ++ [c], cs', link_self, hnames, .inr rfl, hjoin, ?_⟩
  · exact hinv.searchByName_iff.mpr ⟨nd, link_self, hf.parent, hl.ne_root_of_kind link_self hf.kind, by rw [hname]; rfl⟩
  · rw [Node.stem, if_neg hf.kind, hfull]
    rfl

/-! ### What an insert comes to -/

/-- Whatever was there still is. -/
def Extends (s s' : State) : Prop := s'.root = s.root ∧ ∀ n nd, s.node n = some nd → s'.node n = some nd

theorem Extends.trans {s₁ : State} (h : Extends s s₁) (h' : Extends s₁ s') : Extends s s' :=
  ⟨h'.1.trans h.1, fun n nd hn => h'.2 n nd (h.2 n nd hn)⟩

theorem Fresh.extends (hf : Fresh s d n nd) : Extends s (s.link N n nd) := by
  refine ⟨rfl, fun m md hm => ?_⟩
  rw [link_node, if_neg (hf.ne hm)]
  exact hm

theorem Extends.searchByName (he : Extends s s') (h : s.Inv N) (h' : s'.Inv N) (hs : s.searchByName N p c = some n) : s'.searchByName N p c = some n := by
  obtain ⟨nd, hn, hp, hroot, hsame⟩ := h.searchByName_iff.mp hs
  exact h'.searchByName_iff.mpr ⟨nd, he.2 n nd hn, hp, he.1 ▸ hroot, hsame⟩

theorem Extends.kindIs {k : Kind} (he : Extends s s') (hn : s.node n = some nd) : s'.kindIs n k = s.kindIs n k := by
  rw [State.kindIs, State.kindIs, hn, he.2 n nd hn]

/-- A walk goes on through what was there. -/
theorem Extends.reaches (he : Extends s s') (h : s.Inv N) (h' : s'.Inv N) (hr : Reaches N s current remaining d rest) :
    Reaches N s' current remaining d rest := by
  induction hr with
  | here => exact .here
  | down hrest hs hk _ ih =>
    obtain ⟨cd, hcd, _⟩ := h.of_searchByName hs
    exact .down hrest (he.searchByName h h' hs) (by rw [he.kindIs hcd]; exact hk) ih

/-- An insert has made the node `n` at the end of the path, and may have made directories above
it, from `d` on. Freed again it leaves the tree as the walk over empty ancestors does from `d`.
Where the path is canonical a search finds it. -/
structure Made (N : Names) (s s' : State) (path : Path) (info : EntryInfo) (d : ℕ) (rest : Path) (n : ℕ) (nd : Node) : Prop where
  linked : s'.Linked N
  extends_ : Extends s s'
  free : s.node n = none
  node : s'.node n = some nd
  new : nd = newNode (¬ info.isDirectory) path info nd.parentDcb
  attached : s'.children d ≠ []
  parents : ∀ m md, s'.node m = some md → s.node m = none → m ≠ n → s'.children m ≠ []
  undone : (s'.freeFileContext N n).reapEmptyAncestorDcbs N nd.parentDcb = s.reapEmptyAncestorDcbs N d
  sound : ∀ {pre cs dd}, s.Inv N → Place N s path d rest pre cs dd → s'.Inv N ∧ ∀ fuel, rest.length ≤ fuel → s'.searchFrom N fuel d rest = some n

/-- What `insertFrom` answers where the next name is not there. -/
def Planted (N : Names) (s : State) (path : Path) (info : EntryInfo) (d : ℕ) (rest : Path) (result : State × Except Status (Option ℕ)) : Prop :=
  match result.2 with
  | .error _ => result.1 = s.reapEmptyAncestorDcbs N d
  | .ok r => ∃ n nd, r = some n ∧ Made N s result.1 path info d rest n nd

theorem insertFrom_missing (fuel : ℕ) : ∀ {s : State} {d : ℕ} {rest : Path} {lastCreated : Option ℕ}, s.Linked N → Here s path d rest → rest.length ≤ fuel →
    rest.length ≠ 0 → s.searchByName N d (dissectName rest).1 = none →
    Planted N s path info d rest (insertFrom N pool path info fuel s d rest lastCreated) := by
  induction fuel with
  | zero =>
    intro s d rest lastCreated _ _ hlen hrest _
    omega
  | succ fuel ih =>
    intro s d rest lastCreated h hh hlen hrest hs
    have hlt := dissectName_length hrest
    obtain ⟨dd, hd, hdk⟩ := hh.dir
    cases ha : s.allocate pool (partialPath path (dissectName rest).2) with
    | error st =>
      have hstep : insertFrom N pool path info (fuel + 1) s d rest lastCreated = (s.reapEmptyAncestorDcbs N d, .error st) := by
        unfold partialPath at ha
        rw [insertFrom, if_neg hrest]
        simp only [hs, ha]
      rw [hstep]
      rfl
    | ok n =>
      have hstep : insertFrom N pool path info (fuel + 1) s d rest lastCreated =
          if (dissectName rest).2.length = 0 then
            (s.link N n (newNode ((dissectName rest).2.length = 0 ∧ ¬ info.isDirectory) (partialPath path (dissectName rest).2) info d), .ok (some n))
          else insertFrom N pool path info fuel
            (s.link N n (newNode ((dissectName rest).2.length = 0 ∧ ¬ info.isDirectory) (partialPath path (dissectName rest).2) info d)) n
            (dissectName rest).2 (some n) := by
        unfold partialPath at ha
        rw [insertFrom, if_neg hrest]
        simp only [hs, ha]
        rfl
      rw [hstep]
      generalize hnd : newNode ((dissectName rest).2.length = 0 ∧ ¬ info.isDirectory) (partialPath path (dissectName rest).2) info d = nd
      have hf : Fresh s d n nd := hnd ▸ fresh_newNode _ (allocate_eq_ok ha)
      have hpath : nd.fullPath = partialPath path (dissectName rest).2 := by rw [← hnd, newNode_fullPath]
      have hkind : nd.kind = if (dissectName rest).2.length = 0 ∧ ¬ info.isDirectory then .fcb else .dcb := by
        rw [← hnd, newNode_kind]
        simp only [decide_eq_true_eq]
      obtain ⟨hl, hhere⟩ := hh.link h hrest hf hpath
      have hattached : (s.link N n nd).children d ≠ [] := by
        rw [link_children, if_pos hf.parent.symm]
        exact List.append_ne_nil_of_right_ne_nil _ (List.cons_ne_nil n [])
      by_cases hlast : (dissectName rest).2.length = 0
      · -- the last component
        simp only [if_pos hlast]
        refine ⟨n, nd, rfl, hl, hf.extends, hf.free, link_self, ?_, hattached, fun m md hm hnone hne => ?_, ?_, fun hinv hplace => ?_⟩
        · rw [← hnd, partialPath, if_pos hlast]
          cases hdir : info.isDirectory <;> simp [hlast, newNode]
        · rw [link_node, if_neg hne, hnone] at hm
          cases hm
        · rw [h.freeFileContext_link hf.free, hf.parent]
        · obtain ⟨hinv', hfound, _⟩ := hplace.link hinv hl hrest hf hpath hs
          refine ⟨hinv', fun j hj => ?_⟩
          obtain ⟨j, rfl⟩ : ∃ i, j = i + 1 := ⟨j - 1, by omega⟩
          rw [searchFrom, if_neg hrest, hfound]
          simp only [hlast, if_true]
          split_ifs
          · rfl
          · exact searchFrom_found (List.length_eq_zero_iff.mp hlast)
      · -- a directory on the way, and then the rest
        have hdcb : nd.kind = .dcb := by rw [hkind, if_neg fun hn => hlast hn.1]
        have hnone := hf.searchByName h hl hd
        have hreap := hf.reap_link h hl hdcb hd
        have hrec : Planted N (s.link N n nd) path info n (dissectName rest).2
            (insertFrom N pool path info fuel (s.link N n nd) n (dissectName rest).2 (some n)) :=
          ih hl (hhere (by rw [hdcb]; decide)) (by omega) hlast (hnone _)
        simp only [if_neg hlast]
        generalize insertFrom N pool path info fuel (s.link N n nd) n (dissectName rest).2 (some n) = result at hrec
        obtain ⟨s', answer⟩ := result
        cases answer with
        | error st => exact hrec.trans hreap
        | ok r =>
          obtain ⟨m, md, hr, hmade⟩ := hrec
          have hmn : m ≠ n := fun he => by
            have hfree := hmade.free
            rw [he, link_self] at hfree
            cases hfree
          have hfree : s.node m = none := by
            have hfree := hmade.free
            rwa [link_node, if_neg hmn] at hfree
          refine ⟨m, md, hr, hmade.linked, hf.extends.trans hmade.extends_, hfree, hmade.node, hmade.new, ?_, fun j jd hj hnone hne => ?_,
            hmade.undone.trans hreap, fun hinv hplace => ?_⟩
          · have hmem := (hmade.linked.children d n).mpr ⟨nd, hmade.extends_.2 n nd link_self, hf.parent,
              hmade.extends_.1 ▸ hl.ne_root_of_kind link_self hf.kind⟩
            exact List.ne_nil_of_mem hmem
          · by_cases hjn : j = n
            · rw [hjn]
              exact hmade.attached
            · exact hmade.parents j jd hj (by rw [link_node, if_neg hjn]; exact hnone) hne
          obtain ⟨hinv', hfound, pre', cs', hplace'⟩ := hplace.link hinv hl hrest hf hpath hs
          obtain ⟨hinv'', hsearch⟩ := hmade.sound hinv' hplace'
          refine ⟨hinv'', fun j hj => ?_⟩
          obtain ⟨j, rfl⟩ : ∃ i, j = i + 1 := ⟨j - 1, by omega⟩
          have hnot : s'.kindIs n .fcb = false := by
            rw [hmade.extends_.kindIs link_self, State.kindIs, link_self, Option.any_some, hdcb]
            rfl
          rw [searchFrom, if_neg hrest, hmade.extends_.searchByName hinv' hinv'' hfound]
          simp only [hnot, Bool.false_eq_true, if_false]
          exact hsearch j (by omega)

/-- What `BlorgInsertByPath` answers. -/
def Inserted (N : Names) (s : State) (path : Path) (info : EntryInfo) (result : State × Except Status (Option ℕ)) : Prop :=
  match result.2 with
  | .error _ => s.searchByPath N path = none ∧ ∃ d dd, OnPath N s path d ∧ s.node d = some dd ∧ result.1 = s.reapEmptyAncestorDcbs N d
  | .ok none => s.searchByPath N path ≠ none ∧ result.1 = s
  | .ok (some n) => s.searchByPath N path = none ∧
      ∃ d dd rest nd, OnPath N s path d ∧ s.node d = some dd ∧ Made N s result.1 path info d rest n nd ∧
        ∀ cs, s.Inv N → Canonical path cs → result.1.Inv N ∧ result.1.searchByPath N path = some n

theorem Linked.inserted (h : s.Linked N) (pool : Pool) (path : Path) (info : EntryInfo) : Inserted N s path info (s.insertByPath N pool path info) := by
  have hsearch : ∀ {d rest}, Reaches N s s.root path d rest → ∃ fuel, rest.length ≤ fuel ∧ s.searchByPath N path = s.searchFrom N fuel d rest :=
    fun hr => hr.searchFrom (Nat.le_refl _)
  have hhere : ∀ {d rest}, Reaches N s s.root path d rest → Here s path d rest :=
    fun hr => hr.induct (h.here path) fun hd hrest hs hk => hd.down h hrest hs hk
  have hinsert : ∀ {d rest}, Reaches N s s.root path d rest → rest.length ≠ 0 →
      ∃ fuel, rest.length ≤ fuel ∧ s.insertByPath N pool path info = insertFrom N pool path info fuel s d rest none :=
    fun hr hrest => hr.insertFrom h (Nat.le_refl _) hrest
  cases ends N s path.length s.root (Nat.le_refl _) with
  | found hr =>
    obtain ⟨fuel, _, he⟩ := hsearch hr
    rw [insertByPath, hr.insertFrom_found h (Nat.le_refl _)]
    refine ⟨?_, rfl⟩
    rw [he, searchFrom_found rfl]
    exact fun hno => by cases hno
  | file hr hrest hs hk =>
    obtain ⟨fuel, hlen, he⟩ := hsearch hr
    obtain ⟨fuel', hlen', hi⟩ := hinsert hr hrest
    obtain ⟨fuel', rfl⟩ : ∃ j, fuel' = j + 1 := ⟨fuel' - 1, by omega⟩
    obtain ⟨dd, hd, _⟩ := (hhere hr).dir
    rw [searchFrom_file hlen hrest hs hk] at he
    rw [hi, insertFrom, if_neg hrest]
    simp only [hs, if_pos ((h.not_dir_iff hs).mpr hk)]
    split_ifs at he ⊢
    · exact ⟨by rw [he]; exact (fun hno => by cases hno), rfl⟩
    · exact ⟨he, _, dd, ⟨_, hr⟩, hd, rfl⟩
  | @missing d rest hr hrest hs =>
    obtain ⟨fuel, hlen, he⟩ := hsearch hr
    obtain ⟨fuel', hlen', hi⟩ := hinsert hr hrest
    obtain ⟨dd, hd, _⟩ := (hhere hr).dir
    rw [searchFrom_missing hlen hrest hs] at he
    have hplanted : Planted N s path info d rest (insertFrom N pool path info fuel' s d rest none) := insertFrom_missing fuel' h (hhere hr) hlen' hrest hs
    rw [hi]
    generalize insertFrom N pool path info fuel' s d rest none = result at hplanted
    obtain ⟨s', answer⟩ := result
    cases answer with
    | error st => exact ⟨he, d, dd, ⟨_, hr⟩, hd, hplanted⟩
    | ok r =>
      obtain ⟨n, nd, rfl, hmade⟩ := hplanted
      refine ⟨he, d, dd, rest, nd, ⟨_, hr⟩, hd, hmade, fun cs hinv hcan => ?_⟩
      obtain ⟨rd, hroot⟩ := hinv.place hcan
      obtain ⟨pre', cs', dd', hplace⟩ : ∃ pre cs dd, Place N s path d rest pre cs dd :=
        Reaches.induct (P := fun d rest => ∃ pre cs dd, Place N s path d rest pre cs dd) hr ⟨_, _, _, hroot⟩
          fun hp hrest hs _ => hp.elim fun _ hp => hp.elim fun _ hp => hp.elim fun _ hp => hp.down hinv hrest hs
      obtain ⟨hinv', hfound⟩ := hmade.sound hinv hplace
      have hr' := hmade.extends_.reaches hinv hinv' hr
      obtain ⟨fuel'', hlen'', he'⟩ := hr'.searchFrom (Nat.le_refl _)
      refine ⟨hinv', ?_⟩
      rw [searchByPath, hmade.extends_.1, he']
      exact hfound fuel'' hlen''

end State

end BlorgFS.Tree
