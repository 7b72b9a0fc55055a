import BlorgFS.Tree.Machine
import Mathlib.Data.List.Nodup

/-! What the tree and its index keep to: every node but the root is where its parent and its
name say, in the children of the one and in the chain of both, and no name stands twice in one
directory. Linking a new name and freeing a node without children keep it so. -/

namespace BlorgFS.Tree

open Lib PathCache

variable {N : Names}

/-! ### Names and places -/

/-- A directory's path without the separator the root's is. -/
def Node.stem (nd : Node) : Path := if nd.kind = .root then [] else nd.fullPath

def Node.name (nd : Node) : Path := getLastComponent nd.fullPath

/-- The path of `nd` is that of `pd`, a separator and a name, up to case. -/
def Named (N : Names) (pd nd : Node) : Prop :=
  ∃ cs c, (∀ x ∈ cs, IsName x) ∧ IsName c ∧ nd.fullPath = join (cs ++ [c]) ∧ Same N (join cs) pd.stem

/-- What of a node places it in the tree. -/
def Node.shape (nd : Node) : Kind × Path × ℕ := (nd.kind, nd.fullPath, nd.parentDcb)

/-- How far below the root a node is. -/
inductive Depth (s : State) : ℕ → ℕ → Prop
  | root : Depth s s.root 0
  | child {n k : ℕ} {nd : Node} : s.node n = some nd → n ≠ s.root → Depth s nd.parentDcb k → Depth s n (k + 1)

/-- The nodes hang together, whatever their paths are. -/
structure State.Linked (N : Names) (s : State) : Prop where
  root : ∃ nd, s.node s.root = some nd ∧ nd.kind = .root ∧ nd.fullPath = [separator]
  kinds : ∀ n nd, s.node n = some nd → n ≠ s.root → nd.kind ≠ .root
  placed : ∀ n nd, s.node n = some nd → n ≠ s.root → ∃ pd, s.node nd.parentDcb = some pd ∧ pd.kind ≠ .fcb
  deep : ∀ n nd, s.node n = some nd → ∃ k, Depth s n k ∧ k ≤ nd.fullPath.length
  children : ∀ p c, c ∈ s.children p ↔ ∃ nd, s.node c = some nd ∧ nd.parentDcb = p ∧ c ≠ s.root
  chains : ∀ b c, c ∈ s.chains b ↔ ∃ nd, s.node c = some nd ∧ nd.bucket N = b ∧ c ≠ s.root
  table : ∀ b n, n ∈ s.table b → ∃ nd, s.node n = some nd ∧ tableBucket N nd.fullPath = b ∧ n ≠ s.root
  nodupChildren : ∀ p, (s.children p).Nodup
  nodupChains : ∀ b, (s.chains b).Nodup
  nodupTable : ∀ b, (s.table b).Nodup

/-- And their paths are those of the tree: no name stands twice in a directory. -/
structure State.Inv (N : Names) (s : State) : Prop extends s.Linked N where
  named : ∀ n nd pd, s.node n = some nd → n ≠ s.root → s.node nd.parentDcb = some pd → Named N pd nd
  unique : ∀ c c' nd nd', s.node c = some nd → s.node c' = some nd' → c ≠ s.root → c' ≠ s.root →
    nd.parentDcb = nd'.parentDcb → Same N nd.name nd'.name → c = c'

variable {s s' : State} {n m p d k : ℕ} {nd nd' pd : Node} {name : Path}

theorem childBucket_congr {q : Path} (h : Same N name q) (p : ℕ) : childBucket N p name = childBucket N p q := by
  rw [childBucket, childBucket, h.hashPath]

theorem Depth.unique (h : Depth s n k) : ∀ {k' : ℕ}, Depth s n k' → k = k' := by
  induction h with
  | root =>
    intro k' h'
    cases h' with
    | root => rfl
    | child _ hne _ => exact absurd rfl hne
  | child hn hne _ ih =>
    intro k' h'
    cases h' with
    | root => exact absurd rfl hne
    | child hn' _ hp' =>
      rw [hn] at hn'
      obtain rfl := Option.some.inj hn'
      rw [ih hp']

/-- The same nodes are as deep where their parents are the same. -/
theorem Depth.congr (h : Depth s n k) (hroot : s'.root = s.root)
    (hnode : ∀ m md, s.node m = some md → m ≠ s.root → ∃ md', s'.node m = some md' ∧ md'.parentDcb = md.parentDcb) : Depth s' n k := by
  induction h with
  | root => exact hroot ▸ .root
  | child hn hne _ ih =>
    obtain ⟨md', hmd', hp⟩ := hnode _ _ hn hne
    exact .child hmd' (hroot ▸ hne) (hp ▸ ih)

namespace State

theorem Linked.root_isSome (h : s.Linked N) : (s.node s.root).isSome := by
  obtain ⟨nd, hnd, _⟩ := h.root
  rw [hnd]
  rfl

theorem Linked.ne_root_of_kind (h : s.Linked N) (hn : s.node n = some nd) (hk : nd.kind ≠ .root) : n ≠ s.root := by
  rintro rfl
  obtain ⟨rd, hr, hrk, _⟩ := h.root
  rw [hn] at hr
  exact hk (Option.some.inj hr ▸ hrk)

/-! ### The same places -/

/-- The nodes are where they were; what else there is to them may have changed. -/
structure Alike (s s' : State) : Prop where
  root : s'.root = s.root
  shape : ∀ n, (s'.node n).map Node.shape = (s.node n).map Node.shape

theorem Alike.symm (h : Alike s s') : Alike s' s := ⟨h.root.symm, fun n => (h.shape n).symm⟩

theorem Alike.node (h : Alike s s') (hn : s.node n = some nd) :
    ∃ nd', s'.node n = some nd' ∧ nd'.kind = nd.kind ∧ nd'.fullPath = nd.fullPath ∧ nd'.parentDcb = nd.parentDcb := by
  have hs := h.shape n
  rw [hn, Option.map_some] at hs
  obtain ⟨nd', hn', he⟩ := Option.map_eq_some_iff.mp hs
  exact ⟨nd', hn', congrArg (·.1) he, congrArg (·.2.1) he, congrArg (·.2.2) he⟩

theorem Alike.depth (h : Alike s s') (hd : Depth s n k) : Depth s' n k := by
  refine hd.congr h.root fun m md hm _ => ?_
  obtain ⟨md', hm', _, _, hp⟩ := h.node hm
  exact ⟨md', hm', hp⟩

theorem Alike.mem_iff (h : Alike s s') (P : Path → ℕ → Prop) (c : ℕ) : (∃ nd, s'.node c = some nd ∧ P nd.fullPath nd.parentDcb ∧ c ≠ s'.root) ↔
    ∃ nd, s.node c = some nd ∧ P nd.fullPath nd.parentDcb ∧ c ≠ s.root := by
  rw [h.root]
  constructor
  · rintro ⟨nd, hn, hp, hne⟩
    obtain ⟨nd', hn', _, hpath, hparent⟩ := h.symm.node hn
    exact ⟨nd', hn', hpath ▸ hparent ▸ hp, hne⟩
  · rintro ⟨nd, hn, hp, hne⟩
    obtain ⟨nd', hn', _, hpath, hparent⟩ := h.node hn
    exact ⟨nd', hn', hpath ▸ hparent ▸ hp, hne⟩

theorem Linked.congr (h : s.Linked N) (ha : Alike s s') (hchildren : s'.children = s.children) (hchains : s'.chains = s.chains)
    (htable : ∀ b n, n ∈ s'.table b → ∃ nd, s'.node n = some nd ∧ tableBucket N nd.fullPath = b ∧ n ≠ s.root)
    (hnodup : ∀ b, (s'.table b).Nodup) : s'.Linked N := by
  constructor
  · obtain ⟨nd, hn, hk, hp⟩ := h.root
    obtain ⟨nd', hn', hk', hp', _⟩ := ha.node hn
    exact ⟨nd', ha.root ▸ hn', hk'.trans hk, hp'.trans hp⟩
  · intro n nd hn hne
    obtain ⟨nd', hn', hk, _⟩ := ha.symm.node hn
    rw [← hk]
    exact h.kinds n nd' hn' (ha.root ▸ hne)
  · intro n nd hn hne
    obtain ⟨nd', hn', _, _, hp⟩ := ha.symm.node hn
    obtain ⟨pd, hpd, hk⟩ := h.placed n nd' hn' (ha.root ▸ hne)
    obtain ⟨pd', hpd', hk', _⟩ := ha.node hpd
    exact ⟨pd', hp ▸ hpd', hk' ▸ hk⟩
  · intro n nd hn
    obtain ⟨nd', hn', _, hpath, _⟩ := ha.symm.node hn
    obtain ⟨k, hd, hle⟩ := h.deep n nd' hn'
    exact ⟨k, ha.depth hd, hpath ▸ hle⟩
  · intro p c
    rw [hchildren, h.children]
    exact (ha.mem_iff (fun _ parent => parent = p) c).symm
  · intro b c
    rw [hchains, h.chains]
    exact (ha.mem_iff (fun path parent => childBucket N parent (getLastComponent path) = b) c).symm
  · rw [ha.root]
    exact htable
  · rw [hchildren]
    exact h.nodupChildren
  · rw [hchains]
    exact h.nodupChains
  · exact hnodup

theorem Inv.congr (h : s.Inv N) (ha : Alike s s') (hl : s'.Linked N) : s'.Inv N := by
  refine { hl with named := ?_, unique := ?_ }
  · intro n nd pd hn hne hp
    obtain ⟨nd', hn', _, hpath, hparent⟩ := ha.symm.node hn
    obtain ⟨pd', hp', hk, hstem, _⟩ := ha.symm.node hp
    obtain ⟨cs, c, hcs, hc, hpn, hsame⟩ := h.named n nd' pd' hn' (ha.root ▸ hne) (hparent ▸ hp')
    refine ⟨cs, c, hcs, hc, hpath ▸ hpn, ?_⟩
    rwa [Node.stem, hk, hstem] at hsame
  · intro c c' nd nd' hc hc' hne hne' hp hsame
    obtain ⟨x, hx, _, hpath, hparent⟩ := ha.symm.node hc
    obtain ⟨x', hx', _, hpath', hparent'⟩ := ha.symm.node hc'
    refine h.unique c c' x x' hx hx' (ha.root ▸ hne) (ha.root ▸ hne') (by rw [hparent, hparent', hp]) ?_
    rwa [Node.name, Node.name, hpath, hpath']

/-! ### The index -/

theorem isChild_iff : s.isChild N p name n = true ↔ ∃ nd, s.node n = some nd ∧ nd.parentDcb = p ∧ Same N name nd.name := by
  unfold isChild
  cases s.node n with
  | none => simp
  | some nd => simp [Node.name]

theorem Linked.of_searchByName (h : s.Linked N) (hf : s.searchByName N p name = some n) :
    ∃ nd, s.node n = some nd ∧ nd.parentDcb = p ∧ n ≠ s.root ∧ Same N name nd.name := by
  obtain ⟨nd, hn, hp, hsame⟩ := isChild_iff.mp (List.find?_some hf)
  obtain ⟨_, _, _, hne⟩ := (h.chains _ n).mp (List.mem_of_find?_eq_some hf)
  exact ⟨nd, hn, hp, hne, hsame⟩

/-- `NodeSearchByName` finds the child with the name, and there is one at most. -/
theorem Inv.searchByName_iff (h : s.Inv N) : s.searchByName N p name = some n ↔
    ∃ nd, s.node n = some nd ∧ nd.parentDcb = p ∧ n ≠ s.root ∧ Same N name nd.name := by
  constructor
  · exact h.of_searchByName
  · rintro ⟨nd, hn, hp, hne, hsame⟩
    have hmem : n ∈ s.chains (childBucket N p name) := by
      refine (h.chains _ n).mpr ⟨nd, hn, ?_, hne⟩
      rw [Node.bucket, hp, childBucket_congr hsame p]
      rfl
    have hsome : (s.searchByName N p name).isSome := List.find?_isSome.mpr ⟨n, hmem, isChild_iff.mpr ⟨nd, hn, hp, hsame⟩⟩
    obtain ⟨m, hm⟩ := Option.isSome_iff_exists.mp hsome
    obtain ⟨md, hmd, hmp, hms⟩ := isChild_iff.mp (List.find?_some hm)
    obtain ⟨_, _, _, hmne⟩ := (h.chains _ m).mp (List.mem_of_find?_eq_some hm)
    rw [hm, h.unique m n md nd hmd hn hmne hne (hmp.trans hp.symm) (hms.symm.trans hsame)]

/-- It is what a scan of the children would find. -/
theorem Inv.searchByName_eq (h : s.Inv N) : s.searchByName N p name = s.scanByName N p name := by
  have hscan : ∀ n, s.scanByName N p name = some n → s.searchByName N p name = some n := by
    intro n hf
    obtain ⟨nd, hn, hp, hne⟩ := (h.children p n).mp (List.mem_of_find?_eq_some hf)
    have hsame := List.find?_some hf
    rw [hn] at hsame
    exact h.searchByName_iff.mpr ⟨nd, hn, hp, hne, by simpa [Node.name] using hsame⟩
  cases hs : s.scanByName N p name with
  | some n => exact hscan n hs
  | none =>
    cases hf : s.searchByName N p name with
    | none => rfl
    | some n =>
      obtain ⟨nd, hn, hp, hne, hsame⟩ := h.searchByName_iff.mp hf
      have hnone := List.find?_eq_none.mp hs n ((h.children p n).mpr ⟨nd, hn, hp, hne⟩)
      rw [hn] at hnone
      exact absurd (by simpa [Node.name] using hsame) hnone

theorem Inv.searchByName_none (h : s.Inv N) (hs : s.searchByName N p name = none) (hn : s.node n = some nd) (hp : nd.parentDcb = p)
    (hne : n ≠ s.root) : ¬ Same N name nd.name := by
  intro hsame
  rw [h.searchByName_iff.mpr ⟨nd, hn, hp, hne, hsame⟩] at hs
  cases hs

/-! ### A new node -/

theorem link_node (m : ℕ) : (s.link N n nd).node m = if m = n then some nd else s.node m := Function.update_apply ..

theorem link_children (q : ℕ) : (s.link N n nd).children q = if q = nd.parentDcb then s.children nd.parentDcb ++ [n] else s.children q :=
  Function.update_apply ..

theorem link_chains (b : ℕ) : (s.link N n nd).chains b = if b = nd.bucket N then n :: s.chains (nd.bucket N) else s.chains b := Function.update_apply ..

theorem link_cases {md : Node} (h : (s.link N n nd).node m = some md) : (m = n ∧ md = nd) ∨ (m ≠ n ∧ s.node m = some md) := by
  rw [link_node] at h
  split_ifs at h with he
  · exact .inl ⟨he, (Option.some.inj h).symm⟩
  · exact .inr ⟨he, h⟩

theorem link_keeps {md : Node} (hn : s.node n = none) (hm : s.node m = some md) : (s.link N n nd).node m = some md := by
  rw [link_node, if_neg (fun he => by rw [he, hn] at hm; cases hm)]
  exact hm

theorem Linked.ne_root_of_none (h : s.Linked N) (hn : s.node n = none) : n ≠ s.root := by
  rintro rfl
  have hsome := h.root_isSome
  rw [hn] at hsome
  cases hsome

/-- A node is linked to a directory, under a path as long as it is deep. -/
theorem Linked.link (h : s.Linked N) (hn : s.node n = none) (hk : nd.kind ≠ .root) (hp : s.node nd.parentDcb = some pd) (hpk : pd.kind ≠ .fcb)
    (hd : Depth s nd.parentDcb k) (hlen : k + 1 ≤ nd.fullPath.length) : (s.link N n nd).Linked N := by
  have hroot := h.ne_root_of_none hn
  have hself : (s.link N n nd).node n = some nd := by rw [link_node, if_pos rfl]
  have hkeep : ∀ {m md}, s.node m = some md → (s.link N n nd).node m = some md := link_keeps hn
  have hdepth : ∀ {m k}, Depth s m k → Depth (s.link N n nd) m k := fun hm => hm.congr rfl fun m md hmd _ => ⟨md, hkeep hmd, rfl⟩
  have habsent : ∀ {l : List ℕ}, (∀ c ∈ l, (s.node c).isSome) → n ∉ l := fun hl hmem => by
    have hsome := hl n hmem
    rw [hn] at hsome
    cases hsome
  constructor
  · obtain ⟨rd, hr, hrk, hrp⟩ := h.root
    exact ⟨rd, hkeep hr, hrk, hrp⟩
  · intro m md hm hne
    rcases link_cases hm with ⟨rfl, rfl⟩ | ⟨_, hm⟩
    · exact hk
    · exact h.kinds m md hm hne
  · intro m md hm hne
    rcases link_cases hm with ⟨rfl, rfl⟩ | ⟨_, hm⟩
    · exact ⟨pd, hkeep hp, hpk⟩
    · obtain ⟨qd, hq, hqk⟩ := h.placed m md hm hne
      exact ⟨qd, hkeep hq, hqk⟩
  · intro m md hm
    rcases link_cases hm with ⟨rfl, rfl⟩ | ⟨_, hm⟩
    · exact ⟨k + 1, .child hself hroot (hdepth hd), hlen⟩
    · obtain ⟨k', hd', hle⟩ := h.deep m md hm
      exact ⟨k', hdepth hd', hle⟩
  · intro q c
    have hold : c ∈ s.children q → ∃ md, (s.link N n nd).node c = some md ∧ md.parentDcb = q ∧ c ≠ s.root := by
      intro hc
      obtain ⟨md, hm, hmp, hne⟩ := (h.children q c).mp hc
      exact ⟨md, hkeep hm, hmp, hne⟩
    rw [link_children]
    constructor
    · intro hc
      split_ifs at hc with hq
      · rcases List.mem_append.mp hc with hc | hc
        · exact hold (hq ▸ hc)
        · rw [List.mem_singleton.mp hc]
          exact ⟨nd, hself, hq.symm, hroot⟩
      · exact hold hc
    · rintro ⟨md, hm, rfl, hne⟩
      rcases link_cases hm with ⟨rfl, rfl⟩ | ⟨_, hm⟩
      · rw [if_pos rfl]
        exact List.mem_append_right _ List.mem_cons_self
      · have hc := (h.children md.parentDcb c).mpr ⟨md, hm, rfl, hne⟩
        split_ifs with hq
        · rw [← hq]
          exact List.mem_append_left _ hc
        · exact hc
  · intro b c
    have hold : c ∈ s.chains b → ∃ md, (s.link N n nd).node c = some md ∧ md.bucket N = b ∧ c ≠ s.root := by
      intro hc
      obtain ⟨md, hm, hmp, hne⟩ := (h.chains b c).mp hc
      exact ⟨md, hkeep hm, hmp, hne⟩
    rw [link_chains]
    constructor
    · intro hc
      split_ifs at hc with hb
      · rcases List.mem_cons.mp hc with rfl | hc
        · exact ⟨nd, hself, hb.symm, hroot⟩
        · exact hold (hb ▸ hc)
      · exact hold hc
    · rintro ⟨md, hm, rfl, hne⟩
      rcases link_cases hm with ⟨rfl, rfl⟩ | ⟨_, hm⟩
      · rw [if_pos rfl]
        exact List.mem_cons_self
      · have hc := (h.chains (md.bucket N) c).mpr ⟨md, hm, rfl, hne⟩
        split_ifs with hb
        · rw [← hb]
          exact List.mem_cons_of_mem _ hc
        · exact hc
  · intro b m hm
    obtain ⟨md, hmd, hmb, hne⟩ := h.table b m hm
    exact ⟨md, hkeep hmd, hmb, hne⟩
  · intro q
    rw [link_children]
    split_ifs with hq
    · refine List.nodup_append.mpr ⟨h.nodupChildren _, List.nodup_singleton n, fun a ha b hb hab => ?_⟩
      refine habsent (fun c hc => ?_) (List.mem_singleton.mp hb ▸ hab ▸ ha)
      obtain ⟨md, hm, _⟩ := (h.children _ c).mp hc
      rw [hm]
      rfl
    · exact h.nodupChildren q
  · intro b
    rw [link_chains]
    split_ifs with hb
    · refine List.nodup_cons.mpr ⟨habsent fun c hc => ?_, h.nodupChains _⟩
      obtain ⟨md, hm, _⟩ := (h.chains _ c).mp hc
      rw [hm]
      rfl
    · exact h.nodupChains b
  · exact h.nodupTable

/-- The name is new in the directory. -/
theorem Inv.link (h : s.Inv N) (hl : (s.link N n nd).Linked N) (hn : s.node n = none) (hp : s.node nd.parentDcb = some pd) (hnamed : Named N pd nd)
    (hnew : s.searchByName N nd.parentDcb nd.name = none) : (s.link N n nd).Inv N := by
  refine { hl with named := ?_, unique := ?_ }
  · intro m md qd hm hne hq
    have hback : ∀ {p}, (s.node p).isSome → (s.link N n nd).node p = some qd → s.node p = some qd := by
      intro p hsome hp
      rcases link_cases hp with ⟨rfl, _⟩ | ⟨_, hp⟩
      · rw [hn] at hsome
        cases hsome
      · exact hp
    rcases link_cases hm with ⟨rfl, rfl⟩ | ⟨_, hm⟩
    · have hqd := hback (by rw [hp]; rfl) hq
      rw [hp] at hqd
      exact Option.some.inj hqd ▸ hnamed
    · obtain ⟨rd, hr, _⟩ := h.placed m md hm hne
      exact h.named m md qd hm hne (hback (by rw [hr]; rfl) hq)
  · intro c c' cd cd' hc hc' hne hne' hpp hsame
    rcases link_cases hc with ⟨rfl, rfl⟩ | ⟨_, hold⟩
    · rcases link_cases hc' with ⟨rfl, rfl⟩ | ⟨_, hold'⟩
      · rfl
      · exact absurd hsame (h.searchByName_none hnew hold' hpp.symm hne')
    · rcases link_cases hc' with ⟨rfl, rfl⟩ | ⟨_, hold'⟩
      · exact absurd hsame.symm (h.searchByName_none hnew hold hpp hne)
      · exact h.unique c c' cd cd' hold hold' hne hne' hpp hsame

/-! ### A node is freed -/

theorem freeFileContext_node (hn : s.node n = some nd) (m : ℕ) : (s.freeFileContext N n).node m = if m = n then none else s.node m := by
  simp only [freeFileContext, hn, Function.update_apply]

theorem freeFileContext_back {md : Node} (hn : s.node n = some nd) (hm : (s.freeFileContext N n).node m = some md) : m ≠ n ∧ s.node m = some md := by
  rw [freeFileContext_node hn] at hm
  split_ifs at hm with he
  exact ⟨he, hm⟩

theorem freeFileContext_children (hn : s.node n = some nd) (q : ℕ) :
    (s.freeFileContext N n).children q = if q = nd.parentDcb then (s.children nd.parentDcb).erase n else s.children q := by
  simp only [freeFileContext, hn, Function.update_apply]

theorem freeFileContext_chains (hn : s.node n = some nd) (b : ℕ) :
    (s.freeFileContext N n).chains b = if b = nd.bucket N then (s.chains (nd.bucket N)).erase n else s.chains b := by
  simp only [freeFileContext, hn, childUnlink, Function.update_apply]

theorem freeFileContext_table : (s.freeFileContext N n).table = s.table := by
  unfold freeFileContext
  split <;> rfl

theorem freeFileContext_root : (s.freeFileContext N n).root = s.root := by
  unfold freeFileContext
  split <;> rfl

/-- A node without children that is not in the table. -/
theorem Linked.freeFileContext (h : s.Linked N) (hn : s.node n = some nd) (hroot : n ≠ s.root) (hempty : s.children n = [])
    (htable : ∀ b, n ∉ s.table b) : (s.freeFileContext N n).Linked N := by
  have hother : ∀ {m md}, (s.freeFileContext N n).node m = some md → m ≠ n ∧ s.node m = some md := freeFileContext_back hn
  have hkeep : ∀ {m md}, m ≠ n → s.node m = some md → (s.freeFileContext N n).node m = some md := by
    intro m md hne hm
    rw [freeFileContext_node hn, if_neg hne]
    exact hm
  have hparent : ∀ {m md}, s.node m = some md → m ≠ s.root → md.parentDcb ≠ n := by
    intro m md hm hne he
    have hmem := (h.children n m).mpr ⟨md, hm, he, hne⟩
    rw [hempty] at hmem
    cases hmem
  have hdepth : ∀ {m k}, Depth s m k → m ≠ n → Depth (s.freeFileContext N n) m k := by
    intro m k hd
    induction hd with
    | root =>
      intro _
      rw [← freeFileContext_root (N := N) (n := n)]
      exact .root
    | child hm hne _ ih =>
      intro hmn
      exact .child (hkeep hmn hm) (by rw [freeFileContext_root]; exact hne) (ih (hparent hm hne))
  have hlist : ∀ (l : List ℕ) (P : ℕ → Prop), l.Nodup → (∀ c, c ∈ l ↔ P c) → ∀ c, c ∈ l.erase n ↔ P c ∧ c ≠ n := by
    intro l P hl hP c
    rw [hl.mem_erase_iff, hP]
    exact and_comm
  constructor
  · obtain ⟨rd, hr, hrk, hrp⟩ := h.root
    exact ⟨rd, by rw [freeFileContext_root]; exact hkeep (Ne.symm hroot) hr, hrk, hrp⟩
  · intro m md hm hne
    rw [freeFileContext_root] at hne
    exact h.kinds m md (hother hm).2 hne
  · intro m md hm hne
    rw [freeFileContext_root] at hne
    obtain ⟨_, hm⟩ := hother hm
    obtain ⟨qd, hq, hqk⟩ := h.placed m md hm hne
    exact ⟨qd, hkeep (hparent hm hne) hq, hqk⟩
  · intro m md hm
    obtain ⟨hmn, hm⟩ := hother hm
    obtain ⟨k, hd, hle⟩ := h.deep m md hm
    exact ⟨k, hdepth hd hmn, hle⟩
  · intro q c
    rw [freeFileContext_children hn, freeFileContext_root]
    constructor
    · intro hc
      have hc' : c ∈ s.children q ∧ c ≠ n := by
        split_ifs at hc with hq
        · rw [hq]
          exact (hlist _ (· ∈ s.children nd.parentDcb) (h.nodupChildren _) (fun _ => Iff.rfl) c).mp hc
        · refine ⟨hc, fun he => hq ?_⟩
          obtain ⟨md, hm, hmp, _⟩ := (h.children q c).mp hc
          rw [he, hn] at hm
          rw [Option.some.inj hm, hmp]
      obtain ⟨md, hm, hmp, hne⟩ := (h.children q c).mp hc'.1
      exact ⟨md, hkeep hc'.2 hm, hmp, hne⟩
    · rintro ⟨md, hm, hmp, hne⟩
      obtain ⟨hcn, hm⟩ := hother hm
      have hc := (h.children q c).mpr ⟨md, hm, hmp, hne⟩
      split_ifs with hq
      · exact (hlist _ (· ∈ s.children nd.parentDcb) (h.nodupChildren _) (fun _ => Iff.rfl) c).mpr ⟨hq ▸ hc, hcn⟩
      · exact hc
  · intro b c
    rw [freeFileContext_chains hn, freeFileContext_root]
    constructor
    · intro hc
      have hc' : c ∈ s.chains b ∧ c ≠ n := by
        split_ifs at hc with hb
        · rw [hb]
          exact (hlist _ (· ∈ s.chains (nd.bucket N)) (h.nodupChains _) (fun _ => Iff.rfl) c).mp hc
        · refine ⟨hc, fun he => hb ?_⟩
          obtain ⟨md, hm, hmb, _⟩ := (h.chains b c).mp hc
          rw [he, hn] at hm
          rw [Option.some.inj hm, hmb]
      obtain ⟨md, hm, hmb, hne⟩ := (h.chains b c).mp hc'.1
      exact ⟨md, hkeep hc'.2 hm, hmb, hne⟩
    · rintro ⟨md, hm, hmb, hne⟩
      obtain ⟨hcn, hm⟩ := hother hm
      have hc := (h.chains b c).mpr ⟨md, hm, hmb, hne⟩
      split_ifs with hb
      · exact (hlist _ (· ∈ s.chains (nd.bucket N)) (h.nodupChains _) (fun _ => Iff.rfl) c).mpr ⟨hb ▸ hc, hcn⟩
      · exact hc
  · intro b m hm
    rw [freeFileContext_table] at hm
    rw [freeFileContext_root]
    obtain ⟨md, hmd, hmb, hne⟩ := h.table b m hm
    exact ⟨md, hkeep (fun he => htable b (he ▸ hm)) hmd, hmb, hne⟩
  · intro q
    rw [freeFileContext_children hn]
    split_ifs
    · exact (h.nodupChildren _).erase n
    · exact h.nodupChildren q
  · intro b
    rw [freeFileContext_chains hn]
    split_ifs
    · exact (h.nodupChains _).erase n
    · exact h.nodupChains b
  · rw [freeFileContext_table]
    exact h.nodupTable

theorem Inv.freeFileContext (h : s.Inv N) (hl : (s.freeFileContext N n).Linked N) (hn : s.node n = some nd) : (s.freeFileContext N n).Inv N := by
  refine { hl with named := ?_, unique := ?_ }
  · intro m md pd hm hne hp
    rw [freeFileContext_root] at hne
    exact h.named m md pd (freeFileContext_back hn hm).2 hne (freeFileContext_back hn hp).2
  · intro c c' cd cd' hc hc' hne hne'
    rw [freeFileContext_root] at hne hne'
    exact h.unique c c' cd cd' (freeFileContext_back hn hc).2 (freeFileContext_back hn hc').2 hne hne'

end State

end BlorgFS.Tree
