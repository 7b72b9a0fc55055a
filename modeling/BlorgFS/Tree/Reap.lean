import BlorgFS.Tree.Invariant

/-! The walk over empty ancestors, `BlorgReapEmptyAncestorDcbs`: it takes out directories that
nobody uses, each with nothing in it but the one taken out before, and leaves all else as it
is. -/

namespace BlorgFS.Tree

open Lib PathCache

variable {N : Names} {s s' : State} {n m p d k : ℕ} {nd nd' pd : Node} {trail : ℕ → Prop} {retired : List ℕ}

/-- Without handles, pins or a claim of the reap worker. -/
def Node.Idle (nd : Node) : Prop := nd.refCount = 0 ∧ nd.pinCount = 0 ∧ nd.onReapList = false

instance (nd : Node) : Decidable nd.Idle := inferInstanceAs (Decidable (_ ∧ _))

namespace State

/-- Nothing is left of the node. -/
def without (N : Names) (s : State) (n : ℕ) (nd : Node) : State :=
  { s with
    node := Function.update s.node n none
    children := Function.update s.children nd.parentDcb ((s.children nd.parentDcb).erase n)
    chains := Function.update s.chains (nd.bucket N) ((s.chains (nd.bucket N)).erase n)
    table := Function.update s.table (tableBucket N nd.fullPath) ((s.table (tableBucket N nd.fullPath)).erase n) }

theorem tryRetire_of_not_idle (hn : s.node n = some nd) (hi : ¬ nd.Idle) : s.tryRetire N n = none := by
  rw [tryRetire, hn, Option.bind_some]
  exact if_neg hi

/-- A node that is retired and freed is gone. -/
theorem tryRetire_of_idle (hn : s.node n = some nd) (hi : nd.Idle) :
    ∃ s₁, s.tryRetire N n = some s₁ ∧ s₁.freeFileContext N n = s.without N n nd := by
  refine ⟨{ s with
    node := Function.update s.node n (some { nd with onReapList := true })
    table := Function.update s.table (tableBucket N nd.fullPath) ((s.table (tableBucket N nd.fullPath)).erase n) }, ?_, ?_⟩
  · rw [tryRetire, hn, Option.bind_some]
    exact if_pos hi
  · simp only [freeFileContext, Function.update_self, Function.update_idem]
    rfl

theorem Linked.without (h : s.Linked N) (hn : s.node n = some nd) (hroot : n ≠ s.root) (hempty : s.children n = []) : (s.without N n nd).Linked N := by
  obtain ⟨table, htable⟩ : ∃ table, table = Function.update s.table (tableBucket N nd.fullPath) ((s.table (tableBucket N nd.fullPath)).erase n) := ⟨_, rfl⟩
  have hget : ∀ b, table b = if b = tableBucket N nd.fullPath then (s.table (tableBucket N nd.fullPath)).erase n else s.table b := fun b => by
    rw [htable, Function.update_apply]
  have hmem : ∀ b m, m ∈ table b ↔ m ∈ s.table b ∧ m ≠ n := by
    intro b m
    rw [hget]
    split_ifs with hb
    · rw [(h.nodupTable _).mem_erase_iff, hb]
      exact and_comm
    · refine ⟨fun hm => ⟨hm, fun he => hb ?_⟩, fun hm => hm.1⟩
      obtain ⟨md, hmd, hmb, _⟩ := h.table b m hm
      rw [he, hn] at hmd
      rw [Option.some.inj hmd, hmb]
  have hinv : { s with table }.Linked N := by
    refine h.congr ⟨rfl, fun _ => rfl⟩ rfl rfl (fun b m hm => h.table b m ((hmem b m).mp hm).1) fun b => ?_
    show (table b).Nodup
    rw [hget]
    split_ifs
    · exact (h.nodupTable _).erase n
    · exact h.nodupTable b
  have hfree : { s with table }.freeFileContext N n = s.without N n nd := by
    rw [htable]
    simp only [State.freeFileContext, hn]
    rfl
  rw [← hfree]
  exact hinv.freeFileContext hn hroot hempty fun b hm => ((hmem b n).mp hm).2 rfl

theorem without_node_of_ne (h : m ≠ n) : (s.without N n nd).node m = s.node m := Function.update_of_ne h ..

theorem without_back {md : Node} (hm : (s.without N n nd).node m = some md) : m ≠ n ∧ s.node m = some md := by
  rw [show (s.without N n nd).node m = if m = n then none else s.node m from Function.update_apply ..] at hm
  split_ifs at hm with he
  exact ⟨he, hm⟩

theorem Inv.without (h : s.Inv N) (hl : (s.without N n nd).Linked N) : (s.without N n nd).Inv N := by
  refine { hl with named := ?_, unique := ?_ }
  · intro m md pd hm hne hp
    exact h.named m md pd (without_back hm).2 hne (without_back hp).2
  · intro c c' cd cd' hc hc' hne hne'
    exact h.unique c c' cd cd' (without_back hc).2 (without_back hc').2 hne hne'

/-- The directory a node is in is another, not as deep. -/
theorem Linked.parent (h : s.Linked N) (hn : s.node n = some nd) (hroot : n ≠ s.root) (hd : Depth s n k) :
    ∃ pd k', s.node nd.parentDcb = some pd ∧ pd.kind ≠ .fcb ∧ nd.parentDcb ≠ n ∧ Depth s nd.parentDcb k' ∧ k = k' + 1 := by
  obtain ⟨pd, hp, hk⟩ := h.placed n nd hn hroot
  cases hd with
  | root => exact absurd rfl hroot
  | child hn' _ hd' =>
    rw [hn] at hn'
    obtain rfl := Option.some.inj hn'
    refine ⟨pd, _, hp, hk, fun he => ?_, hd', rfl⟩
    have hself := Depth.child hn hroot hd'
    rw [he] at hd'
    have heq := hself.unique hd'
    omega

/-- What is left is as deep as before. -/
theorem Linked.depth_without (h : s.Linked N) (hempty : s.children n = []) (hd : Depth s m k) (hm : m ≠ n) :
    Depth (s.without N n nd) m k := by
  induction hd with
  | root => exact .root (s := s.without N n nd)
  | child hc hne _ ih =>
    refine .child (by rw [without_node_of_ne hm]; exact hc) hne (ih fun he => ?_)
    have hmem := (h.children n _).mpr ⟨_, hc, he, hne⟩
    rw [hempty] at hmem
    cases hmem

/-! ### The loop has rounds enough -/

theorem reapFrom_step (fuel : ℕ) (hd : s.node d = some nd) : reapFrom N (fuel + 1) s d =
    if nd.kind = .dcb ∧ s.children d = [] ∧ nd.Idle then reapFrom N fuel (s.without N d nd) nd.parentDcb else s := by
  rw [reapFrom, hd]
  simp only
  by_cases hi : nd.Idle
  · obtain ⟨s₁, h₁, hfree⟩ := tryRetire_of_idle (N := N) hd hi
    rw [h₁]
    simp only [hfree, hi, and_true]
  · rw [tryRetire_of_not_idle hd hi]
    simp only [hi, and_false, if_false, ite_self]

theorem reapFrom_fuel (fuel : ℕ) : ∀ {s : State} {d k nd}, s.Linked N → s.node d = some nd → Depth s d k → k ≤ fuel →
    reapFrom N (fuel + 1) s d = reapFrom N fuel s d := by
  induction fuel with
  | zero =>
    intro s d k nd h hn hd hlen
    rw [reapFrom_step 0 hn]
    refine if_neg fun hc => ?_
    obtain ⟨pd, k', _, _, _, _, hk⟩ := h.parent hn (h.ne_root_of_kind hn (by rw [hc.1]; nofun)) hd
    omega
  | succ fuel ih =>
    intro s d k nd h hn hd hlen
    rw [reapFrom_step _ hn, reapFrom_step _ hn]
    split_ifs with hc
    · have hroot := h.ne_root_of_kind hn (by rw [hc.1]; nofun)
      obtain ⟨pd, k', hp, _, hne, hd', rfl⟩ := h.parent hn hroot hd
      exact ih (h.without hn hroot hc.2.1) (by rw [without_node_of_ne hne]; exact hp) (h.depth_without hc.2.1 hd' hne) (by omega)
    · rfl

theorem reapFrom_add (j : ℕ) {fuel : ℕ} (h : s.Linked N) (hn : s.node d = some nd) (hd : Depth s d k) (hlen : k ≤ fuel) :
    reapFrom N (fuel + j) s d = reapFrom N fuel s d := by
  induction j with
  | zero => rfl
  | succ j ih => rw [← ih, ← Nat.add_assoc, reapFrom_fuel (fuel + j) h hn hd (by omega)]

/-- One round of `BlorgReapEmptyAncestorDcbs`. -/
theorem Linked.reap_eq (h : s.Linked N) (hn : s.node d = some nd) : s.reapEmptyAncestorDcbs N d =
    if nd.kind = .dcb ∧ s.children d = [] ∧ nd.Idle then (s.without N d nd).reapEmptyAncestorDcbs N nd.parentDcb else s := by
  obtain ⟨k, hd, hle⟩ := h.deep d nd hn
  have hfuel : s.reapEmptyAncestorDcbs N d = reapFrom N (nd.fullPath.length + 1) s d := by
    rw [reapEmptyAncestorDcbs, hn]
    exact (reapFrom_fuel _ h hn hd hle).symm
  rw [hfuel, reapFrom_step _ hn]
  split_ifs with hc
  · have hroot := h.ne_root_of_kind hn (by rw [hc.1]; nofun)
    obtain ⟨pd, k', hp, _, hne, hd', rfl⟩ := h.parent hn hroot hd
    have hp' : (s.without N d nd).node nd.parentDcb = some pd := by rw [without_node_of_ne hne]; exact hp
    have hl := h.without hn hroot hc.2.1
    have hdepth : Depth (s.without N d nd) nd.parentDcb k' := h.depth_without hc.2.1 hd' hne
    obtain ⟨k'', hd'', hle'⟩ := hl.deep _ pd hp'
    have hk := hdepth.unique hd''
    have hleft : reapFrom N (nd.fullPath.length + pd.fullPath.length) (s.without N d nd) nd.parentDcb =
        reapFrom N nd.fullPath.length (s.without N d nd) nd.parentDcb := reapFrom_add _ hl hp' hdepth (by omega)
    have hright : reapFrom N (pd.fullPath.length + nd.fullPath.length) (s.without N d nd) nd.parentDcb =
        reapFrom N pd.fullPath.length (s.without N d nd) nd.parentDcb := reapFrom_add _ hl hp' hdepth (by omega)
    rw [reapEmptyAncestorDcbs, hp', Option.elim_some, ← hleft, ← hright, Nat.add_comm]
  · rfl

/-! ### What it takes out -/

end State

/-- From `s` the directories `retired` have been taken out, and nothing else has changed. Each
is one of `trail`, was idle, and had nothing in it but others of them. -/
structure Pruned (trail : ℕ → Prop) (s s' : State) (retired : List ℕ) : Prop where
  root : s'.root = s.root
  node : ∀ n, s'.node n = if n ∈ retired then none else s.node n
  children : ∀ p, s'.children p = (s.children p).filter (· ∉ retired)
  chains : ∀ b, s'.chains b = (s.chains b).filter (· ∉ retired)
  table : ∀ b, s'.table b = (s.table b).filter (· ∉ retired)
  idle : ∀ d ∈ retired, trail d ∧ ∃ nd, s.node d = some nd ∧ nd.kind = .dcb ∧ nd.Idle ∧ ∀ c ∈ s.children d, c ∈ retired

theorem Pruned.refl (trail : ℕ → Prop) (s : State) : Pruned trail s s [] where
  root := rfl
  node _ := rfl
  children _ := by simp
  chains _ := by simp
  table _ := by simp
  idle := nofun

namespace State

theorem filter_update_erase {f : ℕ → List ℕ} {b : ℕ} (hnodup : ∀ b, (f b).Nodup) (honly : ∀ b', n ∈ f b' → b' = b) (b' : ℕ) :
    Function.update f b ((f b).erase n) b' = (f b').filter (· ∉ [n]) := by
  have herase : (f b').filter (· ∉ [n]) = (f b').erase n := by
    rw [(hnodup b').erase_eq_filter]
    congr 1
    funext x
    by_cases hx : x = n <;> simp [hx]
  rw [herase]
  by_cases hb : b' = b
  · rw [hb, Function.update_self]
  · rw [Function.update_of_ne hb, List.erase_of_not_mem fun hm => hb (honly b' hm)]

/-- One directory is taken out, then more. -/
theorem Linked.pruned_without (h : s.Linked N) (hd : s.node d = some nd) (hk : nd.kind = .dcb) (hempty : s.children d = []) (hi : nd.Idle)
    (hpath : trail d) (hp : Pruned trail (s.without N d nd) s' retired) : Pruned trail s s' (d :: retired) := by
  have hfilter : ∀ l : List ℕ, (l.filter (· ∉ [d])).filter (· ∉ retired) = l.filter (· ∉ d :: retired) := by
    intro l
    rw [List.filter_filter]
    congr 1
    funext x
    by_cases hx : x = d <;> simp [hx]
  constructor
  · exact hp.root
  · intro n
    rw [hp.node]
    by_cases hn : n = d
    · rw [hn, if_pos List.mem_cons_self]
      split_ifs
      · rfl
      · exact Function.update_self ..
    · rw [without_node_of_ne hn]
      simp only [List.mem_cons, hn, false_or]
  · intro p
    rw [hp.children, ← hfilter]
    congr 1
    refine filter_update_erase h.nodupChildren (fun b hb => ?_) p
    obtain ⟨md, hm, hmp, _⟩ := (h.children b d).mp hb
    rw [hd] at hm
    rw [Option.some.inj hm, hmp]
  · intro b
    rw [hp.chains, ← hfilter]
    congr 1
    refine filter_update_erase h.nodupChains (fun b hb => ?_) b
    obtain ⟨md, hm, hmb, _⟩ := (h.chains b d).mp hb
    rw [hd] at hm
    rw [Option.some.inj hm, hmb]
  · intro b
    rw [hp.table, ← hfilter]
    congr 1
    refine filter_update_erase h.nodupTable (fun b hb => ?_) b
    obtain ⟨md, hm, hmb, _⟩ := h.table b d hb
    rw [hd] at hm
    rw [Option.some.inj hm, hmb]
  · intro e he
    by_cases hed : e = d
    · rw [hed]
      refine ⟨hpath, nd, hd, hk, hi, fun c hc => ?_⟩
      rw [hempty] at hc
      cases hc
    · obtain ⟨het, ed, hne, hek, hei, hec⟩ := hp.idle e ((List.mem_cons.mp he).resolve_left hed)
      rw [without_node_of_ne hed] at hne
      refine ⟨het, ed, hne, hek, hei, fun c hc => ?_⟩
      by_cases hcd : c = d
      · rw [hcd]
        exact List.mem_cons_self
      · refine List.mem_cons_of_mem _ (hec c ?_)
        rw [show (s.without N d nd).children e = if e = nd.parentDcb then (s.children nd.parentDcb).erase d else s.children e from Function.update_apply ..]
        split_ifs with hpar
        · exact (List.mem_erase_of_ne hcd).mpr (hpar ▸ hc)
        · exact hc

/-- The directories of a trail are in one another up to the root. -/
def Trail (s : State) (trail : ℕ → Prop) : Prop := ∀ d nd, trail d → s.node d = some nd → d ≠ s.root → trail nd.parentDcb

/-- The walk takes out idle directories of a trail, and the tree stays one. -/
theorem Linked.reap (h : s.Linked N) (hn : s.node d = some nd) (htrail : Trail s trail) (hmem : trail d) :
    (s.reapEmptyAncestorDcbs N d).Linked N ∧ (s.Inv N → (s.reapEmptyAncestorDcbs N d).Inv N) ∧
      ∃ retired, Pruned trail s (s.reapEmptyAncestorDcbs N d) retired := by
  obtain ⟨k, hd, -⟩ := h.deep d nd hn
  induction k generalizing s d nd with
  | zero =>
    rw [h.reap_eq hn, if_neg]
    · exact ⟨h, id, [], .refl trail s⟩
    · intro hc
      obtain ⟨_, _, _, _, _, _, hk⟩ := h.parent hn (h.ne_root_of_kind hn (by rw [hc.1]; nofun)) hd
      omega
  | succ k ih =>
    rw [h.reap_eq hn]
    split_ifs with hc
    · have hroot := h.ne_root_of_kind hn (by rw [hc.1]; nofun)
      obtain ⟨pd, k', hp, _, hpne, hd', hk⟩ := h.parent hn hroot hd
      obtain rfl : k = k' := by omega
      have hp' : (s.without N d nd).node nd.parentDcb = some pd := by rw [without_node_of_ne hpne]; exact hp
      have hl := h.without hn hroot hc.2.1
      have htrail' : Trail (s.without N d nd) trail := fun e ed he hed hne => htrail e ed he (without_back hed).2 hne
      obtain ⟨hl', hi', retired, hpruned⟩ := ih hl hp' htrail' (htrail d nd hmem hn hroot) (h.depth_without hc.2.1 hd' hpne)
      exact ⟨hl', fun hi => hi' (hi.without hl), d :: retired, h.pruned_without hn hc.1 hc.2.1 hc.2.2 hmem hpruned⟩
    · exact ⟨h, id, [], .refl trail s⟩

end State

end BlorgFS.Tree
