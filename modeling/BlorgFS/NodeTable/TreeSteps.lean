import BlorgFS.NodeTable.Retire

/-! The steps of the node table that walk or change the tree, all of them under the VCB
resource: the search and the insertion of a cold open, and freeing a node. -/

namespace BlorgFS.NodeTable.State

open Lib

variable {N : Type} {s s' : State N} {job : Job N} {rest new : List (Job N)} {ch : Choice} {n m d : ℕ} {nd : Node N}
variable {w : Walk} {hash : List N → ℕ}

/-! ### Walking the tree -/

theorem Inv.children_there (h : s.Inv (job :: rest)) : s.allThere (s.children d) = true := by
  rw [allThere, List.all_eq_true]
  intro m hm
  obtain ⟨nd, hnd, -⟩ := h.tree.linked d m hm
  rw [hnd]
  rfl

/-- Under the VCB resource, from one operation that holds no node to another. -/
theorem Inv.walkOn {job' : Job N} (h : s.Inv (job :: rest)) (hv : job.vcb = true) (hv' : job'.vcb = true)
    (hrefs : ∀ m, job.refs m = job'.refs m) (hpins : ∀ m, job.pins m = job'.pins m)
    (hclaims : job'.claimed = job.claimed) (hnodes : ∀ m ∈ job'.nodes, s.Member m) (howns : job'.owns = none)
    (hplaced : job'.Placed s) (hruns : job'.runs = job.runs) (hkicks : job.kicks = 0)
    (htended : ∀ m, s.Member m → s.Idle m → job'.tends m = 0 → job.tends m = 0) : s.Inv ([job'] ++ rest) := by
  apply h.move
  · intro m
    rw [tally_singleton, hrefs]
  · intro m
    rw [tally_singleton, hpins]
  · intro m
    rw [tally_singleton, Job.claims, Job.claims, hclaims]
  · intro m hm
    rw [tally_singleton, Job.mentions] at hm
    exact Or.inr ⟨hv, hnodes m (List.count_pos_iff.mp (Nat.pos_of_ne_zero hm))⟩
  · rw [tally_singleton, Job.vcbs, Job.vcbs, if_pos hv, if_pos hv']
    exact Or.inl (Nat.le_refl _)
  · intro j hj m hm
    rw [List.mem_singleton.mp hj, howns] at hm
    cases hm
  · intro j hj
    rw [List.mem_singleton.mp hj]
    exact hplaced
  · rw [tally_singleton, hruns]
  · exact Or.inl hkicks
  · intro m hm hi _ ht
    rw [tally_singleton] at ht
    exact htended m hm hi ht

theorem Inv.start_insert {cur : ℕ} {rest' path : List N} {dir : Bool} (h : s.Inv (.search cur rest' path dir :: rest)) :
    s.Inv ([.insert 0 [] path dir none] ++ rest) := by
  refine h.walkOn rfl rfl (fun _ => rfl) (fun _ => rfl) rfl (fun m hm => nomatch hm) rfl ?_ rfl rfl fun _ _ _ _ => rfl
  obtain ⟨nd, hnd, hk⟩ := h.tree.root
  exact ⟨⟨nd, hnd, by simp [hk]⟩, fun _ => ⟨rfl, rfl⟩, fun c hc => nomatch hc⟩

/-! ### Changing the tree -/

theorem placed_of_not_vcb (hv : job.vcb = false) : job.Placed s := by
  cases job with
  | search cur rest path dir => cases hv
  | insert cur walked rest dir last => cases hv
  | reap d k => cases hv
  | _ => trivial

/-- A step under the VCB resource that changes the tree and nothing else. -/
theorem Inv.replant (h : s.Inv (job :: rest)) (hv : job.vcb = true) (htree : s'.Tree)
    (hhandles : s'.handles = s.handles) (htable : s'.table = s.table) (hlist : s'.reapList = s.reapList)
    (hqueued : s'.queued = s.queued) (hdown : s'.shuttingDown = s.shuttingDown) (hsound : s'.misused = s.misused)
    (hrefs : ∀ m, s'.ref m + job.refs m = s.ref m + tally (Job.refs m) new)
    (hpins : ∀ m, s'.pin m + job.pins m = s.pin m + tally (Job.pins m) new)
    (hclaims : ∀ m, s'.claim m + job.claims m = s.claim m + tally (Job.claims m) new)
    (hmembers : ∀ m, s.stock m + (tally (Job.mentions m) new + tally (Job.mentions m) rest) ≠ 0 → s'.Member m)
    (hvcb : tally Job.vcbs new ≤ job.vcbs)
    (howned : ∀ j ∈ new, ∀ m, j.owns = some m → s'.Alone (new ++ rest) m)
    (hplaced : ∀ j ∈ new, j.Placed s') (hruns : tally Job.runs new = job.runs) (hkicks : job.kicks = 0)
    (htended : ∀ m, s'.Member m → s'.Idle m → s'.claim m = 0 → tally (Job.tends m) new = 0 →
      s.Member m ∧ s.Idle m ∧ s.claim m = 0 ∧ job.tends m = 0) : s'.Inv (new ++ rest) := by
  constructor
  · exact htree
  · intro m
    have h1 := h.refs m
    have h2 := hrefs m
    rw [tally_cons] at h1
    rw [tally_append, hhandles]
    push_cast at h1 ⊢
    omega
  · intro m
    have h1 := h.pins m
    have h2 := hpins m
    rw [tally_cons] at h1
    rw [tally_append]
    push_cast at h1 ⊢
    omega
  · intro m
    have h1 := h.claims m
    have h2 := hclaims m
    rw [tally_cons] at h1
    rw [tally_append, hlist]
    omega
  · intro m hm
    rw [tally_append, stock, hhandles, htable, hlist] at hm
    exact hmembers m hm
  · rw [htable]
    exact h.table
  · have := h.vcb
    rw [tally_cons] at this
    rw [tally_append]
    omega
  · intro j hj m hm
    rcases List.mem_append.mp hj with hj | hj
    · exact howned j hj m hm
    · have := Job.vcb_of_owns hm
      rw [h.no_vcb hv j hj] at this
      cases this
  · intro j hj
    rcases List.mem_append.mp hj with hj | hj
    · exact hplaced j hj
    · exact placed_of_not_vcb (h.no_vcb hv j hj)
  · have := h.runs
    rw [tally_cons] at this
    rw [tally_append, hqueued]
    omega
  · intro hne
    rw [hlist] at hne
    rw [tally_append, hqueued, hdown]
    rcases h.gate_rest hkicks (p := False) hne with hg | hg | hg | hg
    · exact Or.inl hg
    · exact Or.inr (Or.inl hg)
    · exact hg.elim
    · exact Or.inr (Or.inr (by omega))
  · intro m hm hi hc
    rw [tally_append]
    by_contra hz
    obtain ⟨h0, h1, h2, h3⟩ := htended m hm hi hc (by omega)
    have := h.tended m h0 h1 h2
    rw [tally_cons] at this
    omega
  · rw [hsound]
    exact h.sound

theorem children_of_none (ht : s.Tree) (hn : s.node n = none) : s.children n = [] := by
  by_contra hne
  obtain ⟨nd, hnd, -⟩ := ht.directory n hne
  rw [hn] at hnd
  cases hnd

theorem create_tree {kind : Kind} {path : List N} (ht : s.Tree) (hd : ∃ nd, s.node d = some nd ∧ nd.kind ≠ .fcb)
    (hk : kind ≠ .root) : (s.create hash kind path d).Tree := by
  have hnone : s.node s.allocated = none := ht.bound _ (Nat.le_refl _)
  have hold : ∀ {m nd}, s.node m = some nd → m ≠ s.allocated := by
    rintro m nd hm rfl
    rw [hnone] at hm
    cases hm
  have hnode : ∀ {m nd}, s.node m = some nd → (s.create hash kind path d).node m = some nd := by
    intro m nd hm
    simp [create, put, hold hm, hm]
  have hnew : (s.create hash kind path d).node s.allocated = some ⟨kind, path, d, 0, 0, false, hash path⟩ := by
    simp [create, put]
  have hback : ∀ {m nd}, (s.create hash kind path d).node m = some nd → m ≠ s.allocated → s.node m = some nd := by
    intro m nd hm hne
    simpa [create, put, hne] using hm
  have hchildren : ∀ x, (s.create hash kind path d).children x =
      if x = d then s.children d ++ [s.allocated] else s.children x := by
    intro x
    simp [create, Function.update_apply]
  constructor
  · obtain ⟨nd, hnd, hr⟩ := ht.root
    exact ⟨nd, hnode hnd, hr⟩
  · intro m nd hm hr
    by_cases hne : m = s.allocated
    · subst hne
      rw [hnew] at hm
      cases hm
      exact absurd hr hk
    · exact ht.onlyRoot m nd (hback hm hne) hr
  · intro m hm
    change s.allocated + 1 ≤ m at hm
    have : m ≠ s.allocated := by omega
    simpa [create, put, this] using ht.bound m (by omega)
  · intro x m hm
    have hlinked : m ∈ s.children x → ∃ nd, (s.create hash kind path d).node m = some nd ∧ nd.kind ≠ .root ∧ nd.parentDcb = x := by
      intro hm
      obtain ⟨nd, hnd, h1, h2⟩ := ht.linked x m hm
      exact ⟨nd, hnode hnd, h1, h2⟩
    rw [hchildren] at hm
    split_ifs at hm with hx
    · subst hx
      rcases List.mem_append.mp hm with hm | hm
      · exact hlinked hm
      · rw [List.mem_singleton.mp hm]
        exact ⟨_, hnew, hk, rfl⟩
    · exact hlinked hm
  · intro m nd hm hr
    rw [hchildren]
    by_cases hne : m = s.allocated
    · subst hne
      rw [hnew] at hm
      cases hm
      simp
    · have := ht.parent m nd (hback hm hne) hr
      split_ifs with hx
      · rw [← hx]
        exact List.mem_append_left _ this
      · exact this
  · intro x hx
    by_cases hxd : x = d
    · subst hxd
      obtain ⟨nd, hnd, hf⟩ := hd
      exact ⟨nd, hnode hnd, hf⟩
    · rw [hchildren, if_neg hxd] at hx
      obtain ⟨nd, hnd, hf⟩ := ht.directory x hx
      exact ⟨nd, hnode hnd, hf⟩
  · intro x
    rw [hchildren]
    split_ifs with hx
    · refine List.nodup_append.mpr ⟨ht.nodup d, List.nodup_singleton _, ?_⟩
      intro a ha b hb heq
      rw [List.mem_singleton.mp hb] at heq
      obtain ⟨nd, hnd, -⟩ := ht.linked d a ha
      exact hold hnd heq
    · exact ht.nodup x
  · intro m
    show s.frees m = if m < s.allocated + 1 ∧ (s.create hash kind path d).node m = none then 1 else 0
    rw [ht.frees m]
    by_cases hne : m = s.allocated
    · subst hne
      simp [hnew]
    · have h1 : (s.create hash kind path d).node m = s.node m := by simp [create, put, hne]
      have h2 : m < s.allocated + 1 ↔ m < s.allocated := by omega
      simp only [h1, h2]

/-- A node is inserted below `d`, and the operation that inserted it looks after it. -/
theorem Inv.onCreate {kind : Kind} {path : List N} {job' : Job N} (h : s.Inv (job :: rest)) (hv : job.vcb = true)
    (hd : ∃ nd, s.node d = some nd ∧ nd.kind ≠ .fcb) (hk : kind ≠ .root)
    (hrefs : ∀ m, job'.refs m = job.refs m) (hpins : ∀ m, job'.pins m = job.pins m)
    (hclaims : job'.claimed = job.claimed) (hnodes : ∀ m ∈ job'.nodes, m = s.allocated)
    (hlone : job'.mentions s.allocated ≤ 1) (howns : ∀ m, job'.owns = some m → m = s.allocated)
    (hvcb : job'.vcb = true) (hplaced : job'.Placed (s.create hash kind path d)) (hruns : job'.runs = job.runs)
    (hkicks : job.kicks = 0) (htends : job'.tends s.allocated = 1)
    (hjob : ∀ m, d ≠ m → job.tends m = 0) : (s.create hash kind path d).Inv ([job'] ++ rest) := by
  have hnone : s.node s.allocated = none := h.tree.bound _ (Nat.le_refl _)
  have hold : ∀ {m}, s.Member m → m ≠ s.allocated := by
    rintro m ⟨nd, hnd, -⟩ rfl
    rw [hnone] at hnd
    cases hnd
  have hnode : ∀ m, m ≠ s.allocated → (s.create hash kind path d).node m = s.node m := by
    intro m hm
    simp [create, put, hm]
  have hnew : (s.create hash kind path d).node s.allocated = some ⟨kind, path, d, 0, 0, false, hash path⟩ := by
    simp [create, put]
  have hmember : ∀ m, s.Member m → (s.create hash kind path d).Member m := by
    intro m hm
    have hne := hold hm
    obtain ⟨nd, hnd, hr⟩ := hm
    exact ⟨nd, by rw [hnode m hne, hnd], hr⟩
  have hunknown : s.stock s.allocated = 0 ∧ tally (Job.mentions s.allocated) rest = 0 := by
    by_contra hne
    refine hold (h.members s.allocated ?_) rfl
    rw [tally_cons]
    omega
  have href : ∀ m, (s.create hash kind path d).ref m = s.ref m := by
    intro m
    by_cases hm : m = s.allocated
    · subst hm
      simp [ref, hnew, hnone]
    · simp [ref, hnode m hm]
  have hpin : ∀ m, (s.create hash kind path d).pin m = s.pin m := by
    intro m
    by_cases hm : m = s.allocated
    · subst hm
      simp [pin, hnew, hnone]
    · simp [pin, hnode m hm]
  have hclaim : ∀ m, (s.create hash kind path d).claim m = s.claim m := by
    intro m
    by_cases hm : m = s.allocated
    · subst hm
      simp [claim, hnew, hnone]
    · simp [claim, hnode m hm]
  have hne : s.allocated ≠ d := by
    rintro rfl
    obtain ⟨nd, hnd, -⟩ := hd
    rw [hnone] at hnd
    cases hnd
  have hleaf : (s.create hash kind path d).children s.allocated = [] := by
    simp only [create, Function.update_of_ne hne]
    exact children_of_none h.tree hnone
  apply h.replant hv (create_tree h.tree hd hk) rfl rfl rfl rfl rfl rfl
  · intro m
    rw [href, tally_singleton, hrefs]
  · intro m
    rw [hpin, tally_singleton, hpins]
  · intro m
    rw [hclaim, tally_singleton, Job.claims, Job.claims, hclaims]
  · intro m hm
    by_cases hz : tally (Job.mentions m) [job'] = 0
    · apply hmember
      apply h.members
      rw [tally_cons]
      omega
    · rw [tally_singleton] at hz
      rw [hnodes m (List.count_pos_iff.mp (Nat.pos_of_ne_zero hz))]
      exact ⟨_, hnew, hk⟩
  · rw [tally_singleton, Job.vcbs, Job.vcbs, if_pos hv, if_pos hvcb]
  · intro j hj m hm
    rw [List.mem_singleton.mp hj] at hm
    have h1 := Job.mentions_of_owns hm
    rw [howns m hm] at h1 ⊢
    refine ⟨?_, hleaf⟩
    show s.stock s.allocated + _ = 1
    rw [tally_append, tally_singleton]
    omega
  · intro j hj
    rw [List.mem_singleton.mp hj]
    exact hplaced
  · rw [tally_singleton, hruns]
  · exact hkicks
  · intro m hm hi hc ht
    rw [tally_singleton] at ht
    have hma : m ≠ s.allocated := by
      rintro rfl
      omega
    have hmd : d ≠ m := by
      rintro rfl
      have := hi.2.2
      simp [create] at this
    obtain ⟨nd, hnd, hr⟩ := hm
    rw [hnode m hma] at hnd
    refine ⟨⟨nd, hnd, hr⟩, ⟨href m ▸ hi.1, hpin m ▸ hi.2.1, ?_⟩, hclaim m ▸ hc, hjob m hmd⟩
    simpa [create, Function.update_of_ne (Ne.symm hmd)] using hi.2.2

theorem free_tree {p : ℕ} (ht : s.Tree) (hnd : s.node n = some nd) (hr : nd.kind ≠ .root) (hp : nd.parentDcb = p)
    (hleaf : s.children n = []) : (s.free n p).Tree := by
  have hnode : ∀ m, m ≠ n → (s.free n p).node m = s.node m := by
    intro m hm
    simp [State.free, hm]
  have hback : ∀ {m nd'}, (s.free n p).node m = some nd' → m ≠ n ∧ s.node m = some nd' := by
    intro m nd' hm
    by_cases hmn : m = n
    · subst hmn
      simp [State.free] at hm
    · exact ⟨hmn, by rw [← hnode m hmn, hm]⟩
  have hchildren : ∀ x, (s.free n p).children x = if x = p then (s.children p).erase n else s.children x := by
    intro x
    simp [State.free, Function.update_apply]
  have hsub : ∀ x m, m ∈ (s.free n p).children x ↔ m ∈ s.children x ∧ m ≠ n := by
    intro x m
    rw [hchildren]
    split_ifs with hx
    · subst hx
      rw [(ht.nodup x).mem_erase_iff]
      exact and_comm
    · constructor
      · intro hm
        refine ⟨hm, ?_⟩
        rintro rfl
        obtain ⟨nd', hnd', -, hp'⟩ := ht.linked x m hm
        rw [hnd] at hnd'
        cases hnd'
        exact hx (hp' ▸ hp)
      · exact And.left
  constructor
  · obtain ⟨nd', hnd', hk'⟩ := ht.root
    have hne : (0 : ℕ) ≠ n := by
      rintro rfl
      rw [hnd] at hnd'
      cases hnd'
      exact hr hk'
    exact ⟨nd', by rw [hnode 0 hne, hnd'], hk'⟩
  · intro m nd' hm
    exact ht.onlyRoot m nd' (hback hm).2
  · intro m hm
    by_cases hmn : m = n
    · subst hmn
      simp [State.free]
    · rw [hnode m hmn]
      exact ht.bound m hm
  · intro x m hm
    obtain ⟨hm, hmn⟩ := (hsub x m).mp hm
    obtain ⟨nd', hnd', h1, h2⟩ := ht.linked x m hm
    exact ⟨nd', by rw [hnode m hmn, hnd'], h1, h2⟩
  · intro m nd' hm hk'
    obtain ⟨hmn, hm⟩ := hback hm
    exact (hsub _ m).mpr ⟨ht.parent m nd' hm hk', hmn⟩
  · intro x hx
    obtain ⟨m, hm⟩ := List.exists_mem_of_ne_nil _ hx
    have hm' := ((hsub x m).mp hm).1
    obtain ⟨nd', hnd', hk'⟩ := ht.directory x (List.ne_nil_of_mem hm')
    have hxn : x ≠ n := by
      rintro rfl
      rw [hleaf] at hm'
      cases hm'
    exact ⟨nd', by rw [hnode x hxn, hnd'], hk'⟩
  · intro x
    rw [hchildren]
    split_ifs
    · exact (ht.nodup p).erase n
    · exact ht.nodup x
  · intro m
    have hlt : n < s.allocated := by
      by_contra hge
      rw [ht.bound n (by omega)] at hnd
      cases hnd
    by_cases hmn : m = n
    · subst hmn
      have h1 := ht.frees m
      rw [hnd, if_neg (by simp)] at h1
      simp [State.free, hlt, h1]
    · have h1 : (s.free n p).frees m = s.frees m := by simp [State.free, hmn]
      rw [h1, ht.frees m]
      show _ = if m < s.allocated ∧ (s.free n p).node m = none then 1 else 0
      simp only [hnode m hmn]

/-- Of a node about to be freed nothing is left but the operation that frees it. -/
theorem Inv.doomed {c : Bool} (h : s.Inv (.free n c w :: rest)) :
    s.stock n = 0 ∧ w.rest.count n = 0 ∧ tally (Job.mentions n) rest = 0 ∧ s.children n = [] := by
  obtain ⟨hk, hl⟩ := h.owned _ List.mem_cons_self n rfl
  rw [tally_cons, show Job.mentions n (.free n c w : Job N) = (n :: w.rest).count n from rfl, List.count_cons_self] at hk
  exact ⟨by omega, by omega, by omega, hl⟩

theorem tally_le_mentions {f : ℕ → Job N → ℕ} (hf : ∀ {j : Job N} {m}, f m j ≤ j.mentions m)
    (h : tally (Job.mentions n) rest = 0) : tally (f n) rest = 0 := by
  apply tally_eq_zero
  intro j hj
  have h1 := le_tally (f := Job.mentions n) hj
  have h2 := hf (j := j) (m := n)
  omega

variable [DecidableEq N]

theorem free_inv {c : Bool} (h : s.Inv (.free n c w :: rest))
    (hs : s.step hash ch rest (.free n c w) = some (s', new)) : s'.Inv (new ++ rest) := by
  obtain ⟨nd, hnd, hroot, hs⟩ := h.withNode List.mem_cons_self hs
  cases hs
  obtain ⟨hstock, hwalk, hrest, hleaf⟩ := h.doomed
  have hp : n ∈ s.children nd.parentDcb := h.tree.parent n nd hnd hroot
  have hpn : nd.parentDcb ≠ n := by
    intro heq
    rw [heq, hleaf] at hp
    cases hp
  have hnode : ∀ m, m ≠ n → (s.free n nd.parentDcb).node m = s.node m := by
    intro m hm
    simp [State.free, hm]
  have hnone : (s.free n nd.parentDcb).node n = none := by simp [State.free]
  have hrefs := h.refs n
  have hpins := h.pins n
  have hclaims := h.claims n
  rw [tally_cons, tally_le_mentions Job.refs_le hrest] at hrefs
  rw [tally_cons, tally_le_mentions Job.pins_le hrest] at hpins
  rw [tally_cons, tally_le_mentions Job.claims_le hrest] at hclaims
  rw [stock] at hstock
  apply h.replant rfl (free_tree h.tree hnd hroot rfl hleaf) rfl rfl rfl rfl rfl rfl
  · intro m
    by_cases hm : m = n
    · subst hm
      have : (s.free m nd.parentDcb).ref m = 0 := by simp [ref, hnone]
      rw [this, hrefs]
      simp [Job.refs]
      omega
    · simp [ref, hnode m hm, Job.refs]
  · intro m
    by_cases hm : m = n
    · subst hm
      have : (s.free m nd.parentDcb).pin m = 0 := by simp [pin, hnone]
      rw [this, hpins]
      simp [Job.pins]
    · simp [pin, hnode m hm, Job.pins]
  · intro m
    rw [tally_singleton]
    by_cases hm : m = n
    · subst hm
      have : (s.free m nd.parentDcb).claim m = 0 := by simp [claim, hnone]
      rw [this, hclaims]
      show 0 + _ = _ + w.rest.count m
      omega
    · have : (s.free n nd.parentDcb).claim m = s.claim m := by simp [claim, hnode m hm]
      rw [this]
      cases c <;> simp [Job.claims, Job.claimed, Ne.symm hm]
  · intro m hm
    rw [tally_singleton] at hm
    change s.stock m + (w.rest.count m + _) ≠ 0 at hm
    have hmn : m ≠ n := by
      rintro rfl
      rw [stock] at hm
      omega
    obtain ⟨nd', hnd', hr'⟩ := h.members m (by
      rw [tally_cons]
      change _ + ((n :: w.rest).count m + _) ≠ 0
      rw [List.count_cons]
      omega)
    exact ⟨nd', by rw [hnode m hmn, hnd'], hr'⟩
  · exact Nat.le_refl _
  · simp [Job.owns]
  · intro j hj
    rw [List.mem_singleton.mp hj]
    obtain ⟨nd', hnd', hk'⟩ := h.tree.directory _ (List.ne_nil_of_mem hp)
    exact ⟨nd', by rw [hnode _ hpn, hnd'], hk'⟩
  · cases w <;> rfl
  · rfl
  · rintro m ⟨nd', hnd', hr'⟩ ⟨h1, h2, h3⟩ hc ht
    have hmn : m ≠ n := by
      rintro rfl
      rw [hnone] at hnd'
      cases hnd'
    have hmp : nd.parentDcb ≠ m := by
      rintro rfl
      simp [Job.tends] at ht
    rw [hnode m hmn] at hnd'
    rw [ref, hnode m hmn] at h1
    rw [pin, hnode m hmn] at h2
    rw [claim, hnode m hmn] at hc
    refine ⟨⟨nd', hnd', hr'⟩, ⟨h1, h2, ?_⟩, hc, if_neg (Ne.symm hmn)⟩
    simpa [State.free, Function.update_of_ne (Ne.symm hmp)] using h3

/-! ### A cold open -/

theorem mem_of_searchByName {c : N} (h : s.searchByName d c = some m) : m ∈ s.children d :=
  List.mem_of_find?_eq_some h

theorem search_inv {cur : ℕ} {rest' path : List N} {dir : Bool} (h : s.Inv (.search cur rest' path dir :: rest))
    (hs : s.step hash ch rest (.search cur rest' path dir) = some (s', new)) : s'.Inv (new ++ rest) := by
  cases rest' with
  | nil =>
    obtain ⟨nd, hnd⟩ := h.placed _ List.mem_cons_self
    simp only [step, State.withNode, hnd] at hs
    split at hs
    · cases hs
      exact h.start_insert
    · next hk =>
      cases hs
      split_ifs
      · refine h.walkOn rfl rfl (fun _ => rfl) (fun _ => rfl) rfl ?_ rfl trivial rfl rfl fun _ _ _ _ => rfl
        intro m hm
        rw [List.mem_singleton.mp hm]
        exact ⟨nd, hnd, hk⟩
      · exact h.walkOn rfl rfl (fun _ => rfl) (fun _ => rfl) rfl (fun m hm => absurd hm List.not_mem_nil) rfl trivial rfl rfl
          fun _ _ _ _ => rfl
  | cons c rest' =>
    simp only [step, h.children_there, if_true] at hs
    cases hf : s.searchByName cur c with
    | none =>
      rw [hf] at hs
      cases hs
      exact h.start_insert
    | some m =>
      obtain ⟨nd, hnd, -⟩ := h.tree.linked cur m (mem_of_searchByName hf)
      simp only [hf, State.withNode, hnd] at hs
      split_ifs at hs <;> cases hs
      · exact h.start_insert
      · exact h.walkOn rfl rfl (fun _ => rfl) (fun _ => rfl) rfl (fun m hm => absurd hm List.not_mem_nil) rfl ⟨nd, hnd⟩ rfl rfl
          fun _ _ _ _ => rfl


theorem Inv.children_ne_nil {c : N} (hf : s.searchByName d c = some m) : s.children d ≠ [] :=
  List.ne_nil_of_mem (mem_of_searchByName hf)

theorem insert_inv {cur : ℕ} {walked rest' : List N} {dir : Bool} {last : Option ℕ}
    (h : s.Inv (.insert cur walked rest' dir last :: rest))
    (hs : s.step hash ch rest (.insert cur walked rest' dir last) = some (s', new)) : s'.Inv (new ++ rest) := by
  obtain ⟨hcur, hempty, hlast⟩ := h.placed _ List.mem_cons_self
  have hgo : s.Inv ([.reap cur .leave] ++ rest) :=
    h.walkOn rfl rfl (fun _ => rfl) (fun _ => rfl) rfl (fun m hm => absurd hm List.not_mem_nil) rfl hcur rfl rfl fun _ _ _ ht => ht
  have hleave : (∀ m, s.Member m → s.Idle m → cur ≠ m) → s.Inv ([.leave] ++ rest) := by
    intro hbusy
    refine h.walkOn rfl rfl (fun _ => rfl) (fun _ => rfl) rfl (fun m hm => absurd hm List.not_mem_nil) rfl trivial rfl rfl ?_
    intro m hm hi _
    exact if_neg (hbusy m hm hi)
  cases rest' with
  | nil =>
    obtain ⟨rfl, rfl⟩ := hempty rfl
    cases hs
    apply hleave
    rintro m ⟨nd, hnd, hr⟩ _ rfl
    obtain ⟨nd', hnd', hk'⟩ := h.tree.root
    rw [hnd] at hnd'
    cases hnd'
    exact hr hk'
  | cons c rest' =>
    simp only [step, h.children_there, if_true] at hs
    cases hf : s.searchByName cur c with
    | some m =>
      have hne := Inv.children_ne_nil hf
      have hbusy : ∀ m, s.Member m → s.Idle m → cur ≠ m := by
        rintro m - hi rfl
        exact hne hi.2.2
      obtain ⟨nd, hnd, -⟩ := h.tree.linked cur m (mem_of_searchByName hf)
      have hnone : last = none := by
        cases hl : last with
        | none => rfl
        | some c => exact absurd (hlast c hl).2 hne
      simp only [hf, State.withNode, hnd, hnone] at hs
      split_ifs at hs with hr hk <;> cases hs
      · exact hleave hbusy
      · exact hgo
      · refine h.walkOn rfl rfl (fun _ => rfl) (fun _ => rfl) rfl (fun m hm => absurd hm List.not_mem_nil) rfl ?_ rfl rfl ?_
        · exact ⟨⟨nd, hnd, hk⟩, fun he => absurd he hr, fun c hc => by cases hc⟩
        · intro x hx hi _
          exact if_neg (hbusy x hx hi)
    | none =>
      have hjob : ∀ m, cur ≠ m → Job.tends m (.insert cur walked (c :: rest') dir last : Job N) = 0 :=
        fun m hm => if_neg hm
      simp only [hf] at hs
      by_cases hp : (!ch.pool) = true
      · rw [if_pos hp] at hs
        cases hs
        exact hgo
      rw [if_neg hp] at hs
      by_cases hr : rest' = []
      · rw [if_pos hr] at hs
        cases hs
        refine h.onCreate rfl hcur ?_ (fun _ => rfl) (fun _ => rfl) rfl ?_ ?_ ?_ rfl trivial rfl rfl (if_pos rfl) hjob
        · split_ifs <;> simp
        · exact fun m hm => List.mem_singleton.mp hm
        · simp [Job.mentions, Job.nodes]
        · rintro m hm
          cases hm
          rfl
      · rw [if_neg hr] at hs
        cases hs
        have hnone : s.node s.allocated = none := h.tree.bound _ (Nat.le_refl _)
        have hne : s.allocated ≠ cur := by
          rintro rfl
          obtain ⟨nd, hnd, -⟩ := hcur
          rw [hnone] at hnd
          cases hnd
        refine h.onCreate rfl hcur (by simp) (fun _ => rfl) (fun _ => rfl) rfl (fun m hm => absurd hm List.not_mem_nil) (Nat.zero_le _)
          (fun m hm => by cases hm) rfl ⟨?_, fun he => absurd he hr, ?_⟩ rfl rfl (if_pos rfl) hjob
        · exact ⟨⟨.dcb, walked ++ [c], cur, 0, 0, false, hash (walked ++ [c])⟩, by simp [create, put], by simp⟩
        · intro x hx
          refine ⟨(Option.some.inj hx).symm, ?_⟩
          simp only [create, Function.update_of_ne hne]
          exact children_of_none h.tree hnone

end BlorgFS.NodeTable.State
