import BlorgFS.NodeTable.Invariant

/-! One step of each operation on the node table, and the counts stay what they count. -/

namespace BlorgFS.NodeTable.State

open Lib

variable {N : Type} {s s' : State N} {job : Job N} {rest new : List (Job N)} {ch : Choice} {n m : ℕ} {nd : Node N}
variable {how : Open} {k : After} {w : Walk}

/-- A job's pointer leads to a node. -/
theorem Inv.withNode {f : Node N → Option (State N × List (Job N))} {r : State N × List (Job N)}
    (h : s.Inv (job :: rest)) (hn : n ∈ job.nodes) (hs : s.withNode n f = some r) :
    ∃ nd, s.node n = some nd ∧ nd.kind ≠ .root ∧ f nd = some r := by
  obtain ⟨nd, hnd, hk⟩ := h.member_of_mem hn
  rw [State.withNode, hnd] at hs
  exact ⟨nd, hnd, hk, hs⟩

/-! ### What follows holds no more -/

theorem after_vcbs : tally Job.vcbs (k.jobs : List (Job N)) = if k = .leave then 1 else 0 := by
  cases k <;> rfl

theorem after_tally {f : Job N → ℕ} (h : f .leave = 0) : tally f (k.jobs : List (Job N)) = 0 := by
  cases k with
  | nothing => rfl
  | leave => simp [After.jobs, h]

theorem after_idle {j : Job N} (hj : j ∈ (k.jobs : List (Job N))) : j = .leave := by
  cases k with
  | nothing => cases hj
  | leave => exact List.mem_singleton.mp hj

/-- The end of a deferral: nothing is held any more but the VCB resource. -/
theorem Inv.finish (h : s.Inv (job :: rest)) (hrefs : ∀ m, job.refs m = 0) (hpins : ∀ m, job.pins m = 0)
    (hclaims : ∀ m, job.claims m = 0) (hvcb : (if k = .leave then 1 else 0) ≤ job.vcbs) (hruns : job.runs = 0)
    (hkicks : job.kicks = 0 ∨ s.queued = true ∨ s.shuttingDown = true)
    (htended : ∀ m, s.Idle m → s.claim m = 0 → job.tends m = 0) : s.Inv (k.jobs ++ rest) := by
  apply h.move
  · intro m
    rw [hrefs, after_tally rfl]
  · intro m
    rw [hpins, after_tally rfl]
  · intro m
    rw [hclaims, after_tally rfl]
  · intro m hm
    rw [after_tally rfl] at hm
    exact absurd rfl hm
  · rw [after_vcbs]
    exact Or.inl hvcb
  · intro j hj m hm
    rw [after_idle hj] at hm
    cases hm
  · intro j hj
    rw [after_idle hj]
    trivial
  · rw [hruns, after_tally rfl]
  · exact hkicks
  · intro m _ hi hc _
    exact htended m hi hc

/-- The same operation one step on, holding what it held. -/
structure Like (job job' : Job N) : Prop where
  refs : ∀ m, job.refs m = job'.refs m
  pins : ∀ m, job.pins m = job'.pins m
  claims : job'.claimed = job.claimed
  nodes : job'.nodes = job.nodes
  vcb : job'.vcb = job.vcb
  owns : ∀ m, job'.owns = some m → job.owns = some m
  runs : job'.runs = job.runs
  kicks : job.kicks = 0
  tends : ∀ m, job.tends m ≤ job'.tends m

theorem Inv.like {job' : Job N} (h : s.Inv (job :: rest)) (hl : Like job job') (hp : job'.Placed s) :
    s.Inv ([job'] ++ rest) := by
  have hmentions : ∀ m, job'.mentions m = job.mentions m := fun m => by rw [Job.mentions, Job.mentions, hl.nodes]
  apply h.move
  · intro m
    rw [tally_singleton, hl.refs m]
  · intro m
    rw [tally_singleton, hl.pins m]
  · intro m
    rw [tally_singleton, Job.claims, Job.claims, hl.claims]
  · intro m hm
    rw [tally_singleton, hmentions] at hm
    exact Or.inl hm
  · rw [tally_singleton, Job.vcbs, Job.vcbs, hl.vcb]
    exact Or.inl (Nat.le_refl _)
  · intro j hj m hm
    rw [List.mem_singleton.mp hj] at hm
    exact ⟨hl.owns m hm, by rw [tally_singleton, hmentions]⟩
  · intro j hj
    rw [List.mem_singleton.mp hj]
    exact hp
  · rw [tally_singleton, hl.runs]
  · exact Or.inl hl.kicks
  · intro m _ _ _ ht
    rw [tally_cons] at ht
    have := hl.tends m
    omega

theorem vcbs_of_free (h : ¬ rest.any Job.vcb) : tally Job.vcbs rest = 0 := by
  apply tally_eq_zero
  intro j hj
  rw [Job.vcbs, if_neg]
  intro hv
  exact h (List.any_eq_true.mpr ⟨j, hj, hv⟩)

theorem tends_of_busy (hi : ¬ s.Idle n) : ∀ m, s.Idle m → (if n = m then 1 else 0) = 0 := by
  intro m hm
  apply if_neg
  rintro rfl
  exact hi hm

/-! ### Steps of an open that only move on -/

/-- An open that took no reference. -/
theorem Inv.failed (h : s.Inv (job :: rest)) (hj : job = .opening n how ∨ job = .checking n how) :
    s.Inv (how.failed n ++ rest) := by
  have hz : ∀ m, 0 ≤ if n = m then 1 else 0 := fun m => Nat.zero_le _
  rcases hj with rfl | rfl <;> cases how with
  | warm => exact h.like ⟨fun _ => rfl, fun _ => rfl, rfl, rfl, rfl, fun _ => id, rfl, rfl, fun _ => Nat.le_refl _⟩ trivial
  | resident => exact h.like ⟨fun _ => rfl, fun _ => rfl, rfl, rfl, rfl, fun _ => id, rfl, rfl, hz⟩ trivial
  | fresh => exact h.like ⟨fun _ => rfl, fun _ => rfl, rfl, rfl, rfl, fun _ => id, rfl, rfl, fun _ => Nat.le_refl _⟩ trivial

/-! ### One node's counts -/

theorem put_ref {nd : Node N} : (s.put n nd).ref m = if n = m then nd.refCount else s.ref m := by
  by_cases hm : n = m
  · subst hm
    simp [put, ref]
  · simp [put, ref, hm, Ne.symm hm]

theorem put_pin {nd : Node N} : (s.put n nd).pin m = if n = m then nd.pinCount else s.pin m := by
  by_cases hm : n = m
  · subst hm
    simp [put, pin]
  · simp [put, pin, hm, Ne.symm hm]

theorem put_claim {nd : Node N} :
    (s.put n nd).claim m = if n = m then (if nd.onReapList then 1 else 0) else s.claim m := by
  by_cases hm : n = m
  · subst hm
    simp [put, claim]
  · simp [put, claim, hm, Ne.symm hm]

theorem known_of_nodes {job' : Job N} (hn : job'.nodes = job.nodes) :
    ∀ m, tally (Job.mentions m) [job'] ≠ 0 → s.stock m + job.mentions m ≠ 0 := by
  intro m hm
  rw [tally_singleton, Job.mentions, hn] at hm
  rw [Job.mentions]
  omega

/-- One node's counts move by as much as the jobs' hold on it, and its claim with its owner. -/
theorem Inv.onNode {nd' : Node N} (h : s.Inv (job :: rest)) (hnd : s.node n = some nd)
    (hkind : nd'.kind = nd.kind) (hparent : nd'.parentDcb = nd.parentDcb)
    (hrefs : ∀ m, (job.refs m : ℤ) + (if n = m then nd'.refCount - nd.refCount else 0) = tally (Job.refs m) new)
    (hpins : ∀ m, (job.pins m : ℤ) + (if n = m then nd'.pinCount - nd.pinCount else 0) = tally (Job.pins m) new)
    (hclaims : ∀ m, job.claims m + (if n = m ∧ nd'.onReapList then 1 else 0) =
      tally (Job.claims m) new + if n = m ∧ nd.onReapList then 1 else 0)
    (hknown : ∀ m, tally (Job.mentions m) new ≠ 0 → s.stock m + job.mentions m ≠ 0)
    (hvcb : tally Job.vcbs new ≤ job.vcbs)
    (howned : ∀ j ∈ new, ∀ m, j.owns = some m → job.owns = some m ∧ tally (Job.mentions m) new = job.mentions m)
    (hplaced : ∀ j ∈ new, j.Placed (s.put n nd')) (hruns : tally Job.runs new = job.runs) (hkicks : job.kicks = 0)
    (htended : ∀ m, (s.put n nd').Idle m → (s.put n nd').claim m = 0 → tally (Job.tends m) new = 0 →
      n ≠ m ∧ job.tends m = 0) :
    (s.put n nd').Inv (new ++ rest) := by
  apply h.exchange (frame_put hnd hkind hparent)
  · intro m
    have := hrefs m
    rw [put_ref]
    show _ + _ + (s.handles.count m : ℤ) = _ + _ + (s.handles.count m : ℤ)
    split_ifs at this ⊢ with hm
    · subst hm
      rw [ref_of hnd]
      omega
    · omega
  · intro m
    have := hpins m
    rw [put_pin]
    split_ifs at this ⊢ with hm
    · subst hm
      rw [pin_of hnd]
      omega
    · omega
  · intro m
    have := hclaims m
    rw [put_claim]
    show _ + (s.reapList.count m + _) = _ + (s.reapList.count m + _)
    by_cases hm : n = m
    · subst hm
      rw [claim_of hnd]
      simp only [true_and] at this
      rw [if_pos rfl]
      omega
    · simp only [hm, false_and, if_false] at this ⊢
      omega
  · intro m hm
    by_cases hz : tally (Job.mentions m) new = 0
    · exact Or.inl (by change s.stock m + _ ≠ 0 at hm; omega)
    · exact Or.inl (hknown m hz)
  · exact h.table
  · exact Or.inl hvcb
  · intro j hj m hm
    obtain ⟨ho, hmen⟩ := howned j hj m hm
    obtain ⟨hk, hl⟩ := h.owned job List.mem_cons_self m ho
    refine ⟨?_, hl⟩
    show s.stock m + _ = 1
    rw [tally_cons] at hk
    rw [tally_append]
    omega
  · exact hplaced
  · rw [hruns]
    rfl
  · intro hne
    have := h.gate hne
    rw [tally_cons, hkicks, Nat.zero_add] at this
    rcases this with hg | hg | hg
    · exact Or.inl hg
    · exact Or.inr (Or.inl hg)
    · exact Or.inr (Or.inr (Or.inr hg))
  · intro m _ hi hc ht
    obtain ⟨hne, hz⟩ := htended m hi hc ht
    obtain ⟨hr, hp, hch⟩ := hi
    rw [put_ref, if_neg hne] at hr
    rw [put_pin, if_neg hne] at hp
    rw [put_claim, if_neg hne] at hc
    exact ⟨⟨hr, hp, hch⟩, hc, hz⟩
  · rfl

variable [DecidableEq N] {hash : List N → ℕ}

theorem opening_inv (h : s.Inv (.opening n how :: rest))
    (hs : s.step hash ch rest (.opening n how) = some (s', new)) : s'.Inv (new ++ rest) := by
  obtain ⟨nd, hnd, -, hs⟩ := h.withNode List.mem_cons_self hs
  split_ifs at hs with ha hr <;> cases hs
  · exact h.failed (Or.inl rfl)
  · cases how <;>
      exact h.like ⟨fun _ => rfl, fun _ => rfl, rfl, rfl, rfl, fun _ => id, rfl, rfl, fun _ => Nat.le_refl _⟩ trivial

/-! ### Steps of the counts -/

/-- A count is raised: the node is not idle. -/
theorem checking_inv (h : s.Inv (.checking n how :: rest))
    (hs : s.step hash ch rest (.checking n how) = some (s', new)) : s'.Inv (new ++ rest) := by
  obtain ⟨nd, hnd, -, hs⟩ := h.withNode List.mem_cons_self hs
  have href : 0 ≤ nd.refCount := by
    have := h.refs n
    rw [ref_of hnd] at this
    omega
  split_ifs at hs with hr <;> cases hs
  · apply h.onNode hnd
    · rfl
    · rfl
    · intro m
      simp [Job.refs]
    · intro m
      cases how <;> simp [Job.pins]
    · intro m
      simp [Job.claims, Job.claimed]
    · exact known_of_nodes rfl
    · cases how <;> exact Nat.le_refl _
    · cases how <;> simp [Job.owns, Job.mentions, Job.nodes]
    · simp [Job.Placed]
    · rfl
    · rfl
    · intro m hi _ _
      have hne : n ≠ m := by
        rintro rfl
        have := hi.1
        rw [put_ref, if_pos rfl] at this
        simp only at this
        omega
      refine ⟨hne, ?_⟩
      cases how
      · rfl
      · rfl
      · exact if_neg hne
  · exact h.failed (Or.inr rfl)

theorem uncount_inv (h : s.Inv (.uncount n how :: rest))
    (hs : s.step hash ch rest (.uncount n how) = some (s', new)) : s'.Inv (new ++ rest) := by
  obtain ⟨nd, hnd, -, hs⟩ := h.withNode List.mem_cons_self hs
  cases hs
  apply h.onNode hnd
  · rfl
  · rfl
  · intro m
    cases how <;> simp [Job.refs, Open.failed] <;> split_ifs <;> rfl
  · intro m
    cases how <;> simp [Job.pins, Open.failed]
  · intro m
    cases how <;> simp [Job.claims, Job.claimed, Open.failed, Walk.rest]
  · cases how <;> exact known_of_nodes rfl
  · cases how <;> exact Nat.le_refl _
  · cases how <;> simp [Job.owns, Job.mentions, Job.nodes, Open.failed, Walk.rest]
  · cases how <;> simp [Job.Placed, Open.failed]
  · cases how <;> rfl
  · rfl
  · intro m hi _ ht
    refine ⟨?_, rfl⟩
    rintro rfl
    cases how with
    | warm =>
      -- The pin is still there.
      have hp := h.pins n
      have h0 := hi.2.1
      rw [put_pin, if_pos rfl] at h0
      rw [pin_of hnd, tally_cons] at hp
      simp [Job.pins] at hp
      simp only at h0
      omega
    | resident => simp [Open.failed, Job.tends] at ht
    | fresh => simp [Open.failed, Job.tends] at ht

theorem unpin_inv (h : s.Inv (.unpin n :: rest))
    (hs : s.step hash ch rest (.unpin n) = some (s', new)) : s'.Inv (new ++ rest) := by
  obtain ⟨nd, hnd, -, hs⟩ := h.withNode List.mem_cons_self hs
  cases hs
  apply h.onNode hnd
  · rfl
  · rfl
  · simp [Job.refs]
  · intro m
    simp [Job.pins]
    split_ifs <;> rfl
  · simp [Job.claims, Job.claimed]
  · exact known_of_nodes rfl
  · exact Nat.le_refl _
  · simp [Job.owns]
  · simp [Job.Placed]
  · rfl
  · rfl
  · intro m _ _ ht
    refine ⟨?_, rfl⟩
    rintro rfl
    simp [Job.tends] at ht

theorem dereference_inv (h : s.Inv (.dereference n :: rest))
    (hs : s.step hash ch rest (.dereference n) = some (s', new)) : s'.Inv (new ++ rest) := by
  obtain ⟨nd, hnd, -, hs⟩ := h.withNode List.mem_cons_self hs
  cases hs
  apply h.onNode hnd
  · rfl
  · rfl
  · intro m
    simp [Job.refs]
    split_ifs <;> rfl
  · simp [Job.pins]
  · simp [Job.claims, Job.claimed]
  · exact known_of_nodes rfl
  · exact Nat.le_refl _
  · simp [Job.owns]
  · simp [Job.Placed]
  · rfl
  · rfl
  · intro m _ _ ht
    refine ⟨?_, rfl⟩
    rintro rfl
    simp [Job.tends] at ht

/-- A lookup pins what the table holds. -/
theorem lookup_inv {path : List N} (h : s.Inv (.lookup path :: rest))
    (hs : s.step hash ch rest (.lookup path) = some (s', new)) : s'.Inv (new ++ rest) := by
  have hthere : s.allThere s.table = true := by
    rw [allThere, List.all_eq_true]
    intro n hn
    obtain ⟨nd, hnd, -⟩ := h.members n (by have := List.count_pos_iff.mpr hn; rw [stock]; omega)
    rw [hnd]
    rfl
  simp only [step, hthere, if_true] at hs
  cases hf : s.find path with
  | none =>
    rw [hf] at hs
    cases hs
    exact h.finish (k := .nothing) (fun _ => rfl) (fun _ => rfl) (fun _ => rfl) (Nat.le_refl _) rfl (Or.inl rfl) fun _ _ _ => rfl
  | some n =>
    rw [hf] at hs
    have hn : n ∈ s.table := List.mem_of_find?_eq_some hf
    have hcount : 0 < s.table.count n := List.count_pos_iff.mpr hn
    obtain ⟨nd, hnd, -⟩ := h.members n (by rw [stock]; omega)
    have hpin : 0 ≤ nd.pinCount := by
      have := h.pins n
      rw [pin_of hnd] at this
      omega
    simp only [State.withNode, hnd] at hs
    cases hs
    apply h.onNode hnd
    · rfl
    · rfl
    · simp [Job.refs]
    · simp [Job.pins]
    · simp [Job.claims, Job.claimed]
    · intro m hm
      have hne : n = m := by simpa [Job.mentions, Job.nodes, List.count_singleton] using hm
      subst hne
      rw [stock]
      omega
    · exact Nat.le_refl _
    · simp [Job.owns]
    · simp [Job.Placed]
    · rfl
    · rfl
    · intro m hi _ _
      refine ⟨?_, rfl⟩
      rintro rfl
      have := hi.2.1
      rw [put_pin, if_pos rfl] at this
      simp only at this
      omega

/-! ### The deferral of an idle node -/

theorem deferReapIfIdle_inv (h : s.Inv (.deferReapIfIdle n :: rest))
    (hs : s.step hash ch rest (.deferReapIfIdle n) = some (s', new)) : s'.Inv (new ++ rest) := by
  obtain ⟨nd, hnd, -, hs⟩ := h.withNode List.mem_cons_self hs
  cases hs
  exact h.like ⟨fun _ => rfl, fun _ => rfl, rfl, rfl, rfl, fun _ => id, rfl, rfl, fun _ => Nat.le_refl _⟩ trivial

theorem readRef_inv (h : s.Inv (.readRef n k :: rest))
    (hs : s.step hash ch rest (.readRef n k) = some (s', new)) : s'.Inv (new ++ rest) := by
  obtain ⟨nd, hnd, -, hs⟩ := h.withNode List.mem_cons_self hs
  cases hs
  split_ifs with hr
  · exact h.like ⟨fun _ => rfl, fun _ => rfl, rfl, rfl, rfl, fun _ => id, rfl, rfl, fun _ => Nat.le_refl _⟩ trivial
  · have hbusy : ¬ s.Idle n := fun hi => hr (by rw [← ref_of hnd]; exact hi.1)
    apply h.finish (fun _ => rfl) (fun _ => rfl) (fun _ => rfl) _ rfl (Or.inl rfl)
    · exact fun m hm _ => tends_of_busy hbusy m hm
    · cases k <;> exact Nat.le_refl _

theorem readPin_inv (h : s.Inv (.readPin n k :: rest))
    (hs : s.step hash ch rest (.readPin n k) = some (s', new)) : s'.Inv (new ++ rest) := by
  obtain ⟨nd, hnd, -, hs⟩ := h.withNode List.mem_cons_self hs
  cases hs
  split_ifs with hr
  · exact h.like ⟨fun _ => rfl, fun _ => rfl, rfl, rfl, rfl, fun _ => id, rfl, rfl, fun _ => Nat.le_refl _⟩ trivial
  · have hbusy : ¬ s.Idle n := fun hi => hr (by rw [← pin_of hnd]; exact hi.2.1)
    apply h.finish (fun _ => rfl) (fun _ => rfl) (fun _ => rfl) _ rfl (Or.inl rfl)
    · exact fun m hm _ => tends_of_busy hbusy m hm
    · cases k <;> exact Nat.le_refl _


theorem claim_inv (h : s.Inv (.claim n k :: rest))
    (hs : s.step hash ch rest (.claim n k) = some (s', new)) : s'.Inv (new ++ rest) := by
  obtain ⟨nd, hnd, -, hs⟩ := h.withNode List.mem_cons_self hs
  split_ifs at hs with hr <;> cases hs
  · apply h.finish (fun _ => rfl) (fun _ => rfl) (fun _ => rfl) _ rfl (Or.inl rfl)
    · intro m _ hm
      apply if_neg
      rintro rfl
      rw [claim_of hnd, if_pos hr] at hm
      cases hm
    · cases k <;> exact Nat.le_refl _
  · apply h.onNode hnd
    · rfl
    · rfl
    · simp [Job.refs]
    · simp [Job.pins]
    · intro m
      simp [Job.claims, Job.claimed, List.count_singleton, hr]
    · exact known_of_nodes rfl
    · cases k <;> exact Nat.le_refl _
    · simp [Job.owns]
    · simp [Job.Placed]
    · rfl
    · rfl
    · intro m _ hc _
      have hne : n ≠ m := by
        rintro rfl
        rw [put_claim, if_pos rfl] at hc
        cases hc
      exact ⟨hne, if_neg hne⟩

theorem push_inv (h : s.Inv (.push n k :: rest))
    (hs : s.step hash ch rest (.push n k) = some (s', new)) : s'.Inv (new ++ rest) := by
  obtain ⟨nd, hnd, -, hs⟩ := h.withNode List.mem_cons_self hs
  cases hs
  apply h.exchange
  · exact ⟨fun _ => rfl, rfl, rfl, rfl⟩
  · intro m
    rfl
  · intro m
    rfl
  · intro m
    show s.claim m + (s.reapList.count m + [n].count m) = s.claim m + ((n :: s.reapList).count m + 0)
    simp [List.count_cons]
  · intro m hm
    left
    rw [tally_singleton] at hm
    simp [stock, Job.mentions, Job.nodes, List.count_cons] at hm ⊢
    omega
  · exact h.table
  · left
    cases k <;> exact Nat.le_refl _
  · simp [Job.owns]
  · simp [Job.Placed]
  · rfl
  · intro _
    exact Or.inr (Or.inr (Or.inl one_ne_zero))
  · intro m _ hi hc _
    exact ⟨hi, hc, rfl⟩
  · rfl

/-! ### The gate -/

theorem kick_inv {who : Kicker} (h : s.Inv (.kick who :: rest))
    (hs : s.step hash ch rest (.kick who) = some (s', new)) : s'.Inv (new ++ rest) := by
  have hdone : s.queued = true ∨ s.shuttingDown = true → s.Inv (who.jobs ++ rest) := by
    intro hg
    cases who with
    | deferral n k =>
      apply h.finish (fun _ => rfl) (fun _ => rfl) (fun _ => rfl) _ rfl (Or.inr hg) fun _ _ _ => rfl
      cases k <;> exact Nat.le_refl _
    | tail =>
      exact h.finish (k := .nothing) (fun _ => rfl) (fun _ => rfl) (fun _ => rfl) (Nat.le_refl _) rfl (Or.inr hg) fun _ _ _ => rfl
  simp only [step] at hs
  split_ifs at hs with hq hd <;> cases hs
  · exact hdone (Or.inl hq)
  · exact hdone (Or.inr hd)
  · apply h.exchange
    · exact ⟨fun _ => rfl, rfl, rfl, rfl⟩
    · intro m
      rfl
    · intro m
      rfl
    · intro m
      rfl
    · intro m hm
      left
      cases who <;> exact hm
    · exact h.table
    · left
      rcases who with ⟨n, k⟩ | _
      · cases k <;> exact Nat.le_refl _
      · exact Nat.le_refl _
    · simp [Job.owns]
    · simp [Job.Placed]
    · simp [Job.runs, hq]
    · intro _
      exact Or.inl rfl
    · intro m _ hi hc _
      exact ⟨hi, hc, rfl⟩
    · rfl

theorem queue_inv {who : Kicker} (h : s.Inv (.queue who :: rest))
    (hs : s.step hash ch rest (.queue who) = some (s', new)) : s'.Inv (new ++ rest) := by
  cases hs
  have htally : ∀ f : Job N → ℕ, f .leave = 0 → tally f (.item :: who.jobs) = f .item := by
    intro f hf
    rcases who with ⟨n, k⟩ | _
    · rw [tally_cons, Kicker.jobs, after_tally hf, Nat.add_zero]
    · rw [tally_cons, Kicker.jobs, tally_nil, Nat.add_zero]
  have hmem : ∀ j ∈ (.item :: who.jobs : List (Job N)), j = .item ∨ j = .leave := by
    intro j hj
    rcases List.mem_cons.mp hj with hj | hj
    · exact Or.inl hj
    · rcases who with ⟨n, k⟩ | _
      · exact Or.inr (after_idle hj)
      · cases hj
  apply h.move
  · intro m
    rw [htally _ rfl]
    rfl
  · intro m
    rw [htally _ rfl]
    rfl
  · intro m
    rw [htally _ rfl]
    rfl
  · intro m hm
    rw [htally _ rfl] at hm
    exact absurd rfl hm
  · left
    rcases who with ⟨n, k⟩ | _
    · cases k <;> exact Nat.le_refl _
    · exact Nat.le_refl _
  · intro j hj m hm
    rcases hmem j hj with rfl | rfl <;> cases hm
  · intro j hj
    rcases hmem j hj with rfl | rfl <;> trivial
  · rw [htally _ rfl]
    rfl
  · exact Or.inl rfl
  · intro m _ _ _ _
    rfl

theorem item_inv (h : s.Inv (.item :: rest))
    (hs : s.step hash ch rest .item = some (s', new)) : s'.Inv (new ++ rest) := by
  cases hs
  have hclaims : ∀ m, tally (Job.claims m) (if s.reapList = [] then [.tail] else [.wait s.reapList] : List (Job N)) =
      s.reapList.count m := by
    intro m
    split_ifs with he
    · rw [he]
      rfl
    · rw [tally_singleton]
      rfl
  have hmentions : ∀ m, tally (Job.mentions m) (if s.reapList = [] then [.tail] else [.wait s.reapList] : List (Job N)) =
      s.reapList.count m := by
    intro m
    split_ifs with he
    · rw [he]
      rfl
    · rw [tally_singleton]
      rfl
  have hmem : ∀ j ∈ (if s.reapList = [] then [.tail] else [.wait s.reapList] : List (Job N)),
      j = .tail ∨ j = .wait s.reapList := by
    intro j hj
    split_ifs at hj
    · exact Or.inl (List.mem_singleton.mp hj)
    · exact Or.inr (List.mem_singleton.mp hj)
  apply h.exchange
  · exact ⟨fun _ => rfl, rfl, rfl, rfl⟩
  · intro m
    split_ifs <;> rfl
  · intro m
    split_ifs <;> rfl
  · intro m
    rw [hclaims]
    simp [claim, Job.claims, Job.claimed]
  · intro m hm
    left
    rw [hmentions] at hm
    simp [stock] at hm ⊢
    omega
  · exact h.table
  · left
    split_ifs <;> exact Nat.le_refl _
  · intro j hj m hm
    rcases hmem j hj with rfl | rfl <;> cases hm
  · intro j hj
    rcases hmem j hj with rfl | rfl <;> trivial
  · split_ifs <;> rfl
  · intro hne
    exact absurd rfl hne
  · intro m _ hi hc _
    exact ⟨hi, hc, rfl⟩
  · rfl

theorem tail_inv (h : s.Inv (.tail :: rest))
    (hs : s.step hash ch rest .tail = some (s', new)) : s'.Inv (new ++ rest) := by
  cases hs
  have hq : s.queued = true := by
    have := h.runs
    rw [tally_cons, show Job.runs (.tail : Job N) = 1 from rfl] at this
    split_ifs at this with hq
    · exact hq
    · omega
  apply h.exchange
  · exact ⟨fun _ => rfl, rfl, rfl, rfl⟩
  · intro m
    split_ifs <;> rfl
  · intro m
    split_ifs <;> rfl
  · intro m
    split_ifs <;> rfl
  · intro m hm
    left
    split_ifs at hm <;> exact hm
  · exact h.table
  · left
    split_ifs <;> exact Nat.le_refl _
  · intro j hj m hm
    split_ifs at hj
    · cases hj
    · rw [List.mem_singleton.mp hj] at hm
      cases hm
  · intro j hj
    split_ifs at hj
    · cases hj
    · rw [List.mem_singleton.mp hj]
      trivial
  · have hz : tally Job.runs (if s.reapList = [] then [] else [.kick .tail] : List (Job N)) = 0 := by
      split_ifs <;> rfl
    rw [hz, hq]
    rfl
  · intro hne
    rw [if_neg (show s.reapList ≠ [] from hne)]
    exact Or.inr (Or.inr (Or.inl one_ne_zero))
  · intro m _ hi hc _
    exact ⟨hi, hc, rfl⟩
  · rfl

/-! ### Under the VCB resource -/

theorem leave_inv (h : s.Inv (.leave :: rest))
    (hs : s.step hash ch rest .leave = some (s', new)) : s'.Inv (new ++ rest) := by
  cases hs
  exact h.finish (k := .nothing) (fun _ => rfl) (fun _ => rfl) (fun _ => rfl) (Nat.zero_le _) rfl (Or.inl rfl)
    fun _ _ _ => rfl

theorem cold_inv {path : List N} {dir : Bool} (h : s.Inv (.cold path dir :: rest))
    (hs : s.step hash ch rest (.cold path dir) = some (s', new)) : s'.Inv (new ++ rest) := by
  simp only [step] at hs
  split_ifs at hs with hv
  cases hs
  apply h.move
  · intro m
    rfl
  · intro m
    rfl
  · intro m
    rfl
  · intro m hm
    exact absurd rfl hm
  · exact Or.inr ⟨Nat.le_refl _, vcbs_of_free hv⟩
  · simp [Job.owns]
  · obtain ⟨nd, hnd, -⟩ := h.tree.root
    intro j hj
    rw [List.mem_singleton.mp hj]
    exact ⟨nd, hnd⟩
  · rfl
  · exact Or.inl rfl
  · intro m _ _ _ _
    rfl

theorem wait_inv {ns : List ℕ} (h : s.Inv (.wait ns :: rest))
    (hs : s.step hash ch rest (.wait ns) = some (s', new)) : s'.Inv (new ++ rest) := by
  simp only [step] at hs
  split_ifs at hs with hv
  cases hs
  apply h.move
  · intro m
    rfl
  · intro m
    rfl
  · intro m
    exact tally_singleton.symm
  · intro m hm
    rw [tally_singleton] at hm
    exact Or.inl hm
  · exact Or.inr ⟨Nat.le_refl _, vcbs_of_free hv⟩
  · simp [Job.owns]
  · simp [Job.Placed]
  · rfl
  · exact Or.inl rfl
  · intro m _ _ _ _
    rfl

theorem counted_inv (h : s.Inv (.counted n how :: rest))
    (hs : s.step hash ch rest (.counted n how) = some (s', new)) : s'.Inv (new ++ rest) := by
  obtain ⟨nd, hnd, -, hs⟩ := h.withNode List.mem_cons_self hs
  split_ifs at hs with hr <;> cases hs
  · apply h.exchange
    · exact ⟨fun _ => rfl, rfl, rfl, rfl⟩
    · intro m
      show s.ref m + _ + (s.handles.count m : ℤ) = s.ref m + _ + ((n :: s.handles).count m : ℤ)
      cases how <;> simp [Job.refs, Open.succeeded, List.count_cons] <;> omega
    · intro m
      cases how <;> rfl
    · intro m
      cases how <;> rfl
    · intro m hm
      left
      cases how <;> simp [stock, Job.mentions, Job.nodes, Open.succeeded, List.count_cons] at hm ⊢ <;> omega
    · exact h.table
    · left
      cases how <;> exact Nat.le_refl _
    · cases how <;> simp [Job.owns, Open.succeeded]
    · cases how <;> simp [Job.Placed, Open.succeeded]
    · cases how <;> rfl
    · intro hne
      have := h.gate hne
      rw [tally_cons] at this
      rcases this with hg | hg | hg
      · exact Or.inl hg
      · exact Or.inr (Or.inl hg)
      · exact Or.inr (Or.inr (Or.inr (by simpa [Job.kicks] using hg)))
    · intro m _ hi hc _
      exact ⟨hi, hc, rfl⟩
    · rfl
  · cases how <;>
      exact h.like ⟨fun _ => rfl, fun _ => rfl, rfl, rfl, rfl, fun _ => id, rfl, rfl, fun _ => Nat.le_refl _⟩ trivial

end BlorgFS.NodeTable.State
