import BlorgFS.NodeTable.Steps

/-! Retiring a node of the table: the walk over empty ancestors and the worker's look at
its batch take a node only when nobody else knows of it. -/

namespace BlorgFS.NodeTable.State

open Lib

variable {N : Type} {s s' : State N} {job : Job N} {rest new : List (Job N)} {ch : Choice} {n m d : ℕ} {nd : Node N}
variable {w : Walk}

/-! ### Retiring -/

/-- Without counts, claims or shared locks on a node, nobody else knows of it. -/
theorem Inv.unknown (h : s.Inv (job :: rest)) (hv : job.vcb = true) (hnd : s.node n = some nd)
    (hb : s.bucketFree rest nd.tableBucketIndex = true) (hr : nd.refCount = 0) (hp : nd.pinCount = 0)
    (hc : tally (Job.claims n) rest = 0) : tally (Job.mentions n) rest = 0 ∧ s.handles.count n = 0 := by
  have hrefs := h.refs n
  have hpins := h.pins n
  rw [ref_of hnd, hr, tally_cons] at hrefs
  rw [pin_of hnd, hp, tally_cons] at hpins
  refine ⟨?_, by omega⟩
  apply tally_eq_zero
  intro j hj
  have hshares : j.shares ≠ some n := by
    intro hs
    have := List.all_eq_true.mp hb j hj
    simp [hs, hnd] at this
  have h1 := Job.mentions_le (m := n) (h.no_vcb hv j hj) hshares
  have h2 := le_tally (f := Job.pins n) hj
  have h3 := le_tally (f := Job.refs n) hj
  have h4 := le_tally (f := Job.claims n) hj
  omega

theorem count_erase_of_nodup {l : List ℕ} (h : l.Nodup) : (l.erase n).count n = 0 := by
  rw [List.count_erase_self, Nat.sub_eq_zero_iff_le]
  exact List.nodup_iff_count_le_one.mp h n

theorem count_erase_le {l : List ℕ} : (l.erase n).count m ≤ l.count m := (List.erase_sublist).count_le m

theorem walk_vcbs : tally Job.vcbs (w.jobs : List (Job N)) = 1 := by
  cases w <;> rfl

theorem walk_runs : tally Job.runs (w.jobs : List (Job N)) = Job.runs (.reap d w : Job N) := by
  cases w <;> rfl

theorem walk_claims : tally (Job.claims m) (w.jobs : List (Job N)) = w.rest.count m := by
  cases w with
  | leave => rfl
  | batch ns => exact tally_singleton

theorem walk_mentions : tally (Job.mentions m) (w.jobs : List (Job N)) = w.rest.count m := by
  cases w with
  | leave => rfl
  | batch ns => exact tally_singleton

theorem walk_tally {f : Job N → ℕ} (h1 : f .leave = 0) (h2 : ∀ ns, f (.batch ns) = 0) :
    tally f (w.jobs : List (Job N)) = 0 := by
  cases w with
  | leave => rw [Walk.jobs, tally_singleton, h1]
  | batch ns => rw [Walk.jobs, tally_singleton, h2]

theorem mem_walk {j : Job N} (hj : j ∈ (w.jobs : List (Job N))) : j = .leave ∨ ∃ ns, j = .batch ns := by
  cases w with
  | leave => exact Or.inl (List.mem_singleton.mp hj)
  | batch ns => exact Or.inr ⟨ns, List.mem_singleton.mp hj⟩

theorem withDir {P : Node N → Prop} {f : Node N → Option (State N × List (Job N))} {r : State N × List (Job N)}
    (hp : ∃ nd, s.node d = some nd ∧ P nd) (hs : s.withNode d f = some r) : ∃ nd, s.node d = some nd ∧ P nd ∧ f nd = some r := by
  obtain ⟨nd, hnd, hP⟩ := hp
  rw [State.withNode, hnd] at hs
  exact ⟨nd, hnd, hP, hs⟩

/-- The walk ends: the directory is in use, has children, is claimed, or is the root. -/
theorem Inv.stop (h : s.Inv (.reap d w :: rest)) (hd : s.Member d → s.Idle d → s.claim d ≠ 0) : s.Inv (w.jobs ++ rest) := by
  apply h.move
  · intro m
    rw [walk_tally rfl fun _ => rfl]
    rfl
  · intro m
    rw [walk_tally rfl fun _ => rfl]
    rfl
  · intro m
    rw [walk_claims]
    rfl
  · intro m hm
    rw [walk_mentions] at hm
    exact Or.inl hm
  · rw [walk_vcbs]
    exact Or.inl (Nat.le_refl _)
  · intro j hj m hm
    rcases mem_walk hj with rfl | ⟨ns, rfl⟩ <;> cases hm
  · intro j hj
    rcases mem_walk hj with rfl | ⟨ns, rfl⟩ <;> trivial
  · exact walk_runs
  · exact Or.inl rfl
  · intro m hm hi hc _
    apply if_neg
    rintro rfl
    exact hd hm hi hc

theorem Inv.gate_rest (h : s.Inv (job :: rest)) (hk : job.kicks = 0) {p : Prop} (hne : s.reapList ≠ []) :
    s.queued = true ∨ s.shuttingDown = true ∨ p ∨ tally Job.kicks rest ≠ 0 := by
  have := h.gate hne
  rw [tally_cons, hk, Nat.zero_add] at this
  rcases this with hg | hg | hg
  · exact Or.inl hg
  · exact Or.inr (Or.inl hg)
  · exact Or.inr (Or.inr (Or.inr hg))

variable [DecidableEq N] {hash : List N → ℕ}

theorem reap_inv (h : s.Inv (.reap d w :: rest))
    (hs : s.step hash ch rest (.reap d w) = some (s', new)) : s'.Inv (new ++ rest) := by
  obtain ⟨nd, hnd, hdir, hs⟩ := withDir (h.placed _ List.mem_cons_self) hs
  split_ifs at hs with hk hb hz <;> cases hs
  · obtain ⟨hkind, hleaf⟩ := hk
    obtain ⟨hr, hp, hc⟩ := hz
    have hclaim : s.claim d = 0 := by simp [claim_of hnd, hc]
    have hclaims := h.claims d
    rw [hclaim, tally_cons] at hclaims
    have hrest : w.rest.count d = 0 := by
      change 0 = _ + (w.rest.count d + _) at hclaims
      omega
    obtain ⟨hmen, hhan⟩ := h.unknown rfl hnd hb hr hp (by omega)
    apply h.exchange
    · have hput : Frame s (s.put d { nd with onReapList := true }) := frame_put hnd rfl rfl
      exact ⟨hput.shape, rfl, rfl, rfl⟩
    · intro m
      have : (s.put d { nd with onReapList := true }).ref m = s.ref m := by
        rw [put_ref]
        split_ifs with hm
        · subst hm
          rw [ref_of hnd]
        · rfl
      show (s.put d _).ref m + 0 + _ = s.ref m + 0 + _
      rw [this]
      rfl
    · intro m
      have : (s.put d { nd with onReapList := true }).pin m = s.pin m := by
        rw [put_pin]
        split_ifs with hm
        · subst hm
          rw [pin_of hnd]
        · rfl
      show (s.put d _).pin m + 0 = s.pin m + 0
      rw [this]
    · intro m
      show (s.put d _).claim m + (s.reapList.count m + w.rest.count m) =
        s.claim m + (s.reapList.count m + ((d :: w.rest).count m + 0))
      rw [put_claim, List.count_cons]
      by_cases hm : d = m
      · subst hm
        simp [hclaim]
        omega
      · simp [hm]
    · intro m hm
      by_cases hdm : d = m
      · subst hdm
        exact Or.inr ⟨rfl, nd, hnd, by simp [hkind]⟩
      · left
        have := count_erase_le (n := d) (m := m) (l := s.table)
        simp [stock, Job.mentions, Job.nodes, put, hdm] at hm ⊢
        omega
    · exact h.table.erase d
    · exact Or.inl (Nat.le_refl _)
    · intro j hj m hm
      rw [List.mem_singleton.mp hj] at hm
      cases hm
      refine ⟨?_, hleaf⟩
      rw [tally_append, tally_singleton, hmen]
      show s.handles.count d + (s.table.erase d).count d + s.reapList.count d + ((d :: w.rest).count d + 0) = 1
      rw [count_erase_of_nodup h.table, hhan, List.count_cons_self, hrest]
      omega
    · simp [Job.Placed]
    · cases w <;> rfl
    · intro hne
      have := h.gate hne
      rw [tally_cons] at this
      rcases this with hg | hg | hg
      · exact Or.inl hg
      · exact Or.inr (Or.inl hg)
      · exact Or.inr (Or.inr (Or.inr (by simpa [Job.kicks] using hg)))
    · intro m _ hi hc _
      have hne : d ≠ m := by
        rintro rfl
        change (s.put d _).claim d = 0 at hc
        rw [put_claim, if_pos rfl] at hc
        cases hc
      obtain ⟨h1, h2, h3⟩ := hi
      change (s.put d _).ref m = 0 at h1
      change (s.put d _).pin m = 0 at h2
      change (s.put d _).claim m = 0 at hc
      rw [put_ref, if_neg hne] at h1
      rw [put_pin, if_neg hne] at h2
      rw [put_claim, if_neg hne] at hc
      exact ⟨⟨h1, h2, h3⟩, hc, if_neg hne⟩
    · rfl
  · apply h.stop
    intro _ hi hc
    rw [Idle, ref_of hnd, pin_of hnd] at hi
    rw [claim_of hnd] at hc
    apply hz
    refine ⟨hi.1, hi.2.1, ?_⟩
    cases hl : nd.onReapList with
    | false => rfl
    | true => simp [hl] at hc
  · apply h.stop
    rintro ⟨nd', hnd', hroot⟩ hi _
    rw [hnd] at hnd'
    cases hnd'
    apply hk
    refine ⟨?_, hi.2.2⟩
    cases hkind : nd.kind with
    | fcb => exact absurd hkind hdir
    | dcb => rfl
    | root => exact absurd hkind hroot

/-- The worker's look at one node of its batch. -/
theorem batch_inv {ns : List ℕ} (h : s.Inv (.batch ns :: rest))
    (hs : s.step hash ch rest (.batch ns) = some (s', new)) : s'.Inv (new ++ rest) := by
  cases ns with
  | nil =>
    cases hs
    exact h.move (fun _ => rfl) (fun _ => rfl) (fun _ => rfl) (fun _ hm => absurd rfl hm) (Or.inl (Nat.zero_le _))
      (by simp [Job.owns]) (by simp [Job.Placed]) rfl (Or.inl rfl) fun _ _ _ _ _ => rfl
  | cons n ns =>
    obtain ⟨nd, hnd, hroot, hs⟩ := h.withNode List.mem_cons_self hs
    have hclaims := h.claims n
    rw [tally_cons, claim_of hnd] at hclaims
    change _ = _ + ((n :: ns).count n + _) at hclaims
    rw [List.count_cons_self] at hclaims
    have hlisted : nd.onReapList = true := by
      by_contra hl
      rw [if_neg hl] at hclaims
      omega
    rw [if_pos hlisted] at hclaims
    split_ifs at hs with hb hz <;> cases hs
    · obtain ⟨hr, hp, hk⟩ := hz
      have hleaf : s.children n = [] := by
        rcases hk with hk | hk
        · by_contra hne
          obtain ⟨nd', hnd', hk'⟩ := h.tree.directory n hne
          rw [hnd] at hnd'
          cases hnd'
          cases hkind : nd.kind with
          | fcb => exact hk' hkind
          | dcb => exact hk hkind
          | root => exact hroot hkind
        · exact hk
      obtain ⟨hmen, hhan⟩ := h.unknown rfl hnd hb hr hp (by omega)
      apply h.exchange
      · exact ⟨fun _ => rfl, rfl, rfl, rfl⟩
      · intro m
        rfl
      · intro m
        rfl
      · intro m
        rw [tally_singleton]
        rfl
      · intro m hm
        left
        have := count_erase_le (n := n) (m := m) (l := s.table)
        rw [tally_singleton] at hm
        change (s.handles.count m + (s.table.erase n).count m + s.reapList.count m) + (n :: ns).count m ≠ 0 at hm
        change (s.handles.count m + s.table.count m + s.reapList.count m) + (n :: ns).count m ≠ 0
        omega
      · exact h.table.erase n
      · exact Or.inl (Nat.le_refl _)
      · intro j hj m hm
        rw [List.mem_singleton.mp hj] at hm
        cases hm
        refine ⟨?_, hleaf⟩
        rw [tally_append, tally_singleton, hmen]
        show s.handles.count n + (s.table.erase n).count n + s.reapList.count n + ((n :: ns).count n + 0) = 1
        rw [count_erase_of_nodup h.table, hhan, List.count_cons_self]
        omega
      · simp [Job.Placed]
      · rfl
      · exact h.gate_rest rfl
      · intro m _ hi hc _
        exact ⟨hi, hc, rfl⟩
      · rfl
    · apply h.onNode hnd
      · rfl
      · rfl
      · simp [Job.refs]
      · simp [Job.pins]
      · intro m
        rw [tally_singleton]
        change (n :: ns).count m + _ = ns.count m + _
        simp [List.count_cons, hlisted]
      · intro m hm
        rw [tally_singleton] at hm
        change ns.count m ≠ 0 at hm
        show s.stock m + (n :: ns).count m ≠ 0
        rw [List.count_cons]
        omega
      · exact Nat.le_refl _
      · simp [Job.owns]
      · simp [Job.Placed]
      · rfl
      · rfl
      · intro m hi _ _
        refine ⟨?_, rfl⟩
        rintro rfl
        obtain ⟨h1, h2, h3⟩ := hi
        rw [put_ref, if_pos rfl] at h1
        rw [put_pin, if_pos rfl] at h2
        exact hz ⟨h1, h2, Or.inr h3⟩

theorem publish_inv (h : s.Inv (.publish n :: rest))
    (hs : s.step hash ch rest (.publish n) = some (s', new)) : s'.Inv (new ++ rest) := by
  obtain ⟨nd, hnd, -, hs⟩ := h.withNode List.mem_cons_self hs
  split_ifs at hs with hb ht <;> cases hs
  · exact h.finish (k := .leave) (fun _ => rfl) (fun _ => rfl) (fun _ => rfl) (Nat.le_refl _) rfl (Or.inl rfl)
      fun _ _ _ => rfl
  · apply h.exchange
    · exact ⟨fun _ => rfl, rfl, rfl, rfl⟩
    · intro m
      rfl
    · intro m
      rfl
    · intro m
      rfl
    · intro m hm
      left
      simp [stock, Job.mentions, Job.nodes, List.count_cons] at hm ⊢
      omega
    · exact List.nodup_append.mpr ⟨h.table, List.nodup_singleton n, by
        intro a ha b hb' heq
        rw [List.mem_singleton.mp hb'] at heq
        exact ht (heq ▸ ha)⟩
    · exact Or.inl (Nat.le_refl _)
    · simp [Job.owns]
    · simp [Job.Placed]
    · rfl
    · exact h.gate_rest rfl
    · intro m _ hi hc _
      exact ⟨hi, hc, rfl⟩
    · rfl

end BlorgFS.NodeTable.State
