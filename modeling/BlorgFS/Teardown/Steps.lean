import BlorgFS.Teardown.Invariant

/-! One step of each job, and what the disk cache counts stays what it counts. -/

namespace BlorgFS.Teardown.State

open Lib DiskCache CacheFile

variable {s s' : State} {job : Job} {rest new : List Job} {ch : Choice} {r : ℕ}

/-! ### Steps that only move on -/

theorem enter_inv {who : Caller} (h : s.Inv (.enter who :: rest)) :
    (s.step ch (.enter who)).1.Inv ((s.step ch (.enter who)).2 ++ rest) := by
  simp only [step]
  split
  · cases who <;>
      exact h.moved (like_one rfl rfl rfl rfl rfl (Nat.le_refl 0) (fun _ => rfl) (fun _ => rfl) rfl (by simp [Job.alone]))
  · cases who with
    | read => exact h.moved (nothing_holding.like rfl rfl rfl rfl rfl (fun _ => rfl) fun _ => rfl)
    | fill f =>
      exact h.moved (like_one rfl rfl rfl (done_reader f) rfl (Nat.le_refl 0) (fun _ => rfl) (fun _ => rfl) rfl
        (by simp [Job.alone]))

theorem pin_inv (h : s.Inv (.pin r :: rest)) : (s.step ch (.pin r)).1.Inv ((s.step ch (.pin r)).2 ++ rest) := by
  simp only [step]
  rw [h.touch_eq (Or.inr (by simp [Job.reader]))]
  exact h.moved (like_one rfl rfl rfl rfl rfl (Nat.le_refl 0) (fun _ => rfl) (fun _ => rfl) rfl fun _ => id)

theorem plan_inv (h : s.Inv (.plan r :: rest)) : (s.step ch (.plan r)).1.Inv ((s.step ch (.plan r)).2 ++ rest) := by
  simp only [step]
  rw [h.touch_eq (Or.inr (by simp [Job.reader]))]
  split_ifs <;>
    exact h.moved (like_one rfl rfl rfl rfl rfl (Nat.le_refl 0) (fun _ => rfl) (fun _ => rfl) rfl fun _ => id)

theorem reading_inv (h : s.Inv (.reading r :: rest)) :
    (s.step ch (.reading r)).1.Inv ((s.step ch (.reading r)).2 ++ rest) := by
  simp only [step]
  rw [h.touch_eq (Or.inr (by simp [Job.reader]))]
  exact h.moved (like_one rfl rfl rfl rfl rfl (Nat.le_refl 0) (fun _ => rfl) (fun _ => rfl) rfl (by simp [Job.alone]))

theorem readDone_inv {ok : Bool} (h : s.Inv (.readDone r ok :: rest)) :
    (s.step ch (.readDone r ok)).1.Inv ((s.step ch (.readDone r ok)).2 ++ rest) := by
  have hlike : Like (.readDone r ok) [.settle r] :=
    like_one rfl rfl rfl rfl rfl (Nat.le_refl 0) (fun _ => rfl) (fun _ => rfl) rfl (by simp [Job.alone])
  refine h.move hlike _ fun hl => ?_
  rw [Bool.and_eq_true] at hl
  exact hl.1

theorem fetching_inv (h : s.Inv (.fetching r :: rest)) :
    (s.step ch (.fetching r)).1.Inv ((s.step ch (.fetching r)).2 ++ rest) := by
  simp only [step]
  split <;>
    exact h.moved (like_one rfl rfl rfl rfl rfl (Nat.le_refl 0) (fun _ => rfl) (fun _ => rfl) rfl (by simp [Job.alone]))

theorem charged_inv {f : Filler} {total : ℤ} (h : s.Inv (.charged f total :: rest)) :
    (s.step ch (.charged f total)).1.Inv ((s.step ch (.charged f total)).2 ++ rest) := by
  simp only [step]
  split
  · exact h.moved (like_one rfl rfl rfl (done_reader f) rfl (Nat.le_refl 0) (fun _ => rfl) (fun _ => rfl) rfl
      (by simp [Job.alone]))
  · exact h.moved (like_one rfl rfl rfl rfl rfl (Nat.le_refl 0) (fun _ => rfl) (fun _ => rfl) rfl (by simp [Job.alone]))

theorem reserve_inv {f : Filler} (h : s.Inv (.reserve f :: rest)) :
    (s.step ch (.reserve f)).1.Inv ((s.step ch (.reserve f)).2 ++ rest) := by
  simp only [step]
  rw [h.touch_eq (Or.inl (by simp [Job.works]))]
  split_ifs <;>
    exact h.moved (like_one rfl rfl rfl rfl rfl (Nat.le_refl 0) (fun _ => rfl) (fun _ => rfl) rfl (by simp [Job.alone]))

theorem giveUp_inv {f : Filler} (h : s.Inv (.giveUp f :: rest)) :
    (s.step ch (.giveUp f)).1.Inv ((s.step ch (.giveUp f)).2 ++ rest) := by
  simp only [step]
  rw [h.touch_eq (Or.inl (by simp [Job.works]))]
  exact h.moved (like_one rfl rfl rfl (done_reader f) rfl (Nat.le_refl 0) (fun _ => rfl) (fun _ => rfl) rfl
    (by simp [Job.alone]))

theorem startWorker_inv {f : Filler} (h : s.Inv (.startWorker f :: rest)) :
    (s.step ch (.startWorker f)).1.Inv ((s.step ch (.startWorker f)).2 ++ rest) := by
  simp only [step]
  split_ifs <;>
    exact h.moved (like_one rfl rfl rfl rfl rfl (Nat.le_refl 1) (fun _ => rfl) (fun _ => rfl) rfl (by simp [Job.alone]))

theorem queueWorker_inv {f : Filler} (h : s.Inv (.queueWorker f :: rest)) :
    (s.step ch (.queueWorker f)).1.Inv ((s.step ch (.queueWorker f)).2 ++ rest) := by
  simp only [step]
  refine h.moved ⟨rfl, rfl, rfl, fun r => ?_, rfl, Nat.le_refl 0, fun _ => rfl, fun _ => rfl, rfl, by simp [Job.alone]⟩
  show Job.uses r .worker + (Job.uses r (.loop f.next) + 0) = _
  rw [show Job.uses r .worker = 0 from if_neg (by simp [Job.reader]), Nat.zero_add]
  rfl

theorem writing_inv {fill : ℕ} (h : s.Inv (.writing fill :: rest)) :
    (s.step ch (.writing fill)).1.Inv ((s.step ch (.writing fill)).2 ++ rest) := by
  simp only [step]
  rw [h.touch_eq (Or.inl (by simp [Job.works]))]
  exact h.moved (like_one rfl rfl rfl rfl rfl (Nat.le_refl 0) (fun _ => rfl) (fun _ => rfl) rfl (by simp [Job.alone]))

theorem fillDone_inv {fill : ℕ} {written : Bool} (h : s.Inv (.fillDone fill written :: rest)) :
    (s.step ch (.fillDone fill written)).1.Inv ((s.step ch (.fillDone fill written)).2 ++ rest) := by
  have hlike : Like (.fillDone fill written) [.settleFill fill written] :=
    like_one rfl rfl rfl rfl rfl (Nat.le_refl 0) (fun _ => rfl) (fun _ => rfl) rfl (by simp [Job.alone])
  refine h.move hlike _ fun hl => ?_
  rw [Bool.and_eq_true] at hl
  exact hl.1

/-! ### Steps of the count -/

theorem count_inv {who : Caller} (h : s.Inv (.count who :: rest)) :
    (s.step ch (.count who)).1.Inv ((s.step ch (.count who)).2 ++ rest) := by
  simp only [step]
  refine h.exchange rfl ?_ ?_ (fun r => ?_) h.fresh (by simp [Job.alone]) h.alone_rest rfl h.asleep
    (h.starting_append (Nat.le_refl 0)) (fun i => rfl) (fun i => rfl) id Or.inl id (fun hne => absurd rfl hne)
    (fun _ _ => Nat.le_refl _) rfl
  · show s.busy + 1 + ((0 + s.queue.length + s.openReads : ℕ) : ℤ) =
      s.busy + ((1 + s.queue.length + s.openReads : ℕ) : ℤ)
    push_cast
    ring
  · cases who <;> rfl
  · rfl

/-- Let in: `Live` was still set, so cleanup has not begun. -/
theorem recheck_inv {who : Caller} (h : s.Inv (.recheck who :: rest)) :
    (s.step ch (.recheck who)).1.Inv ((s.step ch (.recheck who)).2 ++ rest) := by
  have hin : ∀ job' : Job, s.live = true → job'.works = 1 → job'.enters = 0 →
      job'.charges = Job.charges (.recheck who) → job'.reader = who.reader → job'.tends = 0 → job'.starts = 0 →
      (∀ i, job'.carries i = 0) → (∀ i, job'.finishes i = 0) → job'.sets = 0 → job'.alone = none →
        s.Inv ([job'] ++ rest) := by
    intro job' hlive h1 h2 h3 h4 h5 h6 h7 h8 h9 h10
    refine h.exchange rfl ?_ ?_ (fun r => ?_) h.fresh (by simp [h10]) h.alone_rest ?_ h.asleep
      (h.starting_append (by rw [tally_cons, h6]; exact Nat.le_refl 0)) (fun i => ?_) (fun i => ?_) id Or.inl id
      (fun hne => absurd (by rw [tally_cons, h9, tally_nil]) hne) (fun hoff => ?_) rfl
    · rw [tally_cons, tally_cons, h1, h2]
      rfl
    · rw [tally_cons, h3]
      rfl
    · rw [tally_cons, Job.uses, Job.uses, h4]
      rfl
    · rw [tally_cons, h5]
      rfl
    · rw [tally_cons, h7]
      rfl
    · rw [tally_cons, tally_cons, h7, h8]
      rfl
    · rw [hlive] at hoff
      cases hoff
  simp only [step]
  split
  next hlive =>
    cases who <;>
      exact hin _ hlive rfl rfl rfl rfl rfl rfl (fun _ => rfl) (fun _ => rfl) rfl rfl
  next =>
    cases who <;>
      exact h.moved (like_one rfl rfl rfl rfl rfl (Nat.le_refl 0) (fun _ => rfl) (fun _ => rfl) rfl (by simp [Job.alone]))

/-- Whoever is done drops its count, and sets `Idle` if it was the last. -/
theorem Inv.dropBusy (h : s.Inv (job :: rest)) (hnew : Holding job.reader job.charges new)
    (hone : job.works + job.enters = 1) (htends : job.tends = 0) (hstarts : job.starts = 0)
    (hcarries : ∀ i, job.carries i = 0) (hfinishes : ∀ i, job.finishes i = 0) :
    s.dropBusy.1.Inv ((new ++ s.dropBusy.2) ++ rest) := by
  have hsum : ∀ f : Job → ℕ, f .setIdle = 0 → tally f s.dropBusy.2 = 0 := by
    intro f hf
    unfold State.dropBusy
    split <;> simp [hf]
  have halone : ∀ j ∈ new ++ s.dropBusy.2, j.alone = none := by
    intro j hj
    rcases List.mem_append.mp hj with hj | hj
    · exact hnew.alone j hj
    · unfold State.dropBusy at hj
      split at hj
      · rw [List.mem_singleton.mp hj]
        rfl
      · cases hj
  have hworks : tally Job.works (new ++ s.dropBusy.2) = 0 := by rw [tally_append, hnew.works, hsum _ rfl]
  have henters : tally Job.enters (new ++ s.dropBusy.2) = 0 := by rw [tally_append, hnew.enters, hsum _ rfl]
  refine h.exchange rfl ?_ ?_ (fun r => ?_) h.fresh (fun j hj r hr => ?_) h.alone_rest ?_ h.asleep
    (h.starting_append ?_) (fun i => ?_) (fun i => ?_) id Or.inl id (fun hne => ?_) (fun _ _ => ?_) rfl
  · rw [hworks, henters, hone]
    show s.busy - 1 + ((1 + s.queue.length + s.openReads : ℕ) : ℤ) =
      s.busy + ((0 + 0 + s.queue.length + s.openReads : ℕ) : ℤ)
    push_cast
    ring
  · rw [tally_append, hnew.charges, hsum _ rfl]
    rfl
  · rw [tally_append, hnew.uses, hsum _ (if_neg (by simp [Job.reader]))]
    rfl
  · rw [halone j hj] at hr
    cases hr
  · rw [tally_append, hnew.tends, hsum _ rfl, htends]
    rfl
  · rw [tally_append, hnew.starts, hsum _ rfl, hstarts]
  · rw [tally_append, hnew.carries, hsum _ rfl, hcarries]
    rfl
  · rw [tally_append, tally_append, hnew.carries, hnew.finishes, hsum _ rfl, hsum _ rfl, hcarries, hfinishes]
    rfl
  · rw [tally_append, hnew.sets, Nat.zero_add] at hne
    by_contra hbusy
    apply hne
    unfold State.dropBusy at hbusy ⊢
    rw [if_neg hbusy]
    rfl
  · rw [hworks]
    exact Nat.add_le_add_right (Nat.add_le_add_right (Nat.zero_le _) _) _

theorem leave_inv {after : After} (h : s.Inv (.leave after :: rest)) :
    (s.step ch (.leave after)).1.Inv ((s.step ch (.leave after)).2 ++ rest) :=
  h.dropBusy (after_holding after) rfl rfl rfl (fun _ => rfl) fun _ => rfl

theorem countWorker_inv {f : Filler} (h : s.Inv (.countWorker f :: rest)) :
    (s.step ch (.countWorker f)).1.Inv ((s.step ch (.countWorker f)).2 ++ rest) := by
  have hqueue : s.queue ≠ [] := h.starting (by rw [tally_cons]; exact Nat.succ_ne_zero _ ∘ (Nat.add_comm _ _).trans)
  simp only [step]
  refine h.exchange rfl ?_ rfl (fun r => rfl) h.fresh (by simp [Job.alone]) h.alone_rest rfl h.asleep
    (h.starting_append (Nat.zero_le _)) (fun i => rfl) (fun i => rfl) id Or.inl id (fun hne => absurd rfl hne)
    (fun _ hzero => ?_) rfl
  · show s.busy + 1 + ((0 + s.queue.length + s.openReads : ℕ) : ℤ) =
      s.busy + ((1 + s.queue.length + s.openReads : ℕ) : ℤ)
    push_cast
    ring
  · -- The fill the caller queued is still counted.
    have hlen := List.length_pos_of_ne_nil hqueue
    rw [State.work] at hzero
    omega

theorem setIdle_inv (h : s.Inv (.setIdle :: rest)) : (s.step ch .setIdle).1.Inv ((s.step ch .setIdle).2 ++ rest) := by
  simp only [step]
  exact h.exchange rfl rfl rfl (fun r => rfl) h.fresh (by simp) h.alone_rest rfl h.asleep
    (h.starting_append (Nat.le_refl 0)) (fun i => rfl) (fun i => rfl) id (fun _ => Or.inr Nat.one_ne_zero)
    (fun _ => rfl) (fun hne => absurd rfl hne) (fun _ _ => Nat.le_refl _) rfl

/-! ### Steps of the backlog -/

theorem uncount_inv {who : Caller} (h : s.Inv (.uncount who :: rest)) :
    (s.step ch (.uncount who)).1.Inv ((s.step ch (.uncount who)).2 ++ rest) := by
  cases who with
  | read => exact h.dropBusy nothing_holding rfl rfl rfl (fun _ => rfl) fun _ => rfl
  | fill f =>
    have hnew : Holding f.reader 1 [.uncharge false (done f)] :=
      ⟨rfl, rfl, rfl, fun r => by simp [Job.uses, Job.reader, done_reader], rfl, rfl, fun _ => rfl, fun _ => rfl, rfl,
        by simp [Job.alone]⟩
    exact h.dropBusy hnew rfl rfl rfl (fun _ => rfl) fun _ => rfl

theorem loop_inv {f : Filler} (h : s.Inv (.loop f :: rest)) :
    (s.step ch (.loop f)).1.Inv ((s.step ch (.loop f)).2 ++ rest) := by
  simp only [step]
  split
  · exact h.moved ((after_holding (done f)).like (done_reader f).symm rfl rfl rfl rfl (fun _ => rfl) fun _ => rfl)
  · refine h.exchange rfl rfl ?_ (fun r => rfl) h.fresh (by simp [Job.alone]) h.alone_rest rfl h.asleep
      (h.starting_append (Nat.le_refl 0)) (fun i => rfl) (fun i => rfl) id Or.inl id (fun hne => absurd rfl hne)
      (fun _ _ => Nat.le_refl _) rfl
    show s.fillBytes + blockSize + blockSize * ((0 + s.queue.length : ℕ) : ℤ) =
      s.fillBytes + blockSize * ((1 + s.queue.length : ℕ) : ℤ)
    push_cast
    ring

theorem uncharge_eq (bytes : ℤ) (n : ℕ) :
    bytes - blockSize + blockSize * ((1 + n : ℕ) : ℤ) = bytes + blockSize * ((0 + n : ℕ) : ℤ) := by
  push_cast
  ring

theorem uncharge_inv {entered : Bool} {after : After} (h : s.Inv (.uncharge entered after :: rest)) :
    (s.step ch (.uncharge entered after)).1.Inv ((s.step ch (.uncharge entered after)).2 ++ rest) := by
  cases entered with
  | true =>
    exact h.exchange rfl rfl (uncharge_eq _ _) (fun r => rfl) h.fresh (by simp [step, Job.alone]) h.alone_rest rfl
      h.asleep (h.starting_append (Nat.le_refl 0)) (fun i => rfl) (fun i => rfl) id Or.inl id
      (fun hne => absurd rfl hne) (fun _ _ => Nat.le_refl _) rfl
  | false =>
    have hnew := after_holding after
    refine h.exchange rfl ?_ ?_ (fun r => ?_) h.fresh (fun j hj r hr => ?_) h.alone_rest ?_ h.asleep
      (h.starting_append (hnew.starts.trans_le (Nat.zero_le _))) (fun i => ?_) (fun i => ?_) id Or.inl id
      (fun hne => absurd hnew.sets hne) (fun _ _ => ?_) rfl
    all_goals simp only [step, Bool.false_eq_true, if_false] at *
    · rw [hnew.works, hnew.enters]
      rfl
    · rw [hnew.charges]
      exact uncharge_eq _ _
    · rw [hnew.uses]
      rfl
    · rw [hnew.alone j hj] at hr
      cases hr
    · rw [hnew.tends]
      rfl
    · rw [hnew.carries]
      rfl
    · rw [hnew.carries, hnew.finishes]
      rfl
    · rw [hnew.works]
      exact Nat.le_refl _

theorem unchargeFill_inv {fill : ℕ} (h : s.Inv (.unchargeFill fill :: rest)) :
    (s.step ch (.unchargeFill fill)).1.Inv ((s.step ch (.unchargeFill fill)).2 ++ rest) := by
  refine h.exchange rfl rfl (uncharge_eq _ _) (fun r => rfl) h.fresh (by simp [step, Job.alone]) h.alone_rest rfl
    h.asleep (h.starting_append (Nat.le_refl 0)) (fun i => rfl) (fun i => ?_) id Or.inl id
    (fun hne => absurd rfl hne) (fun _ _ => Nat.le_refl _) rfl
  show Function.update s.uncharged fill (s.uncharged fill + 1) i + 0 + (0 + s.queue.count i) + _ =
    s.uncharged i + (if fill = i then 1 else 0) + (0 + s.queue.count i) + _
  by_cases hi : fill = i
  · subst hi
    rw [Function.update_self, if_pos rfl]
    rfl
  · rw [Function.update_of_ne (Ne.symm hi), if_neg hi]
    rfl

/-! ### Steps of the fills -/

theorem settleFill_inv {fill : ℕ} {written : Bool} (h : s.Inv (.settleFill fill written :: rest)) :
    (s.step ch (.settleFill fill written)).1.Inv ((s.step ch (.settleFill fill written)).2 ++ rest) := by
  simp only [step]
  rw [h.touch_eq (Or.inl (by simp [Job.works]))]
  refine h.exchange rfl rfl rfl (fun r => rfl) h.fresh (by simp [Job.alone]) h.alone_rest rfl
    h.asleep (h.starting_append (Nat.le_refl 0)) (fun i => ?_) (fun i => ?_) id Or.inl id
    (fun hne => absurd rfl hne) (fun _ _ => Nat.le_refl _) rfl
  · show Function.update s.committed fill (s.committed fill + 1) i + (0 + s.queue.count i) + (if i < s.fills then 1 else 0) =
      s.committed i + ((if fill = i then 1 else 0) + s.queue.count i) + if i < s.fills then 1 else 0
    by_cases hi : fill = i
    · subst hi
      rw [Function.update_self, if_pos rfl]
      omega
    · rw [Function.update_of_ne (Ne.symm hi), if_neg hi]
  · show s.uncharged i + ((if fill = i then 1 else 0) + 0) + (0 + s.queue.count i) + (if i < s.fills then 1 else 0) =
      s.uncharged i + 0 + ((if fill = i then 1 else 0) + s.queue.count i) + if i < s.fills then 1 else 0
    omega

theorem copy_inv {f : Filler} (h : s.Inv (.copy f :: rest)) :
    (s.step ch (.copy f)).1.Inv ((s.step ch (.copy f)).2 ++ rest) := by
  simp only [step]
  split
  · have hnew : ∀ i, (if s.fills = i then 1 else 0) + (if i < s.fills then 1 else 0) =
        if i < s.fills + 1 then 1 else 0 := by
      intro i
      split_ifs <;> omega
    refine h.exchange rfl rfl rfl (fun r => rfl) h.fresh (by simp [Job.alone]) h.alone_rest rfl
      h.asleep (h.starting_append (Nat.le_refl 0)) (fun i => ?_) (fun i => ?_) id Or.inl id
      (fun hne => absurd rfl hne) (fun _ _ => Nat.le_refl _) rfl
    · have := hnew i
      show s.committed i + ((if s.fills = i then 1 else 0) + 0 + s.queue.count i) + (if i < s.fills then 1 else 0) =
        s.committed i + (0 + s.queue.count i) + if i < s.fills + 1 then 1 else 0
      omega
    · have := hnew i
      show s.uncharged i + 0 + ((if s.fills = i then 1 else 0) + 0 + s.queue.count i) + (if i < s.fills then 1 else 0) =
        s.uncharged i + 0 + (0 + s.queue.count i) + if i < s.fills + 1 then 1 else 0
      omega
  · exact h.moved (like_one rfl rfl rfl rfl rfl (Nat.le_refl 0) (fun _ => rfl) (fun _ => rfl) rfl (by simp [Job.alone]))

theorem queueFill_inv {f : Filler} {fill : ℕ} (h : s.Inv (.queueFill f fill :: rest)) :
    (s.step ch (.queueFill f fill)).1.Inv ((s.step ch (.queueFill f fill)).2 ++ rest) := by
  have hcount : ∀ i, (s.queue ++ [fill]).count i = s.queue.count i + if fill = i then 1 else 0 := by
    intro i
    rw [List.count_append, List.count_singleton]
    simp
  have hqueued : ∀ job' : Job, Holding f.reader 0 [job'] ∨ job' = .startWorker f →
      job'.tends + (if s.workerQueued then 1 else 0) = 1 →
      ({ s with queue := s.queue ++ [fill], workerQueued := true } : State).Inv ([job'] ++ rest) := by
    intro job' hj htends
    have hzero : tally Job.works [job'] = 0 ∧ tally Job.enters [job'] = 0 ∧ tally Job.charges [job'] = 0 ∧
        (∀ r, tally (Job.uses r) [job'] = if f.reader = some r then 1 else 0) ∧
        (∀ i, tally (Job.carries i) [job'] = 0) ∧ (∀ i, tally (Job.finishes i) [job'] = 0) ∧
        tally Job.sets [job'] = 0 ∧ ∀ j ∈ [job'], j.alone = none := by
      rcases hj with hj | rfl
      · exact ⟨hj.works, hj.enters, hj.charges, hj.uses, hj.carries, hj.finishes, hj.sets, hj.alone⟩
      · exact ⟨rfl, rfl, rfl, fun _ => rfl, fun _ => rfl, fun _ => rfl, rfl, by simp [Job.alone]⟩
    obtain ⟨h1, h2, h3, h4, h5, h6, h7, h8⟩ := hzero
    refine h.exchange rfl ?_ ?_ (fun r => ?_) h.fresh (fun j hj r hr => ?_) h.alone_rest ?_ (by simp) (by simp)
      (fun i => ?_) (fun i => ?_) id Or.inl id (fun hne => absurd h7 hne) (fun _ _ => ?_) rfl
    · rw [h1, h2, List.length_append]
      show s.busy + ((1 + 0 + s.queue.length + s.openReads : ℕ) : ℤ) =
        s.busy + ((0 + 0 + (s.queue.length + 1) + s.openReads : ℕ) : ℤ)
      push_cast
      ring
    · rw [h3, List.length_append]
      show s.fillBytes + blockSize * ((1 + s.queue.length : ℕ) : ℤ) =
        s.fillBytes + blockSize * ((0 + (s.queue.length + 1) : ℕ) : ℤ)
      push_cast
      ring
    · rw [h4]
      rfl
    · rw [h8 j hj] at hr
      cases hr
    · rw [tally_cons, tally_nil]
      exact htends
    · rw [h5, hcount]
      show s.committed i + (0 + (s.queue.count i + if fill = i then 1 else 0)) + _ =
        s.committed i + ((if fill = i then 1 else 0) + s.queue.count i) + _
      rw [Nat.zero_add, Nat.add_comm (s.queue.count i)]
    · rw [h5, h6, hcount]
      show s.uncharged i + 0 + (0 + (s.queue.count i + if fill = i then 1 else 0)) + _ =
        s.uncharged i + 0 + ((if fill = i then 1 else 0) + s.queue.count i) + _
      rw [Nat.zero_add, Nat.add_comm (s.queue.count i)]
    · rw [h1, List.length_append]
      show 0 + (s.queue.length + 1) + s.openReads ≤ 1 + s.queue.length + s.openReads
      omega
  simp only [step]
  split
  next hw => exact hqueued _ (Or.inl (after_holding (.loop f.next))) (by rw [if_pos hw]; rfl)
  next hw => exact hqueued _ (Or.inr rfl) (by rw [if_neg hw]; rfl)

theorem settles_tally (f : Job → ℕ) (n : ℕ) (fills : List ℕ) (hf : ∀ fill, f (.settleFill fill false) = n) :
    tally f (fills.map fun fill => .settleFill fill false) = n * fills.length := by
  induction fills with
  | nil => rfl
  | cons fill fills ih =>
    rw [List.map_cons, tally_cons, hf, ih, List.length_cons, Nat.mul_succ, Nat.add_comm]

theorem settles_carries (i : ℕ) (fills : List ℕ) :
    tally (Job.carries i) (fills.map fun fill => .settleFill fill false) = fills.count i := by
  induction fills with
  | nil => rfl
  | cons fill fills ih =>
    rw [List.map_cons, tally_cons, ih, List.count_cons, Nat.add_comm]
    simp [Job.carries]

theorem starts_le_tends (jobs : List Job) : tally Job.starts jobs ≤ tally Job.tends jobs := by
  induction jobs with
  | nil => exact Nat.le_refl 0
  | cons job jobs ih =>
    have hjob : job.starts ≤ job.tends := by cases job <;> simp [Job.starts, Job.tends]
    rw [tally_cons, tally_cons]
    omega

/-- Whoever tends the queue does so alone. -/
theorem Inv.tended_alone (h : s.Inv (job :: rest)) (hj : job.tends = 1) :
    s.workerQueued = true ∧ tally Job.tends rest = 0 ∧ tally Job.starts rest = 0 := by
  have ht := h.tended
  have hle := starts_le_tends rest
  rw [tally_cons, hj] at ht
  split at ht
  next hw => exact ⟨hw, by omega, by omega⟩
  next => omega

theorem abandonAll_inv {f : Filler} (h : s.Inv (.abandonAll f :: rest)) :
    (s.step ch (.abandonAll f)).1.Inv ((s.step ch (.abandonAll f)).2 ++ rest) := by
  obtain ⟨hw, -, hstarts⟩ := h.tended_alone rfl
  have hnext := after_holding (.loop f.next)
  have hsum : ∀ (g : Job → ℕ) (n : ℕ), (∀ fill, g (.settleFill fill false) = n) →
      tally g (s.queue.map (fun fill => .settleFill fill false) ++ [.loop f.next]) =
        n * s.queue.length + tally g [.loop f.next] := by
    intro g n hg
    rw [tally_append, settles_tally g n s.queue hg]
  simp only [step]
  refine h.exchange rfl ?_ ?_ (fun r => ?_) h.fresh (fun j hj r hr => ?_) h.alone_rest ?_ (fun _ => rfl) ?_
    (fun i => ?_) (fun i => ?_) id Or.inl id (fun hne => absurd ?_ hne) (fun _ _ => ?_) rfl
  · rw [hsum _ 1 fun _ => rfl, hsum _ 0 fun _ => rfl]
    show s.busy + ((0 + s.queue.length + s.openReads : ℕ) : ℤ) =
      s.busy + ((1 * s.queue.length + 0 + (0 * s.queue.length + 0) + 0 + s.openReads : ℕ) : ℤ)
    congr 2
    omega
  · rw [hsum _ 1 fun _ => rfl]
    show s.fillBytes + blockSize * ((0 + s.queue.length : ℕ) : ℤ) =
      s.fillBytes + blockSize * ((1 * s.queue.length + 0 + 0 : ℕ) : ℤ)
    congr 3
    omega
  · rw [hsum _ 0 fun _ => rfl, Nat.zero_mul, Nat.zero_add]
    rfl
  · rcases List.mem_append.mp hj with hj | hj
    · obtain ⟨fill, -, rfl⟩ := List.mem_map.mp hj
      cases hr
    · rw [List.mem_singleton.mp hj] at hr
      cases hr
  · rw [hsum _ 0 fun _ => rfl, hw, Nat.zero_mul]
    rfl
  · rw [tally_append, hsum _ 0 fun _ => rfl, hstarts, Nat.zero_mul]
    exact fun hne => absurd rfl hne
  · rw [tally_append, settles_carries]
    show s.committed i + (s.queue.count i + 0 + 0) + _ = s.committed i + (0 + s.queue.count i) + _
    rw [Nat.zero_add]
    rfl
  · rw [hsum (Job.finishes i) 0 fun _ => rfl, tally_append, settles_carries, Nat.zero_mul]
    show s.uncharged i + 0 + (s.queue.count i + 0 + 0) + _ = s.uncharged i + 0 + (0 + s.queue.count i) + _
    rw [Nat.zero_add]
    rfl
  · rw [hsum _ 0 fun _ => rfl, Nat.zero_mul]
    rfl
  · rw [hsum _ 1 fun _ => rfl]
    show 1 * s.queue.length + 0 + 0 + s.openReads ≤ 0 + s.queue.length + s.openReads
    omega

theorem worker_inv (h : s.Inv (.worker :: rest)) : (s.step ch .worker).1.Inv ((s.step ch .worker).2 ++ rest) := by
  obtain ⟨hw, -, hstarts⟩ := h.tended_alone rfl
  simp only [step]
  split
  next hq =>
    refine h.exchange rfl rfl rfl (fun r => rfl) h.fresh (by simp [Job.alone]) h.alone_rest ?_ (fun _ => hq) ?_
      (fun i => rfl) (fun i => rfl) id Or.inl id (fun hne => absurd rfl hne) (fun _ _ => Nat.le_refl _) rfl
    · rw [hw]
      rfl
    · rw [tally_append, hstarts]
      exact fun hne => absurd rfl hne
  next fill queue hq =>
    have htouch : (if s.live = true then s.touch else s) = s := by
      rw [h.touch_eq (Or.inl (by simp [Job.works])), ite_self]
    rw [htouch]
    have htaken : ∀ job' : Job, job'.works = 1 → job'.enters = 0 → job'.charges = 1 → job'.reader = none →
        job'.tends = 0 → job'.starts = 0 → (∀ i, job'.carries i = if fill = i then 1 else 0) →
        (∀ i, job'.finishes i = 0) → job'.sets = 0 → job'.alone = none →
          ({ s with queue := queue } : State).Inv ([job', .worker] ++ rest) := by
      intro job' h1 h2 h3 h4 h5 h6 h7 h8 h9 h10
      have hsum : ∀ g : Job → ℕ, tally g [job', .worker] = g job' + (g .worker + 0) := fun g => by
        rw [tally_cons, tally_cons, tally_nil]
      refine h.exchange rfl ?_ ?_ (fun r => ?_) h.fresh (fun j hj r hr => ?_) h.alone_rest ?_ (by simp [hw]) ?_
        (fun i => ?_) (fun i => ?_) id Or.inl id (fun hne => absurd ?_ hne) (fun _ _ => ?_) rfl
      · rw [hsum, hsum, h1, h2, hq]
        show s.busy + ((1 + 0 + (queue.length + 1) + s.openReads : ℕ) : ℤ) =
          s.busy + ((1 + (1 + 0) + (0 + (0 + 0)) + queue.length + s.openReads : ℕ) : ℤ)
        congr 2
        omega
      · rw [hsum, h3, hq]
        show s.fillBytes + blockSize * ((0 + (queue.length + 1) : ℕ) : ℤ) =
          s.fillBytes + blockSize * ((1 + (0 + 0) + queue.length : ℕ) : ℤ)
        congr 3
        omega
      · have hu : job'.uses r = 0 := by
          rw [Job.uses, h4]
          rfl
        rw [hsum, hu]
        rfl
      · rcases List.mem_cons.mp hj with rfl | hj
        · rw [h10] at hr
          cases hr
        · rw [List.mem_singleton.mp hj] at hr
          cases hr
      · rw [hsum, h5, hw]
        rfl
      · rw [tally_append, hsum, h6, hstarts]
        exact fun hne => absurd rfl hne
      · rw [hsum, h7, hq, List.count_cons]
        simp only [beq_iff_eq]
        show s.committed i + ((if fill = i then 1 else 0) + (0 + 0) + queue.count i) + _ =
          s.committed i + (0 + (queue.count i + if fill = i then 1 else 0)) + _
        omega
      · rw [hsum, hsum, h7, h8, hq, List.count_cons]
        simp only [beq_iff_eq]
        show s.uncharged i + (0 + (0 + 0)) + ((if fill = i then 1 else 0) + (0 + 0) + queue.count i) + _ =
          s.uncharged i + 0 + (0 + (queue.count i + if fill = i then 1 else 0)) + _
        omega
      · rw [hsum, h9]
        rfl
      · rw [hsum, h1, hq]
        show 1 + (1 + 0) + queue.length + s.openReads ≤ 1 + (queue.length + 1) + s.openReads
        omega
    split_ifs
    · exact htaken _ rfl rfl rfl rfl rfl rfl (fun _ => rfl) (fun _ => rfl) rfl rfl
    · exact htaken _ rfl rfl rfl rfl rfl rfl (fun _ => rfl) (fun _ => rfl) rfl rfl

/-! ### Steps of the reads -/

theorem reader_of_alone (h : job.alone = some r) : job.reader = some r := by
  cases job with
  | issue k first =>
    cases first with
    | true => exact h
    | false => cases h
  | pin k => exact h
  | plan k => exact h
  | drop k => exact h
  | _ => cases h

/-- Whoever is alone with a read is nobody else than the job that runs. -/
theorem Inv.alone_update (h : s.Inv (job :: rest)) (hr : job.reader = some r) (v : ℤ) :
    ∀ j ∈ rest, ∀ k, j.alone = some k → Function.update s.outstanding r v k = 1 := by
  intro j hj k hk
  have hone := h.alone_rest j hj k hk
  have hne : k ≠ r := by
    rintro rfl
    have hu := h.users k
    have hle := le_tally (f := Job.uses k) hj
    rw [Job.uses, if_pos (reader_of_alone hk)] at hle
    rw [tally_cons, Job.uses, if_pos hr, hone] at hu
    push_cast at hu
    omega
  rw [Function.update_of_ne hne]
  exact hone

theorem Inv.fresh_update (h : s.Inv (job :: rest)) (hr : job.reader = some r) (v : ℤ) :
    ∀ k, s.reads ≤ k → Function.update s.outstanding r v k = 0 := by
  intro k hk
  have := h.lt_reads hr
  rw [Function.update_of_ne (by omega)]
  exact h.fresh k hk

/-- One read's holds change. -/
theorem openReads_update (hr : r < s.reads) (v : ℤ) :
    ({ s with outstanding := Function.update s.outstanding r v } : State).openReads +
        (if 0 < s.outstanding r then 1 else 0) = s.openReads + if 0 < v then 1 else 0 :=
  sum_range_update hr s.outstanding v fun _ n => if 0 < n then 1 else 0

theorem uses_self (h : job.reader = some r) : job.uses r = 1 := if_pos h

theorem uses_of_ne {k : ℕ} (h : job.reader = some r) (hk : k ≠ r) : job.uses k = 0 :=
  if_neg (by rw [h]; simpa using Ne.symm hk)

theorem allocate_inv (h : s.Inv (.allocate :: rest)) :
    (s.step ch .allocate).1.Inv ((s.step ch .allocate).2 ++ rest) := by
  simp only [step]
  split
  · have hopen : ({ s with outstanding := Function.update s.outstanding s.reads 1, reads := s.reads + 1 } : State).openReads =
        s.openReads + 1 := by
      unfold openReads
      simp only [Finset.sum_range_succ, Function.update_self]
      congr 1
      apply Finset.sum_congr rfl
      intro k hk
      simp only [Function.update_of_ne (Finset.mem_range.mp hk).ne]
    have hnew := h.fresh s.reads (Nat.le_refl _)
    refine h.exchange rfl ?_ rfl (fun k => ?_) (fun k hk => ?_) (fun j hj k hk => ?_) (fun j hj k hk => ?_) rfl h.asleep
      (h.starting_append (Nat.le_refl 0)) (fun i => rfl) (fun i => rfl) id Or.inl id (fun hne => absurd rfl hne)
      (fun _ _ => ?_) rfl
    · rw [hopen]
      show s.busy + ((1 + 0 + s.queue.length + s.openReads : ℕ) : ℤ) =
        s.busy + ((0 + 0 + s.queue.length + (s.openReads + 1) : ℕ) : ℤ)
      congr 2
      omega
    · by_cases hk : k = s.reads
      · subst hk
        have hpin : Job.uses s.reads (.pin s.reads) = 1 := uses_self rfl
        rw [tally_cons, hpin]
        simp only [Function.update_self, hnew]
        rfl
      · have hpin : Job.uses k (.pin s.reads) = 0 := uses_of_ne rfl hk
        rw [tally_cons, hpin]
        simp only [Function.update_of_ne hk]
        rfl
    · simp only at hk ⊢
      rw [Function.update_of_ne (by omega)]
      exact h.fresh k (by omega)
    · rw [List.mem_singleton.mp hj] at hk
      cases hk
      exact Function.update_self ..
    · have hone := h.alone_rest j hj k hk
      simp only
      rw [Function.update_of_ne]
      · exact hone
      · rintro rfl
        omega
    · rw [hopen]
      show 0 + s.queue.length + (s.openReads + 1) ≤ 1 + s.queue.length + s.openReads
      omega
  · exact h.moved (like_one rfl rfl rfl rfl rfl (Nat.le_refl 0) (fun _ => rfl) (fun _ => rfl) rfl (by simp [Job.alone]))

/-- The last hold on a read goes: it is unpinned and freed, and its count is left. -/
theorem Inv.free (h : s.Inv (job :: rest)) (hr : job.reader = some r) (hone : s.outstanding r = 1)
    (hworks : job.works = 0) (henters : job.enters = 0) (hcharges : job.charges = 0) (htends : job.tends = 0)
    (hcarries : ∀ i, job.carries i = 0) (hfinishes : ∀ i, job.finishes i = 0) :
    ({ s with outstanding := Function.update s.outstanding r 0 } : State).Inv ([.leave .nothing] ++ rest) := by
  have hopen : ({ s with outstanding := Function.update s.outstanding r 0 } : State).openReads + 1 = s.openReads := by
    have := openReads_update (h.lt_reads hr) 0
    rw [hone] at this
    simpa using this
  refine h.exchange rfl ?_ ?_ (fun k => ?_) (h.fresh_update hr 0) (by simp [Job.alone]) (h.alone_update hr 0) ?_
    h.asleep (h.starting_append (Nat.zero_le _)) (fun i => ?_) (fun i => ?_) id Or.inl id (fun hne => absurd rfl hne)
    (fun _ _ => ?_) rfl
  · rw [hworks, henters, ← hopen]
    show s.busy + _ = s.busy + ((1 + 0 + s.queue.length + _ : ℕ) : ℤ)
    congr 2
    omega
  · rw [hcharges]
    rfl
  · by_cases hk : k = r
    · subst hk
      rw [uses_self hr]
      simp only [Function.update_self, hone]
      rfl
    · rw [uses_of_ne hr hk]
      simp only [Function.update_of_ne hk]
      rfl
  · rw [htends]
    rfl
  · rw [hcarries]
    rfl
  · rw [hcarries, hfinishes]
    rfl
  · rw [hworks, ← hopen]
    show 1 + s.queue.length + _ ≤ 0 + s.queue.length + (_ + 1)
    omega

theorem drop_inv (h : s.Inv (.drop r :: rest)) : (s.step ch (.drop r)).1.Inv ((s.step ch (.drop r)).2 ++ rest) := by
  simp only [step]
  rw [h.touch_eq (Or.inr (by simp [Job.reader]))]
  exact h.free rfl (h.alone _ List.mem_cons_self r rfl) rfl rfl rfl rfl (fun _ => rfl) fun _ => rfl

theorem settle_inv (h : s.Inv (.settle r :: rest)) :
    (s.step ch (.settle r)).1.Inv ((s.step ch (.settle r)).2 ++ rest) := by
  simp only [step]
  split
  next hlast =>
    rw [h.touch_eq (Or.inr (by simp [Job.reader])), hlast]
    exact h.free rfl (by omega) rfl rfl rfl rfl (fun _ => rfl) fun _ => rfl
  next hmore =>
    have hpos := h.outstanding_pos (r := r) rfl
    have hopen := openReads_update (h.lt_reads (r := r) rfl) (s.outstanding r - 1)
    rw [if_pos (by omega), if_pos (by omega), Nat.add_right_cancel_iff] at hopen
    refine h.exchange rfl ?_ rfl (fun k => ?_) (h.fresh_update rfl _) (by simp) (h.alone_update rfl _) rfl h.asleep
      (h.starting_append (Nat.le_refl 0)) (fun i => rfl) (fun i => rfl) id Or.inl id (fun hne => absurd rfl hne)
      (fun _ _ => ?_) rfl
    · rw [hopen]
      rfl
    · by_cases hk : k = r
      · subst hk
        rw [uses_self rfl]
        simp only [Function.update_self, tally_nil]
        push_cast
        ring
      · rw [uses_of_ne rfl hk]
        simp only [Function.update_of_ne hk]
        rfl
    · rw [hopen]
      exact Nat.le_refl _

theorem issue_inv {first : Bool} (h : s.Inv (.issue r first :: rest)) :
    (s.step ch (.issue r first)).1.Inv ((s.step ch (.issue r first)).2 ++ rest) := by
  have hissued : ∀ part last : Job, part.reader = some r → last.reader = some r →
      (∀ g ∈ [Job.works, Job.enters, Job.charges, Job.tends, Job.starts, Job.sets], g part = 0 ∧ g last = 0) →
      (∀ i, part.carries i = 0 ∧ last.carries i = 0 ∧ part.finishes i = 0 ∧ last.finishes i = 0) →
      part.alone = none → last.alone = none →
        ({ s with outstanding := Function.update s.outstanding r (s.outstanding r + 1) } : State).Inv
          ([part, last] ++ rest) := by
    intro part last hp hl hzero hfill hpa hla
    have hsum : ∀ g ∈ [Job.works, Job.enters, Job.charges, Job.tends, Job.starts, Job.sets],
        tally g [part, last] = 0 := by
      intro g hg
      rw [tally_cons, tally_cons, tally_nil, (hzero g hg).1, (hzero g hg).2]
    have hpos := h.outstanding_pos (r := r) rfl
    have hopen := openReads_update (h.lt_reads (r := r) rfl) (s.outstanding r + 1)
    rw [if_pos (by omega), if_pos (by omega), Nat.add_right_cancel_iff] at hopen
    refine h.exchange rfl ?_ ?_ (fun k => ?_) (h.fresh_update rfl _) ?_ (h.alone_update rfl _) ?_ h.asleep
      (h.starting_append ?_) (fun i => ?_) (fun i => ?_) id Or.inl id (fun hne => absurd (hsum _ (by simp)) hne)
      (fun _ _ => ?_) rfl
    · rw [hopen, hsum Job.works (by simp), hsum Job.enters (by simp)]
      rfl
    · rw [hsum Job.charges (by simp)]
      rfl
    · rw [tally_cons, tally_cons, tally_nil]
      by_cases hk : k = r
      · subst hk
        rw [uses_self rfl, uses_self hp, uses_self hl]
        simp only [Function.update_self]
        push_cast
        ring
      · rw [uses_of_ne rfl hk, uses_of_ne hp hk, uses_of_ne hl hk]
        simp only [Function.update_of_ne hk]
    · simp [hpa, hla]
    · rw [hsum Job.tends (by simp)]
      rfl
    · rw [hsum Job.starts (by simp)]
      exact Nat.zero_le _
    · rw [tally_cons, tally_cons, tally_nil, (hfill i).1, (hfill i).2.1]
      rfl
    · simp only [tally_cons, tally_nil, (hfill i).1, (hfill i).2.1, (hfill i).2.2.1, (hfill i).2.2.2]
      rfl
    · rw [hopen, hsum Job.works (by simp)]
      exact Nat.le_refl _
  simp only [step]
  rw [h.touch_eq (Or.inr (by simp [Job.reader]))]
  split_ifs
  all_goals
    first
    | exact hissued _ _ rfl rfl (by simp [Job.works, Job.enters, Job.charges, Job.tends, Job.starts, Job.sets])
        (fun _ => ⟨rfl, rfl, rfl, rfl⟩) rfl rfl
    | exact h.moved (like_one rfl rfl rfl rfl rfl (Nat.le_refl 0) (fun _ => rfl) (fun _ => rfl) rfl
        (by simp [Job.alone, *]))

end BlorgFS.Teardown.State
