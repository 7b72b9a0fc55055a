import BlorgFS.CacheFile.ReadSteps

/-! The parts of a read: cut and issued one after another, read from the slots that hold
their blocks or fetched, and counted when they are done. -/

namespace BlorgFS.CacheFile

open Lib DiskCache

variable {content : Version → ℕ → UInt8} {c c' : Core} {ch : Choice} {job : Job} {rest new others : List Job} {r : ℕ}
  {read read' : CacheRead} {pos length slot : ℕ}

/-- A job that only a read being served has. -/
theorem Sound.serving_of_prepares (h : Sound content c (job :: rest)) (hjob : job.reader = some r)
    (hne : ∀ read, ¬ job.Prepares read) : (c.reads r).stage = .serving ∧ (c.reads r).Shaped ∧
      (c.reads r).Serving content (job :: crew r rest) := by
  have hread := h.reads r
  rw [crew_cons_self hjob] at hread
  have hstage : (c.reads r).stage = .serving := by
    cases hstage : (c.reads r).stage with
    | setUp => exact absurd (h.setUp_alone hjob hstage).2 (hne _)
    | serving => rfl
    | ended => exact absurd hstage (h.stage_ne_ended hjob)
  exact ⟨hstage, hread.shaped (by simp [hstage]), hread.serving hstage⟩

/-! ### Issuing -/

theorem div_block_add (a q : ℕ) : (a + q) / blockSize = a / blockSize + (a % blockSize + q) / blockSize := by
  unfold blockSize blockShift
  omega

/-- The blocks of a part lie in its run. -/
theorem located_of_cut (h : Cut read.offset read.valid read.slots read.issued)
    (hslot : read.part.slot = some slot) :
    read.Located read.issued read.part.length slot := by
  intro q hq
  have hstep : Cut.Step _ _ _ _ read.part := h.step
  have hhead : read.slots.getD (blockAt read.offset read.issued) none = some slot := hstep.slot.symm.trans hslot
  have hblock := block_eq read.offset read.issued
  have hend := hstep.inRun
  unfold runEndAt at hend
  have hk : (read.offset + read.issued + q) / blockSize = (read.offset + read.issued) / blockSize +
      ((read.offset + read.issued) % blockSize + q) / blockSize := div_block_add ..
  have hlt : (read.offset + read.issued + q) / blockSize < firstBlock read.offset + blockAt read.offset read.issued +
      runAt read.slots (blockAt read.offset read.issued) := by
    apply Nat.div_lt_of_lt_mul
    rw [Nat.mul_comm]
    omega
  generalize hkd : ((read.offset + read.issued) % blockSize + q) / blockSize = k at hk ⊢
  have hindex : (read.offset + read.issued + q) / blockSize - firstBlock read.offset =
      blockAt read.offset read.issued + k := by omega
  rw [hindex]
  cases k with
  | zero => exact hhead
  | succ k =>
    have hrun : 1 + k < runFrom (some slot) 1 (read.slots.drop (blockAt read.offset read.issued + 1)) := by
      unfold runAt at hlt
      rw [hhead] at hlt
      omega
    have hnext := getElem_of_lt_runFrom hrun
    rw [List.getD_eq_getElem?_getD, List.getElem?_drop, ← List.getD_eq_getElem?_getD] at hnext
    rw [show blockAt read.offset read.issued + (k + 1) = blockAt read.offset read.issued + 1 + k by omega, hnext,
      Option.map_some, Nat.add_comm 1 k]

/-- The read's own thread put another job in its place and, when it issued a part, that
part beside it. -/
theorem CacheRead.Serving.issued_part {part last : Job} {n : ℕ}
    (h : read.Serving content (.issue r :: others)) (hn : 0 < n)
    (hread' : read' = { read with
      outstanding := read.outstanding + 1, span := read.span + n, issued := read.issued + n })
    (hpart : part.Serves content read') (hlength : part.length = n) (hlead : part.leads = 0)
    (hcovers : ∀ p, part.covers p = if read.issued ≤ p ∧ p < read.issued + n then 1 else 0)
    (hlast : last.Serves content read') (hlast0 : last.length = 0 ∧ ∀ p, last.covers p = 0)
    (hlastLead : last.leads ≤ 1) (hfinished : last.leads = 0 → read.valid ≤ read.issued + n) :
    read'.Serving content ([part, last] ++ others) := by
  subst hread'
  have hlead1 := h.lead
  rw [tally_cons, show Job.leads (.issue r) = 1 from rfl] at hlead1
  refine ⟨fun j hj => ?_, ?_, ?_, fun hz => ?_, fun hz => ?_, fun p => ?_, ?_, fun heq p hp hv hc => ?_⟩
  · rcases List.mem_append.mp hj with hj | hj
    · rcases List.mem_cons.mp hj with rfl | hj
      · exact hpart
      · rw [List.mem_singleton.mp hj]
        exact hlast
    · have hserves := h.jobs j (List.mem_cons_of_mem _ hj)
      have hj0 := le_tally (f := Job.leads) hj
      cases j <;> simp only [Job.Serves, Job.leads] at hserves hj0 ⊢
      case drop => omega
      case issue => omega
      case reading => exact ⟨Nat.add_pos_left hserves.1 n, hserves.2⟩
      case readDone => exact ⟨Nat.add_pos_left hserves.1 n, hserves.2⟩
      all_goals exact Nat.add_pos_left hserves n
  · have := h.users
    rw [List.length_cons] at this
    rw [List.length_append, List.length_cons, List.length_cons, List.length_nil]
    push_cast at this ⊢
    omega
  · rw [tally_append, tally_cons, tally_cons, tally_nil]
    omega
  · rw [tally_append, tally_cons, tally_cons] at hz
    exact Or.inr (hfinished (by omega))
  · simp only at hz
    omega
  · have h1 := h.once p
    rw [tally_cons, show Job.covers p (.issue r) = 0 from rfl] at h1
    rw [tally_append, tally_cons, tally_cons, tally_nil, hcovers, hlast0.2]
    simp only
    split_ifs at h1 ⊢ <;> omega
  · have := h.within
    rw [tally_cons, show Job.length (.issue r) = 0 from rfl] at this
    rw [tally_append, tally_cons, tally_cons, tally_nil, hlength, hlast0.1]
    simp only
    omega
  · rw [tally_append, tally_cons, tally_cons, tally_nil, hlength, hlast0.1] at heq
    rw [tally_append, tally_cons, tally_cons, tally_nil, hcovers, hlast0.2] at hc
    simp only at heq hp
    have hlt : p < read.issued := by
      by_contra hge
      rw [if_pos ⟨by omega, hp⟩] at hc
      omega
    refine h.right ?_ p hlt hv ?_
    · rw [tally_cons, show Job.length (.issue r) = 0 from rfl]
      omega
    · rw [tally_cons, show Job.covers p (.issue r) = 0 from rfl]
      omega

/-- A part that cannot be started ends the read's thread. -/
theorem CacheRead.Serving.unstarted (h : read.Serving content (.issue r :: others)) (hissued : 0 < read.issued) :
    CacheRead.Serving content { read with refetch := read.refetch ||| readUnstarted } ([.settle r] ++ others) where
  jobs j hj := by
    have hlead := h.lead
    rw [tally_cons, show Job.leads (.issue r) = 1 from rfl] at hlead
    rcases List.mem_cons.mp hj with rfl | hj
    · exact hissued
    · have hserves := h.jobs j (List.mem_cons_of_mem _ hj)
      cases j <;> exact hserves
  users := h.users
  lead := by
    have hlead := h.lead
    rw [tally_cons] at hlead
    rw [tally_append]
    exact le_trans (Nat.add_le_add_right (Nat.zero_le _) _) hlead
  finished _ := Or.inl (fun h0 => absurd (Nat.or_eq_zero_iff.mp h0).2 (by decide))
  first := h.first
  once := h.once
  within := h.within
  right := h.right

/-- A part was issued: the loop goes on, or it was the last. -/
theorem Sound.onIssue {part : Job} (h : Sound content c (.issue r :: c.flight rest))
    (hread' : read' = { c.reads r with
      outstanding := (c.reads r).outstanding + 1, span := (c.reads r).span + length
      issued := (c.reads r).issued + length })
    (hlength : length = (c.reads r).part.length)
    (hreader : part.reader = some r) (hslot : part.slot = none)
    (hfills : part.Fills content c.world.fills c.disk) (hlead : part.leads = 0) (hpl : part.length = length)
    (hcovers : ∀ p, part.covers p = if (c.reads r).issued ≤ p ∧ p < (c.reads r).issued + length then 1 else 0)
    (hserves : part.Serves content read') :
    (((c.reads r).part.last = true ∨
        spanOf (c.reads r).valid ≤ (c.reads r).issued + length) →
      Sound content (c.setRead r read') ([part, .settle r] ++ c.flight rest)) ∧
    (¬ ((c.reads r).part.last = true ∨
        spanOf (c.reads r).valid ≤ (c.reads r).issued + length) →
      Sound content (c.setRead r read') ([part, .issue r] ++ c.flight rest)) := by
  obtain ⟨hstage, hshape, hserving⟩ := h.serving_of_prepares rfl fun _ hp => hp
  have hcut : Cut _ _ _ _ := hserving.jobs _ List.mem_cons_self
  have hstep : Cut.Step _ _ _ _ (c.reads r).part := hcut.step
  subst hlength
  have hissued : ∀ last : Job, last.reader = some r → last.slot = none → last.Fills content c.world.fills c.disk →
      read'.Serving content ([part, last] ++ crew r (c.flight rest)) →
        Sound content (c.setRead r read') ([part, last] ++ c.flight rest) := by
    intro last hr hsl hf hs
    subst hread'
    refine h.onBuffer rfl ?_ rfl rfl rfl rfl rfl Iff.rfl rfl rfl
      (CacheRead.Inv.of_serving hstage (hshape.congr rfl rfl rfl) hs)
    intro j hj
    rcases List.mem_cons.mp hj with rfl | hj
    · exact ⟨hreader, hslot, hfills⟩
    · rw [List.mem_singleton.mp hj]
      exact ⟨hr, hsl, hf⟩
  refine ⟨fun hdone => ?_, fun hmore => ?_⟩
  · refine hissued (.settle r) rfl rfl trivial ?_
    refine hserving.issued_part hstep.pos hread' hserves hpl hlead hcovers ?_ ⟨rfl, fun _ => rfl⟩ (Nat.zero_le 1)
      fun _ => hstep.done hdone
    rw [hread']
    exact Nat.add_pos_right _ hstep.pos
  · rw [not_or, Bool.not_eq_true, not_le] at hmore
    refine hissued (.issue r) rfl rfl trivial ?_
    refine hserving.issued_part hstep.pos hread' hserves hpl hlead hcovers ?_ ⟨rfl, fun _ => rfl⟩ (Nat.le_refl 1)
      fun h0 => absurd h0 Nat.one_ne_zero
    rw [hread']
    exact (hstep.next hmore.1 hmore.2).1

theorem issue_sound (h : Sound content c (.issue r :: c.flight rest))
    (hs : c.step ch (.issue r) = some (c', new)) : Sound content c' (new ++ c'.flight rest) := by
  obtain ⟨hstage, hshape, hserving⟩ := h.serving_of_prepares rfl fun _ hp => hp
  have hcut : Cut _ _ _ _ := hserving.jobs _ List.mem_cons_self
  have hpos : 0 < (c.reads r).issued + (c.reads r).part.length := Nat.add_pos_right _ hcut.step.pos
  simp only [Core.step, Core.issue, Option.some.injEq] at hs
  split at hs
  next =>
    cases hslot : (c.reads r).part.slot with
    | none =>
      simp only [hslot] at hs
      obtain ⟨hlast, hmore⟩ := @Sound.onIssue _ _ _ _ _ _ (.fetching r (c.reads r).issued _) h rfl rfl rfl rfl trivial rfl rfl
        (fun _ => rfl) hpos
      split at hs
      next hdone =>
        cases hs
        exact hlast hdone
      next hdone =>
        cases hs
        exact hmore hdone
    | some slot =>
      simp only [hslot] at hs
      obtain ⟨hlast, hmore⟩ := @Sound.onIssue _ _ _ _ _ _ (.reading r (c.reads r).issued _ slot) h rfl rfl rfl rfl trivial rfl rfl
        (fun _ => rfl) ⟨hpos, located_of_cut hcut hslot⟩
      split at hs
      next hdone =>
        cases hs
        exact hlast hdone
      next hdone =>
        cases hs
        exact hmore hdone
  next =>
    split at hs
    next hzero =>
      cases hs
      have hdrop : CacheRead.Serving content (c.reads r) ([.drop r] ++ crew r (c.flight rest)) := by
        refine { hserving with jobs := fun j hj => ?_ }
        rcases List.mem_cons.mp hj with rfl | hj
        · exact hzero
        · exact hserving.jobs j (List.mem_cons_of_mem _ hj)
      exact h.onBuffer rfl (by simp [Job.reader, Job.slot, Job.Fills]) (Function.update_eq_self r c.reads).symm
        rfl rfl rfl rfl Iff.rfl rfl rfl (CacheRead.Inv.of_serving hstage hshape hdrop)
    next hzero =>
      cases hs
      refine h.onBuffer rfl (by simp [Job.reader, Job.slot, Job.Fills]) rfl rfl rfl rfl rfl Iff.rfl rfl rfl
        (CacheRead.Inv.of_serving hstage (hshape.congr rfl rfl rfl) ?_)
      exact hserving.unstarted (Nat.pos_of_ne_zero hzero)

/-! ### Serving -/

/-- A pinned slot's block is in the file. -/
theorem Sound.slot_holds {i : ℕ} (h : Sound content c (job :: rest)) (hjob : job.reader = some r)
    (hslot : (c.reads r).slots.getD i none = some slot) :
    Holds content ((c.reads r).key.skip i) fun j => c.disk (slot * blockSize + j) := by
  have hmem : (⟨r, slot, (c.reads r).key.skip i⟩ : Pin) ∈ c.world.pinned := by
    refine Multiset.mem_of_le (Multiset.filter_le (fun p => p.client = r) _) ?_
    rw [h.pins_le hjob]
    exact mem_pinsOf hslot
  obtain ⟨-, hvalid, hkey⟩ := h.world.pinned _ hmem
  have := h.disk slot hvalid
  rwa [hkey] at this

/-- A part's bytes in its slots are the version's. -/
theorem Sound.located_right (h : Sound content c (job :: rest)) (hjob : job.reader = some r)
    (hshape : (c.reads r).Shaped) (hloc : (c.reads r).Located pos length slot) {q : ℕ} (hq : q < length)
    (hv : pos + q < (c.reads r).valid) :
    c.disk (slot * blockSize + ((c.reads r).offset + pos) % blockSize + q) =
      content (versionOf (c.reads r).key) ((c.reads r).offset + (pos + q)) := by
  have hholds := h.slot_holds hjob (hloc q hq)
  have hfirst : firstBlock (c.reads r).offset ≤ ((c.reads r).offset + pos + q) / blockSize :=
    Nat.div_le_div_right (by omega)
  have hblock : (c.reads r).key.block + (((c.reads r).offset + pos + q) / blockSize - firstBlock (c.reads r).offset) =
      ((c.reads r).offset + pos + q) / blockSize := by
    rw [hshape.block]
    omega
  have hfits := hshape.fits
  have hbyte := hholds ((((c.reads r).offset + pos) % blockSize + q) % blockSize)
    (Nat.mod_lt _ (by unfold blockSize blockShift; omega)) (by
      simp only [Key.skip]
      rw [hblock]
      unfold blockSize blockShift at *
      omega)
  simp only [Key.skip] at hbyte
  rw [hblock] at hbyte
  have hdisk : (slot + (((c.reads r).offset + pos) % blockSize + q) / blockSize) * blockSize +
      (((c.reads r).offset + pos) % blockSize + q) % blockSize =
        slot * blockSize + ((c.reads r).offset + pos) % blockSize + q := by
    have := Nat.div_add_mod (((c.reads r).offset + pos) % blockSize + q) blockSize
    rw [Nat.add_mul]
    rw [Nat.mul_comm] at this
    omega
  have hfile : ((c.reads r).offset + pos + q) / blockSize * blockSize +
      (((c.reads r).offset + pos) % blockSize + q) % blockSize = (c.reads r).offset + (pos + q) := by
    rw [Nat.mod_add_mod, Nat.add_assoc (c.reads r).offset, Nat.div_add_mod']
  rw [hdisk, hfile] at hbyte
  exact hbyte

/-- One of a read's parts moved on. -/
theorem Sound.onPart (h : Sound content c (job :: c.flight rest)) (hjob : job.reader = some r)
    (hstage : (c.reads r).stage = .serving) (hshape : (c.reads r).Shaped) (hk : (c.reads r).Kept read')
    (hnew : ∀ j ∈ new, j.reader = some r ∧ j.slot = none ∧ j.Fills content c.world.fills c.disk)
    (hserving : read'.Serving content (new ++ crew r (c.flight rest))) :
    Sound content (c.setRead r read') (new ++ c.flight rest) :=
  h.onBuffer hjob hnew rfl rfl rfl rfl rfl (by rw [hk.stage]) hk.key hk.slots
    (CacheRead.Inv.of_serving (hk.stage.trans hstage) (hshape.congr hk.key hk.offset hk.valid) hserving)

/-- A part failed: its bytes are never counted, so the read falls short of its span. -/
theorem Sound.failPart (h : Sound content c (job :: c.flight rest)) (hjob : job.reader = some r)
    (hlead : job.leads = 0) (hk : (c.reads r).Kept read')
    (hsame : read'.buffer = (c.reads r).buffer ∧ read'.outstanding = (c.reads r).outstanding ∧
      read'.bytes = (c.reads r).bytes)
    (hrefetch : (c.reads r).refetch ≠ 0 → read'.refetch ≠ 0) (hissued : 0 < (c.reads r).issued)
    (hstage : (c.reads r).stage = .serving) (hshape : (c.reads r).Shaped)
    (hserving : (c.reads r).Serving content (job :: crew r (c.flight rest))) :
    Sound content (c.setRead r read') ([.settle r] ++ c.flight rest) := by
  obtain ⟨hbuffer, husers, hbytes⟩ := hsame
  refine h.onPart hjob hstage hshape hk (by simp [Job.reader, Job.slot, Job.Fills]) ?_
  refine hserving.exchange hk hlead hissued (fun j hj => ?_) (fun p _ => congrFun hbuffer p) (by simp [husers]) hrefetch
    (fun _ => Nat.zero_le _) (by rw [hbytes]; exact Nat.le_add_right _ _) fun heq p _ hp _ => ?_
  · rw [List.mem_singleton.mp hj]
    refine ⟨?_, rfl⟩
    show 0 < read'.issued
    rw [hk.issued]
    exact hissued
  · rw [hbytes] at heq
    exact absurd (Job.covers_eq_zero (Nat.add_left_cancel heq).symm p) hp

theorem reading_sound (h : Sound content c (.reading r pos length slot :: c.flight rest))
    (hs : c.step ch (.reading r pos length slot) = some (c', new)) : Sound content c' (new ++ c'.flight rest) := by
  obtain ⟨hstage, hshape, hserving⟩ := h.serving_of_prepares rfl fun _ hp => hp
  obtain ⟨hissued, hloc⟩ : 0 < (c.reads r).issued ∧ (c.reads r).Located pos length slot :=
    hserving.jobs _ List.mem_cons_self
  have houtside : ∀ p (v w : ℕ → UInt8) (n : ℕ), n ≤ length → Job.covers p (.reading r pos length slot) = 0 →
      overwrite v pos n w p = v p := by
    intro p v w n hn hp
    apply overwrite_of_not_mem
    by_contra hin
    rw [Job.covers, if_pos (by omega)] at hp
    cases hp
  simp only [Core.step, Core.transfer, Option.some.injEq] at hs
  split at hs
  next =>
    cases hs
    have hn := Nat.min_le_right ch.count length
    refine h.onPart rfl hstage hshape ⟨rfl, rfl, rfl, rfl, rfl, rfl, rfl⟩ (by simp [Job.reader, Job.slot, Job.Fills]) ?_
    refine hserving.exchange ⟨rfl, rfl, rfl, rfl, rfl, rfl, rfl⟩ rfl hissued (fun j hj => ?_) (fun p hp => ?_) (by simp)
      id (fun _ => Nat.le_refl _) (Nat.le_refl _) fun _ p _ hp hz => absurd hz hp
    · rw [List.mem_singleton.mp hj]
      refine ⟨⟨hissued, fun n hres => ⟨Option.some.inj hres ▸ hn, fun hall p h1 h2 h3 => ?_⟩⟩, rfl⟩
      obtain ⟨q, rfl⟩ := Nat.exists_eq_add_of_le h1
      have hmin : min ch.count length = length := (Option.some.inj hres).trans hall
      simp only [CacheRead.Right]
      rw [hmin, overwrite_of_mem h1 h2, Nat.add_sub_cancel_left]
      exact h.located_right rfl hshape hloc (by omega) h3
    · dsimp only
      rw [houtside p _ _ _ hn hp, houtside p _ _ _ (Nat.le_refl _) hp]
  next =>
    cases hs
    refine h.onPart rfl hstage hshape ⟨rfl, rfl, rfl, rfl, rfl, rfl, rfl⟩ (by simp [Job.reader, Job.slot, Job.Fills]) ?_
    refine hserving.exchange ⟨rfl, rfl, rfl, rfl, rfl, rfl, rfl⟩ rfl hissued (fun j hj => ?_)
      (fun p hp => houtside p _ _ _ (Nat.le_refl _) hp) (by simp) id (fun _ => Nat.le_refl _) (Nat.le_refl _)
      fun _ p _ hp hz => absurd hz hp
    rw [List.mem_singleton.mp hj]
    exact ⟨⟨hissued, by simp⟩, rfl⟩

theorem readDone_sound {result : Option ℕ} (h : Sound content c (.readDone r pos length result :: c.flight rest))
    (hs : c.step ch (.readDone r pos length result) = some (c', new)) : Sound content c' (new ++ c'.flight rest) := by
  obtain ⟨hstage, hshape, hserving⟩ := h.serving_of_prepares rfl fun _ hp => hp
  obtain ⟨hissued, hresult⟩ := hserving.jobs _ List.mem_cons_self
  simp only [Core.step, Core.readDone, Option.some.injEq] at hs
  cases result with
  | some n =>
    cases hs
    obtain ⟨hn, hright⟩ := hresult n rfl
    refine h.onPart rfl hstage hshape ⟨rfl, rfl, rfl, rfl, rfl, rfl, rfl⟩ (by simp [Job.reader, Job.slot, Job.Fills]) ?_
    refine hserving.exchange ⟨rfl, rfl, rfl, rfl, rfl, rfl, rfl⟩ rfl hissued
      (by simpa using ⟨hissued, rfl⟩) (fun _ _ => rfl) (by simp) id (fun _ => Nat.zero_le _) ?_
      fun heq p hv hp _ => ?_
    · exact Nat.add_le_add_left hn _
    · have hin : pos ≤ p ∧ p < pos + length := by
        by_contra hout
        exact hp (if_neg hout)
      exact hright (Nat.add_left_cancel heq) p hin.1 hin.2 hv
  | none =>
    cases hs
    have hpart : Sound content (c.setRead r { c.reads r with refetch := (c.reads r).refetch ||| readFailed })
        ([.settle r] ++ c.flight rest) :=
      h.failPart rfl rfl ⟨rfl, rfl, rfl, rfl, rfl, rfl, rfl⟩ ⟨rfl, rfl, rfl⟩
        (fun h0 h1 => h0 (Nat.or_eq_zero_iff.mp h1).1) hissued hstage hshape hserving
    exact hpart.congr rfl rfl rfl rfl rfl

/-- What the cache does with a body it took for a read: offer its blocks to the file,
then drop the hold on the read. -/
theorem fill_cases (key : Key) (source : ℕ → UInt8) (offset length r : ℕ)
    (h : ∀ j < length, source j = content (versionOf key) (offset + j)) :
    ∃ j, Core.fill key source offset length (some r) = [j] ∧ j.reader = some r ∧ j.slot = none ∧ j.Idle ∧
      ∀ fills disk, j.Fills content fills disk := by
  unfold Core.fill
  simp only
  split
  · exact ⟨.settle r, rfl, rfl, rfl, trivial, fun _ _ => trivial⟩
  · exact ⟨_, rfl, rfl, rfl, trivial, fun _ _ => fill_genuine source (some r) h⟩

theorem fetching_sound (h : Sound content c (.fetching r pos length :: c.flight rest))
    (htrue : ch.body.Genuine content (c.reads r).key ((c.reads r).offset + pos))
    (hs : c.step ch (.fetching r pos length) = some (c', new)) : Sound content c' (new ++ c'.flight rest) := by
  obtain ⟨hstage, hshape, hserving⟩ := h.serving_of_prepares rfl fun _ hp => hp
  have hissued : 0 < (c.reads r).issued := hserving.jobs _ List.mem_cons_self
  simp only [Core.step, Core.readFetched, Option.some.injEq] at hs
  split at hs
  next =>
    split at hs
    next hversion =>
      cases hs
      have hbody : ∀ j < min ch.body.size length, ch.body.bytes j =
          content (versionOf (c.reads r).key) ((c.reads r).offset + pos + j) := fun j hj =>
        htrue _ _ hversion j (by omega)
      obtain ⟨j, hfill, hreader, hslot, hidle, hfills⟩ :=
        fill_cases (c.reads r).key ch.body.bytes ((c.reads r).offset + pos) (min ch.body.size length) r hbody
      obtain ⟨hlead, hlen⟩ := hidle.nothing
      rw [hfill]
      refine h.onPart rfl hstage hshape ⟨rfl, rfl, rfl, rfl, rfl, rfl, rfl⟩ (by simpa using ⟨hreader, hslot, hfills _ _⟩) ?_
      refine hserving.exchange ⟨rfl, rfl, rfl, rfl, rfl, rfl, rfl⟩ rfl hissued
        (by simpa using ⟨hidle.serves hissued, hlead⟩) (fun p hp => ?_) (by simp) id (fun p => ?_) ?_ fun heq p hv hp _ => ?_
      · apply overwrite_of_not_mem
        by_contra hin
        rw [Job.covers, if_pos (by omega)] at hp
        cases hp
      · rw [tally_cons, tally_nil, Job.covers_eq_zero hlen]
        exact Nat.zero_le _
      · rw [tally_cons, tally_nil, hlen]
        exact Nat.add_le_add_left (Nat.min_le_right _ _) _
      · have hin : pos ≤ p ∧ p < pos + length := by
          by_contra hout
          exact hp (if_neg hout)
        have hall : min ch.body.size length = length := by
          rw [tally_cons, tally_nil, hlen] at heq
          exact Nat.add_left_cancel heq
        obtain ⟨q, rfl⟩ := Nat.exists_eq_add_of_le hin.1
        simp only [CacheRead.Right]
        rw [overwrite_of_mem hin.1 (by omega), Nat.add_sub_cancel_left, hbody q (by omega), Nat.add_assoc]
    next =>
      cases hs
      exact h.failPart rfl rfl ⟨rfl, rfl, rfl, rfl, rfl, rfl, rfl⟩ ⟨rfl, rfl, rfl⟩
        (fun h0 h1 => h0 (Nat.or_eq_zero_iff.mp h1).1) hissued hstage hshape hserving
  next =>
    cases hs
    exact h.failPart rfl rfl ⟨rfl, rfl, rfl, rfl, rfl, rfl, rfl⟩ ⟨rfl, rfl, rfl⟩ id hissued hstage hshape hserving

end BlorgFS.CacheFile
