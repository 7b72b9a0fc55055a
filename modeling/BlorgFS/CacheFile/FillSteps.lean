import BlorgFS.CacheFile.Sound

/-! Fills: a body's blocks copied, queued, written and committed. A slot's block in the
file is written only by the one job that holds the slot, and the slot becomes valid only
after the whole block was, so a valid slot always has its key's bytes. -/

namespace BlorgFS.CacheFile

open Lib DiskCache

variable {content : Version → ℕ → UInt8} {c c' : Core} {ch : Choice} {job : Job} {rest new : List Job} {f : Filler}
  {fill : Fill} {slot : ℕ} {key : Key} {fills fills' : ℕ → Option Key} {disk disk' : ℕ → UInt8}

/-- The jobs, with the fills that wait for the worker. -/
def Core.flight (c : Core) (jobs : List Job) : List Job := jobs ++ c.queue.map .abandon

/-! ### Blocks -/

theorem overwrite_of_mem {v w : ℕ → UInt8} {start length p : ℕ} (h : start ≤ p) (h' : p < start + length) :
    overwrite v start length w p = w (p - start) := if_pos ⟨h, h'⟩

theorem overwrite_of_not_mem {v w : ℕ → UInt8} {start length p : ℕ} (h : p < start ∨ start + length ≤ p) :
    overwrite v start length w p = v p := if_neg (by omega)

/-- Writing one slot's block leaves every other slot's. -/
theorem overwrite_block_of_ne {v w : ℕ → UInt8} {slot other j : ℕ} (hne : other ≠ slot) (hj : j < blockSize) :
    overwrite v (slot * blockSize) blockSize w (other * blockSize + j) = v (other * blockSize + j) := by
  apply overwrite_of_not_mem
  rcases Nat.lt_or_gt_of_ne hne with hlt | hgt
  · have := Nat.mul_le_mul_right blockSize (Nat.succ_le_of_lt hlt)
    rw [Nat.succ_mul] at this
    omega
  · have := Nat.mul_le_mul_right blockSize (Nat.succ_le_of_lt hgt)
    rw [Nat.succ_mul] at this
    omega

theorem Holds.congr {bytes bytes' : ℕ → UInt8} (h : Holds content key bytes)
    (he : ∀ j < blockSize, bytes' j = bytes j) : Holds content key bytes' := fun j hj hs =>
  (he j hj).trans (h j hj hs)

/-- A job that has reserved a slot is known to the index. -/
theorem Job.Fills.reserved (h : job.Fills content fills disk) (hs : job.slot = some slot) :
    ∃ key, fills slot = some key := by
  cases job <;> simp only [Job.slot, Option.some.injEq, reduceCtorEq] at hs <;> subst hs
  case copy f slot => exact ⟨_, h.2.2⟩
  case queueFill f fill => exact h.2.imp fun _ hk => hk.1
  case writing fill => exact h.imp fun _ hk => hk.1
  case fillDone fill written => exact h.imp fun _ hk => hk.1
  case abandon fill => exact h.imp fun _ hk => hk.1

/-- A job minds only the slot it has reserved. -/
theorem Job.Fills.congr (h : job.Fills content fills disk) (hs : ∀ slot, job.slot = some slot →
    fills' slot = fills slot ∧ ∀ j < blockSize, disk' (slot * blockSize + j) = disk (slot * blockSize + j)) :
    job.Fills content fills' disk' := by
  cases job <;> simp only [Job.Fills, Fill.Sound] at h ⊢
  case charge f => exact h
  case reserve f => exact h
  case copy f slot => rwa [(hs slot rfl).1]
  case queueFill f fill => rwa [(hs fill.slot rfl).1]
  case startWorker f => exact h
  case writing fill => rwa [(hs fill.slot rfl).1]
  case fillDone fill written =>
    obtain ⟨key, hk, hw⟩ := h
    refine ⟨key, (hs fill.slot rfl).1.trans hk, fun ht => (hw ht).congr ?_⟩
    exact (hs fill.slot rfl).2
  case abandon fill => rwa [(hs fill.slot rfl).1]

theorem Job.holds_congr {job' : Job} (h : job.slot = job'.slot) (slot : ℕ) : job.holds slot = job'.holds slot := by
  rw [Job.holds, Job.holds, h]

theorem Job.holds_eq_zero (h : job.slot = none) (slot : ℕ) : job.holds slot = 0 := by
  rw [Job.holds, h]
  rfl

/-- No two jobs have one slot. -/
theorem Sound.slot_ne (h : Sound content c (job :: rest)) (hs : job.slot = some slot) {other : Job}
    (ho : other ∈ rest) : other.slot ≠ some slot := by
  intro he
  have h1 := h.exclusive slot
  have h2 := le_tally (f := Job.holds slot) ho
  rw [tally_cons] at h1
  simp only [Job.holds, hs, he, if_true] at h1 h2
  omega

/-! ### The crew of the read behind a fill -/

theorem relieved_done (hr : job.reader = f.reader) (hi : f.reader.isSome → job.Idle) : Relieved job f.done := by
  intro k
  cases hf : f.reader with
  | none => exact Or.inl ⟨by simp [hr, hf], by simp [Filler.done, hf, crew]⟩
  | some r =>
    have hdone : f.done = [.settle r] := by simp [Filler.done, hf]
    rw [hdone]
    by_cases hk : r = k
    · subst hk
      refine Or.inr ⟨hr.trans hf, hi (by simp [hf]), .settle r, trivial, ?_⟩
      simp [crew, Job.reader]
    · refine Or.inl ⟨?_, ?_⟩
      · rw [hr, hf]
        simpa using hk
      · simp [crew, Job.reader, hk]

theorem relieved_one (job' : Job) (extra : List Job) (hr : job.reader = f.reader) (hi : job.Idle)
    (hr' : job'.reader = f.reader) (hi' : job'.Idle) (he : ∀ j ∈ extra, j.reader = none) :
    Relieved job (job' :: extra) := by
  have hnone : ∀ k, crew k extra = [] := fun k => crew_of_forall_ne fun j hj => by simp [he j hj]
  intro k
  by_cases hk : f.reader = some k
  · exact Or.inr ⟨hr.trans hk, hi, job', hi', by rw [crew_cons_self (hr'.trans hk), hnone]⟩
  · exact Or.inl ⟨by rwa [hr], by rw [crew_cons_of_ne (by rwa [hr']), hnone]⟩

theorem relieved_none (hr : job.reader = none) (hn : ∀ j ∈ new, j.reader = none) : Relieved job new := fun k =>
  Or.inl ⟨by simp [hr], crew_of_forall_ne fun j hj => by simp [hn j hj]⟩

theorem mem_done {j : Job} (h : j ∈ f.done) : ∃ r, j = .settle r := by
  unfold Filler.done at h
  split at h
  · exact ⟨_, List.mem_singleton.mp h⟩
  · cases h

theorem slot_of_mem_done {j : Job} (h : j ∈ f.done) : j.slot = none := by
  obtain ⟨r, rfl⟩ := mem_done h
  rfl

theorem fills_of_mem_done {j : Job} (h : j ∈ f.done) (fills : ℕ → Option Key) (disk : ℕ → UInt8) :
    j.Fills content fills disk := by
  obtain ⟨r, rfl⟩ := mem_done h
  trivial

theorem holds_done (slot : ℕ) : tally (Job.holds slot) f.done = 0 :=
  tally_eq_zero fun _ hj => Job.holds_eq_zero (slot_of_mem_done hj) slot

/-! ### Copies -/

theorem Filler.Genuine.next (h : f.Genuine content) : f.next.Genuine content where
  offset_le := by
    have hle := h.offset_le
    unfold Filler.start at hle ⊢
    exact hle.trans (Nat.mul_le_mul_right _ (Nat.le_succ _))
  source := h.source

theorem Filler.Genuine.copied (h : f.Genuine content) (hend : f.blockEnd ≤ f.stop) : Holds content f.key f.copied := by
  intro j hj hs
  have hle := h.offset_le
  have hlt : j < f.blockEnd - f.start := by
    unfold Filler.blockEnd Filler.start
    omega
  unfold Filler.copied
  rw [if_pos hlt, h.source _ (by omega)]
  congr 1
  unfold Filler.start at hle ⊢
  omega

theorem versionOf_block (b : ℕ) : versionOf { key with block := b } = versionOf key := rfl

theorem fill_genuine (source : ℕ → UInt8) {offset length : ℕ} (reader : Option ℕ)
    (h : ∀ j < length, source j = content (versionOf key) (offset + j)) :
    Filler.Genuine content
      ⟨{ key with block := (offset + blockSize - 1) / blockSize }, source, offset, offset + length, reader⟩ where
  offset_le := by
    have hblock : 0 < blockSize := by decide
    have hdiv := Nat.div_add_mod' (offset + blockSize - 1) blockSize
    have hmod := Nat.mod_lt (offset + blockSize - 1) hblock
    show offset ≤ (offset + blockSize - 1) / blockSize * blockSize
    omega
  source j hj := by
    rw [versionOf_block]
    exact h j (by simp only at hj; omega)

/-! ### Commits -/

/-- A fill's slot is committed, as written only if its block is in the file. -/
theorem Sound.onCommit {written : Bool} {w : World} (h : Sound content c (job :: rest)) (hs : job.slot = some slot)
    (hk : c.world.fills slot = some key)
    (hw : written = true → Holds content key fun j => c.disk (slot * blockSize + j))
    (he : c.world.exec (.commit slot written) = some w) (hcrew : Relieved job new)
    (hnew : ∀ j ∈ new, j.slot = none ∧ ∀ fills disk, j.Fills content fills disk)
    (hreads : c'.reads = c.reads) (hcount : c'.count = c.count) (hsettled : c'.settled = c.settled)
    (hworld : c'.world = w) (hdisk : c'.disk = c.disk) : Sound content c' (new ++ rest) := by
  obtain ⟨hi, hp, hf, hv⟩ := World.commit_holders h.world hk he
  subst hworld
  refine h.onSlots hcrew hreads hcount hsettled hi hp (fun s => ?_) (fun j hj => (hnew j hj).2 _ _)
    (fun j hj hfj => hfj.congr fun s hjs => ?_) (fun s hvalid => ?_)
  · have hz : tally (Job.holds s) new = 0 := tally_eq_zero fun j hj => by simp [Job.holds, (hnew j hj).1]
    have := h.exclusive s
    rw [tally_cons] at this
    rw [tally_append]
    omega
  · have hne : s ≠ slot := by
      rintro rfl
      exact h.slot_ne hs hj hjs
    exact ⟨by rw [hf, Function.update_of_ne hne], fun _ _ => by rw [hdisk]⟩
  · rcases hv s hvalid with ⟨hold, hkey⟩ | ⟨rfl, hwr, hkey⟩
    · rw [hkey, hdisk]
      exact h.disk s hold
    · rw [hkey, hdisk]
      exact hw hwr

theorem Sound.fillSettle {written : Bool} (h : Sound content c (job :: rest)) (hs : job.slot = some fill.slot)
    (hr : job.reader = none) (hk : c.world.fills fill.slot = some key)
    (hw : written = true → Holds content key fun j => c.disk (fill.slot * blockSize + j))
    (he : c.fillSettle fill written = some c') : Sound content c' rest ∧ c'.queue = c.queue := by
  obtain ⟨w, hx, he⟩ := Option.bind_eq_some_iff.mp he
  cases he
  have hcrew : Relieved job [] := relieved_none hr (by simp)
  exact ⟨h.onCommit hs hk hw hx hcrew (by simp) rfl rfl rfl rfl rfl, rfl⟩

/-! ### Steps -/

theorem Sound.congr (h : Sound content c rest) (hreads : c'.reads = c.reads) (hcount : c'.count = c.count)
    (hsettled : c'.settled = c.settled) (hworld : c'.world = c.world) (hdisk : c'.disk = c.disk) :
    Sound content c' rest :=
  ⟨hworld ▸ h.world, by rw [hworld, hreads]; exact h.pins, by rw [hcount, hreads]; exact h.fresh,
    by rw [hreads]; exact h.reads, h.exclusive, by rw [hworld, hdisk]; exact h.fills,
    by rw [hworld, hdisk]; exact h.disk, by rw [hsettled]; exact h.settled⟩

theorem charge_sound (h : Sound content c (.charge f :: c.flight rest))
    (hs : c.step ch (.charge f) = some (c', new)) : Sound content c' (new ++ c'.flight rest) := by
  have hgen : f.Genuine content := h.fills _ List.mem_cons_self
  have hstop : Sound content c (f.done ++ c.flight rest) :=
    h.onFlight (relieved_done rfl fun _ => trivial) rfl rfl rfl rfl rfl (fun slot => by simp [holds_done])
      fun j hj => fills_of_mem_done hj _ _
  simp only [Core.step] at hs
  split at hs
  next =>
    cases hs
    exact hstop
  next hblock =>
    split at hs
    next =>
      cases hs
      exact hstop
    next =>
      cases hs
      refine h.onFlight (relieved_one (f := f) (.reserve f) [] rfl trivial rfl trivial (by simp)) rfl rfl rfl rfl rfl
        (fun slot => by simp [Job.holds, Job.slot]) fun j hj => ?_
      rw [List.mem_singleton.mp hj]
      exact ⟨hgen, by omega⟩

theorem reserve_sound (h : Sound content c (.reserve f :: c.flight rest))
    (hs : c.step ch (.reserve f) = some (c', new)) : Sound content c' (new ++ c'.flight rest) := by
  obtain ⟨hgen, hend⟩ : f.Genuine content ∧ f.blockEnd ≤ f.stop := h.fills _ List.mem_cons_self
  simp only [Core.step, Option.bind_eq_bind, Option.bind_eq_some_iff] at hs
  obtain ⟨⟨answer, slot, idx⟩, hr, w, he, hs⟩ := hs
  obtain ⟨hi, hp, hv, hcase⟩ := World.reserve_holders h.world hr he
  have hdisk : ∀ s, (w.index.slots s).state = .valid →
      Holds content (w.index.slots s).key fun j => c.disk (s * blockSize + j) := fun s hvalid => by
    obtain ⟨hold, hkey⟩ := hv s hvalid
    rw [hkey]
    exact h.disk s hold
  rcases hcase with ⟨rfl, hfills⟩ | ⟨s, rfl, hfree, hfills⟩
  · cases hs
    refine h.onSlots (relieved_one (f := f) (.charge f.next) [] rfl trivial rfl trivial (by simp)) rfl rfl rfl hi hp
      (fun s => h.exclusive s) (fun j hj => ?_)
      (fun j _ hj => hj.congr fun s _ => ⟨congrFun hfills s, fun _ _ => rfl⟩) hdisk
    rw [List.mem_singleton.mp hj]
    exact hgen.next
  · cases hs
    -- Nobody had the slot: whoever has one is known to the index.
    have hne : ∀ j ∈ c.flight rest, j.slot ≠ some s := by
      intro j hj hjs
      obtain ⟨key, hk⟩ := (h.fills j (List.mem_cons_of_mem _ hj)).reserved hjs
      rw [hfree] at hk
      cases hk
    refine h.onSlots (relieved_one (f := f) (.copy f s) [] rfl trivial rfl trivial (by simp)) rfl rfl rfl hi hp
      (fun s' => ?_) (fun j hj => ?_) (fun j hj hfj => hfj.congr fun s' hs' => ⟨?_, fun _ _ => rfl⟩) hdisk
    · have hsame : ((c.withWorld w).flight rest) = c.flight rest := rfl
      rw [tally_append, tally_cons, tally_nil]
      by_cases hss : s' = s
      · subst hss
        have hz : tally (Job.holds s') (c.flight rest) = 0 := tally_eq_zero fun j hj => if_neg (hne j hj)
        have hone : Job.holds s' (.copy f s') = 1 := if_pos rfl
        omega
      · have := h.exclusive s'
        have hz : Job.holds s' (.copy f s) = 0 := if_neg (by simpa [Job.slot] using Ne.symm hss)
        rw [tally_cons] at this
        omega
    · rw [List.mem_singleton.mp hj]
      refine ⟨hgen, hend, ?_⟩
      show w.fills s = some f.key
      rw [hfills, Function.update_self]
    · have hss : s' ≠ s := by
        rintro rfl
        exact hne j hj hs'
      show w.fills s' = c.world.fills s'
      rw [hfills, Function.update_of_ne hss]

theorem copy_sound (h : Sound content c (.copy f slot :: c.flight rest))
    (hs : c.step ch (.copy f slot) = some (c', new)) : Sound content c' (new ++ c'.flight rest) := by
  obtain ⟨hgen, hend, hk⟩ : f.Genuine content ∧ f.blockEnd ≤ f.stop ∧ c.world.fills slot = some f.key :=
    h.fills _ List.mem_cons_self
  simp only [Core.step] at hs
  split at hs
  next =>
    cases hs
    refine h.onFlight (relieved_one (f := f) (.queueFill f ⟨slot, f.copied⟩) [] rfl trivial rfl trivial (by simp))
      rfl rfl rfl rfl rfl (fun slot => by simp [Job.holds, Job.slot]) fun j hj => ?_
    rw [List.mem_singleton.mp hj]
    exact ⟨hgen, f.key, hk, hgen.copied hend⟩
  next =>
    obtain ⟨w, he, hs⟩ := Option.bind_eq_some_iff.mp hs
    cases hs
    exact h.onCommit rfl hk (by simp) he (relieved_done rfl fun _ => trivial) (fun j hj => ⟨slot_of_mem_done hj, fills_of_mem_done hj⟩)
      rfl rfl rfl rfl rfl

/-- The copy is queued: among the jobs it stands to be abandoned. -/
theorem queueFill_sound (h : Sound content c (.queueFill f fill :: c.flight rest))
    (hs : c.step ch (.queueFill f fill) = some (c', new)) : Sound content c' (new ++ c'.flight rest) := by
  obtain ⟨hgen, hfill⟩ : f.Genuine content ∧ fill.Sound content c.world.fills := h.fills _ List.mem_cons_self
  have hqueued : ∀ job', job'.reader = f.reader → job'.Idle → job'.slot = none →
      job'.Fills content c.world.fills c.disk →
        Sound content c (job' :: (rest ++ (c.queue ++ [fill]).map .abandon)) := by
    intro job' hr hi hsl hf
    have hflight : Sound content c ([job', .abandon fill] ++ c.flight rest) := by
      refine h.onFlight (relieved_one job' [.abandon fill] rfl trivial hr hi (by simp [Job.reader]))
        rfl rfl rfl rfl rfl (fun slot => ?_) fun j hj => ?_
      · rw [tally_cons, tally_cons, tally_nil, Job.holds_eq_zero hsl, Nat.zero_add]
        exact (Job.holds_congr rfl slot).le
      rcases List.mem_cons.mp hj with rfl | hj
      · exact hf
      · rw [List.mem_singleton.mp hj]
        exact hfill
    apply hflight.perm
    rw [List.map_append, ← List.append_assoc]
    apply List.Perm.cons
    exact (List.perm_append_singleton (Job.abandon fill) (c.flight rest)).symm
  simp only [Core.step] at hs
  split at hs
  · cases hs
    exact (hqueued (.charge f.next) rfl trivial rfl hgen.next).congr rfl rfl rfl rfl rfl
  · cases hs
    exact (hqueued (.startWorker f) rfl trivial rfl hgen).congr rfl rfl rfl rfl rfl

theorem startWorker_sound (h : Sound content c (.startWorker f :: c.flight rest))
    (hs : c.step ch (.startWorker f) = some (c', new)) : Sound content c' (new ++ c'.flight rest) := by
  have hgen : f.Genuine content := h.fills _ List.mem_cons_self
  have hnext : Sound content c (.charge f.next :: c.flight rest) := by
    refine h.onFlight (relieved_one (f := f) (.charge f.next) [] rfl trivial rfl trivial (by simp))
      rfl rfl rfl rfl rfl (fun slot => by simp [Job.holds, Job.slot]) fun j hj => ?_
    rw [List.mem_singleton.mp hj]
    exact hgen.next
  simp only [Core.step] at hs
  split at hs
  next =>
    cases hs
    exact hnext.spawn rfl rfl trivial
  next =>
    cases hs
    refine (hnext.perm ?_).congr rfl rfl rfl rfl rfl
    show (Job.charge f.next :: (rest ++ c.queue.map .abandon)).Perm _
    rw [Core.flight, List.map_nil, List.append_nil, List.append_assoc, ← List.cons_append]
    exact List.perm_append_comm

theorem worker_sound (h : Sound content c (.worker :: c.flight rest))
    (hs : c.step ch .worker = some (c', new)) : Sound content c' (new ++ c'.flight rest) := by
  have hrest : Sound content c ([] ++ c.flight rest) :=
    h.onFlight (relieved_none rfl (by simp)) rfl rfl rfl rfl rfl (fun slot => by simp) (by simp)
  simp only [Core.step] at hs
  split at hs
  next hq =>
    cases hs
    have he : c.flight rest = rest ++ List.map .abandon [] := by rw [Core.flight, hq]
    rw [he] at hrest
    exact Sound.congr (c := c) (by simpa [Core.flight, hq] using hrest) rfl rfl rfl rfl rfl
  next fill queue hq =>
    cases hs
    have hfront : Sound content c (.abandon fill :: (rest ++ queue.map .abandon)) := by
      apply hrest.perm
      rw [Core.flight, hq, List.map_cons]
      exact List.perm_middle
    have hfill : fill.Sound content c.world.fills := hfront.fills _ List.mem_cons_self
    have htaken : ∀ job', job'.reader = none → job'.slot = some fill.slot →
        job'.Fills content c.world.fills c.disk →
          Sound content c (job' :: (rest ++ queue.map .abandon)) := by
      intro job' hr hsl hf
      refine hfront.onFlight (relieved_none rfl fun j hj => (List.mem_singleton.mp hj).symm ▸ hr) rfl rfl rfl rfl rfl
        (fun slot => ?_) fun j hj => ?_
      · rw [tally_cons, tally_nil, Nat.add_zero]
        exact (Job.holds_congr hsl slot).le
      rw [List.mem_singleton.mp hj]
      exact hf
    have hjob : Sound content c ((if c.live ∧ ch.pool then .writing fill else .abandon fill) ::
        (rest ++ queue.map .abandon)) := by
      split
      · exact htaken _ rfl rfl hfill
      · exact hfront
    refine ((hjob.spawn rfl rfl trivial : Sound content c (.worker :: _)).perm ?_).congr rfl rfl rfl rfl rfl
    exact List.Perm.swap _ _ _

/-- The device wrote the block, or whatever it left of it: the slot is not valid yet,
and nobody else has it. -/
theorem writing_sound (h : Sound content c (.writing fill :: c.flight rest))
    (hs : c.step ch (.writing fill) = some (c', new)) : Sound content c' (new ++ c'.flight rest) := by
  obtain ⟨key, hk, hbuffer⟩ : fill.Sound content c.world.fills := h.fills _ List.mem_cons_self
  cases hs
  refine h.onSlots (relieved_none rfl (by simp [Job.reader])) rfl rfl rfl h.world rfl (fun s => h.exclusive s)
    (fun j hj => ?_) (fun j hj hfj => hfj.congr fun s hjs => ⟨rfl, fun i hi => ?_⟩) (fun s hv => ?_)
  · rw [List.mem_singleton.mp hj]
    refine ⟨key, hk, fun hw => hbuffer.congr fun i hi => ?_⟩
    show overwrite _ _ _ _ _ = _
    rw [overwrite_of_mem (by omega) (by omega), if_pos hw, Nat.add_sub_cancel_left]
  · have hne : s ≠ fill.slot := by
      rintro rfl
      exact h.slot_ne rfl hj hjs
    exact overwrite_block_of_ne hne hi
  · have hne : s ≠ fill.slot := by
      rintro rfl
      have hst := ((h.world.fills _ _).mp hk).2.1
      have hvalid : (c.world.index.slots fill.slot).state = .valid := hv
      rw [hst] at hvalid
      cases hvalid
    exact (h.disk s hv).congr fun i hi => overwrite_block_of_ne hne hi

theorem fillDone_sound {written : Bool} (h : Sound content c (.fillDone fill written :: c.flight rest))
    (hs : c.step ch (.fillDone fill written) = some (c', new)) : Sound content c' (new ++ c'.flight rest) := by
  obtain ⟨key, hk, hw⟩ : ∃ key, c.world.fills fill.slot = some key ∧
      (written = true → Holds content key fun j => c.disk (fill.slot * blockSize + j)) :=
    h.fills _ List.mem_cons_self
  obtain ⟨c₁, he, heq⟩ := Option.map_eq_some_iff.mp hs
  cases heq
  have h' : Sound content { c with live := c.live && written } (.fillDone fill written :: c.flight rest) :=
    h.congr rfl rfl rfl rfl rfl
  obtain ⟨hsound, hqueue⟩ := h'.fillSettle rfl rfl hk hw he
  rw [Core.flight, hqueue]
  exact hsound

theorem abandon_sound (h : Sound content c (.abandon fill :: c.flight rest))
    (hs : c.step ch (.abandon fill) = some (c', new)) : Sound content c' (new ++ c'.flight rest) := by
  obtain ⟨key, hk, -⟩ : fill.Sound content c.world.fills := h.fills _ List.mem_cons_self
  obtain ⟨c₁, he, heq⟩ := Option.map_eq_some_iff.mp hs
  cases heq
  obtain ⟨hsound, hqueue⟩ := h.fillSettle rfl rfl hk (by simp) he
  rw [Core.flight, hqueue]
  exact hsound

end BlorgFS.CacheFile
