import BlorgFS.CacheFile.PartSteps

/-! Integrity of what the disk cache serves. In every run a read that settles with
success, and is not to be fetched again, has the bytes of the version its own key
names. -/

namespace BlorgFS.CacheFile

open Lib DiskCache

variable {content : Version → ℕ → UInt8} {c c' : Core} {ch : Choice} {job : Job} {rest new : List Job} {s s' : State}

/-- The invariant of a state. -/
def State.Sound (content : Version → ℕ → UInt8) (s : State) : Prop :=
  CacheFile.Sound content s.core (s.core.flight s.jobs)

/-! ### Runs -/

theorem step_sound (h : Sound content c (job :: c.flight rest))
    (htrue : ∀ r pos length, job = .fetching r pos length →
      ch.body.Genuine content (c.reads r).key ((c.reads r).offset + pos))
    (hs : c.step ch job = some (c', new)) : Sound content c' (new ++ c'.flight rest) := by
  cases job with
  | pin r => exact pin_sound h hs
  | plan r held => exact plan_sound h hs
  | drop r => exact drop_sound h hs
  | issue r => exact issue_sound h hs
  | reading r pos length slot => exact reading_sound h hs
  | readDone r pos length result => exact readDone_sound h hs
  | fetching r pos length => exact fetching_sound h (htrue r pos length rfl) hs
  | settle r => exact settle_sound h hs
  | charge f => exact charge_sound h hs
  | reserve f => exact reserve_sound h hs
  | copy f slot => exact copy_sound h hs
  | queueFill f fill => exact queueFill_sound h hs
  | startWorker f => exact startWorker_sound h hs
  | worker => exact worker_sound h hs
  | writing fill => exact writing_sound h hs
  | fillDone fill written => exact fillDone_sound h hs
  | abandon fill => exact abandon_sound h hs

theorem read_sound (h : s.Sound content) (key : Key) (offset length valid allowed : ℕ) (pages : ℕ → UInt8)
    (pool : Bool) : (s.read key offset length valid allowed pages pool).Sound content := by
  unfold State.read
  split
  next hok =>
    obtain ⟨-, hpos, -, hlt, hfits, hpage, -, hblocks, -⟩ := hok
    have hover := h.fresh s.core.count (Nat.le_refl _)
    have hcrew : crew s.core.count (s.core.flight s.jobs) = [] := (h.reads _).ended hover
    refine ⟨h.world, fun k => ?_, fun k hk => ?_, fun k => ?_, fun slot => ?_, fun j hj => ?_, h.disk, h.settled⟩
    · by_cases hk : k = s.core.count
      · subst hk
        have hpins := h.pins s.core.count
        rw [CacheRead.pins, if_pos hover] at hpins
        simp only [Core.setRead, Function.update_self, CacheRead.pins, CacheRead.freed]
        exact hpins
      · simp only [Core.setRead, Function.update_of_ne hk]
        exact h.pins k
    · have hk' : s.core.count + 1 ≤ k := hk
      simp only [Core.setRead, Function.update_of_ne (show k ≠ s.core.count by omega)]
      exact h.fresh k (by omega)
    · by_cases hk : k = s.core.count
      · subst hk
        show CacheRead.Inv content _ (crew s.core.count (.pin s.core.count :: s.core.flight s.jobs))
        rw [crew_cons_self rfl, hcrew]
        simp only [Core.setRead, Function.update_self]
        exact CacheRead.Inv.of_setUp rfl ⟨rfl, hpage, hpos, by simp only; omega, hblocks⟩ rfl
      · show CacheRead.Inv content _ (crew k (.pin s.core.count :: s.core.flight s.jobs))
        rw [crew_cons_of_ne (by simpa [Job.reader] using Ne.symm hk)]
        simp only [Core.setRead, Function.update_of_ne hk]
        exact h.reads k
    · show tally (Job.holds slot) (.pin s.core.count :: s.core.flight s.jobs) ≤ 1
      rw [tally_cons, Job.holds_eq_zero rfl, Nat.zero_add]
      exact h.exclusive slot
    · rcases List.mem_cons.mp hj with rfl | hj
      · trivial
      · exact h.fills j hj
  next => exact h

theorem admit_sound {key : Key} {body : Body} {offset : ℕ} (h : s.Sound content)
    (htrue : body.Genuine content key offset) (hversion : isVersion key body) :
    State.Sound content { s with jobs := Core.fill key body.bytes offset body.size none ++ s.jobs } := by
  unfold Core.fill
  simp only
  split
  · exact h
  · refine Sound.spawn h rfl rfl (fill_genuine body.bytes none fun j hj => ?_)
    exact htrue _ _ hversion j hj

theorem next_sound {act : Act} (h : s.Sound content) (htrue : s.Truthful content act) (hs : s.next act = some s') :
    s'.Sound content := by
  cases act with
  | read key offset length valid allowed pages pool =>
    cases hs
    exact read_sound h ..
  | diskCacheAdmit key body offset =>
    simp only [State.next] at hs
    split at hs
    next hok =>
      cases hs
      exact admit_sound h htrue hok.2
    next =>
      cases hs
      exact h
  | lost =>
    cases hs
    exact Sound.congr h rfl rfl rfl rfl rfl
  | run n ch =>
    obtain ⟨job, hjob, hs⟩ := Option.bind_eq_some_iff.mp hs
    obtain ⟨⟨c, new⟩, hstep, hs⟩ := Option.bind_eq_some_iff.mp hs
    cases hs
    obtain ⟨hn, rfl⟩ := List.getElem?_eq_some_iff.mp hjob
    have hperm : (s.core.flight s.jobs).Perm (s.jobs[n] :: s.core.flight (s.jobs.eraseIdx n)) :=
      (List.getElem_cons_eraseIdx_perm hn).symm.append_right _
    have := step_sound (Sound.perm h hperm) (fun r pos length he => htrue r pos length (he ▸ hjob)) hstep
    rw [State.Sound, Core.flight, List.append_assoc]
    exact this

theorem initial_sound {index : Index} {pool : Bool} {slotCount : ℕ}
    (h : Index.indexInitialize pool slotCount = .ok index) (disk : ℕ → UInt8) :
    (initial index disk).Sound content := by
  have hworld : World.Inv ⟨index, 0, fun _ => none⟩ := World.init_inv ⟨pool, slotCount, h, rfl, rfl⟩
  have hfree : ∀ slot, (index.slots slot).state = .free := by
    unfold Index.indexInitialize at h
    split at h
    · cases h
    split at h
    · cases h
    cases h
    exact fun _ => rfl
  refine ⟨hworld, fun r => rfl, fun r _ => rfl, fun r => CacheRead.Inv.of_ended rfl, fun slot => Nat.zero_le 1,
    fun job hj => absurd hj List.not_mem_nil, fun slot hv => ?_, fun e he => absurd he List.not_mem_nil⟩
  have hv' : (index.slots slot).state = .valid := hv
  rw [hfree slot] at hv'
  cases hv'

theorem reachable_sound (h : (system content).Reachable s) : s.Sound content := by
  refine System.invariant (fun s hi => ?_) (fun s s' _ hsound hstep => ?_) h
  · obtain ⟨pool, slotCount, index, disk, hindex, rfl⟩ := hi
    exact initial_sound hindex disk
  · obtain ⟨act, htrue, hnext⟩ := hstep
    exact next_sound hsound htrue hnext

/-! ### A read half held -/

/-- Content with one byte throughout a version. -/
def tinted (version : Version) (_ : ℕ) : UInt8 := UInt8.ofNat version.modifiedTime

/-- Acts under which every body is of the version its entity tag names. -/
abbrev Honest := { act : Act // ∀ s : State, s.Truthful tinted act }

def tintedBody : Body := ⟨fun _ => 7, blockSize, some (2 * blockSize, 7)⟩

theorem tintedBody_genuine (key : Key) (offset : ℕ) : tintedBody.Genuine tinted key offset := by
  rintro size time hversion j -
  cases hversion
  rfl

def admitting : Honest :=
  ⟨.diskCacheAdmit ⟨1, 2, 2 * blockSize, 7, 0⟩ tintedBody 0, fun _ => tintedBody_genuine _ _⟩

def reading : Honest :=
  ⟨.read ⟨1, 2, 2 * blockSize, 7, 0⟩ 0 (2 * blockSize) (2 * blockSize) 1 (fun _ => 3) true, fun _ => trivial⟩

/-- Job `n` takes its step, and nothing outside fails. -/
def running (n : ℕ) : Honest :=
  ⟨.run n ⟨true, true, 0, blockSize, fun _ => 9, tintedBody⟩, fun _ _ _ _ _ => tintedBody_genuine _ _⟩

def nextHonest (s : State) (act : Honest) : Option State := s.next act.1

/-- An empty cache of two slots. -/
def twoSlots : State :=
  initial (match Index.indexInitialize true 2 with
    | .ok index => index
    | .error _ => ⟨fun _ => Index.emptySlot, fun _ => none, fun _ => 0, 0, 0, 0, 0⟩) fun _ => 1

/-- The first block is offered twice and written; then both are read, the first from the
file and the second, which completes before it, from the server. -/
def halfHeld : List Honest :=
  [admitting] ++ List.replicate 3 (running 0) ++ [admitting] ++ List.replicate 5 (running 0) ++ [running 1] ++
    List.replicate 3 (running 0) ++ [reading] ++ List.replicate 3 (running 0) ++ [running 1] ++
    List.replicate 9 (running 0)

theorem halfHeld_reachable (h : run nextHonest twoSlots halfHeld = some s) : (system tinted).Reachable s := by
  have hinit : (system tinted).Reachable twoSlots := System.Reachable.init ⟨true, 2, _, _, rfl, rfl⟩
  have hnext : ∀ s act s', nextHonest s act = some s' → (system tinted).step s s' := fun s act s' hs =>
    ⟨act.1, act.2 s, hs⟩
  exact hinit.run hnext h

/-! ### Integrity -/

/-- In every interleaving of reads, fetches, fills, writes, evictions and losses of the
file, whatever versions nodes move on to: each byte of `[Offset, Offset + Valid)` of a
read that settled with success and without a refetch is that byte of the version the
read's key names. -/
theorem read_integrity (h : (system content).Reachable s) {e : Settled} (he : e ∈ s.core.settled)
    (hok : e.status = none) (hkept : e.refetch = false) :
    ∀ p < e.valid, e.buffer p = content (versionOf e.key) (e.offset + p) :=
  (reachable_sound h).settled e he hok hkept

theorem read_integrity_halfHeld : ∃ s, run nextHonest twoSlots halfHeld = some s ∧ ∃ e ∈ s.core.settled,
    e.valid = 2 * blockSize ∧ e.status = none ∧ e.refetch = false ∧
      ∀ p < e.valid, e.buffer p = tinted (versionOf e.key) (e.offset + p) := by
  have hsome : (run nextHonest twoSlots halfHeld).isSome := by decide +kernel
  obtain ⟨s, hs⟩ := Option.isSome_iff_exists.mp hsome
  have hst : ((run nextHonest twoSlots halfHeld).map fun s => s.core.settled.map fun e =>
      (e.valid, e.status, e.refetch)) = some [(2 * blockSize, none, false)] := by decide +kernel
  rw [hs, Option.map_some, Option.some.injEq] at hst
  obtain ⟨e, he, hentry⟩ := List.mem_map.mp (hst ▸ List.mem_singleton.mpr rfl)
  rw [Prod.mk.injEq, Prod.mk.injEq] at hentry
  obtain ⟨hvalid, hstatus, hrefetch⟩ := hentry
  exact ⟨s, hs, e, he, hvalid, hstatus, hrefetch, read_integrity (halfHeld_reachable hs) he hstatus hrefetch⟩

end BlorgFS.CacheFile
