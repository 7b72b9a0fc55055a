import BlorgFS.CacheFile.Machine
import BlorgFS.CacheFile.Pins
import Mathlib.Data.List.Perm.Basic

/-! What holds of the disk cache between two steps. A read and the jobs that are for
it, its crew, have an invariant of their own; a slot being filled has at most one job
that holds it; and a slot the index calls valid has its block's bytes in the file.
Fills waiting for the worker stand among the jobs as what they are if it never comes:
to be abandoned. -/

namespace BlorgFS.CacheFile

open Lib DiskCache

/-! ### Jobs -/

namespace Job

/-- The read a job is for. -/
def reader : Job → Option ℕ
  | .pin r | .plan r _ | .drop r | .issue r | .settle r => some r
  | .reading r _ _ _ | .readDone r _ _ _ | .fetching r _ _ => some r
  | .charge f | .reserve f | .copy f _ | .queueFill f _ | .startWorker f => f.reader
  | .worker | .writing _ | .fillDone _ _ | .abandon _ => none

/-- The slot a job has reserved. -/
def slot : Job → Option ℕ
  | .copy _ slot => some slot
  | .queueFill _ fill | .writing fill | .fillDone fill _ | .abandon fill => some fill.slot
  | _ => none

def holds (slot : ℕ) (job : Job) : ℕ := if job.slot = some slot then 1 else 0

/-- The job is a part of its read, with byte `p` in it. -/
def covers (p : ℕ) : Job → ℕ
  | .reading _ pos length _ | .readDone _ pos length _ | .fetching _ pos length =>
    if pos ≤ p ∧ p < pos + length then 1 else 0
  | _ => 0

/-- The bytes of a part. -/
def length : Job → ℕ
  | .reading _ _ length _ | .readDone _ _ length _ | .fetching _ _ length => length
  | _ => 0

/-- The job is the read's own thread, with parts yet to issue. -/
def leads : Job → ℕ
  | .drop _ | .issue _ => 1
  | _ => 0

/-- A job that only has its hold on the read to drop, now or later. -/
def Idle : Job → Prop
  | .settle _ | .charge _ | .reserve _ | .copy _ _ | .queueFill _ _ | .startWorker _ => True
  | _ => False

end Job

/-- The jobs for one read. -/
def crew (r : ℕ) (flight : List Job) : List Job := flight.filter fun job => job.reader = some r

/-! ### Reads -/

section Read

variable (content : Version → ℕ → UInt8) (read : CacheRead)

/-- What `BlorgDiskCacheRead` checks before it begins a read. -/
structure CacheRead.Shaped : Prop where
  block : read.key.block = firstBlock read.offset
  page : read.offset % pageSize = 0
  pos : 0 < read.valid
  fits : read.offset + read.valid ≤ read.key.size
  blocks : blocksOf read.offset read.valid ≤ maxReadBlocks

/-- Byte `p` of the buffer is the version's. -/
def CacheRead.Right (p : ℕ) : Prop := read.buffer p = content (versionOf read.key) (read.offset + p)

/-- The blocks of a part are in successive slots from `slot` on. -/
def CacheRead.Located (pos length slot : ℕ) : Prop :=
  ∀ q < length, read.slots.getD ((read.offset + pos + q) / blockSize - firstBlock read.offset) none =
    some (slot + ((read.offset + pos) % blockSize + q) / blockSize)

/-- A job of a read that is being set up. -/
def Job.Prepares : Job → Prop
  | .pin _ => read.slots = []
  | .plan _ _ => read.slots.length = blocksOf read.offset read.valid ∧ (1 ≤ read.allowed ∨ none ∉ read.slots)
  | .drop _ => True
  | _ => False

/-- A job of a read that is being served. -/
def Job.Serves : Job → Prop
  | .drop _ => read.issued = 0
  | .issue _ => Cut read.offset read.valid read.slots read.issued
  | .reading _ pos length slot => 0 < read.issued ∧ read.Located pos length slot
  | .readDone _ pos length result => 0 < read.issued ∧ ∀ n, result = some n → n ≤ length ∧
    (n = length → ∀ p, pos ≤ p → p < pos + length → p < read.valid → read.Right content p)
  | .fetching _ _ _ => 0 < read.issued
  | .settle _ | .charge _ | .reserve _ | .copy _ _ | .queueFill _ _ | .startWorker _ => 0 < read.issued
  | _ => False

/-- A read being served: every byte issued is a part's in flight, or right unless the
bytes have fallen short. -/
structure CacheRead.Serving (crew : List Job) : Prop where
  jobs : ∀ job ∈ crew, job.Serves content read
  users : (crew.length : ℤ) = read.outstanding
  lead : tally Job.leads crew ≤ 1
  finished : tally Job.leads crew = 0 → read.refetch ≠ 0 ∨ read.valid ≤ read.issued
  first : read.issued = 0 → read.outstanding = 1
  once : ∀ p, tally (Job.covers p) crew + (if read.issued ≤ p then 1 else 0) ≤ 1
  within : read.bytes + tally Job.length crew ≤ read.span
  right : read.bytes + tally Job.length crew = read.span → ∀ p < read.issued, p < read.valid →
    tally (Job.covers p) crew = 0 → read.Right content p

structure CacheRead.Inv (crew : List Job) : Prop where
  shaped : read.stage ≠ .ended → read.Shaped
  setUp : read.stage = .setUp → ∃ job, crew = [job] ∧ job.Prepares read
  serving : read.stage = .serving → read.Serving content crew
  ended : read.stage = .ended → crew = []

/-- The pins read `r` holds. -/
def CacheRead.pins (r : ℕ) : Multiset Pin := if read.stage = .ended then 0 else pinsOf r read.key read.slots

end Read

/-! ### Fills -/

section Fills

variable (content : Version → ℕ → UInt8)

/-- A block's bytes, as far as the file goes. -/
def Holds (key : Key) (bytes : ℕ → UInt8) : Prop :=
  ∀ j < blockSize, key.block * blockSize + j < key.size →
    bytes j = content (versionOf key) (key.block * blockSize + j)

/-- The body a filler copies from is of its key's version. -/
structure Filler.Genuine (f : Filler) : Prop where
  offset_le : f.offset ≤ f.start
  source : ∀ j, f.offset + j < f.stop → f.source j = content (versionOf f.key) (f.offset + j)

/-- A fill's slot is reserved for the block its copy is of. -/
def Fill.Sound (fills : ℕ → Option Key) (fill : Fill) : Prop :=
  ∃ key, fills fill.slot = some key ∧ Holds content key fill.buffer

/-- What a job knows of the body it copies from and the slot it has reserved. -/
def Job.Fills (fills : ℕ → Option Key) (disk : ℕ → UInt8) : Job → Prop
  | .charge f | .startWorker f => f.Genuine content
  | .reserve f => f.Genuine content ∧ f.blockEnd ≤ f.stop
  | .copy f slot => f.Genuine content ∧ f.blockEnd ≤ f.stop ∧ fills slot = some f.key
  | .queueFill f fill => f.Genuine content ∧ fill.Sound content fills
  | .writing fill | .abandon fill => fill.Sound content fills
  | .fillDone fill written => ∃ key, fills fill.slot = some key ∧
    (written = true → Holds content key fun j => disk (fill.slot * blockSize + j))
  | _ => True

end Fills

def Settled.Right (content : Version → ℕ → UInt8) (e : Settled) : Prop :=
  e.status = none → e.refetch = false → ∀ p < e.valid, e.buffer p = content (versionOf e.key) (e.offset + p)

/-- The invariant of the cache and everything in flight. -/
structure Sound (content : Version → ℕ → UInt8) (c : Core) (flight : List Job) : Prop where
  world : c.world.Inv
  pins : ∀ r, c.world.pinned.filter (fun p => p.client = r) = (c.reads r).pins r
  fresh : ∀ r, c.count ≤ r → (c.reads r).stage = .ended
  reads : ∀ r, (c.reads r).Inv content (crew r flight)
  exclusive : ∀ slot, tally (Job.holds slot) flight ≤ 1
  fills : ∀ job ∈ flight, job.Fills content c.world.fills c.disk
  disk : ∀ slot, (c.world.index.slots slot).state = .valid →
    Holds content (c.world.index.slots slot).key fun j => c.disk (slot * blockSize + j)
  settled : ∀ e ∈ c.settled, e.Right content

/-! ### Crews -/

variable {content : Version → ℕ → UInt8} {r : ℕ} {job job' : Job} {flight rest new : List Job} {read : CacheRead}
  {c c' : Core}

theorem crew_append (r : ℕ) (l m : List Job) : crew r (l ++ m) = crew r l ++ crew r m := List.filter_append l m

theorem crew_cons_self (h : job.reader = some r) : crew r (job :: rest) = job :: crew r rest :=
  List.filter_cons_of_pos (by simpa using h)

theorem crew_cons_of_ne (h : job.reader ≠ some r) : crew r (job :: rest) = crew r rest :=
  List.filter_cons_of_neg (by simpa using h)

theorem crew_of_forall (h : ∀ job ∈ new, job.reader = some r) : crew r new = new :=
  List.filter_eq_self.mpr fun job hj => by simpa using h job hj

theorem crew_of_forall_ne (h : ∀ job ∈ new, job.reader ≠ some r) : crew r new = [] :=
  List.filter_eq_nil_iff.mpr fun job hj => by simpa using h job hj

theorem CacheRead.Serving.perm {crew crew' : List Job} (h : read.Serving content crew) (hp : crew.Perm crew') :
    read.Serving content crew' where
  jobs job hj := h.jobs job (hp.mem_iff.mpr hj)
  users := hp.length_eq ▸ h.users
  lead := tally_perm hp ▸ h.lead
  finished := tally_perm hp ▸ h.finished
  first := h.first
  once p := tally_perm (f := Job.covers p) hp ▸ h.once p
  within := tally_perm (f := Job.length) hp ▸ h.within
  right hb p := by
    rw [← tally_perm (f := Job.covers p) hp]
    exact h.right (tally_perm (f := Job.length) hp ▸ hb) p

theorem CacheRead.Inv.perm {crew crew' : List Job} (h : read.Inv content crew) (hp : crew.Perm crew') :
    read.Inv content crew' where
  shaped := h.shaped
  setUp hs := by
    obtain ⟨job, rfl, hj⟩ := h.setUp hs
    exact ⟨job, List.perm_singleton.mp hp.symm, hj⟩
  serving hs := (h.serving hs).perm hp
  ended ho := by
    rw [h.ended ho] at hp
    exact List.nil_perm.mp hp

theorem Sound.perm (h : Sound content c flight) (hp : flight.Perm new) : Sound content c new :=
  { h with
    reads := fun r => (h.reads r).perm (hp.filter _)
    exclusive := fun slot => tally_perm (f := Job.holds slot) hp ▸ h.exclusive slot
    fills := fun job hj => h.fills job (hp.mem_iff.mpr hj) }

theorem Job.covers_eq_zero (h : job.length = 0) (p : ℕ) : job.covers p = 0 := by
  cases job <;> simp only [Job.length, Job.covers] at h ⊢
  all_goals exact if_neg (by omega)

theorem Job.Idle.serves (h : job.Idle) (hissued : 0 < read.issued) : job.Serves content read := by
  cases job <;> simp only [Job.Idle, Job.Serves] at h ⊢
  all_goals exact hissued

theorem Job.Idle.nothing (h : job.Idle) : job.leads = 0 ∧ job.length = 0 := by
  cases job <;> simp only [Job.Idle] at h
  all_goals exact ⟨rfl, rfl⟩

/-- One idle job in another's place. -/
theorem CacheRead.Inv.swap {crew : List Job} (h : read.Inv content (job :: crew)) (hj : job.Idle) (hj' : job'.Idle) :
    read.Inv content (job' :: crew) where
  shaped := h.shaped
  setUp hs := by
    obtain ⟨lead, he, hl⟩ := h.setUp hs
    obtain rfl := (List.cons.inj he).1
    cases job <;> simp only [Job.Idle, Job.Prepares] at hj hl
  serving hs := by
    have hv := h.serving hs
    have hissued : 0 < read.issued := by
      have := hv.jobs job List.mem_cons_self
      cases job <;> simp only [Job.Idle, Job.Serves] at hj this
      all_goals exact this
    obtain ⟨h1, h2⟩ := hj.nothing
    obtain ⟨h1', h2'⟩ := hj'.nothing
    have h3 := Job.covers_eq_zero h2
    have h3' := Job.covers_eq_zero h2'
    refine ⟨fun other ho => ?_, hv.users, ?_, ?_, hv.first, fun p => ?_, ?_, ?_⟩
    · rcases List.mem_cons.mp ho with rfl | ho
      · exact hj'.serves hissued
      · exact hv.jobs other (List.mem_cons_of_mem _ ho)
    · have := hv.lead
      rw [tally_cons] at this ⊢
      omega
    · have := hv.finished
      rw [tally_cons, h1] at this
      rw [tally_cons, h1']
      exact this
    · have := hv.once p
      rw [tally_cons, h3 p] at this
      rw [tally_cons, h3' p]
      exact this
    · have := hv.within
      rw [tally_cons] at this ⊢
      omega
    · have := hv.right
      simp only [tally_cons, h2, h3, h2', h3'] at this ⊢
      exact this
  ended ho := absurd (h.ended ho) (by simp)

/-! ### Exchanging a job -/

/-- A new job that is for no read and has no slot. -/
theorem Sound.spawn (h : Sound content c flight) (hr : job.reader = none) (hs : job.slot = none)
    (hf : job.Fills content c.world.fills c.disk) : Sound content c (job :: flight) :=
  { h with
    reads := fun r => by
      rw [crew_cons_of_ne (by simp [hr])]
      exact h.reads r
    exclusive := fun slot => by
      rw [tally_cons, Job.holds, if_neg (by simp [hs]), Nat.zero_add]
      exact h.exclusive slot
    fills := fun other ho => by
      rcases List.mem_cons.mp ho with rfl | ho
      · exact hf
      · exact h.fills other ho }

/-- A read's job is done: it and the pins it holds may have changed, and nothing
else. -/
theorem Sound.onRead (h : Sound content c (job :: rest)) (hjob : job.reader = some r)
    (hnew : ∀ j ∈ new, j.reader = some r ∧ j.slot = none ∧ j.Fills content c'.world.fills c'.disk)
    (hreads : c'.reads = Function.update c.reads r read) (hcount : c'.count = c.count) (hdisk : c'.disk = c.disk)
    (hsettled : ∀ e ∈ c'.settled, e.Right content) (hworld : c'.world.Inv) (hsteady : c.world.Steady c'.world)
    (hpins : ∀ k, c'.world.pinned.filter (fun p => p.client = k) = (c'.reads k).pins k)
    (hread : read.Inv content (new ++ crew r rest)) : Sound content c' (new ++ rest) := by
  have hlt : r < c.count := by
    by_contra hge
    have := (h.reads r).ended (h.fresh r (by omega))
    rw [crew_cons_self hjob] at this
    cases this
  refine ⟨hworld, hpins, fun k hk => ?_, fun k => ?_, fun slot => ?_, fun j hj => ?_, fun slot hv => ?_, hsettled⟩
  · rw [hreads, Function.update_of_ne (by omega)]
    exact h.fresh k (by omega)
  · rw [crew_append]
    by_cases hk : k = r
    · subst hk
      rw [hreads, Function.update_self, crew_of_forall fun j hj => (hnew j hj).1]
      exact hread
    · rw [hreads, Function.update_of_ne hk, crew_of_forall_ne, List.nil_append]
      · have := h.reads k
        rwa [crew_cons_of_ne (by rw [hjob]; simpa using Ne.symm hk)] at this
      · intro j hj
        rw [(hnew j hj).1]
        simpa using Ne.symm hk
  · have hz : tally (Job.holds slot) new = 0 := tally_eq_zero fun j hj => by
      unfold Job.holds
      rw [(hnew j hj).2.1]
      rfl
    have := h.exclusive slot
    rw [tally_cons] at this
    rw [tally_append]
    omega
  · rcases List.mem_append.mp hj with hj | hj
    · exact (hnew j hj).2.2
    · rw [hsteady.fills, hdisk]
      exact h.fills j (List.mem_cons_of_mem _ hj)
  · rw [hsteady.state] at hv
    rw [hsteady.key, hdisk]
    exact h.disk slot hv

/-- `onRead` when the index is not touched. -/
theorem Sound.onBuffer (h : Sound content c (job :: rest)) (hjob : job.reader = some r)
    (hnew : ∀ j ∈ new, j.reader = some r ∧ j.slot = none ∧ j.Fills content c'.world.fills c'.disk)
    (hreads : c'.reads = Function.update c.reads r read) (hcount : c'.count = c.count) (hdisk : c'.disk = c.disk)
    (hsettled : c'.settled = c.settled) (hworld : c'.world = c.world)
    (hpins : read.stage = .ended ↔ (c.reads r).stage = .ended) (hkey : read.key = (c.reads r).key)
    (hslots : read.slots = (c.reads r).slots)
    (hread : read.Inv content (new ++ crew r rest)) : Sound content c' (new ++ rest) := by
  refine h.onRead hjob hnew hreads hcount hdisk (by rw [hsettled]; exact h.settled) (by rw [hworld]; exact h.world)
    (by rw [hworld]; exact World.Steady.refl _) (fun k => ?_) hread
  rw [hworld, hreads, h.pins k]
  by_cases hk : k = r
  · subst hk
    rw [Function.update_self]
    simp only [CacheRead.pins, hpins, hkey, hslots]
  · rw [Function.update_of_ne hk]

/-- A job that is for no read, or whose place in its read's crew an idle one takes. -/
def Relieved (job : Job) (new : List Job) : Prop :=
  ∀ k, (job.reader ≠ some k ∧ crew k new = []) ∨
    (job.reader = some k ∧ job.Idle ∧ ∃ job', job'.Idle ∧ crew k new = [job'])

/-- A fill's job is done: slots may have changed hands, and no read has changed. -/
theorem Sound.onSlots (h : Sound content c (job :: rest)) (hcrew : Relieved job new)
    (hreads : c'.reads = c.reads) (hcount : c'.count = c.count) (hsettled : c'.settled = c.settled)
    (hworld : c'.world.Inv) (hpinned : c'.world.pinned = c.world.pinned)
    (hexcl : ∀ slot, tally (Job.holds slot) (new ++ rest) ≤ 1)
    (hnew : ∀ j ∈ new, j.Fills content c'.world.fills c'.disk)
    (hrest : ∀ j ∈ rest, j.Fills content c.world.fills c.disk → j.Fills content c'.world.fills c'.disk)
    (hdisk : ∀ slot, (c'.world.index.slots slot).state = .valid →
      Holds content (c'.world.index.slots slot).key fun j => c'.disk (slot * blockSize + j)) :
    Sound content c' (new ++ rest) := by
  refine ⟨hworld, fun k => ?_, fun k hk => ?_, fun k => ?_, hexcl, fun j hj => ?_, hdisk, ?_⟩
  · rw [hpinned, hreads]
    exact h.pins k
  · rw [hreads]
    exact h.fresh k (hcount ▸ hk)
  · have hk := h.reads k
    rw [hreads, crew_append]
    rcases hcrew k with ⟨hne, hnil⟩ | ⟨heq, hidle, job', hidle', hone⟩
    · rw [hnil, List.nil_append]
      rwa [crew_cons_of_ne hne] at hk
    · rw [hone]
      rw [crew_cons_self heq] at hk
      exact hk.swap hidle hidle'
  · rcases List.mem_append.mp hj with hj | hj
    · exact hnew j hj
    · exact hrest j hj (h.fills j (List.mem_cons_of_mem _ hj))
  · rw [hsettled]
    exact h.settled

/-- `onSlots` when no slot changes hands. -/
theorem Sound.onFlight (h : Sound content c (job :: rest)) (hcrew : Relieved job new)
    (hreads : c'.reads = c.reads) (hcount : c'.count = c.count) (hsettled : c'.settled = c.settled)
    (hworld : c'.world = c.world) (hdisk : c'.disk = c.disk)
    (hexcl : ∀ slot, tally (Job.holds slot) new ≤ job.holds slot)
    (hnew : ∀ j ∈ new, j.Fills content c.world.fills c.disk) : Sound content c' (new ++ rest) := by
  refine h.onSlots hcrew hreads hcount hsettled (hworld ▸ h.world) (by rw [hworld]) (fun slot => ?_)
    (by rw [hworld, hdisk]; exact hnew) (fun j _ hj => by rw [hworld, hdisk]; exact hj)
    (by rw [hworld, hdisk]; exact h.disk)
  have h1 := h.exclusive slot
  have h2 := hexcl slot
  rw [tally_cons] at h1
  rw [tally_append]
  omega

end BlorgFS.CacheFile
