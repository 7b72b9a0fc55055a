import BlorgFS.Read.Machine
import Mathlib.Algebra.Order.BigOperators.Group.Finset
import Mathlib.Algebra.Order.Ring.Nat

/-! Who has what, in the machine of the reads: each IRP has one owner until it is
completed, each dispatch one thread until it returns, each `DISK_CACHE_READ` as many
users as it counts, each work item one holder, and what a read reserved is owed by
someone until it is given back. -/

namespace BlorgFS.Read

open Lib DiskCache Core

/-! ### What a task has -/

namespace Task

/-- The locals of an issuing thread. -/
def locals : Task → Option Issue
  | .offer k | .admitFirst k | .allocate k | .admitAgain k _ | .freeItem k _ | .reserve k | .attempt k _ | .issue k _ _ _
  | .surplus k _ _ | .declined k _ | .fetch k | .unissued k _ => some k
  | _ => none

/-- The IRP a task has to itself. -/
def owner : Task → Option ℕ
  | .offer k | .admitFirst k | .allocate k | .admitAgain k _ | .freeItem k _ | .reserve k | .attempt k _ | .declined k _
  | .fetch k | .unissued k _ => some k.irp
  | .complete i _ _ _ | .fetching i | .diskComplete i _ _ _ _ | .diskSettle i _ _ _ | .issueHeld i
  | .worker i _ => some i
  | .issue _ _ _ _ | .surplus _ _ _ | .part _ _ _ | .settleRead _ => none

def owns (i : ℕ) (t : Task) : ℕ := if t.owner = some i then 1 else 0

/-- The read whose `BlorgVolumeRead` a thread is in. -/
def dispatching (t : Task) : Option ℕ :=
  match t.locals with
  | some k => if k.caller = .dispatcher then some k.irp else none
  | none => none

def dispatches (i : ℕ) (t : Task) : ℕ := if t.dispatching = some i then 1 else 0

def refs (r : ℕ) (t : Task) : ℕ := if uses t = some r then 1 else 0

/-- The `DISK_CACHE_READ` a thread is in the issue loop of. -/
def issues (r : ℕ) : Task → ℕ
  | .issue _ _ q _ => if q = r then 1 else 0
  | _ => 0

end Task

def Context2.workItem : Context2 → Option ℕ
  | .item n => some n
  | _ => none

theorem Context2.exists_item {x : Context2} (h : x.workItem.isSome) : ∃ n, x = .item n := by
  cases x with
  | item n => exact ⟨n, rfl⟩
  | _ => cases h

/-- The work item a task will free or queue. -/
def Task.workItem (c : Core) : Task → Option ℕ
  | .admitAgain _ n | .freeItem _ n => some n
  | .issueHeld i | .worker i _ => (c.irps i).context2.workItem
  | _ => none

def Task.holds (c : Core) (n : ℕ) (t : Task) : ℕ := if t.workItem c = some n then 1 else 0

/-- What a task will give back of the fetches read `i` reserved. -/
def Task.owes (c : Core) (i : ℕ) : Task → ℕ
  | .attempt k reserved | .declined k reserved => if k.irp = i then reserved else 0
  | .issue k (some reserved) r _ => if k.irp = i then reserved - extraFetches (c.reads r).fetchCount else 0
  | .surplus k reserved fetches => if k.irp = i then reserved - extraFetches fetches else 0
  | .diskComplete j _ _ fetches _ => if j = i then extraFetches fetches else 0
  | _ => 0

def DiskRead.owns (i : ℕ) (read : DiskRead) : ℕ := if read.live = true ∧ read.irp = i then 1 else 0

def DiskRead.owes (i : ℕ) (read : DiskRead) : ℕ :=
  if read.live = true ∧ read.irp = i then extraFetches read.fetchCount else 0

/-- How many `DISK_CACHE_READ`s have IRP `i`, and what they will give back for it. -/
def Core.readsOwn (c : Core) (i : ℕ) : ℕ := ∑ r ∈ Finset.range c.readCount, (c.reads r).owns i

def Core.readsOwe (c : Core) (i : ℕ) : ℕ := ∑ r ∈ Finset.range c.readCount, (c.reads r).owes i

/-! ### What holds where a task is -/

/-- `BlorgVolumeRead` has not returned anything but `STATUS_PENDING`. -/
def Quiet (c : Core) (i : ℕ) : Prop := c.returned i = none ∨ c.returned i = some .pending

/-- A read that is not settled: admitted at most once, and the flag says so. -/
structure Open (c : Core) (i : ℕ) : Prop where
  quiet : Quiet c i
  settlements : (c.irps i).settlements = 0
  admissions : (c.irps i).admissions = if (c.irps i).admitted = true then 1 else 0

/-- A read with no admission left: it was never admitted, or settled once. -/
structure Closed (c : Core) (i : ℕ) : Prop where
  admitted : (c.irps i).admitted = false
  admissions : (c.irps i).admissions = (c.irps i).settlements
  settlements : (c.irps i).settlements ≤ 1

/-- How a completion fits what the dispatch routine returned. -/
def Answers (c : Core) (i : ℕ) (dispatcher : Bool) (status : Status) : Prop :=
  if dispatcher = true then c.returned i = some status ∧ status ≠ .pending else Quiet c i

/-- The fetches `BlorgDiskCacheRead` was allowed. -/
def allowedBy : Option ℕ → ℕ
  | none => 0
  | some reserved => 1 + reserved

/-- A thread in the issue loop: the read it issues for, and that the fetches made and
those to come are within the ones allowed. -/
structure Issuing (V : Setup) (c : Core) (k : Issue) (extra : Option ℕ) (r issued : ℕ) : Prop where
  live : (c.reads r).live = true
  irp : (c.reads r).irp = k.irp
  valid : (c.reads r).valid = k.valid
  cut : Cut (V.request k.irp).offset k.valid (c.reads r).slots issued
  fetches : (c.reads r).fetchCount +
    gaps false ((c.reads r).slots.drop (blockAt (V.request k.irp).offset issued)) ≤ allowedBy extra
  alone : issued = 0 → (c.reads r).outstanding = 1

def Task.Ok (V : Setup) (c : Core) : Task → Prop
  | .offer k => Open c k.irp ∧ (c.irps k.irp).admitted = k.caller.isReleased
  | .admitFirst k | .allocate k | .admitAgain k _ => Open c k.irp ∧ (c.irps k.irp).admitted = false
  | .freeItem k _ | .reserve k | .attempt k _ | .declined k _ | .fetch k =>
    Open c k.irp ∧ (c.irps k.irp).admitted = true
  | .issue k extra r issued => Open c k.irp ∧ (c.irps k.irp).admitted = (k.caller.isReleased || extra.isSome) ∧
    Issuing V c k extra r issued
  | .surplus _ reserved fetches => extraFetches fetches ≤ reserved
  | .unissued k status => Open c k.irp ∧ status ≠ .pending
  | .complete i dispatcher status _ => Closed c i ∧ Answers c i dispatcher status
  | .fetching i => Open c i ∧ (c.irps i).admitted = true ∧ (c.irps i).context2 = .stamp
  | .diskComplete i _ _ _ _ | .diskSettle i _ _ _ => Open c i
  | .issueHeld i => Open c i ∧ (c.irps i).admitted = true ∧ (c.irps i).context2.workItem.isSome
  | .worker i _ => Open c i ∧ (c.irps i).context2.workItem.isSome
  | .part _ _ _ | .settleRead _ => True

structure Flow (V : Setup) (c : Core) (tasks : List Task) : Prop where
  owners : ∀ i, tally (Task.owns i) tasks + c.held.count i + c.waiting.count i +
    c.readsOwn i + (c.irps i).completions.length = if i < c.count then 1 else 0
  dispatchers : ∀ i, tally (Task.dispatches i) tasks + (if c.returned i = none then 0 else 1) =
    if i < c.count then 1 else 0
  refs : ∀ r, (tally (Task.refs r) tasks : ℤ) = if (c.reads r).live = true then (c.reads r).outstanding else 0
  issuers : ∀ r, tally (Task.issues r) tasks ≤ 1
  items : ∀ n, c.items.count n = tally (Task.holds c n) tasks +
    tally (fun i => if (c.irps i).context2.workItem = some n then 1 else 0) (c.held ++ c.waiting)
  itemCount : ∀ n ∈ c.items, n < c.itemCount
  owed : ∀ i, c.reserved i = c.givenBack i + tally (Task.owes c i) tasks + c.readsOwe i
  readCount : ∀ r, c.readCount ≤ r → (c.reads r).live = false
  ok : ∀ t ∈ tasks, t.Ok V c
  lists : ∀ i, i ∈ c.held ∨ i ∈ c.waiting →
    Open c i ∧ (c.irps i).admitted = false ∧ (c.irps i).context2.workItem.isSome
  reading : ∀ r, (c.reads r).live = true → Open c (c.reads r).irp
  used : ∀ r, (c.reads r).live = true → 0 < (c.reads r).outstanding
  closed : ∀ i, (c.irps i).completions ≠ [] → Closed c i
  answers : ∀ i, ∀ x ∈ (c.irps i).completions, Answers c i x.dispatcher x.status
  blank : ∀ i, c.count ≤ i → (c.irps i).admitted = false ∧ (c.irps i).admissions = 0 ∧ (c.irps i).settlements = 0 ∧
    c.reserved i = 0
  misuse : c.misuse = false

variable {V : Setup} {c c' : Core} {tasks rest : List Task} {t : Task} {i j : ℕ}

theorem Flow.perm {tasks' : List Task} (h : Flow V c tasks) (hp : tasks.Perm tasks') : Flow V c tasks' where
  owners i := by rw [← tally_perm hp]; exact h.owners i
  dispatchers i := by rw [← tally_perm hp]; exact h.dispatchers i
  refs r := by rw [← tally_perm hp]; exact h.refs r
  issuers r := by rw [← tally_perm hp]; exact h.issuers r
  items n := by rw [← tally_perm hp]; exact h.items n
  itemCount := h.itemCount
  owed i := by rw [← tally_perm hp]; exact h.owed i
  readCount := h.readCount
  ok t ht := h.ok t (hp.mem_iff.mpr ht)
  lists := h.lists
  reading := h.reading
  used := h.used
  closed := h.closed
  answers := h.answers
  blank := h.blank
  misuse := h.misuse

/-! ### One owner -/

theorem Flow.lt_readCount {r : ℕ} (h : Flow V c tasks) (hr : (c.reads r).live = true) : r < c.readCount := by
  by_contra hge
  rw [h.readCount r (by omega)] at hr
  cases hr

theorem Flow.one_le_readsOwn {r : ℕ} (h : Flow V c tasks) (hr : (c.reads r).live = true) :
    1 ≤ c.readsOwn (c.reads r).irp := by
  have hone : (c.reads r).owns (c.reads r).irp = 1 := by simp [DiskRead.owns, hr]
  rw [← hone]
  exact Finset.single_le_sum (f := fun q => (c.reads q).owns (c.reads r).irp) (fun _ _ => Nat.zero_le _)
    (Finset.mem_range.mpr (h.lt_readCount hr))

/-- While a task has an IRP, nothing else does. -/
structure Apart (c : Core) (rest : List Task) (i : ℕ) : Prop where
  tasks : ∀ t ∈ rest, t.owner ≠ some i
  held : i ∉ c.held
  waiting : i ∉ c.waiting
  reads : ∀ r, (c.reads r).live = true → (c.reads r).irp ≠ i
  completions : (c.irps i).completions = []
  lt : i < c.count

theorem Flow.apart (h : Flow V c (t :: rest)) (ht : t.owner = some i) : Apart c rest i := by
  have hown := h.owners i
  have hone : t.owns i = 1 := by simp [Task.owns, ht]
  rw [tally_cons, hone] at hown
  have hlt : i < c.count := by
    by_contra hge
    rw [if_neg hge] at hown
    omega
  rw [if_pos hlt] at hown
  refine ⟨fun t' ht' he => ?_, fun hm => ?_, fun hm => ?_, fun r hr he => ?_, ?_, hlt⟩
  · have hle := @le_tally _ (Task.owns i) rest t' ht'
    have : t'.owns i = 1 := by simp [Task.owns, he]
    omega
  · have := List.count_pos_iff.mpr hm
    omega
  · have := List.count_pos_iff.mpr hm
    omega
  · have := h.one_le_readsOwn hr
    rw [he] at this
    omega
  · exact List.eq_nil_of_length_eq_zero (by omega)

/-- The IRP a task's state is about. -/
def Task.subject : Task → Option ℕ
  | .issue k _ _ _ => some k.irp
  | t => t.owner

/-- A task that does not have an IRP, and whose read does not, is not about it. -/
theorem Task.Ok.subject_ne (hok : t.Ok V c) (hown : t.owner ≠ some i)
    (hreads : ∀ r, (c.reads r).live = true → (c.reads r).irp ≠ i) : t.subject ≠ some i := by
  cases t with
  | issue k extra r issued =>
    intro he
    exact hreads r hok.2.2.live (hok.2.2.irp.trans (Option.some.inj he))
  | _ => exact hown

/-- What a dispatch routine may still do for a read that is not its own any more:
return `STATUS_PENDING`. -/
def KeepsReturned (c c' : Core) (i : ℕ) : Prop :=
  c'.returned i = c.returned i ∨ c.returned i = none ∧ c'.returned i = some .pending

theorem Quiet.congr (h : Quiet c i) (hr : KeepsReturned c c' i) : Quiet c' i := by
  unfold Quiet
  rcases hr with hr | ⟨-, hr⟩
  · rw [hr]
    exact h
  · exact Or.inr hr

theorem Open.congr (h : Open c i) (hi : c'.irps i = c.irps i) (hr : KeepsReturned c c' i) : Open c' i where
  quiet := h.quiet.congr hr
  settlements := by rw [hi]; exact h.settlements
  admissions := by rw [hi]; exact h.admissions

theorem Closed.congr (h : Closed c i) (hi : c'.irps i = c.irps i) : Closed c' i :=
  ⟨by rw [hi]; exact h.admitted, by rw [hi]; exact h.admissions, by rw [hi]; exact h.settlements⟩

theorem Answers.congr {dispatcher : Bool} {status : Status} (h : Answers c i dispatcher status)
    (hr : KeepsReturned c c' i) : Answers c' i dispatcher status := by
  cases dispatcher with
  | true =>
    obtain ⟨hret, hne⟩ : c.returned i = some status ∧ status ≠ .pending := h
    rcases hr with hr | ⟨hnone, -⟩
    · exact ⟨hr.trans hret, hne⟩
    · rw [hnone] at hret
      cases hret
  | false => exact Quiet.congr h hr

theorem Issuing.congr {k : Issue} {extra : Option ℕ} {r issued : ℕ} (h : Issuing V c k extra r issued)
    (hr : c'.reads r = c.reads r) : Issuing V c' k extra r issued :=
  ⟨by rw [hr]; exact h.live, by rw [hr]; exact h.irp, by rw [hr]; exact h.valid, by rw [hr]; exact h.cut,
    by rw [hr]; exact h.fetches, by rw [hr]; exact h.alone⟩

theorem Task.Ok.congr (h : t.Ok V c) (hi : ∀ i, t.subject = some i → c'.irps i = c.irps i ∧ KeepsReturned c c' i)
    (hr : ∀ r, uses t = some r → c'.reads r = c.reads r) : t.Ok V c' := by
  cases t with
  | issue k extra r issued =>
    obtain ⟨ho, ha, hiss⟩ := h
    obtain ⟨hk, hret⟩ := hi k.irp rfl
    exact ⟨ho.congr hk hret, by rw [hk]; exact ha, hiss.congr (hr r rfl)⟩
  | surplus k reserved fetches => exact h
  | part r fetched length => exact h
  | settleRead r => exact h
  | complete i dispatcher status information =>
    obtain ⟨hk, hret⟩ := hi i rfl
    exact ⟨h.1.congr hk, h.2.congr hret⟩
  | offer k | admitFirst k | allocate k | reserve k | fetch k =>
    obtain ⟨hk, hret⟩ := hi k.irp rfl
    exact ⟨h.1.congr hk hret, by rw [hk]; exact h.2⟩
  | admitAgain k n | freeItem k n | attempt k n | declined k n =>
    obtain ⟨hk, hret⟩ := hi k.irp rfl
    exact ⟨h.1.congr hk hret, by rw [hk]; exact h.2⟩
  | unissued k status =>
    obtain ⟨hk, hret⟩ := hi k.irp rfl
    exact ⟨h.1.congr hk hret, h.2⟩
  | fetching i | issueHeld i =>
    obtain ⟨hk, hret⟩ := hi i rfl
    exact ⟨h.1.congr hk hret, by rw [hk]; exact h.2⟩
  | worker i fromDiskCache =>
    obtain ⟨hk, hret⟩ := hi i rfl
    exact ⟨h.1.congr hk hret, by rw [hk]; exact h.2⟩
  | diskComplete i status valid fetches refetch | diskSettle i status valid refetch =>
    obtain ⟨hk, hret⟩ := hi i rfl
    exact Open.congr h hk hret

/-! ### Steps of an IRP's owner -/

/-- A step of a task with IRP `i` that leaves `new` behind and touches no other IRP,
nor the lists and the `DISK_CACHE_READ`s: everything counted balances. -/
structure Local (V : Setup) (c c' : Core) (t : Task) (new : List Task) (i : ℕ) : Prop where
  held : c'.held = c.held
  waiting : c'.waiting = c.waiting
  readCount : c'.readCount = c.readCount
  reads : c'.reads = c.reads
  count : c'.count = c.count
  irps : ∀ j, j ≠ i → c'.irps j = c.irps j
  returned : ∀ j, j ≠ i → c'.returned j = c.returned j
  reserved : ∀ j, j ≠ i → c'.reserved j = c.reserved j
  completions : (c'.irps i).completions = []
  owners : ∀ j, tally (Task.owns j) new = t.owns j
  dispatchers : ∀ j, tally (Task.dispatches j) new + (if c'.returned j = none then 0 else 1) =
    t.dispatches j + if c.returned j = none then 0 else 1
  refs : ∀ r, tally (Task.refs r) new = t.refs r
  issuers : ∀ r, tally (Task.issues r) new = t.issues r
  items : ∀ n, c'.items.count n + t.holds c n = c.items.count n + tally (Task.holds c' n) new
  itemCount : ∀ n ∈ c'.items, n < c'.itemCount
  owed : ∀ j, c'.reserved j + c.givenBack j + t.owes c j = c.reserved j + c'.givenBack j + tally (Task.owes c' j) new
  ok : ∀ t' ∈ new, t'.Ok V c'
  misuse : c'.misuse = false

theorem Task.holds_congr {n : ℕ} (hi : ∀ i, t.owner = some i → c'.irps i = c.irps i) : t.holds c' n = t.holds c n := by
  have : t.workItem c' = t.workItem c := by
    cases t with
    | issueHeld i => simp only [Task.workItem, hi i rfl]
    | worker i fromDiskCache => simp only [Task.workItem, hi i rfl]
    | _ => rfl
  simp only [Task.holds, this]

theorem Task.owes_congr (hr : ∀ r, uses t = some r → c'.reads r = c.reads r) : t.owes c' i = t.owes c i := by
  cases t with
  | issue k extra r issued => cases extra <;> simp only [Task.owes, hr r rfl]
  | _ => rfl

theorem Flow.local {new : List Task} (h : Flow V c (t :: rest)) (ht : t.owner = some i) (hl : Local V c c' t new i) :
    Flow V c' (new ++ rest) := by
  have ha := h.apart ht
  have hrest : ∀ t' ∈ rest, ∀ j, t'.subject = some j → c'.irps j = c.irps j ∧ KeepsReturned c c' j := by
    intro t' ht' j hj
    have hok := h.ok t' (List.mem_cons_of_mem _ ht')
    have hne : j ≠ i := fun he => hok.subject_ne (ha.tasks t' ht') ha.reads (he ▸ hj)
    exact ⟨hl.irps j hne, Or.inl (hl.returned j hne)⟩
  have hown : ∀ t' ∈ rest, ∀ j, t'.owner = some j → c'.irps j = c.irps j := fun t' ht' j hj =>
    hl.irps j fun he => ha.tasks t' ht' (he ▸ hj)
  have hlist : ∀ j, j ∈ c.held ∨ j ∈ c.waiting → j ≠ i := by
    rintro j (hm | hm) rfl
    · exact ha.held hm
    · exact ha.waiting hm
  have hread : ∀ j, c'.readsOwn j = c.readsOwn j ∧ c'.readsOwe j = c.readsOwe j := fun j => by
    simp only [Core.readsOwn, Core.readsOwe, hl.readCount, hl.reads, and_self]
  have hcompl : ∀ j, (c'.irps j).completions = (c.irps j).completions := fun j => by
    by_cases hj : j = i
    · rw [hj, hl.completions, ha.completions]
    · rw [hl.irps j hj]
  refine ⟨fun j => ?_, fun j => ?_, fun r => ?_, fun r => ?_, fun n => ?_, hl.itemCount, fun j => ?_, ?_, fun t' ht' => ?_,
    fun j hj => ?_, fun r hr => ?_, ?_, fun j hj => ?_, fun j x hx => ?_, fun j hj => ?_, hl.misuse⟩
  · have hold := h.owners j
    have hnew := hl.owners j
    rw [tally_cons] at hold
    rw [tally_append, hl.held, hl.waiting, (hread j).1, hl.count, hcompl j]
    omega
  · have hold := h.dispatchers j
    have hnew := hl.dispatchers j
    rw [tally_cons] at hold
    rw [tally_append, hl.count]
    omega
  · have hold := h.refs r
    rw [tally_cons, ← hl.refs r] at hold
    rw [tally_append, hl.reads]
    exact_mod_cast hold
  · have hold := h.issuers r
    rw [tally_cons, ← hl.issuers r] at hold
    rw [tally_append]
    exact hold
  · have hold := h.items n
    have hnew := hl.items n
    have hsame : tally (Task.holds c' n) rest = tally (Task.holds c n) rest :=
      tally_congr fun t' ht' => Task.holds_congr (hown t' ht')
    have hlists : tally (fun j => if (c'.irps j).context2.workItem = some n then 1 else 0) (c.held ++ c.waiting) =
        tally (fun j => if (c.irps j).context2.workItem = some n then 1 else 0) (c.held ++ c.waiting) :=
      tally_congr fun j hj => by rw [hl.irps j (hlist j (List.mem_append.mp hj))]
    rw [tally_cons] at hold
    rw [tally_append, hl.held, hl.waiting, hsame, hlists]
    omega
  · have hold := h.owed j
    have hnew := hl.owed j
    have hsame : tally (Task.owes c' j) rest = tally (Task.owes c j) rest :=
      tally_congr fun t' _ => Task.owes_congr fun r _ => by rw [hl.reads]
    rw [tally_cons] at hold
    rw [tally_append, hsame, (hread j).2]
    omega
  · intro r hr
    rw [hl.reads]
    exact h.readCount r (hl.readCount ▸ hr)
  · rcases List.mem_append.mp ht' with hn | ht'
    · exact hl.ok t' hn
    · exact (h.ok t' (List.mem_cons_of_mem _ ht')).congr (hrest t' ht') fun r _ => by rw [hl.reads]
  · rw [hl.held, hl.waiting] at hj
    obtain ⟨ho, had, hit⟩ := h.lists j hj
    have hne := hlist j hj
    exact ⟨ho.congr (hl.irps j hne) (Or.inl (hl.returned j hne)), by rw [hl.irps j hne]; exact had,
      by rw [hl.irps j hne]; exact hit⟩
  · rw [hl.reads] at hr ⊢
    have hne := ha.reads r hr
    exact (h.reading r hr).congr (hl.irps _ hne) (Or.inl (hl.returned _ hne))
  · rw [hl.reads]
    exact h.used
  · have he : j ≠ i := fun he => hj (he ▸ hl.completions)
    rw [hl.irps j he] at hj
    exact (h.closed j hj).congr (hl.irps j he)
  · have he : j ≠ i := by
      rintro rfl
      rw [hl.completions] at hx
      cases hx
    rw [hl.irps j he] at hx
    exact (h.answers j x hx).congr (Or.inl (hl.returned j he))
  · rw [hl.count] at hj
    have hne : j ≠ i := by have := ha.lt; omega
    rw [hl.irps j hne, hl.reserved j hne]
    exact h.blank j hj

end BlorgFS.Read
