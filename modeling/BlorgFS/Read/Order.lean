import BlorgFS.Read.Fair
import BlorgFS.Lib.FirstLeast
import Mathlib.Data.List.Nodup

/-! The order in which `ReadFair` serves: every run of its lock sections, with a log beside it
of what arrived and of what the scheduler was when it let a read go. -/

namespace BlorgFS.Read

open Lib

/-! ### The log -/

/-- Where a read goes when it arrives. -/
inductive Place where
  | admitted | held | waiting
  deriving DecidableEq, Repr

/-- A read as it arrived: the number of its arrival, its file, and the interval charged. -/
structure Arrival where
  number : ℕ
  irp : ℕ
  node : ℕ
  start : ℕ
  length : ℕ
  place : Place
  deriving DecidableEq, Repr

/-- A read let go, with the scheduler just before and the numbers of the arrivals then. -/
structure Release where
  irp : ℕ
  node : ℕ
  place : Place
  fair : Fair
  numbers : ℕ → ℕ

/-- Its arrival. -/
def Release.number (r : Release) : ℕ := r.numbers r.irp

/-- The scheduler with the log: what arrived, the last arrival of each read, what was let go,
and each value `VirtualTime` was given. -/
structure Traffic where
  fair : Fair
  arrivals : List Arrival
  number : ℕ → ℕ
  released : List Release
  times : List ℕ

inductive FairAct where
  /-- The first section of `ReadFairAdmit`. -/
  | admitFirst (i : ℕ) (mayHold : Bool)
  /-- Its second, with the work item it needs by then. -/
  | admitAgain (i : ℕ) (mayHold : Bool) (item : ℕ)
  /-- `ReadFairSettle`. -/
  | settle (i : ℕ)
  /-- `ReadFairReserve`, for read `i`. -/
  | reserve (i fetches : ℕ)
  /-- `ReadFairGiveBack`, of what read `i` reserved. -/
  | giveBack (i fetches : ℕ)

namespace Traffic

variable (V : Setup) (t : Traffic)

/-- Read `i` arrives and the scheduler becomes `f`. -/
def arrive (i : ℕ) (place : Place) (f : Fair) : Traffic :=
  { t with
    fair := f
    arrivals := t.arrivals ++ [⟨t.arrivals.length, i, (V.request i).node, t.fair.startTag V i, (V.request i).length, place⟩]
    number := Function.update t.number i t.arrivals.length }

def admitNow (i : ℕ) : Traffic :=
  { t.arrive V i .admitted (t.fair.admitNow V i) with times := t.times ++ [t.fair.startTag V i] }

def hold (i : ℕ) (mayHold : Bool) (item : ℕ) : Traffic :=
  t.arrive V i (if mayHold then .held else .waiting) (t.fair.hold V i mayHold item)

/-- The body of the loop of `ReadFairAdmitHeld`. -/
def release (i start : ℕ) : Traffic :=
  { t with
    fair := t.fair.release V i start
    released := t.released ++ [⟨i, (V.request i).node, if t.fair.waiting = [] then .held else .waiting, t.fair, t.number⟩]
    times := t.times ++ [max t.fair.virtualTime start] }

/-- The loop of `ReadFairAdmitHeld`. -/
def admitHeldFrom : ℕ → Traffic → Traffic
  | 0, t => t
  | room + 1, t =>
    match t.fair.next V with
    | none => t
    | some (i, start) => admitHeldFrom room (t.release V i start)

/-- `ReadFairAdmitHeld`. -/
def admitHeld : Traffic := admitHeldFrom V (maxFetches - t.fair.inFlightFetches) t

/-- What the callers see to: a read that arrives is in neither list, and its tag does not wrap. -/
def Allowed : FairAct → Prop
  | .admitFirst i _ | .admitAgain i _ _ => i ∉ t.fair.held ∧ i ∉ t.fair.waiting ∧ t.fair.startTag V i + (V.request i).length < 2 ^ 64
  | _ => True

/-- One lock section. -/
def exec : FairAct → Traffic
  | .admitFirst i mayHold => if t.fair.mustHold V (V.request i).node mayHold then t else t.admitNow V i
  | .admitAgain i mayHold item => if t.fair.mustHold V (V.request i).node mayHold then t.hold V i mayHold item else t.admitNow V i
  | .settle i => if (t.fair.irps i).admitted = false then t else { t with fair := t.fair.uncharge V i }.admitHeld V
  | .reserve i fetches => { t with fair := (t.fair.reserve i fetches).1 }
  | .giveBack i fetches => if fetches = 0 then t else { t with fair := t.fair.restore i fetches }.admitHeld V

/-- The scheduler once `BlorgReadInit` has run, before the first read. -/
def initial (irps : ℕ → Irp) : Traffic :=
  ⟨⟨0, 0, 0, [], [], fun _ => ⟨0, 0⟩, irps, fun _ => 0, fun _ => 0, false⟩, [], fun _ => 0, [], [0]⟩

def system : System Traffic where
  init t := ∃ irps, t = initial irps
  step t t' := ∃ act, t.Allowed V act ∧ t' = t.exec V act

variable {V t}

/-! ### The log leaves the scheduler alone -/

theorem admitHeldFrom_fair (room : ℕ) (t : Traffic) : (admitHeldFrom V room t).fair = (Fair.admitHeldFrom V room t.fair).1 := by
  induction room generalizing t with
  | zero => rfl
  | succ room ih =>
    unfold admitHeldFrom Fair.admitHeldFrom
    cases t.fair.next V with
    | none => rfl
    | some next => exact ih _

theorem settle_fair (i : ℕ) : (t.exec V (.settle i)).fair = (t.fair.settle V i).1 := by
  simp only [exec, Fair.settle]
  split
  · rfl
  · exact admitHeldFrom_fair _ _

theorem giveBack_fair (i fetches : ℕ) : (t.exec V (.giveBack i fetches)).fair = (t.fair.giveBack V i fetches).1 := by
  simp only [exec, Fair.giveBack]
  split
  · rfl
  · exact admitHeldFrom_fair _ _

/-! ### What the scheduler chooses -/

end Traffic

/-- The start tag of a read that is in one of the lists. -/
def Fair.heldTag (f : Fair) (i : ℕ) : ℕ := (f.irps i).context1

/-- There is room in the budget, or nothing of the read's file is in flight. -/
def Fair.Eligible (V : Setup) (f : Fair) (i : ℕ) : Prop := f.inFlightBytes < V.budget ∨ (f.nodeOf V i).readFetchesInFlight = 0

instance (V : Setup) (f : Fair) : DecidablePred (f.Eligible V) := fun _ => inferInstanceAs (Decidable (_ ∨ _))

/-- What the loop lets go next, if anything: the demand that has waited longest, or where none
waits, the first of the eligible read-ahead with the least start tag. -/
theorem Fair.next_cases (V : Setup) (f : Fair) :
    f.next V = none ∨ ∃ i, f.next V = some (i, f.heldTag i) ∧
      ((∃ rest, f.waiting = i :: rest) ∨ f.waiting = [] ∧ FirstLeast f.heldTag (f.Eligible V) f.held i) := by
  unfold Fair.next
  cases hwaiting : f.waiting with
  | cons i rest => exact Or.inr ⟨i, rfl, Or.inl ⟨rest, rfl⟩⟩
  | nil =>
    have hwalk : f.earliest V (f.inFlightBytes < V.budget) = firstLeast f.heldTag (f.Eligible V) (2 ^ 64 - 1) f.held := by
      unfold Fair.earliest firstLeast Fair.Eligible Fair.heldTag
      simp only [decide_eq_true_eq]
      congr 1
    rw [hwalk]
    rcases @firstLeast_cases _ f.heldTag (f.Eligible V) _ (2 ^ 64 - 1) f.held with ⟨he, -⟩ | ⟨i, he, hleast, -⟩ <;> rw [he]
    · exact Or.inl rfl
    · exact Or.inr ⟨i, rfl, Or.inr ⟨rfl, hleast⟩⟩

/-- What the section leaves of the lists, the tags and the virtual time when it only counts. -/
structure Fair.Quiet (f f' : Fair) : Prop where
  held : f'.held = f.held
  waiting : f'.waiting = f.waiting
  virtualTime : f'.virtualTime = f.virtualTime
  finish : ∀ node, (f'.nodes node).readFinishTag = (f.nodes node).readFinishTag
  tag : ∀ i, f'.heldTag i = f.heldTag i

theorem Fair.quiet_uncharge (V : Setup) (f : Fair) (i : ℕ) : f.Quiet (f.uncharge V i) where
  held := rfl
  waiting := rfl
  virtualTime := rfl
  finish node := by
    by_cases h : node = (V.request i).node <;> simp [uncharge, h]
  tag j := by
    by_cases h : j = i <;> simp [uncharge, heldTag, h]

theorem Fair.quiet_charge (V : Setup) (f : Fair) (i : ℕ) : f.Quiet (f.charge V i) where
  held := rfl
  waiting := rfl
  virtualTime := rfl
  finish node := by
    by_cases h : node = (V.request i).node <;> simp [charge, h]
  tag j := by
    by_cases h : j = i <;> simp [charge, heldTag, h]

theorem Fair.quiet_reserve (f : Fair) (i fetches : ℕ) : f.Quiet (f.reserve i fetches).1 :=
  ⟨rfl, rfl, rfl, fun _ => rfl, fun _ => rfl⟩

theorem Fair.quiet_restore (f : Fair) (i fetches : ℕ) : f.Quiet (f.restore i fetches) :=
  ⟨rfl, rfl, rfl, fun _ => rfl, fun _ => rfl⟩

namespace Traffic

/-! ### The invariant -/

variable (V : Setup) (t : Traffic)

/-- Read `i`'s last arrival, as its tag says it is. -/
def arrivalOf (i : ℕ) (place : Place) : Arrival :=
  ⟨t.number i, i, (V.request i).node, t.fair.heldTag i, (V.request i).length, place⟩

/-- The arrivals of read-ahead of one file that was held, and its releases. -/
def heldArrivals (node : ℕ) : List ℕ := (t.arrivals.filter fun a => a.place = .held ∧ a.node = node).map Arrival.number

def heldReleases (node : ℕ) : List ℕ := (t.released.filter fun r => r.place = .held ∧ r.node = node).map Release.number

/-- The arrivals of demand that waited, and its releases. -/
def waitingArrivals : List ℕ := (t.arrivals.filter fun a => a.place = .waiting).map Arrival.number

def waitingReleases : List ℕ := (t.released.filter fun r => r.place = .waiting).map Release.number

variable {t}

/-- Demand is let go first, and read-ahead by tag and then by arrival among what is eligible.
The tags are those of the arrivals. -/
structure Sound (arrivals : List Arrival) (r : Release) : Prop where
  waiting : r.place = .waiting → ∃ rest, r.fair.waiting = r.irp :: rest
  held : r.place = .held → r.fair.waiting = [] ∧ r.irp ∈ r.fair.held ∧ r.fair.Eligible V r.irp ∧
    ∀ j ∈ r.fair.held, r.fair.Eligible V j → r.fair.heldTag r.irp < r.fair.heldTag j ∨
      r.fair.heldTag r.irp = r.fair.heldTag j ∧ r.number ≤ r.numbers j
  tags : ∀ j ∈ r.fair.held, ⟨r.numbers j, j, (V.request j).node, r.fair.heldTag j, (V.request j).length, .held⟩ ∈ arrivals

theorem Sound.mono {arrivals more : List Arrival} {r : Release} (h : Sound V arrivals r) : Sound V (arrivals ++ more) r :=
  ⟨h.waiting, h.held, fun j hj => List.mem_append_left _ (h.tags j hj)⟩

/-- The order kept over a run. -/
structure Ordered (t : Traffic) : Prop where
  nodup : (t.fair.held ++ t.fair.waiting).Nodup
  times : t.times.Pairwise (· ≤ ·)
  now : ∀ time ∈ t.times, time ≤ t.fair.virtualTime
  numbered : ∀ a ∈ t.arrivals, a.number < t.arrivals.length
  charged : t.arrivals.Pairwise fun a b => a.number < b.number ∧ (a.node = b.node → a.start + a.length ≤ b.start)
  finish : ∀ a ∈ t.arrivals, a.start + a.length ≤ (t.fair.nodes a.node).readFinishTag
  held : ∀ i ∈ t.fair.held, t.arrivalOf V i .held ∈ t.arrivals
  waiting : ∀ i ∈ t.fair.waiting, t.arrivalOf V i .waiting ∈ t.arrivals
  heldOrder : (t.fair.held.map t.number).Pairwise (· < ·)
  heldFifo : ∀ node, t.heldArrivals node = t.heldReleases node ++ (t.fair.held.filter fun i => (V.request i).node = node).map t.number
  waitingFifo : t.waitingArrivals = t.waitingReleases ++ t.fair.waiting.map t.number
  released : ∀ r ∈ t.released, Sound V t.arrivals r

variable {V}

/-- Earlier arrivals of a file have the earlier intervals. -/
theorem Ordered.tags (h : Ordered V t) {a b : Arrival} (ha : a ∈ t.arrivals) (hb : b ∈ t.arrivals) (hlt : a.number < b.number)
    (hnode : a.node = b.node) : a.start + a.length ≤ b.start := by
  obtain ⟨m, hm, rfl⟩ := List.mem_iff_getElem.mp ha
  obtain ⟨n, hn, rfl⟩ := List.mem_iff_getElem.mp hb
  have hpairs := List.pairwise_iff_getElem.mp h.charged
  rcases lt_trichotomy m n with hmn | rfl | hnm
  · exact (hpairs m n hm hn hmn).2 hnode
  · exact absurd hlt (lt_irrefl _)
  · exact absurd (hpairs n m hn hm hnm).1 (not_lt.mpr hlt.le)

/-- A section that only counts. -/
theorem Ordered.quiet (h : Ordered V t) {f : Fair} (hq : t.fair.Quiet f) : Ordered V { t with fair := f } where
  nodup := by rw [hq.held, hq.waiting]; exact h.nodup
  times := h.times
  now := by rw [hq.virtualTime]; exact h.now
  numbered := h.numbered
  charged := h.charged
  finish a ha := by rw [hq.finish]; exact h.finish a ha
  held i hi := by
    rw [arrivalOf, hq.tag]
    exact h.held i (hq.held ▸ hi)
  waiting i hi := by
    rw [arrivalOf, hq.tag]
    exact h.waiting i (hq.waiting ▸ hi)
  heldOrder := by rw [hq.held]; exact h.heldOrder
  heldFifo := by rw [hq.held]; exact h.heldFifo
  waitingFifo := by rw [hq.waiting]; exact h.waitingFifo
  released := h.released

/-! ### Arrivals -/

/-- What a read's arrival does to the scheduler. -/
structure Arrives (V : Setup) (f : Fair) (i : ℕ) (place : Place) (f' : Fair) : Prop where
  held : f'.held = f.held ++ if place = .held then [i] else []
  waiting : f'.waiting = f.waiting ++ if place = .waiting then [i] else []
  virtualTime : f.virtualTime ≤ f'.virtualTime
  finish : ∀ node, (f'.nodes node).readFinishTag =
    if node = (V.request i).node then f.startTag V i + (V.request i).length else (f.nodes node).readFinishTag
  tag : ∀ j, f'.heldTag j = if j = i ∧ place ≠ .admitted then f.startTag V i else f.heldTag j

theorem map_number_of_notMem {l : List ℕ} {number : ℕ → ℕ} {i : ℕ} (hi : i ∉ l) (n : ℕ) :
    l.map (Function.update number i n) = l.map number :=
  List.map_congr_left fun j hj => Function.update_of_ne (by rintro rfl; exact hi hj) n number

theorem Ordered.arrive (h : Ordered V t) {i : ℕ} {place : Place} {f' : Fair} (hheld : i ∉ t.fair.held) (hwaiting : i ∉ t.fair.waiting)
    (ha : Arrives V t.fair i place f') : Ordered V (t.arrive V i place f') := by
  have hfinish : (t.fair.nodes (V.request i).node).readFinishTag ≤ t.fair.startTag V i := Nat.le_max_left _ _
  have hkept : ∀ {j}, j ≠ i → ∀ other, (t.arrive V i place f').arrivalOf V j other = t.arrivalOf V j other := fun {j} hj other => by
    unfold arrivalOf
    rw [show (t.arrive V i place f').fair = f' from rfl, ha.tag, if_neg fun he => hj he.1]
    simp [Traffic.arrive, hj]
  have hnew : place ≠ .admitted → (t.arrive V i place f').arrivalOf V i place ∈ (t.arrive V i place f').arrivals := fun hp => by
    unfold arrivalOf
    rw [show (t.arrive V i place f').fair = f' from rfl, ha.tag, if_pos ⟨rfl, hp⟩]
    simp [Traffic.arrive]
  have hlt : ∀ j ∈ t.fair.held, t.number j < t.arrivals.length := fun j hj => h.numbered _ (h.held j hj)
  refine ⟨?_, h.times, fun time ht => (h.now time ht).trans ha.virtualTime, fun a hmem => ?_, ?_, fun a hmem => ?_, fun j hj => ?_, fun j hj => ?_, ?_,
    fun node => ?_, ?_, fun r hr => (h.released r hr).mono⟩
  · show (f'.held ++ f'.waiting).Nodup
    have hnodup := h.nodup
    rw [ha.held, ha.waiting]
    cases place <;> simp [List.nodup_append] at hnodup ⊢ <;> grind -ring -linarith
  · rcases List.mem_append.mp hmem with hold | hnew
    · exact (h.numbered a hold).trans (by simp [Traffic.arrive])
    · rw [List.mem_singleton.mp hnew]
      simp [Traffic.arrive]
  · refine List.pairwise_append.mpr ⟨h.charged, List.pairwise_singleton _ _, fun a hmem b hb => ?_⟩
    rw [List.mem_singleton.mp hb]
    refine ⟨h.numbered a hmem, fun hnode => ?_⟩
    have := h.finish a hmem
    rw [show a.node = (V.request i).node from hnode] at this
    exact this.trans hfinish
  · show a.start + a.length ≤ (f'.nodes a.node).readFinishTag
    rw [ha.finish]
    rcases List.mem_append.mp hmem with hold | hnew
    · have := h.finish a hold
      split
      next hnode =>
        rw [hnode] at this
        omega
      next => exact this
    · rw [List.mem_singleton.mp hnew, if_pos rfl]
  · have hmem : j ∈ f'.held := hj
    rw [ha.held, List.mem_append] at hmem
    rcases hmem with hold | hself
    · rw [hkept (by rintro rfl; exact hheld hold)]
      exact List.mem_append_left _ (h.held j hold)
    · split at hself
      next hp =>
        obtain rfl := List.mem_singleton.mp hself
        exact hp ▸ hnew (hp ▸ nofun)
      next => cases hself
  · have hmem : j ∈ f'.waiting := hj
    rw [ha.waiting, List.mem_append] at hmem
    rcases hmem with hold | hself
    · rw [hkept (by rintro rfl; exact hwaiting hold)]
      exact List.mem_append_left _ (h.waiting j hold)
    · split at hself
      next hp =>
        obtain rfl := List.mem_singleton.mp hself
        exact hp ▸ hnew (hp ▸ nofun)
      next => cases hself
  · show (f'.held.map (Function.update t.number i t.arrivals.length)).Pairwise (· < ·)
    rw [ha.held, List.map_append, map_number_of_notMem hheld]
    refine List.pairwise_append.mpr ⟨h.heldOrder, ?_, fun m hm n hn => ?_⟩
    · split <;> simp
    · obtain ⟨j, hj, rfl⟩ := List.mem_map.mp hm
      split at hn
      next =>
        obtain rfl : n = t.arrivals.length := by simpa using hn
        exact hlt j hj
      next => cases hn
  · show ((t.arrivals ++ [_]).filter _).map _ = t.heldReleases node ++ (f'.held.filter _).map (Function.update t.number i t.arrivals.length)
    have hfifo := h.heldFifo node
    unfold heldArrivals at hfifo
    rw [List.filter_append, List.map_append, hfifo, ha.held, List.filter_append, List.map_append,
      map_number_of_notMem fun hmem => hheld (List.mem_of_mem_filter hmem), List.append_assoc]
    congr 2
    cases place <;> by_cases hnode : (V.request i).node = node <;> simp [hnode]
  · show ((t.arrivals ++ [_]).filter _).map _ = t.waitingReleases ++ f'.waiting.map (Function.update t.number i t.arrivals.length)
    have hfifo := h.waitingFifo
    unfold waitingArrivals at hfifo
    rw [List.filter_append, List.map_append, hfifo, ha.waiting, List.map_append, map_number_of_notMem hwaiting, List.append_assoc]
    congr 2
    cases place <;> simp

theorem tag_finish {f : Fair} {i : ℕ} (hwrap : f.startTag V i + (V.request i).length < 2 ^ 64) (node : ℕ) :
    ((f.tag V i).nodes node).readFinishTag =
      if node = (V.request i).node then f.startTag V i + (V.request i).length else (f.nodes node).readFinishTag := by
  have hmod := Nat.mod_eq_of_lt hwrap
  by_cases hnode : node = (V.request i).node
  · rw [if_pos hnode, hnode]
    simpa [Fair.tag] using hmod
  · simp [Fair.tag, hnode]

/-- `VirtualTime` is given a value no earlier than before, and stays there. -/
theorem Ordered.timed (h : Ordered V t) {time : ℕ} (hlast : ∀ earlier ∈ t.times, earlier ≤ time) (hnow : time ≤ t.fair.virtualTime) :
    Ordered V { t with times := t.times ++ [time] } :=
  { h with
    times := List.pairwise_append.mpr ⟨h.times, List.pairwise_singleton _ _, fun earlier he _ hl => List.mem_singleton.mp hl ▸ hlast earlier he⟩
    now := fun other ho => (List.mem_append.mp ho).elim (h.now other) fun hl => List.mem_singleton.mp hl ▸ hnow }

theorem Ordered.admitNow (h : Ordered V t) {i : ℕ} (hheld : i ∉ t.fair.held) (hwaiting : i ∉ t.fair.waiting)
    (hwrap : t.fair.startTag V i + (V.request i).length < 2 ^ 64) : Ordered V (t.admitNow V i) := by
  have harrives : Arrives V t.fair i .admitted (t.fair.admitNow V i) := by
    refine ⟨by simp [Fair.admitNow, Fair.charge, Fair.tag], by simp [Fair.admitNow, Fair.charge, Fair.tag], Nat.le_max_right _ _, fun node => ?_, fun j => ?_⟩
    · rw [show ((t.fair.admitNow V i).nodes node).readFinishTag = (((t.fair.tag V i).charge V i).nodes node).readFinishTag from rfl,
        (Fair.quiet_charge V _ i).finish, tag_finish hwrap]
    · rw [show (t.fair.admitNow V i).heldTag j = ((t.fair.tag V i).charge V i).heldTag j from rfl, (Fair.quiet_charge V _ i).tag]
      simp [Fair.tag, Fair.heldTag]
  exact (h.arrive hheld hwaiting harrives).timed (fun time ht => (h.now time ht).trans (Nat.le_max_right _ _)) le_rfl

theorem Ordered.hold (h : Ordered V t) {i : ℕ} (mayHold : Bool) (item : ℕ) (hheld : i ∉ t.fair.held) (hwaiting : i ∉ t.fair.waiting)
    (hwrap : t.fair.startTag V i + (V.request i).length < 2 ^ 64) : Ordered V (t.hold V i mayHold item) := by
  refine h.arrive hheld hwaiting ⟨?_, ?_, ?_, fun node => ?_, fun j => ?_⟩
  · cases mayHold <;> simp [Fair.hold, Fair.setIrp, Fair.tag]
  · cases mayHold <;> simp [Fair.hold, Fair.setIrp, Fair.tag]
  · cases mayHold <;> simp [Fair.hold, Fair.setIrp, Fair.tag]
  · rw [← tag_finish hwrap]
    cases mayHold <;> rfl
  · by_cases hj : j = i <;> cases mayHold <;> simp [Fair.hold, Fair.setIrp, Fair.tag, Fair.heldTag, hj]

/-! ### Releases -/

/-- What the loop does to the scheduler as it lets read `i` go. -/
theorem release_quiet (f : Fair) (i start : ℕ) :
    ({ f with held := f.held.erase i, waiting := f.waiting.erase i, virtualTime := max f.virtualTime start } : Fair).Quiet (f.release V i start) := by
  have hq := Fair.quiet_charge V { f with held := f.held.erase i, waiting := f.waiting.erase i } i
  exact ⟨rfl, rfl, rfl, hq.finish, hq.tag⟩

/-- The read-ahead of a file that arrived first has the least tag, so none of it is before the
read that is chosen. -/
theorem Ordered.front_ne (h : Ordered V t) {i : ℕ} {front back : List ℕ} (hheld : t.fair.held = front ++ i :: back)
    (hi : t.fair.Eligible V i) (hfront : ∀ j ∈ front, t.fair.Eligible V j → t.fair.heldTag i < t.fair.heldTag j) :
    ∀ j ∈ front, (V.request j).node ≠ (V.request i).node := by
  intro j hj hnode
  have hj' : j ∈ t.fair.held := hheld ▸ List.mem_append_left _ hj
  have hi' : i ∈ t.fair.held := hheld ▸ List.mem_append_right _ List.mem_cons_self
  have heligible : t.fair.Eligible V j := by
    unfold Fair.Eligible Fair.nodeOf at hi ⊢
    rwa [hnode]
  have hnumber : t.number j < t.number i := by
    have horder := h.heldOrder
    rw [hheld, List.map_append, List.map_cons] at horder
    exact (List.pairwise_append.mp horder).2.2 _ (List.mem_map_of_mem hj) _ List.mem_cons_self
  have htags := h.tags (h.held j hj') (h.held i hi') hnumber hnode
  have := hfront j hj heligible
  simp only [arrivalOf] at htags
  omega

theorem Ordered.sound (h : Ordered V t) {i : ℕ} (hleast : FirstLeast t.fair.heldTag (t.fair.Eligible V) t.fair.held i) :
    ∀ j ∈ t.fair.held, t.fair.Eligible V j → t.fair.heldTag i < t.fair.heldTag j ∨
      t.fair.heldTag i = t.fair.heldTag j ∧ t.number i ≤ t.number j := by
  obtain ⟨front, back, hheld, -, hfront, hback⟩ := hleast
  intro j hj hp
  have horder := h.heldOrder
  rw [hheld, List.map_append, List.map_cons] at horder
  rw [hheld, List.mem_append, List.mem_cons] at hj
  rcases hj with hj | rfl | hj
  · exact Or.inl (hfront j hj hp)
  · exact Or.inr ⟨rfl, le_rfl⟩
  · refine (hback j hj hp).lt_or_eq.imp_right fun he => ⟨he, ?_⟩
    exact ((List.pairwise_cons.mp (List.pairwise_append.mp horder).2.1).1 _ (List.mem_map_of_mem hj)).le

/-- The lists without the read let go, and the log with it. -/
theorem Ordered.remove (h : Ordered V t) {i start : ℕ}
    (hchosen : (∃ rest, t.fair.waiting = i :: rest) ∨ t.fair.waiting = [] ∧ FirstLeast t.fair.heldTag (t.fair.Eligible V) t.fair.held i) :
    Ordered V { t with
      fair := { t.fair with held := t.fair.held.erase i, waiting := t.fair.waiting.erase i, virtualTime := max t.fair.virtualTime start }
      released := t.released ++ [⟨i, (V.request i).node, if t.fair.waiting = [] then .held else .waiting, t.fair, t.number⟩]
      times := t.times ++ [max t.fair.virtualTime start] } := by
  have hsound : Sound V t.arrivals ⟨i, (V.request i).node, if t.fair.waiting = [] then .held else .waiting, t.fair, t.number⟩ := by
    rcases hchosen with ⟨rest, hwaiting⟩ | ⟨hwaiting, hleast⟩
    · exact ⟨fun _ => ⟨rest, hwaiting⟩, by simp [hwaiting], h.held⟩
    · refine ⟨by simp [hwaiting], fun _ => ⟨hwaiting, hleast.mem, ?_, h.sound hleast⟩, h.held⟩
      obtain ⟨_, _, -, hp, -⟩ := hleast
      exact hp
  have hnodup := h.nodup
  refine ⟨List.Nodup.sublist (List.Sublist.append List.erase_sublist List.erase_sublist) hnodup, ?_, ?_, h.numbered, h.charged, h.finish,
    fun j hj => h.held j (List.mem_of_mem_erase hj), fun j hj => h.waiting j (List.mem_of_mem_erase hj),
    h.heldOrder.sublist (List.Sublist.map _ List.erase_sublist), fun node => ?_, ?_, fun r hr => ?_⟩
  · exact List.pairwise_append.mpr ⟨h.times, List.pairwise_singleton _ _, fun time ht last hl =>
      List.mem_singleton.mp hl ▸ (h.now time ht).trans (Nat.le_max_left _ _)⟩
  · intro time ht
    exact (List.mem_append.mp ht).elim (fun ht => (h.now time ht).trans (Nat.le_max_left _ _)) fun hl => (List.mem_singleton.mp hl).le
  · have hfifo := h.heldFifo node
    unfold heldReleases at hfifo ⊢
    rw [List.filter_append, List.map_append]
    refine hfifo.trans ?_
    rw [List.append_assoc]
    congr 1
    rcases hchosen with ⟨rest, hwaiting⟩ | ⟨hwaiting, front, back, hheld, hi, hfront, -⟩
    · have hnot : i ∉ t.fair.held := fun hmem => (List.nodup_append.mp hnodup).2.2 i hmem i (hwaiting ▸ List.mem_cons_self) rfl
      simp [hwaiting, List.erase_of_not_mem hnot]
    · have hnodup := (List.nodup_append.mp hnodup).1
      rw [hheld] at hnodup
      have hnot : i ∉ front := fun hmem => (List.nodup_append.mp hnodup).2.2 i hmem i List.mem_cons_self rfl
      have hother := h.front_ne hheld hi hfront
      simp only [hheld]
      rw [List.erase_append_right _ hnot, List.erase_cons_head, List.filter_append, List.filter_append]
      by_cases hnode : (V.request i).node = node
      · have hnone : front.filter (fun j => (V.request j).node = node) = [] :=
          List.filter_eq_nil_iff.mpr fun j hj => by simpa using hnode ▸ hother j hj
        simp [hnone, hwaiting, hnode, Release.number]
      · simp [hwaiting, hnode]
  · have hfifo := h.waitingFifo
    unfold waitingReleases at hfifo ⊢
    rw [List.filter_append, List.map_append]
    refine hfifo.trans ?_
    rw [List.append_assoc]
    congr 1
    rcases hchosen with ⟨rest, hwaiting⟩ | ⟨hwaiting, -⟩
    · simp [hwaiting, Release.number]
    · simp [hwaiting]
  · rcases List.mem_append.mp hr with hr | hr
    · exact h.released r hr
    · exact List.mem_singleton.mp hr ▸ hsound

theorem Ordered.release (h : Ordered V t) {i start : ℕ} (hnext : t.fair.next V = some (i, start)) : Ordered V (t.release V i start) := by
  rcases Fair.next_cases V t.fair with hnone | ⟨j, hj, hchosen⟩
  · rw [hnone] at hnext
    cases hnext
  · obtain ⟨rfl, -⟩ := Prod.mk.inj (Option.some.inj (hj.symm.trans hnext))
    exact (h.remove hchosen).quiet (release_quiet t.fair j start)

theorem Ordered.admitHeldFrom (h : Ordered V t) (room : ℕ) : Ordered V (t.admitHeldFrom V room) := by
  induction room generalizing t with
  | zero => exact h
  | succ room ih =>
    unfold Traffic.admitHeldFrom
    cases hnext : t.fair.next V with
    | none => exact h
    | some next => exact ih (h.release hnext)

/-! ### Runs -/

theorem Ordered.exec (h : Ordered V t) {act : FairAct} (ha : t.Allowed V act) : Ordered V (t.exec V act) := by
  cases act with
  | admitFirst i mayHold =>
    obtain ⟨hheld, hwaiting, hwrap⟩ := ha
    simp only [Traffic.exec]
    split
    · exact h
    · exact h.admitNow hheld hwaiting hwrap
  | admitAgain i mayHold item =>
    obtain ⟨hheld, hwaiting, hwrap⟩ := ha
    simp only [Traffic.exec]
    split
    · exact h.hold mayHold item hheld hwaiting hwrap
    · exact h.admitNow hheld hwaiting hwrap
  | settle i =>
    simp only [Traffic.exec]
    split
    · exact h
    · exact (h.quiet (Fair.quiet_uncharge V t.fair i)).admitHeldFrom _
  | reserve i fetches => exact h.quiet (Fair.quiet_reserve t.fair i fetches)
  | giveBack i fetches =>
    simp only [Traffic.exec]
    split
    · exact h
    · exact (h.quiet (Fair.quiet_restore t.fair i fetches)).admitHeldFrom _

theorem reachable_ordered (h : (system V).Reachable t) : Ordered V t := by
  refine System.invariant (fun t hi => ?_) (fun t t' _ hi hs => ?_) h
  · obtain ⟨irps, rfl⟩ := hi
    exact ⟨List.nodup_nil, by simp [initial], by simp [initial], nofun, List.Pairwise.nil, nofun, nofun, nofun, List.Pairwise.nil, fun _ => rfl, rfl, nofun⟩
  · obtain ⟨act, ha, rfl⟩ := hs
    exact hi.exec ha

theorem last_admitHeldFrom (room : ℕ) (h : t.times.getLast? = some t.fair.virtualTime) :
    (t.admitHeldFrom V room).times.getLast? = some (t.admitHeldFrom V room).fair.virtualTime := by
  induction room generalizing t with
  | zero => exact h
  | succ room ih =>
    unfold Traffic.admitHeldFrom
    cases t.fair.next V with
    | none => exact h
    | some next => exact ih (List.getLast?_concat ..)

/-- Each value `VirtualTime` is given is in the log. -/
theorem reachable_last (h : (system V).Reachable t) : t.times.getLast? = some t.fair.virtualTime := by
  refine System.invariant (P := fun t : Traffic => t.times.getLast? = some t.fair.virtualTime) (fun t hi => ?_) (fun t t' _ hi hs => ?_) h
  · obtain ⟨irps, rfl⟩ := hi
    rfl
  · obtain ⟨act, -, rfl⟩ := hs
    cases act with
    | admitFirst i mayHold =>
      simp only [Traffic.exec]
      split
      · exact hi
      · exact List.getLast?_concat ..
    | admitAgain i mayHold item =>
      simp only [Traffic.exec]
      split
      · cases mayHold <;> exact hi
      · exact List.getLast?_concat ..
    | settle i =>
      simp only [Traffic.exec]
      split
      · exact hi
      · exact last_admitHeldFrom _ hi
    | reserve i fetches => exact hi
    | giveBack i fetches =>
      simp only [Traffic.exec]
      split
      · exact hi
      · exact last_admitHeldFrom _ hi

/-- Over any run `VirtualTime` does not go back; the intervals charged to a file follow one
another as its reads arrive; the read-ahead held of a file, and the demand that waits, go out in
the order they came; and what goes out while no demand waits is, of the read-ahead that is
eligible then, the first with the least tag. -/
theorem fair_order (h : (system V).Reachable t) :
    t.times.Pairwise (· ≤ ·) ∧ t.times.getLast? = some t.fair.virtualTime ∧
      t.arrivals.Pairwise (fun a b => a.number < b.number ∧ (a.node = b.node → a.start + a.length ≤ b.start)) ∧
      (∀ node, t.heldArrivals node = t.heldReleases node ++ (t.fair.held.filter fun i => (V.request i).node = node).map t.number) ∧
      t.waitingArrivals = t.waitingReleases ++ t.fair.waiting.map t.number ∧
      ∀ r ∈ t.released, Sound V t.arrivals r := by
  have ho := reachable_ordered h
  exact ⟨ho.times, reachable_last h, ho.charged, ho.heldFifo, ho.waitingFifo, ho.released⟩

instance (t : Traffic) : DecidablePred (t.Allowed V)
  | .admitFirst _ _ | .admitAgain _ _ _ => inferInstanceAs (Decidable (_ ∧ _ ∧ _))
  | .settle _ | .reserve _ _ | .giveBack _ _ => inferInstanceAs (Decidable True)

/-- One section, if the callers see to what it needs. -/
def next (V : Setup) (t : Traffic) (act : FairAct) : Option Traffic := if t.Allowed V act then some (t.exec V act) else none

theorem step_of_next {t' : Traffic} {act : FairAct} (h : t.next V act = some t') : (system V).step t t' := by
  unfold next at h
  split at h
  next ha => exact ⟨act, ha, (Option.some.inj h).symm⟩
  next => cases h

/-- Reads of one page of one file, beside a budget of less than a page. -/
def onePage : Setup where
  budgetKb := 1
  request _ := ⟨0, 0, 4096, true, by decide, by decide⟩
  budgetKb_le := by decide

/-- One read admitted and two held behind it, until it settles. -/
def twoHeldBehind : List FairAct := [.admitFirst 0 true, .admitAgain 1 true 7, .admitAgain 2 true 8, .settle 0]

theorem fair_order_onePage : ∃ t, (system onePage).Reachable t ∧ t.heldArrivals 0 = [1, 2] ∧ t.heldReleases 0 = [1] ∧
    t.times.Pairwise (· ≤ ·) ∧ ∀ r ∈ t.released, Sound onePage t.arrivals r := by
  have hrun : (run (next onePage) (initial fun _ => ⟨false, 0, .empty, [], 0, 0⟩) twoHeldBehind).any
      (fun t => t.heldArrivals 0 = [1, 2] ∧ t.heldReleases 0 = [1]) = true := by decide +kernel
  obtain ⟨t, ht, hfacts⟩ := (Option.any_eq_true _ _).mp hrun
  obtain ⟨harrivals, hreleases⟩ := of_decide_eq_true hfacts
  have hnext : ∀ s act s', next onePage s act = some s' → (system onePage).step s s' := fun _ _ _ => step_of_next
  have hreach := System.Reachable.run hnext (.init ⟨_, rfl⟩) ht
  have horder := fair_order hreach
  exact ⟨t, hreach, harrivals, hreleases, horder.1, horder.2.2.2.2.2⟩

end Traffic

end BlorgFS.Read
