import BlorgFS.Lib.Tally
import BlorgFS.Lib.Transition
import BlorgFS.Lib.Word
import Mathlib.Algebra.Order.BigOperators.Group.Finset

/-! The fetches in flight, `BlorgStatisticsFetchesActive`: a difference of counters that only
rise, one entry a processor, raised where a fetch is issued and where it is settled, and zeroed
entry by entry by a reset. -/

namespace BlorgFS.Statistics

open Lib

/-- The counters of one processor that the gauge is derived from. -/
structure Entry where
  fetchesIssued : ℕ
  fetchesCompleted : ℕ
  fetchesFailed : ℕ
  deriving DecidableEq

inductive Field
  | fetchesIssued
  | fetchesCompleted
  | fetchesFailed
  deriving DecidableEq

/-- An entry as `RtlZeroMemory` leaves it. -/
def Entry.zero : Entry := ⟨0, 0, 0⟩

/-- `BLORGFS_STAT_INC`. -/
def Entry.inc (e : Entry) : Field → Entry
  | .fetchesIssued => { e with fetchesIssued := ulong64 (e.fetchesIssued + 1) }
  | .fetchesCompleted => { e with fetchesCompleted := ulong64 (e.fetchesCompleted + 1) }
  | .fetchesFailed => { e with fetchesFailed := ulong64 (e.fetchesFailed + 1) }

def Entry.settled (e : Entry) : ℕ := e.fetchesCompleted + e.fetchesFailed

/-- The loop of `BlorgStatisticsFetchesActive` over the first `n` processors: what they issued
and what they settled. -/
def sums (entries : ℕ → Entry) : ℕ → ℕ × ℕ
  | 0 => (0, 0)
  | n + 1 =>
    let (issued, settled) := sums entries n
    (ulong64 (issued + (entries n).fetchesIssued), ulong64 (settled + ulong64 ((entries n).fetchesCompleted + (entries n).fetchesFailed)))

def readAheadAdaptQuietDepth : ℤ := 6

/-! ### Where the counters are raised -/

/-- Who issued a fetch: a read, of all it wants, or the disk cache, of a part of a read. -/
inductive Issuer
  | readIssueFetch
  | diskCacheReadPart
  deriving DecidableEq

/-- What a completion finds: the status, whether the body came in a buffer of the client's,
and whether the read's pages could be mapped. -/
structure Answer where
  success : Bool
  buffered : Bool
  mapped : Bool
  deriving DecidableEq

/-- The counter `ReadComplete` raises. -/
def readComplete (a : Answer) : Field :=
  if a.success then
    if a.buffered ∧ ¬ a.mapped then .fetchesFailed else .fetchesCompleted
  else .fetchesFailed

/-- The counter `DiskCacheReadFetched` raises: a body of another version is completed too. -/
def diskCacheReadFetched (a : Answer) : Field := if a.success then .fetchesCompleted else .fetchesFailed

/-- The counter the completion of a fetch raises. -/
def Issuer.completion : Issuer → Answer → Field
  | .readIssueFetch => readComplete
  | .diskCacheReadPart => diskCacheReadFetched

theorem Issuer.completion_ne (i : Issuer) (a : Answer) : i.completion a ≠ .fetchesIssued := by
  cases i with
  | readIssueFetch =>
    simp only [completion, readComplete]
    split_ifs <;> simp
  | diskCacheReadPart =>
    simp only [completion, diskCacheReadFetched]
    split_ifs <;> simp

/-- How far a fetch has come. -/
inductive Stage
  /-- Counted, and put to the client. -/
  | asked
  /-- The client answered `STATUS_PENDING`: its completion is to come. -/
  | pending
  /-- The client answered with another status: its completion does not come. -/
  | refused
  /-- In its completion, before the counter. -/
  | called (a : Answer)
  deriving DecidableEq

structure Fetch where
  issuer : Issuer
  stage : Stage
  deriving DecidableEq

/-- The table, the fetches issued and not yet settled, and of each reset that runs how many
entries it has zeroed. -/
structure State where
  processorCount : ℕ
  entries : ℕ → Entry
  fetches : List Fetch
  resets : List ℕ

namespace State

/-- `BlorgStatisticsFetchesActive`. -/
def fetchesActive (s : State) : ℤ :=
  let (issued, settled) := sums s.entries s.processorCount
  if settled < issued then long64 (issued - settled) else 0

/-- The fetches issued and not yet settled. -/
def inFlight (s : State) : ℕ := s.fetches.length

/-- What `ReadAdaptGranularity` asks of the transport. -/
def transportQuiet (s : State) : Bool := s.fetchesActive < readAheadAdaptQuietDepth

/-- Every fetch in flight is with the client, and no reset runs. -/
def Quiescent (s : State) : Prop := s.resets = [] ∧ ∀ f ∈ s.fetches, f.stage = .pending

instance (s : State) : Decidable s.Quiescent := inferInstanceAs (Decidable (_ ∧ _))

/-- `BLORGFS_STAT_INC` on processor `p`. -/
def inc (s : State) (p : ℕ) (field : Field) : State :=
  { s with entries := Function.update s.entries p ((s.entries p).inc field) }

def withFetches (s : State) (fetches : List Fetch) : State := { s with fetches := fetches }

/-- The table as `BlorgStatisticsInitialize` leaves it. -/
def start (processorCount : ℕ) : State := ⟨processorCount, fun _ => Entry.zero, [], []⟩

end State

/-- One atomic step: a processor raises a counter, the client is asked or calls back, a reset
zeroes one entry. The table has an entry for every processor there can be. -/
inductive Act
  /-- `ReadIssueFetch` or `DiskCacheReadPart` raises `FetchesIssued`. -/
  | issue (issuer : Issuer) (p : ℕ)
  /-- `DiskCacheReadPart` cannot map the read's pages, and counts nothing. -/
  | unmapped
  /-- `BlorgHttpGetFile` or `BlorgHttpGetFileMdl` answers. -/
  | answer (k : ℕ) (pending : Bool)
  /-- What the client refused is counted. -/
  | refused (k : ℕ) (p : ℕ)
  /-- The client calls back; it may before it answers. -/
  | call (k : ℕ) (a : Answer)
  /-- `ReadComplete` or `DiskCacheReadFetched` raises its counter. -/
  | settle (k : ℕ) (p : ℕ)
  /-- `BlorgStatisticsReset` begins. -/
  | reset
  | zero (k : ℕ)
  | resetDone (k : ℕ)

namespace State

def next (s : State) : Act → Option State
  | .issue issuer p =>
    if p < s.processorCount then some ((s.inc p .fetchesIssued).withFetches (⟨issuer, .asked⟩ :: s.fetches)) else none
  | .unmapped => some s
  | .answer k pending => do
    let f ← s.fetches[k]?
    if f.stage = .asked then
      some (s.withFetches (s.fetches.set k { f with stage := if pending then .pending else .refused }))
    else none
  | .refused k p => do
    let f ← s.fetches[k]?
    if f.stage = .refused ∧ p < s.processorCount then
      some ((s.inc p .fetchesFailed).withFetches (s.fetches.eraseIdx k))
    else none
  | .call k a => do
    let f ← s.fetches[k]?
    if f.stage = .asked ∨ f.stage = .pending then some (s.withFetches (s.fetches.set k { f with stage := .called a }))
    else none
  | .settle k p => do
    let f ← s.fetches[k]?
    match f.stage with
    | .called a => if p < s.processorCount then some ((s.inc p (f.issuer.completion a)).withFetches (s.fetches.eraseIdx k)) else none
    | _ => none
  | .reset => some { s with resets := 0 :: s.resets }
  | .zero k => do
    let i ← s.resets[k]?
    if i < s.processorCount then
      some { s with entries := Function.update s.entries i Entry.zero, resets := s.resets.set k (i + 1) }
    else none
  | .resetDone k => do
    let i ← s.resets[k]?
    if i = s.processorCount then some { s with resets := s.resets.eraseIdx k } else none

end State

/-- The driver's fetches and resets, in any order, on a machine of `n` processors. -/
def gauge (n : ℕ) : System State := ⟨fun s => s = State.start n, fun s s' => ∃ act, s.next act = some s'⟩

/-! ### The sums -/

section sums

variable {entries : ℕ → Entry} {n p : ℕ}

def issuedOf (entries : ℕ → Entry) (n : ℕ) : ℕ := ∑ q ∈ Finset.range n, (entries q).fetchesIssued

def settledOf (entries : ℕ → Entry) (n : ℕ) : ℕ := ∑ q ∈ Finset.range n, (entries q).settled

theorem issuedOf_succ : issuedOf entries (n + 1) = issuedOf entries n + (entries n).fetchesIssued := Finset.sum_range_succ _ n

theorem settledOf_succ : settledOf entries (n + 1) = settledOf entries n + (entries n).settled := Finset.sum_range_succ _ n

theorem issued_le_issuedOf (h : p < n) : (entries p).fetchesIssued ≤ issuedOf entries n :=
  Finset.single_le_sum (f := fun q => (entries q).fetchesIssued) (fun _ _ => Nat.zero_le _) (Finset.mem_range.mpr h)

theorem settled_le_settledOf (h : p < n) : (entries p).settled ≤ settledOf entries n :=
  Finset.single_le_sum (f := fun q => (entries q).settled) (fun _ _ => Nat.zero_le _) (Finset.mem_range.mpr h)

/-- Where neither sum reaches 2⁶⁴ the loop's are the sums. -/
theorem sums_eq (hi : issuedOf entries n < 2 ^ 64) (hs : settledOf entries n < 2 ^ 64) :
    sums entries n = (issuedOf entries n, settledOf entries n) := by
  induction n with
  | zero => rfl
  | succ n ih =>
    rw [issuedOf_succ] at hi
    rw [settledOf_succ] at hs
    have hset : ulong64 ((entries n).fetchesCompleted + (entries n).fetchesFailed) = (entries n).settled := ulong64_of_lt (by
      have : (entries n).settled < 2 ^ 64 := by omega
      exact this)
    rw [sums, ih (by omega) (by omega), issuedOf_succ, settledOf_succ]
    simp only [hset, ulong64_of_lt hi, ulong64_of_lt hs]

theorem issuedOf_issue (hp : p < n) (hi : issuedOf entries n + 1 < 2 ^ 64) :
    issuedOf (Function.update entries p ((entries p).inc .fetchesIssued)) n = issuedOf entries n + 1 := by
  have hle : (entries p).fetchesIssued ≤ issuedOf entries n := issued_le_issuedOf hp
  have hinc : ((entries p).inc .fetchesIssued).fetchesIssued = (entries p).fetchesIssued + 1 := ulong64_of_lt (by omega)
  have hsum := sum_range_update hp entries ((entries p).inc .fetchesIssued) fun _ e => e.fetchesIssued
  unfold issuedOf at *
  omega

theorem settledOf_issue (hp : p < n) : settledOf (Function.update entries p ((entries p).inc .fetchesIssued)) n = settledOf entries n := by
  have hinc : ((entries p).inc .fetchesIssued).settled = (entries p).settled := rfl
  have hsum := sum_range_update hp entries ((entries p).inc .fetchesIssued) fun _ e => e.settled
  unfold settledOf
  omega

theorem issuedOf_settle {field : Field} (hp : p < n) (hf : field ≠ .fetchesIssued) :
    issuedOf (Function.update entries p ((entries p).inc field)) n = issuedOf entries n := by
  have hinc : ((entries p).inc field).fetchesIssued = (entries p).fetchesIssued := by
    cases field with
    | fetchesIssued => exact absurd rfl hf
    | fetchesCompleted => rfl
    | fetchesFailed => rfl
  have hsum := sum_range_update hp entries ((entries p).inc field) fun _ e => e.fetchesIssued
  unfold issuedOf
  omega

theorem settledOf_settle {field : Field} (hp : p < n) (hf : field ≠ .fetchesIssued) (hs : settledOf entries n + 1 < 2 ^ 64) :
    settledOf (Function.update entries p ((entries p).inc field)) n = settledOf entries n + 1 := by
  have hle : (entries p).settled ≤ settledOf entries n := settled_le_settledOf hp
  have hinc : ((entries p).inc field).settled = (entries p).settled + 1 := by
    cases field with
    | fetchesIssued => exact absurd rfl hf
    | fetchesCompleted =>
      have hw : ulong64 ((entries p).fetchesCompleted + 1) = (entries p).fetchesCompleted + 1 := ulong64_of_lt (by unfold Entry.settled at *; omega)
      simp only [Entry.settled, Entry.inc, hw]
      omega
    | fetchesFailed =>
      have hw : ulong64 ((entries p).fetchesFailed + 1) = (entries p).fetchesFailed + 1 := ulong64_of_lt (by unfold Entry.settled at *; omega)
      simp only [Entry.settled, Entry.inc, hw]
      omega
  have hsum := sum_range_update hp entries ((entries p).inc field) fun _ e => e.settled
  unfold settledOf at *
  omega

theorem issuedOf_zero_le (hp : p < n) : issuedOf (Function.update entries p Entry.zero) n ≤ issuedOf entries n := by
  have hsum := sum_range_update hp entries Entry.zero fun _ e => e.fetchesIssued
  have hzero : Entry.zero.fetchesIssued = 0 := rfl
  unfold issuedOf
  omega

theorem issuedOf_of_zero (h : ∀ q < n, entries q = Entry.zero) : issuedOf entries n = 0 :=
  Finset.sum_eq_zero fun q hq => by rw [h q (Finset.mem_range.mp hq)]; rfl

theorem settledOf_of_zero (h : ∀ q < n, entries q = Entry.zero) : settledOf entries n = 0 :=
  Finset.sum_eq_zero fun q hq => by rw [h q (Finset.mem_range.mp hq)]; rfl

end sums

/-! ### Resets apart from fetches -/

namespace State

variable {s s' : State} {n : ℕ}

/-- The fetches counted since the last reset. -/
def issued (s : State) : ℕ := issuedOf s.entries s.processorCount

def settled (s : State) : ℕ := settledOf s.entries s.processorCount

/-- The step does not begin a reset while a fetch is in flight, nor issue a fetch while a reset
runs, or one that makes them 2⁶³ since the last reset. -/
def Apart (s : State) : Act → Prop
  | .issue _ _ => s.resets = [] ∧ s.issued + 1 < 2 ^ 63
  | .reset => s.fetches = []
  | _ => True

instance (s : State) (act : Act) : Decidable (s.Apart act) := by
  cases act <;> unfold Apart <;> infer_instance

/-- What holds in a run whose steps are all apart: where no reset runs the counters differ by
the fetches in flight, and while one runs there are none. -/
structure Inv (s : State) : Prop where
  bound : s.issued < 2 ^ 63
  balance : s.resets = [] → s.issued = s.settled + s.inFlight
  apart : s.resets ≠ [] → s.fetches = []
  zeroed : ∀ i ∈ s.resets, ∀ q < i, s.entries q = Entry.zero

theorem Inv.start (n : ℕ) : Inv (start n) where
  bound := by
    have h : (State.start n).issued = 0 := issuedOf_of_zero fun _ _ => rfl
    omega
  balance _ := by
    have hi : (State.start n).issued = 0 := issuedOf_of_zero fun _ _ => rfl
    have hs : (State.start n).settled = 0 := settledOf_of_zero fun _ _ => rfl
    rw [hi, hs]
    rfl
  apart h := absurd rfl h
  zeroed i h := absurd h List.not_mem_nil

theorem Inv.resets_of_fetch {k : ℕ} {f : Fetch} (h : s.Inv) (hf : s.fetches[k]? = some f) : s.resets = [] := by
  by_contra hr
  rw [h.apart hr] at hf
  cases hf

/-- A fetch comes a stage further. -/
theorem Inv.setStage {k : ℕ} {f : Fetch} (h : s.Inv) (hf : s.fetches[k]? = some f) (f' : Fetch) :
    Inv (s.withFetches (s.fetches.set k f')) where
  bound := h.bound
  balance hr := by
    show s.issued = s.settled + (s.fetches.set k f').length
    rw [List.length_set]
    exact h.balance hr
  apart hr := absurd (h.resets_of_fetch hf) hr
  zeroed := h.zeroed

/-- A fetch is settled. -/
theorem Inv.remove {k p : ℕ} {f : Fetch} {field : Field} (h : s.Inv) (hf : s.fetches[k]? = some f) (hp : p < s.processorCount)
    (hfield : field ≠ .fetchesIssued) : Inv ((s.inc p field).withFetches (s.fetches.eraseIdx k)) := by
  have hr : s.resets = [] := h.resets_of_fetch hf
  have hk : k < s.fetches.length := (List.getElem?_eq_some_iff.mp hf).1
  have hb := h.balance hr
  have hlt := h.bound
  have hi : issuedOf (s.inc p field).entries s.processorCount = s.issued := issuedOf_settle hp hfield
  have hs : settledOf (s.inc p field).entries s.processorCount = s.settled + 1 :=
    settledOf_settle hp hfield (by unfold inFlight at hb; unfold settled at hb; omega)
  exact {
    bound := lt_of_eq_of_lt hi hlt
    balance := fun _ => by
      have hlen : (s.fetches.eraseIdx k).length = s.fetches.length - 1 := List.length_eraseIdx_of_lt hk
      show issuedOf (s.inc p field).entries s.processorCount = settledOf (s.inc p field).entries s.processorCount + (s.fetches.eraseIdx k).length
      unfold inFlight at hb
      omega
    apart := fun h => absurd hr h
    zeroed := fun i hi => absurd (show i ∈ s.resets from hi) (hr ▸ List.not_mem_nil) }

theorem Inv.issue {p : ℕ} {f : Fetch} (h : s.Inv) (hp : p < s.processorCount) (hr : s.resets = []) (hlt : s.issued + 1 < 2 ^ 63) :
    Inv ((s.inc p .fetchesIssued).withFetches (f :: s.fetches)) := by
  have hb := h.balance hr
  have hi : issuedOf (s.inc p .fetchesIssued).entries s.processorCount = s.issued + 1 :=
    issuedOf_issue hp (by unfold issued at hlt; omega)
  have hs : settledOf (s.inc p .fetchesIssued).entries s.processorCount = s.settled := settledOf_issue hp
  exact {
    bound := lt_of_eq_of_lt hi hlt
    balance := fun _ => by
      show issuedOf (s.inc p .fetchesIssued).entries s.processorCount = settledOf (s.inc p .fetchesIssued).entries s.processorCount + (s.fetches.length + 1)
      unfold inFlight at hb
      omega
    apart := fun h => absurd hr h
    zeroed := fun i hi => absurd (show i ∈ s.resets from hi) (hr ▸ List.not_mem_nil) }

theorem Inv.beginReset (h : s.Inv) (hf : s.fetches = []) : Inv { s with resets := 0 :: s.resets } where
  bound := h.bound
  balance hr := by cases hr
  apart _ := hf
  zeroed i hi q hq := by
    rcases List.mem_cons.mp hi with rfl | hi
    · omega
    · exact h.zeroed i hi q hq

theorem Inv.zero {k i : ℕ} (h : s.Inv) (hk : s.resets[k]? = some i) (hi : i < s.processorCount) :
    Inv { s with entries := Function.update s.entries i Entry.zero, resets := s.resets.set k (i + 1) } := by
  have hmem : i ∈ s.resets := List.mem_of_getElem? hk
  have hne : s.resets ≠ [] := List.ne_nil_of_mem hmem
  have hupd : ∀ q, s.entries q = Entry.zero → Function.update s.entries i Entry.zero q = Entry.zero := by
    intro q hq
    by_cases hqi : q = i
    · rw [hqi, Function.update_self]
    · rw [Function.update_of_ne hqi, hq]
  exact {
    bound := Nat.lt_of_le_of_lt (issuedOf_zero_le hi) h.bound
    balance := fun hr => absurd (by simpa using hr) hne
    apart := fun _ => h.apart hne
    zeroed := fun j hj q hq => by
      rcases List.mem_or_eq_of_mem_set hj with hj | rfl
      · exact hupd q (h.zeroed j hj q hq)
      · by_cases hqi : q = i
        · rw [hqi]
          exact Function.update_self ..
        · exact hupd q (h.zeroed i hmem q (by omega)) }

theorem Inv.endReset {k : ℕ} (h : s.Inv) (hk : s.resets[k]? = some s.processorCount) : Inv { s with resets := s.resets.eraseIdx k } := by
  have hmem : s.processorCount ∈ s.resets := List.mem_of_getElem? hk
  have hf : s.fetches = [] := h.apart (List.ne_nil_of_mem hmem)
  exact {
    bound := h.bound
    balance := fun _ => by
      have hi : s.issued = 0 := issuedOf_of_zero (h.zeroed _ hmem)
      have hs : s.settled = 0 := settledOf_of_zero (h.zeroed _ hmem)
      show s.issued = s.settled + s.fetches.length
      rw [hi, hs, hf]
      rfl
    apart := fun _ => hf
    zeroed := fun i hi => h.zeroed i (List.mem_of_mem_eraseIdx hi) }

theorem Inv.next {act : Act} (h : s.Inv) (ha : s.Apart act) (he : s.next act = some s') : s'.Inv := by
  cases act with
  | issue issuer p =>
    obtain ⟨hp, he⟩ := Option.ite_none_right_eq_some.mp he
    cases he
    exact h.issue hp ha.1 ha.2
  | unmapped =>
    cases he
    exact h
  | answer k pending =>
    obtain ⟨f, hf, he⟩ := Option.bind_eq_some_iff.mp he
    obtain ⟨_, he⟩ := Option.ite_none_right_eq_some.mp he
    cases he
    exact h.setStage hf _
  | refused k p =>
    obtain ⟨f, hf, he⟩ := Option.bind_eq_some_iff.mp he
    obtain ⟨⟨_, hp⟩, he⟩ := Option.ite_none_right_eq_some.mp he
    cases he
    exact h.remove hf hp Field.noConfusion
  | call k a =>
    obtain ⟨f, hf, he⟩ := Option.bind_eq_some_iff.mp he
    obtain ⟨_, he⟩ := Option.ite_none_right_eq_some.mp he
    cases he
    exact h.setStage hf _
  | settle k p =>
    obtain ⟨f, hf, he⟩ := Option.bind_eq_some_iff.mp he
    split at he
    next a _ =>
      obtain ⟨hp, he⟩ := Option.ite_none_right_eq_some.mp he
      cases he
      exact h.remove hf hp (f.issuer.completion_ne a)
    next => cases he
  | reset =>
    cases he
    exact h.beginReset ha
  | zero k =>
    obtain ⟨i, hk, he⟩ := Option.bind_eq_some_iff.mp he
    obtain ⟨hi, he⟩ := Option.ite_none_right_eq_some.mp he
    cases he
    exact h.zero hk hi
  | resetDone k =>
    obtain ⟨i, hk, he⟩ := Option.bind_eq_some_iff.mp he
    obtain ⟨hi, he⟩ := Option.ite_none_right_eq_some.mp he
    cases he
    exact h.endReset (hi ▸ hk)

/-- Where the counters differ by the fetches in flight, so says the gauge. -/
theorem Inv.fetchesActive_eq (h : s.Inv) (hr : s.resets = []) : s.fetchesActive = s.inFlight := by
  have hb := h.balance hr
  have hlt := h.bound
  have hsums : sums s.entries s.processorCount = (s.issued, s.settled) :=
    sums_eq (show s.issued < 2 ^ 64 by omega) (show s.settled < 2 ^ 64 by omega)
  simp only [fetchesActive, hsums]
  split
  next => rw [long64_of_lt (by omega), hb, Nat.add_sub_cancel_left]
  next => omega

end State

/-- The runs of `gauge` whose steps are all apart. -/
def gaugeApart (n : ℕ) : System State :=
  ⟨fun s => s = State.start n, fun s s' => ∃ act, s.Apart act ∧ s.next act = some s'⟩

theorem inv_of_reachable {n : ℕ} {s : State} (h : (gaugeApart n).Reachable s) : s.Inv :=
  System.invariant (fun _ he => he ▸ State.Inv.start n) (fun _ _ _ hi ⟨_, ha, he⟩ => hi.next ha he) h

/-- In a run whose resets and fetches are apart the gauge is the number of fetches in flight
at every quiescent point, and the read-ahead's test of the transport sees it. -/
theorem fetchesActive_exact {n : ℕ} {s : State} (h : (gaugeApart n).Reachable s) (hq : s.Quiescent) :
    s.fetchesActive = s.inFlight ∧ (s.transportQuiet ↔ s.inFlight < readAheadAdaptQuietDepth) := by
  have heq : s.fetchesActive = s.inFlight := (inv_of_reachable h).fetchesActive_eq hq.1
  refine ⟨heq, ?_⟩
  rw [State.transportQuiet, heq, decide_eq_true_iff]

/-- A fetch in flight, then a reset with nothing in flight, then another fetch. -/
theorem fetchesActive_exact_betweenResets :
    ∃ s, (gaugeApart 2).Reachable s ∧ s.Quiescent ∧ s.inFlight = 1 ∧ s.fetchesActive = 1 ∧ s.transportQuiet := by
  have hrun : (run (fun s act => if s.Apart act then s.next act else none) (State.start 2)
      [.issue .readIssueFetch 0, .answer 0 true, .call 0 ⟨true, true, false⟩, .settle 0 1, .unmapped, .issue .diskCacheReadPart 1, .answer 0 false,
        .refused 0 0, .reset, .zero 0, .zero 0, .resetDone 0, .issue .diskCacheReadPart 1, .answer 0 true]).any
      (fun s => decide (s.Quiescent ∧ s.inFlight = 1)) = true := by decide +kernel
  obtain ⟨s, hs, hq⟩ := (Option.any_eq_true _ _).mp hrun
  obtain ⟨hq, hone⟩ := of_decide_eq_true hq
  have hnext : ∀ s act s', (if s.Apart act then s.next act else none) = some s' → (gaugeApart 2).step s s' := fun s act s' he =>
    ⟨act, Option.ite_none_right_eq_some.mp he⟩
  have hr : (gaugeApart 2).Reachable s := System.Reachable.run hnext (.init rfl) hs
  obtain ⟨heq, hquiet⟩ := fetchesActive_exact hr hq
  rw [hone] at heq hquiet
  exact ⟨s, hr, hq, hone, heq, hquiet.mpr (by decide)⟩

/-- A reset between the issue of a fetch and its settlement: the next fetch is not seen, nor
would any be that is alone in flight. -/
theorem fetch_hidden_by_reset : ∃ s, (gauge 2).Reachable s ∧ s.Quiescent ∧ s.inFlight = 1 ∧ s.fetchesActive = 0 := by
  have hrun : (run State.next (State.start 2)
      [.issue .readIssueFetch 0, .answer 0 true, .reset, .zero 0, .zero 0, .resetDone 0, .call 0 ⟨true, false, false⟩, .settle 0 1,
        .issue .readIssueFetch 0, .answer 0 true]).any
      (fun s => decide (s.Quiescent ∧ s.inFlight = 1 ∧ s.fetchesActive = 0)) = true := by decide +kernel
  obtain ⟨s, hs, hq⟩ := (Option.any_eq_true _ _).mp hrun
  have hnext : ∀ s act s', State.next s act = some s' → (gauge 2).step s s' := fun s act s' he => ⟨act, he⟩
  exact ⟨s, System.Reachable.run hnext (.init rfl) hs, of_decide_eq_true hq⟩

end BlorgFS.Statistics
