import BlorgFS.Lib.Tally
import BlorgFS.Lib.Transition

/-! The prewarm of the socket pool, `Socket.c`. A fill owes the pump one connect after the
other; a completion that owes the next one publishes it, and whoever holds the pump issues it.
A thread is a stack of calls, since a connect may complete inside the call that issues it;
every section under `SocketPool.Lock` is a step. -/

namespace BlorgFS.Socket.Prewarm

open Lib

/-- Where a call is that has not returned, by what it does next. -/
inductive Frame where
  /-- `BlorgPrewarmSocketPool`, about to be admitted. -/
  | fill (count : ℕ)
  /-- `SocketPrewarmPump`, about to set `Pending`. -/
  | publish
  /-- About to take `Running`. -/
  | tryRun
  /-- Holding `Running`, about to take `Pending`. -/
  | take
  /-- About to look at the latch and raise `InFlight`. -/
  | raise
  /-- About to call `BlorgAcquireReusableWskSocketAsync`. -/
  | issuing
  /-- The connect has been started, and the call is about to return. -/
  | called
  /-- The connect could not be started. -/
  | failed
  /-- About to give `Running` up. -/
  | tail
  /-- `SocketPrewarmStepComplete`. -/
  | connected (ok passive : Bool)
  /-- `BlorgTlsStartHandshakeAsync`. -/
  | handshaking
  /-- `SocketPrewarmHandshakeComplete`. -/
  | shaken (passive : Bool)
  /-- `SocketPrewarmStepFinish`. -/
  | finish (passive : Bool)
  /-- `SocketPrewarmStepAccount`. -/
  | account
  deriving DecidableEq, Repr

/-- What will run a completion or a worker some time. -/
inductive Flight where
  | connecting
  | queuedHandshake
  | handshaking
  | queuedStep
  deriving DecidableEq, Repr

/-- What is told of a fill: how many connects it is for, how many have been issued, and whether
a shutdown or a connect that could not be issued has stopped it. -/
structure Fill where
  count : ℕ
  issued : ℕ
  stopped : Bool
  deriving DecidableEq, Repr

/-- The words under the lock, the threads and what is in flight; the fills so far, the newest
first, and whether a drain has seen nothing in flight. -/
structure Pump where
  remaining : ℤ
  inFlight : ℤ
  shuttingDown : Bool
  running : Bool
  pending : Bool
  flights : List Flight
  threads : List (List Frame)
  fills : List Fill
  drained : Bool
  deriving Repr

/-- What the system decides: whether an operation can be started, whether it completes inside
the call, whether it succeeds, and whether its completion runs at `PASSIVE_LEVEL`. -/
structure Choice where
  started : Bool
  inside : Bool
  ok : Bool
  passive : Bool
  deriving DecidableEq, Repr

inductive Act where
  | fill (count : ℕ)
  | thread (i : ℕ) (k : Choice)
  | flight (i : ℕ) (k : Choice)
  | latch
  | observe
  deriving DecidableEq, Repr

namespace Pump

/-- A connect is issued for the newest fill. -/
def countIssue (p : Pump) : Pump :=
  match p.fills with
  | [] => p
  | f :: fills => { p with fills := { f with issued := f.issued + 1 } :: fills }

/-- The newest fill does not go on. -/
def stopFill (p : Pump) : Pump :=
  match p.fills with
  | [] => { p with remaining := 0 }
  | f :: fills => { p with remaining := 0, fills := { f with stopped := f.stopped || decide (p.remaining ≠ 0) } :: fills }

/-- One step of a call, with the calls that take its place on the stack. -/
def step (tls : Bool) (p : Pump) (k : Choice) : Frame → Pump × List Frame
  | .fill count =>
    if p.shuttingDown ∨ p.remaining ≠ 0 ∨ p.inFlight ≠ 0 then (p, [])
    else ({ p with remaining := count, fills := ⟨count, 0, false⟩ :: p.fills }, [.publish])
  | .publish => ({ p with pending := true }, [.tryRun])
  | .tryRun => if p.running then (p, []) else ({ p with running := true }, [.take])
  | .take => ({ p with pending := false }, [if p.pending then .raise else .tail])
  | .raise => if p.shuttingDown then (p, [.tail]) else ({ p with inFlight := p.inFlight + 1 }, [.issuing])
  | .issuing =>
    if k.started then
      if k.inside then (p.countIssue, [.connected k.ok k.passive, .called])
      else ({ p.countIssue with flights := .connecting :: p.flights }, [.called])
    else (p.countIssue, [.failed])
  | .called => (p, [.take])
  | .failed => ({ p.stopFill with inFlight := p.inFlight - 1 }, [.tail])
  | .tail => ({ p with running := false }, if p.pending then [.tryRun] else [])
  | .connected ok passive =>
    if ok ∧ tls then
      if passive then (p, [.handshaking]) else ({ p with flights := .queuedHandshake :: p.flights }, [])
    else (p, [.finish passive])
  | .handshaking =>
    if k.inside then (p, [.shaken k.passive]) else ({ p with flights := .handshaking :: p.flights }, [])
  | .shaken passive => (p, [.finish passive])
  | .finish passive => if passive then (p, [.account]) else ({ p with flights := .queuedStep :: p.flights }, [])
  | .account =>
    let p := { p with inFlight := p.inFlight - 1 }
    if p.shuttingDown = false ∧ 0 < p.remaining then
      ({ p with remaining := p.remaining - 1 }, if 0 < p.remaining - 1 then [.publish] else [])
    else (p, [])

/-- What is in flight runs on a thread of its own. -/
def land (k : Choice) : Flight → Frame
  | .connecting => .connected k.ok k.passive
  | .queuedHandshake => .handshaking
  | .handshaking => .shaken k.passive
  | .queuedStep => .account

/-- A `LONG` holds the count of every fill; the driver's is 32. -/
def next (tls : Bool) (p : Pump) : Act → Option Pump
  | .fill count => if 0 < count ∧ count < 2 ^ 31 then some { p with threads := [.fill count] :: p.threads } else none
  | .thread i k =>
    match p.threads[i]? with
    | some (f :: below) =>
      let (p', frames) := p.step tls k f
      some { p' with threads := (frames ++ below) :: p.threads.eraseIdx i }
    | _ => none
  | .flight i k =>
    match p.flights[i]? with
    | some f => some { p with flights := p.flights.eraseIdx i, threads := [land k f] :: p.threads }
    | none => none
  | .latch => some { p.stopFill with shuttingDown := true }
  | .observe => if p.shuttingDown ∧ p.inFlight = 0 then some { p with drained := true } else none

end Pump

/-- After `BlorgInitialiseWskClient`. -/
def initial : Pump :=
  { remaining := 0, inFlight := 0, shuttingDown := false, running := false, pending := false, flights := [], threads := [], fills := []
    drained := false }

def system (tls : Bool) : System Pump where
  init p := p = initial
  step p p' := ∃ act, p.next tls act = some p'

/-! ### What is owed and what is in flight -/

/-- A step in flight that this call is to account for. -/
def Frame.flying : Frame → ℕ
  | issuing | failed | connected _ _ | handshaking | shaken _ | finish _ | account => 1
  | _ => 0

/-- A step in flight that has not been issued. -/
def Frame.unissued : Frame → ℕ
  | issuing => 1
  | _ => 0

/-- A step that is owed and that this call carries. -/
def Frame.owed : Frame → ℕ
  | publish | raise => 1
  | _ => 0

/-- The call that holds `Running`. -/
def Frame.holding : Frame → ℕ
  | take | raise | issuing | called | failed | tail => 1
  | _ => 0

/-- A call that will look at `Running`. -/
def Frame.trying : Frame → ℕ
  | tryRun => 1
  | _ => 0

/-- Over all calls of all threads. -/
def total (g : Frame → ℕ) (threads : List (List Frame)) : ℕ := tally (tally g) threads

variable {tls : Bool} {p p' : Pump} {g : Frame → ℕ} {f : Frame} {below : List Frame} {rest threads threads' : List (List Frame)} {k : Choice} {remaining : ℤ} {flying unissued : ℕ} {fills : List Fill}

@[simp] theorem total_cons {st : List Frame} : total g (st :: rest) = tally g st + total g rest := tally_cons

theorem total_perm (h : threads.Perm threads') : total g threads = total g threads' := tally_perm h

/-- The fills with the steps that are left of the newest. A fill that has ended has issued as
many connects as it was for, unless it has been stopped. -/
def Ledger (remaining : ℤ) (flying unissued : ℕ) : List Fill → Prop
  | [] => remaining = 0 ∧ flying = 0
  | f :: older => (∀ g ∈ older, (g.stopped = true ∨ g.issued = g.count) ∧ g.issued ≤ g.count) ∧
      (f.stopped = true → remaining = 0 ∧ f.issued + unissued ≤ f.count) ∧
      (f.stopped = false → f.issued + remaining + unissued = f.count + flying ∧ (remaining = 0 → flying = 0))

/-- What the calls of all threads come to. -/
structure Load where
  flying : ℕ
  unissued : ℕ
  owed : ℕ
  holding : ℕ
  trying : ℕ

/-- The load of some calls with that of the others. -/
def Load.plus (frames : List Frame) (l : Load) : Load where
  flying := tally Frame.flying frames + l.flying
  unissued := tally Frame.unissued frames + l.unissued
  owed := tally Frame.owed frames + l.owed
  holding := tally Frame.holding frames + l.holding
  trying := tally Frame.trying frames + l.trying

def load (threads : List (List Frame)) : Load where
  flying := total Frame.flying threads
  unissued := total Frame.unissued threads
  owed := total Frame.owed threads
  holding := total Frame.holding threads
  trying := total Frame.trying threads

/-- What holds of the words under the lock when the calls come to `l`: at most one step is in
flight or owed, and what is owed will be seen by the one who holds `Running`. -/
structure Sound (p : Pump) (l : Load) : Prop where
  holding : l.holding = p.running.toNat
  inFlight : p.inFlight = p.flights.length + l.flying
  single : p.flights.length + l.flying + l.owed + p.pending.toNat ≤ 1
  due : p.shuttingDown = false → 0 < p.remaining → p.flights.length + l.flying + l.owed + p.pending.toNat = 1
  none : p.shuttingDown = false → p.remaining = 0 → p.flights.length + l.flying + l.owed + p.pending.toNat = 0
  nonneg : 0 ≤ p.remaining
  latched : p.shuttingDown = true → p.remaining = 0
  wake : p.pending = true → p.running = true ∨ 0 < l.trying
  ledger : Ledger p.remaining (p.flights.length + l.flying) l.unissued p.fills
  drained : p.drained = true → p.shuttingDown = true ∧ p.flights.length + l.flying = 0

/-- A thread has at most two calls, and the lower of two is in the middle of an issue. -/
def Shallow (st : List Frame) : Prop := st.length ≤ 1 ∨ ∃ f, st = [f, .called] ∧ f.holding = 0

theorem Shallow.cases (h : Shallow (f :: below)) : below = [] ∨ below = [.called] ∧ f.holding = 0 := by
  rcases h with h | ⟨f', h, hf⟩
  · left
    simpa using h
  · obtain ⟨rfl, rfl⟩ := List.cons.inj h
    exact .inr ⟨rfl, hf⟩

theorem load_cons {st : List Frame} : load (st :: rest) = .plus st (load rest) := by
  simp only [load, Load.plus, total_cons]

theorem load_perm (h : threads.Perm threads') : load threads = load threads' := by
  simp only [load, total_perm h]

theorem Load.plus_append {l : Load} {frames frames' : List Frame} : Load.plus (frames ++ frames') l = .plus frames (.plus frames' l) := by
  simp only [Load.plus, tally_append, Nat.add_assoc]

/-! ### What a step does to the fills -/

/-- A step is counted as in flight and is about to be issued. -/
theorem Ledger.raise (h : Ledger remaining flying unissued fills) (hr : 0 < remaining) : Ledger remaining (flying + 1) (unissued + 1) fills := by
  cases fills with
  | nil => exact absurd h.1 (by omega)
  | cons f older =>
    obtain ⟨h1, h2, h3⟩ := h
    refine ⟨h1, fun hs => ?_, fun hs => ?_⟩
    · have := (h2 hs).1
      omega
    · have := (h3 hs).1
      omega

theorem Ledger.countIssue (h : Ledger p.remaining flying (unissued + 1) p.fills) (hf : 0 < flying) :
    Ledger p.countIssue.remaining flying unissued p.countIssue.fills := by
  unfold Pump.countIssue
  cases hl : p.fills with
  | nil =>
    rw [hl] at h
    exact absurd h.2 (by omega)
  | cons f older =>
    rw [hl] at h
    obtain ⟨h1, h2, h3⟩ := h
    refine ⟨h1, fun hs => ?_, fun hs => ?_⟩
    · have := h2 hs
      simp only
      omega
    · have := h3 hs
      simp only
      omega

theorem Ledger.stopFill {flying' : ℕ} (h : Ledger p.remaining flying unissued p.fills) (hn : 0 ≤ p.remaining) (hle : flying ≤ 1)
    (hf : flying' ≤ flying) : Ledger p.stopFill.remaining flying' unissued p.stopFill.fills := by
  unfold Pump.stopFill
  cases hl : p.fills with
  | nil =>
    rw [hl] at h
    have := h.2
    exact ⟨rfl, by omega⟩
  | cons f older =>
    rw [hl] at h
    obtain ⟨h1, h2, h3⟩ := h
    refine ⟨h1, fun hs => ⟨rfl, ?_⟩, fun hs => ?_⟩
    · cases hst : f.stopped with
      | true => exact (h2 hst).2
      | false =>
        have := (h3 hst).1
        simp only [hst, Bool.false_or, decide_eq_true_eq] at hs
        simp only
        omega
    · simp only [Bool.or_eq_false_iff, decide_eq_false_iff_not, not_not] at hs
      obtain ⟨h4, h5⟩ := h3 hs.1
      have h6 := h5 hs.2
      simp only
      omega

/-- A step is accounted for. -/
theorem Ledger.account (h : Ledger remaining (flying + 1) unissued fills) (hn : 0 ≤ remaining) (hle : flying = 0) :
    Ledger (if 0 < remaining then remaining - 1 else remaining) flying unissued fills := by
  cases fills with
  | nil => exact absurd h.2 (by omega)
  | cons f older =>
    obtain ⟨h1, h2, h3⟩ := h
    refine ⟨h1, fun hs => ?_, fun hs => ?_⟩
    · obtain ⟨h4, h5⟩ := h2 hs
      rw [if_neg (by omega)]
      exact ⟨h4, h5⟩
    · obtain ⟨h4, h5⟩ := h3 hs
      by_cases hr : 0 < remaining
      · rw [if_pos hr]
        omega
      · have := h5 (by omega)
        omega

/-- A new fill begins when nothing is left of the last. -/
theorem Ledger.fill (h : Ledger 0 0 0 fills) (count : ℕ) : Ledger count 0 0 (⟨count, 0, false⟩ :: fills) := by
  refine ⟨?_, nofun, fun _ => ⟨?_, fun h0 => rfl⟩⟩
  · cases fills with
    | nil => exact fun g hg => by cases hg
    | cons f older =>
      obtain ⟨h1, h2, h3⟩ := h
      intro g hg
      rcases List.mem_cons.mp hg with rfl | hg
      · cases hst : g.stopped with
        | true => exact ⟨.inl rfl, (h2 hst).2⟩
        | false =>
          have := (h3 hst).1
          exact ⟨.inr (by omega), by omega⟩
      · exact h1 g hg
  · simp

theorem countIssue_eq (p : Pump) : ∃ fills, p.countIssue = { p with fills } := by
  unfold Pump.countIssue
  split
  · exact ⟨p.fills, rfl⟩
  · exact ⟨_, rfl⟩

theorem stopFill_eq (p : Pump) : ∃ fills, p.stopFill = { p with remaining := 0, fills } := by
  unfold Pump.stopFill
  split
  · exact ⟨p.fills, rfl⟩
  · exact ⟨_, rfl⟩

theorem step_sound {l : Load} (h : Sound p (.plus [f] l)) (hl : l.unissued ≤ l.flying) (hf : ∀ count, f = .fill count → 0 < count) :
    Sound (p.step tls k f).1 (.plus (p.step tls k f).2 l) := by
  have hrun := Bool.toNat_le p.running
  have hpend := Bool.toNat_le p.pending
  obtain ⟨fl, un, ow, ho, tr⟩ := l
  obtain ⟨h1, h2, h3, h4, h5, h6, h8, h9, h10, h11⟩ := h
  simp only [Load.plus, tally_cons, tally_nil] at h1 h2 h3 h4 h5 h9 h10 h11
  cases f with
  | publish | called | shaken =>
    simp only [Frame.flying, Frame.unissued, Frame.owed, Frame.holding, Frame.trying, Pump.step] at *
    constructor <;> (try simp only [Load.plus, tally_cons, tally_nil, Frame.flying, Frame.unissued, Frame.owed, Frame.holding, Frame.trying]) <;> grind -ring -linarith
  | tryRun | take | tail | connected | handshaking | finish =>
    simp only [Frame.flying, Frame.unissued, Frame.owed, Frame.holding, Frame.trying, Pump.step] at *
    split_ifs
    all_goals constructor <;> simp only [Load.plus, tally_cons, tally_nil, Frame.flying, Frame.unissued, Frame.owed, Frame.holding, Frame.trying] <;> grind -ring -linarith
  | raise =>
    simp only [Frame.flying, Frame.unissued, Frame.owed, Frame.holding, Frame.trying, Pump.step] at *
    have hraise := h10.raise
    split_ifs
    all_goals constructor <;> simp only [Load.plus, tally_cons, tally_nil, Frame.flying, Frame.unissued, Frame.owed, Frame.holding, Frame.trying] <;> grind -ring -linarith
  | fill count =>
    have hc := hf count rfl
    have hfill : Ledger 0 0 0 p.fills → Ledger count 0 0 (⟨count, 0, false⟩ :: p.fills) := fun h => h.fill count
    simp only [Frame.flying, Frame.unissued, Frame.owed, Frame.holding, Frame.trying, Pump.step] at *
    split_ifs
    all_goals constructor <;> simp only [Load.plus, tally_cons, tally_nil, Frame.flying, Frame.unissued, Frame.owed, Frame.holding, Frame.trying] <;> grind -ring -linarith
  | issuing =>
    simp only [Frame.flying, Frame.unissued, Frame.owed, Frame.holding, Frame.trying, Pump.step] at *
    have hcount : Ledger p.countIssue.remaining (p.flights.length + (fl + 1)) un p.countIssue.fills := by
      apply Ledger.countIssue
      · convert h10 using 1 <;> omega
      · omega
    obtain ⟨fills, he⟩ := countIssue_eq p
    rw [he] at hcount ⊢
    split_ifs
    all_goals constructor <;> simp only [Load.plus, tally_cons, tally_nil, Frame.flying, Frame.unissued, Frame.owed, Frame.holding, Frame.trying] <;> grind -ring -linarith
  | failed =>
    simp only [Frame.flying, Frame.unissued, Frame.owed, Frame.holding, Frame.trying, Pump.step] at *
    have hstop : Ledger p.stopFill.remaining (p.flights.length + fl) (0 + 0 + un) p.stopFill.fills := h10.stopFill h6 (by omega) (by omega)
    obtain ⟨fills, he⟩ := stopFill_eq p
    rw [he] at hstop ⊢
    constructor <;> simp only [Load.plus, tally_cons, tally_nil, Frame.flying, Frame.unissued, Frame.owed, Frame.holding, Frame.trying] <;> grind -ring -linarith
  | account =>
    simp only [Frame.flying, Frame.unissued, Frame.owed, Frame.holding, Frame.trying, Pump.step] at *
    have hacc : Ledger (if 0 < p.remaining then p.remaining - 1 else p.remaining) (p.flights.length + fl) un p.fills := by
      apply Ledger.account _ h6
      · omega
      · convert h10 using 1 <;> omega
    split_ifs
    all_goals constructor <;> (try simp only [Load.plus, tally_cons, tally_nil, Frame.flying, Frame.unissued, Frame.owed, Frame.holding, Frame.trying]) <;> grind -ring -linarith

/-! ### Every run -/

theorem Frame.unissued_le (f : Frame) : f.unissued ≤ f.flying := by
  cases f <;> simp [Frame.unissued, Frame.flying]

theorem load_unissued_le (threads : List (List Frame)) : (load threads).unissued ≤ (load threads).flying :=
  tally_mono (tally_mono Frame.unissued_le) threads

/-- What holds in every state of the pump. -/
structure Inv (p : Pump) : Prop where
  sound : Sound p (load p.threads)
  shallow : ∀ st ∈ p.threads, Shallow st
  counts : ∀ st ∈ p.threads, ∀ count, .fill count ∈ st → 0 < count

/-- A call is followed by one other at most, but for a connect that completes inside the call. -/
theorem step_frames : (p.step tls k f).2.length ≤ 1 ∨ f = .issuing ∧ (p.step tls k f).2 = [.connected k.ok k.passive, .called] := by
  cases f <;> simp only [Pump.step] <;> (try split_ifs) <;> simp

/-- While another call holds the pump, this one does not come to hold it. -/
theorem step_holding (hr : p.running = true) (hf : f.holding = 0) : ∀ g ∈ (p.step tls k f).2, g.holding = 0 := by
  cases f <;> simp only [Pump.step, Frame.holding, Nat.one_ne_zero] at hf ⊢ <;> (try split_ifs) <;> simp_all

theorem step_not_fill (count : ℕ) : .fill count ∉ (p.step tls k f).2 := by
  cases f <;> simp only [Pump.step] <;> (try split_ifs) <;> simp

theorem shallow_step {l : Load} (hs : Shallow (f :: below)) (h : Sound p (.plus (f :: below) l)) : Shallow ((p.step tls k f).2 ++ below) := by
  have hframes : (p.step tls k f).2.length ≤ 1 ∨ f = .issuing ∧ (p.step tls k f).2 = [.connected k.ok k.passive, .called] := step_frames
  rcases hs.cases with rfl | ⟨rfl, hf⟩
  · rw [List.append_nil]
    rcases hframes with hle | ⟨_, heq⟩
    · exact .inl hle
    · exact .inr ⟨_, heq, rfl⟩
  · -- the lower call holds the pump
    have hrun : p.running = true := by
      have := h.holding
      simp only [Load.plus, tally_cons, Frame.holding] at this
      cases hr : p.running with
      | true => rfl
      | false =>
        rw [hr] at this
        simp at this
    have hhold : ∀ g ∈ (p.step tls k f).2, g.holding = 0 := step_holding hrun hf
    rcases hframes with hle | ⟨rfl, _⟩
    · cases hframe : (p.step tls k f).2 with
      | nil => exact .inl (Nat.le_refl 1)
      | cons g frames =>
        rw [hframe] at hle hhold
        obtain rfl : frames = [] := by simpa using hle
        exact .inr ⟨g, rfl, hhold g List.mem_cons_self⟩
    · cases hf

theorem Load.plus_cons {l : Load} : Load.plus (f :: below) l = .plus [f] (.plus below l) := by
  rw [← Load.plus_append, List.singleton_append]

/-- Soundness is about the words, not the threads. -/
theorem Sound.withThreads {l : Load} (h : Sound p l) (threads : List (List Frame)) : Sound { p with threads } l :=
  ⟨h.holding, h.inFlight, h.single, h.due, h.none, h.nonneg, h.latched, h.wake, h.ledger, h.drained⟩

theorem thread_inv {i : ℕ} (hi : Inv p) (h : p.next tls (.thread i k) = some p') : Inv p' := by
  simp only [Pump.next] at h
  split at h
  · rename_i f below hst
    obtain ⟨hlt, hget⟩ := List.getElem?_eq_some_iff.mp hst
    have hperm := (List.getElem_cons_eraseIdx_perm hlt).symm
    rw [hget] at hperm
    obtain rfl := Option.some.inj h
    have hload : load p.threads = .plus (f :: below) (load (p.threads.eraseIdx i)) := by rw [load_perm hperm, load_cons]
    have hmem : f :: below ∈ p.threads := List.mem_of_getElem? hst
    have hs := hi.sound
    rw [hload] at hs
    have hs' := hs
    rw [Load.plus_cons] at hs'
    constructor
    · show Sound _ (load (((p.step tls k f).2 ++ below) :: p.threads.eraseIdx i))
      rw [load_cons, Load.plus_append]
      have hrest := load_unissued_le (below :: p.threads.eraseIdx i)
      rw [load_cons] at hrest
      have hcount : ∀ count, f = .fill count → 0 < count := fun count hf => hi.counts _ hmem count (hf ▸ List.mem_cons_self)
      have hstep : Sound (p.step tls k f).1 (.plus (p.step tls k f).2 (.plus below (load (p.threads.eraseIdx i)))) := step_sound hs' hrest hcount
      exact hstep.withThreads _
    · intro st hst'
      rcases List.mem_cons.mp hst' with rfl | hst'
      · exact shallow_step (hi.shallow _ hmem) hs
      · exact hi.shallow st (List.mem_of_mem_eraseIdx hst')
    · intro st hst'
      rcases List.mem_cons.mp hst' with rfl | hst'
      · intro count hm
        rcases List.mem_append.mp hm with hm | hm
        · exact absurd hm (step_not_fill count)
        · exact hi.counts _ hmem count (List.mem_cons_of_mem _ hm)
      · exact hi.counts st (List.mem_of_mem_eraseIdx hst')
  · cases h

theorem next_inv {act : Act} (hi : Inv p) (h : p.next tls act = some p') : Inv p' := by
  cases act with
  | thread i k => exact thread_inv hi h
  | fill count =>
    simp only [Pump.next] at h
    split_ifs at h with hc
    obtain rfl := Option.some.inj h
    have hload : load ([.fill count] :: p.threads) = load p.threads := by
      rw [load_cons]
      simp [Load.plus, Frame.flying, Frame.unissued, Frame.owed, Frame.holding, Frame.trying]
    refine ⟨?_, ?_, ?_⟩
    · show Sound _ (load ([.fill count] :: p.threads))
      rw [hload]
      exact hi.sound.withThreads _
    · intro st hst
      rcases List.mem_cons.mp hst with rfl | hst
      · exact .inl (Nat.le_refl 1)
      · exact hi.shallow st hst
    · intro st hst count' hm
      rcases List.mem_cons.mp hst with rfl | hst
      · obtain ⟨⟩ := List.mem_singleton.mp hm
        exact hc.1
      · exact hi.counts st hst count' hm
  | flight i k =>
    simp only [Pump.next] at h
    split at h
    · rename_i f hf
      obtain rfl := Option.some.inj h
      have hlen : (p.flights.eraseIdx i).length + 1 = p.flights.length := by
        obtain ⟨hlt, _⟩ := List.getElem?_eq_some_iff.mp hf
        have := List.length_eraseIdx_of_lt hlt
        omega
      obtain ⟨h1, h2, h3, h4, h5, h6, h7, h8, h9, h10⟩ := hi.sound
      have hfly : (Pump.land k f).flying = 1 ∧ (Pump.land k f).unissued = 0 ∧ (Pump.land k f).owed = 0 ∧ (Pump.land k f).holding = 0 ∧
          (Pump.land k f).trying = 0 := by
        cases f <;> exact ⟨rfl, rfl, rfl, rfl, rfl⟩
      obtain ⟨w1, w2, w3, w4, w5⟩ := hfly
      refine ⟨?_, ?_, ?_⟩
      · show Sound _ (load ([Pump.land k f] :: p.threads))
        rw [load_cons]
        constructor <;> simp only [Load.plus, tally_cons, tally_nil, w1, w2, w3, w4, w5] <;> grind -ring -linarith
      · intro st hst
        rcases List.mem_cons.mp hst with rfl | hst
        · exact .inl (Nat.le_refl 1)
        · exact hi.shallow st hst
      · intro st hst count hm
        rcases List.mem_cons.mp hst with rfl | hst
        · have hm := List.mem_singleton.mp hm
          cases f <;> cases hm
        · exact hi.counts st hst count hm
    · cases h
  | latch =>
    obtain rfl := Option.some.inj h
    obtain ⟨h1, h2, h3, h4, h5, h6, h7, h8, h9, h10⟩ := hi.sound
    have hstop : Ledger p.stopFill.remaining (p.flights.length + (load p.threads).flying) (load p.threads).unissued p.stopFill.fills :=
      h9.stopFill h6 (by omega) (Nat.le_refl _)
    have hshallow := hi.shallow
    have hcounts := hi.counts
    obtain ⟨fills, he⟩ := stopFill_eq p
    rw [he] at hstop ⊢
    exact ⟨⟨h1, h2, h3, nofun, nofun, Int.le_refl 0, fun _ => rfl, h8, hstop, fun hd => ⟨rfl, (h10 hd).2⟩⟩, hshallow, hcounts⟩
  | observe =>
    simp only [Pump.next] at h
    split_ifs at h with hc
    obtain rfl := Option.some.inj h
    obtain ⟨h1, h2, h3, h4, h5, h6, h7, h8, h9, h10⟩ := hi.sound
    refine ⟨⟨h1, h2, h3, h4, h5, h6, h7, h8, h9, fun _ => ⟨hc.1, ?_⟩⟩, hi.shallow, hi.counts⟩
    have := hc.2
    show p.flights.length + (load p.threads).flying = 0
    omega

theorem reachable_inv (h : (system tls).Reachable p) : Inv p := by
  apply System.invariant (P := Inv) _ _ h
  · rintro p rfl
    refine ⟨?_, by simp [initial], by simp [initial]⟩
    constructor <;> simp [initial, load, total, Ledger]
  · rintro p p' _ hi ⟨act, hn⟩
    exact next_inv hi hn

/-- Connects issued so far. -/
def Pump.issues (p : Pump) : ℕ := tally Fill.issued p.fills

/-- Nothing is left to run but what is asked of the pump anew. -/
def Pump.Idle (p : Pump) : Prop := p.flights = [] ∧ ∀ st ∈ p.threads, st = []

theorem issues_stopFill : p.stopFill.issues = p.issues := by
  unfold Pump.stopFill Pump.issues
  split
  · rename_i hl
    rw [hl]
  · rename_i f older hl
    rw [hl]
    rfl

theorem drained_stopFill : p.stopFill.drained = p.drained := by
  obtain ⟨fills, he⟩ := stopFill_eq p
  rw [he]

/-- Only the call that issues a connect issues one. -/
theorem step_issues (hf : f ≠ .issuing) (hs : p.shuttingDown = true) : (p.step tls k f).1.drained = p.drained ∧ (p.step tls k f).1.issues = p.issues := by
  cases f with
  | issuing => exact absurd rfl hf
  | failed => exact ⟨drained_stopFill, issues_stopFill⟩
  | fill count =>
    simp only [Pump.step]
    rw [if_pos (.inl hs)]
    exact ⟨rfl, rfl⟩
  | _ =>
    dsimp only [Pump.step]
    (try split_ifs) <;> exact ⟨rfl, rfl⟩

/-- Once a drain has seen nothing in flight, no connect is issued any more. -/
theorem issues_of_drained {act : Act} (hi : Inv p) (hd : p.drained = true) (h : p.next tls act = some p') : p'.drained = true ∧ p'.issues = p.issues := by
  obtain ⟨hs, hflying⟩ := hi.sound.drained hd
  cases act with
  | fill count =>
    simp only [Pump.next] at h
    split_ifs at h
    obtain rfl := Option.some.inj h
    exact ⟨hd, rfl⟩
  | flight i k =>
    simp only [Pump.next] at h
    split at h
    · obtain rfl := Option.some.inj h
      exact ⟨hd, rfl⟩
    · cases h
  | latch =>
    obtain rfl := Option.some.inj h
    exact ⟨drained_stopFill.trans hd, issues_stopFill⟩
  | observe =>
    simp only [Pump.next] at h
    split_ifs at h
    obtain rfl := Option.some.inj h
    exact ⟨rfl, rfl⟩
  | thread i k =>
    simp only [Pump.next] at h
    split at h
    · rename_i f below hst
      obtain rfl := Option.some.inj h
      have hne : f ≠ .issuing := by
        rintro rfl
        have hload : total Frame.flying p.threads = _ := tally_eraseIdx hst
        simp only [tally_cons, Frame.flying] at hload
        have hf : (load p.threads).flying = total Frame.flying p.threads := rfl
        omega
      have hissues : (p.step tls k f).1.drained = p.drained ∧ (p.step tls k f).1.issues = p.issues := step_issues hne hs
      obtain ⟨h1, h2⟩ := hissues
      exact ⟨h1.trans hd, h2⟩
    · cases h

theorem issues_run {acts : List Act} (hi : Inv p) (hd : p.drained = true) (h : run (Pump.next tls) p acts = some p') : p'.issues = p.issues := by
  induction acts generalizing p with
  | nil => rw [← Option.some.inj h]
  | cons act acts ih =>
    obtain ⟨p₁, hn, h⟩ := Option.bind_eq_some_iff.mp h
    obtain ⟨hd₁, hissues⟩ := issues_of_drained hi hd hn
    rw [ih (next_inv hi hn) hd₁ h, hissues]

theorem load_idle (h : p.Idle) : load p.threads = ⟨0, 0, 0, 0, 0⟩ := by
  have hz : ∀ g, total g p.threads = 0 := by
    intro g
    apply tally_eq_zero
    intro st hst
    rw [h.2 st hst]
    rfl
  simp only [load, hz]

/-- No fill issues more connects than it is for. -/
theorem Ledger.issued_le (h : Ledger remaining flying unissued fills) (hn : 0 ≤ remaining) (hle : flying ≤ 1) : ∀ f ∈ fills, f.issued ≤ f.count := by
  cases fills with
  | nil => exact fun f hf => by cases hf
  | cons f older =>
    obtain ⟨h1, h2, h3⟩ := h
    intro g hg
    rcases List.mem_cons.mp hg with rfl | hg
    · cases hst : g.stopped with
      | true =>
        have := (h2 hst).2
        omega
      | false =>
        obtain ⟨h4, h5⟩ := h3 hst
        by_cases hr : remaining = 0
        · have := h5 hr
          omega
        · omega
    · exact (h1 g hg).2

/-- However the fills, the connects, the handshakes and a drain run into each other: one
connect at a time is in flight; a fill that has not been stopped issues as many as it is for,
all of them by the time that nothing is left to run; the step that is owed is always there,
and seen by someone; the calls of a thread do not nest; and once a drain has seen nothing in
flight no connect is issued. -/
theorem prewarm_pump (h : (system tls).Reachable p) :
    (p.inFlight = p.flights.length + (load p.threads).flying ∧ p.inFlight ≤ 1) ∧
    (∀ f older, p.fills = f :: older → (∀ g ∈ older, g.stopped = true ∨ g.issued = g.count) ∧ (p.Idle → f.stopped = true ∨ f.issued = f.count)) ∧
    (∀ f ∈ p.fills, f.issued ≤ f.count) ∧
    (p.shuttingDown = false → 0 < p.remaining → p.inFlight + (load p.threads).owed + p.pending.toNat = 1) ∧
    (p.pending = true → (p.running = true ∧ 0 < (load p.threads).holding) ∨ 0 < (load p.threads).trying) ∧
    (∀ st ∈ p.threads, st.length ≤ 2) ∧
    (p.drained = true → ∀ acts p', run (Pump.next tls) p acts = some p' → p'.issues = p.issues) := by
  have hi := reachable_inv h
  obtain ⟨h1, h2, h3, h4, h5, h6, h7, h8, h9, h10⟩ := hi.sound
  refine ⟨⟨h2, by omega⟩, ?_, h9.issued_le h6 (by omega), ?_, ?_, ?_, ?_⟩
  · intro f older hl
    rw [hl] at h9
    refine ⟨fun g hg => (h9.1 g hg).1, fun hidle => ?_⟩
    have hload := load_idle hidle
    rw [hload] at h1 h4 h8 h9
    rw [hidle.1] at h4 h9
    have hpend : p.pending.toNat = 0 := by
      cases hp : p.pending with
      | false => rfl
      | true =>
        rcases h8 hp with hr | ht
        · rw [hr] at h1
          cases h1
        · cases ht
    have hrem : p.remaining = 0 := by
      cases hs : p.shuttingDown with
      | true => exact h7 hs
      | false =>
        by_contra hne
        have := h4 hs (by omega)
        simp only [List.length_nil] at this
        omega
    cases hst : f.stopped with
    | true => exact .inl rfl
    | false =>
      have := (h9.2.2 hst).1
      simp only [List.length_nil] at this
      exact .inr (by omega)
  · intro hs hr
    have := h4 hs hr
    omega
  · intro hp
    rcases h8 hp with hr | ht
    · rw [hr] at h1
      exact .inl ⟨hr, by simp [h1]⟩
    · exact .inr ht
  · intro st hst
    rcases hi.shallow st hst with hle | ⟨f, rfl, _⟩
    · omega
    · exact Nat.le_refl 2
  · exact fun hd acts p' hrun => issues_run hi hd hrun

/-- A fill of two: the first connect completes inside the call, the second later; then the
drain. -/
theorem prewarm_pump_two :
    ∃ p, (system false).Reachable p ∧ p.fills = [⟨2, 2, false⟩] ∧ p.drained = true ∧ p.inFlight ≤ 1 ∧
      ∀ acts p', run (Pump.next false) p acts = some p' → p'.issues = p.issues := by
  have hrun : (run (Pump.next false) initial
      ([.fill 2] ++ List.replicate 12 (.thread 0 ⟨true, true, true, true⟩) ++ List.replicate 5 (.thread 0 ⟨true, false, true, true⟩) ++
        [.flight 0 ⟨true, true, true, false⟩, .thread 0 ⟨true, true, true, true⟩, .thread 0 ⟨true, true, true, true⟩,
          .flight 0 ⟨true, true, true, true⟩, .thread 0 ⟨true, true, true, true⟩, .latch, .observe])).any
        (fun p => decide (p.fills = [⟨2, 2, false⟩]) && p.drained) = true := by decide +kernel
  obtain ⟨p, hp, hok⟩ := (Option.any_eq_true _ _).mp hrun
  have hnext : ∀ p act p', Pump.next false p act = some p' → (system false).step p p' := fun _ act _ h => ⟨act, h⟩
  have hreach := System.Reachable.run hnext (.init rfl) hp
  simp only [Bool.and_eq_true, decide_eq_true_eq] at hok
  have hpump := prewarm_pump hreach
  exact ⟨p, hreach, hok.1, hok.2, hpump.1.2, hpump.2.2.2.2.2.2 hok.2⟩

end BlorgFS.Socket.Prewarm
