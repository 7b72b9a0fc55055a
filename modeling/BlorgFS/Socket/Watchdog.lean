import Mathlib.Data.Int.Notation
import Mathlib.Data.Nat.Notation
import BlorgFS.Lib.History
import BlorgFS.Lib.Transition

/-! The watchdog of a socket operation, `Socket.c`. A context and its IRP are shared by the
completion routine and the timer's DPC, a reference each; the completion routine gets the
reference of the DPC back when it can still cancel the timer. Every interlocked operation and
every call is a step, and everything that touches the context or the IRP is in the history. -/

namespace BlorgFS.Socket

open Lib

inductive Status where
  | success
  | cancelled
  | ioTimeout
  | other (code : ℕ)
  deriving DecidableEq, Repr

/-- `NT_SUCCESS`. -/
def Status.succeeded : Status → Bool
  | success => true
  | other code => code < 0x80000000
  | _ => false

/-- A send or receive, with pages of its own to unlock or not, or a connect with the socket
it is to make. -/
inductive Kind where
  | transfer (mdl : Bool)
  | connect
  deriving DecidableEq, Repr

inductive Side where
  | routine | dpc
  deriving DecidableEq, Repr

/-- What touches the context or the IRP. -/
inductive Event where
  | armed
  | issued
  /-- WSK is through with the IRP, and its completion routine is entered. -/
  | completed (st : Status)
  /-- `KeCancelTimer`, with what it returned. -/
  | disarmed (pending : Bool)
  /-- The reference of a DPC that will not run is dropped. -/
  | gaveBack
  | tested
  /-- The pages are unlocked, or the new socket is filled in or freed. -/
  | settled
  /-- The caller's callback, with its status and whether it is given a new socket. -/
  | called (st : Status) (socket : Bool)
  /-- The timer expires and its DPC is queued. -/
  | expired
  | marked
  | cancelledIrp
  /-- `SocketReleaseTimeoutRef`, with the count it left. -/
  | released (side : Side) (count : ℤ)
  /-- The IRP and then the context. -/
  | freed (side : Side)
  deriving DecidableEq, Repr

inductive Issuer where
  | arming | issuing | issued | returned
  deriving DecidableEq, Repr

inductive Timer where
  | unset | set | cancelled | expired
  deriving DecidableEq, Repr

/-- Where the completion routine is. -/
inductive Routine where
  | waiting
  | disarming (st : Status)
  | givingBack (st : Status)
  | testing (st : Status)
  | settling (st : Status)
  | calling (st : Status)
  | releasing
  | freeing
  | done
  deriving DecidableEq, Repr

/-- Where the DPC is. -/
inductive Dpc where
  | idle | marking | cancelling | releasing | freeing | done
  deriving DecidableEq, Repr

/-- `SOCKET_OP_TIMEOUT` with the threads that work on it. -/
structure Operation where
  issuer : Issuer
  timer : Timer
  refCount : ℤ
  timedOut : Bool
  routine : Routine
  dpc : Dpc
  log : List Event
  deriving Repr

inductive Act where
  | arm
  | issue
  | returnPending
  | complete (st : Status)
  | routine
  | expire
  | dpc
  deriving DecidableEq, Repr

namespace Operation

def note (o : Operation) (e : Event) : Operation := { o with log := e :: o.log }

/-- `SocketArmTimeout`. -/
def arm (o : Operation) : Operation :=
  { o with refCount := 2, timedOut := false, timer := .set, issuer := .issuing }.note .armed

/-- Whether the caller is handed a socket. -/
def hands (kind : Kind) (st : Status) : Bool := kind = .connect && st.succeeded

/-- One step of `SocketAsyncCompletionRoutine` or `SocketConnectAsyncCompletionRoutine`. -/
def stepRoutine (kind : Kind) (o : Operation) : Option Operation :=
  match o.routine with
  | .waiting => none
  | .disarming st =>
    if o.timer = .set then some ({ o with timer := .cancelled, routine := .givingBack st }.note (.disarmed true))
    else some ({ o with routine := .testing st }.note (.disarmed false))
  | .givingBack st => some ({ o with refCount := o.refCount - 1, routine := .testing st }.note .gaveBack)
  | .testing st =>
    some ({ o with routine := .settling (if o.timedOut ∧ st = Status.cancelled then Status.ioTimeout else st) }.note .tested)
  | .settling st =>
    if kind = .transfer false then some { o with routine := .calling st }
    else some ({ o with routine := .calling st }.note .settled)
  | .calling st => some ({ o with routine := .releasing }.note (.called st (hands kind st)))
  | .releasing =>
    some ({ o with refCount := o.refCount - 1, routine := if o.refCount - 1 = 0 then .freeing else .done }.note
      (.released .routine (o.refCount - 1)))
  | .freeing => some ({ o with routine := .done }.note (.freed .routine))
  | .done => none

/-- One step of `SocketAsyncTimeoutDpc` or `SocketConnectTimeoutDpc`. -/
def stepDpc (o : Operation) : Option Operation :=
  match o.dpc with
  | .idle => none
  | .marking => some ({ o with timedOut := true, dpc := .cancelling }.note .marked)
  | .cancelling => some ({ o with dpc := .releasing }.note .cancelledIrp)
  | .releasing =>
    some ({ o with refCount := o.refCount - 1, dpc := if o.refCount - 1 = 0 then .freeing else .done }.note
      (.released .dpc (o.refCount - 1)))
  | .freeing => some ({ o with dpc := .done }.note (.freed .dpc))
  | .done => none

/-- WSK completes the IRP, with any status, at any time once it has it. -/
def next (kind : Kind) (o : Operation) : Act → Option Operation
  | .arm => if o.issuer = .arming then some o.arm else none
  | .issue => if o.issuer = .issuing then some ({ o with issuer := .issued }.note .issued) else none
  | .returnPending => if o.issuer = .issued then some { o with issuer := .returned } else none
  | .complete st =>
    if (o.issuer = .issued ∨ o.issuer = .returned) ∧ o.routine = .waiting then some ({ o with routine := .disarming st }.note (.completed st)) else none
  | .routine => o.stepRoutine kind
  | .expire => if o.timer = .set then some ({ o with timer := .expired, dpc := .marking }.note .expired) else none
  | .dpc => o.stepDpc

end Operation

/-- Every run of one operation. What the context held before comes from its last use. -/
def operations (kind : Kind) : System Operation where
  init o := o.issuer = .arming ∧ o.timer = .unset ∧ o.routine = .waiting ∧ o.dpc = .idle ∧ o.log = []
  step o o' := ∃ act, o.next kind act = some o'

/-! ### Who holds a reference -/

namespace Operation

variable {kind : Kind} {o o' : Operation} {act : Act}

/-- What the completion routine still holds. -/
def routineHolds (o : Operation) : ℤ :=
  match o.routine with
  | .freeing | .done => 0
  | _ => 1

/-- What is still held for the DPC, until its cancelled reference has been dropped. -/
def dpcHolds (o : Operation) : ℤ :=
  match o.timer with
  | .unset => 0
  | .set => 1
  | .cancelled =>
    match o.routine with
    | .givingBack _ => 1
    | _ => 0
  | .expired =>
    match o.dpc with
    | .freeing | .done => 0
    | _ => 1

/-- Nothing is left to be done to the context. -/
def Over (o : Operation) : Prop := o.routine = .done ∧ (o.timer = .cancelled ∨ o.dpc = .done)

/-- The completion routine has called back. -/
def Answered (o : Operation) : Prop := o.routine = .releasing ∨ o.routine = .freeing ∨ o.routine = .done

/-- The timer had expired before the completion routine disarmed it. -/
def FiredFirst (log : List Event) : Prop := ∃ later earlier, log = later ++ .disarmed false :: earlier ∧ .expired ∈ earlier

/-- Why a timeout may be reported: WSK said so, or the DPC marked the operation, fired before
the completion. -/
def Excused (log : List Event) : Prop := .completed .ioTimeout ∈ log ∨ .marked ∈ log ∧ FiredFirst log

theorem FiredFirst.cons {log : List Event} (h : FiredFirst log) (e : Event) : FiredFirst (e :: log) := by
  obtain ⟨later, earlier, rfl, he⟩ := h
  exact ⟨e :: later, earlier, rfl, he⟩

theorem Excused.cons {log : List Event} (h : Excused log) (e : Event) : Excused (e :: log) := by
  rcases h with h | ⟨h, hf⟩
  · exact .inl (List.mem_cons_of_mem _ h)
  · exact .inr ⟨List.mem_cons_of_mem _ h, hf.cons e⟩

/-- How an event stands to those before it. -/
structure Orderly (e : Event) (earlier : List Event) : Prop where
  alive : ∀ side, .freed side ∉ earlier
  once : ∀ st b, e = .called st b → ∀ st' b', .called st' b' ∉ earlier
  excused : ∀ b, e = .called .ioTimeout b → Excused earlier
  last : ∀ side, e = .freed side → ∃ rest, earlier = .released side 0 :: rest

/-- How far the threads have come, and who holds a reference. -/
structure Control (o : Operation) : Prop where
  armed : o.issuer = .arming ↔ o.timer = .unset
  unissued : o.issuer = .arming ∨ o.issuer = .issuing → o.routine = .waiting
  expired : o.timer = .expired ↔ o.dpc ≠ .idle
  set : o.timer = .set → o.routine = .waiting ∨ ∃ st, o.routine = .disarming st
  cancelled : o.timer = .cancelled → o.routine ≠ .waiting ∧ ∀ st, o.routine ≠ .disarming st
  givingBack : ∀ st, o.routine = .givingBack st → o.timer = .cancelled
  refs : o.timer ≠ .unset → o.refCount = o.routineHolds + o.dpcHolds
  routineLast : o.routine = .freeing → o.dpcHolds = 0
  dpcLast : o.dpc = .freeing → o.routine = .done
  timedOut : o.timer ≠ .unset → o.timedOut = true → o.dpc ≠ .idle ∧ o.dpc ≠ .marking

theorem arm_control (hc : Control o) (h : o.issuer = .arming) : Control o.arm := by
  have hr := hc.unissued (.inl h)
  have ht := hc.armed.mp h
  have he := hc.expired
  constructor <;> simp [arm, note, hr, routineHolds, dpcHolds] <;> grind -ring -linarith

theorem stepDpc_control (hc : Control o) (h : o.stepDpc = some o') : Control o' := by
  obtain ⟨h1, h2, h3, h4, h5, h6, h7, h8, h9, h10⟩ := hc
  simp only [routineHolds, dpcHolds] at h7 h8
  unfold stepDpc at h
  split at h
  case h_1 => cases h
  case h_6 => cases h
  all_goals
    obtain rfl := Option.some.inj h
    constructor <;> simp only [note, routineHolds, dpcHolds] <;> grind -ring -linarith

theorem stepRoutine_control (hc : Control o) (h : o.stepRoutine kind = some o') : Control o' := by
  obtain ⟨h1, h2, h3, h4, h5, h6, h7, h8, h9, h10⟩ := hc
  simp only [routineHolds, dpcHolds] at h7 h8
  unfold stepRoutine at h
  split at h
  case h_1 => cases h
  case h_9 => cases h
  case h_2 =>
    split_ifs at h
    all_goals
      obtain rfl := Option.some.inj h
      constructor <;> simp only [note, routineHolds, dpcHolds] <;> grind -ring -linarith
  case h_5 =>
    split_ifs at h
    all_goals
      obtain rfl := Option.some.inj h
      constructor <;> simp only [note, routineHolds, dpcHolds] <;> grind -ring -linarith
  all_goals
    obtain rfl := Option.some.inj h
    constructor <;> simp only [note, routineHolds, dpcHolds] <;> grind -ring -linarith

theorem next_control (hc : Control o) (h : o.next kind act = some o') : Control o' := by
  cases act with
  | routine => exact stepRoutine_control hc h
  | dpc => exact stepDpc_control hc h
  | arm =>
    simp only [next] at h
    split_ifs at h with ha
    obtain rfl := Option.some.inj h
    exact arm_control hc ha
  | issue | returnPending | complete st | expire =>
    obtain ⟨h1, h2, h3, h4, h5, h6, h7, h8, h9, h10⟩ := hc
    simp only [routineHolds, dpcHolds] at h7 h8
    simp only [next] at h
    split_ifs at h with ha
    obtain rfl := Option.some.inj h
    constructor <;> simp only [note, routineHolds, dpcHolds] <;> grind -ring -linarith

/-- The completion routine drops the last reference when the DPC will not run or is through. -/
theorem Control.last_of_routine (hc : Control o) (hr : o.routine = .releasing) : o.refCount - 1 = 0 ↔ o.timer = .cancelled ∨ o.dpc = .done := by
  have hset : o.timer ≠ .set := fun h => by simpa [hr] using hc.set h
  have hunset : o.timer ≠ .unset := fun h => by simpa [hr] using hc.unissued (.inl (hc.armed.mpr h))
  have hrefs := hc.refs hunset
  have hdpc := hc.dpcLast
  have hexpired := hc.expired
  simp only [routineHolds, dpcHolds, hr] at hrefs hdpc
  cases ht : o.timer <;> cases hd : o.dpc <;> simp_all

/-- The DPC drops the last reference when the completion routine is through. -/
theorem Control.last_of_dpc (hc : Control o) (hd : o.dpc = .releasing) : o.refCount - 1 = 0 ↔ o.routine = .done := by
  have ht : o.timer = .expired := hc.expired.mpr (by simp [hd])
  have hrefs := hc.refs (by simp [ht])
  have hlast := hc.routineLast
  simp only [routineHolds, dpcHolds, ht, hd] at hrefs hlast
  cases hr : o.routine <;> simp_all

/-- When the completion routine frees the context, the DPC will not run or is through. -/
theorem Control.alone (hc : Control o) (hr : o.routine = .freeing) : o.timer = .cancelled ∨ o.dpc = .done := by
  have hset : o.timer ≠ .set := fun h => by simpa [hr] using hc.set h
  have hunset : o.timer ≠ .unset := fun h => by simpa [hr] using hc.unissued (.inl (hc.armed.mpr h))
  have hnone := hc.routineLast hr
  have hdpc := hc.dpcLast
  simp only [dpcHolds, hr] at hnone hdpc
  cases ht : o.timer <;> cases hd : o.dpc <;> simp_all

/-- What the history tells of where the threads are. -/
structure Told (o : Operation) : Prop where
  freed : (∃ side, .freed side ∈ o.log) ↔ o.Over
  answered : (∃ st b, .called st b ∈ o.log) ↔ o.Answered
  routineLast : o.routine = .freeing → ∃ rest, o.log = .released .routine 0 :: rest
  dpcLast : o.dpc = .freeing → ∃ rest, o.log = .released .dpc 0 :: rest
  marked : o.timer ≠ .unset → o.timedOut = true → .marked ∈ o.log
  fired : o.timer = .expired → .expired ∈ o.log
  firedFirst : o.timer = .expired → o.routine ≠ .waiting → (∀ st, o.routine ≠ .disarming st) → FiredFirst o.log
  status : ∀ st, o.routine = .disarming st ∨ o.routine = .givingBack st ∨ o.routine = .testing st → .completed st ∈ o.log
  excused : o.routine = .settling .ioTimeout ∨ o.routine = .calling .ioTimeout → Excused o.log
  orderly : Throughout Orderly o.log

/-- Most events only have to come before the context is freed. -/
theorem Told.orderly_cons (ht : Told o) (ho : ¬ o.Over) (e : Event) (hc : ∀ st b, e ≠ .called st b) (hf : ∀ side, e ≠ .freed side) :
    Throughout Orderly (e :: o.log) := by
  apply ht.orderly.cons
  refine ⟨?_, ?_, ?_, ?_⟩
  · exact fun side hmem => ho (ht.freed.mp ⟨side, hmem⟩)
  · exact fun st b he => absurd he (hc st b)
  · exact fun b he => absurd he (hc _ b)
  · exact fun side he => absurd he (hf side)

theorem Told.orderly_freed (ht : Told o) (ho : ¬ o.Over) (side : Side) (hl : ∃ rest, o.log = .released side 0 :: rest) :
    Throughout Orderly (.freed side :: o.log) := by
  apply ht.orderly.cons
  refine ⟨?_, nofun, nofun, ?_⟩
  · exact fun side hmem => ho (ht.freed.mp ⟨side, hmem⟩)
  · rintro _ ⟨⟩
    exact hl

theorem Told.orderly_called (ht : Told o) (ho : ¬ o.Over) (st : Status) (b : Bool) (ha : ¬ o.Answered) (he : st = .ioTimeout → Excused o.log) :
    Throughout Orderly (.called st b :: o.log) := by
  apply ht.orderly.cons
  refine ⟨?_, ?_, ?_, nofun⟩
  · exact fun side hmem => ho (ht.freed.mp ⟨side, hmem⟩)
  · exact fun _ _ _ st' b' hmem => ha (ht.answered.mp ⟨st', b', hmem⟩)
  · rintro b' ⟨⟩
    exact he rfl

theorem stepDpc_told (hc : Control o) (ht : Told o) (h : o.stepDpc = some o') : Told o' := by
  have hcons := ht.orderly_cons
  have hfreed := ht.orderly_freed
  have hff := fun h h' h'' e => (ht.firedFirst h h' h'').cons e
  have hex := fun h e => (ht.excused h).cons e
  have hlast := hc.last_of_dpc
  have halone := hc.alone
  obtain ⟨c1, c2, c3, c4, c5, c6, -, -, c9, c10⟩ := hc
  obtain ⟨h1, h2, h3, h4, h5, h6, -, h8, -, -⟩ := ht
  simp only [Over, Answered] at h1 h2 hcons hfreed
  unfold stepDpc at h
  split at h
  case h_1 => cases h
  case h_6 => cases h
  case h_4 =>
    obtain rfl := Option.some.inj h
    constructor
    case dpcLast =>
      intro hd
      refine ⟨o.log, ?_⟩
      simp only [note] at hd ⊢
      split_ifs at hd with hzero
      rw [hzero]
    all_goals
      simp only [note, Over, Answered]
      grind -ring -linarith
  all_goals
    obtain rfl := Option.some.inj h
    constructor <;> simp only [note, Over, Answered] <;> grind -ring -linarith

theorem stepRoutine_told (hc : Control o) (ht : Told o) (h : o.stepRoutine kind = some o') : Told o' := by
  have hcons := ht.orderly_cons
  have hfreed := ht.orderly_freed
  have hcalled := ht.orderly_called
  have hff := fun h h' h'' e => (ht.firedFirst h h' h'').cons e
  have hex := fun h e => (ht.excused h).cons e
  have hfirst : o.timer = .expired → FiredFirst (.disarmed false :: o.log) := fun h => ⟨[], o.log, rfl, ht.fired h⟩
  have hlast := hc.last_of_routine
  have halone := hc.alone
  obtain ⟨c1, c2, c3, c4, c5, c6, -, -, c9, c10⟩ := hc
  obtain ⟨h1, h2, h3, h4, h5, h6, h7, h8, h9, h10⟩ := ht
  simp only [Over, Answered] at h1 h2 hcons hfreed hcalled
  unfold stepRoutine at h
  split at h
  case h_1 => cases h
  case h_9 => cases h
  case h_2 =>
    split_ifs at h
    all_goals
      obtain rfl := Option.some.inj h
      constructor <;> simp only [note, Over, Answered] <;> grind -ring -linarith
  case h_5 =>
    split_ifs at h
    all_goals
      obtain rfl := Option.some.inj h
      constructor <;> simp only [note, Over, Answered] <;> grind -ring -linarith
  case h_4 =>
    -- a timeout is what a cancelled operation reports whose DPC has marked it
    obtain rfl := Option.some.inj h
    constructor <;> simp only [note, Over, Answered, Excused] at h9 ⊢ <;> grind -ring -linarith
  case h_7 =>
    obtain rfl := Option.some.inj h
    constructor
    case routineLast =>
      intro hr
      refine ⟨o.log, ?_⟩
      simp only [note] at hr ⊢
      split_ifs at hr with hzero
      rw [hzero]
    all_goals
      simp only [note, Over, Answered]
      grind -ring -linarith
  all_goals
    obtain rfl := Option.some.inj h
    constructor <;> simp only [note, Over, Answered] <;> grind -ring -linarith

theorem next_told (hc : Control o) (ht : Told o) (h : o.next kind act = some o') : Told o' := by
  cases act with
  | routine => exact stepRoutine_told hc ht h
  | dpc => exact stepDpc_told hc ht h
  | arm | issue | returnPending | complete st | expire =>
    have hcons := ht.orderly_cons
    have hff := fun h h' h'' e => (ht.firedFirst h h' h'').cons e
    have hex := fun h e => (ht.excused h).cons e
    obtain ⟨c1, c2, c3, c4, c5, c6, -, -, c9, c10⟩ := hc
    obtain ⟨h1, h2, h3, h4, h5, h6, h7, h8, h9, h10⟩ := ht
    simp only [Over, Answered] at h1 h2 hcons
    simp only [next] at h
    split_ifs at h with ha
    obtain rfl := Option.some.inj h
    constructor <;> simp only [Operation.arm, note, Over, Answered] <;> grind -ring -linarith

/-! ### Every run -/

theorem init_control (h : (operations kind).init o) : Control o := by
  obtain ⟨h1, h2, h3, h4, _⟩ := h
  constructor <;> simp [h1, h2, h3, h4]

theorem init_told (h : (operations kind).init o) : Told o := by
  obtain ⟨h1, h2, h3, h4, h5⟩ := h
  constructor <;> simp [h2, h3, h4, h5, Over, Answered, Throughout]

theorem reachable_told (h : (operations kind).Reachable o) : Control o ∧ Told o := by
  apply System.invariant (P := fun o => Control o ∧ Told o) _ _ h
  · exact fun o h => ⟨init_control h, init_told h⟩
  · rintro o o' _ ⟨hc, ht⟩ ⟨act, h⟩
    exact ⟨next_control hc h, next_told hc ht h⟩

/-- The steps that are left at most. -/
def remaining (o : Operation) : ℕ :=
  (match o.issuer with
    | .arming => 3
    | .issuing => 2
    | .issued => 1
    | .returned => 0) +
  (match o.routine with
    | .waiting => 8
    | .disarming _ => 7
    | .givingBack _ => 6
    | .testing _ => 5
    | .settling _ => 4
    | .calling _ => 3
    | .releasing => 2
    | .freeing => 1
    | .done => 0) +
  match o.dpc with
  | .idle => 5
  | .marking => 4
  | .cancelling => 3
  | .releasing => 2
  | .freeing => 1
  | .done => 0

theorem remaining_lt (hc : Control o) (h : o.next kind act = some o') : o'.remaining < o.remaining := by
  cases act with
  | arm | issue | returnPending | complete st | expire =>
    have := hc.expired
    simp only [next] at h
    split_ifs at h with ha
    obtain rfl := Option.some.inj h
    simp only [remaining, arm, note]
    grind -ring -linarith
  | routine =>
    simp only [next, stepRoutine] at h
    split at h <;> (try split_ifs at h) <;> simp only [reduceCtorEq, Option.some.injEq] at h <;> subst h <;> simp only [remaining, note] <;> grind -ring -linarith
  | dpc =>
    simp only [next, stepDpc] at h
    split at h <;> simp only [reduceCtorEq, Option.some.injEq] at h <;> subst h <;> simp only [remaining, note] <;> grind -ring -linarith

/-- An operation with no step left is over. -/
theorem over_of_stuck (hc : Control o) (h : ∀ act, o.next kind act = none) : o.Over := by
  have hreturned : o.issuer = .returned := by
    cases hi : o.issuer with
    | returned => rfl
    | arming => simpa [next, hi] using h .arm
    | issuing => simpa [next, hi] using h .issue
    | issued => simpa [next, hi] using h .returnPending
  have hdone : o.routine = .done := by
    have hstep := h .routine
    cases hr : o.routine with
    | done => rfl
    | waiting => simpa [next, hreturned, hr] using h (.complete .success)
    | disarming st | settling st =>
      simp only [next, stepRoutine, hr] at hstep
      split_ifs at hstep
    | _ => simp [next, stepRoutine, hr] at hstep
  have hidle : o.dpc = .idle ∨ o.dpc = .done := by
    have hstep := h .dpc
    cases hd : o.dpc with
    | idle => exact .inl rfl
    | done => exact .inr rfl
    | _ => simp [next, stepDpc, hd] at hstep
  refine ⟨hdone, ?_⟩
  rcases hidle with hd | hd
  · left
    cases ht : o.timer with
    | cancelled => rfl
    | unset =>
      have := hc.armed.mpr ht
      rw [hreturned] at this
      cases this
    | set => simpa [hdone] using hc.set ht
    | expired => exact absurd hd (hc.expired.mp ht)
  · exact .inr hd

end Operation

/-- However the completion, the timer and its DPC come: the caller is called back at most once,
and with a timeout only if WSK reported one or the DPC fired before the completion; the context
and the IRP are freed at most once, by whoever dropped the last reference, after the callback,
and nothing touches them any more. Every run ends, and when it has, both have been done. -/
theorem watchdog_once {kind : Kind} {o : Operation} (h : (operations kind).Reachable o) :
    (∀ later st b earlier, o.log = later ++ .called st b :: earlier →
      (∀ st' b', .called st' b' ∉ earlier) ∧ (st = .ioTimeout → Operation.Excused earlier)) ∧
    (∀ later side earlier, o.log = later ++ .freed side :: earlier →
      later = [] ∧ (∃ rest, earlier = .released side 0 :: rest) ∧ ∃ st b, .called st b ∈ earlier) ∧
    (∀ act o', o.next kind act = some o' → o'.remaining < o.remaining) ∧
    ((∀ act, o.next kind act = none) → (∃ st b, .called st b ∈ o.log) ∧ ∃ side, .freed side ∈ o.log) := by
  obtain ⟨hc, ht⟩ := Operation.reachable_told h
  refine ⟨?_, ?_, ?_, ?_⟩
  · intro later st b earlier hl
    have ho : Throughout Operation.Orderly (later ++ .called st b :: earlier) := hl ▸ ht.orderly
    refine ⟨ho.of_append.once st b rfl, ?_⟩
    rintro rfl
    exact ho.of_append.excused b rfl
  · intro later side earlier hl
    have ho : Throughout Operation.Orderly (later ++ .freed side :: earlier) := hl ▸ ht.orderly
    have hlater : later = [] := by
      cases later with
      | nil => rfl
      | cons e later =>
        -- the newest event came with the context freed already
        have halive : Operation.Orderly e (later ++ .freed side :: earlier) := ho.1
        simpa using halive.alive side
    refine ⟨hlater, ho.of_append.last side rfl, ?_⟩
    obtain ⟨st, b, hmem⟩ := ht.answered.mpr (.inr (.inr (ht.freed.mp ⟨side, by simp [hl]⟩).1))
    rw [hl, hlater] at hmem
    simp only [List.nil_append, List.mem_cons, reduceCtorEq, false_or] at hmem
    exact ⟨st, b, hmem⟩
  · exact fun act o' hn => Operation.remaining_lt hc hn
  · intro hstuck
    have hover := Operation.over_of_stuck hc hstuck
    exact ⟨ht.answered.mpr (.inr (.inr hover.1)), ht.freed.mpr hover⟩

/-- A context whose last use left it with nothing to go by. -/
def staleOperation : Operation := ⟨.arming, .unset, -7, true, .waiting, .idle, []⟩

theorem reachable_staleOperation {kind : Kind} {acts : List Act} {o : Operation} (h : run (Operation.next kind) staleOperation acts = some o) :
    (operations kind).Reachable o := by
  have hnext : ∀ o act o', Operation.next kind o act = some o' → (operations kind).step o o' := fun _ act _ h => ⟨act, h⟩
  exact System.Reachable.run hnext (.init ⟨rfl, rfl, rfl, rfl, rfl⟩) h

/-- A receive whose completion is on its way when the timer expires: the DPC is the last. -/
theorem watchdog_once_late :
    ∃ o, (operations (.transfer true)).Reachable o ∧ (∃ later earlier, o.log = later ++ .called .ioTimeout false :: earlier ∧ Operation.Excused earlier) ∧
      ∃ earlier, o.log = .freed .dpc :: earlier := by
  have hrun : (run (Operation.next (.transfer true)) staleOperation
      [.arm, .issue, .expire, .dpc, .complete .cancelled, .routine, .routine, .returnPending, .routine, .routine, .routine, .dpc, .dpc, .dpc]).any
        (fun o => o.log = .freed .dpc :: .released .dpc 0 :: .cancelledIrp :: .released .routine 1 :: .called .ioTimeout false ::
          [.settled, .tested, .disarmed false, .completed .cancelled, .marked, .expired, .issued, .armed]) = true := by decide +kernel
  obtain ⟨o, ho, hlog⟩ := (Option.any_eq_true _ _).mp hrun
  have hr := reachable_staleOperation ho
  have hl := of_decide_eq_true hlog
  have hx := ((watchdog_once hr).1 [.freed .dpc, .released .dpc 0, .cancelledIrp, .released .routine 1] .ioTimeout false _ hl).2 rfl
  exact ⟨o, hr, ⟨[.freed .dpc, .released .dpc 0, .cancelledIrp, .released .routine 1], _, hl, hx⟩, _, hl⟩

/-- WSK itself may report a timeout, and that is what the caller is told. -/
theorem ioTimeout_without_dpc :
    ∃ o, (operations .connect).Reachable o ∧ .called .ioTimeout false ∈ o.log ∧ .expired ∉ o.log := by
  have hrun : (run (Operation.next .connect) staleOperation
      [.arm, .issue, .complete .ioTimeout, .routine, .routine, .routine, .routine, .routine]).any
        (fun o => decide (.called .ioTimeout false ∈ o.log) && decide (.expired ∉ o.log)) = true := by decide +kernel
  obtain ⟨o, ho, hlog⟩ := (Option.any_eq_true _ _).mp hrun
  simp only [Bool.and_eq_true, decide_eq_true_eq] at hlog
  exact ⟨o, reachable_staleOperation ho, hlog⟩

end BlorgFS.Socket
