import BlorgFS.Http.CallSteps

/-! A request comes to its end. Until it is over there is a step for it to take; and each step that the
peer's bytes do not call for brings it further, within its attempt or to one of the few attempts that
are left. -/

namespace BlorgFS.Http

open Lib Tls

/-- Whether a step is none of those that the peer's bytes call for. -/
def CallAct.own : CallAct → Bool
  | .handshake _ _ | .receive _ _ => false
  | _ => true

namespace Call

/-- How far an attempt has yet to go. -/
def left (c : Call) : ℕ :=
  match c.phase with
  | .building => 19
  | .kick .acquireSocket => if c.irql = .dispatch then 18 else 16
  | .acquireQueued => 17
  | .connecting => 15
  | .kick .tlsHandshake => 14
  | .handshakeQueued => 13
  | .handshaking _ => 12
  | .kick .sendRequest => 11
  | .sending => 10
  | .kick .receive => 9
  | .receiving _ => 8
  | .kick .dispatch => 7
  | .dispatchQueued => 6
  | .kick .complete | .kick .failed => 5
  | .completing _ => if c.mustBounceToPassive then 4 else 2
  | .completeQueued => 3
  | .freed | .misuse => 0

/-- How many attempts there may yet be. -/
def attempts (c : Call) : ℕ := (1 - c.rewound) + (connectAttempts - c.connectTimeouts)

/-- What a request may yet do. -/
def fuel (c : Call) : ℕ := 20 * c.attempts + c.left

/-- A step comes to so much of the attempt, or to another. -/
def Within (c : Call) (n : ℕ) (c' : Call) : Prop := c'.fuel ≤ 20 * c.attempts + n

variable {tls : Bool} {P : Handshake.Primitives} {pin : Option Digest} {parse : Bytes → Parsed} {size : SystemSize} {c c' : Call} {head : Option Connection}
  {made n : ℕ} {k : Answers}

theorem Within.mono {m : ℕ} (h : Within c m c') (hle : m ≤ n) : Within c n c' := by
  unfold Within at h ⊢
  omega

theorem Within.lt (h : Within c n c') (hlt : n < c.left) : c'.fuel < c.fuel := by
  unfold Within at h
  unfold fuel at h ⊢
  omega

theorem Within.fall {m : ℕ} (h : Within c n c') (hleft : c.left = m) (hlt : n < m) : c'.fuel < c.fuel := h.lt (hlt.trans_eq hleft.symm)

theorem Within.le (h : Within c n c') (hle : n ≤ c.left) : c'.fuel ≤ c.fuel := by
  unfold Within at h
  unfold fuel at h ⊢
  omega

/-- The attempt goes on. -/
theorem Within.same (hattempts : c'.attempts = c.attempts) (hleft : c'.left ≤ n) : Within c n c' := by
  unfold Within fuel
  omega

theorem complete_within (status : Option Status) : Within c 4 (c.complete status) := by
  refine .same rfl ?_
  show (if (c.complete status).mustBounceToPassive then 4 else 2) ≤ 4
  split_ifs <;> decide

theorem left_acquire_le (hphase : c.phase = .kick .acquireSocket) : c.left ≤ 18 := by
  rw [left, hphase]
  dsimp only
  split_ifs <;> decide

/-- Another attempt is begun. -/
theorem rewind_within (hrewound : c.rewound = 0) : Within c 0 c.rewind.1 := by
  have hleft : c.rewind.1.left ≤ 18 := left_acquire_le rfl
  have hattempts : c.rewind.1.attempts + 1 = c.attempts := by
    show (1 - (c.rewound + 1)) + (connectAttempts - c.connectTimeouts) + 1 = (1 - c.rewound) + (connectAttempts - c.connectTimeouts)
    omega
  unfold Within fuel
  omega

theorem failOrRetry_within {status : Status} (hreused : c.source = .reused → c.rewound = 0) : Within c 5 (c.failOrRetry status).1 := by
  unfold failOrRetry
  split_ifs with hretry
  · exact (rewind_within (hreused hretry.1)).mono (by decide)
  · exact .same rfl (Nat.le_refl 5)

/-- A connect that timed out costs an attempt. -/
theorem onSocket_within {reused : Bool} (result : Except Status Connection) : Within c 14 (c.onSocket tls reused result) := by
  unfold onSocket
  cases result with
  | error status =>
    dsimp only
    split_ifs with hretry
    · have hlt := hretry.2
      have hleft : { c with connectTimeouts := c.connectTimeouts + 1, source := .fresh, phase := .kick .acquireSocket : Call }.left ≤ 18 := left_acquire_le rfl
      have hattempts : { c with connectTimeouts := c.connectTimeouts + 1, source := .fresh, phase := .kick .acquireSocket : Call }.attempts + 1 = c.attempts := by
        show (1 - c.rewound) + (connectAttempts - (c.connectTimeouts + 1)) + 1 = (1 - c.rewound) + (connectAttempts - c.connectTimeouts)
        omega
      unfold Within fuel
      omega
    · exact .same rfl (by decide : 5 ≤ 14)
  | ok conn =>
    refine .same rfl ?_
    unfold left
    dsimp only
    split_ifs <;> decide

theorem connect_within : Within c 15 (c.connect k) := by
  unfold connect
  cases k.connect with
  | some status => exact (complete_within _).mono (by decide)
  | none => exact .same rfl (Nat.le_refl 15)

theorem acquire_within : Within c 15 (c.acquire tls head k).1 := by
  unfold acquire
  split_ifs
  · exact connect_within
  · cases head with
    | none => exact connect_within
    | some conn =>
      dsimp only
      split_ifs
      · exact (onSocket_within (.ok conn)).mono (by decide)
      · exact connect_within

theorem queue_within {phase : Phase} (hleft : { c with phase }.left ≤ n) : Within c n (c.queue phase) := by
  unfold queue
  split_ifs
  · exact .same rfl hleft
  · exact .same rfl (Nat.zero_le n)

/-- What is asked for at `DISPATCH_LEVEL` is queued. -/
theorem kickAcquire_lt (hphase : c.phase = .kick .acquireSocket) : (c.kickAcquire tls head k).1.fuel < c.fuel := by
  have hleft : c.left = if c.irql = .dispatch then 18 else 16 := by rw [left, hphase]
  unfold kickAcquire
  split_ifs with hbounce
  · rw [if_pos hbounce.2] at hleft
    have hqueued : Within { c with workItem := true } 17 ({ c with workItem := true : Call }.queue .acquireQueued) := queue_within (Nat.le_refl 17)
    exact Within.lt hqueued (by show 17 < c.left; omega)
  · rw [if_pos hbounce.2] at hleft
    exact (complete_within _).lt (by omega)
  · refine acquire_within.lt ?_
    split_ifs at hleft <;> omega

theorem startHandshake_within (hreused : c.source = .reused → c.rewound = 0) : Within c 12 (c.startHandshake k).1 := by
  unfold startHandshake
  cases c.socket with
  | none => exact .same rfl (Nat.zero_le 12)
  | some conn =>
    cases k.hello with
    | error status => exact (failOrRetry_within hreused).mono (by decide)
    | ok hello => exact .same rfl (Nat.le_refl 12)

theorem kickHandshake_within (hreused : c.source = .reused → c.rewound = 0) : Within c 13 (c.kickHandshake k).1 := by
  unfold kickHandshake
  split_ifs
  · exact (startHandshake_within hreused).mono (by decide)
  · exact .same rfl (Nat.le_refl 13)
  · exact (complete_within _).mono (by decide)

theorem onHandshake_within {hs : Handshake.State} (hreused : c.source = .reused → c.rewound = 0) : Within c 12 (c.onHandshake P hs).1 := by
  unfold onHandshake
  cases c.socket with
  | none => exact .same rfl (Nat.zero_le 12)
  | some conn =>
    cases hs.progress with
    | complete => exact .same rfl (by decide : 11 ≤ 12)
    | failed status => exact (failOrRetry_within hreused).mono (by decide)
    | _ => exact .same rfl (Nat.le_refl 12)

theorem send_within {conn : Connection} {buffer : Bytes} : Within c 10 (c.send conn buffer k) := by
  unfold send
  cases k.send with
  | some status => exact Within.mono (c := { c with socket := some conn }) (complete_within _) (by decide)
  | none => exact .same rfl (Nat.le_refl 10)

theorem encryptRequestRecord_attempts (conn : Connection) : (c.encryptRequestRecord P conn k).1.attempts = c.attempts := by
  unfold encryptRequestRecord
  simp only
  split
  · rfl
  split
  · rfl
  split
  · rfl
  split
  · rfl
  split <;> rfl

theorem kickSend_within : Within c 10 (c.kickSend P k).1 := by
  unfold kickSend
  cases c.socket with
  | none => exact .same rfl (Nat.zero_le 10)
  | some conn =>
    dsimp only
    split_ifs
    · have hattempts := encryptRequestRecord_attempts (c := c) (P := P) (k := k) conn
      generalize c.encryptRequestRecord P conn k = p at hattempts
      obtain ⟨c₁, conn₁, result⟩ := p
      cases result with
      | error status =>
        have hwithin : Within { c₁ with socket := some conn₁ } 4 ({ c₁ with socket := some conn₁ : Call }.complete (some status)) := complete_within _
        unfold Within at hwithin ⊢
        rw [← hattempts]
        exact hwithin.trans (by show 20 * c₁.attempts + 4 ≤ 20 * c₁.attempts + 10; omega)
      | ok record =>
        have hwithin : Within c₁ 10 (c₁.send conn₁ record k) := send_within
        unfold Within at hwithin ⊢
        rw [← hattempts]
        exact hwithin
    · exact send_within

theorem onSend_within {result : Option Status} (hreused : c.source = .reused → c.rewound = 0) : Within c 9 (c.onSend result).1 := by
  cases result with
  | some status => exact (failOrRetry_within hreused).mono (by decide)
  | none => exact .same rfl (Nat.le_refl 9)

theorem absorb_within {conn : Connection} {s : State} (hretried : s.stage = .connecting → c.rewound = 0) : Within c 8 (c.absorb conn s).1 := by
  unfold absorb
  cases hstage : s.stage with
  | connecting =>
    have hwithin : Within { c with ctx := s.ctx, socket := some { conn with socket := s.socket } } 0
      ({ c with ctx := s.ctx, socket := some { conn with socket := s.socket } : Call }.rewind).1 := rewind_within (hretried hstage)
    exact hwithin.mono (by decide)
  | failed status =>
    have hwithin : Within { c with ctx := s.ctx, socket := some { conn with socket := s.socket } } 4
      ({ c with ctx := s.ctx, socket := some { conn with socket := s.socket } : Call }.complete (some status)) := complete_within _
    exact hwithin.mono (by decide)
  | responded => exact .same rfl (by decide : 7 ≤ 8)
  | receiving post | draining | bulk room => exact .same rfl (Nat.le_refl 8)

theorem dispatchInline_within : Within c 5 (c.dispatchInline k) := by
  unfold dispatchInline
  cases (if c.request.operation = .fileRead then none else k.deserialized) with
  | some status => exact .same rfl (Nat.le_refl 5)
  | none =>
    dsimp only
    split_ifs
    · exact .same rfl (Nat.le_refl 5)
    · exact .same rfl (Nat.zero_le 5)

theorem kickDispatch_within : Within c 6 (c.kickDispatch k) := by
  unfold kickDispatch
  split_ifs
  · exact queue_within (Nat.le_refl 6)
  · exact dispatchInline_within.mono (by decide)

/-- What must bounce is queued, and then bounces no more. -/
theorem finish_lt {result : Option Status} (hphase : c.phase = .completing result) : (c.finish result).1.fuel < c.fuel := by
  have hleft : c.left = if c.mustBounceToPassive then 4 else 2 := by rw [left, hphase]
  have hsame : { c with finalStatus := result : Call }.mustBounceToPassive = c.mustBounceToPassive := rfl
  unfold finish
  simp only [hsame]
  split
  · rename_i hbounce
    rw [if_pos hbounce] at hleft
    have hqueued : Within { c with finalStatus := result } 3 ({ c with finalStatus := result : Call }.queue .completeQueued) := queue_within (Nat.le_refl 3)
    exact Within.lt hqueued (by show 3 < c.left; omega)
  · rename_i hbounce
    rw [if_neg hbounce] at hleft
    have hfreed : ∀ c' : Call, c'.attempts = c.attempts → c'.left = 0 → c'.fuel < c.fuel := by
      intro c' hattempts hzero
      unfold fuel
      omega
    cases result with
    | none => exact hfreed _ rfl rfl
    | some status => exact hfreed _ rfl rfl

/-! ### A step -/

/-- Only a request that has never been rewound has its connection from the pool. -/
theorem Inv.unrewound (h : c.Inv tls P pin size) (hreused : c.source = .reused) : c.rewound = 0 := by
  refine (h.pooled ?_).1
  rw [hreused]
  decide

/-- A step of the peer's brings a request no further back, and any other brings it further. -/
theorem next_fuel {act : CallAct} {p : Call × Effect} (hparse : ParsesInside parse) (h : c.Inv tls P pin size)
    (hn : c.next parse P pin size tls head made act = some p) : (if act.own then 1 else 0) + p.1.fuel ≤ c.fuel := by
  have hreused := h.unrewound
  have hstep : p.1.fuel < c.fuel → 1 + p.1.fuel ≤ c.fuel := fun hlt => by omega
  cases act with
  | built result =>
    apply hstep
    unfold next at hn
    dsimp only at hn
    split at hn
    · rename_i hphase
      have hleft : c.left = 19 := by rw [left, hphase]
      split_ifs at hn
      obtain rfl := Option.some.inj hn
      refine Within.lt (n := 18) (.same rfl ?_) (by omega)
      exact left_acquire_le rfl
    · rename_i hphase
      have hleft : c.left = 19 := by rw [left, hphase]
      obtain rfl := Option.some.inj hn
      exact Within.lt (n := 0) (.same rfl (Nat.le_refl 0)) (by omega)
    · cases hn
  | kick k =>
    apply hstep
    unfold next at hn
    dsimp only at hn
    split at hn
    · rename_i stage hphase
      obtain rfl := Option.some.inj hn
      cases stage with
      | acquireSocket => exact kickAcquire_lt hphase
      | tlsHandshake => exact (kickHandshake_within hreused).fall (m := 14) (by rw [left, hphase]) (by decide)
      | sendRequest => exact kickSend_within.fall (m := 11) (by rw [left, hphase]) (by decide)
      | receive =>
        have hleft : c.left = 9 := by rw [left, hphase]
        have hstands : c.Stands tls .sent := h.stage hphase
        cases hstands with
        | @sent conn hu hsocket _ =>
          have hanswered : Answered c.request false ((c.receiver conn .connecting).issue c.request k.receive) :=
            issue_answered h.bounded hu.waiting hu.accepted
          have heq : c.kickReceive k = c.absorb conn ((c.receiver conn .connecting).issue c.request k.receive) := by
            unfold kickReceive
            rw [hsocket]
          show (c.kickReceive k).1.fuel < c.fuel
          rw [heq]
          exact (absorb_within fun he => absurd (hanswered.retried he) (by decide)).lt (by omega)
      | dispatch => exact kickDispatch_within.fall (m := 7) (by rw [left, hphase]) (by decide)
      | complete => exact (complete_within none).fall (m := 5) (by rw [left, hphase]) (by decide)
      | failed => exact (complete_within c.finalStatus).fall (m := 5) (by rw [left, hphase]) (by decide)
    · cases hn
  | worker k =>
    apply hstep
    have hwork : c.work k = some p := hn
    unfold work at hwork
    split at hwork
    · rename_i hphase
      have hleft : c.left = 17 := by rw [left, hphase]
      obtain rfl := Option.some.inj hwork
      exact Within.lt (n := 16) (.same rfl (Nat.le_refl 16)) (by omega)
    · rename_i hphase
      have hleft : c.left = 13 := by rw [left, hphase]
      obtain rfl := Option.some.inj hwork
      have hwithin : Within { c with irql := .passive } 12 ({ c with irql := .passive : Call }.startHandshake k).1 := startHandshake_within hreused
      exact Within.lt (c := c) hwithin (by omega)
    · rename_i hphase
      have hleft : c.left = 6 := by rw [left, hphase]
      obtain rfl := Option.some.inj hwork
      have hwithin : Within { c with irql := .passive } 5 ({ c with irql := .passive : Call }.dispatchInline k) := dispatchInline_within
      exact Within.lt (c := c) hwithin (by omega)
    · rename_i hphase
      have hleft : c.left = 3 := by rw [left, hphase]
      obtain rfl := Option.some.inj hwork
      refine Within.lt (n := 2) (.same rfl ?_) (by omega)
      have hpassive : { c with irql := .passive : Call }.mustBounceToPassive = false := Bool.and_false _
      show (if { c with irql := .passive : Call }.mustBounceToPassive then 4 else 2) ≤ 2
      rw [hpassive]
      decide
    · cases hwork
  | connected result irql =>
    apply hstep
    unfold next at hn
    dsimp only at hn
    split at hn
    · rename_i hphase
      have hleft : c.left = 15 := by rw [left, hphase]
      obtain rfl := Option.some.inj hn
      have hwithin : Within c 14 ({ c with irql }.onConnected tls made result).1 := by
        unfold onConnected
        cases result with
        | error status =>
          have hsocket : Within { c with irql, timedOut := if status = .ioTimeout then c.timedOut + 1 else c.timedOut } 14
              ({ c with irql, timedOut := if status = .ioTimeout then c.timedOut + 1 else c.timedOut : Call }.onSocket tls false (.error status)) :=
            onSocket_within (.error status)
          exact hsocket
        | ok buffer =>
          have hsocket : Within { c with irql } 14 ({ c with irql : Call }.onSocket tls false (.ok (.fresh made c.address buffer))) := onSocket_within _
          exact hsocket
      exact hwithin.lt (by omega)
    · cases hn
  | handshake act irql =>
    show 0 + p.1.fuel ≤ c.fuel
    rw [Nat.zero_add]
    unfold next at hn
    dsimp only at hn
    split at hn
    · rename_i hs hphase
      obtain ⟨hs', _, rfl⟩ := Option.map_eq_some_iff.1 hn
      have hwithin : Within { c with irql } 12 ({ c with irql : Call }.onHandshake P hs').1 := onHandshake_within hreused
      exact Within.le (c := c) hwithin (by rw [left, hphase])
    · cases hn
  | sent result irql =>
    apply hstep
    unfold next at hn
    dsimp only at hn
    split at hn
    · rename_i hphase
      have hleft : c.left = 10 := by rw [left, hphase]
      obtain rfl := Option.some.inj hn
      have hwithin : Within { c with irql } 9 ({ c with irql : Call }.onSend result).1 := onSend_within hreused
      exact Within.lt (c := c) hwithin (by omega)
    · cases hn
  | receive act irql =>
    show 0 + p.1.fuel ≤ c.fuel
    rw [Nat.zero_add]
    unfold next at hn
    dsimp only at hn
    split at hn
    · rename_i stage hphase
      have hstands : c.Stands tls .sent := h.stage hphase
      cases hstands with
      | @sent conn hu hsocket _ =>
        obtain ⟨hreceiving, _, _⟩ := h.receiving stage conn hphase hsocket
        unfold onReceive at hn
        dsimp only at hn
        rw [hsocket] at hn
        obtain ⟨s, hnext, rfl⟩ := Option.map_eq_some_iff.1 hn
        have hanswered : Answered c.request (c.source = .reused) s := next_answered hparse hreceiving (fun _ => hu.accepted) hnext
        have hretried : s.stage = .connecting → c.rewound = 0 := fun he => hreused (of_decide_eq_true (hanswered.retried he))
        have hwithin : Within { c with irql := act.irql c.irql irql } 8
          ({ c with irql := act.irql c.irql irql : Call }.absorb (c.recorded conn act) s).1 := absorb_within hretried
        exact Within.le (c := c) hwithin (by rw [left, hphase])
    · cases hn
  | complete =>
    apply hstep
    unfold next at hn
    dsimp only at hn
    split at hn
    · rename_i status hphase
      obtain rfl := Option.some.inj hn
      exact finish_lt hphase
    · cases hn

theorem fresh_fuel (tls : Bool) (r : Request) (address : ℕ) (buffer mdl : ℕ → UInt8) : (fresh tls r address buffer mdl).fuel = 119 := rfl

/-! ### Nothing to wait for -/

/-- What is granted when nothing is. -/
def refusing : Answers := ⟨false, none, .error .insufficientResources, false, false, none, ⟨false, false, fun _ => 0, none⟩, none⟩

/-- Until a request is over there is a step for it to take. -/
theorem exists_next (h : c.Inv tls P pin size) (hlive : Phase.live c.phase = true) :
    ∃ act, (c.next parse P pin size tls head made act).isSome = true := by
  cases hphase : c.phase with
  | building => exact ⟨.built (.error .insufficientResources), by simp only [next, hphase, Option.isSome_some]⟩
  | kick stage => exact ⟨.kick refusing, by simp only [next, hphase, Option.isSome_some]⟩
  | acquireQueued | handshakeQueued | dispatchQueued | completeQueued => exact ⟨.worker refusing, by simp only [next, work, hphase, Option.isSome_some]⟩
  | connecting => exact ⟨.connected (.error .ioTimeout) .passive, by simp only [next, hphase, Option.isSome_some]⟩
  | handshaking hs =>
    obtain ⟨act, hact⟩ := Handshake.exists_next (P := P) (s := hs) (h.handshaking hs hphase).goesOn
    exact ⟨.handshake act .passive, by simp only [next, hphase, Option.isSome_map]; exact hact⟩
  | sending => exact ⟨.sent none .passive, by simp only [next, hphase, Option.isSome_some]⟩
  | receiving stage =>
    have hstands : c.Stands tls .sent := h.stage hphase
    cases hstands with
    | @sent conn _ hsocket _ =>
      obtain ⟨_, hstage, hne⟩ := h.receiving stage conn hphase hsocket
      cases stage with
      | connecting => exact absurd rfl hne
      | receiving post => exact ⟨.receive (.broken .connectionReset) .passive, by simp [next, onReceive, hphase, hsocket, Http.next, receiver]⟩
      | draining => exact ⟨.receive (.drained ⟨false, false, fun _ => 0, none⟩) .passive, by simp [next, onReceive, hphase, hsocket, Http.next, receiver]⟩
      | bulk room => exact ⟨.receive (.broken .connectionReset) .passive, by simp [next, onReceive, hphase, hsocket, Http.next, receiver]⟩
      | failed | responded => cases hstage
  | completing status => exact ⟨.complete, by simp only [next, hphase, Option.isSome_some]⟩
  | freed =>
    rw [hphase] at hlive
    cases hlive
  | misuse =>
    have hstands := h.stage hphase
    cases hstands

end Call

end BlorgFS.Http
