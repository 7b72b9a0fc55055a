import BlorgFS.Http.ReceiveSteps

/-! What holds of a request between any two of its steps, and what a step does to the connections: a
lemma for each function of the stage machine, and one for the step. -/

namespace BlorgFS.Http

open Lib Tls

/-! ### What is sent -/

/-- What a request sends: itself, or over TLS a record it is sealed in for the pinned peer. -/
structure Sent (P : Handshake.Primitives) (pin : Option Digest) (request : Bytes) (s : Bool × Bytes) : Prop where
  clear : s.1 = false → s.2 = request
  secured : s.1 = true → ∃ keys seq, Trusted P pin keys ∧ Sealed P keys seq request s.2

namespace Call

variable {tls : Bool} {P : Handshake.Primitives} {pin : Option Digest} {parse : Bytes → Parsed} {size : SystemSize}

/-! ### How far a request has come -/

/-- How far a request has come, by what comes next for it. -/
inductive Part where
  | building | unconnected | opening | ready | sent | responded
  | ending (status : Option Status)
  | ended | misused
  deriving DecidableEq

def partOf (finalStatus : Option Status) : Phase → Part
  | .building => .building
  | .kick .acquireSocket | .acquireQueued | .connecting => .unconnected
  | .kick .tlsHandshake | .handshakeQueued | .handshaking _ => .opening
  | .kick .sendRequest => .ready
  | .sending | .kick .receive | .receiving _ => .sent
  | .kick .dispatch | .dispatchQueued => .responded
  | .kick .complete => .ending none
  | .kick .failed | .completeQueued => .ending finalStatus
  | .completing status => .ending status
  | .freed => .ended
  | .misuse => .misused

/-- The caller is still to be told. -/
structure Owed (c : Call) : Prop where
  routine : c.routine = true
  answers : c.answers = []
  refused : c.refused = false

/-- A response may come. -/
structure Underway (c : Call) : Prop extends Owed c where
  waiting : Waiting c.request c.ctx
  accepted : Accepted c.request c.ctx
  timeouts : c.timedOut = c.connectTimeouts

/-- What the caller has been told by the end. -/
inductive Told (c : Call) : Prop
  | refused : c.refused = true → c.answers = [] → Told c
  | failed {status : Status} : c.refused = false → c.answers = [some status] → Told c
  | succeeded : c.refused = false → c.answers = [none] → Full c.request c.ctx → Told c

/-- What holds of a request by how far it has come. -/
inductive Stands (tls : Bool) (c : Call) : Part → Prop
  | building : c.Underway → c.socket = none → c.sent = [] → c.irql = .passive → Stands tls c .building
  | unconnected : c.Underway → c.socket = none → c.sent.length ≤ c.rewound → (c.source ≠ .fresh → c.irql = .passive) → Stands tls c .unconnected
  | opening {conn : Connection} : c.Underway → c.socket = some conn → tls = true ∧ conn.socket.tls = false → conn.Idle tls → c.sent.length ≤ c.rewound →
      Stands tls c .opening
  | ready {conn : Connection} : c.Underway → c.socket = some conn → (tls = true → conn.socket.tls = true) → conn.Idle tls → c.sent.length ≤ c.rewound →
      Stands tls c .ready
  | sent {conn : Connection} : c.Underway → c.socket = some conn → conn.Asked tls c.requestBuffer → Stands tls c .sent
  | responded : c.Owed → c.socket = none → Full c.request c.ctx → Stands tls c .responded
  | succeeded : c.refused = false → c.answers = [none] → c.socket = none → Full c.request c.ctx → Stands tls c (.ending none)
  | failed {status : Status} : c.Owed → Stands tls c (.ending (some status))
  | ended : c.socket = none → c.Told → Stands tls c .ended

/-- What holds of a request however far it has come. -/
structure Common (tls : Bool) (P : Handshake.Primitives) (pin : Option Digest) (size : SystemSize) (c : Call) : Prop where
  bounded : Bounded c.request c.ctx
  connection : ∀ conn, c.socket = some conn → conn.Sound P pin size
  workItem : c.request.operation ≠ .fileRead → c.workItem = true
  rewound : c.rewound ≤ 1
  pooled : c.source ≠ .fresh → c.rewound = 0 ∧ c.connectTimeouts = 0
  attempts : c.connectTimeouts < connectAttempts
  timeouts : c.timedOut ≤ c.connectTimeouts + 1
  sends : c.sent.length ≤ c.rewound + 1
  sent : ∀ s ∈ c.sent, Sent P pin c.requestBuffer s ∧ (tls = true → s.1 = true)
  text : c.requestBuffer.length + 1 < 2 ^ 32

/-- What holds of a request between any two steps. -/
structure Inv (tls : Bool) (P : Handshake.Primitives) (pin : Option Digest) (size : SystemSize) (c : Call) : Prop extends Common tls P pin size c where
  stands : c.Stands tls (partOf c.finalStatus c.phase)
  handshaking : ∀ hs, c.phase = .handshaking hs → Shaking P pin size hs
  receiving : ∀ stage conn, c.phase = .receiving stage → c.socket = some conn →
    Http.Inv c.request size (c.receiver conn stage) ∧ stage.Live ∧ stage ≠ .connecting

def Phase.live : Phase → Bool
  | .freed => false
  | _ => true

/-- What a step leaves: the request, the connections that are closed or released, and each connection
in one place. What is released is idle. -/
structure Leaves (tls : Bool) (P : Handshake.Primitives) (pin : Option Digest) (size : SystemSize) (c : Call) (head : Option Connection) (made : ℕ) (p : Call × Effect) : Prop where
  inv : p.1.Inv tls P pin size
  sound : ∀ conn ∈ p.2.closed ++ p.2.released.toList, conn.Sound P pin size
  ledger : ((p.1.socket.toList ++ (p.2.closed ++ p.2.released.toList)).map Connection.id).Perm
    ((c.socket.toList ++ if p.2.popped then head.toList else []).map Connection.id ++ if p.2.made then [made] else [])
  freed : p.2.freed = !(Phase.live p.1.phase)
  idle : ∀ conn, p.2.released = some conn → conn.Idle tls

variable {c c' : Call} {head : Option Connection} {made : ℕ} {k : Answers} {status : Status}

/-- Whether neither the handshake nor the receiving part goes on. -/
def Phase.plain : Phase → Bool
  | .handshaking _ | .receiving _ => false
  | _ => true

theorem Inv.plain (h : Common tls P pin size c) (hstands : c.Stands tls (partOf c.finalStatus c.phase)) (hplain : Phase.plain c.phase = true) :
    c.Inv tls P pin size where
  toCommon := h
  stands := hstands
  handshaking hs he := by
    rw [he] at hplain
    cases hplain
  receiving stage conn he := by
    rw [he] at hplain
    cases hplain

/-- A step that touches no connection but the one it holds. -/
theorem Leaves.quiet (h : c'.Inv tls P pin size) (hsocket : c'.socket.map Connection.id = c.socket.map Connection.id) (hlive : Phase.live c'.phase = true) :
    Leaves tls P pin size c head made (c', .nothing) where
  inv := h
  sound := nofun
  ledger := by
    have hids : c'.socket.toList.map Connection.id = c.socket.toList.map Connection.id := by
      rw [← Option.toList_map, ← Option.toList_map, hsocket]
    simp [Effect.nothing, hids]
  freed := by rw [hlive]; rfl
  idle := nofun

namespace Common

variable (h : Common tls P pin size c)
include h

theorem phase (phase : Phase) : Common tls P pin size { c with phase } :=
  ⟨h.bounded, h.connection, h.workItem, h.rewound, h.pooled, h.attempts, h.timeouts, h.sends, h.sent, h.text⟩

theorem irql (irql : Irql) : Common tls P pin size { c with irql } :=
  ⟨h.bounded, h.connection, h.workItem, h.rewound, h.pooled, h.attempts, h.timeouts, h.sends, h.sent, h.text⟩

theorem finalStatus (finalStatus : Option Status) : Common tls P pin size { c with finalStatus } :=
  ⟨h.bounded, h.connection, h.workItem, h.rewound, h.pooled, h.attempts, h.timeouts, h.sends, h.sent, h.text⟩

theorem answered (routine : Bool) (answers : List (Option Status)) : Common tls P pin size { c with routine, answers } :=
  ⟨h.bounded, h.connection, h.workItem, h.rewound, h.pooled, h.attempts, h.timeouts, h.sends, h.sent, h.text⟩

theorem allocated : Common tls P pin size { c with workItem := true } :=
  ⟨h.bounded, h.connection, fun _ => rfl, h.rewound, h.pooled, h.attempts, h.timeouts, h.sends, h.sent, h.text⟩

theorem context {ctx : Context} (hb : Bounded c.request ctx) : Common tls P pin size { c with ctx } :=
  ⟨hb, h.connection, h.workItem, h.rewound, h.pooled, h.attempts, h.timeouts, h.sends, h.sent, h.text⟩

theorem connected {socket : Option Connection} (hs : ∀ conn, socket = some conn → conn.Sound P pin size) : Common tls P pin size { c with socket } :=
  ⟨h.bounded, hs, h.workItem, h.rewound, h.pooled, h.attempts, h.timeouts, h.sends, h.sent, h.text⟩

theorem disconnected : Common tls P pin size { c with socket := none } := by
  apply h.connected
  rintro _ ⟨⟩

theorem capacities (plaintextCapacity recordCapacity : ℕ) : Common tls P pin size { c with plaintextCapacity, recordCapacity } :=
  ⟨h.bounded, h.connection, h.workItem, h.rewound, h.pooled, h.attempts, h.timeouts, h.sends, h.sent, h.text⟩

end Common

/-! ### Failing, and trying again -/

theorem fail_inv (h : Common tls P pin size c) (ho : c.Owed) : (c.fail status).Inv tls P pin size :=
  .plain ((h.finalStatus (some status)).phase (.kick .failed)) (.failed ⟨ho.routine, ho.answers, ho.refused⟩) rfl

theorem complete_inv (h : Common tls P pin size c) (ho : c.Owed) : (c.complete (some status)).Inv tls P pin size :=
  .plain (h.phase (.completing (some status))) (.failed ⟨ho.routine, ho.answers, ho.refused⟩) rfl

theorem fail_leaves (h : Common tls P pin size c) (ho : c.Owed) : Leaves tls P pin size c head made (c.fail status, .nothing) :=
  .quiet (fail_inv h ho) rfl rfl

theorem complete_leaves (h : Common tls P pin size c) (ho : c.Owed) : Leaves tls P pin size c head made (c.complete (some status), .nothing) :=
  .quiet (complete_inv h ho) rfl rfl

/-- Only a request that has never been rewound has its connection from the pool. -/
theorem rewind_leaves (h : Common tls P pin size c) (ho : c.Owed) (htimeouts : c.timedOut = c.connectTimeouts) (hreused : c.source = .reused) :
    Leaves tls P pin size c head made c.rewind := by
  have hpooled : c.rewound = 0 := (h.pooled (by rw [hreused]; nofun)).1
  have hsends := h.sends
  refine ⟨.plain ⟨h.bounded.congr rfl rfl, nofun, h.workItem, ?_, fun hne => absurd rfl hne, h.attempts, h.timeouts, ?_, h.sent, h.text⟩ ?_ rfl, ?_, ?_, rfl, nofun⟩
  · show c.rewound + 1 ≤ 1
    omega
  · show c.sent.length ≤ c.rewound + 1 + 1
    omega
  · exact .unconnected ⟨⟨ho.routine, ho.answers, ho.refused⟩, reset_waiting, reset_accepted, htimeouts⟩ rfl hsends fun hne => absurd rfl hne
  · intro conn hmem
    exact h.connection conn (by simpa [rewind, Effect.nothing] using hmem)
  · simp [rewind, Effect.nothing]

theorem failOrRetry_leaves (h : Common tls P pin size c) (ho : c.Owed) (htimeouts : c.timedOut = c.connectTimeouts) :
    Leaves tls P pin size c head made (c.failOrRetry status) := by
  unfold failOrRetry
  split_ifs with hretry
  · exact rewind_leaves h ho htimeouts hretry.1
  · exact fail_leaves h ho

/-! ### Getting a connection -/

/-- A connection is there: one from the pool, or one that has been made. -/
theorem onSocket_inv {conn : Connection} {reused : Bool} (h : Common tls P pin size c) (hu : c.Underway) (hsends : c.sent.length ≤ c.rewound)
    (hpooled : reused = true → c.source ≠ .fresh) (hconn : conn.Sound P pin size) (hidle : conn.Idle tls) : (c.onSocket tls reused (.ok conn)).Inv tls P pin size where
  toCommon :=
    { bounded := h.bounded
      connection := by
        rintro _ ⟨⟩
        exact hconn
      workItem := h.workItem
      rewound := h.rewound
      pooled := by
        cases reused with
        | true => exact fun _ => h.pooled (hpooled rfl)
        | false => exact fun hne => absurd rfl hne
      attempts := h.attempts
      timeouts := h.timeouts
      sends := h.sends
      sent := h.sent
      text := h.text }
  stands := by
    have hu' : (c.onSocket tls reused (.ok conn)).Underway := ⟨⟨hu.routine, hu.answers, hu.refused⟩, hu.waiting, hu.accepted, hu.timeouts⟩
    show Stands tls _ (partOf _ (.kick (if tls && !conn.socket.tls then .tlsHandshake else .sendRequest)))
    split_ifs with hopen
    · simp only [Bool.and_eq_true, Bool.not_eq_true'] at hopen
      exact .opening hu' rfl hopen hidle hsends
    · refine .ready hu' rfl (fun htls => ?_) hidle hsends
      simpa [htls] using hopen
  handshaking := nofun
  receiving := nofun

theorem onConnected_leaves {result : Except Status (ℕ → UInt8)} (h : Common tls P pin size c) (hu : c.Underway) (hsocket : c.socket = none)
    (hsends : c.sent.length ≤ c.rewound) : Leaves tls P pin size c head made (c.onConnected tls made result) := by
  have htimeouts := hu.timeouts
  cases result with
  | error status =>
    have hfail : ∀ timedOut ≤ c.connectTimeouts + 1, Leaves tls P pin size c head made ({ c with timedOut }.fail status, .nothing) := by
      intro timedOut hle
      refine .quiet (fail_inv ?_ ⟨hu.routine, hu.answers, hu.refused⟩) rfl rfl
      exact ⟨h.bounded, h.connection, h.workItem, h.rewound, h.pooled, h.attempts, hle, h.sends, h.sent, h.text⟩
    unfold onConnected onSocket
    by_cases hstatus : status = .ioTimeout
    · simp only [hstatus, if_true, true_and]
      split_ifs with hretry
      · refine .quiet (.plain ⟨h.bounded, h.connection, h.workItem, h.rewound, fun hne => absurd rfl hne, hretry, ?_, h.sends, h.sent, h.text⟩ ?_ rfl) rfl rfl
        · show c.timedOut + 1 ≤ c.connectTimeouts + 1 + 1
          omega
        · exact .unconnected ⟨⟨hu.routine, hu.answers, hu.refused⟩, hu.waiting, hu.accepted, congrArg (· + 1) htimeouts⟩ hsocket hsends fun hne => absurd rfl hne
      · exact hstatus ▸ hfail (c.timedOut + 1) (by omega)
    · simp only [hstatus, if_false, false_and]
      exact hfail c.timedOut h.timeouts
  | ok buffer =>
    refine ⟨onSocket_inv h hu hsends nofun (.fresh made c.address buffer) ⟨rfl, fun _ _ => rfl⟩, nofun, ?_, rfl, nofun⟩
    simp [onConnected, onSocket, hsocket, Effect.nothing, Connection.fresh]

theorem connect_inv (h : Common tls P pin size c) (hu : c.Underway) (hsocket : c.socket = none) (hsends : c.sent.length ≤ c.rewound)
    (hirql : c.source ≠ .fresh → c.irql = .passive) : (c.connect k).Inv tls P pin size := by
  unfold connect
  cases k.connect with
  | some status => exact complete_inv h hu.toOwed
  | none =>
    exact .plain (h.phase .connecting) (.unconnected ⟨⟨hu.routine, hu.answers, hu.refused⟩, hu.waiting, hu.accepted, hu.timeouts⟩ hsocket hsends hirql) rfl

theorem connect_socket : (c.connect k).socket = c.socket := by
  unfold connect
  cases k.connect <;> rfl

theorem connect_live : Phase.live (c.connect k).phase = true := by
  unfold connect
  cases k.connect <;> rfl

theorem acquire_leaves (h : Common tls P pin size c) (hu : c.Underway) (hsocket : c.socket = none) (hsends : c.sent.length ≤ c.rewound)
    (hirql : c.source ≠ .fresh → c.irql = .passive) (hhead : ∀ conn, head = some conn → conn.Sound P pin size ∧ conn.Idle tls) : Leaves tls P pin size c head made (c.acquire tls head k) := by
  have hquiet : Leaves tls P pin size c head made (c.connect k, .nothing) :=
    .quiet (connect_inv h hu hsocket hsends hirql) (by rw [connect_socket]) connect_live
  unfold acquire
  split_ifs with hfresh
  · exact hquiet
  · cases head with
    | none => exact hquiet
    | some conn =>
      obtain ⟨hconn, hidle⟩ := hhead conn rfl
      simp only
      split_ifs with haddress
      · refine ⟨onSocket_inv h hu hsends (fun _ => hfresh) hconn hidle, nofun, ?_, rfl, nofun⟩
        simp [onSocket, hsocket, Effect.nothing]
      · refine ⟨connect_inv h hu hsocket hsends hirql, ?_, ?_, ?_, nofun⟩
        · intro conn' hmem
          obtain rfl := by simpa [Effect.nothing] using hmem
          exact hconn
        · simp [connect_socket, hsocket, Effect.nothing]
        · rw [connect_live]
          rfl

theorem kickAcquire_leaves (h : Common tls P pin size c) (hu : c.Underway) (hsocket : c.socket = none) (hsends : c.sent.length ≤ c.rewound)
    (hirql : c.source ≠ .fresh → c.irql = .passive) (hhead : ∀ conn, head = some conn → conn.Sound P pin size ∧ conn.Idle tls) : Leaves tls P pin size c head made (c.kickAcquire tls head k) := by
  unfold kickAcquire
  split_ifs
  · refine .quiet (.plain (h.allocated.phase .acquireQueued) ?_ rfl) rfl rfl
    exact .unconnected ⟨⟨hu.routine, hu.answers, hu.refused⟩, hu.waiting, hu.accepted, hu.timeouts⟩ hsocket hsends hirql
  · exact complete_leaves h hu.toOwed
  · exact acquire_leaves h hu hsocket hsends hirql hhead

/-! ### The handshake -/

section Handshake

variable {conn : Connection} (h : Common tls P pin size c) (hu : c.Underway) (hsocket : c.socket = some conn)
  (htls : tls = true ∧ conn.socket.tls = false) (hidle : conn.Idle tls) (hsends : c.sent.length ≤ c.rewound)
include h hu hsocket htls hidle hsends

/-- The handshake starts with nothing received. -/
theorem startHandshake_leaves : Leaves tls P pin size c head made (c.startHandshake k) := by
  unfold startHandshake
  split
  · rename_i hnone
    rw [hsocket] at hnone
    cases hnone
  rename_i conn' hsome
  obtain rfl := Option.some.inj (hsocket.symm.trans hsome)
  cases k.hello with
  | error status => exact failOrRetry_leaves h hu.toOwed hu.timeouts
  | ok hello =>
    refine .quiet ⟨h.phase (.handshaking _), ?_, ?_, nofun⟩ rfl rfl
    · exact .opening ⟨⟨hu.routine, hu.answers, hu.refused⟩, hu.waiting, hu.accepted, hu.timeouts⟩ hsocket htls hidle hsends
    · rintro _ ⟨⟩
      exact (h.connection conn hsocket).hello htls.2 hello

theorem kickHandshake_leaves : Leaves tls P pin size c head made (c.kickHandshake k) := by
  unfold kickHandshake
  split_ifs
  · exact startHandshake_leaves h hu hsocket htls hidle hsends
  · refine .quiet (.plain (h.phase .handshakeQueued) ?_ rfl) rfl rfl
    exact .opening ⟨⟨hu.routine, hu.answers, hu.refused⟩, hu.waiting, hu.accepted, hu.timeouts⟩ hsocket htls hidle hsends
  · exact complete_leaves h hu.toOwed

/-- The connection once its handshake is complete. -/
theorem onHandshake_leaves {hs : Handshake.State} (hi : Handshake.Inv P size (Begun P pin) hs) (hfault : hs.progress ≠ .fault) :
    Leaves tls P pin size c head made (c.onHandshake P hs) := by
  have hu' : ∀ phase socket, { c with phase, socket : Call }.Underway := fun _ _ =>
    ⟨⟨hu.routine, hu.answers, hu.refused⟩, hu.waiting, hu.accepted, hu.timeouts⟩
  unfold onHandshake
  split
  · rename_i hnone
    rw [hsocket] at hnone
    cases hnone
  rename_i conn' hsome
  obtain rfl := Option.some.inj (hsocket.symm.trans hsome)
  cases hprogress : hs.progress with
  | complete =>
    have hsound : ∀ conn', some (handshaken P conn hs) = some conn' → conn'.Sound P pin size := by
      rintro _ ⟨⟩
      exact (h.connection conn hsocket).handshaken htls.2 (hidle.unsent htls.1 htls.2) hi hprogress
    have hidle' : (handshaken P conn hs).Idle tls := ⟨hidle.responses, nofun⟩
    refine .quiet (.plain ((h.connected hsound).phase (.kick .sendRequest)) (.ready (hu' _ _) rfl (fun _ => rfl) hidle' hsends) rfl) ?_ rfl
    rw [hsocket]
    rfl
  | failed status => exact failOrRetry_leaves h hu.toOwed hu.timeouts
  | fault => exact absurd hprogress hfault
  | _ =>
    refine .quiet ⟨h.phase (.handshaking hs), ?_, ?_, nofun⟩ rfl rfl
    · exact .opening ⟨⟨hu.routine, hu.answers, hu.refused⟩, hu.waiting, hu.accepted, hu.timeouts⟩ hsocket htls hidle hsends
    · rintro _ ⟨⟩
      exact ⟨hi, by rw [hprogress]; rfl⟩

end Handshake

/-! ### Sending -/

/-- What encrypting the request leaves. -/
structure Encrypted (P : Handshake.Primitives) (pin : Option Digest) (size : SystemSize) (c : Call) (conn : Connection) (p : Call × Connection × Except Status Bytes) : Prop where
  call : ∃ plaintextCapacity recordCapacity, p.1 = { c with plaintextCapacity, recordCapacity }
  sound : p.2.1.Sound P pin size
  id : p.2.1.id = conn.id
  socket : p.2.1.socket = conn.socket
  kept : p.2.1.requests = conn.requests ∧ p.2.1.responses = conn.responses
  record : ∀ record, p.2.2 = .ok record →
    p.2.1.sealed = conn.sealed ++ [(c.requestBuffer, record)] ∧ ∃ keys seq, Trusted P pin keys ∧ Sealed P keys seq c.requestBuffer record

/-- The request takes the next number. -/
theorem seal_sound {conn : Connection} {request record : Bytes} (h : conn.Sound P pin size) (htls : conn.socket.tls = true)
    (hsealed : Sealed P conn.keys conn.writeSeq request record) :
    { conn with writeSeq := (conn.writeSeq + 1) % 2 ^ 64, sealed := conn.sealed ++ [(request, record)] : Connection }.Sound P pin size where
  stream := h.stream
  untouched he := absurd (htls.symm.trans he) (by decide)
  sealed i s hs := by
    have hs' : (conn.sealed ++ [(request, record)])[i]? = some s := hs
    rcases Nat.lt_trichotomy i conn.sealed.length with hlt | rfl | hgt
    · rw [List.getElem?_append_left hlt] at hs'
      exact h.sealed i s hs'
    · rw [List.getElem?_concat_length] at hs'
      obtain rfl := Option.some.inj hs'
      exact h.writeSeq ▸ hsealed
    · rw [List.getElem?_eq_none (by rw [List.length_append, List.length_singleton]; omega)] at hs'
      cases hs'
  writeSeq := by
    show (conn.writeSeq + 1) % 2 ^ 64 = (conn.sealed ++ _).length % 2 ^ 64
    rw [h.writeSeq, List.length_append, List.length_singleton]
    omega
  writeIv := h.writeIv
  trusted := h.trusted
  sent he := (h.sent he).trans (List.sublist_append_left _ _)

theorem encryptRequestRecord_encrypted {conn : Connection} (htext : c.requestBuffer.length + 1 < 2 ^ 32) (hconn : conn.Sound P pin size)
    (htls : conn.socket.tls = true) : Encrypted P pin size c conn (c.encryptRequestRecord P conn k) := by
  have hmax : ciphertextMax = 16401 := rfl
  have htag : tagLength = 16 := rfl
  unfold encryptRequestRecord
  rw [ulong_of_lt htext]
  simp only
  split
  · exact ⟨⟨_, _, rfl⟩, hconn, rfl, rfl, ⟨rfl, rfl⟩, nofun⟩
  rename_i hlong
  have hlen : ulong (c.requestBuffer.length + 1 + tagLength) = c.requestBuffer.length + 1 + tagLength := ulong_of_lt (by omega)
  rw [hlen]
  split
  · exact ⟨⟨_, _, rfl⟩, hconn, rfl, rfl, ⟨rfl, rfl⟩, nofun⟩
  split
  · exact ⟨⟨_, _, rfl⟩, hconn, rfl, rfl, ⟨rfl, rfl⟩, nofun⟩
  split
  · exact ⟨⟨_, _, rfl⟩, hconn, rfl, rfl, ⟨rfl, rfl⟩, nofun⟩
  split
  · exact ⟨⟨_, _, rfl⟩, hconn, rfl, rfl, ⟨rfl, rfl⟩, nofun⟩
  · rename_i ciphertext hciphertext
    have hsealed : Sealed P conn.keys conn.writeSeq c.requestBuffer (sealedHeader c.requestBuffer ++ ciphertext) :=
      ⟨ciphertext, hciphertext, rfl, by omega⟩
    refine ⟨⟨_, _, rfl⟩, seal_sound hconn htls hsealed, rfl, rfl, ⟨rfl, rfl⟩, ?_⟩
    rintro _ ⟨⟩
    exact ⟨rfl, conn.keys, conn.writeSeq, hconn.trusted htls, hsealed⟩

/-- A record is sent once it is sealed. -/
theorem request_sound {conn : Connection} {request bytes : Bytes} (h : conn.Sound P pin size)
    (hsealed : conn.socket.tls = true → ∃ earlier, conn.sealed = earlier ++ [(request, bytes)] ∧ conn.requests.Sublist earlier) :
    { conn with requests := conn.requests ++ [(request, bytes)] : Connection }.Sound P pin size where
  stream := h.stream
  untouched := h.untouched
  sealed := h.sealed
  writeSeq := h.writeSeq
  writeIv := h.writeIv
  trusted := h.trusted
  sent htls := by
    obtain ⟨earlier, heq, hsub⟩ := hsealed htls
    show (conn.requests ++ [(request, bytes)]).Sublist conn.sealed
    rw [heq]
    exact hsub.append_right _

theorem send_leaves {conn conn' : Connection} {buffer : Bytes} (h : Common tls P pin size c) (hu : c.Underway) (hsocket : c.socket = some conn)
    (hsends : c.sent.length ≤ c.rewound) (hconn : conn'.Sound P pin size) (hidle : conn'.Idle tls) (hid : conn'.id = conn.id)
    (hsealed : conn'.socket.tls = true → ∃ earlier, conn'.sealed = earlier ++ [(c.requestBuffer, buffer)] ∧ conn'.requests.Sublist earlier)
    (hsent : Sent P pin c.requestBuffer (conn'.socket.tls, buffer)) (hsecured : tls = true → conn'.socket.tls = true) :
    Leaves tls P pin size c head made (c.send conn' buffer k, .nothing) := by
  have hids : (some conn').map Connection.id = c.socket.map Connection.id := by
    rw [hsocket, Option.map_some, Option.map_some, hid]
  unfold send
  cases k.send with
  | some status =>
    have hsound : ∀ conn'', some conn' = some conn'' → conn''.Sound P pin size := by
      rintro _ ⟨⟩
      exact hconn
    exact .quiet (complete_inv (h.connected hsound) ⟨hu.routine, hu.answers, hu.refused⟩) hids rfl
  | none =>
    have hsound : ∀ conn'', some { conn' with requests := conn'.requests ++ [(c.requestBuffer, buffer)] : Connection } = some conn'' → conn''.Sound P pin size := by
      rintro _ ⟨⟩
      exact request_sound hconn hsealed
    refine .quiet (.plain ⟨h.bounded, hsound, h.workItem, h.rewound, h.pooled, h.attempts, h.timeouts, ?_, ?_, h.text⟩ ?_ rfl) hids rfl
    · show (c.sent ++ [_]).length ≤ c.rewound + 1
      rw [List.length_append, List.length_singleton]
      omega
    · exact List.forall_mem_append.2 ⟨h.sent, List.forall_mem_singleton.2 ⟨hsent, hsecured⟩⟩
    · exact .sent ⟨⟨hu.routine, hu.answers, hu.refused⟩, hu.waiting, hu.accepted, hu.timeouts⟩ rfl (hidle.asked hsecured c.requestBuffer buffer)

theorem kickSend_leaves {conn : Connection} (h : Common tls P pin size c) (hu : c.Underway) (hsocket : c.socket = some conn)
    (hsecured : tls = true → conn.socket.tls = true) (hidle : conn.Idle tls) (hsends : c.sent.length ≤ c.rewound) :
    Leaves tls P pin size c head made (c.kickSend P k) := by
  have hconn := h.connection conn hsocket
  unfold kickSend
  split
  · rename_i hnone
    rw [hsocket] at hnone
    cases hnone
  rename_i conn' hsome
  obtain rfl := Option.some.inj (hsocket.symm.trans hsome)
  split_ifs with htls
  · have hencrypted := encryptRequestRecord_encrypted (P := P) (k := k) h.text hconn htls
    generalize c.encryptRequestRecord P conn k = p at hencrypted ⊢
    obtain ⟨c', conn', result⟩ := p
    obtain ⟨⟨plaintextCapacity, recordCapacity, rfl⟩, hconn', hid, hsame, ⟨hrequests, hresponses⟩, hrecord⟩ := hencrypted
    have h' := h.capacities plaintextCapacity recordCapacity
    have hu' : { c with plaintextCapacity, recordCapacity : Call }.Underway :=
      ⟨⟨hu.routine, hu.answers, hu.refused⟩, hu.waiting, hu.accepted, hu.timeouts⟩
    have htls' : conn'.socket.tls = true := (congrArg Socket.tls hsame).trans htls
    cases result with
    | error status =>
      refine .quiet (complete_inv (h'.connected ?_) ⟨hu.routine, hu.answers, hu.refused⟩) ?_ rfl
      · rintro _ ⟨⟩
        exact hconn'
      · rw [hsocket]
        exact congrArg some hid
    | ok record =>
      have hsent : Sent P pin c.requestBuffer (conn'.socket.tls, record) := ⟨fun he => absurd (htls'.symm.trans he) (by decide), fun _ => (hrecord record rfl).2⟩
      have hidle' : conn'.Idle tls := ⟨hresponses.trans (hidle.responses.trans (congrArg List.length hrequests.symm)), fun _ he => absurd (htls'.symm.trans he) (by decide)⟩
      have hsealed : ∃ earlier, conn'.sealed = earlier ++ [(c.requestBuffer, record)] ∧ conn'.requests.Sublist earlier := by
        refine ⟨conn.sealed, (hrecord record rfl).1, ?_⟩
        rw [hrequests]
        exact hconn.sent htls
      have hleaves : Leaves tls P pin size { c with plaintextCapacity, recordCapacity } head made
          ({ c with plaintextCapacity, recordCapacity : Call }.send conn' record k, .nothing) :=
        send_leaves h' hu' hsocket hsends hconn' hidle' hid (fun _ => hsealed) hsent fun _ => htls'
      exact ⟨hleaves.inv, hleaves.sound, hleaves.ledger, hleaves.freed, hleaves.idle⟩
  · exact send_leaves h hu hsocket hsends hconn hidle rfl (fun he => absurd he htls) ⟨fun _ => rfl, fun he => absurd he htls⟩ hsecured

theorem onSend_leaves {conn : Connection} {result : Option Status} (h : Common tls P pin size c) (hu : c.Underway) (hsocket : c.socket = some conn)
    (hasked : conn.Asked tls c.requestBuffer) : Leaves tls P pin size c head made (c.onSend result) := by
  cases result with
  | some status => exact failOrRetry_leaves h hu.toOwed hu.timeouts
  | none =>
    refine .quiet (.plain (h.phase (.kick .receive)) ?_ rfl) rfl rfl
    exact .sent ⟨⟨hu.routine, hu.answers, hu.refused⟩, hu.waiting, hu.accepted, hu.timeouts⟩ hsocket hasked

/-! ### Receiving -/

/-- What is recorded of a step is no more than what has come and what has been taken off. -/
theorem recorded_eq (c : Call) (conn : Connection) (act : Act) : ∃ wire taken, c.recorded conn act = { conn with wire, taken } := by
  cases act with
  | received chunk k =>
    unfold recorded
    split_ifs <;> exact ⟨_, _, rfl⟩
  | drained k =>
    show ∃ wire taken, drained conn (drain c.request k c.ctx conn.socket) = _
    cases drain c.request k c.ctx conn.socket <;> exact ⟨_, _, rfl⟩
  | _ => exact ⟨_, _, rfl⟩

section Receiving

variable {conn conn' : Connection} (h : Common tls P pin size c) (hu : c.Underway) (hsocket : c.socket = some conn)
include h hu hsocket

/-- What the receiving part comes to. -/
theorem absorb_leaves {s : State} {reused : Bool} (hid : conn'.id = conn.id) (hconn : { conn' with socket := s.socket : Connection }.Sound P pin size)
    (hasked : { conn' with socket := s.socket : Connection }.Asked tls c.requestBuffer)
    (hi : Http.Inv c.request size s) (ha : Answered c.request reused s) (hreused : reused = true → c.source = .reused) :
    Leaves tls P pin size c head made (c.absorb conn' s) := by
  have hsound : ∀ conn'', some { conn' with socket := s.socket : Connection } = some conn'' → conn''.Sound P pin size := by
    rintro _ ⟨⟩
    exact hconn
  have h' := (h.context hi.bounded).connected hsound
  have ho : { c with ctx := s.ctx, socket := some { conn' with socket := s.socket } : Call }.Owed := ⟨hu.routine, hu.answers, hu.refused⟩
  have hids : (some { conn' with socket := s.socket : Connection }).map Connection.id = c.socket.map Connection.id := by
    rw [hsocket]
    exact congrArg some hid
  have hgoes : ∀ stage, s.stage = stage → stage.Live → stage ≠ .connecting →
      Leaves tls P pin size c head made ({ c with ctx := s.ctx, socket := some { conn' with socket := s.socket }, phase := .receiving stage }, .nothing) := by
    intro stage hstage hlive hne
    refine .quiet ⟨h'.phase (.receiving stage), ?_, nofun, ?_⟩ hids rfl
    · exact .sent ⟨⟨hu.routine, hu.answers, hu.refused⟩, hi.waiting (hstage ▸ hlive), ha.accepted (hstage ▸ hlive), hu.timeouts⟩ rfl hasked
    · rintro _ _ ⟨⟩ ⟨⟩
      exact ⟨⟨hi.bounded, hi.fits, fun hl => hi.waiting (hstage ▸ hl), fun post he => hi.posted post (hstage.trans he), fun room he => hi.bulk room (hstage.trans he),
        fun hs => hi.secured (hstage ▸ hs), fun post he => hi.clear post (hstage.trans he)⟩, hlive, hne⟩
  unfold absorb
  cases hstage : s.stage with
  | connecting =>
    have hleaves : Leaves tls P pin size _ head made _ := rewind_leaves h' ho hu.timeouts (hreused (ha.retried hstage))
    refine ⟨hleaves.inv, hleaves.sound, hleaves.ledger.trans ?_, hleaves.freed, hleaves.idle⟩
    rw [hsocket]
    simp [hid, rewind, Effect.nothing]
  | failed status => exact .quiet (complete_inv h' ho) hids rfl
  | responded =>
    refine ⟨.plain (h'.disconnected.phase (.kick .dispatch)) (.responded ⟨hu.routine, hu.answers, hu.refused⟩ rfl (ha.full hstage)) rfl, ?_, ?_, rfl, ?_⟩
    · intro conn'' hmem
      obtain rfl := by simpa [Effect.nothing] using hmem
      exact ⟨hconn.stream, hconn.untouched, hconn.sealed, hconn.writeSeq, hconn.writeIv, hconn.trusted, hconn.sent⟩
    · rw [hsocket]
      simp [Effect.nothing, hid]
    · rintro _ ⟨⟩
      exact hasked.answered
  | receiving post => exact hgoes _ hstage trivial nofun
  | draining => exact hgoes _ hstage trivial nofun
  | bulk room => exact hgoes _ hstage trivial nofun

theorem kickReceive_leaves (hasked : conn.Asked tls c.requestBuffer) : Leaves tls P pin size c head made (c.kickReceive k) := by
  have hconn := h.connection conn hsocket
  unfold kickReceive
  split
  · rename_i hnone
    rw [hsocket] at hnone
    cases hnone
  rename_i conn' hsome
  obtain rfl := Option.some.inj (hsocket.symm.trans hsome)
  have hanswered : Answered c.request false ((c.receiver conn .connecting).issue c.request k.receive) := issue_answered h.bounded hu.waiting hu.accepted
  refine absorb_leaves h hu hsocket rfl ?_ ?_ (issue_inv h.bounded hu.waiting hconn.stream.fits) hanswered nofun
  · rw [issue_socket]
    exact hconn
  · rw [issue_socket]
    exact hasked

theorem onReceive_leaves {stage : Stage} {act : Act} {p : Call × Effect} (hparse : ParsesInside parse) (hasked : conn.Asked tls c.requestBuffer)
    (hi : Http.Inv c.request size (c.receiver conn stage)) (hne : stage ≠ .connecting)
    (hn : c.onReceive parse size stage act = some p) : Leaves tls P pin size c head made p := by
  have hconn := h.connection conn hsocket
  unfold onReceive at hn
  split at hn
  · rename_i hnone
    rw [hsocket] at hnone
    cases hnone
  rename_i conn' hsome
  obtain rfl := Option.some.inj (hsocket.symm.trans hsome)
  obtain ⟨s, hnext, rfl⟩ := Option.map_eq_some_iff.1 hn
  have hanswered := next_answered hparse hi (fun _ => hu.accepted) hnext
  obtain ⟨hsound, htls⟩ := recorded_sound hconn hi rfl rfl hne hnext
  obtain ⟨wire, taken, heq⟩ := recorded_eq c conn act
  rw [heq] at hsound ⊢
  exact absorb_leaves h hu hsocket rfl hsound ⟨hasked.last, fun he => htls.trans (hasked.secured he)⟩ (next_inv hparse hi hnext) hanswered of_decide_eq_true

end Receiving

/-! ### Answering -/

theorem dispatchInline_leaves (h : Common tls P pin size c) (ho : c.Owed) (hsocket : c.socket = none) (hfull : Full c.request c.ctx) :
    Leaves tls P pin size c head made (c.dispatchInline k, .nothing) := by
  unfold dispatchInline
  cases (if c.request.operation = .fileRead then none else k.deserialized) with
  | some status => exact fail_leaves h ho
  | none =>
    simp only [ho.routine, if_true]
    refine .quiet (.plain ((h.answered false (c.answers ++ [none])).phase (.kick .complete)) ?_ rfl) rfl rfl
    refine .succeeded ho.refused ?_ hsocket hfull
    show c.answers ++ [none] = [none]
    rw [ho.answers]
    rfl

/-- What must bounce has a work item. -/
theorem bounce_workItem (h : Common tls P pin size c) (hbounce : c.mustBounceToPassive = true) : c.workItem = true := by
  apply h.workItem
  unfold mustBounceToPassive at hbounce
  simp only [Bool.and_eq_true, decide_eq_true_eq] at hbounce
  exact hbounce.1

theorem queue_eq {phase : Phase} (hwork : c.workItem = true) : c.queue phase = { c with phase } := by
  unfold queue
  rw [if_pos hwork]

theorem kickDispatch_leaves (h : Common tls P pin size c) (ho : c.Owed) (hsocket : c.socket = none) (hfull : Full c.request c.ctx) :
    Leaves tls P pin size c head made (c.kickDispatch k, .nothing) := by
  unfold kickDispatch
  split_ifs with hbounce
  · rw [queue_eq (bounce_workItem h hbounce)]
    exact .quiet (.plain (h.phase .dispatchQueued) (.responded ⟨ho.routine, ho.answers, ho.refused⟩ hsocket hfull) rfl) rfl rfl
  · exact dispatchInline_leaves h ho hsocket hfull

/-- The end of a request: the caller has been told, or is told now. -/
theorem finish_leaves {result : Option Status} (h : Common tls P pin size c) (hstands : c.Stands tls (.ending result)) :
    Leaves tls P pin size c head made (c.finish result) := by
  have h' := h.finalStatus result
  have hsame : { c with finalStatus := result : Call }.Stands tls (.ending result) := by
    cases hstands with
    | succeeded hrefused hanswers hsocket hfull => exact .succeeded hrefused hanswers hsocket hfull
    | failed ho => exact .failed ⟨ho.routine, ho.answers, ho.refused⟩
  unfold finish
  simp only
  split
  · rename_i hbounce
    rw [queue_eq (bounce_workItem h' hbounce)]
    refine .quiet (.plain (h'.phase .completeQueued) ?_ rfl) rfl rfl
    cases hsame with
    | succeeded hrefused hanswers hsocket hfull => exact .succeeded hrefused hanswers hsocket hfull
    | failed ho => exact .failed ⟨ho.routine, ho.answers, ho.refused⟩
  · cases hstands with
    | succeeded hrefused hanswers hsocket hfull =>
      refine ⟨.plain (h'.phase .freed) (.ended hsocket (.succeeded hrefused hanswers hfull)) rfl, nofun, ?_, rfl, nofun⟩
      simp [Effect.nothing]
    | @failed status ho =>
      have htold : (if c.routine then c.answers ++ [some status] else c.answers) = [some status] := by
        rw [ho.routine, ho.answers]
        rfl
      refine ⟨.plain ((h'.answered c.routine _).disconnected.phase .freed) (.ended rfl (.failed ho.refused htold)) rfl, ?_, ?_, rfl, nofun⟩
      · intro conn hmem
        exact h.connection conn (by simpa [Effect.nothing] using hmem)
      · simp [Effect.nothing]

/-! ### A step -/

theorem Inv.stage {phase : Phase} (h : c.Inv tls P pin size) (hphase : c.phase = phase) : c.Stands tls (partOf c.finalStatus phase) := hphase ▸ h.stands

theorem Underway.irql (h : c.Underway) (irql : Irql) : { c with irql }.Underway := ⟨⟨h.routine, h.answers, h.refused⟩, h.waiting, h.accepted, h.timeouts⟩

/-- Where a completion or a work item runs is no matter for what holds. -/
theorem Leaves.of_irql {irql : Irql} {p : Call × Effect} (h : Leaves tls P pin size { c with irql } head made p) : Leaves tls P pin size c head made p :=
  ⟨h.inv, h.sound, h.ledger, h.freed, h.idle⟩

theorem kick_leaves {stage : Kick} (h : c.Inv tls P pin size) (hhead : ∀ conn, head = some conn → conn.Sound P pin size ∧ conn.Idle tls) (hphase : c.phase = .kick stage) :
    Leaves tls P pin size c head made (c.kick P tls head k stage) := by
  cases stage with
  | acquireSocket =>
    have hstands : c.Stands tls .unconnected := h.stage hphase
    cases hstands with
    | unconnected hu hsocket hsends hirql => exact kickAcquire_leaves h.toCommon hu hsocket hsends hirql hhead
  | tlsHandshake =>
    have hstands : c.Stands tls .opening := h.stage hphase
    cases hstands with
    | opening hu hsocket htls hidle hsends => exact kickHandshake_leaves h.toCommon hu hsocket htls hidle hsends
  | sendRequest =>
    have hstands : c.Stands tls .ready := h.stage hphase
    cases hstands with
    | ready hu hsocket hsecured hidle hsends => exact kickSend_leaves h.toCommon hu hsocket hsecured hidle hsends
  | receive =>
    have hstands : c.Stands tls .sent := h.stage hphase
    cases hstands with
    | sent hu hsocket hasked => exact kickReceive_leaves h.toCommon hu hsocket hasked
  | dispatch =>
    have hstands : c.Stands tls .responded := h.stage hphase
    cases hstands with
    | responded ho hsocket hfull => exact kickDispatch_leaves h.toCommon ho hsocket hfull
  | complete =>
    have hstands : c.Stands tls (.ending none) := h.stage hphase
    cases hstands with
    | succeeded hrefused hanswers hsocket hfull =>
      exact .quiet (.plain (h.phase (.completing none)) (.succeeded hrefused hanswers hsocket hfull) rfl) rfl rfl
  | failed =>
    have hstands : c.Stands tls (.ending c.finalStatus) := h.stage hphase
    refine .quiet (.plain (h.phase (.completing c.finalStatus)) ?_ rfl) rfl rfl
    show Stands tls _ (.ending c.finalStatus)
    generalize c.finalStatus = finalStatus at hstands ⊢
    cases hstands with
    | succeeded hrefused hanswers hsocket hfull => exact .succeeded hrefused hanswers hsocket hfull
    | failed ho => exact .failed ⟨ho.routine, ho.answers, ho.refused⟩

theorem work_leaves {p : Call × Effect} (h : c.Inv tls P pin size) (hwork : c.work k = some p) : Leaves tls P pin size c head made p := by
  have hc := h.toCommon.irql .passive
  unfold work at hwork
  split at hwork
  · rename_i hphase
    have hstands : c.Stands tls .unconnected := h.stage hphase
    obtain rfl := Option.some.inj hwork
    cases hstands with
    | unconnected hu hsocket hsends =>
      refine .quiet (.plain (hc.phase (.kick .acquireSocket)) ?_ rfl) rfl rfl
      exact .unconnected ⟨⟨hu.routine, hu.answers, hu.refused⟩, hu.waiting, hu.accepted, hu.timeouts⟩ hsocket hsends fun _ => rfl
  · rename_i hphase
    have hstands : c.Stands tls .opening := h.stage hphase
    obtain rfl := Option.some.inj hwork
    cases hstands with
    | opening hu hsocket htls hidle hsends => exact (startHandshake_leaves hc (hu.irql .passive) hsocket htls hidle hsends).of_irql
  · rename_i hphase
    have hstands : c.Stands tls .responded := h.stage hphase
    obtain rfl := Option.some.inj hwork
    cases hstands with
    | responded ho hsocket hfull => exact (dispatchInline_leaves hc ⟨ho.routine, ho.answers, ho.refused⟩ hsocket hfull).of_irql
  · rename_i hphase
    have hstands : c.Stands tls (.ending c.finalStatus) := h.stage hphase
    obtain rfl := Option.some.inj hwork
    refine .quiet (.plain (hc.phase (.completing c.finalStatus)) ?_ rfl) rfl rfl
    show Stands tls _ (.ending c.finalStatus)
    generalize c.finalStatus = finalStatus at hstands ⊢
    cases hstands with
    | succeeded hrefused hanswers hsocket hfull => exact .succeeded hrefused hanswers hsocket hfull
    | failed ho => exact .failed ⟨ho.routine, ho.answers, ho.refused⟩
  · cases hwork

theorem built_leaves {result : Except Status Bytes} {p : Call × Effect} (h : c.Inv tls P pin size)
    (hn : c.next parse P pin size tls head made (.built result) = some p) : Leaves tls P pin size c head made p := by
  unfold next at hn
  dsimp only at hn
  split at hn
  · rename_i text hphase
    have hstands : c.Stands tls .building := h.stage hphase
    split_ifs at hn with htext
    obtain rfl := Option.some.inj hn
    cases hstands with
    | building hu hsocket hsent hirql =>
      have hnothing : ∀ s ∈ c.sent, Sent P pin text s ∧ (tls = true → s.1 = true) := by
        rw [hsent]
        nofun
      refine .quiet (.plain ⟨h.bounded, h.connection, h.workItem, h.rewound, h.pooled, h.attempts, h.timeouts, h.sends, hnothing, htext⟩ ?_ rfl) rfl rfl
      refine .unconnected ⟨⟨hu.routine, hu.answers, hu.refused⟩, hu.waiting, hu.accepted, hu.timeouts⟩ hsocket ?_ fun _ => hirql
      show c.sent.length ≤ c.rewound
      rw [hsent]
      exact Nat.zero_le _
  · rename_i status hphase
    have hstands : c.Stands tls .building := h.stage hphase
    obtain rfl := Option.some.inj hn
    cases hstands with
    | building hu hsocket _ =>
      refine ⟨.plain ⟨h.bounded, h.connection, h.workItem, h.rewound, h.pooled, h.attempts, h.timeouts, h.sends, h.sent, h.text⟩ ?_ rfl, nofun, ?_, rfl, nofun⟩
      · exact .ended hsocket (.refused rfl hu.answers)
      · simp [Effect.nothing]
  · cases hn

/-- What holds between any two steps holds after a step. -/
theorem next_leaves {act : CallAct} {p : Call × Effect} (hparse : ParsesInside parse) (h : c.Inv tls P pin size)
    (hhead : ∀ conn, head = some conn → conn.Sound P pin size ∧ conn.Idle tls) (hn : c.next parse P pin size tls head made act = some p) :
    Leaves tls P pin size c head made p := by
  cases act with
  | built result => exact built_leaves h hn
  | kick k =>
    unfold next at hn
    dsimp only at hn
    split at hn
    · rename_i stage hphase
      obtain rfl := Option.some.inj hn
      exact kick_leaves h hhead hphase
    · cases hn
  | worker k => exact work_leaves h hn
  | connected result irql =>
    unfold next at hn
    dsimp only at hn
    split at hn
    · rename_i hphase
      have hstands : c.Stands tls .unconnected := h.stage hphase
      obtain rfl := Option.some.inj hn
      cases hstands with
      | unconnected hu hsocket hsends => exact (onConnected_leaves (h.toCommon.irql irql) (hu.irql irql) hsocket hsends).of_irql
    · cases hn
  | handshake act irql =>
    unfold next at hn
    dsimp only at hn
    split at hn
    · rename_i hs hphase
      have hstands : c.Stands tls .opening := h.stage hphase
      obtain ⟨hs', hnext, rfl⟩ := Option.map_eq_some_iff.1 hn
      have hcarried : Handshake.Carried P pin (Begun P pin) := Begun.carried
      have hi := (h.handshaking hs hphase).inv.next hcarried hnext
      have hfault := Handshake.next_ne_fault hnext
      cases hstands with
      | opening hu hsocket htls hidle hsends => exact (onHandshake_leaves (h.toCommon.irql irql) (hu.irql irql) hsocket htls hidle hsends hi hfault).of_irql
    · cases hn
  | sent result irql =>
    unfold next at hn
    dsimp only at hn
    split at hn
    · rename_i hphase
      have hstands : c.Stands tls .sent := h.stage hphase
      obtain rfl := Option.some.inj hn
      cases hstands with
      | sent hu hsocket hasked => exact (onSend_leaves (h.toCommon.irql irql) (hu.irql irql) hsocket hasked).of_irql
    · cases hn
  | receive act irql =>
    unfold next at hn
    dsimp only at hn
    split at hn
    · rename_i stage hphase
      have hstands : c.Stands tls .sent := h.stage hphase
      cases hstands with
      | sent hu hsocket hasked =>
        obtain ⟨hi, _, hne⟩ := h.receiving stage _ hphase hsocket
        exact (onReceive_leaves (h.toCommon.irql (act.irql c.irql irql)) (hu.irql (act.irql c.irql irql)) hsocket hparse hasked hi hne hn).of_irql
    · cases hn
  | complete =>
    unfold next at hn
    dsimp only at hn
    split at hn
    · rename_i status hphase
      obtain rfl := Option.some.inj hn
      exact finish_leaves h.toCommon (h.stage hphase)
    · cases hn

theorem fresh_inv (tls : Bool) (P : Handshake.Primitives) (pin : Option Digest) (size : SystemSize) (r : Request) (address : ℕ) (buffer mdl : ℕ → UInt8) :
    (fresh tls r address buffer mdl).Inv tls P pin size := by
  have hwaiting : Waiting r (Context.fresh r buffer mdl).reset := reset_waiting
  have hattempts : 0 < connectAttempts := by decide
  have htext : ([] : Bytes).length + 1 < 2 ^ 32 := by decide
  refine .plain ⟨fresh_bounded r buffer mdl, nofun, ?_, Nat.zero_le _, fun _ => ⟨rfl, rfl⟩, hattempts, Nat.zero_le _, Nat.zero_le _, nofun, htext⟩ ?_ rfl
  · intro hop
    have hop' : r.operation ≠ .fileRead := hop
    simp [fresh, hop']
  · exact .building ⟨⟨rfl, rfl, rfl⟩, hwaiting, fun h => absurd rfl h, rfl⟩ rfl rfl rfl

/-- A request that is over takes no step. -/
theorem next_live {act : CallAct} {p : Call × Effect} (hn : c.next parse P pin size tls head made act = some p) : Phase.live c.phase = true := by
  cases hphase : c.phase with
  | freed => cases act <;> simp [next, work, hphase] at hn
  | _ => rfl

end Call

end BlorgFS.Http
