import BlorgFS.Http.CallSteps

/-! At what interrupt level a request does what. Its completions run where they like; a work item is
queued where what comes next may not run there. -/

namespace BlorgFS.Http

open Lib Tls

namespace Call

/-- The phases that may be come to at any level. -/
def Phase.anywhere : Phase → Bool
  | .connecting | .handshaking _ => false
  | _ => true

/-- What a step does where: a connect is issued below `DISPATCH_LEVEL`, a handshake is started at
`PASSIVE_LEVEL`, and there, but for a read, the caller is told. -/
structure Levels (c c' : Call) : Prop where
  connect : c'.phase = .connecting → c'.irql ≠ .dispatch
  handshake : ∀ hs', c'.phase = .handshaking hs' → c'.irql = .passive ∨ ∃ hs, c.phase = .handshaking hs
  told : c'.answers = c.answers ∨ c.request.operation = .fileRead ∨ c'.irql = .passive

variable {tls : Bool} {P : Handshake.Primitives} {pin : Option Digest} {parse : Bytes → Parsed} {size : SystemSize} {c c' : Call} {head : Option Connection}
  {made : ℕ} {k : Answers}

theorem Levels.of_told (hphase : Phase.anywhere c'.phase = true) (htold : c'.answers = c.answers ∨ c.request.operation = .fileRead ∨ c'.irql = .passive) :
    Levels c c' where
  connect he := by
    rw [he] at hphase
    cases hphase
  handshake hs he := by
    rw [he] at hphase
    cases hphase
  told := htold

theorem Levels.other (hphase : Phase.anywhere c'.phase = true) (hanswers : c'.answers = c.answers) : Levels c c' := .of_told hphase (.inl hanswers)

theorem Levels.of_irql {irql : Irql} (h : Levels { c with irql } c') : Levels c c' := ⟨h.connect, h.handshake, h.told⟩

theorem failOrRetry_levels (status : Status) : Levels c (c.failOrRetry status).1 := by
  unfold failOrRetry
  split_ifs <;> exact .other rfl rfl

theorem onSocket_levels (reused : Bool) (result : Except Status Connection) : Levels c (c.onSocket tls reused result) := by
  unfold onSocket
  cases result with
  | error status => dsimp only; split_ifs <;> exact .other rfl rfl
  | ok conn => exact .other rfl rfl

theorem connect_levels (hirql : c.irql ≠ .dispatch) : Levels c (c.connect k) := by
  unfold connect
  split
  · exact .other rfl rfl
  · exact ⟨fun _ => hirql, nofun, .inl rfl⟩

theorem acquire_levels (hirql : c.irql ≠ .dispatch) : Levels c (c.acquire tls head k).1 := by
  unfold acquire
  split_ifs
  · exact connect_levels hirql
  · split
    · exact connect_levels hirql
    · rename_i conn
      split_ifs
      · exact onSocket_levels true (.ok conn)
      · exact connect_levels hirql

/-- A connection that need not be fresh is asked for where the request is issued. -/
theorem kickAcquire_levels (hpassive : c.source ≠ .fresh → c.irql = .passive) : Levels c (c.kickAcquire tls head k).1 := by
  unfold kickAcquire
  split_ifs with hbounce
  · exact .other rfl rfl
  · exact .other rfl rfl
  · apply acquire_levels
    intro hdispatch
    by_cases hfresh : c.source = .fresh
    · exact hbounce ⟨hfresh, hdispatch⟩
    · rw [hpassive hfresh] at hdispatch
      cases hdispatch

theorem startHandshake_levels (hirql : c.irql = .passive) : Levels c (c.startHandshake k).1 := by
  unfold startHandshake
  split
  · exact .other rfl rfl
  · split
    · exact failOrRetry_levels _
    · exact ⟨nofun, fun _ _ => .inl hirql, .inl rfl⟩

theorem kickHandshake_levels : Levels c (c.kickHandshake k).1 := by
  unfold kickHandshake
  split_ifs with hirql
  · exact startHandshake_levels hirql
  · exact .other rfl rfl
  · exact .other rfl rfl

theorem onHandshake_levels {hs hs' : Handshake.State} {irql : Irql} (hphase : c.phase = .handshaking hs) : Levels c ({ c with irql }.onHandshake P hs').1 := by
  unfold onHandshake
  split
  · exact .other rfl rfl
  · split
    · exact .other rfl rfl
    · exact Levels.of_irql (failOrRetry_levels _)
    · exact ⟨nofun, fun _ _ => .inr ⟨hs, hphase⟩, .inl rfl⟩

theorem kickSend_levels : Levels c (c.kickSend P k).1 := by
  have hsend : ∀ (c₁ : Call) (conn : Connection) (buffer : Bytes), c₁.answers = c.answers → Levels c (c₁.send conn buffer k) := by
    intro c₁ conn buffer hanswers
    unfold send
    split <;> exact .other rfl hanswers
  unfold kickSend
  split
  · exact .other rfl rfl
  · rename_i conn _
    split_ifs
    · have hkept : (c.encryptRequestRecord P conn k).1.answers = c.answers := by
        unfold encryptRequestRecord
        simp only
        split
        · rfl
        split
        · rfl
        split
        · rfl
        split
        · rfl
        split <;> rfl
      split
      · rename_i heq
        rw [heq] at hkept
        exact .other rfl hkept
      · rename_i heq
        rw [heq] at hkept
        exact hsend _ _ _ hkept
    · exact hsend _ _ _ rfl

theorem absorb_levels (conn : Connection) (s : State) : Levels c (c.absorb conn s).1 := by
  unfold absorb
  dsimp only
  split <;> exact .other rfl rfl

theorem dispatchInline_levels (h : c.request.operation ≠ .fileRead → c.irql = .passive) : Levels c (c.dispatchInline k) := by
  unfold dispatchInline
  split
  · exact .other rfl rfl
  · split_ifs
    · exact .of_told rfl (.inr (or_iff_not_imp_left.2 h))
    · exact .other rfl rfl

theorem unbounced (h : ¬ c.mustBounceToPassive = true) : c.request.operation ≠ .fileRead → c.irql = .passive := by
  intro hop
  by_contra hirql
  exact h (by simp [mustBounceToPassive, hop, hirql])

theorem kickDispatch_levels : Levels c (c.kickDispatch k) := by
  unfold kickDispatch
  split_ifs with hbounce
  · unfold queue
    split_ifs <;> exact .other rfl rfl
  · exact dispatchInline_levels (unbounced hbounce)

theorem finish_levels {result : Option Status} : Levels c (c.finish result).1 := by
  unfold finish
  simp only
  split
  · unfold queue
    split_ifs <;> exact .other rfl rfl
  · rename_i hbounce
    have hpassive : c.request.operation ≠ .fileRead → c.irql = .passive := unbounced hbounce
    cases result with
    | none => exact .other rfl rfl
    | some status => exact .of_told rfl (.inr (or_iff_not_imp_left.2 hpassive))

theorem next_levels {act : CallAct} {p : Call × Effect} (h : c.Inv tls P pin size) (hn : c.next parse P pin size tls head made act = some p) :
    Levels c p.1 := by
  cases act with
  | built result =>
    unfold next at hn
    dsimp only at hn
    split at hn
    · split_ifs at hn
      obtain rfl := Option.some.inj hn
      exact .other rfl rfl
    · obtain rfl := Option.some.inj hn
      exact .other rfl rfl
    · cases hn
  | kick k =>
    unfold next at hn
    dsimp only at hn
    split at hn
    · rename_i stage hphase
      obtain rfl := Option.some.inj hn
      cases stage with
      | acquireSocket =>
        have hstands : c.Stands tls .unconnected := h.stage hphase
        cases hstands with
        | unconnected _ _ _ hirql => exact kickAcquire_levels hirql
      | tlsHandshake => exact kickHandshake_levels
      | sendRequest => exact kickSend_levels
      | receive =>
        show Levels c (c.kickReceive k).1
        unfold kickReceive
        split
        · exact .other rfl rfl
        · exact absorb_levels _ _
      | dispatch => exact kickDispatch_levels
      | complete => exact .other rfl rfl
      | failed => exact .other rfl rfl
    · cases hn
  | worker k =>
    have hwork : c.work k = some p := hn
    unfold work at hwork
    split at hwork
    · obtain rfl := Option.some.inj hwork
      exact .other rfl rfl
    · obtain rfl := Option.some.inj hwork
      exact .of_irql (startHandshake_levels rfl)
    · obtain rfl := Option.some.inj hwork
      exact .of_irql (dispatchInline_levels fun _ => rfl)
    · obtain rfl := Option.some.inj hwork
      exact .other rfl rfl
    · cases hwork
  | connected result irql =>
    unfold next at hn
    dsimp only at hn
    split at hn
    · obtain rfl := Option.some.inj hn
      unfold onConnected
      cases result with
      | error status =>
        have hsocket : Levels c ({ c with irql, timedOut := if status = .ioTimeout then c.timedOut + 1 else c.timedOut : Call }.onSocket tls false (.error status)) := by
          unfold onSocket
          dsimp only
          split_ifs <;> exact .other rfl rfl
        exact hsocket
      | ok buffer => exact .of_irql (onSocket_levels false (.ok (.fresh made c.address buffer)))
    · cases hn
  | handshake act irql =>
    unfold next at hn
    dsimp only at hn
    split at hn
    · rename_i hs hphase
      obtain ⟨hs', _, rfl⟩ := Option.map_eq_some_iff.1 hn
      exact onHandshake_levels hphase
    · cases hn
  | sent result irql =>
    unfold next at hn
    dsimp only at hn
    split at hn
    · obtain rfl := Option.some.inj hn
      unfold onSend
      cases result with
      | none => exact .other rfl rfl
      | some status => exact .of_irql (failOrRetry_levels status)
    · cases hn
  | receive act irql =>
    unfold next at hn
    dsimp only at hn
    split at hn
    · unfold onReceive at hn
      split at hn
      · obtain rfl := Option.some.inj hn
        exact .other rfl rfl
      · obtain ⟨s, _, rfl⟩ := Option.map_eq_some_iff.1 hn
        exact .of_irql (absorb_levels _ s)
    · cases hn
  | complete =>
    unfold next at hn
    dsimp only at hn
    split at hn
    · obtain rfl := Option.some.inj hn
      exact finish_levels
    · cases hn

end Call

end BlorgFS.Http
