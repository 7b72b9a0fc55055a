import BlorgFS.Http.CallLevels
import BlorgFS.Http.ClientRuns

/-! What the client keeps in every run: connections are neither lost nor shared, a response answers the
request that was sent last, a caller is told once and of a success only when the response is there, the
unload ends with nothing left, and whatever a peer sends stays within what it is for. -/

namespace BlorgFS.Http

open Lib Tls

namespace Client

variable {tls : Bool} {P : Handshake.Primitives} {pin : Option Digest} {parse : Bytes → Parsed} {size : SystemSize} {x x' : Client}

namespace Sample

def request : Bytes := ascii "GET"

def zeros : ℕ → UInt8 := fun _ => 0

/-- Nothing is denied, and the handshake is the sample's. -/
def granted : Answers where
  workItem := true
  connect := none
  hello := .ok ⟨Handshake.Sample.clientPrivate, Handshake.Sample.clientPublic, Handshake.Sample.clientHello⟩
  plaintext := true
  record := true
  send := none
  receive := willing
  deserialized := none

/-- A read of three bytes is issued and asks for a connection. -/
def asks (i : ℕ) : List ClientAct := [.issue (.getFileMdl 3) 1 zeros zeros, .call i (.built (.ok request)), .call i (.kick granted)]

/-- It is sent on the connection it has got, and is answered. -/
def answered (i : ℕ) : List ClientAct :=
  [.call i (.kick granted), .call i (.sent none .dispatch), .call i (.kick granted), .call i (.receive (.received [1, 2, 3, 4, 5, 6, 7] willing) .dispatch),
    .call i (.kick granted), .call i (.kick granted), .call i .complete]

/-- One read makes a connection. Another is to go out on it and, when it fails, makes one of its own. The
client is torn down behind them. -/
def visit : List ClientAct :=
  asks 0 ++ [.call 0 (.connected (.ok zeros) .dispatch)] ++ answered 0 ++
    asks 1 ++ [.call 1 (.kick granted), .call 1 (.sent (some .connectionDisconnected) .dispatch), .call 1 (.kick granted), .call 1 (.worker granted),
      .call 1 (.kick granted), .call 1 (.connected (.ok zeros) .dispatch)] ++ answered 1 ++
    [.drain, .latch, .observe, .cleanup, .cleanup]

theorem threeBytes_inside : ParsesInside threeBytes := by
  intro b n code hs h
  unfold threeBytes at h
  split_ifs at h with hl
  injection h
  omega

theorem reached {P : Handshake.Primitives} {acts : List ClientAct} {x : Client}
    (h : run (next threeBytes P (some Handshake.Sample.pin) .small tls) initial acts = some x) :
    (system threeBytes P (some Handshake.Sample.pin) .small tls).Reachable x := by
  refine System.Reachable.run ?_ (.init rfl) h
  exact fun x act x' hnext => ⟨act, hnext⟩

theorem visit_ends : (run (next threeBytes Handshake.Sample.platform (some Handshake.Sample.pin) .small false) initial visit).map
    (fun x => (x.unload, x.calls.map fun c => (c.answers, c.sent.length))) = some (.cleaned, [([none], 1), ([none], 2)]) := by decide +kernel

/-- What the client has come to in the end. -/
structure Visited (x : Client) : Prop where
  reachable : (system threeBytes Handshake.Sample.platform (some Handshake.Sample.pin) .small false).Reachable x
  unload : x.unload = .cleaned
  calls : (x.calls.map fun c => (c.answers, c.sent.length)) = [([none], 1), ([none], 2)]

theorem visited : ∃ x, Visited x := by
  obtain ⟨x, hrun, hend⟩ := Option.map_eq_some_iff.1 visit_ends
  exact ⟨x, reached hrun, (Prod.mk.inj hend).1, (Prod.mk.inj hend).2⟩

/-- The second read has been sent on the connection of the first. -/
def reuse : List ClientAct := asks 0 ++ [.call 0 (.connected (.ok zeros) .dispatch)] ++ answered 0 ++ asks 1 ++ [.call 1 (.kick granted)]

theorem reuse_ends : (run (next threeBytes Handshake.Sample.platform (some Handshake.Sample.pin) .small false) initial reuse).map
    (fun x => x.calls.map fun c => (Call.partOf c.finalStatus c.phase, c.socket.map Connection.responses)) =
      some [(.ended, none), (.sent, some 1)] := by decide +kernel

end Sample

/-! ### The connections -/

theorem Inv.freed (h : x.Inv tls P pin size) (hactive : x.active = 0) {c : Call} (hc : c ∈ x.calls) : c.phase = .freed := by
  cases hphase : c.phase with
  | freed => rfl
  | _ =>
    have := (h.unlatched hc (by rw [hphase]; rfl)).1
    omega

/-- No step is left once the client is torn down. -/
theorem Inv.torn (h : x.Inv tls P pin size) (hcleaned : x.unload = .cleaned) {act : ClientAct} (hn : x.next parse P pin size tls act = some x') : x' = x := by
  have hactive : x.active = 0 := h.latched (by rw [hcleaned]; decide) (by rw [hcleaned]; decide)
  have hwarming := h.stopped (.inr hcleaned)
  cases act with
  | issue => simpa [next, hactive] using hn.symm
  | call i act =>
    unfold next at hn
    dsimp only at hn
    split at hn
    · cases hn
    · rename_i c hc
      obtain ⟨p, hnext, rfl⟩ := Option.map_eq_some_iff.1 hn
      have hlive := Call.next_live hnext
      rw [h.freed hactive (List.mem_of_getElem? hc)] at hlive
      cases hlive
  | warm act => cases act <;> simp [next, Client.warm, hwarming, hcleaned] at hn
  | drain => simp [next, hcleaned] at hn
  | latch => simp [next, hcleaned] at hn
  | observe => simp [next, hcleaned] at hn
  | cleanup => simp [next, hcleaned] at hn

/-- A step of the prewarm changes neither the requests nor the event. -/
theorem warm_kept {act : WarmAct} (hn : x.warm P pin size tls act = some x') : x'.event = x.event ∧ x'.calls = x.calls := by
  have hrelease : ∀ (y : Client) (conn : Connection), (y.release conn).event = y.event ∧ (y.release conn).calls = y.calls := by
    intro y conn
    unfold release
    split_ifs <;> exact ⟨rfl, rfl⟩
  unfold warm at hn
  split at hn
  · split at hn
    · obtain rfl := Option.some.inj hn
      exact ⟨rfl, rfl⟩
    · obtain rfl := Option.some.inj hn
      exact ⟨rfl, rfl⟩
    · cases hn
  · rename_i result address
    split at hn
    · obtain rfl := Option.some.inj hn
      unfold prewarmStepComplete
      cases result with
      | error status => exact ⟨rfl, rfl⟩
      | ok buffer =>
        dsimp only
        split_ifs
        · exact ⟨rfl, rfl⟩
        · exact hrelease _ _
    · cases hn
  · split at hn
    · obtain rfl := Option.some.inj hn
      exact ⟨rfl, rfl⟩
    · obtain rfl := Option.some.inj hn
      exact ⟨rfl, rfl⟩
    · cases hn
  · split at hn
    · obtain ⟨hs, _, rfl⟩ := Option.map_eq_some_iff.1 hn
      unfold prewarmHandshake
      split
      · exact hrelease _ _
      · exact ⟨rfl, rfl⟩
      · exact ⟨rfl, rfl⟩
    · cases hn
  · split at hn
    · obtain rfl := Option.some.inj hn
      exact ⟨rfl, rfl⟩
    · cases hn

/-- Once no reference is left no request starts or goes on. -/
theorem Inv.drained (h : x.Inv tls P pin size) (hevent : x.event = true) {act : ClientAct} (hn : x.next parse P pin size tls act = some x') :
    x'.event = true ∧ x'.calls = x.calls := by
  have hactive := h.event.1 hevent
  cases act with
  | issue =>
    obtain rfl : x = x' := by simpa [next, hactive] using hn
    exact ⟨hevent, rfl⟩
  | call i act =>
    unfold next at hn
    dsimp only at hn
    split at hn
    · cases hn
    · rename_i c hc
      obtain ⟨p, hnext, rfl⟩ := Option.map_eq_some_iff.1 hn
      have hlive := Call.next_live hnext
      rw [h.freed hactive (List.mem_of_getElem? hc)] at hlive
      cases hlive
  | warm act =>
    obtain ⟨hkept, hcalls⟩ := warm_kept hn
    exact ⟨hkept.trans hevent, hcalls⟩
  | drain =>
    unfold next at hn
    dsimp only at hn
    split_ifs at hn
    obtain rfl := Option.some.inj hn
    exact ⟨by rw [releaseActive, hevent]; rfl, rfl⟩
  | latch =>
    unfold next at hn
    dsimp only at hn
    split_ifs at hn
    obtain rfl := Option.some.inj hn
    exact ⟨hevent, rfl⟩
  | observe =>
    unfold next at hn
    dsimp only at hn
    split at hn
    · obtain rfl := Option.some.inj hn
      exact ⟨hevent, rfl⟩
    · cases hn
  | cleanup =>
    unfold next at hn
    dsimp only at hn
    split_ifs at hn
    split at hn
    · obtain rfl := Option.some.inj hn
      exact ⟨hevent, rfl⟩
    · obtain rfl := Option.some.inj hn
      exact ⟨hevent, rfl⟩

/-- Every connection that has been made is in one place: a request or the prewarm has it, or the pool,
which holds no more than it may, or it has been closed. When the client has been torn down each has been
closed once, and nothing happens any more. -/
theorem connections_accounted (hparse : ParsesInside parse) (h : (system parse P pin size tls).Reachable x) :
    (∀ id, x.places id = if id < x.made then 1 else 0) ∧ x.pool.length ≤ maxPoolSize ∧
    (x.unload = .cleaned → (x.closed.map Connection.id).Perm (List.range x.made) ∧
      ∀ act x', x.next parse P pin size tls act = some x' → x' = x) := by
  have hi := reachable_inv hparse h
  refine ⟨hi.places, hi.room, fun hcleaned => ⟨?_, fun act x' => hi.torn hcleaned⟩⟩
  have hactive : x.active = 0 := hi.latched (by rw [hcleaned]; decide) (by rw [hcleaned]; decide)
  have hcalls : ∀ id, tally (fun c => tally (counts id) c.socket.toList) x.calls = 0 := by
    intro id
    apply tally_eq_zero
    intro c hc
    have hstands := (hi.calls c hc).stage (hi.freed hactive hc)
    cases hstands with
    | ended hsocket => rw [hsocket]; rfl
  rw [List.perm_iff_count]
  intro id
  have hplaces := hi.places id
  unfold Client.places at hplaces
  rw [hi.cleaned hcleaned, hi.stopped (.inr hcleaned), hcalls] at hplaces
  have hcount : (x.closed.map Connection.id).count id = tally (counts id) x.closed := by
    generalize x.closed = closed
    induction closed with
    | nil => rfl
    | cons conn closed ih => rw [List.map_cons, List.count_cons, ih, tally_cons, counts, Nat.add_comm]; simp only [beq_iff_eq]
  rw [hcount, List.count_range]
  simpa [Warming.held] using hplaces

theorem connections_accounted_visited : ∃ x, Sample.Visited x ∧ (x.closed.map Connection.id).Perm (List.range x.made) := by
  obtain ⟨x, h⟩ := Sample.visited
  exact ⟨x, h, ((connections_accounted Sample.threeBytes_inside h.reachable).2.2 h.unload).1⟩

/-- The code never uses what is not there. A caller is told no more than once, and of a success only when
the response is there in full; and when a request is over it has no connection and its caller has been told, if
not at once. -/
theorem answered_once (hparse : ParsesInside parse) (h : (system parse P pin size tls).Reachable x) :
    ∀ c ∈ x.calls, c.phase ≠ .misuse ∧ c.answers.length ≤ 1 ∧ (none ∈ c.answers → Full c.request c.ctx) ∧
      (c.phase = .freed → c.socket = none ∧ c.answers.length = if c.refused then 0 else 1) := by
  intro c hc
  have hi := (reachable_inv hparse h).calls c hc
  have hover : c.phase = .freed → c.socket = none ∧ c.answers.length = if c.refused then 0 else 1 := by
    intro hphase
    have hstands := hi.stage hphase
    cases hstands with
    | ended hsocket htold =>
      refine ⟨hsocket, ?_⟩
      cases htold with
      | refused hrefused hanswers => rw [hrefused, hanswers]; rfl
      | failed hrefused hanswers => rw [hrefused, hanswers]; rfl
      | succeeded hrefused hanswers _ => rw [hrefused, hanswers]; rfl
  have hstands := hi.stands
  have howed : c.Owed → c.answers.length ≤ 1 ∧ (none ∈ c.answers → Full c.request c.ctx) := by
    intro ho
    rw [ho.answers]
    exact ⟨Nat.zero_le 1, nofun⟩
  have hsuccess : c.answers = [none] → Full c.request c.ctx → c.answers.length ≤ 1 ∧ (none ∈ c.answers → Full c.request c.ctx) :=
    fun hanswers hfull => ⟨by rw [hanswers]; exact Nat.le_refl 1, fun _ => hfull⟩
  have hmisuse : c.phase ≠ .misuse := by
    intro hphase
    rw [hphase] at hstands
    cases hstands
  generalize Call.partOf c.finalStatus c.phase = part at hstands
  have hall : c.answers.length ≤ 1 ∧ (none ∈ c.answers → Full c.request c.ctx) := by
    cases hstands with
    | building hu | unconnected hu | opening hu | ready hu | sent hu => exact howed hu.toOwed
    | responded ho | failed ho => exact howed ho
    | succeeded _ hanswers _ hfull => exact hsuccess hanswers hfull
    | ended _ htold =>
      cases htold with
      | refused _ hanswers => rw [hanswers]; exact ⟨Nat.zero_le 1, nofun⟩
      | failed _ hanswers => rw [hanswers]; exact ⟨Nat.le_refl 1, by simp⟩
      | succeeded _ hanswers hfull => exact hsuccess hanswers hfull
  exact ⟨hmisuse, hall.1, hall.2, hover⟩

theorem answered_once_visited : ∃ x, Sample.Visited x ∧ ∀ c ∈ x.calls, none ∈ c.answers → Full c.request c.ctx := by
  obtain ⟨x, h⟩ := Sample.visited
  exact ⟨x, h, fun c hc => (answered_once Sample.threeBytes_inside h.reachable c hc).2.2.1⟩

/-- The event is set once the unload has begun and every request is over. From then on no request starts
and none goes on, and the event stays set. Behind the latch the prewarm has nothing out, so nothing is
queued to a device object that is gone. -/
theorem drained_safely (hparse : ParsesInside parse) (h : (system parse P pin size tls).Reachable x) :
    (x.event = true ↔ x.unload ≠ .running ∧ ∀ c ∈ x.calls, c.phase = .freed) ∧
    (x.event = true → ∀ act x', x.next parse P pin size tls act = some x' → x'.event = true ∧ x'.calls = x.calls) ∧
    (x.unload = .stopped ∨ x.unload = .cleaned → x.warming = .idle ∧ ∀ c ∈ x.calls, c.phase = .freed) := by
  have hi := reachable_inv hparse h
  have hover : x.active = 0 → ∀ c ∈ x.calls, c.phase = .freed := fun hactive c hc => hi.freed hactive hc
  refine ⟨⟨fun hevent => ?_, fun hover => ?_⟩, fun hevent act x' hn => ?_, fun hstopped => ⟨hi.stopped hstopped, hover (hi.latched ?_ ?_)⟩⟩
  · have hactive := hi.event.1 hevent
    refine ⟨fun hrunning => ?_, hover hactive⟩
    have := hi.active
    rw [if_pos hrunning] at this
    omega
  · have hlive : x.live = 0 := tally_eq_zero fun c hc => by rw [hover.2 c hc]; rfl
    rw [hi.event, hi.active, if_neg hover.1, hlive]
    rfl
  · exact hi.drained hevent hn
  · rcases hstopped with hs | hs <;> rw [hs] <;> decide
  · rcases hstopped with hs | hs <;> rw [hs] <;> decide

theorem drained_safely_visited : ∃ x, Sample.Visited x ∧ x.warming = .idle ∧ ∀ c ∈ x.calls, c.phase = .freed := by
  obtain ⟨x, h⟩ := Sample.visited
  exact ⟨x, h, (drained_safely Sample.threeBytes_inside h.reachable).2.2 (.inr h.unload)⟩

/-! ### What is received -/

/-- Whatever the peer sends, on a connection of any age and in an attempt of any number, nothing is written
outside its destination, and every receive that is out is for something and ends inside. -/
theorem requests_bounded (hparse : ParsesInside parse) (h : (system parse P pin size tls).Reachable x) :
    ∀ c ∈ x.calls, (∀ e ∈ c.ctx.log, e.Safe c.request) ∧
      (∀ post, c.phase = .receiving (.receiving post) → 0 < post.size ∧ PostInside c.request c.ctx post) ∧
      (∀ room conn, c.phase = .receiving (.bulk room) → c.socket = some conn → 0 < room ∧ conn.socket.acc.length + room ≤ recvCapacity size) := by
  intro c hc
  have hi := (reachable_inv hparse h).calls c hc
  refine ⟨hi.bounded.log_safe, fun post hphase => ?_, fun room conn hphase hsocket => ?_⟩
  · have hstands : c.Stands tls .sent := hi.stage hphase
    cases hstands with
    | sent hu hsocket _ =>
      obtain ⟨hreceiving, _, _⟩ := hi.receiving _ _ hphase hsocket
      obtain ⟨heq, hpos⟩ := hreceiving.posted post rfl
      have heq' : post = postOf c.request c.ctx := heq
      exact ⟨hpos, heq' ▸ postOf_inside hu.waiting⟩
  · obtain ⟨hreceiving, _, _⟩ := hi.receiving _ conn hphase hsocket
    obtain ⟨heq, hpos⟩ := hreceiving.bulk room rfl
    have hroom : room = recvCapacity size - conn.socket.acc.length := heq.trans hreceiving.fits.room_eq
    exact ⟨hpos, by omega⟩

theorem requests_bounded_visited : ∃ x, Sample.Visited x ∧ ∀ c ∈ x.calls, ∀ e ∈ c.ctx.log, e.Safe c.request := by
  obtain ⟨x, h⟩ := Sample.visited
  exact ⟨x, h, fun c hc => (requests_bounded Sample.threeBytes_inside h.reachable c hc).1⟩

/-- Wherever completions and work items run, a connect is issued below `DISPATCH_LEVEL`, a handshake is
started at `PASSIVE_LEVEL`, and there, but for a read, a caller is told. -/
theorem levels_kept (hparse : ParsesInside parse) (h : (system parse P pin size tls).Reachable x) {i : ℕ} {act : CallAct} {c c' : Call}
    (hn : x.next parse P pin size tls (.call i act) = some x') (hc : x.calls[i]? = some c) (hc' : x'.calls[i]? = some c') : Call.Levels c c' := by
  unfold next at hn
  dsimp only at hn
  rw [hc] at hn
  obtain ⟨⟨c₁, e⟩, hnext, rfl⟩ := Option.map_eq_some_iff.1 hn
  obtain ⟨pool, closed, heq, _⟩ := perform_eq x i c₁ e
  rw [heq] at hc'
  have hlt : i < x.calls.length := (List.getElem?_eq_some_iff.1 hc).1
  have hset : (x.calls.set i c₁)[i]? = some c₁ := List.getElem?_set_self hlt
  obtain rfl := Option.some.inj (hset.symm.trans hc')
  exact Call.next_levels ((reachable_inv hparse h).calls c (List.mem_of_getElem? hc)) hnext

/-- A read that has been built. -/
def Sample.asking : Call := { Call.fresh false (.getFileMdl 3) 1 Sample.zeros Sample.zeros with requestBuffer := Sample.request, phase := .kick .acquireSocket }

theorem levels_kept_asks : (system threeBytes Handshake.Sample.platform (some Handshake.Sample.pin) .small false).Reachable
    { initial with calls := [Sample.asking], active := 2 } ∧ Call.Levels Sample.asking { Sample.asking with phase := .connecting } := by
  have hrun : run (next threeBytes Handshake.Sample.platform (some Handshake.Sample.pin) .small false) initial
      [.issue (.getFileMdl 3) 1 Sample.zeros Sample.zeros, .call 0 (.built (.ok Sample.request))] =
      some { initial with calls := [Sample.asking], active := 2 } := rfl
  have hreach := Sample.reached hrun
  have hnext : next threeBytes Handshake.Sample.platform (some Handshake.Sample.pin) .small false { initial with calls := [Sample.asking], active := 2 }
      (.call 0 (.kick Sample.granted)) = some { initial with calls := [{ Sample.asking with phase := .connecting }], active := 2 } := rfl
  exact ⟨hreach, levels_kept Sample.threeBytes_inside hreach hnext rfl rfl⟩

end Client

end BlorgFS.Http
